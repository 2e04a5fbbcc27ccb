import PredTrans.Storage.Checksum

/-! Each checkpoint writes its header into the slot that is not active and then makes that slot the
active one. Opening the file reads both slots and continues with the header of the higher
iteration. -/

namespace PredTrans.Storage

open Library List

def blockHeaderSize : Nat := 8
def fileHeaderSize : Nat := 4096
def versionNumber : UInt64 := 64
def flagCount : Nat := 4
def maxVersionSize : Nat := 32
def magicBytes : List UInt8 := [0x44, 0x55, 0x43, 0x4b]
def invalidBlock : UInt64 := 0xffffffffffffffff

inductive LoadError where
  | notADatabase
  | wrongVersion (version : UInt64)
  | corrupt (computed stored : UInt64)
  deriving DecidableEq, Repr

structure DatabaseHeader where
  iteration : UInt64
  metaBlock : UInt64
  freeList : UInt64
  blockCount : UInt64
  deriving DecidableEq, Repr

namespace DatabaseHeader

def write (h : DatabaseHeader) : List UInt8 :=
  storeWord h.iteration ++ (storeWord h.metaBlock ++
    (storeWord h.freeList ++ storeWord h.blockCount))

def read (bs : List UInt8) : DatabaseHeader where
  iteration := loadWord bs
  metaBlock := loadWord (bs.drop 8)
  freeList := loadWord (bs.drop 16)
  blockCount := loadWord (bs.drop 24)

theorem read_write (h : DatabaseHeader) (bs : List UInt8) : read (h.write ++ bs) = h := by
  simp [read,write,drop_storeWord _ 8,drop_storeWord _ 16]

end DatabaseHeader

/-- The texts that the build itself supplies, `LibraryVersion` and `SourceID`. -/
structure Build where
  libraryVersion : List UInt8
  sourceId : List UInt8

structure MainHeader where
  versionNumber : UInt64
  flags : List UInt64
  libraryGitDesc : List UInt8
  libraryGitHash : List UInt8

/-- A text cut off or filled up with zeros to the size of its field. -/
def serializeVersionNumber (versionStr : List UInt8) : List UInt8 :=
  versionStr.take maxVersionSize ++ replicate (maxVersionSize - versionStr.length) 0

theorem serializeVersionNumber_length (versionStr : List UInt8) :
    (serializeVersionNumber versionStr).length = maxVersionSize := by
  simp only [serializeVersionNumber,length_append,length_take,length_replicate]
  omega

/-- The main header of a new database, whose flags are cleared. -/
def writeMainHeader (build : Build) : List UInt8 :=
  magicBytes ++ (storeWord versionNumber ++ ((replicate flagCount (storeWord 0)).flatten ++
    (serializeVersionNumber build.libraryVersion ++ serializeVersionNumber build.sourceId)))

def readMainHeader (bs : List UInt8) : Except LoadError MainHeader :=
  if bs.take 4 ≠ magicBytes then .error .notADatabase
  else if loadWord (bs.drop 4) ≠ versionNumber then .error (.wrongVersion (loadWord (bs.drop 4)))
  else
    let texts := bs.drop (12 + 8 * flagCount)
    .ok { versionNumber := loadWord (bs.drop 4)
          flags := (range flagCount).map fun i => loadWord (bs.drop (12 + 8 * i))
          libraryGitDesc := texts.take maxVersionSize
          libraryGitHash := (texts.drop maxVersionSize).take maxVersionSize }

/-- A written main header is read back, with both texts in the size of their fields. -/
theorem readMainHeader_writeMainHeader (build : Build) (bs : List UInt8) :
    readMainHeader (writeMainHeader build ++ bs) =
      .ok { versionNumber := versionNumber
            flags := replicate flagCount 0
            libraryGitDesc := serializeVersionNumber build.libraryVersion
            libraryGitHash := serializeVersionNumber build.sourceId } := by
  have hfour : ∀ rest : List UInt8, (magicBytes ++ rest).take 4 = magicBytes := fun _ => rfl
  have hmagic : ∀ (k : Nat) (rest : List UInt8), (magicBytes ++ rest).drop (k + 4) = rest.drop k :=
    fun _ _ => rfl
  have hzeros : (replicate flagCount (storeWord 0)).flatten =
      storeWord 0 ++ (storeWord 0 ++ (storeWord 0 ++ (storeWord 0 ++ []))) := rfl
  have hdesc := serializeVersionNumber_length build.libraryVersion
  have hhash := serializeVersionNumber_length build.sourceId
  have hfields : take maxVersionSize (drop maxVersionSize
      (serializeVersionNumber build.libraryVersion ++
      (serializeVersionNumber build.sourceId ++ bs))) = serializeVersionNumber build.sourceId := by
    rw [drop_left' hdesc,take_left' hhash]
  have hversion : ∀ rest, loadWord ((magicBytes ++ (storeWord versionNumber ++ rest)).drop 4) =
      versionNumber := fun rest => by rw [hmagic 0,drop_zero,loadWord_storeWord]
  simp only [readMainHeader,writeMainHeader,append_assoc,hzeros,hfour,hversion,ne_eq,
    not_true_eq_false,
    ↓reduceIte,nil_append]
  simp [flagCount,range_succ,hmagic 8,hmagic 16,hmagic 24,hmagic 32,hmagic 40,drop_storeWord _ 0,
    drop_storeWord _ 8,drop_storeWord _ 16,drop_storeWord _ 24,drop_storeWord _ 32,take_left' hdesc,
      hfields]

/-- A cleared header buffer with a header written to its start, after its checksum. -/
def checksumAndWrite (header : List UInt8) : List UInt8 :=
  let buffer := header ++ replicate (fileHeaderSize - blockHeaderSize - header.length) 0
  storeWord (checksum buffer) ++ buffer

/-- The buffer of a header slot, if its checksum is right. -/
def readAndChecksum (slot : List UInt8) : Except LoadError (List UInt8) :=
  let stored := loadWord slot
  let buffer := slot.drop blockHeaderSize
  let computed := checksum buffer
  if stored ≠ computed then .error (.corrupt computed stored) else .ok buffer

theorem readAndChecksum_checksumAndWrite (header : List UInt8) :
    readAndChecksum (checksumAndWrite header) =
      .ok (header ++ replicate (fileHeaderSize - blockHeaderSize - header.length) 0) := by
  simp [readAndChecksum,checksumAndWrite,blockHeaderSize]

/-- The file, with the content that its blocks give for a free list pointer. -/
structure DatabaseFile (F : Type) where
  main : List UInt8
  header1 : List UInt8
  header2 : List UInt8
  freeLists : UInt64 → Except LoadError F

structure BlockManager (F : Type) where
  /-- The second slot is the active one. -/
  activeSecond : Bool
  iterationCount : UInt64
  metaBlock : UInt64
  freeListId : UInt64
  maxBlock : UInt64
  freeList : Option F

namespace DatabaseFile

variable {F : Type}

def slot (file : DatabaseFile F) (second : Bool) : List UInt8 :=
  if second then file.header2 else file.header1

def setSlot (file : DatabaseFile F) (second : Bool) (bytes : List UInt8) : DatabaseFile F :=
  if second then { file with header2 := bytes } else { file with header1 := bytes }

end DatabaseFile

namespace BlockManager

variable {F : Type}

def emptyHeader : DatabaseHeader where
  iteration := 0
  metaBlock := invalidBlock
  freeList := invalidBlock
  blockCount := 0

def createNewDatabase (build : Build) (freeLists : UInt64 → Except LoadError F) :
    DatabaseFile F × BlockManager F :=
  ({ main := checksumAndWrite (writeMainHeader build)
     header1 := checksumAndWrite emptyHeader.write
     header2 := checksumAndWrite emptyHeader.write
     freeLists := freeLists },
   { activeSecond := true
     iterationCount := 0
     metaBlock := invalidBlock
     freeListId := invalidBlock
     maxBlock := 0
     freeList := none })

def initializeFrom (header : DatabaseHeader) (second : Bool) : BlockManager F where
  activeSecond := second
  iterationCount := header.iteration
  metaBlock := header.metaBlock
  freeListId := header.freeList
  maxBlock := header.blockCount
  freeList := none

def loadFreeList (file : DatabaseFile F) (m : BlockManager F) : Except LoadError (BlockManager F) :=
  if m.freeListId = invalidBlock then .ok m
  else do
    let freeList ← file.freeLists m.freeListId
    return { m with freeList := some freeList }

/-- The part of `LoadExistingDatabase` that reads the two slots. -/
def loadHeaders (file : DatabaseFile F) : Except LoadError (BlockManager F) := do
  let h1 := DatabaseHeader.read (← readAndChecksum file.header1)
  let h2 := DatabaseHeader.read (← readAndChecksum file.header2)
  if h1.iteration > h2.iteration then loadFreeList file (initializeFrom h1 false)
  else loadFreeList file (initializeFrom h2 true)

def loadExistingDatabase (file : DatabaseFile F) : Except LoadError (BlockManager F) := do
  if (file.main.drop blockHeaderSize).take 4 ≠ magicBytes then throw .notADatabase
  let _ ← readMainHeader (← readAndChecksum file.main)
  loadHeaders file

/-- The header that a checkpoint writes, with the free list it has stored. -/
def nextHeader (m : BlockManager F) (metaBlock freeList blockCount : UInt64) : DatabaseHeader where
  iteration := m.iterationCount + 1
  metaBlock := metaBlock
  freeList := freeList
  blockCount := blockCount

/-- `WriteHeader`, once the blocks of the free list are written: it fills the slot that is
not active. -/
def writeHeader (file : DatabaseFile F) (m : BlockManager F) (header : DatabaseHeader)
    (freeList : Option F) : DatabaseFile F × BlockManager F :=
  (file.setSlot (!m.activeSecond) (checksumAndWrite header.write),
   { m with
     activeSecond := !m.activeSecond
     iterationCount := header.iteration
     maxBlock := header.blockCount
     freeList := freeList })

/-- A file after any number of completed checkpoints and reopenings. Before it writes its
header, a checkpoint stores the free list that the header refers to. -/
inductive Checkpointed : Nat → DatabaseFile F → BlockManager F → Prop where
  | create (build : Build) (freeLists : UInt64 → Except LoadError F) :
      Checkpointed 0 (createNewDatabase build freeLists).1 (createNewDatabase build freeLists).2
  | checkpoint {n : Nat} {file : DatabaseFile F} {m : BlockManager F} (h : Checkpointed n file m)
      (freeLists : UInt64 → Except LoadError F) (metaBlock freeListId blockCount : UInt64)
        (freeList : F)
      (hstored : freeLists freeListId = .ok freeList) :
      Checkpointed (n + 1)
        (writeHeader { file with freeLists := freeLists } m
          (m.nextHeader metaBlock freeListId blockCount) (some freeList)).1
        (writeHeader { file with freeLists := freeLists } m
          (m.nextHeader metaBlock freeListId blockCount) (some freeList)).2
  | reopen {n : Nat} {file : DatabaseFile F} {m m' : BlockManager F} (h : Checkpointed n file m)
      (hload : loadExistingDatabase file = .ok m') : Checkpointed n file m'

/-- The header in the active slot. -/
def activeHeader (file : DatabaseFile F) (m : BlockManager F) : DatabaseHeader :=
  DatabaseHeader.read ((file.slot m.activeSecond).drop blockHeaderSize)

/-- Opening the file succeeds and continues with this header. -/
def OpensFrom (file : DatabaseFile F) (header : DatabaseHeader) (second : Bool) : Prop :=
  ∃ freeList, loadExistingDatabase file =
    .ok { (initializeFrom header second : BlockManager F) with freeList := freeList }

theorem loadExistingDatabase_main (file : DatabaseFile F)
    (hmain : ∃ build, file.main = checksumAndWrite (writeMainHeader build)) :
    loadExistingDatabase file = loadHeaders file := by
  obtain ⟨build,hmain⟩ := hmain
  have hmagic : (file.main.drop blockHeaderSize).take 4 = magicBytes := by
    rw [hmain]
    rfl
  have hfile := readAndChecksum_checksumAndWrite (writeMainHeader build)
  unfold loadExistingDatabase
  simp only [hmagic,ne_eq,not_true_eq_false,↓reduceIte]
  rw [hmain,hfile]
  simp [bind,Except.bind,readMainHeader_writeMainHeader]

/-- The slots of a checkpointed file, and the active one among them. -/
structure Intact (file : DatabaseFile F) (m : BlockManager F) : Prop where
  main : ∃ build, file.main = checksumAndWrite (writeMainHeader build)
  slots : ∀ second, ∃ header : DatabaseHeader, file.slot second = checksumAndWrite header.write
  iteration : (activeHeader file m).iteration = m.iterationCount
  freeList : (activeHeader file m).freeList = invalidBlock ∨
    ∃ freeList, file.freeLists (activeHeader file m).freeList = .ok freeList

theorem readAndChecksum_slot (h : Intact file m) :
    ∃ buffer, readAndChecksum (file.slot m.activeSecond) = .ok buffer ∧
      DatabaseHeader.read buffer = activeHeader file m := by
  obtain ⟨header,hslot⟩ := h.slots m.activeSecond
  refine ⟨_,by rw [hslot,readAndChecksum_checksumAndWrite],?_⟩
  unfold activeHeader
  rw [hslot,DatabaseHeader.read_write]
  simp [checksumAndWrite,blockHeaderSize,DatabaseHeader.read_write]

/-- Reading the free list of an initialised manager changes nothing else. -/
theorem loadFreeList_ok (h : loadFreeList file (initializeFrom header second) = .ok m) :
    m.activeSecond = second ∧ m.iterationCount = header.iteration ∧
      (header.freeList = invalidBlock ∨ ∃ freeList, file.freeLists header.freeList =
          .ok freeList) := by
  unfold loadFreeList at h
  split at h
  · rename_i hf
    cases h
    exact ⟨rfl,rfl,.inl hf⟩
  change (file.freeLists header.freeList >>= _) = _ at h
  cases hlist : file.freeLists header.freeList with
  | error e =>
    rw [hlist] at h
    cases h
  | ok freeList =>
    rw [hlist] at h
    cases h
    exact ⟨rfl,rfl,.inr ⟨freeList,rfl⟩⟩

theorem loadFreeList_opens {file : DatabaseFile F} (second : Bool)
    (h : header.freeList = invalidBlock ∨ ∃ freeList, file.freeLists header.freeList =
      .ok freeList) :
    ∃ freeList, loadFreeList file (initializeFrom header second) =
      .ok { (initializeFrom header second : BlockManager F) with freeList := freeList } := by
  by_cases hf : header.freeList = invalidBlock
  · exact ⟨none,if_pos hf⟩
  obtain ⟨freeList,hlist⟩ := h.resolve_left hf
  refine ⟨some freeList,(if_neg hf).trans ?_⟩
  change (file.freeLists header.freeList >>= _) = _
  rw [hlist]
  rfl

theorem loadHeaders_read (h1 : readAndChecksum file.header1 = .ok b1)
    (h2 : readAndChecksum file.header2 = .ok b2) :
    loadHeaders file =
      if (DatabaseHeader.read b1).iteration > (DatabaseHeader.read b2).iteration then
        loadFreeList file (initializeFrom (DatabaseHeader.read b1) false)
      else loadFreeList file (initializeFrom (DatabaseHeader.read b2) true) := by
  simp only [loadHeaders,h1,h2,bind,Except.bind]

theorem loadHeaders_ok (h : loadHeaders file = .ok m) :
    ∃ buffer, readAndChecksum (file.slot m.activeSecond) = .ok buffer ∧
      loadFreeList file (initializeFrom (DatabaseHeader.read buffer) m.activeSecond) = .ok m := by
  cases h1 : readAndChecksum file.header1 with
  | error e =>
    rw [loadHeaders,h1] at h
    cases h
  | ok b1 =>
    cases h2 : readAndChecksum file.header2 with
    | error e =>
      rw [loadHeaders,h1,h2] at h
      cases h
    | ok b2 =>
      have h := (loadHeaders_read h1 h2).symm.trans h
      split at h
      · have hs := (loadFreeList_ok h).1
        rw [hs]
        exact ⟨b1,h1,h⟩
      · have hs := (loadFreeList_ok h).1
        rw [hs]
        exact ⟨b2,h2,h⟩

theorem activeHeader_eq (h : readAndChecksum (file.slot m.activeSecond) = .ok buffer) :
    activeHeader file m = DatabaseHeader.read buffer := by
  unfold readAndChecksum at h
  simp only [ne_eq,ite_not] at h
  split at h
  · cases h
    rfl
  · cases h

theorem setSlot_slot (file : DatabaseFile F) (a b : Bool) (bytes : List UInt8) :
    (file.setSlot a bytes).slot b = if b = a then bytes else file.slot b := by
  cases a <;> cases b <;> rfl

theorem setSlot_main (file : DatabaseFile F) (a : Bool) (bytes : List UInt8) :
    (file.setSlot a bytes).main = file.main := by
  cases a <;> rfl

theorem setSlot_freeLists (file : DatabaseFile F) (a : Bool) (bytes : List UInt8) :
    (file.setSlot a bytes).freeLists = file.freeLists := by
  cases a <;> rfl

theorem Checkpointed.intact (h : Checkpointed n file m) : Intact file m := by
  induction h with
  | create build freeLists =>
    have hread : ∀ bs, DatabaseHeader.read (emptyHeader.write ++ bs) = emptyHeader :=
      DatabaseHeader.read_write emptyHeader
    have hactive : activeHeader (createNewDatabase build freeLists).1
        (createNewDatabase build freeLists).2 = emptyHeader := by
      simp [activeHeader,createNewDatabase,DatabaseFile.slot,checksumAndWrite,blockHeaderSize,hread]
    refine ⟨⟨build,rfl⟩,?_,?_,?_⟩
    · intro second
      exact ⟨emptyHeader,by cases second <;> rfl⟩
    · rfl
    · exact .inl rfl
  | @checkpoint n file m _ freeLists metaBlock freeListId blockCount freeList hstored ih =>
    generalize hnext : m.nextHeader metaBlock freeListId blockCount = next
    have hslot : ((writeHeader { file with freeLists := freeLists } m next (some freeList)).1).slot
        (!m.activeSecond) = checksumAndWrite next.write := by
      simp [writeHeader,setSlot_slot]
    have hactive : activeHeader (writeHeader { file with freeLists := freeLists } m next
        (some freeList)).1 (writeHeader { file with freeLists := freeLists } m next
        (some freeList)).2 = next := by
      refine (activeHeader_eq (m := (writeHeader _ m _ _).2) ?_).trans
        (DatabaseHeader.read_write _ (replicate (fileHeaderSize - blockHeaderSize -
          next.write.length) 0))
      exact (congrArg readAndChecksum hslot).trans (readAndChecksum_checksumAndWrite _)
    constructor
    · obtain ⟨build,hmain⟩ := ih.main
      exact ⟨build,(setSlot_main _ _ _).trans hmain⟩
    · intro second
      by_cases hs : second = !m.activeSecond
      · rw [hs]
        exact ⟨_,hslot⟩
      obtain ⟨header,hheader⟩ := ih.slots second
      refine ⟨header,?_⟩
      refine Eq.trans ?_ hheader
      simp only [writeHeader,setSlot_slot,if_neg hs]
      rfl
    · rw [hactive,← hnext]
      rfl
    · rw [hactive,← hnext]
      refine .inr ⟨freeList,?_⟩
      exact (congrFun (setSlot_freeLists _ _ _) _).trans hstored
  | reopen _ hload ih =>
    rw [loadExistingDatabase_main _ ih.main] at hload
    obtain ⟨buffer,hbuffer,hlist⟩ := loadHeaders_ok hload
    obtain ⟨-,hiter,hfree⟩ := loadFreeList_ok hlist
    have hactive := activeHeader_eq hbuffer
    exact ⟨ih.main,ih.slots,by rw [hactive,hiter],by rw [hactive]; exact hfree⟩

/-- The header in the other slot does not win against the active one. -/
def Loses (m : BlockManager F) (header : DatabaseHeader) : Prop :=
  if m.activeSecond then header.iteration ≤ m.iterationCount
    else header.iteration < m.iterationCount

/-- Whatever an interrupted header write has left in its slot: opening the file continues
with the other header exactly when the checksum of the slot is right and its header
loses. Both slots have to be readable. -/
theorem opensFrom_tornHeader_iff {n : Nat} {file : DatabaseFile F} {m : BlockManager F}
    (h : Checkpointed n file m) (bytes : List UInt8) :
    OpensFrom (file.setSlot (!m.activeSecond) bytes) (activeHeader file m) m.activeSecond ↔
      ∃ buffer, readAndChecksum bytes = .ok buffer ∧ m.Loses (DatabaseHeader.read buffer) := by
  have hi := h.intact
  obtain ⟨intact,hintact,hheader⟩ := readAndChecksum_slot hi
  have hfree := hi.freeList
  have hiter := hi.iteration
  unfold OpensFrom Loses
  rw [loadExistingDatabase_main _ (by rw [setSlot_main]; exact hi.main)]
  cases hactive : m.activeSecond with
  | true =>
    rw [hactive] at hintact
    cases hbytes : readAndChecksum bytes with
    | error e => simp [loadHeaders,DatabaseFile.setSlot,hbytes,bind,Except.bind]
    | ok buffer =>
      have hload := loadHeaders_read
        (show readAndChecksum (file.setSlot false bytes).header1 = .ok buffer from hbytes)
        (show readAndChecksum (file.setSlot false bytes).header2 = .ok intact from hintact)
      rw [hheader,hiter] at hload
      simp only [Bool.not_true,hload,↓reduceIte,Except.ok.injEq,exists_eq_left']
      constructor
      · intro ⟨freeList,hopen⟩
        by_contra hwins
        rw [if_pos (UInt64.not_le.mp hwins)] at hopen
        exact absurd (loadFreeList_ok hopen).1 (by simp [initializeFrom])
      · intro hloses
        rw [if_neg (UInt64.not_lt.mpr hloses)]
        exact loadFreeList_opens true hfree
  | false =>
    rw [hactive] at hintact
    change readAndChecksum file.header1 = .ok intact at hintact
    cases hbytes : readAndChecksum bytes with
    | error e => simp [loadHeaders,DatabaseFile.setSlot,hintact,hbytes,bind,Except.bind]
    | ok buffer =>
      have hload := loadHeaders_read
        (show readAndChecksum (file.setSlot true bytes).header1 = .ok intact from hintact)
        (show readAndChecksum (file.setSlot true bytes).header2 = .ok buffer from hbytes)
      rw [hheader,hiter] at hload
      simp only [Bool.not_false,hload,Bool.false_eq_true,↓reduceIte,Except.ok.injEq,exists_eq_left']
      constructor
      · intro ⟨freeList,hopen⟩
        by_contra hwins
        rw [if_neg hwins] at hopen
        exact absurd (loadFreeList_ok hopen).1 (by simp [initializeFrom])
      · intro hloses
        rw [if_pos hloses]
        exact loadFreeList_opens false hfree

/-- A database after one checkpoint, whose next header write is interrupted. -/
def checkpointedOnce : DatabaseFile Unit × BlockManager Unit :=
  let created := createNewDatabase ⟨[], []⟩ (fun _ => .ok ())
  writeHeader { created.1 with freeLists := fun _ => .ok () } created.2 (created.2.nextHeader 0 1 2)
    (some ())

theorem checkpointedOnce_checkpointed : Checkpointed 1 checkpointedOnce.1 checkpointedOnce.2 :=
  .checkpoint (.create _ _) (fun _ => .ok ()) 0 1 2 () rfl

/-- A slot of zeros does not carry the checksum of its content. -/
theorem readAndChecksum_zeros :
    readAndChecksum (replicate fileHeaderSize 0) = .error (.corrupt 5381 0) := by
  have hrest : (replicate fileHeaderSize (0 : UInt8)).drop blockHeaderSize =
      replicate (8 * 511) 0 := by
    rfl
  unfold readAndChecksum
  simp only [hrest,loadWord_replicate_zero,checksum_replicate_zero]
  rfl

theorem opensFrom_tornHeader_once :
    Checkpointed 1 checkpointedOnce.1 checkpointedOnce.2 ∧
    (OpensFrom (checkpointedOnce.1.setSlot (!checkpointedOnce.2.activeSecond)
      (replicate fileHeaderSize 0))
        (activeHeader checkpointedOnce.1 checkpointedOnce.2) checkpointedOnce.2.activeSecond ↔
      ∃ buffer, readAndChecksum (replicate fileHeaderSize 0) = .ok buffer ∧
        checkpointedOnce.2.Loses (DatabaseHeader.read buffer)) :=
  ⟨checkpointedOnce_checkpointed,opensFrom_tornHeader_iff checkpointedOnce_checkpointed _⟩

/-- The checksum of the torn slot does not match, and the file cannot be opened at all. -/
theorem tornHeader_throws :
    Checkpointed 1 checkpointedOnce.1 checkpointedOnce.2 ∧
    readAndChecksum (replicate fileHeaderSize 0) = .error (.corrupt 5381 0) ∧
    loadExistingDatabase
      (checkpointedOnce.1.setSlot (!checkpointedOnce.2.activeSecond) (replicate fileHeaderSize 0)) =
        .error (.corrupt 5381 0) := by
  have hi := checkpointedOnce_checkpointed.intact
  obtain ⟨intact,hintact,-⟩ := readAndChecksum_slot hi
  change readAndChecksum checkpointedOnce.1.header1 = .ok intact at hintact
  refine ⟨checkpointedOnce_checkpointed,readAndChecksum_zeros,?_⟩
  rw [loadExistingDatabase_main _ (by rw [setSlot_main]; exact hi.main)]
  change loadHeaders { checkpointedOnce.1 with header2 := replicate fileHeaderSize 0 } = _
  rw [loadHeaders,hintact,readAndChecksum_zeros]
  rfl

end BlockManager

end PredTrans.Storage
