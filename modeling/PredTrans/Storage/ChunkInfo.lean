import Mathlib

/-! `ChunkInfo` says which transaction inserted and which deleted each row of one vector. A missing
`ChunkInfo` stands for rows that everyone sees; `ChunkVectorInfo` keeps the ids per row next to two
summaries, `same_inserted_id` and `any_deleted`, that let a scan skip the arrays. -/

namespace PredTrans.Storage
open List

/-- Rows per vector (`STANDARD_VECTOR_SIZE`). -/
def standardVectorSize : Nat := 2048

theorem standardVectorSize_pos : 0 < standardVectorSize := by decide

/-- Transaction ids start here; start times and commit ids stay below. -/
def transactionIdStart : Nat := 4611686018427388000

/-- The delete id of a row that nobody deleted. -/
def notDeletedId : Nat := 18446744073709551614

/-- `DConstants::INVALID_INDEX`. -/
def invalidIndex : Nat := 18446744073709551615

/-- The two numbers of a transaction that decide what it sees. -/
structure TransactionData where
  transactionId : Nat
  startTime : Nat
  deriving DecidableEq, Repr

/-- The exceptions thrown below. -/
inductive StorageError where
  | transaction (message : String)
  | internal (message : String)
  deriving DecidableEq, Repr

/-- The template parameter `OP` of the selection functions. Arguments are a
start time, a transaction id and the id found in the version information. -/
structure VersionOperator where
  useInsertedVersion : Nat → Nat → Nat → Bool
  useDeletedVersion : Nat → Nat → Nat → Bool

def transactionVersionOperator : VersionOperator where
  useInsertedVersion startTime transactionId id := id < startTime || id == transactionId
  useDeletedVersion startTime transactionId id := !(id < startTime || id == transactionId)

def committedVersionOperator : VersionOperator where
  useInsertedVersion _ _ _ := true
  useDeletedVersion minStartTime _ id :=
    (minStartTime ≤ id && id < transactionIdStart) || id == notDeletedId

def useVersion (transaction : TransactionData) (id : Nat) : Bool :=
  transactionVersionOperator.useInsertedVersion transaction.startTime transaction.transactionId id

@[simp] theorem useVersion_iff {id : Nat} :
    useVersion T id = true ↔ id < T.startTime ∨ id = T.transactionId := by
  simp [useVersion,transactionVersionOperator]

structure ChunkConstantInfo where
  start : Nat
  insertId : Nat := 0
  deleteId : Nat := notDeletedId
  deriving DecidableEq, Repr

/-- The arrays are read at slots below `standardVectorSize` only. -/
structure ChunkVectorInfo where
  start : Nat
  inserted : Nat → Nat := fun _ => 0
  insertId : Nat := 0
  sameInsertedId : Bool := true
  deleted : Nat → Nat := fun _ => notDeletedId
  anyDeleted : Bool := false

inductive ChunkInfo where
  | constant (info : ChunkConstantInfo)
  | vector (info : ChunkVectorInfo)

/-- What a selection function returns: the number of rows, and the entries it
set in the selection vector. When all rows qualify it may set none. -/
structure Selection where
  count : Nat
  sel : List Nat
  deriving DecidableEq, Repr

/-- The rows a scan of `maxCount` rows reads: it ignores the selection vector
when the returned count says that every row qualifies. -/
def Selection.rows (s : Selection) (maxCount : Nat) : List Nat :=
  if s.count = maxCount then List.range maxCount else s.sel

/-- The selection loops: every row that passes the test is set, in order. -/
def selectRows (maxCount : Nat) (test : Nat → Bool) : Selection :=
  let sel := (List.range maxCount).filter test
  ⟨sel.length, sel⟩

theorem rows_selectRows (maxCount : Nat) (test : Nat → Bool) :
    (selectRows maxCount test).rows maxCount = (List.range maxCount).filter test := by
  unfold Selection.rows selectRows
  dsimp only
  split
  · rename_i h
    apply Eq.symm
    apply filter_sublist.eq_of_length
    rw [h,length_range]
  · rfl

/-- The two shortcuts of the selection functions. -/
theorem rows_all_or_none (maxCount : Nat) (b : Bool) :
    (if b then (⟨maxCount, []⟩ : Selection) else ⟨0, []⟩).rows maxCount =
      (List.range maxCount).filter (fun _ => b) := by
  cases b with
  | true => simp [Selection.rows]
  | false =>
    simp only [Bool.false_eq_true,if_false,filter_false,Selection.rows]
    split
    · rename_i h
      simp [← h]
    · rfl

namespace ChunkConstantInfo

def templatedGetSelVector (op : VersionOperator) (startTime transactionId : Nat)
    (info : ChunkConstantInfo) (maxCount : Nat) : Selection :=
  if op.useInsertedVersion startTime transactionId info.insertId &&
      op.useDeletedVersion startTime transactionId info.deleteId then
    ⟨maxCount, []⟩
  else ⟨0, []⟩

def fetch (info : ChunkConstantInfo) (transaction : TransactionData) : Bool :=
  useVersion transaction info.insertId && !useVersion transaction info.deleteId

def commitAppend (info : ChunkConstantInfo) (commitId : Nat) : ChunkConstantInfo :=
  { info with insertId := commitId }

def hasDeletes (info : ChunkConstantInfo) : Bool :=
  transactionIdStart ≤ info.insertId || info.deleteId < transactionIdStart

def getCommittedDeletedCount (info : ChunkConstantInfo) (maxCount : Nat) : Nat :=
  if info.deleteId < transactionIdStart then maxCount else 0

end ChunkConstantInfo

namespace ChunkVectorInfo

def templatedGetSelVector (op : VersionOperator) (startTime transactionId : Nat)
    (info : ChunkVectorInfo) (maxCount : Nat) : Selection :=
  if info.sameInsertedId && !info.anyDeleted then
    -- all tuples have the same inserted id and no tuples were deleted
    if op.useInsertedVersion startTime transactionId info.insertId then ⟨maxCount, []⟩ else ⟨0, []⟩
  else if info.sameInsertedId then
    if !op.useInsertedVersion startTime transactionId info.insertId then ⟨0, []⟩
    else selectRows maxCount
      (fun i => op.useDeletedVersion startTime transactionId (info.deleted i))
  else if !info.anyDeleted then
    selectRows maxCount (fun i => op.useInsertedVersion startTime transactionId (info.inserted i))
  else
    selectRows maxCount (fun i =>
      op.useInsertedVersion startTime transactionId (info.inserted i) &&
        op.useDeletedVersion startTime transactionId (info.deleted i))

def fetch (info : ChunkVectorInfo) (transaction : TransactionData) (row : Nat) : Bool :=
  useVersion transaction (info.inserted row) && !useVersion transaction (info.deleted row)

/-- Marks one row as deleted. -/
def mark (info : ChunkVectorInfo) (transactionId row : Nat) : ChunkVectorInfo :=
  { info with deleted := fun i => if i = row then transactionId else info.deleted i }

/-- The loop of `Delete`. The marks made before a conflict stay when it throws;
on success the result lists the rows that were newly marked, in order. -/
def deleteLoop (transactionId : Nat) :
    ChunkVectorInfo → List Nat → ChunkVectorInfo × Except StorageError (List Nat)
  | info, [] => (info, .ok [])
  | info, row :: rows =>
    if info.deleted row = transactionId then
      deleteLoop transactionId info rows
    else if info.deleted row ≠ notDeletedId then
      (info, .error (.transaction "Conflict on tuple deletion!"))
    else
      let result := deleteLoop transactionId (info.mark transactionId row) rows
      (result.1, result.2.map (row :: ·))

def delete (info : ChunkVectorInfo) (transactionId : Nat) (rows : List Nat) :
    ChunkVectorInfo × Except StorageError (List Nat) :=
  deleteLoop transactionId { info with anyDeleted := true } rows

def commitDelete (info : ChunkVectorInfo) (commitId : Nat) (rows : List Nat) : ChunkVectorInfo :=
  { info with deleted := fun i => if i ∈ rows then commitId else info.deleted i }

/-- Writes one id into the slots from `first` up to `last`. -/
def stampInserted (info : ChunkVectorInfo) (first last id : Nat) : ChunkVectorInfo :=
  { info with inserted := fun i => if first ≤ i ∧ i < last then id else info.inserted i }

def append (info : ChunkVectorInfo) (first last commitId : Nat) : ChunkVectorInfo :=
  let summarised :=
    if first = 0 then { info with insertId := commitId }
    else if info.insertId ≠ commitId then
      { info with sameInsertedId := false, insertId := notDeletedId }
    else info
  summarised.stampInserted first last commitId

def commitAppend (info : ChunkVectorInfo) (commitId first last : Nat) : ChunkVectorInfo :=
  let summarised := if info.sameInsertedId then { info with insertId := commitId } else info
  summarised.stampInserted first last commitId

def hasDeletes (info : ChunkVectorInfo) : Bool :=
  info.anyDeleted

def getCommittedDeletedCount (info : ChunkVectorInfo) (maxCount : Nat) : Nat :=
  if !info.anyDeleted then 0
  else ((List.range maxCount).filter (fun i => info.deleted i < transactionIdStart)).length

end ChunkVectorInfo

namespace ChunkInfo

def templatedGetSelVector (op : VersionOperator) (startTime transactionId : Nat) :
    ChunkInfo → Nat → Selection
  | constant info => info.templatedGetSelVector op startTime transactionId
  | vector info => info.templatedGetSelVector op startTime transactionId

def getSelVector (info : ChunkInfo) (transaction : TransactionData) (maxCount : Nat) : Selection :=
  info.templatedGetSelVector transactionVersionOperator transaction.startTime
    transaction.transactionId maxCount

def getCommittedSelVector (info : ChunkInfo) (minStartId minTransactionId maxCount : Nat) :
    Selection :=
  info.templatedGetSelVector committedVersionOperator minStartId minTransactionId maxCount

def fetch (transaction : TransactionData) : ChunkInfo → Nat → Bool
  | constant info, _ => info.fetch transaction
  | vector info, row => info.fetch transaction row

def commitAppend (commitId first last : Nat) : ChunkInfo → ChunkInfo
  | constant info => constant (info.commitAppend commitId)
  | vector info => vector (info.commitAppend commitId first last)

def hasDeletes : ChunkInfo → Bool
  | constant info => info.hasDeletes
  | vector info => info.hasDeletes

def getCommittedDeletedCount : ChunkInfo → Nat → Nat
  | constant info => info.getCommittedDeletedCount
  | vector info => info.getCommittedDeletedCount

/-- The id that the version information gives as inserter of a slot. -/
def insertedAt : ChunkInfo → Nat → Nat
  | constant info, _ => info.insertId
  | vector info, i => info.inserted i

/-- The id that the version information gives as deleter of a slot. -/
def deletedAt : ChunkInfo → Nat → Nat
  | constant info, _ => info.deleteId
  | vector info, i => info.deleted i

end ChunkInfo

/-- The summaries of a vector are right about its first `live` slots. -/
structure ChunkVectorInfo.Summarised (info : ChunkVectorInfo) (live : Nat) : Prop where
  same : info.sameInsertedId = true → ∀ i < live, info.inserted i = info.insertId
  undeleted : info.anyDeleted = false → ∀ i < live, info.deleted i = notDeletedId

/-- With right summaries, every branch of the selection computes the same thing:
the slots whose own two ids pass the operator. -/
theorem ChunkVectorInfo.rows_templatedGetSelVector {info : ChunkVectorInfo}
    (h : info.Summarised maxCount) (hop : op.useDeletedVersion st tid notDeletedId = true) :
    (info.templatedGetSelVector op st tid maxCount).rows maxCount =
      (List.range maxCount).filter (fun i => op.useInsertedVersion st tid (info.inserted i) &&
        op.useDeletedVersion st tid (info.deleted i)) := by
  unfold ChunkVectorInfo.templatedGetSelVector
  cases hs : info.sameInsertedId with
  | true =>
    cases hd : info.anyDeleted with
    | false =>
      simp
      rw [rows_all_or_none]
      apply filter_congr
      intro i hi
      have hi := mem_range.mp hi
      simp [h.same hs i hi,h.undeleted hd i hi,hop]
    | true =>
      simp only [Bool.not_true,Bool.and_false,Bool.false_eq_true,if_false,if_true]
      cases hu : op.useInsertedVersion st tid info.insertId with
      | true =>
        simp
        rw [rows_selectRows]
        apply filter_congr
        intro i hi
        simp [h.same hs i (mem_range.mp hi),hu]
      | false =>
        have hnone := rows_all_or_none maxCount false
        simp only [Bool.false_eq_true,if_false] at hnone
        simp
        rw [hnone]
        apply filter_congr
        intro i hi
        simp [h.same hs i (mem_range.mp hi),hu]
  | false =>
    cases hd : info.anyDeleted with
    | false =>
      simp
      rw [rows_selectRows]
      apply filter_congr
      intro i hi
      simp [h.undeleted hd i (mem_range.mp hi),hop]
    | true =>
      simp
      rw [rows_selectRows]

/-- The two ids of a slot are all that a selection and a fetch depend on. -/
def ChunkInfo.Summarised (live : Nat) : ChunkInfo → Prop
  | constant _ => True
  | vector info => info.Summarised live

theorem ChunkInfo.rows_templatedGetSelVector {info : ChunkInfo} (h : info.Summarised maxCount)
    (hop : op.useDeletedVersion st tid notDeletedId = true) :
    (info.templatedGetSelVector op st tid maxCount).rows maxCount =
      (List.range maxCount).filter (fun i => op.useInsertedVersion st tid (info.insertedAt i) &&
        op.useDeletedVersion st tid (info.deletedAt i)) := by
  cases info with
  | constant info =>
    exact rows_all_or_none maxCount _
  | vector info => exact ChunkVectorInfo.rows_templatedGetSelVector h hop

theorem ChunkInfo.fetch_eq (T : TransactionData) (info : ChunkInfo) (i : Nat) :
    info.fetch T i = (useVersion T (info.insertedAt i) && !useVersion T (info.deletedAt i)) := by
  cases info <;> rfl

/-- The rows a transaction takes when it walks through `rows` in order: it skips
the rows that are its own, takes the free ones, and stops at the first other. -/
def freshRows (own free : Nat → Bool) : List Nat → List Nat
  | [] => []
  | row :: rows =>
    if own row then freshRows own free rows
    else if free row then row :: freshRows (fun i => i == row || own i) free rows
    else []

theorem freshRows_congr (ho : ∀ r ∈ rows, own r = own' r)
    (hf : ∀ r ∈ rows, own r = false → free r = free' r) :
    freshRows own free rows = freshRows own' free' rows := by
  induction rows generalizing own own' with
  | nil => rfl
  | cons r rows ih =>
    have ho' : ∀ x ∈ rows, own x = own' x := fun x hx => ho x (by simp [hx])
    have hf' : ∀ x ∈ rows, own x = false → free x = free' x := fun x hx => hf x (by simp [hx])
    simp only [freshRows,← ho r (by simp)]
    cases hr : own r with
    | true => simpa using ih ho' hf'
    | false =>
      have hstep : freshRows (fun i => i == r || own i) free rows =
          freshRows (fun i => i == r || own' i) free' rows := by
        apply ih
        · intro x hx
          simp [ho' x hx]
        · intro x hx hown
          simp only [Bool.or_eq_false_iff] at hown
          exact hf' x hx hown.2
      simp only [Bool.false_eq_true,if_false,hf r (by simp) hr,hstep]

theorem freshRows_spec :
    (freshRows own free rows).Nodup ∧
      ∀ r ∈ freshRows own free rows, r ∈ rows ∧ own r = false ∧ free r = true := by
  induction rows generalizing own with
  | nil => simp [freshRows]
  | cons r rows ih =>
    unfold freshRows
    split
    · obtain ⟨hn,hm⟩ := @ih own
      exact ⟨hn,fun x hx => ⟨by simp [(hm x hx).1],(hm x hx).2⟩⟩
    rename_i hown
    split
    · rename_i hfree
      obtain ⟨hn,hm⟩ := @ih (fun i => i == r || own i)
      refine ⟨nodup_cons.mpr ⟨?_,hn⟩,?_⟩
      · intro hr
        simpa using (hm r hr).2.1
      intro x hx
      rcases mem_cons.mp hx with he | hx
      · subst he
        exact ⟨by simp,by simpa using hown,hfree⟩
      · obtain ⟨h1,h2,h3⟩ := hm x hx
        simp only [Bool.or_eq_false_iff] at h2
        exact ⟨by simp [h1],h2.2,h3⟩
    · simp

namespace ChunkVectorInfo

variable {tid : Nat} {info : ChunkVectorInfo} {rows : List Nat}

/-- The rows that a call of `Delete` marks. -/
def newlyDeleted (info : ChunkVectorInfo) (tid : Nat) (rows : List Nat) : List Nat :=
  freshRows (fun i => info.deleted i == tid) (fun i => info.deleted i == notDeletedId) rows

/-- Some row of the call was already deleted by another transaction. -/
def Conflict (info : ChunkVectorInfo) (tid : Nat) (rows : List Nat) : Prop :=
  ∃ r ∈ rows, info.deleted r ≠ tid ∧ info.deleted r ≠ notDeletedId

instance : Decidable (info.Conflict tid rows) :=
  inferInstanceAs (Decidable (∃ r ∈ rows, info.deleted r ≠ tid ∧ info.deleted r ≠ notDeletedId))

theorem newlyDeleted_cons (r : Nat) : info.newlyDeleted tid (r :: rows) =
    if info.deleted r = tid then info.newlyDeleted tid rows
    else if info.deleted r = notDeletedId then r :: (info.mark tid r).newlyDeleted tid rows
    else [] := by
  have hmark : freshRows (fun i => i == r || info.deleted i == tid)
      (fun i => info.deleted i == notDeletedId) rows = (info.mark tid r).newlyDeleted tid rows := by
    apply freshRows_congr
    · intro x _
      by_cases hx : x = r <;> simp [mark,hx]
    · intro x _ hown
      simp only [Bool.or_eq_false_iff,beq_eq_false_iff_ne] at hown
      simp [mark,hown.1]
  simp only [newlyDeleted,freshRows,beq_iff_eq,hmark]

theorem mark_conflict (hr : info.deleted r = notDeletedId) :
    (info.mark tid r).Conflict tid rows ↔ info.Conflict tid rows := by
  unfold Conflict mark
  constructor <;> intro h <;> obtain ⟨x,hx,h1,h2⟩ := h
  · by_cases hxr : x = r
    · simp [hxr] at h1
    · exact ⟨x,hx,by simpa [hxr] using h1,by simpa [hxr] using h2⟩
  · have hxr : x ≠ r := fun he => h2 (he ▸ hr)
    exact ⟨x,hx,by simpa [hxr] using h1,by simpa [hxr] using h2⟩

/-- `Delete` changes nothing but the marks of the rows it takes, and throws when
one of its rows was deleted by another transaction. -/
theorem deleteLoop_eq : deleteLoop tid info rows =
    ({ info with deleted := fun i => if i ∈ info.newlyDeleted tid rows then tid
      else info.deleted i },
      if info.Conflict tid rows then .error (.transaction "Conflict on tuple deletion!")
      else .ok (info.newlyDeleted tid rows)) := by
  induction rows generalizing info with
  | nil => simp [deleteLoop,newlyDeleted,freshRows,Conflict]
  | cons r rows ih =>
    unfold deleteLoop
    rw [newlyDeleted_cons]
    by_cases hown : info.deleted r = tid
    · have hc : info.Conflict tid (r :: rows) ↔ info.Conflict tid rows := by
        simp [Conflict,hown]
      simp only [hown,if_true,ih,hc]
    by_cases hfree : info.deleted r = notDeletedId
    · have hc : info.Conflict tid (r :: rows) ↔ info.Conflict tid rows := by
        simp [Conflict,hfree]
      have hne : ¬ notDeletedId = tid := fun he => hown (hfree.trans he)
      simp only [hfree,hne,if_false,ne_eq,not_true,if_true,ih,hc,mark_conflict hfree]
      refine Prod.ext ?_ ?_
      · have hmarks : ∀ i, (if i ∈ (info.mark tid r).newlyDeleted tid rows then tid
            else (info.mark tid r).deleted i) =
            if i ∈ r :: (info.mark tid r).newlyDeleted tid rows then tid else info.deleted i := by
          intro i
          by_cases hi : i = r <;> simp [mark,hi]
        simp only [hmarks]
        rfl
      · dsimp only
        split <;> rfl
    · have hc : info.Conflict tid (r :: rows) := ⟨r,by simp,hown,hfree⟩
      simp [hown,hfree,hc]

end ChunkVectorInfo

end PredTrans.Storage
