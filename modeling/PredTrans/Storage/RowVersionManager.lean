import PredTrans.Storage.ChunkInfo

/-! `RowVersionManager` holds one optional `ChunkInfo` per vector of the row group. -/

namespace PredTrans.Storage

/-- Vectors per row group. -/
def rowGroupVectorCount : Nat := 60

/-- Rows per row group. -/
def rowGroupSize : Nat := 122880

theorem rowGroupSize_eq : rowGroupSize = rowGroupVectorCount * standardVectorSize := by decide

/-- What `ValidityMask::Write` puts into the stream after its flag. -/
inductive ValiditySerialization where
  | bitmask (bits : Nat → Bool)
  | validValues (indexes : List Nat)
  | invalidValues (indexes : List Nat)

/-- Validity masks are written as a bitmask, or as the list of the rows on one
side when that is smaller. -/
def ValidityMask.write (rowIsValid : Nat → Bool) (count : Nat) : ValiditySerialization :=
  let validValues := ((List.range count).filter rowIsValid).length
  let invalidValues := count - validValues
  let bitmaskBytes := (count + 63) / 64 * 8
  let bytesPerValue := if 65535 ≤ count then 4 else 2
  let validValueSize := bytesPerValue * validValues + 4
  let invalidValueSize := bytesPerValue * invalidValues + 4
  if validValueSize < bitmaskBytes || invalidValueSize < bitmaskBytes then
    if validValueSize < invalidValueSize then
      .validValues ((List.range count).filter rowIsValid)
    else .invalidValues ((List.range count).filter (fun i => !rowIsValid i))
  else .bitmask rowIsValid

/-- Reading a list of valid rows starts from an all-invalid mask, reading a list
of invalid rows from an all-valid one. -/
def ValidityMask.read : ValiditySerialization → Nat → Bool
  | .bitmask bits => bits
  | .validValues indexes => fun i => indexes.contains i
  | .invalidValues indexes => fun i => !indexes.contains i

theorem ValidityMask.read_write (rowIsValid : Nat → Bool) (hi : i < count) :
    ValidityMask.read (ValidityMask.write rowIsValid count) i = rowIsValid i := by
  unfold ValidityMask.write
  generalize (if 65535 ≤ count then 4 else 2) = bytesPerValue
  dsimp only
  split
  · split <;> cases hv : rowIsValid i <;> simp [ValidityMask.read,hi,hv]
  · rfl

/-- One `ChunkInfo` as it stands on disk. -/
inductive StoredInfo where
  | empty
  | constant (start : Nat)
  | vector (start : Nat) (mask : ValiditySerialization)

/-- The stored version information: vector indexes with their infos. -/
abbrev StoredVersions := List (Nat × StoredInfo)

/-- Only the deleted rows are written: the rows that a transaction newer than
every commit does not see. -/
def ChunkVectorInfo.write (info : ChunkVectorInfo) : StoredInfo :=
  let selection := info.templatedGetSelVector transactionVersionOperator (transactionIdStart - 1)
    invalidIndex standardVectorSize
  if selection.count = standardVectorSize then .empty
  else if selection.count = 0 then .constant info.start
  else .vector info.start
    (ValidityMask.write (fun i => !selection.sel.contains i) standardVectorSize)

def ChunkConstantInfo.write (info : ChunkConstantInfo) : StoredInfo :=
  .constant info.start

def ChunkInfo.write : ChunkInfo → StoredInfo
  | .constant info => info.write
  | .vector info => info.write

def ChunkConstantInfo.read (start : Nat) : ChunkConstantInfo where
  start := start
  insertId := 0
  deleteId := 0

def ChunkVectorInfo.read (start : Nat) (mask : ValiditySerialization) : ChunkVectorInfo where
  start := start
  anyDeleted := true
  deleted i := if ValidityMask.read mask i then 0 else notDeletedId

def ChunkInfo.read : StoredInfo → Option ChunkInfo
  | .empty => none
  | .constant start => some (.constant (ChunkConstantInfo.read start))
  | .vector start mask => some (.vector (ChunkVectorInfo.read start mask))

/-- `storagePointers` stands for the blocks it points to: the version information
as it was last written. -/
structure RowVersionManager where
  start : Nat
  vectorInfo : Nat → Option ChunkInfo := fun _ => none
  hasChanges : Bool := false
  storagePointers : Option StoredVersions := none

namespace RowVersionManager

variable (m : RowVersionManager)

/-- Replaces the info of one vector. -/
def set (v : Nat) (info : ChunkInfo) : RowVersionManager :=
  { m with vectorInfo := fun i => if i = v then some info else m.vectorInfo i }

def getSelVector (transaction : TransactionData) (vectorIdx maxCount : Nat) : Selection :=
  match m.vectorInfo vectorIdx with
  | none => ⟨maxCount, []⟩
  | some info => info.getSelVector transaction maxCount

def getCommittedSelVector (startTime transactionId vectorIdx maxCount : Nat) : Selection :=
  match m.vectorInfo vectorIdx with
  | none => ⟨maxCount, []⟩
  | some info => info.getCommittedSelVector startTime transactionId maxCount

def fetch (transaction : TransactionData) (row : Nat) : Bool :=
  let vectorIndex := row / standardVectorSize
  match m.vectorInfo vectorIndex with
  | none => true
  | some info => info.fetch transaction (row - vectorIndex * standardVectorSize)

def getCommittedDeletedCount (count : Nat) : Nat :=
  ((List.range ((count + standardVectorSize - 1) / standardVectorSize)).map (fun i =>
    match m.vectorInfo i with
    | none => 0
    | some info =>
      info.getCommittedDeletedCount (min standardVectorSize (count - i * standardVectorSize)))).sum

/-- The vectors that the rows from `rowGroupStart` up to `rowGroupEnd` lie in. -/
def coveredVectors (rowGroupStart rowGroupEnd : Nat) : List Nat :=
  let startVectorIdx := rowGroupStart / standardVectorSize
  let endVectorIdx := (rowGroupEnd - 1) / standardVectorSize
  List.range' startVectorIdx (endVectorIdx + 1 - startVectorIdx)

/-- First covered slot of a vector. -/
def vectorStart (rowGroupStart vectorIdx : Nat) : Nat :=
  let startVectorIdx := rowGroupStart / standardVectorSize
  if vectorIdx = startVectorIdx then rowGroupStart - startVectorIdx * standardVectorSize else 0

/-- End of the covered slots of a vector. -/
def vectorEnd (rowGroupEnd vectorIdx : Nat) : Nat :=
  let endVectorIdx := (rowGroupEnd - 1) / standardVectorSize
  if vectorIdx = endVectorIdx then rowGroupEnd - endVectorIdx * standardVectorSize
  else standardVectorSize

/-- One round of the loop of `AppendVersionInfo`. -/
def appendVector (transactionId rowGroupStart rowGroupEnd : Nat) (m : RowVersionManager)
    (vectorIdx : Nat) : Except StorageError RowVersionManager :=
  let first := vectorStart rowGroupStart vectorIdx
  let last := vectorEnd rowGroupEnd vectorIdx
  let start := m.start + vectorIdx * standardVectorSize
  if first = 0 ∧ last = standardVectorSize then
    -- entire vector is encapsulated by append: append a single constant
    .ok (m.set vectorIdx
      (.constant { start := start, insertId := transactionId, deleteId := notDeletedId }))
  else match m.vectorInfo vectorIdx with
    | none =>
      let info : ChunkVectorInfo := { start := start }
      .ok (m.set vectorIdx (.vector (info.append first last transactionId)))
    | some (.vector info) => .ok (m.set vectorIdx (.vector (info.append first last transactionId)))
    | some (.constant _) => .error (.internal
        "Error in RowVersionManager::AppendVersionInfo - expected either a ChunkVectorInfo or no version info")

def appendVersionInfo (transaction : TransactionData) (rowGroupStart rowGroupEnd : Nat) :
    Except StorageError RowVersionManager :=
  (coveredVectors rowGroupStart rowGroupEnd).foldlM
    (appendVector transaction.transactionId rowGroupStart rowGroupEnd) { m with hasChanges := true }

/-- One round of the loop of `CommitAppend`. -/
def commitVector (commitId rowGroupStart rowGroupEnd : Nat) (m : RowVersionManager)
    (vectorIdx : Nat) : Except StorageError RowVersionManager :=
  match m.vectorInfo vectorIdx with
  | none => .error (.internal "dereference of a missing ChunkInfo")
  | some info => .ok (m.set vectorIdx (info.commitAppend commitId
      (vectorStart rowGroupStart vectorIdx) (vectorEnd rowGroupEnd vectorIdx)))

def commitAppend (commitId rowGroupStart count : Nat) : Except StorageError RowVersionManager :=
  if count = 0 then .ok m
  else (coveredVectors rowGroupStart (rowGroupStart + count)).foldlM
    (commitVector commitId rowGroupStart (rowGroupStart + count)) m

def revertAppend (startRow : Nat) : RowVersionManager :=
  let startVectorIdx := (startRow + (standardVectorSize - 1)) / standardVectorSize
  { m with vectorInfo := fun v =>
      if startVectorIdx ≤ v ∧ v < rowGroupVectorCount then none else m.vectorInfo v }

/-- The per-row info that `GetVectorInfo` leaves in place: a missing info is
created and a constant one is spelled out, without its delete id. -/
def getVectorInfo (vectorIdx : Nat) : ChunkVectorInfo :=
  let start := m.start + vectorIdx * standardVectorSize
  match m.vectorInfo vectorIdx with
  | none => { start := start }
  | some (.constant info) =>
    { start := start, insertId := info.insertId, inserted := fun _ => info.insertId }
  | some (.vector info) => info

def deleteRows (vectorIdx transactionId : Nat) (rows : List Nat) :
    RowVersionManager × Except StorageError (List Nat) :=
  let result := (m.getVectorInfo vectorIdx).delete transactionId rows
  ({ m with hasChanges := true }.set vectorIdx (.vector result.1), result.2)

def commitDelete (vectorIdx commitId : Nat) (rows : List Nat) : RowVersionManager :=
  { m with hasChanges := true }.set vectorIdx
    (.vector ((m.getVectorInfo vectorIdx).commitDelete commitId rows))

/-- The infos that `Checkpoint` writes. -/
def toSerialize : StoredVersions :=
  (List.range rowGroupVectorCount).filterMap (fun v =>
    match m.vectorInfo v with
    | none => none
    | some info => if info.hasDeletes then some (v, info.write) else none)

/-- Returns the pointers to what was written, and the manager. -/
def checkpoint : Option StoredVersions × RowVersionManager :=
  if !m.hasChanges && m.storagePointers.isSome then
    -- the row version manager already exists on disk and no changes were made
    (m.storagePointers, m)
  else if m.toSerialize.isEmpty then (none, m)
  else (some m.toSerialize, { m with storagePointers := some m.toSerialize, hasChanges := false })

/-- The reading loop of `Deserialize`. -/
def readInfos : RowVersionManager → StoredVersions → Except StorageError RowVersionManager
  | m, [] => .ok m
  | m, (v, stored) :: rest =>
    if rowGroupVectorCount ≤ v then
      .error (.internal
        "In DeserializeDeletes, vector_index is out of range for the row group. Corrupted file?")
    else readInfos { m with vectorInfo := fun i => if i = v then ChunkInfo.read stored
                                                   else m.vectorInfo i } rest

def deserialize (deletePointer : Option StoredVersions) (start : Nat) :
    Except StorageError (Option RowVersionManager) :=
  match deletePointer with
  | none => .ok none
  | some stored =>
    (readInfos { start := start, storagePointers := some stored } stored).map some

end RowVersionManager

end PredTrans.Storage
