import PredTrans.Library.Lists
import PredTrans.Storage.RowGroups

/-! A checkpoint drops row groups without live rows and merges neighbouring ones.
`ScheduleVacuumTasks` chooses how many row groups to merge by counting those with live rows; the
`VacuumTask` then walks that many segments from the first one on. -/

namespace PredTrans.Storage

open Library RowVersionManager List

/-- A row group with its rows. -/
structure TableGroup (α : Type*) where
  start : Nat
  rows : List α
  versionInfo : RowVersionManager

namespace TableGroup

variable {α : Type*}

def count (g : TableGroup α) : Nat := g.rows.length

def getCommittedRowCount (g : TableGroup α) : Nat :=
  g.count - g.versionInfo.getCommittedDeletedCount g.count

def moveToCollection (g : TableGroup α) (newStart : Nat) : TableGroup α :=
  { g with start := newStart, versionInfo := g.versionInfo.setStart newStart }

/-- The scan that omits permanently deleted rows, vector by vector. -/
def scanCommitted (lowest : TransactionData) (g : TableGroup α) : List α :=
  (List.range ((g.count + standardVectorSize - 1) / standardVectorSize)).flatMap (fun v =>
    ((g.versionInfo.getCommittedSelVector lowest.startTime lowest.transactionId v
      (scanCount g.count v)).rows (scanCount g.count v)).filterMap
        (fun i => g.rows[v * standardVectorSize + i]?))

/-- The rows that nobody has deleted. -/
def liveRows (g : TableGroup α) : List α :=
  ((List.range g.count).filter (fun r => g.versionInfo.deletedAt r == notDeletedId)).filterMap
    (fun r => g.rows[r]?)

/-- Every delete was committed before the oldest active transaction started. -/
structure Committed (lowest : TransactionData) (g : TableGroup α) : Prop where
  coherent : Coherent g.versionInfo g.count
  deleted : ∀ r < g.count, g.versionInfo.deletedAt r = notDeletedId ∨
    g.versionInfo.deletedAt r < transactionIdStart ∧ g.versionInfo.deletedAt r < lowest.startTime

variable {lowest : TransactionData} {g : TableGroup α}

theorem liveRows_moveToCollection (g : TableGroup α) (start : Nat) :
    (g.moveToCollection start).liveRows = g.liveRows := by
  simp only [liveRows,moveToCollection,count,RowGroup.deletedAt_setStart]

theorem deletedAt_block (m : RowVersionManager) (v : Nat) (hi : i < standardVectorSize) :
    m.deletedAt (v * standardVectorSize + i) = infoDeletedAt (m.vectorInfo v) i := by
  unfold deletedAt
  rw [vector_of_row v hi,slot_of_row v hi]

theorem scanCount_spec (hi : i < scanCount n v) :
    i < standardVectorSize ∧ v * standardVectorSize + i < n := by
  unfold scanCount at hi
  omega

theorem Committed.scanCommitted_eq (h : g.Committed lowest) :
    g.scanCommitted lowest = g.liveRows := by
  have hblock : ∀ v, (g.versionInfo.getCommittedSelVector lowest.startTime lowest.transactionId v
      (scanCount g.count v)).rows (scanCount g.count v) =
        (List.range (scanCount g.count v)).filter
          (fun i => g.versionInfo.deletedAt (v * standardVectorSize + i) == notDeletedId) := by
    intro v
    have hnd : committedVersionOperator.useDeletedVersion lowest.startTime lowest.transactionId
        notDeletedId = true := by simp [committedVersionOperator]
    have hkeep : ∀ i < scanCount g.count v, committedVersionOperator.useDeletedVersion
        lowest.startTime
        lowest.transactionId (g.versionInfo.deletedAt (v * standardVectorSize + i)) =
          (g.versionInfo.deletedAt (v * standardVectorSize + i) == notDeletedId) := by
      intro i hi
      rcases h.deleted _ (scanCount_spec hi).2 with he | ⟨h1,h2⟩
      · rw [he,hnd]
        simp
      · have hle : ¬ lowest.startTime ≤ g.versionInfo.deletedAt (v * standardVectorSize + i) :=
          by omega
        simp [committedVersionOperator,hle]
    unfold getCommittedSelVector
    cases hv : g.versionInfo.vectorInfo v with
    | none =>
      rw [Selection.rows,if_pos rfl]
      symm
      apply filter_eq_self.mpr
      intro i hi
      rw [deletedAt_block _ _ (scanCount_spec (mem_range.mp hi)).1,hv]
      rfl
    | some info =>
      simp only [ChunkInfo.getCommittedSelVector]
      rw [ChunkInfo.rows_templatedGetSelVector (h.coherent.summarised hv) hnd]
      apply filter_congr
      intro i hi
      have hi := mem_range.mp hi
      rw [← hkeep i hi,deletedAt_block _ _ (scanCount_spec hi).1,hv]
      simp [committedVersionOperator,infoDeletedAt]
  unfold scanCommitted liveRows
  rw [← range_blocks standardVectorSize_pos g.count,filter_flatMap,filterMap_flatMap]
  apply flatMap_congr
  intro v _
  rw [hblock v,filter_map,filterMap_map]
  rfl

theorem getCommittedDeletedCount_eq (h : Coherent m n) :
    m.getCommittedDeletedCount n =
      ((List.range n).filter (fun r => m.deletedAt r < transactionIdStart)).length := by
  have hnd : ¬ notDeletedId < transactionIdStart := by decide
  have hblock : ∀ v, ((m.vectorInfo v).elim 0 fun info =>
        info.getCommittedDeletedCount (scanCount n v)) =
        ((List.range (scanCount n v)).filter
          (fun i => m.deletedAt (v * standardVectorSize + i) < transactionIdStart)).length := by
    intro v
    have hat : ∀ i ∈ List.range (scanCount n v),
        decide (m.deletedAt (v * standardVectorSize + i) < transactionIdStart) =
          decide (infoDeletedAt (m.vectorInfo v) i < transactionIdStart) := by
      intro i hi
      rw [deletedAt_block _ _ (scanCount_spec (mem_range.mp hi)).1]
    rw [filter_congr hat]
    cases hv : m.vectorInfo v with
    | none => simp [infoDeletedAt,hnd]
    | some info =>
      cases info with
      | constant info =>
        by_cases hd : info.deleteId < transactionIdStart <;>
          simp [ChunkInfo.getCommittedDeletedCount,ChunkConstantInfo.getCommittedDeletedCount,
            infoDeletedAt,ChunkInfo.deletedAt,hd]
      | vector info =>
        have hsum : info.Summarised (scanCount n v) := h.summarised hv
        have hdel : ∀ i, infoDeletedAt (some (.vector info)) i = info.deleted i := fun _ => rfl
        simp only [hdel]
        cases hany : info.anyDeleted with
        | true =>
          simp [ChunkInfo.getCommittedDeletedCount,ChunkVectorInfo.getCommittedDeletedCount,hany]
        | false =>
          have hnone : (List.range (scanCount n v)).filter
              (fun i => info.deleted i < transactionIdStart) = [] := by
            rw [filter_eq_nil_iff]
            intro i hi
            rw [hsum.undeleted hany i (mem_range.mp hi)]
            simp [hnd]
          rw [hnone]
          simp [ChunkInfo.getCommittedDeletedCount,ChunkVectorInfo.getCommittedDeletedCount,hany]
  unfold getCommittedDeletedCount
  rw [← range_blocks standardVectorSize_pos n,filter_flatMap,length_flatMap]
  congr 1
  apply map_congr_left
  intro v _
  rw [filter_map,length_map]
  refine Eq.trans ?_ (hblock v)
  cases m.vectorInfo v <;> rfl

/-- The count that decides about merging is the number of live rows. -/
theorem Committed.rowCount_eq (h : g.Committed lowest) :
    g.getCommittedRowCount = g.liveRows.length := by
  have hlt : transactionIdStart < notDeletedId := by decide
  have hlive : g.liveRows.length =
      ((List.range g.count).filter (fun r => g.versionInfo.deletedAt r ==
          notDeletedId)).length := by
    unfold liveRows
    rw [filterMap_length_eq_length.mpr]
    intro r hr
    have hlt : r < g.rows.length := mem_range.mp (mem_filter.mp hr).1
    simpa using hlt
  have hcompl : (List.range g.count).filter (fun r =>
      !(g.versionInfo.deletedAt r == notDeletedId)) =
      (List.range g.count).filter (fun r => g.versionInfo.deletedAt r < transactionIdStart) := by
    apply filter_congr
    intro r hr
    rcases h.deleted r (mem_range.mp hr) with he | ⟨h1,-⟩
    · simp [he,hlt.le]
    · have hne : g.versionInfo.deletedAt r ≠ notDeletedId := by omega
      simp [h1,hne]
  have hsplit := length_eq_length_filter_add (l := List.range g.count)
    (fun r => g.versionInfo.deletedAt r == notDeletedId)
  unfold getCommittedRowCount
  rw [getCommittedDeletedCount_eq h.coherent,hlive,← hcompl]
  rw [length_range] at hsplit
  omega

end TableGroup

end PredTrans.Storage
