import PredTrans.Storage.VersionHistory

/-! `RowGroup::Delete` cuts its row ids into batches, one per run of ids in the same vector. The
undo entry of a batch is pushed after `DeleteRows` has returned, while the marks are set one by one
inside it. -/

namespace PredTrans.Storage

/-- The rows collected for the current vector, with what the call writes to. -/
structure VersionDeleteState where
  manager : RowVersionManager
  undo : List DeleteInfo
  currentChunk : Nat := invalidIndex
  rows : List Nat := []
  /-- What the call returns. -/
  deleteCount : Nat := 0

/-- `PushDelete`, called only if rows were newly marked. -/
def pushDelete (undo : List DeleteInfo) (vectorIdx : Nat) (rows : List Nat) : List DeleteInfo :=
  if rows = [] then undo else undo ++ [⟨vectorIdx, rows⟩]

namespace VersionDeleteState

/-- What was written before a throw stays written. -/
def flush (transactionId : Nat) (st : VersionDeleteState) :
    VersionDeleteState × Option StorageError :=
  if st.rows = [] then (st, none)
  else match st.manager.deleteRows st.currentChunk transactionId st.rows with
    | (m, .ok rows) =>
      ({ st with
          manager := m
          undo := pushDelete st.undo st.currentChunk rows
          rows := []
          deleteCount := st.deleteCount + rows.length }, none)
    | (m, .error e) => ({ st with manager := m }, some e)

/-- Adds a row to the batch of its vector. -/
def collect (st : VersionDeleteState) (vectorIdx rowId : Nat) : VersionDeleteState :=
  { st with
    currentChunk := vectorIdx
    rows := st.rows ++ [rowId - vectorIdx * standardVectorSize] }

def delete (transactionId : Nat) (st : VersionDeleteState) (rowId : Nat) :
    VersionDeleteState × Option StorageError :=
  let vectorIdx := rowId / standardVectorSize
  if st.currentChunk ≠ vectorIdx then
    match st.flush transactionId with
    | (st, none) => (st.collect vectorIdx rowId, none)
    | (st, some e) => (st, some e)
  else (st.collect vectorIdx rowId, none)

/-- The loop of `RowGroup::Delete` with the flush after it. -/
def deleteLoop (transactionId : Nat) :
    VersionDeleteState → List Nat → VersionDeleteState × Option StorageError
  | st, [] => st.flush transactionId
  | st, rowId :: ids =>
    match st.delete transactionId rowId with
    | (st, none) => deleteLoop transactionId st ids
    | (st, some e) => (st, some e)

end VersionDeleteState

/-- `RowGroup::Delete`, with row ids relative to the start of the row group. -/
def RowGroup.delete (m : RowVersionManager) (undo : List DeleteInfo) (transactionId : Nat)
    (ids : List Nat) : VersionDeleteState × Option StorageError :=
  VersionDeleteState.deleteLoop transactionId { manager := m, undo := undo } ids

/-- The current batch in front of the later ones, if it has rows. -/
def consBatch (chunk : Nat) (slots : List Nat) (rest : List DeleteInfo) : List DeleteInfo :=
  if slots = [] then rest else ⟨chunk, slots⟩ :: rest

/-- The batches of the remaining ids, given the current one. -/
def batchesFrom (chunk : Nat) (slots : List Nat) : List Nat → List DeleteInfo
  | [] => consBatch chunk slots []
  | rowId :: ids =>
    let v := rowId / standardVectorSize
    let slot := rowId - v * standardVectorSize
    if chunk ≠ v then consBatch chunk slots (batchesFrom v [slot] ids)
    else batchesFrom v (slots ++ [slot]) ids

def batches (ids : List Nat) : List DeleteInfo :=
  batchesFrom invalidIndex [] ids

/-- Batches handed to `DeleteRows` one after the other. -/
def flushAll (transactionId : Nat) : RowVersionManager → List DeleteInfo → List DeleteInfo →
    (RowVersionManager × List DeleteInfo) × Option StorageError
  | m, undo, [] => ((m, undo), none)
  | m, undo, b :: rest =>
    match m.deleteRows b.vectorIdx transactionId b.rows with
    | (m, .ok rows) => flushAll transactionId m (pushDelete undo b.vectorIdx rows) rest
    | (m, .error e) => ((m, undo), some e)

/-- What a call leaves behind: the manager, the undo buffer, and the error if it threw. -/
def VersionDeleteState.outcome (r : VersionDeleteState × Option StorageError) :
    (RowVersionManager × List DeleteInfo) × Option StorageError :=
  ((r.1.manager, r.1.undo), r.2)

namespace VersionDeleteState

variable {tid : Nat} {st : VersionDeleteState}

theorem flushAll_consBatch (rest : List DeleteInfo) :
    flushAll tid st.manager st.undo (consBatch st.currentChunk st.rows rest) =
      match st.flush tid with
      | (st', none) => flushAll tid st'.manager st'.undo rest
      | (st', some e) => ((st'.manager, st'.undo), some e) := by
  unfold consBatch flush
  by_cases hrows : st.rows = []
  · simp [hrows]
  · simp only [hrows,if_false,flushAll]
    cases hres : st.manager.deleteRows st.currentChunk tid st.rows with
    | mk m result => cases result <;> simp

theorem flush_rows (h : st.flush tid = (st', none)) : st'.rows = [] := by
  unfold flush at h
  split at h
  · rename_i hrows
    obtain ⟨rfl,-⟩ := Prod.mk.inj h
    exact hrows
  · split at h
    · obtain ⟨rfl,-⟩ := Prod.mk.inj h
      rfl
    · simp at h

theorem outcome_deleteLoop (ids : List Nat) :
    outcome (deleteLoop tid st ids) =
      flushAll tid st.manager st.undo (batchesFrom st.currentChunk st.rows ids) := by
  induction ids generalizing st with
  | nil =>
    simp only [deleteLoop,batchesFrom,flushAll_consBatch,outcome]
    cases hf : st.flush tid with
    | mk st' result => cases result <;> simp [flushAll]
  | cons rowId ids ih =>
    simp only [deleteLoop,delete,batchesFrom]
    by_cases hc : st.currentChunk = rowId / standardVectorSize
    · simp only [hc,ne_eq,not_true_eq_false,if_false]
      rw [ih]
      simp [collect]
    simp only [ne_eq,hc,not_false_eq_true,if_true,flushAll_consBatch]
    cases hf : st.flush tid with
    | mk st' result =>
      cases result with
      | none =>
        simp only
        rw [ih]
        simp [collect,flush_rows hf]
      | some e => simp [outcome]

end VersionDeleteState

theorem RowGroup.outcome_delete (m : RowVersionManager) (undo : List DeleteInfo) (tid : Nat)
    (ids : List Nat) :
    VersionDeleteState.outcome (RowGroup.delete m undo tid ids) =
        flushAll tid m undo (batches ids) :=
  VersionDeleteState.outcome_deleteLoop ids

theorem slot_eq (r : Nat) : r - r / standardVectorSize * standardVectorSize =
    r % standardVectorSize := by
  have := row_eq r
  omega

theorem slots_batchesFrom (h : ∀ i ∈ slots, i < standardVectorSize) (ids : List Nat) :
    ∀ b ∈ batchesFrom chunk slots ids, ∀ i ∈ b.rows, i < standardVectorSize := by
  have hcons : ∀ {c : Nat} {l : List Nat} {rest : List DeleteInfo},
      (∀ i ∈ l, i < standardVectorSize) →
      (∀ b ∈ rest, ∀ i ∈ b.rows, i < standardVectorSize) →
      ∀ b ∈ consBatch c l rest, ∀ i ∈ b.rows, i < standardVectorSize := by
    intro c l rest hl hrest b hb
    unfold consBatch at hb
    split at hb
    · exact hrest b hb
    · rcases List.mem_cons.mp hb with he | hb
      · subst he
        exact hl
      · exact hrest b hb
  induction ids generalizing chunk slots with
  | nil =>
    apply hcons h
    simp
  | cons rowId ids ih =>
    have hslot : rowId - rowId / standardVectorSize * standardVectorSize < standardVectorSize := by
      rw [slot_eq]
      exact slot_lt rowId
    unfold batchesFrom
    dsimp only
    split
    · apply hcons h
      apply ih
      simpa using hslot
    apply ih
    intro i hi
    rcases List.mem_append.mp hi with hi | hi
    · exact h i hi
    · rw [List.mem_singleton.mp hi]
      exact hslot

namespace RowVersionManager

variable {m : RowVersionManager} {v tid u : Nat} {slots : List Nat}

/-- Constant infos carry no transaction's delete mark: they are appended without
one and loaded with id 0. -/
def Unmarked (m : RowVersionManager) : Prop :=
  ∀ v info, m.vectorInfo v = some (.constant info) → info.deleteId = notDeletedId ∨
    info.deleteId = 0

/-- An id that only a delete mark of a transaction can be. -/
def IsMark (u : Nat) : Prop :=
  transactionIdStart ≤ u ∧ u < notDeletedId

theorem IsMark.ne_zero (h : IsMark u) : u ≠ 0 := by
  have h1 := h.1
  have h2 : 0 < transactionIdStart := by decide
  omega

theorem IsMark.ne_notDeleted (h : IsMark u) : u ≠ notDeletedId := ne_of_lt h.2

/-- Spelling out the info of a vector loses no transaction's mark and adds none. -/
theorem Unmarked.getVectorInfo (h : m.Unmarked) (hu : IsMark u) (i : Nat) :
    (m.getVectorInfo v).deleted i = u ↔ infoDeletedAt (m.vectorInfo v) i = u := by
  have hnd : notDeletedId ≠ u := fun he => hu.ne_notDeleted he.symm
  unfold RowVersionManager.getVectorInfo
  cases hv : m.vectorInfo v with
  | none => simp [infoDeletedAt]
  | some info =>
    cases info with
    | vector info => simp [infoDeletedAt,ChunkInfo.deletedAt]
    | constant info =>
      have h0 : (0 : Nat) ≠ u := fun he => hu.ne_zero he.symm
      rcases h v info hv with hd | hd <;> simp [infoDeletedAt,ChunkInfo.deletedAt,hd,hnd,h0]

theorem Unmarked.set_vector (h : m.Unmarked) (b : Bool) (info : ChunkVectorInfo) :
    ({ m with hasChanges := b }.set v (.vector info)).Unmarked := by
  intro j c hj
  by_cases hjv : j = v
  · simp [set,hjv] at hj
  · simp only [set,hjv,if_false] at hj
    exact h j c hj

/-- The slots that a call of `DeleteRows` newly marks. -/
def freshSlots (m : RowVersionManager) (v tid : Nat) (slots : List Nat) : List Nat :=
  (m.getVectorInfo v).newlyDeleted tid slots

theorem freshSlots_spec : (m.freshSlots v tid slots).Nodup ∧
    ∀ i ∈ m.freshSlots v tid slots, i ∈ slots ∧ (m.getVectorInfo v).deleted i = notDeletedId := by
  refine ⟨freshRows_spec.1,?_⟩
  intro i hi
  obtain ⟨hin,-,hfree⟩ := freshRows_spec.2 i hi
  exact ⟨hin,by simpa using hfree⟩

theorem deletedAt_set (info : ChunkVectorInfo) (r : Nat) :
    ({ m with hasChanges := b }.set v (.vector info)).deletedAt r =
      if r / standardVectorSize = v then info.deleted (r % standardVectorSize)
          else m.deletedAt r := by
  by_cases hv : r / standardVectorSize = v
  · simp [deletedAt,set,hv,infoDeletedAt,ChunkInfo.deletedAt]
  · simp [deletedAt,set,hv]

theorem deleteRows_eq : m.deleteRows v tid slots =
    ({ m with hasChanges := true }.set v (.vector
        { m.getVectorInfo v with
          anyDeleted := true
          deleted := fun i => if i ∈ m.freshSlots v tid slots then tid
                              else (m.getVectorInfo v).deleted i }),
      if (m.getVectorInfo v).Conflict tid slots then .error
        (.transaction "Conflict on tuple deletion!")
      else .ok (m.freshSlots v tid slots)) := by
  unfold deleteRows ChunkVectorInfo.delete
  rw [ChunkVectorInfo.deleteLoop_eq]
  rfl

section

variable (h : m.Unmarked) (hslots : ∀ i ∈ slots, i < standardVectorSize)
include h hslots

/-- `DeleteRows` adds marks of its transaction on the fresh slots, and touches no
other transaction's mark, whether it returns or throws. -/
theorem Unmarked.deleteRows (hu : IsMark u) (r : Nat) :
    (m.deleteRows v tid slots).1.deletedAt r = u ↔
      m.deletedAt r = u ∨ tid = u ∧ r ∈ rowsOf v (m.freshSlots v tid slots) := by
  have hmem : r ∈ rowsOf v (m.freshSlots v tid slots) ↔
      r / standardVectorSize = v ∧ r % standardVectorSize ∈ m.freshSlots v tid slots :=
    mem_rowsOf (fun i hi => hslots i (freshSlots_spec.2 i hi).1)
  rw [deleteRows_eq,deletedAt_set,hmem]
  by_cases hv : r / standardVectorSize = v
  · have hold := h.getVectorInfo (v := v) hu (r % standardVectorSize)
    have hat : m.deletedAt r = u ↔ (m.getVectorInfo v).deleted (r % standardVectorSize) = u := by
      rw [hold]
      unfold deletedAt
      rw [hv]
    rw [if_pos hv,hat]
    by_cases hf : r % standardVectorSize ∈ m.freshSlots v tid slots
    · have hfree := (freshSlots_spec.2 _ hf).2
      have hne : notDeletedId ≠ u := fun he => hu.ne_notDeleted he.symm
      simp [hf,hv,hfree,hne]
    · simp [hf]
  · simp [hv]

theorem Unmarked.not_mark_of_fresh
    (hu : IsMark u) (hr : r ∈ rowsOf v (m.freshSlots v tid slots)) : m.deletedAt r ≠ u := by
  obtain ⟨hv,hf⟩ := (mem_rowsOf (fun i hi => hslots i (freshSlots_spec.2 i hi).1)).mp hr
  intro hat
  unfold deletedAt at hat
  rw [hv,← h.getVectorInfo hu,(freshSlots_spec.2 _ hf).2] at hat
  exact hu.ne_notDeleted hat.symm

theorem Unmarked.commitDelete
    {id : Nat} (hid : ¬ IsMark id) (hu : IsMark u) (r : Nat) :
    (m.commitDelete v id slots).deletedAt r = u ↔ m.deletedAt r = u ∧ r ∉ rowsOf v slots := by
  unfold RowVersionManager.commitDelete
  rw [deletedAt_set,mem_rowsOf hslots]
  have hne : id ≠ u := fun he => hid (he ▸ hu)
  by_cases hv : r / standardVectorSize = v
  · have hat : m.deletedAt r = u ↔ (m.getVectorInfo v).deleted (r % standardVectorSize) = u := by
      rw [h.getVectorInfo hu]
      unfold deletedAt
      rw [hv]
    rw [if_pos hv,hat]
    by_cases hs : r % standardVectorSize ∈ slots <;> simp [ChunkVectorInfo.commitDelete,hs,hv,hne]
  · simp [hv]

end

end RowVersionManager

end PredTrans.Storage
