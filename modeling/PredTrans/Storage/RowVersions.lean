import PredTrans.Library.Folds
import PredTrans.Storage.RowVersionManager

/-! Behind the three encodings a manager is a table with two ids per row. `Coherent` collects what
the encodings must satisfy for the table to be all that a reader can observe. -/

namespace PredTrans.Storage
open List ChunkVectorInfo Nat

theorem vector_of_row (v : Nat) (hi : i < standardVectorSize) :
    (v * standardVectorSize + i) / standardVectorSize = v := by
  rw [mul_comm,mul_add_div standardVectorSize_pos,div_eq_of_lt hi,add_zero]

theorem slot_of_row (v : Nat) (hi : i < standardVectorSize) :
    (v * standardVectorSize + i) % standardVectorSize = i := by
  rw [mul_comm,mul_add_mod,mod_eq_of_lt hi]

theorem succ_vector (v : Nat) :
    (v + 1) * standardVectorSize = v * standardVectorSize + standardVectorSize :=
  succ_mul _ _

theorem row_eq (r : Nat) : r / standardVectorSize * standardVectorSize +
    r % standardVectorSize = r :=
  div_add_mod' r standardVectorSize

theorem slot_lt (r : Nat) : r % standardVectorSize < standardVectorSize :=
  mod_lt r standardVectorSize_pos

/-- The rows with given slots of one vector. -/
def rowsOf (v : Nat) (slots : List Nat) : List Nat :=
  slots.map (v * standardVectorSize + ·)

theorem mem_rowsOf (h : ∀ i ∈ slots, i < standardVectorSize) :
    r ∈ rowsOf v slots ↔ r / standardVectorSize = v ∧ r % standardVectorSize ∈ slots := by
  simp only [rowsOf,mem_map]
  constructor
  · intro hr
    obtain ⟨i,hi,rfl⟩ := hr
    rw [vector_of_row v (h i hi),slot_of_row v (h i hi)]
    exact ⟨rfl,hi⟩
  · intro hr
    refine ⟨r % standardVectorSize,hr.2,?_⟩
    rw [← hr.1,row_eq]

/-- The numbers of a transaction as the transaction manager hands them out. -/
structure TransactionData.Valid (T : TransactionData) : Prop where
  started : 0 < T.startTime
  start_lt : T.startTime < transactionIdStart
  id_ge : transactionIdStart ≤ T.transactionId
  id_lt : T.transactionId < notDeletedId

theorem TransactionData.Valid.loaded (h : T.Valid) : useVersion T 0 = true := by
  simp [h.started]

theorem TransactionData.Valid.undeleted (h : T.Valid) : useVersion T notDeletedId = false := by
  have h1 := h.start_lt
  have h2 := h.id_lt
  have h3 : transactionIdStart < notDeletedId := by decide
  simp only [useVersion,transactionVersionOperator,Bool.or_eq_false_iff,decide_eq_false_iff_not,
    beq_eq_false_iff_ne]
  omega

namespace RowVersionManager

open Library

variable {m : RowVersionManager} {n v : Nat}

/-- Inserter id of a slot. -/
def infoInsertedAt : Option ChunkInfo → Nat → Nat
  | none, _ => 0
  | some info, i => info.insertedAt i

/-- Deleter id of a slot. -/
def infoDeletedAt : Option ChunkInfo → Nat → Nat
  | none, _ => notDeletedId
  | some info, i => info.deletedAt i

def insertedAt (m : RowVersionManager) (row : Nat) : Nat :=
  infoInsertedAt (m.vectorInfo (row / standardVectorSize)) (row % standardVectorSize)

def deletedAt (m : RowVersionManager) (row : Nat) : Nat :=
  infoDeletedAt (m.vectorInfo (row / standardVectorSize)) (row % standardVectorSize)

/-- The rows of a vector that a scan of a row group with `n` rows considers. -/
def scanCount (n v : Nat) : Nat :=
  min standardVectorSize (n - v * standardVectorSize)

/-- The encoding of vector `v` is right for a row group of `n` rows: a constant
info covers existing rows only, which are undeleted or were loaded as deleted; the
summaries of a vector info are right about
the existing rows; and no slot past the last row carries a delete mark. -/
def InfoOk (n v : Nat) : Option ChunkInfo → Prop
  | none => True
  | some (.constant info) => (v + 1) * standardVectorSize ≤ n ∧
      (info.deleteId = notDeletedId ∨ info.deleteId = 0)
  | some (.vector info) => v * standardVectorSize < n ∧
      info.Summarised (scanCount n v) ∧
      ∀ i < standardVectorSize, n ≤ v * standardVectorSize + i → info.deleted i = notDeletedId

structure Coherent (m : RowVersionManager) (n : Nat) : Prop where
  fits : n ≤ rowGroupSize
  info : ∀ v, InfoOk n v (m.vectorInfo v)

/-- A manager without any info, over `n` rows that were loaded from disk. -/
theorem coherent_new {start n : Nat} (h : n ≤ rowGroupSize) : Coherent { start := start } n :=
  ⟨h,fun _ => trivial⟩

theorem Coherent.summarised (h : Coherent m n) {info : ChunkInfo}
    (hv : m.vectorInfo v = some info) :
    info.Summarised (scanCount n v) := by
  have hi := h.info v
  rw [hv] at hi
  cases info with
  | constant info => trivial
  | vector info => exact hi.2.1

theorem fetch_eq (hT : T.Valid) (row : Nat) :
    m.fetch T row = (useVersion T (m.insertedAt row) && !useVersion T (m.deletedAt row)) := by
  have hslot : row - row / standardVectorSize * standardVectorSize = row % standardVectorSize := by
    have := row_eq row
    omega
  unfold fetch insertedAt deletedAt
  dsimp only
  cases hv : m.vectorInfo (row / standardVectorSize) with
  | none => simp only [infoInsertedAt,infoDeletedAt,hT.loaded,hT.undeleted,Bool.not_false,
      Bool.and_self]
  | some info => simp only [infoInsertedAt,infoDeletedAt,ChunkInfo.fetch_eq,hslot]

theorem lt_scanCount (hr : r < n) :
    r % standardVectorSize < scanCount n (r / standardVectorSize) := by
  have h1 := slot_lt r
  have h2 := row_eq r
  unfold scanCount
  omega

/-- The row group scan reads row `r` for transaction `T`. -/
def Scans (m : RowVersionManager) (n : Nat) (T : TransactionData) (r : Nat) : Prop :=
  let v := r / standardVectorSize
  r % standardVectorSize ∈ (m.getSelVector T v (scanCount n v)).rows (scanCount n v)

/-- The row group scan that omits permanently deleted rows reads row `r`. -/
def ScansCommitted (m : RowVersionManager) (n : Nat) (lowest : TransactionData) (r : Nat) : Prop :=
  let v := r / standardVectorSize
  r % standardVectorSize ∈
    (m.getCommittedSelVector lowest.startTime lowest.transactionId v (scanCount n v)).rows
      (scanCount n v)

theorem Coherent.scans_iff (h : Coherent m n) (hT : T.Valid) (hr : r < n) :
    m.Scans n T r ↔ m.fetch T r = true := by
  have hlt := lt_scanCount hr
  unfold Scans getSelVector
  rw [fetch_eq hT]
  unfold insertedAt deletedAt
  dsimp only
  cases hv : m.vectorInfo (r / standardVectorSize) with
  | none =>
    simp only [Selection.rows,if_true,infoInsertedAt,infoDeletedAt,hT.loaded,hT.undeleted]
    simpa using hlt
  | some info =>
    have hop : transactionVersionOperator.useDeletedVersion T.startTime T.transactionId
        notDeletedId = true := by
      simpa [transactionVersionOperator,useVersion] using hT.undeleted
    dsimp only [ChunkInfo.getSelVector]
    rw [ChunkInfo.rows_templatedGetSelVector (h.summarised hv) hop]
    simp [hlt,infoInsertedAt,infoDeletedAt,transactionVersionOperator,useVersion]

theorem Coherent.scansCommitted_iff (h : Coherent m n) (lowest : TransactionData) {r : Nat}
    (hr : r < n) : m.ScansCommitted n lowest r ↔
      (lowest.startTime ≤ m.deletedAt r ∧ m.deletedAt r < transactionIdStart) ∨
        m.deletedAt r = notDeletedId := by
  have hlt := lt_scanCount hr
  unfold ScansCommitted getCommittedSelVector deletedAt
  dsimp only
  cases hv : m.vectorInfo (r / standardVectorSize) with
  | none =>
    simp only [Selection.rows,if_true,infoDeletedAt,or_true,iff_true]
    simpa using hlt
  | some info =>
    have hop : committedVersionOperator.useDeletedVersion lowest.startTime lowest.transactionId
        notDeletedId = true := by
      simp [committedVersionOperator]
    dsimp only [ChunkInfo.getCommittedSelVector]
    rw [ChunkInfo.rows_templatedGetSelVector (h.summarised hv) hop]
    simp [hlt,infoDeletedAt,committedVersionOperator]

theorem mem_coveredVectors (hab : a < b) : v ∈ coveredVectors a b ↔
    v * standardVectorSize < b ∧ a < (v + 1) * standardVectorSize := by
  have h1 : a / standardVectorSize ≤ v ↔ a < (v + 1) * standardVectorSize := by
    rw [← Nat.lt_succ_iff,Nat.div_lt_iff_lt_mul standardVectorSize_pos]
  have h2 : v ≤ (b - 1) / standardVectorSize ↔ v * standardVectorSize < b := by
    rw [le_div_iff_mul_le standardVectorSize_pos]
    omega
  simp only [coveredVectors,mem_range'_1]
  omega

theorem nodup_coveredVectors (a b : Nat) : (coveredVectors a b).Nodup :=
  nodup_range' 1

theorem vectorStart_eq (hv : a < (v + 1) * standardVectorSize) :
    v * standardVectorSize + vectorStart a v = max a (v * standardVectorSize) := by
  unfold vectorStart
  dsimp only
  split
  · rename_i he
    subst he
    omega
  · have hle : a / standardVectorSize < v := by
      have := (div_lt_iff_lt_mul standardVectorSize_pos).mpr hv
      omega
    have := div_lt_iff_lt_mul standardVectorSize_pos |>.mp hle
    omega

theorem vectorEnd_eq (hv : v * standardVectorSize < b) :
    v * standardVectorSize + vectorEnd b v = min b ((v + 1) * standardVectorSize) := by
  have hrow := row_eq (b - 1)
  have hslot := slot_lt (b - 1)
  have hexp := succ_vector v
  unfold vectorEnd
  dsimp only
  split
  · rename_i he
    subst he
    omega
  have hle : v ≤ (b - 1) / standardVectorSize := by
    rw [le_div_iff_mul_le standardVectorSize_pos]
    omega
  have hlt : v + 1 ≤ (b - 1) / standardVectorSize := by omega
  have := (le_div_iff_mul_le standardVectorSize_pos).mp hlt
  omega

theorem Coherent.deletedAt_past (h : Coherent m n) (hr : n ≤ r) : m.deletedAt r = notDeletedId := by
  have hinfo := h.info (r / standardVectorSize)
  have hrow := row_eq r
  have hslot := slot_lt r
  unfold deletedAt
  cases hv : m.vectorInfo (r / standardVectorSize) with
  | none => rfl
  | some info =>
    rw [hv] at hinfo
    cases info with
    | constant info =>
      simp only [InfoOk,succ_mul] at hinfo
      omega
    | vector info => exact hinfo.2.2 _ hslot (by omega)

/-- What `AppendVersionInfo` of the rows from `a` to `b` makes of one vector. -/
def appendedInfo (tid a b start v : Nat) : Option ChunkInfo → Option ChunkInfo
  | old =>
    if vectorStart a v = 0 ∧ vectorEnd b v = standardVectorSize then
      some (.constant { start := start + v * standardVectorSize, insertId := tid })
    else match old with
      | none => some (.vector (append { start := start + v * standardVectorSize }
          (vectorStart a v) (vectorEnd b v) tid))
      | some (.vector info) => some (.vector (info.append (vectorStart a v) (vectorEnd b v) tid))
      | some (.constant info) => some (.constant info)

theorem appendVector_eq (h : ∀ info, m.vectorInfo v ≠ some (.constant info)) :
    ∃ m', appendVector tid a b m v = .ok m' ∧ m'.start = m.start ∧
      m'.vectorInfo v = appendedInfo tid a b m.start v (m.vectorInfo v) ∧
      ∀ j ≠ v, m'.vectorInfo j = m.vectorInfo j := by
  unfold appendVector appendedInfo
  dsimp only
  split
  · exact ⟨_,rfl,rfl,by simp [set],fun j hj => by simp [set,hj]⟩
  cases hv : m.vectorInfo v with
  | none => exact ⟨_,rfl,rfl,by simp [set],fun j hj => by simp [set,hj]⟩
  | some info =>
    cases info with
    | constant info => exact absurd hv (h info)
    | vector info => exact ⟨_,rfl,rfl,by simp [set],fun j hj => by simp [set,hj]⟩

section Append

variable {a b tid start : Nat}

section

variable (info : ChunkVectorInfo) (first last : Nat)

@[simp] theorem append_deleted : (info.append first last tid).deleted = info.deleted := by
  unfold append stampInserted
  split <;> [skip; split] <;> rfl

@[simp] theorem append_anyDeleted : (info.append first last tid).anyDeleted = info.anyDeleted := by
  unfold append stampInserted
  split <;> [skip; split] <;> rfl

@[simp] theorem append_inserted (i : Nat) :
    (info.append first last tid).inserted i =
      if first ≤ i ∧ i < last then tid else info.inserted i := by
  unfold append stampInserted
  split <;> [skip; split] <;> rfl

end

theorem append_same {info : ChunkVectorInfo}
    (hsame : info.sameInsertedId = true → ∀ i < first, info.inserted i = info.insertId)
    (h : (info.append first last tid).sameInsertedId = true) :
    ∀ i < last, (info.append first last tid).inserted i =
        (info.append first last tid).insertId := by
  intro i hi
  unfold append stampInserted at h ⊢
  by_cases hf : first = 0
  · simp [hf,hi]
  by_cases hid : info.insertId = tid
  · simp only [hf,if_false,hid,ne_eq,not_true] at h ⊢
    split
    · rfl
    · rw [hsame h i (by omega),hid]
  · simp [hf,hid] at h

theorem InfoOk.mono_of_not_covered (h : InfoOk a v old) (hab : a < b)
    (hv : ¬ (v * standardVectorSize < b ∧ a < (v + 1) * standardVectorSize)) : InfoOk b v old := by
  have hexp := succ_vector v
  cases old with
  | none => trivial
  | some old =>
    cases old with
    | constant info =>
      simp only [InfoOk] at h ⊢
      omega
    | vector info =>
      obtain ⟨hlt,hsum,hpast⟩ := h
      have hscan : scanCount b v = scanCount a v := by
        unfold scanCount
        omega
      refine ⟨by omega,by rw [hscan]; exact hsum,?_⟩
      intro i hi hrow
      exact hpast i hi (by omega)

/-- Appending into a vector that holds rows up to `a`, or none yet. -/
theorem infoOk_append {info : ChunkVectorInfo} (hb : v * standardVectorSize < b) (hab : a ≤ b)
    (hsame : info.sameInsertedId = true → ∀ i < vectorStart a v, info.inserted i = info.insertId)
    (hund : info.anyDeleted = false → ∀ i < standardVectorSize, info.deleted i = notDeletedId)
    (hpast : ∀ i < standardVectorSize, a ≤ v * standardVectorSize + i →
      info.deleted i = notDeletedId) :
    InfoOk b v (some (.vector (info.append (vectorStart a v) (vectorEnd b v) tid))) := by
  have hend := vectorEnd_eq hb
  have hexp := succ_vector v
  have hscan : scanCount b v = vectorEnd b v := by
    unfold scanCount
    omega
  refine ⟨hb,⟨?_,?_⟩,?_⟩
  · rw [hscan]
    exact append_same hsame
  · intro hany i hi
    rw [append_anyDeleted] at hany
    rw [append_deleted]
    exact hund hany i (by omega)
  · intro i hi hrow
    rw [append_deleted]
    exact hpast i hi (by omega)

variable {old : Option ChunkInfo} (h : InfoOk a v old) (ha : a < (v + 1) * standardVectorSize)
  (hi : i < standardVectorSize)

include h ha in
/-- A constant chunk is full, so it is not appended to. -/
theorem InfoOk.open_cases : old = none ∨ ∃ info, old = some (.vector info) := by
  rcases old with _ | info | info
  · exact .inl rfl
  · simp only [InfoOk] at h
    omega
  · exact .inr ⟨info,rfl⟩

include h ha in
theorem infoOk_appendedInfo (hb : v * standardVectorSize < b) (hab : a ≤ b) :
    InfoOk b v (appendedInfo tid a b start v old) := by
  have hstart := vectorStart_eq ha
  have hend := vectorEnd_eq hb
  have hexp := succ_vector v
  unfold appendedInfo
  split
  · exact ⟨by omega,.inl rfl⟩
  rcases h.open_cases ha with rfl | ⟨info,rfl⟩
  · exact infoOk_append hb hab (fun _ _ _ => rfl) (fun _ _ _ => rfl) (fun _ _ _ => rfl)
  obtain ⟨hlt,hsum,hpast⟩ := h
  apply infoOk_append hb hab
  · intro hs i hi
    apply hsum.same hs
    unfold scanCount
    omega
  · intro hd i hi
    by_cases hia : a ≤ v * standardVectorSize + i
    · exact hpast i hi hia
    · apply hsum.undeleted hd
      unfold scanCount
      omega
  · exact hpast

include h ha hi

theorem infoInsertedAt_appendedInfo :
    infoInsertedAt (appendedInfo tid a b start v old) i =
      if vectorStart a v ≤ i ∧ i < vectorEnd b v then tid else infoInsertedAt old i := by
  unfold appendedInfo
  split
  · rw [if_pos (by omega)]
    rfl
  · rcases h.open_cases ha with rfl | ⟨info,rfl⟩ <;>
      simp only [infoInsertedAt,ChunkInfo.insertedAt,append_inserted]

theorem infoDeletedAt_appendedInfo :
    infoDeletedAt (appendedInfo tid a b start v old) i = infoDeletedAt old i := by
  have hstart := vectorStart_eq ha
  unfold appendedInfo
  split
  · -- the whole vector lies past the old rows, so it had no delete marks
    rcases h.open_cases ha with rfl | ⟨info,rfl⟩
    · rfl
    · exact (h.2.2 i hi (by omega)).symm
  · rcases h.open_cases ha with rfl | ⟨info,rfl⟩ <;>
      simp only [infoDeletedAt,ChunkInfo.deletedAt,append_deleted]

end Append

/-- Appending never throws, gives the new rows the transaction's id and leaves
every other id alone. -/
theorem Coherent.append (h : Coherent m n) (T : TransactionData) (hn : n < n')
    (hfit : n' ≤ rowGroupSize) :
    ∃ m', m.appendVersionInfo T n n' = .ok m' ∧ Coherent m' n' ∧
      (∀ r < n', m'.insertedAt r = if n ≤ r then T.transactionId else m.insertedAt r) ∧
      ∀ r, m'.deletedAt r = m.deletedAt r := by
  have hcov : ∀ {v}, v ∈ coveredVectors n n' ↔
      v * standardVectorSize < n' ∧ n < (v + 1) * standardVectorSize := mem_coveredVectors hn
  have hnew : ∀ v ∈ coveredVectors n n', ∀ info, m.vectorInfo v ≠ some (.constant info) := by
    intro v hv info he
    have hi := h.info v
    have := (hcov.mp hv).2
    rw [he] at hi
    simp only [InfoOk] at hi
    omega
  obtain ⟨m',hok,-,hget⟩ := foldlM_pointwise vectorInfo RowVersionManager.start
    (fun _ old => ∀ info, old ≠ some (.constant info))
    (appendedInfo T.transactionId n n' m.start)
    (by
      intro s k hs hP
      obtain ⟨s',h1,h2,h3,h4⟩ := appendVector_eq hP
      exact ⟨s',h1,h2.trans hs,by rw [h3,hs],h4⟩)
    (nodup_coveredVectors n n') (s := { m with hasChanges := true }) rfl hnew
  have hinfo : ∀ v, m'.vectorInfo v =
      if v ∈ coveredVectors n n' then appendedInfo T.transactionId n n' m.start v (m.vectorInfo v)
      else m.vectorInfo v := hget
  refine ⟨m',hok,⟨hfit,?_⟩,?_,?_⟩
  · intro v
    rw [hinfo v]
    split
    · rename_i hv
      obtain ⟨hb,ha⟩ := hcov.mp hv
      exact infoOk_appendedInfo (h.info v) ha hb (by omega)
    · rename_i hv
      exact (h.info v).mono_of_not_covered hn (fun hc => hv (hcov.mpr hc))
  · intro r hr
    have hrow := row_eq r
    have hslot := slot_lt r
    have hv := succ_vector (r / standardVectorSize)
    unfold insertedAt
    rw [hinfo]
    split
    · rename_i hc
      obtain ⟨hb,ha⟩ := hcov.mp hc
      have hstart := vectorStart_eq ha
      have hend := vectorEnd_eq hb
      rw [infoInsertedAt_appendedInfo (h.info _) ha hslot]
      congr 1
      apply propext
      omega
    · rename_i hc
      rw [hcov] at hc
      rw [if_neg (by omega)]
  · intro r
    have hslot := slot_lt r
    unfold deletedAt
    rw [hinfo]
    split
    · rename_i hc
      exact infoDeletedAt_appendedInfo (h.info _) (hcov.mp hc).2 hslot
    · rfl

theorem appendVector_present (h : appendVector tid a b m w = .ok m') :
    m'.vectorInfo w ≠ none ∧ ∀ v, m.vectorInfo v ≠ none → m'.vectorInfo v ≠ none := by
  have hset : ∀ (info : ChunkInfo), (m.set w info).vectorInfo w ≠ none ∧
      ∀ v, m.vectorInfo v ≠ none → (m.set w info).vectorInfo v ≠ none := by
    intro info
    refine ⟨by simp [RowVersionManager.set],?_⟩
    intro v hv
    by_cases hw : v = w <;> simp [RowVersionManager.set,hw,hv]
  unfold appendVector at h
  dsimp only at h
  split at h
  · cases h
    exact hset _
  split at h
  · cases h
    exact hset _
  · cases h
    exact hset _
  · cases h

theorem appendVersionInfo_present (h : m.appendVersionInfo T n n' = .ok m') :
    ∀ v ∈ coveredVectors n n', m'.vectorInfo v ≠ none :=
  foldlM_visited (fun v (m : RowVersionManager) => m.vectorInfo v ≠ none)
    (fun _ _ _ hs => (appendVector_present hs).1)
    (fun _ _ _ j hj hs => (appendVector_present hs).2 j hj) h

/-- The rows from `a` on were inserted by `x` and the rows before by others. -/
structure LastAppend (m : RowVersionManager) (n a x : Nat) : Prop where
  start_lt : a < n
  mine : ∀ r, a ≤ r → r < n → m.insertedAt r = x
  others : ∀ r < a, m.insertedAt r ≠ x

/-- No vector mixes rows of the last append with older ones under a constant
info or a shared insert id. -/
theorem LastAppend.not_mixed (h : LastAppend m n a x) (hv : v * standardVectorSize < a)
    (ha : a < (v + 1) * standardVectorSize) :
    infoInsertedAt (m.vectorInfo v) 0 ≠ x ∧
      infoInsertedAt (m.vectorInfo v) (a - v * standardVectorSize) = x := by
  have hexp := succ_vector v
  have h0 := h.others (v * standardVectorSize + 0) (by omega)
  have h1 := h.mine (v * standardVectorSize + (a - v * standardVectorSize)) (by omega)
    (by have := h.start_lt; omega)
  unfold insertedAt at h0 h1
  rw [vector_of_row v standardVectorSize_pos,slot_of_row v standardVectorSize_pos] at h0
  rw [vector_of_row v (by omega),slot_of_row v (by omega)] at h1
  exact ⟨h0,h1⟩

theorem LastAppend.not_constant (h : LastAppend m n a x) (hv : v * standardVectorSize < a)
    (ha : a < (v + 1) * standardVectorSize) (info : ChunkConstantInfo) :
    m.vectorInfo v ≠ some (.constant info) := by
  intro he
  obtain ⟨h0,h1⟩ := h.not_mixed hv ha
  rw [he] at h0 h1
  exact h0 h1

theorem commitVector_eq (h : m.vectorInfo v ≠ none) :
    ∃ m', commitVector c a b m v = .ok m' ∧ m'.start = m.start ∧
      m'.vectorInfo v = (m.vectorInfo v).map (ChunkInfo.commitAppend c (vectorStart a v)
        (vectorEnd b v)) ∧
      ∀ j ≠ v, m'.vectorInfo j = m.vectorInfo j := by
  unfold commitVector
  cases hv : m.vectorInfo v with
  | none => exact absurd hv h
  | some info => exact ⟨_,rfl,rfl,by simp [set],fun j hj => by simp [set,hj]⟩

section

variable (info : ChunkVectorInfo) (c first last : Nat)

@[simp] theorem commitAppend_deleted : (info.commitAppend c first last).deleted = info.deleted := by
  unfold ChunkVectorInfo.commitAppend ChunkVectorInfo.stampInserted
  split <;> rfl

@[simp] theorem commitAppend_anyDeleted :
    (info.commitAppend c first last).anyDeleted = info.anyDeleted := by
  unfold ChunkVectorInfo.commitAppend ChunkVectorInfo.stampInserted
  split <;> rfl

@[simp] theorem commitAppend_inserted (i : Nat) :
    (info.commitAppend c first last).inserted i =
      if first ≤ i ∧ i < last then c else info.inserted i := by
  unfold ChunkVectorInfo.commitAppend ChunkVectorInfo.stampInserted
  split <;> rfl

@[simp] theorem commitAppend_same :
    (info.commitAppend c first last).sameInsertedId = info.sameInsertedId := by
  unfold ChunkVectorInfo.commitAppend ChunkVectorInfo.stampInserted
  split <;> rfl

end

theorem commitAppend_insertId {info : ChunkVectorInfo} (h : info.sameInsertedId = true)
    (c first last : Nat) : (info.commitAppend c first last).insertId = c := by
  simp [ChunkVectorInfo.commitAppend,ChunkVectorInfo.stampInserted,h]

/-- A covered vector after `CommitAppend`: its own rows get the commit id, and the
shared insert id is touched only when the vector holds nothing older. -/
theorem LastAppend.infoOk_commit (h : LastAppend m n a x) (hok : InfoOk n v (m.vectorInfo v))
    (hb : v * standardVectorSize < n) (ha : a < (v + 1) * standardVectorSize) :
    InfoOk n v ((m.vectorInfo v).map (ChunkInfo.commitAppend c (vectorStart a v)
        (vectorEnd n v))) := by
  have hstart := vectorStart_eq ha
  have hend := vectorEnd_eq hb
  have hexp := succ_vector v
  have hlt := h.start_lt
  cases hv : m.vectorInfo v with
  | none => trivial
  | some info =>
    rw [hv] at hok
    cases info with
    | constant info => exact hok
    | vector info =>
      obtain ⟨hlt,hsum,hpast⟩ := hok
      refine ⟨hlt,⟨?_,?_⟩,?_⟩
      · intro hs i hi
        rw [commitAppend_same] at hs
        have hfirst : vectorStart a v = 0 := by
          by_contra hne
          obtain ⟨h0,h1⟩ := h.not_mixed (v := v) (by omega) ha
          rw [hv] at h0 h1
          apply h0
          rw [← h1]
          have e0 := hsum.same hs 0 (by unfold scanCount; omega)
          have e1 := hsum.same hs (a - v * standardVectorSize) (by unfold scanCount; omega)
          exact e0.trans e1.symm
        unfold scanCount at hi
        rw [commitAppend_insertId hs,commitAppend_inserted,if_pos (by omega)]
      · intro hd i hi
        rw [commitAppend_anyDeleted] at hd
        rw [commitAppend_deleted]
        exact hsum.undeleted hd i hi
      · intro i hi hrow
        rw [commitAppend_deleted]
        exact hpast i hi hrow

section

variable (h : Coherent m n) (hl : LastAppend m n a x) (hv : v * standardVectorSize < n)
  (hc : ∀ info, m.vectorInfo v = some (.constant info) → info.deleteId = notDeletedId)
include h

include hl in
/-- Committing an append whose vectors all have an info gives its rows the commit id
and leaves all else alone. -/
theorem Coherent.commit_of_present (hpresent : ∀ v ∈ coveredVectors a n, m.vectorInfo v ≠ none)
    (c : Nat) :
    ∃ m', m.commitAppend c a (n - a) = .ok m' ∧ Coherent m' n ∧
      (∀ r < n, m'.insertedAt r = if a ≤ r then c else m.insertedAt r) ∧
      ∀ r, m'.deletedAt r = m.deletedAt r := by
  have hlt := hl.start_lt
  have hcov : ∀ {v}, v ∈ coveredVectors a n ↔
      v * standardVectorSize < n ∧ a < (v + 1) * standardVectorSize := mem_coveredVectors hlt
  obtain ⟨m',hok,-,hget⟩ := foldlM_pointwise vectorInfo RowVersionManager.start
    (fun _ old => old ≠ none)
    (fun v => Option.map (ChunkInfo.commitAppend c (vectorStart a v) (vectorEnd n v)))
    (by
      intro s k hs hP
      obtain ⟨s',h1,h2,h3,h4⟩ := commitVector_eq hP
      exact ⟨s',h1,h2.trans hs,h3,h4⟩)
    (nodup_coveredVectors a n) (s := m) rfl hpresent
  refine ⟨m',?_,⟨h.fits,?_⟩,?_,?_⟩
  · unfold commitAppend
    rw [if_neg (by omega),Nat.add_sub_cancel' hlt.le]
    exact hok
  · intro v
    rw [hget v]
    split
    · rename_i hv
      obtain ⟨hb,ha⟩ := hcov.mp hv
      exact hl.infoOk_commit (h.info v) hb ha
    · exact h.info v
  · intro r hr
    have hrow := row_eq r
    have hslot := slot_lt r
    have hv := succ_vector (r / standardVectorSize)
    unfold insertedAt
    rw [hget]
    split
    · rename_i hc
      obtain ⟨hb,ha⟩ := hcov.mp hc
      have hstart := vectorStart_eq ha
      have hend := vectorEnd_eq hb
      cases hi : m.vectorInfo (r / standardVectorSize) with
      | none => exact absurd hi (hpresent _ hc)
      | some info =>
        cases info with
        | constant info =>
          have hge : ¬ r / standardVectorSize * standardVectorSize < a :=
            fun hlow => hl.not_constant hlow ha info hi
          rw [if_pos (by omega)]
          rfl
        | vector info =>
          simp only [Option.map_some,infoInsertedAt,ChunkInfo.commitAppend,ChunkInfo.insertedAt,
            commitAppend_inserted]
          congr 1
          apply propext
          omega
    · rename_i hc
      rw [hcov] at hc
      rw [if_neg (by omega)]
  · intro r
    unfold deletedAt
    rw [hget]
    split
    · cases m.vectorInfo (r / standardVectorSize) with
      | none => rfl
      | some info =>
        cases info with
        | constant info => rfl
        | vector info => simp [infoDeletedAt,ChunkInfo.commitAppend,ChunkInfo.deletedAt]
    · rfl

include hl in
/-- A missing info stands for rows with insert id 0, so an append by a transaction has
infos everywhere. -/
theorem Coherent.commit (hx : x ≠ 0) (c : Nat) :
    ∃ m', m.commitAppend c a (n - a) = .ok m' ∧ Coherent m' n ∧
      (∀ r < n, m'.insertedAt r = if a ≤ r then c else m.insertedAt r) ∧
      ∀ r, m'.deletedAt r = m.deletedAt r := by
  apply h.commit_of_present hl
  intro v hv he
  obtain ⟨hb,ha⟩ := (mem_coveredVectors hl.start_lt).mp hv
  have hstart := vectorStart_eq ha
  have hexp := succ_vector v
  have hlt := hl.start_lt
  have hpos := standardVectorSize_pos
  have hrow := hl.mine (v * standardVectorSize + vectorStart a v) (by omega) (by omega)
  unfold insertedAt at hrow
  rw [vector_of_row v (i := vectorStart a v) (by omega),he] at hrow
  exact hx hrow.symm

include hl in
/-- Reverting an append whose rows nobody deleted forgets exactly its rows. -/
theorem Coherent.revert (hd : ∀ r, a ≤ r → r < n → m.deletedAt r = notDeletedId) :
    Coherent (m.revertAppend a) a ∧
      ∀ r < a, (m.revertAppend a).insertedAt r = m.insertedAt r ∧
        (m.revertAppend a).deletedAt r = m.deletedAt r := by
  have hfit := h.fits
  have hlt := hl.start_lt
  have hpos := standardVectorSize_pos
  have hkept : ∀ v, (a + (standardVectorSize - 1)) / standardVectorSize ≤ v ↔
      a ≤ v * standardVectorSize := by
    intro v
    rw [← Nat.lt_succ_iff,Nat.div_lt_iff_lt_mul hpos,Nat.succ_mul]
    omega
  have hinfo : ∀ v, v * standardVectorSize < a →
      (m.revertAppend a).vectorInfo v = m.vectorInfo v := by
    intro v hv
    unfold revertAppend
    dsimp only
    rw [if_neg]
    rw [hkept]
    omega
  refine ⟨⟨by omega,?_⟩,?_⟩
  · intro v
    have hv' := succ_vector v
    by_cases hv : v * standardVectorSize < a
    · rw [hinfo v hv]
      have hok := h.info v
      cases hi : m.vectorInfo v with
      | none => trivial
      | some info =>
        rw [hi] at hok
        cases info with
        | constant info =>
          simp only [InfoOk] at hok ⊢
          by_contra hgt
          exact hl.not_constant hv (by omega) info hi
        | vector info =>
          obtain ⟨-,hsum,hpast⟩ := hok
          have hle : scanCount a v ≤ scanCount n v := by
            unfold scanCount
            omega
          refine ⟨hv,⟨fun hs i hi => hsum.same hs i (by omega),
            fun hs i hi => hsum.undeleted hs i (by omega)⟩,?_⟩
          intro i hi' hrow
          by_cases hin : n ≤ v * standardVectorSize + i
          · exact hpast i hi' hin
          · have hr := hd (v * standardVectorSize + i) hrow (by omega)
            unfold deletedAt at hr
            rw [vector_of_row v hi',slot_of_row v hi',hi] at hr
            exact hr
    · have hnone : (m.revertAppend a).vectorInfo v = none := by
        unfold revertAppend
        dsimp only
        by_cases hin : v < rowGroupVectorCount
        · rw [if_pos ⟨(hkept v).mpr (by omega),hin⟩]
        rw [if_neg (by omega)]
        have hok := h.info v
        have hbig : rowGroupSize ≤ v * standardVectorSize := by
          rw [rowGroupSize_eq]
          exact mul_le_mul_right _ (by omega)
        cases hi : m.vectorInfo v with
        | none => rfl
        | some info =>
          rw [hi] at hok
          cases info with
          | constant info =>
            simp only [InfoOk] at hok
            omega
          | vector info =>
            have := hok.1
            omega
      rw [hnone]
      trivial
  · intro r hr
    have hrow := row_eq r
    have hv := hinfo (r / standardVectorSize) (by omega)
    unfold insertedAt deletedAt
    rw [hv]
    exact ⟨rfl,rfl⟩

include hv hc in
theorem getVectorInfo_spec :
    InfoOk n v (some (.vector (m.getVectorInfo v))) ∧
      (∀ i, (m.getVectorInfo v).inserted i = infoInsertedAt (m.vectorInfo v) i) ∧
      ∀ i, (m.getVectorInfo v).deleted i = infoDeletedAt (m.vectorInfo v) i := by
  have hok := h.info v
  unfold getVectorInfo
  cases hi : m.vectorInfo v with
  | none => exact ⟨⟨hv,⟨fun _ _ _ => rfl,fun _ _ _ => rfl⟩,fun _ _ _ => rfl⟩,fun _ => rfl,
      fun _ => rfl⟩
  | some info =>
    rw [hi] at hok
    cases info with
    | constant info =>
      refine ⟨⟨hv,⟨fun _ _ _ => rfl,fun _ _ _ => rfl⟩,fun _ _ _ => rfl⟩,fun _ => rfl,fun _ => ?_⟩
      exact (hc info hi).symm
    | vector info => exact ⟨hok,fun _ => rfl,fun _ => rfl⟩

include hv hc in
theorem Coherent.setDeleted (info : ChunkVectorInfo) {id : Nat}
    (hslots : ∀ i ∈ slots, v * standardVectorSize + i < n ∧ i < standardVectorSize)
    (hins : info.inserted = (m.getVectorInfo v).inserted)
    (hid : info.insertId = (m.getVectorInfo v).insertId)
    (hsame : info.sameInsertedId = (m.getVectorInfo v).sameInsertedId)
    (hany : info.anyDeleted = true ∨ info.anyDeleted = (m.getVectorInfo v).anyDeleted ∧ slots = [])
    (hdel : ∀ i, info.deleted i = if i ∈ slots then id else (m.getVectorInfo v).deleted i)
    (hm : ∀ j, m'.vectorInfo j = if j = v then some (.vector info) else m.vectorInfo j) :
    Coherent m' n ∧ (∀ r, m'.insertedAt r = m.insertedAt r) ∧
      ∀ r, m'.deletedAt r = if r ∈ rowsOf v slots then id else m.deletedAt r := by
  obtain ⟨hok,hi,hd⟩ := getVectorInfo_spec h hv hc
  have hmem : ∀ {r}, r ∈ rowsOf v slots ↔ r / standardVectorSize = v ∧
      r % standardVectorSize ∈ slots :=
    mem_rowsOf (fun i hi => (hslots i hi).2)
  refine ⟨⟨h.fits,?_⟩,?_,?_⟩
  · intro j
    rw [hm j]
    split
    · rename_i hj
      subst hj
      obtain ⟨hlt,hsum,hpast⟩ := hok
      refine ⟨hlt,⟨?_,?_⟩,?_⟩
      · intro hs i hi'
        rw [hins,hid]
        exact hsum.same (hsame ▸ hs) i hi'
      · intro hs i hi'
        rcases hany with ht | ⟨he,hnil⟩
        · rw [ht] at hs
          exact absurd hs (by decide)
        · rw [hdel,hnil,if_neg (by simp)]
          exact hsum.undeleted (he ▸ hs) i hi'
      · intro i hi' hrow
        rw [hdel,if_neg]
        · exact hpast i hi' hrow
        · intro hin
          have := (hslots i hin).1
          omega
    · exact h.info j
  · intro r
    unfold insertedAt
    rw [hm]
    split
    · rename_i hr
      rw [hr]
      simp only [infoInsertedAt,ChunkInfo.insertedAt,hins,hi]
    · rfl
  · intro r
    unfold deletedAt
    rw [hm]
    split
    · rename_i hr
      simp only [infoDeletedAt,ChunkInfo.deletedAt,hdel,hd,hmem,hr,true_and]
    · rename_i hr
      rw [if_neg (fun hin => hr (hmem.mp hin).1)]

/-- The slots of a call of `DeleteRows` that it newly marks. -/
def newlyDeleted (m : RowVersionManager) (v tid : Nat) (slots : List Nat) : List Nat :=
  freshRows (fun i => m.deletedAt (v * standardVectorSize + i) == tid)
    (fun i => m.deletedAt (v * standardVectorSize + i) == notDeletedId) slots

/-- Some slot of the call carries the delete mark of someone else. -/
def Conflict (m : RowVersionManager) (v tid : Nat) (slots : List Nat) : Prop :=
  ∃ i ∈ slots, m.deletedAt (v * standardVectorSize + i) ≠ tid ∧
    m.deletedAt (v * standardVectorSize + i) ≠ notDeletedId

instance (v tid : Nat) (slots : List Nat) : Decidable (m.Conflict v tid slots) :=
  inferInstanceAs (Decidable (∃ i ∈ slots, _ ∧ _))

theorem Coherent.deleteId_eq (hi : i < standardVectorSize)
    (hd : m.deletedAt (v * standardVectorSize + i) ≠ 0) (info : ChunkConstantInfo)
    (hv : m.vectorInfo v = some (.constant info)) : info.deleteId = notDeletedId := by
  have hok := h.info v
  unfold deletedAt at hd
  rw [vector_of_row v hi,hv] at hd
  rw [hv] at hok
  exact hok.2.resolve_right hd

/-- `DeleteRows` marks the rows it takes with the transaction's id, whether or not
it then throws because of a conflict. -/
theorem Coherent.delete (tid : Nat) {slots : List Nat} (hne : slots ≠ [])
    (hslots : ∀ i ∈ slots, v * standardVectorSize + i < n ∧ i < standardVectorSize ∧
      m.deletedAt (v * standardVectorSize + i) ≠ 0) :
    (m.deleteRows v tid slots).2 = (if m.Conflict v tid slots then
        .error (.transaction "Conflict on tuple deletion!") else .ok (m.newlyDeleted v tid slots)) ∧
      Coherent (m.deleteRows v tid slots).1 n ∧
      (∀ r, (m.deleteRows v tid slots).1.insertedAt r = m.insertedAt r) ∧
      ∀ r, (m.deleteRows v tid slots).1.deletedAt r =
        if r ∈ rowsOf v (m.newlyDeleted v tid slots) then tid else m.deletedAt r := by
  obtain ⟨i₀,hi₀⟩ := exists_mem_of_ne_nil slots hne
  obtain ⟨hlt₀,hsl₀,hd₀⟩ := hslots i₀ hi₀
  have hv : v * standardVectorSize < n := by omega
  have hc := h.deleteId_eq hsl₀ hd₀
  obtain ⟨-,-,hd⟩ := getVectorInfo_spec h hv hc
  have hat : ∀ i ∈ slots, m.deletedAt (v * standardVectorSize + i) =
      (m.getVectorInfo v).deleted i := by
    intro i hi
    unfold deletedAt
    rw [vector_of_row v (hslots i hi).2.1,slot_of_row v (hslots i hi).2.1,hd]
  have hfresh : ({ m.getVectorInfo v with anyDeleted := true } : ChunkVectorInfo).newlyDeleted
      tid slots =
      m.newlyDeleted v tid slots := by
    apply freshRows_congr
    · intro i hi
      rw [hat i hi]
    · intro i hi _
      rw [hat i hi]
  have hconf : ({ m.getVectorInfo v with anyDeleted := true } : ChunkVectorInfo).Conflict
      tid slots ↔
      m.Conflict v tid slots := by
    constructor
    · intro hx
      obtain ⟨i,hi,h1⟩ := hx
      exact ⟨i,hi,by rwa [hat i hi]⟩
    · intro hx
      obtain ⟨i,hi,h1⟩ := hx
      exact ⟨i,hi,by rwa [hat i hi] at h1⟩
  have hres : (m.getVectorInfo v).delete tid slots = _ := deleteLoop_eq
  rw [hfresh] at hres
  have hsub : ∀ i ∈ m.newlyDeleted v tid slots,
      v * standardVectorSize + i < n ∧ i < standardVectorSize := by
    intro i hi
    have hin := hslots i (freshRows_spec.2 i hi).1
    exact ⟨hin.1,hin.2.1⟩
  constructor
  · unfold deleteRows
    rw [hres]
    simp only [hconf]
  refine h.setDeleted hv hc ((m.getVectorInfo v).delete tid slots).1 hsub
    ?_ ?_ ?_ ?_ ?_ (fun j => rfl)
  · rw [hres]
  · rw [hres]
  · rw [hres]
  · exact .inl (by rw [hres])
  · intro i
    rw [hres]

theorem Coherent.commitDelete (id : Nat) {slots : List Nat} (hne : slots ≠ [])
    (hslots : ∀ i ∈ slots, v * standardVectorSize + i < n ∧ i < standardVectorSize ∧ m.deletedAt
      (v * standardVectorSize + i) ≠ 0 ∧ m.deletedAt (v * standardVectorSize + i) ≠ notDeletedId) :
    Coherent (m.commitDelete v id slots) n ∧
      (∀ r, (m.commitDelete v id slots).insertedAt r = m.insertedAt r) ∧
      ∀ r, (m.commitDelete v id slots).deletedAt r =
        if r ∈ rowsOf v slots then id else m.deletedAt r := by
  obtain ⟨i₀,hi₀⟩ := exists_mem_of_ne_nil slots hne
  obtain ⟨hlt₀,hsl₀,hd₀,hm₀⟩ := hslots i₀ hi₀
  have hv : v * standardVectorSize < n := by omega
  have hc := h.deleteId_eq hsl₀ hd₀
  obtain ⟨hok,-,hd⟩ := getVectorInfo_spec h hv hc
  have hany : (m.getVectorInfo v).anyDeleted = true := by
    by_contra hno
    apply hm₀
    unfold deletedAt
    rw [vector_of_row v hsl₀,slot_of_row v hsl₀,← hd]
    apply hok.2.1.undeleted (by simpa using hno)
    unfold scanCount
    omega
  exact h.setDeleted hv hc ((m.getVectorInfo v).commitDelete id slots)
    (fun i hi => ⟨(hslots i hi).1,(hslots i hi).2.1⟩) rfl rfl rfl (.inl hany) (fun _ => rfl)
    (fun _ => rfl)

end

end RowVersionManager

end PredTrans.Storage
