import PredTrans.Storage.RowVersions

/-! A bulk insert fills row groups of its own. `FinalizeAppend` gives their rows the insert id of
`TransactionData(0, 0)`, and `MergeStorage` moves whole row groups between collections. -/

namespace PredTrans.Storage

open Library RowVersionManager List

structure RowGroup where
  start : Nat
  count : Nat
  versionInfo : RowVersionManager

def ChunkInfo.setStart (start : Nat) : ChunkInfo → ChunkInfo
  | .constant info => .constant { info with start := start }
  | .vector info => .vector { info with start := start }

def RowVersionManager.setStart (m : RowVersionManager) (newStart : Nat) : RowVersionManager :=
  { m with
    start := newStart
    vectorInfo := fun v => (m.vectorInfo v).map
      (ChunkInfo.setStart (newStart + v * standardVectorSize)) }

namespace RowGroup

/-- A row group without rows. -/
def new (start : Nat) : RowGroup where
  start := start
  count := 0
  versionInfo := { start := start }

def appendVersionInfo (transaction : TransactionData) (g : RowGroup) (count : Nat) :
    Except StorageError RowGroup :=
  let rowGroupEnd := min (g.count + count) rowGroupSize
  (g.versionInfo.appendVersionInfo transaction g.count rowGroupEnd).map
    (fun m => { g with versionInfo := m, count := rowGroupEnd })

def commitAppend (g : RowGroup) (commitId rowGroupStart count : Nat) :
    Except StorageError RowGroup :=
  (g.versionInfo.commitAppend commitId rowGroupStart count).map
    (fun m => { g with versionInfo := m })

def moveToCollection (g : RowGroup) (newStart : Nat) : RowGroup :=
  { g with start := newStart, versionInfo := g.versionInfo.setStart newStart }

end RowGroup

structure RowGroupCollection where
  rowStart : Nat := 0
  segments : List RowGroup := []
  totalRows : Nat := 0

/-- The loop of `FinalizeAppend`, from the first row group of the append. -/
def finalizeAppend (transaction : TransactionData) : List RowGroup → Nat →
    Except StorageError (List RowGroup)
  | gs, 0 => .ok gs
  | [], _ + 1 => .error (.internal "dereference of a missing row group")
  | g :: gs, remaining + 1 => do
    let appendCount := min (remaining + 1) (rowGroupSize - g.count)
    let g' ← g.appendVersionInfo transaction appendCount
    let gs' ← finalizeAppend transaction gs (remaining + 1 - appendCount)
    return g' :: gs'

/-- Rows that still fit into row groups. -/
def freeRows (gs : List RowGroup) : Nat :=
  (gs.map (fun g => rowGroupSize - g.count)).sum

def rowCount (gs : List RowGroup) : Nat :=
  (gs.map RowGroup.count).sum

namespace RowGroupCollection

/-- The last row group is filled up, and as many are added as the rows need. -/
def append (transaction : TransactionData) (c : RowGroupCollection) (count : Nat) :
    Except StorageError RowGroupCollection := do
  let segments := if c.segments = [] then [RowGroup.new c.rowStart] else c.segments
  let kept := segments.take (segments.length - 1)
  let last := segments.drop (segments.length - 1)
  let next := c.rowStart + rowCount kept + rowGroupSize
  let added := (List.range ((count - freeRows last + (rowGroupSize - 1)) / rowGroupSize)).map
    (fun i => RowGroup.new (next + i * rowGroupSize))
  let filled ← finalizeAppend transaction (last ++ added) count
  return { c with segments := kept ++ filled, totalRows := c.totalRows + count }

/-- The row groups of the other collection behind the own ones. -/
def moveSegments (index : Nat) : List RowGroup → List RowGroup
  | [] => []
  | g :: gs => g.moveToCollection index :: moveSegments (index + g.count) gs

def mergeStorage (c data : RowGroupCollection) : RowGroupCollection :=
  { c with
    segments := c.segments ++ moveSegments (c.rowStart + c.totalRows) data.segments
    totalRows := c.totalRows + data.totalRows }

end RowGroupCollection

/-- What a transaction does to its local storage of a table: it appends rows, or a
worker of a parallel insert hands over the collection it has filled. -/
inductive LocalOperation where
  | localAppend (count : Nat)
  | localMerge (count : Nat)
  deriving DecidableEq, Repr

def LocalOperation.rows : LocalOperation → Nat
  | localAppend count => count
  | localMerge count => count

def LocalOperation.apply (c : RowGroupCollection) :
    LocalOperation → Except StorageError RowGroupCollection
  | localAppend count => c.append ⟨0, 0⟩ count
  | localMerge count => do
    let collection ← ({} : RowGroupCollection).append ⟨0, 0⟩ count
    return c.mergeStorage collection

/-- The local storage of a table after some operations. -/
def localStorage (ops : List LocalOperation) : Except StorageError RowGroupCollection :=
  ops.foldlM LocalOperation.apply {}

/-- Version information in which `id` inserted every row, and nobody deleted one. -/
structure RowGroup.InsertedBy (id : Nat) (g : RowGroup) : Prop where
  coherent : Coherent g.versionInfo g.count
  inserted : ∀ r < g.count, g.versionInfo.insertedAt r = id
  undeleted : ∀ r, g.versionInfo.deletedAt r = notDeletedId
  present : ∀ v, v * standardVectorSize < g.count → g.versionInfo.vectorInfo v ≠ none

namespace RowGroup

variable {g g' : RowGroup} {id : Nat}

theorem insertedBy_new (id start : Nat) : (new start).InsertedBy id where
  coherent := coherent_new (Nat.zero_le _)
  inserted _ h := absurd h (Nat.not_lt_zero _)
  undeleted _ := rfl
  present _ h := absurd h (Nat.not_lt_zero _)

theorem InsertedBy.fits (h : g.InsertedBy id) : g.count ≤ rowGroupSize := h.coherent.fits

theorem insertedAt_setStart (m : RowVersionManager) (start r : Nat) :
    (m.setStart start).insertedAt r = m.insertedAt r := by
  unfold insertedAt setStart
  dsimp only
  cases m.vectorInfo (r / standardVectorSize) with
  | none => rfl
  | some info => cases info <;> rfl

theorem deletedAt_setStart (m : RowVersionManager) (start r : Nat) :
    (m.setStart start).deletedAt r = m.deletedAt r := by
  unfold deletedAt setStart
  dsimp only
  cases m.vectorInfo (r / standardVectorSize) with
  | none => rfl
  | some info => cases info <;> rfl

theorem InsertedBy.move (h : g.InsertedBy id) (start : Nat) :
    (g.moveToCollection start).InsertedBy id := by
  refine ⟨⟨h.fits,?_⟩,?_,?_,?_⟩
  · intro v
    have hok := h.coherent.info v
    simp only [moveToCollection,setStart]
    cases hv : g.versionInfo.vectorInfo v with
    | none => trivial
    | some info =>
      rw [hv] at hok
      cases info with
      | constant info => exact hok
      | vector info => exact ⟨hok.1,⟨hok.2.1.same,hok.2.1.undeleted⟩,hok.2.2⟩
  · intro r hr
    exact (insertedAt_setStart _ _ _).trans (h.inserted r hr)
  · intro r
    exact (deletedAt_setStart _ _ _).trans (h.undeleted r)
  · intro v hv
    simpa [moveToCollection,setStart] using h.present v hv

theorem InsertedBy.append (h : g.InsertedBy T.transactionId) {k : Nat} (hk : 0 < k)
    (hfit : g.count + k ≤ rowGroupSize) :
    ∃ g', g.appendVersionInfo T k = .ok g' ∧ g'.InsertedBy T.transactionId ∧
        g'.count = g.count + k := by
  obtain ⟨m',hok,hc,hins,hdel⟩ := h.coherent.append T (by omega : g.count < g.count + k) hfit
  have hmin : min (g.count + k) rowGroupSize = g.count + k := min_eq_left hfit
  refine ⟨{ g with versionInfo := m', count := g.count + k },?_,⟨hc,?_,?_,?_⟩,rfl⟩
  · unfold RowGroup.appendVersionInfo
    dsimp only
    rw [hmin,hok]
    rfl
  · intro r hr
    rw [hins r hr]
    split
    · rfl
    · exact h.inserted r (by omega)
  · intro r
    exact (hdel r).trans (h.undeleted r)
  intro v hv
  by_cases hcov : v ∈ coveredVectors g.count (g.count + k)
  · exact appendVersionInfo_present hok v hcov
  -- a vector below the new rows had its info before
  have hold : v * standardVectorSize < g.count := by
    rw [mem_coveredVectors (by omega)] at hcov
    rw [Nat.succ_mul] at hcov
    have hpos := standardVectorSize_pos
    have hv : v * standardVectorSize < g.count + k := hv
    omega
  exact foldlM_keep (fun m : RowVersionManager => m.vectorInfo v ≠ none)
    (f := appendVector T.transactionId g.count (g.count + k))
    (fun _ _ _ hs h' => (appendVector_present h').2 v hs)
    (s := { g.versionInfo with hasChanges := true }) (h.present v hold) hok

theorem InsertedBy.append_none (h : g.InsertedBy id) (hfull : g.count = rowGroupSize) :
    ∃ g', g.appendVersionInfo T 0 = .ok g' ∧ g'.InsertedBy id ∧ g'.count = g.count := by
  have hcov : coveredVectors rowGroupSize rowGroupSize = [] := by decide
  refine ⟨{ g with versionInfo := { g.versionInfo with hasChanges := true } },?_,
    ⟨⟨h.coherent.fits,h.coherent.info⟩,h.inserted,h.undeleted,h.present⟩,rfl⟩
  unfold RowGroup.appendVersionInfo RowVersionManager.appendVersionInfo
  simp [hfull,hcov,Except.map,pure,Except.pure]

theorem InsertedBy.commit (h : g.InsertedBy id) (c : Nat) :
    ∃ g', g.commitAppend c 0 g.count = .ok g' ∧ g'.InsertedBy c ∧ g'.count = g.count ∧
      g'.start = g.start := by
  by_cases hz : g.count = 0
  · refine ⟨g,?_,{ h with inserted := fun r hr => absurd hr (by omega) },rfl,rfl⟩
    unfold RowGroup.commitAppend RowVersionManager.commitAppend
    rw [if_pos hz]
    rfl
  have hlast : LastAppend g.versionInfo g.count 0 id :=
    ⟨by omega,fun r _ hr => h.inserted r hr,fun r hr => absurd hr (Nat.not_lt_zero r)⟩
  have hpresent : ∀ v ∈ coveredVectors 0 g.count, g.versionInfo.vectorInfo v ≠ none := by
    intro v hv
    exact h.present v ((mem_coveredVectors (by omega)).mp hv).1
  obtain ⟨m',hok,hc,hins,hdel⟩ := h.coherent.commit_of_present hlast hpresent c
  rw [Nat.sub_zero] at hok
  refine ⟨{ g with versionInfo := m' },by simp [RowGroup.commitAppend,hok,Except.map],
    ⟨hc,?_,?_,?_⟩,rfl,rfl⟩
  · intro r hr
    rw [hins r hr,if_pos (Nat.zero_le r)]
  · intro r
    exact (hdel r).trans (h.undeleted r)
  · intro v hv
    unfold RowVersionManager.commitAppend at hok
    rw [if_neg hz] at hok
    refine foldlM_keep (fun m : RowVersionManager => m.vectorInfo v ≠ none) ?_ (h.present v hv) hok
    intro s w s' hs hstep
    unfold commitVector at hstep
    split at hstep
    · cases hstep
    · cases hstep
      by_cases hw : v = w <;> simp [RowVersionManager.set,hw,hs]

end RowGroup

open RowGroup

theorem freeRows_cons (g : RowGroup) (gs : List RowGroup) :
    freeRows (g :: gs) = (rowGroupSize - g.count) + freeRows gs := by
  simp [freeRows]

theorem freeRows_append (gs gs' : List RowGroup) :
    freeRows (gs ++ gs') = freeRows gs + freeRows gs' := by
  simp [freeRows]

theorem rowCount_cons (g : RowGroup) (gs : List RowGroup) :
    rowCount (g :: gs) = g.count + rowCount gs := by
  simp [rowCount]

theorem rowCount_append (gs gs' : List RowGroup) :
    rowCount (gs ++ gs') = rowCount gs + rowCount gs' := by
  simp [rowCount]

theorem finalizeAppend_spec (h : ∀ g ∈ gs, g.InsertedBy T.transactionId) (hfree : n ≤ freeRows gs) :
    ∃ gs', finalizeAppend T gs n = .ok gs' ∧ (∀ g ∈ gs', g.InsertedBy T.transactionId) ∧
      rowCount gs' = rowCount gs + n := by
  induction gs generalizing n with
  | nil =>
    have hn : n = 0 := by simpa [freeRows] using hfree
    subst hn
    exact ⟨[],rfl,by simp,rfl⟩
  | cons g gs ih =>
    cases n with
    | zero => exact ⟨g :: gs,rfl,h,rfl⟩
    | succ n =>
      rw [freeRows_cons] at hfree
      have hg := h g (by simp)
      have hfits := hg.fits
      obtain ⟨g',hok,hg',hcount⟩ : ∃ g', g.appendVersionInfo T
        (min (n + 1) (rowGroupSize - g.count)) =
          .ok g' ∧ g'.InsertedBy T.transactionId ∧
          g'.count = g.count + min (n + 1) (rowGroupSize - g.count) := by
        by_cases hfull : g.count = rowGroupSize
        · obtain ⟨g',h1,h2,h3⟩ := hg.append_none (T := T) hfull
          have hzero : min (n + 1) (rowGroupSize - g.count) = 0 := by omega
          exact ⟨g',by rw [hzero]; exact h1,h2,by omega⟩
        · exact hg.append (by omega) (by omega)
      obtain ⟨gs',hoks,hgs',hcounts⟩ := ih (fun g hg => h g (by simp [hg]))
        (n := n + 1 - min (n + 1) (rowGroupSize - g.count)) (by omega)
      refine ⟨g' :: gs',?_,?_,?_⟩
      · simp only [finalizeAppend,hok,hoks,bind,Except.bind,pure,Except.pure]
      · intro x hx
        rcases mem_cons.mp hx with he | hx
        · rw [he]
          exact hg'
        · exact hgs' x hx
      · rw [rowCount_cons,rowCount_cons,hcount,hcounts]
        omega

/-- The row groups of a collection belong to `id`, and `total_rows` counts their rows. -/
structure RowGroupCollection.InsertedBy (id : Nat) (c : RowGroupCollection) : Prop where
  segments : ∀ g ∈ c.segments, g.InsertedBy id
  total : c.totalRows = rowCount c.segments

namespace RowGroupCollection

variable {c data : RowGroupCollection} {id : Nat}

theorem rowGroupSize_pos : 0 < rowGroupSize := by decide

theorem InsertedBy.append (h : c.InsertedBy T.transactionId) (count : Nat) :
    ∃ c', c.append T count = .ok c' ∧ c'.InsertedBy T.transactionId ∧
      c'.totalRows = c.totalRows + count := by
  unfold RowGroupCollection.append
  generalize hsegs : (if c.segments = [] then [RowGroup.new c.rowStart] else c.segments) = segments
  have hall : ∀ g ∈ segments, g.InsertedBy T.transactionId := by
    rw [← hsegs]
    split
    · intro g hg
      rw [mem_singleton.mp hg]
      exact insertedBy_new _ _
    · exact h.segments
  have hrows : rowCount segments = rowCount c.segments := by
    rw [← hsegs]
    split
    · rename_i hnil
      simp [hnil,rowCount,RowGroup.new]
    · rfl
  dsimp only
  generalize hkept : segments.take (segments.length - 1) = kept
  generalize hlast : segments.drop (segments.length - 1) = last
  have hsplit : kept ++ last = segments := by rw [← hkept,← hlast,take_append_drop]
  generalize hadded : (List.range ((count - freeRows last + (rowGroupSize - 1)) / rowGroupSize)).map
    (fun i => RowGroup.new (c.rowStart + rowCount kept + rowGroupSize + i * rowGroupSize)) = added
  have hnew : ∀ g ∈ added, g.InsertedBy T.transactionId ∧ g.count = 0 := by
    rw [← hadded]
    intro g hg
    obtain ⟨i,-,he⟩ := mem_map.mp hg
    rw [← he]
    exact ⟨insertedBy_new _ _,rfl⟩
  -- the added row groups hold whatever the last one cannot
  have hfree : count ≤ freeRows (last ++ added) := by
    have hadd : freeRows added = (count - freeRows last + (rowGroupSize - 1)) / rowGroupSize *
        rowGroupSize := by
      rw [← hadded]
      simp [freeRows,RowGroup.new,Function.comp_def]
    rw [freeRows_append,hadd]
    have hpos := rowGroupSize_pos
    have hdiv := Nat.div_add_mod (count - freeRows last + (rowGroupSize - 1)) rowGroupSize
    have hmod := Nat.mod_lt (count - freeRows last + (rowGroupSize - 1)) hpos
    rw [mul_comm] at hdiv
    omega
  have hzero : rowCount added = 0 := by
    unfold rowCount
    rw [List.sum_eq_zero_iff_forall_eq_nat]
    intro k hk
    obtain ⟨g,hg,he⟩ := mem_map.mp hk
    exact he.symm.trans (hnew g hg).2
  have hopen : ∀ g ∈ last ++ added, g.InsertedBy T.transactionId := by
    intro g hg
    rcases mem_append.mp hg with hg | hg
    · exact hall g (by rw [← hsplit]; exact mem_append_right _ hg)
    · exact (hnew g hg).1
  obtain ⟨filled,hok,hfilled,hcount⟩ := finalizeAppend_spec hopen hfree
  refine ⟨{ c with segments := kept ++ filled, totalRows := c.totalRows + count },?_,⟨?_,?_⟩,rfl⟩
  · simp only [hok,bind,Except.bind,pure,Except.pure]
  · intro g hg
    rcases mem_append.mp hg with hg | hg
    · exact hall g (by rw [← hsplit]; exact mem_append_left _ hg)
    · exact hfilled g hg
  · have hs : rowCount segments = rowCount kept + rowCount last := by rw [← hsplit,rowCount_append]
    have htotal := h.total
    simp only [rowCount_append] at hcount ⊢
    omega

theorem moveSegments_spec (h : ∀ g ∈ gs, g.InsertedBy id) (index : Nat) :
    (∀ g ∈ moveSegments index gs, g.InsertedBy id) ∧
        rowCount (moveSegments index gs) = rowCount gs := by
  induction gs generalizing index with
  | nil => exact ⟨by simp [moveSegments],rfl⟩
  | cons g gs ih =>
    obtain ⟨h1,h2⟩ := ih (fun g hg => h g (by simp [hg])) (index + g.count)
    constructor
    · intro x hx
      rcases mem_cons.mp hx with he | hx
      · rw [he]
        exact (h g (by simp)).move index
      · exact h1 x hx
    · rw [moveSegments,rowCount_cons,rowCount_cons,h2]
      rfl

theorem InsertedBy.merge (h : c.InsertedBy id) (hd : data.InsertedBy id) :
    (c.mergeStorage data).InsertedBy id := by
  obtain ⟨h1,h2⟩ := moveSegments_spec hd.segments (c.rowStart + c.totalRows)
  constructor
  · intro g hg
    rcases mem_append.mp hg with hg | hg
    · exact h.segments g hg
    · exact h1 g hg
  · have hc := h.total
    have hdata := hd.total
    simp only [mergeStorage,rowCount_append,h2]
    omega

end RowGroupCollection

/-- Whatever a transaction does to its local storage, all its rows there have insert
id 0. -/
theorem localStorage_spec (ops : List LocalOperation) :
    ∃ c, localStorage ops = .ok c ∧ c.InsertedBy 0 ∧
        c.totalRows = (ops.map LocalOperation.rows).sum := by
  have hempty : ({} : RowGroupCollection).InsertedBy 0 := ⟨by simp,rfl⟩
  have hrun : ∀ (ops : List LocalOperation) (c : RowGroupCollection), c.InsertedBy 0 →
      ∃ c', ops.foldlM LocalOperation.apply c = .ok c' ∧ c'.InsertedBy 0 ∧
        c'.totalRows = c.totalRows + (ops.map LocalOperation.rows).sum := by
    intro ops
    induction ops with
    | nil => exact fun c hc => ⟨c,rfl,hc,rfl⟩
    | cons op ops ih =>
      intro c hc
      obtain ⟨c₁,hok,hc₁,ht₁⟩ : ∃ c₁, op.apply c = .ok c₁ ∧ c₁.InsertedBy 0 ∧
          c₁.totalRows = c.totalRows + op.rows := by
        cases op with
        | localAppend count => exact RowGroupCollection.InsertedBy.append (T := ⟨0,0⟩) hc count
        | localMerge count =>
          obtain ⟨d,h1,h2,h3⟩ := RowGroupCollection.InsertedBy.append (T := ⟨0,0⟩) hempty count
          refine ⟨c.mergeStorage d,?_,hc.merge h2,?_⟩
          · simp only [LocalOperation.apply,h1,bind,Except.bind,pure,Except.pure]
          · simp only [RowGroupCollection.mergeStorage,h3,LocalOperation.rows]
            omega
      obtain ⟨c₂,hok₂,hc₂,ht₂⟩ := ih c₁ hc₁
      refine ⟨c₂,?_,hc₂,?_⟩
      · rw [foldlM_cons,hok]
        exact hok₂
      · rw [ht₂,ht₁,map_cons,sum_cons,add_assoc]
  obtain ⟨c,hok,hc,ht⟩ := hrun ops {} hempty
  exact ⟨c,hok,hc,by simpa using ht⟩

end PredTrans.Storage
