import PredTrans.Storage.RowGroups

/-! At commit, `LocalStorage::Flush` moves row groups into the table one by one and then raises the
row count; the commit ids are written later. A concurrent scan reads the row count when it starts,
and the version information of each vector when it gets there. -/

namespace PredTrans.Storage

open RowVersionManager RowGroup List

/-- A flush that merges, and the commit of what it merged. -/
structure BulkCommit where
  /-- Row groups that the table had before. -/
  before : List RowGroup
  /-- Merged row groups that `CommitAppend` has visited. -/
  stamped : List RowGroup := []
  /-- Merged row groups that it has not. -/
  merged : List RowGroup := []
  /-- Row groups that are still to be moved. -/
  waiting : List RowGroup
  /-- Where the next row group goes. -/
  index : Nat
  totalRows : Nat
  /-- Rows of the local storage. -/
  incoming : Nat
  raised : Bool := false

/-- The rows of a row group that a scan up to `maxRow` considers. -/
def maxRowGroupRow (maxRow : Nat) (g : RowGroup) : Nat :=
  if maxRow < g.start then 0 else min g.count (maxRow - g.start)

namespace BulkCommit

/-- `MergeStorage` is entered for a table with `firstRow` rows. -/
def start (before : List RowGroup) (firstRow : Nat) (data : RowGroupCollection) : BulkCommit where
  before := before
  waiting := data.segments
  index := firstRow
  totalRows := firstRow
  incoming := data.totalRows

variable {c firstRow : Nat}

inductive Step (c : Nat) (s : BulkCommit) : BulkCommit → Prop
  | move {g rest} : s.waiting = g :: rest →
      Step c s { s with
        merged := s.merged ++ [g.moveToCollection s.index]
        waiting := rest
        index := s.index + g.count }
  | raise : s.waiting = [] → s.raised = false →
      Step c s { s with totalRows := s.totalRows + s.incoming, raised := true }
  | stamp {g g' rest} : s.raised = true → s.merged = g :: rest →
      g.commitAppend c 0 g.count = .ok g' →
      Step c s { s with stamped := s.stamped ++ [g'], merged := rest }
  -- whatever other transactions do to the older rows
  | others {before} : Step c s { s with before := before }

abbrev Run (c : Nat) : BulkCommit → BulkCommit → Prop := Relation.ReflTransGen (Step c)

/-- A scan by `T` that starts in `s` returns row `i` of a merged row group if it
reads the version information in `s'`. -/
def Returns (s s' : BulkCommit) (T : TransactionData) (g : RowGroup) (i : Nat) : Prop :=
  g ∈ s'.stamped ++ s'.merged ∧ i < maxRowGroupRow s.totalRows g ∧
    g.versionInfo.Scans (maxRowGroupRow s.totalRows g) T i

structure Inv (c firstRow : Nat) (s : BulkCommit) : Prop where
  stamped : ∀ g ∈ s.stamped, g.InsertedBy c
  merged : ∀ g ∈ s.merged, g.InsertedBy 0
  waiting : ∀ g ∈ s.waiting, g.InsertedBy 0
  placed : ∀ g ∈ s.stamped ++ s.merged, firstRow ≤ g.start ∧ g.start + g.count ≤ s.index
  first : firstRow ≤ s.index
  index : s.index + rowCount s.waiting = firstRow + s.incoming
  before : s.raised = false → s.totalRows = firstRow
  after : s.raised = true → s.totalRows = firstRow + s.incoming ∧ s.waiting = []

variable {s s' : BulkCommit}

theorem inv_start {before : List RowGroup} {data : RowGroupCollection} (h : data.InsertedBy 0) :
    Inv c firstRow (start before firstRow data) where
  stamped := by simp [start]
  merged := by simp [start]
  waiting := h.segments
  placed := by simp [start]
  first := le_rfl
  index := congrArg (firstRow + ·) h.total.symm
  before _ := rfl
  after h := by simp [start] at h

theorem inv_step (h : Inv c firstRow s) (hs : Step c s s') : Inv c firstRow s' := by
  cases hs with
  | @move g rest hw =>
    have hg := h.waiting g (by simp [hw])
    have hindex := h.index
    rw [hw,rowCount_cons] at hindex
    have hfirst := h.first
    refine ⟨h.stamped,?merged,?waiting,?placed,?first,?index,h.before,?after⟩
    case merged =>
      intro x hx
      rcases mem_append.mp hx with hx | hx
      · exact h.merged x hx
      · rw [mem_singleton.mp hx]
        exact hg.move s.index
    case waiting =>
      exact fun x hx => h.waiting x (by rw [hw]; exact mem_cons_of_mem _ hx)
    case placed =>
      intro x hx
      rw [← append_assoc] at hx
      rcases mem_append.mp hx with hx | hx
      · have := h.placed x hx
        dsimp only
        omega
      · rw [mem_singleton.mp hx]
        exact ⟨hfirst,le_rfl⟩
    case first =>
      dsimp only
      omega
    case index =>
      dsimp only
      omega
    case after =>
      intro hr
      have := (h.after hr).2
      rw [hw] at this
      cases this
  | raise hw hr =>
    refine { h with before := by simp, after := ?_ }
    intro _
    exact ⟨by dsimp only; rw [h.before hr],hw⟩
  | @stamp g g' rest hr hm hok =>
    have hg := h.merged g (by simp [hm])
    obtain ⟨g'',hok',hg'',hcount,hstart⟩ := hg.commit c
    rw [hok] at hok'
    cases hok'
    refine ⟨?_,?_,h.waiting,?_,h.first,h.index,h.before,h.after⟩
    · intro x hx
      rcases mem_append.mp hx with hx | hx
      · exact h.stamped x hx
      · rw [mem_singleton.mp hx]
        exact hg''
    · exact fun x hx => h.merged x (by rw [hm]; exact mem_cons_of_mem _ hx)
    · intro x hx
      have hplaced := h.placed g (by simp [hm])
      simp only [append_assoc,singleton_append,mem_append,mem_cons] at hx
      rcases hx with hx | hx | hx
      · exact h.placed x (mem_append_left _ hx)
      · rw [hx,hcount,hstart]
        exact hplaced
      · exact h.placed x (mem_append_right _ (by rw [hm]; exact mem_cons_of_mem _ hx))
  | others => exact { h with }

theorem inv_run (h : Inv c firstRow s) (hs : Run c s s') : Inv c firstRow s' := by
  induction hs with
  | refl => exact h
  | tail _ hstep ih => exact inv_step ih hstep

/-- Before the row count is raised, a scan stops in front of the merged rows. -/
theorem Inv.maxRow_before (h : Inv c firstRow s') (hr : s.totalRows = firstRow)
    (hg : g ∈ s'.stamped ++ s'.merged) : maxRowGroupRow s.totalRows g = 0 := by
  have := (h.placed g hg).1
  unfold maxRowGroupRow
  split <;> omega

/-- Once it is raised, a scan covers all of them. -/
theorem Inv.maxRow_after (h : Inv c firstRow s') (hr : s'.raised = true)
    (hg : g ∈ s'.stamped ++ s'.merged) : maxRowGroupRow s'.totalRows g = g.count := by
  have hplaced := (h.placed g hg).2
  obtain ⟨htotal,hwait⟩ := h.after hr
  have hindex := h.index
  unfold maxRowGroupRow
  split <;> omega

theorem fetch_insertedBy {g : RowGroup} {id : Nat} (h : g.InsertedBy id) (hT : T.Valid)
    (hi : i < g.count) :
    g.versionInfo.Scans g.count T i ↔ id < T.startTime ∨ id = T.transactionId := by
  rw [h.coherent.scans_iff hT hi,fetch_eq hT,h.inserted i hi,h.undeleted i,hT.undeleted]
  simp

/-- The row count is raised and no row is left without its commit id. -/
def Settled (s : BulkCommit) : Prop :=
  s.raised = true ∧ ∀ g ∈ s.merged, g.count = 0

theorem settled_step (h : Inv c firstRow s) (hd : s.Settled) (hs : Step c s s') :
    s'.Settled ∧ s'.totalRows = s.totalRows := by
  obtain ⟨hr,hm⟩ := hd
  cases hs with
  | move hw =>
    rw [(h.after hr).2] at hw
    cases hw
  | raise _ hno =>
    rw [hr] at hno
    cases hno
  | stamp _ hmerged _ =>
    exact ⟨⟨hr,fun x hx => hm x (by rw [hmerged]; exact mem_cons_of_mem _ hx)⟩,rfl⟩
  | others => exact ⟨⟨hr,hm⟩,rfl⟩

theorem settled_run (h : Inv c firstRow s) (hd : s.Settled) (hs : Run c s s') :
    s'.Settled ∧ s'.totalRows = s.totalRows := by
  induction hs with
  | refl => exact ⟨hd,rfl⟩
  | tail hrun hstep ih =>
    obtain ⟨h1,h2⟩ := settled_step (inv_run h hrun) ih.1 hstep
    exact ⟨h1,h2.trans ih.2⟩

/-- A scan that other transactions start at some moment of the merge and the commit
is sure to return none of the merged rows exactly if the row count is not raised yet,
or all merged rows have their commit id already. -/
theorem merged_rows_hidden_iff {ops : List LocalOperation} {data : RowGroupCollection}
    (hdata : localStorage ops = .ok data) (hc : 1 < c) (hcs : c < transactionIdStart)
    {before : List RowGroup} (hs : Run c (start before firstRow data) s) :
    (∀ T : TransactionData, T.Valid → T.startTime < c → ∀ s', Run c s s' →
      ∀ g i, ¬ Returns s s' T g i) ↔
      s.raised = false ∨ ∀ g ∈ s.merged, g.count = 0 := by
  obtain ⟨data',hok,hins,-⟩ := localStorage_spec ops
  rw [hdata] at hok
  cases hok
  have hinv : Inv c firstRow s := inv_run (inv_start hins) hs
  constructor
  · -- otherwise a scan that reads at once returns the first row of an unstamped row group
    intro hnone
    by_contra hno
    simp only [not_or,Bool.not_eq_false,not_forall] at hno
    obtain ⟨hr,g,hg,hcount⟩ := hno
    have hvalid : (⟨transactionIdStart,1⟩ : TransactionData).Valid :=
      ⟨by decide,by decide,by decide,by decide⟩
    have hmem : g ∈ s.stamped ++ s.merged := mem_append_right _ hg
    have hmax := hinv.maxRow_after hr hmem
    refine hnone ⟨transactionIdStart,1⟩ hvalid hc s .refl g 0 ⟨hmem,?_,?_⟩
    · rw [hmax]
      exact Nat.pos_of_ne_zero hcount
    · rw [hmax,fetch_insertedBy (hinv.merged g hg) hvalid (Nat.pos_of_ne_zero hcount)]
      exact .inl Nat.zero_lt_one
  · intro hcase T hT hstart s' hrun g i hret
    obtain ⟨hmem,hi,hscan⟩ := hret
    have hinv' := inv_run hinv hrun
    by_cases hr : s.raised = false
    · rw [hinv'.maxRow_before (hinv.before hr) hmem] at hi
      exact Nat.not_lt_zero _ hi
    have hsettled : s.Settled := ⟨by simpa using hr,hcase.resolve_left hr⟩
    obtain ⟨⟨hr',hempty⟩,htotal⟩ := settled_run hinv hsettled hrun
    rw [← htotal,hinv'.maxRow_after hr' hmem] at hi hscan
    rcases mem_append.mp hmem with hg | hg
    · rw [fetch_insertedBy (hinv'.stamped g hg) hT hi] at hscan
      have := hT.id_ge
      omega
    · rw [hempty g hg] at hi
      exact Nat.not_lt_zero _ hi

theorem run_merge (c firstRow : Nat) (before : List RowGroup) (data : RowGroupCollection) :
    ∃ s, Run c (start before firstRow data) s ∧ s.raised = true ∧ s.stamped = [] ∧
      rowCount s.merged = rowCount data.segments := by
  have hmoves : ∀ (gs : List RowGroup) (s : BulkCommit), s.waiting = gs → s.raised = false →
      ∃ s', Run c s s' ∧ s'.waiting = [] ∧ s'.raised = false ∧ s'.stamped = s.stamped ∧
        rowCount s'.merged = rowCount s.merged + rowCount gs := by
    intro gs
    induction gs with
    | nil => exact fun s hw hr => ⟨s,.refl,hw,hr,rfl,rfl⟩
    | cons g gs ih =>
      intro s hw hr
      obtain ⟨s',hrun,h1,h2,h3,h4⟩ := ih { s with
        merged := s.merged ++ [g.moveToCollection s.index]
        waiting := gs
        index := s.index + g.count } rfl hr
      refine ⟨s',.head (.move hw) hrun,h1,h2,h3,?_⟩
      rw [h4,rowCount_append,rowCount_cons,rowCount_cons]
      simp only [rowCount,map_nil,sum_nil,moveToCollection]
      omega
  obtain ⟨s,hrun,hw,hr,hst,hcount⟩ := hmoves data.segments (start before firstRow data) rfl rfl
  refine ⟨_,hrun.tail (.raise hw hr),rfl,hst,?_⟩
  simpa [start,rowCount] using hcount

theorem hidden_iff_rowGroup : ∃ data s, localStorage [.localMerge rowGroupSize] = .ok data ∧
    Run 3 (start [] 0 data) s ∧
    ((∀ T : TransactionData, T.Valid → T.startTime < 3 → ∀ s', Run 3 s s' →
      ∀ g i, ¬ Returns s s' T g i) ↔
      s.raised = false ∨ ∀ g ∈ s.merged, g.count = 0) := by
  obtain ⟨data,hok,-⟩ := localStorage_spec [.localMerge rowGroupSize]
  obtain ⟨s,hrun,-⟩ := run_merge 3 0 [] data
  exact ⟨data,s,hok,hrun,merged_rows_hidden_iff hok (by decide) (by decide) hrun⟩

/-- A worker has filled one row group; it is merged into an empty table, and the row
count is raised. Before the commit id is written, a transaction with an older
snapshot scans the table and gets a merged row. -/
theorem scan_returns_uncommitted_row : ∃ data s g,
    localStorage [.localMerge rowGroupSize] = .ok data ∧ Run 3 (start [] 0 data) s ∧
      s.stamped = [] ∧
      (⟨transactionIdStart, 2⟩ : TransactionData).Valid ∧ g ∈ s.merged ∧
      Returns s s ⟨transactionIdStart, 2⟩ g 0 := by
  obtain ⟨data,hok,hins,htotal⟩ := localStorage_spec [.localMerge rowGroupSize]
  obtain ⟨s,hrun,hraised,hstamped,hcount⟩ := run_merge 3 0 [] data
  have hinv : Inv 3 0 s := inv_run (inv_start hins) hrun
  have hrows : rowCount s.merged = rowGroupSize := by
    rw [hcount,← hins.total,htotal]
    rfl
  obtain ⟨g,hg,hne⟩ : ∃ g ∈ s.merged, g.count ≠ 0 := by
    by_contra hno
    have hzero : rowCount s.merged = 0 := by
      unfold rowCount
      rw [List.sum_eq_zero_iff_forall_eq_nat]
      intro k hk
      obtain ⟨g,hg,he⟩ := mem_map.mp hk
      by_contra hk0
      exact hno ⟨g,hg,fun h0 => hk0 (he.symm.trans h0)⟩
    rw [hzero] at hrows
    exact absurd hrows (by decide)
  have hvalid : (⟨transactionIdStart,2⟩ : TransactionData).Valid :=
    ⟨by decide,by decide,by decide,by decide⟩
  have hmem : g ∈ s.stamped ++ s.merged := mem_append_right _ hg
  have hmax := hinv.maxRow_after hraised hmem
  have hpos := Nat.pos_of_ne_zero hne
  refine ⟨data,s,g,hok,hrun,hstamped,hvalid,hg,hmem,by rw [hmax]; exact hpos,?_⟩
  rw [hmax,fetch_insertedBy (hinv.merged g hg) hvalid hpos]
  exact .inl (show 0 < 2 by decide)

end BulkCommit

end PredTrans.Storage
