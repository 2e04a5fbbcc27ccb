import PredTrans.Transfer.Paths

namespace PredTrans.Transfer
open Plan PredicateTransferOptimizer List LogicalOperator

/-! Transferred filters do not change what a plan returns. The filters are turned
on one at a time, in the order of their rank: when a filter is turned on, the rows
it was built from are already final. -/

section Legal

/-- The built columns of `r` have the values of the applied columns of `y`; NULL
equals nothing. -/
def BloomFilter.Matches (f : BloomFilter) (r y : Row) : Prop :=
  f.columnBindingsBuilt.map r = f.columnBindingsApplied.map y ∧
    ∀ c ∈ f.columnBindingsBuilt, r c ≠ .null

instance (f : BloomFilter) (r y : Row) : Decidable (BloomFilter.Matches f r y) :=
  inferInstanceAs (Decidable (_ ∧ _))

/-- A `LogicalUseBF` keeps every row that matches a row its `LogicalCreateBF` saw. -/
def UseLegal (E : Execution) : LogicalOperator → LogicalOperator → Prop
  | .unary (.useBF f a) c, .unary (.createBF b _) d =>
    a = b → ∀ r ∈ d.run E, ∀ y ∈ c.run E, BloomFilter.Matches f r y → E.keep f.id y = true
  | _, _ => True

def Legal (E : Execution) (plan : LogicalOperator) : Prop :=
  ∀ x ∈ plan.subplans, ∀ z ∈ plan.subplans, UseLegal E x z

instance decidableUse {P : BloomFilter → CreateBFRef → LogicalOperator → CreateBFRef →
    LogicalOperator → Prop} [∀ f a c b d, Decidable (P f a c b d)] (x z : LogicalOperator) :
    Decidable (match x, z with
      | .unary (.useBF f a) c, .unary (.createBF b _) d => P f a c b d
      | _, _ => True) := by
  split <;> infer_instance

instance (E : Execution) (x z : LogicalOperator) : Decidable (UseLegal E x z) := by
  unfold UseLegal
  exact decidableUse x z

instance (E : Execution) (plan : LogicalOperator) : Decidable (Legal E plan) :=
  inferInstanceAs (Decidable (∀ x ∈ plan.subplans, ∀ z ∈ plan.subplans, UseLegal E x z))

variable {q : LogicalOperator} {f f' : BloomFilter} {a a' : CreateBFRef} {c c' : LogicalOperator}

theorem mem_usedFilters : i ∈ usedFilters q ↔
    ∃ f a c, f.id = i ∧ unary (.useBF f a) c ∈ q.subplans := by
  induction q with
  | leaf op => simp [usedFilters,subplans]
  | unary op d ih =>
    have hskip : (∀ f a, op ≠ .useBF f a) → usedFilters (.unary op d) = usedFilters d →
        (i ∈ usedFilters (.unary op d) ↔
          ∃ f a c, f.id = i ∧ unary (.useBF f a) c ∈
            (unary op d).subplans) := by
      intro hop he
      rw [he,ih]
      constructor
      · rintro ⟨f,a,c,hf,hm⟩
        exact ⟨f,a,c,hf,mem_cons_of_mem _ hm⟩
      · rintro ⟨f,a,c,hf,hm⟩
        refine ⟨f,a,c,hf,(mem_cons.mp hm).resolve_left ?_⟩
        intro he
        exact hop f a (unary.inj he).1.symm
    cases op with
    | useBF g b =>
      rw [usedFilters,mem_cons,ih]
      constructor
      · rintro (rfl | ⟨f,a,c,hf,hm⟩)
        · exact ⟨g,b,d,rfl,self_mem_subplans _⟩
        · exact ⟨f,a,c,hf,mem_cons_of_mem _ hm⟩
      rintro ⟨f,a,c,hf,hm⟩
      rcases mem_cons.mp hm with he | hm
      · obtain ⟨hop,-⟩ := unary.inj he
        obtain ⟨rfl,-⟩ := UnaryOp.useBF.inj hop
        exact .inl hf.symm
      · exact .inr ⟨f,a,c,hf,hm⟩
    | _ => exact hskip (by simp) rfl
  | binary op l r ihl ihr =>
    rw [usedFilters,mem_append,ihl,ihr]
    constructor
    · rintro (⟨f,a,c,hf,hm⟩ | ⟨f,a,c,hf,hm⟩)
      · exact ⟨f,a,c,hf,mem_cons_of_mem _ (mem_append_left _ hm)⟩
      · exact ⟨f,a,c,hf,mem_cons_of_mem _ (mem_append_right _ hm)⟩
    · rintro ⟨f,a,c,hf,hm⟩
      exact (mem_append.mp ((mem_cons.mp hm).resolve_left (by simp))).imp
        (fun hm => ⟨f,a,c,hf,hm⟩) (fun hm => ⟨f,a,c,hf,hm⟩)

/-- A filter that is applied once has one operator. -/
theorem use_unique (hnd : (usedFilters q).Nodup) (h : unary (.useBF f a) c ∈ q.subplans)
    (h' : unary (.useBF f' a') c' ∈ q.subplans) (hid : f.id = f'.id) :
    unary (.useBF f a) c = .unary (.useBF f' a') c' := by
  induction q with
  | leaf op => cases mem_singleton.mp h
  | unary op d ih =>
    have hmem : unary (.useBF f a) c ∈ d.subplans → f.id ∈ usedFilters d :=
      fun h => mem_usedFilters.mpr ⟨f,a,c,rfl,h⟩
    have hmem' : unary (.useBF f' a') c' ∈ d.subplans → f'.id ∈ usedFilters d :=
      fun h => mem_usedFilters.mpr ⟨f',a',c',rfl,h⟩
    rcases mem_cons.mp h with he | hd
    · rcases mem_cons.mp h' with he' | hd'
      · exact he.trans he'.symm
      · obtain ⟨rfl,rfl⟩ := unary.inj he
        exact absurd (hid ▸ hmem' hd') (nodup_cons.mp hnd).1
    · rcases mem_cons.mp h' with he' | hd'
      · obtain ⟨rfl,rfl⟩ := unary.inj he'
        exact absurd (hid ▸ hmem hd) (nodup_cons.mp hnd).1
      · refine ih ?_ hd hd'
        cases op with
        | useBF g b => exact (nodup_cons.mp hnd).2
        | _ => exact hnd
  | binary op l r ihl ihr =>
    have hnd := nodup_append.mp hnd
    rcases mem_append.mp ((mem_cons.mp h).resolve_left nofun) with h | h
    · rcases mem_append.mp ((mem_cons.mp h').resolve_left nofun) with h' | h'
      · exact ihl hnd.1 h h'
      · exact absurd hid (hnd.2.2 _ (mem_usedFilters.mpr ⟨f,a,c,rfl,h⟩) _
          (mem_usedFilters.mpr ⟨f',a',c',rfl,h'⟩))
    · rcases mem_append.mp ((mem_cons.mp h').resolve_left nofun) with h' | h'
      · exact absurd hid.symm (hnd.2.2 _ (mem_usedFilters.mpr ⟨f',a',c',rfl,h'⟩) _
          (mem_usedFilters.mpr ⟨f,a,c,rfl,h⟩))
      · exact ihr hnd.2.1 h h'

/-- A row some filter with this id has to keep, should it receive it. -/
def Forced (E : Execution) (plan : LogicalOperator) (i : Nat) (y : Row) : Prop :=
  ∃ f a c bfs d, f.id = i ∧ unary (.useBF f a) c ∈ plan.subplans ∧
    unary (.createBF a bfs) d ∈ plan.subplans ∧
    ∃ r ∈ d.run E, BloomFilter.Matches f r y

open Classical in
/-- What a legal filter does, extended to rows it never receives. -/
noncomputable def forcedKeep (E : Execution) (plan : LogicalOperator) (i : Nat) (y : Row) : Bool :=
  E.keep i y || decide (Forced E plan i y)

theorem forcedKeep_eq_true :
    forcedKeep E plan i y = true ↔ E.keep i y = true ∨ Forced E plan i y := by
  simp [forcedKeep]

/-- On the rows that reach a filter the extension changes nothing. -/
theorem run_forcedKeep (hlegal : Legal E plan) (hnd : (usedFilters plan).Nodup)
    (hq : q ∈ plan.subplans) : q.run (withKeep E (forcedKeep E plan)) = q.run E := by
  induction q with
  | leaf op => exact leafRows_withKeep E _ op
  | unary op d ih =>
    have ih := ih (child_mem hq)
    simp only [run,ih]
    cases op with
    | useBF f a =>
      simp only [UnaryOp.rows]
      apply filter_congr
      intro y hy
      change forcedKeep E plan f.id y = E.keep f.id y
      rw [Bool.eq_iff_iff]
      refine ⟨fun h => ?_,fun h => forcedKeep_eq_true.mpr (.inl h)⟩
      rcases forcedKeep_eq_true.mp h with h | ⟨f',a',c',bfs,e,hid,hu,hc,r,hr,hm⟩
      · exact h
      · obtain ⟨hop,rfl⟩ := unary.inj (use_unique hnd hu hq hid)
        obtain ⟨rfl,rfl⟩ := UnaryOp.useBF.inj hop
        exact hlegal _ hu _ hc rfl r hr y hy hm
    | createBF a bfs => rfl
    | _ => rw [unaryRows_withKeep E _ rfl]
  | binary op l r ihl ihr =>
    simp only [run,ihl (left_mem hq),
      ihr (right_mem hq),binaryRows_withKeep]

end Legal

section Joins

variable {p : LogicalOperator} {source target : Nat}

theorem IsJoin.unique (h : IsJoin j type cs l r) (h' : IsJoin j type' cs' l' r') :
    type = type' ∧ cs = cs' ∧ l = l' ∧ r = r' := by
  cases h <;> cases h' <;> exact ⟨rfl,rfl,rfl,rfl⟩

theorem Justification.source_mem_join (j : Justification p source target) (hwf : p.WellFormed) :
    source ∈ j.join.tableIndices :=
  tableIndices_subset
    (j.mem_join_subplans.mpr (.inr (.inl j.sourcePlan.self_mem_subplans))) (j.source_mem hwf)

theorem Justification.target_mem_join (j : Justification p source target) (hwf : p.WellFormed) :
    target ∈ j.join.tableIndices :=
  tableIndices_subset
    (j.mem_join_subplans.mpr (.inr (.inr j.targetPlan.self_mem_subplans))) (j.target_mem hwf)

section

variable (j j' : Justification p source target) (hwf : p.WellFormed)
include j j' hwf

theorem Justification.eq_of_mem (h : j'.join ∈ j.join.subplans) : j'.join = j.join := by
  rcases j.mem_join_subplans.mp h with h | h | h
  · exact h
  · have := tableIndices_subset h (j'.target_mem_join hwf)
    exact absurd (j.target_mem hwf) (j.plans_disjoint hwf this)
  · have := tableIndices_subset h (j'.source_mem_join hwf)
    exact absurd this (j.plans_disjoint hwf (j.source_mem hwf))

/-- All comparisons between two nodes stand in one join, in one direction. -/
theorem Justification.same_plans : j'.join = j.join ∧ j'.toRight = j.toRight := by
  have hjoin : j'.join = j.join := by
    rcases comparable_of_table hwf j.join_mem j'.join_mem (j.source_mem_join hwf)
      (j'.source_mem_join hwf) with h | h
    · exact (j'.eq_of_mem j hwf h).symm
    · exact j.eq_of_mem j' hwf h
  refine ⟨hjoin,?_⟩
  obtain ⟨-,-,hl,hr⟩ := j'.isJoin.unique (hjoin ▸ j.isJoin)
  have hs := j.source_mem hwf
  have hs' := j'.source_mem hwf
  have hdisj := fun t => j.isJoin.sides_disjoint (hwf.of_mem j.join_mem) (t := t)
  unfold sourcePlan at hs hs'
  cases h : j.toRight <;> cases h' : j'.toRight <;> simp only [h,h',if_true,if_false,
    Bool.false_eq_true,hl,hr] at hs hs' ⊢
  · exact (hdisj _ hs' hs).elim
  · exact (hdisj _ hs hs').elim

theorem Justification.sourcePlan_eq : j'.sourcePlan = j.sourcePlan := by
  obtain ⟨hjoin,hdir⟩ := j.same_plans j' hwf
  obtain ⟨-,-,hl,hr⟩ := j'.isJoin.unique (hjoin ▸ j.isJoin)
  simp only [sourcePlan,hdir,hl,hr]

theorem Justification.targetPlan_eq : j'.targetPlan = j.targetPlan := by
  obtain ⟨hjoin,hdir⟩ := j.same_plans j' hwf
  obtain ⟨-,-,hl,hr⟩ := j'.isJoin.unique (hjoin ▸ j.isJoin)
  simp only [targetPlan,hdir,hl,hr]

end

end Joins

section Step

variable {p q : LogicalOperator} {d₀ : DAGManager} {ts : List FilterTransfer}
  {s : PredicateTransferOptimizer} {t : FilterTransfer} {E : Execution}

theorem inserted_subplans_mono (s : PredicateTransferOptimizer) (hq : q ∈ p.subplans) :
    (s.insertCreateBFOperator q).subplans ⊆ (s.insertCreateBFOperator p).subplans := by
  have hbelow : ∀ {o x : LogicalOperator}, x ∈ (s.insertBelow o).subplans →
      x ∈ (s.insertCreateBFOperator o).subplans := by
    intro o x hx
    rw [insertCreateBFOperator_eq]
    exact mem_subplans_chain.mpr (.inl hx)
  refine subplans_induction hq (fun _ => id) ?_ ?_
  · exact fun h x hx => h (hbelow (mem_cons_of_mem _ hx))
  · refine fun h => ⟨fun x hx => h (hbelow (mem_cons_of_mem _ ?_)),
      fun x hx => h (hbelow (mem_cons_of_mem _ ?_))⟩
    · exact mem_append_left _ hx
    · exact mem_append_right _ hx

/-- The operator that builds a transferred filter sees every row of its source node. -/
theorem create_of_transfer (h : Transferred p d₀ ts s) (ht : t ∈ ts) :
    ∃ n bfs d, (t.source, n) ∈ nodesOf p ∧
      unary (.createBF ⟨t.reverse, t.source⟩ bfs) d ∈
        (s.insertCreateBFOperator p).subplans ∧
      ∀ E r, r ∈ (s.insertCreateBFOperator n).run E → r ∈ d.run E := by
  obtain ⟨n,hn,-,bfs,rest,hentry,-⟩ := h.state.created t ht
  have hmem : UnaryOp.createBF ⟨t.reverse,t.source⟩ bfs ∈ s.chainAt n := by
    rw [Transferred.mem_chainAt]
    refine ⟨t.reverse,?_⟩
    rw [hentry]
    exact mem_cons_self
  obtain ⟨pre,post,hsplit⟩ := append_of_mem hmem
  refine ⟨n,bfs,post.foldr .unary (s.insertBelow n),hn,?_,?_⟩
  · apply inserted_subplans_mono s (nodesOf_spec hn).1
    rw [insertCreateBFOperator_eq]
    exact mem_subplans_chain.mpr (.inr ⟨pre,_,post,hsplit,rfl⟩)
  intro E r hr
  rw [append_cons] at hsplit
  have hbf : ∀ op ∈ pre ++ [.createBF ⟨t.reverse,t.source⟩ bfs], op.isBF = true := by
    intro op hop
    apply h.chain_isBF op
    rw [hsplit]
    exact mem_append_left _ hop
  rw [insertCreateBFOperator_eq,hsplit,foldr_append,run_chain hbf] at hr
  exact (mem_filter.mp hr).1

/-- The test a filter built from `rows` makes on its applied columns. -/
def builtTest (rows : List Row) (f : BloomFilter) : ValueTest where
  accepts vs := rows.any (fun r => f.columnBindingsBuilt.map r = vs) && vs.all (· ≠ .null)
  strict vs h := by
    intro v hv
    have := all_eq_true.mp (Bool.and_eq_true_iff.mp h).2 v hv
    simpa using this

theorem matches_of_builtTest (h : (builtTest rows f).on f.columnBindingsApplied y = true) :
    ∃ r ∈ rows, BloomFilter.Matches f r y := by
  obtain ⟨hany,hnull⟩ := Bool.and_eq_true_iff.mp h
  obtain ⟨r,hr,he⟩ := any_eq_true.mp hany
  have he := of_decide_eq_true he
  refine ⟨r,hr,he,fun c hc => ?_⟩
  have hmem : r c ∈ f.columnBindingsApplied.map y := he ▸ mem_map_of_mem hc
  simpa using all_eq_true.mp hnull _ hmem

variable {js : List (Justification p t.source t.target)}

theorem builtTest_of_match (h : Transferred p d₀ ts s) (hjs : t.JustifiedBy js)
    (hcopy : ∀ j ∈ js, copyPath j.sourcePlan j.sourceColumn = true) (hn : (t.source, n) ∈ nodesOf p)
    (hrows : ∀ r ∈ (s.insertCreateBFOperator n).run E, r ∈ rows) (hj₀ : j₀ ∈ js)
    (hsrc : src ∈ (s.insertCreateBFOperator j₀.sourcePlan).run E)
    (hval : ∀ j ∈ js, src j.sourceColumn = tgt j.targetColumn ∧ src j.sourceColumn ≠ .null) :
    (builtTest rows t.filter).on (js.map Justification.targetColumn) tgt = true := by
  have hwf := h.wellFormed
  have htracked : Tracked copyPath t.source j₀.sourcePlan (js.map Justification.sourceColumn) := by
    intro c hc
    obtain ⟨j,hj,rfl⟩ := mem_map.mp hc
    rw [← j₀.sourcePlan_eq j hwf]
    refine ⟨j.sourceColumn_mem hwf,?_,hcopy j hj⟩
    rw [← j.source_origin hwf,j.source_table]
  have hmem := node_mem_of_visited hwf j₀.sourcePlan_visited hn (j₀.source_mem hwf)
  rcases rows_provenance h E (visited_spec j₀.sourcePlan_visited).1 hn hmem htracked hsrc with
    hnull | ⟨r₀,hr₀,hcopied⟩
  · exact absurd (hnull _ (mem_map_of_mem hj₀)) (hval j₀ hj₀).2
  · have hvalue : ∀ j ∈ js, tgt j.targetColumn =
        r₀ ((extractNodes {} p).findRename j.sourceColumn) := by
      intro j hj
      rw [← (hval j hj).1,j.source_origin hwf,j₀.sourcePlan_eq j hwf]
      exact (hcopied _ (mem_map_of_mem hj)).resolve_left (hval j hj).2
    refine Bool.and_eq_true_iff.mpr ⟨any_eq_true.mpr ⟨r₀,hrows r₀ hr₀,?_⟩,
      all_eq_true.mpr ?_⟩
    · rw [hjs.2.2,map_map,map_map]
      exact decide_eq_true (map_congr_left (fun j hj => (hvalue j hj).symm))
    · intro v hv
      obtain ⟨c,hc,rfl⟩ := mem_map.mp hv
      obtain ⟨j,hj,rfl⟩ := mem_map.mp hc
      rw [← (hval j hj).1]
      simpa using (hval j hj).2

end Step

section Site

/-- The marker column of a mark join. -/
def markIndex? : LogicalOperator → Option Nat
  | .binary (.comparisonJoin .mark m _) _ _ | .binary (.delimJoin .mark m _) _ _ => some m
  | _ => none

/-- The expression is TRUE only if the column is. -/
def requires (c : ColumnBinding) : Expression → Bool
  | .boundColumnRef b => b = c
  | .conjunctionAnd l r => requires c l || requires c r
  | _ => false

/-- The operator is a filter that only lets rows with a TRUE marker of the join pass, and nothing
between the two can tell which of the other rows there were. -/
def filtersMarker (j : LogicalOperator) (m : Nat) : LogicalOperator → Bool
  | .unary (.filter e es) child => j ∈ child.subplans && child.getColumnBindings.any fun c =>
      origin child c = ⟨m, 0⟩ && transparentPath child c && (e :: es).any (requires c)
  | _ => false

/-- The join stands below a filter on its marker. -/
def MarkerFiltered (p j : LogicalOperator) (m : Nat) : Prop :=
  ∃ q ∈ p.subplans, filtersMarker j m q = true

variable {p : LogicalOperator} {source target : Nat}

/-- What a comparison needs so that a filter made from it changes nothing. -/
structure Justification.Safe (j : Justification p source target) : Prop where
  copies : copyPath j.sourcePlan j.sourceColumn = true
  transparent : transparentPath j.targetPlan j.targetColumn = true
  marker : ∀ m, markIndex? j.join = some m → MarkerFiltered p j.join m

theorem Justification.match_values (j : Justification p source target)
    (h : conditionsTest I j.conditions l r = .boolean true) :
    (if j.toRight then l else r) j.sourceColumn = (if j.toRight then r else l) j.targetColumn ∧
      (if j.toRight then l else r) j.sourceColumn ≠ .null := by
  obtain ⟨heq,hne⟩ := compareValues_equal.mp (conditionsTest_eq_true.mp h _ j.mem)
  change l j.a = r j.b at heq
  change l j.a ≠ .null at hne
  unfold sourceColumn targetColumn
  cases j.toRight
  · rw [heq] at hne
    exact ⟨heq.symm,hne⟩
  · exact ⟨heq,hne⟩

variable {d₀ : DAGManager} {ts : List FilterTransfer} {s : PredicateTransferOptimizer}

theorem not_node_of_nodeId? (hq : nodeId? q = none) (id : Nat) : (id, q) ∉ nodesOf p := by
  intro hid
  have := (nodesOf_spec hid).2
  rw [hq] at this
  cases this

theorem IsJoin.run_inserted (hj : IsJoin j type cs l r) (h : Transferred p d₀ ts s) :
    ∃ m, (type = .mark → markIndex? j = some m) ∧
      ∀ E, (s.insertCreateBFOperator j).run E =
        joinRows type m l.getColumnBindings (conditionsTest E.toInterpretation cs)
          ((s.insertCreateBFOperator l).run E) ((s.insertCreateBFOperator r).run E) := by
  have hrun := fun E => h.run_inserted_of_not_node E (not_node_of_nodeId? hj.nodeId?_eq_none)
  cases hj with
  | comparison | delim =>
    rename_i m
    refine ⟨m,?_,fun E => ?_⟩
    · rintro rfl
      rfl
    · rw [hrun]
      simp only [insertBelow,run,BinaryOp.rows,h.inserted_getColumnBindings]

/-- The types that may lose unmatched rows on the side a filter is sent to. -/
theorem Justification.reduces (j : Justification p source target) (hmark : j.type ≠ .mark) :
    (if j.toRight then j.type.reducesRight else j.type.reducesLeft) = true := by
  have hallowed := j.allowed
  have hrec : JoinType.recordable j.type = true := by
    rcases extractNodes_filterOperators j.recorded with h | ⟨-,type,cs,l,r,hj,hrec⟩
    · cases h
    · rw [(j.isJoin.unique hj).1]
      exact hrec
  generalize j.type = type at *
  cases hd : j.toRight <;> rw [hd] at hallowed <;> cases type <;>
    first | rfl | exact absurd rfl hallowed | exact absurd rfl hmark | cases hrec

theorem value_and_eq_true {v w : Value} (h : v.and w = .boolean true) :
    v = .boolean true ∧ w = .boolean true := by
  unfold Value.and at h
  split at h <;> simp_all

theorem requires_true (h : requires c e = true) (he : e.eval I r = .boolean true) :
    r c = .boolean true := by
  induction e with
  | boundColumnRef b => exact of_decide_eq_true h ▸ he
  | conjunctionAnd l₁ l₂ ih₁ ih₂ =>
    obtain ⟨h₁,h₂⟩ := value_and_eq_true he
    rcases Bool.or_eq_true_iff.mp h with h | h
    · exact ih₁ h h₁
    · exact ih₂ h h₂
  | _ => cases h

/-- The test for TRUE. -/
def trueTest : ValueTest where
  accepts vs := vs.all (· = .boolean true)
  strict vs h := by
    intro v hv
    have := all_eq_true.mp h v hv
    simp_all

theorem trueTest_on : trueTest.on [c] r = true ↔ r c = .boolean true := by
  simp [trueTest,ValueTest.on]

theorem markIndex?_own (hm : markIndex? j = some m) :
    ∃ op l r, j = .binary op l r ∧ m ∈ op.tableIndices := by
  unfold markIndex? at hm
  split at hm
  · cases hm
    exact ⟨_,_,_,rfl,by simp [BinaryOp.tableIndices]⟩
  · cases hm
    exact ⟨_,_,_,rfl,by simp [BinaryOp.tableIndices]⟩
  · cases hm

/-- The marker stems from its join. -/
theorem origin_marker (hwf : j.WellFormed) (hm : markIndex? j = some m)
    (hc : origin j c = ⟨m, 0⟩) : c = ⟨m, 0⟩ := by
  obtain ⟨op,l,r,rfl,hop⟩ := markIndex?_own hm
  unfold origin at hc
  split at hc
  · rename_i hs
    have := origin_table_mem hwf.left (sourceSide_left hs)
    rw [hc] at this
    exact absurd this (hwf.own_not_mem_left hop)
  · rename_i hs
    have := origin_table_mem hwf.right (sourceSide_right hs).2
    rw [hc] at this
    exact absurd this (hwf.own_not_mem_right hop)
  · exact hc

variable {t : FilterTransfer} {js : List (Justification p t.source t.target)} {E : Execution}
  {keep : Nat → Row → Bool} {rows : List Row}

theorem eq_of_reduces {f : List Row → List Row} (hf : ∀ A, f (A.filter accept) = f A)
    (hA : A'.filter accept = A.filter accept) : f A' = f A := by
  rw [← hf,hA,hf]

/-- Two lists that agree on the rows a test accepts join alike, if every match is
accepted. -/
theorem joinRows_agree {test : Row → Row → Value} {B A A' : List Row} {toRight : Bool}
    (hreduce : (if toRight then type.reducesRight else type.reducesLeft) = true)
    (hA : A'.filter accept = A.filter accept)
    (hmatch : ∀ l r, hits test l r = true → (if toRight then l else r) ∈ B →
      accept (if toRight then r else l) = true) :
    joinRows type m left test (if toRight then B else A') (if toRight then A' else B) =
      joinRows type m left test (if toRight then B else A) (if toRight then A else B) := by
  cases toRight with
  | true =>
    exact eq_of_reduces (joinRows_reduce_right hreduce fun l hl r hit => hmatch l r hit hl) hA
  | false =>
    exact eq_of_reduces (f := fun A => joinRows type m left test A B)
      (joinRows_reduce_left hreduce fun r hr l hit => hmatch l r hit hr) hA

theorem markRows_agree {accept pass : Row → Bool} {toRight : Bool}
    (hpass : ∀ o, pass o = true → o ⟨m, 0⟩ = .boolean true)
    (hA : A'.filter accept = A.filter accept)
    (hmatch : ∀ l r, hits test l r = true → (if toRight then l else r) ∈ B →
      accept (if toRight then r else l) = true) :
    (joinRows .mark m left test (if toRight then B else A') (if toRight then A'
      else B)).filter pass =
      (joinRows .mark m left test (if toRight then B else A) (if toRight then A else B)).filter
        pass := by
  cases toRight with
  | true =>
    exact eq_of_reduces (f := fun A => (joinRows .mark m left test B A).filter pass)
      (markRows_reduce_right hpass fun l hl r hit => hmatch l r hit hl) hA
  | false =>
    exact eq_of_reduces (f := fun A => (joinRows .mark m left test A B).filter pass)
      (markRows_reduce_left hpass fun r hr l hit => hmatch l r hit hr) hA

theorem Justification.inputs_eq (j : Justification p source target) (f : LogicalOperator → α) :
    f j.left = (if j.toRight then f j.sourcePlan else f j.targetPlan) ∧
      f j.right = if j.toRight then f j.targetPlan else f j.sourcePlan := by
  unfold sourcePlan targetPlan
  cases j.toRight <;> exact ⟨rfl,rfl⟩

/-- At the join that justifies a filter, or at the filter over its marker, the
rows the filter drops are not missed. -/
theorem site_agree (h : Transferred p d₀ ts s) (ht : t ∈ ts) (hjs : t.JustifiedBy js)
    (hsafe : ∀ j ∈ js, j.Safe) {src n : LogicalOperator} (hsrc : (t.source, src) ∈ nodesOf p)
    (hn : (t.target, n) ∈ nodesOf p)
    (hrows : ∀ r ∈ (s.insertCreateBFOperator src).run E, r ∈ rows)
    (hkeep : ∀ i, i ≠ t.filter.id → keep i = E.keep i)
    (htest : ∀ y, (builtTest rows t.filter).on t.filter.columnBindingsApplied y = true →
      keep t.filter.id y = E.keep t.filter.id y) :
    ∃ site ∈ p.subplans, n ∈ site.subplans ∧
      (s.insertCreateBFOperator site).run (withKeep E keep) =
        (s.insertCreateBFOperator site).run E := by
  have hwf := h.wellFormed
  obtain ⟨j,hj⟩ := exists_mem_of_ne_nil js hjs.1
  have hmem := node_mem_of_visited hwf j.targetPlan_visited hn (j.target_mem hwf)
  have hbelow : n ∈ j.join.subplans := j.mem_join_subplans.mpr (.inr (.inr hmem))
  have htracked : Tracked transparentPath t.target j.targetPlan
      (js.map Justification.targetColumn) := by
    intro c hc
    obtain ⟨j',hj',rfl⟩ := mem_map.mp hc
    rw [← j.targetPlan_eq j' hwf]
    refine ⟨j'.targetColumn_mem hwf,?_,(hsafe j' hj').transparent⟩
    rw [← j'.target_origin hwf,j'.target_table]
  have horigin : (js.map Justification.targetColumn).map (origin j.targetPlan) =
      t.filter.columnBindingsApplied := by
    rw [hjs.2.1,map_map]
    refine map_congr_left (fun j' hj' => ?_)
    rw [j'.target_origin hwf,j.targetPlan_eq j' hwf]
    rfl
  have hA := rows_agree_on_test h ht hn hkeep (visited_spec j.targetPlan_visited).1 hmem
    (by simpa using hjs.1) htracked (horigin ▸ htest)
  have hB : (s.insertCreateBFOperator j.sourcePlan).run (withKeep E keep) =
      (s.insertCreateBFOperator j.sourcePlan).run E := by
    apply run_withKeep
    intro i hi
    apply hkeep
    rintro rfl
    refine not_mem_usedFilters h ht hn (visited_spec j.sourcePlan_visited).1 ?_ hi
    intro hns
    exact j.plans_disjoint hwf (tableIndices_subset hns
      (nodeId?_mem (nodesOf_spec hn).2)) (j.target_mem hwf)
  have hmatch : ∀ l r, hits (conditionsTest E.toInterpretation j.conditions) l r = true →
      (if j.toRight then l else r) ∈ (s.insertCreateBFOperator j.sourcePlan).run E →
      (builtTest rows t.filter).on (js.map Justification.targetColumn)
        (if j.toRight then r else l) = true := by
    intro l r hit hin
    refine builtTest_of_match h hjs (fun j' hj' => (hsafe j' hj').copies) hsrc hrows hj hin ?_
    intro j' hj'
    obtain ⟨hjoin,hdir⟩ := j.same_plans j' hwf
    have hconds := (j'.isJoin.unique (hjoin ▸ j.isJoin)).2.1
    rw [← hdir]
    exact j'.match_values (hconds ▸ of_decide_eq_true hit)
  obtain ⟨m,hm,hrun⟩ := j.isJoin.run_inserted h
  have hleft := fun E => (j.inputs_eq (fun q => (s.insertCreateBFOperator q).run E)).1
  have hright := fun E => (j.inputs_eq (fun q => (s.insertCreateBFOperator q).run E)).2
  by_cases hmark : j.type = .mark
  · obtain ⟨site,hsub,hfilters⟩ := (hsafe j hj).marker m (hm hmark)
    unfold filtersMarker at hfilters
    split at hfilters
    case h_2 => cases hfilters
    rename_i e es child
    simp only [Bool.and_eq_true,decide_eq_true_eq,any_eq_true] at hfilters
    obtain ⟨hjc,c,hc,⟨horig,hpath⟩,e',he',hreq⟩ := hfilters
    obtain ⟨op,l,r,hbin,hown⟩ := markIndex?_own (hm hmark)
    have hmj : m ∈ j.join.tableIndices := by
      rw [hbin]
      exact mem_append_left _ hown
    have hid : nodeId? j.join = some m → (m, j.join) ∈ nodesOf p := by
      rw [j.isJoin.nodeId?_eq_none]
      exact nofun
    -- at the join, and so below the filter, the rows with a TRUE marker agree
    have hjoin : ∀ cs, Tracked transparentPath m j.join cs → cs.map (origin j.join) = [⟨m,0⟩] →
        ((s.insertCreateBFOperator j.join).run (withKeep E keep)).filter (trueTest.on cs) =
          ((s.insertCreateBFOperator j.join).run E).filter (trueTest.on cs) := by
      intro cs _ hcs
      obtain ⟨c,rfl,hc⟩ := map_eq_singleton_iff.mp hcs
      rw [origin_marker (hwf.of_mem j.join_mem) (hm hmark) hc]
      simp only [hrun,hleft,hright,hmark,hB]
      exact markRows_agree (fun o ho => trueTest_on.mp ho) hA hmatch
    have htracked : Tracked transparentPath m child [c] := by
      intro b hb
      obtain rfl := mem_singleton.mp hb
      exact ⟨hc,by rw [horig],hpath⟩
    have hchild := rows_agree_above h ht hn hkeep (P := fun cs => cs = [⟨m,0⟩]) hbelow hid hmj hjoin
      (child_mem hsub) hjc (cons_ne_nil c []) htracked (by rw [map_singleton,horig])
    have hnode : ∀ id, (id, unary (.filter e es) child) ∉ nodesOf p := by
      refine not_node_of_path hwf hsub hid hmj (mem_cons_of_mem _ hjc) ?_ hc
        (congrArg ColumnBinding.tableIndex horig)
      rw [hbin]
      simp
    refine ⟨_,hsub,mem_cons_of_mem _ (subplans_trans hbelow hjc),?_⟩
    rw [h.run_inserted_of_not_node _ hnode,h.run_inserted_of_not_node _ hnode]
    simp only [insertBelow,run,UnaryOp.rows]
    refine eq_of_reduces (f := fun A => A.filter _) (fun A => ?_) hchild
    rw [filter_filter]
    refine filter_congr (fun o _ => ?_)
    rw [Bool.and_eq_left_iff_imp]
    intro ho
    exact trueTest_on.mpr (requires_true hreq (of_decide_eq_true (all_eq_true.mp ho _ he')))
  · refine ⟨j.join,j.join_mem,hbelow,?_⟩
    rw [hrun,hrun,hleft,hleft,hright,hright,hB]
    exact joinRows_agree (j.reduces hmark) hA hmatch

end Site

section Run

variable {p q : LogicalOperator} {d₀ : DAGManager} {ts : List FilterTransfer}
  {s : PredicateTransferOptimizer} {t : FilterTransfer} {E : Execution}
  {keep : Nat → Row → Bool}

theorem letsThrough_withKeep (h : ∀ i ∈ chainFilters chain, keep i = E.keep i) (y : Row) :
    chain.all (letsThrough (withKeep E keep) y) = chain.all (letsThrough E y) := by
  induction chain with
  | nil => rfl
  | cons op chain ih =>
    have ih := ih (fun i hi => h i (mem_append_right _ hi))
    rw [all_cons,all_cons,ih]
    congr 1
    cases op with
    | useBF f a => exact congrFun (h f.id mem_cons_self) y
    | _ => rfl

theorem run_agree_above (h : Transferred p d₀ ts s) (ht : t ∈ ts)
    (hkeep : ∀ i, i ≠ t.filter.id → keep i = E.keep i) (hn : (t.target, n) ∈ nodesOf p)
    (hmem : n ∈ site.subplans) (hsite : site ∈ q.subplans) (hq : q ∈ p.subplans)
    (hrun : (s.insertCreateBFOperator site).run (withKeep E keep) = (s.insertCreateBFOperator
      site).run E) :
    (s.insertCreateBFOperator q).run (withKeep E keep) = (s.insertCreateBFOperator q).run E := by
  have hxn := nodeId?_mem (nodesOf_spec hn).2
  have hchain : ∀ o, n ≠ o → ∀ rows : List Row,
      rows.filter (fun r => (s.chainAt o).all (letsThrough (withKeep E keep) r)) =
        rows.filter (fun r => (s.chainAt o).all (letsThrough E r)) := by
    intro o hne rows
    apply filter_congr
    intro y _
    apply letsThrough_withKeep
    intro i hi
    apply hkeep
    rintro rfl
    exact not_mem_chainFilters h ht hn hne hi
  have hother : ∀ o ∈ p.subplans, t.target ∉ o.tableIndices →
      (s.insertCreateBFOperator o).run (withKeep E keep) = (s.insertCreateBFOperator o).run E := by
    intro o ho hno
    apply run_withKeep
    intro i hi
    apply hkeep
    rintro rfl
    refine not_mem_usedFilters h ht hn ho ?_ hi
    intro hnm
    exact hno (tableIndices_subset hnm hxn)
  induction q with
  | leaf op => exact mem_singleton.mp hsite ▸ hrun
  | unary op c ih =>
    rcases mem_cons.mp hsite with rfl | hc
    · exact hrun
    have hne : n ≠ .unary op c := by
      rintro rfl
      have := subplans_antisymm (subplans_trans hmem hc)
        (child_mem (self_mem_subplans _))
      cases this
    have hop := (h.wellFormed.of_mem hq).noBF.1
    rw [h.run_inserted,h.run_inserted,hchain _ hne]
    simp only [insertBelow,run,ih hc (child_mem hq),
      unaryRows_withKeep E keep hop]
  | binary op l r ihl ihr =>
    have hwf := h.wellFormed.of_mem hq
    have hself := self_mem_subplans (.binary op l r)
    rcases mem_cons.mp hsite with rfl | hc
    · exact hrun
    rcases mem_append.mp hc with hc | hc
    · have hnl := subplans_trans hmem hc
      have hne : n ≠ .binary op l r := by
        rintro rfl
        have := subplans_antisymm hnl (left_mem hself)
        cases this
      have hr := hwf.sides_disjoint (tableIndices_subset hnl hxn)
      rw [h.run_inserted,h.run_inserted,hchain _ hne]
      simp only [insertBelow,run,ihl hc (left_mem hq),
        hother r (right_mem hq) hr,binaryRows_withKeep]
    · have hnr := subplans_trans hmem hc
      have hne : n ≠ .binary op l r := by
        rintro rfl
        have := subplans_antisymm hnr (right_mem hself)
        cases this
      have hl : t.target ∉ l.tableIndices := fun hl =>
        hwf.sides_disjoint hl (tableIndices_subset hnr hxn)
      rw [h.run_inserted,h.run_inserted,hchain _ hne]
      simp only [insertBelow,run,ihr hc (right_mem hq),
        hother l (left_mem hq) hl,binaryRows_withKeep]

end Run

section Preservation

variable {p : LogicalOperator} {d₀ : DAGManager} {ts : List FilterTransfer}
  {s : PredicateTransferOptimizer} {E : Execution}

/-- The filters of the transfers in `l` are on, all others keep everything. -/
def keepOn (keep : Nat → Row → Bool) (l : List FilterTransfer) (i : Nat) (y : Row) : Bool :=
  if i ∈ l.map (fun t => t.filter.id) then keep i y else true

/-- The filters that a plan applies. -/
def appliedFilters (plan : LogicalOperator) : List BloomFilter :=
  plan.subplans.filterMap fun
    | .unary (.useBF f _) _ => some f
    | _ => none

def FilterTransfer.address (t : FilterTransfer) : CreateBFRef := ⟨t.reverse, t.source⟩

variable (h : Transferred p d₀ ts s)
include h

/-- A use operator of the final plan belongs to a transfer. -/
theorem transfer_of_use (hu : unary (.useBF f a) c ∈ (s.insertCreateBFOperator p).subplans) :
    ∃ t ∈ ts, t.filter = f ∧ t.address = a := by
  obtain ⟨q,-,pre,post,hsplit,-⟩ := mem_inserted_bf h.wellFormed.noBF rfl hu
  have hmem : UnaryOp.useBF f a ∈ s.chainAt q := by simp [hsplit]
  obtain ⟨id,reverse,hq,hm⟩ := h.exists_pass hmem
  obtain ⟨t,ht,htu,-⟩ := h.use_mem hq hm
  obtain ⟨hf,ha⟩ := UnaryOp.useBF.inj htu
  exact ⟨t,ht,hf,ha⟩

theorem transfer_of_used (hq : q.subplans ⊆ (s.insertCreateBFOperator p).subplans)
    (hi : i ∈ usedFilters q) :
    ∃ t ∈ ts, t.filter.id = i ∧
      ∃ c, unary (.useBF t.filter t.address) c ∈ q.subplans := by
  obtain ⟨f,a,c,rfl,hu⟩ := mem_usedFilters.mp hi
  obtain ⟨t,ht,rfl,rfl⟩ := transfer_of_use h (hq hu)
  exact ⟨t,ht,rfl,c,hu⟩

variable {keep : Nat → Row → Bool} {order pre post : List FilterTransfer} {t : FilterTransfer}

variable (hsafe : ∀ t ∈ ts, t.filter ∈ appliedFilters (s.insertCreateBFOperator p) →
    ∀ js : List (Justification p t.source t.target), t.JustifiedBy js → ∀ j ∈ js, j.Safe)
  (hlegal : Legal E (s.insertCreateBFOperator p)) (hperm : (pre ++ t :: post).Perm ts)
  (hsorted : (pre ++ t :: post).Pairwise
    (fun a b => rank p d₀.execOrder a.address ≤ rank p d₀.execOrder b.address))

include hperm hsorted in
/-- Below the operator that builds a filter, the filters before it are all there are. -/
theorem run_built (hd : unary (.createBF t.address bfs) d ∈ (s.insertCreateBFOperator p).subplans) :
    d.run (withKeep E (keepOn keep pre)) = d.run (withKeep E keep) := by
  have hsub : d.subplans ⊆ (s.insertCreateBFOperator p).subplans := fun x hx =>
    subplans_trans hx (child_mem hd)
  refine run_withKeep (E := withKeep E keep) (fun i hi => ?_)
  obtain ⟨t',ht',rfl,c,hu⟩ := transfer_of_used h hsub hi
  have hlt : rank p d₀.execOrder t'.address < rank p d₀.execOrder t.address :=
    rank_lt_of_below h hd hu
  have hpre : t' ∈ pre := by
    rcases mem_append.mp (hperm.mem_iff.mpr ht') with hm | hm
    · exact hm
    · rcases mem_cons.mp hm with rfl | hm
      · exact absurd hlt (lt_irrefl _)
      · have := (pairwise_cons.mp (pairwise_append.mp hsorted).2.1).1 t' hm
        omega
  funext y
  exact if_pos (mem_map_of_mem hpre)

include hsafe hlegal hperm hsorted in
/-- Turning on the next filter changes nothing. -/
theorem run_turn_on :
    (s.insertCreateBFOperator p).run
        (withKeep E (keepOn (forcedKeep E (s.insertCreateBFOperator p)) (pre ++ [t]))) =
      (s.insertCreateBFOperator p).run
        (withKeep E (keepOn (forcedKeep E (s.insertCreateBFOperator p)) pre)) := by
  have ht : t ∈ ts := hperm.mem_iff.mp (by simp)
  have hfresh : t.filter.id ∉ pre.map (fun t => t.filter.id) := by
    have hnd : ((pre ++ t :: post).map (fun t => t.filter.id)).Nodup :=
      (hperm.map _).nodup_iff.mpr h.state.ids
    rw [map_append,map_cons] at hnd
    intro hm
    exact (nodup_append.mp hnd).2.2 _ hm _ mem_cons_self rfl
  generalize hK : forcedKeep E (s.insertCreateBFOperator p) = K
  have hkeep : ∀ i, i ≠ t.filter.id → keepOn K (pre ++ [t]) i = keepOn K pre i := by
    intro i hi
    funext y
    simp [keepOn,hi]
  by_cases hused : t.filter.id ∈ usedFilters (s.insertCreateBFOperator p)
  · obtain ⟨t',ht',hid,c,hu⟩ := transfer_of_used h (fun _ => id) hused
    obtain rfl := transfer_eq_of_id h ht' ht hid
    obtain ⟨src,bfs,d,hsrc,hd,hrows⟩ := create_of_transfer h ht
    obtain ⟨js,hjs,-⟩ := h.state.justified t' ht
    obtain ⟨j,hj⟩ := exists_mem_of_ne_nil js hjs.1
    obtain ⟨⟨_,n⟩,hn,rfl⟩ := mem_map.mp j.targetNode
    have hnd := usedFilters_nodup h h.wellFormed
    have htest : ∀ y, (builtTest (d.run (withKeep E (keepOn K pre))) t'.filter).on
        t'.filter.columnBindingsApplied y = true →
        keepOn K (pre ++ [t']) t'.filter.id y =
          (withKeep E (keepOn K pre)).keep t'.filter.id y := by
      intro y hy
      obtain ⟨r,hr,hm⟩ := matches_of_builtTest hy
      rw [run_built h hperm hsorted hd,← hK,
        run_forcedKeep hlegal hnd (child_mem hd)] at hr
      have hforced : K t'.filter.id y = true := by
        rw [← hK]
        exact forcedKeep_eq_true.mpr (.inr ⟨_,_,c,bfs,d,rfl,hu,hd,r,hr,hm⟩)
      have hon : keepOn K (pre ++ [t']) t'.filter.id y = K t'.filter.id y := if_pos (by simp)
      have hoff : keepOn K pre t'.filter.id y = true := if_neg hfresh
      rw [hon,hforced]
      exact hoff.symm
    have happlied : t'.filter ∈ appliedFilters (s.insertCreateBFOperator p) :=
      mem_filterMap.mpr ⟨_,hu,rfl⟩
    obtain ⟨site,hsite,hmem,hrun⟩ := site_agree h ht hjs (hsafe t' ht happlied js hjs) hsrc hn
      (hrows _) hkeep htest
    exact run_agree_above h ht hkeep hn hmem hsite p.self_mem_subplans hrun
  · refine run_withKeep (E := withKeep E (keepOn K pre)) (fun i hi => hkeep i ?_)
    rintro rfl
    exact hused hi

include hsafe hlegal in
/-- Whatever legal filters drop, the rewritten plan returns the rows of the plan. -/
theorem run_preserved : (s.insertCreateBFOperator p).run E = p.run E := by
  generalize hK : forcedKeep E (s.insertCreateBFOperator p) = K
  let le := fun a b : FilterTransfer =>
    rank p d₀.execOrder a.address ≤ rank p d₀.execOrder b.address
  have hperm := perm_insertionSort le ts
  have hsorted : (ts.insertionSort le).Pairwise le := by
    have : IsTrans FilterTransfer le := ⟨fun _ _ _ => le_trans⟩
    have : Std.Total le := ⟨fun _ _ => le_total _ _⟩
    exact pairwise_insertionSort le ts
  have hprefix : ∀ pre post, ts.insertionSort le = pre ++ post →
      (s.insertCreateBFOperator p).run (withKeep E (keepOn K pre)) = p.run E := by
    intro pre
    induction pre using List.reverseRecOn with
    | nil => exact fun _ _ => h.run_inserted_keepAll E h.wellFormed.noBF
    | append_singleton pre t ih =>
      intro post he
      rw [append_assoc] at he
      rw [← ih _ he,← hK]
      exact run_turn_on h hsafe hlegal (he ▸ hperm) (he ▸ hsorted)
  rw [← hprefix _ [] (append_nil _).symm,
    ← run_forcedKeep hlegal (usedFilters_nodup h h.wellFormed) (self_mem_subplans _),
    hK]
  refine (run_withKeep (E := withKeep E K) (fun i hi => ?_)).symm
  obtain ⟨t,ht,rfl,-⟩ := transfer_of_used h (fun _ => id) hi
  funext y
  exact if_pos (mem_map_of_mem (hperm.mem_iff.mpr ht))

end Preservation

end PredTrans.Transfer
