import PredTrans.Transfer.Inserted

namespace PredTrans.Transfer
open Plan PredicateTransferOptimizer List LogicalOperator

/-! The transfer schedule: every filter exists before it is used, is used once,
and no operator of the final plan waits for itself. -/

/-- What an operator of a plan waits for: its inputs, and for a `LogicalUseBF`
the operator that builds its filter. -/
inductive DependsOn (plan : LogicalOperator) : LogicalOperator → LogicalOperator → Prop where
  | child {op c} : .unary op c ∈ plan.subplans → DependsOn plan (.unary op c) c
  | left {op l r} : .binary op l r ∈ plan.subplans → DependsOn plan (.binary op l r) l
  | right {op l r} : .binary op l r ∈ plan.subplans → DependsOn plan (.binary op l r) r
  | related {f a c bfs d} : .unary (.useBF f a) c ∈ plan.subplans →
      .unary (.createBF a bfs) d ∈ plan.subplans →
      DependsOn plan (.unary (.useBF f a) c) (.unary (.createBF a bfs) d)

/-- The filters a plan applies, once per operator. -/
def usedFilters : LogicalOperator → List Nat
  | .leaf _ => []
  | .unary (.useBF f _) c => f.id :: usedFilters c
  | .unary _ c => usedFilters c
  | .binary _ l r => usedFilters l ++ usedFilters r

/-- The filter `f` applied at node `q` was put on one of its incoming edges by the
create operator `a`, which an earlier step of the same pass built. -/
def BuiltEarlier (p : LogicalOperator) (order : List LogicalOperator)
    (s : PredicateTransferOptimizer) (q : LogicalOperator) (f : BloomFilter)
        (a : CreateBFRef) : Prop :=
  ∃ id n e src bfs rest, (extractNodes {} p).getNode id = some q ∧
    s.dagManager.nodes id = some n ∧ e ∈ n.inEdges a.reverse ∧ e.dest = a.node ∧
    f ∈ e.bloomFilters ∧ (extractNodes {} p).getNode a.node = some src ∧
    s.replaceMap a.reverse src = some (.createBF a bfs :: rest) ∧ f ∈ bfs ∧
    Before (schedule order) (a.reverse, src) (a.reverse, q)

section Acyclic

variable {p : LogicalOperator} {d₀ : DAGManager} {ts : List FilterTransfer}
  {s : PredicateTransferOptimizer}

/-- One more than the rank of a filter that is used here. -/
def useHeight (p : LogicalOperator) (order : List LogicalOperator) : LogicalOperator → Nat
  | .unary (.useBF _ a) _ => rank p order a + 1
  | _ => 0

def height (p : LogicalOperator) (order : List LogicalOperator) (x : LogicalOperator) : Nat :=
  x.subplans.toFinset.sup (useHeight p order)

theorem height_mono (h : b ∈ a.subplans) : height p order b ≤ height p order a := by
  apply Finset.sup_mono
  intro x hx
  exact mem_toFinset.mpr (subplans_trans (mem_toFinset.mp hx) h)

/-- A create operator is lower than every use of its filters. -/
theorem height_create_lt (h : Transferred p d₀ ts s)
    (hc : unary (.createBF a bfs) d ∈ (s.insertCreateBFOperator p).subplans) :
    height p d₀.execOrder (.unary (.createBF a bfs) d) <
      height p d₀.execOrder (.unary (.useBF f a) c) := by
  have hcreate : height p d₀.execOrder (.unary (.createBF a bfs) d) ≤ rank p d₀.execOrder a := by
    apply Finset.sup_le
    intro x hx
    rcases mem_cons.mp (mem_toFinset.mp hx) with rfl | hx
    · exact Nat.zero_le _
    · unfold useHeight
      split
      · exact rank_lt_of_below h hc hx
      · exact Nat.zero_le _
  have huse : rank p d₀.execOrder a + 1 ≤ height p d₀.execOrder (.unary (.useBF f a) c) := by
    change useHeight p d₀.execOrder (.unary (.useBF f a) c) ≤ _
    apply Finset.le_sup
    exact mem_toFinset.mpr (self_mem_subplans _)
  omega

/-- Along every dependency the height falls, or stays while the operators get fewer. -/
theorem dependsOn_decreases (h : Transferred p d₀ ts s)
    (hab : DependsOn (s.insertCreateBFOperator p) a b) :
    toLex (height p d₀.execOrder b, b.subplans.length) <
      toLex (height p d₀.execOrder a, a.subplans.length) := by
  have hbelow : b ∈ a.subplans → b.subplans.length < a.subplans.length →
      toLex (height p d₀.execOrder b, b.subplans.length) <
        toLex (height p d₀.execOrder a, a.subplans.length) := by
    intro hmem hlen
    rw [Prod.Lex.toLex_lt_toLex]
    exact (Nat.lt_or_eq_of_le (height_mono hmem)).imp id (fun he => ⟨he,hlen⟩)
  cases hab with
  | child hm =>
    refine hbelow (mem_cons_of_mem _ b.self_mem_subplans) ?_
    simp [subplans]
  | left hm =>
    refine hbelow (mem_cons_of_mem _ (mem_append_left _ b.self_mem_subplans)) ?_
    simp only [subplans,length_cons,length_append]
    omega
  | right hm =>
    refine hbelow (mem_cons_of_mem _ (mem_append_right _ b.self_mem_subplans)) ?_
    simp only [subplans,length_cons,length_append]
    omega
  | related hu hc => exact Prod.Lex.toLex_lt_toLex.mpr (.inl (height_create_lt h hc))

theorem dependsOn_acyclic (h : Transferred p d₀ ts s) (a : LogicalOperator) :
    ¬ Relation.TransGen (DependsOn (s.insertCreateBFOperator p)) a a := by
  have hdec : ∀ {x y}, Relation.TransGen (DependsOn (s.insertCreateBFOperator p)) x y →
      toLex (height p d₀.execOrder y, y.subplans.length) <
        toLex (height p d₀.execOrder x, x.subplans.length) := by
    intro x y hxy
    induction hxy with
    | single hstep => exact dependsOn_decreases h hstep
    | tail _ hstep ih => exact (dependsOn_decreases h hstep).trans ih
  intro ha
  exact lt_irrefl _ (hdec ha)

end Acyclic

section Uses

variable {p : LogicalOperator} {d₀ : DAGManager} {ts : List FilterTransfer}
  {s : PredicateTransferOptimizer} {q : LogicalOperator}

/-- The filters a chain applies. -/
def chainFilters (chain : Chain) : List Nat :=
  chain.flatMap (fun op => usedFilters (.unary op (.leaf (.emptyResult []))))

theorem usedFilters_chain (chain : Chain) (q : LogicalOperator) :
    usedFilters (chain.foldr .unary q) = chainFilters chain ++ usedFilters q := by
  induction chain with
  | nil => rfl
  | cons op chain ih =>
    cases op <;> simp_all [usedFilters,chainFilters]

theorem chainFilters_append (a b : Chain) :
    chainFilters (a ++ b) = chainFilters a ++ chainFilters b :=
  flatMap_append

theorem chainFilters_uses (uses : List FilterTransfer) :
    chainFilters (uses.map FilterTransfer.use) = uses.map (fun t => t.filter.id) := by
  induction uses with
  | nil => rfl
  | cons t uses ih =>
    rw [map_cons,map_cons,← ih]
    rfl

section

variable (h : Transferred p d₀ ts s)
include h

theorem chainFilters_pass {id : Nat} (hq : (id, q) ∈ nodesOf p)
    (reverse : Bool) : (chainFilters ((s.replaceMap reverse q).getD [])).Nodup ∧
      ∀ i ∈ chainFilters ((s.replaceMap reverse q).getD []),
        ∃ t ∈ ts, t.filter.id = i ∧ t.target = id ∧ t.reverse = reverse := by
  obtain ⟨uses,hch⟩ := h.state.chains reverse id q (h.scheduled hq reverse) hq
  obtain ⟨creates,he,hcreates⟩ := hch.shape
  have hfilters : chainFilters ((s.replaceMap reverse q).getD []) =
      uses.map (fun t => t.filter.id) := by
    rw [he,chainFilters_append,chainFilters_uses]
    rcases hcreates with rfl | ⟨bfs,rfl⟩ <;> rfl
  rw [hfilters]
  refine ⟨hch.ids,fun i hi => ?_⟩
  obtain ⟨t,ht,rfl⟩ := mem_map.mp hi
  obtain ⟨hts,hrev,htar⟩ := hch.mem t ht
  exact ⟨t,hts,rfl,htar,hrev⟩

theorem transfer_eq_of_id (ht : t ∈ ts) (ht' : t' ∈ ts)
    (he : t.filter.id = t'.filter.id) : t = t' :=
  inj_on_of_nodup_map h.state.ids ht ht' he

theorem chainFilters_chainAt (q : LogicalOperator) :
    (chainFilters (s.chainAt q)).Nodup ∧ ∀ i ∈ chainFilters (s.chainAt q),
      ∃ t ∈ ts, t.filter.id = i ∧ (t.target, q) ∈ nodesOf p := by
  by_cases hq : ∃ id, (id, q) ∈ nodesOf p
  · obtain ⟨id,hq⟩ := hq
    obtain ⟨hndB,hB⟩ := chainFilters_pass h hq true
    obtain ⟨hndF,hF⟩ := chainFilters_pass h hq false
    unfold chainAt
    rw [chainFilters_append]
    refine ⟨nodup_append.mpr ⟨hndB,hndF,?_⟩,fun i hi => ?_⟩
    · rintro i hi _ hj rfl
      obtain ⟨t,ht,hti,-,htr⟩ := hB i hi
      obtain ⟨t',ht',hti',-,htr'⟩ := hF i hj
      obtain rfl := transfer_eq_of_id h ht ht' (hti.trans hti'.symm)
      rw [htr] at htr'
      cases htr'
    · rcases mem_append.mp hi with hi | hi
      · obtain ⟨t,ht,hti,htar,-⟩ := hB i hi
        exact ⟨t,ht,hti,htar ▸ hq⟩
      · obtain ⟨t,ht,hti,htar,-⟩ := hF i hi
        exact ⟨t,ht,hti,htar ▸ hq⟩
  · push Not at hq
    rw [h.chainAt_eq_nil hq]
    exact ⟨nodup_nil,nofun⟩

/-- A filter applied in the rewritten plan belongs to a node of the plan. -/
theorem usedFilters_source (hq : q.noBF) (hi : i ∈ usedFilters (s.insertCreateBFOperator q)) :
    ∃ t ∈ ts, t.filter.id = i ∧ ∃ o ∈ q.subplans, (t.target, o) ∈ nodesOf p := by
  have hown : ∀ q, i ∈ chainFilters (s.chainAt q) →
      ∃ t ∈ ts, t.filter.id = i ∧ ∃ o ∈ q.subplans, (t.target, o) ∈ nodesOf p := by
    intro q hi
    obtain ⟨t,ht,hti,htar⟩ := (chainFilters_chainAt h q).2 i hi
    exact ⟨t,ht,hti,q,q.self_mem_subplans,htar⟩
  induction q with
  | leaf op =>
    rw [insertCreateBFOperator_eq,usedFilters_chain] at hi
    exact hown _ ((mem_append.mp hi).resolve_right not_mem_nil)
  | unary op c ih =>
    rw [insertCreateBFOperator_eq,usedFilters_chain] at hi
    rcases mem_append.mp hi with hi | hi
    · exact hown _ hi
    · have hc : i ∈ usedFilters (s.insertCreateBFOperator c) := by
        cases op <;> first | exact hi | cases hq.1
      obtain ⟨t,ht,hti,o,ho,htar⟩ := ih hq.2 hc
      exact ⟨t,ht,hti,o,mem_cons_of_mem _ ho,htar⟩
  | binary op l r ihl ihr =>
    rw [insertCreateBFOperator_eq,usedFilters_chain] at hi
    rcases mem_append.mp hi with hi | hi
    · exact hown _ hi
    rcases mem_append.mp hi with hi | hi
    · obtain ⟨t,ht,hti,o,ho,htar⟩ := ihl hq.1 hi
      exact ⟨t,ht,hti,o,mem_cons_of_mem _ (mem_append_left _ ho),htar⟩
    · obtain ⟨t,ht,hti,o,ho,htar⟩ := ihr hq.2 hi
      exact ⟨t,ht,hti,o,mem_cons_of_mem _ (mem_append_right _ ho),htar⟩

theorem chainFilters_disjoint (hc : c ∈ q.subplans) (hne : c ≠ q) (hbf : c.noBF) :
    ∀ i ∈ chainFilters (s.chainAt q), i ∉ usedFilters (s.insertCreateBFOperator c) := by
  intro i hi hj
  obtain ⟨t,ht,hti,htar⟩ := (chainFilters_chainAt h q).2 i hi
  obtain ⟨t',ht',hti',o,ho,htar'⟩ := usedFilters_source h hbf hj
  obtain rfl := transfer_eq_of_id h ht ht' (hti.trans hti'.symm)
  obtain rfl := node_unique h.wellFormed htar htar'
  exact hne (subplans_antisymm hc ho)

/-- Every filter is applied at most once. -/
theorem usedFilters_nodup (hq : q.WellFormed) :
    (usedFilters (s.insertCreateBFOperator q)).Nodup := by
  induction q with
  | leaf op =>
    rw [insertCreateBFOperator_eq,usedFilters_chain]
    exact nodup_append.mpr ⟨(chainFilters_chainAt h _).1,nodup_nil,nofun⟩
  | unary op c ih =>
    have hbelow : usedFilters (s.insertBelow (.unary op c)) =
        usedFilters (s.insertCreateBFOperator c) := by
      cases op <;> first | rfl | cases hq.noBF.1
    rw [insertCreateBFOperator_eq,usedFilters_chain,hbelow]
    refine nodup_append.mpr ⟨(chainFilters_chainAt h _).1,ih hq.child,?_⟩
    rintro i hi _ hj rfl
    have hc : c ∈ (unary op c).subplans :=
      mem_cons_of_mem _ c.self_mem_subplans
    exact chainFilters_disjoint h hc nofun hq.child.noBF i hi hj
  | binary op l r ihl ihr =>
    have hl : l ∈ (binary op l r).subplans :=
      mem_cons_of_mem _ (mem_append_left _ l.self_mem_subplans)
    have hr : r ∈ (binary op l r).subplans :=
      mem_cons_of_mem _ (mem_append_right _ r.self_mem_subplans)
    rw [insertCreateBFOperator_eq,usedFilters_chain]
    refine nodup_append.mpr ⟨(chainFilters_chainAt h _).1,
      nodup_append.mpr ⟨ihl hq.left,ihr hq.right,?_⟩,?_⟩
    · rintro i hi _ hj rfl
      obtain ⟨t,ht,hti,o,ho,htar⟩ := usedFilters_source h hq.left.noBF hi
      obtain ⟨t',ht',hti',o',ho',htar'⟩ := usedFilters_source h hq.right.noBF hj
      obtain rfl := transfer_eq_of_id h ht ht' (hti.trans hti'.symm)
      have hmem := nodeId?_mem (nodesOf_spec htar).2
      have hmem' := nodeId?_mem (nodesOf_spec htar').2
      exact hq.sides_disjoint (tableIndices_subset ho hmem)
        (tableIndices_subset ho' hmem')
    · rintro i hi _ hj rfl
      rcases mem_append.mp hj with hj | hj
      · exact chainFilters_disjoint h hl nofun hq.left.noBF i hi hj
      · exact chainFilters_disjoint h hr nofun hq.right.noBF i hi hj

/-- Every filter operator of the final plan finds its filter built. -/
theorem use_builtEarlier (hu : unary (.useBF f a) c ∈ (s.insertCreateBFOperator p).subplans) :
    ∃ q, .useBF f a ∈ (s.replaceMap a.reverse q).getD [] ∧
      BuiltEarlier p d₀.execOrder s q f a := by
  obtain ⟨q,-,pre,post,hsplit,-⟩ := mem_inserted_bf h.wellFormed.noBF rfl hu
  have hmem : UnaryOp.useBF f a ∈ s.chainAt q := by simp [hsplit]
  obtain ⟨id,reverse,hq,hm⟩ := h.exists_pass hmem
  obtain ⟨t,ht,htu,rfl,rfl,src,hsrc,hbefore⟩ := h.use_mem hq hm
  obtain ⟨rfl,rfl⟩ := UnaryOp.useBF.inj htu
  obtain ⟨n,e,hn,he,hdest,hf⟩ := h.state.placed t ht
  obtain ⟨src',hsrc',-,bfs,rest,hentry,hfb⟩ := h.state.created t ht
  obtain rfl := node_unique h.wellFormed hsrc hsrc'
  exact ⟨q,hm,t.target,n,e,src,bfs,rest,(getNode_eq_some h.wellFormed).mpr hq,hn,he,hdest,
    hf,(getNode_eq_some h.wellFormed).mpr hsrc,hentry,hfb,hbefore⟩

end

end Uses

section Main

variable (ctx : Context) {p : LogicalOperator}

theorem transferred_of_build (hwf : p.WellFormed) (hbuild : (build ctx p).2 = true) :
    ∃ s ts, transferPasses { dagManager := (build ctx p).1 } = .ok s ∧
      Transferred p (build ctx p).1 ts s := by
  have hb : BuiltDag p (build ctx p).1 := by
    rcases build_cases hwf with ⟨hfalse,-⟩ | ⟨-,hb⟩
    · rw [hbuild] at hfalse
      cases hfalse
    · exact hb
  obtain ⟨s,ts,hs,hstate⟩ := transferPasses_ok hwf hb
  exact ⟨s,ts,hs,hwf,hb,hstate⟩

theorem transferPasses_of_not_built (hwf : p.WellFormed) (hbuild : (build ctx p).2 = false) :
    transferPasses { dagManager := (build ctx p).1 } = .ok { dagManager := (build ctx p).1 } := by
  have horder : (build ctx p).1.execOrder = [] := by
    rcases build_cases hwf with ⟨-,h⟩ | ⟨h,-⟩
    · exact h
    · rw [hbuild] at h
      cases h
  unfold transferPasses
  simp only [horder,reverse_nil,foldlM_nil]
  rfl

/-- On every plan with a transfer graph both passes run through, each filter is
built strictly before the step that uses it and used at most once, and the
dependencies between the operators of the final plan have no cycle. -/
theorem transfer_schedule_wellFounded (hwf : p.WellFormed) (hbuild : (build ctx p).2 = true) :
    ∃ s, transferPasses { dagManager := (build ctx p).1 } = .ok s ∧
      optimize ctx p = .ok (s.insertCreateBFOperator p) ∧
      (∀ f a c, unary (.useBF f a) c ∈ (s.insertCreateBFOperator p).subplans →
        ∃ q, .useBF f a ∈ (s.replaceMap a.reverse q).getD [] ∧
          BuiltEarlier p (build ctx p).1.execOrder s q f a) ∧
      (usedFilters (s.insertCreateBFOperator p)).Nodup ∧
      ∀ a, ¬ Relation.TransGen (DependsOn (s.insertCreateBFOperator p)) a a := by
  obtain ⟨s,ts,hs,h⟩ := transferred_of_build ctx hwf hbuild
  refine ⟨s,hs,?_,fun f a c hu => use_builtEarlier h hu,usedFilters_nodup h hwf,
    dependsOn_acyclic h⟩
  unfold optimize
  rw [hs]
  rfl

/-- Two equalities over three scans. -/
def chainOfThree : LogicalOperator :=
  .binary (.comparisonJoin .inner 9 [⟨.boundColumnRef ⟨1, 1⟩, .boundColumnRef ⟨2, 0⟩, .equal⟩])
    (.binary (.comparisonJoin .inner 8 [⟨.boundColumnRef ⟨0, 0⟩, .boundColumnRef ⟨1, 0⟩, .equal⟩])
      (.leaf (.get 0 1)) (.leaf (.get 1 2)))
    (.leaf (.get 2 1))

theorem chainOfThree_wellFormed : chainOfThree.WellFormed := by
  refine ⟨by decide,?_,by simp [chainOfThree,noBF]⟩
  simp [chainOfThree,inScope,BinaryOp.inScope,conditionsInScope,
    getColumnBindings,LeafOp.getColumnBindings,BinaryOp.getColumnBindings,
    joinBindings,mem_generateColumnBindings]

theorem chainOfThree_schedule : chainOfThree.WellFormed ∧ (build default chainOfThree).2 = true ∧
    ∃ s, transferPasses { dagManager := (build default chainOfThree).1 } = .ok s ∧
      (usedFilters (s.insertCreateBFOperator chainOfThree)).Nodup := by
  have hbuild : (build default chainOfThree).2 = true := by decide
  obtain ⟨s,hs,-,-,hnd,-⟩ :=
    transfer_schedule_wellFounded default chainOfThree_wellFormed hbuild
  exact ⟨chainOfThree_wellFormed,hbuild,s,hs,hnd⟩

end Main

end PredTrans.Transfer
