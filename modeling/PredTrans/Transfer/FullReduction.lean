import PredTrans.Transfer.JoinRows
import PredTrans.Transfer.Preservation

namespace PredTrans.Transfer
open Plan Library PredicateTransferOptimizer Function LogicalOperator
open List hiding reverse

/-! With exact filters the two passes over the tree of an acyclic join leave at
each relation the rows that take part in the join. -/

section Stages

namespace PredicateTransferOptimizer

/-- What one pass finds at a node: the node itself, or what the forward pass left. -/
def stageInput (s : PredicateTransferOptimizer) : Bool → LogicalOperator → LogicalOperator
  | false, n => s.insertBelow n
  | true, n => ((s.replaceMap false n).getD []).foldr .unary (s.insertBelow n)

/-- A node with its chains up to the one of this pass. -/
def stage (s : PredicateTransferOptimizer) (reverse : Bool) (n : LogicalOperator) :
    LogicalOperator :=
  ((s.replaceMap reverse n).getD []).foldr .unary (s.stageInput reverse n)

theorem stage_true (s : PredicateTransferOptimizer) (n : LogicalOperator) :
    s.stage true n = s.insertCreateBFOperator n := by
  rw [insertCreateBFOperator_eq,chainAt,foldr_append]
  rfl

end PredicateTransferOptimizer

variable {p : LogicalOperator} {d₀ : DAGManager} {ts : List FilterTransfer}
  {s : PredicateTransferOptimizer} {n : LogicalOperator} {x : Nat} {E : Execution}

theorem stage_subplans (hn : (x, n) ∈ nodesOf p) (reverse : Bool) :
    (s.stage reverse n).subplans ⊆ (s.insertCreateBFOperator p).subplans := by
  intro q hq
  apply inserted_subplans_mono s (nodesOf_spec hn).1
  cases reverse with
  | true => rwa [stage_true] at hq
  | false =>
    rw [← stage_true]
    exact mem_subplans_chain.mpr (.inl hq)

/-- A `LogicalUseBF` keeps exactly the rows whose column tuple is among the tuples
its `LogicalCreateBF` saw. NULL is hashed like any other value. -/
def UseExact (E : Execution) : LogicalOperator → LogicalOperator → Prop
  | .unary (.useBF f a) c, .unary (.createBF b _) d =>
    a = b → ∀ y ∈ c.run E, E.keep f.id y = true ↔
      ∃ r ∈ d.run E, f.columnBindingsBuilt.map r = f.columnBindingsApplied.map y
  | _, _ => True

def Exact (E : Execution) (plan : LogicalOperator) : Prop :=
  ∀ u ∈ plan.subplans, ∀ z ∈ plan.subplans, UseExact E u z

instance (E : Execution) (u z : LogicalOperator) : Decidable (UseExact E u z) := by
  unfold UseExact
  exact decidableUse u z

instance (E : Execution) (plan : LogicalOperator) : Decidable (Exact E plan) :=
  inferInstanceAs (Decidable (∀ u ∈ plan.subplans, ∀ z ∈ plan.subplans, UseExact E u z))

/-- The row's tuple is among those the filter was built from. -/
def FilterTransfer.Hit (t : FilterTransfer) (rows : List Row) (y : Row) : Prop :=
  ∃ r ∈ rows, t.filter.columnBindingsBuilt.map r = t.filter.columnBindingsApplied.map y

theorem mem_run_uses (hE : Exact E plan) (built : FilterTransfer → List Row)
    {uses : List FilterTransfer}
    (hsub : ((uses.map FilterTransfer.use).foldr unary base).subplans ⊆
      plan.subplans)
    (hcreate : ∀ t ∈ uses, ∃ bfs d, unary (.createBF t.address bfs) d ∈
      plan.subplans ∧ d.run E = built t) :
    y ∈ ((uses.map FilterTransfer.use).foldr unary base).run E ↔
      y ∈ base.run E ∧ ∀ t ∈ uses, t.Hit (built t) y := by
  induction uses with
  | nil => simp
  | cons t uses ih =>
    have ih := ih (fun q hq => hsub (mem_cons_of_mem _ hq))
      (forall_mem_cons.mp hcreate).2
    obtain ⟨bfs,d,hd,hrun⟩ := hcreate t mem_cons_self
    have hexact := hE _ (hsub (self_mem_subplans _)) _ hd rfl y
    rw [hrun] at hexact
    change y ∈ List.filter (E.keep t.filter.id) _ ↔ _
    rw [mem_filter,forall_mem_cons]
    constructor
    · rintro ⟨hy,hkeep⟩
      obtain ⟨hbase,hall⟩ := ih.mp hy
      exact ⟨hbase,(hexact hy).mp hkeep,hall⟩
    · rintro ⟨hbase,hhit,hall⟩
      have hy := ih.mpr ⟨hbase,hall⟩
      exact ⟨hy,(hexact hy).mpr hhit⟩

namespace Transferred

theorem node_eq (h : Transferred p d₀ ts s) (hn : (x, n) ∈ nodesOf p) (hm : (x, m) ∈ nodesOf p) :
    n = m := by
  have h1 := (getNode_eq_some h.wellFormed).mpr hn
  have h2 := (getNode_eq_some h.wellFormed).mpr hm
  exact Option.some.inj (h1.symm.trans h2)

/-- A filter is built from what its pass left at the source. -/
theorem exists_create (h : Transferred p d₀ ts s) (ht : t ∈ ts)
    (hsrc : (t.source, src) ∈ nodesOf p) : ∃ bfs d, unary (.createBF t.address bfs) d ∈
      (s.insertCreateBFOperator p).subplans ∧ d.run E = (s.stage t.reverse src).run E := by
  obtain ⟨op,hop,-,bfs,rest,hentry,-⟩ := h.state.created t ht
  obtain rfl := h.node_eq hsrc hop
  have hstage : s.stage t.reverse src =
      .unary (.createBF t.address bfs) (rest.foldr .unary (s.stageInput t.reverse src)) := by
    unfold stage
    rw [hentry]
    rfl
  have hmem := stage_subplans (s := s) hsrc t.reverse (self_mem_subplans _)
  rw [hstage] at hmem ⊢
  exact ⟨bfs,_,hmem,rfl⟩

/-- One pass at one node, when every filter for it was made in time. -/
theorem mem_stage (h : Transferred p d₀ ts s) (hE : Exact E (s.insertCreateBFOperator p))
    (hn : (x, n) ∈ nodesOf p)
    (hbefore : ∀ t ∈ ts, t.reverse = reverse → t.target = x → ∀ src, (t.source, src) ∈ nodesOf p →
      Before (schedule d₀.execOrder) (reverse, src) (reverse, n))
    {y : Row} :
    y ∈ (s.stage reverse n).run E ↔ y ∈ (s.stageInput reverse n).run E ∧
      ∀ t ∈ ts, t.reverse = reverse → t.target = x → ∀ src, (t.source, src) ∈ nodesOf p →
        t.Hit ((s.stage reverse src).run E) y := by
  obtain ⟨uses,hch⟩ := h.state.chains reverse x n (h.scheduled hn reverse) hn
  obtain ⟨creates,he,hcreates⟩ := hch.shape
  have hin : ∀ t, t ∈ uses ↔ t ∈ ts ∧ t.reverse = reverse ∧ t.target = x := by
    intro t
    refine ⟨hch.mem t,fun ⟨ht,hr,hx⟩ => ?_⟩
    obtain ⟨src,hsrc,-⟩ := h.state.created t ht
    exact hch.complete t ht hr hx src hsrc (hbefore t ht hr hx src hsrc)
  have hstage : s.stage reverse n = creates.foldr .unary
      ((uses.map FilterTransfer.use).foldr .unary (s.stageInput reverse n)) := by
    unfold stage
    rw [he,foldr_append]
  have hrun : (s.stage reverse n).run E =
      ((uses.map FilterTransfer.use).foldr .unary (s.stageInput reverse n)).run E := by
    rw [hstage]
    rcases hcreates with rfl | ⟨bfs,rfl⟩ <;> rfl
  have hsub : ((uses.map FilterTransfer.use).foldr unary
      (s.stageInput reverse n)).subplans ⊆ (s.insertCreateBFOperator p).subplans := by
    intro q hq
    apply stage_subplans hn reverse
    rw [hstage]
    exact mem_subplans_chain.mpr (.inl hq)
  rw [hrun,mem_run_uses hE
    (fun t => (s.stage reverse (((extractNodes {} p).getNode t.source).getD n)).run E) hsub]
  · refine and_congr_right (fun _ => forall_congr' (fun t => ?_))
    rw [hin]
    constructor
    · intro hhit ht hr hx src hsrc
      have := hhit ⟨ht,hr,hx⟩
      rwa [(getNode_eq_some h.wellFormed).mpr hsrc] at this
    · rintro hhit ⟨ht,hr,hx⟩
      obtain ⟨src,hsrc,-⟩ := h.state.created t ht
      rw [(getNode_eq_some h.wellFormed).mpr hsrc]
      exact hhit ht hr hx src hsrc
  · intro t ht
    obtain ⟨hts,hr,-⟩ := (hin t).mp ht
    obtain ⟨src,hsrc,-⟩ := h.state.created t hts
    obtain ⟨bfs,d,hd,hdrun⟩ := h.exists_create (E := E) hts hsrc
    rw [(getNode_eq_some h.wellFormed).mpr hsrc,← hr]
    exact ⟨bfs,d,hd,hdrun⟩

end Transferred

end Stages

section Values

variable {A : Type*} {attr : ColumnBinding → A} {p : LogicalOperator} {E : Execution}

/-- Below its chains a relation is as it was. -/
theorem Transferred.run_insertBelow (ht : Transferred p d ts s) (h : NaturalJoin attr .equal p)
    (hn : (x, n) ∈ nodesOf p) : (s.insertBelow n).run E = n.run E := by
  rcases h.node_cases hn with ⟨k,rfl⟩ | ⟨e,es,k,rfl⟩
  · rfl
  have hscan : ∀ id, (id, leaf (.get x k)) ∉ nodesOf p := by
    intro id hid
    have hx : id = x := by
      have := (nodesOf_spec hid).2
      exact (Option.some.inj this).symm
    subst hx
    cases ht.node_eq hn hid
  simp only [insertBelow,run,ht.run_inserted_of_not_node E hscan]

/-- The two columns of a comparison, by the table they belong to. -/
theorem Justification.columns_eq (j : Justification p source target) (h : NaturalJoin attr .equal p)
    (hwf : p.WellFormed) :
    j.sourceColumn.tableIndex = source ∧ j.targetColumn.tableIndex = target ∧
      ((j.sourceColumn = j.a ∧ j.targetColumn = j.b) ∨
        (j.sourceColumn = j.b ∧ j.targetColumn = j.a)) := by
  have hs := j.source_table
  have htar := j.target_table
  rw [h.findRename hwf] at hs htar
  refine ⟨hs,htar,?_⟩
  unfold sourceColumn targetColumn
  cases j.toRight
  · exact .inr ⟨rfl,rfl⟩
  · exact .inl ⟨rfl,rfl⟩

variable [DecidableEq A]

/-- The value of an attribute in a row of a relation. -/
def attributeValue (attr : ColumnBinding → A) (p : LogicalOperator) (x : Nat) (row : Row) (a : A) :
    Value :=
  ((columnsOf p x).find? (fun c => attr c = a)).elim .null row

theorem AcyclicJoin.attributeValue_eq (h : AcyclicJoin attr p) (hc : c ∈ columnsOf p x)
    (row : Row) : attributeValue attr p x row (attr c) = row c := by
  unfold attributeValue
  cases hfind : (columnsOf p x).find? (fun c' => attr c' = attr c) with
  | none =>
    have := find?_eq_none.mp hfind c hc
    simp at this
  | some c' =>
    have he : attr c' = attr c := by simpa using find?_some hfind
    rw [h.column_unique (mem_of_find?_eq_some hfind) hc he]
    rfl

theorem AcyclicJoin.agree_iff (h : AcyclicJoin attr p) :
    Agree (attributesOf attr p) (attributeValue attr p) x r y q ↔
      ∀ c ∈ columnsOf p x, ∀ c' ∈ columnsOf p y, attr c = attr c' → r c = q c' := by
  constructor
  · intro hagree c hc c' hc' he
    have hv := hagree (attr c) (mem_shared.mpr ⟨c,hc,c',hc',rfl,he.symm⟩)
    rw [h.attributeValue_eq hc,he,h.attributeValue_eq hc'] at hv
    exact hv
  · intro hcols a ha
    obtain ⟨c,hc,c',hc',rfl,he⟩ := mem_shared.mp ha
    rw [h.attributeValue_eq hc,← he,h.attributeValue_eq hc']
    exact hcols c hc c' hc' he.symm

end Values

section Tree

variable {A : Type*} [DecidableEq A] {attr : ColumnBinding → A} {p : LogicalOperator}
  {sorted : List LogicalOperator} {d : DAGManager} {ts : List FilterTransfer}
  {s : PredicateTransferOptimizer} {root : Nat} {g : List (Nat × Nat)} {t : FilterTransfer}
  {E : Execution}

theorem pairFilter_injective : Function.Injective pairFilter := by
  intro c c' he
  simp only [pairFilter,Expression.boundComparison.injEq,Expression.boundColumnRef.injEq,
    true_and] at he
  exact Prod.ext he.1 he.2

theorem connects_comm (x y : Nat) : connects x y = connects y x := by
  funext c
  simp only [connects,or_comm]

variable (ht : Transferred p d ts s) (h : AcyclicJoin attr p)
  (hd : TreeDag (edgesOf p sorted) d root g) (hE : Exact E (s.insertCreateBFOperator p))
  (hn : (x, n) ∈ nodesOf p)

include ht h hd in
theorem Transferred.along_tree (hmem : t ∈ ts) :
    treeEdge t.reverse t.source t.target ∈ g ∧
      ∃ js : List (Justification p t.source t.target), t.JustifiedBy js ∧
        ∀ c, pairFilter c ∈ js.map Justification.filter ↔
          c ∈ (columnPairs p).filter (connects t.target t.source) := by
  obtain ⟨js,hjs,n,e,hn,he,hdest,hfilters⟩ := ht.state.justified t hmem
  have hne : e.filters ≠ [] := by
    rw [← hfilters]
    simpa using hjs.1
  obtain ⟨hedge,hiff⟩ := hd.out _ n _ e hn he hne
  rw [hdest] at hedge hiff
  refine ⟨hedge,js,hjs,fun c => ?_⟩
  have hkey : ((edgesOf p sorted).filtersAt (treeEdge t.reverse t.source t.target)).map
      DAGEdgeInfo.filter = ((columnPairs p).filter (connects t.target t.source)).map
          pairFilter := by
    unfold treeEdge
    split
    · rw [h.natural.filtersAt_filters h.wellFormed,connects_comm]
    · rw [h.natural.filtersAt_filters h.wellFormed]
  rw [hfilters,hiff,← mem_map,hkey,mem_map_of_injective pairFilter_injective]

include ht h hd in
theorem Transferred.hit_iff (hmem : t ∈ ts) :
    t.Hit rows y ↔ ∃ q ∈ rows,
      Agree (attributesOf attr p) (attributeValue attr p) t.target y t.source q := by
  obtain ⟨-,js,⟨hne,happlied,hbuilt⟩,hpairs⟩ := ht.along_tree h hd hmem
  have hcols := fun j : Justification p t.source t.target => j.columns_eq h.natural h.wellFormed
  obtain ⟨j₀,-⟩ := exists_mem_of_ne_nil js hne
  have hdiff : t.target ≠ t.source := (j₀.source_ne_target h.wellFormed).symm
  refine exists_congr (fun q => and_congr_right (fun _ => ?_))
  simp only [happlied,hbuilt,h.natural.findRename h.wellFormed,map_map,map_inj_left,
    Function.comp_apply,h.agree_iff]
  constructor
  · intro hall c hc c' hc' he
    obtain ⟨-,htc⟩ := mem_columnsOf.mp hc
    have hj : ∃ j ∈ js, (j.a = c ∧ j.b = c') ∨ (j.a = c' ∧ j.b = c) := by
      rcases h.pair_of_shared hdiff hc hc' he with hm | hm <;>
        obtain ⟨j,hj,hf⟩ := mem_map.mp ((hpairs _).mpr hm) <;>
        obtain ⟨ha,hb⟩ := Prod.mk.inj (@pairFilter_injective (j.a, j.b) _ hf)
      · exact ⟨j,hj,.inl ⟨ha,hb⟩⟩
      · exact ⟨j,hj,.inr ⟨ha,hb⟩⟩
    obtain ⟨j,hj,hends⟩ := hj
    obtain ⟨hst,htt,hside⟩ := hcols j
    have hval := hall j hj
    have hsrc : j.sourceColumn = c' ∧ j.targetColumn = c := by
      rcases hside with ⟨hs,htar⟩ | ⟨hs,htar⟩ <;> rcases hends with ⟨ha,hb⟩ | ⟨ha,hb⟩
      · rw [hs,ha,htc] at hst
        exact absurd hst hdiff
      · exact ⟨hs.trans ha,htar.trans hb⟩
      · exact ⟨hs.trans hb,htar.trans ha⟩
      · rw [hs,hb,htc] at hst
        exact absurd hst hdiff
    rw [hsrc.1,hsrc.2] at hval
    exact hval.symm
  · intro hagree j hj
    have hm := (hpairs (j.a, j.b)).mp (mem_map_of_mem (f := Justification.filter) hj)
    obtain ⟨ha,hb,-,he⟩ := h.natural.mem_columnPairs h.wellFormed (mem_filter.mp hm).1
    obtain ⟨hst,htt,hside⟩ := hcols j
    rcases hside with ⟨hs,htar⟩ | ⟨hs,htar⟩
    · exact (hagree _ (mem_columnsOf.mpr ⟨htar ▸ hb,htt⟩) _ (mem_columnsOf.mpr ⟨hs ▸ ha,hst⟩)
        (by rw [hs,htar,he])).symm
    · exact (hagree _ (mem_columnsOf.mpr ⟨htar ▸ ha,htt⟩) _ (mem_columnsOf.mpr ⟨hs ▸ hb,hst⟩)
        (by rw [hs,htar,he])).symm

theorem before_schedule_backward :
    Before (schedule (as ++ j :: (bs ++ i :: cs))) (true, j) (true, i) := by
  refine ⟨(as ++ j :: (bs ++ i :: cs)).reverse.map (Prod.mk false) ++
    (as ++ j :: bs).map (Prod.mk true),cs.map (Prod.mk true),?_,by simp⟩
  simp [schedule]

theorem before_schedule_forward :
    Before (schedule (as ++ j :: (bs ++ i :: cs))) (false, i) (false, j) := by
  refine ⟨(bs ++ i :: cs).reverse.map (Prod.mk false),as.reverse.map (Prod.mk false) ++
    (as ++ j :: (bs ++ i :: cs)).map (Prod.mk true),?_,by simp⟩
  simp [schedule]

include hd in
theorem TreeDag.order_split (hwf : p.WellFormed) (hedge : (j, i) ∈ g) (hj : (j, nj) ∈ nodesOf p)
    (hi : (i, ni) ∈ nodesOf p) : ∃ as bs cs, d.execOrder = as ++ nj :: (bs ++ ni :: cs) := by
  have hget : ∀ {x n}, (x, n) ∈ nodesOf p → (edgesOf p sorted).nodesManager.getNode x = some n :=
    fun hn => (getNode_eq_some hwf).mpr hn
  obtain ⟨a,b,c,hsplit⟩ := hd.growth.rootedTree.split hedge
  have horder := hd.order
  simp only [hsplit,filterMap_append,filterMap_cons,hget hj,hget hi] at horder
  exact ⟨_,_,_,horder⟩

include hd in
/-- Filters move along the execution order: up the tree in the forward pass, which
walks the order backwards, and down again in the backward pass. -/
theorem TreeDag.before (hwf : p.WellFormed) (hedge : treeEdge reverse u v ∈ g)
    (hu : (u, nu) ∈ nodesOf p) (hv : (v, nv) ∈ nodesOf p) :
    Before (schedule d.execOrder) (reverse, nu) (reverse, nv) := by
  cases reverse with
  | true =>
    obtain ⟨as,bs,cs,horder⟩ := hd.order_split hwf hedge hu hv
    exact horder ▸ before_schedule_backward
  | false =>
    obtain ⟨as,bs,cs,horder⟩ := hd.order_split hwf hedge hv hu
    exact horder ▸ before_schedule_forward

/-- What a pass leaves at a relation. -/
def stageRows (E : Execution) (s : PredicateTransferOptimizer) (p : LogicalOperator)
    (reverse : Bool) (x : Nat) : Set Row :=
  {row | ∃ n, (x, n) ∈ nodesOf p ∧ row ∈ (s.stage reverse n).run E}

include ht hn in
theorem Transferred.mem_stageRows :
    row ∈ stageRows E s p reverse x ↔ row ∈ (s.stage reverse n).run E := by
  constructor
  · rintro ⟨m,hm,hrow⟩
    rwa [ht.node_eq hn hm]
  · exact fun hrow => ⟨n,hn,hrow⟩

include ht h hd hE hn in
/-- A pass at one relation is a semijoin with each neighbour it comes from. -/
theorem Transferred.stage_iff :
    row ∈ stageRows E s p reverse x ↔ row ∈ (s.stageInput reverse n).run E ∧
      ∀ w, treeEdge reverse w x ∈ g → ∃ q ∈ stageRows E s p reverse w,
        Agree (attributesOf attr p) (attributeValue attr p) x row w q := by
  rw [ht.mem_stageRows hn,ht.mem_stage hE hn]
  · refine and_congr_right (fun _ => ⟨fun hall w hw => ?_,fun hall t hmem hr hx src hsrc => ?_⟩)
    · have hmem : w ∈ (nodesOf p).map Prod.fst := by
        rw [h.natural.ids_eq,← h.ids_eq sorted]
        apply hd.growth.members_subset hd.rooted
        have hends := hd.growth.rootedTree.ends_mem _ hw
        cases reverse with
        | true => exact hends.1
        | false => exact hends.2
      obtain ⟨⟨w,src⟩,hsrc,rfl⟩ := mem_map.mp hmem
      obtain ⟨m,hm⟩ := Option.ne_none_iff_exists'.mp (ht.built.vertices _ hsrc)
      obtain ⟨e,he,hdest⟩ := hd.exists_edge _ _ m _ hm hw
      obtain ⟨t,hts,hr,hs,htar,-⟩ := ht.state.complete reverse w src
        (ht.scheduled hsrc reverse) hsrc m e hm he
      subst hs
      obtain ⟨q,hq,hagree⟩ := (ht.hit_iff h hd hts).mp
        (hall t hts hr (htar.trans hdest) src hsrc)
      rw [htar,hdest] at hagree
      exact ⟨q,(ht.mem_stageRows hsrc).mpr hq,hagree⟩
    · obtain ⟨hedge,-⟩ := ht.along_tree h hd hmem
      rw [hr,hx] at hedge
      obtain ⟨q,hq,hagree⟩ := hall t.source hedge
      rw [ht.hit_iff h hd hmem,hx]
      exact ⟨q,(ht.mem_stageRows hsrc).mp hq,hagree⟩
  · intro t hmem hr hx src hsrc
    obtain ⟨hedge,-⟩ := ht.along_tree h hd hmem
    rw [hr,hx] at hedge
    exact hd.before h.wellFormed hedge hsrc hn

include ht h hd hE in
theorem Transferred.reduction :
    Reduction (attributesOf attr p) (attributeValue attr p) root g (baseRows E p)
      (stageRows E s p false) (stageRows E s p true) := by
  have hnode : ∀ x ∈ members root g, ∃ n, (x, n) ∈ nodesOf p := by
    intro x hx
    have hid : x ∈ (nodesOf p).map Prod.fst := by
      rw [h.natural.ids_eq,← h.ids_eq sorted]
      exact hd.growth.members_subset hd.rooted hx
    obtain ⟨⟨x,n⟩,hn,rfl⟩ := mem_map.mp hid
    exact ⟨n,hn⟩
  constructor
  · intro x hx r
    obtain ⟨n,hn⟩ := hnode x hx
    rw [ht.stage_iff h hd hE hn]
    refine and_congr_left (fun _ => ?_)
    rw [stageInput,ht.run_insertBelow h.natural hn]
    refine ⟨fun hr => ⟨n,hn,hr⟩,fun ⟨m,hm,hr⟩ => ?_⟩
    rwa [ht.node_eq hn hm]
  · intro x hx r
    obtain ⟨n,hn⟩ := hnode x hx
    rw [ht.stage_iff h hd hE hn,ht.mem_stageRows hn]
    rfl

end Tree

section TakesPart

variable {A : Type*} {attr : ColumnBinding → A} {p q : LogicalOperator} {cmp : ComparisonType}
  {E : Execution}

/-- Some row of the whole plan shows this row of the relation. -/
def takesPart (E : Execution) (plan n : LogicalOperator) (row : Row) : Bool :=
  (plan.run E).any (fun o => n.getColumnBindings.all (fun c => o c = row c))

theorem takesPart_iff : takesPart E plan n row = true ↔
    ∃ o ∈ plan.run E, ∀ c ∈ n.getColumnBindings, o c = row c := by
  simp [takesPart]

theorem Choice.congr (h : Choice attr E q ρ) (hcols : q.getColumnBindings = p.getColumnBindings)
    (htables : q.tableIndices = p.tableIndices) (hnodes : nodesOf q = nodesOf p) :
    Choice attr E p ρ := by
  refine ⟨fun x hx => ?_,fun c hc c' hc' => ?_⟩
  · have hmem := h.mem x (htables ▸ hx)
    simpa only [baseRows,hnodes] using hmem
  · exact h.agree c (hcols ▸ hc) c' (hcols ▸ hc')

theorem NaturalJoin.takesPart_iff (h : NaturalJoin attr cmp p) (hnd : p.tableIndices.Nodup)
    (hcmp : ComparesEqual attr cmp E p)
    (hcols : ∀ c, c ∈ n.getColumnBindings ↔ c ∈ p.getColumnBindings ∧ c.tableIndex = x)
    (hrow : row ∈ baseRows E p x) :
    takesPart E p n row = true ↔ ∃ ρ, Choice attr E p ρ ∧ ρ x = row := by
  rw [Transfer.takesPart_iff]
  constructor
  · rintro ⟨o,ho,hshow⟩
    obtain ⟨ρ,hρ,hval⟩ := h.exists_choice hnd hcmp ho
    -- the row may differ from the chosen one where the relation has no column
    have hsame : ∀ c ∈ p.getColumnBindings,
        update ρ x row c.tableIndex c = ρ c.tableIndex c := by
      intro c hc
      rw [update_apply]
      split
      · rename_i hx
        rw [← hshow c ((hcols c).mpr ⟨hc,hx⟩),hval c hc]
      · rfl
    refine ⟨update ρ x row,⟨fun y hy => ?_,fun c hc c' hc' ht he => ?_⟩,
      update_self _ _ _⟩
    · rw [update_apply]
      split
      · rename_i hx
        exact hx ▸ hrow
      · exact hρ.mem y hy
    · rw [hsame c hc,hsame c' hc']
      exact hρ.agree c hc c' hc' ht he
  · rintro ⟨ρ,hρ,rfl⟩
    obtain ⟨o,ho,hval⟩ := h.exists_row hnd hcmp hρ
    refine ⟨o,ho,fun c hc => ?_⟩
    obtain ⟨hcp,hx⟩ := (hcols c).mp hc
    rw [hval c hcp,hx]

/-- A single relation is the whole plan. -/
theorem NaturalJoin.single (h : NaturalJoin attr .equal p) (hone : p.tableIndices.length < 2) :
    ∃ t, nodesOf p = [(t, p)] ∧ Transfer.nullSafe p = p := by
  have hpos : ∀ {q}, NaturalJoin attr .equal q → 1 ≤ q.tableIndices.length := by
    intro q hq
    induction hq with
    | get t n | filter e es t n => exact Nat.le_refl 1
    | join hop _ _ _ _ ihl _ =>
      rw [hop.tables,length_append]
      omega
  cases h with
  | get t n | filter e es t n => exact ⟨t,rfl,rfl⟩
  | join hop _ _ hl hr =>
    rw [hop.tables,length_append] at hone
    have := hpos hl
    have := hpos hr
    omega

variable [DecidableEq A]

theorem AcyclicJoin.solution_iff (h : AcyclicJoin attr p)
    (hrels : ∀ x, x ∈ rels ↔ x ∈ p.tableIndices) :
    Solution (attributesOf attr p) (attributeValue attr p) (baseRows E p) rels ρ ↔
      Choice attr E p ρ := by
  constructor
  · intro hρ
    refine ⟨fun x hx => hρ.mem x ((hrels x).mpr hx),fun c hc c' hc' _ he => ?_⟩
    exact h.agree_iff.mp
      (hρ.agree _ ((hrels _).mpr (tableIndex_mem hc))
        _ ((hrels _).mpr (tableIndex_mem hc')))
      c (mem_columnsOf.mpr ⟨hc,rfl⟩) c' (mem_columnsOf.mpr ⟨hc',rfl⟩) he
  · intro hρ
    refine ⟨fun x hx => hρ.mem x ((hrels x).mp hx),fun x hx y hy => ?_⟩
    by_cases hxy : x = y
    · subst hxy
      exact fun _ _ => rfl
    rw [h.agree_iff]
    intro c hc c' hc' he
    obtain ⟨hcp,rfl⟩ := mem_columnsOf.mp hc
    obtain ⟨hcp',rfl⟩ := mem_columnsOf.mp hc'
    exact hρ.agree c hcp c' hcp' hxy he

end TakesPart

section FullReduction

variable {A : Type*} [DecidableEq A] {attr : ColumnBinding → A} {p : LogicalOperator}

/-- Two or more connected relations get a tree. -/
theorem AcyclicJoin.build_tree (h : AcyclicJoin attr p) (ctx : Context)
    (hmany : 2 ≤ p.tableIndices.length) : (build ctx p).2 = true ∧
      ∃ sorted root g, TreeDag (edgesOf p sorted) (build ctx p).1 root g := by
  have hnodes : (extractNodes {} p).nodes = nodesOf p := extracted_nodes h.wellFormed
  have hids : (nodesOf p).map Prod.fst = p.tableIndices := h.natural.ids_eq
  have hlen : ¬ (extractNodes {} p).nodes.length < 2 := by
    rw [hnodes,← length_map (f := Prod.fst),hids]
    omega
  obtain ⟨x,y,rest,hrels⟩ : ∃ x y rest, p.tableIndices = x :: y :: rest := by
    match hp : p.tableIndices, hmany with
    | x :: y :: rest, _ => exact ⟨x,y,rest,rfl⟩
  generalize hsort : ctx.sort ((extractNodes {} p).nodes.map Prod.snd) = sorted
  have hconn := h.edges_connected sorted
  have hedges : (edgesOf p sorted).filtersAndBindings ≠ [] := by
    intro hnil
    have hnone : ∀ key, (edgesOf p sorted).filtersAt key = [] := by
      simp [DAGManager.filtersAt,hnil]
    have hreach := hconn x (by simp [h.ids_eq,hrels]) y (by simp [h.ids_eq,hrels])
    have hne : x ≠ y := by
      have hnd := h.wellFormed.unique
      rw [hrels,nodup_cons] at hnd
      exact fun he => hnd.1 (he ▸ mem_cons_self)
    obtain ⟨u,-,v,-,⟨-,huv⟩,-⟩ := exists_last_exit (C := {x}) hreach rfl hne.symm
    exact huv (hnone (u, v))
  have hbuild : build ctx p = ((edgesOf p sorted).createDAG ctx, true) := by
    unfold build
    rw [if_neg hlen,hsort]
    change (if (edgesOf p sorted).filtersAndBindings.isEmpty then _ else _) = _
    exact if_neg (by simpa using hedges)
  rw [hbuild]
  refine ⟨rfl,sorted,?_⟩
  apply createDAG_tree ctx (growing_extractEdges _ _) ?_ ?_ rfl rfl hconn
    (h.natural.innerEdges h.wellFormed)
  · change (edgesOf p sorted).ids.Nodup
    rw [h.ids_eq]
    exact h.wellFormed.unique
  · intro hnil
    change (extractNodes {} p).nodes = [] at hnil
    simp [hnil] at hlen

section

variable (ht : Transferred p d ts s) (h : AcyclicJoin attr p)
  (hd : TreeDag (edgesOf p sorted) d root g) (hE : Exact E (s.insertCreateBFOperator p))
  (hn : (x, n) ∈ nodesOf p)
include ht h hd hE hn

/-- The rows left at a relation are those a choice has. -/
theorem Transferred.mem_inserted_iff :
    row ∈ (s.insertCreateBFOperator n).run E ↔ ∃ ρ, Choice attr E p ρ ∧ ρ x = row := by
  have hrels : ∀ y, y ∈ members root g ↔ y ∈ p.tableIndices := by
    intro y
    rw [← h.ids_eq sorted]
    exact ⟨fun hy => hd.growth.members_subset hd.rooted hy,hd.covers y⟩
  have hx : x ∈ members root g := by
    rw [hrels,← h.natural.ids_eq]
    exact mem_map.mpr ⟨_,hn,rfl⟩
  have hears : Ears (attributesOf attr p) root g := by
    refine (hd.growth.congr hd.rooted (fun u _ v _ hne => h.filtersAt_length sorted hne)).ears
      hd.rooted ?_
    rw [h.ids_eq]
    exact h.acyclic
  rw [← stage_true,← ht.mem_stageRows hn,(ht.reduction h hd hE).mem_down_iff hears hx]
  exact exists_congr (fun ρ => and_congr_left (fun _ => h.solution_iff hrels))

theorem Transferred.run_eq_takesPart {cmp : ComparisonType} (hq : NaturalJoin attr cmp q)
    (hcols : q.getColumnBindings = p.getColumnBindings) (htables : q.tableIndices = p.tableIndices)
    (hnodes : nodesOf q = nodesOf p) (hcmp : ComparesEqual attr cmp E q) :
    (s.insertCreateBFOperator n).run E = (n.run E).filter (takesPart E q n) := by
  have hrun := ht.run_inserted E n
  rw [ht.run_insertBelow h.natural hn] at hrun
  rw [hrun]
  apply filter_congr
  intro r hr
  have hbase : r ∈ baseRows E q x := ⟨n,hnodes ▸ hn,hr⟩
  have hnode : ∀ c, c ∈ n.getColumnBindings ↔ c ∈ q.getColumnBindings ∧ c.tableIndex = x := by
    intro c
    rw [hcols]
    exact h.natural.node_columns h.wellFormed hn
  have hkept : (s.chainAt n).all (letsThrough E r) = true ↔
      r ∈ (s.insertCreateBFOperator n).run E := by
    rw [hrun,mem_filter]
    exact (and_iff_right hr).symm
  rw [Bool.eq_iff_iff,hkept,ht.mem_inserted_iff h hd hE hn,
    hq.takesPart_iff (htables ▸ h.wellFormed.unique) hcmp hnode hbase]
  refine exists_congr (fun ρ => and_congr_left (fun _ => ⟨fun hρ => ?_,fun hρ => ?_⟩))
  · exact hρ.congr hcols.symm htables.symm hnodes.symm
  · exact hρ.congr hcols htables hnodes

end

/-- With exact filters the passes reduce every relation to the rows that take
part in the join. NULL is an ordinary value for a filter, so the join to compare
with treats it as one; on keys without NULL that is the query's own join. -/
theorem transfer_fullReduction (ctx : Context) (h : AcyclicJoin attr p) :
    ∃ s, transferPasses { dagManager := (build ctx p).1 } = .ok s ∧
      optimize ctx p = .ok (s.insertCreateBFOperator p) ∧
      ∀ E, Exact E (s.insertCreateBFOperator p) → ∀ x n, (x, n) ∈ (extractNodes {} p).nodes →
        s.insertCreateBFOperator n ∈ (s.insertCreateBFOperator p).subplans ∧
        (s.insertCreateBFOperator n).run E = (n.run E).filter (takesPart E (nullSafe p) n) ∧
        (KeysNotNull attr E p →
          (s.insertCreateBFOperator n).run E = (n.run E).filter (takesPart E p n)) := by
  by_cases hmany : 2 ≤ p.tableIndices.length
  · obtain ⟨hbuild,sorted,root,g,hd⟩ := h.build_tree ctx hmany
    obtain ⟨s,ts,hs,ht⟩ := transferred_of_build ctx h.wellFormed hbuild
    refine ⟨s,hs,by unfold optimize; rw [hs]; rfl,fun E hE x n hn => ?_⟩
    rw [extracted_nodes h.wellFormed] at hn
    refine ⟨?_,?_,fun hkeys => ?_⟩
    · apply stage_subplans hn true
      rw [stage_true]
      exact self_mem_subplans _
    · obtain ⟨hnat,hcols,htables,hnodes⟩ := h.natural.nullSafe
      exact ht.run_eq_takesPart h hd hE hn hnat hcols htables hnodes (comparesEqual_nullSafe E _)
    · exact ht.run_eq_takesPart h hd hE hn h.natural rfl rfl rfl hkeys.comparesEqual
  · obtain ⟨t,hone,hsafe⟩ := h.natural.single (by omega)
    have hbuild : (build ctx p).2 = false := by
      unfold build
      rw [if_pos]
      rw [extracted_nodes h.wellFormed,hone]
      exact Nat.one_lt_two
    refine ⟨_,transferPasses_of_not_built ctx h.wellFormed hbuild,?_,fun E _ x n hn => ?_⟩
    · rw [insertCreateBFOperator_start]
      exact optimize_of_not_built ctx h.wellFormed hbuild
    rw [extracted_nodes h.wellFormed,hone] at hn
    obtain ⟨-,rfl⟩ := Prod.mk.inj (mem_singleton.mp hn)
    have hall : n.run E = (n.run E).filter (takesPart E n n) := by
      refine (filter_eq_self.mpr (fun r hr => ?_)).symm
      exact takesPart_iff.mpr ⟨r,hr,fun _ _ => rfl⟩
    rw [insertCreateBFOperator_start,hsafe]
    exact ⟨self_mem_subplans _,hall,fun _ => hall⟩

/-- A chain of three relations. -/
def joinOfThree : LogicalOperator :=
  .binary (.comparisonJoin .inner 9 [equals ⟨1, 1⟩ ⟨2, 0⟩])
    (.binary (.comparisonJoin .inner 8 [equals ⟨0, 0⟩ ⟨1, 0⟩]) (.leaf (.get 0 1))
      (.leaf (.get 1 2)))
    (.leaf (.get 2 2))

/-- The second relation shares one attribute with each of the others. -/
def chainAttribute (c : ColumnBinding) : Nat := c.tableIndex + c.columnIndex - 1

theorem joinOfThree_acyclic : AcyclicJoin chainAttribute joinOfThree := by
  have hstep : ∀ e ∈ [(0, 1),(1, 0),(1, 2),(2, 1)],
      SharesAttribute chainAttribute joinOfThree e.1 e.2 := by
    unfold SharesAttribute
    decide
  refine ⟨⟨by decide,?_,?_⟩,?_,by decide,?_,?_⟩
  · simp [joinOfThree,equals,inScope,BinaryOp.inScope,conditionsInScope,
      getColumnBindings,LeafOp.getColumnBindings,mem_generateColumnBindings,
      BinaryOp.getColumnBindings,joinBindings]
  · simp [joinOfThree,noBF]
  · refine .join (.comparison 9 [(⟨1,1⟩,⟨2,0⟩)]) (by decide) ?_
      (.join (.comparison 8 [(⟨0,0⟩,⟨1,0⟩)]) (by decide) ?_ (.get 0 1) (.get 1 2)) (.get 2 2)
    · intro a b
      change _ ↔ a ∈ [⟨0,0⟩,⟨1,0⟩,⟨1,1⟩] ∧ b ∈ [⟨2,0⟩,⟨2,1⟩] ∧ _
      simp only [mem_cons,not_mem_nil,or_false,Prod.mk.injEq]
      constructor
      · rintro ⟨rfl,rfl⟩
        decide
      · rintro ⟨rfl | rfl | rfl,rfl | rfl,h⟩ <;> first | exact ⟨rfl,rfl⟩ |
          exact absurd h (by decide)
    · intro a b
      change _ ↔ a ∈ [⟨0,0⟩] ∧ b ∈ [⟨1,0⟩,⟨1,1⟩] ∧ _
      simp only [mem_cons,not_mem_nil,or_false,Prod.mk.injEq]
      constructor
      · rintro ⟨rfl,rfl⟩
        decide
      · rintro ⟨rfl,rfl | rfl,h⟩
        · exact ⟨rfl,rfl⟩
        · exact absurd h (by decide)
  · have hmiddle : ∀ x ∈ joinOfThree.tableIndices,
        Reach (SharesAttribute chainAttribute joinOfThree) x 1 ∧
          Reach (SharesAttribute chainAttribute joinOfThree) 1 x := by
      intro x hx
      change x ∈ [0,1,2] at hx
      simp only [mem_cons,not_mem_nil,or_false] at hx
      rcases hx with rfl | rfl | rfl
      · exact ⟨.single (hstep (0, 1) (by decide)),.single (hstep (1, 0) (by decide))⟩
      · exact ⟨.refl,.refl⟩
      · exact ⟨.single (hstep (2, 1) (by decide)),.single (hstep (1, 2) (by decide))⟩
    exact fun x hx y hy => (hmiddle x hx).1.trans (hmiddle y hy).2
  · exact ⟨[2,1,0],by decide,.ear (z := 1) (.ear (z := 0) (.single 0) (by decide) (by decide)
      (by decide)) (by decide) (by decide) (by decide)⟩

/-- One row of each table finds partners in both others. -/
def chainExecution : Execution :=
  { (default : Interpretation) with
    tables := fun t => ([[[1], [2]], [[1, 5], [2, 6], [3, 5]], [[5, 0], [7, 0]]].getD t []).map
      fun row c => .integer (row.getD c 0)
    keep := fun id row => match id with
      | 0 => row ⟨1, 0⟩ = .integer 1 || row ⟨1, 0⟩ = .integer 2
      | 1 => row ⟨2, 0⟩ = .integer 5 || row ⟨2, 0⟩ = .integer 6
      | 2 => row ⟨1, 1⟩ = .integer 5
      | _ => row ⟨0, 0⟩ = .integer 1 }

theorem joinOfThree_reduced : AcyclicJoin chainAttribute joinOfThree ∧
    (∃ plan, optimize default joinOfThree = .ok plan ∧ Exact chainExecution plan) ∧
    ∃ s, transferPasses { dagManager := (build default joinOfThree).1 } = .ok s ∧
      optimize default joinOfThree = .ok (s.insertCreateBFOperator joinOfThree) ∧
      ∀ E, Exact E (s.insertCreateBFOperator joinOfThree) →
        ∀ x n, (x, n) ∈ (extractNodes {} joinOfThree).nodes →
        s.insertCreateBFOperator n ∈ (s.insertCreateBFOperator joinOfThree).subplans ∧
        (s.insertCreateBFOperator n).run E =
          (n.run E).filter (takesPart E (nullSafe joinOfThree) n) ∧
        (KeysNotNull chainAttribute E joinOfThree →
          (s.insertCreateBFOperator n).run E = (n.run E).filter (takesPart E joinOfThree n)) := by
  have hexact : (optimize default joinOfThree).toOption.map
      (fun plan => decide (Exact chainExecution plan)) = some true := by decide +kernel
  obtain ⟨s,hrun,hopt,hall⟩ := transfer_fullReduction default joinOfThree_acyclic
  rw [hopt] at hexact
  exact ⟨joinOfThree_acyclic,⟨_,hopt,by simpa [Except.toOption] using hexact⟩,s,hrun,hopt,hall⟩

/-- Two relations of one column. -/
def joinOfTwo : LogicalOperator :=
  .binary (.comparisonJoin .inner 9 [equals ⟨0, 0⟩ ⟨1, 0⟩]) (.leaf (.get 0 1)) (.leaf (.get 1 1))

theorem joinOfTwo_acyclic : AcyclicJoin (fun _ => 0) joinOfTwo := by
  have hstep : ∀ e ∈ [(0, 1),(1, 0)], SharesAttribute (fun _ => 0) joinOfTwo e.1 e.2 := by
    unfold SharesAttribute
    decide
  refine ⟨⟨by decide,?_,?_⟩,?_,by decide,?_,?_⟩
  · simp [joinOfTwo,equals,inScope,BinaryOp.inScope,conditionsInScope,
      getColumnBindings,LeafOp.getColumnBindings,mem_generateColumnBindings]
  · simp [joinOfTwo,noBF]
  · refine .join (.comparison 9 [(⟨0,0⟩, ⟨1,0⟩)]) (by decide) ?_ (.get 0 1) (.get 1 1)
    intro a b
    change _ ↔ a ∈ [⟨0,0⟩] ∧ b ∈ [⟨1,0⟩] ∧ _
    simp
  · intro x hx y hy
    change x ∈ [0,1] at hx
    change y ∈ [0,1] at hy
    simp only [mem_cons,not_mem_nil,or_false] at hx hy
    rcases hx with rfl | rfl <;> rcases hy with rfl | rfl
    · exact .refl
    · exact .single (hstep (0, 1) (by decide))
    · exact .single (hstep (1, 0) (by decide))
    · exact .refl
  · exact ⟨[1,0],by decide,.ear (z := 0) (.single 0) (by decide) (by decide) (by decide)⟩

/-- Both relations hold one row, with a NULL; every filter keeps it. -/
def nullExecution : Execution :=
  { (default : Interpretation) with
    tables := fun _ => [fun _ => .null]
    keep := fun _ _ => true }

theorem joinOfTwo_keeps_null : AcyclicJoin (fun _ => 0) joinOfTwo ∧
    ∃ s, transferPasses { dagManager := (build default joinOfTwo).1 } = .ok s ∧
      Exact nullExecution (s.insertCreateBFOperator joinOfTwo) ∧
      (0, .leaf (.get 0 1)) ∈ (extractNodes {} joinOfTwo).nodes ∧
      ((s.insertCreateBFOperator (.leaf (.get 0 1))).run nullExecution).length = 1 ∧
      joinOfTwo.run nullExecution = [] :=
  ⟨joinOfTwo_acyclic,_,rfl,by decide,by decide,by decide,by decide⟩

end FullReduction

end PredTrans.Transfer
