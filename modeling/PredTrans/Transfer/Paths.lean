import PredTrans.Transfer.Schedule

namespace PredTrans.Transfer
open Plan PredicateTransferOptimizer List LogicalOperator Side

/-! What a column of the rewritten plan still says about the node it comes from:
its values are values of the node's rows, and on rows a test accepts it does not
matter which other rows a filter at the node has dropped. -/

section Executions

/-- The same execution with other filters. -/
def withKeep (E : Execution) (keep : Nat → Row → Bool) : Execution := { E with keep := keep }

theorem leafRows_withKeep (E : Execution) (keep : Nat → Row → Bool) (op : LeafOp) :
    op.rows (withKeep E keep) = op.rows E := by
  cases op <;> rfl

theorem unaryRows_withKeep (E : Execution) (keep : Nat → Row → Bool) {op : UnaryOp}
    (h : op.isBF = false) : op.rows (withKeep E keep) = op.rows E := by
  cases op <;> first | rfl | cases h

theorem binaryRows_withKeep (E : Execution) (keep : Nat → Row → Bool) (op : BinaryOp) :
    op.rows (withKeep E keep) = op.rows E := by
  cases op <;> rfl

/-- A plan's rows depend only on the filters it applies. -/
theorem run_withKeep (h : ∀ i ∈ usedFilters q, keep i = E.keep i) :
    q.run (withKeep E keep) = q.run E := by
  induction q with
  | leaf op => exact leafRows_withKeep E keep op
  | unary op c ih =>
    simp only [run]
    cases op with
    | useBF f a =>
      rw [ih (forall_mem_cons.mp h).2]
      have hf : (withKeep E keep).keep f.id = E.keep f.id := h _ mem_cons_self
      simp only [UnaryOp.rows,hf]
    | createBF a bfs => exact ih h
    | _ => rw [ih h,unaryRows_withKeep E keep rfl]
  | binary op l r ihl ihr =>
    simp only [run]
    rw [ihl (fun i hi => h i (mem_append_left _ hi)),
      ihr (fun i hi => h i (mem_append_right _ hi)),binaryRows_withKeep]

/-- What an operator of a chain lets through. -/
def letsThrough (E : Execution) (r : Row) : UnaryOp → Bool
  | .useBF f _ => E.keep f.id r
  | _ => true

theorem run_chain {chain : Chain} (h : ∀ op ∈ chain, op.isBF = true) (q : LogicalOperator) :
    (chain.foldr unary q).run E =
      (q.run E).filter (fun r => chain.all (letsThrough E r)) := by
  induction chain with
  | nil => simp
  | cons op chain ih =>
    have hop := h op mem_cons_self
    rw [foldr_cons]
    simp only [run,ih (forall_mem_cons.mp h).2,all_cons]
    cases op with
    | createBF a bfs => simp [UnaryOp.rows,letsThrough]
    | useBF f a => simp only [UnaryOp.rows,filter_filter,letsThrough]
    | _ => cases hop

theorem chain_getColumnBindings {chain : Chain} (h : ∀ op ∈ chain, op.isBF = true)
    (q : LogicalOperator) :
    (chain.foldr unary q).getColumnBindings = q.getColumnBindings := by
  induction chain with
  | nil => rfl
  | cons op chain ih =>
    have hop := h op mem_cons_self
    rw [foldr_cons,getColumnBindings,
      ih (forall_mem_cons.mp h).2]
    cases op <;> first | rfl | cases hop

end Executions

namespace Transferred

variable {p : LogicalOperator} {d₀ : DAGManager} {ts : List FilterTransfer}
  {s : PredicateTransferOptimizer} {q : LogicalOperator} {E : Execution}

section

variable (h : Transferred p d₀ ts s)
include h

theorem chain_isBF : ∀ op ∈ s.chainAt q, op.isBF = true := by
  intro op hop
  obtain ⟨id,reverse,hq,hm⟩ := h.exists_pass hop
  obtain ⟨uses,hch⟩ := h.state.chains reverse id q (h.scheduled hq reverse) hq
  obtain ⟨creates,he,hcreates⟩ := hch.shape
  rw [he] at hm
  rcases mem_append.mp hm with hm | hm
  · rcases hcreates with rfl | ⟨bfs,rfl⟩
    · cases hm
    · rw [mem_singleton.mp hm]
      rfl
  · obtain ⟨t,-,rfl⟩ := mem_map.mp hm
    rfl

theorem inserted_getColumnBindings (q : LogicalOperator) :
    (s.insertCreateBFOperator q).getColumnBindings = q.getColumnBindings := by
  induction q with
  | leaf op => rw [insertCreateBFOperator_eq,chain_getColumnBindings h.chain_isBF]; rfl
  | unary op c ih =>
    rw [insertCreateBFOperator_eq,chain_getColumnBindings h.chain_isBF]
    simp only [insertBelow,getColumnBindings,ih]
  | binary op l r ihl ihr =>
    rw [insertCreateBFOperator_eq,chain_getColumnBindings h.chain_isBF]
    simp only [insertBelow,getColumnBindings,ihl,ihr]

theorem run_inserted (E : Execution) (q : LogicalOperator) :
    (s.insertCreateBFOperator q).run E =
      ((s.insertBelow q).run E).filter (fun r => (s.chainAt q).all (letsThrough E r)) := by
  rw [insertCreateBFOperator_eq,run_chain h.chain_isBF]

theorem run_inserted_of_not_node (E : Execution) (hq : ∀ id, (id, q) ∉ nodesOf p) :
    (s.insertCreateBFOperator q).run E = (s.insertBelow q).run E := by
  rw [insertCreateBFOperator_eq,h.chainAt_eq_nil hq]
  rfl

/-- If no filter drops a row, the rewritten plan returns the rows of the plan. -/
theorem run_inserted_keepAll (E : Execution) (hq : q.noBF) :
    (s.insertCreateBFOperator q).run (withKeep E (fun _ _ => true)) = q.run E := by
  have hchain : ∀ (q : LogicalOperator) (rows : List Row), rows.filter (fun r =>
      (s.chainAt q).all (letsThrough (withKeep E (fun _ _ => true)) r)) = rows := by
    intro q rows
    apply filter_eq_self.mpr
    intro r _
    apply all_eq_true.mpr
    intro op _
    cases op <;> rfl
  induction q with
  | leaf op =>
    rw [h.run_inserted,hchain]
    exact leafRows_withKeep E _ op
  | unary op c ih =>
    rw [h.run_inserted,hchain]
    simp only [insertBelow,run,ih hq.2,unaryRows_withKeep E _ hq.1]
  | binary op l r ihl ihr =>
    rw [h.run_inserted,hchain]
    simp only [insertBelow,run,ihl hq.1,ihr hq.2,binaryRows_withKeep,
      h.inserted_getColumnBindings]

end

end Transferred

section Paths

/-- Every operator between a column and its origin satisfies a condition. -/
def pathAll (unary : UnaryOp → ColumnBinding → Bool) (binary : BinaryOp → Side → Bool) :
    LogicalOperator → ColumnBinding → Bool
  | .leaf _, _ => true
  | .unary op child, c =>
    match sourceColumn op c with
    | some b => unary op c && pathAll unary binary child b
    | none => true
  | .binary op l r, c =>
    match sourceSide op l.getColumnBindings r.getColumnBindings c with
    | some .left => binary op .left && pathAll unary binary l c
    | some .right => binary op .right && pathAll unary binary r c
    | none => true

/-- The column's values are copies of values of its origin. -/
def copyPath : LogicalOperator → ColumnBinding → Bool :=
  pathAll (fun op _ => UnaryOp.copies op) (fun op _ => BinaryOp.copies op)

/-- A test of the column may be made at its origin. -/
def transparentPath : LogicalOperator → ColumnBinding → Bool :=
  pathAll UnaryOp.transparent BinaryOp.transparent

variable {p q : LogicalOperator} {x : Nat} {n : LogicalOperator}

theorem origin_node (hid : nodeId? q = some x) (c : ColumnBinding) : origin q c = c := by
  cases q with
  | leaf op => rfl
  | unary op child =>
    cases op with
    | filter e es =>
      have hscan : scanTable child = some x := hid
      unfold scanTable at hscan
      split at hscan <;> first | rfl | cases hscan
    | aggregate g a gs groups aggregates sets functions =>
      simp only [nodeId?] at hid
      split at hid
      · rename_i hu
        simp [origin,sourceColumn,hu]
      · cases hid
    | tableFunction t k f => rfl
    | _ => cases hid
  | binary op l r =>
    cases op with
    | setOperation kind t k => rfl
    | _ => cases hid

theorem mem_nodesOf_self (h : nodeId? q = some x) : (x, q) ∈ nodesOf q := by
  have hown : (x, q) ∈ ownNode q := mem_ownNode.mpr ⟨h,rfl⟩
  cases q with
  | leaf op => exact hown
  | unary op child =>
    cases op with
    | filter e es =>
      have hscan : scanTable child = some x := h
      simp only [nodesOf,hscan,Option.isSome_some,if_true]
      exact hown
    | tableFunction t k f => exact hown
    | _ => exact mem_append_right _ hown
  | binary op l r => exact mem_append_left _ hown

/-- A node whose id occurs below a visited operator lies below it. -/
theorem node_mem_of_visited (hwf : p.WellFormed) (hq : q ∈ visited p) (hn : (x, n) ∈ nodesOf p)
    (hx : x ∈ q.tableIndices) : n ∈ q.subplans := by
  obtain ⟨hqsub,hnodes,-⟩ := visited_spec hq
  obtain ⟨hnsub,hnid⟩ := nodesOf_spec hn
  refine (comparable_of_table hwf hnsub hqsub (nodeId?_mem hnid) hx).elim id (fun hin => ?_)
  by_cases hid : nodeId? q = some x
  · rw [node_unique hwf hn (hnodes (mem_nodesOf_self hid))]
    exact q.self_mem_subplans
  · refine absurd hx (nodeId?_not_mem_below (hwf.of_mem hnsub) hnid hin ?_ hid)
    rintro rfl
    exact hid hnid

/-- An operator that shows a column of `n` from above is no node. -/
theorem not_node_of_path (hwf : p.WellFormed) (hq : q ∈ p.subplans)
    (hn : nodeId? n = some x → (x, n) ∈ nodesOf p) (hxn : x ∈ n.tableIndices)
    (hmem : n ∈ q.subplans) (hne : n ≠ q) (hc : c ∈ q.getColumnBindings)
    (hx : (origin q c).tableIndex = x) (i : Nat) : (i, q) ∉ nodesOf p := by
  intro hi
  have hid := (nodesOf_spec hi).2
  rcases origin_of_node (hwf.of_mem hq) hid hc with he | hbelow
  · obtain rfl : i = x := he.symm.trans hx
    by_cases hnid : nodeId? n = some i
    · exact hne (node_unique hwf (hn hnid) hi)
    · exact nodeId?_not_mem_below (hwf.of_mem hq) hid hmem hne hnid hxn
  · exact hbelow n hmem hne (hx ▸ hxn)

end Paths

section Provenance

variable {p q n : LogicalOperator} {d₀ : DAGManager} {ts : List FilterTransfer}
  {s : PredicateTransferOptimizer} {x : Nat} {cs : List ColumnBinding}

/-- Above the node all columns of an operator's input with this origin are handed on. -/
theorem sourceColumn_of_path (hwf : (unary op child).WellFormed)
    (hx : x ∈ child.tableIndices) (hc : c ∈ (unary op child).getColumnBindings)
    (hcx : (origin (.unary op child) c).tableIndex = x) :
    ∃ b ∈ child.getColumnBindings, sourceColumn op c = some b ∧
      origin (.unary op child) c = origin child b := by
  cases hs : sourceColumn op c with
  | none =>
    simp only [origin,hs,Option.elim_none] at hcx
    exact absurd hx (hwf.own_not_mem (hcx ▸ own_of_sourceColumn_none hc hs))
  | some b =>
    refine ⟨b,mem_child_of_sourceColumn hwf.inScope.1 hc hs,rfl,?_⟩
    simp only [origin,hs,Option.elim_some]

def Side.input (l r : LogicalOperator) : Side → LogicalOperator
  | .left => l
  | .right => r

theorem input_mem (hq : .binary op l r ∈ p.subplans) : ∀ side, input l r side ∈ p.subplans
  | .left => left_mem hq
  | .right => right_mem hq

theorem exists_side (hmem : n ∈ (binary op l r).subplans) (he : n ≠ .binary op l r) :
    ∃ side, n ∈ (input l r side).subplans :=
  (mem_append.mp ((mem_cons.mp hmem).resolve_left he)).elim (⟨.left,·⟩) (⟨.right,·⟩)

theorem sourceSide_of_path (hwf : (binary op l r).WellFormed)
    (hx : x ∈ (input l r side).tableIndices)
    (hc : c ∈ (binary op l r).getColumnBindings)
    (hcx : (origin (.binary op l r) c).tableIndex = x) :
    sourceSide op l.getColumnBindings r.getColumnBindings c = some side := by
  cases hs : sourceSide op l.getColumnBindings r.getColumnBindings c with
  | none =>
    simp only [origin,hs] at hcx
    have hop := hcx ▸ own_of_sourceSide_none hc hs
    cases side with
    | left => exact absurd hx (hwf.own_not_mem_left hop)
    | right => exact absurd hx (hwf.own_not_mem_right hop)
  | some side' =>
    cases side' with
    | left =>
      simp only [origin,hs] at hcx
      have hxl : x ∈ l.tableIndices := hcx ▸ origin_table_mem hwf.left (sourceSide_left hs)
      cases side with
      | left => rfl
      | right => exact absurd hx (hwf.sides_disjoint hxl)
    | right =>
      simp only [origin,hs] at hcx
      have hxr : x ∈ r.tableIndices := hcx ▸ origin_table_mem hwf.right (sourceSide_right hs).2
      cases side with
      | left => exact absurd hxr (hwf.sides_disjoint hx)
      | right => rfl

variable {unary : UnaryOp → ColumnBinding → Bool} {binary : BinaryOp → Side → Bool}

/-- Columns visible at an operator that all stem from `x`, along an allowed path. -/
def Tracked (path : LogicalOperator → ColumnBinding → Bool) (x : Nat) (q : LogicalOperator)
    (cs : List ColumnBinding) : Prop :=
  ∀ c ∈ cs, c ∈ q.getColumnBindings ∧ (origin q c).tableIndex = x ∧ path q c = true

theorem Tracked.child {child : LogicalOperator}
    (hcs : Tracked (pathAll unary binary) x (.unary op child) cs)
    (hwf : (LogicalOperator.unary op child).WellFormed) (hx : x ∈ child.tableIndices) :
    ∃ f : ColumnBinding → ColumnBinding, Tracked (pathAll unary binary) x child (cs.map f) ∧
      ∀ c ∈ cs, sourceColumn op c = some (f c) ∧ unary op c = true ∧
        origin (.unary op child) c = origin child (f c) := by
  have hsrc := fun c hc => sourceColumn_of_path hwf hx (hcs c hc).1 (hcs c hc).2.1
  choose! f hf using hsrc
  have hpath : ∀ c ∈ cs, unary op c = true ∧ pathAll unary binary child (f c) = true := by
    intro c hc
    have hp := (hcs c hc).2.2
    simp only [pathAll,(hf c hc).2.1,Bool.and_eq_true] at hp
    exact hp
  refine ⟨f,?_,fun c hc => ⟨(hf c hc).2.1,(hpath c hc).1,(hf c hc).2.2⟩⟩
  intro b hb
  obtain ⟨c,hc,rfl⟩ := mem_map.mp hb
  exact ⟨(hf c hc).1,(hf c hc).2.2 ▸ (hcs c hc).2.1,(hpath c hc).2⟩

theorem Tracked.side (hcs : Tracked (pathAll unary binary) x (.binary op l r) cs)
    (hwf : (LogicalOperator.binary op l r).WellFormed) (side : Side)
    (hx : x ∈ (input l r side).tableIndices) :
    Tracked (pathAll unary binary) x (input l r side) cs ∧
      ∀ c ∈ cs, sourceSide op l.getColumnBindings r.getColumnBindings c = some side ∧
        binary op side = true ∧ origin (.binary op l r) c = origin (input l r side) c := by
  have hside := fun c hc => sourceSide_of_path hwf hx (hcs c hc).1 (hcs c hc).2.1
  have hpath : ∀ c ∈ cs, binary op side = true ∧
      pathAll unary binary (input l r side) c = true := by
    intro c hc
    have hp := (hcs c hc).2.2
    cases side <;> simp only [pathAll,hside c hc,Bool.and_eq_true] at hp <;> exact hp
  have horigin : ∀ c ∈ cs, origin (.binary op l r) c = origin (input l r side) c := by
    intro c hc
    cases side <;> simp only [origin,hside c hc,input]
  refine ⟨fun c hc => ⟨?_,horigin c hc ▸ (hcs c hc).2.1,(hpath c hc).2⟩,
    fun c hc => ⟨hside c hc,(hpath c hc).1,horigin c hc⟩⟩
  cases side with
  | left => exact sourceSide_left (hside c hc)
  | right => exact (sourceSide_right (hside c hc)).2

theorem rows_provenance (h : Transferred p d₀ ts s) (E : Execution) (hq : q ∈ p.subplans)
    (hn : (x, n) ∈ nodesOf p) (hmem : n ∈ q.subplans) (hcs : Tracked copyPath x q cs) {row : Row}
    (hrow : row ∈ (s.insertCreateBFOperator q).run E) :
    (∀ c ∈ cs, row c = .null) ∨ ∃ r₀ ∈ (s.insertCreateBFOperator n).run E,
      ∀ c ∈ cs, row c = .null ∨ row c = r₀ (origin q c) := by
  rcases eq_or_ne cs [] with rfl | hne
  · exact .inl nofun
  have hxn := nodeId?_mem (nodesOf_spec hn).2
  induction q generalizing cs row with
  | leaf op =>
    obtain rfl := mem_singleton.mp hmem
    exact .inr ⟨row,hrow,fun c _ => .inr (by rw [origin_node (nodesOf_spec hn).2])⟩
  | unary op child ih =>
    by_cases he : n = .unary op child
    · subst he
      exact .inr ⟨row,hrow,fun c _ => .inr (by rw [origin_node (nodesOf_spec hn).2])⟩
    have hnc : n ∈ child.subplans := (mem_cons.mp hmem).resolve_left he
    have hx := tableIndices_subset hnc hxn
    obtain ⟨c₀,hc₀⟩ := exists_mem_of_ne_nil cs hne
    rw [h.run_inserted_of_not_node E (not_node_of_path h.wellFormed hq (fun _ => hn) hxn hmem he
      (hcs c₀ hc₀).1 (hcs c₀ hc₀).2.1)] at hrow
    obtain ⟨f,htracked,hf⟩ := hcs.child (h.wellFormed.of_mem hq) hx
    rcases rows_source child.getColumnBindings (hf c₀ hc₀).2.1 hrow with
      hnull | ⟨r',hr',hcopy⟩
    · exact .inl (fun c hc => hnull c _ (hcs c hc).1 (hf c hc).1)
    · have hcopy := fun c hc => hcopy c _ (hcs c hc).1 (hf c hc).1
      rcases ih (child_mem hq) hnc htracked hr' (by simpa using hne) with
        hnull | ⟨r₀,hr₀,hval⟩
      · refine .inl (fun c hc => (hcopy c hc).elim id (fun he => ?_))
        rw [he,hnull _ (mem_map_of_mem hc)]
      · refine .inr ⟨r₀,hr₀,fun c hc => (hcopy c hc).elim .inl (fun he => ?_)⟩
        rw [he,(hf c hc).2.2]
        exact hval _ (mem_map_of_mem hc)
  | binary op l r ihl ihr =>
    by_cases he : n = .binary op l r
    · subst he
      exact .inr ⟨row,hrow,fun c _ => .inr (by rw [origin_node (nodesOf_spec hn).2])⟩
    obtain ⟨c₀,hc₀⟩ := exists_mem_of_ne_nil cs hne
    have hwf := h.wellFormed.of_mem hq
    rw [h.run_inserted_of_not_node E (not_node_of_path h.wellFormed hq (fun _ => hn) hxn hmem he
      (hcs c₀ hc₀).1 (hcs c₀ hc₀).2.1)] at hrow
    simp only [insertBelow,run,h.inserted_getColumnBindings] at hrow
    obtain ⟨side,hside⟩ := exists_side hmem he
    obtain ⟨htracked,hf⟩ := hcs.side hwf side (tableIndices_subset hside hxn)
    rcases binaryRows_source (fun side => (s.insertCreateBFOperator (input l r side)).run E)
      hwf.columns_disjoint hwf.left_columns_not_own hwf.right_columns_not_own (hf c₀ hc₀).2.1
      hrow side with hnull | ⟨r',hr',hcopy⟩
    · exact .inl (fun c hc => hnull c (hcs c hc).1 (hf c hc).1)
    · have hcopy := fun c hc => hcopy c (hcs c hc).1 (hf c hc).1
      have hbelow : (∀ c ∈ cs, r' c = .null) ∨ ∃ r₀ ∈ (s.insertCreateBFOperator n).run E,
          ∀ c ∈ cs, r' c = .null ∨ r' c = r₀ (origin (input l r side) c) := by
        cases side with
        | left => exact ihl (input_mem hq .left) hside htracked hr' hne
        | right => exact ihr (input_mem hq .right) hside htracked hr' hne
      rcases hbelow with hnull | ⟨r₀,hr₀,hval⟩
      · exact .inl (fun c hc => (hcopy c hc).trans (hnull c hc))
      · refine .inr ⟨r₀,hr₀,fun c hc => ?_⟩
        rw [hcopy c hc,(hf c hc).2.2]
        exact hval c hc

end Provenance

section Commutation

variable {p q n : LogicalOperator} {d₀ : DAGManager} {ts : List FilterTransfer}
  {s : PredicateTransferOptimizer} {cs : List ColumnBinding} {t : FilterTransfer}

variable (h : Transferred p d₀ ts s) (ht : t ∈ ts) (hn : (t.target, n) ∈ nodesOf p)
include h ht hn

/-- A filter is applied at its target only. -/
theorem not_mem_usedFilters (hq : q ∈ p.subplans) (hmem : n ∉ q.subplans) :
    t.filter.id ∉ usedFilters (s.insertCreateBFOperator q) := by
  intro hi
  obtain ⟨t',ht',hid,o,ho,htar⟩ :=
    usedFilters_source h (h.wellFormed.of_mem hq).noBF hi
  obtain rfl := transfer_eq_of_id h ht' ht hid
  exact hmem (node_unique h.wellFormed htar hn ▸ ho)

theorem not_mem_usedFilters_below : t.filter.id ∉ usedFilters (s.insertBelow n) := by
  have hsub := (nodesOf_spec hn).1
  have hbelow : ∀ c ∈ p.subplans, c ∈ n.subplans → c ≠ n →
      t.filter.id ∉ usedFilters (s.insertCreateBFOperator c) := by
    intro c hcp hcn hne
    apply not_mem_usedFilters h ht hn hcp
    intro hnc
    exact hne (subplans_antisymm hcn hnc)
  cases n with
  | leaf op => exact not_mem_nil
  | unary op c =>
    have hc := hbelow c (child_mem hsub)
      (child_mem (self_mem_subplans _)) nofun
    cases op <;> first | exact hc | cases (h.wellFormed.of_mem hsub).noBF.1
  | binary op l r =>
    have hself := self_mem_subplans (.binary op l r)
    intro hi
    rcases mem_append.mp hi with hi | hi
    · exact hbelow l (left_mem hsub) (left_mem hself) nofun hi
    · exact hbelow r (right_mem hsub) (right_mem hself) nofun hi

theorem not_mem_chainFilters (hne : n ≠ q) : t.filter.id ∉ chainFilters (s.chainAt q) := by
  intro hi
  obtain ⟨t',ht',hid,htar⟩ := (chainFilters_chainAt h q).2 _ hi
  obtain rfl := transfer_eq_of_id h ht' ht hid
  exact hne (node_unique h.wellFormed hn htar)

variable {E : Execution} {keep : Nat → Row → Bool} {κ : ValueTest}
  (hkeep : ∀ i, i ≠ t.filter.id → keep i = E.keep i)
include hkeep

theorem node_rows_agree
    (htest : ∀ y, κ.on (cs.map (origin n)) y = true → keep t.filter.id y = E.keep t.filter.id y) :
    ((s.insertCreateBFOperator n).run (withKeep E keep)).filter (κ.on cs) =
      ((s.insertCreateBFOperator n).run E).filter (κ.on cs) := by
  have hid : cs.map (origin n) = cs := by
    conv_rhs => rw [← map_id cs]
    exact map_congr_left (fun c _ => origin_node (nodesOf_spec hn).2 c)
  rw [hid] at htest
  rw [h.run_inserted,h.run_inserted,run_withKeep,filter_filter,filter_filter]
  · apply filter_congr
    intro y _
    cases hy : κ.on cs y with
    | false => rfl
    | true =>
      rw [Bool.true_and,Bool.true_and]
      congr 1
      funext op
      cases op with
      | useBF f a =>
        change keep f.id y = E.keep f.id y
        by_cases hid : f.id = t.filter.id
        · rw [hid]
          exact htest y hy
        · rw [hkeep _ hid]
      | _ => rfl
  · intro i hi
    apply hkeep
    rintro rfl
    exact not_mem_usedFilters_below h ht hn hi

/-- What agrees at `base` on the rows a test accepts agrees above, along paths that let the test
through. The target of the filter lies below `base`. -/
theorem rows_agree_above {base : LogicalOperator} {P : List ColumnBinding → Prop}
    (hbelow : n ∈ base.subplans) (hid : nodeId? base = some x → (x, base) ∈ nodesOf p)
    (hxb : x ∈ base.tableIndices)
    (hbase : ∀ cs, Tracked transparentPath x base cs → P (cs.map (origin base)) →
      ((s.insertCreateBFOperator base).run (withKeep E keep)).filter (κ.on cs) =
        ((s.insertCreateBFOperator base).run E).filter (κ.on cs))
    (hq : q ∈ p.subplans) (hmem : base ∈ q.subplans) (hne : cs ≠ [])
    (hcs : Tracked transparentPath x q cs) (hP : P (cs.map (origin q))) :
    ((s.insertCreateBFOperator q).run (withKeep E keep)).filter (κ.on cs) =
      ((s.insertCreateBFOperator q).run E).filter (κ.on cs) := by
  have hxn := nodeId?_mem (nodesOf_spec hn).2
  induction q generalizing cs with
  | leaf op =>
    obtain rfl := mem_singleton.mp hmem
    exact hbase cs hcs hP
  | unary op child ih =>
    by_cases he : base = .unary op child
    · subst he
      exact hbase cs hcs hP
    obtain ⟨c₀,hc₀⟩ := exists_mem_of_ne_nil cs hne
    have hwf := h.wellFormed.of_mem hq
    have hnc : base ∈ child.subplans := (mem_cons.mp hmem).resolve_left he
    have hnode := not_node_of_path h.wellFormed hq hid hxb hmem he (hcs c₀ hc₀).1 (hcs c₀ hc₀).2.1
    obtain ⟨f,htracked,hf⟩ := hcs.child hwf (tableIndices_subset hnc hxb)
    rw [h.run_inserted_of_not_node _ hnode,h.run_inserted_of_not_node _ hnode]
    simp only [insertBelow,run,unaryRows_withKeep E keep hwf.noBF.1]
    have hop := fun c hc => (hf c hc).2.1
    have hout := fun c hc => (hcs c hc).1
    have hsrc := fun c hc => (hf c hc).1
    have horigin : (cs.map f).map (origin child) = cs.map (origin (.unary op child)) := by
      rw [map_map]
      exact map_congr_left (fun c hc => (hf c hc).2.2.symm)
    refine (rows_filter hne hop hout hsrc).trans ?_
    rw [ih (child_mem hq) hnc (by simpa using hne) htracked (horigin ▸ hP)]
    exact (rows_filter hne hop hout hsrc).symm
  | binary op l r ihl ihr =>
    by_cases he : base = .binary op l r
    · subst he
      exact hbase cs hcs hP
    obtain ⟨c₀,hc₀⟩ := exists_mem_of_ne_nil cs hne
    have hwf := h.wellFormed.of_mem hq
    have hnode := not_node_of_path h.wellFormed hq hid hxb hmem he (hcs c₀ hc₀).1 (hcs c₀ hc₀).2.1
    have hout := fun c hc => (hcs c hc).1
    obtain ⟨side,hside⟩ := exists_side hmem he
    have hxs := tableIndices_subset (subplans_trans hbelow hside) hxn
    obtain ⟨htracked,hf⟩ := hcs.side hwf side (tableIndices_subset hside hxb)
    have horigin : cs.map (origin (input l r side)) = cs.map (origin (.binary op l r)) :=
      map_congr_left (fun c hc => (hf c hc).2.2.symm)
    rw [h.run_inserted_of_not_node _ hnode,h.run_inserted_of_not_node _ hnode]
    simp only [insertBelow,run,binaryRows_withKeep,
      h.inserted_getColumnBindings]
    refine binaryRows_agree (fun side => (s.insertCreateBFOperator (input l r side)).run _)
      (fun side => (s.insertCreateBFOperator (input l r side)).run E)
      hwf.columns_disjoint hwf.left_columns_not_own hwf.right_columns_not_own hne (hf c₀ hc₀).2.1
      hout (fun c hc => (hf c hc).1) (fun other hne => ?_) ?_
    · refine run_withKeep fun i hi => hkeep _ ?_
      rintro rfl
      refine not_mem_usedFilters h ht hn (input_mem hq other) (fun hno => ?_) hi
      have hxo := tableIndices_subset hno hxn
      cases other <;> cases side
      · exact hne rfl
      · exact hwf.sides_disjoint hxo hxs
      · exact hwf.sides_disjoint hxs hxo
      · exact hne rfl
    · cases side with
      | left => exact ihl (input_mem hq .left) hside hne htracked (horigin ▸ hP)
      | right => exact ihr (input_mem hq .right) hside hne htracked (horigin ▸ hP)

theorem rows_agree_on_test (hq : q ∈ p.subplans) (hmem : n ∈ q.subplans) (hne : cs ≠ [])
    (hcs : Tracked transparentPath t.target q cs)
    (htest : ∀ y, κ.on (cs.map (origin q)) y = true → keep t.filter.id y = E.keep t.filter.id y) :
    ((s.insertCreateBFOperator q).run (withKeep E keep)).filter (κ.on cs) =
      ((s.insertCreateBFOperator q).run E).filter (κ.on cs) :=
  rows_agree_above h ht hn hkeep
    (P := fun cs => ∀ y, κ.on cs y = true → keep t.filter.id y = E.keep t.filter.id y)
    n.self_mem_subplans (fun _ => hn) (nodeId?_mem (nodesOf_spec hn).2)
    (fun _ _ htest => node_rows_agree h ht hn hkeep htest) hq hmem hne hcs htest

end Commutation

end PredTrans.Transfer
