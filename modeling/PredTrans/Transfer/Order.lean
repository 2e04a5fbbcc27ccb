import PredTrans.Transfer.PassSpec

namespace PredTrans.Transfer
open Plan List LogicalOperator

/-! An order on filters. A set operation or an ungrouped aggregate is a node and
has nodes of its own below it; filters below come first, and between filters at
one depth the schedule decides. -/

section Nesting

variable {p a b : LogicalOperator}

/-- Two operators of a plan that share a table lie on one path. -/
theorem comparable_of_table (hwf : p.WellFormed) (ha : a ∈ p.subplans) (hb : b ∈ p.subplans)
    (hta : t ∈ a.tableIndices) (htb : t ∈ b.tableIndices) : a ∈ b.subplans ∨ b ∈ a.subplans := by
  induction p with
  | leaf op =>
    rw [mem_singleton.mp ha,mem_singleton.mp hb]
    exact .inl (self_mem_subplans _)
  | unary op c ih =>
    rcases mem_cons.mp ha with rfl | ha'
    · exact .inr hb
    · rcases mem_cons.mp hb with rfl | hb'
      · exact .inl ha
      · exact ih hwf.child ha' hb'
  | binary op l r ihl ihr =>
    rcases mem_cons.mp ha with rfl | ha'
    · exact .inr hb
    rcases mem_cons.mp hb with rfl | hb'
    · exact .inl ha
    have hsub : ∀ {x y : LogicalOperator}, x ∈ y.subplans → t ∈ x.tableIndices →
        t ∈ y.tableIndices := fun hxy ht => tableIndices_subset hxy ht
    rcases mem_append.mp ha' with hal | har
    · rcases mem_append.mp hb' with hbl | hbr
      · exact ihl hwf.left hal hbl
      · exact absurd (hsub hbr htb) (hwf.sides_disjoint (hsub hal hta))
    · rcases mem_append.mp hb' with hbl | hbr
      · exact absurd (hsub har hta) (hwf.sides_disjoint (hsub hbl htb))
      · exact ihr hwf.right har hbr

/-- What lies below a node, apart from the scan a filter stands on, does not
contain the node's id. -/
theorem nodeId?_not_mem_below (hwf : a.WellFormed) {id : Nat} (hid : nodeId? a = some id)
    (hb : b ∈ a.subplans) (hne : b ≠ a) (hscan : nodeId? b ≠ some id) : id ∉ b.tableIndices := by
  have hchild : ∀ {op : UnaryOp} {c : LogicalOperator}, (unary op c).WellFormed →
      id ∈ op.tableIndices → b ∈ c.subplans → id ∉ b.tableIndices := by
    intro op c hwf' hown hbc hmem
    exact hwf'.own_not_mem hown (tableIndices_subset hbc hmem)
  cases a with
  | leaf op => exact absurd (mem_singleton.mp hb) hne
  | unary op c =>
    have hbc : b ∈ c.subplans := (mem_cons.mp hb).resolve_left hne
    cases op with
    | filter e es =>
      have hs : scanTable c = some id := hid
      cases c with
      | leaf lop =>
        obtain rfl := mem_singleton.mp hbc
        cases lop with
        | get t n => exact absurd hs hscan
        | _ => cases hs
      | unary cop cc =>
        cases cop with
        | tableFunction t n f =>
          obtain rfl : t = id := Option.some.inj hs
          rcases mem_cons.mp hbc with rfl | hbcc
          · exact absurd rfl hscan
          · exact hchild hwf.child (by simp [UnaryOp.tableIndices]) hbcc
        | _ => cases hs
      | binary bop l r => cases hs
    | _ => exact hchild hwf (nodeId?_own (by simp) hid) hbc
  | binary op l r =>
    have hown := nodeId?_own_binary hid
    intro hmem
    rcases mem_append.mp ((mem_cons.mp hb).resolve_left hne) with hbl | hbr
    · exact hwf.own_not_mem_left hown (tableIndices_subset hbl hmem)
    · exact hwf.own_not_mem_right hown (tableIndices_subset hbr hmem)

theorem origin_of_node (hwf : a.WellFormed) {id : Nat} (hid : nodeId? a = some id)
    (hc : c ∈ a.getColumnBindings) :
    (origin a c).tableIndex = id ∨
      ∀ b ∈ a.subplans, b ≠ a → (origin a c).tableIndex ∉ b.tableIndices := by
  cases a with
  | leaf op => exact .inr (fun b hb hne => absurd (mem_singleton.mp hb) hne)
  | unary op child =>
    cases hs : sourceColumn op c with
    | none =>
      refine .inr (fun b hb hne hmem => ?_)
      simp only [origin,hs,Option.elim_none] at hmem
      exact hwf.own_not_mem (own_of_sourceColumn_none hc hs) (tableIndices_subset
        ((mem_cons.mp hb).resolve_left hne) hmem)
    | some b =>
      left
      cases op with
      | filter e es =>
        have hscan : scanTable child = some id := hid
        have hb := mem_child_of_sourceColumn hwf.inScope.1 hc hs
        simp only [origin,hs,Option.elim_some]
        cases child with
        | leaf lop =>
          cases lop with
          | get t k => exact (mem_generateColumnBindings.mp hb).1.trans (Option.some.inj hscan)
          | _ => cases hscan
        | unary cop cc =>
          cases cop with
          | tableFunction t k f =>
            exact (mem_generateColumnBindings.mp hb).1.trans (Option.some.inj hscan)
          | _ => cases hscan
        | binary bop l r => cases hscan
      | aggregate g ag gs groups aggregates sets functions =>
        simp only [nodeId?] at hid
        split at hid
        · rename_i hu
          simp [sourceColumn,hu] at hs
        · cases hid
      | tableFunction t k f => cases hs
      | _ => cases hid
  | binary op l r =>
    cases op with
    | setOperation kind t n =>
      refine .inr (fun b hb hne hmem => ?_)
      have hown := own_of_sourceSide_none hc rfl
      rcases mem_append.mp ((mem_cons.mp hb).resolve_left hne) with hb | hb
      · exact hwf.own_not_mem_left hown (tableIndices_subset hb hmem)
      · exact hwf.own_not_mem_right hown (tableIndices_subset hb hmem)
    | _ => cases hid

theorem origin_inside_node (hwf : p.WellFormed) {c : ColumnBinding} (hc : c ∈ p.getColumnBindings)
    {x id : Nat} (hx : (origin p c).tableIndex = x) (hn : n ∈ p.subplans)
    (hnid : nodeId? n = some x) (ha : a ∈ p.subplans) (haid : nodeId? a = some id)
    (hxa : x ∈ a.tableIndices) : x = id := by
  by_contra hne
  have hna : n ≠ a := by
    rintro rfl
    exact hne (Option.some.inj (hnid.symm.trans haid))
  have hxn := nodeId?_mem hnid
  have hsub : ∀ {q s : LogicalOperator} {y : Nat}, q ∈ s.subplans → y ∈ q.tableIndices →
      y ∈ s.tableIndices := fun hq hy => tableIndices_subset hq hy
  induction p generalizing c with
  | leaf op => exact hna ((mem_singleton.mp hn).trans (mem_singleton.mp ha).symm)
  | unary op child ih =>
    by_cases hat : a = .unary op child
    · subst hat hx
      exact (origin_of_node hwf haid hc).elim hne (fun h => h n hn hna hxn)
    have hac : a ∈ child.subplans := (mem_cons.mp ha).resolve_left hat
    have hnc : n ∈ child.subplans := by
      refine (mem_cons.mp hn).resolve_left ?_
      rintro rfl
      refine nodeId?_not_mem_below hwf hnid ha hat (fun he => ?_) hxa
      exact hne (Option.some.inj (he.symm.trans haid))
    cases hs : sourceColumn op c with
    | none =>
      simp only [origin,hs,Option.elim_none] at hx
      exact hwf.own_not_mem (hx ▸ own_of_sourceColumn_none hc hs) (hsub hac hxa)
    | some b =>
      simp only [origin,hs,Option.elim_some] at hx
      exact ih hwf.child (mem_child_of_sourceColumn hwf.inScope.1 hc hs) hx hnc hac
  | binary op l r ihl ihr =>
    by_cases hat : a = .binary op l r
    · subst hat hx
      exact (origin_of_node hwf haid hc).elim hne (fun h => h n hn hna hxn)
    have hac := mem_append.mp ((mem_cons.mp ha).resolve_left hat)
    have hnc : n ∈ l.subplans ∨ n ∈ r.subplans := by
      refine mem_append.mp ((mem_cons.mp hn).resolve_left ?_)
      rintro rfl
      refine nodeId?_not_mem_below hwf hnid ha hat (fun he => ?_) hxa
      exact hne (Option.some.inj (he.symm.trans haid))
    cases hs : sourceSide op l.getColumnBindings r.getColumnBindings c with
    | none =>
      simp only [origin,hs] at hx
      have hop := hx ▸ own_of_sourceSide_none hc hs
      exact hac.elim (fun h => hwf.own_not_mem_left hop (hsub h hxa))
        (fun h => hwf.own_not_mem_right hop (hsub h hxa))
    | some side =>
      cases side with
      | left =>
        simp only [origin,hs] at hx
        have hcl := sourceSide_left hs
        have hxr := hwf.sides_disjoint (hx ▸ origin_table_mem hwf.left hcl)
        exact ihl hwf.left hcl hx (hnc.resolve_right (fun h => hxr (hsub h hxn)))
          (hac.resolve_right (fun h => hxr (hsub h hxa)))
      | right =>
        simp only [origin,hs] at hx
        have hcr := (sourceSide_right hs).2
        have hxr : x ∈ r.tableIndices := hx ▸ origin_table_mem hwf.right hcr
        have hxl : x ∉ l.tableIndices := fun hl => hwf.sides_disjoint hl hxr
        exact ihr hwf.right hcr hx (hnc.resolve_left (fun h => hxl (hsub h hxn)))
          (hac.resolve_left (fun h => hxl (hsub h hxa)))

end Nesting

section Depth

variable {p : LogicalOperator}

/-- The nodes strictly around a node. -/
def enclosing (p : LogicalOperator) (v : Nat) : Finset Nat :=
  (((nodesOf p).filter (fun n => v ∈ n.2.tableIndices ∧ n.1 ≠ v)).map Prod.fst).toFinset

def depth (p : LogicalOperator) (v : Nat) : Nat := (enclosing p v).card

theorem mem_enclosing :
    i ∈ enclosing p v ↔ i ≠ v ∧ ∃ op, (i, op) ∈ nodesOf p ∧ v ∈ op.tableIndices := by
  simp only [enclosing,mem_toFinset,mem_map,mem_filter,decide_eq_true_eq,
    Prod.exists,exists_and_right,exists_eq_right]
  constructor
  · rintro ⟨op,hn,hv,hne⟩
    exact ⟨hne,op,hn,hv⟩
  · rintro ⟨hne,op,hn,hv⟩
    exact ⟨op,hn,hv,hne⟩

theorem depth_le (p : LogicalOperator) (v : Nat) : depth p v ≤ (nodesOf p).length := by
  apply (toFinset_card_le _).trans
  rw [length_map]
  exact length_filter_le _ _

/-- A node whose id occurs below an operator has its scan or itself there. -/
theorem node_below (hwf : p.WellFormed) (hn : (x, n) ∈ nodesOf p) (hq : q ∈ p.subplans)
    (hx : x ∈ q.tableIndices) : ∃ m ∈ q.subplans, nodeId? m = some x := by
  obtain ⟨hnsub,hnid⟩ := nodesOf_spec hn
  rcases comparable_of_table hwf hnsub hq (nodeId?_mem hnid) hx with h | h
  · exact ⟨n,h,hnid⟩
  by_cases he : nodeId? q = some x
  · exact ⟨q,q.self_mem_subplans,he⟩
  · refine absurd hx (nodeId?_not_mem_below (hwf.of_mem hnsub) hnid h ?_ he)
    rintro rfl
    exact he hnid

/-- A node around the origin of a column, other than the origin itself, does not
lie below an operator that shows the column. -/
theorem not_mem_of_encloses (hwf : p.WellFormed) {c : ColumnBinding} (hq : q ∈ p.subplans)
    (hc : c ∈ q.getColumnBindings) (hx : (origin q c).tableIndex = x) (hn : (x, n) ∈ nodesOf p)
    (hop : (i, op) ∈ nodesOf p) (hxop : x ∈ op.tableIndices) (hne : i ≠ x) : op ∉ q.subplans := by
  intro hin
  have hwfq := hwf.of_mem hq
  obtain ⟨m,hm,hmid⟩ := node_below hwf hn hq (hx ▸ origin_table_mem hwfq hc)
  exact hne (origin_inside_node hwfq hc hx hm hmid hin (nodesOf_spec hop).2 hxop).symm

/-- A node inside another one is deeper. -/
theorem depth_lt_of_inside (hwf : p.WellFormed) {m n : Nat} {outer inner : LogicalOperator}
    (hm : (m, outer) ∈ nodesOf p) (hn : (n, inner) ∈ nodesOf p) (hin : inner ∈ outer.subplans)
    (hne : inner ≠ outer) : depth p m < depth p n := by
  obtain ⟨hmsub,hmid⟩ := nodesOf_spec hm
  have hntab := nodeId?_mem (nodesOf_spec hn).2
  apply Finset.card_lt_card
  have hmn : m ≠ n := by
    rintro rfl
    exact hne (node_unique hwf hn hm)
  refine Finset.ssubset_iff_subset_ne.mpr ⟨?_,?_⟩
  · intro i hi
    obtain ⟨him,op,hop,hmop⟩ := mem_enclosing.mp hi
    obtain ⟨hosub,hoid⟩ := nodesOf_spec hop
    have hout : outer ∈ op.subplans := by
      refine (comparable_of_table hwf hmsub hosub (nodeId?_mem hmid) hmop).elim id (fun h => ?_)
      by_cases he : op = outer
      · exact he ▸ op.self_mem_subplans
      · refine absurd hmop (nodeId?_not_mem_below (hwf.of_mem hmsub) hmid h he ?_)
        intro hid
        exact him (Option.some.inj (hoid.symm.trans hid))
    refine mem_enclosing.mpr ⟨?_,op,hop,tableIndices_subset
      (subplans_trans hin hout) hntab⟩
    rintro rfl
    obtain rfl := node_unique hwf hop hn
    exact hne (subplans_antisymm hin hout)
  · intro he
    have hmem : m ∈ enclosing p n :=
      mem_enclosing.mpr ⟨hmn,outer,hm,tableIndices_subset hin hntab⟩
    rw [← he] at hmem
    exact (mem_enclosing.mp hmem).1 rfl

end Depth

theorem IsJoin.nodeId?_eq_none (h : IsJoin j type cs l r) : nodeId? j = none := by
  cases h <;> rfl

theorem IsJoin.subplans_eq (h : IsJoin j type cs l r) :
    j.subplans = j :: (l.subplans ++ r.subplans) := by
  cases h <;> rfl

namespace Justification

variable {p : LogicalOperator} {source target : Nat}

/-- The input of the join the filter is built from. -/
def sourcePlan (j : Justification p source target) : LogicalOperator :=
  if j.toRight then j.left else j.right

def targetPlan (j : Justification p source target) : LogicalOperator :=
  if j.toRight then j.right else j.left

section

variable (j : Justification p source target)
include j

theorem join_mem : j.join ∈ p.subplans :=
  (visited_spec j.visited_join).1

theorem mem_join_subplans :
    q ∈ j.join.subplans ↔ q = j.join ∨ q ∈ j.sourcePlan.subplans ∨ q ∈ j.targetPlan.subplans := by
  rw [j.isJoin.subplans_eq,mem_cons,mem_append]
  unfold sourcePlan targetPlan
  cases j.toRight
  · simp
    rw [or_comm (a := q ∈ j.right.subplans)]
  · rfl

theorem sourcePlan_visited : j.sourcePlan ∈ visited p := by
  unfold sourcePlan
  split
  · exact j.left_visited
  · exact j.right_visited

theorem targetPlan_visited : j.targetPlan ∈ visited p := by
  unfold targetPlan
  split
  · exact j.right_visited
  · exact j.left_visited

section

variable (hwf : p.WellFormed)
include hwf

theorem sourceColumn_mem : j.sourceColumn ∈ j.sourcePlan.getColumnBindings := by
  unfold sourceColumn sourcePlan
  split
  · exact j.left_mem hwf
  · exact j.right_mem hwf

theorem targetColumn_mem : j.targetColumn ∈ j.targetPlan.getColumnBindings := by
  unfold targetColumn targetPlan
  split
  · exact j.right_mem hwf
  · exact j.left_mem hwf

theorem source_origin :
    (extractNodes {} p).findRename j.sourceColumn = origin j.sourcePlan j.sourceColumn :=
  findRename_eq_origin hwf j.sourcePlan_visited (j.sourceColumn_mem hwf)

theorem target_origin :
    (extractNodes {} p).findRename j.targetColumn = origin j.targetPlan j.targetColumn :=
  findRename_eq_origin hwf j.targetPlan_visited (j.targetColumn_mem hwf)

theorem source_mem : source ∈ j.sourcePlan.tableIndices := by
  have h := origin_table_mem (hwf.of_mem (visited_spec j.sourcePlan_visited).1)
    (j.sourceColumn_mem hwf)
  rwa [← j.source_origin hwf,j.source_table] at h

theorem target_mem : target ∈ j.targetPlan.tableIndices := by
  have h := origin_table_mem (hwf.of_mem (visited_spec j.targetPlan_visited).1)
    (j.targetColumn_mem hwf)
  rwa [← j.target_origin hwf,j.target_table] at h

theorem plans_disjoint (hs : t ∈ j.sourcePlan.tableIndices) : t ∉ j.targetPlan.tableIndices := by
  have hd := fun {t} => j.isJoin.sides_disjoint (hwf.of_mem j.join_mem) (t := t)
  unfold sourcePlan targetPlan at *
  intro ht
  split at hs
  · rename_i h
    rw [if_pos h] at ht
    exact hd hs ht
  · rename_i h
    rw [if_neg h] at ht
    exact hd ht hs

/-- A node around the source of a transfer contains the join. -/
theorem join_mem_of_encloses_source
    (hop : (i, op) ∈ nodesOf p) (hs : source ∈ op.tableIndices) (hne : i ≠ source) :
    j.join ∈ op.subplans := by
  obtain ⟨hosub,hoid⟩ := nodesOf_spec hop
  obtain ⟨⟨x,n⟩,hn,rfl⟩ := mem_map.mp j.sourceNode
  have hsj := tableIndices_subset
    (j.mem_join_subplans.mpr (.inr (.inl j.sourcePlan.self_mem_subplans))) (j.source_mem hwf)
  refine (comparable_of_table hwf j.join_mem hosub hsj hs).elim id (fun hin => ?_)
  rcases j.mem_join_subplans.mp hin with rfl | hin | hin
  · exact self_mem_subplans _
  · refine absurd hin (not_mem_of_encloses hwf (visited_spec j.sourcePlan_visited).1
      (j.sourceColumn_mem hwf) ?_ hn hop hs hne)
    rw [← j.source_origin hwf,j.source_table]
  · exact absurd (tableIndices_subset hin hs)
      (j.plans_disjoint hwf (j.source_mem hwf))

theorem join_mem_of_encloses_target
    (hop : (i, op) ∈ nodesOf p) (ht : target ∈ op.tableIndices) (hne : i ≠ target) :
    j.join ∈ op.subplans := by
  obtain ⟨hosub,hoid⟩ := nodesOf_spec hop
  obtain ⟨⟨x,n⟩,hn,rfl⟩ := mem_map.mp j.targetNode
  have htj := tableIndices_subset
    (j.mem_join_subplans.mpr (.inr (.inr j.targetPlan.self_mem_subplans))) (j.target_mem hwf)
  refine (comparable_of_table hwf j.join_mem hosub htj ht).elim id (fun hin => ?_)
  rcases j.mem_join_subplans.mp hin with rfl | hin | hin
  · exact self_mem_subplans _
  · exact absurd (j.target_mem hwf)
      (j.plans_disjoint hwf (tableIndices_subset hin ht))
  · refine absurd hin (not_mem_of_encloses hwf (visited_spec j.targetPlan_visited).1
      (j.targetColumn_mem hwf) ?_ hn hop ht hne)
    rw [← j.target_origin hwf,j.target_table]

/-- A node around the join has neither end as its own id. -/
theorem id_ne_of_encloses
    (hop : (i, op) ∈ nodesOf p) (hj : j.join ∈ op.subplans) (hx : x ∈ j.join.tableIndices) :
    i ≠ x := by
  obtain ⟨hosub,hoid⟩ := nodesOf_spec hop
  rintro rfl
  refine nodeId?_not_mem_below (hwf.of_mem hosub) hoid hj ?_ ?_ hx
  · rintro rfl
    rw [j.isJoin.nodeId?_eq_none] at hoid
    cases hoid
  · rw [j.isJoin.nodeId?_eq_none]
    exact nofun

/-- A filter stays at its depth. -/
theorem depth_eq : depth p source = depth p target := by
  have hs := tableIndices_subset
    (j.mem_join_subplans.mpr (.inr (.inl j.sourcePlan.self_mem_subplans))) (j.source_mem hwf)
  have ht := tableIndices_subset
    (j.mem_join_subplans.mpr (.inr (.inr j.targetPlan.self_mem_subplans))) (j.target_mem hwf)
  unfold depth
  congr 1
  ext i
  rw [mem_enclosing,mem_enclosing]
  constructor
  · rintro ⟨hne,op,hop,hmem⟩
    have hj := j.join_mem_of_encloses_source hwf hop hmem hne
    exact ⟨j.id_ne_of_encloses hwf hop hj ht,op,hop,tableIndices_subset hj ht⟩
  · rintro ⟨hne,op,hop,hmem⟩
    have hj := j.join_mem_of_encloses_target hwf hop hmem hne
    exact ⟨j.id_ne_of_encloses hwf hop hj hs,op,hop,tableIndices_subset hj hs⟩

end

end

end Justification

end PredTrans.Transfer
