import PredTrans.Transfer.NodesSpec

namespace PredTrans.Transfer
open Plan List LogicalOperator Option

/-! `FindRename` agrees with following a column down the plan. -/

section Visited

/-- The operators `ExtractNodes` looks at. -/
def visited : LogicalOperator → List LogicalOperator
  | .leaf op => [.leaf op]
  | .unary (.filter e es) c =>
    .unary (.filter e es) c :: if (scanTable c).isSome then [] else visited c
  | .unary (.tableFunction t n f) c => [.unary (.tableFunction t n f) c]
  | .unary op c => .unary op c :: visited c
  | .binary op l r => .binary op l r :: (visited l ++ visited r)

theorem self_mem_visited (p : LogicalOperator) : p ∈ visited p := by
  cases p with
  | leaf op | binary op l r => simp [visited]
  | unary op c => cases op <;> simp [visited]

theorem mem_visited_unary (h : q ∈ visited (.unary op c)) :
    q = .unary op c ∨ (q ∈ visited c ∧ nodesOf c ⊆ nodesOf (.unary op c) ∧
      renamesOf c ⊆ renamesOf (.unary op c) ∧ visited c ⊆ visited (.unary op c)) := by
  cases op with
  | filter e es =>
    rcases mem_cons.mp h with h | h
    · exact .inl h
    · split at h
      · cases h
      · rename_i hs
        exact .inr ⟨h,by simp [nodesOf,hs],by simp [renamesOf],by simp [visited,hs]⟩
  | tableFunction t n f => exact .inl (mem_singleton.mp h)
  | _ =>
    refine (mem_cons.mp h).imp id (fun h => ⟨h,?_,?_,?_⟩)
    · exact subset_append_left _ _
    · exact subset_append_right _ _
    · exact subset_cons_self _ _

/-- What the traversal collects below a visited operator is part of the whole. -/
theorem visited_spec (h : q ∈ visited p) :
    q ∈ p.subplans ∧ nodesOf q ⊆ nodesOf p ∧ renamesOf q ⊆ renamesOf p ∧
      visited q ⊆ visited p := by
  induction p with
  | leaf op =>
    obtain rfl := mem_singleton.mp h
    exact ⟨self_mem_subplans _,fun _ => id,fun _ => id,fun _ => id⟩
  | unary op c ih =>
    rcases mem_visited_unary h with rfl | ⟨h,hn,hr,hv⟩
    · exact ⟨self_mem_subplans _,fun _ => id,fun _ => id,fun _ => id⟩
    · obtain ⟨h1,h2,h3,h4⟩ := ih h
      exact ⟨mem_cons_of_mem _ h1,Subset.trans h2 hn,Subset.trans h3 hr,Subset.trans h4 hv⟩
  | binary op l r ihl ihr =>
    rcases mem_cons.mp h with rfl | h
    · exact ⟨self_mem_subplans _,fun _ => id,fun _ => id,fun _ => id⟩
    rcases mem_append.mp h with h | h
    · obtain ⟨h1,h2,h3,h4⟩ := ihl h
      refine ⟨mem_cons_of_mem _ (mem_append_left _ h1),fun n hn => ?_,fun e he => ?_,fun o ho => ?_⟩
      · exact mem_append_right _ (mem_append_left _ (h2 hn))
      · exact mem_append_left _ (h3 he)
      · exact mem_cons_of_mem _ (mem_append_left _ (h4 ho))
    · obtain ⟨h1,h2,h3,h4⟩ := ihr h
      refine ⟨mem_cons_of_mem _ (mem_append_right _ h1),fun n hn => ?_,fun e he => ?_,
        fun o ho => ?_⟩
      · exact mem_append_right _ (mem_append_right _ (h2 hn))
      · exact mem_append_right _ (h3 he)
      · exact mem_cons_of_mem _ (mem_append_right _ (h4 ho))

/-- The join types `ExtractNodes` records. -/
def JoinType.recordable : JoinType → Bool
  | .inner | .left | .right | .semi | .rightSemi | .mark => true
  | _ => false

/-- A comparison or delim join with the parts the optimizer reads. -/
inductive IsJoin : LogicalOperator → JoinType → List JoinCondition →
    LogicalOperator → LogicalOperator → Prop
  | comparison (type m cs l r) : IsJoin (.binary (.comparisonJoin type m cs) l r) type cs l r
  | delim (type m cs l r) : IsJoin (.binary (.delimJoin type m cs) l r) type cs l r

theorem recordJoin_filterOperators {m : NodesManager}
    (h : j ∈ (m.recordJoin op type cs).filterOperators) :
    j ∈ m.filterOperators ∨ (j = op ∧ JoinType.recordable type = true) := by
  unfold NodesManager.recordJoin at h
  split at h
  · rename_i hrec
    rcases mem_append.mp h with h | h
    · exact .inl h
    · refine .inr ⟨mem_singleton.mp h,?_⟩
      cases type <;> first | rfl | cases hrec
  · exact .inl h

theorem extractNodes_filterOperators {p j : LogicalOperator}
    (h : j ∈ (extractNodes m p).filterOperators) :
    j ∈ m.filterOperators ∨ (j ∈ visited p ∧ ∃ type cs l r, IsJoin j type cs l r ∧
      JoinType.recordable type = true) := by
  induction p generalizing m with
  | leaf op =>
    simp only [extractNodes,addNode_filterOperators] at h
    exact .inl h
  | unary op c ih =>
    have hskip : ∀ m' : NodesManager, m'.filterOperators = m.filterOperators →
        visited c ⊆ visited (.unary op c) → j ∈ (extractNodes m' c).filterOperators →
        j ∈ m.filterOperators ∨ (j ∈ visited (.unary op c) ∧ ∃ type cs l r, IsJoin j type cs l r ∧
          JoinType.recordable type = true) := by
      intro m' hm' hv hj
      rcases ih hj with hj | ⟨hj,hjoin⟩
      · exact .inl (hm' ▸ hj)
      · exact .inr ⟨hv hj,hjoin⟩
    cases op with
    | filter e es =>
      simp only [extractNodes] at h
      cases hs : scanTable c with
      | some t =>
        simp only [hs,addNode_filterOperators] at h
        exact .inl h
      | none =>
        simp only [hs] at h
        refine hskip _ ?_ (by simp [visited,hs]) h
        rfl
    | aggregate g a gs groups aggregates sets functions =>
      simp only [extractNodes] at h
      split at h
      · rw [addNode_filterOperators] at h
        exact hskip m rfl (subset_cons_self _ _) h
      · exact hskip _ (by simp) (subset_cons_self _ _) h
    | projection t es => exact hskip _ (by simp) (subset_cons_self _ _) h
    | tableFunction t n f =>
      simp only [extractNodes,addNode_filterOperators] at h
      exact .inl h
    | _ => exact hskip m rfl (subset_cons_self _ _) h
  | binary op l r ihl ihr =>
    have hsides : ∀ m' : NodesManager, j ∈ (extractNodes (extractNodes m' l) r).filterOperators →
        j ∈ m'.filterOperators ∨ (j ∈ visited (.binary op l r) ∧ ∃ type cs l r,
          IsJoin j type cs l r ∧ JoinType.recordable type = true) := by
      intro m' hj
      rcases ihr hj with hj | ⟨hj,hjoin⟩
      · rcases ihl hj with hj | ⟨hj,hjoin⟩
        · exact .inl hj
        · exact .inr ⟨mem_cons_of_mem _ (mem_append_left _ hj),hjoin⟩
      · exact .inr ⟨mem_cons_of_mem _ (mem_append_right _ hj),hjoin⟩
    have hrecord : ∀ type cs, IsJoin (.binary op l r) type cs l r →
        j ∈ (m.recordJoin (.binary op l r) type cs).filterOperators →
        j ∈ m.filterOperators ∨ (j ∈ visited (.binary op l r) ∧ ∃ type cs l r,
          IsJoin j type cs l r ∧ JoinType.recordable type = true) := by
      intro type cs hjoin hj
      refine (recordJoin_filterOperators hj).imp id ?_
      rintro ⟨rfl,hrec⟩
      exact ⟨self_mem_visited _,type,cs,l,r,hjoin,hrec⟩
    cases op with
    | comparisonJoin type mk cs =>
      exact (hsides _ h).elim (hrecord type cs (.comparison type mk cs l r)) .inr
    | delimJoin type mk cs =>
      exact (hsides _ h).elim (hrecord type cs (.delim type mk cs l r)) .inr
    | setOperation k t n => exact (hsides _ h).imp (by simp) id
    | _ => exact hsides _ h

end Visited

section Lookup

theorem find?_key_eq_some [DecidableEq κ] {l : List (κ × β)} (hnd : (l.map Prod.fst).Nodup) :
    (l.find? (fun e => e.1 == k)).map Prod.snd = some v ↔ (k, v) ∈ l := by
  have hfound : ∀ {e}, l.find? (fun e => e.1 == k) = some e → e ∈ l ∧ e.1 = k :=
    fun he => ⟨mem_of_find?_eq_some he,by simpa using find?_some he⟩
  rw [map_eq_some_iff]
  constructor
  · rintro ⟨e,he,rfl⟩
    rw [← (hfound he).2]
    exact (hfound he).1
  · intro h
    cases he : l.find? (fun e => e.1 == k) with
    | none => exact absurd (beq_self_eq_true k) (find?_eq_none.mp he _ h)
    | some e => exact ⟨e,rfl,by rw [inj_on_of_nodup_map hnd (hfound he).1 h (hfound he).2]⟩

variable {p : LogicalOperator}

theorem extracted_nodes (h : p.WellFormed) : (extractNodes {} p).nodes = nodesOf p := by
  rw [extractNodes_nodes (by simpa using nodesOf_nodup h)]
  rfl

theorem extracted_renames (h : p.WellFormed) : (extractNodes {} p).renameCols = renamesOf p := by
  rw [extractNodes_renames (by simpa using renamesOf_nodup h)]
  rfl

theorem getNode_eq_some (h : p.WellFormed) {id : Nat} :
    (extractNodes {} p).getNode id = some op ↔ (id, op) ∈ nodesOf p := by
  unfold NodesManager.getNode
  rw [extracted_nodes h]
  exact find?_key_eq_some (nodesOf_nodup h)

theorem node_unique (hwf : p.WellFormed) {id : Nat} (ha : (id, a) ∈ nodesOf p)
    (hb : (id, b) ∈ nodesOf p) : a = b := by
  have h := (getNode_eq_some hwf).mpr ha
  rw [(getNode_eq_some hwf).mpr hb] at h
  exact (some.inj h).symm

theorem lookupRename_eq_some (h : p.WellFormed) {k v : ColumnBinding} :
    (extractNodes {} p).lookupRename k = some v ↔ (k, v) ∈ renamesOf p := by
  unfold NodesManager.lookupRename
  rw [extracted_renames h]
  exact find?_key_eq_some (renamesOf_nodup h)

end Lookup

section Chase

/-- An output column that is no copy carries the operator's own table index. -/
theorem own_of_sourceColumn_none (hc : c ∈ op.getColumnBindings child)
    (h : sourceColumn op c = none) : c.tableIndex ∈ op.tableIndices := by
  rcases op.tableIndex_mem hc with hown | hchild
  · exact hown
  cases op with
  | projection t es | tableFunction t n f =>
    simp [UnaryOp.tableIndices,(mem_generateColumnBindings.mp hc).1]
  | aggregate g a gs groups aggregates sets functions =>
    simp only [UnaryOp.getColumnBindings,mem_append,mem_generateColumnBindings] at hc
    rcases hc with (hc | hc) | hc
    · simp [UnaryOp.tableIndices,hc.1]
    · simp [UnaryOp.tableIndices,hc.1]
    · cases functions with
      | nil => simp at hc
      | cons f fs => simp [UnaryOp.tableIndices,hc.1]
  | window w es | unnest u n f =>
    simp only [sourceColumn] at h
    split at h
    · simpa [UnaryOp.tableIndices] using ‹_›
    · cases h
  | other id passes t n =>
    simp only [sourceColumn] at h
    split at h
    · rename_i hcase
      rcases hcase with hp | ⟨hn,ht⟩
      · simp only [UnaryOp.getColumnBindings,hp,Bool.false_eq_true,if_false,
          nil_append,mem_generateColumnBindings] at hc
        simp only [UnaryOp.tableIndices]
        rw [if_neg (by omega)]
        exact mem_singleton.mpr hc.1
      · simp [UnaryOp.tableIndices,hn,ht]
    · cases h
  | _ => cases h

/-- The copied column is one of the input. -/
theorem mem_child_of_sourceColumn (hscope : op.inScope child) (hc : c ∈ op.getColumnBindings child)
    (h : sourceColumn op c = some b) : b ∈ child := by
  cases op with
  | projection t es =>
    obtain ⟨e,he,hb⟩ := bind_eq_some_iff.mp h
    exact hscope b (columnRef?_eq_some.mp hb ▸ mem_of_getElem? he)
  | aggregate g a gs groups aggregates sets functions =>
    simp only [sourceColumn] at h
    split at h
    · cases h
    · obtain ⟨e,he,hb⟩ := bind_eq_some_iff.mp h
      exact hscope b (columnRef?_eq_some.mp hb ▸ mem_of_getElem? he)
  | window w es | unnest u n f =>
    simp only [sourceColumn] at h
    split at h
    · cases h
    · rcases mem_append.mp hc with hc | hc
      · exact some.inj h ▸ hc
      · exact absurd (mem_generateColumnBindings.mp hc).1 ‹_›
  | tableFunction t n f => cases h
  | other id passes t n =>
    simp only [sourceColumn] at h
    split at h
    · cases h
    rename_i hcase
    push Not at hcase
    rcases mem_append.mp hc with hc | hc
    · cases passes with
      | false => simp at hc
      | true => exact some.inj h ▸ (by simpa using hc)
    · obtain ⟨ht,hn⟩ := mem_generateColumnBindings.mp hc
      exact absurd ht (hcase.2 (by omega))
  | _ => exact some.inj h ▸ hc

/-- A copied column either keeps its name or is renamed. -/
theorem sourceColumn_cases (hc : c ∈ op.getColumnBindings child) (h : sourceColumn op c = some b) :
    (b = c ∧ ownRenames op = []) ∨ (c, b) ∈ ownRenames op := by
  cases op with
  | projection t es =>
    obtain ⟨e,he,hb⟩ := bind_eq_some_iff.mp h
    refine .inr (mem_renameEntries.mpr ⟨(mem_generateColumnBindings.mp hc).1,?_⟩)
    rw [he,columnRef?_eq_some.mp hb]
  | aggregate g a gs groups aggregates sets functions =>
    simp only [sourceColumn] at h
    split at h
    · cases h
    rename_i hcase
    push Not at hcase
    obtain ⟨e,he,hb⟩ := bind_eq_some_iff.mp h
    refine .inr ?_
    simp only [ownRenames,hcase.1,Bool.false_eq_true,if_false]
    exact mem_renameEntries.mpr ⟨hcase.2,by rw [he,columnRef?_eq_some.mp hb]⟩
  | window w es | unnest u n f | other id passes t n =>
    simp only [sourceColumn] at h
    split at h
    · cases h
    · exact .inl ⟨(some.inj h).symm,rfl⟩
  | tableFunction t n f => cases h
  | _ => exact .inl ⟨(some.inj h).symm,rfl⟩

theorem own_of_sourceSide_none (hc : c ∈ op.getColumnBindings l r)
    (h : sourceSide op l r c = none) : c.tableIndex ∈ op.tableIndices := by
  unfold sourceSide at h
  split at h
  · simp [BinaryOp.tableIndices,(mem_generateColumnBindings.mp hc).1]
  split at h
  · cases h
  · split at h
    · cases h
    · exact (op.tableIndex_mem hc).resolve_right (by tauto)

theorem chaseRename_of_none {m : NodesManager} (h : m.lookupRename c = none) (fuel : Nat) :
    m.chaseRename fuel c = c := by
  cases fuel with
  | zero => rfl
  | succ n => simp [NodesManager.chaseRename,h]

/-- The chase from a visible column ends at its origin. The two hypotheses say
that, on the tables of this plan, the map holds just this plan's renames. -/
theorem chaseRename_eq_origin {m : NodesManager} (hwf : p.WellFormed)
    (hmem : ∀ e ∈ renamesOf p, m.lookupRename e.1 = some e.2)
    (honly : ∀ k v, m.lookupRename k = some v → k.tableIndex ∈ p.tableIndices →
      (k, v) ∈ renamesOf p)
    (hc : c ∈ p.getColumnBindings) (hfuel : (renamesOf p).length ≤ fuel) :
    m.chaseRename fuel c = origin p c := by
  induction p generalizing c fuel with
  | leaf op =>
    refine chaseRename_of_none ?_ fuel
    cases hl : m.lookupRename c with
    | none => rfl
    | some v => cases honly c v hl (tableIndex_mem hc)
  | unary op child ih =>
    cases hs : sourceColumn op c with
    | none =>
      simp only [origin,hs,elim_none]
      refine chaseRename_of_none ?_ fuel
      have hown := own_of_sourceColumn_none hc hs
      cases hl : m.lookupRename c with
      | none => rfl
      | some v =>
        -- the operator has no rename for a column that is not a copy
        rcases mem_renamesOf_unary (honly c v hl (mem_append_left _ hown)) with h | h
        · have hcopy : sourceColumn op c = some v := by
            cases op with
            | projection t es =>
              obtain ⟨-,h⟩ := mem_renameEntries.mp h
              simp [sourceColumn,h,columnRef?]
            | aggregate g a gs groups aggregates sets functions =>
              simp only [ownRenames] at h
              split at h
              · cases h
              · obtain ⟨ht,h⟩ := mem_renameEntries.mp h
                simp_all [sourceColumn,columnRef?]
            | _ => cases h
          rw [hcopy] at hs
          cases hs
        · exact absurd (renamesOf_table h) (hwf.own_not_mem hown)
    | some b =>
      have hb := mem_child_of_sourceColumn hwf.inScope.1 hc hs
      have hsplit : renamesOf (.unary op child) = ownRenames op ++ renamesOf child := by
        cases op with
        | tableFunction t n f => cases hs
        | _ => rfl
      have hmem' : ∀ e ∈ renamesOf child, m.lookupRename e.1 = some e.2 :=
        fun e he => hmem e (hsplit ▸ mem_append_right _ he)
      have honly' : ∀ k v, m.lookupRename k = some v → k.tableIndex ∈ child.tableIndices →
          (k, v) ∈ renamesOf child := by
        intro k v hk ht
        rcases mem_renamesOf_unary (honly k v hk (mem_append_right _ ht)) with h | h
        · exact absurd ht (hwf.own_not_mem (ownRenames_table h))
        · exact h
      simp only [origin,hs,elim_some]
      rcases sourceColumn_cases hc hs with ⟨rfl,hnil⟩ | hren
      · refine ih hwf.child hmem' honly' hb ?_
        rw [hsplit,hnil] at hfuel
        exact hfuel
      -- one step of the chase uses up one of the operator's own entries
      have hlen : 1 ≤ (ownRenames op).length := length_pos_of_mem hren
      rw [hsplit,length_append] at hfuel
      obtain ⟨n,rfl⟩ : ∃ n, fuel = n + 1 := ⟨fuel - 1,by omega⟩
      have hlook := hmem (c, b) (hsplit ▸ mem_append_left _ hren)
      simp only [NodesManager.chaseRename,hlook]
      exact ih hwf.child hmem' honly' hb (by omega)
  | binary op l r ihl ihr =>
    simp only [renamesOf,length_append] at hfuel
    simp only [origin]
    cases hs : sourceSide op l.getColumnBindings r.getColumnBindings c with
    | none =>
      refine chaseRename_of_none ?_ fuel
      have hown := own_of_sourceSide_none hc hs
      cases hl : m.lookupRename c with
      | none => rfl
      | some v =>
        rcases mem_append.mp (honly c v hl (mem_append_left _ hown)) with h | h
        · exact absurd (renamesOf_table h) (hwf.own_not_mem_left hown)
        · exact absurd (renamesOf_table h) (hwf.own_not_mem_right hown)
    | some s =>
      cases s with
      | left =>
        refine ihl hwf.left (fun e he => hmem e (mem_append_left _ he)) ?_
          (sourceSide_left hs) (by omega)
        intro k v hk ht
        rcases mem_append.mp (honly k v hk
          (mem_append_right _ (mem_append_left _ ht))) with h | h
        · exact h
        · exact absurd (renamesOf_table h) (hwf.sides_disjoint ht)
      | right =>
        refine ihr hwf.right (fun e he => hmem e (mem_append_right _ he)) ?_
          (sourceSide_right hs).2 (by omega)
        intro k v hk ht
        rcases mem_append.mp (honly k v hk
          (mem_append_right _ (mem_append_right _ ht))) with h | h
        · exact absurd ht (hwf.sides_disjoint (renamesOf_table h))
        · exact h

theorem renamesOf_below (hwf : p.WellFormed) (hq : q ∈ visited p) (he : e ∈ renamesOf p)
    (ht : e.1.tableIndex ∈ q.tableIndices) : e ∈ renamesOf q := by
  induction p with
  | leaf op => cases he
  | unary op c ih =>
    rcases mem_visited_unary hq with rfl | ⟨hq,-⟩
    · exact he
    · rcases mem_renamesOf_unary he with he | he
      · have := tableIndices_subset (visited_spec hq).1 ht
        exact absurd this (hwf.own_not_mem (ownRenames_table he))
      · exact ih hwf.child hq he
  | binary op l r ihl ihr =>
    rcases mem_cons.mp hq with rfl | hq
    · exact he
    have hside : ∀ {s : LogicalOperator}, q ∈ visited s → e.1.tableIndex ∈ s.tableIndices :=
      fun hs => tableIndices_subset (visited_spec hs).1 ht
    rcases mem_append.mp hq with hq | hq <;> rcases mem_append.mp he with he | he
    · exact ihl hwf.left hq he
    · exact absurd (renamesOf_table he) (hwf.sides_disjoint (hside hq))
    · exact absurd (hside hq) (hwf.sides_disjoint (renamesOf_table he))
    · exact ihr hwf.right hq he

theorem findRename_eq_origin (hwf : p.WellFormed) (hq : q ∈ visited p)
    (hc : c ∈ q.getColumnBindings) : (extractNodes {} p).findRename c = origin q c := by
  obtain ⟨hsub,-,hren,-⟩ := visited_spec hq
  refine chaseRename_eq_origin (hwf.of_mem hsub) ?_ ?_ hc ?_
  · exact fun e he => (lookupRename_eq_some hwf).mpr (hren he)
  · exact fun k v hk ht => renamesOf_below hwf hq ((lookupRename_eq_some hwf).mp hk) ht
  · rw [extracted_renames hwf]
    have hnd := renamesOf_nodup (hwf.of_mem hsub)
    exact (subperm_of_subset (List.Nodup.of_map _ hnd) hren).length_le

/-- The origin of a visible column lies in the plan. -/
theorem origin_table_mem (hwf : p.WellFormed) (hc : c ∈ p.getColumnBindings) :
    (origin p c).tableIndex ∈ p.tableIndices := by
  induction p generalizing c with
  | leaf op => exact tableIndex_mem hc
  | unary op child ih =>
    simp only [origin]
    cases hs : sourceColumn op c with
    | none => exact tableIndex_mem hc
    | some b => exact mem_append_right _ (ih hwf.child
        (mem_child_of_sourceColumn hwf.inScope.1 hc hs))
  | binary op l r ihl ihr =>
    simp only [origin]
    cases hs : sourceSide op l.getColumnBindings r.getColumnBindings c with
    | none => exact tableIndex_mem hc
    | some s =>
      refine mem_append_right _ ?_
      cases s with
      | left => exact mem_append_left _ (ihl hwf.left (sourceSide_left hs))
      | right => exact mem_append_right _ (ihr hwf.right (sourceSide_right hs).2)

end Chase

end PredTrans.Transfer
