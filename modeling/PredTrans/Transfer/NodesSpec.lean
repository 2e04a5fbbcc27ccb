import PredTrans.Transfer.Origin

namespace PredTrans.Transfer
open Plan List NodesManager LogicalOperator

/-! What `ExtractNodes` collects from a well-formed plan. -/

/-- The operators that become nodes. -/
def nodeId? : LogicalOperator → Option Nat
  | .leaf (.get t _) | .leaf (.delimGet t _) => some t
  | .unary (.filter _ _) child => scanTable child
  | .unary (.aggregate _ a _ groups _ sets _) _ => if isUngrouped groups sets then some a else none
  | .unary (.tableFunction t _ _) _ => some t
  | .binary (.setOperation _ t _) _ _ => some t
  | _ => none

def ownNode (op : LogicalOperator) : List (Nat × LogicalOperator) :=
  (nodeId? op).toList.map (fun id => (id, op))

/-- The nodes below and at an operator. A filter hides the scan under it. -/
def nodesOf : LogicalOperator → List (Nat × LogicalOperator)
  | .leaf op => ownNode (.leaf op)
  | .unary (.filter e es) child =>
    if (scanTable child).isSome then ownNode (.unary (.filter e es) child) else nodesOf child
  | .unary (.tableFunction t n f) child => ownNode (.unary (.tableFunction t n f) child)
  | .unary op child => nodesOf child ++ ownNode (.unary op child)
  | .binary op l r => ownNode (.binary op l r) ++ (nodesOf l ++ nodesOf r)

def renameEntries (table : Nat) (es : List Expression) : List (ColumnBinding × ColumnBinding) :=
  es.zipIdx.filterMap (fun e => (columnRef? e.1).map (fun b => (⟨table, e.2⟩, b)))

def ownRenames : UnaryOp → List (ColumnBinding × ColumnBinding)
  | .projection t es => renameEntries t es
  | .aggregate g _ _ groups _ sets _ => if isUngrouped groups sets then []
      else renameEntries g groups
  | _ => []

def renamesOf : LogicalOperator → List (ColumnBinding × ColumnBinding)
  | .leaf _ => []
  | .unary (.tableFunction _ _ _) _ => []
  | .unary op child => ownRenames op ++ renamesOf child
  | .binary _ l r => renamesOf l ++ renamesOf r

section Ids

theorem scanTable_mem (h : scanTable p = some t) : t ∈ p.tableIndices := by
  unfold scanTable at h
  split at h <;> simp_all [tableIndices,LeafOp.tableIndices,UnaryOp.tableIndices]

theorem nodeId?_mem {id : Nat} (h : nodeId? p = some id) : id ∈ p.tableIndices := by
  unfold nodeId? at h
  split at h
  · simp_all [tableIndices,LeafOp.tableIndices]
  · simp_all [tableIndices,LeafOp.tableIndices]
  · exact mem_append_right _ (scanTable_mem h)
  · split at h
    · cases h
      simp [tableIndices,UnaryOp.tableIndices]
    · cases h
  · simp_all [tableIndices,UnaryOp.tableIndices]
  · simp_all [tableIndices,BinaryOp.tableIndices]
  · cases h

/-- A node is registered under the id the optimizer later computes for it. -/
theorem getNodeId_of_nodeId? {id : Nat} (h : nodeId? p = some id) : getNodeId p = some id := by
  unfold nodeId? at h
  split at h
  · exact h
  · exact h
  · -- the child is a scan, so the other cases of `GetTableIndexinFilter` do not apply
    simp only [getNodeId]
    unfold scanTable at h
    split at h <;> first | (cases h; rfl) | cases h
  · split at h
    · exact h
    · cases h
  · exact h
  · exact h
  · cases h

theorem mem_ownNode : n ∈ ownNode p ↔ nodeId? p = some n.1 ∧ n.2 = p := by
  unfold ownNode
  cases h : nodeId? p with
  | none => simp
  | some id =>
    simp only [Option.toList_some,map_cons,map_nil,mem_singleton,
      Option.some.injEq,Prod.ext_iff]
    exact ⟨fun ⟨h1,h2⟩ => ⟨h1.symm,h2⟩,fun ⟨h1,h2⟩ => ⟨h1.symm,h2⟩⟩

/-- The nodes of a unary operator are those of its child and possibly itself. -/
theorem mem_nodesOf_unary (h : n ∈ nodesOf (.unary op c)) :
    n ∈ ownNode (.unary op c) ∨ n ∈ nodesOf c := by
  cases op with
  | filter e es =>
    simp only [nodesOf] at h
    split at h
    · exact .inl h
    · exact .inr h
  | tableFunction t k f => exact .inl h
  | _ => exact (mem_append.mp h).symm

theorem nodesOf_spec (h : n ∈ nodesOf p) : n.2 ∈ p.subplans ∧ nodeId? n.2 = some n.1 := by
  have hown : ∀ q : LogicalOperator, n ∈ ownNode q → n.2 ∈ q.subplans ∧ nodeId? n.2 = some n.1 := by
    intro q hq
    obtain ⟨hid,he⟩ := mem_ownNode.mp hq
    exact ⟨he ▸ q.self_mem_subplans,he ▸ hid⟩
  induction p with
  | leaf op => exact hown _ h
  | unary op c ih =>
    rcases mem_nodesOf_unary h with h | h
    · exact hown _ h
    · exact ⟨mem_cons_of_mem _ (ih h).1,(ih h).2⟩
  | binary op l r ihl ihr =>
    rcases mem_append.mp h with h | h
    · exact hown _ h
    · rcases mem_append.mp h with h | h
      · exact ⟨mem_cons_of_mem _ (mem_append_left _ (ihl h).1),(ihl h).2⟩
      · exact ⟨mem_cons_of_mem _ (mem_append_right _ (ihr h).1),(ihr h).2⟩

theorem nodesOf_id_mem {id : Nat} (h : id ∈ (nodesOf p).map Prod.fst) : id ∈ p.tableIndices := by
  obtain ⟨n,hn,rfl⟩ := mem_map.mp h
  obtain ⟨hsub,hid⟩ := nodesOf_spec hn
  exact tableIndices_subset hsub (nodeId?_mem hid)

theorem ownNode_ids (p : LogicalOperator) : (ownNode p).map Prod.fst = (nodeId? p).toList := by
  unfold ownNode
  cases nodeId? p <;> rfl

theorem nodeId?_own {id : Nat} (hf : ∀ e es, op ≠ .filter e es)
    (h : nodeId? (.unary op c) = some id) : id ∈ op.tableIndices := by
  cases op with
  | filter e es => exact absurd rfl (hf e es)
  | aggregate g a gs groups aggregates sets functions =>
    simp only [nodeId?] at h
    split at h
    · cases h
      simp [UnaryOp.tableIndices]
    · cases h
  | tableFunction t n f =>
    cases h
    simp [UnaryOp.tableIndices]
  | _ => cases h

theorem nodeId?_own_binary {id : Nat} (h : nodeId? (.binary op l r) = some id) :
    id ∈ op.tableIndices := by
  cases op with
  | setOperation k t n =>
    cases h
    simp [BinaryOp.tableIndices]
  | _ => cases h

theorem nodup_toList (o : Option α) : o.toList.Nodup := by
  cases o <;> simp

/-- Unique table indices give unique node ids. -/
theorem nodesOf_nodup (h : p.WellFormed) : ((nodesOf p).map Prod.fst).Nodup := by
  induction p with
  | leaf op =>
    rw [nodesOf,ownNode_ids]
    exact nodup_toList _
  | unary op c ih =>
    have hpair : (∀ e es, op ≠ .filter e es) →
        ((nodesOf c ++ ownNode (.unary op c)).map Prod.fst).Nodup := by
      intro hf
      rw [map_append,nodup_append,ownNode_ids]
      refine ⟨ih h.child,nodup_toList _,?_⟩
      rintro a ha b hb rfl
      exact h.own_not_mem (nodeId?_own hf (Option.mem_toList.mp hb)) (nodesOf_id_mem ha)
    cases op with
    | filter e es =>
      simp only [nodesOf]
      split
      · rw [ownNode_ids]
        exact nodup_toList _
      · exact ih h.child
    | tableFunction t n f =>
      rw [nodesOf,ownNode_ids]
      exact nodup_toList _
    | _ => exact hpair (fun _ _ => nofun)
  | binary op l r ihl ihr =>
    rw [nodesOf,map_append,map_append,nodup_append,nodup_append,ownNode_ids]
    refine ⟨nodup_toList _,⟨ihl h.left,ihr h.right,?_⟩,?_⟩
    · rintro a ha b hb rfl
      exact h.sides_disjoint (nodesOf_id_mem ha) (nodesOf_id_mem hb)
    rintro a ha b hb rfl
    have hown := nodeId?_own_binary (Option.mem_toList.mp ha)
    rcases mem_append.mp hb with hb | hb
    · exact h.own_not_mem_left hown (nodesOf_id_mem hb)
    · exact h.own_not_mem_right hown (nodesOf_id_mem hb)

end Ids

section Extract

theorem addNode_of_fresh {m : NodesManager} (hid : getNodeId op = nodeId? op)
    (h : ((m.nodes ++ ownNode op).map Prod.fst).Nodup) :
    m.addNode op = { m with nodes := m.nodes ++ ownNode op } := by
  unfold addNode ownNode
  rw [hid]
  cases hn : nodeId? op with
  | none => simp
  | some id =>
    have hfresh : ¬ m.nodes.any (fun n => n.1 == id) = true := by
      intro hany
      obtain ⟨n,hmem,he⟩ := any_eq_true.mp hany
      rw [map_append,nodup_append,ownNode_ids,hn] at h
      exact h.2.2 n.1 (mem_map_of_mem hmem) id (by simp) (beq_iff_eq.mp he)
    simp [hfresh]

section

variable (m : NodesManager) (op : LogicalOperator)
include m op

@[simp] theorem addNode_renameCols : (m.addNode op).renameCols = m.renameCols := by
  unfold addNode
  split
  · split <;> rfl
  · rfl

@[simp] theorem addNode_filterOperators : (m.addNode op).filterOperators = m.filterOperators := by
  unfold addNode
  split
  · split <;> rfl
  · rfl

@[simp] theorem recordJoin_nodes (type : JoinType)
    (cs : List JoinCondition) : (m.recordJoin op type cs).nodes = m.nodes := by
  unfold recordJoin
  split <;> rfl

@[simp] theorem recordJoin_renameCols (type : JoinType)
    (cs : List JoinCondition) : (m.recordJoin op type cs).renameCols = m.renameCols := by
  unfold recordJoin
  split <;> rfl

end

theorem renameColumn_frame (t : Nat) (m : NodesManager) (e : Expression × Nat) :
    (m.renameColumn t e).nodes = m.nodes ∧
      (m.renameColumn t e).filterOperators = m.filterOperators := by
  unfold renameColumn
  split
  · unfold insertRename
    split <;> exact ⟨rfl,rfl⟩
  · exact ⟨rfl,rfl⟩

section

variable (m : NodesManager) (t : Nat) (es : List Expression)
include m t es

/-- The fields a rename leaves alone, over the whole loop. -/
theorem renameColumns_frame :
    (m.renameColumns t es).nodes = m.nodes ∧
      (m.renameColumns t es).filterOperators = m.filterOperators := by
  unfold renameColumns
  induction es.zipIdx generalizing m with
  | nil => exact ⟨rfl,rfl⟩
  | cons e l ih =>
    obtain ⟨h1,h2⟩ := ih (m.renameColumn t e)
    obtain ⟨h3,h4⟩ := renameColumn_frame t m e
    exact ⟨h1.trans h3,h2.trans h4⟩

@[simp] theorem renameColumns_nodes :
    (m.renameColumns t es).nodes = m.nodes := (renameColumns_frame m t es).1

@[simp] theorem renameColumns_filterOperators :
    (m.renameColumns t es).filterOperators = m.filterOperators := (renameColumns_frame m t es).2

end

theorem insertRename_of_fresh {m : NodesManager} (h : k ∉ m.renameCols.map Prod.fst) :
    (m.insertRename k v).renameCols = m.renameCols ++ [(k, v)] := by
  have hfresh : ¬ m.renameCols.any (fun e => e.1 == k) = true := by
    intro hany
    obtain ⟨e,he,hk⟩ := any_eq_true.mp hany
    exact h (beq_iff_eq.mp hk ▸ mem_map_of_mem he)
  unfold insertRename
  rw [if_neg hfresh]

theorem renameColumns_renames {m : NodesManager}
    (h : ((m.renameCols ++ renameEntries t es).map Prod.fst).Nodup) :
    (m.renameColumns t es).renameCols = m.renameCols ++ renameEntries t es := by
  unfold renameColumns renameEntries at *
  generalize es.zipIdx = entries at *
  induction entries generalizing m with
  | nil => simp
  | cons e l ih =>
    rw [foldl_cons]
    cases he : columnRef? e.1 with
    | none =>
      simp only [filterMap_cons,he,Option.map_none] at h ⊢
      have hm : m.renameColumn t e = m := by simp [renameColumn,he]
      rw [hm]
      exact ih h
    | some b =>
      simp only [filterMap_cons,he,Option.map_some] at h ⊢
      have hkey : (⟨t,e.2⟩ : ColumnBinding) ∉ m.renameCols.map Prod.fst := by
        intro hk
        rw [map_append,nodup_append] at h
        exact h.2.2 _ hk _ mem_cons_self rfl
      have hm : (m.renameColumn t e).renameCols = m.renameCols ++ [(⟨t,e.2⟩, b)] := by
        simp only [renameColumn,he]
        exact insertRename_of_fresh hkey
      rw [ih (by rw [hm]; simpa using h),hm]
      simp

theorem extractNodes_nodes {p : LogicalOperator} (h : ((m.nodes ++ nodesOf p).map Prod.fst).Nodup) :
    (extractNodes m p).nodes = m.nodes ++ nodesOf p := by
  induction p generalizing m with
  | leaf op =>
    have hid : getNodeId (.leaf op) = nodeId? (.leaf op) := by cases op <;> rfl
    simp only [extractNodes]
    rw [addNode_of_fresh hid h]
    rfl
  | unary op c ih =>
    have hskip : ∀ m' : NodesManager, m'.nodes = m.nodes →
        nodesOf (.unary op c) = nodesOf c → (extractNodes m' c).nodes = m.nodes ++ nodesOf c := by
      intro m' hm' hn
      rw [ih (by rw [hm',← hn]; exact h),hm']
    cases op with
    | filter e es =>
      simp only [extractNodes]
      simp only [nodesOf] at h ⊢
      cases hs : scanTable c with
      | some t =>
        simp only [hs,Option.isSome_some,if_true] at h ⊢
        have hid : nodeId? (.unary (.filter e es) c) = some t := hs
        rw [addNode_of_fresh ((getNodeId_of_nodeId? hid).trans hid.symm) h]
      | none =>
        simp only [hs,Option.isSome_none,Bool.false_eq_true,if_false] at h ⊢
        exact ih h
    | aggregate g a gs groups aggregates sets functions =>
      simp only [extractNodes,nodesOf] at h ⊢
      by_cases hu : isUngrouped groups sets = true
      · rw [if_pos hu]
        have hc : (extractNodes m c).nodes = m.nodes ++ nodesOf c := by
          refine ih ?_
          rw [← append_assoc,map_append] at h
          exact (nodup_append.mp h).1
        have hid : nodeId? (.unary (.aggregate g a gs groups aggregates sets functions) c) =
            some a := if_pos hu
        rw [addNode_of_fresh ((getNodeId_of_nodeId? hid).trans hid.symm)
          (by rw [hc,append_assoc]; exact h)]
        simp only [hc,append_assoc]
      · have hown : ownNode (.unary (.aggregate g a gs groups aggregates sets functions) c) =
          [] := by
          simp [ownNode,nodeId?,hu]
        rw [if_neg hu,hown,append_nil]
        exact hskip _ (by simp) (by simp [nodesOf,hown])
    | projection t es =>
      have hn : nodesOf (.unary (.projection t es) c) = nodesOf c := by
        simp [nodesOf,ownNode,nodeId?]
      rw [hn]
      exact hskip _ (by simp) hn
    | tableFunction t n f =>
      simp only [extractNodes]
      rw [addNode_of_fresh rfl h]
      rfl
    | _ =>
      simp only [nodesOf,ownNode,nodeId?,Option.toList_none,map_nil,append_nil]
      exact hskip m rfl (by simp [nodesOf,ownNode,nodeId?])
  | binary op l r ihl ihr =>
    have hsides : ∀ m' : NodesManager, m'.nodes = m.nodes ++ ownNode (.binary op l r) →
        (extractNodes (extractNodes m' l) r).nodes = m.nodes ++ nodesOf (.binary op l r) := by
      intro m' hm'
      simp only [nodesOf,← append_assoc] at h ⊢
      have hl : (extractNodes m' l).nodes = m'.nodes ++ nodesOf l := by
        refine ihl ?_
        rw [hm']
        rw [map_append] at h
        exact (nodup_append.mp h).1
      rw [ihr (by rw [hl,hm']; exact h),hl,hm']
    cases op with
    | setOperation k t n =>
      simp only [extractNodes]
      refine hsides _ ?_
      rw [addNode_of_fresh rfl]
      simp only [nodesOf,← append_assoc] at h
      rw [map_append,nodup_append] at h
      rw [map_append,nodup_append] at h
      exact h.1.1
    | _ =>
      simp only [extractNodes]
      exact hsides _ (by simp [ownNode,nodeId?])

theorem mem_renameEntries :
    e ∈ renameEntries t es ↔
      e.1.tableIndex = t ∧ es[e.1.columnIndex]? = some (.boundColumnRef e.2) := by
  obtain ⟨⟨kt,ki⟩,b⟩ := e
  simp only [renameEntries,mem_filterMap,Option.map_eq_some_iff,columnRef?_eq_some,
    Prod.mk.injEq,ColumnBinding.mk.injEq]
  constructor
  · rintro ⟨⟨e,i⟩,he,b',rfl,⟨rfl,rfl⟩,rfl⟩
    exact ⟨rfl,mem_zipIdx_iff_getElem?.mp he⟩
  · rintro ⟨rfl,hb⟩
    exact ⟨(.boundColumnRef b, ki),mem_zipIdx_iff_getElem?.mpr hb,b,rfl,⟨rfl,rfl⟩,rfl⟩

theorem renameEntries_nodup (t : Nat) (es : List Expression) :
    ((renameEntries t es).map Prod.fst).Nodup := by
  unfold renameEntries
  rw [map_filterMap]
  have hsub : ((es.zipIdx.filterMap (fun e => ((columnRef? e.1).map
      (fun b => ((⟨t,e.2⟩ : ColumnBinding), b))).map Prod.fst))).Sublist
      (es.zipIdx.map (fun e => (⟨t,e.2⟩ : ColumnBinding))) := by
    induction es.zipIdx with
    | nil => exact List.Sublist.refl _
    | cons e l ih =>
      rw [map_cons,filterMap_cons]
      cases columnRef? e.1 with
      | none => exact ih.cons _
      | some b => exact ih.cons_cons _
  refine hsub.nodup ?_
  have hmap : es.zipIdx.map (fun e => (⟨t,e.2⟩ : ColumnBinding)) =
      (es.zipIdx.map Prod.snd).map (ColumnBinding.mk t) := by rw [map_map]; rfl
  rw [hmap,zipIdx_map_snd]
  refine (nodup_range' ..).map ?_
  intro a b hab
  exact (ColumnBinding.mk.inj hab).2

theorem ownRenames_table (h : e ∈ ownRenames op) : e.1.tableIndex ∈ op.tableIndices := by
  cases op with
  | projection t es => simp [UnaryOp.tableIndices,(mem_renameEntries.mp h).1]
  | aggregate g a gs groups aggregates sets functions =>
    simp only [ownRenames] at h
    split at h
    · cases h
    · simp [UnaryOp.tableIndices,(mem_renameEntries.mp h).1]
  | _ => cases h

theorem ownRenames_nodup (op : UnaryOp) : ((ownRenames op).map Prod.fst).Nodup := by
  cases op with
  | projection t es => exact renameEntries_nodup t es
  | aggregate g a gs groups aggregates sets functions =>
    simp only [ownRenames]
    split
    · exact nodup_nil
    · exact renameEntries_nodup g groups
  | _ => exact nodup_nil

theorem mem_renamesOf_unary (h : e ∈ renamesOf (.unary op c)) :
    e ∈ ownRenames op ∨ e ∈ renamesOf c := by
  cases op with
  | tableFunction t n f => cases h
  | _ => exact mem_append.mp h

theorem renamesOf_table (h : e ∈ renamesOf p) : e.1.tableIndex ∈ p.tableIndices := by
  induction p with
  | leaf op => cases h
  | unary op c ih =>
    rcases mem_renamesOf_unary h with h | h
    · exact mem_append_left _ (ownRenames_table h)
    · exact mem_append_right _ (ih h)
  | binary op l r ihl ihr =>
    refine mem_append_right _ ?_
    rcases mem_append.mp h with h | h
    · exact mem_append_left _ (ihl h)
    · exact mem_append_right _ (ihr h)

theorem renamesOf_nodup (h : p.WellFormed) : ((renamesOf p).map Prod.fst).Nodup := by
  induction p with
  | leaf op => exact nodup_nil
  | unary op c ih =>
    have hpair : ((ownRenames op ++ renamesOf c).map Prod.fst).Nodup := by
      rw [map_append,nodup_append]
      refine ⟨ownRenames_nodup op,ih h.child,?_⟩
      rintro a ha b hb rfl
      obtain ⟨e,he,rfl⟩ := mem_map.mp ha
      obtain ⟨e',he',heq⟩ := mem_map.mp hb
      exact h.own_not_mem (ownRenames_table he) (heq ▸ renamesOf_table he')
    cases op with
    | tableFunction t n f => exact nodup_nil
    | _ => exact hpair
  | binary op l r ihl ihr =>
    rw [renamesOf,map_append,nodup_append]
    refine ⟨ihl h.left,ihr h.right,?_⟩
    rintro a ha b hb rfl
    obtain ⟨e,he,rfl⟩ := mem_map.mp ha
    obtain ⟨e',he',heq⟩ := mem_map.mp hb
    exact h.sides_disjoint (renamesOf_table he) (heq ▸ renamesOf_table he')

theorem renamesOf_scan (h : scanTable p = some t) : renamesOf p = [] := by
  unfold scanTable at h
  split at h <;> first | rfl | cases h

theorem extractNodes_renames {p : LogicalOperator}
    (h : ((m.renameCols ++ renamesOf p).map Prod.fst).Nodup) :
    (extractNodes m p).renameCols = m.renameCols ++ renamesOf p := by
  induction p generalizing m with
  | leaf op => simp [extractNodes,renamesOf]
  | unary op c ih =>
    have hrename : ∀ t es, renamesOf (.unary op c) = renameEntries t es ++ renamesOf c →
        (extractNodes (m.renameColumns t es) c).renameCols =
          m.renameCols ++ renamesOf (.unary op c) := by
      intro t es hr
      rw [hr] at h ⊢
      have hm : (m.renameColumns t es).renameCols = _ := renameColumns_renames (by
        rw [← append_assoc,map_append] at h
        exact (nodup_append.mp h).1)
      rw [ih (by rw [hm,append_assoc]; exact h),hm,append_assoc]
    have hskip : ∀ m' : NodesManager, m'.renameCols = m.renameCols →
        renamesOf (.unary op c) = renamesOf c →
        (extractNodes m' c).renameCols = m.renameCols ++ renamesOf (.unary op c) := by
      intro m' hm' hr
      rw [hr,ih (by rw [hm',← hr]; exact h),hm']
    cases op with
    | filter e es =>
      simp only [extractNodes]
      cases hs : scanTable c with
      | some t => simp [renamesOf,ownRenames,renamesOf_scan hs]
      | none => exact hskip { m with canAddMark := _ } rfl rfl
    | aggregate g a gs groups aggregates sets functions =>
      simp only [extractNodes]
      by_cases hu : isUngrouped groups sets = true
      · rw [if_pos hu,addNode_renameCols]
        exact hskip m rfl (by simp [renamesOf,ownRenames,hu])
      · rw [if_neg hu]
        exact hrename g groups (by simp [renamesOf,ownRenames,hu])
    | projection t es => exact hrename t es rfl
    | tableFunction t n f => simp [extractNodes,renamesOf]
    | _ => exact hskip m rfl rfl
  | binary op l r ihl ihr =>
    have hsides : ∀ m' : NodesManager, m'.renameCols = m.renameCols →
        (extractNodes (extractNodes m' l) r).renameCols = m.renameCols ++
            renamesOf (.binary op l r) := by
      intro m' hm'
      simp only [renamesOf,← append_assoc] at h ⊢
      have hl : (extractNodes m' l).renameCols = m'.renameCols ++ renamesOf l := by
        refine ihl ?_
        rw [hm']
        rw [map_append] at h
        exact (nodup_append.mp h).1
      rw [ihr (by rw [hl,hm']; exact h),hl,hm']
    cases op <;> simp only [extractNodes] <;> exact hsides _ (by simp)

end Extract

end PredTrans.Transfer
