import PredTrans.Transfer.SpanningTree

namespace PredTrans.Transfer
open Plan Library List LogicalOperator NodesManager

/-! Natural joins of base relations as plans, and the transfer graph they get. -/

variable {A : Type*}

def compareColumns (cmp : ComparisonType) (c : ColumnBinding × ColumnBinding) : JoinCondition :=
  ⟨.boundColumnRef c.1, .boundColumnRef c.2, cmp⟩

/-- An inner join on comparisons of columns, or a cross product. -/
inductive JoinsOn (cmp : ComparisonType) :
    BinaryOp → List (ColumnBinding × ColumnBinding) → Prop where
  | comparison (m : Nat) (pairs : List (ColumnBinding × ColumnBinding)) :
      JoinsOn cmp (.comparisonJoin .inner m (pairs.map (compareColumns cmp))) pairs
  | cross : JoinsOn cmp .crossProduct []

/-- Base relations, with or without a filter, joined by one comparison for each
two columns of different relations that have the same attribute. -/
inductive NaturalJoin (attr : ColumnBinding → A) (cmp : ComparisonType) :
    LogicalOperator → Prop where
  | get (t n : Nat) : NaturalJoin attr cmp (.leaf (.get t n))
  | filter (e : Expression) (es : List Expression) (t n : Nat) :
      NaturalJoin attr cmp (.unary (.filter e es) (.leaf (.get t n)))
  | join {op : BinaryOp} {pairs : List (ColumnBinding × ColumnBinding)} {l r : LogicalOperator} :
      JoinsOn cmp op pairs → pairs.Nodup →
      (∀ a b, (a, b) ∈ pairs ↔
        a ∈ l.getColumnBindings ∧ b ∈ r.getColumnBindings ∧ attr a = attr b) →
      NaturalJoin attr cmp l → NaturalJoin attr cmp r → NaturalJoin attr cmp (.binary op l r)

def columnPair? (c : JoinCondition) : Option (ColumnBinding × ColumnBinding) :=
  (columnRef? c.left).bind (fun a => (columnRef? c.right).map (Prod.mk a))

/-- The column comparisons of a plan's joins, topmost first. -/
def columnPairs : LogicalOperator → List (ColumnBinding × ColumnBinding)
  | .binary (.comparisonJoin _ _ cs) l r =>
    cs.filterMap columnPair? ++ (columnPairs l ++ columnPairs r)
  | .binary _ l r => columnPairs l ++ columnPairs r
  | _ => []

section JoinsOn

variable {cmp : ComparisonType} {op : BinaryOp} {pairs : List (ColumnBinding × ColumnBinding)}
  {l r : LogicalOperator}

theorem recordedComparisons_append (as bs : List LogicalOperator) :
    recordedComparisons (as ++ bs) = recordedComparisons as ++ recordedComparisons bs :=
  flatMap_append

theorem JoinsOn.recorded (h : JoinsOn .equal op pairs) (m : NodesManager) :
    ∃ m' : NodesManager, extractNodes m (.binary op l r) = extractNodes (extractNodes m' l) r ∧
      recordedComparisons m'.filterOperators = recordedComparisons m.filterOperators ++
        pairs.map (fun c => (.inner, compareColumns .equal c)) := by
  cases h with
  | cross => exact ⟨m,rfl,by simp⟩
  | comparison k =>
    refine ⟨m.recordJoin (.binary (.comparisonJoin .inner k
      (pairs.map (compareColumns .equal))) l r)
      .inner (pairs.map (compareColumns .equal)),rfl,?_⟩
    have hown : recordedComparisons [binary
        (.comparisonJoin .inner k (pairs.map (compareColumns .equal))) l r] =
        pairs.map (fun c => (.inner, compareColumns .equal c)) := by
      simp only [recordedComparisons,joinConditions,flatMap_cons,flatMap_nil,
        append_nil]
      rw [filter_eq_self.mpr,map_map]
      · rfl
      · intro c hc
        obtain ⟨c',-,rfl⟩ := mem_map.mp hc
        rfl
    unfold recordJoin
    split
    · rw [recordedComparisons_append,hown]
    rename_i hany
    have hnil : pairs = [] := by
      cases pairs with
      | nil => rfl
      | cons c pairs => simp [records,compareColumns,isColumnEquality,columnRef?] at hany
    simp [hnil]

variable (h : JoinsOn cmp op pairs)
include h

theorem JoinsOn.getColumnBindings (ls rs : List ColumnBinding) :
    op.getColumnBindings ls rs = ls ++ rs := by
  cases h <;> rfl

theorem JoinsOn.tableIndices : op.tableIndices = [] := by
  cases h <;> rfl

theorem JoinsOn.nodesOf : nodesOf (.binary op l r) = Transfer.nodesOf l ++ Transfer.nodesOf r := by
  cases h <;> rfl

theorem JoinsOn.columnPairs :
    columnPairs (.binary op l r) = pairs ++ (Transfer.columnPairs l ++ Transfer.columnPairs r) := by
  cases h with
  | cross => rfl
  | comparison m =>
    have hpairs : (pairs.map (compareColumns cmp)).filterMap columnPair? = pairs := by
      rw [filterMap_map]
      exact filterMap_some
    rw [Transfer.columnPairs,hpairs]

end JoinsOn

namespace NaturalJoin

variable {attr : ColumnBinding → A} {cmp : ComparisonType} {p : LogicalOperator}

theorem recorded (h : NaturalJoin attr .equal p) (m : NodesManager) :
    recordedComparisons (extractNodes m p).filterOperators =
      recordedComparisons m.filterOperators ++
        (columnPairs p).map (fun c => (.inner, compareColumns .equal c)) := by
  induction h generalizing m with
  | get t n => simp [extractNodes,columnPairs]
  | filter e es t n => simp [extractNodes,columnPairs,scanTable]
  | @join op pairs l r hop _ _ _ _ ihl ihr =>
    obtain ⟨m',hm',hrec⟩ := hop.recorded (l := l) (r := r) m
    rw [hm',ihr,ihl,hrec,hop.columnPairs]
    simp

variable (h : NaturalJoin attr cmp p)
include h

theorem ids_eq : (nodesOf p).map Prod.fst = p.tableIndices := by
  induction h with
  | get t n | filter e es t n => rfl
  | join hop _ _ _ _ ihl ihr =>
    rw [hop.nodesOf,map_append,ihl,ihr,tableIndices,hop.tableIndices]
    rfl

theorem node_of_column (hc : c ∈ p.getColumnBindings) : ∃ n, (c.tableIndex, n) ∈ nodesOf p := by
  have hid : c.tableIndex ∈ (nodesOf p).map Prod.fst := h.ids_eq ▸ tableIndex_mem hc
  obtain ⟨⟨x,n⟩,hn,rfl⟩ := mem_map.mp hid
  exact ⟨n,hn⟩

theorem node_cases (hn : (x, n) ∈ nodesOf p) :
    (∃ k, n = .leaf (.get x k)) ∨
      ∃ e es k, n = .unary (.filter e es) (.leaf (.get x k)) := by
  induction h with
  | get t k =>
    obtain ⟨rfl,rfl⟩ := Prod.mk.inj (mem_singleton.mp hn)
    exact .inl ⟨k,rfl⟩
  | filter e es t k =>
    obtain ⟨rfl,rfl⟩ := Prod.mk.inj (mem_singleton.mp hn)
    exact .inr ⟨e,es,k,rfl⟩
  | join hop _ _ _ _ ihl ihr =>
    rw [hop.nodesOf] at hn
    exact (mem_append.mp hn).elim ihl ihr

theorem columnPairs_complete (ha : a ∈ p.getColumnBindings)
    (hb : b ∈ p.getColumnBindings) (ht : a.tableIndex ≠ b.tableIndex) (he : attr a = attr b) :
    (a, b) ∈ columnPairs p ∨ (b, a) ∈ columnPairs p := by
  have hleaf : ∀ t n, a ∈ generateColumnBindings t n → b ∉ generateColumnBindings t n := by
    intro t n ha hb
    exact ht ((mem_generateColumnBindings.mp ha).1.trans (mem_generateColumnBindings.mp hb).1.symm)
  induction h with
  | get t n | filter e es t n => exact absurd hb (hleaf t n ha)
  | @join op pairs l r hop _ hpairs _ _ ihl ihr =>
    rw [hop.columnPairs]
    rw [getColumnBindings,hop.getColumnBindings] at ha hb
    simp
    rcases mem_append.mp ha with ha | ha <;> rcases mem_append.mp hb with hb | hb
    · exact (ihl ha hb).imp (fun h => .inr (.inl h)) (fun h => .inr (.inl h))
    · exact .inl (.inl ((hpairs a b).mpr ⟨ha,hb,he⟩))
    · exact .inr (.inl ((hpairs b a).mpr ⟨hb,ha,he.symm⟩))
    · exact (ihr ha hb).imp (fun h => .inr (.inr h)) (fun h => .inr (.inr h))

variable (hwf : p.WellFormed)
include hwf

theorem node_columns (hn : (x, n) ∈ nodesOf p) :
    c ∈ n.getColumnBindings ↔ c ∈ p.getColumnBindings ∧ c.tableIndex = x := by
  have hleaf : ∀ t k, c ∈ generateColumnBindings t k ↔
      c ∈ generateColumnBindings t k ∧ c.tableIndex = t := by
    intro t k
    exact ⟨fun hc => ⟨hc,(mem_generateColumnBindings.mp hc).1⟩,And.left⟩
  induction h with
  | get t k | filter e es t k =>
    obtain ⟨rfl,rfl⟩ := Prod.mk.inj (mem_singleton.mp hn)
    exact hleaf x k
  | @join op pairs l r hop _ _ hl hr ihl ihr =>
    rw [hop.nodesOf] at hn
    rw [getColumnBindings,hop.getColumnBindings,mem_append]
    rcases mem_append.mp hn with hn | hn
    · have hx : x ∈ l.tableIndices := nodesOf_id_mem (mem_map.mpr ⟨_,hn,rfl⟩)
      have hout : c.tableIndex = x → c ∉ r.getColumnBindings := fun ht hc =>
        hwf.sides_disjoint hx (ht ▸ tableIndex_mem hc)
      exact (ihl hwf.left hn).trans (and_congr_left (fun ht => by simp [hout ht]))
    · have hx : x ∈ r.tableIndices := nodesOf_id_mem (mem_map.mpr ⟨_,hn,rfl⟩)
      have hout : c.tableIndex = x → c ∉ l.getColumnBindings := fun ht hc =>
        hwf.sides_disjoint (ht ▸ tableIndex_mem hc) hx
      exact (ihr hwf.right hn).trans (and_congr_left (fun ht => by simp [hout ht]))

theorem mem_columnPairs
    (hab : (a, b) ∈ columnPairs p) : a ∈ p.getColumnBindings ∧ b ∈ p.getColumnBindings ∧
      a.tableIndex ≠ b.tableIndex ∧ attr a = attr b := by
  induction h with
  | get t n | filter e es t n => cases hab
  | @join op pairs l r hop _ hpairs _ _ ihl ihr =>
    rw [hop.columnPairs] at hab
    rw [getColumnBindings,hop.getColumnBindings]
    rcases mem_append.mp hab with hab | hab
    · obtain ⟨ha,hb,he⟩ := (hpairs a b).mp hab
      refine ⟨mem_append_left _ ha,mem_append_right _ hb,fun ht => ?_,he⟩
      exact hwf.sides_disjoint (tableIndex_mem ha)
        (ht ▸ tableIndex_mem hb)
    · rcases mem_append.mp hab with hab | hab
      · obtain ⟨ha,hb,h⟩ := ihl hwf.left hab
        exact ⟨mem_append_left _ ha,mem_append_left _ hb,h⟩
      · obtain ⟨ha,hb,h⟩ := ihr hwf.right hab
        exact ⟨mem_append_right _ ha,mem_append_right _ hb,h⟩

/-- No two columns are compared both ways round. -/
theorem columnPairs_asymm (hab : (a, b) ∈ columnPairs p) : (b, a) ∉ columnPairs p := by
  induction h with
  | get t n | filter e es t n => cases hab
  | @join op pairs l r hop _ hpairs hl hr ihl ihr =>
    have hdisj := hwf.columns_disjoint
    have hinl : ∀ {u v}, (u, v) ∈ columnPairs l → u ∈ l.getColumnBindings ∧
        v ∈ l.getColumnBindings :=
      fun h => ⟨(hl.mem_columnPairs hwf.left h).1,(hl.mem_columnPairs hwf.left h).2.1⟩
    have hinr : ∀ {u v}, (u, v) ∈ columnPairs r → u ∈ r.getColumnBindings ∧
        v ∈ r.getColumnBindings :=
      fun h => ⟨(hr.mem_columnPairs hwf.right h).1,(hr.mem_columnPairs hwf.right h).2.1⟩
    rw [hop.columnPairs] at hab ⊢
    simp only [mem_append,not_or] at hab ⊢
    rcases hab with hab | hab | hab
    · obtain ⟨ha,hb,-⟩ := (hpairs a b).mp hab
      refine ⟨fun h => ?_,fun h => ?_,fun h => ?_⟩
      · exact hdisj b ((hpairs b a).mp h).1 hb
      · exact hdisj b (hinl h).1 hb
      · exact hdisj a ha (hinr h).2
    · obtain ⟨ha,hb⟩ := hinl hab
      refine ⟨fun h => ?_,ihl hwf.left hab,fun h => ?_⟩
      · exact hdisj a ha ((hpairs b a).mp h).2.1
      · exact hdisj a ha (hinr h).2
    · obtain ⟨ha,hb⟩ := hinr hab
      refine ⟨fun h => ?_,fun h => ?_,ihr hwf.right hab⟩
      · exact hdisj b ((hpairs b a).mp h).1 hb
      · exact hdisj b (hinl h).1 hb

theorem columnPairs_nodup : (columnPairs p).Nodup := by
  induction h with
  | get t n | filter e es t n => exact nodup_nil
  | @join op pairs l r hop hnd hpairs hl hr ihl ihr =>
    have hdisj := hwf.columns_disjoint
    rw [hop.columnPairs,nodup_append,nodup_append]
    refine ⟨hnd,⟨ihl hwf.left,ihr hwf.right,?_⟩,?_⟩
    · intro c hc c' hc' he
      subst he
      exact hdisj c.1 (hl.mem_columnPairs hwf.left hc).1 (hr.mem_columnPairs hwf.right hc').1
    intro c hc c' hc' he
    subst he
    obtain ⟨ha,hb,-⟩ := (hpairs c.1 c.2).mp hc
    rcases mem_append.mp hc' with hc' | hc'
    · exact hdisj c.2 (hl.mem_columnPairs hwf.left hc').2.1 hb
    · exact hdisj c.1 ha (hr.mem_columnPairs hwf.right hc').1

theorem findRename (c : ColumnBinding) : (extractNodes {} p).findRename c = c := by
  have hnone : renamesOf p = [] := by
    induction h with
    | get t n | filter e es t n => rfl
    | join _ _ _ _ _ ihl ihr =>
      rw [renamesOf,ihl hwf.left,ihr hwf.right]
      rfl
  have hempty : (extractNodes {} p).renameCols = [] := by
    rw [extractNodes_renames (by simp [hnone]),hnone]
    rfl
  unfold NodesManager.findRename
  rw [hempty]
  rfl

end NaturalJoin

section Graph

/-- What one comparison adds to the stored edges. -/
def NodesManager.entriesOf (m : NodesManager) (sorted : List LogicalOperator)
    (comparison : JoinType × JoinCondition) : List ((Nat × Nat) × DAGEdgeInfo) :=
  match m.edgeOf sorted comparison.1 comparison.2 with
  | some (leftTable, rightTable, info) =>
    [((rightTable, leftTable), info), ((leftTable, rightTable), info)]
  | none => []

/-- Without duplicates every comparison is stored. -/
theorem addComparisons_eq {m : NodesManager} {rest : List (JoinType × JoinCondition)}
    (hnd : (rest.map Prod.snd).Nodup) (hnew : ∀ x ∈ rest, x.2 ∉ state.1) :
    (rest.foldl (m.addComparison sorted) state).2 = state.2 ++
        rest.flatMap (m.entriesOf sorted) := by
  induction rest generalizing state with
  | nil => simp
  | cons x rest ih =>
    rw [map_cons,nodup_cons] at hnd
    have hx : x.2 ∉ state.1 := hnew x mem_cons_self
    have hstep : m.addComparison sorted state x =
        (state.1 ++ [x.2], state.2 ++ m.entriesOf sorted x) := by
      unfold addComparison entriesOf
      rw [if_neg hx]
      cases m.edgeOf sorted x.1 x.2 <;> simp
    rw [foldl_cons,hstep,ih hnd.2]
    · simp
    · intro y hy hmem
      rcases mem_append.mp hmem with hmem | hmem
      · exact hnew y (mem_cons_of_mem _ hy) hmem
      · exact hnd.1 (mem_singleton.mp hmem ▸ mem_map_of_mem hy)

/-- The comparison runs between the two tables. -/
def connects (x y : Nat) (c : ColumnBinding × ColumnBinding) : Bool :=
  (c.1.tableIndex = x ∧ c.2.tableIndex = y) ∨ (c.1.tableIndex = y ∧ c.2.tableIndex = x)

def pairFilter (c : ColumnBinding × ColumnBinding) : Expression :=
  .boundComparison .equal (.boundColumnRef c.1) (.boundColumnRef c.2)

variable {attr : ColumnBinding → A} {p : LogicalOperator} {sorted : List LogicalOperator}

/-- The edges `ExtractEdges` stores for a plan. -/
def edgesOf (p : LogicalOperator) (sorted : List LogicalOperator) : DAGManager :=
  DAGManager.extractEdges { nodesManager := extractNodes {} p } sorted

namespace NaturalJoin

section

variable (h : NaturalJoin attr .equal p) (hwf : p.WellFormed)
include h hwf

theorem edgeOf_pair (sorted : List LogicalOperator) (hc : c ∈ columnPairs p) :
    ∃ info, (extractNodes {} p).edgeOf sorted .inner (compareColumns .equal c) =
        some (c.1.tableIndex, c.2.tableIndex, info) ∧ info.filter = pairFilter c ∧
      info.largeProtect = false ∧ info.smallProtect = false ∧
      ((getNodeId info.small = some c.1.tableIndex ∧ getNodeId info.large = some c.2.tableIndex) ∨
        (getNodeId info.large = some c.1.tableIndex ∧
            getNodeId info.small = some c.2.tableIndex)) := by
  obtain ⟨ha,hb,-,-⟩ := h.mem_columnPairs hwf hc
  obtain ⟨na,hna⟩ := h.node_of_column ha
  obtain ⟨nb,hnb⟩ := h.node_of_column hb
  have hida := getNodeId_of_nodeId? (nodesOf_spec hna).2
  have hidb := getNodeId_of_nodeId? (nodesOf_spec hnb).2
  have hedge : (extractNodes {} p).edgeOf sorted .inner (compareColumns .equal c) =
      (makeEdgeInfo sorted .inner (pairFilter c) na nb).map
        (fun info => (c.1.tableIndex, c.2.tableIndex, info)) := by
    simp only [edgeOf,compareColumns,columnRef?,h.findRename hwf,
      (getNode_eq_some hwf).mpr hna,(getNode_eq_some hwf).mpr hnb,Option.bind_eq_bind,
      Option.bind_some]
    rfl
  rw [hedge]
  unfold makeEdgeInfo
  by_cases hlarge : nodeInOrder sorted na > nodeInOrder sorted nb
  · simp only [hlarge,if_true]
    exact ⟨_,rfl,rfl,rfl,rfl,.inr ⟨hida,hidb⟩⟩
  · simp only [hlarge,if_false]
    exact ⟨_,rfl,rfl,rfl,rfl,.inl ⟨hida,hidb⟩⟩

theorem filtersAndBindings :
    (edgesOf p sorted).filtersAndBindings = (columnPairs p).flatMap
      (fun c => (extractNodes {} p).entriesOf sorted (.inner, compareColumns .equal c)) := by
  have hrec := h.recorded {}
  have hinj : Function.Injective (compareColumns .equal) := by
    intro c c' he
    simp only [compareColumns,JoinCondition.mk.injEq,Expression.boundColumnRef.injEq] at he
    exact Prod.ext he.1 he.2.1
  simp only [edgesOf,DAGManager.extractEdges]
  rw [addComparisons_eq,nil_append,hrec]
  · simp [recordedComparisons,flatMap_map]
  · rw [hrec]
    simp
    exact (h.columnPairs_nodup hwf).map hinj
  · exact fun _ _ => not_mem_nil

/-- The comparisons stored under a key are those between its two tables. -/
theorem filtersAt_filters (sorted : List LogicalOperator) (x y : Nat) :
    ((edgesOf p sorted).filtersAt (x, y)).map DAGEdgeInfo.filter =
      ((columnPairs p).filter (connects x y)).map pairFilter := by
  unfold DAGManager.filtersAt
  rw [h.filtersAndBindings hwf,filter_flatMap,map_flatMap,map_flatMap]
  apply flatMap_eq_filter_map
  intro c hc
  obtain ⟨info,hedge,hfilter,-⟩ := h.edgeOf_pair hwf sorted hc
  have hne := (h.mem_columnPairs hwf hc).2.2.1
  simp only [entriesOf,hedge,connects,filter_cons,filter_nil,
    Prod.mk.injEq,decide_eq_true_eq]
  by_cases h1 : c.2.tableIndex = x ∧ c.1.tableIndex = y
  · have h2 : ¬ (c.1.tableIndex = x ∧ c.2.tableIndex = y) := fun h2 => hne (h2.1.trans h1.1.symm)
    rw [if_pos h1,if_neg h2,if_pos (.inr h1.symm)]
    exact congrArg (fun e => [e]) hfilter
  rw [if_neg h1]
  by_cases h2 : c.1.tableIndex = x ∧ c.2.tableIndex = y
  · rw [if_pos h2,if_pos (.inl h2)]
    exact congrArg (fun e => [e]) hfilter
  · rw [if_neg h2,if_neg (fun h => h.elim h2 (fun h => h1 h.symm))]
    rfl

theorem innerEdges : (edgesOf p sorted).InnerEdges := by
  intro key info hmem
  rw [h.filtersAndBindings hwf] at hmem
  obtain ⟨c,hc,hmem⟩ := mem_flatMap.mp hmem
  obtain ⟨info',hedge,-,hl,hs,hends⟩ := h.edgeOf_pair hwf sorted hc
  simp only [entriesOf,hedge,mem_cons,Prod.mk.injEq,not_mem_nil,
    or_false] at hmem
  rcases hmem with ⟨rfl,rfl⟩ | ⟨rfl,rfl⟩
  · exact ⟨hl,hs,hends.symm.imp And.symm And.symm⟩
  · exact ⟨hl,hs,hends⟩

end

end NaturalJoin

end Graph

section Acyclic

variable [DecidableEq A] {attr : ColumnBinding → A} {p : LogicalOperator}

/-- The columns of one relation. -/
def columnsOf (p : LogicalOperator) (x : Nat) : List ColumnBinding :=
  p.getColumnBindings.filter (fun c => c.tableIndex = x)

/-- The hyperedge of one relation. -/
def attributesOf (attr : ColumnBinding → A) (p : LogicalOperator) (x : Nat) : Finset A :=
  ((columnsOf p x).map attr).toFinset

def SharesAttribute (attr : ColumnBinding → A) (p : LogicalOperator) (x y : Nat) : Prop :=
  y ∈ p.tableIndices ∧ (attributesOf attr p x ∩ attributesOf attr p y).Nonempty

/-- A connected alpha-acyclic natural join; a relation has every attribute at most once. -/
structure AcyclicJoin (attr : ColumnBinding → A) (p : LogicalOperator) : Prop where
  wellFormed : p.WellFormed
  natural : NaturalJoin attr .equal p
  distinct : ∀ a ∈ p.getColumnBindings, ∀ b ∈ p.getColumnBindings,
    a.tableIndex = b.tableIndex → attr a = attr b → a = b
  connected : ∀ x ∈ p.tableIndices, ∀ y ∈ p.tableIndices, Reach (SharesAttribute attr p) x y
  acyclic : AlphaAcyclic (attributesOf attr p) p.tableIndices

theorem mem_columnsOf : c ∈ columnsOf p x ↔ c ∈ p.getColumnBindings ∧ c.tableIndex = x := by
  simp [columnsOf]

theorem mem_attributesOf : a ∈ attributesOf attr p x ↔ ∃ c ∈ columnsOf p x, attr c = a := by
  simp [attributesOf]

theorem mem_shared :
    a ∈ attributesOf attr p x ∩ attributesOf attr p y ↔
      ∃ c ∈ columnsOf p x, ∃ c' ∈ columnsOf p y, attr c = a ∧ attr c' = a := by
  rw [Finset.mem_inter,mem_attributesOf,mem_attributesOf]
  constructor
  · rintro ⟨⟨c,hc,he⟩,c',hc',he'⟩
    exact ⟨c,hc,c',hc',he,he'⟩
  · rintro ⟨c,hc,c',hc',he,he'⟩
    exact ⟨⟨c,hc,he⟩,c',hc',he'⟩

namespace AcyclicJoin

variable (h : AcyclicJoin attr p)
include h

theorem pair_of_shared (hxy : x ≠ y) (hc : c ∈ columnsOf p x)
    (hc' : c' ∈ columnsOf p y) (he : attr c = attr c') :
    (c, c') ∈ (columnPairs p).filter (connects x y) ∨
      (c', c) ∈ (columnPairs p).filter (connects x y) := by
  obtain ⟨hcp,rfl⟩ := mem_columnsOf.mp hc
  obtain ⟨hcp',rfl⟩ := mem_columnsOf.mp hc'
  refine (h.natural.columnPairs_complete hcp hcp' hxy he).imp (fun hm => ?_) (fun hm => ?_)
  all_goals exact mem_filter.mpr ⟨hm,by simp [connects]⟩

theorem mem_pairs (hab : (a, b) ∈ (columnPairs p).filter (connects x y)) :
    attr a = attr b ∧
      ((a ∈ columnsOf p x ∧ b ∈ columnsOf p y) ∨ (a ∈ columnsOf p y ∧ b ∈ columnsOf p x)) := by
  obtain ⟨hmem,hconn⟩ := mem_filter.mp hab
  obtain ⟨ha,hb,-,he⟩ := h.natural.mem_columnPairs h.wellFormed hmem
  simp only [connects,decide_eq_true_eq] at hconn
  refine ⟨he,hconn.imp (fun hc => ?_) (fun hc => ?_)⟩
  all_goals exact ⟨mem_columnsOf.mpr ⟨ha,hc.1⟩,mem_columnsOf.mpr ⟨hb,hc.2⟩⟩

theorem column_unique (hc : c ∈ columnsOf p x) (hc' : c' ∈ columnsOf p x)
    (he : attr c = attr c') : c = c' := by
  obtain ⟨h1,h2⟩ := mem_columnsOf.mp hc
  obtain ⟨h1',h2'⟩ := mem_columnsOf.mp hc'
  exact h.distinct c h1 c' h1' (h2.trans h2'.symm) he

/-- Two relations have one comparison for each attribute they share. -/
theorem pairs_length (hxy : x ≠ y) :
    ((columnPairs p).filter (connects x y)).length =
      (attributesOf attr p x ∩ attributesOf attr p y).card := by
  have hnd : (((columnPairs p).filter (connects x y)).map (fun c => attr c.1)).Nodup := by
    refine List.Nodup.map_on ?_ ((h.natural.columnPairs_nodup h.wellFormed).filter _)
    intro c hc c' hc' he
    obtain ⟨he1,hside⟩ := h.mem_pairs hc
    obtain ⟨he2,hside'⟩ := h.mem_pairs hc'
    have hflip : c' ≠ (c.2, c.1) := by
      intro heq
      exact h.natural.columnPairs_asymm h.wellFormed (mem_filter.mp hc).1
        (heq ▸ (mem_filter.mp hc').1)
    have heb : attr c.2 = attr c'.2 := he1.symm.trans (he.trans he2)
    rcases hside with ⟨ha,hb⟩ | ⟨ha,hb⟩ <;> rcases hside' with ⟨ha',hb'⟩ | ⟨ha',hb'⟩
    case inl.inl | inr.inr =>
      exact Prod.ext (h.column_unique ha ha' he) (h.column_unique hb hb' heb)
    all_goals exact absurd (Prod.ext (h.column_unique ha' hb (he.symm.trans he1))
      (h.column_unique hb' ha (heb.symm.trans he1.symm))) hflip
  have hset : (((columnPairs p).filter (connects x y)).map (fun c => attr c.1)).toFinset =
      attributesOf attr p x ∩ attributesOf attr p y := by
    ext a
    rw [mem_toFinset,mem_map,mem_shared]
    constructor
    · rintro ⟨c,hc,rfl⟩
      obtain ⟨he,hside⟩ := h.mem_pairs hc
      rcases hside with ⟨ha,hb⟩ | ⟨ha,hb⟩
      · exact ⟨c.1,ha,c.2,hb,rfl,he.symm⟩
      · exact ⟨c.2,hb,c.1,ha,he.symm,rfl⟩
    · rintro ⟨c,hc,c',hc',rfl,he⟩
      rcases h.pair_of_shared hxy hc hc' he.symm with hm | hm
      · exact ⟨_,hm,rfl⟩
      · exact ⟨_,hm,he⟩
  rw [← hset,toFinset_card_of_nodup hnd,length_map]

variable (sorted : List LogicalOperator)

theorem filtersAt_length (hxy : x ≠ y) :
    ((edgesOf p sorted).filtersAt (x, y)).length =
      (attributesOf attr p x ∩ attributesOf attr p y).card := by
  rw [← h.pairs_length hxy]
  have := congrArg List.length (h.natural.filtersAt_filters h.wellFormed sorted x y)
  simpa using this

theorem ids_eq : (edgesOf p sorted).ids = p.tableIndices := by
  rw [← h.natural.ids_eq,← extracted_nodes h.wellFormed]
  rfl

theorem edges_connected : (edgesOf p sorted).Connected := by
  unfold DAGManager.Connected
  rw [h.ids_eq]
  intro x hx y hy
  have hreach := h.connected x hx y hy
  clear hy
  induction hreach with
  | refl => exact .refl
  | @tail u v _ huv ih =>
    by_cases he : u = v
    · exact he ▸ ih
    · refine ih.tail ⟨huv.1,fun hnil => ?_⟩
      have hcard := h.filtersAt_length sorted he
      rw [hnil] at hcard
      exact Finset.card_ne_zero.mpr huv.2 hcard.symm

end AcyclicJoin

end Acyclic

end PredTrans.Transfer
