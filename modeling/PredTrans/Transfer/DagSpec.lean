import PredTrans.Transfer.Dag
import PredTrans.Transfer.Rename

namespace PredTrans.Transfer
open Plan List Function Prod

/-! What `Build` leaves behind: the edges stem from recorded comparisons, every
node stands once in the execution order, and a transfer never aims at a
protected side. -/

section FindEdge

/-- The best edge among the ones looked at so far. -/
structure EdgeChoice.Best (weight : Nat × Nat → Nat) (seen : List (Nat × Nat)) (b : EdgeChoice) :
    Prop where
  upper : ∀ k ∈ seen, weight k ≤ b.maxWeight
  empty : b.result = none → b.maxWeight = 0
  found : ∀ k, b.result = some k → k ∈ seen ∧ weight k = b.maxWeight ∧ 0 < b.maxWeight

theorem EdgeChoice.Best.consider {b : EdgeChoice} (h : b.Best weight seen) (key : Nat × Nat)
    (card : Nat) (hpos : 0 < weight key) :
    (b.consider (weight key) card key).Best weight (seen ++ [key]) := by
  unfold EdgeChoice.consider
  split
  · refine ⟨fun k hk => ?_,nofun,fun k hk => ?_⟩
    · rcases mem_append.mp hk with hk | hk
      · have := h.upper k hk
        dsimp only
        omega
      · rw [mem_singleton.mp hk]
    · obtain rfl := Option.some.inj hk
      exact ⟨by simp,rfl,hpos⟩
  · have hle : weight key ≤ b.maxWeight := by omega
    have hupper : ∀ k ∈ seen ++ [key], weight k ≤ b.maxWeight := by
      intro k hk
      rcases mem_append.mp hk with hk | hk
      · exact h.upper k hk
      · rw [mem_singleton.mp hk]
        exact hle
    split
    · rename_i heq
      refine ⟨hupper,nofun,fun k hk => ?_⟩
      obtain rfl := Option.some.inj hk
      exact ⟨by simp,heq.1,heq.1 ▸ hpos⟩
    · refine ⟨hupper,h.empty,fun k hk => ?_⟩
      obtain ⟨h1,h2⟩ := h.found k hk
      exact ⟨mem_append_left _ h1,h2⟩

theorem EdgeChoice.Best.skip {b : EdgeChoice} (h : b.Best weight seen) (hzero : weight key = 0) :
    b.Best weight (seen ++ [key]) := by
  refine ⟨fun k hk => ?_,h.empty,fun k hk => ?_⟩
  · rcases mem_append.mp hk with hk | hk
    · exact h.upper k hk
    · rw [mem_singleton.mp hk,hzero]
      exact Nat.zero_le _
  · obtain ⟨h1,h2⟩ := h.found k hk
    exact ⟨mem_append_left _ h1,h2⟩

variable {ctx : Context} {d : DAGManager} {constructed unconstructed : List Nat}

/-- What the double loop of `FindEdge` has seen when it ends. -/
theorem findEdge_best (ctx : Context) (d : DAGManager) (constructed unconstructed : List Nat) :
    ∃ b : EdgeChoice, d.findEdge ctx constructed unconstructed = b.result ∧
      b.Best (fun k => (d.filtersAt k).length)
        ((ctx.iterate unconstructed).flatMap
          (fun i => (ctx.iterate constructed).map (fun j => (j, i)))) := by
  refine ⟨_,rfl,?_⟩
  have hloop : ∀ (keys seen : List (Nat × Nat)) (b : EdgeChoice),
      b.Best (fun k => (d.filtersAt k).length) seen →
      (keys.foldl (fun best key =>
        if (d.filtersAt key).isEmpty then best
        else best.consider (d.filtersAt key).length
          ((d.nodesManager.getNode key.2).elim 0 ctx.estimateCardinality) key) b).Best
        (fun k => (d.filtersAt k).length) (seen ++ keys) := by
    intro keys
    induction keys with
    | nil =>
      intro seen b hb
      simpa using hb
    | cons key keys ih =>
      intro seen b hb
      rw [foldl_cons,append_cons]
      refine ih _ _ ?_
      split
      · rename_i he
        exact hb.skip (by simpa using he)
      · rename_i he
        exact hb.consider key _ (length_pos_of_ne_nil (by simpa using he))
  exact hloop _ [] {} ⟨nofun,fun _ => rfl,nofun⟩

theorem mem_candidates :
    key ∈ (ctx.iterate unconstructed).flatMap
      (fun i => (ctx.iterate constructed).map (fun j => (j, i))) ↔
      key.1 ∈ constructed ∧ key.2 ∈ unconstructed := by
  obtain ⟨j,i⟩ := key
  simp only [mem_flatMap,mem_map,mk.injEq,(ctx.iterate_perm _).mem_iff]
  constructor
  · rintro ⟨i',hi,j',hj,rfl,rfl⟩
    exact ⟨hj,hi⟩
  · rintro ⟨hj,hi⟩
    exact ⟨i,hi,j,hj,rfl,rfl⟩

theorem findEdge_some (h : d.findEdge ctx constructed unconstructed = some key) :
    key.1 ∈ constructed ∧ key.2 ∈ unconstructed ∧ d.filtersAt key ≠ [] ∧
      ∀ j ∈ constructed, ∀ i ∈ unconstructed,
        (d.filtersAt (j, i)).length ≤ (d.filtersAt key).length := by
  obtain ⟨b,hb,hbest⟩ := findEdge_best ctx d constructed unconstructed
  obtain ⟨hmem,hw,hpos⟩ := hbest.found key (hb.symm.trans h)
  obtain ⟨hj,hi⟩ := mem_candidates.mp hmem
  refine ⟨hj,hi,ne_nil_of_length_pos (by omega),fun j hj i hi => ?_⟩
  have := hbest.upper (j, i) (mem_candidates.mpr ⟨hj,hi⟩)
  omega

theorem findEdge_none (h : d.findEdge ctx constructed unconstructed = none) :
    ∀ j ∈ constructed, ∀ i ∈ unconstructed, d.filtersAt (j, i) = [] := by
  intro j hj i hi
  obtain ⟨b,hb,hbest⟩ := findEdge_best ctx d constructed unconstructed
  have hzero := hbest.empty (hb.symm.trans h)
  have := hbest.upper (j, i) (mem_candidates.mpr ⟨hj,hi⟩)
  exact eq_nil_of_length_eq_zero (by omega)

end FindEdge

section Growth

/-- What holds of the manager while trees are grown from the pool of `d₀`. -/
structure Growing (d₀ d : DAGManager) : Prop where
  filters : d.filtersAndBindings = d₀.filtersAndBindings
  pool : d.nodesManager.nodes.Sublist d₀.nodesManager.nodes
  order : (d.execOrder ++ d.nodesManager.nodes.map snd).Perm
    (d₀.nodesManager.nodes.map snd)
  selected : ∀ info ∈ d.selectedFiltersAndBindings, ∃ key, (key, info) ∈ d₀.filtersAndBindings
  plain : ∀ id n, d.nodes id = some n →
    n.forwardIn = [] ∧ n.backwardIn = [] ∧ n.forwardOut = [] ∧ n.backwardOut = []
  vertices : ∀ n ∈ d₀.nodesManager.nodes, n ∉ d.nodesManager.nodes → d.nodes n.1 ≠ none

variable {ctx : Context} {d₀ d : DAGManager}

theorem filtersAt_selected (h : info ∈ d.filtersAt key) : (key, info) ∈ d.filtersAndBindings := by
  obtain ⟨e,he,rfl⟩ := mem_map.mp h
  obtain ⟨hmem,hkey⟩ := mem_filter.mp he
  have : e.1 = key := by simpa using hkey
  exact this ▸ hmem

/-- Taking one entry out of a list with unique keys. -/
theorem perm_filter_key {l : List (Nat × β)} (hnd : (l.map fst).Nodup) {id : Nat}
    (h : (id, b) ∈ l) :
    ([b] ++ (l.filter (fun n => n.1 ≠ id)).map snd).Perm (l.map snd) := by
  classical
  have herase : l.filter (fun n => n.1 ≠ id) = l.erase (id, b) := by
    rw [(List.Nodup.of_map _ hnd).erase_eq_filter]
    refine filter_congr (fun n hn => ?_)
    have hkey : n.1 = id ↔ n = (id, b) := by
      constructor
      · exact inj_on_of_nodup_map hnd hn h
      · exact congrArg fst
    rw [Bool.eq_iff_iff]
    simp [hkey]
  rw [herase]
  exact ((perm_cons_erase h).map snd).symm

theorem getNode_of_mem {m : NodesManager} (hnd : (m.nodes.map fst).Nodup) {id : Nat}
    (h : (id, op) ∈ m.nodes) : m.getNode id = some op :=
  (find?_key_eq_some hnd).mpr h

variable (h : Growing d₀ d) (hnd : (d₀.nodesManager.nodes.map fst).Nodup)

include h hnd in
/-- Moving a node of the pool into the execution order. -/
theorem Growing.construct {id : Nat} {op : LogicalOperator} (hmem : (id, op) ∈ d.nodesManager.nodes)
    (hvertex : ∀ n ∈ d.nodesManager.nodes, d.nodes n.1 ≠ none) (priority : Int) :
    Growing d₀ (d.construct id priority) := by
  have hnd' : (d.nodesManager.nodes.map fst).Nodup := (h.pool.map fst).nodup hnd
  have hget := getNode_of_mem hnd' hmem
  refine ⟨h.filters,filter_sublist.trans h.pool,?_,h.selected,?_,?_⟩
  · simp only [DAGManager.construct,hget,Option.toList_some,NodesManager.eraseNode]
    rw [append_assoc]
    exact ((perm_filter_key hnd' hmem).append_left d.execOrder).trans h.order
  · intro v n hn
    simp only [DAGManager.construct,update_apply] at hn
    split at hn
    · obtain ⟨n₀,hn₀,rfl⟩ := Option.map_eq_some_iff.mp hn
      exact h.plain _ n₀ hn₀
    · exact h.plain v n hn
  · intro n hn hout
    have hsome : d.nodes n.1 ≠ none := by
      by_cases hpool : n ∈ d.nodesManager.nodes
      · exact hvertex n hpool
      · exact h.vertices n hn hpool
    simp only [DAGManager.construct,update_apply]
    split
    · rename_i he
      rw [← he]
      simpa using hsome
    · exact hsome

/-- In a tree being grown every node left in the pool has its vertex already. -/
structure GrowingTree (d₀ d : DAGManager) (unconstructed : List Nat) : Prop extends
    Growing d₀ d where
  waiting : unconstructed = d.nodesManager.nodes.map fst
  ready : ∀ n ∈ d.nodesManager.nodes, d.nodes n.1 ≠ none

theorem construct_ready {id : Nat} (h : ∀ n ∈ d.nodesManager.nodes, d.nodes n.1 ≠ none) :
    ∀ n ∈ (d.construct id priority).nodesManager.nodes,
        (d.construct id priority).nodes n.1 ≠ none := by
  intro n hn
  have hsome := h n (mem_filter.mp hn).1
  simp only [DAGManager.construct,update_apply]
  split
  · rename_i he
    rw [← he]
    simpa using hsome
  · exact hsome

include hnd in
theorem GrowingTree.construct {unconstructed : List Nat} (h : GrowingTree d₀ d unconstructed)
    {id : Nat} (hid : id ∈ unconstructed) (priority : Int) :
    GrowingTree d₀ (d.construct id priority) (unconstructed.erase id) := by
  rw [h.waiting] at hid ⊢
  obtain ⟨n,hn,rfl⟩ := mem_map.mp hid
  refine ⟨h.toGrowing.construct hnd hn h.ready priority,?_,construct_ready h.ready⟩
  have hnd' : (d.nodesManager.nodes.map fst).Nodup := (h.pool.map fst).nodup hnd
  rw [hnd'.erase_eq_filter]
  simp only [DAGManager.construct,NodesManager.eraseNode,filter_map]
  congr 1
  exact filter_congr (fun m _ => by simp [bne,Bool.beq_eq_decide_eq])

theorem GrowingTree.select (h : GrowingTree d₀ d unconstructed) (key : Nat × Nat) :
    GrowingTree d₀ { d with selectedFiltersAndBindings :=
      d.selectedFiltersAndBindings ++ d.filtersAt key } unconstructed := by
  refine { h with selected := fun info hinfo => ?_ }
  rcases mem_append.mp hinfo with hinfo | hinfo
  · exact h.selected info hinfo
  · exact ⟨key,h.filters ▸ filtersAt_selected hinfo⟩

variable (ctx)

/-- A pool that is not empty has a root to start from. -/
theorem exists_root (hne : d.nodesManager.nodes ≠ []) :
    ∃ root n, (ctx.sort (d.nodesManager.nodes.map snd)).getLast? = some root ∧
      d.nodesManager.nodes.find? (fun n => n.2 = root) = some n := by
  have hsorted : ctx.sort (d.nodesManager.nodes.map snd) ≠ [] := by
    intro he
    have hlen := (ctx.sort_perm (d.nodesManager.nodes.map snd)).length_eq
    rw [he] at hlen
    exact hne (eq_nil_of_length_eq_zero (by simpa using hlen.symm))
  have hlast := getLast?_eq_some_getLast hsorted
  have hmem : (ctx.sort (d.nodesManager.nodes.map snd)).getLast hsorted ∈
      d.nodesManager.nodes.map snd :=
    (ctx.sort_perm _).mem_iff.mp (getLast_mem hsorted)
  cases hfind : d.nodesManager.nodes.find?
      (fun n => n.2 = (ctx.sort (d.nodesManager.nodes.map snd)).getLast hsorted) with
  | none =>
    obtain ⟨n,hn,he⟩ := mem_map.mp hmem
    have := find?_eq_none.mp hfind n hn
    simp [he] at this
  | some n => exact ⟨_,n,hlast,hfind⟩

include hnd in
theorem growTree_growing (fuel : Nat) (constructed : List Nat) (priority : Int)
    {unconstructed : List Nat} (h : GrowingTree d₀ d unconstructed) :
    Growing d₀ (d.growTree ctx fuel constructed unconstructed priority) ∧
      (d.growTree ctx fuel constructed unconstructed priority).nodesManager.nodes.length ≤
        d.nodesManager.nodes.length := by
  induction fuel generalizing d constructed unconstructed priority with
  | zero => exact ⟨h.toGrowing,le_rfl⟩
  | succ fuel ih =>
    simp only [DAGManager.growTree]
    cases hf : d.findEdge ctx constructed unconstructed with
    | none => exact ⟨h.toGrowing,le_rfl⟩
    | some key =>
      have hstep := (h.select key).construct hnd (findEdge_some hf).2.1 priority
      obtain ⟨h1,h2⟩ := ih (constructed ++ [key.2]) (priority - 1) hstep
      exact ⟨h1,h2.trans (length_filter_le _ _)⟩

include h hnd

theorem createVertices_growing (root : LogicalOperator) :
    Growing d₀ (d.createVertices ctx root) ∧
      ∀ n ∈ d.nodesManager.nodes, (d.createVertices ctx root).nodes n.1 ≠ none := by
  have hnd' : (d.nodesManager.nodes.map fst).Nodup := (h.pool.map fst).nodup hnd
  refine ⟨⟨h.filters,h.pool,h.order,h.selected,fun v n hn => ?_,fun n hn hout => ?_⟩,?_⟩
  · simp only [DAGManager.createVertices] at hn
    split at hn
    · obtain rfl := Option.some.inj hn
      exact ⟨rfl,rfl,rfl,rfl⟩
    · exact h.plain v n hn
  · simp only [DAGManager.createVertices]
    split
    · simp
    · exact h.vertices n hn hout
  · intro n hn
    have hget := getNode_of_mem hnd' hn
    simp [DAGManager.createVertices,hget]

theorem growingTree_root (root : LogicalOperator) {n : Nat × LogicalOperator}
    (hn : n ∈ d.nodesManager.nodes) (priority : Int) :
    GrowingTree d₀ ((d.createVertices ctx root).construct n.1 priority)
      ((d.nodesManager.nodes.map fst).filter (· ≠ n.1)) := by
  obtain ⟨hgrow,hready⟩ := createVertices_growing ctx h hnd root
  refine ⟨hgrow.construct hnd hn hready _,?_,construct_ready hready⟩
  simp only [DAGManager.construct,NodesManager.eraseNode,filter_map,
    DAGManager.createVertices]
  rfl

/-- One call of `LargestRoot` on a pool that is not empty shrinks it. -/
theorem largestRoot_growing (hne : d.nodesManager.nodes ≠ []) :
    Growing d₀ (d.largestRoot ctx) ∧
      (d.largestRoot ctx).nodesManager.nodes.length < d.nodesManager.nodes.length := by
  obtain ⟨root,n,hroot,hfind⟩ := exists_root ctx hne
  have hn := mem_of_find?_eq_some hfind
  simp only [DAGManager.largestRoot,hroot,hfind]
  obtain ⟨h1,h2⟩ := growTree_growing ctx hnd
    ((d.nodesManager.nodes.map fst).filter (· ≠ n.1)).length [n.1]
    (d.nodesManager.nodes.length - 1 - 1)
    (growingTree_root ctx h hnd root hn (d.nodesManager.nodes.length - 1))
  refine ⟨h1,lt_of_le_of_lt h2 ?_⟩
  refine length_filter_lt_length_iff_exists.mpr ⟨n,hn,by simp⟩

theorem growForest_growing (hfuel : d.nodesManager.nodes.length ≤ fuel) :
    Growing d₀ (d.growForest ctx fuel) ∧ (d.growForest ctx fuel).nodesManager.nodes = [] := by
  induction fuel generalizing d with
  | zero => exact ⟨h,eq_nil_of_length_eq_zero (Nat.le_zero.mp hfuel)⟩
  | succ fuel ih =>
    simp only [DAGManager.growForest]
    split
    · rename_i he
      exact ⟨h,by simpa using he⟩
    · rename_i hne
      obtain ⟨h1,h2⟩ := largestRoot_growing ctx h hnd (by simpa using hne)
      exact ih h1 (by omega)

end Growth

section Edges

/-- A selected edge allows a transfer from one of its nodes to the other. -/
def DAGEdgeInfo.Sends (info : DAGEdgeInfo) (source target : Nat) : Prop :=
  (getNodeId info.small = some source ∧ getNodeId info.large = some target ∧
      info.largeProtect = false) ∨
    (getNodeId info.large = some source ∧ getNodeId info.small = some target ∧
      info.smallProtect = false)

theorem makeEdgeInfo_filter (h : makeEdgeInfo sorted type x ln rn = some info) :
    info.filter = x := by
  unfold makeEdgeInfo at h
  cases type <;> simp only [Option.some.injEq,reduceCtorEq] at h <;> subst h <;>
    split <;> rfl

/-- An outer join protects the side whose rows it preserves. -/
theorem makeEdgeInfo_sends (h : makeEdgeInfo sorted type x ln rn = some info)
    (hl : getNodeId ln = some lt) (hr : getNodeId rn = some rt) (hs : info.Sends source target) :
    (source = lt ∧ target = rt ∧ type ≠ .right) ∨ (source = rt ∧ target = lt ∧ type ≠ .left) := by
  unfold makeEdgeInfo at h
  cases type <;> simp only [Option.some.injEq,reduceCtorEq] at h <;> subst h <;>
    split at hs <;> simp only [DAGEdgeInfo.Sends,hl,hr,Option.some.injEq,reduceCtorEq,and_false,
      or_false,false_or,and_true] at hs <;> grind

theorem edgeOf_eq_some {m : NodesManager} (h : m.edgeOf sorted type c = some (lt, rt, info)) :
    ∃ a b ln rn, c.left = .boundColumnRef a ∧ c.right = .boundColumnRef b ∧
      (m.findRename a).tableIndex = lt ∧ (m.findRename b).tableIndex = rt ∧
      m.getNode lt = some ln ∧ m.getNode rt = some rn ∧
      makeEdgeInfo sorted type (.boundComparison c.comparison c.left c.right) ln rn =
          some info := by
  unfold NodesManager.edgeOf at h
  simp only [Option.bind_eq_bind,Option.bind_eq_some_iff,columnRef?_eq_some,Option.pure_def,
    Option.some.injEq,mk.injEq] at h
  obtain ⟨a,ha,b,hb,ln,hln,rn,hrn,info',hinfo,rfl,rfl,rfl⟩ := h
  exact ⟨a,b,ln,rn,ha,hb,rfl,rfl,hln,hrn,hinfo⟩

theorem mem_recordedComparisons :
    (t, c) ∈ recordedComparisons ops ↔
      ∃ op ∈ ops, (joinConditions op).1 = t ∧ c ∈ (joinConditions op).2 ∧
          c.comparison = .equal := by
  simp only [recordedComparisons,mem_flatMap,mem_map,mem_filter,mk.injEq,
    decide_eq_true_eq]
  constructor
  · rintro ⟨op,hop,c',⟨hc,heq⟩,rfl,rfl⟩
    exact ⟨op,hop,rfl,hc,heq⟩
  · rintro ⟨op,hop,rfl,hc,heq⟩
    exact ⟨op,hop,c,⟨hc,heq⟩,rfl,rfl⟩

/-- Every stored edge comes from a recorded comparison between its two tables. -/
theorem extractEdges_mem {d : DAGManager}
    (h : (key, info) ∈ (d.extractEdges sorted).filtersAndBindings) :
    ∃ type c lt rt, (type, c) ∈ recordedComparisons d.nodesManager.filterOperators ∧
      d.nodesManager.edgeOf sorted type c = some (lt, rt, info) ∧
      (key = (rt, lt) ∨ key = (lt, rt)) := by
  have hloop : ∀ (all rest : List (JoinType × JoinCondition)) (state : EdgeState),
      (∀ x ∈ rest, x ∈ all) →
      (∀ e ∈ state.2, ∃ type c lt rt, (type, c) ∈ all ∧
        d.nodesManager.edgeOf sorted type c = some (lt, rt, e.2) ∧
        (e.1 = (rt, lt) ∨ e.1 = (lt, rt))) →
      ∀ e ∈ (rest.foldl (d.nodesManager.addComparison sorted) state).2,
        ∃ type c lt rt, (type, c) ∈ all ∧
          d.nodesManager.edgeOf sorted type c = some (lt, rt, e.2) ∧
          (e.1 = (rt, lt) ∨ e.1 = (lt, rt)) := by
    intro all rest
    induction rest with
    | nil => exact fun state _ hstate => hstate
    | cons x rest ih =>
      intro state hrest hstate
      refine ih _ (forall_mem_cons.mp hrest).2 ?_
      unfold NodesManager.addComparison
      split
      · exact hstate
      cases he : d.nodesManager.edgeOf sorted x.1 x.2 with
      | none => exact hstate
      | some e =>
        obtain ⟨lt,rt,info'⟩ := e
        intro e' he'
        rcases mem_append.mp he' with he' | he'
        · exact hstate e' he'
        · simp only [mem_cons,not_mem_nil,or_false] at he'
          rcases he' with rfl | rfl
          · exact ⟨x.1,x.2,lt,rt,hrest x mem_cons_self,he,.inl rfl⟩
          · exact ⟨x.1,x.2,lt,rt,hrest x mem_cons_self,he,.inr rfl⟩
  exact hloop _ _ ([], []) (fun _ h => h) (by simp) (key, info) h

end Edges

section Orientation

theorem mem_pushEdge (h : e ∈ pushEdge dest push es) :
    e ∈ es ∨ e = push { dest := dest } ∨ ∃ e₀ ∈ es, e₀.dest = dest ∧ e = push e₀ := by
  induction es with
  | nil => exact .inr (.inl (mem_singleton.mp h))
  | cons x es ih =>
    simp only [pushEdge] at h
    split at h
    · rcases mem_cons.mp h with rfl | h
      · exact .inr (.inr ⟨x,mem_cons_self,‹_›,rfl⟩)
      · exact .inl (mem_cons_of_mem _ h)
    rcases mem_cons.mp h with rfl | h
    · exact .inl mem_cons_self
    · rcases ih h with h | h | ⟨e₀,he₀,h⟩
      · exact .inl (mem_cons_of_mem _ h)
      · exact .inr (.inl h)
      · exact .inr (.inr ⟨e₀,mem_cons_of_mem _ he₀,h⟩)

theorem outEdges_addIn (n : DAGNode) (source : Nat) (push : DAGEdge → DAGEdge) (forward r : Bool) :
    (n.addIn source push forward).outEdges r = n.outEdges r := by
  cases forward <;> cases r <;> rfl

/-- The transfers between two nodes, given which side comes first and which is protected. -/
def transfersBetween (small large : Nat) (smallFirst smallProtect largeProtect : Bool) :
    List (Nat × Nat × Bool) :=
  let toSmall := if smallProtect then [] else [(large, small, smallFirst)]
  let toLarge := if largeProtect then [] else [(small, large, !smallFirst)]
  if smallFirst then toSmall ++ toLarge else toLarge ++ toSmall

theorem mem_transfersBetween {first sp lp : Bool} :
    t ∈ transfersBetween small large first sp lp ↔
      (sp = false ∧ t = (large, small, first)) ∨ (lp = false ∧ t = (small, large, !first)) := by
  cases first <;> cases sp <;> cases lp <;> simp [transfersBetween,or_comm]

/-- What one selected edge adds to the graph, in the order it is added. -/
def transfersOf (nodes : Nat → Option DAGNode) (info : DAGEdgeInfo) : List (Nat × Nat × Bool) :=
  match getNodeId info.small, getNodeId info.large with
  | some small, some large =>
    match nodes small, nodes large with
    | some smallNode, some largeNode =>
      transfersBetween small large (smallNode.priority > largeNode.priority)
        info.smallProtect info.largeProtect
    | _, _ => []
  | _, _ => []

theorem transfersOf_sends {info : DAGEdgeInfo} (h : t ∈ transfersOf nodes info) :
    info.Sends t.1 t.2.1 := by
  unfold transfersOf at h
  split at h
  · rename_i small large hs hl
    split at h
    · rcases mem_transfersBetween.mp h with ⟨hp,rfl⟩ | ⟨hp,rfl⟩
      · exact .inr ⟨hl,hs,hp⟩
      · exact .inl ⟨hs,hl,hp⟩
    · cases h
  · cases h

theorem orientEdge_eq (nodes : Nat → Option DAGNode) (info : DAGEdgeInfo) :
    orientEdge nodes info = (transfersOf nodes info).foldl
      (fun ns t => addTransfer ns t.1 t.2.1 info.filter t.2.2) nodes := by
  unfold orientEdge transfersOf
  cases getNodeId info.small with
  | none => rfl
  | some small =>
    cases getNodeId info.large with
    | none => rfl
    | some large =>
      dsimp only
      cases nodes small with
      | none => rfl
      | some smallNode =>
        cases nodes large with
        | none => rfl
        | some largeNode =>
          by_cases hp : smallNode.priority > largeNode.priority <;>
            cases hsp : info.smallProtect <;> cases hlp : info.largeProtect <;>
            simp [transfersBetween,hp]

/-- What an outgoing edge must be made of, and that no filter waits anywhere. -/
structure EdgesFrom (selected : List DAGEdgeInfo) (nodes : Nat → Option DAGNode) : Prop where
  out : ∀ v n reverse e, nodes v = some n → e ∈ n.outEdges reverse → e.filters ≠ [] ∧
    ∀ x ∈ e.filters, ∃ info ∈ selected, info.filter = x ∧ info.Sends v e.dest
  empty : ∀ v n reverse e, nodes v = some n → e ∈ n.inEdges reverse → e.bloomFilters = []

theorem modifyNode_eq_some {id v : Nat} (h : modifyNode nodes id f v = some n) :
    (v ≠ id ∧ nodes v = some n) ∨ (v = id ∧ ∃ n₀, nodes v = some n₀ ∧ n = f n₀) := by
  unfold modifyNode at h
  rw [update_apply] at h
  split at h
  · rename_i hv
    obtain ⟨n₀,hn₀,rfl⟩ := Option.map_eq_some_iff.mp h
    exact .inr ⟨hv,n₀,hv ▸ hn₀,rfl⟩
  · rename_i hv
    exact .inl ⟨hv,h⟩

variable {selected : List DAGEdgeInfo} {nodes : Nat → Option DAGNode}

theorem EdgesFrom.addOut (h : EdgesFrom selected nodes) (hi : info ∈ selected) {source target : Nat}
    (hs : info.Sends source target) (forward : Bool) :
    EdgesFrom selected (modifyNode nodes source
      (fun n => n.addOut target (DAGEdge.pushFilter info.filter) forward)) := by
  have hpush : ∀ (v : Nat) (es : List DAGEdge), v = source →
      (∀ e ∈ es, e.filters ≠ [] ∧ ∀ x ∈ e.filters, ∃ i ∈ selected, i.filter = x ∧
        i.Sends v e.dest) →
      ∀ e ∈ pushEdge target (DAGEdge.pushFilter info.filter) es, e.filters ≠ [] ∧
        ∀ x ∈ e.filters, ∃ i ∈ selected, i.filter = x ∧ i.Sends v e.dest := by
    rintro v es rfl hes e he
    rcases mem_pushEdge he with he | rfl | ⟨e₀,he₀,hd,rfl⟩
    · exact hes e he
    · refine ⟨by simp [DAGEdge.pushFilter],fun x hx => ⟨info,hi,?_,hs⟩⟩
      simpa [DAGEdge.pushFilter,eq_comm] using hx
    · refine ⟨by simp [DAGEdge.pushFilter],fun x hx => ?_⟩
      rcases mem_append.mp hx with hx | hx
      · exact (hes e₀ he₀).2 x hx
      · exact ⟨info,hi,(mem_singleton.mp hx).symm,hd ▸ hs⟩
  constructor
  · intro v n reverse e hn he
    rcases modifyNode_eq_some hn with ⟨_,hn⟩ | ⟨hv,n₀,hn₀,rfl⟩
    · exact h.out v n reverse e hn he
    cases reverse <;> cases forward
    · exact h.out v n₀ false e hn₀ he
    · exact hpush v _ hv (h.out v n₀ false · hn₀) e he
    · exact hpush v _ hv (h.out v n₀ true · hn₀) e he
    · exact h.out v n₀ true e hn₀ he
  · intro v n reverse e hn he
    rcases modifyNode_eq_some hn with ⟨_,hn⟩ | ⟨_,n₀,hn₀,rfl⟩
    · exact h.empty v n reverse e hn he
    · cases forward <;> exact h.empty v n₀ reverse e hn₀ he

theorem EdgesFrom.addIn (h : EdgesFrom selected nodes) (source target : Nat) (x : Expression)
    (forward : Bool) :
    EdgesFrom selected (modifyNode nodes target
      (fun n => n.addIn source (DAGEdge.pushFilter x) forward)) := by
  have hpush : ∀ es : List DAGEdge, (∀ e ∈ es, e.bloomFilters = []) →
      ∀ e ∈ pushEdge source (DAGEdge.pushFilter x) es, e.bloomFilters = [] := by
    intro es hes e he
    rcases mem_pushEdge he with he | rfl | ⟨e₀,he₀,_,rfl⟩
    · exact hes e he
    · rfl
    · exact hes e₀ he₀
  constructor
  · intro v n reverse e hn he
    rcases modifyNode_eq_some hn with ⟨_,hn⟩ | ⟨_,n₀,hn₀,rfl⟩
    · exact h.out v n reverse e hn he
    · cases forward <;> exact h.out v n₀ reverse e hn₀ he
  intro v n reverse e hn he
  rcases modifyNode_eq_some hn with ⟨_,hn⟩ | ⟨_,n₀,hn₀,rfl⟩
  · exact h.empty v n reverse e hn he
  cases reverse <;> cases forward
  · exact h.empty v n₀ false e hn₀ he
  · exact hpush n₀.forwardIn (h.empty v n₀ false · hn₀) e he
  · exact hpush n₀.backwardIn (h.empty v n₀ true · hn₀) e he
  · exact h.empty v n₀ true e hn₀ he

theorem EdgesFrom.orientEdges (h : EdgesFrom selected nodes) (infos : List DAGEdgeInfo)
    (hsub : infos ⊆ selected) : EdgesFrom selected (infos.foldl orientEdge nodes) := by
  induction infos generalizing nodes with
  | nil => exact h
  | cons info infos ih =>
    refine ih ?_ (fun i hi => hsub (mem_cons_of_mem _ hi))
    have hadd : ∀ (ts : List (Nat × Nat × Bool)) (ns : Nat → Option DAGNode),
        (∀ t ∈ ts, info.Sends t.1 t.2.1) → EdgesFrom selected ns →
        EdgesFrom selected (ts.foldl (fun ns t => addTransfer ns t.1 t.2.1 info.filter t.2.2)
            ns) := by
      intro ts
      induction ts with
      | nil => exact fun ns _ h => h
      | cons t ts iht =>
        intro ns hts hns
        refine iht _ (forall_mem_cons.mp hts).2 ?_
        exact (hns.addOut (hsub mem_cons_self) (hts t mem_cons_self) t.2.2).addIn _ _ _ _
    rw [orientEdge_eq]
    exact hadd _ _ (fun t ht => transfersOf_sends ht) h

theorem addTransfer_ne_none (h : nodes v ≠ none) :
    addTransfer nodes source target x forward v ≠ none := by
  have hmodify : ∀ (ns : Nat → Option DAGNode) (id : Nat) (f : DAGNode → DAGNode), ns v ≠ none →
      modifyNode ns id f v ≠ none := by
    intro ns id f hns
    unfold modifyNode
    rw [update_apply]
    split
    · rename_i hv
      rw [← hv]
      simpa using hns
    · exact hns
  exact hmodify _ _ _ (hmodify _ _ _ h)

theorem orientEdges_ne_none (infos : List DAGEdgeInfo) (h : nodes v ≠ none) :
    infos.foldl orientEdge nodes v ≠ none := by
  induction infos generalizing nodes with
  | nil => exact h
  | cons info infos ih =>
    refine ih ?_
    rw [orientEdge_eq]
    induction transfersOf nodes info generalizing nodes with
    | nil => exact h
    | cons t ts iht => exact iht (addTransfer_ne_none h)

end Orientation

section Build

/-- A recorded comparison that allows a filter built at `source` to be applied at
`target`: an outer join lends its preserved side only as a source. -/
structure Justification (p : LogicalOperator) (source target : Nat) where
  join : LogicalOperator
  type : JoinType
  conditions : List JoinCondition
  left : LogicalOperator
  right : LogicalOperator
  a : ColumnBinding
  b : ColumnBinding
  toRight : Bool
  recorded : join ∈ (extractNodes {} p).filterOperators
  isJoin : IsJoin join type conditions left right
  mem : ⟨.boundColumnRef a, .boundColumnRef b, .equal⟩ ∈ conditions
  allowed : type ≠ if toRight then .right else .left
  leftTable : ((extractNodes {} p).findRename a).tableIndex = if toRight then source else target
  rightTable : ((extractNodes {} p).findRename b).tableIndex = if toRight then target else source
  sourceNode : source ∈ (nodesOf p).map fst
  targetNode : target ∈ (nodesOf p).map fst

namespace Justification

variable {p : LogicalOperator} {source target : Nat}

def filter (j : Justification p source target) : Expression :=
  .boundComparison .equal (.boundColumnRef j.a) (.boundColumnRef j.b)

/-- The column the comparison reads on the side the filter is built from. -/
def sourceColumn (j : Justification p source target) : ColumnBinding :=
  if j.toRight then j.a else j.b

def targetColumn (j : Justification p source target) : ColumnBinding :=
  if j.toRight then j.b else j.a

theorem source_table (j : Justification p source target) :
    ((extractNodes {} p).findRename j.sourceColumn).tableIndex = source := by
  have hl := j.leftTable
  have hr := j.rightTable
  unfold sourceColumn
  cases h : j.toRight <;> simp_all

theorem target_table (j : Justification p source target) :
    ((extractNodes {} p).findRename j.targetColumn).tableIndex = target := by
  have hl := j.leftTable
  have hr := j.rightTable
  unfold targetColumn
  cases h : j.toRight <;> simp_all

end Justification

variable {ctx : Context} {p : LogicalOperator}

theorem IsJoin.joinConditions (h : IsJoin j type cs l r) : joinConditions j = (type, cs) := by
  cases h <;> rfl

/-- Every stored edge is justified in each direction it allows. -/
theorem justification_of_edge (hwf : p.WellFormed) {sorted : List LogicalOperator}
    (h : (key, info) ∈ (DAGManager.extractEdges { nodesManager := extractNodes {} p }
      sorted).filtersAndBindings)
    (hs : info.Sends source target) :
    ∃ j : Justification p source target, j.filter = info.filter := by
  obtain ⟨type,c,lt,rt,hrec,hedge,-⟩ := extractEdges_mem h
  obtain ⟨j,hj,htype,hc,heq⟩ := mem_recordedComparisons.mp hrec
  obtain ⟨a,b,ln,rn,ha,hb,hlt,hrt,hln,hrn,hinfo⟩ := edgeOf_eq_some hedge
  rcases extractNodes_filterOperators hj with hnil | ⟨-,type',cs,l,r,hjoin,-⟩
  · cases hnil
  rw [hjoin.joinConditions] at htype hc
  obtain rfl : type' = type := htype
  have hcond : c = ⟨.boundColumnRef a,.boundColumnRef b,.equal⟩ := by
    obtain ⟨cl,cr,cmp⟩ := c
    simp_all
  have hmem : ∀ {id op}, (extractNodes {} p).getNode id = some op →
      id ∈ (nodesOf p).map fst ∧ getNodeId op = some id := by
    intro id op hop
    have hn := (getNode_eq_some hwf).mp hop
    exact ⟨mem_map.mpr ⟨_,hn,rfl⟩,getNodeId_of_nodeId? (nodesOf_spec hn).2⟩
  have hfilter := makeEdgeInfo_filter hinfo
  subst hcond
  rcases makeEdgeInfo_sends hinfo (hmem hln).2 (hmem hrn).2 hs with ⟨rfl,rfl,ht⟩ | ⟨rfl,rfl,ht⟩
  · exact ⟨⟨j,type',cs,l,r,a,b,true,hj,hjoin,hc,ht,hlt,hrt,(hmem hln).1,
      (hmem hrn).1⟩,hfilter.symm⟩
  · exact ⟨⟨j,type',cs,l,r,a,b,false,hj,hjoin,hc,ht,hlt,hrt,(hmem hrn).1,
      (hmem hln).1⟩,hfilter.symm⟩

/-- The graph the transfer passes start from. -/
structure BuiltDag (p : LogicalOperator) (d : DAGManager) : Prop where
  manager : d.nodesManager = extractNodes {} p
  order : d.execOrder.Perm ((nodesOf p).map snd)
  vertices : ∀ n ∈ nodesOf p, d.nodes n.1 ≠ none
  out : ∀ v n reverse e, d.nodes v = some n → e ∈ n.outEdges reverse → e.filters ≠ [] ∧
    ∀ x ∈ e.filters, ∃ j : Justification p v e.dest, j.filter = x
  empty : ∀ v n reverse e, d.nodes v = some n → e ∈ n.inEdges reverse → e.bloomFilters = []

/-- After `ExtractEdges` no tree has been started. -/
theorem growing_extractEdges (m : NodesManager) (sorted : List LogicalOperator) :
    Growing (DAGManager.extractEdges { nodesManager := m } sorted)
      (DAGManager.extractEdges { nodesManager := m } sorted) :=
  ⟨rfl,List.Sublist.refl _,List.Perm.refl _,nofun,nofun,fun _ hn hout => absurd hn hout⟩

theorem createDAG_built (hwf : p.WellFormed) :
    BuiltDag p ((DAGManager.extractEdges { nodesManager := extractNodes {} p } sorted).createDAG
        ctx) := by
  generalize hd : DAGManager.extractEdges { nodesManager := extractNodes {} p } sorted = d₀
  have hm : d₀.nodesManager = extractNodes {} p := by rw [← hd]; rfl
  have hnodes : d₀.nodesManager.nodes = nodesOf p := by rw [hm,extracted_nodes hwf]
  have hnd : (d₀.nodesManager.nodes.map fst).Nodup := hnodes ▸ nodesOf_nodup hwf
  have hstart : Growing d₀ d₀ := hd ▸ growing_extractEdges _ _
  obtain ⟨hgrow,hempty⟩ := growForest_growing ctx hstart hnd le_rfl
  have hedges : EdgesFrom
      (d₀.growForest ctx d₀.nodesManager.nodes.length).selectedFiltersAndBindings
      (d₀.createDAG ctx).nodes := by
    refine EdgesFrom.orientEdges ⟨?_,?_⟩ _ (fun _ => id)
    · intro v n reverse e hn he
      obtain ⟨-,-,hf,hb⟩ := hgrow.plain v n hn
      cases reverse <;> simp [DAGNode.outEdges,hf,hb] at he
    · intro v n reverse e hn he
      obtain ⟨hf,hb,-,-⟩ := hgrow.plain v n hn
      cases reverse <;> simp [DAGNode.inEdges,hf,hb] at he
  refine ⟨hm,?_,?_,?_,hedges.empty⟩
  · have horder := hgrow.order
    rw [hempty,map_nil,append_nil] at horder
    exact hnodes ▸ horder
  · intro n hn
    exact orientEdges_ne_none _ (hgrow.vertices n (hnodes ▸ hn) (by simp [hempty]))
  intro v n reverse e hn he
  obtain ⟨hne,hall⟩ := hedges.out v n reverse e hn he
  refine ⟨hne,fun x hx => ?_⟩
  obtain ⟨info,hi,rfl,hs⟩ := hall x hx
  obtain ⟨key,hkey⟩ := hgrow.selected info hi
  rw [← hd] at hkey
  exact justification_of_edge hwf hkey hs

/-- `Build` either finds nothing to do or leaves the graph for the passes. -/
theorem build_cases (hwf : p.WellFormed) :
    ((build ctx p).2 = false ∧ (build ctx p).1.execOrder = []) ∨
      ((build ctx p).2 = true ∧ BuiltDag p (build ctx p).1) := by
  unfold build
  dsimp only
  split
  · exact .inl ⟨rfl,rfl⟩
  · split
    · exact .inl ⟨rfl,rfl⟩
    · exact .inr ⟨rfl,createDAG_built hwf⟩

end Build

end PredTrans.Transfer
