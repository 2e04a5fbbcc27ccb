import PredTrans.Transfer.DagSpec
import PredTrans.Transfer.Optimizer

namespace PredTrans.Transfer
open Plan Function PredicateTransferOptimizer
open List hiding reverse append prev

/-! The two transfer passes as one run over a schedule, with what every filter
made so far is known to be. -/

section Justified

theorem IsJoin.sides_visited (h : IsJoin j type cs l r) : l ∈ visited j ∧ r ∈ visited j := by
  have hl := self_mem_visited l
  have hr := self_mem_visited r
  cases h <;> exact ⟨mem_cons_of_mem _ (mem_append_left _ hl),
    mem_cons_of_mem _ (mem_append_right _ hr)⟩

theorem IsJoin.conditions_inScope (h : IsJoin j type cs l r) (hwf : j.WellFormed) :
    conditionsInScope l.getColumnBindings r.getColumnBindings cs := by
  cases h <;> exact hwf.inScope.1

theorem IsJoin.sides_disjoint (h : IsJoin j type cs l r) (hwf : j.WellFormed)
    (hl : t ∈ l.tableIndices) : t ∉ r.tableIndices := by
  cases h <;> exact hwf.sides_disjoint hl

variable {p : LogicalOperator} {source target : Nat}

section

variable (j : Justification p source target)
include j

theorem Justification.visited_join : j.join ∈ visited p := by
  rcases extractNodes_filterOperators j.recorded with h | ⟨h,-⟩
  · cases h
  · exact h

theorem Justification.left_mem (hwf : p.WellFormed) : j.a ∈ j.left.getColumnBindings :=
  (j.isJoin.conditions_inScope (hwf.of_mem (visited_spec j.visited_join).1) _ j.mem).1 _ rfl

theorem Justification.right_mem (hwf : p.WellFormed) : j.b ∈ j.right.getColumnBindings :=
  (j.isJoin.conditions_inScope (hwf.of_mem (visited_spec j.visited_join).1) _ j.mem).2 _ rfl

theorem Justification.left_visited : j.left ∈ visited p :=
  (visited_spec j.visited_join).2.2.2 j.isJoin.sides_visited.1

theorem Justification.right_visited : j.right ∈ visited p :=
  (visited_spec j.visited_join).2.2.2 j.isJoin.sides_visited.2

section

variable (hwf : p.WellFormed)
include hwf

theorem Justification.left_origin : (extractNodes {} p).findRename j.a = origin j.left j.a :=
  findRename_eq_origin hwf j.left_visited (j.left_mem hwf)

theorem Justification.right_origin : (extractNodes {} p).findRename j.b = origin j.right j.b :=
  findRename_eq_origin hwf j.right_visited (j.right_mem hwf)

theorem Justification.left_table_mem :
    ((extractNodes {} p).findRename j.a).tableIndex ∈ j.left.tableIndices := by
  rw [j.left_origin hwf]
  exact origin_table_mem (hwf.of_mem (visited_spec j.left_visited).1) (j.left_mem hwf)

theorem Justification.right_table_mem :
    ((extractNodes {} p).findRename j.b).tableIndex ∈ j.right.tableIndices := by
  rw [j.right_origin hwf]
  exact origin_table_mem (hwf.of_mem (visited_spec j.right_visited).1) (j.right_mem hwf)

/-- The two sides of a join are different nodes. -/
theorem Justification.source_ne_target : source ≠ target := by
  rintro rfl
  have hl := j.left_table_mem hwf
  have hr := j.right_table_mem hwf
  apply j.isJoin.sides_disjoint (hwf.of_mem (visited_spec j.visited_join).1) hl
  have hsame : ((extractNodes {} p).findRename j.a).tableIndex =
      ((extractNodes {} p).findRename j.b).tableIndex := by
    rw [j.leftTable,j.rightTable,ite_self]
  exact hsame ▸ hr

/-- What `GetAllBFCreate` reads off a justified comparison. -/
theorem Justification.filterColumns :
    filterColumns (extractNodes {} p) source j.filter =
      some ((extractNodes {} p).findRename j.targetColumn,
        (extractNodes {} p).findRename j.sourceColumn) := by
  have hne := j.source_ne_target hwf
  have hl := j.leftTable
  have hr := j.rightTable
  have hcolumns : getColumnBindingExpression j.filter = [j.a,j.b] := rfl
  unfold PredicateTransferOptimizer.filterColumns sourceColumn targetColumn
  rw [hcolumns]
  cases h : j.toRight with
  | true =>
    simp only [h,if_true] at hl hr ⊢
    rw [if_pos hl]
  | false =>
    simp only [h,Bool.false_eq_true,if_false] at hl hr ⊢
    rw [if_neg (fun he => hne (he.symm.trans hl)),if_pos hr]

end

end

end Justified

/-- A filter on its way from one node to another. -/
structure FilterTransfer where
  reverse : Bool
  source : Nat
  target : Nat
  filter : BloomFilter

/-- The filter's columns are those of comparisons between its two nodes. -/
def FilterTransfer.JustifiedBy {p : LogicalOperator} (t : FilterTransfer)
    (js : List (Justification p t.source t.target)) : Prop :=
  js ≠ [] ∧
    t.filter.columnBindingsApplied = js.map (fun j =>
      (extractNodes {} p).findRename j.targetColumn) ∧
    t.filter.columnBindingsBuilt = js.map (fun j => (extractNodes {} p).findRename j.sourceColumn)

def FilterTransfer.use (t : FilterTransfer) : UnaryOp := .useBF t.filter ⟨t.reverse, t.source⟩

section Before

/-- `x` was processed before `y`. -/
def Before (done : List α) (x y : α) : Prop := ∃ pre post, done = pre ++ y :: post ∧ x ∈ pre

variable {done : List α} {x y z : α}

theorem Before.append (h : Before done x y) (z : α) : Before (done ++ [z]) x y := by
  obtain ⟨pre,post,rfl,hx⟩ := h
  exact ⟨pre,post ++ [z],by simp,hx⟩

theorem before_last (h : x ∈ done) : Before (done ++ [y]) x y := ⟨done,[],rfl,h⟩

theorem append_last_cases (h : done ++ [z] = pre ++ y :: post) :
    (post = [] ∧ y = z ∧ pre = done) ∨ ∃ post', done = pre ++ y :: post' := by
  rcases eq_nil_or_concat post with rfl | ⟨post',w,rfl⟩
  · obtain ⟨hpre,hlast⟩ := append_inj' h rfl
    exact .inl ⟨rfl,(List.cons.inj hlast).1.symm,hpre.symm⟩
  · refine .inr ⟨post',?_⟩
    have h' : done ++ [z] = (pre ++ y :: post') ++ [w] := by simpa using h
    exact (append_inj' h' rfl).1

theorem Before.of_append (h : Before (done ++ [z]) x y) (hz : z ∉ done) (hy : y ∈ done) :
    Before done x y := by
  obtain ⟨pre,post,he,hx⟩ := h
  rcases append_last_cases he with ⟨-,rfl,-⟩ | ⟨post',he⟩
  · exact absurd hy hz
  · exact ⟨pre,post',he,hx⟩

theorem not_before_of_last (hz : z ∉ done) : ¬ Before (done ++ [z]) z y := by
  intro h
  obtain ⟨pre,post,he,hx⟩ := h
  apply hz
  rcases append_last_cases he with ⟨-,-,rfl⟩ | ⟨post',rfl⟩
  · exact hx
  · exact mem_append_left _ hx

end Before

/-- The chain of one node in one pass: at most one create over the uses. -/
structure ChainOf (done : List (Bool × LogicalOperator)) (ts : List FilterTransfer)
    (nodes : List (Nat × LogicalOperator)) (reverse : Bool) (id : Nat) (op : LogicalOperator)
    (chain : Chain) (uses : List FilterTransfer) : Prop where
  shape : ∃ creates, chain = creates ++ uses.map FilterTransfer.use ∧
    (creates = [] ∨ ∃ bfs, creates = [.createBF ⟨reverse, id⟩ bfs])
  mem : ∀ t ∈ uses, t ∈ ts ∧ t.reverse = reverse ∧ t.target = id
  ids : (uses.map (fun t => t.filter.id)).Nodup
  earlier : ∀ t ∈ uses, ∃ src, (t.source, src) ∈ nodes ∧ Before done (reverse, src) (reverse, op)
  complete : ∀ t ∈ ts, t.reverse = reverse → t.target = id →
    ∀ src, (t.source, src) ∈ nodes → Before done (reverse, src) (reverse, op) → t ∈ uses

/-- The state of the passes after the steps in `done`; `ts` are the filters put
on edges so far, which are all of those created by the steps in `finished`. -/
structure PassState (p : LogicalOperator) (d₀ : DAGManager)
    (done finished : List (Bool × LogicalOperator)) (ts : List FilterTransfer)
    (s : PredicateTransferOptimizer) : Prop where
  manager : s.dagManager.nodesManager = extractNodes {} p
  out : ∀ v reverse, (s.dagManager.nodes v).map (·.outEdges reverse) =
    (d₀.nodes v).map (·.outEdges reverse)
  ids : (ts.map (fun t => t.filter.id)).Nodup
  fresh : ∀ t ∈ ts, t.filter.id < s.nextFilter
  waiting : ∀ v n reverse e f, s.dagManager.nodes v = some n → e ∈ n.inEdges reverse →
    f ∈ e.bloomFilters → ⟨reverse, e.dest, v, f⟩ ∈ ts
  placed : ∀ t ∈ ts, ∃ n e, s.dagManager.nodes t.target = some n ∧ e ∈ n.inEdges t.reverse ∧
    e.dest = t.source ∧ t.filter ∈ e.bloomFilters
  created : ∀ t ∈ ts, ∃ op, (t.source, op) ∈ nodesOf p ∧ (t.reverse, op) ∈ done ∧
    ∃ bfs rest, s.replaceMap t.reverse op = some (.createBF ⟨t.reverse, t.source⟩ bfs :: rest) ∧
      t.filter ∈ bfs
  justified : ∀ t ∈ ts, ∃ js : List (Justification p t.source t.target), t.JustifiedBy js ∧
    ∃ n e, d₀.nodes t.source = some n ∧ e ∈ n.outEdges t.reverse ∧ e.dest = t.target ∧
      js.map Justification.filter = e.filters
  usedIds : ∀ i ∈ s.used, ∃ t ∈ ts, t.filter.id = i ∧
    ∃ op, (t.target, op) ∈ nodesOf p ∧ (t.reverse, op) ∈ done
  untouched : ∀ x, x ∉ done → s.replaceMap x.1 x.2 = none
  chains : ∀ reverse id op, (reverse, op) ∈ done → (id, op) ∈ nodesOf p →
    ∃ uses, ChainOf done ts (nodesOf p) reverse id op ((s.replaceMap reverse op).getD []) uses
  complete : ∀ reverse id op, (reverse, op) ∈ finished → (id, op) ∈ nodesOf p →
    ∀ n e, d₀.nodes id = some n → e ∈ n.outEdges reverse →
      ∃ t ∈ ts, t.reverse = reverse ∧ t.source = id ∧ t.target = e.dest ∧
        ∃ js : List (Justification p t.source t.target), t.JustifiedBy js ∧
          js.map Justification.filter = e.filters

namespace PredicateTransferOptimizer

/-- The entries `taken` of those seen so far, one for each unused filter. -/
structure Taken (used : List Nat) (seen taken : List (BloomFilter × Nat)) : Prop where
  mem : ∀ x ∈ taken, x ∈ seen ∧ x.1.id ∉ used
  ids : (taken.map (fun x => x.1.id)).Nodup
  complete : ∀ y ∈ seen, y.1.id ∉ used → ∃ x ∈ taken, x.1.id = y.1.id

variable {used : List Nat}

theorem Taken.step (h : Taken used seen taken) (z : BloomFilter × Nat) :
    Taken used (seen ++ [z]) (takeUnused used taken z) := by
  have hseen : ∀ x ∈ taken, x ∈ seen ++ [z] ∧ x.1.id ∉ used :=
    fun x hx => (h.mem x hx).imp_left (mem_append_left _)
  unfold takeUnused
  split
  · rename_i hz
    refine ⟨hseen,h.ids,fun y hy hu => ?_⟩
    rcases mem_append.mp hy with hy | hy
    · exact h.complete y hy hu
    · -- its flag was set by an earlier edge that carries the same filter
      obtain rfl := mem_singleton.mp hy
      exact mem_map.mp (hz.resolve_left hu)
  · rename_i hz
    push Not at hz
    refine ⟨fun x hx => ?_,?_,fun y hy hu => ?_⟩
    · rcases mem_append.mp hx with hx | hx
      · exact hseen x hx
      · obtain rfl := mem_singleton.mp hx
        exact ⟨by simp,hz.1⟩
    · rw [map_append]
      exact concat_eq_append ▸ h.ids.concat hz.2
    · rcases mem_append.mp hy with hy | hy
      · obtain ⟨x,hx,he⟩ := h.complete y hy hu
        exact ⟨x,mem_append_left _ hx,he⟩
      · exact ⟨y,mem_append_right _ hy,rfl⟩

theorem Taken.run (h : Taken used seen taken) (rest : List (BloomFilter × Nat)) :
    Taken used (seen ++ rest) (rest.foldl (takeUnused used) taken) := by
  induction rest generalizing seen taken with
  | nil => simpa using h
  | cons z rest ih => simpa using ih (h.step z)

theorem getAllBFUsed_spec (used : List Nat) (edges : List DAGEdge) :
    (∀ x ∈ getAllBFUsed used edges,
      (∃ e ∈ edges, e.dest = x.2 ∧ x.1 ∈ e.bloomFilters) ∧ x.1.id ∉ used) ∧
    ((getAllBFUsed used edges).map (fun x => x.1.id)).Nodup ∧
    ∀ e ∈ edges, ∀ f ∈ e.bloomFilters, f.id ∉ used →
      ∃ x ∈ getAllBFUsed used edges, x.1.id = f.id := by
  have hstart : Taken used [] [] := ⟨nofun,nodup_nil,nofun⟩
  have h := hstart.run (edges.flatMap (fun e => e.bloomFilters.map (fun bf => (bf, e.dest))))
  refine ⟨fun x hx => ?_,h.ids,fun e he f hf hu => ?_⟩
  · obtain ⟨hm,hu⟩ := h.mem x hx
    obtain ⟨e,he,hx⟩ := mem_flatMap.mp hm
    obtain ⟨f,hf,rfl⟩ := mem_map.mp hx
    exact ⟨⟨e,he,rfl,hf⟩,hu⟩
  · exact h.complete (f, e.dest) (mem_flatMap.mpr ⟨e,he,mem_map_of_mem hf⟩) hu

theorem getAllBFCreate_ok (h : ∀ e ∈ edges, ∀ i, (edgeFilter m cur i e).columnBindingsBuilt ≠ [])
    (id : Nat) :
    getAllBFCreate m cur id edges =
      .ok ((edges.zipIdx id).map (fun e => edgeFilter m cur e.2 e.1)) := by
  induction edges generalizing id with
  | nil => rfl
  | cons e edges ih =>
    have he : makeFilter m cur id e = .ok (edgeFilter m cur id e) := by
      unfold makeFilter
      simpa using h e mem_cons_self id
    simp only [getAllBFCreate,he,ih (forall_mem_cons.mp h).2 (id + 1)]
    rfl

theorem buildUseOperator_ok {s : PredicateTransferOptimizer}
    (h : ∀ x ∈ uses, s.relatedCreateBF reverse x.2 = .ok ⟨reverse, x.2⟩) :
    s.buildUseOperator reverse uses = .ok (uses.map (fun x => .useBF x.1 ⟨reverse, x.2⟩)) := by
  induction uses with
  | nil => rfl
  | cons x uses ih =>
    simp only [buildUseOperator,ih (forall_mem_cons.mp h).2,
      h x mem_cons_self]
    rfl

theorem storeChain_frame (s : PredicateTransferOptimizer) (reverse : Bool)
    (node : LogicalOperator) (chain : Chain) :
    (s.storeChain reverse node chain).dagManager = s.dagManager ∧
      (s.storeChain reverse node chain).used = s.used ∧
      (s.storeChain reverse node chain).nextFilter = s.nextFilter := by
  unfold storeChain setReplaceMap
  split
  · exact ⟨rfl,rfl,rfl⟩
  · split <;> exact ⟨rfl,rfl,rfl⟩

theorem storeChain_other {s : PredicateTransferOptimizer} (h : x ≠ (reverse, node)) :
    (s.storeChain reverse node chain).replaceMap x.1 x.2 = s.replaceMap x.1 x.2 := by
  unfold storeChain setReplaceMap
  obtain ⟨r,o⟩ := x
  split
  · rfl
  · cases reverse <;> cases r <;> simp_all [replaceMap]

theorem storeChain_same {s : PredicateTransferOptimizer} (h : s.replaceMap reverse node = none) :
    (s.storeChain reverse node chain).replaceMap reverse node =
      if chain.isEmpty then none else some chain := by
  unfold storeChain setReplaceMap
  split
  · exact h
  · cases reverse <;> simp [replaceMap]

end PredicateTransferOptimizer

section Step

open PredicateTransferOptimizer

variable {p : LogicalOperator} {d₀ : DAGManager} {done finished : List (Bool × LogicalOperator)}
  {ts : List FilterTransfer} {s : PredicateTransferOptimizer}

theorem id_unique (h : (i, op) ∈ nodesOf p) (h' : (i', op) ∈ nodesOf p) : i = i' :=
  Option.some.inj ((nodesOf_spec h).2.symm.trans (nodesOf_spec h').2)

/-- The passes add no vertex and leave the outgoing edges as they are. -/
theorem PassState.exists_vertex (h : PassState p d₀ done finished ts s) (hb : BuiltDag p d₀)
    {id : Nat} (hop : (id, op) ∈ nodesOf p) :
      ∃ n n', d₀.nodes id = some n ∧ s.dagManager.nodes id = some n' ∧
      ∀ reverse, n'.outEdges reverse = n.outEdges reverse := by
  obtain ⟨n,hn⟩ := Option.ne_none_iff_exists'.mp (hb.vertices _ hop)
  have hout := h.out id
  rw [hn] at hout
  cases hs : s.dagManager.nodes id with
  | none => simpa [hs] using hout false
  | some n' => exact ⟨n,n',hn,rfl,fun r => by simpa [hs] using hout r⟩

/-- Every filter waiting somewhere finds the operator that builds it. -/
theorem PassState.relatedCreateBF_ok (h : PassState p d₀ done finished ts s) (hwf : p.WellFormed)
    (ht : t ∈ ts) : s.relatedCreateBF t.reverse t.source = .ok ⟨t.reverse, t.source⟩ := by
  obtain ⟨op,hop,-,bfs,rest,hchain,-⟩ := h.created t ht
  unfold relatedCreateBF
  rw [h.manager,(getNode_eq_some hwf).mpr hop]
  simp only [hchain]

theorem edgeFilter_justified (hwf : p.WellFormed) {id i : Nat}
    (h : e.filters ≠ [] ∧ ∀ x ∈ e.filters, ∃ j : Justification p id e.dest, j.filter = x)
    (reverse : Bool) :
    ∃ js : List (Justification p id e.dest), js.map Justification.filter = e.filters ∧
      FilterTransfer.JustifiedBy ⟨reverse, id, e.dest, edgeFilter (extractNodes {} p) id i e⟩
          js := by
  obtain ⟨hne,hall⟩ := h
  obtain ⟨js,hjs⟩ : ∃ js : List (Justification p id e.dest),
      js.map Justification.filter = e.filters := by
    generalize e.filters = xs at hall ⊢
    induction xs with
    | nil => exact ⟨[],rfl⟩
    | cons x xs ih =>
      obtain ⟨js,hjs⟩ := ih (forall_mem_cons.mp hall).2
      obtain ⟨j,hj⟩ := hall x mem_cons_self
      exact ⟨j :: js,by rw [map_cons,hj,hjs]⟩
  have hcolumns : e.filters.filterMap (filterColumns (extractNodes {} p) id) =
      js.map (fun j => ((extractNodes {} p).findRename j.targetColumn,
        (extractNodes {} p).findRename j.sourceColumn)) := by
    rw [← hjs,filterMap_map]
    have hsome : ∀ j ∈ js, (filterColumns (extractNodes {} p) id ∘
        Justification.filter) j = some ((extractNodes {} p).findRename j.targetColumn,
          (extractNodes {} p).findRename j.sourceColumn) := fun j _ => j.filterColumns hwf
    rw [filterMap_congr hsome,filterMap_eq_map']
  refine ⟨js,hjs,?_,?_,?_⟩
  · intro hnil
    apply hne
    rw [← hjs,hnil,map_nil]
  · simp only [edgeFilter,hcolumns,map_map,Function.comp_def]
  · simp only [edgeFilter,hcolumns,map_map,Function.comp_def]

theorem ChainOf.append {id : Nat} (h : ChainOf done ts nodes reverse id op chain uses)
    (hx : x ∉ done) (hop : (reverse, op) ∈ done) :
    ChainOf (done ++ [x]) ts nodes reverse id op chain uses := by
  refine ⟨h.shape,h.mem,h.ids,fun t ht => ?_,fun t ht hr htgt src hsrc hbefore => ?_⟩
  · obtain ⟨src,hsrc,hbefore⟩ := h.earlier t ht
    exact ⟨src,hsrc,hbefore.append x⟩
  · exact h.complete t ht hr htgt src hsrc (hbefore.of_append hx hop)

/-- Storing the chain of one more node keeps the state of the passes. -/
theorem PassState.extend (h : PassState p d₀ done finished ts s) {id : Nat}
    (uses : List FilterTransfer) (hop : (id, op) ∈ nodesOf p) (hnew : (reverse, op) ∉ done)
    (hdag : s'.dagManager = s.dagManager) (hnext : s.nextFilter ≤ s'.nextFilter)
    (hused : ∀ i ∈ s'.used, i ∈ s.used ∨ ∃ t ∈ uses, t.filter.id = i)
    (hother : ∀ x, x ≠ (reverse, op) → s'.replaceMap x.1 x.2 = s.replaceMap x.1 x.2)
    (hchain : ChainOf (done ++ [(reverse, op)]) ts (nodesOf p) reverse id op ((s'.replaceMap reverse
      op).getD []) uses) :
    PassState p d₀ (done ++ [(reverse, op)]) finished ts s' := by
  have hold : ∀ x ∈ done, s'.replaceMap x.1 x.2 = s.replaceMap x.1 x.2 := by
    intro x hx
    apply hother
    intro he
    exact hnew (he ▸ hx)
  constructor
  case manager =>
    rw [hdag]
    exact h.manager
  case out =>
    rw [hdag]
    exact h.out
  case ids =>
    exact h.ids
  case fresh =>
    exact fun t ht => lt_of_lt_of_le (h.fresh t ht) hnext
  case waiting =>
    rw [hdag]
    exact h.waiting
  case placed =>
    rw [hdag]
    exact h.placed
  case created =>
    intro t ht
    obtain ⟨src,hsrc,hdone,bfs,rest,hmap,hmem⟩ := h.created t ht
    exact ⟨src,hsrc,mem_append_left _ hdone,bfs,rest,(hold _ hdone).trans hmap,hmem⟩
  case justified =>
    exact h.justified
  case usedIds =>
    intro i hi
    rcases hused i hi with hi | ⟨t,ht,rfl⟩
    · obtain ⟨t,ht,he,op',hop',hdone⟩ := h.usedIds i hi
      exact ⟨t,ht,he,op',hop',mem_append_left _ hdone⟩
    · obtain ⟨hts,hr,htgt⟩ := hchain.mem t ht
      refine ⟨t,hts,rfl,op,htgt ▸ hop,?_⟩
      rw [hr]
      simp
  case untouched =>
    intro x hx
    rw [mem_append,not_or] at hx
    rw [hother x (fun he => hx.2 (mem_singleton.mpr he))]
    exact h.untouched x hx.1
  case chains =>
    intro reverse' id' op' hdone hop'
    by_cases he : (reverse', op') = (reverse, op)
    · obtain ⟨rfl,rfl⟩ := Prod.mk.inj he
      exact ⟨uses,id_unique hop hop' ▸ hchain⟩
    have hdone' : (reverse', op') ∈ done := by
      rcases mem_append.mp hdone with hd | hd
      · exact hd
      · exact absurd (mem_singleton.mp hd) he
    obtain ⟨uses',huses'⟩ := h.chains reverse' id' op' hdone' hop'
    refine ⟨uses',?_⟩
    rw [hother (reverse', op') he]
    exact huses'.append hnew hdone'
  case complete =>
    exact h.complete

/-- The first half of a step: the operators for one node are built and stored. -/
theorem PassState.createBloomFilter (hwf : p.WellFormed) (hb : BuiltDag p d₀)
    (h : PassState p d₀ done finished ts s) {id : Nat}
    (hop : (id, op) ∈ nodesOf p) (hnew : (reverse, op) ∉ done) :
    ∃ s' n bfs, d₀.nodes id = some n ∧
      bfs = ((n.outEdges reverse).zipIdx s.nextFilter).map
        (fun e => edgeFilter (extractNodes {} p) id e.2 e.1) ∧
      s.createBloomFilter op reverse = .ok (s', bfs.map (fun bf => (id, bf))) ∧
      PassState p d₀ (done ++ [(reverse, op)]) finished ts s' ∧
      (bfs ≠ [] → ∃ rest, s'.replaceMap reverse op = some (.createBF ⟨reverse, id⟩ bfs :: rest)) ∧
      s'.nextFilter = s.nextFilter + bfs.length := by
  obtain ⟨n,n',hn,hn',houts⟩ := h.exists_vertex hb hop
  obtain ⟨hused,hnodup,hall⟩ := getAllBFUsed_spec s.used (n'.inEdges reverse)
  generalize htoUse : getAllBFUsed s.used (n'.inEdges reverse) = toUse at hused hnodup hall
  have htransfer : ∀ x ∈ toUse, (⟨reverse,x.2,id,x.1⟩ : FilterTransfer) ∈ ts := by
    intro x hx
    obtain ⟨⟨e,he,hd,hf⟩,-⟩ := hused x hx
    exact hd ▸ h.waiting id n' reverse e x.1 hn' he hf
  generalize hbfs : ((n.outEdges reverse).zipIdx s.nextFilter).map
    (fun e => edgeFilter (extractNodes {} p) id e.2 e.1) = bfs
  have hcreate : getAllBFCreate s.dagManager.nodesManager id s.nextFilter (n'.outEdges reverse) =
      .ok bfs := by
    rw [h.manager,houts,← hbfs]
    apply getAllBFCreate_ok
    intro e he i hnil
    obtain ⟨js,-,hne,-,hbuilt⟩ := edgeFilter_justified (i := i) hwf
      (hb.out id n reverse e hn he) reverse
    rw [hnil] at hbuilt
    exact hne (map_eq_nil_iff.mp hbuilt.symm)
  have huses : s.buildUseOperator reverse toUse =
      .ok (toUse.map (fun x => .useBF x.1 ⟨reverse,x.2⟩)) :=
    buildUseOperator_ok (fun x hx => h.relatedCreateBF_ok hwf (htransfer x hx))
  generalize huse : toUse.map (fun x => UnaryOp.useBF x.1 ⟨reverse,x.2⟩) = uses at huses
  generalize hcreates : (if bfs.isEmpty then [] else [UnaryOp.createBF ⟨reverse,id⟩ bfs]) = creates
  generalize hs₁ : ({ s with used := s.used ++ toUse.map (fun u => u.1.id),
                             nextFilter := s.nextFilter + bfs.length } :
    PredicateTransferOptimizer) = s₁
  have hmap : ∀ x : Bool × LogicalOperator, s₁.replaceMap x.1 x.2 = s.replaceMap x.1 x.2 := by
    intro x
    rw [← hs₁]
    rfl
  have hnone : s₁.replaceMap reverse op = none := (hmap _).trans (h.untouched _ hnew)
  have hrun : s.createBloomFilter op reverse =
      .ok (s₁.storeChain reverse op (creates ++ uses), bfs.map (fun bf => (id, bf))) := by
    unfold PredicateTransferOptimizer.createBloomFilter
    simp only [getNodeId_of_nodeId? (nodesOf_spec hop).2,hn',htoUse,hcreate,huses]
    rw [← hs₁,← hcreates]
    rfl
  obtain ⟨hdag,hused',hnext⟩ := storeChain_frame s₁ reverse op (creates ++ uses)
  have hdag₁ : s₁.dagManager = s.dagManager := by rw [← hs₁]
  have hchain : ((s₁.storeChain reverse op (creates ++ uses)).replaceMap reverse op).getD [] =
      creates ++ uses := by
    rw [storeChain_same hnone]
    cases hc : creates ++ uses <;> simp
  refine ⟨_,n,bfs,hn,hbfs.symm,hrun,?_,?_,?_⟩
  · apply h.extend (toUse.map (fun x => ⟨reverse,x.2,id,x.1⟩)) hop hnew
    · rw [hdag,hdag₁]
    · rw [hnext,← hs₁]
      exact Nat.le_add_right _ _
    · intro i hi
      rw [hused',← hs₁] at hi
      rcases mem_append.mp hi with hi | hi
      · exact .inl hi
      · obtain ⟨x,hx,rfl⟩ := mem_map.mp hi
        exact .inr ⟨_,mem_map_of_mem hx,rfl⟩
    · exact fun x hx => (storeChain_other hx).trans (hmap x)
    rw [hchain]
    refine ⟨⟨creates,?_,?_⟩,?_,?_,?_,?_⟩
    · rw [← huse,map_map]
      rfl
    · rw [← hcreates]
      split
      · exact .inl rfl
      · exact .inr ⟨bfs,rfl⟩
    · intro t ht
      obtain ⟨x,hx,rfl⟩ := mem_map.mp ht
      exact ⟨htransfer x hx,rfl,rfl⟩
    · rw [map_map]
      exact hnodup
    · intro t ht
      obtain ⟨x,hx,rfl⟩ := mem_map.mp ht
      obtain ⟨src,hsrc,hdone,-⟩ := h.created _ (htransfer x hx)
      exact ⟨src,hsrc,before_last hdone⟩
    -- a filter waiting here is unused, since only this step could have used it
    intro t ht hr htgt src hsrc _
    obtain ⟨n'',e,hn'',he,hd,hf⟩ := h.placed t ht
    obtain rfl : n'' = n' := Option.some.inj (hn''.symm.trans (htgt ▸ hn'))
    have hunused : t.filter.id ∉ s.used := by
      intro hu
      obtain ⟨t',ht',hid,op',hop',hdone⟩ := h.usedIds _ hu
      obtain rfl : t' = t := inj_on_of_nodup_map h.ids ht' ht hid
      obtain rfl := node_unique hwf hop (htgt ▸ hop')
      exact hnew (hr ▸ hdone)
    obtain ⟨x,hx,hxid⟩ := hall e (hr ▸ he) t.filter hf hunused
    have hsame : (⟨reverse,x.2,id,x.1⟩ : FilterTransfer) = t :=
      inj_on_of_nodup_map h.ids (htransfer x hx) ht hxid
    exact hsame ▸ mem_map_of_mem hx
  · intro hne
    have hcr : creates = [.createBF ⟨reverse,id⟩ bfs] := by
      rw [← hcreates,if_neg (by simpa using hne)]
    refine ⟨uses,?_⟩
    rw [storeChain_same hnone,hcr]
    rfl
  · rw [hnext,← hs₁]

theorem pushEdge_mono (h : e ∈ es) : ∃ e' ∈ pushEdge dest (DAGEdge.pushBloomFilter bf) es,
      e'.dest = e.dest ∧ e.bloomFilters ⊆ e'.bloomFilters := by
  induction es with
  | nil => cases h
  | cons x es ih =>
    simp only [pushEdge]
    rcases mem_cons.mp h with rfl | h
    · split
      · exact ⟨_,mem_cons_self,rfl,subset_append_left _ _⟩
      · exact ⟨_,mem_cons_self,rfl,fun _ => id⟩
    · split
      · exact ⟨e,mem_cons_of_mem _ h,rfl,fun _ => id⟩
      · obtain ⟨e',he',hd⟩ := ih h
        exact ⟨e',mem_cons_of_mem _ he',hd⟩

theorem pushEdge_self (dest : Nat) (bf : BloomFilter) (es : List DAGEdge) :
    ∃ e ∈ pushEdge dest (DAGEdge.pushBloomFilter bf) es, e.dest = dest ∧ bf ∈ e.bloomFilters := by
  induction es with
  | nil => exact ⟨_,mem_singleton.mpr rfl,rfl,by simp [DAGEdge.pushBloomFilter]⟩
  | cons x es ih =>
    simp only [pushEdge]
    split
    · rename_i hd
      exact ⟨_,mem_cons_self,hd,by simp [DAGEdge.pushBloomFilter]⟩
    · obtain ⟨e,he,hd⟩ := ih
      exact ⟨e,mem_cons_of_mem _ he,hd⟩

theorem inEdges_addIn (n : DAGNode) (source : Nat) (push : DAGEdge → DAGEdge) (reverse r : Bool) :
    (n.addIn source push (!reverse)).inEdges r =
      if r = reverse then pushEdge source push (n.inEdges r) else n.inEdges r := by
  cases reverse <;> cases r <;> rfl

/-- The nodes with a filter put on the edge to its target. -/
def placeTransfer (nodes : Nat → Option DAGNode) (n : DAGNode) (t : FilterTransfer) :
    Nat → Option DAGNode :=
  update nodes t.target (some (n.addIn t.source (DAGEdge.pushBloomFilter t.filter) (!t.reverse)))

theorem PassState.waiting_add {e : DAGEdge} (h : PassState p d₀ done finished ts s)
    (hn : s.dagManager.nodes t.target = some n)
      (hm : placeTransfer s.dagManager.nodes n t v = some m)
    (he : e ∈ m.inEdges r) (hf : f ∈ e.bloomFilters) : ⟨r,e.dest,v,f⟩ ∈ ts ++ [t] := by
  rw [placeTransfer,update_apply] at hm
  split at hm
  · rename_i hv
    obtain rfl := Option.some.inj hm
    rw [inEdges_addIn] at he
    subst hv
    split at he
    · rename_i hr
      subst hr
      rcases mem_pushEdge he with he | rfl | ⟨e₀,he₀,hd,rfl⟩
      · exact mem_append_left _ (h.waiting _ n _ e f hn he hf)
      · obtain rfl : f = t.filter := by simpa [DAGEdge.pushBloomFilter] using hf
        exact mem_append_right _ (mem_singleton.mpr rfl)
      · rcases mem_append.mp hf with hf | hf
        · exact mem_append_left _ (h.waiting _ n _ e₀ f hn he₀ hf)
        · obtain rfl := mem_singleton.mp hf
          simp [DAGEdge.pushBloomFilter,hd]
    · exact mem_append_left _ (h.waiting _ n r e f hn he hf)
  · exact mem_append_left _ (h.waiting v m r e f hm he hf)

theorem PassState.placed_add {t' : FilterTransfer} (h : PassState p d₀ done finished ts s)
    (hn : s.dagManager.nodes t.target = some n) (ht' : t' ∈ ts ++ [t]) :
    ∃ m e, placeTransfer s.dagManager.nodes n t t'.target = some m ∧ e ∈ m.inEdges t'.reverse ∧
      e.dest = t'.source ∧ t'.filter ∈ e.bloomFilters := by
  unfold placeTransfer
  rcases mem_append.mp ht' with ht' | ht'
  · obtain ⟨m,e,hm,he,hd,hf⟩ := h.placed t' ht'
    by_cases hv : t'.target = t.target
    · rw [hv,update_self]
      obtain rfl : m = n := Option.some.inj (hm.symm.trans (hv ▸ hn))
      obtain ⟨e',he',hd',hsub⟩ : ∃ e' ∈
          (m.addIn t.source (DAGEdge.pushBloomFilter t.filter) (!t.reverse)).inEdges t'.reverse,
          e'.dest = e.dest ∧ e.bloomFilters ⊆ e'.bloomFilters := by
        rw [inEdges_addIn]
        split
        · exact pushEdge_mono he
        · exact ⟨e,he,rfl,fun _ => id⟩
      exact ⟨_,e',rfl,he',hd'.trans hd,hsub hf⟩
    · exact ⟨m,e,by rw [update_of_ne hv]; exact hm,he,hd,hf⟩
  · obtain rfl := mem_singleton.mp ht'
    obtain ⟨e,he,hd,hf⟩ := pushEdge_self t'.source t'.filter (n.inEdges t'.reverse)
    refine ⟨_,e,update_self ..,?_,hd,hf⟩
    rw [inEdges_addIn,if_pos rfl]
    exact he

/-- A chain stays complete if nothing was processed after the node that made the new filter. -/
theorem ChainOf.add {t : FilterTransfer} (hc : ChainOf done ts nodes r i o chain uses)
    (hlast : ∀ src, (t.source, src) ∈ nodes → ¬ Before done (t.reverse, src) (t.reverse, o)) :
    ChainOf done (ts ++ [t]) nodes r i o chain uses := by
  refine ⟨hc.shape,fun u hu => ?_,hc.ids,hc.earlier,fun u hu hr hut src hsrc hbefore => ?_⟩
  · obtain ⟨h1,h2⟩ := hc.mem u hu
    exact ⟨mem_append_left _ h1,h2⟩
  · rcases mem_append.mp hu with hu | hu
    · exact hc.complete u hu hr hut src hsrc hbefore
    · obtain rfl := mem_singleton.mp hu
      exact absurd (hr ▸ hbefore) (hlast src hsrc)

/-- `DAGManager::Add` puts a filter of the node just processed on its edge. -/
theorem PassState.add (hb : BuiltDag p d₀) (h : PassState p d₀ done finished ts s)
    (hdone : done = prev ++ [(t.reverse, op)]) (hprev : (t.reverse, op) ∉ prev)
    (hop : (t.source, op) ∈ nodesOf p) (hid : t.filter.id ∉ ts.map (fun t => t.filter.id))
    (hlt : t.filter.id < s.nextFilter)
    (hcreate : ∃ bfs rest, s.replaceMap t.reverse op = some (.createBF ⟨t.reverse, t.source⟩ bfs ::
      rest) ∧ t.filter ∈ bfs)
    {js : List (Justification p t.source t.target)} (hjs : t.JustifiedBy js)
    (hedge : ∃ n e, d₀.nodes t.source = some n ∧ e ∈ n.outEdges t.reverse ∧ e.dest = t.target ∧
      js.map Justification.filter = e.filters)
    (hwf : p.WellFormed) :
    ∃ s', s.add t.source t.filter t.reverse = .ok s' ∧ PassState p d₀ done finished (ts ++ [t]) s' ∧
      (∀ r o, s'.replaceMap r o = s.replaceMap r o) ∧ s'.nextFilter = s.nextFilter := by
  obtain ⟨hne,happlied,-⟩ := id hjs
  obtain ⟨j,js',rfl⟩ := exists_cons_of_ne_nil hne
  have htgt := j.target_table
  obtain ⟨⟨_,o⟩,htn,rfl⟩ := mem_map.mp j.targetNode
  obtain ⟨-,n,-,hn,-⟩ := h.exists_vertex hb htn
  generalize hs' : ({ s with dagManager := { s.dagManager with
      nodes := placeTransfer s.dagManager.nodes n t } } : PredicateTransferOptimizer) = s'
  have hrun : s.add t.source t.filter t.reverse = .ok s' := by
    unfold PredicateTransferOptimizer.add
    rw [happlied,map_cons]
    simp only [htgt,hn]
    rw [← hs']
    rfl
  have hnodes : s'.dagManager.nodes = placeTransfer s.dagManager.nodes n t := by rw [← hs']
  have hmap : ∀ r o, s'.replaceMap r o = s.replaceMap r o := by
    intro r o
    rw [← hs']
    rfl
  have hnext : s'.nextFilter = s.nextFilter := by rw [← hs']
  refine ⟨s',hrun,?_,hmap,hnext⟩
  constructor
  case manager =>
    rw [← hs']
    exact h.manager
  case out =>
    intro v r
    rw [hnodes,placeTransfer,update_apply,← h.out v r]
    split
    · rename_i hv
      rw [hv,hn,Option.map_some,Option.map_some,outEdges_addIn]
    · rfl
  case ids =>
    rw [map_append,nodup_append]
    refine ⟨h.ids,nodup_singleton _,?_⟩
    intro a ha b hb' he
    rw [map_cons,map_nil,mem_singleton] at hb'
    exact hid (hb' ▸ he ▸ ha)
  case fresh =>
    intro t' ht'
    rw [hnext]
    rcases mem_append.mp ht' with ht' | ht'
    · exact h.fresh t' ht'
    · exact mem_singleton.mp ht' ▸ hlt
  case waiting =>
    intro v m r e f hm he hf
    exact h.waiting_add hn (hnodes ▸ hm) he hf
  case placed =>
    intro t' ht'
    rw [hnodes]
    exact h.placed_add hn ht'
  case created =>
    intro t' ht'
    rcases mem_append.mp ht' with ht' | ht'
    · obtain ⟨o,ho,hd,bfs,rest,hm,hf⟩ := h.created t' ht'
      exact ⟨o,ho,hd,bfs,rest,(hmap _ _).trans hm,hf⟩
    · obtain rfl := mem_singleton.mp ht'
      obtain ⟨bfs,rest,hm,hf⟩ := hcreate
      exact ⟨op,hop,by simp [hdone],bfs,rest,(hmap _ _).trans hm,hf⟩
  case justified =>
    intro t' ht'
    rcases mem_append.mp ht' with ht' | ht'
    · exact h.justified t' ht'
    · obtain rfl := mem_singleton.mp ht'
      exact ⟨_,hjs,hedge⟩
  case usedIds =>
    intro i hi
    have hi' : i ∈ s.used := by rw [← hs'] at hi; exact hi
    obtain ⟨t',ht',he⟩ := h.usedIds i hi'
    exact ⟨t',mem_append_left _ ht',he⟩
  case untouched =>
    intro x hx
    rw [hmap]
    exact h.untouched x hx
  case chains =>
    intro r i o ho hio
    obtain ⟨uses,hc⟩ := h.chains r i o ho hio
    refine ⟨uses,?_⟩
    rw [hmap]
    apply hc.add
    intro src hsrc hbefore
    obtain rfl := node_unique hwf hsrc hop
    rw [hdone] at hbefore
    exact not_before_of_last hprev hbefore
  case complete =>
    intro r i o ho hio m e hm he
    obtain ⟨t',ht',h1⟩ := h.complete r i o ho hio m e hm he
    exact ⟨t',mem_append_left _ ht',h1⟩

/-- The loop that puts the filters of one node on their edges. -/
theorem PassState.addAll (hwf : p.WellFormed) (hb : BuiltDag p d₀) {id : Nat}
    (hn : d₀.nodes id = some n) (hdone : done = prev ++ [(reverse, op)])
    (hprev : (reverse, op) ∉ prev) (hop : (id, op) ∈ nodesOf p) (all : List BloomFilter)
    (edges : List (DAGEdge × Nat)) (hedges : ∀ e ∈ edges, e.1 ∈ n.outEdges reverse)
    (h : PassState p d₀ done finished ts s)
    (hmap : edges ≠ [] → ∃ rest, s.replaceMap reverse op =
      some (.createBF ⟨reverse, id⟩ all :: rest))
    (hall : ∀ e ∈ edges, edgeFilter (extractNodes {} p) id e.2 e.1 ∈ all)
    (hids : (ts.map (fun t => t.filter.id) ++ edges.map Prod.snd).Nodup)
    (hlt : ∀ e ∈ edges, e.2 < s.nextFilter) :
    ∃ s' ts', (edges.map (fun e => (id, edgeFilter (extractNodes {} p) id e.2 e.1))).foldlM
        (fun s bf => s.add bf.1 bf.2 reverse) s = .ok s' ∧
      PassState p d₀ done finished ts' s' ∧ ts ⊆ ts' ∧
      ∀ e ∈ edges, ∃ t ∈ ts', t.reverse = reverse ∧ t.source = id ∧ t.target = e.1.dest ∧
        ∃ js : List (Justification p t.source t.target), t.JustifiedBy js ∧
          js.map Justification.filter = e.1.filters := by
  induction edges generalizing ts s with
  | nil => exact ⟨s,ts,rfl,h,List.Subset.refl _,nofun⟩
  | cons e edges ih =>
    have he := hb.out id n reverse e.1 hn (hedges e mem_cons_self)
    obtain ⟨js,hjs,hjust⟩ := edgeFilter_justified (i := e.2) hwf he reverse
    obtain ⟨rest,hrest⟩ := hmap (cons_ne_nil _ _)
    have hidnew : e.2 ∉ ts.map (fun t => t.filter.id) := by
      intro hmem
      exact (nodup_append.mp hids).2.2 _ hmem _ mem_cons_self rfl
    obtain ⟨s₁,hrun,hstate,hmap₁,hnext₁⟩ := h.add hb (t := ⟨reverse,id,e.1.dest,
      edgeFilter (extractNodes {} p) id e.2 e.1⟩) hdone hprev hop hidnew (hlt e mem_cons_self)
      ⟨all,rest,hrest,hall e mem_cons_self⟩ hjust
      ⟨n,e.1,hn,hedges e mem_cons_self,rfl,hjs⟩ hwf
    obtain ⟨s',ts',hrun',hstate',hsub,hcomplete⟩ := ih
      (forall_mem_cons.mp hedges).2 hstate
      (fun _ => ⟨rest,(hmap₁ reverse op).trans hrest⟩)
      (forall_mem_cons.mp hall).2
      (by
        rw [map_append,append_assoc]
        exact hids)
      (fun x hx => hnext₁ ▸ hlt x (mem_cons_of_mem _ hx))
    refine ⟨s',ts',?_,hstate',fun t ht => hsub (mem_append_left _ ht),fun x hx => ?_⟩
    · rw [map_cons,foldlM_cons]
      rw [hrun]
      exact hrun'
    · rcases mem_cons.mp hx with rfl | hx
      · exact ⟨_,hsub (mem_append_right _ (mem_singleton.mpr rfl)),rfl,rfl,rfl,js,
          hjust,hjs⟩
      · exact hcomplete x hx

/-- One round of a pass succeeds and keeps the state. -/
theorem PassState.step (hwf : p.WellFormed) (hb : BuiltDag p d₀) (h : PassState p d₀ done done ts s)
    (hop : op ∈ (nodesOf p).map Prod.snd) (hnew : (reverse, op) ∉ done) :
    ∃ s' ts', transferNode reverse s op = .ok s' ∧
      PassState p d₀ (done ++ [(reverse, op)]) (done ++ [(reverse, op)]) ts' s' := by
  obtain ⟨id,hop⟩ : ∃ id, (id, op) ∈ nodesOf p := by
    obtain ⟨node,hnode,rfl⟩ := mem_map.mp hop
    exact ⟨node.1,hnode⟩
  obtain ⟨s₁,n,bfs,hn,hbfs,hrun,hstate,hmap,hnext⟩ := h.createBloomFilter hwf hb hop hnew
  have hlen : bfs.length = (n.outEdges reverse).length := by simp [hbfs]
  obtain ⟨s',ts',hadds,hfinal,hsub,hcomplete⟩ := hstate.addAll hwf hb hn rfl hnew hop
    bfs ((n.outEdges reverse).zipIdx s.nextFilter)
    (fun e he => fst_mem_of_mem_zipIdx he)
    (fun hne => hmap (by rw [hbfs]; simpa using hne))
    (fun e he => hbfs ▸ mem_map_of_mem he)
    (by
      rw [nodup_append,zipIdx_map_snd]
      refine ⟨h.ids,nodup_range' ..,?_⟩
      intro a ha b hb' he
      obtain ⟨t,ht,rfl⟩ := mem_map.mp ha
      have hfresh := h.fresh t ht
      have hge := (mem_range'_1.mp hb').1
      omega)
    (fun e he => by
      have := mem_zipIdx he
      omega)
  refine ⟨s',ts',?_,?_⟩
  · unfold transferNode
    rw [hrun]
    simp only [hbfs,map_map,Function.comp_def] at hadds ⊢
    exact hadds
  refine { hfinal with complete := ?_ }
  intro r i o ho hio m e hm he
  by_cases heq : (r, o) = (reverse, op)
  · obtain ⟨rfl,rfl⟩ := Prod.mk.inj heq
    obtain rfl := id_unique hio hop
    obtain rfl : m = n := Option.some.inj (hm.symm.trans hn)
    obtain ⟨k,hk,hek⟩ := getElem_of_mem he
    refine hcomplete (e, s.nextFilter + k) (mem_of_getElem? (i := k) ?_)
    simp [hk,hek]
  · have ho' : (r, o) ∈ done := by
      rcases mem_append.mp ho with ho | ho
      · exact ho
      · exact absurd (mem_singleton.mp ho) heq
    exact hfinal.complete r i o ho' hio m e hm he

end Step

section Run

open PredicateTransferOptimizer

variable {p : LogicalOperator} {d₀ : DAGManager}

/-- The steps of both passes, in the order they are taken. -/
def schedule (order : List LogicalOperator) : List (Bool × LogicalOperator) :=
  order.reverse.map (Prod.mk false) ++ order.map (Prod.mk true)

theorem transferPasses_eq (s : PredicateTransferOptimizer) :
    s.transferPasses = (schedule s.dagManager.execOrder).foldlM
      (fun s x => transferNode x.1 s x.2) s := by
  unfold schedule transferPasses
  simp only [foldlM_append,foldlM_map]

theorem nodesOf_ops_nodup (hwf : p.WellFormed) : ((nodesOf p).map Prod.snd).Nodup := by
  have hnd := nodesOf_nodup hwf
  apply List.Nodup.map_on _ (List.Nodup.of_map _ hnd)
  rintro ⟨i,o⟩ ha ⟨i',o'⟩ hb rfl
  rw [id_unique ha hb]

theorem schedule_nodup (h : order.Nodup) : (schedule order).Nodup := by
  unfold schedule
  rw [nodup_append]
  have hinj : ∀ b : Bool, Function.Injective (Prod.mk (β := LogicalOperator) b) :=
    fun b x y he => (Prod.mk.inj he).2
  refine ⟨(nodup_reverse.mpr h).map (hinj false),h.map (hinj true),?_⟩
  intro a ha b hb he
  obtain ⟨x,-,rfl⟩ := mem_map.mp ha
  obtain ⟨y,-,rfl⟩ := mem_map.mp hb
  cases he

theorem mem_schedule : x ∈ schedule order ↔ x.2 ∈ order := by
  obtain ⟨r,o⟩ := x
  cases r <;> simp [schedule]

/-- The passes start with no filter anywhere. -/
theorem PassState.start (hb : BuiltDag p d₀) : PassState p d₀ [] [] [] { dagManager := d₀ } := by
  constructor
  case manager =>
    exact hb.manager
  case out =>
    exact fun v r => rfl
  case ids =>
    exact nodup_nil
  case fresh =>
    exact nofun
  case waiting =>
    intro v n r e f hn he hf
    rw [hb.empty v n r e hn he] at hf
    cases hf
  case placed =>
    exact nofun
  case created =>
    exact nofun
  case justified =>
    exact nofun
  case usedIds =>
    exact nofun
  case untouched =>
    intro x _
    obtain ⟨r,o⟩ := x
    cases r <;> rfl
  case chains =>
    exact nofun
  case complete =>
    exact nofun

/-- Over any remaining schedule no step fails. -/
theorem PassState.run (hwf : p.WellFormed) (hb : BuiltDag p d₀) (h : PassState p d₀ done done ts s)
    (hops : ∀ x ∈ todo, x.2 ∈ (nodesOf p).map Prod.snd) (hnd : (done ++ todo).Nodup) :
    ∃ s' ts', todo.foldlM (fun s x => transferNode x.1 s x.2) s = .ok s' ∧
      PassState p d₀ (done ++ todo) (done ++ todo) ts' s' := by
  induction todo generalizing done ts s with
  | nil => exact ⟨s,ts,rfl,by simpa using h⟩
  | cons x todo ih =>
    have hnew : (x.1, x.2) ∉ done := by
      intro hx
      exact (nodup_append.mp hnd).2.2 _ hx _ mem_cons_self rfl
    obtain ⟨s₁,ts₁,hrun,hstate⟩ := h.step hwf hb (hops x mem_cons_self) hnew
    obtain ⟨s',ts',hrun',hstate'⟩ := ih hstate
      (forall_mem_cons.mp hops).2 (by simpa using hnd)
    refine ⟨s',ts',?_,by simpa using hstate'⟩
    rw [foldlM_cons,hrun]
    exact hrun'

theorem transferPasses_ok (hwf : p.WellFormed) (hb : BuiltDag p d₀) :
    ∃ s ts, transferPasses { dagManager := d₀ } = .ok s ∧
      PassState p d₀ (schedule d₀.execOrder) (schedule d₀.execOrder) ts s := by
  rw [transferPasses_eq]
  apply (PassState.start hb).run hwf hb
  · intro x hx
    exact hb.order.mem_iff.mp (mem_schedule.mp hx)
  · exact schedule_nodup (hb.order.nodup_iff.mpr (nodesOf_ops_nodup hwf))

end Run

end PredTrans.Transfer
