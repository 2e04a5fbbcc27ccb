import PredTrans.Transfer.Order

namespace PredTrans.Transfer
open Plan LogicalOperator UnaryOp
open List hiding reverse

/-! The plan after `InsertCreateBFOperator_d`: which chain stands on which
operator, and why no filter waits for itself. -/

namespace PredicateTransferOptimizer

/-- Everything put on top of an operator. -/
def chainAt (s : PredicateTransferOptimizer) (key : LogicalOperator) : Chain :=
  (s.replaceMap true key).getD [] ++ (s.replaceMap false key).getD []

/-- An operator over its rewritten inputs, without its own chains. -/
def insertBelow (s : PredicateTransferOptimizer) : LogicalOperator → LogicalOperator
  | .leaf op => .leaf op
  | .unary op child => .unary op (s.insertCreateBFOperator child)
  | .binary op l r => .binary op (s.insertCreateBFOperator l) (s.insertCreateBFOperator r)

theorem insertCreateBFOperator_eq (s : PredicateTransferOptimizer) (q : LogicalOperator) :
    s.insertCreateBFOperator q = (s.chainAt q).foldr unary (s.insertBelow q) := by
  cases q <;> simp [insertCreateBFOperator,wrap,chainAt,insertBelow,replaceMap]

/-- Without chains the plan stays as it is. -/
theorem insertCreateBFOperator_start (d : DAGManager) (q : LogicalOperator) :
    ({ dagManager := d } : PredicateTransferOptimizer).insertCreateBFOperator q = q := by
  induction q with
  | leaf op => rfl
  | unary op c ih => simp [insertCreateBFOperator,wrap,ih]
  | binary op l r ihl ihr => simp [insertCreateBFOperator,wrap,ihl,ihr]

end PredicateTransferOptimizer

open PredicateTransferOptimizer

section Subplans

variable {s : PredicateTransferOptimizer} {p q x : LogicalOperator}

theorem mem_subplans_chain :
    x ∈ (chain.foldr unary q).subplans ↔ x ∈ q.subplans ∨
      ∃ pre op post, chain = pre ++ op :: post ∧ x = .unary op (post.foldr .unary q) := by
  induction chain with
  | nil => simp
  | cons op chain ih =>
    rw [foldr_cons,subplans,mem_cons,ih]
    constructor
    · rintro (rfl | h | ⟨pre,op',post,rfl,rfl⟩)
      · exact .inr ⟨[],op,chain,rfl,rfl⟩
      · exact .inl h
      · exact .inr ⟨op :: pre,op',post,rfl,rfl⟩
    rintro (h | ⟨pre,op',post,he,rfl⟩)
    · exact .inr (.inl h)
    cases pre with
    | nil =>
      obtain ⟨rfl,rfl⟩ := List.cons.inj he
      exact .inl rfl
    | cons o pre =>
      obtain ⟨rfl,rfl⟩ := List.cons.inj he
      exact .inr (.inr ⟨pre,op',post,rfl,rfl⟩)

theorem mem_insertBelow_subplans (h : x ∈ (s.insertBelow q).subplans) :
    x = s.insertBelow q ∨
      ∃ c ∈ q.subplans, c ≠ q ∧ x ∈ (s.insertCreateBFOperator c).subplans := by
  cases q with
  | leaf op => exact .inl (mem_singleton.mp h)
  | unary op c =>
    exact (mem_cons.mp h).imp id
      (fun h => ⟨c,mem_cons_of_mem _ c.self_mem_subplans,nofun,h⟩)
  | binary op l r =>
    refine (mem_cons.mp h).imp id (fun h => ?_)
    rcases mem_append.mp h with h | h
    · exact ⟨l,mem_cons_of_mem _ (mem_append_left _ l.self_mem_subplans),nofun,h⟩
    · exact ⟨r,mem_cons_of_mem _ (mem_append_right _ r.self_mem_subplans),nofun,h⟩

/-- An operator of the final plan is one of the input plan over rewritten inputs,
or part of a chain. -/
theorem mem_inserted_subplans (h : x ∈ (s.insertCreateBFOperator q).subplans) :
    ∃ o ∈ q.subplans, x = s.insertBelow o ∨ ∃ pre op post, s.chainAt o = pre ++ op :: post ∧
      x = .unary op (post.foldr .unary (s.insertBelow o)) := by
  induction hn : q.subplans.length using Nat.strong_induction_on generalizing q with
  | _ n ih =>
    rw [insertCreateBFOperator_eq,mem_subplans_chain] at h
    rcases h with h | h
    · rcases mem_insertBelow_subplans h with rfl | ⟨c,hc,hne,hx⟩
      · exact ⟨q,q.self_mem_subplans,.inl rfl⟩
      · obtain ⟨o,ho,hcase⟩ := ih _ (hn ▸ subplans_length_lt hc hne) hx rfl
        exact ⟨o,subplans_trans ho hc,hcase⟩
    · exact ⟨q,q.self_mem_subplans,.inr h⟩

theorem noBF_of_mem (h : p.noBF) (hm : unary op c ∈ p.subplans) : op.isBF = false := by
  have hq : (unary op c).noBF := subplans_induction hm h And.right id
  exact hq.1

/-- A filter operator below an operator of a plan belongs to a chain there. -/
theorem mem_inserted_bf (hp : q.noBF) (hop : op.isBF = true)
    (h : unary op c ∈ (s.insertCreateBFOperator q).subplans) :
    ∃ o ∈ q.subplans, ∃ pre post, s.chainAt o = pre ++ op :: post ∧
      c = post.foldr .unary (s.insertBelow o) := by
  obtain ⟨o,ho,he | ⟨pre,op',post,hch,he⟩⟩ := mem_inserted_subplans h
  · cases o with
    | leaf _ | binary _ _ _ => cases he
    | unary o' d =>
      obtain ⟨rfl,-⟩ := unary.inj he
      rw [noBF_of_mem hp ho] at hop
      cases hop
  · obtain ⟨rfl,rfl⟩ := unary.inj he
    exact ⟨o,ho,pre,post,hch,rfl⟩

end Subplans

section Before

theorem Before.idxOf_lt [BEq α] [LawfulBEq α] {x y : α} (h : Before l x y) (hnd : l.Nodup) :
    l.idxOf x < l.idxOf y := by
  obtain ⟨pre,post,rfl,hx⟩ := h
  have hy : y ∉ pre := fun hy => (nodup_append.mp hnd).2.2 y hy y mem_cons_self rfl
  rw [idxOf_append_of_mem hx,idxOf_append_of_notMem hy]
  have := idxOf_lt_length_of_mem hx
  omega

theorem before_schedule (hx : x ∈ order) (hy : y ∈ order) :
    Before (schedule order) (false, x) (true, y) := by
  obtain ⟨pre,post,rfl⟩ := append_of_mem hy
  refine ⟨(pre ++ y :: post).reverse.map (Prod.mk false) ++ pre.map (Prod.mk true),
    post.map (Prod.mk true),by simp [schedule],?_⟩
  exact mem_append_left _ (mem_map_of_mem (mem_reverse.mpr hx))

end Before

/-- A finished run of both passes over the graph of a well-formed plan. -/
structure Transferred (p : LogicalOperator) (d₀ : DAGManager) (ts : List FilterTransfer)
    (s : PredicateTransferOptimizer) : Prop where
  wellFormed : p.WellFormed
  built : BuiltDag p d₀
  state : PassState p d₀ (schedule d₀.execOrder) (schedule d₀.execOrder) ts s

namespace Transferred

variable {p : LogicalOperator} {d₀ : DAGManager} {ts : List FilterTransfer}
  {s : PredicateTransferOptimizer} {q : LogicalOperator}

theorem mem_chainAt : op ∈ s.chainAt q ↔ ∃ reverse, op ∈ (s.replaceMap reverse q).getD [] := by
  simp only [chainAt,mem_append,Bool.exists_bool]
  exact or_comm

variable (h : Transferred p d₀ ts s) {id : Nat} (hq : (id, q) ∈ nodesOf p)
include h

include hq in
theorem mem_order : q ∈ d₀.execOrder :=
  h.built.order.mem_iff.mpr (mem_map.mpr ⟨_,hq,rfl⟩)

include hq in
theorem scheduled (reverse : Bool) : (reverse, q) ∈ schedule d₀.execOrder :=
  mem_schedule.mpr (h.mem_order hq)

theorem order_nodup : d₀.execOrder.Nodup :=
  h.built.order.nodup_iff.mpr (nodesOf_ops_nodup h.wellFormed)

theorem chainAt_eq_nil (hq : ∀ id, (id, q) ∉ nodesOf p) : s.chainAt q = [] := by
  have hnone : ∀ reverse, s.replaceMap reverse q = none := by
    intro reverse
    apply h.state.untouched (reverse, q)
    intro hm
    obtain ⟨⟨id,o⟩,hn,rfl⟩ := mem_map.mp (h.built.order.mem_iff.mp (mem_schedule.mp hm))
    exact hq id hn
  simp [chainAt,hnone]

theorem exists_pass (hop : op ∈ s.chainAt q) :
    ∃ id reverse, (id, q) ∈ nodesOf p ∧ op ∈ (s.replaceMap reverse q).getD [] := by
  obtain ⟨reverse,hm⟩ := mem_chainAt.mp hop
  by_contra! hq
  rw [h.chainAt_eq_nil fun id hid => hq id reverse hid hm] at hop
  cases hop

include hq in
/-- A create operator in the chain of one pass heads it. -/
theorem create_mem (hm : .createBF a bfs ∈ (s.replaceMap reverse q).getD []) :
    a = ⟨reverse, id⟩ ∧ ∃ rest, (s.replaceMap reverse q).getD [] = .createBF a bfs :: rest := by
  obtain ⟨uses,hch⟩ := h.state.chains reverse id q (h.scheduled hq reverse) hq
  obtain ⟨creates,he,hcreates⟩ := hch.shape
  rw [he] at hm ⊢
  rcases mem_append.mp hm with hm | hm
  · rcases hcreates with rfl | ⟨bfs',rfl⟩
    · cases hm
    · obtain ⟨rfl,rfl⟩ := createBF.inj (mem_singleton.mp hm)
      exact ⟨rfl,_,rfl⟩
  · obtain ⟨t,-,ht⟩ := mem_map.mp hm
    cases ht

include hq in
/-- A use operator in the chain of one pass belongs to a filter made earlier in
that pass. -/
theorem use_mem (hm : .useBF f a ∈ (s.replaceMap reverse q).getD []) :
    ∃ t ∈ ts, t.use = .useBF f a ∧ t.reverse = reverse ∧ t.target = id ∧
      ∃ src, (t.source, src) ∈ nodesOf p ∧
        Before (schedule d₀.execOrder) (reverse, src) (reverse, q) := by
  obtain ⟨uses,hch⟩ := h.state.chains reverse id q (h.scheduled hq reverse) hq
  obtain ⟨creates,he,hcreates⟩ := hch.shape
  rw [he] at hm
  rcases mem_append.mp hm with hm | hm
  · rcases hcreates with rfl | ⟨bfs',rfl⟩
    · cases hm
    · cases mem_singleton.mp hm
  · obtain ⟨t,ht,htu⟩ := mem_map.mp hm
    obtain ⟨htm,hrev,htar⟩ := hch.mem t ht
    exact ⟨t,htm,htu,hrev,htar,hch.earlier t ht⟩

include hq in
/-- The uses below a create operator in a chain come from steps before its own. -/
theorem use_below_create (hsplit : s.chainAt q = pre ++ .createBF a bfs :: post)
    (hm : .useBF f b ∈ post) :
    a.node = id ∧ ∃ t ∈ ts, t.use = .useBF f b ∧ t.target = id ∧
      ∃ src, (t.source, src) ∈ nodesOf p ∧
      Before (schedule d₀.execOrder) (t.reverse, src) (a.reverse, q) := by
  have hcreate : createBF a bfs ∈ s.chainAt q := by simp [hsplit]
  have huse : useBF f b ∈ s.chainAt q := by simp [hsplit,hm]
  obtain ⟨reverse,hc⟩ := mem_chainAt.mp hcreate
  obtain ⟨rfl,-⟩ := h.create_mem hq hc
  refine ⟨rfl,?_⟩
  obtain ⟨reverse',hu⟩ := mem_chainAt.mp huse
  cases reverse with
  | true =>
    obtain ⟨t,ht,htu,hrev,htar,src,hsrc,hbefore⟩ := h.use_mem hq hu
    refine ⟨t,ht,htu,htar,src,hsrc,?_⟩
    cases reverse' with
    | true => exact hrev ▸ hbefore
    | false => exact hrev ▸ before_schedule (h.mem_order hsrc) (h.mem_order hq)
  | false =>
    -- the forward chain is the lower one, so what is below its create is in it
    have hpost : useBF f b ∈ (s.replaceMap false q).getD [] := by
      rcases append_eq_append_iff.mp hsplit with ⟨as,rfl,hF⟩ | ⟨as,hB,hF⟩
      · rw [hF]
        simp [hm]
      cases as with
      | nil =>
        rw [nil_append] at hF
        rw [← hF]
        exact mem_cons_of_mem _ hm
      | cons o as =>
        obtain ⟨rfl,-⟩ := List.cons.inj hF
        have hback : createBF ⟨false,id⟩ bfs ∈ (s.replaceMap true q).getD [] := by
          simp [hB]
        cases (h.create_mem hq hback).1
    obtain ⟨t,ht,htu,hrev,htar,src,hsrc,hbefore⟩ := h.use_mem hq hpost
    exact ⟨t,ht,htu,htar,src,hsrc,hrev ▸ hbefore⟩

theorem depth_eq (ht : t ∈ ts) : depth p t.source = depth p t.target := by
  obtain ⟨js,⟨hne,-⟩,-⟩ := h.state.justified t ht
  obtain ⟨j,hj⟩ := exists_mem_of_ne_nil js hne
  exact j.depth_eq h.wellFormed

end Transferred

section Rank

variable {p : LogicalOperator} {d₀ : DAGManager} {ts : List FilterTransfer}
  {s : PredicateTransferOptimizer} {q : LogicalOperator}

/-- The step that builds a create operator. -/
def stepIndex (p : LogicalOperator) (order : List LogicalOperator) (a : CreateBFRef) : Nat :=
  ((extractNodes {} p).getNode a.node).elim 0 (fun op => (schedule order).idxOf (a.reverse, op))

/-- Deeper nodes first, then by the schedule. -/
def rank (p : LogicalOperator) (order : List LogicalOperator) (a : CreateBFRef) : Nat :=
  ((nodesOf p).length - depth p a.node) * ((schedule order).length + 1) + stepIndex p order a

theorem stepIndex_le (p : LogicalOperator) (order : List LogicalOperator) (a : CreateBFRef) :
    stepIndex p order a ≤ (schedule order).length := by
  unfold stepIndex
  cases (extractNodes {} p).getNode a.node with
  | none => exact Nat.zero_le _
  | some op => exact idxOf_le_length

theorem stepIndex_lt (h : Transferred p d₀ ts s) {x y : LogicalOperator}
    (ha : (a.node, x) ∈ nodesOf p) (hb : (b.node, y) ∈ nodesOf p)
    (hbefore : Before (schedule d₀.execOrder) (a.reverse, x) (b.reverse, y)) :
    stepIndex p d₀.execOrder a < stepIndex p d₀.execOrder b := by
  unfold stepIndex
  rw [(getNode_eq_some h.wellFormed).mpr ha,(getNode_eq_some h.wellFormed).mpr hb]
  exact hbefore.idxOf_lt (schedule_nodup h.order_nodup)

theorem rank_lt_of_depth (h : depth p b.node < depth p a.node) :
    rank p order a < rank p order b := by
  have hle := depth_le p a.node
  have hstep := stepIndex_le p order a
  unfold rank
  have hmul : ((nodesOf p).length - depth p a.node + 1) * ((schedule order).length + 1) ≤
      ((nodesOf p).length - depth p b.node) * ((schedule order).length + 1) :=
    Nat.mul_le_mul_right _ (by omega)
  rw [add_mul,one_mul] at hmul
  omega

/-- Below the operator that builds a filter only filters of lower rank are used. -/
theorem rank_lt_of_below (h : Transferred p d₀ ts s) {a b : CreateBFRef}
    (hc : unary (.createBF a bfs) c ∈ (s.insertCreateBFOperator p).subplans)
    (hu : unary (.useBF f b) d ∈ c.subplans) :
    rank p d₀.execOrder b < rank p d₀.execOrder a := by
  obtain ⟨o,ho,pre,post,hsplit,rfl⟩ := mem_inserted_bf h.wellFormed.noBF rfl hc
  have hmem : createBF a bfs ∈ s.chainAt o := by simp [hsplit]
  obtain ⟨id,reverse,hid,hcreate⟩ := h.exists_pass hmem
  obtain ⟨rfl,-⟩ := h.create_mem hid hcreate
  rcases mem_subplans_chain.mp hu with hu | ⟨pre',op,post',rfl,he⟩
  · rcases mem_insertBelow_subplans hu with he | ⟨c,hco,hne,hu⟩
    · cases o with
      | leaf _ | binary _ _ _ => cases he
      | unary o' d =>
        obtain ⟨rfl,-⟩ := unary.inj he
        cases noBF_of_mem h.wellFormed.noBF ho
    -- the use stands inside the node, so its filter moves at a greater depth
    have hwfo := h.wellFormed.of_mem ho
    obtain ⟨o',ho',pre',post',hsplit',-⟩ :=
      mem_inserted_bf (hwfo.of_mem hco).noBF rfl hu
    have hmem' : useBF f b ∈ s.chainAt o' := by simp [hsplit']
    obtain ⟨id',reverse',hid',huse⟩ := h.exists_pass hmem'
    obtain ⟨t,ht,htu,-,htar,-⟩ := h.use_mem hid' huse
    obtain ⟨-,rfl⟩ := useBF.inj htu
    apply rank_lt_of_depth
    rw [h.depth_eq ht,htar]
    refine depth_lt_of_inside h.wellFormed hid hid' (subplans_trans ho' hco) ?_
    rintro rfl
    exact hne (subplans_antisymm hco ho')
  · obtain ⟨rfl,-⟩ := unary.inj he
    obtain ⟨-,t,ht,htu,htar,src,hsrc,hbefore⟩ :=
      h.use_below_create hid hsplit (f := f) (b := b) (by simp)
    obtain ⟨-,rfl⟩ := useBF.inj htu
    have hdepth : depth p t.source = depth p id := htar ▸ h.depth_eq ht
    have hstep := stepIndex_lt h (a := ⟨t.reverse,t.source⟩) (b := ⟨reverse,id⟩) hsrc hid hbefore
    unfold rank
    simp only [hdepth]
    omega

end Rank

end PredTrans.Transfer
