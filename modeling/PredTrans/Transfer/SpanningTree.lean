import PredTrans.Transfer.DagSpec
import PredTrans.Library.FullReducer

namespace PredTrans.Transfer
open Plan Library
open List hiding reverse

/-! On a connected graph `LargestRoot` grows one tree over all nodes, and the
orientation of its edges sends filters up the tree and down again. -/

section Tree

variable {ctx : Context} {d₀ d : DAGManager} {root : Nat} {g : List (Nat × Nat)}

def DAGManager.ids (d : DAGManager) : List Nat := d.nodesManager.nodes.map Prod.fst

/-- The tree grown so far from the pool of `d₀`. -/
structure TreeState (d₀ d : DAGManager) (root : Nat) (g : List (Nat × Nat)) : Prop where
  growth : Growth (fun u v => (d₀.filtersAt (u, v)).length) d₀.ids root g
  edges : ∀ e ∈ g, d₀.filtersAt e ≠ []
  selected : d.selectedFiltersAndBindings = g.flatMap d₀.filtersAt
  order : d.execOrder = (members root g).filterMap d₀.nodesManager.getNode
  pool : ∀ x, x ∈ d.ids ↔ x ∈ d₀.ids ∧ x ∉ members root g
  priority : ∀ x ∈ members root g, ∃ n, d.nodes x = some n ∧
    n.priority = (d₀.nodesManager.nodes.length : Int) - 1 - (members root g).idxOf x

def DAGManager.Connected (d : DAGManager) : Prop :=
  ∀ x ∈ d.ids, ∀ y ∈ d.ids, Reach (fun u v => v ∈ d.ids ∧ d.filtersAt (u, v) ≠ []) x y

theorem filtersAt_congr (h : d.filtersAndBindings = d₀.filtersAndBindings) (key : Nat × Nat) :
    d.filtersAt key = d₀.filtersAt key := by
  unfold DAGManager.filtersAt
  rw [h]

theorem construct_execOrder (hsub : d.nodesManager.nodes.Sublist d₀.nodesManager.nodes)
    (hnd : d₀.ids.Nodup) {id : Nat} (hid : id ∈ d.ids) (priority : Int) :
    (d.construct id priority).execOrder =
      d.execOrder ++ [id].filterMap d₀.nodesManager.getNode := by
  obtain ⟨n,hn,rfl⟩ := mem_map.mp hid
  have hget := getNode_of_mem ((hsub.map Prod.fst).nodup hnd) hn
  have hget₀ := getNode_of_mem hnd (hsub.subset hn)
  simp [DAGManager.construct,hget,hget₀]

theorem mem_construct_ids {id x : Nat} :
    x ∈ (d.construct id priority).ids ↔ x ∈ d.ids ∧ x ≠ id := by
  simp only [DAGManager.ids,DAGManager.construct,NodesManager.eraseNode,mem_map,
    mem_filter,decide_eq_true_eq]
  constructor
  · rintro ⟨n,⟨hn,hne⟩,rfl⟩
    exact ⟨⟨n,hn,rfl⟩,hne⟩
  · rintro ⟨⟨n,hn,rfl⟩,hne⟩
    exact ⟨n,⟨hn,hne⟩,rfl⟩

theorem construct_nodes_of_ne {id x : Nat} (h : x ≠ id) :
    (d.construct id priority).nodes x = d.nodes x :=
  Function.update_of_ne h _ _

theorem construct_nodes_self {id : Nat} (h : d.nodes id ≠ none) (priority : Int) :
    ∃ n, (d.construct id priority).nodes id = some n ∧ n.priority = priority := by
  obtain ⟨n,hn⟩ := Option.ne_none_iff_exists'.mp h
  exact ⟨{ n with priority := priority },by simp [DAGManager.construct,hn],rfl⟩

/-- One round of the loop adds the chosen edge to the tree. -/
theorem TreeState.step {unconstructed : List Nat} (h : TreeState d₀ d root g)
    (hg : GrowingTree d₀ d unconstructed) (hnd : d₀.ids.Nodup)
    (hf : d.findEdge ctx (members root g) unconstructed = some key) :
    TreeState d₀ ({ d with selectedFiltersAndBindings :=
        d.selectedFiltersAndBindings ++ d.filtersAt key }.construct key.2
          ((d₀.nodesManager.nodes.length : Int) - 1 - (members root g).length)) root
              (g ++ [key]) := by
  obtain ⟨hj,hi,hne,hmax⟩ := findEdge_some hf
  have hids : unconstructed = d.ids := hg.waiting
  obtain ⟨hirel,hiout⟩ := (h.pool _).mp (hids ▸ hi)
  simp only [filtersAt_congr hg.filters] at hne hmax ⊢
  constructor
  · refine h.growth.snoc hj hirel hiout (fun u hu v hv hvout => ?_)
    exact hmax u hu v (hids ▸ (h.pool v).mpr ⟨hv,hvout⟩)
  · intro e he
    rcases mem_append.mp he with he | he
    · exact h.edges e he
    · exact mem_singleton.mp he ▸ hne
  · simp [DAGManager.construct,h.selected]
  · rw [members_snoc,filterMap_append,← h.order]
    exact construct_execOrder hg.pool hnd (hids ▸ hi)
      ((d₀.nodesManager.nodes.length : Int) - 1 - (members root g).length)
  · intro x
    rw [mem_construct_ids,members_snoc,mem_append,mem_singleton,not_or,← and_assoc]
    exact and_congr_left (fun _ => h.pool x)
  intro x hx
  rw [members_snoc] at hx ⊢
  rcases mem_append.mp hx with hx | hx
  · rw [idxOf_append_of_mem hx,construct_nodes_of_ne (fun he : x = key.2 => hiout (he ▸ hx))]
    exact h.priority x hx
  obtain rfl := mem_singleton.mp hx
  obtain ⟨n,hn,hkey⟩ := mem_map.mp (hids ▸ hi : key.2 ∈ d.ids)
  have hsome := hkey ▸ hg.ready n hn
  obtain ⟨m,hm,hp⟩ := construct_nodes_self hsome
    ((d₀.nodesManager.nodes.length : Int) - 1 - (members root g).length)
  refine ⟨m,hm,hp.trans ?_⟩
  rw [idxOf_append_of_notMem hiout]
  simp

/-- On a connected graph the loop ends with an empty pool. -/
theorem growTree_tree (h : TreeState d₀ d root g) (hg : GrowingTree d₀ d unconstructed)
    (hnd : d₀.ids.Nodup) (hroot : root ∈ d₀.ids) (hconn : d₀.Connected)
    (hfuel : unconstructed.length ≤ fuel)
    (hp : priority = (d₀.nodesManager.nodes.length : Int) - 1 - (members root g).length) :
    ∃ g', TreeState d₀ (d.growTree ctx fuel (members root g) unconstructed priority) root g' ∧
      (d.growTree ctx fuel (members root g) unconstructed priority).nodesManager.nodes = [] := by
  induction fuel generalizing d g unconstructed priority with
  | zero =>
    refine ⟨g,h,?_⟩
    have hlen : unconstructed = [] := eq_nil_of_length_eq_zero (Nat.le_zero.mp hfuel)
    rw [hg.waiting] at hlen
    exact map_eq_nil_iff.mp hlen
  | succ fuel ih =>
    simp only [DAGManager.growTree]
    cases hf : d.findEdge ctx (members root g) unconstructed with
    | none =>
      refine ⟨g,h,?_⟩
      by_contra hne
      -- some node is left, so a walk from the root has to leave the tree
      obtain ⟨n,hn⟩ := exists_mem_of_ne_nil _ hne
      obtain ⟨hrel,hout⟩ := (h.pool n.1).mp (mem_map.mpr ⟨n,hn,rfl⟩)
      obtain ⟨u,hu,v,hv,⟨hvrel,huv⟩,-⟩ := exists_last_exit (C := {x | x ∈ members root g})
        (hconn root hroot n.1 hrel) mem_cons_self hout
      apply huv
      rw [← filtersAt_congr hg.filters]
      exact findEdge_none hf u hu v (hg.waiting ▸ (h.pool v).mpr ⟨hvrel,hv⟩)
    | some key =>
      have hstep := h.step hg hnd hf
      have hgrow := (hg.select key).construct hnd (findEdge_some hf).2.1 priority
      rw [← hp] at hstep
      have hmem : members root g ++ [key.2] = members root (g ++ [key]) := (members_snoc _ _ _).symm
      simp only [hmem]
      apply ih hstep hgrow
      · have hpos := length_erase_of_mem (findEdge_some hf).2.1
        omega
      · rw [members_snoc,length_append,length_singleton]
        omega

end Tree

section Orientation

/-- A comparison sent along an edge: source, target, whether in the forward pass,
and the comparison. -/
abbrev Sent := Nat × Nat × Bool × Expression

/-- The edges of a node are exactly those for the comparisons sent from it. -/
structure EdgesExactly (sends : Nat → Expression → Prop) (es : List DAGEdge) : Prop where
  dests : (es.map DAGEdge.dest).Nodup
  filters : ∀ e ∈ es, ∀ x, x ∈ e.filters ↔ sends e.dest x
  exists_edge : ∀ w x, sends w x → ∃ e ∈ es, e.dest = w

theorem pushEdge_dests (dest : Nat) (x : Expression) (es : List DAGEdge) :
    (pushEdge dest (DAGEdge.pushFilter x) es).map DAGEdge.dest =
      if dest ∈ es.map DAGEdge.dest then es.map DAGEdge.dest
          else es.map DAGEdge.dest ++ [dest] := by
  induction es with
  | nil => rfl
  | cons e es ih =>
    simp only [pushEdge]
    by_cases he : e.dest = dest
    · simp [he,DAGEdge.pushFilter]
    · have hne : dest ≠ e.dest := fun h => he h.symm
      rw [if_neg he,map_cons,ih,map_cons]
      by_cases hm : dest ∈ es.map DAGEdge.dest <;> simp [hm,hne]

theorem mem_pushEdge_iff (hnd : (es.map DAGEdge.dest).Nodup) :
    e ∈ pushEdge dest (DAGEdge.pushFilter x) es ↔
      (e ∈ es ∧ e.dest ≠ dest) ∨ (∃ e₀ ∈ es, e₀.dest = dest ∧ e = e₀.pushFilter x) ∨
        (dest ∉ es.map DAGEdge.dest ∧ e = DAGEdge.pushFilter x { dest := dest }) := by
  induction es with
  | nil => simp [pushEdge]
  | cons e₁ es ih =>
    obtain ⟨hout,hnd⟩ := nodup_cons.mp hnd
    simp only [pushEdge]
    by_cases he : e₁.dest = dest
    · subst he
      have hother : ∀ e₀ ∈ es, e₀.dest ≠ e₁.dest :=
        fun e₀ h₀ h => hout (h ▸ mem_map_of_mem h₀)
      rw [if_pos rfl]
      constructor
      · intro h
        rcases mem_cons.mp h with rfl | h
        · exact .inr (.inl ⟨e₁,mem_cons_self,rfl,rfl⟩)
        · exact .inl ⟨mem_cons_of_mem _ h,hother e h⟩
      rintro (⟨h,hne⟩ | ⟨e₀,h₀,hd,rfl⟩ | ⟨h,-⟩)
      · rcases mem_cons.mp h with rfl | h
        · exact absurd rfl hne
        · exact mem_cons_of_mem _ h
      · rcases mem_cons.mp h₀ with rfl | h₀
        · exact mem_cons_self
        · exact absurd hd (hother e₀ h₀)
      · exact absurd mem_cons_self h
    · rw [if_neg he,mem_cons,ih hnd]
      have hne : dest ≠ e₁.dest := fun h => he h.symm
      simp only [mem_cons,map_cons,hne,false_or]
      constructor
      · rintro (rfl | ⟨h,hd⟩ | ⟨e₀,h₀,h⟩ | h)
        · exact .inl ⟨.inl rfl,he⟩
        · exact .inl ⟨.inr h,hd⟩
        · exact .inr (.inl ⟨e₀,.inr h₀,h⟩)
        · exact .inr (.inr h)
      · rintro (⟨rfl | h,hd⟩ | ⟨e₀,rfl | h₀,hd,h⟩ | h)
        · exact .inl rfl
        · exact .inr (.inl ⟨h,hd⟩)
        · exact absurd hd he
        · exact .inr (.inr (.inl ⟨e₀,h₀,hd,h⟩))
        · exact .inr (.inr (.inr h))

theorem EdgesExactly.push (h : EdgesExactly sends es) (dest : Nat) (x : Expression) :
    EdgesExactly (fun w y => sends w y ∨ (w = dest ∧ y = x))
      (pushEdge dest (DAGEdge.pushFilter x) es) := by
  constructor
  · rw [pushEdge_dests]
    split
    · exact h.dests
    · rename_i hout
      exact nodup_append.mpr ⟨h.dests,nodup_singleton _,fun a ha b hb he =>
        hout (mem_singleton.mp hb ▸ he ▸ ha)⟩
  · intro e he y
    rcases (mem_pushEdge_iff h.dests).mp he with ⟨he,hne⟩ | ⟨e₀,he₀,hd,rfl⟩ | ⟨hout,rfl⟩
    · rw [h.filters e he]
      simp [hne]
    · have hiff := h.filters e₀ he₀ y
      simp [DAGEdge.pushFilter,hd,hiff]
    have hnone : ¬ sends dest y := by
      intro hs
      obtain ⟨e,he,hd⟩ := h.exists_edge dest y hs
      exact hout (hd ▸ mem_map_of_mem he)
    simp [DAGEdge.pushFilter,hnone]
  · intro w y hs
    have hmem : w ∈ (pushEdge dest (DAGEdge.pushFilter x) es).map DAGEdge.dest := by
      rw [pushEdge_dests]
      rcases hs with hs | ⟨rfl,-⟩
      · obtain ⟨e,he,rfl⟩ := h.exists_edge w y hs
        have := mem_map_of_mem (f := DAGEdge.dest) he
        split <;> simp [this]
      · split
        · assumption
        · simp
    obtain ⟨e,he,hd⟩ := mem_map.mp hmem
    exact ⟨e,he,hd⟩

/-- Every node's edges are exactly those for the comparisons sent. -/
def OutExactly (sent : List Sent) (nodes : Nat → Option DAGNode) : Prop :=
  ∀ v n reverse, nodes v = some n →
    EdgesExactly (fun w x => (v, w, !reverse, x) ∈ sent) (n.outEdges reverse)

theorem outEdges_addOut (n : DAGNode) (target : Nat) (push : DAGEdge → DAGEdge)
    (forward r : Bool) : (n.addOut target push forward).outEdges r =
      if r = !forward then pushEdge target push (n.outEdges r) else n.outEdges r := by
  cases forward <;> cases r <;> rfl

variable {nodes : Nat → Option DAGNode} {sent : List Sent}

theorem OutExactly.addTransfer (h : OutExactly sent nodes) (source target : Nat)
    (x : Expression) (forward : Bool) :
    OutExactly (sent ++ [(source, target, forward, x)])
      (addTransfer nodes source target x forward) := by
  intro v n reverse hn
  -- the incoming entry does not matter here
  obtain ⟨m,hm,hout⟩ : ∃ m, modifyNode nodes source
      (fun n => n.addOut target (DAGEdge.pushFilter x) forward) v = some m ∧
        n.outEdges reverse = m.outEdges reverse := by
    rcases modifyNode_eq_some hn with ⟨-,hn⟩ | ⟨-,m,hm,rfl⟩
    · exact ⟨n,hn,rfl⟩
    · exact ⟨m,hm,outEdges_addIn _ _ _ _ _⟩
  rw [hout]
  have hsame : ∀ {m₀ : DAGNode}, nodes v = some m₀ →
      (∀ w y, (v, w, !reverse, y) ≠ (source, target, forward, x)) →
      EdgesExactly (fun w y => (v, w, !reverse, y) ∈ sent ++ [(source, target, forward, x)])
        (m₀.outEdges reverse) := by
    intro m₀ hm₀ hne
    have := h v m₀ reverse hm₀
    simpa only [mem_append,mem_singleton,hne,or_false] using this
  rcases modifyNode_eq_some hm with ⟨hv,hm⟩ | ⟨rfl,m₀,hm₀,rfl⟩
  · exact hsame hm (fun w y he => hv (Prod.mk.inj he).1)
  rw [outEdges_addOut]
  split
  · rename_i hr
    have := (h v m₀ reverse hm₀).push target x
    simpa only [mem_append,mem_singleton,Prod.mk.injEq,true_and,hr,
      Bool.not_not] using this
  · rename_i hr
    refine hsame hm₀ (fun w y he => hr ?_)
    have : (!reverse) = forward := (Prod.mk.inj (Prod.mk.inj (Prod.mk.inj he).2).2).1
    rw [← this,Bool.not_not]

def priorities (nodes : Nat → Option DAGNode) (v : Nat) : Option Int :=
  (nodes v).map DAGNode.priority

theorem addTransfer_priorities (source target : Nat) (x : Expression) (forward : Bool) :
    priorities (addTransfer nodes source target x forward) = priorities nodes := by
  have hmodify : ∀ (ns : Nat → Option DAGNode) (id : Nat) (f : DAGNode → DAGNode),
      (∀ n, (f n).priority = n.priority) → priorities (modifyNode ns id f) = priorities ns := by
    intro ns id f hf
    funext v
    unfold priorities modifyNode
    rw [Function.update_apply]
    split
    · rename_i hv
      subst hv
      cases ns v <;> simp [hf]
    · rfl
  unfold Transfer.addTransfer
  rw [hmodify,hmodify]
  · intro n
    cases forward <;> rfl
  · intro n
    cases forward <;> rfl

theorem transfersOf_congr (h : priorities nodes = priorities nodes') (info : DAGEdgeInfo) :
    transfersOf nodes info = transfersOf nodes' info := by
  unfold transfersOf
  cases getNodeId info.small with
  | none => rfl
  | some small =>
    cases getNodeId info.large with
    | none => rfl
    | some large =>
      have hs := congrFun h small
      have hl := congrFun h large
      unfold priorities at hs hl
      cases h1 : nodes small <;> cases h2 : nodes' small <;> cases h3 : nodes large <;>
        cases h4 : nodes' large <;> simp_all

/-- Everything the selected edges send. -/
def sentBy (nodes : Nat → Option DAGNode) (infos : List DAGEdgeInfo) : List Sent :=
  infos.flatMap (fun info => (transfersOf nodes info).map
    (fun t => (t.1, t.2.1, t.2.2, info.filter)))

theorem orientEdges_outExactly (infos : List DAGEdgeInfo) (h : OutExactly sent nodes) :
    OutExactly (sent ++ sentBy nodes infos) (infos.foldl orientEdge nodes) := by
  induction infos generalizing nodes sent with
  | nil => simpa [sentBy] using h
  | cons info infos ih =>
    have hadd : ∀ (ts : List (Nat × Nat × Bool)) (ns : Nat → Option DAGNode) (sent : List Sent),
        OutExactly sent ns →
        OutExactly (sent ++ ts.map (fun t => (t.1, t.2.1, t.2.2, info.filter)))
          (ts.foldl (fun ns t => addTransfer ns t.1 t.2.1 info.filter t.2.2) ns) ∧
        priorities (ts.foldl (fun ns t => addTransfer ns t.1 t.2.1 info.filter t.2.2) ns) =
          priorities ns := by
      intro ts
      induction ts with
      | nil => exact fun ns sent h => ⟨by simpa using h,rfl⟩
      | cons t ts iht =>
        intro ns sent hns
        obtain ⟨h1,h2⟩ := iht _ _ (hns.addTransfer t.1 t.2.1 info.filter t.2.2)
        rw [append_assoc] at h1
        exact ⟨h1,h2.trans (addTransfer_priorities _ _ _ _)⟩
    obtain ⟨hout,hprio⟩ := hadd (transfersOf nodes info) nodes sent h
    rw [← orientEdge_eq] at hout hprio
    have hrest := ih hout
    have hsent : sentBy (orientEdge nodes info) infos = sentBy nodes infos := by
      unfold sentBy
      simp only [transfersOf_congr hprio]
    rw [hsent,append_assoc] at hrest
    exact hrest

end Orientation

section TreeDag

variable {ctx : Context} {d₀ d : DAGManager} {root : Nat} {g : List (Nat × Nat)}

/-- Every stored edge is unprotected and connects the tables of its key. -/
def DAGManager.InnerEdges (d : DAGManager) : Prop :=
  ∀ key info, (key, info) ∈ d.filtersAndBindings →
    info.largeProtect = false ∧ info.smallProtect = false ∧
      ((getNodeId info.small = some key.1 ∧ getNodeId info.large = some key.2) ∨
        (getNodeId info.large = some key.1 ∧ getNodeId info.small = some key.2))

/-- The tree edge that a transfer goes along: filters move to the parent in the
forward pass and to the child in the backward pass. -/
def treeEdge (reverse : Bool) (source target : Nat) : Nat × Nat :=
  if reverse then (source, target) else (target, source)

/-- What a selected edge sends when the first table of its key has the higher priority. -/
theorem mem_transfersOf (hprotect : info.largeProtect = false ∧ info.smallProtect = false)
    (hends : (getNodeId info.small = some j ∧ getNodeId info.large = some i) ∨
      (getNodeId info.large = some j ∧ getNodeId info.small = some i))
    (hj : nodes j = some nj) (hi : nodes i = some ni) (hlt : ni.priority < nj.priority) :
    t ∈ transfersOf nodes info ↔ t = (i, j, true) ∨ t = (j, i, false) := by
  unfold transfersOf
  rcases hends with ⟨hs,hl⟩ | ⟨hl,hs⟩
  · simp only [hs,hl,hj,hi,mem_transfersBetween,hprotect,gt_iff_lt,hlt,decide_true]
    simp
  · have hle : ¬ nj.priority < ni.priority := by omega
    simp only [hs,hl,hj,hi,mem_transfersBetween,hprotect,gt_iff_lt,hle,decide_false]
    simp [or_comm]

/-- The graph of a tree: filters move along tree edges only, with all the
comparisons between the two tables. -/
structure TreeDag (d₀ d : DAGManager) (root : Nat) (g : List (Nat × Nat)) : Prop where
  growth : Growth (fun u v => (d₀.filtersAt (u, v)).length) d₀.ids root g
  rooted : root ∈ d₀.ids
  covers : ∀ x ∈ d₀.ids, x ∈ members root g
  order : d.execOrder = (members root g).filterMap d₀.nodesManager.getNode
  out : ∀ v n reverse e, d.nodes v = some n → e ∈ n.outEdges reverse → e.filters ≠ [] →
    treeEdge reverse v e.dest ∈ g ∧
      ∀ x, x ∈ e.filters ↔ ∃ info ∈ d₀.filtersAt (treeEdge reverse v e.dest), info.filter = x
  exists_edge : ∀ v w n reverse, d.nodes v = some n → treeEdge reverse v w ∈ g →
    ∃ e ∈ n.outEdges reverse, e.dest = w

/-- What the tree sends, comparison by comparison. -/
theorem TreeState.mem_sentBy (h : TreeState d₀ d root g) (hinner : d₀.InnerEdges) :
    (v, w, !reverse, x) ∈ sentBy d.nodes d.selectedFiltersAndBindings ↔
      treeEdge reverse v w ∈ g ∧ ∃ info ∈ d₀.filtersAt (treeEdge reverse v w), info.filter = x := by
  have hedge : ∀ j i info, (j, i) ∈ g → info ∈ d₀.filtersAt (j, i) → ∀ t,
      t ∈ transfersOf d.nodes info ↔ t = (i, j, true) ∨ t = (j, i, false) := by
    intro j i info hji hinfo t
    obtain ⟨h1,h2,hends⟩ := hinner _ _ (filtersAt_selected hinfo)
    obtain ⟨hj,hi⟩ := h.growth.rootedTree.ends_mem _ hji
    obtain ⟨nj,hnj,hpj⟩ := h.priority j hj
    obtain ⟨ni,hni,hpi⟩ := h.priority i hi
    have hlt := h.growth.rootedTree.idxOf_lt _ hji
    dsimp only at hlt
    exact mem_transfersOf ⟨h1,h2⟩ hends hnj hni (by omega)
  simp only [sentBy,h.selected,mem_flatMap,mem_map,Prod.mk.injEq]
  constructor
  · rintro ⟨info,⟨⟨j,i⟩,hji,hinfo⟩,t,ht,rfl,rfl,hr,rfl⟩
    rcases (hedge j i info hji hinfo t).mp ht with rfl | rfl
    · obtain rfl : reverse = false := by simpa using hr.symm
      exact ⟨hji,info,hinfo,rfl⟩
    · obtain rfl : reverse = true := by simpa using hr.symm
      exact ⟨hji,info,hinfo,rfl⟩
  · rintro ⟨hmem,info,hinfo,rfl⟩
    refine ⟨info,⟨_,hmem,hinfo⟩,(v, w, !reverse),?_,rfl,rfl,rfl,rfl⟩
    cases reverse
    · exact (hedge w v info hmem hinfo _).mpr (.inl rfl)
    · exact (hedge v w info hmem hinfo _).mpr (.inr rfl)

variable (ctx) (hg : Growing d₀ d₀) (hnd : d₀.ids.Nodup) (hne : d₀.nodesManager.nodes ≠ [])
  (hselected : d₀.selectedFiltersAndBindings = []) (horder : d₀.execOrder = [])
  (hconn : d₀.Connected)
include hg hnd hne hselected horder hconn

theorem largestRoot_tree :
    ∃ root ∈ d₀.ids, ∃ g, TreeState d₀ (d₀.largestRoot ctx) root g ∧
      (d₀.largestRoot ctx).nodesManager.nodes = [] := by
  obtain ⟨root,n,hroot,hfind⟩ := exists_root ctx hne
  have hn := mem_of_find?_eq_some hfind
  have hid : n.1 ∈ d₀.ids := mem_map.mpr ⟨n,hn,rfl⟩
  refine ⟨n.1,hid,?_⟩
  simp only [DAGManager.largestRoot,hroot,hfind]
  have htree := growingTree_root ctx hg hnd root hn (d₀.nodesManager.nodes.length - 1)
  have hstart : TreeState d₀ ((d₀.createVertices ctx root).construct n.1
      (d₀.nodesManager.nodes.length - 1)) n.1 [] := by
    refine ⟨.nil,by simp,hselected,?_,?_,?_⟩
    · have hex := construct_execOrder (d := d₀.createVertices ctx root) (List.Sublist.refl _) hnd
        hid (d₀.nodesManager.nodes.length - 1)
      rw [hex]
      simp [DAGManager.createVertices,horder,members]
    · intro x
      rw [mem_construct_ids]
      simp [members,DAGManager.createVertices,DAGManager.ids]
    · intro x hx
      obtain rfl := mem_singleton.mp hx
      obtain ⟨m,hm,hp⟩ := construct_nodes_self
        ((createVertices_growing ctx hg hnd root).2 n hn) (d₀.nodesManager.nodes.length - 1)
      exact ⟨m,hm,by simp [hp,members]⟩
  exact growTree_tree hstart htree hnd hid hconn le_rfl (by simp [members])

theorem growForest_tree :
    ∃ root ∈ d₀.ids, ∃ g,
      TreeState d₀ (d₀.growForest ctx d₀.nodesManager.nodes.length) root g ∧
        (d₀.growForest ctx d₀.nodesManager.nodes.length).nodesManager.nodes = [] := by
  obtain ⟨root,hroot,g,htree,hempty⟩ :=
    largestRoot_tree ctx hg hnd hne hselected horder hconn
  have hstop : ∀ fuel, (d₀.largestRoot ctx).growForest ctx fuel = d₀.largestRoot ctx := by
    intro fuel
    cases fuel with
    | zero => rfl
    | succ fuel => simp [DAGManager.growForest,hempty]
  obtain ⟨fuel,hfuel⟩ : ∃ fuel, d₀.nodesManager.nodes.length = fuel + 1 :=
    Nat.exists_eq_succ_of_ne_zero (fun h => hne (eq_nil_of_length_eq_zero h))
  have hrun : d₀.growForest ctx d₀.nodesManager.nodes.length = d₀.largestRoot ctx := by
    rw [hfuel,DAGManager.growForest,if_neg (by simpa using hne),hstop]
  rw [hrun]
  exact ⟨root,hroot,g,htree,hempty⟩

theorem createDAG_tree (hinner : d₀.InnerEdges) :
    ∃ root g, TreeDag d₀ (d₀.createDAG ctx) root g := by
  obtain ⟨root,hroot,g,htree,hempty⟩ := growForest_tree ctx hg hnd hne hselected horder hconn
  have hplain := (growForest_growing ctx hg hnd le_rfl).1.plain
  have hstart : OutExactly [] (d₀.growForest ctx d₀.nodesManager.nodes.length).nodes := by
    intro v n reverse hn
    obtain ⟨-,-,hf,hb⟩ := hplain v n hn
    have : n.outEdges reverse = [] := by cases reverse <;> simp [DAGNode.outEdges,hf,hb]
    rw [this]
    exact ⟨nodup_nil,by simp,by simp⟩
  have hout := orientEdges_outExactly
    (d₀.growForest ctx d₀.nodesManager.nodes.length).selectedFiltersAndBindings hstart
  refine ⟨root,g,htree.growth,hroot,?_,htree.order,?_,?_⟩
  · intro x hx
    by_contra hmem
    have := (htree.pool x).mpr ⟨hx,hmem⟩
    simp [DAGManager.ids,hempty] at this
  · intro v n reverse e hn he hfilters
    have hiff := (hout v n reverse hn).filters e he
    obtain ⟨x,hx⟩ := exists_mem_of_ne_nil _ hfilters
    have hmem := ((htree.mem_sentBy hinner).mp ((hiff x).mp hx)).1
    refine ⟨hmem,fun y => (hiff y).trans ((htree.mem_sentBy hinner).trans ?_)⟩
    simp [hmem]
  · intro v w n reverse hn hmem
    obtain ⟨info,hinfo⟩ := exists_mem_of_ne_nil _ (htree.edges _ hmem)
    exact (hout v n reverse hn).exists_edge w info.filter
      ((htree.mem_sentBy hinner).mpr ⟨hmem,info,hinfo,rfl⟩)

end TreeDag

end PredTrans.Transfer
