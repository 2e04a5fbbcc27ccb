import PredTrans.Transfer.Inserted

/-! `InsertCreateBFOperator_d` on operators with their addresses, which are the keys of the replace
maps. The search reads a plan while the operators of the maps are moved into it. Insertion into
plans without addresses is what remains of it when the addresses are forgotten. -/

namespace PredTrans.Transfer.Splicing
open List hiding map chains
open Plan

/-- An operator without what it owns. -/
inductive Operator where
  | leaf (op : LeafOp)
  | unary (op : UnaryOp)
  | binary (op : BinaryOp)
deriving DecidableEq, Repr

/-- `LOGICAL_CREATE_BF` and `LOGICAL_USE_BF`. -/
def Operator.isTransfer : Operator → Bool
  | .unary op => op.isBF
  | _ => false

abbrev Link := Nat × Operator

/-- An operator behind a `unique_ptr`, with its address and what it owns. -/
inductive Owned where
  | node (address : Nat) (op : Operator) (children : List Owned)

/-- A replace map; the value of an entry that was moved out is a null pointer. -/
abbrev ReplaceMap := Nat → Option (Option Owned)

structure ReplaceMaps where
  forward : ReplaceMap
  backward : ReplaceMap

namespace Owned

/-- The walk to the last operator of a chain, and `AddChild` there. -/
def attach (plan : Owned) : Owned → Owned
  | .node a t [] => .node a t [plan]
  | .node a t (c :: cs) => .node a t (attach plan c :: cs)

/-- One lookup by address. A null pointer in the map has no children to walk. -/
def wrap (map : ReplaceMap) (key : Nat) (plan : Owned) : Option (Owned × ReplaceMap) :=
  match map key with
  | none => some (plan, map)
  | some none => none
  | some (some top) => some (plan.attach top, Function.update map key (some none))

mutual

/-- `InsertCreateBFOperator_d`. -/
def insertCreateBFOperator (maps : ReplaceMaps) : Owned → Option (Owned × ReplaceMaps)
  | .node address type children => do
    let (children, maps) ← insertChildren maps children
    let (plan, forward) ← wrap maps.forward address (.node address type children)
    let (plan, backward) ← wrap maps.backward address plan
    return (plan, ⟨forward, backward⟩)

/-- The loop over the children. -/
def insertChildren (maps : ReplaceMaps) : List Owned → Option (List Owned × ReplaceMaps)
  | [] => some ([], maps)
  | c :: cs => do
    let (c, maps) ← insertCreateBFOperator maps c
    let (cs, maps) ← insertChildren maps cs
    return (c :: cs, maps)

end

mutual

/-- Every operator of a plan, each before those below it. -/
def operators : Owned → List Link
  | .node a t cs => (a, t) :: operatorsAll cs

def operatorsAll : List Owned → List Link
  | [] => []
  | c :: cs => operators c ++ operatorsAll cs

end

def addresses (plan : Owned) : List Nat := plan.operators.map Prod.fst

/-- A chain of transfer operators. -/
def isChain : Owned → Bool
  | .node _ t [] => t.isTransfer
  | .node _ t [c] => t.isTransfer && c.isChain
  | _ => false

/-- Operators directly above a plan, the first one on top. -/
def stack (chain : List Link) (plan : Owned) : Owned :=
  chain.foldr (fun link plan => .node link.1 link.2 [plan]) plan

/-- The operators stored for a key. -/
def chainOf (map : ReplaceMap) (key : Nat) : List Link :=
  match map key with
  | some (some top) => top.operators
  | _ => []

mutual

/-- A plan with the backward chain directly above the forward chain above each node. -/
def placed (forward backward : Nat → List Link) : Owned → Owned
  | .node a t cs =>
    stack (backward a) (stack (forward a) (.node a t (placedAll forward backward cs)))

def placedAll (forward backward : Nat → List Link) : List Owned → List Owned
  | [] => []
  | c :: cs => placed forward backward c :: placedAll forward backward cs

end

mutual

/-- What is left of a plan without its transfer operators. -/
def erase : Owned → List Owned
  | .node a t cs => if t.isTransfer then eraseAll cs else [.node a t (eraseAll cs)]

def eraseAll : List Owned → List Owned
  | [] => []
  | c :: cs => erase c ++ eraseAll cs

end

theorem attach_chain (plan : Owned) : ∀ top, isChain top = true →
    plan.attach top = stack top.operators plan ∧ ∀ link ∈ top.operators, link.2.isTransfer
  | .node a t [], h => by simpa [attach,operators,operatorsAll,stack,isChain] using h
  | .node a t [c], h => by
    rw [isChain,Bool.and_eq_true] at h
    obtain ⟨hattach,hlinks⟩ := attach_chain plan c h.2
    simpa [attach,operators,operatorsAll,hattach,stack,h.1] using hlinks
  | .node a t (c :: d :: cs), h => by simp [isChain] at h

/-- The entry for a key is missing, or still holds its chain. -/
def Ready (map : ReplaceMap) (chains : Nat → List Link) (key : Nat) : Prop :=
  map key = none ∧ chains key = [] ∨
    ∃ top, map key = some (some top) ∧ top.isChain = true ∧ chains key = top.operators

theorem wrap_spec (h : Ready map chains key) (plan : Owned) : ∃ map',
    wrap map key plan = some (stack (chains key) plan, map') ∧ ∀ k, k ≠ key → map' k = map k := by
  rcases h with ⟨hnone,hempty⟩ | ⟨top,hsome,hchain,hops⟩
  · simp [wrap,hnone,hempty,stack]
  · refine ⟨Function.update map key (some none),?_,fun k hk => Function.update_of_ne hk _ _⟩
    simp [wrap,hsome,hops,(attach_chain plan top hchain).1]

theorem Ready.congr (h : Ready map chains key) (hkey : map' key = map key) :
    Ready map' chains key := by
  unfold Ready at *
  rwa [hkey]

section

variable (forward backward : Nat → List Link)

mutual

theorem insert_spec : ∀ (plan : Owned) (maps : ReplaceMaps), plan.addresses.Nodup →
    (∀ k ∈ plan.addresses, Ready maps.forward forward k ∧ Ready maps.backward backward k) →
    ∃ maps', insertCreateBFOperator maps plan = some (placed forward backward plan, maps') ∧
      ∀ k ∉ plan.addresses, maps'.forward k = maps.forward k ∧ maps'.backward k = maps.backward k
  | .node a t cs, maps, hnodup, hready => by
    simp only [addresses,operators,map_cons,nodup_cons,mem_cons] at hnodup hready ⊢
    obtain ⟨below,hbelow,hkeep⟩ := insertChildren_spec cs maps hnodup.2
      fun k hk => hready k (.inr hk)
    obtain ⟨hf,hb⟩ := hready a (.inl rfl)
    obtain ⟨hf',hb'⟩ := hkeep a hnodup.1
    obtain ⟨f',hwrap,hother⟩ := wrap_spec (hf.congr hf') (.node a t (placedAll forward backward cs))
    obtain ⟨b',hwrap',hother'⟩ := wrap_spec (hb.congr hb')
      (stack (forward a) (.node a t (placedAll forward backward cs)))
    refine ⟨⟨f',b'⟩,by simp [insertCreateBFOperator,hbelow,hwrap,hwrap',placed],?_⟩
    intro k hk
    obtain ⟨hka,hkcs⟩ := not_or.mp hk
    obtain ⟨hf,hb⟩ := hkeep k hkcs
    exact ⟨(hother k hka).trans hf,(hother' k hka).trans hb⟩

theorem insertChildren_spec : ∀ (cs : List Owned) (maps : ReplaceMaps),
    ((operatorsAll cs).map Prod.fst).Nodup →
    (∀ k ∈ (operatorsAll cs).map Prod.fst,
      Ready maps.forward forward k ∧ Ready maps.backward backward k) →
    ∃ maps', insertChildren maps cs = some (placedAll forward backward cs, maps') ∧
      ∀ k ∉ (operatorsAll cs).map Prod.fst,
        maps'.forward k = maps.forward k ∧ maps'.backward k = maps.backward k
  | [], maps, _, _ => ⟨maps,rfl,fun _ _ => ⟨rfl,rfl⟩⟩
  | c :: cs, maps, hnodup, hready => by
    rw [operatorsAll,map_append] at hnodup hready ⊢
    obtain ⟨hc,hcs,hdisjoint⟩ := nodup_append.mp hnodup
    obtain ⟨m₁,h₁,hkeep₁⟩ := insert_spec c maps hc fun k hk =>
      hready k (mem_append_left _ hk)
    obtain ⟨m₂,h₂,hkeep₂⟩ := insertChildren_spec cs m₁ hcs fun k hk => by
      obtain ⟨hf,hb⟩ := hready k (mem_append_right _ hk)
      obtain ⟨hf',hb'⟩ := hkeep₁ k fun hk' => hdisjoint k hk' k hk rfl
      exact ⟨hf.congr hf',hb.congr hb'⟩
    refine ⟨m₂,by simp [insertChildren,h₁,h₂,placedAll],fun k hk => ?_⟩
    rw [mem_append,not_or] at hk
    obtain ⟨hf,hb⟩ := hkeep₂ k hk.2
    obtain ⟨hf',hb'⟩ := hkeep₁ k hk.1
    exact ⟨hf.trans hf',hb.trans hb'⟩

end

@[simp]
theorem operators_stack (chain : List Link) (plan : Owned) :
    (stack chain plan).operators = chain ++ plan.operators := by
  induction chain with
  | nil => rfl
  | cons link chain ih => simpa [stack,operators,operatorsAll] using ih

mutual

theorem operators_placed : ∀ plan : Owned, (placed forward backward plan).operators.Perm
    (plan.operators ++ plan.addresses.flatMap fun k => backward k ++ forward k)
  | .node a t cs => by
    have ih := operators_placedAll cs
    rw [placed,operators_stack,operators_stack,operators,operators,addresses,operators,
      map_cons,flatMap_cons,← append_assoc]
    refine (perm_append_comm).trans ?_
    rw [cons_append,cons_append]
    refine List.Perm.cons _ ((ih.append_right _).trans ?_)
    rw [append_assoc]
    exact (perm_append_comm).append_left _

theorem operators_placedAll : ∀ cs : List Owned, (operatorsAll (placedAll forward backward cs)).Perm
    (operatorsAll cs ++ ((operatorsAll cs).map Prod.fst).flatMap fun k => backward k ++ forward k)
  | [] => by simp [placedAll,operatorsAll]
  | c :: cs => by
    have h := (operators_placed c).append (operators_placedAll cs)
    rw [placedAll,operatorsAll,operatorsAll,map_append,flatMap_append]
    refine h.trans ?_
    rw [append_assoc,append_assoc,addresses]
    refine List.Perm.append_left _ ?_
    rw [← append_assoc,← append_assoc]
    exact (perm_append_comm).append_right _

end

theorem erase_stack (hchain : ∀ link ∈ chain, link.2.isTransfer) (plan : Owned) :
    (stack chain plan).erase = plan.erase := by
  induction chain with
  | nil => rfl
  | cons link chain ih =>
    have hlink := hchain link mem_cons_self
    have hrest := ih fun link h => hchain link (mem_cons_of_mem _ h)
    simpa [stack,erase,eraseAll,hlink] using hrest

mutual

theorem erase_placed (hf : ∀ k, ∀ link ∈ forward k, link.2.isTransfer)
    (hb : ∀ k, ∀ link ∈ backward k, link.2.isTransfer) :
    ∀ plan : Owned, (placed forward backward plan).erase = plan.erase
  | .node a t cs => by
    rw [placed,erase_stack (hb a),erase_stack (hf a),erase,erase,eraseAll_placedAll hf hb cs]

theorem eraseAll_placedAll (hf : ∀ k, ∀ link ∈ forward k, link.2.isTransfer)
    (hb : ∀ k, ∀ link ∈ backward k, link.2.isTransfer) :
    ∀ cs : List Owned, eraseAll (placedAll forward backward cs) = eraseAll cs
  | [] => rfl
  | c :: cs => by rw [placedAll,eraseAll,eraseAll,erase_placed hf hb c,eraseAll_placedAll hf hb cs]

end

end

mutual

theorem erase_eq_self : ∀ plan : Owned, (∀ link ∈ plan.operators, link.2.isTransfer = false) →
    plan.erase = [plan]
  | .node a t cs, h => by
    rw [operators,forall_mem_cons] at h
    simp [erase,h.1,eraseAll_eq_self cs h.2]

theorem eraseAll_eq_self : ∀ cs : List Owned,
    (∀ link ∈ operatorsAll cs, link.2.isTransfer = false) → eraseAll cs = cs
  | [], _ => rfl
  | c :: cs, h => by
    rw [operatorsAll,forall_mem_append] at h
    simp [eraseAll,erase_eq_self c h.1,eraseAll_eq_self cs h.2]

end

/-- The keys of a map are nodes of the plan and its values chains of transfer operators. -/
def Fits (map : ReplaceMap) (plan : Owned) : Prop :=
  ∀ key value, map key = some value →
    key ∈ plan.addresses ∧ ∃ top, value = some top ∧ top.isChain = true

theorem Fits.ready (h : Fits map plan) (key : Nat) : Ready map (chainOf map) key := by
  cases hkey : map key with
  | none => exact .inl ⟨hkey,by simp [chainOf,hkey]⟩
  | some value =>
    obtain ⟨-,top,rfl,hchain⟩ := h key value hkey
    exact .inr ⟨top,hkey,hchain,by simp [chainOf,hkey]⟩

theorem Fits.transfer (h : Fits map plan) (key : Nat) :
    ∀ link ∈ chainOf map key, link.2.isTransfer := by
  rcases h.ready key with ⟨-,hempty⟩ | ⟨top,-,hchain,hops⟩
  · simp [hempty]
  · rw [hops]
    exact (attach_chain top top hchain).2

/-- Insertion succeeds and puts the chains of each node above it. The operators of the result are
those of the plan and of both maps, and erasing the transfer operators takes the insertion back. -/
theorem insertCreateBFOperator_only_adds (plan : Owned) (maps : ReplaceMaps)
    (hplan : plan.addresses.Nodup) (hforward : Fits maps.forward plan)
    (hbackward : Fits maps.backward plan) : ∃ result maps',
      insertCreateBFOperator maps plan = some (result, maps') ∧
      result = placed (chainOf maps.forward) (chainOf maps.backward) plan ∧
      result.operators.Perm (plan.operators ++ plan.addresses.flatMap fun key =>
        chainOf maps.backward key ++ chainOf maps.forward key) ∧
      result.erase = plan.erase ∧
      ((∀ link ∈ plan.operators, link.2.isTransfer = false) → result.erase = [plan]) := by
  obtain ⟨maps',hrun,-⟩ := insert_spec (chainOf maps.forward) (chainOf maps.backward) plan maps
    hplan fun k _ => ⟨hforward.ready k,hbackward.ready k⟩
  have herase := erase_placed (chainOf maps.forward) (chainOf maps.backward) hforward.transfer
    hbackward.transfer plan
  refine ⟨_,maps',hrun,rfl,operators_placed _ _ plan,herase,fun h => ?_⟩
  rw [herase,erase_eq_self plan h]

/-- A chain that uses a filter and then creates one. -/
def createAboveUse (create use : Nat) : Owned :=
  node create (.unary (.createBF ⟨true, 0⟩ []))
    [node use (.unary (.useBF ⟨0, [], []⟩ ⟨true, 1⟩)) []]

/-- A limit over a scan that creates a filter forward, and creates and uses one backward. -/
theorem insertCreateBFOperator_scan :
    let plan := node 0 (.unary (.limit none 0)) [node 1 (.leaf (.get 0 1)) []]
    let forward := node 2 (.unary (.createBF ⟨false, 0⟩ [])) []
    let maps : ReplaceMaps :=
      ⟨fun k => if k = 1 then some (some forward) else none,
        fun k => if k = 1 then some (some (createAboveUse 3 4)) else none⟩
    ∃ result maps', insertCreateBFOperator maps plan = some (result, maps') ∧
      result.addresses = [0,3,4,2,1] ∧ result.erase = [plan] := by
  intro plan forward maps
  have hf : Fits maps.forward plan := by
    intro key value h
    obtain ⟨rfl,rfl⟩ : key = 1 ∧ value = some forward := by
      simpa [maps,eq_comm] using h
    exact ⟨by decide,_,rfl,rfl⟩
  have hb : Fits maps.backward plan := by
    intro key value h
    obtain ⟨rfl,rfl⟩ : key = 1 ∧ value = some (createAboveUse 3 4) := by
      simpa [maps,eq_comm] using h
    exact ⟨by decide,_,rfl,rfl⟩
  obtain ⟨result,maps',hrun,hresult,-,-,herase⟩ :=
    insertCreateBFOperator_only_adds plan maps (by decide) hf hb
  refine ⟨result,maps',hrun,?_,herase (by decide)⟩
  rw [hresult]
  rfl

/-- The objects of a plan. -/
def ofPlan (address : LogicalOperator → Nat) : LogicalOperator → Owned
  | .leaf op => .node (address (.leaf op)) (.leaf op) []
  | .unary op c => .node (address (.unary op c)) (.unary op) [ofPlan address c]
  | .binary op l r =>
    .node (address (.binary op l r)) (.binary op) [ofPlan address l, ofPlan address r]

/-- The plan without the addresses, if all operators own as many others as they have children. -/
def plan? : Owned → Option LogicalOperator
  | .node _ (.leaf op) [] => some (.leaf op)
  | .node _ (.unary op) [c] => c.plan?.map (.unary op)
  | .node _ (.binary op) [l, r] => do return .binary op (← l.plan?) (← r.plan?)
  | _ => none

/-- The entry of an operator holds objects for its chain. -/
def Stores (map : ReplaceMap) (key : Nat) (chain : Option Chain) : Prop :=
  map key = none ∧ chain.getD [] = [] ∨
    ∃ top, map key = some (some top) ∧ top.isChain = true ∧
      top.operators.map Prod.snd = (chain.getD []).map .unary

theorem Stores.ready (h : Stores map key chain) : Ready map (chainOf map) key ∧
    (chainOf map key).map Prod.snd = (chain.getD []).map .unary := by
  unfold Ready chainOf
  rcases h with ⟨hnone,hempty⟩ | ⟨top,hsome,hchain,hops⟩
  · simp [hnone,hempty]
  · simp [hsome,hchain,hops]

theorem plan?_stack {links : List Link} {chain : Chain} {plan : Owned} {p : LogicalOperator}
    (hlinks : links.map Prod.snd = chain.map .unary) (hplan : plan.plan? = some p) :
    (stack links plan).plan? = some (chain.foldr .unary p) := by
  induction chain generalizing links with
  | nil =>
    obtain rfl : links = [] := by simpa using hlinks
    exact hplan
  | cons op chain ih =>
    obtain ⟨⟨a,_⟩,links,rfl,rfl,hrest⟩ := map_eq_cons_iff.mp hlinks
    have hbelow := ih hrest
    simp only [stack,foldr_cons,plan?] at hbelow ⊢
    rw [hbelow]
    rfl

section

variable {address : LogicalOperator → Nat} {s : PredicateTransferOptimizer}
  {forward backward : Nat → List Link} {p : LogicalOperator}

/-- The chains of the objects of a plan are those of its operators. -/
def Agree (address : LogicalOperator → Nat) (chains : LogicalOperator → Option Chain)
    (links : Nat → List Link) (p : LogicalOperator) : Prop :=
  ∀ q ∈ p.subplans, (links (address q)).map Prod.snd = ((chains q).getD []).map .unary

theorem plan?_placed (hf : Agree address s.replaceMapForward forward p)
    (hb : Agree address s.replaceMapBackward backward p) :
    (placed forward backward (ofPlan address p)).plan? = some (s.insertCreateBFOperator p) := by
  have hself := p.self_mem_subplans
  induction p with
  | leaf op =>
    exact plan?_stack (hb _ hself) (plan?_stack (hf _ hself) rfl)
  | unary op c ih =>
    have hc := ih (fun q hq => hf q (mem_cons_of_mem _ hq))
      (fun q hq => hb q (mem_cons_of_mem _ hq)) c.self_mem_subplans
    refine plan?_stack (hb _ hself) (plan?_stack (hf _ hself) ?_)
    simp [placedAll,plan?,hc]
  | binary op l r ihl ihr =>
    have hl := ihl (fun q hq => hf q (mem_cons_of_mem _ (mem_append_left _ hq)))
      (fun q hq => hb q (mem_cons_of_mem _ (mem_append_left _ hq))) l.self_mem_subplans
    have hr := ihr (fun q hq => hf q (mem_cons_of_mem _ (mem_append_right _ hq)))
      (fun q hq => hb q (mem_cons_of_mem _ (mem_append_right _ hq))) r.self_mem_subplans
    refine plan?_stack (hb _ hself) (plan?_stack (hf _ hself) ?_)
    simp [placedAll,plan?,hl,hr]

theorem addresses_ofPlan (address : LogicalOperator → Nat) (p : LogicalOperator) :
    (ofPlan address p).addresses = p.subplans.map address := by
  unfold addresses
  induction p with
  | leaf op => rfl
  | unary op c ih => simp [ofPlan,operators,operatorsAll,LogicalOperator.subplans,ih]
  | binary op l r ihl ihr =>
    simp [ofPlan,operators,operatorsAll,LogicalOperator.subplans,ihl,ihr]

end

/-- On the objects of a plan, with maps that hold the stored chains, the insertion succeeds and
leaves the objects of the plan that the insertion without addresses gives. -/
theorem insertCreateBFOperator_refines (s : PredicateTransferOptimizer) (p : LogicalOperator)
    (address : LogicalOperator → Nat) (maps : ReplaceMaps) (hplan : (p.subplans.map address).Nodup)
    (hforward : ∀ q ∈ p.subplans, Stores maps.forward (address q) (s.replaceMapForward q))
    (hbackward : ∀ q ∈ p.subplans, Stores maps.backward (address q) (s.replaceMapBackward q)) :
    ∃ result maps', insertCreateBFOperator maps (ofPlan address p) = some (result, maps') ∧
      result.plan? = some (s.insertCreateBFOperator p) := by
  rw [← addresses_ofPlan] at hplan
  obtain ⟨maps',hrun,-⟩ := insert_spec (chainOf maps.forward) (chainOf maps.backward) _ maps hplan
    (by
      intro k hk
      rw [addresses_ofPlan] at hk
      obtain ⟨q,hq,rfl⟩ := mem_map.mp hk
      exact ⟨(hforward q hq).ready.1,(hbackward q hq).ready.1⟩)
  exact ⟨_,maps',hrun,plan?_placed (fun q hq => (hforward q hq).ready.2)
    fun q hq => (hbackward q hq).ready.2⟩

/-- The same scan, its chains stored by the optimizer. -/
def storedScan : PredicateTransferOptimizer :=
  ({ dagManager := { nodesManager := {} } } : PredicateTransferOptimizer).storeChain true
    (.leaf (.get 0 1)) [.createBF ⟨true, 0⟩ [], .useBF ⟨0, [], []⟩ ⟨true, 1⟩]

theorem insertCreateBFOperator_refines_scan :
    let maps : ReplaceMaps :=
      ⟨fun _ => none, fun k => if k = 1 then some (some (createAboveUse 3 4)) else none⟩
    ∃ result maps', insertCreateBFOperator maps
        (ofPlan (fun q => q.subplans.length) (.unary (.limit none 0) (.leaf (.get 0 1)))) =
          some (result, maps') ∧
      result.plan? = some (.unary (.limit none 0) (.unary (.createBF ⟨true, 0⟩ [])
        (.unary (.useBF ⟨0, [], []⟩ ⟨true, 1⟩) (.leaf (.get 0 1))))) := by
  intro maps
  refine insertCreateBFOperator_refines storedScan (.unary (.limit none 0) (.leaf (.get 0 1))) _
    maps (by decide) ?_ ?_
  · exact fun q _ => .inl ⟨rfl,rfl⟩
  · intro q hq
    obtain rfl | rfl : q = .unary (.limit none 0) (.leaf (.get 0 1)) ∨ q = .leaf (.get 0 1) := by
      simpa [LogicalOperator.subplans] using hq
    · exact .inl ⟨rfl,rfl⟩
    · exact .inr ⟨_,rfl,rfl,rfl⟩

end Owned

end PredTrans.Transfer.Splicing
