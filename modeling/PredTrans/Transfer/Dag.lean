import PredTrans.Transfer.Nodes

namespace PredTrans.Transfer
open Plan

/-- What the source leaves open: the statistics, the order in which an unordered
container is walked, and how `std::sort` breaks ties. -/
structure Context where
  estimateCardinality : LogicalOperator → Nat
  iterate : List Nat → List Nat
  iterate_perm : ∀ s, (iterate s).Perm s
  sort : List LogicalOperator → List LogicalOperator
  sort_perm : ∀ ops, (sort ops).Perm ops
  sort_sorted : ∀ ops, (sort ops).Pairwise
    (fun a b => estimateCardinality a ≤ estimateCardinality b)

instance : Inhabited Context where
  default :=
    { estimateCardinality := fun _ => 1
      iterate := id
      iterate_perm := fun _ => .refl _
      sort := id
      sort_perm := fun _ => .refl _
      sort_sorted := fun _ => List.pairwise_of_forall_mem_list (fun _ _ _ _ => Nat.le_refl 1) }

structure DAGEdge where
  dest : Nat
  filters : List Expression := []
  bloomFilters : List BloomFilter := []

structure DAGNode where
  id : Nat
  size : Nat
  root : Bool
  priority : Int := -1
  forwardIn : List DAGEdge := []
  backwardIn : List DAGEdge := []
  forwardOut : List DAGEdge := []
  backwardOut : List DAGEdge := []

def DAGNode.inEdges (n : DAGNode) (reverse : Bool) : List DAGEdge :=
  if reverse then n.backwardIn else n.forwardIn

def DAGNode.outEdges (n : DAGNode) (reverse : Bool) : List DAGEdge :=
  if reverse then n.backwardOut else n.forwardOut

/-- `Push` on the edge with this destination, which is made if it is missing. -/
def pushEdge (dest : Nat) (push : DAGEdge → DAGEdge) : List DAGEdge → List DAGEdge
  | [] => [push { dest := dest }]
  | e :: es => if e.dest = dest then push e :: es else e :: pushEdge dest push es

def DAGEdge.pushFilter (filter : Expression) (e : DAGEdge) : DAGEdge :=
  { e with filters := e.filters ++ [filter] }

def DAGEdge.pushBloomFilter (bf : BloomFilter) (e : DAGEdge) : DAGEdge :=
  { e with bloomFilters := e.bloomFilters ++ [bf] }

/-- Both overloads of `AddIn`; they differ in what they push. -/
def DAGNode.addIn (n : DAGNode) (source : Nat) (push : DAGEdge → DAGEdge) (forward : Bool) :
    DAGNode :=
  if forward then { n with forwardIn := pushEdge source push n.forwardIn }
  else { n with backwardIn := pushEdge source push n.backwardIn }

def DAGNode.addOut (n : DAGNode) (target : Nat) (push : DAGEdge → DAGEdge) (forward : Bool) :
    DAGNode :=
  if forward then { n with forwardOut := pushEdge target push n.forwardOut }
  else { n with backwardOut := pushEdge target push n.backwardOut }

/-- One equality between two nodes. A protected side must not lose rows. -/
structure DAGEdgeInfo where
  filter : Expression
  large : LogicalOperator
  small : LogicalOperator
  largeProtect : Bool := false
  smallProtect : Bool := false

/-- `filtersAndBindings` holds the pairs of a key and an element of the vector
stored under it, in the order of insertion. -/
structure DAGManager where
  nodesManager : NodesManager
  filtersAndBindings : List ((Nat × Nat) × DAGEdgeInfo) := []
  selectedFiltersAndBindings : List DAGEdgeInfo := []
  nodes : Nat → Option DAGNode := fun _ => none
  execOrder : List LogicalOperator := []

section ExtractEdges

/-- Where a node stands among the sorted nodes; 0 when it is missing. -/
def nodeInOrder (sorted : List LogicalOperator) (node : LogicalOperator) : Nat :=
  (sorted.findIdx? (· = node)).getD 0

/-- The `DAGEdgeInfo` of one comparison, by join type. -/
def makeEdgeInfo (sorted : List LogicalOperator) (type : JoinType) (comparison : Expression)
    (leftNode rightNode : LogicalOperator) : Option DAGEdgeInfo :=
  let leftIsLarge := nodeInOrder sorted leftNode > nodeInOrder sorted rightNode
  let info : DAGEdgeInfo :=
    if leftIsLarge then { filter := comparison, large := leftNode, small := rightNode }
    else { filter := comparison, large := rightNode, small := leftNode }
  match type with
  | .inner | .semi | .rightSemi | .mark => some info
  | .left => some (if leftIsLarge then { info with largeProtect := true }
      else { info with smallProtect := true })
  | .right => some (if leftIsLarge then { info with smallProtect := true }
      else { info with largeProtect := true })
  | _ => none

/-- The edge a comparison gives, with the tables it connects. A side that is no
column reference has an invalid binding, which no node is registered under. -/
def NodesManager.edgeOf (m : NodesManager) (sorted : List LogicalOperator) (type : JoinType)
    (c : JoinCondition) : Option (Nat × Nat × DAGEdgeInfo) := do
  let leftBinding ← columnRef? c.left
  let rightBinding ← columnRef? c.right
  let leftTable := (m.findRename leftBinding).tableIndex
  let rightTable := (m.findRename rightBinding).tableIndex
  let leftNode ← m.getNode leftTable
  let rightNode ← m.getNode rightTable
  let info ← makeEdgeInfo sorted type (.boundComparison c.comparison c.left c.right)
    leftNode rightNode
  return (leftTable, rightTable, info)

def joinConditions : LogicalOperator → JoinType × List JoinCondition
  | .binary (.comparisonJoin type _ cs) _ _ | .binary (.delimJoin type _ cs) _ _ => (type, cs)
  | _ => (.inner, [])

/-- All the comparisons of the recorded joins, in the order they are visited. -/
def recordedComparisons (filterOperators : List LogicalOperator) :
    List (JoinType × JoinCondition) :=
  filterOperators.flatMap (fun op =>
    ((joinConditions op).2.filter (fun c => c.comparison = .equal)).map
      (fun c => ((joinConditions op).1, c)))

/-- The `filter_set` and the edges stored so far. -/
abbrev EdgeState := List JoinCondition × List ((Nat × Nat) × DAGEdgeInfo)

/-- One comparison in the loop of `ExtractEdges`. The set drops a comparison that
was met before, whichever join it came from. -/
def NodesManager.addComparison (m : NodesManager) (sorted : List LogicalOperator)
    (state : EdgeState) (comparison : JoinType × JoinCondition) : EdgeState :=
  if comparison.2 ∈ state.1 then state
  else (state.1 ++ [comparison.2],
    match m.edgeOf sorted comparison.1 comparison.2 with
    | some (leftTable, rightTable, info) =>
      state.2 ++ [((rightTable, leftTable), info), ((leftTable, rightTable), info)]
    | none => state.2)

def DAGManager.extractEdges (d : DAGManager) (sorted : List LogicalOperator) : DAGManager :=
  { d with filtersAndBindings :=
      ((recordedComparisons d.nodesManager.filterOperators).foldl
        (d.nodesManager.addComparison sorted) ([], [])).2 }

end ExtractEdges

section LargestRoot

/-- The vector stored under a key; empty when the key is missing. -/
def DAGManager.filtersAt (d : DAGManager) (key : Nat × Nat) : List DAGEdgeInfo :=
  (d.filtersAndBindings.filter (fun e => e.1 = key)).map Prod.snd

structure EdgeChoice where
  maxWeight : Nat := 0
  maxCard : Nat := 0
  result : Option (Nat × Nat) := none

def EdgeChoice.consider (best : EdgeChoice) (weight card : Nat) (key : Nat × Nat) : EdgeChoice :=
  if weight > best.maxWeight then ⟨weight, card, some key⟩
  else if weight = best.maxWeight ∧ card > best.maxCard then
    { best with maxCard := card, result := some key }
  else best

/-- `FindEdge`: the heaviest edge that leaves the constructed set. -/
def DAGManager.findEdge (ctx : Context) (d : DAGManager) (constructed unconstructed : List Nat) :
    Option (Nat × Nat) :=
  let candidates := (ctx.iterate unconstructed).flatMap
    (fun i => (ctx.iterate constructed).map (fun j => (j, i)))
  (candidates.foldl (fun best key =>
    if (d.filtersAt key).isEmpty then best
    else best.consider (d.filtersAt key).length
      ((d.nodesManager.getNode key.2).elim 0 ctx.estimateCardinality) key)
    ({} : EdgeChoice)).result

def NodesManager.eraseNode (m : NodesManager) (key : Nat) : NodesManager :=
  { m with nodes := m.nodes.filter (fun n => n.1 ≠ key) }

/-- `node->priority = ...`, and the node leaves the pool for `ExecOrder`. -/
def DAGManager.construct (d : DAGManager) (id : Nat) (priority : Int) : DAGManager :=
  { d with
    nodes := Function.update d.nodes id
      ((d.nodes id).map (fun n => { n with priority := priority }))
    execOrder := d.execOrder ++ (d.nodesManager.getNode id).toList
    nodesManager := d.nodesManager.eraseNode id }

/-- The loop of `LargestRoot`. Each round takes one id out of `unconstructed`,
whose length is the fuel. -/
def DAGManager.growTree (ctx : Context) :
    Nat → DAGManager → List Nat → List Nat → Int → DAGManager
  | 0, d, _, _, _ => d
  | fuel + 1, d, constructed, unconstructed, priorFlag =>
    match d.findEdge ctx constructed unconstructed with
    | none => d
    | some edge =>
      growTree ctx fuel
        ({ d with selectedFiltersAndBindings :=
            d.selectedFiltersAndBindings ++ d.filtersAt edge }.construct edge.2 priorFlag)
        (constructed ++ [edge.2]) (unconstructed.erase edge.2) (priorFlag - 1)

/-- The vertices `LargestRoot` makes, one per node still in the pool. -/
def DAGManager.createVertices (ctx : Context) (d : DAGManager) (root : LogicalOperator) :
    DAGManager :=
  { d with nodes := fun id => match d.nodesManager.getNode id with
      | some op => some
        { id := id, size := ctx.estimateCardinality op, root := decide (op = root) }
      | none => d.nodes id }

/-- `LargestRoot`: grows one tree from the last node in sorted order. -/
def DAGManager.largestRoot (ctx : Context) (d : DAGManager) : DAGManager :=
  match (ctx.sort (d.nodesManager.nodes.map Prod.snd)).getLast? with
  | none => d
  | some root =>
    match d.nodesManager.nodes.find? (fun n => n.2 = root) with
    | none => d
    | some (rootId, _) =>
      let priorFlag : Int := d.nodesManager.nodes.length - 1
      let unconstructed := (d.nodesManager.nodes.map Prod.fst).filter (· ≠ rootId)
      let d := (d.createVertices ctx root).construct rootId priorFlag
      d.growTree ctx unconstructed.length [rootId] unconstructed (priorFlag - 1)

/-- The loop of `CreateDAG`: one tree after another, until the pool is empty. -/
def DAGManager.growForest (ctx : Context) : Nat → DAGManager → DAGManager
  | 0, d => d
  | fuel + 1, d =>
    if d.nodesManager.nodes.isEmpty then d else growForest ctx fuel (d.largestRoot ctx)

end LargestRoot

section CreateDAG

def modifyNode (nodes : Nat → Option DAGNode) (id : Nat) (f : DAGNode → DAGNode) :
    Nat → Option DAGNode :=
  Function.update nodes id ((nodes id).map f)

/-- A transfer from `source` to `target` in one direction, entered on both sides. -/
def addTransfer (nodes : Nat → Option DAGNode) (source target : Nat) (filter : Expression)
    (forward : Bool) : Nat → Option DAGNode :=
  modifyNode
    (modifyNode nodes source (fun n => n.addOut target (DAGEdge.pushFilter filter) forward))
    target (fun n => n.addIn source (DAGEdge.pushFilter filter) forward)

/-- The orientation of one selected edge: an unprotected side receives, forward
when it has the higher priority. -/
def orientEdge (nodes : Nat → Option DAGNode) (info : DAGEdgeInfo) : Nat → Option DAGNode :=
  match getNodeId info.small, getNodeId info.large with
  | some small, some large =>
    match nodes small, nodes large with
    | some smallNode, some largeNode =>
      if smallNode.priority > largeNode.priority then
        if !info.largeProtect && !info.smallProtect then
          addTransfer (addTransfer nodes large small info.filter true)
            small large info.filter false
        else if info.largeProtect && !info.smallProtect then
          addTransfer nodes large small info.filter true
        else if !info.largeProtect && info.smallProtect then
          addTransfer nodes small large info.filter false
        else nodes
      else
        if !info.largeProtect && !info.smallProtect then
          addTransfer (addTransfer nodes small large info.filter true)
            large small info.filter false
        else if info.largeProtect && !info.smallProtect then
          addTransfer nodes large small info.filter false
        else if !info.largeProtect && info.smallProtect then
          addTransfer nodes small large info.filter true
        else nodes
    | _, _ => nodes
  | _, _ => nodes

/-- `CreateDAG`. `RecoverNodes` restores the pool the trees were grown from. -/
def DAGManager.createDAG (ctx : Context) (d : DAGManager) : DAGManager :=
  let grown := d.growForest ctx d.nodesManager.nodes.length
  { grown with
    nodesManager := d.nodesManager
    nodes := grown.selectedFiltersAndBindings.foldl orientEdge grown.nodes }

/-- `Build`: the manager and whether there is anything to transfer. -/
def build (ctx : Context) (plan : LogicalOperator) : DAGManager × Bool :=
  let m := extractNodes {} plan
  let d : DAGManager := { nodesManager := m }
  if m.nodes.length < 2 then (d, false)
  else
    let d := d.extractEdges (ctx.sort (m.nodes.map Prod.snd))
    if d.filtersAndBindings.isEmpty then (d, false) else (d.createDAG ctx, true)

end CreateDAG

end PredTrans.Transfer
