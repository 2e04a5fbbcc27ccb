import PredTrans.Transfer.Dag

namespace PredTrans.Transfer
open Plan

/-- How a transfer pass can fail: an `InternalException`, or a pointer that is
missing or of the wrong type. -/
inductive TransferError where
  | noColumnBindingFound
  | missingNode
  | missingCreateBF
deriving DecidableEq, Repr

/-- An operator of a replace map with the operators below it, topmost first. -/
abbrev Chain := List UnaryOp

/-- `PredicateTransferOptimizer`. `used` holds the filters with the `isUsed`
flag, `nextFilter` is the next fresh filter object. -/
structure PredicateTransferOptimizer where
  dagManager : DAGManager
  used : List Nat := []
  nextFilter : Nat := 0
  replaceMapForward : LogicalOperator → Option Chain := fun _ => none
  replaceMapBackward : LogicalOperator → Option Chain := fun _ => none

namespace PredicateTransferOptimizer

def replaceMap (s : PredicateTransferOptimizer) (reverse : Bool) :
    LogicalOperator → Option Chain :=
  if reverse then s.replaceMapBackward else s.replaceMapForward

def setReplaceMap (s : PredicateTransferOptimizer) (reverse : Bool) (node : LogicalOperator)
    (chain : Chain) : PredicateTransferOptimizer :=
  if reverse then
    { s with replaceMapBackward := Function.update s.replaceMapBackward node (some chain) }
  else { s with replaceMapForward := Function.update s.replaceMapForward node (some chain) }

/-- `GetColumnBindingExpression`: the column references, left to right. -/
def getColumnBindingExpression : Expression → List ColumnBinding
  | .boundColumnRef b => [b]
  | .boundConstant _ => []
  | .boundComparison _ l r => getColumnBindingExpression l ++ getColumnBindingExpression r
  | .operatorNot e => getColumnBindingExpression e
  | .conjunctionAnd l r => getColumnBindingExpression l ++ getColumnBindingExpression r
  | .conjunctionOr l r => getColumnBindingExpression l ++ getColumnBindingExpression r
  | .other _ => []

/-- One filter in the loop of `GetAllBFUsed`: taken unless its flag is set. -/
def takeUnused (used : List Nat) (result : List (BloomFilter × Nat)) (entry : BloomFilter × Nat) :
    List (BloomFilter × Nat) :=
  if entry.1.id ∈ used ∨ entry.1.id ∈ result.map (fun r => r.1.id) then result
  else result ++ [entry]

/-- `GetAllBFUsed`: the filters waiting on the incoming edges that no operator
has used yet, each with the node its edge names. -/
def getAllBFUsed (used : List Nat) (edges : List DAGEdge) : List (BloomFilter × Nat) :=
  (edges.flatMap (fun e => e.bloomFilters.map (fun bf => (bf, e.dest)))).foldl
    (takeUnused used) []

/-- The columns one comparison adds to a filter built at `cur`: applied, built. -/
def filterColumns (m : NodesManager) (cur : Nat) (filter : Expression) :
    Option (ColumnBinding × ColumnBinding) :=
  match getColumnBindingExpression filter with
  | first :: second :: _ =>
    if (m.findRename first).tableIndex = cur then some (m.findRename second, m.findRename first)
    else if (m.findRename second).tableIndex = cur then
      some (m.findRename first, m.findRename second)
    else none
  | _ => none

/-- The filter of one outgoing edge. -/
def edgeFilter (m : NodesManager) (cur id : Nat) (edge : DAGEdge) : BloomFilter :=
  let columns := edge.filters.filterMap (filterColumns m cur)
  { id := id, columnBindingsApplied := columns.map Prod.fst,
    columnBindingsBuilt := columns.map Prod.snd }

def makeFilter (m : NodesManager) (cur id : Nat) (edge : DAGEdge) :
    Except TransferError BloomFilter :=
  if (edgeFilter m cur id edge).columnBindingsBuilt.isEmpty then .error .noColumnBindingFound
  else .ok (edgeFilter m cur id edge)

/-- `GetAllBFCreate`: one fresh filter per outgoing edge. -/
def getAllBFCreate (m : NodesManager) (cur : Nat) :
    Nat → List DAGEdge → Except TransferError (List BloomFilter)
  | _, [] => .ok []
  | id, edge :: edges => do
    let bf ← makeFilter m cur id edge
    let bfs ← getAllBFCreate m cur (id + 1) edges
    return bf :: bfs

/-- The `LogicalCreateBF` a node's entry of the replace map must be. -/
def relatedCreateBF (s : PredicateTransferOptimizer) (reverse : Bool) (node : Nat) :
    Except TransferError CreateBFRef :=
  match s.dagManager.nodesManager.getNode node with
  | none => .error .missingCreateBF
  | some base =>
    match s.replaceMap reverse base with
    | some (.createBF address _ :: _) => .ok address
    | _ => .error .missingCreateBF

/-- `BuildUseOperator`: one `LogicalUseBF` per filter, the first one on top. -/
def buildUseOperator (s : PredicateTransferOptimizer) (reverse : Bool) :
    List (BloomFilter × Nat) → Except TransferError Chain
  | [] => .ok []
  | (bf, node) :: rest => do
    let uses ← s.buildUseOperator reverse rest
    let address ← s.relatedCreateBF reverse node
    return .useBF bf address :: uses

/-- Without a filter to use or to create the map keeps no entry. -/
def storeChain (s : PredicateTransferOptimizer) (reverse : Bool) (node : LogicalOperator)
    (chain : Chain) : PredicateTransferOptimizer :=
  if chain.isEmpty then s else s.setReplaceMap reverse node chain

/-- `CreateBloomFilter` for one node: what it stores, and the filters to put on edges. -/
def createBloomFilter (s : PredicateTransferOptimizer) (node : LogicalOperator) (reverse : Bool) :
    Except TransferError (PredicateTransferOptimizer × List (Nat × BloomFilter)) :=
  match getNodeId node with
  | none => .ok (s, [])
  | some cur =>
    match s.dagManager.nodes cur with
    | none => .ok (s, [])
    | some dagNode => do
      let toUse := getAllBFUsed s.used (dagNode.inEdges reverse)
      let toCreate ← getAllBFCreate s.dagManager.nodesManager cur s.nextFilter
        (dagNode.outEdges reverse)
      let uses ← s.buildUseOperator reverse toUse
      let creates := if toCreate.isEmpty then []
        else [UnaryOp.createBF ⟨reverse, cur⟩ toCreate]
      let s : PredicateTransferOptimizer := { s with
        used := s.used ++ toUse.map (fun u => u.1.id)
        nextFilter := s.nextFilter + toCreate.length }
      return (s.storeChain reverse node (creates ++ uses), toCreate.map (fun bf => (cur, bf)))

/-- `DAGManager::Add`: the filter waits at the node its first column belongs to. -/
def add (s : PredicateTransferOptimizer) (createTable : Nat) (bf : BloomFilter) (reverse : Bool) :
    Except TransferError PredicateTransferOptimizer :=
  match bf.columnBindingsApplied with
  | [] => .error .missingNode
  | column :: _ =>
    match s.dagManager.nodes column.tableIndex with
    | none => .error .missingNode
    | some n => .ok { s with dagManager := { s.dagManager with
        nodes := Function.update s.dagManager.nodes column.tableIndex
          (some (n.addIn createTable (DAGEdge.pushBloomFilter bf) (!reverse))) } }

/-- One round of a pass over the execution order. -/
def transferNode (reverse : Bool) (s : PredicateTransferOptimizer) (node : LogicalOperator) :
    Except TransferError PredicateTransferOptimizer := do
  let (s, bfs) ← s.createBloomFilter node reverse
  bfs.foldlM (fun s bf => s.add bf.1 bf.2 reverse) s

/-- The forward pass walks the order from its end, the backward pass from its start. -/
def transferPasses (s : PredicateTransferOptimizer) :
    Except TransferError PredicateTransferOptimizer := do
  let order := s.dagManager.execOrder
  let s ← order.reverse.foldlM (transferNode false) s
  order.foldlM (transferNode true) s

/-- The chains stored for an operator go on top of it, the forward one first. -/
def wrap (s : PredicateTransferOptimizer) (key plan : LogicalOperator) : LogicalOperator :=
  let forward := ((s.replaceMapForward key).getD []).foldr LogicalOperator.unary plan
  ((s.replaceMapBackward key).getD []).foldr LogicalOperator.unary forward

/-- `InsertCreateBFOperator_d`. -/
def insertCreateBFOperator (s : PredicateTransferOptimizer) : LogicalOperator → LogicalOperator
  | .leaf op => s.wrap (.leaf op) (.leaf op)
  | .unary op child => s.wrap (.unary op child) (.unary op (s.insertCreateBFOperator child))
  | .binary op l r => s.wrap (.binary op l r)
      (.binary op (s.insertCreateBFOperator l) (s.insertCreateBFOperator r))

/-- `PreOptimize` and `Optimize` with nothing in between. -/
def optimize (ctx : Context) (plan : LogicalOperator) : Except TransferError LogicalOperator := do
  let s ← transferPasses { dagManager := (build ctx plan).1 }
  return s.insertCreateBFOperator plan

end PredicateTransferOptimizer

end PredTrans.Transfer
