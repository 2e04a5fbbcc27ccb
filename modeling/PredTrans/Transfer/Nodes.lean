import PredTrans.Plan.Operator

namespace PredTrans.Transfer
open Plan

/-- `NodesManager`. The pointer values of `nodes` are the operator trees
themselves, which unique table indices keep apart. `filterOperators` and the
global `can_add_mark` travel along in the same traversal. -/
structure NodesManager where
  nodes : List (Nat × LogicalOperator) := []
  renameCols : List (ColumnBinding × ColumnBinding) := []
  filterOperators : List LogicalOperator := []
  canAddMark : Bool := true

/-- The table index of a `LOGICAL_GET`. -/
def scanTable : LogicalOperator → Option Nat
  | .leaf (.get t _) => some t
  | .unary (.tableFunction t _ _) _ => some t
  | _ => none

/-- `GetTableIndexinFilter`, by the filter's child. -/
def getTableIndexInFilter : LogicalOperator → Option Nat
  | .binary (.comparisonJoin _ _ _) l _ => scanTable l
  | .unary (.aggregate g _ _ _ _ _ _) _ => some g
  | child => scanTable child

/-- The id `AddNode` and `GetNodeId` compute; other operators have none. -/
def getNodeId : LogicalOperator → Option Nat
  | .leaf (.delimGet t _) => some t
  | .unary (.projection t _) _ => some t
  | .binary (.setOperation _ t _) _ _ => some t
  | .unary (.filter _ _) child => getTableIndexInFilter child
  | .unary (.aggregate _ a _ _ _ _ _) _ => some a
  | op => scanTable op

def NodesManager.addNode (m : NodesManager) (op : LogicalOperator) : NodesManager :=
  match getNodeId op with
  | some id => if m.nodes.any (fun n => n.1 == id) then m
      else { m with nodes := m.nodes ++ [(id, op)] }
  | none => m

/-- `unordered_map::insert`: an existing key keeps its value. -/
def NodesManager.insertRename (m : NodesManager) (key value : ColumnBinding) : NodesManager :=
  if m.renameCols.any (fun e => e.1 == key) then m
  else { m with renameCols := m.renameCols ++ [(key, value)] }

def NodesManager.lookupRename (m : NodesManager) (col : ColumnBinding) : Option ColumnBinding :=
  (m.renameCols.find? (fun e => e.1 == col)).map Prod.snd

/-- The chase of `FindRename`. Every step uses up an entry of the map, so the
map's size bounds a chase that ends. -/
def NodesManager.chaseRename (m : NodesManager) : Nat → ColumnBinding → ColumnBinding
  | 0, col => col
  | fuel + 1, col =>
    match m.lookupRename col with
    | some next => m.chaseRename fuel next
    | none => col

def NodesManager.findRename (m : NodesManager) (col : ColumnBinding) : ColumnBinding :=
  m.chaseRename m.renameCols.length col

def NodesManager.getNode (m : NodesManager) (table : Nat) : Option LogicalOperator :=
  (m.nodes.find? (fun n => n.1 == table)).map Prod.snd

/-- The binding of a `BOUND_COLUMN_REF`. -/
def columnRef? : Expression → Option ColumnBinding
  | .boundColumnRef b => some b
  | _ => none

def NodesManager.renameColumn (table : Nat) (m : NodesManager) (e : Expression × Nat) :
    NodesManager :=
  match columnRef? e.1 with
  | some b => m.insertRename ⟨table, e.2⟩ b
  | none => m

/-- Records the columns an operator passes on under a new name. -/
def NodesManager.renameColumns (m : NodesManager) (table : Nat) (es : List Expression) :
    NodesManager :=
  es.zipIdx.foldl (NodesManager.renameColumn table) m

def isColumnEquality (c : JoinCondition) : Bool :=
  c.comparison = .equal && (columnRef? c.left).isSome && (columnRef? c.right).isSome

/-- Which joins may justify a filter, by type. -/
def NodesManager.records (m : NodesManager) : JoinType → Bool
  | .inner | .left | .right | .semi | .rightSemi => true
  | .mark => m.canAddMark
  | _ => false

/-- The join part of `ExtractNodes`. -/
def NodesManager.recordJoin (m : NodesManager) (op : LogicalOperator) (type : JoinType)
    (conditions : List JoinCondition) : NodesManager :=
  if m.records type && conditions.any isColumnEquality then
    { m with filterOperators := m.filterOperators ++ [op], canAddMark := true }
  else { m with canAddMark := true }

def isComparisonJoin : LogicalOperator → Bool
  | .binary (.comparisonJoin _ _ _) _ _ => true
  | _ => false

def isOperatorNot : Expression → Bool
  | .operatorNot _ => true
  | _ => false

/-- An aggregate without groups is a node of its own; one with groups renames them. -/
def isUngrouped (groups : List Expression) (sets : List (List Nat)) : Bool :=
  groups.isEmpty && sets.length ≤ 1

def extractNodes (m : NodesManager) : LogicalOperator → NodesManager
  | .leaf op => m.addNode (.leaf op)
  | .unary op child =>
    match op with
    | .filter e es =>
      match scanTable child with
      | some _ => m.addNode (.unary (.filter e es) child)
      | none =>
        extractNodes { m with canAddMark := !(isOperatorNot e && isComparisonJoin child) } child
    | .aggregate g a gs groups aggregates sets functions =>
      if isUngrouped groups sets then
        (extractNodes m child).addNode
          (.unary (.aggregate g a gs groups aggregates sets functions) child)
      else extractNodes (m.renameColumns g groups) child
    | .projection t es => extractNodes (m.renameColumns t es) child
    | .tableFunction t n f => m.addNode (.unary (.tableFunction t n f) child)
    | _ => extractNodes m child
  | .binary op l r =>
    let m := match op with
      | .comparisonJoin type _ conditions | .delimJoin type _ conditions =>
        m.recordJoin (.binary op l r) type conditions
      | .setOperation _ _ _ => m.addNode (.binary op l r)
      | _ => m
    extractNodes (extractNodes m l) r

end PredTrans.Transfer
