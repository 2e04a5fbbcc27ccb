import Mathlib

namespace PredTrans.Plan

/-- A SQL value. NULL is a value of every type. -/
inductive Value where
  | null
  | boolean (b : Bool)
  | integer (i : Int)
  | varchar (s : String)
deriving DecidableEq, Repr

structure ColumnBinding where
  tableIndex : Nat
  columnIndex : Nat
deriving DecidableEq, Repr

/-- The comparison members of the source's `ExpressionType`. -/
inductive ComparisonType where
  | equal
  | notEqual
  | lessThan
  | greaterThan
  | lessThanOrEqualTo
  | greaterThanOrEqualTo
  | distinctFrom
  | notDistinctFrom
deriving DecidableEq, Repr

/-- Bound expressions. `other` stands for every expression class the optimizer
does not look into; its meaning comes with the interpretation of a run. -/
inductive Expression where
  | boundColumnRef (binding : ColumnBinding)
  | boundConstant (value : Value)
  | boundComparison (type : ComparisonType) (left right : Expression)
  | operatorNot (child : Expression)
  | conjunctionAnd (left right : Expression)
  | conjunctionOr (left right : Expression)
  | other (id : Nat)
deriving DecidableEq, Repr

inductive JoinType where
  | left
  | right
  | inner
  | outer
  | semi
  | anti
  | mark
  | single
  | rightSemi
  | rightAnti
deriving DecidableEq, Repr

structure JoinCondition where
  left : Expression
  right : Expression
  comparison : ComparisonType
deriving DecidableEq, Repr

/-- Operators without children. `source` covers the data sources that never
become a node of the transfer graph. -/
inductive LeafOp where
  | get (tableIndex columnCount : Nat)
  | delimGet (tableIndex columnCount : Nat)
  | emptyResult (bindings : List ColumnBinding)
  | source (tableIndex columnCount : Nat)
deriving DecidableEq, Repr

structure WindowExpression where
  partitions : List Expression
  function : Nat
deriving DecidableEq, Repr

inductive SetOpKind where
  | union
  | except
  | intersect
deriving DecidableEq, Repr

/-- A filter object. The source shares it by pointer between the operator that
builds it and the one that applies it; `id` is that pointer. -/
structure BloomFilter where
  id : Nat
  columnBindingsApplied : List ColumnBinding
  columnBindingsBuilt : List ColumnBinding
deriving DecidableEq, Repr

/-- The address of a `LogicalCreateBF`: the pass and the node it was built for. -/
structure CreateBFRef where
  reverse : Bool
  node : Nat
deriving DecidableEq, Repr

/-- Operators with one child. A filter always has a first conjunct, the one
`ExtractNodes` inspects; `tableFunction` is a `LOGICAL_GET` over an input. -/
inductive UnaryOp where
  | filter (expression : Expression) (rest : List Expression)
  | projection (tableIndex : Nat) (expressions : List Expression)
  | aggregate (groupIndex aggregateIndex groupingsIndex : Nat) (groups : List Expression)
      (aggregates : List Nat) (groupingSets : List (List Nat)) (groupingFunctions : List Nat)
  | window (windowIndex : Nat) (expressions : List WindowExpression)
  | unnest (unnestIndex columnCount : Nat) (function : Nat)
  | tableFunction (tableIndex columnCount : Nat) (function : Nat)
  | limit (limit : Option Nat) (offset : Nat)
  | topN (order : Nat) (limit offset : Nat)
  | orderBy (order : Nat)
  | distinct (targets : List Expression) (order : Option Nat)
  | createBF (address : CreateBFRef) (bfToCreate : List BloomFilter)
  | useBF (bfToUse : BloomFilter) (relatedCreateBF : CreateBFRef)
  | other (id : Nat) (passes : Bool) (tableIndex columnCount : Nat)
deriving DecidableEq, Repr

/-- Operators with two children. -/
inductive BinaryOp where
  | comparisonJoin (type : JoinType) (markIndex : Nat) (conditions : List JoinCondition)
  | delimJoin (type : JoinType) (markIndex : Nat) (conditions : List JoinCondition)
  | anyJoin (type : JoinType) (markIndex : Nat) (condition : Expression)
  | crossProduct
  | setOperation (kind : SetOpKind) (tableIndex columnCount : Nat)
  | other (id : Nat) (passesLeft passesRight : Bool) (tableIndex columnCount : Nat)
deriving DecidableEq, Repr

inductive LogicalOperator where
  | leaf (op : LeafOp)
  | unary (op : UnaryOp) (child : LogicalOperator)
  | binary (op : BinaryOp) (left right : LogicalOperator)
deriving DecidableEq, Repr

def generateColumnBindings (tableIndex columnCount : Nat) : List ColumnBinding :=
  (List.range columnCount).map (ColumnBinding.mk tableIndex)

def LeafOp.getColumnBindings : LeafOp → List ColumnBinding
  | .get t n | .delimGet t n | .source t n => generateColumnBindings t n
  | .emptyResult bs => bs

def UnaryOp.getColumnBindings (child : List ColumnBinding) : UnaryOp → List ColumnBinding
  | .projection t es => generateColumnBindings t es.length
  | .aggregate g a gs groups aggregates _ functions =>
    generateColumnBindings g groups.length ++ generateColumnBindings a aggregates.length ++
      generateColumnBindings gs functions.length
  | .window w es => child ++ generateColumnBindings w es.length
  | .unnest u n _ => child ++ generateColumnBindings u n
  | .tableFunction t n _ => generateColumnBindings t n
  | .other _ passes t n => (if passes then child else []) ++ generateColumnBindings t n
  | _ => child

/-- `LogicalJoin::GetColumnBindings`: semi and anti joins project one side, a
mark join adds its marker. -/
def joinBindings (type : JoinType) (markIndex : Nat) (left right : List ColumnBinding) :
    List ColumnBinding :=
  match type with
  | .semi | .anti => left
  | .mark => left ++ [⟨markIndex, 0⟩]
  | .rightSemi | .rightAnti => right
  | _ => left ++ right

def BinaryOp.getColumnBindings (left right : List ColumnBinding) : BinaryOp → List ColumnBinding
  | .comparisonJoin jt m _ | .delimJoin jt m _ | .anyJoin jt m _ => joinBindings jt m left right
  | .crossProduct => left ++ right
  | .setOperation _ t n => generateColumnBindings t n
  | .other _ pl pr t n =>
    (if pl then left else []) ++ (if pr then right else []) ++ generateColumnBindings t n

def LogicalOperator.getColumnBindings : LogicalOperator → List ColumnBinding
  | .leaf op => op.getColumnBindings
  | .unary op c => op.getColumnBindings c.getColumnBindings
  | .binary op l r => op.getColumnBindings l.getColumnBindings r.getColumnBindings

end PredTrans.Plan
