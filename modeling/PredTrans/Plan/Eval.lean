import PredTrans.Plan.Operator
import PredTrans.Library.Lists

namespace PredTrans.Plan
open Library

/-- A row gives every column a value; columns outside an operator's output are NULL. -/
abbrev Row := ColumnBinding → Value

def nullRow : Row := fun _ => .null

/-- A total preorder on rows, as an ORDER BY clause gives. -/
structure RowOrder where
  le : Row → Row → Bool
  trans : ∀ a b c, le a b = true → le b c = true → le a c = true
  total : ∀ a b, le a b = true ∨ le b a = true

/-- What the parts of a plan that the optimizer does not look into compute. -/
structure Interpretation where
  function : Nat → Row → Value
  aggregate : Nat → List Row → Value
  grouping : Nat → List Nat → Value
  window : Nat → List Row → Nat → Value
  unnest : Nat → Row → List Row
  order : Nat → RowOrder
  setOperation : SetOpKind → List (List Value) → List (List Value) → List (List Value)
  unary : Nat → List Row → List Row
  binary : Nat → List Row → List Row → List Row

instance : Inhabited RowOrder := ⟨⟨fun _ _ => true, fun _ _ _ _ _ => rfl, fun _ _ => .inl rfl⟩⟩

instance : Inhabited Interpretation where
  default :=
    { function := fun _ _ => .null
      aggregate := fun _ rows => .integer rows.length
      grouping := fun _ set => .integer set.length
      window := fun _ _ position => .integer position
      unnest := fun _ row => [row]
      order := fun _ => default
      setOperation := fun _ l r => l ++ r
      unary := fun _ rows => rows
      binary := fun _ l _ => l }

/-- One execution: the meaning of the opaque parts, the contents of the data
sources by table index, and what each filter lets through. -/
structure Execution extends Interpretation where
  tables : Nat → List (Nat → Value)
  keep : Nat → Row → Bool

def Value.lt : Value → Value → Bool
  | .boolean a, .boolean b => !a && b
  | .integer a, .integer b => a < b
  | .varchar a, .varchar b => a < b
  | _, _ => false

/-- Three-valued comparison; only the DISTINCT forms treat NULL as a value. -/
def compareValues (type : ComparisonType) (a b : Value) : Value :=
  match type with
  | .distinctFrom => .boolean (a ≠ b)
  | .notDistinctFrom => .boolean (a = b)
  | _ =>
    if a = .null ∨ b = .null then .null
    else match type with
      | .equal => .boolean (a = b)
      | .notEqual => .boolean (a ≠ b)
      | .lessThan => .boolean (a.lt b)
      | .greaterThan => .boolean (b.lt a)
      | .lessThanOrEqualTo => .boolean (!b.lt a)
      | _ => .boolean (!a.lt b)

def Value.not : Value → Value
  | .boolean b => .boolean (!b)
  | _ => .null

def Value.and : Value → Value → Value
  | .boolean false, _ | _, .boolean false => .boolean false
  | .boolean true, .boolean true => .boolean true
  | _, _ => .null

def Value.or : Value → Value → Value
  | .boolean true, _ | _, .boolean true => .boolean true
  | .boolean false, .boolean false => .boolean false
  | _, _ => .null

def Expression.eval (I : Interpretation) (row : Row) : Expression → Value
  | .boundColumnRef b => row b
  | .boundConstant v => v
  | .boundComparison t l r => compareValues t (l.eval I row) (r.eval I row)
  | .operatorNot e => (e.eval I row).not
  | .conjunctionAnd l r => (l.eval I row).and (r.eval I row)
  | .conjunctionOr l r => (l.eval I row).or (r.eval I row)
  | .other id => I.function id row

def Expression.passes (I : Interpretation) (row : Row) (e : Expression) : Bool :=
  e.eval I row = .boolean true

/-- A row of the operator that owns table index `t`. -/
def ownRow (t : Nat) (columns : Nat → Value) : Row := fun b =>
  if b.tableIndex = t then columns b.columnIndex else .null

/-- `row` with the columns of table index `t` replaced. -/
def extendRow (t : Nat) (columns : Nat → Value) (row : Row) : Row := fun b =>
  if b.tableIndex = t then columns b.columnIndex else row b

def LeafOp.rows (E : Execution) : LeafOp → List Row
  | .get t _ | .delimGet t _ | .source t _ => (E.tables t).map (ownRow t)
  | .emptyResult _ => []

section Unary

variable (I : Interpretation)

def projectRow (t : Nat) (es : List Expression) (row : Row) : Row :=
  ownRow t (fun i => match es[i]? with
    | some e => e.eval I row
    | none => .null)

/-- The grouping key under one grouping set: keys outside the set are NULL. -/
def groupKey (groups : List Expression) (set : List Nat) (row : Row) : List Value :=
  groups.zipIdx.map (fun e => if e.2 ∈ set then e.1.eval I row else .null)

def groupRow (g a gs : Nat) (aggregates functions : List Nat) (set : List Nat)
    (key : List Value) (members : List Row) : Row := fun b =>
  if b.tableIndex = g then key.getD b.columnIndex .null
  else if b.tableIndex = a then
    match aggregates[b.columnIndex]? with
    | some f => I.aggregate f members
    | none => .null
  else if b.tableIndex = gs then
    match functions[b.columnIndex]? with
    | some f => I.grouping f set
    | none => .null
  else .null

/-- The groups of one grouping set. The empty set has one group even over no rows. -/
def groupRows (g a gs : Nat) (groups : List Expression) (aggregates functions : List Nat)
    (rows : List Row) (set : List Nat) : List Row :=
  let keys := if set.isEmpty then [groupKey I groups set nullRow]
    else (firstsBy (groupKey I groups set) rows).map (groupKey I groups set)
  keys.map (fun key => groupRow I g a gs aggregates functions set key
    (rows.filter (fun r => set.isEmpty || groupKey I groups set r = key)))

/-- Without grouping sets all groups form the one set. -/
def effectiveSets (groups : List Expression) (groupingSets : List (List Nat)) : List (List Nat) :=
  if groupingSets.isEmpty then [List.range groups.length] else groupingSets

def partitionKey (w : WindowExpression) (row : Row) : List Value :=
  w.partitions.map (Expression.eval I row)

/-- Each window function sees its partition and the row's position in it. -/
def windowRow (index : Nat) (ws : List WindowExpression) (all before : List Row)
    (row : Row) : Row :=
  extendRow index (fun i =>
    match ws[i]? with
    | some w => I.window w.function
        (all.filter (fun r => partitionKey I w r = partitionKey I w row))
        (before.filter (fun r => partitionKey I w r = partitionKey I w row)).length
    | none => .null) row

def windowRows (index : Nat) (ws : List WindowExpression) (all : List Row) :
    List Row → List Row → List Row
  | _, [] => []
  | before, r :: rest =>
    windowRow I index ws all before r :: windowRows index ws all (before ++ [r]) rest

def sortRows (order : RowOrder) (rows : List Row) : List Row :=
  rows.insertionSort (fun a b => order.le a b = true)

def sliceRows (limit : Option Nat) (offset : Nat) (rows : List Row) : List Row :=
  match limit with
  | some n => (rows.drop offset).take n
  | none => rows.drop offset

def distinctRows (targets : List Expression) (order : Option Nat) (rows : List Row) : List Row :=
  firstsBy (fun r => targets.map (Expression.eval I r))
    (match order with
    | some o => sortRows (I.order o) rows
    | none => rows)

end Unary

def UnaryOp.rows (E : Execution) (op : UnaryOp) (rows : List Row) : List Row :=
  match op with
  | .filter e es => rows.filter (fun r => (e :: es).all (Expression.passes E.toInterpretation r))
  | .projection t es => rows.map (projectRow E.toInterpretation t es)
  | .aggregate g a gs groups aggregates sets functions =>
    (effectiveSets groups sets).flatMap
      (groupRows E.toInterpretation g a gs groups aggregates functions rows)
  | .window w es => windowRows E.toInterpretation w es rows [] rows
  | .unnest u _ f => rows.flatMap (fun r =>
      (E.unnest f r).map (fun o => extendRow u (fun i => o ⟨u, i⟩) r))
  | .tableFunction t _ f => (E.unary f rows).map (fun o => ownRow t (fun i => o ⟨t, i⟩))
  | .limit n offset => sliceRows n offset rows
  | .topN o n offset => sliceRows (some n) offset (sortRows (E.order o) rows)
  | .orderBy o => sortRows (E.order o) rows
  | .distinct targets o => distinctRows E.toInterpretation targets o rows
  | .createBF _ _ => rows
  | .useBF f _ => rows.filter (E.keep f.id)
  | .other id _ _ _ => E.unary id rows

/-- The columns of `left` come from `l`, all others from `r`. -/
def combine (left : List ColumnBinding) (l r : Row) : Row := fun b => if b ∈ left then l b else r b

def JoinCondition.holds (I : Interpretation) (l r : Row) (c : JoinCondition) : Value :=
  compareValues c.comparison (c.left.eval I l) (c.right.eval I r)

/-- The marker is the SQL value of IN: a three-valued disjunction over the right rows. -/
def markValue (test : Row → Row → Value) (rs : List Row) (l : Row) : Value :=
  rs.foldr (fun r v => (test l r).or v) (.boolean false)

/-- Join of two row lists on a three-valued test of a pair. -/
def joinRows (type : JoinType) (markIndex : Nat) (left : List ColumnBinding)
    (test : Row → Row → Value) (ls rs : List Row) : List Row :=
  let hit := fun l r => decide (test l r = .boolean true)
  let inner := ls.flatMap (fun l => (rs.filter (hit l)).map (combine left l))
  let leftOuter := ls.flatMap (fun l =>
    if rs.any (hit l) then (rs.filter (hit l)).map (combine left l) else [combine left l nullRow])
  let unmatchedRight :=
    (rs.filter (fun r => !ls.any (fun l => hit l r))).map (combine left nullRow)
  match type with
  | .inner => inner
  | .left => leftOuter
  | .right => inner ++ unmatchedRight
  | .outer => leftOuter ++ unmatchedRight
  | .semi => ls.filter (fun l => rs.any (hit l))
  | .anti => ls.filter (fun l => !rs.any (hit l))
  | .rightSemi => rs.filter (fun r => ls.any (fun l => hit l r))
  | .rightAnti => rs.filter (fun r => !ls.any (fun l => hit l r))
  | .mark => ls.map (fun l => extendRow markIndex (fun _ => markValue test rs l) l)
  | .single => ls.map (fun l => combine left l ((rs.find? (hit l)).getD nullRow))

/-- The three-valued conjunction of a comparison join's conditions. -/
def conditionsTest (I : Interpretation) (cs : List JoinCondition) (l r : Row) : Value :=
  cs.foldr (fun c v => (c.holds I l r).and v) (.boolean true)

def setOperationRow (t : Nat) (tuple : List Value) : Row := ownRow t (fun i => tuple.getD i .null)

def BinaryOp.rows (E : Execution) (op : BinaryOp) (left right : List ColumnBinding)
    (ls rs : List Row) : List Row :=
  match op with
  | .comparisonJoin jt m cs | .delimJoin jt m cs =>
    joinRows jt m left (conditionsTest E.toInterpretation cs) ls rs
  | .anyJoin jt m e =>
    joinRows jt m left (fun l r => e.eval E.toInterpretation (combine left l r)) ls rs
  | .crossProduct => joinRows .inner 0 left (fun _ _ => .boolean true) ls rs
  | .setOperation kind t _ =>
    (E.setOperation kind (ls.map (left.map ·)) (rs.map (right.map ·))).map (setOperationRow t)
  | .other id _ _ _ _ => E.binary id ls rs

/-- The rows a plan returns, in the order of a single-threaded execution. -/
def LogicalOperator.run (E : Execution) : LogicalOperator → List Row
  | .leaf op => op.rows E
  | .unary op c => op.rows E (c.run E)
  | .binary op l r => op.rows E l.getColumnBindings r.getColumnBindings (l.run E) (r.run E)

end PredTrans.Plan
