import PredTrans.Window.Mask
import PredTrans.Library.BinarySearch

/-!
The boundaries of a window function's partitions, peer groups and frames
(`WindowBoundariesState` of window_executor.cpp).
-/

namespace PredTrans.Window

open Library

inductive WindowBoundary where
  | unboundedPreceding
  | unboundedFollowing
  | currentRowRange
  | currentRowRows
  | exprPrecedingRows
  | exprFollowingRows
  | exprPrecedingRange
  | exprFollowingRange
  deriving DecidableEq, Repr

/-- The window functions that read peer boundaries, and the others. -/
inductive ExpressionType where
  | windowRank
  | windowRankDense
  | windowPercentRank
  | windowCumeDist
  | other
  deriving DecidableEq, Repr

inductive WindowExcludeMode where
  | noOther
  | currentRow
  | group
  | ties
  deriving DecidableEq, Repr

inductive OrderType where
  | ascending
  | descending
  deriving DecidableEq, Repr

/-- What the boundaries depend on in a `BoundWindowExpression`. -/
structure BoundWindowExpression where
  type : ExpressionType
  start : WindowBoundary
  end_ : WindowBoundary
  partitions : Nat
  orders : Nat
  rangeSense : OrderType
  excludeClause : WindowExcludeMode
  deriving DecidableEq, Repr

def boundaryNeedsPeer : WindowBoundary → Bool
  | .currentRowRange => true
  | .exprPrecedingRange => true
  | .exprFollowingRange => true
  | _ => false

def expressionNeedsPeer : ExpressionType → Bool
  | .windowRank => true
  | .windowRankDense => true
  | .windowPercentRank => true
  | .windowCumeDist => true
  | .other => false

/-- `exclude_clause >= WindowExcludeMode::GROUP`. -/
def WindowExcludeMode.atLeastGroup : WindowExcludeMode → Bool
  | .group => true
  | .ties => true
  | _ => false

namespace BoundWindowExpression

def needsPeer (wexpr : BoundWindowExpression) : Bool :=
  boundaryNeedsPeer wexpr.end_ || expressionNeedsPeer wexpr.type ||
    wexpr.excludeClause.atLeastGroup

/-- `HasPrecedingRange`. -/
def hasPrecedingRange (wexpr : BoundWindowExpression) : Bool :=
  wexpr.start == .exprPrecedingRange || wexpr.end_ == .exprPrecedingRange

/-- `HasFollowingRange`. -/
def hasFollowingRange (wexpr : BoundWindowExpression) : Bool :=
  wexpr.start == .exprFollowingRange || wexpr.end_ == .exprFollowingRange

end BoundWindowExpression

structure FrameBounds where
  start : Nat
  end_ : Nat
  deriving DecidableEq, Repr

/-- A column of the sorted input; the data of a NULL cell is arbitrary. -/
structure WindowInputColumn (K : Type) where
  getCell : Nat → K
  cellIsNull : Nat → Bool

section Range

variable {K : Type} [LinearOrder K]

/-- `LessThan` or `GreaterThan`. -/
def OrderType.comp (sense : OrderType) (a b : K) : Bool :=
  match sense with
  | .ascending => decide (a < b)
  | .descending => decide (b < a)

/-- `std::lower_bound` on positions of the column. -/
def lowerBound (sense : OrderType) (column : WindowInputColumn K) (first last : Nat)
    (val : K) : Nat :=
  partitionPoint (fun i => sense.comp (column.getCell i) val) (last - first) first (last - first)

/-- `std::upper_bound`. -/
def upperBound (sense : OrderType) (column : WindowInputColumn K) (first last : Nat)
    (val : K) : Nat :=
  partitionPoint (fun i => !sense.comp val (column.getCell i)) (last - first) first (last - first)

/-- The first hint of `FindTypedRangeBound`: the search may start at the previous frame start. -/
def hintedBegin (sense : OrderType) (column : WindowInputColumn K) (orderBegin orderEnd : Nat)
    (val : K) (prev : FrameBounds) : Nat :=
  if orderBegin < prev.start ∧ prev.start < orderEnd ∧
      !sense.comp val (column.getCell prev.start) then prev.start
  else orderBegin

/-- The second hint: the search may end behind the previous frame end. -/
def hintedEnd (sense : OrderType) (column : WindowInputColumn K) (orderBegin orderEnd : Nat)
    (val : K) (prev : FrameBounds) : Nat :=
  if orderBegin ≤ prev.end_ ∧ prev.end_ < orderEnd ∧
      !sense.comp (column.getCell prev.end_) val then prev.end_ + 1
  else orderEnd

/-- `FindOrderedRangeBound`, through `FindTypedRangeBound` for the type of the column. -/
def findOrderedRangeBound (from_ : Bool) (column : WindowInputColumn K) (sense : OrderType)
    (orderBegin orderEnd : Nat) (val : K) (prev : FrameBounds) : Nat :=
  let first := hintedBegin sense column orderBegin orderEnd val prev
  let last := hintedEnd sense column orderBegin orderEnd val prev
  if from_ then lowerBound sense column first last val else upperBound sense column first last val

end Range

/-- `WindowBoundariesState`. -/
structure BoundariesState where
  nextPos : Nat
  partitionStart : Nat
  partitionEnd : Nat
  peerStart : Nat
  peerEnd : Nat
  validStart : Nat
  validEnd : Nat
  windowStart : Int
  windowEnd : Int
  prev : FrameBounds
  deriving DecidableEq, Repr

def BoundariesState.initial : BoundariesState where
  nextPos := 0
  partitionStart := 0
  partitionEnd := 0
  peerStart := 0
  peerEnd := 0
  validStart := 0
  validEnd := 0
  windowStart := -1
  windowEnd := -1
  prev := ⟨0, 0⟩

/-- The inputs that all calls of `Update` share. -/
structure WindowInput (K : Type) where
  wexpr : BoundWindowExpression
  inputSize : Nat
  range : WindowInputColumn K
  partitionMask : ValidityMask
  orderMask : ValidityMask

/-- One cell of a boundary expression: the offset of a ROWS bound, or the bound value of a RANGE
bound with `none` for NULL. -/
structure BoundaryCell (K : Type) where
  offset : Int
  value : Option K

/-- `TryAddOperator` and `TrySubtractOperator` on 64 bits, given the exact result. -/
def tryInt64 (error : String) (result : Int) : Except String Int :=
  if -(2 ^ 63) ≤ result ∧ result < 2 ^ 63 then .ok result else .error error

namespace BoundariesState

variable {K : Type} [LinearOrder K]

/-- Leading NULLs are excluded where a RANGE bound searches backwards. -/
def findValidStart (input : WindowInput K) (partitionStart partitionEnd : Nat) : Nat :=
  if partitionStart < partitionEnd ∧ input.wexpr.hasPrecedingRange = true ∧
      input.range.cellIsNull partitionStart = true then
    (findNextStart input.orderMask (partitionStart + 1) partitionEnd 1).1
  else partitionStart

/-- Trailing NULLs are excluded where a RANGE bound searches forwards. -/
def findValidEnd (input : WindowInput K) (validStart partitionEnd : Nat) : Nat :=
  if input.range.cellIsNull (partitionEnd - 1) then
    (findPrevStart input.orderMask validStart partitionEnd 1).1
  else partitionEnd

/-- The valid ordering values of a new partition; the range hints are reset to them. -/
def updateValid (input : WindowInput K) (s : BoundariesState) : BoundariesState :=
  let validStart := findValidStart input s.partitionStart s.partitionEnd
  if validStart < s.partitionEnd ∧ input.wexpr.hasFollowingRange = true then
    let validEnd := findValidEnd input validStart s.partitionEnd
    { s with
      validStart := validStart, validEnd := validEnd, prev := ⟨validStart, validEnd⟩ }
  else { s with validStart := validStart, validEnd := s.partitionEnd }

/-- The partition and the start of the peer group: they are recomputed for a new partition and
after a jump, and the peers start anew at an order start. -/
def updateStarts (input : WindowInput K) (s : BoundariesState) (rowIdx : Nat) : BoundariesState :=
  let isSamePartition := !input.partitionMask.rowIsValid rowIdx
  let isPeer := !input.orderMask.rowIsValid rowIdx
  let isJump := decide (s.nextPos ≠ rowIdx)
  if !isSamePartition || isJump then
    let s :=
      if isJump then
        { s with
          partitionStart := (findPrevStart input.partitionMask 0 (rowIdx + 1) 1).1
          peerStart := (findPrevStart input.orderMask 0 (rowIdx + 1) 1).1 }
      else { s with partitionStart := rowIdx, peerStart := rowIdx }
    let s := { s with
      partitionEnd :=
        if input.wexpr.partitions ≠ 0 then
          (findNextStart input.partitionMask (s.partitionStart + 1) input.inputSize 1).1
        else input.inputSize }
    s.updateValid input
  else if !isPeer then { s with peerStart := rowIdx }
  else s

/-- The part of `Update` that finds the partition and the peer group of the row. -/
def updatePartition (input : WindowInput K) (s : BoundariesState) (rowIdx : Nat) :
    BoundariesState :=
  if 0 < input.wexpr.partitions + input.wexpr.orders then
    let s := s.updateStarts input rowIdx
    if input.wexpr.needsPeer then
      { s with
        peerEnd :=
          if input.wexpr.orders ≠ 0 then
            (findNextStart input.orderMask (s.peerStart + 1) s.partitionEnd 1).1
          else s.partitionEnd }
    else s
  else { s with partitionEnd := input.inputSize, peerEnd := input.inputSize }

/-- The first switch of `Update`, with the hint that it leaves. -/
def frameStart (input : WindowInput K) (s : BoundariesState) (rowIdx : Nat)
    (cell : BoundaryCell K) : Except String (Int × FrameBounds) :=
  match input.wexpr.start with
  | .unboundedPreceding => .ok (s.partitionStart, s.prev)
  | .currentRowRows => .ok (rowIdx, s.prev)
  | .currentRowRange => .ok (s.peerStart, s.prev)
  | .exprPrecedingRows => do
    let start ← tryInt64 "Overflow computing ROWS PRECEDING start" (rowIdx - cell.offset)
    return (start, s.prev)
  | .exprFollowingRows => do
    let start ← tryInt64 "Overflow computing ROWS FOLLOWING start" (rowIdx + cell.offset)
    return (start, s.prev)
  | .exprPrecedingRange =>
    match cell.value with
    | none => .ok (s.peerStart, s.prev)
    | some val =>
      let start := findOrderedRangeBound true input.range input.wexpr.rangeSense s.validStart
        rowIdx val s.prev
      .ok (start, { s.prev with start := start })
  | .exprFollowingRange =>
    match cell.value with
    | none => .ok (s.peerStart, s.prev)
    | some val =>
      let start := findOrderedRangeBound true input.range input.wexpr.rangeSense rowIdx
        s.validEnd val s.prev
      .ok (start, { s.prev with start := start })
  | .unboundedFollowing => .error "Unsupported window start boundary"

/-- The second switch of `Update`. -/
def frameEnd (input : WindowInput K) (s : BoundariesState) (rowIdx : Nat)
    (cell : BoundaryCell K) : Except String (Int × FrameBounds) :=
  match input.wexpr.end_ with
  | .currentRowRows => .ok (rowIdx + 1, s.prev)
  | .currentRowRange => .ok (s.peerEnd, s.prev)
  | .unboundedFollowing => .ok (s.partitionEnd, s.prev)
  | .exprPrecedingRows => do
    let end_ ← tryInt64 "Overflow computing ROWS PRECEDING end" (rowIdx + 1 - cell.offset)
    return (end_, s.prev)
  | .exprFollowingRows => do
    let end_ ← tryInt64 "Overflow computing ROWS FOLLOWING end" (rowIdx + 1 + cell.offset)
    return (end_, s.prev)
  | .exprPrecedingRange =>
    match cell.value with
    | none => .ok (s.peerEnd, s.prev)
    | some val =>
      let end_ := findOrderedRangeBound false input.range input.wexpr.rangeSense s.validStart
        rowIdx val s.prev
      .ok (end_, { s.prev with end_ := end_ })
  | .exprFollowingRange =>
    match cell.value with
    | none => .ok (s.peerEnd, s.prev)
    | some val =>
      let end_ := findOrderedRangeBound false input.range input.wexpr.rangeSense rowIdx
        s.validEnd val s.prev
      .ok (end_, { s.prev with end_ := end_ })
  | .unboundedPreceding => .error "Unsupported window end boundary"

/-- A bound that exceeds the partition is clamped to it. -/
def clamp (s : BoundariesState) (bound : Int) : Int :=
  let bound := if bound < s.partitionStart then (s.partitionStart : Int) else bound
  if (s.partitionEnd : Int) < bound then s.partitionEnd else bound

/-- `WindowBoundariesState::Update` at a row with its boundary cells. -/
def update (input : WindowInput K) (s : BoundariesState) (rowIdx : Nat)
    (startCell endCell : BoundaryCell K) : Except String BoundariesState := do
  let s := s.updatePartition input rowIdx
  let s := { s with nextPos := rowIdx + 1, windowStart := -1, windowEnd := -1 }
  let (windowStart, prev) ← s.frameStart input rowIdx startCell
  let s := { s with windowStart := windowStart, prev := prev }
  let (windowEnd, prev) ← s.frameEnd input rowIdx endCell
  let s := { s with windowEnd := windowEnd, prev := prev }
  let s := { s with windowStart := s.clamp s.windowStart, windowEnd := s.clamp s.windowEnd }
  if s.windowStart < 0 ∨ s.windowEnd < 0 then .error "Failed to compute window boundaries"
  else return s

end BoundariesState

end PredTrans.Window
