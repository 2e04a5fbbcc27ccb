import PredTrans.Window.Boundaries

/-! The segment tree of a window aggregate (`WindowSegmentTree` of window_segment_tree.cpp). Its
inner nodes hold the aggregates of blocks of rows. A frame is put together from nodes and from the
ragged leaves at its ends. -/

namespace PredTrans.Window

open List
open Function (update)

/-- An aggregate function; `combine` adds a source to a target. -/
structure Aggregate (S : Type) where
  initial : S
  update : S → Nat → S
  combine : S → S → S
  orderInsensitive : Bool

/-- The aggregates for which the tree may be used. -/
structure Aggregate.Lawful (agg : Aggregate S) : Prop where
  assoc : ∀ s t u, agg.combine (agg.combine s t) u = agg.combine s (agg.combine t u)
  combine_initial : ∀ s, agg.combine s agg.initial = s
  update_eq : ∀ s row, agg.update s row = agg.combine s (agg.update agg.initial row)
  comm : agg.orderInsensitive = true → ∀ s t, agg.combine s t = agg.combine t s

def treeFanout : Nat := 16
def standardVectorSize : Nat := 2048

/-- The input rows and which of them pass the FILTER. -/
structure WindowRows where
  size : Nat
  keep : Nat → Bool

section Tree

variable {S : Type} (agg : Aggregate S) (rows : WindowRows)

/-- The nodes over a level of `size` values, which `add` adds to a state. -/
def levelNodes (size : Nat) (add : S → Nat → S) : List S :=
  (range ((size + (treeFanout - 1)) / treeFanout)).map fun k =>
    (range' (k * treeFanout) (min size (k * treeFanout + treeFanout) - k * treeFanout)).foldl add
      agg.initial

/-- The loop of `ConstructTree` over the levels above one of `size` values. -/
def constructLevels (size : Nat) (add : S → Nat → S) : List (List S) :=
  if size ≤ 1 then []
  else
    let nodes := levelNodes agg size add
    nodes :: constructLevels nodes.length fun s i => agg.combine s (nodes.getD i agg.initial)
termination_by size
decreasing_by
  simp only [levelNodes,length_map,length_range,treeFanout]
  omega

/-- `ConstructTree`: the lowest nodes are made from the rows that pass the filter. -/
def constructTree : List (List S) :=
  constructLevels agg rows.size fun s row => if rows.keep row then agg.update s row else s

end Tree

/-- What waits for the next flush: a row, a node or the state of another row for the state of
`target`. -/
inductive Pending where
  | leaf (target row : Nat)
  | node (target level index : Nat)
  | shared (target source : Nat)

def Pending.combining : Pending → Bool
  | .leaf .. => false
  | .node .. | .shared .. => true

/-- The states of the result rows, with the buffer of what is added to them. -/
structure PartState (S : Type) where
  states : Nat → S
  pending : List Pending

inductive FramePart where
  | full
  | left
  | right
  deriving DecidableEq

section Part

variable {S : Type} (agg : Aggregate S) (tree : List (List S))

def nodeAt (level index : Nat) : S := (tree.getD (level - 1) []).getD index agg.initial

def applyPending (states : Nat → S) : Pending → Nat → S
  | .leaf target row => update states target (agg.update (states target) row)
  | .node target level index =>
    update states target (agg.combine (states target) (nodeAt agg tree level index))
  | .shared target source => update states target (agg.combine (states target) (states source))

/-- `FlushStates`; the buffer is read as states to combine or as rows. -/
def flushStates (combining : Bool) (part : PartState S) : PartState S where
  states := (part.pending.filter (·.combining == combining)).foldl
    (applyPending agg tree) part.states
  pending := []

def pushPending (combining : Bool) (part : PartState S) (entry : Pending) : PartState S :=
  let part := { part with pending := part.pending ++ [entry] }
  if part.pending.length ≥ standardVectorSize then flushStates agg tree combining part else part

/-- `WindowSegmentValue` above the leaves. -/
def nodeEntries (target level first last : Nat) : List Pending :=
  (range' first (last - first)).map (.node target level)

/-- `ExtractFrame`. -/
def leafEntries (rows : WindowRows) (target first last : Nat) : List Pending :=
  ((range' first (last - first)).filter rows.keep).map (.leaf target)

/-- `prev_state`, `prev_begin` and `prev_end`: a result row whose upper part can be shared. -/
structure PrevState where
  source : Nat
  first : Nat
  last : Nat

def sharedWith (level first last : Nat) : Option PrevState → Option Nat
  | some prev =>
    if level = 1 ∧ first = prev.first ∧ last = prev.last then some prev.source else none
  | none => none

/-- The loop over the levels in `EvaluateUpperLevels`. What the right side has on `right_stack`
waits in `rights`, the highest level first. -/
def climb (target : Nat) : Nat → Nat → Nat → Nat → Option PrevState → List Pending →
    Option PrevState × List Pending
  | 0, _, _, _, prev, rights => (prev, rights)
  | fuel + 1, level, first, last, prev, rights =>
    let parentFirst := first / treeFanout
    let parentLast := last / treeFanout
    match sharedWith level first last prev with
    | some source => (prev, .shared target source :: rights)
    | none =>
      let prev := if agg.orderInsensitive ∧ level = 1 then some ⟨target, first, last⟩ else prev
      let entries := fun first last => if level = 0 then [] else nodeEntries target level first last
      if parentFirst = parentLast then (prev, entries first last ++ rights)
      else
        let groupFirst := parentFirst * treeFanout
        let groupLast := parentLast * treeFanout
        let left := if first ≠ groupFirst then entries first (groupFirst + treeFanout) else []
        let parentFirst := if first ≠ groupFirst then parentFirst + 1 else parentFirst
        let right := if last ≠ groupLast then entries groupLast last else []
        let above := climb target fuel (level + 1) parentFirst parentLast prev
          (if agg.orderInsensitive then rights else right ++ rights)
        (above.1, left ++ (if agg.orderInsensitive then right else []) ++ above.2)

/-- The bounds of one call of `Part::Evaluate` for the rows from `rowIdx` on. -/
structure PartCall where
  mode : WindowExcludeMode
  framePart : FramePart
  begins : Nat → Nat
  ends : Nat → Nat
  count : Nat
  rowIdx : Nat

def PartCall.first (call : PartCall) (rid : Nat) : Nat :=
  if call.framePart = .right ∧ call.mode = .currentRow then call.rowIdx + rid + 1
    else call.begins rid

def PartCall.last (call : PartCall) (rid : Nat) : Nat :=
  if call.framePart = .left ∧ call.mode = .currentRow then call.rowIdx + rid else call.ends rid

def upperStep (call : PartCall) (state : Option PrevState × PartState S) (rid : Nat) :
    Option PrevState × PartState S :=
  if call.last rid ≤ call.first rid then state
  else
    let (prev, entries) :=
      climb agg rid (tree.length + 2) 0 (call.first rid) (call.last rid) state.1 []
    (prev, entries.foldl (pushPending agg tree true) state.2)

def evaluateUpperLevels (call : PartCall) (part : PartState S) : PartState S :=
  flushStates agg tree true ((range call.count).foldl (upperStep agg tree call) (none, part)).2

variable (rows : WindowRows)

/-- The ragged ends of a frame that `EvaluateLeaves` adds itself. -/
def raggedEntries (target first last : Nat) (leafPart : FramePart) : List Pending :=
  if last ≤ first then []
  else
    let parentFirst := first / treeFanout
    let parentLast := last / treeFanout
    if parentFirst = parentLast then
      if leafPart ≠ .right then leafEntries rows target first last else []
    else
      let groupFirst := parentFirst * treeFanout
      let groupLast := parentLast * treeFanout
      (if first ≠ groupFirst ∧ leafPart ≠ .right then
        leafEntries rows target first (groupFirst + treeFanout) else []) ++
      (if last ≠ groupLast ∧ leafPart ≠ .left then leafEntries rows target groupLast last else [])

/-- The leaves of one result row; with EXCLUDE TIES the right part begins with the row itself. -/
def leavesOf (call : PartCall) (leafPart : FramePart) (rid : Nat) : List Pending :=
  (if leafPart ≠ .right ∧ call.framePart = .right ∧ call.mode = .ties then
    leafEntries rows rid (call.rowIdx + rid) (call.rowIdx + rid + 1) else []) ++
  raggedEntries rows rid (call.first rid) (call.last rid) leafPart

def evaluateLeaves (call : PartCall) (leafPart : FramePart) (part : PartState S) : PartState S :=
  flushStates agg tree false ((range call.count).foldl
    (fun part rid => (leavesOf rows call leafPart rid).foldl
      (pushPending agg tree false) part) part)

/-- `WindowSegmentTreePart::Evaluate` after `Initialize`. -/
def evaluatePart (call : PartCall) : PartState S :=
  let part : PartState S := ⟨fun _ => agg.initial, []⟩
  if agg.orderInsensitive then
    evaluateLeaves agg tree rows call .full (evaluateUpperLevels agg tree call part)
  else
    evaluateLeaves agg tree rows call .right
      (evaluateUpperLevels agg tree call (evaluateLeaves agg tree rows call .left part))

end Part

/-- `WindowSegmentTree::Evaluate` before `Finalize`: the states of the result rows. -/
def evaluate (agg : Aggregate S) (rows : WindowRows) (mode : WindowExcludeMode)
    (frames peers : Nat → FrameBounds) (count rowIdx rid : Nat) : S :=
  let tree := constructTree agg rows
  let part := fun framePart begins ends =>
    (evaluatePart agg tree rows ⟨mode, framePart, begins, ends, count, rowIdx⟩).states rid
  if mode ≠ .noOther then
    agg.combine (part .left (fun rid => (frames rid).start) fun rid => (peers rid).start)
      (part .right (fun rid => (peers rid).end_) fun rid => (frames rid).end_)
  else part .full (fun rid => (frames rid).start) fun rid => (frames rid).end_

end PredTrans.Window
