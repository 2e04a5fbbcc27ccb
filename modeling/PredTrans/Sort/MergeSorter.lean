import PredTrans.Sort.MergePath

/-! Merging two sorted runs in parallel. A scan position is what is left to scan: the rest of the
current block and the blocks behind it. Rows are compared by a key in a linear order; a failed
assertion or an endless loop is `none`. -/

namespace PredTrans.Sort

variable {α K : Type} [LinearOrder K]

/-- A run: `CreateBlock` adds a block before any row is written. -/
structure SortedBlock (α : Type) where
  blocks : List (List α)
  nonempty : blocks ≠ []

namespace SortedBlock

def count (sb : SortedBlock α) : Nat := (sb.blocks.map List.length).sum

/-- The loop of `GlobalToLocalIndex`. -/
def findBlock : List (List α) → Nat → Nat → Option (Nat × Nat)
  | [], _, _ => none
  | block :: blocks, blockIdx, entryIdx =>
    if entryIdx ≥ block.length then findBlock blocks (blockIdx + 1) (entryIdx - block.length)
    else some (blockIdx, entryIdx)

def globalToLocalIndex (sb : SortedBlock α) (globalIdx : Nat) : Option (Nat × Nat) :=
  if globalIdx = sb.count then
    some (sb.blocks.length - 1, (sb.blocks.getLast sb.nonempty).length)
  else findBlock sb.blocks 0 globalIdx

/-- The row at a global index. -/
def rowAt (sb : SortedBlock α) (globalIdx : Nat) : Option α := do
  let (blockIdx, entryIdx) ← sb.globalToLocalIndex globalIdx
  let block ← sb.blocks[blockIdx]?
  block[entryIdx]?

/-- `CreateSlice`: the blocks from that of `start` to that of `stop`, the last one cut off at
`stop`, and the scan position at `start`. -/
def createSlice (sb : SortedBlock α) (start stop : Nat) : Option (List (List α)) := do
  let (startBlock, startEntry) ← sb.globalToLocalIndex start
  let (stopBlock, stopEntry) ← sb.globalToLocalIndex stop
  let copied := (sb.blocks.drop startBlock).take (stopBlock + 1 - startBlock)
  let bounded := copied.modify (copied.length - 1) (·.take stopEntry)
  some (bounded.modify 0 (·.drop startEntry))

end SortedBlock

section Partitions

variable (key : α → K) (left right : SortedBlock α)

/-- `CompareTuple`. -/
def compareTuple (l r : α) : Int :=
  if key l < key r then -1 else if key r < key l then 1 else 0

/-- `CompareUsingGlobalIndex`: rows in front of the previous intersection are not looked at. -/
def compareUsingGlobalIndex (lStart rStart lIdx rIdx : Nat) : Option Int :=
  if lIdx < left.count ∧ rIdx < right.count then
    if lIdx < lStart then some (-1)
    else if rIdx < rStart then some 1
    else do some (compareTuple key (← left.rowAt lIdx) (← right.rowAt rIdx))
  else none

/-- What one thread merges: the two slices, and where they end. -/
structure Partition (α : Type) where
  left : List (List α)
  right : List (List α)
  lEnd : Nat
  rEnd : Nat

/-- The work of the next thread, by Merge Path. -/
def partitionEnds (blockCapacity lStart rStart : Nat) : Option (Nat × Nat) :=
  if lStart + rStart + blockCapacity < left.count + right.count then
    getIntersection (compareUsingGlobalIndex key left right lStart rStart) left.count right.count
      (lStart + rStart + blockCapacity)
  else some (left.count, right.count)

def getNextPartition (blockCapacity lStart rStart : Nat) : Option (Partition α) := do
  let (lEnd, rEnd) ← partitionEnds key left right blockCapacity lStart rStart
  some ⟨← left.createSlice lStart lEnd, ← right.createSlice rStart rEnd, lEnd, rEnd⟩

/-- The successive calls of `GetNextPartition` for a pair of runs. -/
def getPartitions (blockCapacity : Nat) : Nat → Nat → Nat → Option (List (Partition α))
  | 0, _, _ => none
  | calls + 1, lStart, rStart => do
    let p ← getNextPartition key left right blockCapacity lStart rStart
    if p.lEnd = left.count ∧ p.rEnd = right.count then some [p]
    else some (p :: (← getPartitions blockCapacity calls p.lEnd p.rEnd))

end Partitions

/-- Move to the next block if this one is used up. -/
def moveToNextBlock : List (List α) → List (List α)
  | [] :: blocks => blocks
  | blocks => blocks

/-- The inner loop of `ComputeMerge`, over the rest of two blocks: which side is smaller each time,
and what is left of the blocks. -/
def compareBlocks (key : α → K) : Nat → List α → List α → List Bool × List α × List α
  | count + 1, a :: l, b :: r =>
    if key a < key b then
      let (leftSmaller, rest) := compareBlocks key count l (b :: r)
      (true :: leftSmaller, rest)
    else
      let (leftSmaller, rest) := compareBlocks key count (a :: l) r
      (false :: leftSmaller, rest)
  | _, l, r => ([], l, r)

/-- `ComputeMerge`: stops early when a side is exhausted. -/
def computeMerge (key : α → K) : Nat → Nat → List (List α) → List (List α) → List Bool
  | 0, _, _, _ => []
  | fuel + 1, count, l, r =>
    if count = 0 then []
    else match moveToNextBlock l, moveToNextBlock r with
      | lBlock :: l, rBlock :: r =>
        let (leftSmaller, lBlock, rBlock) := compareBlocks key count lBlock rBlock
        leftSmaller ++ computeMerge key fuel (count - leftSmaller.length) (lBlock :: l)
          (rBlock :: r)
      | _, _ => []

/-- `MergeRows`: copies by the computed merge while both blocks have rows. -/
def mergeRows : Nat → List Bool → List α → List α → List α × List α × List α
  | next + 1, leftSmaller :: flags, a :: l, b :: r =>
    if leftSmaller then
      let (copied, rest) := mergeRows next flags l (b :: r)
      (a :: copied, rest)
    else
      let (copied, rest) := mergeRows next flags (a :: l) r
      (b :: copied, rest)
  | _, _, l, r => ([], l, r)

/-- What a merge leaves: the rows it copied and the two scan positions. -/
structure Copied (α : Type) where
  rows : List α
  left : List (List α)
  right : List (List α)

/-- `MergeRadix` for `count` rows, with `room` left in the result block: merges while both sides
have a block, and flushes one side when the other is exhausted. -/
def mergeRadix : Nat → Nat → Nat → List Bool → List (List α) → List (List α) → Option (Copied α)
  | 0, _, _, _, _, _ => none
  | fuel + 1, count, room, leftSmaller, l, r =>
    if count = 0 then some ⟨[], l, r⟩
    else
      let next := min count room
      match moveToNextBlock l, moveToNextBlock r with
      | lBlock :: l, rBlock :: r => do
        let (copied, lBlock, rBlock) := mergeRows next leftSmaller lBlock rBlock
        let rest ← mergeRadix fuel (count - copied.length) (room - copied.length)
          (leftSmaller.drop copied.length) (lBlock :: l) (rBlock :: r)
        some { rest with rows := copied ++ rest.rows }
      | lBlock :: l, [] => do
        let copied := lBlock.take next
        let rest ← mergeRadix fuel (count - copied.length) (room - copied.length)
          (leftSmaller.drop copied.length) (lBlock.drop next :: l) []
        some { rest with rows := copied ++ rest.rows }
      | [], rBlock :: r => do
        let copied := rBlock.take next
        let rest ← mergeRadix fuel (count - copied.length) (room - copied.length)
          (leftSmaller.drop copied.length) [] (rBlock.drop next :: r)
        some { rest with rows := copied ++ rest.rows }
      | [], [] => none

/-- `Remaining`. -/
def remaining (blocks : List (List α)) : Nat := (blocks.map List.length).sum

/-- The merge loop of `MergePartition`: one vector of rows at a time. The array of comparison
results keeps its old content when the merge is not computed. -/
def mergePartition (key : α → K) (vectorSize capacity : Nat) :
    Nat → Nat → List Bool → List (List α) → List (List α) → Option (List α)
  | 0, _, _, _, _ => none
  | fuel + 1, written, leftSmaller, l, r =>
    if remaining l + remaining r = 0 then some []
    else do
      let next := min (remaining l + remaining r) vectorSize
      let steps := 2 * (l.length + r.length) + 1
      let leftSmaller := if remaining l ≠ 0 ∧ remaining r ≠ 0 then computeMerge key steps next l r
        else leftSmaller
      let copied ← mergeRadix steps next (capacity - written) leftSmaller l r
      let rest ← mergePartition key vectorSize capacity fuel (written + copied.rows.length)
        leftSmaller copied.left copied.right
      some (copied.rows ++ rest)

end PredTrans.Sort
