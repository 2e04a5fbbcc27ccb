import PredTrans.Index.Art

/-! Range scans over the adaptive radix tree. The iterator keeps the path to its leaf as a stack of
nodes with the byte taken at each, and the key bytes along that path. -/

namespace PredTrans.Index

/-- `Iterator`; the top of the stack is the head of `nodes`. -/
structure Iterator where
  nodes : List (Node × Byte)
  currentKey : List Byte
  lastLeaf : Node

/-- `IteratorKey::operator>`, on the bytes of the other key. -/
def keyGreater : List Byte → List Byte → Bool
  | a :: as, b :: bs => if b < a then true else if a < b then false else keyGreater as bs
  | as, bs => decide (bs.length < as.length)

/-- `IteratorKey::operator>=`. -/
def keyGreaterEqual : List Byte → List Byte → Bool
  | a :: as, b :: bs => if b < a then true else if a < b then false else keyGreaterEqual as bs
  | as, bs => decide (bs.length ≤ as.length)

/-- `IteratorKey::operator==`, which compares as many bytes as the iterator has. -/
def keyEqual (currentKey : List Byte) (key : ArtKey) : Bool :=
  decide (currentKey = (List.range currentKey.length).map key.data)

namespace Iterator

/-- The iterator before the first search. -/
def initial : Iterator := ⟨[], [], .empty⟩

/-- The bytes of a node on the path are pushed, and the node itself. -/
def push (it : Iterator) (bytes : List Byte) (node : Node) (byte : Byte) : Iterator :=
  { it with nodes := (node, byte) :: it.nodes, currentKey := it.currentKey ++ bytes }

/-- `Iterator::FindMinimum`. -/
def findMinimum : Node → Iterator → Iterator
  | .empty, it => it
  | .leafInlined rowId, it => { it with lastLeaf := .leafInlined rowId }
  | .leaf segments, it => { it with lastLeaf := .leaf segments }
  | .prefixed data next, it => findMinimum next (it.push data (.prefixed data next) 0)
  | .inner layout children, it =>
    match layout.getNextChild children 0 with
    | some (byte, i) => findMinimum (children i) (it.push [byte] (.inner layout children) byte)
    | none => it

/-- The loop of `Iterator::Next`: nodes without a further child are popped with their bytes. -/
def nextLoop (lastLeaf : Node) : List (Node × Byte) → List Byte → Bool × Iterator
  | [], currentKey => (false, ⟨[], currentKey, lastLeaf⟩)
  | (.prefixed data _, _) :: rest, currentKey =>
    nextLoop lastLeaf rest (currentKey.take (currentKey.length - data.length))
  | (.inner layout children, byte) :: rest, currentKey =>
    if h : byte.val + 1 < 256 then
      match layout.getNextChild children ⟨byte.val + 1, h⟩ with
      | some (byte', i) =>
        (true, findMinimum (children i)
          ⟨(.inner layout children, byte') :: rest, currentKey.dropLast ++ [byte'], lastLeaf⟩)
      | none => nextLoop lastLeaf rest currentKey.dropLast
    else nextLoop lastLeaf rest currentKey.dropLast
  | _ :: rest, currentKey => nextLoop lastLeaf rest currentKey.dropLast

/-- `Iterator::Next`. -/
def next (it : Iterator) : Bool × Iterator := nextLoop it.lastLeaf it.nodes it.currentKey

/-- How a prefix node compares with the key from a depth on: the first byte that differs decides. -/
def compareData (key : ArtKey) : List Byte → Nat → Ordering
  | [], _ => .eq
  | byte :: data, depth =>
    if byte < key.data depth then .lt else if key.data depth < byte then .gt
    else compareData key data (depth + 1)

/-- `Iterator::LowerBound`. -/
def lowerBound (key : ArtKey) (equal : Bool) : Node → Nat → Iterator → Bool × Iterator
  | .empty, _, it => (false, it)
  | .leafInlined rowId, _, it =>
    if !equal && keyEqual it.currentKey key then it.next
    else (true, { it with lastLeaf := .leafInlined rowId })
  | .leaf segments, _, it =>
    if !equal && keyEqual it.currentKey key then it.next
    else (true, { it with lastLeaf := .leaf segments })
  | .inner layout children, depth, it =>
    match layout.getNextChild children (key.data depth) with
    | none => it.next
    | some (byte, i) =>
      if key.data depth < byte then
        (true, findMinimum (children i) (it.push [byte] (.inner layout children) byte))
      else lowerBound key equal (children i) (depth + 1)
        (it.push [byte] (.inner layout children) byte)
  | .prefixed data next, depth, it =>
    match compareData key data depth with
    | .lt => (it.push data (.prefixed data next) 0).next
    | .gt => (true, findMinimum next (it.push data (.prefixed data next) 0))
    | .eq => lowerBound key equal next (depth + data.length)
        (it.push data (.prefixed data next) 0)

/-- Whether the scan is past its upper bound; an empty bound is none. -/
def pastUpperBound (upperBound : ArtKey) (equal : Bool) (currentKey : List Byte) : Bool :=
  if upperBound.len = 0 then false
  else if equal then keyGreater currentKey upperBound.bytes
  else keyGreaterEqual currentKey upperBound.bytes

/-- `Iterator::Scan`. The fuel bounds the leaves visited; `none` means that it ran out. -/
def scan (upperBound : ArtKey) (maxCount : Nat) (equal : Bool) :
    Nat → Iterator → List RowId → Option (Bool × List RowId)
  | 0, _, _ => none
  | fuel + 1, it, resultIds =>
    if pastUpperBound upperBound equal it.currentKey then some (true, resultIds)
    else if maxCount < resultIds.length + it.lastLeaf.rowIds.length then some (false, resultIds)
    else
      let step := it.next
      if step.1 then scan upperBound maxCount equal fuel step.2 (resultIds ++ it.lastLeaf.rowIds)
      else some (true, resultIds ++ it.lastLeaf.rowIds)

end Iterator

open Iterator

/-- `ART::SearchGreater` with a fresh iterator. -/
def searchGreater (fuel : Nat) (tree : Node) (key : ArtKey) (equal : Bool) (maxCount : Nat) :
    Option (Bool × List RowId) :=
  if tree.isEmpty then some (true, [])
  else
    let found := lowerBound key equal tree 0 initial
    if found.1 then scan ⟨fun _ => 0, 0⟩ maxCount false fuel found.2 [] else some (true, [])

/-- `ART::SearchLess`. -/
def searchLess (fuel : Nat) (tree : Node) (upperBound : ArtKey) (equal : Bool) (maxCount : Nat) :
    Option (Bool × List RowId) :=
  if tree.isEmpty then some (true, [])
  else
    let it := findMinimum tree initial
    if keyGreater it.currentKey upperBound.bytes then some (true, [])
    else scan upperBound maxCount equal fuel it []

/-- `ART::SearchCloseRange`. -/
def searchCloseRange (fuel : Nat) (tree : Node) (lower upper : ArtKey) (leftEqual rightEqual : Bool)
    (maxCount : Nat) : Option (Bool × List RowId) :=
  let found := lowerBound lower leftEqual tree 0 initial
  if found.1 then scan upper maxCount rightEqual fuel found.2 [] else some (true, [])

end PredTrans.Index
