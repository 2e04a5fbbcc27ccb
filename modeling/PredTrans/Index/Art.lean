import PredTrans.Index.Layout

/-! The adaptive radix tree. A `Node` is the tree that a node pointer leads to; what the source does
through a mutable pointer returns the new tree. Chains of leaf segments are lists, prefix nodes are
single nodes as in the source. -/

namespace PredTrans.Index

/-- A key: `data` may be read behind `len` too, as `operator[]` does not check. -/
structure ArtKey where
  data : Nat → Byte
  len : Nat

/-- The key of a byte string. -/
def ArtKey.ofBytes (bytes : List Byte) : ArtKey := ⟨fun i => bytes.getD i 0, bytes.length⟩

/-- The bytes of a key from a depth on. -/
def ArtKey.suffix (key : ArtKey) (depth : Nat) : List Byte :=
  ((List.range key.len).map key.data).drop depth

/-- The bytes of a key. -/
def ArtKey.bytes (key : ArtKey) : List Byte := key.suffix 0

/-- A row id; `Leaf::New` asserts that it is below `MAX_ROW_ID_LOCAL`, so that it fits into the
pointer of an inlined leaf. -/
abbrev RowId := Fin 72057594037927936

instance neZero_rowId : NeZero 72057594037927936 := ⟨by decide⟩

def prefixSize : Nat := 15
def leafSize : Nat := 4

inductive Node where
  | empty
  | prefixed (data : List Byte) (next : Node)
  | leafInlined (rowId : RowId)
  | leaf (segments : List (List RowId))
  | inner (layout : Layout) (children : Nat → Node)

namespace Node

def isEmpty : Node → Bool
  | empty => true
  | _ => false

instance : IndexPointer Node := ⟨empty, fun node => !node.isEmpty, rfl⟩

/-- `Leaf::Append` at the tail of the chain: a full segment gets a successor. -/
def leafAppend : List (List RowId) → RowId → List (List RowId)
  | [], rowId => [[rowId]]
  | [tail], rowId => if tail.length = leafSize then [tail, [rowId]] else [tail ++ [rowId]]
  | segment :: next :: rest, rowId => segment :: leafAppend (next :: rest) rowId

/-- `Leaf::Insert`; an inlined row id is first moved into a segment of its own. -/
def leafInsert : Node → RowId → Node
  | leafInlined first, rowId => leaf (leafAppend [[first]] rowId)
  | leaf segments, rowId => leaf (leafAppend segments rowId)
  | node, _ => node

/-- The last loop of `Leaf::Remove`: the first occurrence of the row id is overwritten. -/
def overwrite : List (List RowId) → RowId → RowId → List (List RowId)
  | [], _, _ => []
  | segment :: rest, rowId, last =>
    if rowId ∈ segment then segment.replace rowId last :: rest
    else segment :: overwrite rest rowId last

/-- Frees the segment behind the last but one. -/
def freeTail : List (List RowId) → List (List RowId)
  | [] => []
  | [segment] => [segment]
  | segments => segments.dropLast

/-- `Leaf::Remove` on a chain of segments. The last slot is given up before the row id is looked
for, whether it is found or not. -/
def segmentsRemove (segments : List (List RowId)) (rowId : RowId) : Node :=
  match segments with
  | [first, second] :: _ =>
    if first = rowId ∨ second = rowId then
      leafInlined (if first = rowId then second else first)
    else leaf segments
  | _ =>
    let tail := segments.getLastD []
    let lastRowId := tail.getLastD 0
    if tail.length = 1 then
      if lastRowId = rowId then leaf (freeTail segments)
      else leaf (overwrite (freeTail segments) rowId lastRowId)
    else leaf (overwrite (segments.dropLast ++ [tail.dropLast]) rowId lastRowId)

/-- `Leaf::Remove`: whether the leaf is to be freed, and what it becomes otherwise. -/
def leafRemove : Node → RowId → Bool × Node
  | leafInlined first, rowId => (decide (first = rowId), leafInlined first)
  | leaf segments, rowId => (false, segmentsRemove segments rowId)
  | node, _ => (false, node)

/-- The row ids that `Leaf::GetRowIds` pushes. -/
def rowIds : Node → List RowId
  | leafInlined rowId => [rowId]
  | leaf segments => segments.flatten
  | _ => []

def isLeaf : Node → Bool
  | leafInlined _ => true
  | leaf _ => true
  | _ => false

/-- The loop of `Prefix::New` over the key bytes; the chain ends in `next`. -/
def prefixChain : Nat → List Byte → Node → Node
  | 0, _, next => next
  | _ + 1, [], next => next
  | fuel + 1, byte :: bytes, next =>
    prefixed ((byte :: bytes).take prefixSize)
      (prefixChain fuel ((byte :: bytes).drop prefixSize) next)

/-- `Prefix::New` for `count` bytes of the key from `depth` on. -/
def prefixNew (key : ArtKey) (depth count : Nat) (next : Node) : Node :=
  prefixChain count ((List.range count).map fun i => key.data (depth + i)) next

/-- The comparison loop of `Prefix::Traverse` on one prefix node: the first position where it
differs from the key. -/
def mismatch (key : ArtKey) : List Byte → Nat → Option Nat
  | [], _ => none
  | byte :: data, depth =>
    if byte ≠ key.data depth then some 0 else (mismatch key data (depth + 1)).map (· + 1)

/-- `Prefix::TraverseMutable`: nothing at a mismatch, else the prefix nodes that were passed, the
node behind them and its depth. -/
def traverse (key : ArtKey) : Node → Nat → Option (List (List Byte) × Node × Nat)
  | prefixed data next, depth =>
    match mismatch key data depth with
    | some _ => none
    | none => (traverse key next (depth + data.length)).map fun r => (data :: r.1, r.2)
  | node, depth => some ([], node, depth)

/-- The tree behind a chain of prefix nodes. -/
def wrap (chain : List (List Byte)) (node : Node) : Node := chain.foldr prefixed node

/-- `Prefix::Append` of one byte after the other to a prefix node that holds `data`; `next` comes
behind the last byte. -/
def appendBytes : List Byte → List Byte → Node → Node
  | data, [], next => prefixed data next
  | data, byte :: bytes, next =>
    if data.length = prefixSize then prefixed data (appendBytes [byte] bytes next)
    else appendBytes (data ++ [byte]) bytes next

/-- All bytes of a chain of prefix nodes. -/
def chainBytes : Node → List Byte
  | prefixed data next => data ++ chainBytes next
  | _ => []

/-- The node behind a chain of prefix nodes. -/
def chainEnd : Node → Node
  | prefixed _ next => chainEnd next
  | node => node

/-- `Prefix::Concatenate`: the byte and the prefix of the child go to the end of the chain, or
into a new prefix node where there is none. -/
def concatenate (chain : List (List Byte)) (byte : Byte) (child : Node) : Node :=
  match chain.getLast? with
  | some tail => wrap chain.dropLast (appendBytes tail (byte :: chainBytes child) (chainEnd child))
  | none => appendBytes [byte] (chainBytes child) (chainEnd child)

/-- `Prefix::Split`: the bytes left before the split and the node behind it. -/
def split (data : List Byte) (next : Node) (position : Nat) : List Byte × Node :=
  if position + 1 = prefixSize then (data.dropLast, next)
  else if position + 1 < data.length then
    (data.take position,
      appendBytes [] (data.drop (position + 1) ++ chainBytes next) (chainEnd next))
  else (data.take position, next)

/-- `ART::Lookup`; the loop over prefix nodes is part of the descent. -/
def lookup (key : ArtKey) : Node → Nat → Option Node
  | empty, _ => none
  | prefixed data next, depth =>
    match mismatch key data depth with
    | some _ => none
    | none => lookup key next (depth + data.length)
  | leafInlined rowId, _ => some (leafInlined rowId)
  | leaf segments, _ => some (leaf segments)
  | inner layout children, depth =>
    match layout.slot children (key.data depth) with
    | some i => lookup key (children i) (depth + 1)
    | none => none

/-- A new leaf below a node that has consumed `depth` bytes of the key. -/
def newLeaf (key : ArtKey) (depth : Nat) (rowId : RowId) : Node :=
  if depth < key.len then prefixNew key depth (key.len - depth) (leafInlined rowId)
  else leafInlined rowId

/-- `ART::InsertToLeaf`. -/
def insertToLeaf (unique : Bool) (node : Node) (rowId : RowId) : Bool × Node :=
  if unique then (false, node) else (true, leafInsert node rowId)

/-- The Node4 that `ART::Insert` puts where the key leaves a prefix. -/
def twoChildren (byte : Byte) (child : Node) (byte' : Byte) (child' : Node) : Node :=
  let one := (Layout.node4 0 fun _ => 0).insertChild (fun _ => empty) byte child
  let two := one.1.insertChild one.2 byte' child'
  inner two.1 two.2

/-- The tree after a split; no prefix node stays where no byte is left before the split. -/
def afterSplit (before : List Byte) (node : Node) : Node :=
  if before = [] then node else prefixed before node

/-- `ART::Insert` for one row id: whether it succeeded, and the new tree. -/
def insert (unique : Bool) (key : ArtKey) (rowId : RowId) : Node → Nat → Bool × Node
  | empty, depth => (true, prefixNew key depth (key.len - depth) (leafInlined rowId))
  | leafInlined first, _ => insertToLeaf unique (leafInlined first) rowId
  | leaf segments, _ => insertToLeaf unique (leaf segments) rowId
  | inner layout children, depth =>
    match layout.slot children (key.data depth) with
    | some i =>
      let result := insert unique key rowId (children i) (depth + 1)
      (result.1, inner layout (layout.replaceChild children (key.data depth) result.2))
    | none =>
      let grown := layout.insertChild children (key.data depth) (newLeaf key (depth + 1) rowId)
      (true, inner grown.1 grown.2)
  | prefixed data next, depth =>
    match mismatch key data depth with
    | none =>
      let result := insert unique key rowId next (depth + data.length)
      (result.1, prefixed data result.2)
    | some position =>
      let parts := split data next position
      (true, afterSplit parts.1 (twoChildren (data.getD position 0) parts.2
        (key.data (depth + position)) (newLeaf key (depth + position + 1) rowId)))

/-- `Node::DeleteChild` behind a chain of prefix nodes: a Node4 with one child left is merged
into the prefix. -/
def deleteChild (chain : List (List Byte)) (layout : Layout) (children : Nat → Node)
    (byte : Byte) : Node :=
  match layout, layout.deleteChild children byte with
  | .node4 _ _, (.node4 1 key, rest) => concatenate chain (key 0) (rest 0)
  | _, shrunk => wrap chain (inner shrunk.1 shrunk.2)

/-- `ART::Erase`. `chain` holds the prefix nodes between the node it was called on and the one it
is at. -/
def erase (key : ArtKey) (rowId : RowId) (chain : List (List Byte)) : Node → Nat → Node
  | empty, _ => wrap chain empty
  | prefixed data next, depth =>
    match mismatch key data depth with
    | some _ => wrap chain (prefixed data next)
    | none => erase key rowId (chain ++ [data]) next (depth + data.length)
  | leafInlined first, _ =>
    let removed := leafRemove (leafInlined first) rowId
    if removed.1 then empty else wrap chain removed.2
  | leaf segments, _ =>
    let removed := leafRemove (leaf segments) rowId
    if removed.1 then empty else wrap chain removed.2
  | inner layout children, depth =>
    match layout.slot children (key.data depth) with
    | none => wrap chain (inner layout children)
    | some i =>
      match traverse key (children i) (depth + 1) with
      | none => wrap chain (inner layout children)
      | some (passed, reached, _) =>
        if reached.isLeaf then
          let removed := leafRemove reached rowId
          if removed.1 then deleteChild chain layout children (key.data depth)
          else wrap chain (inner layout
            (layout.replaceChild children (key.data depth) (wrap passed removed.2)))
        else wrap chain (inner layout (layout.replaceChild children (key.data depth)
          (erase key rowId [] (children i) (depth + 1))))

end Node

/-- A key with its row id. -/
abbrev IndexRow := ArtKey × RowId

/-- The loop of `ART::Insert` over a chunk; the index of the row that violates the constraint
stops it. Rows with an empty key are skipped. -/
def insertRows (unique : Bool) : Node → List IndexRow → Node × Option Nat
  | tree, [] => (tree, none)
  | tree, (key, rowId) :: rest =>
    if key.len = 0 then
      let result := insertRows unique tree rest
      (result.1, result.2.map (· + 1))
    else
      let inserted := tree.insert unique key rowId 0
      if inserted.1 then
        let result := insertRows unique inserted.2 rest
        (result.1, result.2.map (· + 1))
      else (inserted.2, some 0)

/-- The loop of `ART::Delete`, which also undoes a failed insertion. -/
def eraseRows (tree : Node) (rows : List IndexRow) : Node :=
  rows.foldl
    (fun tree row => if row.1.len = 0 then tree else tree.erase row.1 row.2 [] 0) tree

/-- `ART::Insert` for a chunk: the tree, and the row of the constraint error if there is one. -/
def artInsert (unique : Bool) (tree : Node) (rows : List IndexRow) : Node × Option Nat :=
  match insertRows unique tree rows with
  | (tree', none) => (tree', none)
  | (tree', some failedIndex) => (eraseRows tree' (rows.take failedIndex), some failedIndex)

end PredTrans.Index
