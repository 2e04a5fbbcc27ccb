import PredTrans.Library.SortedArray

/-! The four layouts of an inner node of the adaptive radix tree. A layout together with an array of
children is a map from bytes to children; a full layout grows into the next larger one and a sparse
one shrinks into the next smaller one. -/

namespace PredTrans.Index

open Library.SortedArray Function

/-- A key byte, `uint8_t`. -/
abbrev Byte := Fin 256

instance neZero_byte : NeZero 256 := ⟨by decide⟩

/-- What a child slot holds: `IndexPointer`, empty when it has no metadata. -/
class IndexPointer (α : Type) where
  clear : α
  hasMetadata : α → Bool
  hasMetadata_clear : hasMetadata clear = false

attribute [simp] IndexPointer.hasMetadata_clear

open IndexPointer

def node4Capacity : Nat := 4
def node16Capacity : Nat := 16
def node48Capacity : Nat := 48
def node48ShrinkThreshold : Nat := 12
def node256ShrinkThreshold : Nat := 36

/-- The index of a byte without a child in a Node48. -/
def emptyMarker : Nat := 48

/-- An inner node without its children: Node4 and Node16 hold a sorted key array, Node48 an
index of all bytes into its children, Node256 a child for every byte. -/
inductive Layout where
  | node4 (count : Nat) (key : Nat → Byte)
  | node16 (count : Nat) (key : Nat → Byte)
  | node48 (count : Nat) (childIndex : Byte → Nat)
  | node256 (count : Nat)

namespace Layout

variable {α : Type} [IndexPointer α]

/-- The position of the child at a byte, which `GetChild` returns a reference to. -/
def slot (layout : Layout) (children : Nat → α) (byte : Byte) : Option Nat :=
  match layout with
  | node4 count key => indexOf count key byte
  | node16 count key => indexOf count key byte
  | node48 _ childIndex =>
    if childIndex byte ≠ emptyMarker then some (childIndex byte) else none
  | node256 _ => if hasMetadata (children byte) then some byte.val else none

/-- `Node::GetChild` and `Node::GetChildMutable`. -/
def getChild (layout : Layout) (children : Nat → α) (byte : Byte) : Option α :=
  (layout.slot children byte).map children

/-- The bytes that have a child in a Node48, in the order of the index. -/
def node48Bytes (childIndex : Byte → Nat) : List Byte :=
  (List.finRange 256).filter fun i => decide (childIndex i ≠ emptyMarker)

/-- The bytes that have a child in a Node256. -/
def node256Bytes (children : Nat → α) : List Byte :=
  (List.finRange 256).filter fun i => hasMetadata (children i)

/-- `Node::GetNextChild`: the first byte from the given one on that has a child, with the
position of that child. -/
def getNextChild (layout : Layout) (children : Nat → α) (byte : Byte) : Option (Byte × Nat) :=
  match layout with
  | node4 count key => (nextIndex count key byte).map fun i => (key i, i)
  | node16 count key => (nextIndex count key byte).map fun i => (key i, i)
  | node48 _ childIndex =>
    ((node48Bytes childIndex).find? fun i => decide (byte ≤ i)).map fun i => (i, childIndex i)
  | node256 _ =>
    ((node256Bytes children).find? fun i => decide (byte ≤ i)).map fun i => (i, i.val)

/-- `Node::ReplaceChild`. -/
def replaceChild (layout : Layout) (children : Nat → α) (byte : Byte) (child : α) : Nat → α :=
  match layout with
  | node4 count key =>
    match indexOf count key byte with
    | some i => update children i child
    | none => children
  | node16 count key =>
    match indexOf count key byte with
    | some i => update children i child
    | none => children
  | node48 _ childIndex => update children (childIndex byte) child
  | node256 _ => update children byte.val child

/-- `Node4::ShrinkNode16`. -/
def shrinkNode16 (count : Nat) (key : Nat → Byte) : Layout := node4 count key

/-- The loop of `Node48::GrowNode16` that enters each key into the index. -/
def indexKeys (count : Nat) (key : Nat → Byte) : Byte → Nat :=
  (List.range count).foldl (fun index i => update index (key i) i) fun _ => emptyMarker

/-- `Node48::GrowNode16`: the index and the children; the slots behind the copied children are
cleared. -/
def growNode16 (count : Nat) (key : Nat → Byte) (children : Nat → α) :
    (Byte → Nat) × (Nat → α) :=
  (indexKeys count key, fun i => if i < count then children i else clear)

/-- `Node16::ShrinkNode48`. -/
def shrinkNode48 (childIndex : Byte → Nat) (children : Nat → α) : Layout × (Nat → α) :=
  let bytes := node48Bytes childIndex
  (node16 bytes.length fun i => bytes.getD i 0, fun i => children (childIndex (bytes.getD i 0)))

/-- `Node256::GrowNode48`. -/
def growNode48 (childIndex : Byte → Nat) (children : Nat → α) : Nat → α :=
  fun i => if h : i < 256 then
    if childIndex ⟨i, h⟩ ≠ emptyMarker then children (childIndex ⟨i, h⟩) else clear
  else clear

/-- `Node48::ShrinkNode256`. -/
def shrinkNode256 (children : Nat → α) : Layout × (Nat → α) :=
  let bytes := node256Bytes children
  (node48 bytes.length fun b => if hasMetadata (children b) then bytes.idxOf b else emptyMarker,
    fun i => if i < bytes.length then children (bytes.getD i 0).val else clear)

/-- `Node256::InsertChild`. -/
def node256InsertChild (count : Nat) (children : Nat → α) (byte : Byte) (child : α) :
    Layout × (Nat → α) :=
  (node256 (count + 1), update children byte.val child)

/-- The free slot that `Node48::InsertChild` takes: the one at the count, or the first one if a
deletion has left a child there. -/
def freeSlot (count : Nat) (children : Nat → α) : Nat :=
  if hasMetadata (children count) then
    ((List.range node48Capacity).find? fun i => !hasMetadata (children i)).getD node48Capacity
  else count

/-- `Node48::InsertChild`. -/
def node48InsertChild (count : Nat) (childIndex : Byte → Nat) (children : Nat → α) (byte : Byte)
    (child : α) : Layout × (Nat → α) :=
  if count < node48Capacity then
    (node48 (count + 1) (update childIndex byte (freeSlot count children)),
      update children (freeSlot count children) child)
  else node256InsertChild count (growNode48 childIndex children) byte child

/-- `Node16::InsertChild`. -/
def node16InsertChild (count : Nat) (key : Nat → Byte) (children : Nat → α) (byte : Byte)
    (child : α) : Layout × (Nat → α) :=
  if count < node16Capacity then
    (node16 (count + 1) (insertAt (position count key byte) byte key),
      insertAt (position count key byte) child children)
  else
    let grown := growNode16 count key children
    node48InsertChild count grown.1 grown.2 byte child

/-- `Node4::InsertChild`; `Node16::GrowNode4` copies the keys and the children as they are. -/
def node4InsertChild (count : Nat) (key : Nat → Byte) (children : Nat → α) (byte : Byte)
    (child : α) : Layout × (Nat → α) :=
  if count < node4Capacity then
    (node4 (count + 1) (insertAt (position count key byte) byte key),
      insertAt (position count key byte) child children)
  else node16InsertChild count key children byte child

/-- `Node::InsertChild`. -/
def insertChild (layout : Layout) (children : Nat → α) (byte : Byte) (child : α) :
    Layout × (Nat → α) :=
  match layout with
  | node4 count key => node4InsertChild count key children byte child
  | node16 count key => node16InsertChild count key children byte child
  | node48 count childIndex => node48InsertChild count childIndex children byte child
  | node256 count => node256InsertChild count children byte child

/-- `Node::DeleteChild`; that a Node4 with one child left is compressed into a prefix is up to the
tree. -/
def deleteChild (layout : Layout) (children : Nat → α) (byte : Byte) : Layout × (Nat → α) :=
  match layout with
  | node4 count key =>
    let childPos := (indexOf count key byte).getD count
    (node4 (count - 1) (removeAt childPos key), removeAt childPos children)
  | node16 count key =>
    let childPos := (indexOf count key byte).getD count
    if count - 1 < node4Capacity then
      (shrinkNode16 (count - 1) (removeAt childPos key), removeAt childPos children)
    else (node16 (count - 1) (removeAt childPos key), removeAt childPos children)
  | node48 count childIndex =>
    let children' := update children (childIndex byte) clear
    let childIndex' := update childIndex byte emptyMarker
    if count - 1 < node48ShrinkThreshold then shrinkNode48 childIndex' children'
    else (node48 (count - 1) childIndex', children')
  | node256 count =>
    let children' := update children byte.val clear
    if count - 1 ≤ node256ShrinkThreshold then shrinkNode256 children'
    else (node256 (count - 1), children')

end Layout

end PredTrans.Index
