import PredTrans.Index.LayoutMap

/-!
The operations of `Node` on children are those of a finite map from bytes, whichever layout they
leave the node in.
-/

namespace PredTrans.Index.Layout

open Library.SortedArray IndexPointer Function Option
open List hiding lookup

variable {α : Type} [IndexPointer α]

theorem update_byte (f : Nat → β) (byte b : Byte) (x : β) :
    update f byte.val x b.val = if b = byte then x else f b.val := by
  simp [update_apply,Fin.ext_iff]

/-- A layout with its children is valid and stands for the map. -/
structure Holds (node : Layout × (Nat → α)) (map : Byte → Option α) : Prop where
  valid : Valid node.1 node.2
  getChild_eq : getChild node.1 node.2 = map

section Operations

variable {layout : Layout} {children : Nat → α} {byte : Byte} {child : α}

theorem hasMetadata_of_getChild (hvalid : Valid layout children)
    (h : getChild layout children byte = some child) : hasMetadata child = true := by
  have hsorted : ∀ {capacity n : Nat} {key : Nat → Byte}, Sorted capacity n key children →
      lookup n key children byte = some child → hasMetadata child = true := by
    intro capacity n key hs hl
    obtain ⟨i,hi,rfl⟩ := map_eq_some_iff.mp hl
    exact hs.occupied i (indexOf_spec hi).1
  cases layout with
  | node4 n key | node16 n key => exact hsorted hvalid h
  | node48 n childIndex =>
    obtain ⟨hne,rfl⟩ := getChild_node48_eq_some.mp h
    exact hvalid.occupied byte hne
  | node256 n =>
    obtain ⟨hocc,rfl⟩ := getChild_node256_eq_some.mp h
    exact hocc

/-- A child or an empty slot put at a byte of a Node256 changes the map there. -/
theorem getChild_node256_update (m n : Nat) (children : Nat → α) (byte : Byte) (x : α) :
    getChild (node256 m) (update children byte.val x) =
      update (getChild (node256 n) children) byte
        (if hasMetadata x then some x else none) := by
  funext b
  rw [getChild_node256,update_byte,update_apply]
  by_cases hb : b = byte
  · simp [hb]
  · simp [hb,getChild_node256]

theorem length_node256Bytes_update (children : Nat → α) (byte : Byte) (x : α) :
    (node256Bytes (update children byte.val x)).length +
        (hasMetadata (children byte)).toNat =
      (node256Bytes children).length + (hasMetadata x).toNat := by
  have hlen := length_filter_change
    (fun b : Byte => hasMetadata (update children byte.val x b.val))
    (fun b => hasMetadata (children b)) fun b hb => by rw [update_byte,if_neg hb]
  simpa [node256Bytes] using hlen

theorem node256InsertChild_holds (hvalid : Valid (node256 n) children)
    (habsent : getChild (node256 n) children byte = none) (hchild : hasMetadata child = true) :
    Holds (node256InsertChild n children byte child)
      (update (getChild (node256 n) children) byte (some child)) := by
  have hfree : hasMetadata (children byte) = false := by simpa [getChild_node256] using habsent
  have hlen := length_node256Bytes_update children byte child
  have hmap := getChild_node256_update (n + 1) n children byte child
  rw [hfree,hchild,show (node256Bytes children).length = n from hvalid] at hlen
  rw [if_pos hchild] at hmap
  exact ⟨hlen,hmap⟩

theorem node48InsertChild_holds (hvalid : Indexed n childIndex children)
    (habsent : getChild (node48 n childIndex) children byte = none)
    (hchild : hasMetadata child = true) :
    Holds (node48InsertChild n childIndex children byte child)
      (update (getChild (node48 n childIndex) children) byte (some child)) := by
  unfold node48InsertChild
  split
  case isTrue hroom =>
    obtain ⟨hlt,hfree⟩ := hvalid.freeSlot_spec hroom
    have hmarker : childIndex byte = emptyMarker := by simpa [getChild_node48] using habsent
    have hne : freeSlot n children ≠ emptyMarker := ne_of_lt hlt
    refine ⟨hvalid.insert hroom hmarker hlt hfree hchild,getChild_node48_update
      (fun b hb => update_of_ne hb _ _) (fun b _ hidx heq => ?_)
      (getChild_node48_eq_some.mpr (by simp [hne]))⟩
    have hocc := hvalid.occupied b hidx
    rw [heq,hfree] at hocc
    exact Bool.noConfusion hocc
  case isFalse =>
    have hgrown := getChild_growNode48 hvalid
    rw [← hgrown] at habsent ⊢
    exact node256InsertChild_holds (valid_growNode48 hvalid) habsent hchild

theorem node16InsertChild_holds (hvalid : Sorted node16Capacity n key children)
    (habsent : lookup n key children byte = none) (hchild : hasMetadata child = true) :
    Holds (node16InsertChild n key children byte child)
      (update (lookup n key children) byte (some child)) := by
  have hkeys := lookup_eq_none.mp habsent
  unfold node16InsertChild
  split
  case isTrue hroom =>
    exact ⟨hvalid.insert hroom hkeys hchild,lookup_insert hvalid.ascending hkeys children child⟩
  case isFalse =>
    have hgrown := getChild_growNode16 hvalid
    rw [← hgrown] at habsent ⊢
    exact node48InsertChild_holds (indexed_growNode16 hvalid) habsent hchild

/-- A new child changes the map at its byte, also where the node grows. -/
theorem insertChild_holds (hvalid : Valid layout children)
    (habsent : getChild layout children byte = none) (hchild : hasMetadata child = true) :
    Holds (insertChild layout children byte child)
      (update (getChild layout children) byte (some child)) := by
  cases layout with
  | node4 n key =>
    have hkeys := lookup_eq_none.mp habsent
    show Holds (node4InsertChild n key children byte child) _
    unfold node4InsertChild
    split
    case isTrue hroom =>
      exact ⟨Sorted.insert hvalid hroom hkeys hchild,
        lookup_insert (Sorted.ascending hvalid) hkeys children child⟩
    case isFalse =>
      have hcap : n ≤ 4 := Sorted.count_le hvalid
      exact node16InsertChild_holds (Sorted.mono hvalid (show n ≤ 16 by omega)) habsent hchild
  | node16 n key => exact node16InsertChild_holds hvalid habsent hchild
  | node48 n childIndex => exact node48InsertChild_holds hvalid habsent hchild
  | node256 n => exact node256InsertChild_holds hvalid habsent hchild

theorem node256_delete_holds (hvalid : Valid (node256 (n + 1)) children)
    (hpresent : getChild (node256 (n + 1)) children byte = some child) :
    Holds (node256 n, update children byte.val clear)
      (update (getChild (node256 (n + 1)) children) byte none) := by
  obtain ⟨hocc,-⟩ := getChild_node256_eq_some.mp hpresent
  have hlen := length_node256Bytes_update children byte clear
  have hmap := getChild_node256_update n (n + 1) children byte clear
  rw [hocc,hasMetadata_clear,show (node256Bytes children).length = n + 1 from hvalid] at hlen
  rw [hasMetadata_clear,if_neg Bool.false_ne_true] at hmap
  exact ⟨Nat.succ.inj hlen,hmap⟩

theorem node48_delete_holds (hvalid : Indexed (n + 1) childIndex children)
    (hpresent : getChild (node48 (n + 1) childIndex) children byte = some child) :
    Holds (node48 n (update childIndex byte emptyMarker),
        update children (childIndex byte) clear)
      (update (getChild (node48 (n + 1) childIndex) children) byte none) := by
  obtain ⟨hne,-⟩ := getChild_node48_eq_some.mp hpresent
  exact ⟨hvalid.remove hne,getChild_node48_update (fun b hb => update_of_ne hb _ _)
    (fun b hb hidx heq => hb (hvalid.inj b byte hidx heq)) (by simp [getChild_node48])⟩

theorem sorted_delete_holds (hvalid : Sorted capacity (n + 1) key children)
    (hpresent : lookup (n + 1) key children byte = some child) :
    Sorted capacity n (removeAt ((indexOf (n + 1) key byte).getD (n + 1)) key)
        (removeAt ((indexOf (n + 1) key byte).getD (n + 1)) children) ∧
      lookup n (removeAt ((indexOf (n + 1) key byte).getD (n + 1)) key)
          (removeAt ((indexOf (n + 1) key byte).getD (n + 1)) children) =
        update (lookup (n + 1) key children) byte none := by
  obtain ⟨p,hp,_⟩ := map_eq_some_iff.mp hpresent
  obtain ⟨hlt,rfl⟩ := indexOf_spec hp
  rw [hp,getD_some]
  exact ⟨hvalid.remove p,lookup_remove hvalid.ascending hlt children⟩

theorem count_insertChild (layout : Layout) (children : Nat → α) (byte : Byte) (child : α) :
    (insertChild layout children byte child).1.count = layout.count + 1 := by
  have h48 : ∀ n childIndex (children : Nat → α),
      (node48InsertChild n childIndex children byte child).1.count = n + 1 := by
    intro n childIndex children
    unfold node48InsertChild
    split <;> rfl
  have h16 : ∀ n key, (node16InsertChild n key children byte child).1.count = n + 1 := by
    intro n key
    unfold node16InsertChild
    split
    · rfl
    · exact h48 _ _ _
  cases layout with
  | node4 n key =>
    show (node4InsertChild n key children byte child).1.count = n + 1
    unfold node4InsertChild
    split
    · rfl
    · exact h16 n key
  | node16 n key => exact h16 n key
  | node48 n childIndex => exact h48 n childIndex children
  | node256 n => rfl

/-- A layout grows only when it has more children than the next one shrinks at. -/
theorem minCount_insertChild (layout : Layout) (children : Nat → α) (byte : Byte) (child : α)
    (h : layout.minCount ≤ layout.count + 1) :
    (insertChild layout children byte child).1.minCount ≤ layout.count + 1 := by
  have h48 : ∀ n childIndex (children : Nat → α), 12 ≤ n + 1 →
      (node48InsertChild n childIndex children byte child).1.minCount ≤ n + 1 := by
    intro n childIndex children hn
    unfold node48InsertChild
    split
    · exact hn
    case isFalse hfull =>
      have hfull' : 48 ≤ n := not_lt.mp hfull
      show 37 ≤ n + 1
      omega
  have h16 : ∀ n key, 4 ≤ n + 1 →
      (node16InsertChild n key children byte child).1.minCount ≤ n + 1 := by
    intro n key hn
    unfold node16InsertChild
    split
    · exact hn
    case isFalse hfull =>
      have hfull' : 16 ≤ n := not_lt.mp hfull
      exact h48 _ _ _ (by omega)
  cases layout with
  | node4 n key =>
    show (node4InsertChild n key children byte child).1.minCount ≤ n + 1
    unfold node4InsertChild
    split
    · exact h
    case isFalse hfull =>
      have hfull' : 4 ≤ n := not_lt.mp hfull
      exact h16 n key (by omega)
  | node16 n key => exact h16 n key h
  | node48 n childIndex => exact h48 n childIndex children h
  | node256 n => exact h

section

variable (hvalid : Valid layout children)
include hvalid

theorem count_pos_of_getChild (h : getChild layout children byte = some child) :
    0 < layout.count := by
  have hsorted : ∀ {n : Nat} {key : Nat → Byte}, lookup n key children byte = some child →
      0 < n := by
    intro n key hl
    obtain ⟨i,hi,_⟩ := map_eq_some_iff.mp hl
    exact Nat.zero_lt_of_lt (indexOf_spec hi).1
  cases layout with
  | node4 n key | node16 n key => exact hsorted h
  | node48 n childIndex =>
    rw [← hvalid.count_eq]
    exact length_pos_of_mem (mem_node48Bytes.mpr (getChild_node48_eq_some.mp h).1)
  | node256 n =>
    rw [← show (node256Bytes children).length = n from hvalid]
    exact length_pos_of_mem (mem_node256Bytes.mpr (getChild_node256_eq_some.mp h).1)

theorem count_eq_succ_of_getChild (h : getChild layout children byte = some child) :
    ∃ n, layout.count = n + 1 :=
  ⟨_,(Nat.succ_pred_eq_of_pos (count_pos_of_getChild hvalid h)).symm⟩

/-- A deleted child changes the map at its byte, also where the node shrinks. -/
theorem deleteChild_holds (hpresent : getChild layout children byte = some child) :
    Holds (deleteChild layout children byte)
      (update (getChild layout children) byte none) := by
  obtain ⟨m,hcount⟩ := count_eq_succ_of_getChild hvalid hpresent
  cases layout with
  | node4 n key =>
    obtain rfl : n = m + 1 := hcount
    obtain ⟨hs,hl⟩ := sorted_delete_holds hvalid hpresent
    exact ⟨hs,hl⟩
  | node16 n key =>
    obtain rfl : n = m + 1 := hcount
    obtain ⟨hs,hl⟩ := sorted_delete_holds hvalid hpresent
    unfold deleteChild
    dsimp only
    split
    case isTrue hfew => exact ⟨hs.mono hfew.le,hl⟩
    case isFalse => exact ⟨hs,hl⟩
  | node48 n childIndex =>
    obtain rfl : n = m + 1 := hcount
    have hdel := node48_delete_holds hvalid hpresent
    unfold deleteChild
    dsimp only
    split
    case isTrue hfew =>
      have hm : m < 12 := hfew
      refine ⟨sorted_shrinkNode48 hdel.valid (show m ≤ 16 by omega),?_⟩
      rw [getChild_shrinkNode48 m]
      exact hdel.getChild_eq
    case isFalse => exact hdel
  | node256 n =>
    obtain rfl : n = m + 1 := hcount
    have hdel := node256_delete_holds hvalid hpresent
    unfold deleteChild
    dsimp only
    split
    case isTrue hfew =>
      have hm : m ≤ 48 := le_trans hfew (by decide)
      refine ⟨indexed_shrinkNode256 hdel.valid hm,?_⟩
      rw [getChild_shrinkNode256 m (le_trans (le_of_eq hdel.valid) hm)]
      exact hdel.getChild_eq
    case isFalse => exact hdel

theorem replaceChild_holds (hpresent : getChild layout children byte = some old)
    (hchild : hasMetadata child = true) :
    Holds (layout, replaceChild layout children byte child)
      (update (getChild layout children) byte (some child)) := by
  cases layout with
  | node4 n key | node16 n key =>
    obtain ⟨p,hp,_⟩ := map_eq_some_iff.mp hpresent
    simp only [replaceChild,show indexOf n key byte = _ from hp]
    exact ⟨Sorted.replace hvalid p hchild,lookup_replace hp children child⟩
  | node48 n childIndex =>
    obtain ⟨hne,-⟩ := getChild_node48_eq_some.mp hpresent
    exact ⟨Indexed.replace hvalid byte hchild,getChild_node48_update (fun _ _ => rfl)
      (fun b hb hidx heq => hb (Indexed.inj hvalid b byte hidx heq))
      (getChild_node48_eq_some.mpr (by simp [hne]))⟩
  | node256 n =>
    obtain ⟨hocc,-⟩ := getChild_node256_eq_some.mp hpresent
    have hlen := length_node256Bytes_update children byte child
    have hmap := getChild_node256_update n n children byte child
    rw [hocc,hchild,show (node256Bytes children).length = n from hvalid] at hlen
    rw [if_pos hchild] at hmap
    exact ⟨Nat.succ.inj hlen,hmap⟩

theorem count_deleteChild (hpresent : getChild layout children byte = some old) :
    (deleteChild layout children byte).1.count + 1 = layout.count := by
  obtain ⟨m,hcount⟩ := count_eq_succ_of_getChild hvalid hpresent
  cases layout with
  | node4 n key =>
    obtain rfl : n = m + 1 := hcount
    rfl
  | node16 n key =>
    obtain rfl : n = m + 1 := hcount
    unfold deleteChild
    dsimp only
    split <;> rfl
  | node48 n childIndex =>
    obtain rfl : n = m + 1 := hcount
    unfold deleteChild
    dsimp only
    split
    · exact congrArg (· + 1) (node48_delete_holds hvalid hpresent).valid.count_eq
    · rfl
  | node256 n =>
    obtain rfl : n = m + 1 := hcount
    unfold deleteChild
    dsimp only
    split
    · exact congrArg (· + 1) (node256_delete_holds hvalid hpresent).valid
    · rfl

theorem minCount_deleteChild (hpresent : getChild layout children byte = some old)
    (hmin : layout.minCount ≤ layout.count) (hnode4 : ∀ n key, layout ≠ node4 n key) :
    (deleteChild layout children byte).1.minCount ≤ (deleteChild layout children byte).1.count := by
  have hcount := count_deleteChild hvalid hpresent
  cases layout with
  | node4 n key => exact absurd rfl (hnode4 n key)
  | node16 n key =>
    have hmin' : 4 ≤ n := hmin
    unfold deleteChild
    dsimp only
    split
    · show 2 ≤ n - 1
      omega
    case isFalse hmany => exact not_lt.mp hmany
  | node48 n childIndex =>
    have hmin' : 12 ≤ n := hmin
    have hn : _ + 1 = n := hcount
    unfold deleteChild at hn ⊢
    dsimp only at hn ⊢
    split_ifs at hn ⊢ with hfew
    · show 4 ≤ _
      omega
    · exact not_lt.mp hfew
  | node256 n =>
    have hmin' : 37 ≤ n := hmin
    have hn : _ + 1 = n := hcount
    unfold deleteChild at hn ⊢
    dsimp only at hn ⊢
    split_ifs at hn ⊢ with hfew
    · show 12 ≤ _
      omega
    · exact Nat.succ_le_of_lt (not_le.mp hfew)

/-- A layout with children has a byte that leads to one. -/
theorem exists_getChild (hpos : 0 < layout.count) : ∃ b c, getChild layout children b = some c := by
  have hsorted : ∀ {capacity n : Nat} {key : Nat → Byte}, Sorted capacity n key children →
      0 < n → ∃ b c, lookup n key children b = some c := by
    intro capacity n key hs hn
    have hidx : indexOf n key (key 0) = some 0 := hs.ascending.indexOf_eq_some.mpr ⟨hn,rfl⟩
    exact ⟨key 0,children 0,by simp [lookup,hidx]⟩
  cases layout with
  | node4 n key | node16 n key => exact hsorted hvalid hpos
  | node48 n childIndex =>
    obtain ⟨b,hb⟩ := length_pos_iff_exists_mem.mp
      (show 0 < (node48Bytes childIndex).length by rw [hvalid.count_eq]; exact hpos)
    refine ⟨b,children (childIndex b),?_⟩
    simp [getChild_node48,mem_node48Bytes.mp hb]
  | node256 n =>
    obtain ⟨b,hb⟩ := length_pos_iff_exists_mem.mp
      (show 0 < (node256Bytes children).length by
        rw [show (node256Bytes children).length = n from hvalid]; exact hpos)
    refine ⟨b,children b,?_⟩
    simp [getChild_node256,mem_node256Bytes.mp hb]

end

theorem find_ascending {bytes : List Byte} (h : bytes.Pairwise (· < ·))
    (hb : bytes.find? (fun i => decide (byte ≤ i)) = some b) :
    b ∈ bytes ∧ byte ≤ b ∧ ∀ x ∈ bytes, byte ≤ x → b ≤ x := by
  obtain ⟨hle,before,after,rfl,hbefore⟩ := find?_eq_some_iff_append.mp hb
  refine ⟨by simp,of_decide_eq_true hle,?_⟩
  intro x hx hbx
  rcases mem_append.mp hx with hx | hx
  · have := hbefore x hx
    simp only [Bool.not_eq_true',decide_eq_false_iff_not] at this
    exact absurd hbx this
  · rcases mem_cons.mp hx with rfl | hx
    · exact le_rfl
    · exact le_of_lt ((pairwise_cons.mp (pairwise_append.mp h).2.1).1 x hx)

theorem slot_node48 (n : Nat) (childIndex : Byte → Nat) (children : Nat → α) (x : Byte) :
    slot (node48 n childIndex) children x =
      if x ∈ node48Bytes childIndex then some (childIndex x) else none := by
  simp [slot,mem_node48Bytes]

theorem slot_node256 (n : Nat) (children : Nat → α) (x : Byte) :
    slot (node256 n) children x =
      if x ∈ node256Bytes children then some x.val else none := by
  simp [slot,mem_node256Bytes]

theorem find_next {bytes : List Byte} (h : bytes.Pairwise (· < ·)) {f : Byte → Nat}
    {slot : Byte → Option Nat}
    (hslot : ∀ x, slot x = if x ∈ bytes then some (f x) else none)
    (hb : (bytes.find? (fun i => decide (byte ≤ i))).map (fun i => (i, f i)) = some (b, i)) :
    byte ≤ b ∧ slot b = some i ∧ ∀ x, byte ≤ x → x < b → slot x = none := by
  obtain ⟨j,hj,heq⟩ := map_eq_some_iff.mp hb
  obtain ⟨rfl,rfl⟩ := Prod.mk.inj heq
  obtain ⟨hmem,hle,hmin⟩ := find_ascending h hj
  refine ⟨hle,by rw [hslot,if_pos hmem],?_⟩
  intro x hx hxb
  rw [hslot,if_neg fun hm => absurd (hmin x hm hx) (not_le_of_gt hxb)]

theorem getNextChild_some (hvalid : Valid layout children) {b : Byte}
    (h : getNextChild layout children byte = some (b, i)) :
    byte ≤ b ∧ slot layout children b = some i ∧
      ∀ x, byte ≤ x → x < b → slot layout children x = none := by
  have hsorted : ∀ {capacity n : Nat} {key : Nat → Byte}, Sorted capacity n key children →
      (nextIndex n key byte).map (fun i => (key i, i)) = some (b, i) →
      byte ≤ b ∧ indexOf n key b = some i ∧ ∀ x, byte ≤ x → x < b → indexOf n key x = none := by
    intro capacity n key hs hnext
    obtain ⟨j,hj,heq⟩ := map_eq_some_iff.mp hnext
    obtain ⟨rfl,rfl⟩ := Prod.mk.inj heq
    obtain ⟨hlt,hle,hmin⟩ := hs.ascending.nextIndex_spec hj
    refine ⟨hle,hs.ascending.indexOf_eq_some.mpr ⟨hlt,rfl⟩,?_⟩
    intro x hx hxb
    apply indexOf_eq_none.mpr
    intro k hk heq
    subst heq
    exact absurd (hmin k hk hx) (not_le_of_gt hxb)
  cases layout with
  | node4 n key | node16 n key => exact hsorted hvalid h
  | node48 n childIndex =>
    exact find_next (pairwise_node48Bytes childIndex) (slot_node48 n childIndex children) h
  | node256 n => exact find_next (pairwise_node256Bytes children) (slot_node256 n children) h

theorem getNextChild_none (h : getNextChild layout children byte = none) (hx : byte ≤ x) :
    slot layout children x = none := by
  have hsorted : ∀ {n : Nat} {key : Nat → Byte},
      (nextIndex n key byte).map (fun i => (key i, i)) = none → indexOf n key x = none := by
    intro n key hnext
    have hall := nextIndex_eq_none.mp (map_eq_none_iff.mp hnext)
    apply indexOf_eq_none.mpr
    intro i hi heq
    exact absurd (heq ▸ hall i hi) (not_lt_of_ge hx)
  cases layout with
  | node4 n key | node16 n key => exact hsorted h
  | node48 n childIndex =>
    have hall := find?_eq_none.mp (map_eq_none_iff.mp h)
    rw [slot_node48,if_neg fun hm => hall x hm (decide_eq_true hx)]
  | node256 n =>
    have hall := find?_eq_none.mp (map_eq_none_iff.mp h)
    rw [slot_node256,if_neg fun hm => hall x hm (decide_eq_true hx)]

end Operations

end PredTrans.Index.Layout
