import PredTrans.Index.Layout

/-!
The four layouts implement one finite map from bytes to children: inserting, deleting and
replacing a child change the map at one byte only, also where the layout grows or shrinks.
-/

namespace PredTrans.Index.Layout

open Library.SortedArray IndexPointer List Function

variable {α : Type} [IndexPointer α]

/-- A Node4 or Node16: ascending keys, as many children, not more than the capacity. -/
structure Sorted (capacity count : Nat) (key : Nat → Byte) (children : Nat → α) : Prop where
  count_le : count ≤ capacity
  ascending : Ascending count key
  occupied : ∀ i < count, hasMetadata (children i) = true

/-- A Node48: the index maps the bytes in use to different slots, and no other slot is in use. -/
structure Indexed (count : Nat) (childIndex : Byte → Nat) (children : Nat → α) : Prop where
  count_eq : (node48Bytes childIndex).length = count
  count_le : count ≤ node48Capacity
  index_lt : ∀ b, childIndex b ≠ emptyMarker → childIndex b < node48Capacity
  inj : ∀ a b, childIndex a ≠ emptyMarker → childIndex a = childIndex b → a = b
  occupied : ∀ b, childIndex b ≠ emptyMarker → hasMetadata (children (childIndex b)) = true
  cleared : ∀ i < node48Capacity, hasMetadata (children i) = true → ∃ b, childIndex b = i

/-- The layout fits its children. -/
def Valid : Layout → (Nat → α) → Prop
  | node4 count key, children => Sorted node4Capacity count key children
  | node16 count key, children => Sorted node16Capacity count key children
  | node48 count childIndex, children => Indexed count childIndex children
  | node256 count, children => (node256Bytes children).length = count

def count : Layout → Nat
  | node4 count _ => count
  | node16 count _ => count
  | node48 count _ => count
  | node256 count => count

/-- The number of children below which a layout is never left: a smaller one takes its place. -/
def minCount : Layout → Nat
  | node4 _ _ => 2
  | node16 _ _ => node4Capacity
  | node48 _ _ => node48ShrinkThreshold
  | node256 _ => node256ShrinkThreshold + 1

theorem length_eq_of_mem_iff {l m : List β} (hl : l.Nodup) (hm : m.Nodup) (h : ∀ x, x ∈ l ↔ x ∈ m) :
    l.length = m.length :=
  ((perm_ext_iff_of_nodup hl hm).mpr h).length_eq

theorem mem_node48Bytes : b ∈ node48Bytes childIndex ↔ childIndex b ≠ emptyMarker := by
  simp [node48Bytes]

theorem mem_node256Bytes {children : Nat → α} :
    b ∈ node256Bytes children ↔ hasMetadata (children b) = true := by
  simp [node256Bytes]

/-- The bytes counted by two tests that differ at one byte. -/
theorem length_filter_change (p q : Byte → Bool) (h : ∀ b, b ≠ byte → p b = q b) :
    ((List.finRange 256).filter p).length + (q byte).toNat =
      ((List.finRange 256).filter q).length + (p byte).toNat := by
  have hsplit := (perm_cons_erase (mem_finRange byte)).countP_eq
  have hrest : ((List.finRange 256).erase byte).countP p =
      ((List.finRange 256).erase byte).countP q := by
    apply countP_congr
    intro b hb
    rw [h b ((nodup_finRange 256).mem_erase_iff.mp hb).1]
  rw [← countP_eq_length_filter,← countP_eq_length_filter,hsplit p,hsplit q,
    countP_cons,countP_cons,hrest]
  cases p byte <;> cases q byte <;> rfl

/-- What an update of the index does to the number of bytes in use. -/
theorem length_node48Bytes_update (childIndex : Byte → Nat) (byte : Byte) (p : Nat) :
    (node48Bytes (update childIndex byte p)).length +
        (decide (childIndex byte ≠ emptyMarker)).toNat =
      (node48Bytes childIndex).length + (decide (p ≠ emptyMarker)).toNat := by
  have hlen := length_filter_change
    (fun b => decide (update childIndex byte p b ≠ emptyMarker))
    (fun b => decide (childIndex b ≠ emptyMarker)) fun b hb => by rw [update_of_ne hb]
  rwa [update_self] at hlen

theorem pairwise_node48Bytes (childIndex : Byte → Nat) :
    (node48Bytes childIndex).Pairwise (· < ·) :=
  (pairwise_lt_finRange 256).filter _

theorem pairwise_node256Bytes (children : Nat → α) : (node256Bytes children).Pairwise (· < ·) :=
  (pairwise_lt_finRange 256).filter _

theorem nodup_node48Bytes (childIndex : Byte → Nat) : (node48Bytes childIndex).Nodup :=
  (nodup_finRange 256).filter _

theorem nodup_node256Bytes (children : Nat → α) : (node256Bytes children).Nodup :=
  (nodup_finRange 256).filter _

section Sorted

variable {capacity n : Nat} {key : Nat → Byte} {children : Nat → α} {byte : Byte}

/-- Keys and children are inserted at the same position, so that they stay together. -/
theorem Sorted.insert (h : Sorted capacity n key children) (hroom : n < capacity)
    (habsent : ∀ i < n, key i ≠ byte) (hchild : hasMetadata child = true) :
    Sorted capacity (n + 1) (insertAt (position n key byte) byte key)
      (insertAt (position n key byte) child children) := by
  refine ⟨hroom,h.ascending.insert habsent,?_⟩
  intro i hi
  by_cases hp : i = position n key byte
  · subst hp
    simpa using hchild
  obtain ⟨j,rfl,hj,hlt⟩ := exists_shifted hp
  rw [insertAt_shifted]
  apply h.occupied
  have hle : position n key byte ≤ n := position_le
  omega

theorem Sorted.remove (h : Sorted capacity (n + 1) key children) (p : Nat) :
    Sorted capacity n (removeAt p key) (removeAt p children) := by
  refine ⟨Nat.le_of_succ_le h.count_le,h.ascending.remove p,?_⟩
  intro i hi
  rw [removeAt_eq]
  apply h.occupied
  unfold shifted
  split <;> omega

theorem Sorted.replace (h : Sorted capacity n key children) (p : Nat)
    (hchild : hasMetadata child = true) :
    Sorted capacity n key (update children p child) := by
  refine ⟨h.count_le,h.ascending,?_⟩
  intro i hi
  rw [update_apply]
  split
  · exact hchild
  · exact h.occupied i hi

theorem Sorted.mono (h : Sorted capacity n key children) (hle : n ≤ capacity') :
    Sorted capacity' n key children :=
  ⟨hle,h.ascending,h.occupied⟩

theorem ascending_getD {bytes : List Byte} (h : bytes.Pairwise (· < ·)) :
    Ascending bytes.length fun i => bytes.getD i 0 := by
  intro i j hij hj
  have hi : i < bytes.length := by omega
  simpa [hi,hj] using pairwise_iff_getElem.mp h i j hi hj hij

end Sorted

section Indexed

variable {n : Nat} {childIndex : Byte → Nat} {children : Nat → α} {byte : Byte}

theorem getChild_node48 (count : Nat) (childIndex : Byte → Nat) (children : Nat → α) (b : Byte) :
    getChild (node48 count childIndex) children b =
      if childIndex b ≠ emptyMarker then some (children (childIndex b)) else none := by
  simp only [getChild,slot]
  split <;> rfl

theorem getChild_node256 (count : Nat) (children : Nat → α) (b : Byte) :
    getChild (node256 count) children b =
      if hasMetadata (children b) then some (children b) else none := by
  simp only [getChild,slot]
  split <;> rfl

theorem getChild_node48_eq_some : getChild (node48 n childIndex) children b = some c ↔
    childIndex b ≠ emptyMarker ∧ children (childIndex b) = c := by
  simp [getChild_node48]

theorem getChild_node256_eq_some : getChild (node256 n) children b = some c ↔
    hasMetadata (children b) = true ∧ children b = c := by
  simp [getChild_node256]

/-- An update of one byte and of a slot no other byte uses changes one child. -/
theorem getChild_node48_update (hindex : ∀ b, b ≠ byte → childIndex' b = childIndex b)
    (hslot : ∀ b, b ≠ byte → childIndex b ≠ emptyMarker → childIndex b ≠ p)
    (hbyte : getChild (node48 m childIndex') (update children p x) byte = c) :
    getChild (node48 m childIndex') (update children p x) =
      update (getChild (node48 n childIndex) children) byte c := by
  funext b
  by_cases hb : b = byte
  · rw [hb,hbyte,update_self]
  · rw [update_of_ne hb,getChild_node48,getChild_node48,hindex b hb]
    split
    case isTrue hne => rw [update_of_ne (hslot b hb hne)]
    case isFalse => rfl

section

variable (h : Indexed n childIndex children) (hroom : n < node48Capacity)
include h hroom

/-- As the index is injective, fewer children than the capacity leave a slot. -/
theorem Indexed.exists_free : ∃ i < node48Capacity, hasMetadata (children i) = false := by
  by_contra hfull
  have hsub : List.range node48Capacity ⊆ (node48Bytes childIndex).map childIndex := by
    intro i hi
    have hlt := mem_range.mp hi
    have hocc : hasMetadata (children i) = true := by
      by_contra hno
      exact hfull ⟨i,hlt,by simpa using hno⟩
    obtain ⟨b,rfl⟩ := h.cleared i hlt hocc
    have hne : childIndex b ≠ emptyMarker := ne_of_lt hlt
    exact mem_map_of_mem (mem_node48Bytes.mpr hne)
  have hle := ((nodup_range).subperm hsub).length_le
  rw [length_range,length_map,h.count_eq] at hle
  omega

/-- `freeSlot` finds a free slot, whether the one behind the children is free or not. -/
theorem Indexed.freeSlot_spec :
    freeSlot n children < node48Capacity ∧
      hasMetadata (children (freeSlot n children)) = false := by
  unfold freeSlot
  split
  case isFalse hfree => exact ⟨hroom,by simpa using hfree⟩
  case isTrue =>
    cases hf : (List.range node48Capacity).find? fun i => !hasMetadata (children i) with
    | none =>
      obtain ⟨i,hi,hno⟩ := h.exists_free hroom
      have := find?_range_eq_none.mp hf i hi
      simp [hno] at this
    | some i =>
      obtain ⟨hno,hmem,_⟩ := find?_range_eq_some.mp hf
      exact ⟨mem_range.mp hmem,by simpa using hno⟩

theorem Indexed.insert (habsent : childIndex byte = emptyMarker) (hp : p < node48Capacity)
    (hfree : hasMetadata (children p) = false) {child : α} (hchild : hasMetadata child = true) :
    Indexed (n + 1) (update childIndex byte p) (update children p child) := by
  have hunused : ∀ b, childIndex b ≠ p := by
    intro b heq
    have hne : childIndex b ≠ emptyMarker := heq ▸ ne_of_lt hp
    have := h.occupied b hne
    rw [heq,hfree] at this
    exact Bool.noConfusion this
  refine ⟨?_,hroom,?_,?_,?_,?_⟩
  · have hne : p ≠ emptyMarker := ne_of_lt hp
    simpa [hne,habsent,h.count_eq] using length_node48Bytes_update childIndex byte p
  · intro b
    rw [update_apply]
    split
    · intro _
      exact hp
    · exact h.index_lt b
  · intro a b
    rw [update_apply,update_apply]
    split
    case isTrue ha =>
      intro _
      split
      case isTrue hb =>
        intro _
        rw [ha,hb]
      case isFalse =>
        intro heq
        exact absurd heq.symm (hunused b)
    case isFalse =>
      intro hne
      split
      case isTrue =>
        intro heq
        exact absurd heq (hunused a)
      case isFalse => exact h.inj a b hne
  · intro b
    rw [update_apply]
    split
    case isTrue =>
      intro _
      simpa using hchild
    case isFalse =>
      intro hne
      rw [update_of_ne (hunused b)]
      exact h.occupied b hne
  · intro i hi
    rw [update_apply]
    split
    case isTrue heq =>
      intro _
      exact ⟨byte,by simp [heq]⟩
    case isFalse hne =>
      intro hocc
      obtain ⟨b,rfl⟩ := h.cleared i hi hocc
      have hb : b ≠ byte := by
        rintro rfl
        rw [habsent] at hi
        exact lt_irrefl _ hi
      exact ⟨b,update_of_ne hb _ _⟩

end

/-- The slot of a removed byte is cleared and so can be found again. -/
theorem Indexed.remove (h : Indexed (n + 1) childIndex children)
    (hpresent : childIndex byte ≠ emptyMarker) :
    Indexed n (update childIndex byte emptyMarker)
      (update children (childIndex byte) clear) := by
  have hother : ∀ b, b ≠ byte → childIndex b ≠ emptyMarker → childIndex b ≠ childIndex byte := by
    intro b hb hne heq
    exact hb (h.inj b byte hne heq)
  refine ⟨?_,Nat.le_of_succ_le h.count_le,?_,?_,?_,?_⟩
  · simpa [hpresent,h.count_eq] using length_node48Bytes_update childIndex byte emptyMarker
  · intro b
    rw [update_apply]
    split
    · intro hne
      exact absurd rfl hne
    · exact h.index_lt b
  · intro a b
    rw [update_apply,update_apply]
    split
    · intro hne
      exact absurd rfl hne
    case isFalse =>
      intro hne
      split
      · intro heq
        exact absurd heq hne
      · exact h.inj a b hne
  · intro b
    rw [update_apply]
    split
    · intro hne
      exact absurd rfl hne
    case isFalse hb =>
      intro hne
      rw [update_of_ne (hother b hb hne)]
      exact h.occupied b hne
  · intro i hi
    rw [update_apply]
    split
    · intro hocc
      simp at hocc
    case isFalse hne =>
      intro hocc
      obtain ⟨b,rfl⟩ := h.cleared i hi hocc
      have hb : b ≠ byte := by
        intro heq
        exact hne (by rw [heq])
      exact ⟨b,update_of_ne hb _ _⟩

theorem Indexed.replace (h : Indexed n childIndex children) (byte : Byte)
    (hchild : hasMetadata child = true) :
    Indexed n childIndex (update children (childIndex byte) child) := by
  refine ⟨h.count_eq,h.count_le,h.index_lt,h.inj,?_,?_⟩
  · intro b hne
    rw [update_apply]
    split
    · exact hchild
    · exact h.occupied b hne
  · intro i hi
    rw [update_apply]
    split
    case isTrue heq =>
      intro _
      exact ⟨byte,heq.symm⟩
    case isFalse => exact h.cleared i hi

end Indexed

end PredTrans.Index.Layout
