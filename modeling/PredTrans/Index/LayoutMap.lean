import PredTrans.Index.LayoutLaws

/-!
Growing and shrinking keep the map of a layout.
-/

namespace PredTrans.Index.Layout

open Library.SortedArray IndexPointer
open List hiding lookup

variable {α : Type} [IndexPointer α]

section GrowNode16

variable {n : Nat} {key : Nat → Byte} {children : Nat → α}

theorem indexKeys_succ (n : Nat) (key : Nat → Byte) :
    indexKeys (n + 1) key = Function.update (indexKeys n key) (key n) n := by
  simp [indexKeys,range_succ]

theorem indexKeys_of_absent (h : ∀ i < n, key i ≠ b) : indexKeys n key b = emptyMarker := by
  induction n with
  | zero => rfl
  | succ n ih =>
    rw [indexKeys_succ,Function.update_of_ne (Ne.symm (h n (Nat.lt_succ_self n)))]
    exact ih fun i hi => h i (Nat.lt_succ_of_lt hi)

/-- The loop of `GrowNode16` leaves every key with its position, since no later key is equal. -/
theorem indexKeys_key (h : Ascending n key) (hi : i < n) : indexKeys n key (key i) = i := by
  induction n with
  | zero => exact absurd hi (Nat.not_lt_zero i)
  | succ n ih =>
    rw [indexKeys_succ]
    rcases Nat.lt_succ_iff_lt_or_eq.mp hi with hlt | rfl
    · have hne : key i ≠ key n := ne_of_lt (h i n hlt (Nat.lt_succ_self n))
      rw [Function.update_of_ne hne]
      exact ih (fun i j hij hj => h i j hij (Nat.lt_succ_of_lt hj)) hlt
    · simp

theorem exists_key_of_indexKeys (h : Ascending n key) (hb : indexKeys n key b ≠ emptyMarker) :
    ∃ i < n, key i = b ∧ indexKeys n key b = i := by
  by_cases hkey : ∃ i < n, key i = b
  · obtain ⟨i,hi,rfl⟩ := hkey
    exact ⟨i,hi,rfl,indexKeys_key h hi⟩
  · refine absurd (indexKeys_of_absent ?_) hb
    intro i hi heq
    exact hkey ⟨i,hi,heq⟩

/-- The first `n` slots of the Node48 are in use, in the order of the keys. -/
theorem indexed_growNode16 (h : Sorted node16Capacity n key children) :
    Indexed n (growNode16 n key children).1 (growNode16 n key children).2 := by
  have hcap : n ≤ 16 := h.count_le
  constructor
  · have hnodup : ((List.range n).map key).Nodup := by
      apply List.Nodup.map_on _ nodup_range
      intro i hi j hj heq
      exact h.ascending.inj (mem_range.mp hi) (mem_range.mp hj) heq
    rw [length_eq_of_mem_iff (nodup_node48Bytes _) hnodup,length_map,length_range]
    intro b
    rw [mem_node48Bytes,mem_map]
    constructor
    · intro hb
      obtain ⟨i,hi,hkey,_⟩ := exists_key_of_indexKeys h.ascending hb
      exact ⟨i,mem_range.mpr hi,hkey⟩
    · intro ⟨i,hi,hkey⟩
      have hlt := mem_range.mp hi
      subst hkey
      simp only [growNode16,indexKeys_key h.ascending hlt]
      exact ne_of_lt (show i < 48 by omega)
  · exact show n ≤ 48 by omega
  · intro b hb
    obtain ⟨i,hi,_,heq⟩ := exists_key_of_indexKeys h.ascending hb
    simp only [growNode16,heq]
    exact show i < 48 by omega
  · intro a b ha heq
    obtain ⟨i,_,rfl,hai⟩ := exists_key_of_indexKeys h.ascending ha
    have hb : indexKeys n key b ≠ emptyMarker := fun hb => ha (heq.trans hb)
    obtain ⟨j,_,rfl,hbj⟩ := exists_key_of_indexKeys h.ascending hb
    have hij : i = j := hai.symm.trans (heq.trans hbj)
    rw [hij]
  · intro b hb
    obtain ⟨i,hi,_,heq⟩ := exists_key_of_indexKeys h.ascending hb
    simp only [growNode16,heq,hi,if_true]
    exact h.occupied i hi
  · intro i _ hocc
    by_cases hin : i < n
    · exact ⟨key i,indexKeys_key h.ascending hin⟩
    · simp [growNode16,hin] at hocc

/-- Growing to a Node48 keeps the map. -/
theorem getChild_growNode16 (h : Sorted node16Capacity n key children) :
    getChild (node48 n (growNode16 n key children).1) (growNode16 n key children).2 =
      lookup n key children := by
  funext b
  rw [getChild_node48]
  cases hidx : indexOf n key b with
  | some i =>
    obtain ⟨hi,rfl⟩ := indexOf_spec hidx
    have hcap : n ≤ 16 := h.count_le
    have hne : i ≠ emptyMarker := ne_of_lt (show i < 48 by omega)
    simp [growNode16,indexKeys_key h.ascending hi,hne,hi,lookup,hidx]
  | none =>
    have habsent := indexKeys_of_absent (indexOf_eq_none.mp hidx)
    simp [growNode16,habsent,lookup,hidx]

end GrowNode16

section Node48

variable {n : Nat} {childIndex : Byte → Nat} {children : Nat → α}

/-- The bytes in use come out of the index in ascending order. -/
theorem sorted_shrinkNode48 (h : Indexed n childIndex children) (hn : n ≤ node16Capacity) :
    Valid (shrinkNode48 childIndex children).1 (shrinkNode48 childIndex children).2 := by
  refine ⟨?_,ascending_getD (pairwise_node48Bytes childIndex),?_⟩
  · rw [h.count_eq]
    exact hn
  intro i hi
  apply h.occupied
  apply mem_node48Bytes.mp
  rw [getD_eq_getElem?_getD,getElem?_eq_getElem hi]
  exact getElem_mem hi

/-- Shrinking to a Node16 keeps the map. -/
theorem getChild_shrinkNode48 (count : Nat) (childIndex : Byte → Nat) (children : Nat → α) :
    getChild (shrinkNode48 childIndex children).1 (shrinkNode48 childIndex children).2 =
      getChild (node48 count childIndex) children := by
  funext b
  have hasc := ascending_getD (pairwise_node48Bytes childIndex)
  rw [getChild_node48]
  split
  case isTrue hb =>
    obtain ⟨i,hi,hget⟩ := mem_iff_getElem.mp (mem_node48Bytes.mpr hb)
    have hkey : (node48Bytes childIndex).getD i 0 = b := by simp [hi,hget]
    have hidx := hasc.indexOf_eq_some.mpr ⟨hi,hkey⟩
    show Option.map _ (indexOf _ _ b) = _
    rw [hidx,Option.map_some]
    show some (children (childIndex ((node48Bytes childIndex).getD i 0))) = _
    rw [hkey]
  case isFalse hb =>
    have hnone : indexOf (node48Bytes childIndex).length
        (fun i => (node48Bytes childIndex).getD i 0) b = none := by
      apply indexOf_eq_none.mpr
      intro i hi heq
      have hmem : b ∈ node48Bytes childIndex := by
        rw [← heq]
        simp [hi]
      exact hb (mem_node48Bytes.mp hmem)
    show Option.map _ (indexOf _ _ b) = _
    rw [hnone,Option.map_none]

theorem growNode48_apply (childIndex : Byte → Nat) (children : Nat → α) (b : Byte) :
    growNode48 childIndex children b =
      if childIndex b ≠ emptyMarker then children (childIndex b) else clear := by
  simp [growNode48]

/-- Bytes without an entry in the index get a cleared child. -/
theorem hasMetadata_growNode48 (h : Indexed n childIndex children) (b : Byte) :
    hasMetadata (growNode48 childIndex children b) = true ↔ childIndex b ≠ emptyMarker := by
  rw [growNode48_apply]
  by_cases hb : childIndex b = emptyMarker
  · simp [hb]
  · simp [hb,h.occupied b hb]

theorem valid_growNode48 (h : Indexed n childIndex children) :
    Valid (node256 n) (growNode48 childIndex children) := by
  show (node256Bytes (growNode48 childIndex children)).length = n
  rw [length_eq_of_mem_iff (nodup_node256Bytes _) (nodup_node48Bytes childIndex),h.count_eq]
  intro b
  rw [mem_node256Bytes,mem_node48Bytes,hasMetadata_growNode48 h]

theorem getChild_growNode48 (h : Indexed n childIndex children) :
    getChild (node256 n) (growNode48 childIndex children) =
      getChild (node48 n childIndex) children := by
  funext b
  rw [getChild_node256,getChild_node48]
  by_cases hb : childIndex b = emptyMarker
  · simp [growNode48_apply,hb]
  · simp [growNode48_apply,hb,h.occupied b hb]

/-- `ShrinkNode256` numbers the bytes in use; the slots behind them are cleared. -/
theorem indexed_shrinkNode256 (h : (node256Bytes children).length = n) (hn : n ≤ node48Capacity) :
    Valid (shrinkNode256 children).1 (shrinkNode256 children).2 := by
  have hcap : (node256Bytes children).length ≤ 48 := by
    rw [h]
    exact hn
  have hidx : ∀ b : Byte, hasMetadata (children b) = true →
      (node256Bytes children).idxOf b < (node256Bytes children).length := fun b hb =>
    idxOf_lt_length_iff.mpr (mem_node256Bytes.mpr hb)
  -- fewer bytes than the capacity are in use, so that no position is the marker itself
  have hused : ∀ b : Byte, (if hasMetadata (children b) then (node256Bytes children).idxOf b
      else emptyMarker) ≠ emptyMarker ↔ hasMetadata (children b) = true := by
    intro b
    by_cases hb : hasMetadata (children b) = true
    · have hlt := hidx b hb
      have hne : (node256Bytes children).idxOf b ≠ emptyMarker :=
        ne_of_lt (show _ < 48 by omega)
      simp [hne]
    · simp [hb]
  refine ⟨?_,hcap,?_,?_,?_,?_⟩
  · apply length_eq_of_mem_iff (nodup_node48Bytes _) (nodup_node256Bytes _)
    intro b
    rw [mem_node48Bytes,mem_node256Bytes]
    exact hused b
  · intro b hb
    have hocc := (hused b).mp hb
    have hlt := hidx b hocc
    simp only [hocc,if_true]
    exact show _ < 48 by omega
  · intro a b ha heq
    have hocca := (hused a).mp ha
    have hoccb := (hused b).mp (fun hb => ha (heq.trans hb))
    simp only [hocca,hoccb,if_true] at heq
    exact (idxOf_inj (mem_node256Bytes.mpr hocca)).mp heq
  · intro b hb
    have hocc := (hused b).mp hb
    have hlt := hidx b hocc
    simp [shrinkNode256,hocc,hlt]
  · intro i _ hocc
    by_cases hi : i < (node256Bytes children).length
    · refine ⟨(node256Bytes children).get ⟨i,hi⟩,?_⟩
      have hmem := mem_node256Bytes.mp (getElem_mem hi)
      simp [hmem,(nodup_node256Bytes children).idxOf_getElem]
    · simp [shrinkNode256,hi] at hocc

theorem getChild_shrinkNode256 (count : Nat) (h : (node256Bytes children).length ≤ node48Capacity) :
    getChild (shrinkNode256 children).1 (shrinkNode256 children).2 =
      getChild (node256 count) children := by
  funext b
  rw [getChild_node256]
  show getChild (node48 _ _) _ b = _
  rw [getChild_node48]
  by_cases hb : hasMetadata (children b) = true
  · have hlt : (node256Bytes children).idxOf b < (node256Bytes children).length :=
      idxOf_lt_length_iff.mpr (mem_node256Bytes.mpr hb)
    have hne : (node256Bytes children).idxOf b ≠ emptyMarker :=
      ne_of_lt (lt_of_lt_of_le hlt h)
    simp [shrinkNode256,hb,hlt,hne]
  · simp [hb]

end Node48

end PredTrans.Index.Layout
