import Mathlib

/-! Arrays with a fill count, read as functions of the index. Only the entries below the count mean
anything. Keys are kept in ascending order, so that two arrays are a finite map. -/

namespace PredTrans.Library.SortedArray
open List Function

variable {κ α : Type}

/-- Makes room at a position by moving the later entries one place back. -/
def insertAt (position : Nat) (x : α) (f : Nat → α) : Nat → α :=
  fun i => if i < position then f i else if i = position then x else f (i - 1)

/-- Closes the gap at a position by moving the later entries one place forward. -/
def removeAt (position : Nat) (f : Nat → α) : Nat → α :=
  fun i => if i < position then f i else f (i + 1)

theorem insertAt_lt (x : α) (f : Nat → α) (h : i < position) : insertAt position x f i = f i := by
  simp [insertAt,h]

@[simp] theorem insertAt_self (position : Nat) (x : α) (f : Nat → α) :
    insertAt position x f position = x := by
  simp [insertAt]

theorem insertAt_succ (x : α) (f : Nat → α) (h : position ≤ i) :
    insertAt position x f (i + 1) = f i := by
  have h1 : ¬ i + 1 < position := by omega
  have h2 : i + 1 ≠ position := by omega
  simp [insertAt,h1,h2]

/-- The index of an entry after an insertion. -/
def shifted (position i : Nat) : Nat := if i < position then i else i + 1

theorem insertAt_shifted (position i : Nat) (x : α) (f : Nat → α) :
    insertAt position x f (shifted position i) = f i := by
  by_cases h : i < position
  · simp [shifted,h,insertAt_lt x f h]
  · simp [shifted,h,insertAt_succ x f (not_lt.mp h)]

/-- A removal reads the entries at the indices an insertion would move them to. -/
theorem removeAt_eq (position i : Nat) (f : Nat → α) :
    removeAt position f i = f (shifted position i) := by
  by_cases h : i < position
  · simp [shifted,h,removeAt]
  · simp [shifted,h,removeAt]

theorem shifted_ne (position i : Nat) : shifted position i ≠ position := by
  unfold shifted
  split <;> omega

theorem exists_shifted (h : i ≠ position) :
    ∃ j, shifted position j = i ∧ j ≤ i ∧ (position < i → j < i) := by
  by_cases hi : i < position
  · exact ⟨i,by simp [shifted,hi],le_refl i,by omega⟩
  · refine ⟨i - 1,?_,by omega,by omega⟩
    unfold shifted
    split <;> omega

theorem shifted_lt_succ (h : i < n) : shifted position i < n + 1 := by
  unfold shifted
  split <;> omega

/-- The indices after an insertion are the position and the moved ones. -/
theorem exists_lt_succ_iff {P : Nat → Prop} (hp : position ≤ n) :
    (∃ i < n + 1, P i) ↔ P position ∨ ∃ i < n, P (shifted position i) := by
  constructor
  · rintro ⟨i,hi,h⟩
    by_cases hip : i = position
    · exact .inl (hip ▸ h)
    · obtain ⟨j,rfl,hj,hlt⟩ := exists_shifted hip
      exact .inr ⟨j,by omega,h⟩
  · rintro (h | ⟨i,hi,h⟩)
    · exact ⟨position,Nat.lt_succ_of_le hp,h⟩
    · exact ⟨_,shifted_lt_succ hi,h⟩

section Search

variable [LinearOrder κ]

/-- The keys below the count ascend strictly. -/
def Ascending (count : Nat) (key : Nat → κ) : Prop :=
  ∀ i j, i < j → j < count → key i < key j

/-- The first index below the count that holds the key. -/
def indexOf (count : Nat) (key : Nat → κ) (k : κ) : Option Nat :=
  (List.range count).find? fun i => decide (key i = k)

/-- The first index below the count whose key is not smaller. -/
def nextIndex (count : Nat) (key : Nat → κ) (k : κ) : Option Nat :=
  (List.range count).find? fun i => decide (k ≤ key i)

/-- The number of keys that a search for the insertion position passes. -/
def position (count : Nat) (key : Nat → κ) (k : κ) : Nat :=
  ((List.range count).find? fun i => decide (¬ key i < k)).getD count

/-- The map that keys and values stand for. -/
def lookup (count : Nat) (key : Nat → κ) (value : Nat → α) (k : κ) : Option α :=
  (indexOf count key k).map value

variable {count : Nat} {key : Nat → κ} {k : κ}

theorem Ascending.inj (h : Ascending count key) (hi : i < count) (hj : j < count)
    (heq : key i = key j) : i = j := by
  rcases lt_trichotomy i j with hlt | rfl | hlt
  · exact absurd heq (ne_of_lt (h i j hlt hj))
  · rfl
  · exact absurd heq.symm (ne_of_lt (h j i hlt hi))

theorem indexOf_spec (h : indexOf count key k = some i) : i < count ∧ key i = k := by
  obtain ⟨heq,hmem,_⟩ := find?_range_eq_some.mp h
  exact ⟨mem_range.mp hmem,of_decide_eq_true heq⟩

theorem Ascending.indexOf_eq_some (h : Ascending count key) :
    indexOf count key k = some i ↔ i < count ∧ key i = k := by
  constructor
  · exact indexOf_spec
  intro ⟨hi,heq⟩
  apply find?_range_eq_some.mpr
  refine ⟨decide_eq_true heq,mem_range.mpr hi,?_⟩
  intro j hj
  have hlt := h j i hj hi
  rw [heq] at hlt
  simp [ne_of_lt hlt]

theorem indexOf_eq_none : indexOf count key k = none ↔ ∀ i < count, key i ≠ k := by
  simp [indexOf]

/-- Ascending keys differ, so that a lookup finds every entry. -/
theorem Ascending.lookup_eq_some (h : Ascending count key) :
    lookup count key value k = some v ↔ ∃ i < count, key i = k ∧ value i = v := by
  simp only [lookup,Option.map_eq_some_iff,h.indexOf_eq_some,and_assoc]

theorem lookup_eq_none : lookup count key value k = none ↔ ∀ i < count, key i ≠ k := by
  rw [lookup,Option.map_eq_none_iff,indexOf_eq_none]

theorem Ascending.nextIndex_spec (h : Ascending count key) (hi : nextIndex count key k = some i) :
    i < count ∧ k ≤ key i ∧ ∀ j < count, k ≤ key j → key i ≤ key j := by
  obtain ⟨hle,hmem,hfirst⟩ := find?_range_eq_some.mp hi
  have hlt := mem_range.mp hmem
  refine ⟨hlt,of_decide_eq_true hle,?_⟩
  intro j hj hkj
  rcases lt_trichotomy j i with hji | rfl | hij
  · have := hfirst j hji
    simp only [Bool.not_eq_true',decide_eq_false_iff_not] at this
    exact absurd hkj this
  · exact le_rfl
  · exact le_of_lt (h i j hij hj)

theorem nextIndex_eq_none : nextIndex count key k = none ↔ ∀ i < count, key i < k := by
  simp [nextIndex]

theorem position_le : position count key k ≤ count := by
  unfold position
  cases h : (List.range count).find? fun i => decide (¬ key i < k) with
  | none => exact le_refl count
  | some i =>
    obtain ⟨_,hmem,_⟩ := find?_range_eq_some.mp h
    exact Nat.le_of_lt (mem_range.mp hmem)

theorem key_lt_of_lt_position (hi : i < position count key k) : key i < k := by
  unfold position at hi
  cases h : (List.range count).find? fun i => decide (¬ key i < k) with
  | none =>
    rw [h] at hi
    have := find?_range_eq_none.mp h i hi
    simpa using this
  | some p =>
    rw [h] at hi
    obtain ⟨_,_,hfirst⟩ := find?_range_eq_some.mp h
    simpa using hfirst i hi

theorem Ascending.lt_key_of_position_le (hasc : Ascending count key)
    (habsent : ∀ i < count, key i ≠ k) (hi : position count key k ≤ i) (hcount : i < count) :
    k < key i := by
  unfold position at hi
  cases h : (List.range count).find? fun i => decide (¬ key i < k) with
  | none =>
    rw [h] at hi
    exact absurd hcount (not_lt.mpr hi)
  | some p =>
    rw [h] at hi
    obtain ⟨hp,hmem,_⟩ := find?_range_eq_some.mp h
    have hpc := mem_range.mp hmem
    have hkp : k < key p := lt_of_le_of_ne (le_of_not_gt (of_decide_eq_true hp))
      (Ne.symm (habsent p hpc))
    rcases eq_or_lt_of_le hi with heq | hlt
    · rw [← heq]
      exact hkp
    · exact lt_trans hkp (hasc p i hlt hcount)

/-- An insertion at the position the search ends at keeps the order. -/
theorem Ascending.insert (h : Ascending count key) (habsent : ∀ i < count, key i ≠ k) :
    Ascending (count + 1) (insertAt (position count key k) k key) := by
  intro i j hij hj
  generalize hp : position count key k = p
  have hle : p ≤ count := hp ▸ position_le
  have hbelow : ∀ i, i < p → key i < k := fun i hi => key_lt_of_lt_position (hp.symm ▸ hi)
  have habove : ∀ i, p ≤ i → i < count → k < key i := fun i hi hc =>
    h.lt_key_of_position_le habsent (hp.symm ▸ hi) hc
  rcases lt_trichotomy j p with hjp | rfl | hjp
  · rw [insertAt_lt k key hjp,insertAt_lt k key (by omega)]
    exact h i j hij (by omega)
  · rw [insertAt_self,insertAt_lt k key hij]
    exact hbelow i hij
  obtain ⟨j,rfl⟩ : ∃ j', j = j' + 1 := ⟨j - 1,by omega⟩
  rw [insertAt_succ k key (by omega)]
  rcases lt_trichotomy i p with hip | rfl | hip
  · rw [insertAt_lt k key hip]
    exact h i j (by omega) (by omega)
  · rw [insertAt_self]
    exact habove j (by omega) (by omega)
  · obtain ⟨i,rfl⟩ : ∃ i', i = i' + 1 := ⟨i - 1,by omega⟩
    rw [insertAt_succ k key (by omega)]
    exact h i j (by omega) (by omega)

theorem Ascending.remove (h : Ascending (count + 1) key) (p : Nat) :
    Ascending count (removeAt p key) := by
  intro i j hij hj
  rw [removeAt_eq,removeAt_eq]
  apply h
  · unfold shifted
    split <;> split <;> omega
  · exact shifted_lt_succ hj

theorem lookup_insert (h : Ascending count key) (habsent : ∀ i < count, key i ≠ k)
    (value : Nat → α) (v : α) :
    lookup (count + 1) (insertAt (position count key k) k key)
        (insertAt (position count key k) v value) =
      update (lookup count key value) k (some v) := by
  funext k'
  apply Option.ext
  intro v'
  have hle : position count key k ≤ count := position_le
  rw [(h.insert habsent).lookup_eq_some,exists_lt_succ_iff hle,update_apply]
  simp only [insertAt_self,insertAt_shifted]
  split
  case isTrue heq =>
    have hnone : ¬ ∃ i < count, key i = k' ∧ value i = v' :=
      fun ⟨i,hi,hk,_⟩ => habsent i hi (hk.trans heq)
    simp [heq,heq ▸ hnone]
  case isFalse hne => simp [Ne.symm hne,h.lookup_eq_some]

/-- A removal forgets one key and nothing else. -/
theorem lookup_remove (h : Ascending (count + 1) key) (hp : p < count + 1) (value : Nat → α) :
    lookup count (removeAt p key) (removeAt p value) =
      update (lookup (count + 1) key value) (key p) none := by
  funext k'
  apply Option.ext
  intro v'
  rw [(h.remove p).lookup_eq_some,update_apply]
  simp only [removeAt_eq]
  split
  case isTrue heq =>
    have hnone : ¬ ∃ i < count, key (shifted p i) = k' ∧ value (shifted p i) = v' :=
      fun ⟨i,hi,hk,_⟩ => shifted_ne p i (h.inj (shifted_lt_succ hi) hp (hk.trans heq))
    simpa using hnone
  case isFalse hne =>
    rw [h.lookup_eq_some,exists_lt_succ_iff (Nat.le_of_lt_succ hp)]
    simp [Ne.symm hne]

theorem lookup_replace (hp : indexOf count key k = some p) (value : Nat → α) (v : α) :
    lookup count key (update value p v) =
      update (lookup count key value) k (some v) := by
  funext k'
  obtain ⟨_,hkey⟩ := indexOf_spec hp
  rw [update_apply]
  split
  case isTrue heq =>
    subst heq
    simp [lookup,hp]
  case isFalse hne =>
    cases hi : indexOf count key k' with
    | none => simp [lookup,hi]
    | some i =>
      obtain ⟨_,hki⟩ := indexOf_spec hi
      have hip : i ≠ p := by
        rintro rfl
        exact hne (hki.symm.trans hkey)
      simp [lookup,hi,hip]

end Search

end PredTrans.Library.SortedArray
