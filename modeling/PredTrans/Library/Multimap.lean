import Mathlib

/-!
A multimap as the multiset of its pairs.
-/

namespace PredTrans.Library.Multimap

variable {κ ν : Type} [DecidableEq κ] {pairs : Multiset (κ × ν)}

/-- The values that a key is paired with. -/
def valuesAt (pairs : Multiset (κ × ν)) (k : κ) : Multiset ν :=
  (pairs.filter fun p => p.1 = k).map Prod.snd

/-- No key has two values. -/
def Single (pairs : Multiset (κ × ν)) : Prop := ∀ k, (valuesAt pairs k).card ≤ 1

@[simp] theorem valuesAt_zero (k : κ) : valuesAt (0 : Multiset (κ × ν)) k = 0 := rfl

theorem valuesAt_cons (p : κ × ν) (pairs : Multiset (κ × ν)) (k : κ) :
    valuesAt (p ::ₘ pairs) k =
      if p.1 = k then p.2 ::ₘ valuesAt pairs k else valuesAt pairs k := by
  by_cases h : p.1 = k
  · simp [valuesAt,h]
  · simp [valuesAt,h]

theorem valuesAt_add (s t : Multiset (κ × ν)) (k : κ) :
    valuesAt (s + t) k = valuesAt s k + valuesAt t k := by
  simp [valuesAt]

theorem mem_valuesAt {k : κ} : v ∈ valuesAt pairs k ↔ (k, v) ∈ pairs := by
  simp [valuesAt]

theorem valuesAt_eq_zero {k : κ} : valuesAt pairs k = 0 ↔ ∀ v, (k, v) ∉ pairs := by
  simp [Multiset.eq_zero_iff_forall_notMem,mem_valuesAt]

theorem valuesAt_erase [DecidableEq ν] {p : κ × ν} (h : p ∈ pairs) (k : κ) :
    valuesAt (pairs.erase p) k =
      if p.1 = k then (valuesAt pairs k).erase p.2 else valuesAt pairs k := by
  obtain ⟨rest,rfl⟩ := Multiset.exists_cons_of_mem h
  rw [Multiset.erase_cons_head,valuesAt_cons]
  split
  · simp
  · rfl

theorem Single.cons {p : κ × ν} (h : Single pairs) (hnew : valuesAt pairs p.1 = 0) :
    Single (p ::ₘ pairs) := by
  intro k
  rw [valuesAt_cons]
  split
  case isTrue heq => simp [← heq,hnew]
  case isFalse => exact h k

/-- A pair whose key has a value already gives that key a second one, whatever else is there. -/
theorem not_single_of_add {p : κ × ν} (hs : valuesAt s p.1 ≠ 0) (ht : p ∈ t) :
    ¬ Single (s + t) := by
  intro h
  have hcard := h p.1
  rw [valuesAt_add,Multiset.card_add] at hcard
  have hpos := Multiset.card_pos.mpr hs
  have hmem : p.2 ∈ valuesAt t p.1 := mem_valuesAt.mpr ht
  have hpos' := Multiset.card_pos_iff_exists_mem.mpr ⟨p.2,hmem⟩
  omega

end PredTrans.Library.Multimap
