import Mathlib

/-! A cut takes a beginning of each of two sorted sequences such that nothing behind the cut has to
come before anything in front of it. -/

namespace PredTrans.Library

variable {K : Type} {a b : Nat → K} {lSize rSize l r : Nat}

/-- The members below `start` are taken to be smaller than all others. -/
def raised (start : Nat) (a : Nat → K) (i : Nat) : WithBot K :=
  if i < start then ⊥ else a i

theorem raised_of_lt (h : i < start) : raised start a i = ⊥ := if_pos h

theorem raised_of_le (h : start ≤ i) : raised start a i = a i :=
  if_neg (not_lt.mpr h)

variable [LinearOrder K]

/-- The first `size` members do not decrease. -/
def SortedBelow (a : Nat → K) (size : Nat) : Prop :=
  ∀ i j, i ≤ j → j < size → a i ≤ a j

/-- The first `l` members of `a` and the first `r` members of `b` can come before all others. -/
structure IsCut (a b : Nat → K) (lSize rSize l r : Nat) : Prop where
  le_left : l ≤ lSize
  le_right : r ≤ rSize
  left : ∀ i j, i < l → r ≤ j → j < rSize → a i ≤ b j
  right : ∀ i j, j < r → l ≤ i → i < lSize → b j ≤ a i

/-- It is enough to compare the four members next to the cut. -/
theorem IsCut.of_neighbours (ha : SortedBelow a lSize) (hb : SortedBelow b rSize)
    (hl : l ≤ lSize) (hr : r ≤ rSize) (hleft : 0 < l → r < rSize → a (l - 1) ≤ b r)
    (hright : 0 < r → l < lSize → b (r - 1) ≤ a l) : IsCut a b lSize rSize l r where
  le_left := hl
  le_right := hr
  left := fun i j hi hj hlt =>
    ((ha i (l - 1) (by omega) (by omega)).trans (hleft (by omega) (by omega))).trans
      (hb r j hj hlt)
  right := fun i j hj hi hlt =>
    ((hb j (r - 1) (by omega) (by omega)).trans (hright (by omega) (by omega))).trans
      (ha l i hi hlt)

theorem isCut_zero : IsCut a b lSize rSize 0 0 where
  le_left := Nat.zero_le _
  le_right := Nat.zero_le _
  left := fun _ _ hi => absurd hi (Nat.not_lt_zero _)
  right := fun _ _ hj => absurd hj (Nat.not_lt_zero _)

theorem isCut_all : IsCut a b lSize rSize lSize rSize where
  le_left := le_rfl
  le_right := le_rfl
  left := fun _ _ _ hj hlt => absurd hlt (not_lt.mpr hj)
  right := fun _ _ _ hi hlt => absurd hlt (not_lt.mpr hi)

theorem SortedBelow.raised (ha : SortedBelow a lSize) (start : Nat) :
    SortedBelow (raised start a) lSize := by
  intro i j hij hj
  by_cases hi : i < start
  · rw [raised_of_lt hi]
    exact bot_le
  · rw [raised_of_le (by omega),raised_of_le (by omega)]
    exact WithBot.coe_le_coe.mpr (ha i j hij hj)

/-- A later cut of the sequences with raised members is not behind the earlier one, and it is a cut
of the sequences themselves. -/
theorem IsCut.of_raised (hstart : IsCut a b lSize rSize lStart rStart)
    (hcut : IsCut (Library.raised lStart a) (Library.raised rStart b) lSize rSize l r)
    (hsum : lStart + rStart < l + r) : IsCut a b lSize rSize l r ∧ lStart ≤ l ∧ rStart ≤ r := by
  have hl : lStart ≤ l := by
    by_contra hlt
    have hle := hcut.right l (r - 1) (by omega) le_rfl (by have := hstart.le_left; omega)
    have hbot : Library.raised lStart a l = ⊥ := raised_of_lt (by omega)
    have hcoe : Library.raised rStart b (r - 1) = b (r - 1) := raised_of_le (by omega)
    rw [hbot,hcoe] at hle
    exact absurd (le_bot_iff.mp hle) WithBot.coe_ne_bot
  have hr : rStart ≤ r := by
    by_contra hlt
    have hle := hcut.left (l - 1) r (by omega) le_rfl (by have := hstart.le_right; omega)
    have hbot : Library.raised rStart b r = ⊥ := raised_of_lt (by omega)
    have hcoe : Library.raised lStart a (l - 1) = a (l - 1) := raised_of_le (by omega)
    rw [hbot,hcoe] at hle
    exact absurd (le_bot_iff.mp hle) WithBot.coe_ne_bot
  refine ⟨⟨hcut.le_left,hcut.le_right,?_,?_⟩,hl,hr⟩
  · intro i j hi hj hlt
    by_cases hearly : i < lStart
    · exact hstart.left i j hearly (by omega) hlt
    · have hle := hcut.left i j hi hj hlt
      rw [raised_of_le (by omega),raised_of_le (by omega)] at hle
      exact WithBot.coe_le_coe.mp hle
  · intro i j hj hi hlt
    by_cases hearly : j < rStart
    · exact hstart.right i j hearly (by omega) hlt
    · have hle := hcut.right i j hj hi hlt
      rw [raised_of_le (by omega),raised_of_le (by omega)] at hle
      exact WithBot.coe_le_coe.mp hle

end PredTrans.Library
