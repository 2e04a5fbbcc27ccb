import Mathlib

/-!
# Binary search for the end of a true beginning
-/

namespace PredTrans.Library

/-- The positions of `[lo, hi)` where `p` holds are those below `point`. -/
structure IsPartitionPoint (p : Nat → Bool) (lo hi point : Nat) : Prop where
  ge : lo ≤ point
  le : point ≤ hi
  below : ∀ i, lo ≤ i → i < point → p i = true
  above : ∀ i, point ≤ i → i < hi → p i = false

/-- The loop that halves `len` positions from `first` on. -/
def partitionPoint (p : Nat → Bool) : Nat → Nat → Nat → Nat
  | 0, first, _ => first
  | fuel + 1, first, len =>
    if len = 0 then first
    else
      let half := len / 2
      let middle := first + half
      if p middle then partitionPoint p fuel (middle + 1) (len - half - 1)
      else partitionPoint p fuel first half

/-- Where `p` holds it holds at all earlier positions of `[lo, hi)`. -/
def HoldsDown (p : Nat → Bool) (lo hi : Nat) : Prop :=
  ∀ i j, lo ≤ i → i ≤ j → j < hi → p j = true → p i = true

theorem partitionPoint_spec {fuel first len : Nat} (hfuel : len ≤ fuel)
    (hdown : HoldsDown p first (first + len)) :
    IsPartitionPoint p first (first + len) (partitionPoint p fuel first len) := by
  induction fuel generalizing first len with
  | zero =>
    obtain rfl : len = 0 := by omega
    rw [partitionPoint]
    exact ⟨le_rfl,le_rfl,by intro i h h'; omega,by intro i h h'; omega⟩
  | succ fuel ih =>
    rw [partitionPoint]
    split
    case isTrue hzero =>
      subst hzero
      exact ⟨le_rfl,le_rfl,by intro i h h'; omega,by intro i h h'; omega⟩
    case isFalse hpos =>
      dsimp only
      split
      case isTrue hmiddle =>
        have hend : first + len / 2 + 1 + (len - len / 2 - 1) = first + len := by omega
        obtain ⟨hge,hle,hbelow,habove⟩ :=
          @ih (first + len / 2 + 1) (len - len / 2 - 1) (by omega)
            (by
              intro i j hi hij hj
              exact hdown i j (by omega) hij (by omega))
        rw [hend] at hle habove
        refine ⟨by omega,hle,?_,habove⟩
        intro i hi hlt
        by_cases hside : i ≤ first + len / 2
        · exact hdown i (first + len / 2) hi hside (by omega) hmiddle
        · exact hbelow i (by omega) hlt
      case isFalse hmiddle =>
        obtain ⟨hge,hle,hbelow,habove⟩ :=
          @ih first (len / 2) (by omega)
            (by
              intro i j hi hij hj
              exact hdown i j hi hij (by omega))
        refine ⟨hge,by omega,hbelow,?_⟩
        intro i hi hlt
        by_cases hside : i < first + len / 2
        · exact habove i hi hside
        · rw [Bool.eq_false_iff]
          intro hp
          exact hmiddle (hdown (first + len / 2) i (by omega) (by omega) hlt hp)

theorem IsPartitionPoint.congr (h : IsPartitionPoint p lo hi m)
    (hpq : ∀ i, lo ≤ i → i < hi → q i = p i) : IsPartitionPoint q lo hi m where
  ge := h.ge
  le := h.le
  below i hlo hlt := (hpq i hlo (hlt.trans_le h.le)).trans (h.below i hlo hlt)
  above i hge hlt := (hpq i (h.ge.trans hge) hlt).trans (h.above i hge hlt)

theorem IsPartitionPoint.lt_iff (h : IsPartitionPoint p lo hi m) (hlo : lo ≤ i) (hhi : i < hi) :
    i < m ↔ p i = true := by
  refine ⟨h.below i hlo,fun hi => ?_⟩
  by_contra hge
  rw [h.above i (not_lt.mp hge) hhi] at hi
  cases hi

theorem IsPartitionPoint.widen (h : IsPartitionPoint p lo' hi' m) (hlo : lo ≤ lo') (hhi : hi' ≤ hi)
    (hbelow : ∀ i, lo ≤ i → i < lo' → p i = true) (habove : ∀ i, hi' ≤ i → i < hi → p i = false) :
    IsPartitionPoint p lo hi m := by
  refine ⟨hlo.trans h.ge,h.le.trans hhi,?_,?_⟩
  · intro i hi' hlt
    by_cases hside : i < lo'
    · exact hbelow i hi' hside
    · exact h.below i (not_lt.mp hside) hlt
  · intro i hge hlt
    by_cases hside : i < hi'
    · exact h.above i hge hside
    · exact habove i (not_lt.mp hside) hlt

end PredTrans.Library
