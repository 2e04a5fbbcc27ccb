import Mathlib

/-!
# Positions divided into groups by their first members

`starts` marks the first position of each group.
-/

namespace PredTrans.Library

variable {starts : Nat → Bool} {i j lo hi : Nat}

/-- No group starts between the two positions. -/
def SameGroup (starts : Nat → Bool) (i j : Nat) : Prop :=
  ∀ k, min i j < k → k ≤ max i j → starts k = false

/-- `lo` is the first position of the group of `i`, or the first one at all. -/
structure IsGroupStart (starts : Nat → Bool) (i lo : Nat) : Prop where
  le : lo ≤ i
  start : lo = 0 ∨ starts lo = true
  none_between : ∀ k, lo < k → k ≤ i → starts k = false

/-- `hi` is the first position behind the group of `i`, or the end `size`. -/
structure IsGroupEnd (starts : Nat → Bool) (size i hi : Nat) : Prop where
  lt : i < hi
  le : hi ≤ size
  start : hi = size ∨ starts hi = true
  none_between : ∀ k, i < k → k < hi → starts k = false

theorem IsGroupStart.mem_iff (h : IsGroupStart starts i lo) (hj : j ≤ i) :
    lo ≤ j ↔ SameGroup starts i j := by
  constructor
  · intro hle k hk hk'
    exact h.none_between k (by omega) (by omega)
  intro hsame
  by_contra hlt
  rcases h.start with h0 | hstart
  · omega
  · have hle := h.le
    have := hsame lo (by omega) (by omega)
    rw [hstart] at this
    cases this

theorem IsGroupEnd.mem_iff (h : IsGroupEnd starts size i hi) (hj : i ≤ j) (hsize : j < size) :
    j < hi ↔ SameGroup starts i j := by
  constructor
  · intro hlt k hk hk'
    exact h.none_between k (by omega) (by omega)
  intro hsame
  by_contra hge
  rcases h.start with hend | hstart
  · omega
  · have hlt := h.lt
    have := hsame hi (by omega) (by omega)
    rw [hstart] at this
    cases this

/-- The two bounds enclose exactly the group. -/
theorem group_mem_iff (hlo : IsGroupStart starts i lo) (hhi : IsGroupEnd starts size i hi) :
    lo ≤ j ∧ j < hi ↔ j < size ∧ SameGroup starts i j := by
  rcases le_total j i with hj | hj
  · have hsize : j < size := hj.trans_lt (hhi.lt.trans_le hhi.le)
    have hlt : j < hi := hj.trans_lt hhi.lt
    rw [hlo.mem_iff hj]
    simp [hlt,hsize]
  · have hle : lo ≤ j := hlo.le.trans hj
    constructor
    · rintro ⟨_,hlt⟩
      have hsize := hlt.trans_le hhi.le
      exact ⟨hsize,(hhi.mem_iff hj hsize).mp hlt⟩
    · rintro ⟨hsize,hsame⟩
      exact ⟨hle,(hhi.mem_iff hj hsize).mpr hsame⟩

/-- In a group the bounds of one member are those of the others. -/
theorem IsGroupStart.of_sameGroup (h : IsGroupStart starts i lo) (hij : i ≤ j)
    (hsame : SameGroup starts i j) : IsGroupStart starts j lo := by
  refine ⟨h.le.trans hij,h.start,?_⟩
  intro k hk hk'
  by_cases hki : k ≤ i
  · exact h.none_between k hk hki
  · exact hsame k (by omega) (by omega)

theorem IsGroupEnd.of_sameGroup (h : IsGroupEnd starts size i hi) (hij : i ≤ j) (hj : j < hi) :
    IsGroupEnd starts size j hi :=
  ⟨hj,h.le,h.start,fun k hk hk' => h.none_between k (hij.trans_lt hk) hk'⟩

theorem IsGroupStart.unique (h : IsGroupStart starts i lo) (h' : IsGroupStart starts i lo') :
    lo = lo' := by
  have hle : ∀ {a b}, IsGroupStart starts i a → IsGroupStart starts i b → b ≤ a := by
    intro a b ha hb
    by_contra hlt
    rcases hb.start with hzero | hstart
    · omega
    · rw [ha.none_between b (not_le.mp hlt) hb.le] at hstart
      cases hstart
  exact le_antisymm (hle h' h) (hle h h')

theorem IsGroupEnd.unique (h : IsGroupEnd starts size i hi) (h' : IsGroupEnd starts size i hi') :
    hi = hi' := by
  have hle : ∀ {a b}, IsGroupEnd starts size i a → IsGroupEnd starts size i b → b ≤ a := by
    intro a b ha hb
    by_contra hlt
    have hbs := hb.le
    rcases ha.start with hend | hstart
    · omega
    · rw [hb.none_between a ha.lt (not_le.mp hlt)] at hstart
      cases hstart
  exact le_antisymm (hle h' h) (hle h h')

theorem IsGroupEnd.le_start (h : IsGroupEnd starts size i hi) (hj : hi ≤ j) (hsize : j < size)
    (hlo : IsGroupStart starts j lo) : hi ≤ lo := by
  by_contra hlt
  rcases h.start with hend | hstart
  · omega
  · rw [hlo.none_between hi (not_le.mp hlt) hj] at hstart
    cases hstart

/-- The groups of a monotone sequence that starts a group wherever its value changes. -/
theorem sameGroup_iff_eq {α : Type} [LinearOrder α] {f : Nat → α} {size : Nat}
    (hmono : ∀ i j, i ≤ j → j < size → f i ≤ f j)
    (hstarts : ∀ k, 0 < k → k < size → (starts k = false ↔ f (k - 1) = f k))
    (hi : i < size) (hj : j < size) : SameGroup starts i j ↔ f i = f j := by
  wlog hij : i ≤ j generalizing i j
  · rw [eq_comm,← this hj hi (by omega)]
    unfold SameGroup
    rw [min_comm,max_comm]
  unfold SameGroup
  rw [min_eq_left hij,max_eq_right hij]
  constructor
  · intro hsame
    induction hij with
    | refl => rfl
    | @step m hij ih =>
      have hij : i ≤ m := hij
      rw [ih (by omega) (fun k hk hk' => hsame k hk (by omega))]
      exact (hstarts (m + 1) (by omega) hj).mp (hsame (m + 1) (by omega) le_rfl)
  · intro heq k hk hk'
    rw [hstarts k (by omega) (by omega)]
    apply le_antisymm (hmono _ _ (by omega) (by omega))
    calc f k ≤ f j := hmono _ _ hk' hj
      _ = f i := heq.symm
      _ ≤ f (k - 1) := hmono _ _ (by omega) (by omega)

end PredTrans.Library
