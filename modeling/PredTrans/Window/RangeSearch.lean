import PredTrans.Window.PartitionBounds

/-!
Searching a RANGE bound with hints from the previous frame. The hint for the start never hurts
where it is the first row of its key; the hint for the end cuts off ties.
-/

namespace PredTrans.Window

open Library

variable {K : Type} [LinearOrder K] {sense : OrderType} {a b c : K}

theorem comp_self (sense : OrderType) (a : K) : sense.comp a a = false := by
  cases sense <;> simp [OrderType.comp]

/-- Neither comes before the other. -/
theorem eq_of_comp (h : sense.comp a b = false) (h' : sense.comp b a = false) : a = b := by
  cases sense <;> simp [OrderType.comp] at h h'
  · exact le_antisymm h' h
  · exact le_antisymm h h'

theorem comp_trans (h : sense.comp b a = false) (h' : sense.comp c b = false) :
    sense.comp c a = false := by
  cases sense <;> simp [OrderType.comp] at h h' ⊢
  · exact le_trans h h'
  · exact le_trans h' h

theorem comp_of_comp_of_not (h : sense.comp a b = true) (h' : sense.comp c b = false) :
    sense.comp a c = true := by
  cases sense <;> simp [OrderType.comp] at h h' ⊢
  · exact lt_of_lt_of_le h h'
  · exact lt_of_le_of_lt h' h

theorem comp_of_not_of_comp (h : sense.comp b a = false) (h' : sense.comp b c = true) :
    sense.comp a c = true := by
  cases sense <;> simp [OrderType.comp] at h h' ⊢
  · exact lt_of_le_of_lt h h'
  · exact lt_of_lt_of_le h' h

/-- The keys of `[lo, hi)` are in the order of the rows. -/
def SortedOn (sense : OrderType) (column : WindowInputColumn K) (lo hi : Nat) : Prop :=
  ∀ i j, lo ≤ i → i ≤ j → j < hi → sense.comp (column.getCell j) (column.getCell i) = false

theorem partitionPoint_isPoint (hle : lo ≤ hi) (h : HoldsDown p lo hi) :
    IsPartitionPoint p lo hi (partitionPoint p (hi - lo) lo (hi - lo)) := by
  have hend : lo + (hi - lo) = hi := by omega
  have hspec := @partitionPoint_spec p (hi - lo) lo (hi - lo) le_rfl (hend.symm ▸ h)
  rwa [hend] at hspec

variable {column : WindowInputColumn K} {lo hi : Nat} {val : K} {prev : FrameBounds}

section

variable (h : SortedOn sense column lo hi)
include h

theorem SortedOn.mono (hlo : lo ≤ lo') (hhi : hi' ≤ hi) : SortedOn sense column lo' hi' :=
  fun i j hi' hij hj => h i j (hlo.trans hi') hij (hj.trans_le hhi)

/-- The keys before a bound come first. -/
theorem SortedOn.before (val : K) : HoldsDown (fun i => sense.comp (column.getCell i) val) lo hi :=
  fun i j hi' hij hj hp => comp_of_not_of_comp (h i j hi' hij hj) hp

/-- So do the keys that are not behind it. -/
theorem SortedOn.notAfter (val : K) :
    HoldsDown (fun i => !sense.comp val (column.getCell i)) lo hi := by
  intro i j hi' hij hj hp
  simp only [Bool.not_eq_true'] at hp ⊢
  exact comp_trans (h i j hi' hij hj) hp

theorem lowerBound_isPoint (hle : lo ≤ hi) (val : K) :
    IsPartitionPoint (fun i => sense.comp (column.getCell i) val) lo hi
      (lowerBound sense column lo hi val) :=
  partitionPoint_isPoint hle (h.before val)

theorem upperBound_isPoint (hle : lo ≤ hi) (val : K) :
    IsPartitionPoint (fun i => !sense.comp val (column.getCell i)) lo hi
      (upperBound sense column lo hi val) :=
  partitionPoint_isPoint hle (h.notAfter val)

end

/-- An empty search returns its beginning. -/
theorem upperBound_of_ge (sense : OrderType) (column : WindowInputColumn K) (val : K)
    (h : hi ≤ lo) : upperBound sense column lo hi val = lo := by
  have hzero : hi - lo = 0 := by omega
  rw [upperBound,hzero,partitionPoint]

section

variable (sense : OrderType) (column : WindowInputColumn K) (lo hi : Nat) (val : K)
  (prev : FrameBounds)

theorem hintedBegin_cases :
    hintedBegin sense column lo hi val prev = lo ∨
    hintedBegin sense column lo hi val prev = prev.start ∧ lo < prev.start ∧ prev.start < hi ∧
      sense.comp val (column.getCell prev.start) = false := by
  unfold hintedBegin
  split
  case isTrue h => exact .inr ⟨rfl,h.1,h.2.1,by simpa using h.2.2⟩
  case isFalse => exact .inl rfl

theorem hintedEnd_cases :
    hintedEnd sense column lo hi val prev = hi ∨
    hintedEnd sense column lo hi val prev = prev.end_ + 1 ∧ lo ≤ prev.end_ ∧ prev.end_ < hi ∧
      sense.comp (column.getCell prev.end_) val = false := by
  unfold hintedEnd
  split
  case isTrue h => exact .inr ⟨rfl,h.1,h.2.1,by simpa using h.2.2⟩
  case isFalse => exact .inl rfl

end

/-- A row of `[lo, hi)` behind `lo` is the first one with its key. -/
def FirstOfKey (sense : OrderType) (column : WindowInputColumn K) (lo hi i : Nat) : Prop :=
  lo < i → i < hi → sense.comp (column.getCell (i - 1)) (column.getCell i) = true

section

variable (h : SortedOn sense column lo hi) (hle : lo ≤ hi)
include h hle

theorem hintedBegin_start (hhint : FirstOfKey sense column lo hi prev.start) (val : K) :
    lo ≤ hintedBegin sense column lo hi val prev ∧
    hintedBegin sense column lo hi val prev ≤ hi ∧
    ∀ i, lo ≤ i → i < hintedBegin sense column lo hi val prev →
      sense.comp (column.getCell i) val = true := by
  rcases hintedBegin_cases sense column lo hi val prev with hb | ⟨hb,hlo,hhi,hbefore⟩
  · rw [hb]
    exact ⟨le_rfl,hle,fun i hi' hlt => absurd hi' (not_le.mpr hlt)⟩
  rw [hb]
  refine ⟨hlo.le,hhi.le,?_⟩
  intro i hi' hlt
  have hprev := h i (prev.start - 1) hi' (by omega) (by omega)
  exact comp_of_comp_of_not (comp_of_not_of_comp hprev (hhint hlo hhi)) hbefore

theorem hintedEnd_start (val : K) (prev : FrameBounds) :
    lo ≤ hintedEnd sense column lo hi val prev ∧ hintedEnd sense column lo hi val prev ≤ hi ∧
    ∀ i, lo ≤ i → hintedEnd sense column lo hi val prev ≤ i + 1 → i < hi →
      hintedEnd sense column lo hi val prev = hi ∨
        sense.comp (column.getCell i) val = false := by
  rcases hintedEnd_cases sense column lo hi val prev with he | ⟨he,hlo,hhi,hafter⟩
  · rw [he]
    exact ⟨hle,le_rfl,fun _ _ _ _ => .inl rfl⟩
  · rw [he]
    refine ⟨by omega,hhi,?_⟩
    intro i _ hge hlt
    exact .inr (comp_trans hafter (h prev.end_ i hlo (by omega) hlt))

theorem findStart_isPoint (hhint : FirstOfKey sense column lo hi prev.start) (val : K) :
    IsPartitionPoint (fun i => sense.comp (column.getCell i) val) lo hi
      (findOrderedRangeBound true column sense lo hi val prev) := by
  simp only [findOrderedRangeBound,if_true]
  obtain ⟨hlo,hhi,hbelow⟩ := hintedBegin_start h hle hhint val
  obtain ⟨hlo',hhi',habove⟩ := hintedEnd_start h hle val prev
  generalize hintedBegin sense column lo hi val prev = first at *
  generalize hintedEnd sense column lo hi val prev = last at *
  have horder : first ≤ last := by
    by_contra hgt
    rcases habove (first - 1) (by omega) (by omega) (by omega) with hend | hnot
    · omega
    · rw [hbelow (first - 1) (by omega) (by omega)] at hnot
      cases hnot
  apply (lowerBound_isPoint (h.mono hlo hhi') horder val).widen hlo hhi' hbelow
  intro i hge hlt
  rcases habove i (by omega) (by omega) hlt with hend | hnot
  · omega
  · exact hnot

end

/-- The hint for the end is a row with the bound as its key that is followed by another one. -/
def EndTrap (column : WindowInputColumn K) (lo hi : Nat) (val : K) (prev : FrameBounds) : Prop :=
  lo ≤ prev.end_ ∧ prev.end_ + 1 < hi ∧ column.getCell prev.end_ = val ∧
    column.getCell (prev.end_ + 1) = val

section

variable (h : SortedOn sense column lo hi)
include h

/-- What an end search may skip in front. -/
theorem hintedBegin_end (hle : lo ≤ hi) (val : K) (prev : FrameBounds) :
    lo ≤ hintedBegin sense column lo hi val prev ∧
    hintedBegin sense column lo hi val prev ≤ hi ∧
    ∀ i, lo ≤ i → i < hi → i ≤ hintedBegin sense column lo hi val prev →
      hintedBegin sense column lo hi val prev = lo ∨
        sense.comp val (column.getCell i) = false := by
  rcases hintedBegin_cases sense column lo hi val prev with hb | ⟨hb,hlo,hhi,hbefore⟩
  · rw [hb]
    exact ⟨le_rfl,hle,fun _ _ _ _ => .inl rfl⟩
  · rw [hb]
    refine ⟨hlo.le,hhi.le,?_⟩
    intro i hi' _ hlt
    exact .inr (comp_trans (h i prev.start hi' hlt hhi) hbefore)

theorem hintedEnd_end (hle : lo ≤ hi) (htrap : ¬ EndTrap column lo hi val prev) :
    lo ≤ hintedEnd sense column lo hi val prev ∧ hintedEnd sense column lo hi val prev ≤ hi ∧
    ∀ i, hintedEnd sense column lo hi val prev ≤ i → i < hi →
      sense.comp val (column.getCell i) = true := by
  rcases hintedEnd_cases sense column lo hi val prev with he | ⟨he,hlo,hhi,hafter⟩
  · rw [he]
    exact ⟨hle,le_rfl,fun i hge hlt => absurd hge (not_le.mpr hlt)⟩
  rw [he]
  refine ⟨by omega,hhi,?_⟩
  intro i hge hlt
  have hsorted := h (prev.end_ + 1) i (by omega) hge hlt
  have hstep := h prev.end_ (prev.end_ + 1) hlo (Nat.le_succ _) (by omega)
  have hnext : sense.comp val (column.getCell (prev.end_ + 1)) = true := by
    by_contra hnot
    have hle' : sense.comp val (column.getCell (prev.end_ + 1)) = false := by simpa using hnot
    have hback := comp_trans hafter hstep
    have heq := eq_of_comp hback hle'
    refine htrap ⟨hlo,by omega,?_,heq⟩
    exact eq_of_comp hafter (comp_trans hstep hle')
  exact comp_of_comp_of_not hnext hsorted

theorem findEnd_isPoint (hle : lo ≤ hi) (htrap : ¬ EndTrap column lo hi val prev) :
    IsPartitionPoint (fun i => !sense.comp val (column.getCell i)) lo hi
      (findOrderedRangeBound false column sense lo hi val prev) := by
  simp only [findOrderedRangeBound,Bool.false_eq_true,if_false]
  obtain ⟨hlo,hhi,hbelow⟩ := hintedBegin_end h hle val prev
  obtain ⟨hlo',hhi',habove⟩ := @hintedEnd_end K _ sense column lo hi val prev h hle htrap
  generalize hintedBegin sense column lo hi val prev = first at *
  generalize hintedEnd sense column lo hi val prev = last at *
  have horder : first ≤ last := by
    by_contra hgt
    rcases hbelow last hlo' (by omega) (by omega) with hend | hnot
    · omega
    · rw [habove last le_rfl (by omega)] at hnot
      cases hnot
  apply (upperBound_isPoint (h.mono hlo hhi') horder val).widen hlo hhi'
  · intro i hge hlt
    rcases hbelow i hge (by omega) (by omega) with hend | hnot
    · omega
    · simpa using hnot
  · intro i hge hlt
    simpa using habove i hge hlt

theorem findEnd_trapped (htrap : EndTrap column lo hi val prev) :
    ∃ i, lo ≤ i ∧ i < hi ∧ sense.comp val (column.getCell i) = false ∧
      findOrderedRangeBound false column sense lo hi val prev ≤ i := by
  obtain ⟨hlo,hhi,hkey,hnext⟩ := htrap
  simp only [findOrderedRangeBound,Bool.false_eq_true,if_false]
  have hend : hintedEnd sense column lo hi val prev = prev.end_ + 1 := by
    unfold hintedEnd
    rw [if_pos ⟨hlo,by omega,by simp [hkey,comp_self]⟩]
  rw [hend]
  rcases lt_or_ge (prev.end_ + 1) (hintedBegin sense column lo hi val prev) with hgt | hle
  · rw [upperBound_of_ge sense column val hgt.le]
    rcases hintedBegin_cases sense column lo hi val prev with hb | ⟨hb,hlo',hhi',hbefore⟩
    · omega
    · rw [hb]
      exact ⟨prev.start,hlo'.le,hhi',hbefore,le_rfl⟩
  · refine ⟨prev.end_ + 1,by omega,hhi,by rw [hnext,comp_self],?_⟩
    have hlo' : lo ≤ hintedBegin sense column lo hi val prev := by
      rcases hintedBegin_cases sense column lo hi val prev with hb | ⟨hb,hlt,_⟩ <;> omega
    exact (upperBound_isPoint (h.mono hlo' hhi.le) hle val).le

end

end PredTrans.Window
