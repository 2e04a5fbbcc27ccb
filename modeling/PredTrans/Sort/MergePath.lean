import PredTrans.Library.MergeCuts

/-! `MergeSorter::GetIntersection` finds where the merge of two sorted runs has taken `diagonal`
rows. Comparisons can fail (an index outside a run), and so can subtractions of indices; `none` is
such a failure. -/

namespace PredTrans.Sort

/-- Subtraction of unsigned indices. -/
def subIdx (a b : Nat) : Option Nat := if b ≤ a then some (a - b) else none

theorem subIdx_of_le (h : b ≤ a) : subIdx a b = some (a - b) := if_pos h

section Model

variable (compare : Nat → Nat → Option Int)

/-- The end of `GetIntersection`: at most one step from where the search stopped, by the comparisons
with the two neighbours. -/
def repair (lIdx rIdx : Nat) : Option (Nat × Nat) := do
  let lrMin1 ← compare lIdx (← subIdx rIdx 1)
  let lMin1r ← compare (← subIdx lIdx 1) rIdx
  if lrMin1 > 0 ∧ lMin1r < 0 then some (lIdx, rIdx)
  else if lrMin1 > 0 then some (← subIdx lIdx 1, rIdx + 1)
  else if lMin1r < 0 then some (lIdx + 1, ← subIdx rIdx 1)
  else some (lIdx, rIdx)

/-- The first point of the diagonal: either it is the intersection, or the next point is looked
at. -/
def firstPoint (rCount lIdx rIdx : Nat) : Option (Nat × Nat) := do
  let compRes ← compare (← subIdx lIdx 1) rIdx
  if compRes > 0 then
    let lIdx ← subIdx lIdx 1
    let rIdx := rIdx + 1
    if lIdx = 0 ∨ rIdx = rCount then some (lIdx, rIdx) else repair compare lIdx rIdx
  else some (lIdx, rIdx)

/-- The double binary search. `point` is where it last looked. -/
def search (lCount rCount lOffset rOffset : Nat) :
    Nat → Nat → Nat → Option (Nat × Nat) → Option (Nat × Nat)
  | 0, _, _, _ => none
  | fuel + 1, li, ri, point =>
    if li ≤ ri then do
      let middle := (li + ri) / 2
      let lIdx ← subIdx lOffset middle
      let rIdx := rOffset + middle
      if lIdx = lCount ∨ rIdx = 0 then firstPoint compare rCount lIdx rIdx
      else
        let compRes ← compare lIdx rIdx
        if compRes > 0 then
          search lCount rCount lOffset rOffset fuel (middle + 1) ri (some (lIdx, rIdx))
        else
          search lCount rCount lOffset rOffset fuel li (← subIdx middle 1) (some (lIdx, rIdx))
    else do
      let (lIdx, rIdx) ← point
      repair compare lIdx rIdx

def getIntersection (lCount rCount diagonal : Nat) : Option (Nat × Nat) :=
  if diagonal ≥ lCount + rCount then some (lCount, rCount)
  else if diagonal = 0 then some (0, 0)
  else if lCount = 0 then some (0, diagonal)
  else if rCount = 0 then some (diagonal, 0)
  else do
    let lOffset := min lCount diagonal
    let rOffset := if diagonal > lCount then diagonal - lCount else 0
    let searchSpace := if diagonal > max lCount rCount then lCount + rCount - diagonal
      else min diagonal (min lCount rCount)
    search compare lCount rCount lOffset rOffset (searchSpace + 1) 0 (← subIdx searchSpace 1) none

end Model

/-! ## Along the diagonal

The points of the diagonal are `(lOffset - m, rOffset + m)` for `m ≤ space`. -/

open Library

variable {K : Type} [LinearOrder K]

/-- The comparisons at and next to the diagonal say how two rows compare. -/
def Compares (compare : Nat → Nat → Option Int) (a b : Nat → K) (lCount rCount diagonal : Nat) :
    Prop :=
  ∀ i j, i < lCount → j < rCount → diagonal ≤ i + j + 1 →
    ∃ c, compare i j = some c ∧ (0 < c ↔ b j < a i) ∧ (c < 0 ↔ a i < b j)

/-- Where the diagonal lies in the rectangle of the two runs. -/
structure Diagonal (lCount rCount diagonal lOffset rOffset space : Nat) : Prop where
  sum : lOffset + rOffset = diagonal
  left_le : lOffset ≤ lCount
  corner : lOffset = lCount ∨ rOffset = 0
  space_pos : 0 < space
  space_left : space ≤ lOffset
  space_right : rOffset + space ≤ rCount
  end_reached : space = lOffset ∨ rOffset + space = rCount

variable {compare : Nat → Nat → Option Int} {a b : Nat → K}
  {lCount rCount diagonal lOffset rOffset space : Nat}

/-- The point `m` of the diagonal is a cut. -/
structure CutAt (a b : Nat → K) (lOffset rOffset space m : Nat) : Prop where
  le : m ≤ space
  next : m < space → a (lOffset - (m + 1)) ≤ b (rOffset + m)
  prev : 0 < m → b (rOffset + (m - 1)) ≤ a (lOffset - m)

section

variable (hd : Diagonal lCount rCount diagonal lOffset rOffset space)
  (hcmp : Compares compare a b lCount rCount diagonal) (ha : SortedBelow a lCount)
  (hb : SortedBelow b rCount)
include hd ha hb

theorem CutAt.isCut (h : CutAt a b lOffset rOffset space m) :
    IsCut a b lCount rCount (lOffset - m) (rOffset + m) := by
  have hle := h.le
  have hleft := hd.left_le
  have hsr := hd.space_right
  refine IsCut.of_neighbours ha hb (by omega) (by omega) ?_ ?_
  · intro hl hr
    have hlt : m < space := by have := hd.end_reached; omega
    exact h.next hlt
  · intro hr hl
    have hpos : 0 < m := by have := hd.corner; omega
    have hidx : rOffset + m - 1 = rOffset + (m - 1) := by omega
    rw [hidx]
    exact h.prev hpos

include hcmp

/-- The repair step ends at a cut, if the cuts one step away are only missing the comparison that
the repair makes. -/
theorem repair_spec (hm : 0 < m) (hlt : m < space)
    (hup : m + 1 < space → a (lOffset - (m + 2)) ≤ b (rOffset + (m + 1)))
    (hdown : a (lOffset - m) ≤ b (rOffset + (m - 1)) → 1 < m → b (rOffset + (m - 2)) ≤ a (lOffset -
      (m - 1))) :
    ∃ m', CutAt a b lOffset rOffset space m'
      ∧ repair compare (lOffset - m) (rOffset + m) = some (lOffset - m', rOffset + m') := by
  have hsum := hd.sum
  have hleft := hd.left_le
  have hsl := hd.space_left
  have hsr := hd.space_right
  have hr1 : rOffset + m - 1 = rOffset + (m - 1) := by omega
  have hl1 : lOffset - m - 1 = lOffset - (m + 1) := by omega
  obtain ⟨lr,hlr,hlrpos,hlrneg⟩ := hcmp (lOffset - m) (rOffset + (m - 1)) (by omega) (by omega)
    (by omega)
  obtain ⟨lm,hlm,hlmpos,hlmneg⟩ := hcmp (lOffset - (m + 1)) (rOffset + m) (by omega) (by omega)
    (by omega)
  have hrun : repair compare (lOffset - m) (rOffset + m)
      = if lr > 0 ∧ lm < 0 then some (lOffset - m, rOffset + m)
        else if lr > 0 then some (lOffset - (m + 1), rOffset + (m + 1))
        else if lm < 0 then some (lOffset - (m - 1), rOffset + (m - 1))
        else some (lOffset - m, rOffset + m) := by
    have hup1 : lOffset - m + 1 = lOffset - (m - 1) := by omega
    simp [repair,subIdx_of_le (show 1 ≤ rOffset + m by omega),
      subIdx_of_le (show 1 ≤ lOffset - m by omega),hr1,hl1,hlr,hlm,hup1,add_assoc]
  rw [hrun]
  by_cases hpos : lr > 0
  · have hprev := hlrpos.mp hpos
    by_cases hneg : lm < 0
    · exact ⟨m,⟨hlt.le,fun _ => (hlmneg.mp hneg).le,fun _ => hprev.le⟩,by simp [hpos,hneg]⟩
    · have hge : b (rOffset + m) ≤ a (lOffset - (m + 1)) :=
        not_lt.mp fun h => hneg (hlmneg.mpr h)
      exact ⟨m + 1,⟨hlt,hup,fun _ => by simpa using hge⟩,by simp [hpos,hneg]⟩
  have hle : a (lOffset - m) ≤ b (rOffset + (m - 1)) := not_lt.mp fun h => hpos (hlrpos.mpr h)
  by_cases hneg : lm < 0
  · refine ⟨m - 1,⟨by omega,fun _ => ?_,fun h => ?_⟩,by simp [hpos,hneg]⟩
    · have hidx : m - 1 + 1 = m := by omega
      rw [hidx]
      exact hle
    · have hidx : m - 1 - 1 = m - 2 := by omega
      exact hdown hle (by omega)
  · -- all four neighbours are equal
    have hge : b (rOffset + m) ≤ a (lOffset - (m + 1)) :=
      not_lt.mp fun h => hneg (hlmneg.mpr h)
    have hstep : a (lOffset - (m + 1)) ≤ a (lOffset - m) := ha _ _ (by omega) (by omega)
    have hstep' : b (rOffset + (m - 1)) ≤ b (rOffset + m) := hb _ _ (by omega) (by omega)
    refine ⟨m,⟨hlt.le,fun _ => ?_,fun _ => ?_⟩,by simp [hpos,hneg]⟩
    · exact hstep.trans (hle.trans hstep')
    · exact hstep'.trans (hge.trans hstep)

theorem firstPoint_spec (hup : 2 < space → a (lOffset - 3) ≤ b (rOffset + 2)) :
    ∃ m, CutAt a b lOffset rOffset space m
      ∧ firstPoint compare rCount lOffset rOffset = some (lOffset - m, rOffset + m) := by
  have hsum := hd.sum
  have hleft := hd.left_le
  have hpos := hd.space_pos
  have hsl := hd.space_left
  have hsr := hd.space_right
  obtain ⟨c,hc,hcpos,_⟩ := hcmp (lOffset - 1) rOffset (by omega) (by omega) (by omega)
  have hrun : firstPoint compare rCount lOffset rOffset
      = if c > 0 then
          if lOffset - 1 = 0 ∨ rOffset + 1 = rCount then some (lOffset - 1, rOffset + 1)
          else repair compare (lOffset - 1) (rOffset + 1)
        else some (lOffset, rOffset) := by
    simp [firstPoint,subIdx_of_le (show 1 ≤ lOffset by omega),hc]
  rw [hrun]
  by_cases hgt : c > 0
  · have hprev := hcpos.mp hgt
    rw [if_pos hgt]
    by_cases hend : lOffset - 1 = 0 ∨ rOffset + 1 = rCount
    · exact ⟨1,⟨hpos,fun h => by omega,fun _ => hprev.le⟩,by rw [if_pos hend]⟩
    · have hlt : 1 < space := by have := hd.end_reached; omega
      rw [if_neg hend]
      exact repair_spec hd hcmp ha hb one_pos hlt hup fun _ h => by omega
  · have hle : a (lOffset - 1) ≤ b rOffset := not_lt.mp fun h => hgt (hcpos.mpr h)
    exact ⟨0,⟨Nat.zero_le _,fun _ => hle,fun h => by omega⟩,by rw [if_neg hgt]; rfl⟩

/-- Between the rounds of the search: to the left of `li` the left row is larger, to the right of
`ri` it is not, and the search last looked at one of the two points next to the interval. -/
structure SearchInv (a b : Nat → K) (lOffset rOffset space li ri : Nat)
    (point : Option (Nat × Nat)) : Prop where
  ri_lt : ri < space
  li_le : li ≤ ri + 1
  low : 0 < li → 1 < li ∧ b (rOffset + (li - 1)) < a (lOffset - (li - 1))
  high : ri + 1 < space → a (lOffset - (ri + 1)) ≤ b (rOffset + (ri + 1))
  point : li = 0 ∨ point = some (lOffset - (li - 1), rOffset + (li - 1))
    ∨ ri + 1 < space ∧ point = some (lOffset - (ri + 1), rOffset + (ri + 1))

/-- Where the search stops without having looked at the first point. -/
theorem search_done (hinv : SearchInv a b lOffset rOffset space li ri point) (hgt : ¬li ≤ ri) :
    ∃ m, CutAt a b lOffset rOffset space m
      ∧ (point.bind fun p => repair compare p.1 p.2) = some (lOffset - m, rOffset + m) := by
  have hleft := hd.left_le
  have hsl := hd.space_left
  have hsr := hd.space_right
  have hle := hinv.li_le
  have hlt := hinv.ri_lt
  obtain ⟨hone,hlow⟩ := hinv.low (by omega)
  obtain rfl : li = ri + 1 := by omega
  have hpoint := hinv.point
  rcases hpoint with h | hpt | ⟨hin,hpt⟩
  · omega
  · -- the left row is larger at this point
    rw [hpt]
    refine repair_spec hd hcmp ha hb (by omega) hlt ?_ ?_
    · intro h
      exact (ha _ _ (by omega) (by omega)).trans (hinv.high h)
    · intro hno _
      have hstep : b (rOffset + (ri - 1)) ≤ b (rOffset + ri) := hb _ _ (by omega) (by omega)
      exact absurd (hlow.trans_le (hno.trans hstep)) (lt_irrefl _)
  · -- it is not larger here, but at the point before
    rw [hpt]
    refine repair_spec hd hcmp ha hb (by omega) hin ?_ ?_
    · intro h
      exact (ha _ _ (by omega) (by omega)).trans
        ((hinv.high hin).trans (hb _ _ (by omega) (by omega)))
    · intro _ _
      have hidx : ri + 1 - 2 = ri - 1 := by omega
      exact (hb _ _ (by omega) (by omega)).trans hlow.le

theorem search_spec (hfuel : ri + 1 < fuel + li)
    (hinv : SearchInv a b lOffset rOffset space li ri point) :
    ∃ m, CutAt a b lOffset rOffset space m
      ∧ search compare lCount rCount lOffset rOffset fuel li ri point
        = some (lOffset - m, rOffset + m) := by
  have hsum := hd.sum
  have hleft := hd.left_le
  have hsl := hd.space_left
  have hsr := hd.space_right
  induction fuel generalizing li ri point with
  | zero => have := hinv.li_le; omega
  | succ fuel ih =>
    by_cases hle : li ≤ ri
    · have hlt := hinv.ri_lt
      by_cases hzero : (li + ri) / 2 = 0
      · -- the first point of the diagonal
        have hup : 2 < space → a (lOffset - 3) ≤ b (rOffset + 2) := by
          intro h
          have hhigh := hinv.high (by omega)
          obtain rfl | rfl : ri = 0 ∨ ri = 1 := by omega
          · exact (ha _ _ (by omega) (by omega)).trans (hhigh.trans (hb _ _ (by omega) (by omega)))
          · exact (ha _ _ (by omega) (by omega)).trans hhigh
        obtain ⟨m,hcut,hrun⟩ := firstPoint_spec hd hcmp ha hb hup
        refine ⟨m,hcut,?_⟩
        rw [← hrun]
        have hcorner := hd.corner
        simp [search,hle,hzero,subIdx,hcorner]
      obtain ⟨c,hc,hcpos,_⟩ := hcmp (lOffset - (li + ri) / 2) (rOffset + (li + ri) / 2)
        (by omega) (by omega) (by omega)
      have hinner : ¬(lOffset - (li + ri) / 2 = lCount ∨ rOffset + (li + ri) / 2 = 0) := by omega
      have hsub := subIdx_of_le (show (li + ri) / 2 ≤ lOffset by omega)
      have hsub' := subIdx_of_le (show 1 ≤ (li + ri) / 2 by omega)
      by_cases hgt : c > 0
      · have hrun : search compare lCount rCount lOffset rOffset (fuel + 1) li ri point
            = search compare lCount rCount lOffset rOffset fuel ((li + ri) / 2 + 1) ri
              (some (lOffset - (li + ri) / 2, rOffset + (li + ri) / 2)) := by
          simp only [search,if_pos hle,hsub,Option.bind_eq_bind,Option.bind_some,
            if_neg hinner,hc,if_pos hgt]
        rw [hrun]
        refine ih (by omega) ⟨hlt,by omega,fun _ => ⟨by omega,?_⟩,hinv.high,?_⟩
        · simpa using hcpos.mp hgt
        · exact .inr (.inl (by simp))
      · have hrun : search compare lCount rCount lOffset rOffset (fuel + 1) li ri point
            = search compare lCount rCount lOffset rOffset fuel li ((li + ri) / 2 - 1)
              (some (lOffset - (li + ri) / 2, rOffset + (li + ri) / 2)) := by
          simp only [search,if_pos hle,hsub,hsub',Option.bind_eq_bind,Option.bind_some,
            if_neg hinner,hc,if_neg hgt]
        have hidx : (li + ri) / 2 - 1 + 1 = (li + ri) / 2 := by omega
        rw [hrun]
        refine ih (by omega) ⟨by omega,by omega,hinv.low,fun _ => ?_,?_⟩
        · rw [hidx]
          exact not_lt.mp fun h => hgt (hcpos.mpr h)
        · exact .inr (.inr ⟨by omega,by rw [hidx]⟩)
    · obtain ⟨m,hcut,hrun⟩ := search_done hd hcmp ha hb hinv hle
      refine ⟨m,hcut,?_⟩
      rw [← hrun]
      simp [search,hle]

end

theorem diagonal_of_inside (hpos : 0 < diagonal) (hlt : diagonal < lCount + rCount)
    (hl : 0 < lCount) (hr : 0 < rCount) :
    Diagonal lCount rCount diagonal (min lCount diagonal)
      (if diagonal > lCount then diagonal - lCount else 0)
      (if diagonal > max lCount rCount then lCount + rCount - diagonal
        else min diagonal (min lCount rCount)) := by
  constructor <;> (try split_ifs) <;> omega

theorem getIntersection_spec (hcmp : Compares compare a b lCount rCount diagonal)
    (ha : SortedBelow a lCount) (hb : SortedBelow b rCount) (hle : diagonal ≤ lCount + rCount) :
    ∃ l r, getIntersection compare lCount rCount diagonal = some (l, r) ∧ l + r = diagonal
      ∧ IsCut a b lCount rCount l r := by
  unfold getIntersection
  by_cases hall : diagonal ≥ lCount + rCount
  · exact ⟨lCount,rCount,by rw [if_pos hall],by omega,isCut_all⟩
  by_cases hzero : diagonal = 0
  · exact ⟨0,0,by rw [if_neg hall,if_pos hzero],by omega,isCut_zero⟩
  by_cases hl : lCount = 0
  · refine ⟨0,diagonal,by rw [if_neg hall,if_neg hzero,if_pos hl],by omega,by omega,
      by omega,?_,?_⟩ <;> intros <;> omega
  by_cases hr : rCount = 0
  · refine ⟨diagonal,0,by rw [if_neg hall,if_neg hzero,if_neg hl,if_pos hr],by omega,
      by omega,by omega,?_,?_⟩ <;> intros <;> omega
  rw [if_neg hall,if_neg hzero,if_neg hl,if_neg hr]
  have hd := diagonal_of_inside (Nat.pos_of_ne_zero hzero) (not_le.mp hall)
    (Nat.pos_of_ne_zero hl) (Nat.pos_of_ne_zero hr)
  generalize min lCount diagonal = lOffset at hd ⊢
  generalize (if diagonal > lCount then diagonal - lCount else 0) = rOffset at hd ⊢
  generalize (if diagonal > max lCount rCount then lCount + rCount - diagonal
    else min diagonal (min lCount rCount)) = space at hd ⊢
  have hpos := hd.space_pos
  have hsum := hd.sum
  have hstart : SearchInv a b lOffset rOffset space 0 (space - 1) none :=
    ⟨by omega,by omega,fun h => by omega,fun h => by omega,.inl rfl⟩
  have hfuel : space - 1 + 1 < space + 1 + 0 := by omega
  obtain ⟨m,hcut,hrun⟩ := search_spec hd hcmp ha hb hfuel hstart
  have hm := hcut.le
  have hsl := hd.space_left
  refine ⟨lOffset - m,rOffset + m,?_,by omega,hcut.isCut hd ha hb⟩
  simp [subIdx_of_le (show 1 ≤ space from hpos),hrun]

end PredTrans.Sort
