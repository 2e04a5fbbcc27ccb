import PredTrans.Window.RangeFrames

/-!
When a frame with RANGE offsets is exact, for rows that are visited in order.
-/

namespace PredTrans.Window

open Library BoundWindowExpression
open List hiding next prev

variable {K : Type} {input : WindowInput K} {nullsFirst : Bool} {t : BoundariesState} {row : Nat}

theorem Placed.forall_partition (h : Placed input t row) {P : Nat → Prop} :
    (∀ j, j < input.inputSize → SameGroup input.partitionMask.rowIsValid row j → P j) ↔
      ∀ j, t.partitionStart ≤ j → j < t.partitionEnd → P j := by
  constructor
  · intro hall j hlo hhi
    obtain ⟨hsize,hsame⟩ := (group_mem_iff h.partitionStart h.partitionEnd).mp ⟨hlo,hhi⟩
    exact hall j hsize hsame
  · intro hall j hsize hsame
    obtain ⟨hlo,hhi⟩ := (group_mem_iff h.partitionStart h.partitionEnd).mpr ⟨hsize,hsame⟩
    exact hall j hlo hhi

theorem Placed.peerStart_eq_iff (h : Placed input t row) (hmasks : MasksWf input) :
    t.peerStart = row ↔ input.orderMask.rowIsValid row = true := by
  constructor
  · intro heq
    rcases h.peerStart.start with hzero | hstart
    · rw [← heq,hzero]
      exact hmasks.order_zero
    · rwa [heq] at hstart
  · intro hvalid
    by_contra hne
    have hlt := lt_of_le_of_ne h.peerStart.le hne
    rw [h.peerStart.none_between row hlt le_rfl] at hvalid
    cases hvalid

variable [LinearOrder K]

/-- The bounds of a RANGE frame. -/
def RangeFrame (wexpr : BoundWindowExpression) : Prop :=
  (wexpr.start = .unboundedPreceding ∨ wexpr.start = .currentRowRange ∨
    wexpr.start = .exprPrecedingRange ∨ wexpr.start = .exprFollowingRange) ∧
  (wexpr.end_ = .unboundedFollowing ∨ wexpr.end_ = .currentRowRange ∨
    wexpr.end_ = .exprPrecedingRange ∨ wexpr.end_ = .exprFollowingRange)

/-- The bound value of a row comes from a non-negative offset: it is NULL for a NULL key, and else
not behind the key for PRECEDING and not before it for FOLLOWING. -/
def BoundFits (input : WindowInput K) (boundary : WindowBoundary) (row : Nat)
    (value : Option K) : Prop :=
  match boundary with
  | .exprPrecedingRange =>
    (input.range.cellIsNull row = true → value = none) ∧
      (input.range.cellIsNull row = false → ∃ val, value = some val ∧
        input.wexpr.rangeSense.comp (input.range.getCell row) val = false)
  | .exprFollowingRange =>
    (input.range.cellIsNull row = true → value = none) ∧
      (input.range.cellIsNull row = false → ∃ val, value = some val ∧
        input.wexpr.rangeSense.comp val (input.range.getCell row) = false)
  | _ => True

theorem BoundFits.notNull (h : BoundFits input boundary row (some val))
    (hb : boundary = .exprPrecedingRange ∨ boundary = .exprFollowingRange) :
    input.range.cellIsNull row = false := by
  rcases hb with rfl | rfl
  all_goals
    by_contra hnull
    have hnone := h.1 (by simpa using hnull)
    cases hnone

/-- The frame start, if it is given by an offset, is where the rows begin that are not before the
bound, or where the peers of a NULL key begin. -/
def StartExact (input : WindowInput K) (nullsFirst : Bool) (start : Int) (row : Nat)
    (value : Option K) : Prop :=
  input.wexpr.start = .exprPrecedingRange ∨ input.wexpr.start = .exprFollowingRange →
    ∀ j : Nat, j < input.inputSize → SameGroup input.partitionMask.rowIsValid row j →
      (start ≤ j ↔ match value with
        | none => row ≤ j ∨ SameGroup input.orderMask.rowIsValid row j
        | some val => NotBefore input nullsFirst val j)

/-- The frame end, if it is given by an offset, is where the rows end that are not behind the
bound, or where the peers of a NULL key end. -/
def EndExact (input : WindowInput K) (nullsFirst : Bool) (end_ : Int) (row : Nat)
    (value : Option K) : Prop :=
  input.wexpr.end_ = .exprPrecedingRange ∨ input.wexpr.end_ = .exprFollowingRange →
    ∀ j : Nat, j < input.inputSize → SameGroup input.partitionMask.rowIsValid row j →
      ((j : Int) < end_ ↔ match value with
        | none => j ≤ row ∨ SameGroup input.orderMask.rowIsValid row j
        | some val => NotAfter input nullsFirst val j)

/-- A start bound behind the row is not the key of the row, unless the row is the first of its
peers. -/
def StartAllows (input : WindowInput K) (row : Nat) (value : Option K) : Prop :=
  input.wexpr.start = .exprFollowingRange → value = some (input.range.getCell row) →
    input.orderMask.rowIsValid row = true

/-- Two rows that follow each other in the partition of `row` have the key `val`. -/
structure TiedAt (input : WindowInput K) (row first : Nat) (val : K) : Prop where
  lt : first + 1 < input.inputSize
  partition : SameGroup input.partitionMask.rowIsValid row first ∧
    SameGroup input.partitionMask.rowIsValid row (first + 1)
  notNull : input.range.cellIsNull first = false ∧ input.range.cellIsNull (first + 1) = false
  key : input.range.getCell first = val ∧ input.range.getCell (first + 1) = val

/-- An end bound before the row is not the key of the row, and no end bound is a key with ties
whose first row the previous frame ended at. -/
structure EndAllows (input : WindowInput K) (s : BoundariesState) (row : Nat)
    (value : Option K) : Prop where
  preceding : input.wexpr.end_ = .exprPrecedingRange → ∀ val, value = some val →
    val ≠ input.range.getCell row ∧
      ¬ (HintsKept input s row ∧ s.prev.end_ + 1 < row ∧ TiedAt input row s.prev.end_ val)
  following : input.wexpr.end_ = .exprFollowingRange → ∀ val, value = some val →
    ¬ (HintsKept input s row ∧ row ≤ s.prev.end_ ∧ TiedAt input row s.prev.end_ val)

/-- The searches for the end of the frame find it in this state. -/
structure EndFree (input : WindowInput K) (t : BoundariesState) (row : Nat)
    (value : Option K) : Prop where
  preceding : input.wexpr.end_ = .exprPrecedingRange → ∀ val, value = some val →
    val ≠ input.range.getCell row ∧ ¬ EndTrap input.range t.validStart row val t.prev
  following : input.wexpr.end_ = .exprFollowingRange → ∀ val, value = some val →
    ¬ EndTrap input.range row t.validEnd val t.prev

theorem Ranged.atKey (h : RangeInput input nullsFirst) (hplaced : Placed input t row)
    (hranged : Ranged input nullsFirst t row) (hnull : input.range.cellIsNull row = false) :
    AtKey input nullsFirst t row :=
  ⟨h,hplaced.isPartition,hplaced.partitionStart.le,hplaced.partitionEnd.lt,hranged.valid,
    hnull⟩

section

variable (hkey : AtKey input nullsFirst t row) (hranged : Ranged input nullsFirst t row)
  (hplaced : Placed input t row)
include hkey

include hranged in
theorem searchStart_preceding (hstart : input.wexpr.start = .exprPrecedingRange)
    (hval : input.wexpr.rangeSense.comp (input.range.getCell row) val = false) :
    ∃ p, p = findOrderedRangeBound true input.range input.wexpr.rangeSense t.validStart row val
        t.prev ∧ p ≤ row ∧
      IsPartitionPoint (fun i => input.wexpr.rangeSense.comp (input.range.getCell i) val)
        t.validStart row p ∧
      HintFirst input t.partitionStart t.partitionEnd p := by
  have hpreceding : input.wexpr.hasPrecedingRange = true := by
    simp [hasPrecedingRange,hstart]
  have hsorted := hkey.sortedOn_before hpreceding
  have hhint : FirstOfKey input.wexpr.rangeSense input.range t.validStart row t.prev.start := by
    intro hlo hhi
    have hge := hkey.valid.ge
    have hlt := hkey.lt
    exact (hranged.hint.preceding hstart).2 (by omega) (by omega)
      (hkey.notNull_before hpreceding (by omega) (by omega))
      (hkey.notNull_before hpreceding (by omega) (by omega))
  have hpoint := findStart_isPoint hsorted hkey.validStart_le hhint val
  refine ⟨_,rfl,hpoint.le,hpoint,?_⟩
  intro hlo hhi hnull hnull'
  have hin := (hkey.valid.covers _ (by omega) (by omega) hnull).1
  have hbelow := hpoint.below _ hin (by omega)
  apply comp_of_comp_of_not hbelow
  rcases Nat.lt_or_eq_of_le hpoint.le with hlt | heq
  · exact hpoint.above _ le_rfl hlt
  · rw [heq]
    exact hval

include hranged in
theorem searchStart_following (hstart : input.wexpr.start = .exprFollowingRange) (val : K) :
    ∃ p, p = findOrderedRangeBound true input.range input.wexpr.rangeSense row t.validEnd val
        t.prev ∧
      IsPartitionPoint (fun i => input.wexpr.rangeSense.comp (input.range.getCell i) val)
        row t.validEnd p ∧
      (row < p → HintFirst input t.partitionStart t.partitionEnd p) := by
  have hfollowing : input.wexpr.hasFollowingRange = true := by
    simp [hasFollowingRange,hstart]
  have hsorted := hkey.sortedOn_behind hfollowing
  have hhint : FirstOfKey input.wexpr.rangeSense input.range row t.validEnd t.prev.start := by
    intro hlo hhi
    have hge := hkey.ge
    have hle := hkey.valid.le_end
    exact hranged.hint.following hstart hlo (by omega) (by omega)
      (hkey.notNull_behind hfollowing (by omega) (by omega))
      (hkey.notNull_behind hfollowing (by omega) (by omega))
  have hpoint := findStart_isPoint hsorted hkey.lt_validEnd.le hhint val
  refine ⟨_,rfl,hpoint,?_⟩
  intro hrow hlo hhi hnull hnull'
  have hin := (hkey.valid.covers _ (by omega) hhi hnull').2
  exact comp_of_comp_of_not (hpoint.below _ (by omega) (by omega))
    (hpoint.above _ le_rfl hin)

include hplaced in
theorem AtKey.exists_peer_before (hne : t.peerStart ≠ row) :
    ∃ j, t.partitionStart ≤ j ∧ j < row ∧ input.range.cellIsNull j = false ∧
      input.range.getCell j = input.range.getCell row := by
  have hlt : t.peerStart < row := lt_of_le_of_ne hplaced.peerStart.le hne
  have hnone := hplaced.peerStart.none_between row hlt le_rfl
  have hsize := hkey.lt.trans_le hkey.partition.le
  have hge : t.partitionStart ≤ row - 1 := by
    by_contra hgt
    have heq : t.partitionStart = row := by
      have := hkey.ge
      omega
    rcases hplaced.partitionStart.start with hzero | hstart
    · omega
    · rw [heq] at hstart
      rw [hkey.input_ok.masks.order_of_partition row hsize hstart] at hnone
      cases hnone
  obtain ⟨hnull,hcell⟩ := hkey.input_ok.peer_eq hkey.partition hge (Nat.sub_le row 1) hkey.lt (by
    intro k hk hk'
    obtain rfl : k = row := by omega
    exact hnone)
  have hnull' : input.range.cellIsNull (row - 1) = false := hnull.trans hkey.notNull
  exact ⟨row - 1,hge,by omega,hnull',hcell hnull'⟩

include hplaced in
theorem AtKey.not_before_of_eq (heq : t.peerStart = row) (hlo : t.partitionStart ≤ j)
    (hnull : input.range.cellIsNull j = false)
    (hcell : input.range.getCell j = input.range.getCell row) : row ≤ j := by
  by_contra hlt
  have hjr : j < row := not_le.mp hlt
  have hall : ∀ k, j ≤ k → k ≤ row → input.range.cellIsNull k = false := by
    intro k hk hk'
    cases hknull : input.range.cellIsNull k with
    | false => rfl
    | true =>
      have hfirst := hkey.input_ok.null_left hkey.partition (hlo.trans hk) hk' hkey.lt
        hkey.notNull hknull
      have hlast := hkey.input_ok.null_right hkey.partition hlo hk (hk'.trans_lt hkey.lt)
        hnull hknull
      rw [hfirst] at hlast
      cases hlast
  have hsame := hkey.input_ok.sameGroup_of_eq hkey.partition hlo hjr.le hkey.lt
    (fun k hk hk' => (hall k hk hk').trans hnull.symm) (by
      intro _ k hk hk'
      have hlow := hkey.sorted hlo hk (hk'.trans_lt hkey.lt) hnull (hall k hk hk')
      have hhigh := hkey.sorted (hlo.trans hk) hk' hkey.lt (hall k hk hk') hkey.notNull
      rw [← hcell] at hhigh
      exact eq_of_comp hlow hhigh)
  have hstart := (hplaced.peerStart.mem_iff hjr.le).mpr (fun k hk hk' =>
    hsame k (by omega) (by omega))
  omega

include hplaced in
theorem AtKey.start_following_iff (hstart : input.wexpr.start = .exprFollowingRange)
    (hval : input.wexpr.rangeSense.comp val (input.range.getCell row) = false)
    (hp : IsPartitionPoint (fun i => input.wexpr.rangeSense.comp (input.range.getCell i) val) row
      t.validEnd p) :
    (∀ j, t.partitionStart ≤ j → j < t.partitionEnd →
      (p ≤ j ↔ NotBefore input nullsFirst val j)) ↔
    (val = input.range.getCell row → t.peerStart = row) := by
  have hfollowing : input.wexpr.hasFollowingRange = true := by
    simp [hasFollowingRange,hstart]
  constructor
  · intro hexact hcell
    by_contra hne
    obtain ⟨j,hlo,hlt,hnull,hpeer⟩ := hkey.exists_peer_before hplaced hne
    have hnot : NotBefore input nullsFirst val j := by
      simp [NotBefore,hnull,hpeer,hcell,comp_self]
    have := (hexact j hlo (hlt.trans hkey.lt)).mpr hnot
    have := hp.ge
    omega
  intro hallow j hlo hhi
  have hpoint := hkey.point_behind hfollowing
    (q := fun key => input.wexpr.rangeSense.comp key val) (by
      intro j hlo hlt hnull
      by_contra hnot
      rw [Bool.not_eq_true] at hnot
      -- The key of `j` is not before the bound, and the bound not before the key of the row.
      have hsorted := hkey.sorted hlo hlt.le hkey.lt hnull hkey.notNull
      have hcell : input.range.getCell j = input.range.getCell row :=
        eq_of_comp (comp_trans hval hnot) hsorted
      rw [hcell] at hnot
      have := hkey.not_before_of_eq hplaced (hallow (eq_of_comp hval hnot)) hlo hnull hcell
      omega) hp
  rw [notBefore_iff,← Bool.not_eq_true,← hpoint.lt_iff hlo hhi,not_lt]

theorem AtKey.end_preceding_iff (hend : input.wexpr.end_ = .exprPrecedingRange)
    (hval : input.wexpr.rangeSense.comp (input.range.getCell row) val = false)
    (prev : FrameBounds) : (∀ j, t.partitionStart ≤ j → j < t.partitionEnd →
      (j < findOrderedRangeBound false input.range input.wexpr.rangeSense t.validStart row val
        prev ↔ NotAfter input nullsFirst val j)) ↔
    val ≠ input.range.getCell row ∧ ¬ EndTrap input.range t.validStart row val prev := by
  have hpreceding : input.wexpr.hasPrecedingRange = true := by
    simp [hasPrecedingRange,hend]
  have hsorted := hkey.sortedOn_before hpreceding
  constructor
  · intro hexact
    have htrap : ¬ EndTrap input.range t.validStart row val prev := by
      intro htrap
      obtain ⟨i,hlo,hhi,hnot,hle⟩ := findEnd_trapped hsorted htrap
      have hafter : NotAfter input nullsFirst val i := by
        simp [NotAfter,hkey.notNull_before hpreceding hlo hhi.le,hnot]
      have := (hexact i (hkey.valid.ge.trans hlo) (hhi.trans hkey.lt)).mpr hafter
      omega
    refine ⟨?_,htrap⟩
    rintro rfl
    have hafter : NotAfter input nullsFirst (input.range.getCell row) row := by
      simp [NotAfter,hkey.notNull,comp_self]
    have hlt := (hexact row hkey.ge hkey.lt).mpr hafter
    have hle := (findEnd_isPoint hsorted hkey.validStart_le htrap).le
    omega
  · rintro ⟨hne,htrap⟩ j hlo hhi
    have hbefore : input.wexpr.rangeSense.comp val (input.range.getCell row) = true := by
      by_contra hnot
      exact hne (eq_of_comp (by simpa using hnot) hval)
    have hpoint := hkey.point_before hpreceding
      (q := fun key => !input.wexpr.rangeSense.comp val key)
      (fun j hge hlt hnull => by
        simp [comp_of_comp_of_not hbefore (hkey.sorted hkey.ge hge hlt hkey.notNull hnull)])
      (findEnd_isPoint hsorted hkey.validStart_le htrap)
    rw [notAfter_iff,hpoint.lt_iff hlo hhi]

theorem AtKey.end_following_iff (hend : input.wexpr.end_ = .exprFollowingRange)
    (hval : input.wexpr.rangeSense.comp val (input.range.getCell row) = false)
    (prev : FrameBounds) : (∀ j, t.partitionStart ≤ j → j < t.partitionEnd →
      (j < findOrderedRangeBound false input.range input.wexpr.rangeSense row t.validEnd val
        prev ↔ NotAfter input nullsFirst val j)) ↔
    ¬ EndTrap input.range row t.validEnd val prev := by
  have hfollowing : input.wexpr.hasFollowingRange = true := by
    simp [hasFollowingRange,hend]
  have hsorted := hkey.sortedOn_behind hfollowing
  constructor
  · intro hexact htrap
    obtain ⟨i,hlo,hhi,hnot,hle⟩ := findEnd_trapped hsorted htrap
    have hafter : NotAfter input nullsFirst val i := by
      simp [NotAfter,hkey.notNull_behind hfollowing hlo hhi,hnot]
    have := (hexact i (hkey.ge.trans hlo) (hhi.trans_le hkey.valid.le_end)).mpr hafter
    omega
  · intro htrap j hlo hhi
    have hpoint := hkey.point_behind hfollowing
      (q := fun key => !input.wexpr.rangeSense.comp val key)
      (fun j hge hlt hnull => by
        simp [comp_trans (hkey.sorted hge hlt.le hkey.lt hnull hkey.notNull) hval])
      (findEnd_isPoint hsorted hkey.lt_validEnd.le htrap)
    rw [notAfter_iff,hpoint.lt_iff hlo hhi]

include hplaced in
theorem AtKey.endTrap_preceding_iff (hend : input.wexpr.end_ = .exprPrecedingRange)
    (val : K) (prev : FrameBounds) : EndTrap input.range t.validStart row val prev ↔
      prev.end_ + 1 < row ∧ TiedAt input row prev.end_ val := by
  have hpreceding : input.wexpr.hasPrecedingRange = true := by
    simp [hasPrecedingRange,hend]
  have hmem := fun j => group_mem_iff (j := j) hplaced.partitionStart hplaced.partitionEnd
  have hlt := hkey.lt
  constructor
  · rintro ⟨hlo,hhi,hcell,hnext⟩
    have hge := hkey.valid.ge
    exact ⟨hhi,((hmem _).mp ⟨by omega,by omega⟩).1,
      ⟨((hmem _).mp ⟨by omega,by omega⟩).2,((hmem _).mp ⟨by omega,by omega⟩).2⟩,
      ⟨hkey.notNull_before hpreceding hlo (by omega),
        hkey.notNull_before hpreceding (by omega) (by omega)⟩,hcell,hnext⟩
  · rintro ⟨hhi,htied⟩
    obtain ⟨hlo,hin⟩ := (hmem _).mpr ⟨Nat.lt_of_succ_lt htied.lt,htied.partition.1⟩
    exact ⟨(hkey.valid.covers _ hlo hin htied.notNull.1).1,hhi,htied.key⟩

include hplaced in
theorem AtKey.endTrap_following_iff (hend : input.wexpr.end_ = .exprFollowingRange)
    (val : K) (prev : FrameBounds) : EndTrap input.range row t.validEnd val prev ↔
      row ≤ prev.end_ ∧ TiedAt input row prev.end_ val := by
  have hfollowing : input.wexpr.hasFollowingRange = true := by
    simp [hasFollowingRange,hend]
  have hmem := fun j => group_mem_iff (j := j) hplaced.partitionStart hplaced.partitionEnd
  have hge := hkey.ge
  constructor
  · rintro ⟨hlo,hhi,hcell,hnext⟩
    have hle := hkey.valid.le_end
    exact ⟨hlo,((hmem _).mp ⟨by omega,by omega⟩).1,
      ⟨((hmem _).mp ⟨by omega,by omega⟩).2,((hmem _).mp ⟨by omega,by omega⟩).2⟩,
      ⟨hkey.notNull_behind hfollowing hlo (by omega),
        hkey.notNull_behind hfollowing (by omega) hhi⟩,hcell,hnext⟩
  · rintro ⟨hlo,htied⟩
    obtain ⟨hlo',hin⟩ := (hmem _).mpr ⟨htied.lt,htied.partition.2⟩
    exact ⟨hlo,(hkey.valid.covers _ hlo' hin htied.notNull.2).2,htied.key⟩

end

/-- The condition in terms of the state that the row before has left: where the hints are reset,
the end of the valid keys is behind every search. -/
theorem endFree_iff (h : RangeInput input nullsFirst) (hs : Before input nullsFirst s row)
    (hrow : row < input.inputSize) (hfits : BoundFits input input.wexpr.end_ row value) :
    EndFree input (s.updatePartition input row) row value ↔ EndAllows input s row value := by
  have hplaced := (located_updatePartition h.masks hrow hs.visited).toPlaced
  have hranged := ranged_updatePartition h hs hrow
  have hpreceding : input.wexpr.end_ = .exprPrecedingRange → ∀ val, value = some val →
      (EndTrap input.range (s.updatePartition input row).validStart row val
          (s.updatePartition input row).prev ↔
        HintsKept input s row ∧ s.prev.end_ + 1 < row ∧ TiedAt input row s.prev.end_ val) := by
    rintro hend val rfl
    have hnull := hfits.notNull (.inl hend)
    have hkey := hranged.atKey h hplaced hnull
    rw [hkey.endTrap_preceding_iff hplaced hend]
    rcases updatePartition_prev h hs hrow hnull with ⟨hkept,hprev⟩ | ⟨hreset,hprev⟩
    · simp [hprev,hkept]
    · have hlt := hkey.lt_validEnd
      simp only [hprev,hreset,false_and,iff_false]
      rintro ⟨hlt',-⟩
      omega
  have hfollowing : input.wexpr.end_ = .exprFollowingRange → ∀ val, value = some val →
      (EndTrap input.range row (s.updatePartition input row).validEnd val
          (s.updatePartition input row).prev ↔
        HintsKept input s row ∧ row ≤ s.prev.end_ ∧ TiedAt input row s.prev.end_ val) := by
    rintro hend val rfl
    have hnull := hfits.notNull (.inr hend)
    have hkey := hranged.atKey h hplaced hnull
    rcases updatePartition_prev h hs hrow hnull with ⟨hkept,hprev⟩ | ⟨hreset,hprev⟩
    · rw [hkey.endTrap_following_iff hplaced hend]
      simp [hprev,hkept]
    · simp only [EndTrap,hprev,hreset,false_and,iff_false]
      rintro ⟨-,hlt,-⟩
      omega
  constructor
  · intro hfree
    refine ⟨fun hend val hval => ?_,fun hend val hval => ?_⟩
    · rw [← hpreceding hend val hval]
      exact hfree.preceding hend val hval
    · rw [← hfollowing hend val hval]
      exact hfree.following hend val hval
  · intro hallows
    refine ⟨fun hend val hval => ?_,fun hend val hval => ?_⟩
    · rw [hpreceding hend val hval]
      exact hallows.preceding hend val hval
    · rw [hfollowing hend val hval]
      exact hallows.following hend val hval

theorem exact_clamp (h : Placed input t row) (bound : Int) (value : Option K) :
    (StartExact input nullsFirst (t.clamp bound) row value ↔
      StartExact input nullsFirst bound row value) ∧
    (EndExact input nullsFirst (t.clamp bound) row value ↔
      EndExact input nullsFirst bound row value) := by
  have hle := h.partitionStart.le.trans h.partitionEnd.lt.le
  obtain ⟨_,_,hclamp⟩ := clamp_spec hle bound
  unfold StartExact EndExact
  constructor
  all_goals
    rw [h.forall_partition,h.forall_partition]
    refine imp_congr_right fun _ => forall_congr' fun j => ?_
    refine imp_congr_right fun hlo => imp_congr_right fun hhi => ?_
  · rw [(hclamp j hlo hhi).1]
  · rw [(hclamp j hlo hhi).2]

section

variable (h : RangeInput input nullsFirst) (hframe : RangeFrame input.wexpr)
  (hranged : Ranged input nullsFirst t row)
include h hframe

include hranged in
theorem frameStart_range (hplaced : Placed input t row)
    (hfits : BoundFits input input.wexpr.start row cell.value) :
    ∃ start prev, t.frameStart input row cell = .ok (start, prev) ∧ prev.end_ = t.prev.end_ ∧
      HintOk input { t with prev := prev } row ∧
      (StartExact input nullsFirst start row cell.value ↔ StartAllows input row cell.value) := by
  have hkept : HintOk input { t with prev := t.prev } row :=
    ⟨hranged.hint.preceding,hranged.hint.following⟩
  unfold BoundariesState.frameStart
  rcases hframe.1 with hb | hb | hb | hb <;> rw [hb] at hfits ⊢ <;> dsimp only
  case inl | inr.inl => exact ⟨_,_,rfl,rfl,hkept,by simp [StartExact,StartAllows,hb]⟩
  all_goals
    cases hnull : input.range.cellIsNull row with
    | true =>
      rw [hfits.1 hnull]
      refine ⟨_,_,rfl,rfl,hkept,?_⟩
      simp only [StartExact,StartAllows,hb]
      simpa using fun j _ _ => hplaced.peerStart_le_iff j
    | false => ?_
    obtain ⟨val,hvalue,hval⟩ := hfits.2 hnull
    have hkey := hranged.atKey h hplaced hnull
    rw [hvalue]
  · obtain ⟨p,hp,hle,hpoint,hfirst⟩ := searchStart_preceding hkey hranged hb hval
    refine ⟨_,_,rfl,rfl,⟨fun _ => ?_,fun hother => ?_⟩,?_⟩
    · dsimp only
      rw [← hp]
      exact ⟨hle.trans hkey.lt.le,hfirst⟩
    · rw [hb] at hother
      cases hother
    have hpreceding : input.wexpr.hasPrecedingRange = true := by
      simp [hasPrecedingRange,hb]
    simp only [StartExact,StartAllows,hb,true_or,forall_const,reduceCtorEq,
      false_implies,iff_true]
    rw [hplaced.forall_partition]
    intro j hlo hhi
    have hpoint := hkey.point_before hpreceding
      (q := fun key => input.wexpr.rangeSense.comp key val)
      (fun j hge hlt hnull => comp_trans hval (hkey.sorted hkey.ge hge hlt hkey.notNull hnull))
      hpoint
    rw [← hp,Int.ofNat_le,notBefore_iff,← Bool.not_eq_true,← hpoint.lt_iff hlo hhi,not_lt]
  · obtain ⟨p,hp,hpoint,hfirst⟩ := searchStart_following hkey hranged hb val
    refine ⟨_,_,rfl,rfl,⟨fun hother => ?_,fun _ => ?_⟩,?_⟩
    · rw [hb] at hother
      cases hother
    · dsimp only
      rw [← hp]
      exact hfirst
    · simp only [StartExact,StartAllows,hb,or_true,forall_const,Option.some.injEq]
      rw [hplaced.forall_partition,← hp,← hplaced.peerStart_eq_iff h.masks]
      simpa only [Int.ofNat_le] using hkey.start_following_iff hplaced hb hval hpoint

include hranged in
theorem frameEnd_range (hlocated : Located input t row)
    (hfits : BoundFits input input.wexpr.end_ row cell.value) :
    ∃ end_ prev, t.frameEnd input row cell = .ok (end_, prev) ∧ prev.start = t.prev.start ∧
      (EndExact input nullsFirst end_ row cell.value ↔ EndFree input t row cell.value) := by
  have hplaced := hlocated.toPlaced
  unfold BoundariesState.frameEnd
  rcases hframe.2 with hb | hb | hb | hb <;> rw [hb] at hfits ⊢ <;> dsimp only
  case inl | inr.inl =>
    refine ⟨_,_,rfl,rfl,?_⟩
    simp only [EndExact,hb]
    exact ⟨fun _ => ⟨by simp [hb],by simp [hb]⟩,by simp⟩
  all_goals
    have hneeds : input.wexpr.needsPeer = true := by
      simp [needsPeer,hb,boundaryNeedsPeer]
    cases hnull : input.range.cellIsNull row with
    | true =>
      rw [hfits.1 hnull]
      refine ⟨_,_,rfl,rfl,⟨fun _ => ⟨by simp,by simp⟩,fun _ _ j hj _ => ?_⟩⟩
      exact hlocated.lt_peerEnd_iff hneeds hj
    | false => ?_
    obtain ⟨val,hvalue,hval⟩ := hfits.2 hnull
    have hkey := hranged.atKey h hplaced hnull
    rw [hvalue]
    refine ⟨_,_,rfl,rfl,?_⟩
    simp only [EndExact,hb,true_or,or_true,forall_const]
    rw [hplaced.forall_partition]
    simp
  · rw [hkey.end_preceding_iff hb hval t.prev]
    constructor
    · rintro hallow
      refine ⟨fun _ v hv => ?_,by simp [hb]⟩
      obtain rfl := Option.some.inj hv
      exact hallow
    · exact fun hallow => hallow.preceding hb val rfl
  · rw [hkey.end_following_iff hb hval t.prev]
    constructor
    · rintro hallow
      refine ⟨by simp [hb],fun _ v hv => ?_⟩
      obtain rfl := Option.some.inj hv
      exact hallow
    · exact fun hallow => hallow.following hb val rfl

/-- A call at a row of the input with fitting bound values. -/
structure RangeCall (input : WindowInput K) (call : UpdateCall K) : Prop where
  row_lt : call.row < input.inputSize
  start_fits : BoundFits input input.wexpr.start call.row call.startCell.value
  end_fits : BoundFits input input.wexpr.end_ call.row call.endCell.value

/-- The frame has exactly the rows that the bounds ask for, on the sides given by an offset. -/
def RangeExact (input : WindowInput K) (nullsFirst : Bool) (s : BoundariesState)
    (call : UpdateCall K) : Prop :=
  StartExact input nullsFirst s.windowStart call.row call.startCell.value ∧
    EndExact input nullsFirst s.windowEnd call.row call.endCell.value

/-- The bounds of a call that follows the state do not meet the two cases that are not handled. -/
def RangeAllows (input : WindowInput K) (s : BoundariesState) (call : UpdateCall K) : Prop :=
  StartAllows input call.row call.startCell.value ∧
    EndAllows input s call.row call.endCell.value

theorem update_range (hs : Before input nullsFirst s call.row) (hcall : RangeCall input call) :
    ∃ s', s.update input call.row call.startCell call.endCell = .ok s' ∧
      (∀ next, call.row < next → Before input nullsFirst s' next) ∧
      (RangeExact input nullsFirst s' call ↔ RangeAllows input s call) := by
  have hlocated := located_updatePartition h.masks hcall.row_lt hs.visited
  have hranged := ranged_updatePartition h hs hcall.row_lt
  have hfree := endFree_iff h hs hcall.row_lt hcall.end_fits
  generalize ht : s.updatePartition input call.row = t at hlocated hranged hfree
  have hplaced := hlocated.toPlaced
  obtain ⟨start,prev,hstart,hend,hhint,hstartIff⟩ := frameStart_range
    (t := { t with nextPos := call.row + 1, windowStart := -1, windowEnd := -1 }) h hframe
    ⟨hranged.valid,hranged.hint.preceding,hranged.hint.following⟩
    { hplaced with } hcall.start_fits
  obtain ⟨end_,prev',hend',hprev',hendIff⟩ := frameEnd_range
    (t := { t with nextPos := call.row + 1, windowStart := start, windowEnd := -1, prev := prev })
    h hframe ⟨hranged.valid,hhint.preceding,hhint.following⟩
    ⟨{ hplaced with },hlocated.peerEnd⟩ hcall.end_fits
  have hle := hplaced.partitionStart.le.trans hplaced.partitionEnd.lt.le
  refine ⟨_,update_eq ht hstart hend' hle,?_,?_⟩
  · intro next hnext
    refine .inr ⟨call.row,hnext,hcall.row_lt,rfl,
      ⟨{ hplaced with },hlocated.peerEnd⟩,
      hranged.valid,?_,?_⟩
    · rw [hprev']
      exact hhint.preceding
    · rw [hprev']
      exact hhint.following
  · refine and_congr ((exact_clamp hplaced start _).1.trans hstartIff)
      ((exact_clamp hplaced end_ _).2.trans (hendIff.trans (Iff.trans ?_ hfree)))
    have htrap : ∀ lo hi val, EndTrap input.range lo hi val prev ↔
        EndTrap input.range lo hi val t.prev := by
      intro lo hi val
      unfold EndTrap
      rw [hend]
    constructor <;> intro hallow
    all_goals
      exact ⟨fun hb v hv => by simpa only [htrap] using hallow.preceding hb v hv,
        fun hb v hv => by simpa only [htrap] using hallow.following hb v hv⟩

theorem runUpdates_before (hcalls : ∀ c ∈ calls, RangeCall input c)
    (hsorted : calls.Pairwise fun a b => a.row < b.row)
    (hs : ∀ c ∈ calls, Before input nullsFirst s c.row) (hnext : ∀ c ∈ calls, c.row < next)
    (hsnext : Before input nullsFirst s next) :
    ∃ s', runUpdates input s calls = .ok s' ∧ Before input nullsFirst s' next := by
  induction calls generalizing s with
  | nil => exact ⟨s,rfl,hsnext⟩
  | cons call calls ih =>
    obtain ⟨hcall,hrest⟩ := forall_mem_cons.mp hcalls
    obtain ⟨hlt,hsorted'⟩ := pairwise_cons.mp hsorted
    obtain ⟨s₁,hupdate,hbefore,_⟩ :=
      update_range h hframe (hs call mem_cons_self) hcall
    obtain ⟨s',hrun,hs'⟩ := ih hrest hsorted' (fun c hc => hbefore c.row (hlt c hc))
      (forall_mem_cons.mp hnext).2 (hbefore next (hnext call mem_cons_self))
    refine ⟨s',?_,hs'⟩
    unfold runUpdates at hrun ⊢
    rw [foldlM_cons,hupdate]
    exact hrun

end

/-- Rows visited in order: the frame of a row is exact on the sides given by an offset exactly when
its bounds do not meet one of the two cases that are not handled. -/
theorem range_frame_exact_iff (h : RangeInput input nullsFirst) (hframe : RangeFrame input.wexpr)
    (calls : List (UpdateCall K)) (last : UpdateCall K)
    (hsorted : (calls ++ [last]).Pairwise fun a b => a.row < b.row)
    (hcalls : ∀ c ∈ calls ++ [last], RangeCall input c) :
    ∃ s s', runUpdates input .initial calls = .ok s ∧
      s.update input last.row last.startCell last.endCell = .ok s' ∧
      (RangeExact input nullsFirst s' last ↔ RangeAllows input s last) := by
  obtain ⟨hearlier,hlast⟩ := forall_mem_append.mp hcalls
  obtain ⟨hpairs,_,hbelow⟩ := pairwise_append.mp hsorted
  have hinitial : ∀ row, Before input nullsFirst .initial row :=
    fun row => .inl ⟨rfl,rfl,rfl,rfl⟩
  obtain ⟨s,hrun,hs⟩ := runUpdates_before h hframe hearlier hpairs (fun c _ => hinitial c.row)
    (fun c hc => hbelow c hc last (mem_singleton_self last)) (hinitial last.row)
  obtain ⟨s',hupdate,_,hiff⟩ :=
    update_range h hframe hs (hlast last (mem_singleton_self last))
  exact ⟨s,s',hrun,hupdate,hiff⟩

/-- The keys 1, 2, 3, 3 with the frame from the current row to a following bound. -/
def tiedKeys : WindowInput Nat where
  wexpr := ⟨.other, .currentRowRange, .exprFollowingRange, 0, 1, .ascending, .noOther⟩
  inputSize := 4
  range := ⟨fun i => [1, 2, 3, 3].getD i 0, fun _ => false⟩
  partitionMask := ⟨some fun _ => 1⟩
  orderMask := ⟨some fun _ => 7⟩

theorem tiedKeys_input : RangeInput tiedKeys false := by
  refine ⟨⟨by decide,by decide,?_,?_,fun h => absurd h (by decide)⟩,rfl,?_,?_,?_⟩
  · intro i (hi : i < 4)
    interval_cases i <;> decide
  · intro _ i hpos (hi : i < 4)
    interval_cases i <;> decide
  · intro i j hij (hj : j < 4) _ _ _
    interval_cases j <;> interval_cases i <;> decide
  · simp [tiedKeys]
  · intro i (hi : i + 1 < 4) _
    have : i < 3 := by omega
    interval_cases i <;> decide

theorem tiedKeys_frame : RangeFrame tiedKeys.wexpr := by simp [RangeFrame,tiedKeys]

theorem tiedKeys_call (hrow : row < 4) (startCell : BoundaryCell Nat) :
    RangeCall tiedKeys
      ⟨row, startCell, ⟨0, some (tiedKeys.range.getCell row + 1)⟩⟩ := by
  refine ⟨hrow,trivial,fun h => by simp [tiedKeys] at h,fun _ => ⟨_,rfl,?_⟩⟩
  simp [tiedKeys,OrderType.comp]

/-- The third row follows two others and has the exact frame. -/
theorem range_frame_exact_third_row : ∃ s s',
    runUpdates tiedKeys .initial
      [⟨0, ⟨0, none⟩, ⟨0, some 2⟩⟩, ⟨1, ⟨0, none⟩, ⟨0, some 3⟩⟩] = .ok s ∧
    s.prev.end_ = 3 ∧
    s.update tiedKeys 2 ⟨0, none⟩ ⟨0, some 4⟩ = .ok s' ∧
    RangeAllows tiedKeys s ⟨2, ⟨0, none⟩, ⟨0, some 4⟩⟩ ∧
    RangeExact tiedKeys false s' ⟨2, ⟨0, none⟩, ⟨0, some 4⟩⟩ := by
  obtain ⟨s,s',hrun,hupdate,hiff⟩ := range_frame_exact_iff tiedKeys_input tiedKeys_frame
    [⟨0,⟨0,none⟩,⟨0,some 2⟩⟩,⟨1,⟨0,none⟩,⟨0,some 3⟩⟩] ⟨2,⟨0,none⟩,⟨0,some 4⟩⟩ (by simp) (by
      simp only [cons_append,nil_append,forall_mem_cons]
      exact ⟨@tiedKeys_call 0 (by decide) _,@tiedKeys_call 1 (by decide) _,
        @tiedKeys_call 2 (by decide) _,by simp⟩)
  have hprev : s.prev.end_ = 3 := by
    cases hrun
    rfl
  have hallows : RangeAllows tiedKeys s ⟨2,⟨0,none⟩,⟨0,some 4⟩⟩ := by
    refine ⟨fun hstart => by simp [tiedKeys] at hstart,fun hend => by simp [tiedKeys] at hend,?_⟩
    rintro - val - ⟨-,-,htied⟩
    have hlt := htied.lt
    simp [hprev,tiedKeys] at hlt
  exact ⟨s,s',hrun,hprev,hupdate,hallows,hiff.mpr hallows⟩

/-- The frame of the second row ends in front of the last row, whose key is the bound. -/
theorem tiedKeys_second_row :
    RangeInput tiedKeys false ∧ RangeFrame tiedKeys.wexpr ∧
    RangeCall tiedKeys ⟨0, ⟨0, none⟩, ⟨0, some 2⟩⟩ ∧
    RangeCall tiedKeys ⟨1, ⟨0, none⟩, ⟨0, some 3⟩⟩ ∧
    ∃ s s', runUpdates tiedKeys .initial [⟨0, ⟨0, none⟩, ⟨0, some 2⟩⟩] = .ok s ∧
      s.update tiedKeys 1 ⟨0, none⟩ ⟨0, some 3⟩ = .ok s' ∧
      ¬ RangeExact tiedKeys false s' ⟨1, ⟨0, none⟩, ⟨0, some 3⟩⟩ := by
  refine ⟨tiedKeys_input,tiedKeys_frame,@tiedKeys_call 0 (by decide) _,
    @tiedKeys_call 1 (by decide) _,_,_,rfl,rfl,?_⟩
  rintro ⟨_,hend⟩
  have hsame : SameGroup tiedKeys.partitionMask.rowIsValid 1 3 := by
    intro k hk (hk' : k ≤ 3)
    have : 1 < k := hk
    interval_cases k <;> decide
  have hlast := (hend (.inr rfl) 3 (by decide) hsame).mpr
    (by simp [NotAfter,tiedKeys,OrderType.comp])
  revert hlast
  decide

end PredTrans.Window
