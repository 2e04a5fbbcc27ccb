import PredTrans.Window.Boundaries

/-!
The cached partition and peer boundaries are exact after every sequence of updates, and so are the
frames without RANGE offsets.
-/

namespace PredTrans.Window

open Library
open List hiding prev

variable {K : Type} {input : WindowInput K} {s : BoundariesState} {row : Nat}

/-- The masks belong to the window expression: both mark the first row, a partition start is an
order start, without PARTITION BY there is one partition and without ORDER BY no order start
inside a partition. -/
structure MasksWf (input : WindowInput K) : Prop where
  partition_zero : input.partitionMask.rowIsValid 0 = true
  order_zero : input.orderMask.rowIsValid 0 = true
  order_of_partition : ∀ i, i < input.inputSize → input.partitionMask.rowIsValid i = true →
    input.orderMask.rowIsValid i = true
  one_partition : input.wexpr.partitions = 0 → ∀ i, 0 < i → i < input.inputSize →
    input.partitionMask.rowIsValid i = false
  no_order : input.wexpr.orders = 0 → ∀ i, i < input.inputSize →
    input.orderMask.rowIsValid i = true → input.partitionMask.rowIsValid i = true

/-- The state has the partition of a row and the start of its peers. -/
structure Placed (input : WindowInput K) (s : BoundariesState) (row : Nat) : Prop where
  partitionStart : IsGroupStart input.partitionMask.rowIsValid row s.partitionStart
  partitionEnd : IsGroupEnd input.partitionMask.rowIsValid input.inputSize row s.partitionEnd
  peerStart : IsGroupStart input.orderMask.rowIsValid row s.peerStart

/-- The state has all boundaries of a row. -/
structure Located (input : WindowInput K) (s : BoundariesState) (row : Nat) : Prop
    extends Placed input s row where
  peerEnd : input.wexpr.needsPeer = true →
    IsGroupEnd input.orderMask.rowIsValid input.inputSize row s.peerEnd

/-- A state that updates reach: nothing is visited yet, or it has the boundaries of the row before
`nextPos`. -/
def Visited (input : WindowInput K) (s : BoundariesState) : Prop :=
  s.nextPos = 0 ∧ s.partitionStart = 0 ∧ s.peerStart = 0 ∨
    ∃ row, row < input.inputSize ∧ s.nextPos = row + 1 ∧ Located input s row

variable {mask : ValidityMask} {lo hi size : Nat}

theorem IsPrev.groupStart (h : IsPrev mask 0 (row + 1) p) : IsGroupStart mask.rowIsValid row p :=
  ⟨Nat.le_of_lt_succ (h.lt (Nat.succ_pos row)),h.found,
    fun k hk hk' => h.none_after k hk (Nat.lt_succ_of_le hk')⟩

/-- The next start behind the start of a group ends the group, up to a limit that no member of the
group exceeds. -/
theorem IsNext.groupEnd (h : IsNext mask (lo + 1) limit p)
    (hlo : IsGroupStart mask.rowIsValid row lo) (hrow : row < limit) (hsize : limit ≤ size)
    (hlimit : limit = size ∨ mask.rowIsValid limit = true) :
    IsGroupEnd mask.rowIsValid size row p := by
  have hlt : row < p := by
    by_contra hge
    have hvalid := h.found ((not_lt.mp hge).trans_lt hrow)
    have hge' := h.ge
    rw [hlo.none_between p (by omega) (not_lt.mp hge)] at hvalid
    cases hvalid
  refine ⟨hlt,h.le.trans hsize,?_,?_⟩
  · rcases Nat.lt_or_eq_of_le h.le with hp | rfl
    · exact .inr (h.found hp)
    · exact hlimit
  · intro k hk hk'
    have hle := hlo.le
    exact h.none_before k (by omega) hk'

theorem groupStart_succ (h : IsGroupStart mask.rowIsValid row lo)
    (hrow : mask.rowIsValid (row + 1) = false) :
    IsGroupStart mask.rowIsValid (row + 1) lo := by
  refine h.of_sameGroup (Nat.le_succ row) ?_
  intro k hk hk'
  obtain rfl : k = row + 1 := by omega
  exact hrow

theorem groupEnd_succ (h : IsGroupEnd mask.rowIsValid size row hi)
    (hrow : mask.rowIsValid (row + 1) = false) (hsize : row + 1 < size) :
    IsGroupEnd mask.rowIsValid size (row + 1) hi := by
  refine h.of_sameGroup (Nat.le_succ row) ?_
  rcases Nat.lt_or_eq_of_le (Nat.succ_le_of_lt h.lt) with hlt | rfl
  · exact hlt
  · rcases h.start with heq | hvalid
    · omega
    · rw [hrow] at hvalid
      cases hvalid

theorem groupStart_self (h : mask.rowIsValid row = true) : IsGroupStart mask.rowIsValid row row :=
  ⟨le_rfl,.inr h,fun _ hk hk' => absurd hk (not_lt.mpr hk')⟩

theorem updateValid_bounds (input : WindowInput K) (s : BoundariesState) :
    (s.updateValid input).partitionStart = s.partitionStart ∧
    (s.updateValid input).partitionEnd = s.partitionEnd ∧
    (s.updateValid input).peerStart = s.peerStart := by
  unfold BoundariesState.updateValid
  dsimp only
  split
  · exact ⟨rfl,rfl,rfl⟩
  · exact ⟨rfl,rfl,rfl⟩

theorem MasksWf.order_of_not_partition (hmasks : MasksWf input) (horders : input.wexpr.orders = 0)
    (hk : k < input.inputSize) (hpartition : input.partitionMask.rowIsValid k = false) :
    input.orderMask.rowIsValid k = false := by
  by_contra horder
  rw [hmasks.no_order horders k hk (by simpa using horder)] at hpartition
  cases hpartition

theorem Placed.isPeerEnd (hmasks : MasksWf input) (h : Placed input s row) :
    IsGroupEnd input.orderMask.rowIsValid input.inputSize row
      (if input.wexpr.orders ≠ 0 then
        (findNextStart input.orderMask (s.peerStart + 1) s.partitionEnd 1).1
      else s.partitionEnd) := by
  obtain ⟨hlt,hle,hstart,hnone⟩ := h.partitionEnd
  have hlimit : s.partitionEnd = input.inputSize ∨
      input.orderMask.rowIsValid s.partitionEnd = true := by
    rcases Nat.lt_or_eq_of_le hle with hlt' | heq
    · rcases hstart with heq | hvalid
      · exact .inl heq
      · exact .inr (hmasks.order_of_partition _ hlt' hvalid)
    · exact .inl heq
  split
  case isTrue =>
    have hpeer := h.peerStart.le
    exact (findNextStart_one (by omega)).groupEnd h.peerStart hlt hle hlimit
  case isFalse horders =>
    refine ⟨hlt,hle,hlimit,?_⟩
    intro k hk hk'
    exact hmasks.order_of_not_partition (not_not.mp horders) (hk'.trans_le hle) (hnone k hk hk')

theorem partitionEnd_spec (hmasks : MasksWf input) (hrow : row < input.inputSize)
    (hlo : IsGroupStart input.partitionMask.rowIsValid row lo) :
    IsGroupEnd input.partitionMask.rowIsValid input.inputSize row
      (if input.wexpr.partitions ≠ 0 then
        (findNextStart input.partitionMask (lo + 1) input.inputSize 1).1
      else input.inputSize) := by
  split
  case isTrue =>
    have hle := hlo.le
    exact (findNextStart_one (by omega)).groupEnd hlo hrow le_rfl (.inl rfl)
  case isFalse hpartitions =>
    refine ⟨hrow,le_rfl,.inl rfl,?_⟩
    intro k hk hk'
    exact hmasks.one_partition (not_not.mp hpartitions) k (by omega) hk'

theorem Placed.updateValid (h : Placed input s row) : Placed input (s.updateValid input) row := by
  obtain ⟨h1,h2,h3⟩ := updateValid_bounds input s
  exact ⟨h1 ▸ h.partitionStart,h2 ▸ h.partitionEnd,h3 ▸ h.peerStart⟩

section

variable (hmasks : MasksWf input) (hcount : input.wexpr.partitions + input.wexpr.orders = 0)
  (hrow : row < input.inputSize)
include hmasks hcount hrow

theorem start_eq_zero (h : IsGroupStart input.orderMask.rowIsValid row lo) : lo = 0 := by
  rcases h.start with heq | hvalid
  · exact heq
  by_contra hne
  have hlt := h.le.trans_lt hrow
  have hpartition := hmasks.one_partition (by omega) lo (Nat.pos_of_ne_zero hne) hlt
  rw [hmasks.order_of_not_partition (by omega) hlt hpartition] at hvalid
  cases hvalid

theorem groupStart_zero_of_single :
    IsGroupStart input.partitionMask.rowIsValid row 0 ∧
      IsGroupStart input.orderMask.rowIsValid row 0 := by
  have hpartition : ∀ k, 0 < k → k ≤ row → input.partitionMask.rowIsValid k = false :=
    fun k hk hk' => hmasks.one_partition (by omega) k hk (hk'.trans_lt hrow)
  refine ⟨⟨Nat.zero_le _,.inl rfl,hpartition⟩,⟨Nat.zero_le _,.inl rfl,?_⟩⟩
  intro k hk hk'
  exact hmasks.order_of_not_partition (by omega) (hk'.trans_lt hrow) (hpartition k hk hk')

theorem groupEnd_of_single :
    IsGroupEnd input.partitionMask.rowIsValid input.inputSize row input.inputSize ∧
      IsGroupEnd input.orderMask.rowIsValid input.inputSize row input.inputSize := by
  have hpartition : ∀ k, row < k → k < input.inputSize →
      input.partitionMask.rowIsValid k = false :=
    fun k hk hk' => hmasks.one_partition (by omega) k (by omega) hk'
  refine ⟨⟨hrow,le_rfl,.inl rfl,hpartition⟩,⟨hrow,le_rfl,.inl rfl,?_⟩⟩
  intro k hk hk'
  exact hmasks.order_of_not_partition (by omega) hk' (hpartition k hk hk')

end

/-- The state with a partition and a start of the peers that are found anew. -/
def BoundariesState.placeAt (input : WindowInput K) (s : BoundariesState)
    (partitionStart peerStart : Nat) : BoundariesState :=
  { s with
    partitionStart := partitionStart
    peerStart := peerStart
    partitionEnd :=
      if input.wexpr.partitions ≠ 0 then
        (findNextStart input.partitionMask (partitionStart + 1) input.inputSize 1).1
      else input.inputSize }

section

variable (hmasks : MasksWf input) (hrow : row < input.inputSize)
include hmasks hrow

theorem placed_placeAt (hpartition : IsGroupStart input.partitionMask.rowIsValid row partitionStart)
    (hpeer : IsGroupStart input.orderMask.rowIsValid row peerStart) :
    Placed input (s.placeAt input partitionStart peerStart) row :=
  ⟨hpartition,partitionEnd_spec hmasks hrow hpartition,hpeer⟩

variable (hs : Visited input s)
include hs

/-- In a visited state with the next position at the row, a row without a partition start follows
a row of its partition. -/
theorem placed_same (hnext : s.nextPos = row) (hsame : input.partitionMask.rowIsValid row = false) :
    ∃ r, row = r + 1 ∧ Located input s r ∧
      IsGroupStart input.partitionMask.rowIsValid row s.partitionStart ∧
      IsGroupEnd input.partitionMask.rowIsValid input.inputSize row s.partitionEnd := by
  rcases hs with ⟨hzero,_,_⟩ | ⟨r,_,hpos,hlocated⟩
  · obtain rfl : row = 0 := by omega
    rw [hmasks.partition_zero] at hsame
    cases hsame
  · obtain rfl : row = r + 1 := by omega
    exact ⟨r,rfl,hlocated,groupStart_succ hlocated.partitionStart hsame,
      groupEnd_succ hlocated.partitionEnd hsame hrow⟩

theorem updateStarts_cases :
    (∃ base, Placed input base row ∧ base.prev = s.prev ∧
      ¬ (s.nextPos = row ∧ input.partitionMask.rowIsValid row = false) ∧
      s.updateStarts input row = base.updateValid input) ∨
    ∃ peerStart, s.nextPos = row ∧ input.partitionMask.rowIsValid row = false ∧
      Placed input { s with peerStart := peerStart } row ∧
      s.updateStarts input row = { s with peerStart := peerStart } := by
  unfold BoundariesState.updateStarts
  dsimp only
  by_cases hjump : s.nextPos = row
  · cases hpartition : input.partitionMask.rowIsValid row with
    | true =>
      have horder := hmasks.order_of_partition row hrow hpartition
      refine .inl ⟨s.placeAt input row row,
        placed_placeAt hmasks hrow (groupStart_self hpartition) (groupStart_self horder),rfl,
        by simp,?_⟩
      simp [hjump,BoundariesState.placeAt]
    | false =>
      obtain ⟨r,hsucc,hlocated,hstart,hend⟩ := placed_same hmasks hrow hs hjump hpartition
      cases horder : input.orderMask.rowIsValid row with
      | true =>
        refine .inr ⟨row,hjump,rfl,⟨hstart,hend,groupStart_self horder⟩,?_⟩
        simp [hjump]
      | false =>
        have hpeer : IsGroupStart input.orderMask.rowIsValid row s.peerStart := by
          subst hsucc
          exact groupStart_succ hlocated.peerStart horder
        refine .inr ⟨s.peerStart,hjump,rfl,⟨hstart,hend,hpeer⟩,?_⟩
        subst hjump
        simp
  · refine .inl ⟨s.placeAt input (findPrevStart input.partitionMask 0 (row + 1) 1).1
      (findPrevStart input.orderMask 0 (row + 1) 1).1,placed_placeAt hmasks hrow ?_ ?_,rfl,
      by simp [hjump],?_⟩
    · exact (@findPrevStart_one input.partitionMask 0 (row + 1) (Nat.zero_le _)).groupStart
    · exact (@findPrevStart_one input.orderMask 0 (row + 1) (Nat.zero_le _)).groupStart
    · simp [hjump,BoundariesState.placeAt]

theorem placed_updateStarts : Placed input (s.updateStarts input row) row := by
  rcases updateStarts_cases hmasks hrow hs with ⟨base,hbase,_,_,heq⟩ |
    ⟨peerStart,_,_,hplaced,heq⟩
  · exact heq ▸ hbase.updateValid
  · exact heq ▸ hplaced

theorem located_updatePartition : Located input (s.updatePartition input row) row := by
  unfold BoundariesState.updatePartition
  split
  case isFalse hcount =>
    have hzero : input.wexpr.partitions + input.wexpr.orders = 0 := by omega
    obtain ⟨hpartition,hpeer⟩ := groupStart_zero_of_single hmasks hzero hrow
    obtain ⟨hpartitionEnd,hpeerEnd⟩ := groupEnd_of_single hmasks hzero hrow
    have hstarts : s.partitionStart = 0 ∧ s.peerStart = 0 := by
      rcases hs with ⟨_,h1,h2⟩ | ⟨r,hr,_,hlocated⟩
      · exact ⟨h1,h2⟩
      refine ⟨?_,start_eq_zero hmasks hzero hr hlocated.peerStart⟩
      rcases hlocated.partitionStart.start with heq | hvalid
      · exact heq
      · by_contra hne
        have hlt := hlocated.partitionStart.le.trans_lt hr
        rw [hmasks.one_partition (by omega) _ (Nat.pos_of_ne_zero hne) hlt] at hvalid
        cases hvalid
    refine ⟨⟨?_,hpartitionEnd,?_⟩,fun _ => hpeerEnd⟩
    · exact hstarts.1.symm ▸ hpartition
    · exact hstarts.2.symm ▸ hpeer
  case isTrue hcount =>
    have hplaced := placed_updateStarts hmasks hrow hs
    split
    · exact ⟨{ hplaced with },fun _ => hplaced.isPeerEnd hmasks⟩
    case isFalse hneeds =>
      exact ⟨hplaced,fun h => absurd h hneeds⟩

end

/-- The frame has no RANGE offset, and its bounds are on the side they are allowed on. -/
def RowsFrame (wexpr : BoundWindowExpression) : Prop :=
  (wexpr.start = .unboundedPreceding ∨ wexpr.start = .currentRowRows ∨
    wexpr.start = .currentRowRange ∨ wexpr.start = .exprPrecedingRows ∨
    wexpr.start = .exprFollowingRows) ∧
  (wexpr.end_ = .unboundedFollowing ∨ wexpr.end_ = .currentRowRows ∨
    wexpr.end_ = .currentRowRange ∨ wexpr.end_ = .exprPrecedingRows ∨
    wexpr.end_ = .exprFollowingRows)

/-- The value fits in 64 bits. -/
def FitsInt64 (v : Int) : Prop := -(2 ^ 63) ≤ v ∧ v < 2 ^ 63

/-- Computing a ROWS bound does not overflow. -/
def OffsetFits (boundary : WindowBoundary) (position offset : Int) : Prop :=
  match boundary with
  | .exprPrecedingRows => FitsInt64 (position - offset)
  | .exprFollowingRows => FitsInt64 (position + offset)
  | _ => True

/-- The row `j` is not before the frame start of `row`. -/
def FromStart (input : WindowInput K) (row : Nat) (offset : Int) (j : Nat) : Prop :=
  match input.wexpr.start with
  | .currentRowRows => row ≤ j
  | .currentRowRange => row ≤ j ∨ SameGroup input.orderMask.rowIsValid row j
  | .exprPrecedingRows => (row : Int) - offset ≤ j
  | .exprFollowingRows => (row : Int) + offset ≤ j
  | _ => True

/-- The row `j` is not behind the frame end of `row`. -/
def UpToEnd (input : WindowInput K) (row : Nat) (offset : Int) (j : Nat) : Prop :=
  match input.wexpr.end_ with
  | .currentRowRows => j ≤ row
  | .currentRowRange => j ≤ row ∨ SameGroup input.orderMask.rowIsValid row j
  | .exprPrecedingRows => (j : Int) ≤ row - offset
  | .exprFollowingRows => (j : Int) ≤ row + offset
  | _ => True

theorem tryInt64_ok (h : FitsInt64 v) : tryInt64 error v = .ok v :=
  if_pos h

theorem Placed.peerStart_le_iff (h : Placed input s row) (j : Nat) :
    (s.peerStart : Int) ≤ j ↔ row ≤ j ∨ SameGroup input.orderMask.rowIsValid row j := by
  rw [Int.ofNat_le]
  rcases lt_or_ge j row with hlt | hge
  · rw [h.peerStart.mem_iff hlt.le]
    simp [not_le.mpr hlt]
  · simp [hge,h.peerStart.le.trans hge]

theorem Located.lt_peerEnd_iff (h : Located input s row) (hneeds : input.wexpr.needsPeer = true)
    (hj : j < input.inputSize) :
    (j : Int) < s.peerEnd ↔ j ≤ row ∨ SameGroup input.orderMask.rowIsValid row j := by
  have hpeer := h.peerEnd hneeds
  rw [Int.ofNat_lt]
  rcases lt_or_ge row j with hlt | hge
  · rw [hpeer.mem_iff hlt.le hj]
    simp [not_le.mpr hlt]
  · simp [hge,hge.trans_lt hpeer.lt]

section Frame

variable [LinearOrder K]

variable (hframe : RowsFrame input.wexpr) (h : Located input s row) (cell : BoundaryCell K)

include hframe h in
theorem frameStart_spec (hfits : OffsetFits input.wexpr.start row cell.offset) :
    ∃ bound, s.frameStart input row cell = .ok (bound, s.prev) ∧
      ∀ j, s.partitionStart ≤ j → (bound ≤ (j : Int) ↔ FromStart input row cell.offset j) := by
  unfold BoundariesState.frameStart FromStart
  rcases hframe.1 with hb | hb | hb | hb | hb <;> rw [hb] at hfits ⊢ <;> dsimp only at hfits ⊢
  · exact ⟨_,rfl,fun j hj => by simpa using hj⟩
  · exact ⟨_,rfl,fun j _ => Int.ofNat_le⟩
  · refine ⟨_,rfl,?_⟩
    exact fun j _ => h.peerStart_le_iff j
  all_goals
    rw [tryInt64_ok hfits]
    exact ⟨_,rfl,fun j _ => Iff.rfl⟩

include hframe h in
theorem frameEnd_spec (hfits : OffsetFits input.wexpr.end_ (row + 1) cell.offset) :
    ∃ bound, s.frameEnd input row cell = .ok (bound, s.prev) ∧
      ∀ j, j < s.partitionEnd → ((j : Int) < bound ↔ UpToEnd input row cell.offset j) := by
  unfold BoundariesState.frameEnd UpToEnd
  have hneeds : input.wexpr.end_ = .currentRowRange → input.wexpr.needsPeer = true := by
    intro hb
    simp [BoundWindowExpression.needsPeer,hb,boundaryNeedsPeer]
  rcases hframe.2 with hb | hb | hb | hb | hb <;> rw [hb] at hfits ⊢ <;> dsimp only at hfits ⊢
  · exact ⟨_,rfl,fun j hj => by simpa using hj⟩
  · exact ⟨_,rfl,fun j _ => by omega⟩
  · refine ⟨_,rfl,?_⟩
    exact fun j hj => h.lt_peerEnd_iff (hneeds hb) (hj.trans_le h.partitionEnd.le)
  all_goals
    rw [tryInt64_ok hfits]
    exact ⟨_,rfl,fun j _ => by omega⟩

theorem clamp_spec (h : s.partitionStart ≤ s.partitionEnd) (bound : Int) :
    (s.partitionStart : Int) ≤ s.clamp bound ∧ s.clamp bound ≤ s.partitionEnd ∧
    (∀ j : Nat, s.partitionStart ≤ j → j < s.partitionEnd →
      ((s.clamp bound ≤ (j : Int) ↔ bound ≤ j) ∧
          ((j : Int) < s.clamp bound ↔ (j : Int) < bound))) := by
  unfold BoundariesState.clamp
  dsimp only
  refine ⟨?_,?_,?_⟩
  · split <;> split <;> omega
  · split <;> split <;> omega
  · intro j hj hj'
    constructor <;> split <;> split <;> omega

/-- An update whose two switches succeed. -/
theorem update_eq (ht : s.updatePartition input row = t)
    (hstart : BoundariesState.frameStart input
      { t with nextPos := row + 1, windowStart := -1, windowEnd := -1 } row startCell =
        .ok (start, prev))
    (hend : BoundariesState.frameEnd input
      { t with nextPos := row + 1, windowStart := start, windowEnd := -1, prev := prev } row
        endCell = .ok (end_, prev'))
    (hle : t.partitionStart ≤ t.partitionEnd) :
    s.update input row startCell endCell = .ok { t with
      nextPos := row + 1
      windowStart := t.clamp start
      windowEnd := t.clamp end_
      prev := prev' } := by
  have hstartNonneg := (clamp_spec hle start).1
  have hendNonneg := (clamp_spec hle end_).1
  unfold BoundariesState.update
  rw [ht]
  dsimp only
  rw [hstart]
  simp only [bind,Except.bind]
  rw [hend]
  dsimp only
  rw [if_neg]
  · rfl
  rintro (hneg | hneg)
  · have : t.clamp start < 0 := hneg
    omega
  · have : t.clamp end_ < 0 := hneg
    omega

/-- Everything the update promises for a row. -/
structure BoundsExact (input : WindowInput K) (s : BoundariesState) (row : Nat)
    (startOffset endOffset : Int) : Prop where
  partition : ∀ j, s.partitionStart ≤ j ∧ j < s.partitionEnd ↔
    j < input.inputSize ∧ SameGroup input.partitionMask.rowIsValid row j
  peerStart : ∀ j, j ≤ row →
    (s.peerStart ≤ j ↔ SameGroup input.orderMask.rowIsValid row j)
  peers : input.wexpr.needsPeer = true → ∀ j, s.peerStart ≤ j ∧ j < s.peerEnd ↔
    j < input.inputSize ∧ SameGroup input.orderMask.rowIsValid row j
  frame : ∀ j : Nat, s.windowStart ≤ j ∧ (j : Int) < s.windowEnd ↔
    (j < input.inputSize ∧ SameGroup input.partitionMask.rowIsValid row j) ∧
      FromStart input row startOffset j ∧ UpToEnd input row endOffset j
  nonneg : 0 ≤ s.windowStart

theorem update_exact (hmasks : MasksWf input) (hframe : RowsFrame input.wexpr)
    (hs : Visited input s) (hrow : row < input.inputSize) (startCell endCell : BoundaryCell K)
    (hstart : OffsetFits input.wexpr.start row startCell.offset)
    (hend : OffsetFits input.wexpr.end_ (row + 1) endCell.offset) :
    ∃ s', s.update input row startCell endCell = .ok s' ∧ Visited input s' ∧
      BoundsExact input s' row startCell.offset endCell.offset := by
  have hlocated := located_updatePartition hmasks hrow hs
  generalize ht : s.updatePartition input row = t at hlocated
  have hle : t.partitionStart ≤ t.partitionEnd :=
    hlocated.partitionStart.le.trans hlocated.partitionEnd.lt.le
  obtain ⟨start,hstartEq,hfrom⟩ := frameStart_spec
    (s := { t with nextPos := row + 1, windowStart := -1, windowEnd := -1 }) hframe
    ⟨{ hlocated with },hlocated.peerEnd⟩
    startCell hstart
  obtain ⟨end_,hendEq,hto⟩ := frameEnd_spec
    (s := { t with nextPos := row + 1, windowStart := start, windowEnd := -1, prev := t.prev })
    hframe ⟨{ hlocated with },hlocated.peerEnd⟩
    endCell hend
  have hpartition : ∀ j, t.partitionStart ≤ j ∧ j < t.partitionEnd ↔
      j < input.inputSize ∧ SameGroup input.partitionMask.rowIsValid row j :=
    fun j => group_mem_iff hlocated.partitionStart hlocated.partitionEnd
  obtain ⟨hlow,_,hclampStart⟩ := clamp_spec hle start
  obtain ⟨_,hhigh,hclampEnd⟩ := clamp_spec hle end_
  refine ⟨_,update_eq ht hstartEq hendEq hle,.inr ⟨row,hrow,rfl,?_⟩,?_⟩
  · exact ⟨{ hlocated with },hlocated.peerEnd⟩
  refine ⟨hpartition,fun j hj => hlocated.peerStart.mem_iff hj,
    fun hneeds j => group_mem_iff hlocated.peerStart (hlocated.peerEnd hneeds),?_,?_⟩
  · intro j
    rw [← hpartition j]
    dsimp only
    constructor
    · rintro ⟨hj,hj'⟩
      have hge : t.partitionStart ≤ j := by omega
      have hlt : j < t.partitionEnd := by omega
      exact ⟨⟨hge,hlt⟩,(hfrom j hge).mp ((hclampStart j hge hlt).1.mp hj),
        (hto j hlt).mp ((hclampEnd j hge hlt).2.mp hj')⟩
    · rintro ⟨⟨hge,hlt⟩,hfrom',hto'⟩
      exact ⟨(hclampStart j hge hlt).1.mpr ((hfrom j hge).mpr hfrom'),
        (hclampEnd j hge hlt).2.mpr ((hto j hlt).mpr hto')⟩
  · dsimp only
    omega

/-- A call of `Update`. -/
structure UpdateCall (K : Type) where
  row : Nat
  startCell : BoundaryCell K
  endCell : BoundaryCell K

/-- Calls of `Update` one after the other. -/
def runUpdates (input : WindowInput K) (s : BoundariesState) (calls : List (UpdateCall K)) :
    Except String BoundariesState :=
  calls.foldlM (fun s call => s.update input call.row call.startCell call.endCell) s

/-- The row is one of the input and its ROWS bounds do not overflow. -/
def CallFits (input : WindowInput K) (call : UpdateCall K) : Prop :=
  call.row < input.inputSize ∧ OffsetFits input.wexpr.start call.row call.startCell.offset ∧
    OffsetFits input.wexpr.end_ (call.row + 1) call.endCell.offset

theorem runUpdates_visited (hmasks : MasksWf input) (hframe : RowsFrame input.wexpr)
    (hs : Visited input s) (hcalls : ∀ c ∈ calls, CallFits input c) :
    ∃ s', runUpdates input s calls = .ok s' ∧ Visited input s' := by
  induction calls generalizing s with
  | nil => exact ⟨s,rfl,hs⟩
  | cons call calls ih =>
    obtain ⟨⟨hrow,hstart,hend⟩,hrest⟩ := forall_mem_cons.mp hcalls
    obtain ⟨s₁,hupdate,hvisited,_⟩ :=
      update_exact hmasks hframe hs hrow call.startCell call.endCell hstart hend
    obtain ⟨s',hrun,hs'⟩ := ih hvisited hrest
    refine ⟨s',?_,hs'⟩
    unfold runUpdates at hrun ⊢
    rw [foldlM_cons,hupdate]
    exact hrun

/-- After any sequence of updates, the boundaries of the last row are exact. -/
theorem boundaries_exact (hmasks : MasksWf input) (hframe : RowsFrame input.wexpr)
    (calls : List (UpdateCall K)) (last : UpdateCall K)
    (hcalls : ∀ c ∈ calls ++ [last], CallFits input c) :
    ∃ s, runUpdates input .initial (calls ++ [last]) = .ok s ∧
      BoundsExact input s last.row last.startCell.offset last.endCell.offset := by
  obtain ⟨hbefore,hlast⟩ := forall_mem_append.mp hcalls
  obtain ⟨hrow,hstart,hend⟩ := hlast last (mem_singleton_self last)
  obtain ⟨s₁,hrun,hvisited⟩ :=
    runUpdates_visited hmasks hframe (s := .initial) (.inl ⟨rfl,rfl,rfl⟩) hbefore
  obtain ⟨s₂,hupdate,_,hexact⟩ :=
    update_exact hmasks hframe hvisited hrow last.startCell last.endCell hstart hend
  refine ⟨s₂,?_,hexact⟩
  unfold runUpdates at hrun ⊢
  rw [foldlM_append,hrun]
  simp
  exact hupdate

/-- Three rows in one partition with peers 1 and 2, visited in the order 2, 0, 1, with the frame
from one row before. -/
def threeRows : WindowInput Nat where
  wexpr := ⟨.other, .exprPrecedingRows, .currentRowRange, 1, 1, .ascending, .noOther⟩
  inputSize := 3
  range := ⟨id, fun _ => false⟩
  partitionMask := ⟨some fun _ => 1⟩
  orderMask := ⟨some fun _ => 3⟩

theorem boundaries_exact_three_rows : ∃ s,
    runUpdates threeRows .initial
      [⟨2, ⟨1, none⟩, ⟨0, none⟩⟩, ⟨0, ⟨1, none⟩, ⟨0, none⟩⟩, ⟨1, ⟨1, none⟩, ⟨0, none⟩⟩] = .ok s ∧
      BoundsExact threeRows s 1 1 0 := by
  have hmasks : MasksWf threeRows := by
    refine ⟨by decide,by decide,?_,fun h => absurd h (by decide),fun h => absurd h (by decide)⟩
    intro i hi
    have : i < 3 := hi
    interval_cases i <;> decide
  have hframe : RowsFrame threeRows.wexpr := by simp [RowsFrame,threeRows]
  apply boundaries_exact hmasks hframe
    [⟨2,⟨1,none⟩,⟨0,none⟩⟩,⟨0,⟨1,none⟩,⟨0,none⟩⟩] ⟨1,⟨1,none⟩,⟨0,none⟩⟩
  intro c hc
  simp only [cons_append,nil_append,mem_cons,not_mem_nil,or_false] at hc
  rcases hc with rfl | rfl | rfl <;>
    simp [CallFits,OffsetFits,FitsInt64,threeRows]

/-- Two rows whose mask marks two partitions although there is no PARTITION BY. -/
def unexpectedPartition : WindowInput Nat where
  wexpr := ⟨.other, .unboundedPreceding, .unboundedFollowing, 0, 1, .ascending, .noOther⟩
  inputSize := 2
  range := ⟨id, fun _ => false⟩
  partitionMask := ⟨some fun _ => 3⟩
  orderMask := ⟨some fun _ => 3⟩

/-- Without PARTITION BY the end of the partition is not looked up in the mask. -/
theorem partitionEnd_ignores_mask :
    unexpectedPartition.partitionMask.rowIsValid 0 = true ∧
    unexpectedPartition.orderMask.rowIsValid 0 = true ∧
    (∀ i, i < unexpectedPartition.inputSize →
      unexpectedPartition.partitionMask.rowIsValid i = true →
        unexpectedPartition.orderMask.rowIsValid i = true) ∧
    RowsFrame unexpectedPartition.wexpr ∧
    CallFits unexpectedPartition ⟨0, ⟨0, none⟩, ⟨0, none⟩⟩ ∧
    ∃ s, runUpdates unexpectedPartition .initial [⟨0, ⟨0, none⟩, ⟨0, none⟩⟩] = .ok s ∧
      ¬ BoundsExact unexpectedPartition s 0 0 0 := by
  refine ⟨by decide,by decide,fun i _ h => h,by simp [RowsFrame,unexpectedPartition],
    by simp [CallFits,OffsetFits,unexpectedPartition],_,rfl,?_⟩
  intro h
  obtain ⟨_,hsame⟩ := (h.partition 1).mp (by decide)
  have hstart := hsame 1 (by decide) (by decide)
  revert hstart
  decide

end Frame

end PredTrans.Window
