import PredTrans.Window.RangeSearch

/-! Frames with RANGE offsets over rows that are visited in order. The bounds are exact except in
two cases: a zero offset towards the row itself, and an end bound that hits ties at the end of the
previous frame. -/

namespace PredTrans.Window

open Library BoundariesState Bool

variable {K : Type} {input : WindowInput K} {nullsFirst : Bool}

/-- A partition of the rows. -/
structure IsPartition (input : WindowInput K) (lo hi : Nat) : Prop where
  lt : lo < hi
  le : hi ≤ input.inputSize
  none_between : ∀ k, lo < k → k < hi → input.partitionMask.rowIsValid k = false

theorem IsPartition.sameGroup (h : IsPartition input lo hi) (hi' : lo ≤ i) (hij : i ≤ j)
    (hj : j < hi) : SameGroup input.partitionMask.rowIsValid i j :=
  fun k hk hk' => h.none_between k (by omega) (by omega)

theorem Placed.isPartition (h : Placed input s row) :
    IsPartition input s.partitionStart s.partitionEnd := by
  refine ⟨h.partitionStart.le.trans_lt h.partitionEnd.lt,h.partitionEnd.le,?_⟩
  intro k hk hk'
  rcases lt_or_ge row k with hlt | hge
  · exact h.partitionEnd.none_between k hlt hk'
  · exact h.partitionStart.none_between k hk hge

variable [LinearOrder K]

/-- The rows are sorted by one key in each partition, with NULL keys at one end, and the order mask
marks the changes of the key. -/
structure RangeInput (input : WindowInput K) (nullsFirst : Bool) : Prop where
  masks : MasksWf input
  one_key : input.wexpr.orders = 1
  sorted : ∀ i j, i ≤ j → j < input.inputSize → SameGroup input.partitionMask.rowIsValid i j →
    input.range.cellIsNull i = false → input.range.cellIsNull j = false →
      input.wexpr.rangeSense.comp (input.range.getCell j) (input.range.getCell i) = false
  nulls : ∀ i j, i ≤ j → j < input.inputSize → SameGroup input.partitionMask.rowIsValid i j →
    if nullsFirst then input.range.cellIsNull j = true → input.range.cellIsNull i = true
    else input.range.cellIsNull i = true → input.range.cellIsNull j = true
  peers : ∀ i, i + 1 < input.inputSize → input.partitionMask.rowIsValid (i + 1) = false →
    (input.orderMask.rowIsValid (i + 1) = false ↔
      input.range.cellIsNull i = input.range.cellIsNull (i + 1) ∧
        (input.range.cellIsNull i = false →
          input.range.getCell i = input.range.getCell (i + 1)))

/-- The non-NULL keys of the partition are in `[validStart, validEnd)`, and the NULL keys are cut
off on the sides where a RANGE bound searches. -/
structure ValidRange (input : WindowInput K) (nullsFirst : Bool)
    (lo hi validStart validEnd : Nat) : Prop where
  ge : lo ≤ validStart
  le : validStart ≤ hi
  le_end : validEnd ≤ hi
  covers : ∀ j, lo ≤ j → j < hi → input.range.cellIsNull j = false →
    validStart ≤ j ∧ j < validEnd
  preceding : input.wexpr.hasPrecedingRange = true → nullsFirst = true →
    ∀ j, validStart ≤ j → j < hi → input.range.cellIsNull j = false
  following : input.wexpr.hasFollowingRange = true → nullsFirst = false →
    ∀ j, validStart ≤ j → j < validEnd → input.range.cellIsNull j = false

variable {lo hi : Nat}

section

variable (h : RangeInput input nullsFirst) (hp : IsPartition input lo hi)
include h hp

theorem RangeInput.peer_eq (hi' : lo ≤ i) (hij : i ≤ j) (hj : j < hi)
    (hsame : SameGroup input.orderMask.rowIsValid i j) :
    input.range.cellIsNull i = input.range.cellIsNull j ∧
      (input.range.cellIsNull i = false → input.range.getCell i = input.range.getCell j) := by
  induction hij with
  | refl => exact ⟨rfl,fun _ => rfl⟩
  | @step m hij ih =>
    have hle := hp.le
    have hij' : i ≤ m := hij
    obtain ⟨hnull,hkey⟩ := ih (by omega) (fun k hk hk' => hsame k (by omega) (by omega))
    obtain ⟨hnull',hkey'⟩ := (h.peers m (by omega) (hp.none_between (m + 1) (by omega) hj)).mp
      (hsame (m + 1) (by omega) (by omega))
    refine ⟨hnull.trans hnull',?_⟩
    intro hi'
    exact (hkey hi').trans (hkey' (hnull ▸ hi'))

/-- Rows with one key are peers. -/
theorem RangeInput.sameGroup_of_eq (hi' : lo ≤ i) (hij : i ≤ j) (hj : j < hi)
    (hnull : ∀ k, i ≤ k → k ≤ j → input.range.cellIsNull k = input.range.cellIsNull i)
    (hkey : input.range.cellIsNull i = false → ∀ k, i ≤ k → k ≤ j →
      input.range.getCell k = input.range.getCell i) :
    SameGroup input.orderMask.rowIsValid i j := by
  intro k hk hk'
  obtain ⟨m,rfl⟩ : ∃ m, k = m + 1 := ⟨k - 1,by omega⟩
  have hle := hp.le
  apply (h.peers m (by omega) (hp.none_between (m + 1) (by omega) (by omega))).mpr
  have hm := hnull m (by omega) (by omega)
  have hm' := hnull (m + 1) (by omega) (by omega)
  refine ⟨hm.trans hm'.symm,?_⟩
  intro hfalse
  have hfalse' := hm ▸ hfalse
  exact (hkey hfalse' m (by omega) (by omega)).trans
    (hkey hfalse' (m + 1) (by omega) (by omega)).symm

/-- Cutting off the leading NULLs. -/
theorem RangeInput.validStart
    (hnull : input.range.cellIsNull lo = true) (hnext : IsNext input.orderMask (lo + 1) hi p) :
    (∀ j, lo ≤ j → j < hi → input.range.cellIsNull j = false → p ≤ j) ∧
    (nullsFirst = true → ∀ j, p ≤ j → j < hi → input.range.cellIsNull j = false) := by
  have hle := hp.le
  have hsame : ∀ j, lo ≤ j → j < p → j < hi → input.range.cellIsNull j = true := by
    intro j hj hlt hjhi
    obtain ⟨heq,_⟩ := h.peer_eq hp le_rfl hj hjhi
      (fun k hk hk' => hnext.none_before k (by omega) (by omega))
    exact heq ▸ hnull
  constructor
  · intro j hj hjhi hfalse
    by_contra hlt
    rw [hsame j hj (not_le.mp hlt) hjhi] at hfalse
    cases hfalse
  intro hfirst j hj hjhi
  have hge := hnext.ge
  have hnulls := h.nulls p j hj (by omega) (hp.sameGroup (by omega) hj hjhi)
  rw [if_pos hfirst] at hnulls
  have hprev := hsame (p - 1) (by omega) (by omega) (by omega)
  have hstart := hnext.found (hj.trans_lt hjhi)
  have hpeers := h.peers (p - 1) (by omega)
    (hp.none_between (p - 1 + 1) (by omega) (by omega))
  rw [Nat.sub_add_cancel (by omega),hstart,hprev] at hpeers
  cases hj' : input.range.cellIsNull j with
  | false => rfl
  | true =>
    have hpnull := hnulls hj'
    simp [hpnull] at hpeers

/-- Cutting off the trailing NULLs. -/
theorem RangeInput.validEnd
    (hnull : input.range.cellIsNull (hi - 1) = true) (hstart : lo ≤ start) (hlt : start < hi)
    (hprev : IsPrev input.orderMask start hi p) :
    (∀ j, start ≤ j → j < hi → input.range.cellIsNull j = false → j < p) ∧
    (nullsFirst = false → ∀ j, start ≤ j → j < p → input.range.cellIsNull j = false) := by
  have hle := hp.le
  have hpge := hprev.ge
  have hphi := hprev.lt hlt
  have hsame : ∀ j, p ≤ j → j < hi → input.range.cellIsNull j = true := by
    intro j hj hjhi
    obtain ⟨heq,_⟩ := h.peer_eq hp (i := j) (j := hi - 1) (by omega) (by omega) (by omega)
      (fun k hk hk' => hprev.none_after k (by omega) (by omega))
    exact heq ▸ hnull
  constructor
  · intro j hj hjhi hfalse
    by_contra hge
    rw [hsame j (not_lt.mp hge) hjhi] at hfalse
    cases hfalse
  intro hlast j hj hjp
  rcases hprev.found with heq | hvalid
  · omega
  have hnulls := h.nulls j (p - 1) (by omega) (by omega)
    (hp.sameGroup (by omega) (by omega) (by omega))
  rw [hlast] at hnulls
  have hpnull := hsame p le_rfl hphi
  have hpeers := h.peers (p - 1) (by omega)
    (hp.none_between (p - 1 + 1) (by omega) (by omega))
  rw [Nat.sub_add_cancel (by omega),hvalid,hpnull] at hpeers
  cases hj' : input.range.cellIsNull j with
  | false => rfl
  | true =>
    have hbefore : input.range.cellIsNull (p - 1) = true := by simpa using hnulls hj'
    simp [hbefore] at hpeers

theorem findValidStart_spec :
    lo ≤ findValidStart input lo hi ∧
    findValidStart input lo hi ≤ hi ∧
    (∀ j, lo ≤ j → j < hi → input.range.cellIsNull j = false →
      findValidStart input lo hi ≤ j) ∧
    (input.wexpr.hasPrecedingRange = true → nullsFirst = true →
      ∀ j, findValidStart input lo hi ≤ j → j < hi →
        input.range.cellIsNull j = false) := by
  have hle := hp.le
  unfold findValidStart
  split
  case isTrue hcut =>
    have hnext := @findNextStart_one input.orderMask (lo + 1) hi hp.lt
    obtain ⟨hcovers,hvalid⟩ := h.validStart hp hcut.2.2 hnext
    exact ⟨(Nat.le_succ lo).trans hnext.ge,hnext.le,hcovers,fun _ => hvalid⟩
  case isFalse hkeep =>
    refine ⟨le_rfl,hp.lt.le,fun j hj _ _ => hj,?_⟩
    intro hpreceding hfirst j hj hjhi
    have hnulls := h.nulls lo j hj (by omega) (hp.sameGroup le_rfl hj hjhi)
    rw [if_pos hfirst] at hnulls
    by_contra htrue
    exact hkeep ⟨hp.lt,hpreceding,hnulls (by simpa using htrue)⟩

theorem findValidEnd_spec (hstart : lo ≤ start) (hlt : start < hi) :
    findValidEnd input start hi ≤ hi ∧
    (∀ j, start ≤ j → j < hi → input.range.cellIsNull j = false →
      j < findValidEnd input start hi) ∧
    (nullsFirst = false → ∀ j, start ≤ j → j < findValidEnd input start hi →
      input.range.cellIsNull j = false) := by
  have hle := hp.le
  unfold findValidEnd
  split
  case isTrue hcut =>
    have hprev := @findPrevStart_one input.orderMask start hi hlt.le
    obtain ⟨hcovers,hvalid⟩ := h.validEnd hp hcut hstart hlt hprev
    exact ⟨hprev.le,hcovers,hvalid⟩
  case isFalse hkeep =>
    refine ⟨le_rfl,fun j _ hj _ => hj,?_⟩
    intro hlast j hj hjhi
    have hnulls := h.nulls j (hi - 1) (by omega) (by omega)
      (hp.sameGroup (by omega) (by omega) (by omega))
    rw [hlast] at hnulls
    by_contra htrue
    exact hkeep (by simpa using hnulls (by simpa using htrue))

theorem RangeInput.null_left (hj : lo ≤ j) (hjr : j ≤ row) (hr : row < hi)
    (hrow : input.range.cellIsNull row = false) (hnull : input.range.cellIsNull j = true) :
    nullsFirst = true := by
  have hle := hp.le
  have hnulls := h.nulls j row hjr (by omega) (hp.sameGroup hj hjr hr)
  cases nullsFirst with
  | true => rfl
  | false =>
    rw [if_neg Bool.false_ne_true,hrow] at hnulls
    exact absurd (hnulls hnull) false_ne_true

theorem RangeInput.null_right (hr : lo ≤ row) (hjr : row ≤ j) (hj : j < hi)
    (hrow : input.range.cellIsNull row = false) (hnull : input.range.cellIsNull j = true) :
    nullsFirst = false := by
  have hle := hp.le
  have hnulls := h.nulls row j hjr (by omega) (hp.sameGroup hr hjr hj)
  cases nullsFirst with
  | false => rfl
  | true =>
    rw [if_pos rfl,hrow] at hnulls
    exact absurd (hnulls hnull) false_ne_true

end

/-- What finding the valid keys leaves in the state: the hints are reset, or kept where no key is
searched for behind a row. -/
theorem updateValid_spec (h : RangeInput input nullsFirst) {s : BoundariesState}
    (hp : IsPartition input s.partitionStart s.partitionEnd) :
    ValidRange input nullsFirst s.partitionStart s.partitionEnd
      (s.updateValid input).validStart (s.updateValid input).validEnd ∧
    (input.wexpr.hasFollowingRange = true ∧ (s.updateValid input).prev =
        ⟨(s.updateValid input).validStart, (s.updateValid input).validEnd⟩ ∨
      (s.updateValid input).prev = s.prev ∧ (input.wexpr.hasFollowingRange = false ∨
        s.partitionEnd ≤ (s.updateValid input).validStart)) := by
  obtain ⟨hge,hle,hcovers,hpreceding⟩ := findValidStart_spec h hp
  unfold updateValid
  dsimp only
  generalize findValidStart input s.partitionStart s.partitionEnd = start at *
  split
  case isTrue hreset =>
    obtain ⟨hend,hcoversEnd,hfollowing⟩ := findValidEnd_spec h hp hge hreset.1
    refine ⟨⟨hge,hle,hend,?_,hpreceding,fun _ => hfollowing⟩,.inl ⟨hreset.2,rfl⟩⟩
    intro j hj hjhi hfalse
    have hstart := hcovers j hj hjhi hfalse
    exact ⟨hstart,hcoversEnd j hstart hjhi hfalse⟩
  case isFalse hkeep =>
    have hcase : input.wexpr.hasFollowingRange = false ∨ s.partitionEnd ≤ start := by
      by_contra! hno
      exact hkeep ⟨hno.2,by simpa using hno.1⟩
    refine ⟨⟨hge,hle,le_rfl,fun j hj hjhi hfalse => ⟨hcovers j hj hjhi hfalse,hjhi⟩,
      hpreceding,?_⟩,.inr ⟨rfl,hcase⟩⟩
    intro hfollowing _ j hj hjhi
    rcases hcase with hno | hempty
    · rw [hno] at hfollowing
      cases hfollowing
    · dsimp only at hj hjhi
      omega

/-- A row inside a partition is the first one with its key. -/
def HintFirst (input : WindowInput K) (lo hi i : Nat) : Prop :=
  lo < i → i < hi → input.range.cellIsNull (i - 1) = false → input.range.cellIsNull i = false →
    input.wexpr.rangeSense.comp (input.range.getCell (i - 1)) (input.range.getCell i) = true

/-- The previous frame start is the first row with its key; for a bound behind the row this holds
as long as it is ahead of the row. -/
structure HintOk (input : WindowInput K) (s : BoundariesState) (row : Nat) : Prop where
  preceding : input.wexpr.start = .exprPrecedingRange → s.prev.start ≤ s.partitionEnd ∧
    HintFirst input s.partitionStart s.partitionEnd s.prev.start
  following : input.wexpr.start = .exprFollowingRange → row < s.prev.start →
    HintFirst input s.partitionStart s.partitionEnd s.prev.start

/-- The state has the valid keys of the partition of a row and a usable hint. -/
structure Ranged (input : WindowInput K) (nullsFirst : Bool) (s : BoundariesState)
    (row : Nat) : Prop where
  valid : ValidRange input nullsFirst s.partitionStart s.partitionEnd s.validStart s.validEnd
  hint : HintOk input s row

/-- Hints survive the change to a row, unless frames look behind it and the row starts a partition
or is not the next one. -/
def HintsKept (input : WindowInput K) (s : BoundariesState) (row : Nat) : Prop :=
  input.wexpr.hasFollowingRange = true →
    s.nextPos = row ∧ input.partitionMask.rowIsValid row = false

/-- A state before a row, with only earlier rows visited. -/
def Before (input : WindowInput K) (nullsFirst : Bool) (s : BoundariesState) (row : Nat) : Prop :=
  (s.nextPos = 0 ∧ s.partitionStart = 0 ∧ s.peerStart = 0 ∧ s.prev = ⟨0, 0⟩) ∨
    ∃ r, r < row ∧ r < input.inputSize ∧ s.nextPos = r + 1 ∧ Located input s r ∧
      Ranged input nullsFirst s r

theorem Before.visited (h : Before input nullsFirst s row) : Visited input s := by
  rcases h with ⟨h1,h2,h3,_⟩ | ⟨r,_,hr,hnext,hlocated,_⟩
  · exact .inl ⟨h1,h2,h3⟩
  · exact .inr ⟨r,hr,hnext,hlocated⟩

theorem Before.keptHint (h : Before input nullsFirst s row) (hrow : row < input.inputSize)
    (hu : Placed input u row) (hstart : input.wexpr.start = .exprPrecedingRange) :
    s.prev.start ≤ u.partitionEnd ∧
      HintFirst input u.partitionStart u.partitionEnd s.prev.start := by
  rcases h with ⟨_,_,_,hprev⟩ | ⟨r,hr,_,_,hlocated,hranged⟩
  · rw [hprev]
    exact ⟨Nat.zero_le _,fun hlt => absurd hlt (Nat.not_lt_zero _)⟩
  obtain ⟨hle,hfirst⟩ := hranged.hint.preceding hstart
  rcases lt_or_ge row s.partitionEnd with hin | hout
  · -- The row is in the partition of the last one.
    have hsame := (hlocated.partitionEnd.mem_iff hr.le hrow).mp hin
    have hlo := hu.partitionStart.unique
      (hlocated.partitionStart.of_sameGroup hr.le hsame)
    have hhi := hu.partitionEnd.unique
      (hlocated.partitionEnd.of_sameGroup hr.le hin)
    rw [hlo,hhi]
    exact ⟨hle,hfirst⟩
  · have hlater := hlocated.partitionEnd.le_start hout hrow hu.partitionStart
    have hlt := hu.partitionEnd.lt
    exact ⟨by omega,fun hlt' => by omega⟩

section

variable (h : RangeInput input nullsFirst) (hs : Before input nullsFirst s row)
  (hrow : row < input.inputSize)
include h hs hrow

theorem ranged_new (hbase : Placed input base row) (hprev : base.prev = s.prev) :
    Ranged input nullsFirst (base.updateValid input) row := by
  obtain ⟨hvalid,hcase⟩ := updateValid_spec h hbase.isPartition
  obtain ⟨h1,h2,h3⟩ := updateValid_bounds input base
  generalize updateValid input base = u at *
  have hu : Placed input u row := ⟨h1 ▸ hbase.partitionStart,h2 ▸ hbase.partitionEnd,
    h3 ▸ hbase.peerStart⟩
  rw [← h1,← h2] at hvalid
  -- Without a row in the valid keys, the hint is nowhere a key.
  have hempty : u.partitionEnd ≤ u.validStart →
      HintFirst input u.partitionStart u.partitionEnd u.prev.start := by
    intro hle hlo hhi _ hnull
    have := (hvalid.covers _ hlo.le hhi hnull).1
    omega
  have hfresh : HintFirst input u.partitionStart u.partitionEnd u.validStart := by
    intro hlo _ hnull _
    have hle := hvalid.le
    have := (hvalid.covers (u.validStart - 1) (by omega) (by omega) hnull).1
    omega
  refine ⟨hvalid,?_,?_⟩
  · intro hstart
    rcases hcase with ⟨-,hreset⟩ | ⟨hkeep,hno | hle⟩
    · rw [hreset]
      exact ⟨hvalid.le,hfresh⟩
    · rw [hkeep,hprev]
      exact hs.keptHint hrow hu hstart
    · refine ⟨?_,hempty (h2 ▸ hle)⟩
      rw [hkeep,hprev]
      exact (hs.keptHint hrow hu hstart).1
  · intro hstart _
    rcases hcase with ⟨-,hreset⟩ | ⟨_,hno | hle⟩
    · rw [hreset]
      exact hfresh
    · simp [BoundWindowExpression.hasFollowingRange,hstart] at hno
    · exact hempty (h2 ▸ hle)

theorem ranged_updateStarts : Ranged input nullsFirst (s.updateStarts input row) row := by
  rcases updateStarts_cases h.masks hrow hs.visited with
    ⟨base,hbase,hprev,-,heq⟩ | ⟨peerStart,hnext,hsame,hplaced,heq⟩
  · exact heq ▸ ranged_new h hs hrow hbase hprev
  · rw [heq]
    rcases hs with ⟨hzero,_⟩ | ⟨r,hr,_,hnext',_,hranged⟩
    · -- The first row starts a partition, so it does not continue one.
      obtain rfl : row = 0 := by omega
      rw [h.masks.partition_zero] at hsame
      cases hsame
    · refine ⟨hranged.valid,hranged.hint.preceding,?_⟩
      intro hstart hlt
      exact hranged.hint.following hstart (hr.trans hlt)

omit hs hrow in
theorem RangeInput.updatePartition_eq (s : BoundariesState) (row : Nat) : ∃ peerEnd,
    s.updatePartition input row = { s.updateStarts input row with peerEnd := peerEnd } := by
  have hcount : 0 < input.wexpr.partitions + input.wexpr.orders := by
    have := h.one_key
    omega
  unfold updatePartition
  rw [if_pos hcount]
  split
  · exact ⟨_,rfl⟩
  · exact ⟨(s.updateStarts input row).peerEnd,rfl⟩

theorem ranged_updatePartition : Ranged input nullsFirst (s.updatePartition input row) row := by
  have hranged := ranged_updateStarts h hs hrow
  obtain ⟨peerEnd,heq⟩ := h.updatePartition_eq s row
  rw [heq]
  exact ⟨hranged.valid,hranged.hint.preceding,hranged.hint.following⟩

/-- At a row with a key the hints are those left by the row before, or reset to the valid keys. -/
theorem updatePartition_prev (hnull : input.range.cellIsNull row = false) :
    (HintsKept input s row ∧ (s.updatePartition input row).prev = s.prev) ∨
      ¬ HintsKept input s row ∧
        (s.updatePartition input row).prev.end_ = (s.updatePartition input row).validEnd := by
  obtain ⟨peerEnd,heq⟩ := h.updatePartition_eq s row
  rw [heq]
  rcases updateStarts_cases h.masks hrow hs.visited with
    ⟨base,hbase,hprev,hnew,hstarts⟩ | ⟨peerStart,hnext,hsame,-,hstarts⟩
  · obtain ⟨hvalid,⟨hfollowing,hreset⟩ | ⟨hkeep,hcase⟩⟩ := updateValid_spec h hbase.isPartition
    · rw [hstarts,hreset]
      exact .inr ⟨fun hkept => hnew (hkept hfollowing),rfl⟩
    · rw [hstarts]
      refine .inl ⟨fun hfollowing => ?_,hkeep.trans hprev⟩
      rcases hcase with hno | hempty
      · rw [hno] at hfollowing
        cases hfollowing
      -- The key of the row is one of the valid ones.
      · have hrow' := (hvalid.covers row hbase.partitionStart.le hbase.partitionEnd.lt hnull).1
        have := hbase.partitionEnd.lt
        omega
  · rw [hstarts]
    exact .inl ⟨fun _ => ⟨hnext,hsame⟩,rfl⟩

end

/-- The row `j` is not before the bound: NULL keys come first or last. -/
def NotBefore (input : WindowInput K) (nullsFirst : Bool) (val : K) (j : Nat) : Prop :=
  if input.range.cellIsNull j then nullsFirst = false
  else input.wexpr.rangeSense.comp (input.range.getCell j) val = false

/-- The row `j` is not behind the bound. -/
def NotAfter (input : WindowInput K) (nullsFirst : Bool) (val : K) (j : Nat) : Prop :=
  if input.range.cellIsNull j then nullsFirst = true
  else input.wexpr.rangeSense.comp val (input.range.getCell j) = false

/-- A condition on keys, with NULL keys at their end of the order. -/
def Keyed (input : WindowInput K) (nullsFirst : Bool) (q : K → Bool) (j : Nat) : Bool :=
  if input.range.cellIsNull j then nullsFirst else q (input.range.getCell j)

theorem notBefore_iff : NotBefore input nullsFirst val j ↔
    Keyed input nullsFirst (fun key => input.wexpr.rangeSense.comp key val) j = false := by
  unfold NotBefore Keyed
  split <;> rfl

theorem notAfter_iff : NotAfter input nullsFirst val j ↔
    Keyed input nullsFirst (fun key => !input.wexpr.rangeSense.comp val key) j = true := by
  unfold NotAfter Keyed
  split <;> simp

section Sides

variable {t : BoundariesState} {row : Nat}

/-- A row with a key, at which the state has its boundaries and valid keys. -/
structure AtKey (input : WindowInput K) (nullsFirst : Bool) (t : BoundariesState)
    (row : Nat) : Prop where
  input_ok : RangeInput input nullsFirst
  partition : IsPartition input t.partitionStart t.partitionEnd
  ge : t.partitionStart ≤ row
  lt : row < t.partitionEnd
  valid : ValidRange input nullsFirst t.partitionStart t.partitionEnd t.validStart t.validEnd
  notNull : input.range.cellIsNull row = false

section

variable (h : AtKey input nullsFirst t row)
  (hpreceding : input.wexpr.hasPrecedingRange = true)
  (hfollowing : input.wexpr.hasFollowingRange = true)
include h

theorem AtKey.validStart_le : t.validStart ≤ row :=
  (h.valid.covers row h.ge h.lt h.notNull).1

theorem AtKey.lt_validEnd : row < t.validEnd :=
  (h.valid.covers row h.ge h.lt h.notNull).2

/-- A NULL key in front of the row, in front of the valid keys. -/
theorem AtKey.null_before (hlo : t.partitionStart ≤ j) (hjr : j ≤ row)
    (hnull : input.range.cellIsNull j = true) :
    nullsFirst = true ∧ (input.wexpr.hasPrecedingRange = true → j < t.validStart) := by
  have hfirst := h.input_ok.null_left h.partition hlo hjr h.lt h.notNull hnull
  refine ⟨hfirst,fun hpreceding => ?_⟩
  by_contra hin
  rw [h.valid.preceding hpreceding hfirst j (not_lt.mp hin) (hjr.trans_lt h.lt)] at hnull
  cases hnull

theorem AtKey.null_behind (hjr : row ≤ j) (hhi : j < t.partitionEnd)
    (hnull : input.range.cellIsNull j = true) :
    nullsFirst = false ∧ (input.wexpr.hasFollowingRange = true → t.validEnd ≤ j) := by
  have hlast := h.input_ok.null_right h.partition h.ge hjr hhi h.notNull hnull
  refine ⟨hlast,fun hfollowing => ?_⟩
  by_contra hin
  rw [h.valid.following hfollowing hlast j (h.validStart_le.trans hjr) (not_le.mp hin)] at hnull
  cases hnull

include hpreceding in
theorem AtKey.notNull_before (hj : t.validStart ≤ j) (hjr : j ≤ row) :
    input.range.cellIsNull j = false := by
  by_contra hnull
  have := (h.null_before (h.valid.ge.trans hj) hjr (by simpa using hnull)).2 hpreceding
  omega

include hfollowing in
theorem AtKey.notNull_behind (hjr : row ≤ j) (hj : j < t.validEnd) :
    input.range.cellIsNull j = false := by
  by_contra hnull
  have := (h.null_behind hjr (hj.trans_le h.valid.le_end) (by simpa using hnull)).2 hfollowing
  omega

theorem AtKey.sorted (hi : t.partitionStart ≤ i) (hij : i ≤ j)
    (hj : j < t.partitionEnd) (hni : input.range.cellIsNull i = false)
    (hnj : input.range.cellIsNull j = false) :
    input.wexpr.rangeSense.comp (input.range.getCell j) (input.range.getCell i) = false :=
  h.input_ok.sorted i j hij (hj.trans_le h.partition.le) (h.partition.sameGroup hi hij hj) hni hnj

include hpreceding in
theorem AtKey.sortedOn_before : SortedOn input.wexpr.rangeSense input.range t.validStart row := by
  intro i j hi hij hj
  have hlt := h.lt
  exact h.sorted (h.valid.ge.trans hi) hij (by omega)
    (h.notNull_before hpreceding hi (by omega)) (h.notNull_before hpreceding (by omega) (by omega))

include hfollowing in
theorem AtKey.sortedOn_behind : SortedOn input.wexpr.rangeSense input.range row t.validEnd := by
  intro i j hi hij hj
  have hle := h.valid.le_end
  exact h.sorted (h.ge.trans hi) hij (by omega)
    (h.notNull_behind hfollowing hi (by omega)) (h.notNull_behind hfollowing (by omega) hj)

variable {q : K → Bool}

include hpreceding in
/-- A search before the row finds the point for the whole partition. -/
theorem AtKey.point_before
    (hq : ∀ j, row ≤ j → j < t.partitionEnd → input.range.cellIsNull j = false →
      q (input.range.getCell j) = false)
    (hp : IsPartitionPoint (fun i => q (input.range.getCell i)) t.validStart row p) :
    IsPartitionPoint (Keyed input nullsFirst q) t.partitionStart t.partitionEnd p := by
  have hin : IsPartitionPoint (Keyed input nullsFirst q) t.validStart row p :=
    hp.congr fun i hi hlt => by simp [Keyed,h.notNull_before hpreceding hi hlt.le]
  refine hin.widen h.valid.ge h.lt.le ?_ ?_ <;> intro j hge hlt <;> unfold Keyed
  · cases hnull : input.range.cellIsNull j with
    | true => exact (h.null_before hge (hlt.le.trans h.validStart_le) hnull).1
    | false =>
      have := (h.valid.covers j hge (hlt.trans_le h.valid.le) hnull).1
      omega
  · cases hnull : input.range.cellIsNull j with
    | true => exact (h.null_behind hge hlt hnull).1
    | false => exact hq j hge hlt hnull

include hfollowing in
/-- So does a search behind the row. -/
theorem AtKey.point_behind
    (hq : ∀ j, t.partitionStart ≤ j → j < row → input.range.cellIsNull j = false →
      q (input.range.getCell j) = true)
    (hp : IsPartitionPoint (fun i => q (input.range.getCell i)) row t.validEnd p) :
    IsPartitionPoint (Keyed input nullsFirst q) t.partitionStart t.partitionEnd p := by
  have hin : IsPartitionPoint (Keyed input nullsFirst q) row t.validEnd p :=
    hp.congr fun i hi hlt => by simp [Keyed,h.notNull_behind hfollowing hi hlt]
  refine hin.widen h.ge h.valid.le_end ?_ ?_ <;> intro j hge hlt <;> unfold Keyed
  · cases hnull : input.range.cellIsNull j with
    | true => exact (h.null_before hge hlt.le hnull).1
    | false => exact hq j hge hlt hnull
  · have hrow := h.lt_validEnd.le.trans hge
    cases hnull : input.range.cellIsNull j with
    | true => exact (h.null_behind hrow hlt hnull).1
    | false =>
      have := (h.valid.covers j (h.ge.trans hrow) hlt hnull).2
      omega

end

end Sides

end PredTrans.Window
