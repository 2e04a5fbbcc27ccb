import PredTrans.Library.Groups

/-!
Searches for the set bits of a packed mask (`FindNextStart` and `FindPrevStart` of
window_executor.cpp). Blank blocks of 64 bits are skipped.
-/

namespace PredTrans.Window

open Library List

/-- `ValidityMask`; without a buffer all rows are valid. -/
structure ValidityMask where
  validityMask : Option (Nat → BitVec 64)

namespace ValidityMask

/-- `BITS_PER_VALUE`. -/
def bitsPerValue : Nat := 64

def allValid (mask : ValidityMask) : Bool := mask.validityMask.isNone

def getValidityEntry (mask : ValidityMask) (entryIdx : Nat) : BitVec 64 :=
  match mask.validityMask with
  | none => BitVec.allOnes 64
  | some entries => entries entryIdx

/-- `RowIsValid` of a row; `RowIsValidUnsafe` reads the same entry. -/
def rowIsValid (mask : ValidityMask) (rowIdx : Nat) : Bool :=
  (mask.getValidityEntry (rowIdx / bitsPerValue)).getLsbD (rowIdx % bitsPerValue)

end ValidityMask

open ValidityMask

/-- The loop over a block in `FindNextStart`: either the position found, or the position and
count with which the loop ends. The first argument is the number of bits left in the block. -/
def nextInBlock (block : BitVec 64) (r : Nat) : Nat → Nat → Nat → Nat ⊕ Nat × Nat
  | 0, l, n => .inr (l, n)
  | left + 1, l, n =>
    if l < r then
      if block.getLsbD (bitsPerValue - (left + 1)) then
        if n - 1 = 0 then .inl (min l r) else nextInBlock block r left (l + 1) (n - 1)
      else nextInBlock block r left (l + 1) n
    else .inr (l, n)

/-- The outer loop of `FindNextStart`. Each round moves `l`, so `r - l` rounds are enough. -/
def nextLoop (mask : ValidityMask) (r : Nat) : Nat → Nat → Nat → Nat × Nat
  | 0, _, n => (r, n)
  | fuel + 1, l, n =>
    if l < r then
      let shift := l % bitsPerValue
      let block := mask.getValidityEntry (l / bitsPerValue)
      if block = 0 ∧ shift = 0 then nextLoop mask r fuel (l + bitsPerValue) n
      else
        match nextInBlock block r (bitsPerValue - shift) l n with
        | .inl found => (found, 0)
        | .inr (l, n) => nextLoop mask r fuel l n
    else (r, n)

/-- `FindNextStart`, with what is left of the count. -/
def findNextStart (mask : ValidityMask) (l r n : Nat) : Nat × Nat :=
  if mask.allValid then (min (l + n - 1) r, n - min n (r - l))
  else nextLoop mask r (r - l) l n

/-- The loop over a block in `FindPrevStart`; the first argument is the number of bits left. -/
def prevInBlock (block : BitVec 64) (l : Nat) : Nat → Nat → Nat → Nat ⊕ Nat × Nat
  | 0, r, n => .inr (r, n)
  | shift + 1, r, n =>
    if l < r then
      if block.getLsbD shift then
        if n - 1 = 0 then .inl (max l (r - 1)) else prevInBlock block l shift (r - 1) (n - 1)
      else prevInBlock block l shift (r - 1) n
    else .inr (r, n)

/-- The outer loop of `FindPrevStart`. -/
def prevLoop (mask : ValidityMask) (l : Nat) : Nat → Nat → Nat → Nat × Nat
  | 0, _, n => (l, n)
  | fuel + 1, r, n =>
    if l < r then
      let shift := (r - 1) % bitsPerValue
      let block := mask.getValidityEntry ((r - 1) / bitsPerValue)
      if block = 0 ∧ shift + 1 = bitsPerValue then prevLoop mask l fuel (r - bitsPerValue) n
      else
        match prevInBlock block l (shift + 1) r n with
        | .inl found => (found, 0)
        | .inr (r, n) => prevLoop mask l fuel r n
    else (l, n)

/-- `FindPrevStart`, with what is left of the count. -/
def findPrevStart (mask : ValidityMask) (l r n : Nat) : Nat × Nat :=
  if mask.allValid then
    let start := if r ≤ l + n then l else r - n
    (start, n - (r - start))
  else prevLoop mask l (r - l) r n

/-- The first set bit in `[l, r)`, or `r`. -/
structure IsNext (mask : ValidityMask) (l r p : Nat) : Prop where
  ge : l ≤ p
  le : p ≤ r
  found : p < r → mask.rowIsValid p = true
  none_before : ∀ k, l ≤ k → k < p → mask.rowIsValid k = false

/-- The last set bit in `[l, r)`, or `l`. -/
structure IsPrev (mask : ValidityMask) (l r p : Nat) : Prop where
  ge : l ≤ p
  le : p ≤ r
  lt : l < r → p < r
  found : p = l ∨ mask.rowIsValid p = true
  none_after : ∀ k, p < k → k < r → mask.rowIsValid k = false

variable {mask : ValidityMask} {l r : Nat}

theorem rowIsValid_of_allValid (h : mask.allValid = true) (i : Nat) : mask.rowIsValid i = true := by
  have hnone : mask.validityMask = none := by simpa [allValid] using h
  have hlt : i % 64 < 64 := Nat.mod_lt _ (by omega)
  simp only [rowIsValid,getValidityEntry,hnone,bitsPerValue,BitVec.getLsbD_allOnes,hlt,
    decide_true]

theorem rowIsValid_of_blank {entryIdx i : Nat} (h : mask.getValidityEntry entryIdx = 0)
    (hlo : entryIdx * bitsPerValue ≤ i) (hhi : i < (entryIdx + 1) * bitsPerValue) :
    mask.rowIsValid i = false := by
  have hentry : i / bitsPerValue = entryIdx := by
    unfold bitsPerValue at *
    omega
  simp [rowIsValid,hentry,h]

theorem getLsbD_entry (h : i = entryIdx * bitsPerValue + shift) (hshift : shift < bitsPerValue) :
    (mask.getValidityEntry entryIdx).getLsbD shift = mask.rowIsValid i := by
  have hdiv : i / bitsPerValue = entryIdx := by
    unfold bitsPerValue at *
    omega
  have hmod : i % bitsPerValue = shift := by
    unfold bitsPerValue at *
    omega
  rw [rowIsValid,hdiv,hmod]

/-- The set bits in `[l, r)`. -/
def validRows (mask : ValidityMask) (l r : Nat) : List Nat :=
  (range' l (r - l)).filter mask.rowIsValid

/-- The `n`-th of the rows, or the end with what is left of the count. -/
def nthRow (rows : List Nat) (n stop : Nat) : Nat × Nat := (rows.getD (n - 1) stop, n - rows.length)

theorem validRows_append (hlm : l ≤ m) (hmr : m ≤ r) :
    validRows mask l r = validRows mask l m ++ validRows mask m r := by
  obtain ⟨a,rfl⟩ := Nat.exists_eq_add_of_le hlm
  obtain ⟨b,rfl⟩ := Nat.exists_eq_add_of_le hmr
  have hcount : l + a + b - l = a + b := by omega
  simp only [validRows,← filter_append,hcount,Nat.add_sub_cancel_left,range'_append_1]

theorem validRows_eq_nil (h : ∀ k, l ≤ k → k < r → mask.rowIsValid k = false) :
    validRows mask l r = [] := by
  simp only [validRows,filter_eq_nil_iff,mem_range'_1,Bool.not_eq_true]
  exact fun k hk => h k hk.1 (by omega)

theorem validRows_of_ge (h : r ≤ l) : validRows mask l r = [] := validRows_eq_nil (by omega)

theorem validRows_of_allValid (h : mask.allValid = true) :
    validRows mask l r = range' l (r - l) := by
  simp [validRows,rowIsValid_of_allValid h]

theorem validRows_one : validRows mask l (l + 1) = if mask.rowIsValid l then [l] else [] := by
  simp [validRows,filter_cons]

theorem nthRow_cons (hn : 0 < n) :
    nthRow (row :: rows) n stop = if n - 1 = 0 then (row, 0) else nthRow rows (n - 1) stop := by
  obtain ⟨n,rfl⟩ := Nat.exists_eq_succ_of_ne_zero hn.ne'
  cases n <;> simp [nthRow]

theorem nextInBlock_spec {entryIdx left : Nat} (hn : 0 < n) (hleft : left ≤ bitsPerValue)
    (hl : l + left = (entryIdx + 1) * bitsPerValue) :
    match nextInBlock (mask.getValidityEntry entryIdx) r left l n with
    | .inl p => nthRow (validRows mask l r) n r = (p, 0)
    | .inr (l', n') => 0 < n' ∧ (l' = (entryIdx + 1) * bitsPerValue ∨ r ≤ l') ∧
        nthRow (validRows mask l r) n r = nthRow (validRows mask l' r) n' r := by
  induction left generalizing l n with
  | zero => exact ⟨hn,.inl hl,rfl⟩
  | succ left ih =>
    have hbit : (mask.getValidityEntry entryIdx).getLsbD (bitsPerValue - (left + 1)) =
        mask.rowIsValid l := by
      apply getLsbD_entry
      · unfold bitsPerValue at *
        omega
      · omega
    have hstep := fun n hn => @ih (l + 1) n hn (by omega) (by omega)
    rw [nextInBlock,hbit]
    by_cases hlt : l < r
    · rw [if_pos hlt,validRows_append (Nat.le_succ l) hlt,validRows_one]
      cases hvalid : mask.rowIsValid l with
      | true =>
        simp only [if_true,singleton_append,nthRow_cons hn]
        by_cases hlast : n - 1 = 0
        · simp only [if_pos hlast,min_eq_left hlt.le]
        · simp only [if_neg hlast]
          exact hstep (n - 1) (Nat.pos_of_ne_zero hlast)
      | false => exact hstep n hn
    · rw [if_neg hlt]
      exact ⟨hn,.inr (not_lt.mp hlt),rfl⟩

theorem nextLoop_spec {fuel : Nat} (hn : 0 < n) (hfuel : r ≤ l + fuel) :
    nextLoop mask r fuel l n = nthRow (validRows mask l r) n r := by
  induction fuel generalizing l n with
  | zero =>
    rw [add_zero] at hfuel
    rw [validRows_of_ge hfuel]
    rfl
  | succ fuel ih =>
    rw [nextLoop]
    split
    case isTrue hlt =>
      dsimp only
      split
      case isTrue hblank =>
        -- The block starts at `l`.
        have hnone : ∀ k, l ≤ k → k < l + bitsPerValue → mask.rowIsValid k = false := by
          intro k hk hk'
          apply rowIsValid_of_blank hblank.1
          all_goals
            unfold bitsPerValue at *
            omega
        rw [ih hn (by unfold bitsPerValue; omega)]
        rcases le_total (l + bitsPerValue) r with hle | hge
        · rw [validRows_append (Nat.le_add_right l bitsPerValue) hle,validRows_eq_nil hnone,
            nil_append]
        · rw [validRows_of_ge hge,validRows_eq_nil fun k hk hk' => hnone k hk (hk'.trans_le hge)]
      case isFalse =>
        have hshift : l % bitsPerValue < bitsPerValue := Nat.mod_lt _ (by decide)
        have hblock := @nextInBlock_spec mask l r n (l / bitsPerValue)
          (bitsPerValue - l % bitsPerValue) hn (by omega) (by unfold bitsPerValue at *; omega)
        split at hblock
        case h_1 p hp => exact hblock.symm
        case h_2 l' n' hn =>
          obtain ⟨hn',hmoved,heq⟩ := hblock
          rw [heq]
          exact ih hn' (by unfold bitsPerValue at *; omega)
    case isFalse hge => simp [validRows_of_ge (not_lt.mp hge),nthRow]

theorem findNextStart_spec (hn : 0 < n) (hlr : l ≤ r) :
    findNextStart mask l r n = nthRow (validRows mask l r) n r := by
  unfold findNextStart
  split
  case isTrue hall =>
    rw [validRows_of_allValid hall,nthRow,length_range',getD_eq_getElem?_getD]
    refine Prod.ext ?_ (by simp only []; omega)
    rcases lt_or_ge (n - 1) (r - l) with hlt | hge
    · simp only [getElem?_range',hlt,Option.getD_some]
      omega
    · rw [getElem?_eq_none (by simpa using hge),Option.getD_none]
      omega
  case isFalse => exact nextLoop_spec hn (by omega)

theorem prevInBlock_spec {entryIdx shift : Nat} (hn : 0 < n) (hshift : shift ≤ bitsPerValue)
    (hr : r = entryIdx * bitsPerValue + shift) :
    match prevInBlock (mask.getValidityEntry entryIdx) l shift r n with
    | .inl p => nthRow (validRows mask l r).reverse n l = (p, 0)
    | .inr (r', n') => 0 < n' ∧ (r' = entryIdx * bitsPerValue ∨ r' ≤ l) ∧
        nthRow (validRows mask l r).reverse n l = nthRow (validRows mask l r').reverse n' l := by
  induction shift generalizing r n with
  | zero => exact ⟨hn,.inl hr,rfl⟩
  | succ shift ih =>
    obtain ⟨r,rfl⟩ : ∃ k, r = k + 1 := ⟨r - 1,by omega⟩
    have hbit : (mask.getValidityEntry entryIdx).getLsbD shift = mask.rowIsValid r :=
      getLsbD_entry (by omega) (by omega)
    have hstep := fun n hn => @ih r n hn (by omega) (by omega)
    rw [prevInBlock,hbit,Nat.add_sub_cancel]
    by_cases hlt : l < r + 1
    · rw [if_pos hlt,validRows_append (Nat.le_of_lt_succ hlt) (Nat.le_succ r),validRows_one]
      cases hvalid : mask.rowIsValid r with
      | true =>
        simp only [if_true,reverse_append,reverse_singleton,singleton_append,
          nthRow_cons hn]
        by_cases hlast : n - 1 = 0
        · simp only [if_pos hlast,max_eq_right (Nat.le_of_lt_succ hlt)]
        · simp only [if_neg hlast]
          exact hstep (n - 1) (Nat.pos_of_ne_zero hlast)
      | false =>
        simp only [Bool.false_eq_true,if_false,append_nil]
        exact hstep n hn
    · rw [if_neg hlt]
      exact ⟨hn,.inr (not_lt.mp hlt),rfl⟩

theorem prevLoop_spec {fuel : Nat} (hn : 0 < n) (hfuel : r ≤ l + fuel) :
    prevLoop mask l fuel r n = nthRow (validRows mask l r).reverse n l := by
  induction fuel generalizing r n with
  | zero =>
    rw [add_zero] at hfuel
    rw [validRows_of_ge hfuel]
    rfl
  | succ fuel ih =>
    rw [prevLoop]
    split
    case isTrue hlt =>
      dsimp only
      split
      case isTrue hblank =>
        -- The block ends at `r`.
        have hnone : ∀ k, r - bitsPerValue ≤ k → k < r → mask.rowIsValid k = false := by
          intro k hk hk'
          apply rowIsValid_of_blank hblank.1
          all_goals
            unfold bitsPerValue at *
            omega
        rw [ih hn (by unfold bitsPerValue; omega)]
        rcases le_total l (r - bitsPerValue) with hle | hge
        · rw [validRows_append hle (Nat.sub_le r bitsPerValue),validRows_eq_nil hnone,
            append_nil]
        · rw [validRows_of_ge hge,validRows_eq_nil fun k hk => hnone k (hge.trans hk)]
      case isFalse =>
        have hblock := @prevInBlock_spec mask l r n ((r - 1) / bitsPerValue)
          ((r - 1) % bitsPerValue + 1) hn (Nat.mod_lt _ (by decide))
          (by unfold bitsPerValue at *; omega)
        split at hblock
        case h_1 p hp => exact hblock.symm
        case h_2 r' n' hn =>
          obtain ⟨hn',hmoved,heq⟩ := hblock
          rw [heq]
          exact ih hn' (by unfold bitsPerValue at *; omega)
    case isFalse hge => simp [validRows_of_ge (not_lt.mp hge),nthRow]

theorem findPrevStart_spec (hn : 0 < n) (hlr : l ≤ r) :
    findPrevStart mask l r n = nthRow (validRows mask l r).reverse n l := by
  unfold findPrevStart
  split
  case isTrue hall =>
    rw [validRows_of_allValid hall,nthRow,length_reverse,length_range',
      getD_eq_getElem?_getD]
    refine Prod.ext ?_ (by simp only []; split <;> omega)
    rcases lt_or_ge (n - 1) (r - l) with hlt | hge
    · rw [getElem?_reverse (by simpa using hlt),length_range',
        getElem?_range' (by omega),Option.getD_some]
      simp only []
      split <;> omega
    · rw [getElem?_eq_none (by simpa using hge),Option.getD_none]
      exact if_pos (by omega)
  case isFalse => exact prevLoop_spec hn (by omega)

theorem mem_validRows : k ∈ validRows mask l r ↔ (l ≤ k ∧ k < r) ∧ mask.rowIsValid k = true := by
  simp only [validRows,mem_filter,mem_range'_1]
  exact and_congr_left fun _ => by omega

theorem validRows_pairwise (mask : ValidityMask) (l r : Nat) :
    (validRows mask l r).Pairwise (· < ·) := List.Pairwise.filter _ pairwise_lt_range'

theorem findNextStart_one (hlr : l ≤ r) : IsNext mask l r (findNextStart mask l r 1).1 := by
  rw [findNextStart_spec one_pos hlr]
  have hmem := @mem_validRows mask l r
  have hsorted := validRows_pairwise mask l r
  cases hrows : validRows mask l r with
  | nil =>
    refine ⟨hlr,le_refl r,fun h => absurd h (lt_irrefl r),fun k hk hk' => ?_⟩
    simpa [hrows,hk,show k < r from hk'] using @hmem k
  | cons p rows =>
    rw [hrows] at hmem hsorted
    obtain ⟨hp,hvalid⟩ := hmem.mp mem_cons_self
    refine ⟨hp.1,hp.2.le,fun _ => hvalid,fun k hk hk' => ?_⟩
    rw [← Bool.not_eq_true]
    intro hv
    rcases mem_cons.mp (hmem.mpr ⟨⟨hk,hk'.trans hp.2⟩,hv⟩) with rfl | hin
    · exact lt_irrefl k hk'
    · exact lt_asymm hk' (rel_of_pairwise_cons hsorted hin)

theorem findPrevStart_one (hlr : l ≤ r) : IsPrev mask l r (findPrevStart mask l r 1).1 := by
  rw [findPrevStart_spec one_pos hlr]
  have hmem : ∀ {k}, k ∈ (validRows mask l r).reverse ↔ _ := mem_reverse.trans mem_validRows
  have hsorted := pairwise_reverse.mpr (validRows_pairwise mask l r)
  cases hrows : (validRows mask l r).reverse with
  | nil =>
    refine ⟨le_refl l,hlr,id,.inl rfl,fun k hk hk' => ?_⟩
    have hk : l < k := hk
    simpa [hrows,hk',hk.le] using @hmem k
  | cons p rows =>
    rw [hrows] at hmem hsorted
    obtain ⟨hp,hvalid⟩ := hmem.mp mem_cons_self
    refine ⟨hp.1,hp.2.le,fun _ => hp.2,.inr hvalid,fun k hk hk' => ?_⟩
    rw [← Bool.not_eq_true]
    intro hv
    rcases mem_cons.mp (hmem.mpr ⟨⟨hp.1.trans hk.le,hk'⟩,hv⟩) with rfl | hin
    · exact lt_irrefl k hk
    · exact lt_asymm hk (rel_of_pairwise_cons hsorted hin)

end PredTrans.Window
