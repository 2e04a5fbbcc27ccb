import Mathlib

/-! Scanning a range of validity bits into a result mask, word by word. One of the two positions is
always at the start of a word. Where the input has to be shifted right, the mask of the tail is
not shifted with it, so that bits behind the range can be cleared. -/

namespace PredTrans.Compression.Validity
open Function BitVec

/-- The words of a validity mask; a mask that is not allocated has all bits set. -/
abbrev Mask := Nat → BitVec 64

def Mask.rowIsValid (m : Mask) (row : Nat) : Bool := (m (row / 64)).getLsbD (row % 64)

/-- The entries of `LOWER_MASKS` and `UPPER_MASKS`. -/
def lowerMask (k : Nat) : BitVec 64 := BitVec.ofNat 64 (2 ^ k - 1)
def upperMask (k : Nat) : BitVec 64 := allOnes 64 <<< (64 - k)

structure Position where
  resultEntry : Nat
  resultIdx : Nat
  inputEntry : Nat
  inputIdx : Nat
  pos : Nat

/-- The word of the input at a position, moved to the bits of the result, and the next position. -/
def Position.step (p : Position) (input : BitVec 64) : BitVec 64 × Position :=
  if p.resultIdx < p.inputIdx then
    let shiftAmount := p.inputIdx - p.resultIdx
    let offset := 64 - p.inputIdx
    (input >>> shiftAmount ||| upperMask shiftAmount,
      ⟨p.resultEntry, p.resultIdx + offset, p.inputEntry + 1, 0, p.pos + offset⟩)
  else if p.resultIdx > p.inputIdx then
    let shiftAmount := p.resultIdx - p.inputIdx
    let offset := 64 - p.resultIdx
    ((input &&& ~~~upperMask shiftAmount) <<< shiftAmount ||| lowerMask shiftAmount,
      ⟨p.resultEntry + 1, 0, p.inputEntry, p.inputIdx + offset, p.pos + offset⟩)
  else (input, ⟨p.resultEntry + 1, 0, p.inputEntry + 1, 0, p.pos + (64 - p.resultIdx)⟩)

def scanLoop (input : Mask) (scanCount : Nat) : Nat → Position → Mask → Mask
  | 0, _, result => result
  | fuel + 1, p, result =>
    if p.pos < scanCount then
      let (inputMask, next) := p.step (input p.inputEntry)
      let inputMask :=
        if next.pos > scanCount then inputMask ||| upperMask (next.pos - scanCount) else inputMask
      scanLoop input scanCount fuel next <|
        if inputMask ≠ allOnes 64 then
          update result p.resultEntry (result p.resultEntry &&& inputMask)
        else result
    else result

/-- Every round moves on by at least one row. -/
def validityScanPartial (input : Mask) (start scanCount : Nat) (result : Mask)
    (resultOffset : Nat) : Mask :=
  scanLoop input scanCount scanCount
    ⟨resultOffset / 64, resultOffset - resultOffset / 64 * 64, start / 64,
      start - start / 64 * 64, 0⟩
    result

def validityScan (input : Mask) (start scanCount : Nat) (result : Mask) : Mask :=
  if start % 64 = 0 then
    fun i => if i < (scanCount + 64 - 1) / 64 then input (start / 64 + i) else result i
  else validityScanPartial input start scanCount result 0

/-- A segment with the row in it where the scan begins, and the number of rows from there on. -/
structure ValiditySegment where
  data : Mask
  start : Nat
  count : Nat

def ValiditySegment.rows (s : ValiditySegment) : List Bool :=
  (List.range s.count).map fun i => s.data.rowIsValid (s.start + i)

/-- One round of `ColumnData::ScanVector` on a validity column. -/
def scanSegment (hasUpdates : Bool) (initialRemaining remaining : Nat) (s : ValiditySegment)
    (result : Mask) : Mask :=
  let scanCount := min remaining s.count
  if 0 < scanCount then
    if !hasUpdates && scanCount == initialRemaining then
      validityScan s.data s.start scanCount result
    else validityScanPartial s.data s.start scanCount result (initialRemaining - remaining)
  else result

def scanVector (hasUpdates : Bool) (initialRemaining : Nat) :
    Nat → List ValiditySegment → Mask → Mask
  | _, [], result => result
  | remaining, s :: segments, result =>
    scanVector hasUpdates initialRemaining (remaining - min remaining s.count) segments
      (scanSegment hasUpdates initialRemaining remaining s result)

/-- A row behind the scanned range that the last round covers: the phases of input and result are
`d` apart, and the range ends in the part of the word that is shifted right. -/
def Leaks (start scanCount resultOffset row : Nat) : Prop :=
  let d := (start + 64 - resultOffset % 64) % 64
  let last := resultOffset + scanCount
  last % 64 ≠ 0 ∧ last ≤ row ∧ row < last + d ∧ row / 64 = last / 64 ∧ row % 64 < 64 - d

/-- No valid row behind the range meets an invalid row of the input. -/
def Harmless (input : Mask) (start scanCount : Nat) (result : Mask) (resultOffset : Nat) : Prop :=
  ∀ row, Leaks start scanCount resultOffset row →
    result.rowIsValid row = false ∨ input.rowIsValid (start + (row - resultOffset)) = true

/-- The scan copies the rows of its range and leaves all others as they were. -/
def Exact (input : Mask) (start scanCount : Nat) (result : Mask) (resultOffset : Nat) : Prop :=
  ∀ row, (validityScanPartial input start scanCount result resultOffset).rowIsValid row =
    if resultOffset ≤ row ∧ row < resultOffset + scanCount then
      input.rowIsValid (start + (row - resultOffset))
    else result.rowIsValid row

/-- All scans of a vector are harmless. -/
def HarmlessScans (hasUpdates : Bool) (initialRemaining : Nat) :
    Nat → List ValiditySegment → Mask → Prop
  | _, [], _ => True
  | remaining, s :: segments, result =>
    Harmless s.data s.start (min remaining s.count) result (initialRemaining - remaining) ∧
      HarmlessScans hasUpdates initialRemaining (remaining - min remaining s.count) segments
        (scanSegment hasUpdates initialRemaining remaining s result)

variable {input result : Mask} {start scanCount resultOffset : Nat} {p : Position}

theorem getLsbD_upperMask (hk : k < 64) : (upperMask n).getLsbD k = decide (64 - n ≤ k) := by
  rw [upperMask,getLsbD_shiftLeft,getLsbD_allOnes]
  by_cases hn : 64 - n ≤ k
  · simp [hk,hn,show k - (64 - n) < 64 by omega]
  · simp [hn]

theorem getLsbD_lowerMask (hk : k < 64) : (lowerMask n).getLsbD k = decide (k < n) := by
  rw [lowerMask,BitVec.getLsbD_ofNat,Nat.testBit_two_pow_sub_one]
  simp [hk]

/-- A position in front of row `pos` of the scan, at the start of a word of the input or of the
result. -/
structure At (start resultOffset : Nat) (p : Position) : Prop where
  result : p.resultEntry * 64 + p.resultIdx = resultOffset + p.pos
  input : p.inputEntry * 64 + p.inputIdx = start + p.pos
  resultIdx : p.resultIdx < 64
  inputIdx : p.inputIdx < 64
  phase : p.resultIdx = 0 ∨ p.inputIdx = 0

theorem At.next (h : At start resultOffset p) (w : BitVec 64) : At start resultOffset (p.step w).2 ∧
    (p.step w).2.pos = p.pos + (64 - max p.resultIdx p.inputIdx) := by
  obtain ⟨hr,hi,hr64,hi64,hphase⟩ := h
  unfold Position.step
  split
  case isTrue hlt => exact ⟨⟨by simp; omega,by simp; omega,by simp; omega,by simp,by simp⟩,
    by simp; omega⟩
  case isFalse =>
    split
    case isTrue hgt => exact ⟨⟨by simp; omega,by simp; omega,by simp,by simp; omega,by simp⟩,
      by simp; omega⟩
    case isFalse => exact ⟨⟨by simp; omega,by simp; omega,by simp,by simp,by simp⟩,by simp; omega⟩

/-- The moved word has the bits of the input in the rows of the round, and set bits elsewhere. -/
theorem At.getLsbD_step (h : At start resultOffset p) (w : BitVec 64) (hk : k < 64) :
    (p.step w).1.getLsbD k =
      (decide (k < p.resultIdx ∨ p.resultIdx + (64 - max p.resultIdx p.inputIdx) ≤ k) ||
        w.getLsbD (k + p.inputIdx - p.resultIdx)) := by
  obtain ⟨R,r,I,t,pos⟩ := p
  have hphase := h.phase
  have ht64 := h.inputIdx
  unfold Position.step
  dsimp only at hphase ht64 ⊢
  rcases Nat.lt_trichotomy r t with hlt | rfl | hgt
  · obtain rfl : r = 0 := by omega
    rw [if_pos hlt,getLsbD_or,getLsbD_ushiftRight,getLsbD_upperMask hk]
    by_cases hin : 64 - t ≤ k
    · simp [hin]
    · simp [hin,Nat.add_comm]
  · obtain rfl : r = 0 := by omega
    simp [show ¬ 64 ≤ k by omega]
  · obtain rfl : t = 0 := by omega
    rw [if_neg (by omega),if_pos hgt,getLsbD_or,getLsbD_shiftLeft,getLsbD_and,
      getLsbD_not,getLsbD_lowerMask hk,getLsbD_upperMask (by omega)]
    by_cases hin : k < r
    · simp [hin]
    · simp [hin,hk,show ¬ 64 - r ≤ k - r by omega,show k - r < 64 by omega,
        show ¬ r + (64 - r) ≤ k by omega]

/-- The rows of a round with a tail mask of `e` rows. -/
def InRound (resultOffset : Nat) (p : Position) (e row : Nat) : Prop :=
  resultOffset + p.pos ≤ row ∧ row < resultOffset + p.pos + (64 - max p.resultIdx p.inputIdx) ∧
    row % 64 < 64 - e

instance : Decidable (InRound resultOffset p e row) := by
  unfold InRound
  infer_instance

/-- What a round with the tail mask of `e` rows does to the result. -/
theorem At.rowIsValid_and (h : At start resultOffset p) (e row : Nat) :
    Mask.rowIsValid (update result p.resultEntry (result p.resultEntry &&&
      ((p.step (input p.inputEntry)).1 ||| upperMask e))) row =
    (result.rowIsValid row && (decide (¬ InRound resultOffset p e row) ||
      input.rowIsValid (start + (row - resultOffset)))) := by
  have hr := h.result
  have hi := h.input
  have hrow : row % 64 < 64 := by omega
  by_cases hentry : row / 64 = p.resultEntry
  · unfold Mask.rowIsValid
    rw [hentry,update_self,getLsbD_and,getLsbD_or,h.getLsbD_step _ hrow,
      getLsbD_upperMask hrow]
    by_cases hin : InRound resultOffset p e row
    · obtain ⟨hge,hlt,htail⟩ := id hin
      have hcell : (start + (row - resultOffset)) / 64 = p.inputEntry ∧
          (start + (row - resultOffset)) % 64 = row % 64 + p.inputIdx - p.resultIdx := by omega
      rw [hcell.1,hcell.2]
      simp [hin,show ¬ 64 - e ≤ row % 64 by omega,show ¬ row % 64 < p.resultIdx by omega,
        show ¬ p.resultIdx + (64 - max p.resultIdx p.inputIdx) ≤ row % 64 by omega]
    · have hout : (row % 64 < p.resultIdx ∨
          p.resultIdx + (64 - max p.resultIdx p.inputIdx) ≤ row % 64) ∨ 64 - e ≤ row % 64 := by
        unfold InRound at hin
        omega
      rw [decide_eq_true hin]
      rcases hout with hout | hout <;> simp [hout]
  · have hin : ¬ InRound resultOffset p e row := by
      unfold InRound
      omega
    rw [decide_eq_true hin]
    simp [Mask.rowIsValid,update_of_ne hentry]

/-- The rows that the scan reaches from a position on. -/
def Touched (start scanCount resultOffset pos row : Nat) : Prop :=
  resultOffset + pos ≤ row ∧
    (row < resultOffset + scanCount ∨ Leaks start scanCount resultOffset row)

instance : Decidable (Touched start scanCount resultOffset pos row) := by
  unfold Touched Leaks
  infer_instance

theorem scanLoop_done (h : scanCount ≤ p.pos) :
    scanLoop input scanCount fuel p result = result := by
  cases fuel with
  | zero => rfl
  | succ fuel => rw [scanLoop,if_neg (by omega)]

theorem scanLoop_succ (h : p.pos < scanCount) : scanLoop input scanCount (fuel + 1) p result =
    scanLoop input scanCount fuel (p.step (input p.inputEntry)).2
      (update result p.resultEntry (result p.resultEntry &&& ((p.step (input p.inputEntry)).1 |||
        upperMask ((p.step (input p.inputEntry)).2.pos - scanCount)))) := by
  have hmask (n : Nat) (m : BitVec 64) : (if n > scanCount then m ||| upperMask (n - scanCount)
      else m) =
      m ||| upperMask (n - scanCount) := by
    split
    · rfl
    · rw [show n - scanCount = 0 by omega,upperMask,shiftLeft_eq_zero (by decide),or_zero]
  have hset (m : BitVec 64) : (if m ≠ allOnes 64 then
      update result p.resultEntry (result p.resultEntry &&& m) else result) =
      update result p.resultEntry (result p.resultEntry &&& m) := by
    split
    · rfl
    · rename_i hm
      rw [not_not.mp hm,and_allOnes,update_eq_self]
  rw [scanLoop,if_pos h]
  simp only [hmask,hset]

theorem scanLoop_rowIsValid (h : At start resultOffset p) (hpos : p.pos < scanCount)
    (hfuel : scanCount ≤ p.pos + fuel) (row : Nat) :
    (scanLoop input scanCount fuel p result).rowIsValid row =
      (result.rowIsValid row && (decide (¬ Touched start scanCount resultOffset p.pos row) ||
        input.rowIsValid (start + (row - resultOffset)))) := by
  induction fuel generalizing p result with
  | zero => omega
  | succ fuel ih =>
    obtain ⟨hnext,hstep⟩ := h.next (input p.inputEntry)
    have hr := h.result
    have hi := h.input
    have hphase := h.phase
    have hr64 := h.resultIdx
    have hi64 := h.inputIdx
    rw [scanLoop_succ hpos]
    by_cases hend : (p.step (input p.inputEntry)).2.pos < scanCount
    · rw [ih hnext hend (by omega),h.rowIsValid_and,Bool.and_assoc]
      generalize (p.step (input p.inputEntry)).2.pos = next at *
      have htouched : Touched start scanCount resultOffset p.pos row ↔
          InRound resultOffset p (next - scanCount) row ∨
            Touched start scanCount resultOffset next row := by
        unfold InRound Touched Leaks
        omega
      grind
    · rw [scanLoop_done (by omega),h.rowIsValid_and]
      congr 3
      rw [eq_iff_iff]
      unfold InRound Touched Leaks
      rcases hphase with hzero | hzero <;> omega

section

variable (hphase : start = 0 ∨ resultOffset = 0)
include hphase

theorem validityScanPartial_rowIsValid (row : Nat) :
    (validityScanPartial input start scanCount result resultOffset).rowIsValid row =
      (result.rowIsValid row && (decide (¬ Touched start scanCount resultOffset 0 row) ||
        input.rowIsValid (start + (row - resultOffset)))) := by
  unfold validityScanPartial
  rcases Nat.eq_zero_or_pos scanCount with rfl | hpos
  · have hnone : ¬ Touched start 0 resultOffset 0 row := by
      unfold Touched Leaks
      omega
    rw [scanLoop_done (Nat.zero_le _),decide_eq_true hnone]
    simp
  · refine scanLoop_rowIsValid ?_ hpos (by simp) row
    constructor <;> dsimp only <;> omega

variable (hvalid : ∀ i < scanCount, result.rowIsValid (resultOffset + i) = true)
include hvalid

theorem exact_iff_harmless :
    Exact input start scanCount result resultOffset ↔
      Harmless input start scanCount result resultOffset := by
  unfold Exact
  simp only [validityScanPartial_rowIsValid hphase]
  constructor
  · intro hexact row hleak
    have hrow := hexact row
    have hlast := hleak.2.1
    rw [if_neg (by omega),decide_eq_false (not_not.mpr ⟨by omega,.inr hleak⟩)] at hrow
    cases hres : result.rowIsValid row with
    | false => exact .inl rfl
    | true => simpa [hres] using hrow
  intro hharmless row
  by_cases hin : resultOffset ≤ row ∧ row < resultOffset + scanCount
  · have hres := hvalid (row - resultOffset) (by omega)
    rw [show resultOffset + (row - resultOffset) = row by omega] at hres
    rw [if_pos hin,hres,decide_eq_false (not_not.mpr ⟨by omega,.inl hin.2⟩)]
    simp
  rw [if_neg hin]
  by_cases hleak : Leaks start scanCount resultOffset row
  · rcases hharmless row hleak with hres | hinput
    · simp [hres]
    · simp [hinput]
  · have hnone : ¬ Touched start scanCount resultOffset 0 row := by
      rintro ⟨hge,hlt | hleak'⟩
      · omega
      · exact hleak hleak'
    simp [hnone]

end

theorem scanSegment_rowIsValid (hasUpdates : Bool) {s : ValiditySegment} (hle : remaining ≤ initial)
    (hphase : s.start = 0 ∨ remaining = initial)
    (hvalid : ∀ row, initial - remaining ≤ row → row < initial → result.rowIsValid row = true)
    (hh : Harmless s.data s.start (min remaining s.count) result (initial - remaining))
    (hrow : row < initial) :
    (scanSegment hasUpdates initial remaining s result).rowIsValid row =
      if initial - remaining ≤ row ∧ row < initial - remaining + min remaining s.count then
        s.data.rowIsValid (s.start + (row - (initial - remaining)))
      else result.rowIsValid row := by
  have hexact := (exact_iff_harmless (by omega) fun i hi => hvalid _ (by omega)
      (by omega)).mpr hh row
  unfold scanSegment
  dsimp only
  split
  case isFalse hzero => rw [if_neg (by omega)]
  case isTrue =>
    split
    case isFalse => exact hexact
    case isTrue hall =>
      have heq : min remaining s.count = initial := by simpa using (Bool.and_eq_true_iff.mp hall).2
      obtain rfl : remaining = initial := by omega
      rw [Nat.sub_self] at hexact ⊢
      unfold validityScan
      split
      case isFalse => exact hexact
      case isTrue halign =>
        rw [if_pos (by omega),Nat.sub_zero,Mask.rowIsValid,if_pos (by omega),Mask.rowIsValid]
        rw [show (s.start + row) / 64 = s.start / 64 + row / 64 by omega,
          show (s.start + row) % 64 = row % 64 by omega]

theorem getElem?_rows (s : ValiditySegment) (i : Nat) :
    s.rows[i]? = if i < s.count then some (s.data.rowIsValid (s.start + i)) else none := by
  unfold ValiditySegment.rows
  split <;> simp [*]

/-- Scanning one segment after another yields the concatenation of their rows. -/
theorem scanVector_rowIsValid {segments : List ValiditySegment} (hle : remaining ≤ initial)
    (hfirst : remaining = initial ∨ ∀ s ∈ segments, s.start = 0)
    (htail : ∀ s ∈ segments.tail, s.start = 0)
    (hvalid : ∀ row, initial - remaining ≤ row → row < initial → result.rowIsValid row = true)
    (hh : HarmlessScans hasUpdates initial remaining segments result) (hrow : row < initial) :
    (scanVector hasUpdates initial remaining segments result).rowIsValid row =
      if row < initial - remaining then result.rowIsValid row
      else ((segments.flatMap ValiditySegment.rows)[row - (initial - remaining)]?).getD true := by
  induction segments generalizing remaining result with
  | nil =>
    rw [scanVector]
    split
    · rfl
    · simpa using hvalid row (by omega) hrow
  | cons s segments ih =>
    obtain ⟨hs,hrest⟩ := hh
    have hphase : s.start = 0 ∨ remaining = initial := by
      rcases hfirst with hall | hzero
      · exact .inr hall
      · exact .inl (hzero s (List.mem_cons_self ..))
    have hstep (row : Nat) (hrow : row < initial) :=
      scanSegment_rowIsValid hasUpdates hle hphase hvalid hs hrow
    rw [scanVector,ih (by omega) (.inr htail)
      (fun t ht => htail t (List.mem_of_mem_tail ht)) ?_ hrest]
    · rw [hstep row hrow,List.flatMap_cons,List.getElem?_append,getElem?_rows,
        ValiditySegment.rows,List.length_map,List.length_range]
      by_cases hbefore : row < initial - remaining
      · rw [if_pos (by omega),if_neg (by omega),if_pos hbefore]
      rw [if_neg hbefore]
      by_cases hin : row < initial - remaining + min remaining s.count
      · rw [if_pos (by omega),if_pos (by omega),if_pos (by omega),if_pos (by omega)]
        rfl
      · rw [if_neg (by omega),if_neg (by omega)]
        congr 2
        omega
    · intro row hge hlt
      rw [hstep row hlt,if_neg (by omega)]
      exact hvalid row (by omega) hlt

/-- A partial scan is exact if and only if it is harmless, and vectors of harmless scans hold the
rows of the segments one after the other. -/
theorem validity_scans_exact (hphase : start = 0 ∨ resultOffset = 0)
    (hvalid : ∀ i < scanCount, result.rowIsValid (resultOffset + i) = true) :
    (Exact input start scanCount result resultOffset ↔
      Harmless input start scanCount result resultOffset) ∧
    ∀ hasUpdates count segments result, (∀ s ∈ segments.tail, s.start = 0) →
      (∀ row < count, Mask.rowIsValid result row = true) →
      HarmlessScans hasUpdates count count segments result → ∀ row < count,
        (scanVector hasUpdates count count segments result).rowIsValid row =
          ((segments.flatMap ValiditySegment.rows)[row]?).getD true := by
  refine ⟨exact_iff_harmless hphase hvalid,?_⟩
  intro hasUpdates count segments result htail hvalid hh row hrow
  rw [scanVector_rowIsValid (Nat.le_refl _) (Or.inl rfl) htail (fun row _ => hvalid row) hh hrow]
  simp

/-- Two segments of three rows that start at a word. -/
theorem validity_scans_exact_pair :
    Exact (fun _ => 5) 0 3 (fun _ => -1) 3 ∧
      (scanVector false 6 6 [⟨fun _ => 5, 0, 3⟩, ⟨fun _ => 3, 0, 3⟩] fun _ => -1).rowIsValid 5 =
        false := by
  obtain ⟨hexact,hscan⟩ := @validity_scans_exact (fun _ => 5) (fun _ => -1) 0 3 3 (by decide)
    (by decide)
  refine ⟨hexact.mpr fun row h => ?_,?_⟩
  · dsimp [Leaks] at h
    omega
  · have hh : HarmlessScans false 6 6 [⟨fun _ => 5,0,3⟩,⟨fun _ => 3,0,3⟩] fun _ => -1 := by
      refine ⟨fun row h => ?_,fun row h => ?_,trivial⟩ <;> dsimp [Leaks] at h <;> omega
    rw [hscan false 6 _ _ (by simp) (by decide) hh 5 (by decide)]
    rfl

/-- Scanning rows 1 to 10 of a segment in which row 11 is NULL clears the bit behind the range. -/
theorem validityScanPartial_clears_behind :
    let input : Mask := fun _ => ~~~(1 <<< 11)
    Mask.rowIsValid (fun _ => -1) 10 = true ∧
      (validityScanPartial input 1 10 (fun _ => -1) 0).rowIsValid 10 = false := by
  decide

end PredTrans.Compression.Validity
