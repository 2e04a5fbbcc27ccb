import Mathlib

/-! Bit strings: the number of padding bits in the first byte, then the bits from the highest bit of
each byte on, the padding first. -/

namespace PredTrans.Types.Bit
open List

abbrev Bytes := List (BitVec 8)

def getBitPadding (bitString : Bytes) : Nat := (bitString.getD 0 0).toNat

def getBitInternal (bitString : Bytes) (n : Nat) : Bool :=
  (bitString.getD (n / 8 + 1) 0).getMsbD (n % 8)

def getBit (bitString : Bytes) (n : Nat) : Bool :=
  getBitInternal bitString (n + getBitPadding bitString)

def bitLength (bits : Bytes) : Nat := (bits.length - 1) * 8 - getBitPadding bits

def getFirstByte (str : Bytes) : BitVec 8 :=
  str.getD 1 0 &&& ((1#8 <<< (8 - getBitPadding str)) - 1)

structure WellFormed (bits : Bytes) : Prop where
  padding : getBitPadding bits < 8
  size : 2 ≤ bits.length

def blobToBit (blob : Bytes) : Bytes := 0 :: blob

/-- `output` is what the allocated buffer held before. -/
def bitToBlob (output bit : Bytes) : Bytes :=
  let size := bit.length - 1
  let output := output.set 0 (getFirstByte bit)
  if size > 2 then output.take 1 ++ (bit.drop 2).take (size - 1) else output

/-- The bits of a blob are those of the bit string behind zeros. -/
def ZeroPadded (bit blob : Bytes) : Prop :=
  ∀ n < 8 * blob.length, (blob.getD (n / 8) 0).getMsbD (n % 8) =
    (decide (getBitPadding bit ≤ n) && getBit bit (n - getBitPadding bit))

theorem getMsbD_getFirstByte (hpad : getBitPadding bit < 8) (hn : n < 8) :
    (getFirstByte bit).getMsbD n = (decide (getBitPadding bit ≤ n) &&
        (bit.getD 1 0).getMsbD n) := by
  have hmask : ∀ p < 8, ∀ n < 8, ((1#8 <<< (8 - p)) - 1).getMsbD n = decide (p ≤ n) := by
    decide
  rw [getFirstByte,BitVec.getMsbD_and,hmask _ hpad n hn,Bool.and_comm]

/-- Unless the blob has two bytes, the first byte is masked and the others are copied. -/
theorem bitToBlob_eq (hlen : output.length + 1 = bit.length) (hwf : 2 ≤ bit.length)
    (hne : bit.length ≠ 3) : bitToBlob output bit = getFirstByte bit :: bit.drop 2 := by
  obtain ⟨o,output,rfl⟩ := exists_cons_of_ne_nil (ne_nil_of_length_pos (l := output) (by omega))
  simp only [bitToBlob,set_cons_zero,take_succ_cons,take_zero]
  split
  case isTrue =>
    rw [take_of_length_le (by rw [length_drop]; omega)]
    rfl
  case isFalse h =>
    obtain rfl : output = [] := by
      rw [length_cons] at hlen
      exact length_eq_zero_iff.mp (by omega)
    simp_all

/-- Two bytes: the second one is what the buffer held. -/
theorem bitToBlob_three (o x pad y z : BitVec 8) :
    bitToBlob [o,x] [pad,y,z] = [getFirstByte [pad,y,z],x] := rfl

theorem zeroPadded_copied (hwf : WellFormed bit) :
    ZeroPadded bit (getFirstByte bit :: bit.drop 2) := by
  have hpad := hwf.padding
  intro n hn
  rcases lt_or_ge n 8 with hlt | hge
  · rw [Nat.div_eq_of_lt hlt,Nat.mod_eq_of_lt hlt,getD_cons_zero,getMsbD_getFirstByte hpad hlt]
    by_cases hle : getBitPadding bit ≤ n
    · simp [hle,getBit,getBitInternal,Nat.div_eq_of_lt hlt,Nat.mod_eq_of_lt hlt]
    · simp [hle]
  · have hle : getBitPadding bit ≤ n := by omega
    obtain ⟨q,hq⟩ : ∃ q, n / 8 = q + 1 := ⟨n / 8 - 1,by omega⟩
    simp [hle,getBit,getBitInternal,hq,add_comm 2 q]

/-- Conversion to a blob leaves the second of two bytes as the buffer had it, so exactly the blobs
and the bit strings of two bytes depend on the buffer. -/
theorem bitToBlob_exact_iff (blob bit : Bytes) :
    ((∀ output : Bytes, output.length = blob.length →
      bitToBlob output (blobToBit blob) = blob) ↔ blob.length ≠ 2) ∧
    (WellFormed bit → ((∀ output : Bytes, output.length + 1 = bit.length →
      (bitToBlob output bit).length = (bitLength bit + 7) / 8 ∧
      ZeroPadded bit (bitToBlob output bit)) ↔ bit.length ≠ 3)) := by
  refine ⟨⟨fun h htwo => ?_,fun hne output hlen => ?_⟩,
    fun hwf => ⟨fun h hthree => ?_,fun hne output hlen => ?_⟩⟩
  · -- a buffer with another second byte
    obtain ⟨x,y,rfl⟩ := length_eq_two.mp htwo
    have hy := h [0,~~~y] rfl
    simp [blobToBit,bitToBlob_three] at hy
  · rcases blob with _ | ⟨x,blob⟩
    · obtain rfl := length_eq_zero_iff.mp hlen
      rfl
    rw [bitToBlob_eq (by simp [blobToBit,hlen]) (by simp [blobToBit])
      (by simpa [blobToBit] using hne)]
    simp [blobToBit,getFirstByte,getBitPadding]
    exact BitVec.and_allOnes
  · obtain ⟨pad,y,z,rfl⟩ := length_eq_three.mp hthree
    have hpad := hwf.padding
    have hbit := (h [0,~~~z] rfl).2 8 (by simp [bitToBlob_three])
    have hle : getBitPadding [pad,y,z] ≤ 8 := by omega
    simp [bitToBlob_three,getBit,getBitInternal,hle] at hbit
  · rw [bitToBlob_eq hlen hwf.size hne]
    have hpad := hwf.padding
    have hsize := hwf.size
    refine ⟨?_,zeroPadded_copied hwf⟩
    rw [length_cons,length_drop,bitLength]
    omega

/-- The caller gets the byte of the buffer. -/
theorem bitToBlob_twoBytes : bitToBlob [0,0] (blobToBit [0,1]) ≠ [0,1] := by
  decide

/-- The loops of `BitPosition` over numbered bits. The subtraction may pass zero before 2 is added.
-/
def matchBits (substring bits : Bytes) : List Nat → Nat → Nat
  | [], _ => 0
  | n :: rest, substrIdx =>
    if getBitInternal bits n = getBit substring substrIdx then
      if substrIdx + 1 = bitLength substring then n - getBitPadding bits + 2 - bitLength substring
      else matchBits substring bits rest (substrIdx + 1)
    else matchBits substring bits rest 0

/-- Bit `bit_idx` of byte `byte_idx` has the number `(byte_idx - 1) * 8 + bit_idx`. -/
def bitPosition (substring bits : Bytes) : Nat :=
  matchBits substring bits (range' (getBitPadding bits) (8 - getBitPadding bits) ++
    (range' 2 (bits.length - 2)).flatMap fun byteIdx =>
      (range 8).map fun bitIdx => (byteIdx - 1) * 8 + bitIdx) 0

def OccursAt (substring bits : Bytes) (i : Nat) : Prop :=
  i + bitLength substring ≤ bitLength bits ∧
    ∀ k < bitLength substring, getBit bits (i + k) = getBit substring k

/-- One plus the first offset, or zero for none. -/
def IsPosition (substring bits : Bytes) (position : Nat) : Prop :=
  position = 0 ∧ (∀ i, ¬ OccursAt substring bits i) ∨
    ∃ i, position = i + 1 ∧ OccursAt substring bits i ∧ ∀ j < i, ¬ OccursAt substring bits j

variable {p b : Bytes}

theorem bitPosition_eq (h : WellFormed b) :
    bitPosition p b = matchBits p b (range' (getBitPadding b) (bitLength b)) 0 := by
  have hblocks : ∀ m, ((range' 2 m).flatMap fun byteIdx =>
      (range 8).map fun bitIdx => (byteIdx - 1) * 8 + bitIdx) = range' 8 (8 * m) := by
    intro m
    induction m with
    | zero => rfl
    | succ m ih =>
      rw [range'_concat,flatMap_append,ih,flatMap_singleton,range_eq_range',map_add_range',
        show 8 * (m + 1) = 8 * m + 8 by ring,← range'_append_1]
      congr 2
      omega
  have hpad := h.padding
  have hsize := h.size
  have hlen : bitLength b = 8 - getBitPadding b + 8 * (b.length - 2) := by
    unfold bitLength
    omega
  rw [bitPosition,hblocks,hlen,← range'_append_1,Nat.add_sub_cancel' hpad.le]

theorem matchBits_succ (i n k : Nat) :
    matchBits p b (range' (getBitPadding b + i) (n + 1)) k =
      if getBit b i = getBit p k then
        if k + 1 = bitLength p then i + 2 - bitLength p
        else matchBits p b (range' (getBitPadding b + (i + 1)) n) (k + 1)
      else matchBits p b (range' (getBitPadding b + (i + 1)) n) 0 := by
  have hbit : getBitInternal b (getBitPadding b + i) = getBit b i := by rw [getBit,add_comm]
  rw [range'_succ,matchBits,hbit,Nat.add_sub_cancel_left]
  rfl

/-- The first `k` bits of the pattern are found at `s`, the next one is not. -/
structure Fails (p b : Bytes) (s k : Nat) : Prop where
  inside : k < bitLength p ∧ s + k < bitLength b
  matched : ∀ t < k, getBit b (s + t) = getBit p t
  differs : getBit b (s + k) ≠ getBit p k

/-- The offsets at which the search tries the pattern: a failed match is followed by one behind the
bit that failed. -/
inductive Tried (p b : Bytes) : Nat → Prop
  | zero : Tried p b 0
  | next : Tried p b s → Fails p b s k → Tried p b (s + k + 1)

/-- A failed match that was tried in front of `i` reaches `i`. -/
def Overlapped (p b : Bytes) (i : Nat) : Prop :=
  ∃ s k, Tried p b s ∧ Fails p b s k ∧ s < i ∧ i ≤ s + k

theorem matchBits_matched (h : ∀ t < m, getBit b (s + t) = getBit p t) (hm : m < bitLength p)
    (n : Nat) : matchBits p b (range' (getBitPadding b + s) (m + n)) 0 =
      matchBits p b (range' (getBitPadding b + (s + m)) n) m := by
  induction m generalizing n with
  | zero => simp
  | succ m ih =>
    rw [show m + 1 + n = m + (n + 1) by omega,ih (fun t ht => h t (by omega)) (by omega),
      matchBits_succ,if_pos (h m (by omega)),if_neg (by omega)]
    rfl

theorem Tried.run (hb : WellFormed b) (h : Tried p b s) : s ≤ bitLength b ∧
    bitPosition p b = matchBits p b (range' (getBitPadding b + s) (bitLength b - s)) 0 := by
  induction h with
  | zero => exact ⟨Nat.zero_le _,bitPosition_eq hb⟩
  | @next s k _ hfail ih =>
    obtain ⟨hk,hs⟩ := hfail.inside
    rw [ih.2,show bitLength b - s = k + (bitLength b - (s + k + 1) + 1) by omega,
      matchBits_matched hfail.matched hk,matchBits_succ,if_neg hfail.differs]
    exact ⟨hs,rfl⟩

/-- What is found starts where the bits that are matched start, or behind. -/
theorem matchBits_behind (hki : k ≤ i) (hk : k < bitLength p) :
    matchBits p b (range' (getBitPadding b + i) n) k = 0 ∨
      i < matchBits p b (range' (getBitPadding b + i) n) k + k := by
  induction n generalizing i k with
  | zero => exact .inl rfl
  | succ n ih =>
    rw [matchBits_succ]
    split_ifs with hbit hlast
    · omega
    · have := ih (i := i + 1) (k := k + 1) (by omega) (by omega)
      omega
    · have := ih (i := i + 1) (k := 0) (by omega) (by omega)
      omega

/-- The pattern is found at its first occurrence if no failed match reaches that: the bits that are
matched start at an offset that is tried and not behind an occurrence. -/
theorem matchBits_position (hno : ∀ j, OccursAt p b j → (∀ j' < j, ¬ OccursAt p b j') →
      ¬ Overlapped p b j) (hi : s + k + n = bitLength b) (hk : k < bitLength p)
    (htried : Tried p b s) (hmatch : ∀ t < k, getBit b (s + t) = getBit p t)
    (hstart : ∀ j < s, ¬ OccursAt p b j) :
    IsPosition p b (matchBits p b (range' (getBitPadding b + (s + k)) n) k) := by
  induction n generalizing s k with
  | zero =>
    refine .inl ⟨rfl,fun j hj => hstart j ?_ hj⟩
    have := hj.1
    omega
  | succ n ih =>
    rw [matchBits_succ]
    split_ifs with hbit hlast
    · refine .inr ⟨s,by omega,⟨by omega,fun t ht => ?_⟩,hstart⟩
      rcases Nat.lt_or_ge t k with hlt | hge
      · exact hmatch t hlt
      · rwa [show t = k by omega]
    · refine ih (k := k + 1) (by omega) (by omega) htried (fun t ht => ?_) hstart
      rcases Nat.lt_or_ge t k with hlt | hge
      · exact hmatch t hlt
      · rwa [show t = k by omega]
    · have hfail : Fails p b s k := ⟨⟨hk,by omega⟩,hmatch,hbit⟩
      refine ih (s := s + k + 1) (k := 0) (by omega) (by omega) (.next htried hfail) (by simp) ?_
      -- the first of the occurrences would be reached by this match
      intro j
      induction j using Nat.strong_induction_on with
      | _ j ihj =>
        intro hj hocc
        have hfirst : ∀ j' < j, ¬ OccursAt p b j' := fun j' hlt => ihj j' hlt (by omega)
        rcases lt_trichotomy j s with hlt | rfl | hgt
        · exact hstart j hlt hocc
        · exact hbit (hocc.2 k hk)
        · exact hno j hocc hfirst ⟨s,k,htried,hfail,hgt,by omega⟩

/-- Search is right exactly if no failed match reaches the first occurrence: a bit of a failed match
is never tried again as the first one. -/
theorem bitPosition_exact_iff (p b : Bytes) (hp : WellFormed p) (hb : WellFormed b) :
    IsPosition p b (bitPosition p b) ↔
      ∀ i, OccursAt p b i → (∀ j < i, ¬ OccursAt p b j) → ¬ Overlapped p b i := by
  have hpad := hp.padding
  have hsize := hp.size
  have hpos : 0 < bitLength p := by
    unfold bitLength
    omega
  constructor
  · rintro h i hocc hfirst ⟨s,k,htried,hfail,hlt,hle⟩
    have hbehind := matchBits_behind (p := p) (b := b) (n := bitLength b - (s + k + 1))
      (Nat.zero_le (s + k + 1)) hpos
    rw [← ((htried.next hfail).run hb).2] at hbehind
    rcases h with ⟨-,hnone⟩ | ⟨j,hj,hoccj,hminj⟩
    · exact hnone i hocc
    · have := mt (hminj i) (not_not_intro hocc)
      omega
  · intro hno
    rw [bitPosition_eq hb]
    exact matchBits_position hno (s := 0) (k := 0) (by omega) hpos .zero (by simp) (by simp)

/-- The pattern 01 in 101: the match at the first bit fails in front of the occurrence. -/
theorem bitPosition_behind : IsPosition [6,0xFD] [5,0xFD] (bitPosition [6,0xFD] [5,0xFD]) := by
  refine (bitPosition_exact_iff _ _ ⟨by decide,by decide⟩ ⟨by decide,by decide⟩).mpr ?_
  rintro i ⟨hle,-⟩ - ⟨s,k,-,hfail,hlt,hreach⟩
  rw [show bitLength [6,0xFD] = 2 from rfl,show bitLength [5,0xFD] = 3 from rfl] at hle
  obtain rfl : s = 0 := by omega
  have hbit := hfail.matched 0 (by omega)
  revert hbit
  decide

/-- The pattern 01 is not found in 001. -/
theorem bitPosition_skips : ¬ IsPosition [6,0xFD] [5,0xF9] (bitPosition [6,0xFD] [5,0xF9]) := by
  rintro (⟨-,hnone⟩ | ⟨i,hi,-⟩)
  · exact hnone 1 ⟨by decide,by decide⟩
  · have hzero : bitPosition [6,0xFD] [5,0xF9] = 0 := by decide
    omega

end PredTrans.Types.Bit
