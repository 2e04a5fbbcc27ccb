import PredTrans.Library.Memory

/-! Index buffers start with a bitmask of free segments. Only the bytes up to the highest allocated
segment are written to disk and copied back. -/

namespace PredTrans.Index
open Library

/-- The usable size of a block, `Storage::BLOCK_SIZE`. -/
def blockSize : Nat := 262136

structure FixedSizeAllocator where
  segmentSize : Nat
  bitmaskCount : Nat
  availableSegmentsPerBuffer : Nat
deriving DecidableEq, Repr

namespace FixedSizeAllocator

def bitmaskOffset (a : FixedSizeAllocator) : Nat := a.bitmaskCount * 8

/-- Adds rounds of at most 64 segments, each round behind its own word of the bitmask. -/
def layoutLoop : Nat → Nat → FixedSizeAllocator → FixedSizeAllocator
  | 0, _, a => a
  | fuel + 1, byteCount, a =>
    if byteCount < blockSize then
      let more := a.bitmaskCount = 0 ∨ (a.bitmaskCount * 64) % a.availableSegmentsPerBuffer = 0
      let bitmaskCount := if more then a.bitmaskCount + 1 else a.bitmaskCount
      let byteCount := if more then byteCount + 8 else byteCount
      let remainingSegments := min ((blockSize - byteCount) / a.segmentSize) 64
      let a := { a with bitmaskCount }
      if remainingSegments = 0 then a
      else layoutLoop fuel (byteCount + remainingSegments * a.segmentSize)
        { a with availableSegmentsPerBuffer := a.availableSegmentsPerBuffer + remainingSegments }
    else a

/-- The constructor. Every round that goes on takes at least one byte of the block. -/
def create (segmentSize : Nat) : Except String FixedSizeAllocator :=
  if segmentSize > blockSize - 8 then
    .error ("The maximum segment size of fixed-size allocators is " ++ toString (blockSize - 8))
  else .ok (layoutLoop blockSize 0 ⟨segmentSize, 0, 0⟩)

end FixedSizeAllocator

structure FixedSizeBuffer where
  memory : Memory
  dirty : Bool
  allocationSize : Nat

namespace FixedSizeBuffer

/-- The words of `BASE`, each with its `SHIFT`. -/
def levels : List (BitVec 64 × Nat) :=
  [(0x00000000FFFFFFFF, 32), (0x0000FFFF, 16), (0x00FF, 8), (0x0F, 4), (0x3, 2), (0x1, 1)]

def searchLevel (s : BitVec 64 × Nat) (level : BitVec 64 × Nat) : BitVec 64 × Nat :=
  if s.1 &&& ~~~level.1 ≠ 0 then (s.1 >>> level.2, s.2 + level.2) else (s.1 &&& level.1, s.2)

/-- The position of the leftmost set bit. -/
def firstValidBit (entryInv : BitVec 64) : Nat := (levels.foldl searchLevel (entryInv, 0)).2

def data (b : FixedSizeBuffer) (i : Nat) : BitVec 64 := BitVec.ofNat 64 (b.memory.load 8 (8 * i))

/-- The entry as `GetMaxOffset` looks at it: the bits after the last segment are set. -/
def maskedEntry (b : FixedSizeBuffer) (bitmaskCount bitsInLastEntry i : Nat) : BitVec 64 :=
  if i + 1 = bitmaskCount then b.data i ||| BitVec.allOnes 64 <<< bitsInLastEntry else b.data i

def maxOffsetLoop (entry : Nat → BitVec 64) : Nat → Nat → Except String Nat
  | 0, _ => .error "tried to serialize empty buffer"
  | i + 1, maxOffset =>
    if entry i = BitVec.allOnes 64 then maxOffsetLoop entry i (maxOffset - 64)
    else .ok (maxOffset - (64 - firstValidBit (~~~entry i)) + 1)

def entryCount (availableSegments : Nat) : Nat :=
  if availableSegments % 64 ≠ 0 then availableSegments / 64 + 1 else availableSegments / 64

def getMaxOffset (b : FixedSizeBuffer) (availableSegments : Nat) : Except String Nat :=
  let bitmaskCount := entryCount availableSegments
  maxOffsetLoop (b.maskedEntry bitmaskCount (availableSegments % 64)) bitmaskCount
    (bitmaskCount * 64)

def setAllocationSize (b : FixedSizeBuffer) (a : FixedSizeAllocator) :
    Except String FixedSizeBuffer :=
  if b.dirty then do
    let maxOffset ← b.getMaxOffset a.availableSegmentsPerBuffer
    .ok { b with allocationSize := maxOffset * a.segmentSize + a.bitmaskOffset }
  else .ok b

/-- Writing a buffer in memory to its place in a partial block. -/
def serialize (b : FixedSizeBuffer) (a : FixedSizeAllocator) (block : Memory) (offset : Nat) :
    Except String (FixedSizeBuffer × Memory) := do
  let b ← b.setAllocationSize a
  .ok ({ b with dirty := false }, block.write offset (b.memory.read 0 b.allocationSize))

/-- The fresh memory a buffer is copied into when it is pinned again. -/
def pin (b : FixedSizeBuffer) (block : Memory) (offset : Nat) (fresh : Memory) : Memory :=
  fresh.write 0 (block.read offset b.allocationSize)

/-- A cleared bit marks an allocated segment. -/
def Allocated (b : FixedSizeBuffer) (offset : Nat) : Prop :=
  (b.data (offset / 64)).getLsbD (offset % 64) = false

structure IsMaxOffset (b : FixedSizeBuffer) (availableSegments m : Nat) : Prop where
  lt : m < availableSegments
  allocated : b.Allocated m
  free : ∀ n, m < n → n < availableSegments → ¬ b.Allocated n

/-- The pinned copy holds the bitmask and every allocated segment of the buffer. -/
def Kept (b : FixedSizeBuffer) (a : FixedSizeAllocator) (copy : Memory) : Prop :=
  copy.read 0 a.bitmaskOffset = b.memory.read 0 a.bitmaskOffset ∧
  ∀ o < a.availableSegmentsPerBuffer, b.Allocated o →
    copy.read (a.bitmaskOffset + o * a.segmentSize) a.segmentSize =
      b.memory.read (a.bitmaskOffset + o * a.segmentSize) a.segmentSize

variable {b : FixedSizeBuffer} {a : FixedSizeAllocator} {available m : Nat}
    {entry : Nat → BitVec 64}

/-- The search is down to `width` bits, the highest set one of which is bit `p` of the entry. -/
def Searching (p width : Nat) (s : BitVec 64 × Nat) : Prop :=
  ∃ q < width, s.2 + q = p ∧ s.1.getLsbD q = true ∧ ∀ k, q < k → s.1.getLsbD k = false

theorem Searching.level (level : BitVec 64 × Nat) (h : Searching p (level.2 + level.2) s)
    (hbase : ∀ k < 64, level.1.getLsbD k = decide (k < level.2)) :
    Searching p level.2 (searchLevel s level) := by
  obtain ⟨q,hq,hp,hset,hclear⟩ := h
  have hq64 : q < 64 := BitVec.lt_of_getLsbD hset
  unfold searchLevel
  by_cases hle : level.2 ≤ q
  · have hne : s.1 &&& ~~~level.1 ≠ 0 := by
      intro h0
      have hbit := congrArg (BitVec.getLsbD · q) h0
      rw [BitVec.getLsbD_and,BitVec.getLsbD_not,hset,hbase q hq64] at hbit
      simp [hq64,not_lt.mpr hle] at hbit
    rw [if_pos hne]
    refine ⟨q - level.2,by omega,by omega,?_,?_⟩
    · simpa [show level.2 + (q - level.2) = q by omega] using hset
    · intro k hk
      simpa using hclear (level.2 + k) (by omega)
  · have h0 : s.1 &&& ~~~level.1 = 0 := by
      apply BitVec.eq_of_getLsbD_eq
      intro k hk
      by_cases hkq : q < k
      · simp [hclear k hkq]
      · simp [hbase k hk,show k < level.2 by omega]
    rw [if_neg (by simpa using h0)]
    refine ⟨q,by omega,hp,?_,?_⟩
    · simp [hset,hbase q hq64,not_le.mp hle]
    · intro k hk
      simp [hclear k hk]

theorem firstValidBit_eq (hset : x.getLsbD p = true) (hclear : ∀ k, p < k → x.getLsbD k = false) :
    firstValidBit x = p := by
  have h64 : Searching p 64 (x,0) := ⟨p,BitVec.lt_of_getLsbD hset,zero_add p,hset,hclear⟩
  have h32 := Searching.level (0x00000000FFFFFFFF,32) h64 (by decide)
  have h16 := Searching.level (0x0000FFFF,16) h32 (by decide)
  have h8 := Searching.level (0x00FF,8) h16 (by decide)
  have h4 := Searching.level (0x0F,4) h8 (by decide)
  have h2 := Searching.level (0x3,2) h4 (by decide)
  obtain ⟨q,hq,hp,_⟩ := Searching.level (0x1,1) h2 (by decide)
  obtain rfl : q = 0 := by
    omega
  exact hp

theorem maxOffsetLoop_eq (hm : m < i * 64) (hset : (entry (m / 64)).getLsbD (m % 64) = false)
    (hgt : ∀ n, m < n → n < i * 64 → (entry (n / 64)).getLsbD (n % 64) = true) :
    maxOffsetLoop entry i (i * 64) = .ok (m + 1) := by
  induction i with
  | zero => omega
  | succ i ih =>
    unfold maxOffsetLoop
    have hbits : ∀ k < 64, m < i * 64 + k → (entry i).getLsbD k = true := by
      intro k hk hlt
      have hbit := hgt (i * 64 + k) hlt (by omega)
      rwa [show (i * 64 + k) / 64 = i by omega,show (i * 64 + k) % 64 = k by omega] at hbit
    by_cases hi : m / 64 = i
    · have hne : entry i ≠ BitVec.allOnes 64 := by
        intro h
        rw [hi,h,BitVec.getLsbD_allOnes] at hset
        exact of_decide_eq_false hset (by omega)
      have hfirst : firstValidBit (~~~entry i) = m % 64 := by
        apply firstValidBit_eq
        · rw [BitVec.getLsbD_not,← hi,hset]
          simp [show m % 64 < 64 by omega]
        · intro k hk
          by_cases hk64 : k < 64
          · simp [hbits k hk64 (by omega)]
          · exact BitVec.getLsbD_of_ge _ _ (by omega)
      rw [if_neg hne,hfirst]
      congr 1
      omega
    · have hones : entry i = BitVec.allOnes 64 := by
        apply BitVec.eq_of_getLsbD_eq
        intro k hk
        rw [hbits k hk (by omega),BitVec.getLsbD_allOnes,decide_eq_true hk]
      rw [if_pos hones,show (i + 1) * 64 - 64 = i * 64 by omega]
      exact ih (by omega) (fun n hn hlt => hgt n hn (by omega))

theorem foldl_searchLevel_le (ls : List (BitVec 64 × Nat)) (s : BitVec 64 × Nat) :
    (ls.foldl searchLevel s).2 ≤ s.2 + (ls.map Prod.snd).sum := by
  induction ls generalizing s with
  | nil => simp
  | cons l ls ih =>
    have hstep : (searchLevel s l).2 ≤ s.2 + l.2 := by
      unfold searchLevel
      split <;> simp
    have := ih (searchLevel s l)
    simp
    omega

theorem maxOffsetLoop_le (h : maxOffsetLoop entry i (i * 64) = .ok r) : r ≤ i * 64 := by
  induction i with
  | zero => cases h
  | succ i ih =>
    unfold maxOffsetLoop at h
    split at h
    · rw [show (i + 1) * 64 - 64 = i * 64 by omega] at h
      have := ih h
      omega
    · have hfirst : firstValidBit (~~~entry i) ≤ 0 + 63 := foldl_searchLevel_le levels _
      cases h
      omega

theorem getLsbD_maskedEntry (b : FixedSizeBuffer) (c bits n : Nat) :
    (b.maskedEntry c bits (n / 64)).getLsbD (n % 64) =
      ((b.data (n / 64)).getLsbD (n % 64) || decide (n / 64 + 1 = c ∧ bits ≤ n % 64)) := by
  have hn : n % 64 < 64 := by omega
  unfold maskedEntry
  by_cases hc : n / 64 + 1 = c
  · rw [if_pos hc,BitVec.getLsbD_or,BitVec.getLsbD_shiftLeft,BitVec.getLsbD_allOnes]
    congr 1
    simp only [hn,hc,decide_true,Bool.true_and,true_and,← decide_not,← Bool.decide_and]
    congr 1
    rw [eq_iff_iff]
    omega
  · simp [hc]

/-- Where the number of segments fills the last word, the mask of the unused tail covers that whole
word, and the search starts below it. -/
theorem getMaxOffset_eq_iff (h : b.IsMaxOffset available m) :
    b.getMaxOffset available = .ok (m + 1) ↔ available % 64 ≠ 0 ∨ m + 64 < available := by
  have hlt := h.lt
  unfold getMaxOffset entryCount
  constructor
  · intro heq
    by_contra hcond
    have hmod : available % 64 = 0 := by omega
    obtain ⟨c,hc⟩ : ∃ c, available / 64 = c + 1 := ⟨available / 64 - 1,by omega⟩
    have hones : b.maskedEntry (c + 1) 0 c = BitVec.allOnes 64 := by
      rw [maskedEntry,if_pos rfl,BitVec.shiftLeft_zero,BitVec.or_allOnes]
    simp only [hmod,ne_eq,not_true_eq_false,if_false,hc] at heq
    unfold maxOffsetLoop at heq
    rw [if_pos hones,show (c + 1) * 64 - 64 = c * 64 by omega] at heq
    have := maxOffsetLoop_le heq
    omega
  · intro hcond
    split
    all_goals
      apply maxOffsetLoop_eq (by omega)
      · rw [getLsbD_maskedEntry,h.allocated]
        simp
        omega
      intro n hn hlast
      rw [getLsbD_maskedEntry]
      by_cases hin : n < available
      · have hfree := h.free n hn hin
        unfold Allocated at hfree
        simp [hfree]
      · simp
        omega

/-- A copy of enough bytes of the buffer keeps what lies in them. -/
theorem kept_of_read (h : copy.read 0 n = b.memory.read 0 n)
    (hm : b.IsMaxOffset a.availableSegmentsPerBuffer m)
    (hn : n = (m + 1) * a.segmentSize + a.bitmaskOffset) : b.Kept a copy := by
  refine ⟨by simpa using Memory.read_part (i := 0) h (by omega),?_⟩
  intro o ho halloc
  have hle : o ≤ m := not_lt.mp fun hlt => hm.free o hlt ho halloc
  have hmul : (o + 1) * a.segmentSize ≤ (m + 1) * a.segmentSize :=
    Nat.mul_le_mul_right _ (by omega)
  rw [add_mul,one_mul] at hmul
  simpa using Memory.read_part (i := a.bitmaskOffset + o * a.segmentSize) h (by omega)

/-- Writing a dirty buffer and pinning it again keeps the bitmask and all allocated segments, with
the size taken from the largest allocated offset, unless that offset lies in a full last word. -/
theorem serialize_keeps_iff (hd : b.dirty = true)
    (hm : b.IsMaxOffset a.availableSegmentsPerBuffer m) :
    (b.getMaxOffset a.availableSegmentsPerBuffer = .ok (m + 1) ∧
      ∀ block offset, ∃ b' block', b.serialize a block offset = .ok (b', block') ∧
        ∀ fresh, b.Kept a (b'.pin block' offset fresh)) ↔
    a.availableSegmentsPerBuffer % 64 ≠ 0 ∨ m + 64 < a.availableSegmentsPerBuffer := by
  rw [← getMaxOffset_eq_iff hm]
  constructor
  · exact And.left
  intro hmax
  refine ⟨hmax,?_⟩
  intro block offset
  have hset : b.setAllocationSize a =
      .ok { b with allocationSize := (m + 1) * a.segmentSize + a.bitmaskOffset } := by
    rw [setAllocationSize,if_pos hd,hmax]
    rfl
  refine ⟨⟨b.memory,false,_⟩,_,by rw [serialize,hset]; rfl,?_⟩
  intro fresh
  refine kept_of_read (n := (m + 1) * a.segmentSize + a.bitmaskOffset) ?_ hm rfl
  have hdisk (disk : Memory) (start n : Nat) :
      (disk.write start (b.memory.read 0 n)).read start n = b.memory.read 0 n := by
    simpa using Memory.read_write_same disk start (b.memory.read 0 n)
  simp only [pin,hdisk]

/-- Segments for nodes with 256 children, of which the first and the hundredth are allocated. -/
theorem serialize_keeps_two : FixedSizeAllocator.create 2064 = .ok ⟨2064, 2, 126⟩ ∧
    let b : FixedSizeBuffer :=
      ⟨fun i => if i = 0 then 0xFE else if i = 12 then 0xF7 else 0xFF, true, 0⟩
    b.Allocated 0 ∧ b.Allocated 99 ∧ b.getMaxOffset 126 = .ok 100 ∧
      ∀ block offset, ∃ b' block', b.serialize ⟨2064, 2, 126⟩ block offset = .ok (b', block') ∧
        ∀ fresh, b.Kept ⟨2064, 2, 126⟩ (b'.pin block' offset fresh) := by
  refine ⟨by decide +kernel,?_⟩
  intro b
  have hfree : ∀ n < 126, 99 < n → (b.data (n / 64)).getLsbD (n % 64) = true := by decide +kernel
  have hfirst : (b.data 0).getLsbD 0 = false := by decide +kernel
  have hlast : (b.data 1).getLsbD 35 = false := by decide +kernel
  have hm : b.IsMaxOffset 126 99 :=
    ⟨by decide,hlast,fun n hn hlt => by simp [Allocated,hfree n hlt hn]⟩
  obtain ⟨hmax,hkeep⟩ := (serialize_keeps_iff (a := ⟨2064,2,126⟩) rfl hm).mpr (by decide)
  exact ⟨hfirst,hlast,hmax,hkeep⟩

/-- Segments of 16 bytes fill 254 words of the bitmask. With only the first and the last of them
allocated, the size is that of the first alone. -/
theorem getMaxOffset_skips_last : FixedSizeAllocator.create 16 = .ok ⟨16, 255, 16256⟩ ∧
    let b : FixedSizeBuffer :=
      ⟨fun i => if i = 0 then 0xFE else if i = 2031 then 0x7F else 0xFF, true, 0⟩
    b.IsMaxOffset 16256 16255 ∧ b.getMaxOffset 16256 = .ok 1 := by
  refine ⟨by decide +kernel,⟨by decide,by rfl,fun n hn hlt => by omega⟩,by decide +kernel⟩

end FixedSizeBuffer

end PredTrans.Index
