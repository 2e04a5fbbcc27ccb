import Mathlib

/-! A blocked Bloom filter: a hash picks one 64-bit block and a rotated mask of bits in it. An AVX2
register is four 64-bit lanes, and a pointer to hashes is a function of the index. -/

namespace PredTrans.Bloom
open BitVec

abbrev Lanes := Fin 4 → BitVec 64

/-- The mask table, as the 64-bit words that can be loaded from it by byte offset, and `ROTL64` of
Arrow. -/
structure MaskTable where
  words : Nat → BitVec 64
  rotl64 : BitVec 64 → Nat → BitVec 64
  rotl64_eq : ∀ x n, n < 64 → rotl64 x n = x.rotateLeft n

/-- The blocks behind `num_blocks_` are memory that no filter reads. -/
structure BlockedBloomFilter where
  logNumBlocks : Nat
  numBlocks : Nat
  blocks : Nat → BitVec 64
  size : numBlocks = 2 ^ logNumBlocks

/-- A selection vector with the number of its entries in use. -/
structure Selection where
  sel : Nat → BitVec 32
  resultCount : Nat

/-- `set_index(result_count, value)`; the entry counts only if `result_count` grows. -/
def Selection.put (s : Selection) (value : BitVec 32) (hit : Bool) : Selection :=
  ⟨Function.update s.sel s.resultCount value, s.resultCount + hit.toNat⟩

def kLogNumMasks : Nat := 10
def kNumMasks : BitVec 64 := 1024
def kFullMask : BitVec 64 := (1 <<< 57) - 1
def kPrefetchIterations : Nat := 16
def kPrefetchLimitBytes : Nat := 256 * 1024

namespace BlockedBloomFilter

variable (masks : MaskTable) (f : BlockedBloomFilter)

/-- `BloomFilterMasks::mask`. -/
def maskAt (bitOffset : Nat) : BitVec 64 :=
  (masks.words (bitOffset / 8) >>> (bitOffset % 8)) &&& kFullMask

def mask (hash : BitVec 64) : BitVec 64 :=
  masks.rotl64 (maskAt masks (hash &&& (kNumMasks - 1)).toNat)
    ((hash >>> kLogNumMasks) &&& 63).toNat

def blockId (hash : BitVec 64) : Nat :=
  ((hash >>> (kLogNumMasks + 6)) &&& BitVec.ofNat 64 (f.numBlocks - 1)).toNat

def find (hash : BitVec 64) : Bool :=
  (f.blocks (f.blockId hash) &&& mask masks hash) == mask masks hash

def usePrefetch : Bool := decide (f.numBlocks * 8 > kPrefetchLimitBytes)

/-- One lane of `mask_avx2`; a shift by 64 gives zero. -/
def maskAvx2 (hash : BitVec 64) : BitVec 64 :=
  let maskId := hash &&& (kNumMasks - 1)
  let result := ((masks.words (maskId >>> 3).toNat) >>> (maskId &&& 7)) &&& kFullMask
  let rotation := (hash >>> kLogNumMasks) &&& 63
  (result <<< rotation) ||| (result >>> (64 - rotation))

/-- `_mm256_movemask_epi8`: the highest bit of each byte. -/
def movemask (v : Lanes) : BitVec 32 :=
  ofFnLE fun i => (v ⟨i / 8, by omega⟩).getLsbD (8 * (i % 8) + 7)

/-- `_mm256_cmpeq_epi64` of the masked blocks with the masks; `block_id_avx2` is `block_id` lane by
lane. -/
def hitLanes (hashes : Lanes) : Lanes := fun k =>
  if f.blocks (f.blockId (hashes k)) &&& maskAvx2 masks (hashes k) = maskAvx2 masks (hashes k)
  then BitVec.allOnes 64 else 0

/-- The byte of results for eight hashes. -/
def resultByte (hashA hashB : Lanes) : BitVec 8 :=
  let resultBytes := (movemask (f.hitLanes masks hashA)).setWidth 64 |||
    ((movemask (f.hitLanes masks hashB)).signExtend 64 <<< 32)
  (movemask fun _ => resultBytes).setWidth 8

/-- `FindImp_avx2`, with the number of rows it has processed. -/
def findImpAvx2 (numRows : Nat) (hashes : Nat → BitVec 64) (resultBitVector : Nat → BitVec 8) :
    (Nat → BitVec 8) × Nat :=
  ((List.range (numRows / 8)).foldl (fun buf i => Function.update buf i
      (f.resultByte masks (fun k => hashes (8 * i + k)) (fun k => hashes (8 * i + 4 + k))))
    resultBitVector, numRows - numRows % 8)

def trailingzeroes (bits : BitVec 64) : Nat :=
  ((List.range 64).find? fun i => bits.getLsbD i).getD 64

/-- `basic_decoder`; each round clears one of the 64 bits. -/
def basicDecoder (idx : BitVec 32) : Nat → BitVec 64 → Selection → Selection
  | 0, _, s => s
  | fuel + 1, bits, s =>
    if bits = 0 then s
    else basicDecoder idx fuel (bits &&& (bits - 1))
      (s.put (idx + BitVec.ofNat 32 (trailingzeroes bits)) true)

/-- The rows from `start` up to `stop`, reported with an offset. -/
def findRows (hashes : Nat → BitVec 64) (start stop offset : Nat) (s : Selection) : Selection :=
  (List.range' start (stop - start)).foldl
    (fun s i => s.put (BitVec.ofNat 32 (i + offset)) (f.find masks (hashes i))) s

/-- `FindImp`. The subtraction stops at zero as `num_processed` does. -/
def findImp (numRows numPreprocessed : Nat) (hashes : Nat → BitVec 64) (enablePrefetch : Bool)
    (s : Selection) : Selection :=
  if enablePrefetch && f.usePrefetch then
    f.findRows masks hashes (numRows - kPrefetchIterations) numRows numPreprocessed
      (f.findRows masks hashes 0 (numRows - kPrefetchIterations) 0 s)
  else f.findRows masks hashes 0 numRows numPreprocessed s

/-- The little-endian word at index `i` of a byte array. -/
def wordAt (bytes : Nat → BitVec 8) (i : Nat) : BitVec 64 :=
  ofFnLE fun k => (bytes (8 * i + k / 8)).getLsbD (k % 8)

/-- `Find` on a vector of hashes. -/
def findAll (avx2 : Bool) (numRows : Nat) (hashes : Nat → BitVec 64) (enablePrefetch : Bool)
    (s : Selection) : Selection :=
  if !(enablePrefetch && f.usePrefetch) && avx2 then
    let (resultBitVector, numProcessed) := f.findImpAvx2 masks numRows hashes fun _ => 0
    let s := (List.range (numRows / 64 + 1)).foldl
      (fun s i => basicDecoder (BitVec.ofNat 32 (64 * i)) 64 (wordAt resultBitVector i) s) s
    let numProcessed := numProcessed - numProcessed % 8
    f.findImp masks (numRows - numProcessed) numProcessed (fun i => hashes (numProcessed + i))
      enablePrefetch s
  else f.findImp masks numRows 0 hashes enablePrefetch s

/-- The bits set in the filter, counted in batches of 65536. `countSetBits` is Arrow's function on
words: the first bit and the number of bits. -/
def numBitsSet (countSetBits : (Nat → BitVec 64) → Nat → Nat → Nat) : Nat :=
  ((List.range ((f.numBlocks * 64 + 65535) / 65536)).map fun b =>
    countSetBits f.blocks (65536 * b) (min (f.numBlocks * 64 - 65536 * b) 65536)).sum

/-- One round of the inner loops of `SingleFold`: a slice is or-ed into the first one. -/
def orSlice (numSliceBlocks : Nat) (blocks : Nat → BitVec 64) (slice : Nat) : Nat → BitVec 64 :=
  (List.range numSliceBlocks).foldl (fun blocks i => Function.update blocks i
    (blocks i ||| blocks (slice * numSliceBlocks + i))) blocks

def singleFold (numFolds : Nat) : BlockedBloomFilter where
  logNumBlocks := f.logNumBlocks - numFolds
  numBlocks := 1 <<< (f.logNumBlocks - numFolds)
  blocks := (List.range' 1 (2 ^ numFolds - 1)).foldl (orSlice (f.numBlocks >>> numFolds)) f.blocks
  size := Nat.one_shiftLeft _

def logNumBlocksMin : Nat := 4

/-- The loop that decides how many times to fold at once. -/
def countFolds (bitsSet : Nat) : Nat → Nat → Nat
  | 0, numFolds => numFolds
  | fuel + 1, numFolds =>
    if f.logNumBlocks - numFolds > logNumBlocksMin ∧
      4 * bitsSet < (f.numBlocks * 64) >>> numFolds
    then countFolds bitsSet fuel (numFolds + 1) else numFolds

/-- `Fold`; out of fuel it has not returned. -/
def fold (countSetBits : (Nat → BitVec 64) → Nat → Nat → Nat) :
    Nat → BlockedBloomFilter → Option BlockedBloomFilter
  | 0, _ => none
  | fuel + 1, f =>
    let bitsSet := f.numBitsSet countSetBits
    if f.logNumBlocks ≤ logNumBlocksMin then some f
    else if 4 * bitsSet ≥ f.numBlocks * 64 then some f
    else fold countSetBits fuel (f.singleFold (f.countFolds bitsSet f.logNumBlocks 1))

end BlockedBloomFilter

end PredTrans.Bloom
