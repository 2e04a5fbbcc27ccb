import PredTrans.Library.Bytes

/-! `Checksum` xors a multiplicative hash of every 64-bit word; the up to seven bytes that remain go
through the byte hash. -/

namespace PredTrans.Storage

open Library

/-- The first `n` words of a buffer. -/
def loadWords : Nat → List UInt8 → List UInt64
  | 0, _ => []
  | n + 1, bs => loadWord bs :: loadWords n (bs.drop 8)

/-- The last bytes of the byte hash, `len & 7` of them. -/
def hashTail (m : UInt64) (h : UInt64) (bs : List UInt8) : UInt64 :=
  if bs = [] then h else (h ^^^ UInt64.ofNat (loadBytes bs)) * m

def hashBytes (bs : List UInt8) : UInt64 :=
  let m : UInt64 := 0xc6a4a7935bd1e995
  let seed : UInt64 := 0xe17a1465
  let blocks := loadWords (bs.length / 8) bs
  let h := blocks.foldl (fun h k =>
    let k := k * m
    let k := k ^^^ (k >>> 47)
    let k := k * m
    (h ^^^ k) * m) (seed ^^^ (UInt64.ofNat bs.length * m))
  let h := hashTail m h (bs.drop (bs.length / 8 * 8))
  let h := h ^^^ (h >>> 47)
  let h := h * m
  h ^^^ (h >>> 47)

def checksumWord (x : UInt64) : UInt64 := x * 0xbf58476d1ce4e5b9

def checksum (bs : List UInt8) : UInt64 :=
  let n := bs.length / 8
  let result := (loadWords n bs).foldl (fun r x => r ^^^ checksumWord x) 5381
  if bs.length - n * 8 > 0 then result ^^^ hashBytes (bs.drop (n * 8)) else result

theorem loadWords_replicate_zero (n k : Nat) :
    loadWords n (List.replicate k 0) = List.replicate n 0 := by
  induction n generalizing k with
  | zero => rfl
  | succ n ih =>
    simp [loadWords,loadWord_replicate_zero,ih,List.replicate_succ]

/-- A buffer of zeros keeps the initial value. -/
theorem checksum_replicate_zero (n : Nat) : checksum (List.replicate (8 * n) 0) = 5381 := by
  have hfold : ∀ k (r : UInt64),
      (List.replicate k (0 : UInt64)).foldl (fun r x => r ^^^ checksumWord x) r = r := by
    intro k
    induction k with
    | zero => simp
    | succ k ih =>
      have hzero : checksumWord 0 = 0 := by decide
      simp [List.replicate_succ,hzero,ih]
  have hdiv : 8 * n / 8 = n := by omega
  simp [checksum,loadWords_replicate_zero,hfold,mul_comm n 8]

end PredTrans.Storage
