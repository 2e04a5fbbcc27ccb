import Mathlib

/-!
# Numbers as bytes

A number is stored in a given number of bytes, the lowest byte first, and loaded from
them again.
-/

namespace PredTrans.Library
open List

/-- The low `n` bytes of a number, the lowest one first. -/
def storeBytes : Nat → Nat → List UInt8
  | 0, _ => []
  | n + 1, x => UInt8.ofNat x :: storeBytes n (x / 256)

/-- The number that bytes hold, the lowest one first. -/
def loadBytes : List UInt8 → Nat
  | [] => 0
  | b :: bs => b.toNat + 256 * loadBytes bs

@[simp] theorem length_storeBytes (n x : Nat) : (storeBytes n x).length = n := by
  induction n generalizing x with
  | zero => rfl
  | succ n ih => simp [storeBytes,ih]

theorem loadBytes_storeBytes (n x : Nat) : loadBytes (storeBytes n x) = x % 256 ^ n := by
  induction n generalizing x with
  | zero => simp [storeBytes,loadBytes,Nat.mod_one]
  | succ n ih =>
    simp only [storeBytes,loadBytes,ih,UInt8.toNat_ofNat',pow_succ']
    exact (Nat.mod_mul).symm

theorem loadBytes_lt (bs : List UInt8) : loadBytes bs < 256 ^ bs.length := by
  induction bs with
  | nil => simp [loadBytes]
  | cons b bs ih =>
    have hb := b.toNat_lt
    simp only [loadBytes,length_cons,pow_succ']
    omega

theorem loadBytes_append (bs cs : List UInt8) :
    loadBytes (bs ++ cs) = loadBytes bs + 256 ^ bs.length * loadBytes cs := by
  induction bs with
  | nil => simp [loadBytes]
  | cons b bs ih =>
    simp only [cons_append,loadBytes,ih,length_cons,pow_succ']
    ring

theorem loadBytes_replicate_zero (n : Nat) : loadBytes (List.replicate n 0) = 0 := by
  induction n with
  | zero => rfl
  | succ n ih => simp [replicate_succ,loadBytes,ih]

def storeWord (x : UInt64) : List UInt8 := storeBytes 8 x.toNat

def loadWord (bs : List UInt8) : UInt64 := UInt64.ofNat (loadBytes (bs.take 8))

@[simp] theorem length_storeWord (x : UInt64) : (storeWord x).length = 8 := length_storeBytes 8 _

theorem drop_storeWord (x : UInt64) (k : Nat) (rest : List UInt8) :
    (storeWord x ++ rest).drop (k + 8) = rest.drop k := by
  rw [List.drop_append]
  simp

@[simp] theorem loadWord_storeWord (x : UInt64) (bs : List UInt8) :
    loadWord (storeWord x ++ bs) = x := by
  have htake : (storeWord x ++ bs).take 8 = storeWord x := by
    simp
  have hx := x.toNat_lt
  apply UInt64.toNat_inj.mp
  rw [loadWord,htake,storeWord,loadBytes_storeBytes,UInt64.toNat_ofNat']
  omega

theorem loadWord_replicate_zero (n : Nat) : loadWord (List.replicate n 0) = 0 := by
  simp [loadWord,take_replicate,loadBytes_replicate_zero]

end PredTrans.Library
