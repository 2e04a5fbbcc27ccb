import PredTrans.Library.Bytes

/-!
# Bytes at addresses
-/

namespace PredTrans.Library
open List

/-- The byte at every address. -/
abbrev Memory := Nat → UInt8

namespace Memory

variable {m m' : Memory} {a b n k : Nat} {bytes : List UInt8}

def read (m : Memory) (a n : Nat) : List UInt8 := (List.range n).map (fun i => m (a + i))

def write (m : Memory) (a : Nat) (bytes : List UInt8) : Memory := fun i =>
  if a ≤ i then (bytes[i - a]?).getD (m i) else m i

/-- Moves bytes; the source may overlap the destination. -/
def move (m : Memory) (dst src n : Nat) : Memory := m.write dst (m.read src n)

def load (m : Memory) (n a : Nat) : Nat := loadBytes (m.read a n)

def store (m : Memory) (n a x : Nat) : Memory := m.write a (storeBytes n x)

@[simp] theorem length_read (m : Memory) (a n : Nat) : (m.read a n).length = n := by
  simp [read]

theorem getElem?_read (m : Memory) (a n : Nat) (hi : i < n) :
    (m.read a n)[i]? = some (m (a + i)) := by
  simp [read,hi]

theorem read_congr (h : ∀ i < n, m (a + i) = m' (b + i)) : m.read a n = m'.read b n := by
  apply map_congr_left
  intro i hi
  exact h i (mem_range.mp hi)

theorem read_ext (h : m.read a n = m'.read b n) (hi : i < n) : m (a + i) = m' (b + i) := by
  have hi' := congrArg (fun l : List UInt8 => l[i]?) h
  simpa [getElem?_read _ _ _ hi] using hi'

/-- A part of two equal stretches. -/
theorem read_part (h : m.read a n = m'.read b n) (hi : i + k ≤ n) :
    m.read (a + i) k = m'.read (b + i) k := by
  apply read_congr
  intro j hj
  rw [add_assoc,add_assoc]
  exact read_ext h (by omega)

theorem read_append (m : Memory) (a n k : Nat) :
    m.read a (n + k) = m.read a n ++ m.read (a + n) k := by
  simp [read,range_add,Function.comp_def,add_assoc]

theorem write_apply_of_lt (hi : i < bytes.length) : m.write a bytes (a + i) = bytes[i] := by
  simp [write,hi]

theorem write_apply_of_notMem (hi : i < a ∨ a + bytes.length ≤ i) : m.write a bytes i = m i := by
  unfold write
  split
  · have hnone : bytes[i - a]? = none := by
      apply List.getElem?_eq_none_iff.mpr
      omega
    simp [hnone]
  · rfl

theorem read_write_same (m : Memory) (a : Nat) (bytes : List UInt8) :
    (m.write a bytes).read a bytes.length = bytes := by
  apply ext_getElem?
  intro i
  by_cases hi : i < bytes.length
  · simp [getElem?_read _ _ _ hi,write_apply_of_lt hi]
  · simp [read,hi]

theorem read_write_of_disjoint (h : b + n ≤ a ∨ a + bytes.length ≤ b) :
    (m.write a bytes).read b n = m.read b n := by
  apply read_congr
  intro i hi
  apply write_apply_of_notMem
  omega

theorem load_store_same (m : Memory) (n a x : Nat) : (m.store n a x).load n a = x % 256 ^ n := by
  have h := read_write_same m a (storeBytes n x)
  rw [length_storeBytes] at h
  rw [load,store,h,loadBytes_storeBytes]

theorem read_store_of_disjoint (h : b + n ≤ a ∨ a + k ≤ b) :
    (m.store k a x).read b n = m.read b n := by
  apply read_write_of_disjoint
  rw [length_storeBytes]
  exact h

theorem load_store_of_disjoint (h : b + n ≤ a ∨ a + k ≤ b) :
    (m.store k a x).load n b = m.load n b := by
  rw [load,read_store_of_disjoint h,load]

theorem load_write_of_disjoint (h : b + n ≤ a ∨ a + bytes.length ≤ b) :
    (m.write a bytes).load n b = m.load n b := by
  rw [load,read_write_of_disjoint h,load]

theorem read_move_same (m : Memory) (dst src n : Nat) :
    (m.move dst src n).read dst n = m.read src n := by
  have h := read_write_same m dst (m.read src n)
  rw [length_read] at h
  exact h

theorem read_move_of_disjoint (h : b + n ≤ dst ∨ dst + k ≤ b) :
    (m.move dst src k).read b n = m.read b n := by
  apply read_write_of_disjoint
  rw [length_read]
  exact h

theorem load_add (m : Memory) (n k a : Nat) :
    m.load (n + k) a = m.load n a + 256 ^ n * m.load k (a + n) := by
  rw [load,read_append,loadBytes_append,length_read,load,load]

theorem load_lt (m : Memory) (n a : Nat) : m.load n a < 256 ^ n := by
  have h := loadBytes_lt (m.read a n)
  rwa [length_read] at h

/-- Two pieces that were stored one behind the other. -/
theorem read_append_inj (h : m.read a (xs ++ ys).length = xs ++ ys) :
    m.read a xs.length = xs ∧ m.read (a + xs.length) ys.length = ys := by
  rw [length_append,read_append] at h
  exact append_inj h (by simp)

/-- Loading one of several numbers that lie one behind the other. -/
theorem load_of_read_flatMap {values : List Nat}
    (h : m.read a (values.length * n) = values.flatMap (storeBytes n)) (hi : i < values.length) :
    m.load n (a + i * n) = values[i] % 256 ^ n := by
  induction values generalizing a i with
  | nil => simp at hi
  | cons x values ih =>
    have hsum : (values.length + 1) * n = n + values.length * n := by ring
    rw [length_cons,hsum,read_append,flatMap_cons] at h
    obtain ⟨hfirst,hrest⟩ := append_inj h (by simp)
    cases i with
    | zero => simp [load,hfirst,loadBytes_storeBytes]
    | succ i =>
      have haddr : a + (i + 1) * n = a + n + i * n := by ring
      rw [haddr]
      exact ih hrest (Nat.lt_of_succ_lt_succ hi)

end Memory

end PredTrans.Library
