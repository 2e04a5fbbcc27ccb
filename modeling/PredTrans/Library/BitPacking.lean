import PredTrans.Library.Memory

/-! A packer stores a group of 32 values in `4 * w` bytes, and unpacking gives back the low `w` bits
of each. The packed groups lie one behind the other. -/

namespace PredTrans.Library
open List Nat

/-- A way to pack 32 values of `bits` bits into `w` bits each, and to unpack them. -/
structure Packer (bits : Nat) where
  pack : Nat → List Nat → List UInt8
  unpack : Nat → List UInt8 → List Nat
  length_pack : ∀ {w values}, w ≤ bits → values.length = 32 → (pack w values).length = 4 * w
  length_unpack : ∀ w bytes, (unpack w bytes).length = 32
  unpack_pack : ∀ {w values}, w ≤ bits → values.length = 32 →
    unpack w (pack w values) = values.map (· % 2 ^ w)

/-- The number that holds values of `w` bits, the first one lowest. -/
def packNumber (w : Nat) (values : List Nat) : Nat := ofDigits (2 ^ w) (values.map (· % 2 ^ w))

theorem packNumber_lt (w : Nat) (values : List Nat) :
    packNumber w values < (2 ^ w) ^ values.length := by
  induction values with
  | nil => simp [packNumber]
  | cons v values ih =>
    have hv : v % 2 ^ w < 2 ^ w := Nat.mod_lt _ (Nat.two_pow_pos w)
    simp only [packNumber,map_cons,Nat.ofDigits_cons,length_cons,pow_succ'] at ih ⊢
    calc v % 2 ^ w + 2 ^ w * ofDigits (2 ^ w) (values.map (· % 2 ^ w))
        < 2 ^ w + 2 ^ w * Nat.ofDigits (2 ^ w) (values.map (· % 2 ^ w)) := Nat.add_lt_add_right hv _
      _ = 2 ^ w * (ofDigits (2 ^ w) (values.map (· % 2 ^ w)) + 1) := by ring
      _ ≤ 2 ^ w * (2 ^ w) ^ values.length := mul_le_mul_left _ ih

theorem packNumber_digit (w : Nat) (values : List Nat) (hi : i < values.length) :
    packNumber w values / (2 ^ w) ^ i % 2 ^ w = values[i] % 2 ^ w := by
  induction values generalizing i with
  | nil => simp at hi
  | cons v values ih =>
    have hpos : 0 < 2 ^ w := Nat.two_pow_pos w
    cases i with
    | zero => simp [packNumber,ofDigits_cons]
    | succ i =>
      have hdiv : packNumber w (v :: values) / (2 ^ w) ^ (i + 1) =
          packNumber w values / (2 ^ w) ^ i := by
        rw [pow_succ',← Nat.div_div_eq_div_mul]
        congr 1
        simp [packNumber,ofDigits_cons,add_mul_div_left _ _ hpos,
          div_eq_of_lt (mod_lt v hpos)]
      rw [hdiv]
      exact ih (lt_of_succ_lt_succ hi)

/-- The plain packer: the values follow one another in a stream of bits. -/
def bitStream (bits : Nat) : Packer bits where
  pack w values := storeBytes (4 * w) (packNumber w values)
  unpack w bytes := (List.range 32).map (fun i => loadBytes bytes / (2 ^ w) ^ i % 2 ^ w)
  length_pack := by simp
  length_unpack := by simp
  unpack_pack := by
    intro w values _ hlen
    have hfits : packNumber w values < 256 ^ (4 * w) := by
      have hpow : (2 ^ w) ^ values.length = 256 ^ (4 * w) := by
        rw [hlen, show (256 : Nat) = 2 ^ 8 from rfl, ← pow_mul, ← pow_mul]
        congr 1
        omega
      exact hpow ▸ packNumber_lt w values
    rw [loadBytes_storeBytes, mod_eq_of_lt hfits]
    apply ext_getElem
    · simp [hlen]
    · intro i hi _
      simp only [length_map, length_range] at hi
      simpa using packNumber_digit w values (hlen ▸ hi)

namespace Packer

variable {bits : Nat} (P : Packer bits) {w : Nat} {m : Memory} {a : Nat}

/-- Packed groups, one behind the other. -/
def packGroups (w : Nat) (groups : List (List Nat)) : List UInt8 := groups.flatMap (P.pack w)

/-- Unpacks `n` groups from an address on. -/
def unpackGroups (m : Memory) (a w : Nat) : Nat → List Nat
  | 0 => []
  | n + 1 => P.unpack w (m.read a (4 * w)) ++ unpackGroups m (a + 4 * w) w n

theorem length_packGroups (hw : w ≤ bits) (hg : ∀ g ∈ groups, g.length = 32) :
    (P.packGroups w groups).length = groups.length * (4 * w) := by
  induction groups with
  | nil => simp [packGroups]
  | cons g groups ih =>
    have ih' := ih (forall_mem_cons.mp hg).2
    have hlen := P.length_pack hw (hg g mem_cons_self)
    rw [packGroups] at ih' ⊢
    rw [flatMap_cons,length_append,ih',hlen,length_cons]
    ring

theorem unpackGroups_packGroups (hw : w ≤ bits) (hg : ∀ g ∈ groups, g.length = 32)
    (hm : m.read a (groups.length * (4 * w)) = P.packGroups w groups) :
    P.unpackGroups m a w groups.length = groups.flatten.map (· % 2 ^ w) := by
  induction groups generalizing a with
  | nil => rfl
  | cons g groups ih =>
    have hlen := P.length_pack hw (hg g mem_cons_self)
    have hsum : (groups.length + 1) * (4 * w) = 4 * w + groups.length * (4 * w) := by
      ring
    rw [length_cons,hsum,Memory.read_append,packGroups,flatMap_cons] at hm
    obtain ⟨hfirst,hrest⟩ := append_inj hm (by simp [hlen])
    rw [length_cons,unpackGroups,hfirst,P.unpack_pack hw (hg g mem_cons_self),
      ih (forall_mem_cons.mp hg).2 hrest]
    simp

theorem unpackGroups_drop (hw : w ≤ bits) (hg : ∀ g ∈ groups, g.length = 32)
    (hm : m.read a (groups.length * (4 * w)) = P.packGroups w groups) (hk : k + n ≤ groups.length) :
    P.unpackGroups m (a + k * (4 * w)) w n = (((groups.drop k).take n).flatten).map
        (· % 2 ^ w) := by
  have hsplit : P.packGroups w groups = P.packGroups w (groups.take k) ++
      (P.packGroups w ((groups.drop k).take n) ++ P.packGroups w ((groups.drop k).drop n)) := by
    rw [packGroups,packGroups,packGroups,packGroups,← flatMap_append,← flatMap_append,
      take_append_drop,take_append_drop]
  have htake : (groups.take k).length = k := by simp; omega
  have hmid : ((groups.drop k).take n).length = n := by simp; omega
  have hlen1 : (P.packGroups w (groups.take k)).length = k * (4 * w) := by
    rw [P.length_packGroups hw (fun g h => hg g (mem_of_mem_take h)),htake]
  have hlen2 : (P.packGroups w ((groups.drop k).take n)).length = n * (4 * w) := by
    rw [P.length_packGroups hw (fun g h => hg g (mem_of_mem_drop (mem_of_mem_take h))),hmid]
  have hsum : groups.length * (4 * w) =
      k * (4 * w) + (n * (4 * w) + (groups.length - k - n) * (4 * w)) := by
    rw [← add_mul,← add_mul]
    congr 1
    omega
  rw [hsum,Memory.read_append,Memory.read_append,hsplit] at hm
  obtain ⟨-,hrest⟩ := append_inj hm (by simp [hlen1])
  obtain ⟨hread,-⟩ := append_inj hrest (by simp [hlen2])
  have hread' : m.read (a + k * (4 * w)) (((groups.drop k).take n).length * (4 * w)) =
      P.packGroups w ((groups.drop k).take n) := hmid.symm ▸ hread
  have h := P.unpackGroups_packGroups hw
    (fun g h => hg g (mem_of_mem_drop (mem_of_mem_take h))) hread'
  rw [hmid] at h
  exact h

end Packer

end PredTrans.Library
