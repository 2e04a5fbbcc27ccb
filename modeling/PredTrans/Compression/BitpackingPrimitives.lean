import PredTrans.Library.BitPacking

/-! Values are packed in groups of 32. The last group is filled up with what the temporary buffer of
`PackBuffer` happens to hold. -/

namespace PredTrans.Compression.BitpackingPrimitives

open Library List

def bitpackingAlgorithmGroupSize : Nat := 32

def roundUpToAlgorithmGroupSize (n : Nat) : Nat :=
  let remainder := n % bitpackingAlgorithmGroupSize
  if remainder = 0 then n else n + bitpackingAlgorithmGroupSize - remainder

def getRequiredSize (count width : Nat) : Nat := roundUpToAlgorithmGroupSize count * width / 8

/-- How often a value can be shifted right until it is zero. -/
def shifts (value : Nat) : Nat := if value = 0 then 0 else shifts (value / 2) + 1
termination_by value
decreasing_by omega

/-- Widths close to that of the type are not worth packing. -/
def getEffectiveWidth (typeSize width : Nat) : Nat :=
  if width + typeSize > typeSize * 8 then typeSize * 8 else width

/-- `MinimumBitWidth` of an unsigned type of `typeSize` bytes. -/
def minimumBitWidth (typeSize value : Nat) : Nat :=
  if value = 0 then 0 else getEffectiveWidth typeSize (shifts value)

/-- The groups that `PackBuffer` packs. -/
def packedGroups (tmp values : List Nat) : List (List Nat) :=
  (List.range (values.length / 32)).map (fun g => (values.drop (32 * g)).take 32) ++
    if values.length % 32 = 0 then []
    else [values.drop (32 * (values.length / 32)) ++ tmp.drop (values.length % 32)]

def packBuffer {bits : Nat} (P : Packer bits) (tmp values : List Nat) (width : Nat) : List UInt8 :=
  P.packGroups width (packedGroups tmp values)

def unpackBuffer {bits : Nat} (P : Packer bits) (m : Memory) (src count width : Nat) : List Nat :=
  P.unpackGroups m src width (roundUpToAlgorithmGroupSize count / 32)

theorem lt_two_pow_shifts (value : Nat) : value < 2 ^ shifts value := by
  induction value using shifts.induct with
  | case1 => simp
  | case2 value hne ih =>
    rw [shifts,if_neg hne,pow_succ]
    omega

theorem shifts_le (h : value < 2 ^ k) : shifts value ≤ k := by
  induction value using shifts.induct generalizing k with
  | case1 => simp [shifts]
  | case2 value hne ih =>
    cases k with
    | zero =>
      omega
    | succ k =>
      rw [shifts,if_neg hne]
      apply Nat.succ_le_succ
      apply ih
      omega

theorem lt_two_pow_minimumBitWidth (h : value < 2 ^ (typeSize * 8)) :
    value < 2 ^ minimumBitWidth typeSize value := by
  unfold minimumBitWidth
  split
  · rename_i h0
    simp [h0]
  · unfold getEffectiveWidth
    split
    · exact h
    · exact lt_two_pow_shifts value

theorem minimumBitWidth_le (h : value < 2 ^ (typeSize * 8)) :
    minimumBitWidth typeSize value ≤ typeSize * 8 := by
  unfold minimumBitWidth
  split
  · exact Nat.zero_le _
  · unfold getEffectiveWidth
    split
    · exact le_rfl
    · exact shifts_le h

theorem roundUp_eq (n : Nat) : roundUpToAlgorithmGroupSize n = 32 * ((n + 31) / 32) := by
  change (if n % 32 = 0 then n else n + 32 - n % 32) = 32 * ((n + 31) / 32)
  split <;> omega

theorem getRequiredSize_eq (count width : Nat) :
    getRequiredSize count width = (count + 31) / 32 * (4 * width) := by
  rw [getRequiredSize,roundUp_eq]
  have h : 32 * ((count + 31) / 32) * width = (count + 31) / 32 * (4 * width) * 8 := by ring
  rw [h,Nat.mul_div_cancel _ (by decide)]

section Groups

variable {tmp values : List Nat}

theorem flatten_chunks (values : List Nat) (k : Nat) :
    ((List.range k).map (fun g => (values.drop (32 * g)).take 32)).flatten =
        values.take (32 * k) := by
  induction k with
  | zero => simp
  | succ k ih =>
    rw [range_succ,map_append,flatten_append,ih,Nat.mul_succ,take_add]
    simp

/-- Packing keeps the values in order and only adds to their end. -/
theorem flatten_packedGroups (tmp values : List Nat) :
    ∃ rest, (packedGroups tmp values).flatten = values ++ rest := by
  unfold packedGroups
  rw [flatten_append,flatten_chunks]
  split
  · rename_i h0
    rw [take_of_length_le (by omega)]
    simp
  · refine ⟨tmp.drop (values.length % 32),?_⟩
    rw [flatten_singleton,← append_assoc,take_append_drop]

theorem length_packedGroups (tmp values : List Nat) :
    (packedGroups tmp values).length = (values.length + 31) / 32 := by
  unfold packedGroups
  split
  · simp
    omega
  · simp
    omega

theorem length_of_mem_packedGroups (htmp : tmp.length = 32) (hg : g ∈ packedGroups tmp values) :
    g.length = 32 := by
  rcases mem_append.mp hg with hg | hg
  · obtain ⟨k,hk,rfl⟩ := mem_map.mp hg
    have := mem_range.mp hk
    simp
    omega
  · split at hg
    · simp at hg
    · rw [mem_singleton.mp hg]
      simp
      omega

theorem flatten_drop_take {groups : List (List Nat)} (hg : ∀ g ∈ groups, g.length = 32)
    (k n : Nat) :
    ((groups.drop k).take n).flatten = (groups.flatten.drop (32 * k)).take (32 * n) := by
  have hdrop : ∀ (gs : List (List Nat)) (k : Nat), (∀ g ∈ gs, g.length = 32) →
      (gs.drop k).flatten = gs.flatten.drop (32 * k) := by
    intro gs k
    induction gs generalizing k with
    | nil => simp
    | cons g gs ih =>
      intro hall
      cases k with
      | zero => simp
      | succ k =>
        rw [drop_succ_cons,ih k (forall_mem_cons.mp hall).2,flatten_cons,
          Nat.mul_succ,add_comm,← drop_drop,drop_left' (hall g mem_cons_self)]
  have htake : ∀ (gs : List (List Nat)) (n : Nat), (∀ g ∈ gs, g.length = 32) →
      (gs.take n).flatten = gs.flatten.take (32 * n) := by
    intro gs n
    induction gs generalizing n with
    | nil => simp
    | cons g gs ih =>
      intro hall
      cases n with
      | zero => simp
      | succ n =>
        rw [take_succ_cons,flatten_cons,ih n (forall_mem_cons.mp hall).2,
          flatten_cons,Nat.mul_succ,add_comm,← hall g mem_cons_self,
          take_length_add_append]
  rw [htake _ _ (fun g h => hg g (mem_of_mem_drop h)),hdrop _ _ hg]

end Groups

section Buffers

variable {bits : Nat} (P : Packer bits) {tmp values : List Nat} {width : Nat} {m : Memory} {a : Nat}

theorem length_packBuffer (htmp : tmp.length = 32) (hw : width ≤ bits) :
    (packBuffer P tmp values width).length = getRequiredSize values.length width := by
  rw [packBuffer,P.length_packGroups hw (fun g hg => length_of_mem_packedGroups htmp hg),
    length_packedGroups,getRequiredSize_eq]

theorem getElem?_unpackBuffer (htmp : tmp.length = 32) (hw : width ≤ bits)
    (hm : m.read a (getRequiredSize values.length width) = packBuffer P tmp values width)
    {start count j v : Nat} (hstart : start % 32 = 0)
    (hend : start + count ≤ roundUpToAlgorithmGroupSize values.length) (hj : j < count)
    (hv : values[start + j]? = some v) :
    (unpackBuffer P m (a + start * width / 8) count width)[j]? = some (v % 2 ^ width) := by
  obtain ⟨hlt,-⟩ := List.getElem?_eq_some_iff.mp hv
  obtain ⟨rest,hrest⟩ := flatten_packedGroups tmp values
  have hlen := length_packedGroups tmp values
  have hg : ∀ g ∈ packedGroups tmp values, g.length = 32 :=
    fun g hg => length_of_mem_packedGroups htmp hg
  have haddr : a + start * width / 8 = a + start / 32 * (4 * width) := by
    have hmul : start * width = start / 32 * (4 * width) * 8 := by
      have hs : start = 32 * (start / 32) := by omega
      conv_lhs => rw [hs]
      ring
    rw [hmul,Nat.mul_div_cancel _ (by decide)]
  rw [getRequiredSize_eq,← hlen] at hm
  rw [roundUp_eq] at hend
  have hgroups : start / 32 + roundUpToAlgorithmGroupSize count / 32 ≤
      (packedGroups tmp values).length := by
    rw [roundUp_eq,hlen]
    omega
  rw [unpackBuffer,haddr,P.unpackGroups_drop hw hg hm hgroups,flatten_drop_take hg,hrest]
  have hdiv : 32 * (start / 32) = start := by omega
  have hj' : j < 32 * (roundUpToAlgorithmGroupSize count / 32) := by
    rw [roundUp_eq]
    omega
  rw [hdiv,getElem?_map,getElem?_take_of_lt hj',getElem?_drop,
    getElem?_append_left hlt,hv]
  rfl

end Buffers

end PredTrans.Compression.BitpackingPrimitives
