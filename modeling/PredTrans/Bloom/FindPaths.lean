import PredTrans.Bloom.BlockedBloomFilter

/-! The vectorised, the prefetching and the scalar probe select the same rows. -/

namespace PredTrans.Bloom
open List Function Nat

/-- The entries in use. -/
def Selection.selected (s : Selection) : List (BitVec 32) := (range s.resultCount).map s.sel

theorem Selection.selected_put (s : Selection) (value : BitVec 32) (hit : Bool) :
    (s.put value hit).selected = s.selected ++ if hit then [value] else [] := by
  have hkeep : (range s.resultCount).map (update s.sel s.resultCount value) =
      s.selected := by
    apply map_congr_left
    intro i hi
    exact update_of_ne (mem_range.mp hi).ne _ _
  cases hit
  · simpa [selected,put] using hkeep
  · simp [selected,put,range_succ] at hkeep ⊢
    exact hkeep

namespace BlockedBloomFilter

variable {masks : MaskTable} {f : BlockedBloomFilter} {bits : BitVec 64} {s : Selection}
  {hashes : Nat → BitVec 64}

theorem selected_findRows (start stop offset : Nat) :
    (f.findRows masks hashes start stop offset s).selected =
      s.selected ++ ((range' start (stop - start)).filter fun i => f.find masks (hashes i)).map
        fun i => BitVec.ofNat 32 (i + offset) := by
  unfold findRows
  generalize range' start (stop - start) = rows
  induction rows generalizing s with
  | nil => simp
  | cons i rows ih =>
    rw [foldl_cons,ih,Selection.selected_put,append_assoc,filter_cons]
    split <;> rfl

/-- Subtracting one from a word turns the lowest set bit off and the bits below it on. -/
theorem getLsbD_clear (hset : bits.getLsbD t = true) (hlow : ∀ i < t, bits.getLsbD i = false)
    (i : Nat) : (bits &&& (bits - 1)).getLsbD i = (bits.getLsbD i && decide (i ≠ t)) := by
  have hpos := Nat.two_pow_pos t
  have hmod : bits.toNat % 2 ^ t = 0 := by
    apply eq_of_testBit_eq
    intro i
    by_cases hi : i < t
    · have := hlow i hi
      rw [BitVec.getLsbD] at this
      simp [this]
    · simp [hi]
  have hodd : bits.toNat / 2 ^ t % 2 = 1 := by
    have := hset
    rw [BitVec.getLsbD,testBit_eq_decide_div_mod_eq] at this
    exact of_decide_eq_true this
  obtain ⟨q,hq⟩ : ∃ q, bits.toNat = 2 ^ t * (2 * q + 1) + 0 := by
    have hdiv := div_add_mod bits.toNat (2 ^ t)
    refine ⟨bits.toNat / 2 ^ t / 2,?_⟩
    rw [show 2 * (bits.toNat / 2 ^ t / 2) + 1 = bits.toNat / 2 ^ t by omega]
    omega
  have hsub : (bits - 1).toNat = 2 ^ t * (2 * q) + (2 ^ t - 1) := by
    have hle : (1 : BitVec 64) ≤ bits := by
      rw [BitVec.le_def,hq]
      change 1 ≤ _
      rw [mul_add]
      omega
    rw [BitVec.toNat_sub_of_le hle,hq]
    change _ - 1 = _
    rw [mul_add]
    omega
  rw [BitVec.getLsbD_and,BitVec.getLsbD,BitVec.getLsbD,hsub,hq,
    testBit_two_pow_mul_add _ hpos,testBit_two_pow_mul_add _ (by omega)]
  rcases lt_trichotomy i t with hi | rfl | hi
  · simp [hi]
  · simp
  · obtain ⟨k,rfl⟩ : ∃ k, i = t + (k + 1) := ⟨i - t - 1,by omega⟩
    simp [testBit_succ,show (2 * q + 1) / 2 = q by omega]

/-- The numbers of the set bits, in ascending order. -/
def setBits (bits : BitVec 64) : List Nat := (range 64).filter bits.getLsbD

theorem setBits_eq_cons (h : bits ≠ 0) :
    setBits bits = trailingzeroes bits :: setBits (bits &&& (bits - 1)) := by
  obtain ⟨i,hi⟩ : ∃ i, bits.getLsbD i = true := by
    by_contra hnone
    apply h
    apply BitVec.eq_of_getLsbD_eq
    intro i _
    simpa using fun hi => hnone ⟨i,hi⟩
  have hsome : ((range 64).find? fun i => bits.getLsbD i).isSome := by
    rw [find?_isSome]
    exact ⟨i,mem_range.mpr (BitVec.lt_of_getLsbD hi),hi⟩
  obtain ⟨t,ht⟩ := Option.isSome_iff_exists.mp hsome
  obtain ⟨hset,below,above,hrange,hbelow⟩ := find?_eq_some_iff_append.mp ht
  have hsorted : (below ++ t :: above).Pairwise (· < ·) := hrange ▸ pairwise_lt_range
  rw [pairwise_append,pairwise_cons] at hsorted
  obtain ⟨-,⟨habove,-⟩,hlt⟩ := hsorted
  have hlow : ∀ i < t, bits.getLsbD i = false := by
    intro i hi
    have hmem : i ∈ below ++ t :: above := by
      rw [← hrange,mem_range]
      have := BitVec.lt_of_getLsbD hset
      omega
    rcases mem_append.mp hmem with hmem | hmem
    · simpa using hbelow i hmem
    · rcases mem_cons.mp hmem with rfl | hmem
      · omega
      · have := habove i hmem
        omega
  have hclear := getLsbD_clear hset hlow
  have hnone : below.filter bits.getLsbD = [] := by
    rw [filter_eq_nil_iff]
    intro i hi
    simpa using hbelow i hi
  have hnone' : below.filter (bits &&& (bits - 1)).getLsbD = [] := by
    rw [filter_eq_nil_iff]
    simp_all
  have hsame : above.filter (bits &&& (bits - 1)).getLsbD = above.filter bits.getLsbD := by
    apply filter_congr
    intro i hi
    rw [hclear]
    simp [(habove i hi).ne']
  rw [setBits,setBits,trailingzeroes,ht,hrange,filter_append,filter_append,hnone,
    hnone',filter_cons_of_pos hset,filter_cons_of_neg (by rw [hclear]; simp),hsame]
  rfl

theorem selected_basicDecoder (idx : BitVec 32) (hfuel : (setBits bits).length ≤ fuel) :
    (basicDecoder idx fuel bits s).selected =
      s.selected ++ (setBits bits).map fun k => idx + BitVec.ofNat 32 k := by
  induction fuel generalizing bits s with
  | zero => simp [basicDecoder,eq_nil_of_length_eq_zero (le_zero.mp hfuel)]
  | succ fuel ih =>
    unfold basicDecoder
    split
    · rename_i hzero
      simp [hzero,setBits]
    · rename_i hne
      rw [setBits_eq_cons hne] at hfuel ⊢
      rw [ih (le_of_succ_le_succ hfuel),Selection.selected_put]
      simp

theorem maskAvx2_eq (hash : BitVec 64) : maskAvx2 masks hash = mask masks hash := by
  have hrot : ((hash >>> kLogNumMasks) &&& 63).toNat < 64 := by
    exact lt_of_le_of_lt and_le_right (by decide)
  have hbyte : ((hash &&& (kNumMasks - 1)) >>> 3).toNat = (hash &&& (kNumMasks - 1)).toNat / 8 := by
    rw [BitVec.toNat_ushiftRight,shiftRight_eq_div_pow]
  have hbit : ((hash &&& (kNumMasks - 1)) &&& 7).toNat = (hash &&& (kNumMasks - 1)).toNat % 8 := by
    exact and_two_pow_sub_one_eq_mod _ 3
  simp only [maskAvx2,mask,maskAt,masks.rotl64_eq _ _ hrot,BitVec.rotateLeft_def,
    BitVec.shiftLeft_eq',BitVec.ushiftRight_eq',hbyte,hbit]
  generalize masks.words _ >>> (_ : Nat) &&& kFullMask = word
  generalize (hash >>> kLogNumMasks) &&& 63 = rotation at *
  have hle : rotation ≤ 64 := by
    exact hrot.le
  rw [BitVec.toNat_sub_of_le hle,mod_eq_of_lt hrot]
  rfl

theorem getLsbD_movemask (v : Lanes) (hi : i < 32) :
    (movemask v).getLsbD i = (v ⟨i / 8, by omega⟩).getLsbD (8 * (i % 8) + 7) := by
  simp [movemask,hi]

theorem getLsbD_movemask_lane (v : Lanes) (k : Fin 4) :
    (movemask v).getLsbD (8 * k + 7) = (v k).getLsbD 63 := by
  rw [getLsbD_movemask v (by omega),show 8 * ((8 * k.val + 7) % 8) + 7 = 63 by omega]
  congr
  omega

theorem getLsbD_hitLanes (lanes : Lanes) (k : Fin 4) :
    (f.hitLanes masks lanes k).getLsbD 63 = f.find masks (lanes k) := by
  unfold hitLanes find
  rw [maskAvx2_eq]
  split <;> simp_all

theorem getLsbD_resultByte (masks : MaskTable) (row : Nat → BitVec 64) (hk : k < 8) :
    (f.resultByte masks (fun k => row k) fun k => row (4 + k)).getLsbD k =
        f.find masks (row k) := by
  rw [resultByte,BitVec.getLsbD_setWidth,getLsbD_movemask _ (by omega : k < 32),
    mod_eq_of_lt hk,BitVec.getLsbD_or,BitVec.getLsbD_setWidth,BitVec.getLsbD_shiftLeft]
  by_cases hlow : k < 4
  · have hlane := getLsbD_movemask_lane (f.hitLanes masks fun k => row k) ⟨k,hlow⟩
    rw [getLsbD_hitLanes] at hlane
    rw [hlane]
    simp [hk,show 8 * k + 7 < 32 by omega,show 8 * k + 7 < 64 by omega]
  have hlane := getLsbD_movemask_lane (f.hitLanes masks fun k => row (4 + k)) ⟨k - 4,by omega⟩
  rw [getLsbD_hitLanes] at hlane
  simp only [show 8 * (k - 4) + 7 = 8 * k + 7 - 32 by omega,
    show 4 + (k - 4) = k by omega] at hlane
  rw [BitVec.getLsbD_of_ge _ _ (by omega : 32 ≤ 8 * k + 7),BitVec.getLsbD_signExtend,
    if_pos (by omega : 8 * k + 7 - 32 < 32),hlane]
  simp [hk,show ¬ 8 * k + 7 < 32 by omega,show 8 * k + 7 < 64 by omega,
    show 8 * k - 25 < 64 by omega]

theorem foldl_update_range (g : Nat → α) (init : Nat → α) (j : Nat) :
    (range n).foldl (fun a i => update a i (g i)) init j =
      if j < n then g j else init j := by
  induction n with
  | zero => rfl
  | succ n ih =>
    rw [range_succ,foldl_append,foldl_cons,foldl_nil,update_apply,
      ih]
    grind

/-- Bit `k` of word `i` in the vectorised path is the probe of row `64 * i + k`, or off when the row
is left to the scalar loop. -/
theorem getLsbD_findImpAvx2 (hk : k < 64) :
    (wordAt (f.findImpAvx2 masks numRows hashes fun _ => 0).1 i).getLsbD k =
      (decide (64 * i + k < 8 * (numRows / 8)) && f.find masks (hashes (64 * i + k))) := by
  have hbit := getLsbD_resultByte (f := f) masks
    (fun r => hashes (8 * (8 * i + k / 8) + r)) (mod_lt k (by decide : 8 > 0))
  simp only [← add_assoc,show 8 * (8 * i + k / 8) + k % 8 = 64 * i + k by omega] at hbit
  rw [wordAt,BitVec.getLsbD_ofFnLE,dif_pos hk]
  dsimp only [findImpAvx2]
  rw [foldl_update_range]
  split
  · rw [hbit,decide_eq_true (by omega : 64 * i + k < 8 * (numRows / 8)),Bool.true_and]
  · rw [decide_eq_false (by omega : ¬ 64 * i + k < 8 * (numRows / 8)),Bool.false_and]
    simp

theorem selected_words (words : Nat → BitVec 64) (hit : Nat → Bool)
    (hword : ∀ i, ∀ k < 64, (words i).getLsbD k = hit (64 * i + k)) (n : Nat) :
    ((range n).foldl (fun s i => basicDecoder (BitVec.ofNat 32 (64 * i)) 64 (words i) s)
      s).selected = s.selected ++ ((range (64 * n)).filter hit).map (BitVec.ofNat 32) := by
  induction n with
  | zero => simp
  | succ n ih =>
    have hlen : (setBits (words n)).length ≤ 64 :=
      (length_filter_le _ _).trans_eq length_range
    have hbits : setBits (words n) = (range 64).filter fun k => hit (64 * n + k) :=
      filter_congr fun k hk => hword n k (mem_range.mp hk)
    rw [range_succ,foldl_append,foldl_cons,foldl_nil,
      selected_basicDecoder _ hlen,ih,hbits,mul_succ,range_add,filter_append,
      map_append,append_assoc,filter_map,map_map]
    simp only [Function.comp_def,BitVec.ofNat_add]

theorem selected_findImp (numRows : Nat)
    (h : (prefetch && f.usePrefetch) = false ∨ numPreprocessed = 0) :
    (f.findImp masks numRows numPreprocessed hashes prefetch s).selected =
      s.selected ++ ((range numRows).filter fun i => f.find masks (hashes i)).map
        fun i => BitVec.ofNat 32 (i + numPreprocessed) := by
  unfold findImp
  split
  · rename_i hprefetch
    -- the first loop of this path leaves the offset out
    obtain rfl : numPreprocessed = 0 := h.resolve_left (by simp [hprefetch])
    rw [selected_findRows,selected_findRows,append_assoc,← map_append,
      ← filter_append,range_eq_range']
    have hcut := range'_append_1 (s := 0) (m := numRows - kPrefetchIterations)
      (n := numRows - (numRows - kPrefetchIterations))
    rw [zero_add,Nat.add_sub_cancel' (Nat.sub_le _ _)] at hcut
    rw [Nat.sub_zero,hcut]
  · rw [selected_findRows,Nat.sub_zero,range_eq_range']

theorem filter_range_and (p : Nat → Bool) (h : m ≤ n) :
    ((range n).filter fun r => decide (r < m) && p r) = (range m).filter p := by
  obtain ⟨d,rfl⟩ := Nat.exists_eq_add_of_le h
  have hlow : ((range m).filter fun r => decide (r < m) && p r) = (range m).filter p := by
    apply filter_congr
    intro r hr
    simp [mem_range.mp hr]
  rw [range_add,filter_append,hlow]
  simp

/-- Every path appends the rows that the scalar probe accepts, in ascending order. -/
theorem findAll_selects (masks : MaskTable) (f : BlockedBloomFilter) (avx2 : Bool)
    (numRows : Nat) (hashes : Nat → BitVec 64) (enablePrefetch : Bool) (s : Selection) :
    (f.findAll masks avx2 numRows hashes enablePrefetch s).selected =
      s.selected ++ ((range numRows).filter fun i => f.find masks (hashes i)).map
        (BitVec.ofNat 32) ∧
    (f.findAll masks avx2 numRows hashes enablePrefetch s).resultCount =
      s.resultCount + (range numRows).countP fun i => f.find masks (hashes i) := by
  have hsel : (f.findAll masks avx2 numRows hashes enablePrefetch s).selected =
      s.selected ++ ((range numRows).filter fun i => f.find masks (hashes i)).map
        (BitVec.ofNat 32) := by
    unfold findAll
    split
    · have hprefetch : (enablePrefetch && f.usePrefetch) = false := by
        cases h : enablePrefetch && f.usePrefetch <;> simp_all
      have hrows : (f.findImpAvx2 masks numRows hashes fun _ => 0).2 -
          (f.findImpAvx2 masks numRows hashes fun _ => 0).2 % 8 = 8 * (numRows / 8) := by
        change numRows - numRows % 8 - (numRows - numRows % 8) % 8 = _
        omega
      have hwords := selected_words (s := s)
        (wordAt (f.findImpAvx2 masks numRows hashes fun _ => 0).1)
        (fun r => decide (r < 8 * (numRows / 8)) && f.find masks (hashes r))
        (fun i k hk => getLsbD_findImpAvx2 hk) (numRows / 64 + 1)
      rw [filter_range_and _ (by omega)] at hwords
      have hsplit : range numRows = range (8 * (numRows / 8)) ++
          (range (numRows - 8 * (numRows / 8))).map (8 * (numRows / 8) + ·) := by
        rw [← range_add,Nat.add_sub_cancel' (by omega)]
      rw [selected_findImp _ (.inl hprefetch),hwords,append_assoc,hsplit,
        filter_append,map_append,filter_map,map_map]
      simp only [hrows,Function.comp_def,add_comm]
    · rw [selected_findImp _ (.inr rfl)]
      rfl
  refine ⟨hsel,?_⟩
  have hlen := congrArg length hsel
  rw [Selection.selected,Selection.selected,length_append,length_map,
    length_range,length_map,length_range,length_map,
    ← countP_eq_length_filter] at hlen
  exact hlen

end BlockedBloomFilter

end PredTrans.Bloom
