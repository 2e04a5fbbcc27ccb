import PredTrans.Bloom.BlockedBloomFilter

/-! Folding ors slices of the block array into the first one, and block ids of the smaller filter
are those of the larger one modulo the new size. -/

namespace PredTrans.Bloom.BlockedBloomFilter
open List Nat

variable {f : BlockedBloomFilter} {hash : BitVec 64} {l : List Nat}

theorem blockId_eq (f : BlockedBloomFilter) (hash : BitVec 64) :
    f.blockId hash = (hash >>> 16).toNat % f.numBlocks := by
  have hlt := (hash >>> 16).isLt
  change ((hash >>> 16) &&& BitVec.ofNat 64 (f.numBlocks - 1)).toNat = _
  rw [f.size,BitVec.toNat_and,BitVec.toNat_ofNat]
  by_cases hsmall : f.logNumBlocks ≤ 64
  · have hpow : 2 ^ f.logNumBlocks ≤ 2 ^ 64 := Nat.pow_le_pow_right (by decide) hsmall
    have hpos := Nat.two_pow_pos f.logNumBlocks
    rw [mod_eq_of_lt (by omega),and_two_pow_sub_one_eq_mod]
  obtain ⟨k,hk⟩ : ∃ k, f.logNumBlocks = 64 + k := ⟨f.logNumBlocks - 64,by omega⟩
  have hpos := Nat.two_pow_pos k
  have hones : (2 ^ f.logNumBlocks - 1) % 2 ^ 64 = 2 ^ 64 - 1 := by
    rw [hk,pow_add]
    omega
  have hpow : 2 ^ 64 ≤ 2 ^ f.logNumBlocks := Nat.pow_le_pow_right (by decide) (by omega)
  rw [hones,and_two_pow_sub_one_eq_mod,mod_eq_of_lt hlt,mod_eq_of_lt (by omega)]

theorem find_iff : f.find masks hash = true ↔
    ∀ k, (mask masks hash).getLsbD k = true → (f.blocks (f.blockId hash)).getLsbD k = true := by
  unfold find
  rw [beq_iff_eq]
  constructor
  · intro h k hk
    rw [← h] at hk
    simp only [BitVec.getLsbD_and,Bool.and_eq_true] at hk
    exact hk.1
  · intro h
    apply BitVec.eq_of_getLsbD_eq
    intro k _
    rw [BitVec.getLsbD_and,Bool.and_eq_right_iff_imp]
    exact h k

theorem orSlice_range (blocks : Nat → BitVec 64) (hslice : 0 < slice) (hm : m ≤ n) (j : Nat) :
    (List.range m).foldl (fun (blocks : Nat → BitVec 64) i => Function.update blocks i
      (blocks i ||| blocks (slice * n + i))) blocks j =
      if j < m then blocks j ||| blocks (slice * n + j) else blocks j := by
  induction m generalizing j with
  | zero => rfl
  | succ m ih =>
    rw [range_succ,foldl_append,foldl_cons,foldl_nil]
    by_cases hj : j = m
    · subst hj
      rw [Function.update_self,ih (by omega),ih (by omega),if_neg (by omega),if_neg (by omega),
        if_pos (by omega)]
    · rw [Function.update_of_ne hj,ih (by omega)]
      simp only [show j < m + 1 ↔ j < m by omega]

/-- Or-ing slices into the first one keeps every bit where it was, and copies those of the slices
into the first one. -/
theorem orSlices_bits (hl : ∀ s ∈ l, 0 < s) (blocks : Nat → BitVec 64) :
    (∀ j k, (blocks j).getLsbD k = true → (l.foldl (orSlice n) blocks j).getLsbD k = true) ∧
      ∀ s ∈ l, ∀ j < n, ∀ k, (blocks (s * n + j)).getLsbD k = true →
        (l.foldl (orSlice n) blocks j).getLsbD k = true := by
  induction l generalizing blocks with
  | nil => simp
  | cons s l ih =>
    obtain ⟨hgrow,hcopy⟩ := ih (fun s hs => hl s (mem_cons_of_mem _ hs)) (orSlice n blocks s)
    have hone := orSlice_range blocks (hl s mem_cons_self) (le_refl n)
    have hkeep : ∀ j k, (blocks j).getLsbD k = true → (orSlice n blocks s j).getLsbD k = true := by
      intro j k hk
      rw [orSlice,hone]
      split
      · simp [hk]
      · exact hk
    refine ⟨fun j k hk => hgrow j k (hkeep j k hk),fun s' hs' j hj k hk => ?_⟩
    rcases mem_cons.mp hs' with rfl | hs'
    · apply hgrow
      rw [orSlice,hone,if_pos hj]
      simp [hk]
    · exact hcopy s' hs' j hj k (hkeep _ k hk)

theorem find_singleFold (hn : numFolds ≤ f.logNumBlocks) (h : f.find masks hash = true) :
    (f.singleFold numFolds).find masks hash = true := by
  have hsplit : f.numBlocks = 2 ^ numFolds * (f.numBlocks >>> numFolds) := by
    rw [shiftRight_eq_div_pow,f.size,
      Nat.mul_div_cancel' (Nat.pow_dvd_pow 2 hn)]
  have hsize : (f.singleFold numFolds).numBlocks = f.numBlocks >>> numFolds := by
    rw [Nat.shiftRight_eq_div_pow,f.size,Nat.pow_div hn (by decide)]
    exact one_shiftLeft _
  have hpos : 0 < f.numBlocks := by
    rw [f.size]
    exact Nat.two_pow_pos _
  have hnew : (f.singleFold numFolds).blockId hash =
      f.blockId hash % (f.numBlocks >>> numFolds) := by
    rw [blockId_eq,blockId_eq,hsize,mod_mod_of_dvd _ (Dvd.intro_left _ hsplit.symm)]
  have hold : f.blockId hash < 2 ^ numFolds * (f.numBlocks >>> numFolds) := by
    rw [blockId_eq,← hsplit]
    exact mod_lt _ hpos
  obtain ⟨hgrow,hcopy⟩ := orSlices_bits (n := f.numBlocks >>> numFolds)
    (l := List.range' 1 (2 ^ numFolds - 1)) (fun s hs => (mem_range'_1.mp hs).1) f.blocks
  change ∀ j k, _ → ((f.singleFold numFolds).blocks j).getLsbD k = true at hgrow
  change ∀ s ∈ _, ∀ j < _, ∀ k, _ → ((f.singleFold numFolds).blocks j).getLsbD k = true at hcopy
  generalize f.numBlocks >>> numFolds = n at *
  rw [find_iff] at h ⊢
  intro k hk
  have hbit := h k hk
  rw [← div_add_mod' (f.blockId hash) n] at hbit
  rw [hnew]
  -- the block lies in the first slice or in one of those folded onto it
  rcases Nat.eq_zero_or_pos (f.blockId hash / n) with hzero | hslice
  · rw [hzero,zero_mul,zero_add] at hbit
    exact hgrow _ k hbit
  · have hn : 0 < n := Nat.pos_of_mul_pos_left (Nat.zero_lt_of_lt hold)
    have hlast := Nat.div_lt_of_lt_mul (Nat.mul_comm _ n ▸ hold)
    exact hcopy _ (mem_range'_1.mpr ⟨hslice,by omega⟩) _ (mod_lt _ hn) k hbit

/-- At least one fold, and never below the smallest size. -/
theorem countFolds_bounds (bits fuel : Nat) (h1 : 1 ≤ n)
    (hn : n + logNumBlocksMin ≤ f.logNumBlocks) :
    1 ≤ f.countFolds bits fuel n ∧ f.countFolds bits fuel n + logNumBlocksMin ≤ f.logNumBlocks := by
  induction fuel generalizing n with
  | zero => exact ⟨h1,hn⟩
  | succ fuel ih =>
    unfold countFolds
    split
    · exact ih (by omega) (by omega)
    · exact ⟨h1,hn⟩

/-- With any fuel above the logarithm of the size, folding returns one filter. It is no smaller
than the smallest size allows, and finds whatever the original found. -/
theorem fold_keeps_members (countSetBits : (Nat → BitVec 64) → Nat → Nat → Nat)
    (f : BlockedBloomFilter) : ∃ g : BlockedBloomFilter,
      (∀ fuel, f.logNumBlocks < fuel → fold countSetBits fuel f = some g) ∧
      g.numBlocks = 2 ^ g.logNumBlocks ∧
      min logNumBlocksMin f.logNumBlocks ≤ g.logNumBlocks ∧ g.logNumBlocks ≤ f.logNumBlocks ∧
      ∀ masks hash, f.find masks hash = true → g.find masks hash = true := by
  induction hlog : f.logNumBlocks using Nat.strong_induction_on generalizing f with
  | _ log ih =>
  by_cases hstop : f.logNumBlocks ≤ logNumBlocksMin ∨
      4 * f.numBitsSet countSetBits ≥ f.numBlocks * 64
  · refine ⟨f,fun fuel hfuel => ?_,f.size,by omega,by omega,fun _ _ h => h⟩
    obtain ⟨fuel,rfl⟩ := exists_eq_succ_of_ne_zero (ne_zero_of_lt hfuel)
    rcases hstop with hsmall | hfull
    · exact if_pos hsmall
    · simp [fold,hfull]
  obtain ⟨hlarge,hsparse⟩ := not_or.mp hstop
  obtain ⟨hone,hmin⟩ := countFolds_bounds (f := f) (f.numBitsSet countSetBits) f.logNumBlocks
    (le_refl 1) (by omega)
  obtain ⟨g,hrun,hsize,hlow,hhigh,hfind⟩ := ih _ (by change f.logNumBlocks - _ < _; omega)
    (f.singleFold (f.countFolds (f.numBitsSet countSetBits) f.logNumBlocks 1)) rfl
  change min _ (f.logNumBlocks - _) ≤ _ at hlow
  change _ ≤ f.logNumBlocks - _ at hhigh
  refine ⟨g,fun fuel hfuel => ?_,hsize,by omega,by omega,fun masks hash h =>
    hfind masks hash (find_singleFold (by omega) h)⟩
  obtain ⟨fuel,rfl⟩ := exists_eq_succ_of_ne_zero (ne_zero_of_lt hfuel)
  rw [fold,if_neg hlarge,if_neg hsparse]
  exact hrun fuel (by change f.logNumBlocks - _ < _; omega)

end PredTrans.Bloom.BlockedBloomFilter
