import PredTrans.Bloom.FindPaths
import PredTrans.Bloom.Folding

/-! Building a filter. An insertion is one atomic `fetch_or` on a block, so other threads may come
between any two of them. -/

namespace PredTrans.Bloom.BlockedBloomFilter
open List Function

variable (masks : MaskTable) (f : BlockedBloomFilter)

def fetchOr (block : Nat) (m : BitVec 64) : BlockedBloomFilter :=
  { f with blocks := update f.blocks block (f.blocks block ||| m) }

def insert (hash : BitVec 64) : BlockedBloomFilter := f.fetchOr (f.blockId hash) (mask masks hash)

def insertImp (hashes : List (BitVec 64)) : BlockedBloomFilter := hashes.foldl (insert masks) f

/-- `InsertImp_avx2`: four rows at a time. The rows that are left over come next. -/
def insertImpAvx2 (f : BlockedBloomFilter) :
    List (BitVec 64) → BlockedBloomFilter × List (BitVec 64)
  | a :: b :: c :: d :: hashes => insertImpAvx2 ([a, b, c, d].foldl (fun f hash =>
      f.fetchOr (f.blockId hash) (maskAvx2 masks hash)) f) hashes
  | hashes => (f, hashes)

/-- `Insert` of a batch. -/
def insertBatch (avx2 : Bool) (hashes : List (BitVec 64)) : BlockedBloomFilter :=
  let (f, hashes) := if avx2 then insertImpAvx2 masks f hashes else (f, hashes)
  f.insertImp masks hashes

variable {masks f}

theorem insertBatch_eq (avx2 : Bool) (hashes : List (BitVec 64)) :
    f.insertBatch masks avx2 hashes = f.insertImp masks hashes := by
  cases avx2 with
  | false => rfl
  | true =>
    simp only [insertBatch,if_true]
    fun_induction insertImpAvx2 masks f hashes with
    | case1 f a b c d hashes ih =>
      rw [ih]
      simp only [maskAvx2_eq]
      rfl
    | case2 => rfl

/-- An insertion sets the bits of its mask, and nothing else changes. -/
theorem insertImp_spec (hashes : List (BitVec 64)) :
    (∀ b k, ((f.insertImp masks hashes).blocks b).getLsbD k = true ↔
      (f.blocks b).getLsbD k = true ∨
        ∃ hash ∈ hashes, f.blockId hash = b ∧ (mask masks hash).getLsbD k = true) ∧
    ∀ hash, (f.insertImp masks hashes).blockId hash = f.blockId hash := by
  induction hashes generalizing f with
  | nil => simp [insertImp]
  | cons a hashes ih =>
    obtain ⟨hbits,hblock⟩ := ih (f := f.insert masks a)
    refine ⟨fun b k => (hbits b k).trans ?_,hblock⟩
    have ha : ((f.insert masks a).blocks b).getLsbD k = true ↔ (f.blocks b).getLsbD k = true ∨
        f.blockId a = b ∧ (mask masks a).getLsbD k = true := by
      by_cases h : f.blockId a = b
      · subst h
        simp [insert,fetchOr]
      · simp [insert,fetchOr,update_of_ne (Ne.symm h),h]
    rw [ha]
    simp only [mem_cons,or_and_right,exists_or,exists_eq_left,or_assoc]
    rfl

/-- In whatever order threads insert the hashes of all batches, the blocks are those that one
thread builds on either path. They hold the bits of these hashes and no others, so all of them are
found. -/
theorem build_exact (masks : MaskTable) (f : BlockedBloomFilter) (avx2 : Bool)
    (batches : List (List (BitVec 64))) (inserted : List (BitVec 64))
    (h : inserted.Perm batches.flatten) :
    (f.insertImp masks inserted).blocks = (batches.foldl (insertBatch masks · avx2) f).blocks ∧
    (∀ b k, ((f.insertImp masks inserted).blocks b).getLsbD k = true ↔
      (f.blocks b).getLsbD k = true ∨
        ∃ hash ∈ inserted, f.blockId hash = b ∧ (mask masks hash).getLsbD k = true) ∧
    ∀ hash ∈ inserted, (f.insertImp masks inserted).find masks hash = true := by
  obtain ⟨hbits,hblock⟩ := @insertImp_spec masks f inserted
  refine ⟨?_,hbits,fun hash hmem => find_iff.mpr fun k hk => (hbits _ k).mpr (.inr ?_)⟩
  · have hpath : (insertBatch masks · avx2) = insertImp masks :=
      funext₂ fun _ => insertBatch_eq avx2
    have hbatches : batches.foldl (insertImp masks) f = f.insertImp masks batches.flatten :=
      foldl_flatten.symm
    rw [hpath,hbatches]
    funext b
    apply BitVec.eq_of_getLsbD_eq
    intro k _
    rw [Bool.eq_iff_iff,hbits,(insertImp_spec batches.flatten).1]
    simp only [h.mem_iff]
  · exact ⟨hash,hmem,(hblock hash).symm,hk⟩

/-- Six hashes of four blocks, five of them in a batch that AVX2 starts on. -/
theorem build_exact_six :
    let masks : MaskTable := ⟨fun i => BitVec.ofNat 64 (i + 1), (·.rotateLeft ·), fun _ _ _ => rfl⟩
    let f : BlockedBloomFilter := ⟨2, 4, fun _ => 0, rfl⟩
    let batches := [[0x10008, 0x20010, 0x30418, 0x00009, 0x10421], [0x20001]]
    let inserted := [0x20001, 0x10421, 0x00009, 0x30418, 0x20010, 0x10008]
    (f.insertImp masks inserted).blocks = (batches.foldl (insertBatch masks · true) f).blocks ∧
      (f.insertImp masks inserted).find masks 0x10421 = true ∧
      (f.insertImp masks inserted).find masks 0x30010 = false := by
  intro masks f batches inserted
  obtain ⟨hblocks,-,hfind⟩ := build_exact masks f true batches inserted (by decide)
  exact ⟨hblocks,hfind _ (by decide),by decide⟩

end PredTrans.Bloom.BlockedBloomFilter
