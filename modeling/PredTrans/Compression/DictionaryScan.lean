import PredTrans.Compression.DictionaryRoundTrip

/-! A finished block is read back wherever it was copied to, and a column of short strings is
compressed without an error. -/

namespace PredTrans.Compression.Dictionary

open Library BitpackingPrimitives CompressState
open List hiding all

variable {P : Packer 32} {env : Environment} {c : CompressState} {rows : List (List UInt8 × Bool)}
  {m block : Memory} {base size dictEnd : Nat}

/-- Memory that holds the first `size` bytes of a finished block at `base`. -/
structure Copied (P : Packer 32) (env : Environment) (c : CompressState) (m : Memory) (base : Nat)
    (block : Memory) (size dictEnd : Nat) : Prop where
  finished : Finished P env c block dictEnd
  dictEnd_le : dictEnd ≤ size
  copy : m.read base size = block.read 0 size

namespace Copied

section

variable (h : Copied P env c m base block size dictEnd)
include h

theorem read (ha : a + n ≤ size) : m.read (base + a) n = block.read a n := by
  have := Memory.read_part h.copy ha
  rwa [zero_add] at this

theorem space :
    dictionaryHeaderSize + c.dictionary.size + c.indexBuffer.length * 4 +
      getRequiredSize c.count c.currentWidth ≤ dictEnd ∧ dictEnd ≤ size :=
  ⟨h.finished.separate,h.dictEnd_le⟩

theorem field (f : HeaderField) : getField m base f = getField block 0 f := by
  have hf := f.offset_le
  have hs := h.space
  rw [getField,getField,Memory.load,Memory.load,h.read (by omega),zero_add]

theorem selection :
    m.read (base + dictionaryHeaderSize) (getRequiredSize c.count c.currentWidth) =
      packBuffer P env.tmp c.selectionBuffer c.currentWidth := by
  have hs := h.space
  rw [h.read (by omega),h.finished.selection]

section

variable (hc : Holds c rows)
include hc

theorem getIndex_eq (hx : c.indexBuffer[j]? = some x) : getIndex m base j = x := by
  have hs := h.space
  obtain ⟨hlt,hget⟩ := List.getElem?_eq_some_iff.mp hx
  have hread : m.read (base + (dictionaryHeaderSize + getRequiredSize c.count c.currentWidth))
      (c.indexBuffer.length * 4) = c.indexBuffer.flatMap (storeBytes 4) := by
    rw [h.read (by omega),h.finished.index]
  have hle := hc.indexLe x (hget ▸ getElem_mem hlt)
  have hsize := hc.size_le
  have hb : blockSize < 256 ^ 4 := by decide
  rw [getIndex,h.field,h.finished.indexBufferOffset,Memory.load_of_read_flatMap hread hlt,hget]
  exact Nat.mod_eq_of_lt (by omega)

/-- Every string is found under its number. -/
theorem stringAt_eq (hs : c.strings[j]? = some s) : stringAt m base (j + 1) = s := by
  obtain ⟨hlim,lo,hlo,hhi,hle,hblock⟩ := hc.placed j s hs
  have hspace := h.space
  have hsize := hc.size_le
  have hdict : getDictionary m base = ⟨c.dictionary.size,dictEnd⟩ :=
    (getDictionary_congr h.field).trans h.finished.dictionary
  have hlen : getStringLength m base (j + 1) = s.length := by
    have hlim' : s.length < 4096 := hlim
    rw [getStringLength,if_neg (Nat.succ_ne_zero j),Nat.add_sub_cancel,h.getIndex_eq hc hlo,
      h.getIndex_eq hc hhi]
    omega
  rw [stringAt,hdict,hlen,h.getIndex_eq hc hhi,fetchStringFromDict]
  split
  · have hnil : s.length = 0 := by omega
    exact (length_eq_zero_iff.mp hnil).symm
  -- the dictionary was moved as a whole, so the string keeps its distance to the end
  have hpart := Memory.read_part h.finished.strings
    (show c.dictionary.size - (lo + s.length) + s.length ≤ c.dictionary.size by omega)
  have haddr : base + dictEnd - (lo + s.length) = base + (dictEnd - (lo + s.length)) := by omega
  have hsrc : dictEnd - c.dictionary.size + (c.dictionary.size - (lo + s.length)) =
      dictEnd - (lo + s.length) := by omega
  have hdst : blockSize - c.dictionary.size + (c.dictionary.size - (lo + s.length)) =
      blockSize - (lo + s.length) := by omega
  rw [hsrc,hdst,hblock] at hpart
  rw [haddr,h.read (by omega),hpart]

theorem selection_eq {i : Nat} (hi : rows[i]? = some (s, true)) :
    ∃ j, c.selectionBuffer[i]? = some (j + 1) ∧ c.strings[j]? = some s ∧
      stringAt m base (j + 1) = s ∧
      (j + 1) % 2 ^ c.currentWidth = j + 1 := by
  obtain ⟨hlt,hget⟩ := List.getElem?_eq_some_iff.mp hi
  obtain ⟨hlen,hsel⟩ := List.forall₂_iff_get.mp hc.selects
  have hlt' : i < c.selectionBuffer.length := hlen ▸ hlt
  obtain ⟨hle,hv⟩ := hsel i hlt' hlt
  simp only [get_eq_getElem,hget] at hle hv
  obtain ⟨j,hn,hj⟩ := hv trivial
  refine ⟨j,?_,hj,h.stringAt_eq hc hj,?_⟩
  · rw [getElem?_eq_getElem hlt',hn]
  · have hw := hc.strings_lt_width
    exact Nat.mod_eq_of_lt (by omega)

/-- Unpacking any stretch of groups that covers a row gives its string number. -/
theorem getElem?_unpack
    {start count i j n : Nat} (hstart : start % 32 = 0)
    (hend : start + count ≤ roundUpToAlgorithmGroupSize rows.length) (hj : j < count)
      (hi : start + j = i)
    (hn : c.selectionBuffer[i]? = some n) (hfits : n % 2 ^ c.currentWidth = n) :
    (unpackBuffer P m (base + dictionaryHeaderSize + start * c.currentWidth / 8) count
      c.currentWidth)[j]? =
      some n := by
  have hlen : c.selectionBuffer.length = rows.length := hc.selects.length_eq
  have hsel := h.selection
  rw [hc.count,← hlen] at hsel
  rw [getElem?_unpackBuffer P env.length_tmp hc.width_le hsel hstart (hlen ▸ hend) hj
    (hi ▸ hn),hfits]

theorem scanPartial_eq (allow : Bool) {start n : Nat} (hend : start + n ≤ rows.length) (hi : i < n)
    (hrow : rows[start + i]? = some (s, true)) :
    (scanPartial P m base allow start n)[i]? = some (some s) := by
  obtain ⟨j,hsel,hj,hstr,hfits⟩ := h.selection_eq hc hrow
  have hgroup : bitpackingAlgorithmGroupSize = 32 := rfl
  rw [scanPartial,h.field,h.finished.bitpackingWidth,hgroup]
  split
  · have hstart : (start - start % 32) % 32 = 0 := by omega
    have hgroups : start - start % 32 + roundUpToAlgorithmGroupSize (n + start % 32) ≤
        roundUpToAlgorithmGroupSize rows.length := by
      rw [roundUp_eq,roundUp_eq]
      omega
    have hin : i + start % 32 < roundUpToAlgorithmGroupSize (n + start % 32) := by
      rw [roundUp_eq]
      omega
    have hget := h.getElem?_unpack hc hstart hgroups hin (by omega) hsel hfits
    simp [hi,hget,hstr]
  · rename_i hflat
    have hstart : start % 32 = 0 := by
      simp only [Bool.or_eq_true,not_or,decide_eq_true_eq,not_not] at hflat
      exact hflat.2
    have hgroups : start + n ≤ roundUpToAlgorithmGroupSize rows.length := by
      rw [roundUp_eq]
      omega
    have hget := h.getElem?_unpack hc hstart hgroups hi rfl hsel hfits
    have hdict : (initScan m base)[j + 1]? = some s := by
      have hlt : j + 1 < getField m base .indexBufferCount := by
        obtain ⟨hjlt,-⟩ := List.getElem?_eq_some_iff.mp hj
        rw [h.field,h.finished.indexBufferCount,hc.indexLength]
        omega
      simp [initScan,hlt,hstr]
    simp [hi,hget,hdict]

theorem fetchRow_eq {i : Nat}
    (hrow : rows[i]? = some (s, true)) : fetchRow P m base i = some s := by
  obtain ⟨j,hsel,-,hstr,hfits⟩ := h.selection_eq hc hrow
  obtain ⟨hlt,-⟩ := List.getElem?_eq_some_iff.mp hrow
  have hgroup : bitpackingAlgorithmGroupSize = 32 := rfl
  have hstart : (i - i % 32) % 32 = 0 := by omega
  have hgroups : i - i % 32 + 32 ≤ roundUpToAlgorithmGroupSize rows.length := by
    rw [roundUp_eq]
    omega
  have hin : i % 32 < 32 := Nat.mod_lt _ (by decide)
  have hget := h.getElem?_unpack hc hstart hgroups hin (by omega) hsel hfits
  rw [fetchRow,h.field,h.finished.bitpackingWidth,hgroup]
  simp [hget,hstr]

end

end

end Copied

/-- The segment stores the rows: its regions do not overlap, and wherever its bytes are
copied to, every scan and every fetch gives the stored strings. -/
structure Encodes (P : Packer 32) (s : Segment) (rows : List (List UInt8 × Bool)) : Prop where
  count : s.count = rows.length
  selectionBuffer : dictionaryHeaderSize + getRequiredSize s.count
    (getField s.block 0 .bitpackingWidth) ≤
    getField s.block 0 .indexBufferOffset
  indexBuffer : getField s.block 0 .indexBufferOffset + 4 * getField s.block 0 .indexBufferCount +
    (getDictionary s.block 0).size ≤ (getDictionary s.block 0).dictEnd
  dictionary : (getDictionary s.block 0).dictEnd ≤ s.size
  size : s.size ≤ blockSize
  scan : ∀ m base, m.read base s.size = s.block.read 0 s.size → ∀ (allow : Bool) (start n : Nat),
    start + n ≤ rows.length → ∀ i < n, ∀ str, rows[start + i]? = some (str, true) →
    (scanPartial P m base allow start n)[i]? = some (some str)
  fetch : ∀ m base, m.read base s.size = s.block.read 0 s.size → ∀ (i : Nat) (str : List UInt8),
    rows[i]? = some (str, true) → fetchRow P m base i = some str

theorem encodes_finalize (env : Environment) (hc : Holds c rows) :
    Encodes P ⟨c.start, c.count, (c.finalize P env).1, (c.finalize P env).2⟩ rows := by
  obtain ⟨dictEnd,hend,hsize,hf⟩ := finished_finalize (P := P) env hc
  have hspace := hf.separate
  unfold requiredSpace at hspace
  refine ⟨hc.count,?_,?_,?_,hsize,?_,?_⟩
  · simp only [hf.indexBufferOffset,hf.bitpackingWidth,le_refl]
  · simp only [hf.indexBufferOffset,hf.indexBufferCount,hf.dictionary]
    omega
  · simp only [hf.dictionary,hend]
  · intro m base hm allow start n hle i hi str hrow
    exact Copied.scanPartial_eq ⟨hf,hend,hm⟩ hc allow hle hi hrow
  · intro m base hm i str hrow
    exact Copied.fetchRow_eq ⟨hf,hend,hm⟩ hc hrow

/-- The flushed segments and the current one store the rows taken in so far. -/
def Stores (P : Packer 32) (rowStart : Nat) (c : CompressState)
    (all : List (List UInt8 × Bool)) : Prop :=
  ∃ done rows, all = done ++ rows ∧ Covers (Encodes P) rowStart c.flushed done ∧
    c.start = rowStart + done.length ∧
    Holds c rows

theorem Stores.flushSegment (env : Environment) (h : Stores P rowStart c all) :
    Covers (Encodes P) rowStart (c.flushSegment P env) all ∧
        c.start + c.count = rowStart + all.length := by
  obtain ⟨done,rows,rfl,hcov,hstart,hc⟩ := h
  have hcount := hc.count
  constructor
  · unfold CompressState.flushSegment
    split
    · have hnil : rows = [] := length_eq_zero_iff.mp (by omega)
      rwa [hnil,append_nil]
    · exact hcov.append (encodes_finalize env hc) hc.count hstart
  · rw [length_append]
    omega

theorem Stores.flush (env : Environment) (h : Stores P rowStart c all) :
    Stores P rowStart (c.flush P env) all := by
  obtain ⟨hcov,hstart⟩ := h.flushSegment env
  exact ⟨all,[],by simp,hcov,hstart,holds_createEmptySegment env _ _⟩

section Rows

variable {rowStart : Nat} {all : List (List UInt8 × Bool)} {str : List UInt8}

theorem hasEnoughSpace_new (hn : n < stringBlockLimit) :
    hasEnoughSpace 1 2 n (minimumBitWidth 8 1) = true := by
  have hwidth : getRequiredSize 1 (minimumBitWidth 8 1) ≤ 4 * 64 := by
    have hle : minimumBitWidth 8 1 ≤ 64 := minimumBitWidth_le (by decide)
    rw [getRequiredSize_eq]
    omega
  have hn' : n < 4096 := hn
  have hheader : dictionaryHeaderSize = 20 := rfl
  have hblock : blockSize = 262136 := rfl
  apply decide_eq_true
  unfold requiredSpace
  omega

theorem dictionary_flush (c : CompressState) : (c.flush P env).dictionary = ⟨0, blockSize⟩ :=
  getDictionary_setDictionary _ _ (by decide) (by decide)

theorem calculate_flush (P : Packer 32) (env : Environment) (c : CompressState) (n : Nat) :
    ((c.flush P env).calculateSpaceRequirements true n).1 =
        hasEnoughSpace 1 2 n (minimumBitWidth 8 1) := by
  rw [calculateSpaceRequirements,if_pos rfl,dictionary_flush]
  simp [CompressState.flush,createEmptySegment]

theorem mem_of_lookup {l : List (List UInt8 × Nat)} (h : l.lookup str = some n) : (str, n) ∈ l := by
  obtain ⟨l₁,l₂,rfl,-⟩ := lookup_eq_some_iff.mp h
  simp

section

variable (h : Stores P rowStart c all)
include h

/-- The current segment takes in one more row. -/
theorem Stores.step (hflushed : c'.flushed = c.flushed)
    (hstart : c'.start = c.start) (hstep : ∀ rows, Holds c rows → Holds c' (rows ++ [row])) :
    Stores P rowStart c' (all ++ [row]) := by
  obtain ⟨done,rows,rfl,hcov,hs,hc⟩ := h
  exact ⟨done,rows ++ [row],by simp,hflushed ▸ hcov,hstart ▸ hs,hstep rows hc⟩

theorem Stores.addNull
    (hs : hasEnoughSpace (c.count + 1) c.indexBuffer.length c.dictionary.size
      c.currentWidth = true) :
    Stores P rowStart c.addNull (all ++ [(str, false)]) :=
  h.step rfl rfl (fun _ hc => hc.addNull str (of_decide_eq_true hs))

theorem Stores.addLastLookup (hmem : (str, n) ∈ c.stringMap)
    (hs : hasEnoughSpace (c.count + 1) c.indexBuffer.length c.dictionary.size
      c.currentWidth = true) :
    Stores P rowStart { c with latestLookupResult := n }.addLastLookup (all ++ [(str, true)]) := by
  refine h.step rfl rfl ?_
  intro rows hc
  obtain ⟨j,hn,hj⟩ := hc.map _ hmem
  have hc' : Holds { c with latestLookupResult := n } rows :=
    { hc with }
  exact hc'.addLastLookup hn hj (of_decide_eq_true hs)

theorem Stores.addNewString (hstr : str.length < stringBlockLimit)
    (hs : (c.calculateSpaceRequirements true str.length).1 = true) :
    Stores P rowStart ((c.calculateSpaceRequirements true str.length).2.addNewString str)
      (all ++ [(str, true)]) := by
  refine h.step rfl rfl ?_
  intro rows hc
  have hlen := hc.indexLength
  have hc' : Holds (c.calculateSpaceRequirements true str.length).2 rows :=
    { hc with }
  refine hc'.addNewString hstr ?_ (of_decide_eq_true hs)
  change minimumBitWidth 8 (c.indexBuffer.length - 1 + 1) = minimumBitWidth 8 (c.strings.length + 1)
  rw [hlen,Nat.add_sub_cancel]

/-- Only what the next lookup and the next string change. -/
theorem Stores.congr (width result : Nat) :
    Stores P rowStart { c with nextWidth := width, latestLookupResult := result } all := by
  obtain ⟨done,rows,hall,hcov,hs,hc⟩ := h
  exact ⟨done,rows,hall,hcov,hs,{ hc with }⟩

theorem Stores.addToNewSegment (hstr : valid = true → str.length < stringBlockLimit) :
    ∃ c', c.addToNewSegment P env str valid = .ok c' ∧
        Stores P rowStart c' (all ++ [(str, valid)]) := by
  have hflush := h.flush env
  cases valid with
  | true =>
    have hfits := (calculate_flush P env c str.length).trans (hasEnoughSpace_new (hstr rfl))
    exact ⟨_,if_pos hfits,hflush.addNewString (hstr rfl) hfits⟩
  | false =>
    have hfits := (calculate_flush P env c 0).trans (hasEnoughSpace_new (by decide))
    refine ⟨_,if_pos hfits,?_⟩
    apply (hflush.congr (minimumBitWidth 8 1) 0).addNull
    change hasEnoughSpace 1 1 0 0 = true
    decide

variable (env)

theorem Stores.updateRow {valid : Bool} (hstr : valid = true → str.length < stringBlockLimit) :
    ∃ c', c.updateRow P env str valid = .ok c' ∧ Stores P rowStart c' (all ++ [(str, valid)]) := by
  cases valid with
  | false =>
    have heq : c.updateRow P env str false =
        if hasEnoughSpace (c.count + 1) c.indexBuffer.length c.dictionary.size c.currentWidth then
          .ok c.addNull
        else c.addToNewSegment P env str false := rfl
    rw [heq]
    split
    · rename_i hs
      exact ⟨_,rfl,h.addNull hs⟩
    · exact h.addToNewSegment hstr
  | true =>
    cases hl : c.stringMap.lookup str with
    | none =>
      have hlook : c.lookupString str = (false, c) := by simp [lookupString,hl]
      have heq : c.updateRow P env str true =
          if (c.calculateSpaceRequirements true str.length).1 then
            .ok ((c.calculateSpaceRequirements true str.length).2.addNewString str)
          else (c.calculateSpaceRequirements true str.length).2.addToNewSegment P env str true := by
        simp only [CompressState.updateRow,if_true,hlook]
        rfl
      rw [heq]
      split
      · rename_i hs
        exact ⟨_,rfl,h.addNewString (hstr rfl) hs⟩
      · exact (h.congr _ c.latestLookupResult).addToNewSegment hstr
    | some n =>
      have hlook : c.lookupString str = (true, { c with latestLookupResult := n }) := by
        simp [lookupString,hl]
      have heq : c.updateRow P env str true =
          if hasEnoughSpace (c.count + 1) c.indexBuffer.length c.dictionary.size c.currentWidth then
            .ok { c with latestLookupResult := n }.addLastLookup
          else { c with latestLookupResult := n }.addToNewSegment P env str true := by
        simp only [CompressState.updateRow,if_true,hlook]
        rfl
      rw [heq]
      split
      · rename_i hs
        exact ⟨_,rfl,h.addLastLookup (mem_of_lookup hl) hs⟩
      · exact (h.congr c.nextWidth n).addToNewSegment hstr

theorem Stores.updateState (hstr : ∀ row ∈ rows, row.2 = true → row.1.length < stringBlockLimit) :
    ∃ c', c.updateState P env rows = .ok (true, c') ∧ Stores P rowStart c' (all ++ rows) := by
  induction rows generalizing c all with
  | nil => exact ⟨c,rfl,by simpa using h⟩
  | cons row rows ih =>
    obtain ⟨str,valid⟩ := row
    have hrow := hstr _ mem_cons_self
    obtain ⟨c₁,hc₁,h₁⟩ := h.updateRow env hrow
    obtain ⟨c₂,hc₂,h₂⟩ := ih h₁ (forall_mem_cons.mp hstr).2
    refine ⟨c₂,?_,by simpa using h₂⟩
    have hbig : (valid && decide (str.length ≥ stringBlockLimit)) = false := by
      cases valid with
      | false => rfl
      | true => simpa using hrow rfl
    rw [CompressState.updateState,if_neg (by simp [hbig]),hc₁]
    exact hc₂

theorem Stores.compressVectors
    (hstr : ∀ row ∈ vectors.flatten, row.2 = true → row.1.length < stringBlockLimit) :
    ∃ c', c.compressVectors P env vectors = .ok c' ∧
        Stores P rowStart c' (all ++ vectors.flatten) := by
  induction vectors generalizing c all with
  | nil => exact ⟨c,rfl,by simpa using h⟩
  | cons rows vectors ih =>
    obtain ⟨c₁,hc₁,h₁⟩ := h.updateState env
      (fun row hmem => hstr row (mem_append_left _ hmem))
    obtain ⟨c₂,hc₂,h₂⟩ := ih h₁ (fun row hmem => hstr row (mem_append_right _ hmem))
    refine ⟨c₂,?_,by simpa using h₂⟩
    rw [CompressState.compressVectors,hc₁]
    exact hc₂

end

end Rows

/-- Compressing a column of short strings does not fail, and its segments store it. -/
theorem compress_covers (P : Packer 32) (env : Environment) (rowStart : Nat)
    (vectors : List (List (List UInt8 × Bool)))
    (hstr : ∀ row ∈ vectors.flatten, row.2 = true → row.1.length < stringBlockLimit) :
    ∃ segments, compress P env rowStart vectors = .ok segments ∧
      Covers (Encodes P) rowStart segments vectors.flatten := by
  have hinit : Stores P rowStart (createEmptySegment env [] rowStart) [] :=
    ⟨[],[],rfl,rfl,rfl,holds_createEmptySegment env [] rowStart⟩
  obtain ⟨c,hc,h⟩ := hinit.compressVectors env hstr
  refine ⟨c.flushSegment P env,?_,(h.flushSegment env).1⟩
  rw [compress,hc]

theorem compress_covers_repeated :
    ∃ segments, compress (bitStream 32) ⟨fun _ => 170, List.replicate 32 7, rfl⟩ 5
        [[([], true), ([68, 66], true)], [([68, 66], true), ([], false), ([65], true)]] =
          .ok segments ∧
      Covers (Encodes (bitStream 32)) 5 segments
        [([], true), ([68, 66], true), ([68, 66], true), ([], false), ([65], true)] :=
  compress_covers (bitStream 32) ⟨fun _ => 170,List.replicate 32 7,rfl⟩ 5
    [[([], true),([68,66], true)],[([68,66], true),([], false),([65], true)]] (by decide)

end PredTrans.Compression.Dictionary
