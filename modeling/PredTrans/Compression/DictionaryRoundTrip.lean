import PredTrans.Compression.Dictionary

/-!
# Dictionary compression gives back its input
-/

namespace PredTrans.Compression.Dictionary

open Library BitpackingPrimitives List Memory

variable {P : Packer 32} {env : Environment}

theorem HeaderField.offset_le (f : HeaderField) : f.offset + 4 ≤ dictionaryHeaderSize := by
  cases f <;> decide

/-- The fields of the header do not overlap. -/
theorem HeaderField.disjoint {f g : HeaderField} (h : f ≠ g) :
    f.offset + 4 ≤ g.offset ∨ g.offset + 4 ≤ f.offset := by
  cases f <;> cases g <;> first | exact absurd rfl h | simp [offset]

theorem getField_setField_same (m : Memory) (f : HeaderField) (hx : x < 2 ^ 32) :
    getField (setField m f x) 0 f = x := by
  rw [getField,setField,zero_add,load_store_same]
  exact Nat.mod_eq_of_lt hx

theorem getField_setField_of_ne (m : Memory) {f g : HeaderField} (h : f ≠ g) (x : Nat) :
    getField (setField m g x) 0 f = getField m 0 f := by
  rw [getField,setField,zero_add,load_store_of_disjoint (HeaderField.disjoint h),getField,
    zero_add]

theorem read_setField (m : Memory) (f : HeaderField) (x : Nat) (ha : dictionaryHeaderSize ≤ a) :
    (setField m f x).read a n = m.read a n := by
  have := f.offset_le
  exact read_store_of_disjoint (by omega)

theorem getField_write (m : Memory) (f : HeaderField) (ha : dictionaryHeaderSize ≤ a) :
    getField (m.write a bytes) 0 f = getField m 0 f := by
  have := f.offset_le
  exact load_write_of_disjoint (by omega)

theorem read_setDictionary (m : Memory) (d : StringDictionaryContainer)
    (ha : dictionaryHeaderSize ≤ a) : (setDictionary m d).read a n = m.read a n := by
  rw [setDictionary,read_setField _ _ _ ha,read_setField _ _ _ ha]

theorem getDictionary_setDictionary (m : Memory) (d : StringDictionaryContainer)
    (hsize : d.size < 2 ^ 32)
    (hend : d.dictEnd < 2 ^ 32) : getDictionary (setDictionary m d) 0 = d := by
  rw [getDictionary,setDictionary,getField_setField_same _ _ hend,
    getField_setField_of_ne _ (by decide),getField_setField_same _ _ hsize]

theorem getField_setDictionary (m : Memory) (d : StringDictionaryContainer) (hsize : f ≠ .dictSize)
    (hend : f ≠ .dictEnd) : getField (setDictionary m d) 0 f = getField m 0 f := by
  rw [setDictionary,getField_setField_of_ne _ hend,getField_setField_of_ne _ hsize]

theorem getDictionary_congr (h : ∀ f, getField m base f = getField m' base' f) :
    getDictionary m base = getDictionary m' base' := by
  rw [getDictionary,getDictionary,h,h]

namespace CompressState

variable {c : CompressState} {rows : List (List UInt8 × Bool)}

/-- The distinct strings of the current segment. -/
def strings (c : CompressState) : List (List UInt8) := c.stringMap.map Prod.fst

/-- The string number stands for the row. -/
def Selects (strings : List (List UInt8)) (n : Nat) (row : List UInt8 × Bool) : Prop :=
  n ≤ strings.length ∧ (row.2 = true → ∃ j, n = j + 1 ∧ strings[j]? = some row.1)

/-- The string lies in the dictionary where the index buffer says. -/
def Placed (c : CompressState) (j : Nat) (s : List UInt8) : Prop :=
  s.length < stringBlockLimit ∧ ∃ lo, c.indexBuffer[j]? = some lo ∧
    c.indexBuffer[j + 1]? = some (lo + s.length) ∧ lo + s.length ≤ c.dictionary.size ∧
    c.block.read (blockSize - (lo + s.length)) s.length = s

/-- The current segment holds the rows. -/
structure Holds (c : CompressState) (rows : List (List UInt8 × Bool)) : Prop where
  count : c.count = rows.length
  map : ∀ p ∈ c.stringMap, ∃ j, p.2 = j + 1 ∧ c.strings[j]? = some p.1
  indexLength : c.indexBuffer.length = c.strings.length + 1
  indexLast : c.indexBuffer[c.strings.length]? = some c.dictionary.size
  indexLe : ∀ x ∈ c.indexBuffer, x ≤ c.dictionary.size
  placed : ∀ j s, c.strings[j]? = some s → c.Placed j s
  selects : List.Forall₂ (Selects c.strings) c.selectionBuffer rows
  width : c.currentWidth = minimumBitWidth 8 c.strings.length
  space : requiredSpace c.count c.indexBuffer.length c.dictionary.size c.currentWidth ≤ blockSize
  dictEnd : c.dictionary.dictEnd = blockSize
  header : getDictionary c.block 0 = c.dictionary

/-- A new segment holds no rows. -/
theorem holds_createEmptySegment (env : Environment) (flushed : List Segment) (rowStart : Nat) :
    Holds (createEmptySegment env flushed rowStart) [] := by
  have hd : getDictionary (setDictionary env.blank ⟨0,blockSize⟩) 0 = ⟨0,blockSize⟩ :=
    getDictionary_setDictionary _ _ (by decide) (by decide)
  refine ⟨rfl,by simp [createEmptySegment],rfl,?indexLast,?indexLe,?placed,.nil,?width,?space,
    ?dictEnd,rfl⟩
  case indexLast =>
    simp [createEmptySegment,strings,hd]
  case indexLe =>
    simp [createEmptySegment]
  case placed =>
    simp [createEmptySegment,strings]
  case width =>
    simp [createEmptySegment,strings,minimumBitWidth]
  case space =>
    simp only [createEmptySegment,hd]
    decide
  case dictEnd =>
    simp [createEmptySegment,hd]

theorem Selects.mono (t : List UInt8) (h : Selects s n row) : Selects (s ++ [t]) n row := by
  obtain ⟨hle,hv⟩ := h
  constructor
  · rw [length_append]
    omega
  intro hvalid
  obtain ⟨j,hn,hj⟩ := hv hvalid
  refine ⟨j,hn,?_⟩
  obtain ⟨hlt,-⟩ := List.getElem?_eq_some_iff.mp hj
  rw [getElem?_append_left hlt,hj]

theorem strings_addNewString (c : CompressState) (str : List UInt8) :
    (c.addNewString str).strings = c.strings ++ [str] := by
  simp [strings,CompressState.addNewString]

theorem length_indexBytes (l : List Nat) : (indexBytes l).length = l.length * 4 := by
  simp [indexBytes]

section

variable (h : Holds c rows)
include h

theorem Holds.size_le : c.dictionary.size ≤ blockSize := by
  have := h.space
  unfold requiredSpace at this
  omega

/-- A NULL selects number zero, which is no string. -/
theorem Holds.addNull (str : List UInt8)
    (hs : requiredSpace (c.count + 1) c.indexBuffer.length c.dictionary.size c.currentWidth ≤
      blockSize) :
    Holds c.addNull (rows ++ [(str, false)]) := by
  refine { h with count := ?_, selects := ?_, space := hs }
  · simp [CompressState.addNull,h.count]
  · exact rel_append h.selects (.cons ⟨Nat.zero_le _,by simp⟩ .nil)

/-- A string that was found is only selected once more. -/
theorem Holds.addLastLookup (hlook : c.latestLookupResult = j + 1) (hj : c.strings[j]? = some str)
    (hs : requiredSpace (c.count + 1) c.indexBuffer.length c.dictionary.size c.currentWidth ≤
      blockSize) :
    Holds c.addLastLookup (rows ++ [(str, true)]) := by
  obtain ⟨hlt,-⟩ := List.getElem?_eq_some_iff.mp hj
  refine { h with count := ?_, selects := ?_, space := hs }
  · simp [CompressState.addLastLookup,h.count]
  refine rel_append h.selects (.cons ⟨?_,?_⟩ .nil)
  · rw [hlook]
    exact hlt
  · intro _
    exact ⟨j,hlook,hj⟩

/-- A new string is written in front of the dictionary, which grows downwards from the end of the
block; the strings already placed keep their distance from there. -/
theorem Holds.addNewString (hstr : str.length < stringBlockLimit)
    (hw : c.nextWidth = minimumBitWidth 8 (c.strings.length + 1))
    (hs : requiredSpace (c.count + 1) (c.indexBuffer.length + 1) (c.dictionary.size + str.length)
      c.nextWidth ≤ blockSize) : Holds (c.addNewString str) (rows ++ [(str, true)]) := by
  have hsize : c.dictionary.size + str.length + dictionaryHeaderSize ≤ blockSize := by
    unfold requiredSpace at hs
    omega
  have hlen := h.indexLength
  have hread : ∀ a n, dictionaryHeaderSize ≤ a →
      (c.addNewString str).block.read a n =
        (c.block.write (blockSize - (c.dictionary.size + str.length)) str).read a n := by
    intro a n ha
    exact read_setDictionary _ _ ha
  refine ⟨?count,?map,?indexLength,?indexLast,?indexLe,?placed,?selects,?width,?space,h.dictEnd,
    ?header⟩
  case count =>
    simp [CompressState.addNewString,h.count]
  case map =>
    intro p hp
    rw [strings_addNewString]
    rcases mem_append.mp hp with hp | hp
    · obtain ⟨j,hj,hjs⟩ := h.map p hp
      obtain ⟨hlt,-⟩ := List.getElem?_eq_some_iff.mp hjs
      exact ⟨j,hj,by rw [getElem?_append_left hlt,hjs]⟩
    · rw [mem_singleton.mp hp]
      simp [hlen]
  case indexLength =>
    rw [strings_addNewString]
    simp [CompressState.addNewString,hlen]
  case indexLast =>
    rw [strings_addNewString]
    simp [CompressState.addNewString,hlen]
  case indexLe =>
    intro x hx
    rcases mem_append.mp hx with hx | hx
    · exact (h.indexLe x hx).trans (Nat.le_add_right _ _)
    · rw [mem_singleton.mp hx]
      exact le_rfl
  case placed =>
    intro j s hj
    rw [strings_addNewString] at hj
    by_cases hlt : j < c.strings.length
    · -- an older string lies above the new one
      rw [getElem?_append_left hlt] at hj
      obtain ⟨hlim,lo,hlo,hhi,hle,hblock⟩ := h.placed j s hj
      refine ⟨hlim,lo,?_,?_,?_,?_⟩
      · change (c.indexBuffer ++ _)[j]? = _
        rw [getElem?_append_left (by omega),hlo]
      · change (c.indexBuffer ++ _)[j + 1]? = _
        rw [getElem?_append_left (by omega),hhi]
      · exact hle.trans (Nat.le_add_right _ _)
      · rw [hread _ _ (by omega),read_write_of_disjoint (by omega),hblock]
    · obtain ⟨hjlen,hjs⟩ := List.getElem?_eq_some_iff.mp hj
      have hjeq : j = c.strings.length := by
        rw [length_append,length_singleton] at hjlen
        omega
      subst hjeq
      simp only [getElem_append_right le_rfl,Nat.sub_self,getElem_singleton] at hjs
      subst hjs
      refine ⟨hstr,c.dictionary.size,?_,?_,le_rfl,?_⟩
      · change (c.indexBuffer ++ _)[c.strings.length]? = _
        rw [getElem?_append_left (by omega),h.indexLast]
      · change (c.indexBuffer ++ [c.dictionary.size + str.length])[c.strings.length + 1]? = _
        rw [← hlen,getElem?_append_right le_rfl,Nat.sub_self]
        rfl
      · rw [hread _ _ (by omega),read_write_same]
  case selects =>
    rw [strings_addNewString]
    refine rel_append (h.selects.imp (fun _ _ => Selects.mono str)) (.cons ⟨?_,?_⟩ .nil)
    · simp [hlen]
    · intro _
      exact ⟨c.strings.length,by simp [hlen],by simp⟩
  case width =>
    rw [strings_addNewString]
    simpa [CompressState.addNewString] using hw
  case space =>
    simpa [CompressState.addNewString] using hs
  case header =>
    refine getDictionary_setDictionary _ _ ?_ ?_
    · have : blockSize < 2 ^ 32 := by decide
      change c.dictionary.size + str.length < 2 ^ 32
      omega
    · rw [h.dictEnd]
      decide

/-- The regions of a finished block, whose dictionary ends at `dictEnd`. -/
structure Finished (P : Packer 32) (env : Environment) (c : CompressState) (m : Memory)
    (dictEnd : Nat) :
    Prop where
  selection : m.read dictionaryHeaderSize (getRequiredSize c.count c.currentWidth) =
    packBuffer P env.tmp c.selectionBuffer c.currentWidth
  index : m.read (dictionaryHeaderSize + getRequiredSize c.count c.currentWidth)
    (c.indexBuffer.length * 4) =
    c.indexBuffer.flatMap (storeBytes 4)
  indexBufferOffset : getField m 0 .indexBufferOffset =
    dictionaryHeaderSize + getRequiredSize c.count c.currentWidth
  indexBufferCount : getField m 0 .indexBufferCount = c.indexBuffer.length
  bitpackingWidth : getField m 0 .bitpackingWidth = c.currentWidth
  dictionary : getDictionary m 0 = ⟨c.dictionary.size, dictEnd⟩
  separate : requiredSpace c.count c.indexBuffer.length c.dictionary.size c.currentWidth ≤ dictEnd
  strings : m.read (dictEnd - c.dictionary.size) c.dictionary.size =
    c.block.read (blockSize - c.dictionary.size) c.dictionary.size

theorem Holds.strings_lt : c.strings.length < 2 ^ 32 := by
  have hs := h.space
  have hl := h.indexLength
  have hb : blockSize < 2 ^ 32 := by decide
  unfold requiredSpace at hs
  omega

theorem Holds.width_le : c.currentWidth ≤ 32 := by
  rw [h.width]
  have hlt := h.strings_lt
  unfold minimumBitWidth
  split
  · exact Nat.zero_le _
  have hshift := shifts_le hlt
  unfold getEffectiveWidth
  split
  · omega
  · exact hshift

theorem Holds.strings_lt_width : c.strings.length < 2 ^ c.currentWidth := by
  rw [h.width]
  apply lt_two_pow_minimumBitWidth
  exact h.strings_lt.trans (by decide)

variable (env)

/-- The three regions are written without overlap, since the required space fits into the block. -/
theorem finished_writeBuffers : Finished P env c (writeBuffers P env c) blockSize := by
  have hspace := h.space
  have hb : blockSize < 2 ^ 32 := by decide
  have hsel : c.selectionBuffer.length = c.count := h.selects.length_eq.trans h.count.symm
  have hpack : (packBuffer P env.tmp c.selectionBuffer c.currentWidth).length =
      getRequiredSize c.count c.currentWidth := hsel ▸ length_packBuffer P env.length_tmp h.width_le
  have hidx := length_indexBytes c.indexBuffer
  unfold requiredSpace at hspace
  -- the fields do not touch the regions behind the header
  have hread : ∀ a n, dictionaryHeaderSize ≤ a → (writeBuffers P env c).read a n =
      ((c.block.write dictionaryHeaderSize (packBuffer P env.tmp c.selectionBuffer
        c.currentWidth)).write
        (dictionaryHeaderSize + getRequiredSize c.count c.currentWidth)
            (indexBytes c.indexBuffer)).read a n := by
    intro a n ha
    rw [writeBuffers,read_setField _ _ _ ha,read_setField _ _ _ ha,read_setField _ _ _ ha]
  have hfield : ∀ f, getField ((c.block.write dictionaryHeaderSize
      (packBuffer P env.tmp c.selectionBuffer c.currentWidth)).write
        (dictionaryHeaderSize + getRequiredSize c.count c.currentWidth)
          (indexBytes c.indexBuffer)) 0 f =
      getField c.block 0 f := by
    intro f
    rw [getField_write _ _ (Nat.le_add_right _ _),getField_write _ _ le_rfl]
  refine ⟨?selection,?index,?indexBufferOffset,?indexBufferCount,?bitpackingWidth,?dictionary,
    h.space,?strings⟩
  case selection =>
    rw [hread _ _ le_rfl,read_write_of_disjoint (.inl le_rfl),← hpack,read_write_same]
  case index =>
    rw [hread _ _ (Nat.le_add_right _ _),← hidx,read_write_same,indexBytes]
  case indexBufferOffset =>
    rw [writeBuffers,getField_setField_of_ne _ (by decide),getField_setField_of_ne _ (by decide),
      getField_setField_same _ _ (by omega)]
  case indexBufferCount =>
    rw [writeBuffers,getField_setField_of_ne _ (by decide),getField_setField_same _ _ (by omega)]
  case bitpackingWidth =>
    have hw := h.width_le
    rw [writeBuffers,getField_setField_same _ _ (by omega)]
  case dictionary =>
    have hdict : getDictionary (writeBuffers P env c) 0 = getDictionary c.block 0 := by
      rw [getDictionary,getDictionary,writeBuffers,getField_setField_of_ne _ (by decide),
        getField_setField_of_ne _ (by decide),getField_setField_of_ne _ (by decide),
        getField_setField_of_ne _ (by decide),getField_setField_of_ne _ (by decide),
        getField_setField_of_ne _ (by decide),hfield,hfield]
    rw [hdict,h.header,← h.dictEnd]
  case strings =>
    rw [hread _ _ (by omega),read_write_of_disjoint (by omega),
      read_write_of_disjoint (by omega)]

/-- The block is finished with or without compaction. -/
theorem finished_finalize :
    ∃ dictEnd ≤ (c.finalize P env).1, (c.finalize P env).1 ≤ blockSize ∧
      Finished P env c (c.finalize P env).2 dictEnd := by
  have hw := finished_writeBuffers (P := P) env h
  have hspace := h.space
  have hb : blockSize < 2 ^ 32 := by decide
  have hend := h.dictEnd
  unfold requiredSpace at hspace
  by_cases hfull : dictionaryHeaderSize + getRequiredSize c.count c.currentWidth +
    c.indexBuffer.length * 4 +
      c.dictionary.size ≥ compactionFlushLimit
  · have hfin : c.finalize P env = (blockSize, writeBuffers P env c) := if_pos hfull
    rw [hfin]
    exact ⟨blockSize,le_rfl,le_rfl,hw⟩
  · rw [show c.finalize P env = (_, setDictionary _ _) from if_neg hfull]
    generalize hS : getRequiredSize c.count c.currentWidth = S at *
    generalize hX : c.indexBuffer.length * 4 = X at *
    have htotal : c.dictionary.dictEnd - (blockSize -
        (dictionaryHeaderSize + S + X + c.dictionary.size)) =
        dictionaryHeaderSize + S + X + c.dictionary.size := by omega
    rw [htotal]
    refine ⟨_,le_rfl,by omega,?_⟩
    have hmove : ∀ f : HeaderField, getField ((writeBuffers P env c).move
        (dictionaryHeaderSize + S + X)
        (c.dictionary.dictEnd - c.dictionary.size) c.dictionary.size) 0 f =
        getField (writeBuffers P env c) 0 f := fun f => getField_write _ _ (by omega)
    constructor
    case selection =>
      rw [hS,read_setDictionary _ _ le_rfl,read_move_of_disjoint (by omega),← hS,hw.selection]
    case index =>
      rw [hS,hX,read_setDictionary _ _ (by omega),read_move_of_disjoint (by omega),← hS,← hX,
        hw.index]
    case indexBufferOffset =>
      rw [getField_setDictionary _ _ (by decide) (by decide),hmove,hw.indexBufferOffset]
    case indexBufferCount =>
      rw [getField_setDictionary _ _ (by decide) (by decide),hmove,hw.indexBufferCount]
    case bitpackingWidth =>
      rw [getField_setDictionary _ _ (by decide) (by decide),hmove,hw.bitpackingWidth]
    case dictionary =>
      exact getDictionary_setDictionary _ _ (by simp only; omega) (by simp only; omega)
    case separate =>
      rw [requiredSpace,hS,hX]
      omega
    case strings =>
      have hsub : dictionaryHeaderSize + S + X + c.dictionary.size - c.dictionary.size =
          dictionaryHeaderSize + S + X := by omega
      rw [hsub,read_setDictionary _ _ (by omega),read_move_same,hend,hw.strings]

end

end CompressState

end PredTrans.Compression.Dictionary
