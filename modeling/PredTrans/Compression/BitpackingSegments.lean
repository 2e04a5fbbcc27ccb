import PredTrans.Compression.BitpackingGroups

/-!
# Where the groups of a segment lie
-/

namespace PredTrans.Compression.Bitpacking

open Library BitpackingPrimitives Memory

variable {t : IntegerType} {P : Packer t.bits} {env : Environment t}

theorem IntegerType.size_le (t : IntegerType) : t.size ≤ 16 := by
  cases t <;> decide

theorem IntegerType.two_pow_bits (t : IntegerType) : 2 ^ t.bits = 256 ^ t.size := by
  rw [bits,mul_comm,pow_mul]
  norm_num

theorem GroupData.length_bytes {g : GroupData t} (h : g.WellFormed count) :
    (g.bytes P env.tmp).length = g.reserved t count := by
  cases g with
  | constant value => simp [bytes,valueBytes,reserved]
  | constantDelta frame delta =>
    simp [bytes,valueBytes,reserved]
    omega
  | deltaFor frame width offset values | frameOfReference frame width values =>
    obtain ⟨hw,hlen⟩ := h
    simp [bytes,valueBytes,reserved,length_packBuffer P env.length_tmp hw,hlen]
    omega

/-- A group of at most 2048 values takes up only a part of a block. -/
theorem GroupData.reserved_le (hcount : count ≤ metadataGroupSize) {g : GroupData t}
    (h : g.WellFormed count) : g.reserved t count ≤ 40000 := by
  have hsize := t.size_le
  have hcount' : count ≤ 2048 := hcount
  have hpack : ∀ {width : Nat}, width ≤ t.bits → getRequiredSize count width ≤ 32768 := by
    intro width hw
    have hw' : width ≤ 128 := by
      unfold IntegerType.bits at hw
      omega
    rw [getRequiredSize_eq]
    calc (count + 31) / 32 * (4 * width) ≤ 64 * (4 * 128) := Nat.mul_le_mul (by omega) (by omega)
      _ = 32768 := rfl
  cases g with
  | constant value | constantDelta frame delta =>
    simp only [reserved]
    omega
  | deltaFor frame width offset values | frameOfReference frame width values =>
    have := hpack h.1
    simp only [reserved]
    omega

theorem encodeMeta_eq (mode : BitpackingMode) (h : offset < 2 ^ 24) :
    encodeMeta mode offset = offset + mode.toByte * 2 ^ 24 := by
  rw [encodeMeta,Nat.lor_comm,← Nat.shiftLeft_add_eq_or_of_lt h,Nat.shiftLeft_eq]
  omega

theorem toByte_lt (mode : BitpackingMode) : mode.toByte < 6 := by
  cases mode <;> decide

theorem fromByte_toByte (mode : BitpackingMode) :
    BitpackingMode.fromByte mode.toByte = some mode := by
  cases mode <;> rfl

/-- The group is written at offset `a` of a block that starts at `base`, with its metadata
at the address `p`. -/
structure GroupAt (P : Packer t.bits) (env : Environment t) (m : Memory) (base p a : Nat)
    (g : Group t) :
    Prop where
  offset : a < 2 ^ 24
  data : m.read (base + a) (g.data.bytes P env.tmp).length = g.data.bytes P env.tmp
  metadata : m.load metadataSize p = encodeMeta g.data.mode a
  wellFormed : g.data.WellFormed g.count

namespace CompressState

variable {c : CompressState t} {groups : List (Group t)}

/-- The current block holds the groups. -/
structure Filled (P : Packer t.bits) (env : Environment t) (c : CompressState t)
    (groups : List (Group t)) :
    Prop where
  count : c.count = (groups.map Group.count).sum
  header : bitpackingHeaderSize ≤ c.dataPtr
  gap : c.dataPtr + 8 ≤ c.metadataPtr
  metadataPtr : c.metadataPtr + 4 * groups.length = blockSize
  groupAt : ∀ (j : Nat) (g : Group t), groups[j]? = some g → ∃ a, bitpackingHeaderSize ≤ a ∧
    a + (g.data.bytes P env.tmp).length ≤ c.dataPtr ∧
    GroupAt P env c.block 0 (blockSize - 4 * (j + 1)) a g

theorem filled_empty (c : CompressState t) (hcount : c.count = 0)
    (hdata : c.dataPtr = bitpackingHeaderSize)
    (hmeta : c.metadataPtr = blockSize) : Filled P env c [] := by
  refine ⟨by simpa using hcount,by rw [hdata],?_,by simpa using hmeta,by simp⟩
  rw [hdata,hmeta]
  decide

theorem Filled.canStore_zero (h : Filled P env c groups) : c.canStore 0 0 = true := by
  have hgap := h.gap
  have hheader : bitpackingHeaderSize = 8 := rfl
  have halign : alignValue 0 = 0 := rfl
  apply decide_eq_true
  omega

theorem Filled.gap_of_canStore (h : Filled P env c groups) (hs : c.canStore n metadataSize = true) :
    c.dataPtr + n + metadataSize + 8 ≤ c.metadataPtr := by
  have hgap := h.gap
  have hheader : bitpackingHeaderSize = 8 := rfl
  have hs' := of_decide_eq_true hs
  rw [hheader,alignValue] at hs'
  omega

theorem Filled.putGroup (h : Filled P env c groups) (hg : g.data.WellFormed g.count)
    (hgap : c.dataPtr + (g.data.bytes P env.tmp).length + metadataSize + 8 ≤ c.metadataPtr) :
    Filled P env (c.putGroup P env g) (groups ++ [g]) := by
  have hmeta := h.metadataPtr
  have hheader := h.header
  have hm4 : metadataSize = 4 := rfl
  have hblock : blockSize = 262136 := rfl
  constructor
  · simp [CompressState.putGroup,h.count]
  · simp only [CompressState.putGroup]
    omega
  · simp only [CompressState.putGroup]
    omega
  · simp only [CompressState.putGroup,List.length_append,List.length_singleton]
    omega
  intro j g' hj
  rcases BitpackingState.getElem?_append_singleton hj with hold | ⟨hlast,rfl⟩
  · -- an older group lies below the new data, and its metadata above the new metadata
    obtain ⟨a,ha,hend,hat⟩ := h.groupAt j g' hold
    obtain ⟨hlt,-⟩ := List.getElem?_eq_some_iff.mp hold
    refine ⟨a,ha,?_,hat.offset,?_,?_,hat.wellFormed⟩
    · simp only [CompressState.putGroup]
      omega
    · simp only [CompressState.putGroup]
      rw [read_write_of_disjoint (by omega),read_store_of_disjoint (by omega),hat.data]
    · simp only [CompressState.putGroup]
      rw [load_write_of_disjoint (by omega),load_store_of_disjoint (by omega),
        hat.metadata]
  · have hptr : blockSize - 4 * (j + 1) = c.metadataPtr - metadataSize := by
      omega
    have hoff : c.dataPtr < 2 ^ 24 := by omega
    refine ⟨c.dataPtr,hheader,le_rfl,hoff,?_,?_,hg⟩
    · simp only [CompressState.putGroup,zero_add]
      rw [read_write_same]
    simp only [CompressState.putGroup]
    rw [hptr,load_write_of_disjoint (by omega),load_store_same]
    have hbyte := toByte_lt g'.data.mode
    rw [encodeMeta_eq _ hoff,hm4]
    exact Nat.mod_eq_of_lt (by omega)

/-- Memory that holds a finished segment at `base`. -/
structure Stored (P : Packer t.bits) (env : Environment t) (m : Memory) (base size : Nat)
    (groups : List (Group t)) : Prop where
  header : m.load 8 base = size
  fits : 4 * groups.length ≤ size
  groupAt : ∀ (j : Nat) (g : Group t), groups[j]? = some g →
    ∃ a, GroupAt P env m base (base + size - 4 * (j + 1)) a g

theorem Filled.finishBlock (h : Filled P env c groups) : c.finishBlock.1 ≤ blockSize ∧
    ∀ (m : Memory) (base : Nat), m.read base c.finishBlock.1 =
      c.finishBlock.2.read 0 c.finishBlock.1 →
      Stored P env m base c.finishBlock.1 groups := by
  have hmeta := h.metadataPtr
  have hheader := h.header
  have hgap := h.gap
  have hm4 : metadataSize = 4 := rfl
  have h8 : bitpackingHeaderSize = 8 := rfl
  have hblock : blockSize = 262136 := rfl
  have hsize : c.finishBlock.1 = alignValue c.dataPtr + (blockSize - c.metadataPtr) := rfl
  have halign : c.dataPtr ≤ alignValue c.dataPtr ∧ alignValue c.dataPtr < c.dataPtr + 8 := by
    unfold alignValue
    omega
  refine ⟨by omega,?_⟩
  intro m base hm
  have hread : ∀ a n, a + n ≤ c.finishBlock.1 → m.read (base + a) n = c.finishBlock.2.read a n := by
    intro a n ha
    have hpart := read_part hm ha
    rwa [zero_add] at hpart
  refine ⟨?_,by omega,?_⟩
  · have hfirst := hread 0 8 (by omega)
    rw [add_zero] at hfirst
    rw [load,hfirst]
    change (store _ 8 0 c.finishBlock.1).load 8 0 = _
    rw [load_store_same]
    exact Nat.mod_eq_of_lt (by omega)
  intro j g hj
  obtain ⟨a,ha,hend,hat⟩ := h.groupAt j g hj
  obtain ⟨hlt,-⟩ := List.getElem?_eq_some_iff.mp hj
  refine ⟨a,hat.offset,?_,?_,hat.wellFormed⟩
  · rw [hread _ _ (by omega),CompressState.finishBlock,read_store_of_disjoint (by omega),
      read_move_of_disjoint (by omega)]
    have hdata := hat.data
    rwa [zero_add] at hdata
  -- the metadata was moved as a whole
  have haddr : base + c.finishBlock.1 - 4 * (j + 1) =
      base + (alignValue c.dataPtr + (4 * (groups.length - (j + 1)))) := by
    omega
  have hin : 4 * (groups.length - (j + 1)) + metadataSize ≤ blockSize - c.metadataPtr := by
    omega
  have hmoved := read_part
    (read_move_same c.block (alignValue c.dataPtr) c.metadataPtr (blockSize - c.metadataPtr)) hin
  have hsrc : c.metadataPtr + 4 * (groups.length - (j + 1)) =
      blockSize - 4 * (j + 1) := by
    omega
  rw [haddr,load,hread _ _ (by omega),CompressState.finishBlock,
    read_store_of_disjoint (by omega),hmoved,hsrc]
  exact hat.metadata

end CompressState

end PredTrans.Compression.Bitpacking
