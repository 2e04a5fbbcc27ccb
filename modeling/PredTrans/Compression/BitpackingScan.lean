import PredTrans.Compression.BitpackingSegments

/-! The reader is in some group at some offset. A round of its loops returns the next values of the
group and advances the offset, whatever the mode. -/

namespace PredTrans.Compression.Bitpacking

open Library BitpackingPrimitives GroupData CompressState List Memory

variable {t : IntegerType} {P : Packer t.bits} {env : Environment t} {m : Memory}

theorem loadValue_of_read (h : m.read a (valueBytes x).length = valueBytes x) :
    loadValue t m a = x := by
  have hlen : (valueBytes x).length = t.size := length_storeBytes _ _
  have hx : x.toNat < 256 ^ t.size := t.two_pow_bits ▸ x.isLt
  rw [hlen] at h
  rw [loadValue,load,h,valueBytes,loadBytes_storeBytes,Nat.mod_eq_of_lt hx,BitVec.ofNat_toNat,
    BitVec.setWidth_eq]

theorem loadValue_width (hw : width ≤ t.bits)
    (h : m.read a (storeBytes t.size width).length = storeBytes t.size width) :
    (loadValue t m a).toNat % 256 = width := by
  have hlt : width < 2 ^ t.bits := hw.trans_lt Nat.lt_two_pow_self
  have h256 : width < 256 := by
    have := t.size_le
    unfold IntegerType.bits at hw
    omega
  rw [length_storeBytes] at h
  rw [loadValue,load,h,loadBytes_storeBytes,BitVec.toNat_ofNat,← t.two_pow_bits,
    Nat.mod_eq_of_lt hlt,Nat.mod_eq_of_lt hlt,Nat.mod_eq_of_lt h256]

theorem unpackBlock_eq (P : Packer t.bits) (m : Memory) (src width : Nat) :
    unpackBlock P m src width = (unpackBuffer P m src 32 width).map (BitVec.ofNat t.bits) := by
  have h32 : roundUpToAlgorithmGroupSize 32 / 32 = 1 := rfl
  rw [unpackBlock,unpackBuffer,h32,Packer.unpackGroups,Packer.unpackGroups,append_nil]

/-- The buffer lies at the address in packed form. -/
def PackedAt (P : Packer t.bits) (env : Environment t) (m : Memory) (a width : Nat)
    (values : List Nat) : Prop :=
  m.read a (getRequiredSize values.length width) = packBuffer P env.tmp values width

theorem PackedAt.getElem? (h : PackedAt P env m a width values) (hw : width ≤ t.bits)
    (hk : k % 32 + i < 32) (hi : k + i < values.length) :
    (unpackBlock P m (a + (k - k % 32) * width / 8) width)[k % 32 + i]? =
      some (packedValue t width values (k + i)) := by
  have hround : k - k % 32 + 32 ≤ roundUpToAlgorithmGroupSize values.length := by
    rw [roundUp_eq]
    omega
  have hstart : (k - k % 32) % 32 = 0 := by omega
  have hv : values[k - k % 32 + (k % 32 + i)]? = some (values[k + i]) := by
    rw [show k - k % 32 + (k % 32 + i) = k + i by omega]
    exact getElem?_eq_getElem hi
  rw [unpackBlock_eq,getElem?_map,getElem?_unpackBuffer P env.length_tmp hw h hstart hround hk hv]
  simp [packedValue,hi]

theorem PackedAt.value (h : PackedAt P env m a width values) (hw : width ≤ t.bits)
    (hk : k < values.length) : (unpackBlock P m (a + (k - k % 32) * width / 8) width)[k % 32]? =
      some (packedValue t width values k) :=
  h.getElem? hw (i := 0) (by omega) hk

theorem position_eq (a k width : Nat) :
    a + k * width / 8 - k % 32 * width / 8 = a + (k - k % 32) * width / 8 := by
  have hk : k * width = (k / 32 * 4 * width) * 8 + k % 32 * width := by
    have hdiv : k = 32 * (k / 32) + k % 32 := (Nat.div_add_mod k 32).symm
    calc k * width = (32 * (k / 32) + k % 32) * width := by rw [← hdiv]
      _ = (k / 32 * 4 * width) * 8 + k % 32 * width := by ring
  have hsub : (k - k % 32) * width = (k / 32 * 4 * width) * 8 := by
    have hdiv : k - k % 32 = 32 * (k / 32) := by omega
    rw [hdiv]
    ring
  omega

theorem PackedAt.unpackFrom {st : ScanState t} (h : PackedAt P env m st.groupPtr st.width values)
    (hw : st.width ≤ t.bits) (hn : n ≤ 32 - st.groupOffset % 32)
    (hend : st.groupOffset + n ≤ values.length) :
    st.unpackFrom P m n = (range n).map (fun i => packedValue t st.width values
        (st.groupOffset + i)) := by
  apply ext_getElem?
  intro i
  by_cases hi : i < n
  · have hget := h.getElem? hw (i := i) (k := st.groupOffset) (by omega) (by omega)
    simp only [ScanState.unpackFrom,bitpackingAlgorithmGroupSize,position_eq,
      getElem?_take_of_lt hi,getElem?_drop,hget]
    simp [hi]
  · have hlen : (st.unpackFrom P m n).length ≤ n := by simp [ScanState.unpackFrom]
    rw [getElem?_eq_none_iff.mpr (by omega),getElem?_eq_none_iff.mpr (by simp; omega)]

theorem applyFrameOfReference_eq (frame : BitVec w) (values : List (BitVec w)) :
    applyFrameOfReference frame values = values.map (· + frame) := by
  unfold applyFrameOfReference
  split
  · rename_i h0
    simp [h0]
  · rfl

/-- The value that is added to the next delta. -/
def runningOffset (frame : BitVec t.bits) (width : Nat) (offset : BitVec t.bits) (values : List Nat)
    (k : Nat) : BitVec t.bits :=
  if k = 0 then offset else deltaSum frame width offset values (k - 1)

theorem deltaSum_eq (frame : BitVec t.bits) (width : Nat) (offset : BitVec t.bits)
    (values : List Nat)
    (k : Nat) : deltaSum frame width offset values k =
      packedValue t width values k + frame + runningOffset frame width offset values k := by
  cases k with
  | zero => rfl
  | succ k => simp [deltaSum,runningOffset]

theorem deltaDecode_eq (frame : BitVec t.bits) (width : Nat) (offset : BitVec t.bits)
    (values : List Nat)
    (k n : Nat) :
    deltaDecode (runningOffset frame width offset values k)
        ((range n).map (fun i => packedValue t width values (k + i) + frame)) =
      (range n).map (fun i => deltaSum frame width offset values (k + i)) := by
  induction n generalizing k with
  | zero => rfl
  | succ n ih =>
    have hshift : ∀ f : Nat → BitVec t.bits, (range (n + 1)).map (fun i => f (k + i)) =
        f k :: (range n).map (fun i => f (k + 1 + i)) := by
      intro f
      rw [range_succ_eq_map,map_cons,map_map]
      refine congrArg (cons _) (map_congr_left ?_)
      intro i _
      exact congrArg f (by omega)
    rw [hshift (fun i => packedValue t width values i + frame),
      hshift (fun i => deltaSum frame width offset values i),deltaDecode,← deltaSum_eq,← ih (k + 1)]
    rfl

/-- The fields of the state that belong to the mode of the group. -/
def FieldsLoaded (P : Packer t.bits) (env : Environment t) (m : Memory) (st : ScanState t) :
    GroupData t → Prop
  | constant value => st.constant = value
  | constantDelta frame delta => st.frameOfReference = frame ∧ st.constant = delta
  | deltaFor frame width offset values => st.frameOfReference = frame ∧ st.width = width ∧
      PackedAt P env m st.groupPtr width values ∧
      st.deltaOffset = runningOffset frame width offset values st.groupOffset
  | .frameOfReference frame width values => st.frameOfReference = frame ∧ st.width = width ∧
      PackedAt P env m st.groupPtr width values

/-- The state is in the group at its offset. -/
structure Loaded (P : Packer t.bits) (env : Environment t) (m : Memory) (st : ScanState t)
    (g : Group t) :
    Prop where
  mode : st.mode = g.data.mode
  fields : FieldsLoaded P env m st g.data
  wellFormed : g.data.WellFormed g.count

/-- The metadata gives back the mode and the offset. -/
theorem GroupAt.decodeMeta (h : GroupAt P env m base p a g) :
    m.load metadataSize p &&& 0xffffff = a ∧
      BitpackingMode.fromByte (m.load 1 (p + 3)) = some g.data.mode := by
  have hoffset := h.offset
  have hload := h.metadata
  have hmask : (0xffffff : Nat) = 2 ^ 24 - 1 := rfl
  rw [encodeMeta_eq _ hoffset] at hload
  constructor
  · rw [hmask,Nat.and_two_pow_sub_one_eq_mod,hload]
    omega
  have hsplit := load_add m 3 1 p
  have hlow := load_lt m 3 p
  change m.load metadataSize p = _ at hsplit
  have hmode : m.load 1 (p + 3) = g.data.mode.toByte := by omega
  rw [hmode,fromByte_toByte]

theorem loadNextGroup_spec {st : ScanState t} (h : GroupAt P env m base st.metadataPtr a g) :
    ∃ st', st.loadNextGroup m base = .ok st' ∧ Loaded P env m st' g ∧ st'.groupOffset = 0 ∧
      st'.metadataPtr = st.metadataPtr - 4 := by
  obtain ⟨hptr,hmode⟩ := h.decodeMeta
  have hdata := h.data
  have hwf := h.wellFormed
  unfold ScanState.loadNextGroup
  rw [hptr,hmode]
  obtain ⟨data,count⟩ := g
  cases data with
  | constant value =>
    refine ⟨_,rfl,⟨rfl,?_,hwf⟩,rfl,rfl⟩
    exact loadValue_of_read hdata
  | constantDelta frame delta =>
    obtain ⟨hframe,hdelta⟩ := read_append_inj hdata
    rw [valueBytes,length_storeBytes] at hdelta
    refine ⟨_,rfl,⟨rfl,⟨loadValue_of_read hframe,?_⟩,hwf⟩,rfl,rfl⟩
    exact loadValue_of_read (by simpa using hdelta)
  | deltaFor frame width offset values =>
    obtain ⟨hframe,hrest⟩ := read_append_inj hdata
    obtain ⟨hwidth,hrest⟩ := read_append_inj hrest
    obtain ⟨hoffset,hpacked⟩ := read_append_inj hrest
    have hl1 : (valueBytes frame).length = t.size := length_storeBytes _ _
    have hl2 : (valueBytes offset).length = t.size := length_storeBytes _ _
    rw [hl1] at hwidth hoffset hpacked
    rw [length_storeBytes] at hoffset hpacked
    rw [hl2] at hpacked
    have hw := loadValue_width hwf.1 hwidth
    refine ⟨_,rfl,⟨rfl,⟨loadValue_of_read hframe,hw,?_,?_⟩,hwf⟩,rfl,rfl⟩
    · rw [PackedAt,← length_packBuffer P env.length_tmp hwf.1]
      have haddr : base + a + 3 * t.size = base + a + t.size + t.size + t.size := by ring
      rw [haddr]
      exact hpacked
    · have haddr : base + a + 2 * t.size = base + a + t.size + t.size := by ring
      rw [haddr]
      exact loadValue_of_read (hl2 ▸ hoffset)
  | frameOfReference frame width values =>
    obtain ⟨hframe,hrest⟩ := read_append_inj hdata
    obtain ⟨hwidth,hpacked⟩ := read_append_inj hrest
    have hl1 : (valueBytes frame).length = t.size := length_storeBytes _ _
    rw [hl1] at hwidth hpacked
    rw [length_storeBytes] at hpacked
    have hw := loadValue_width hwf.1 hwidth
    refine ⟨_,rfl,⟨rfl,⟨loadValue_of_read hframe,hw,?_⟩,hwf⟩,rfl,rfl⟩
    rw [PackedAt,← length_packBuffer P env.length_tmp hwf.1]
    have haddr : base + a + 2 * t.size = base + a + t.size + t.size := by ring
    rw [haddr]
    exact hpacked

/-- What a round of the loops does in a group: it passes over `n` rows, the scan returns
their values, and both leave the same state. -/
structure RoundOf (P : Packer t.bits) (env : Environment t) (m : Memory) (st : ScanState t)
    (g : Group t)
    (remaining n : Nat) : Prop where
  pos : 0 < n
  le : n ≤ remaining
  inGroup : st.groupOffset + n ≤ metadataGroupSize
  skipped : (st.skipRound P m remaining).1 = n
  scanned : (st.scanRound P m remaining).1 = (range n).map
    (fun i => g.data.decode (st.groupOffset + i))
  sameState : (st.scanRound P m remaining).2 = (st.skipRound P m remaining).2
  loaded : Loaded P env m (st.skipRound P m remaining).2 g
  groupOffset : (st.skipRound P m remaining).2.groupOffset = st.groupOffset + n
  metadataPtr : (st.skipRound P m remaining).2.metadataPtr = st.metadataPtr

theorem getLastD_map_range (f : Nat → α) (hn : 0 < n) (d : α) :
    ((range n).map f).getLastD d = f (n - 1) := by
  obtain ⟨k,rfl⟩ := Nat.exists_eq_succ_of_ne_zero hn.ne'
  simp [range_succ]

/-- A skip and a scan that advance alike make a round. -/
theorem RoundOf.of_eq (d : BitVec t.bits) (hpos : 0 < n) (hle : n ≤ remaining)
    (hin : st.groupOffset + n ≤ metadataGroupSize) (hskip : st.skipRound P m remaining =
      (n, { st with deltaOffset := d, groupOffset := st.groupOffset + n }))
    (hscan : st.scanRound P m remaining =
      ((range n).map (fun i => g.data.decode (st.groupOffset + i)),
        { st with deltaOffset := d, groupOffset := st.groupOffset + n }))
    (hloaded : Loaded P env m { st with deltaOffset := d, groupOffset := st.groupOffset + n } g) :
    RoundOf P env m st g remaining n := by
  refine ⟨hpos,hle,hin,?_,?_,?_,?_,?_,?_⟩
  all_goals simp only [hskip,hscan]
  exact hloaded

theorem exists_roundOf (h : Loaded P env m st g) (hoff : st.groupOffset < metadataGroupSize)
    (hr : 0 < remaining)
    (hle : st.groupOffset + min remaining (metadataGroupSize - st.groupOffset) ≤ g.count) :
    ∃ n, RoundOf P env m st g remaining n := by
  have h2048 : metadataGroupSize = 2048 := rfl
  have hc : st.constantRound remaining = min remaining (metadataGroupSize - st.groupOffset) := rfl
  have hn : st.packedRound remaining = min remaining (32 - st.groupOffset % 32) := rfl
  have hpos : 0 < st.packedRound remaining := by omega
  obtain ⟨hmode,hfields,hwf⟩ := h
  obtain ⟨data,count⟩ := g
  cases data with
  | constant value =>
    change st.mode = .constant at hmode
    change st.constant = value at hfields
    refine ⟨st.constantRound remaining,.of_eq st.deltaOffset (by omega) (by omega) (by omega) ?_ ?_
      ⟨hmode,hfields,hwf⟩⟩
    · simp [ScanState.skipRound,hmode]
    · simp [ScanState.scanRound,hmode,hfields,decode]
  | constantDelta frame delta =>
    change st.mode = .constantDelta at hmode
    refine ⟨st.constantRound remaining,.of_eq st.deltaOffset (by omega) (by omega) (by omega) ?_ ?_
      ⟨hmode,hfields,hwf⟩⟩
    · simp [ScanState.skipRound,hmode]
    · simp [ScanState.scanRound,hmode,hfields.1,hfields.2,decode]
  | deltaFor frame width offset values =>
    change st.mode = .deltaFor at hmode
    obtain ⟨hframe,hwidth,hpacked,hdelta⟩ := hfields
    obtain ⟨hw,hlen⟩ := hwf
    have hend : st.groupOffset + st.packedRound remaining ≤ values.length := by
      omega
    have hvalues : st.decodeDeltas P m (st.packedRound remaining) =
        (range (st.packedRound remaining)).map
          (fun i => deltaSum frame width offset values (st.groupOffset + i)) := by
      have hunpack := PackedAt.unpackFrom (hwidth.symm ▸ hpacked) (hwidth.symm ▸ hw)
        (show st.packedRound remaining ≤ 32 - st.groupOffset % 32 by omega) hend
      rw [ScanState.decodeDeltas,hunpack,applyFrameOfReference_eq,hframe,hdelta,hwidth,map_map]
      exact deltaDecode_eq frame width offset values _ _
    refine ⟨_,.of_eq ((st.decodeDeltas P m (st.packedRound remaining)).getLastD st.deltaOffset) hpos
      (by omega) (by omega) ?_ ?_ ⟨hmode,⟨hframe,hwidth,hpacked,?_⟩,hw,hlen⟩⟩
    · simp [ScanState.skipRound,hmode]
    · simp [ScanState.scanRound,hmode,hvalues,decode]
    · dsimp only
      rw [hvalues,getLastD_map_range _ hpos,runningOffset,if_neg (by omega)]
      congr 1
      omega
  | frameOfReference frame width values =>
    change st.mode = .frameOfReference at hmode
    obtain ⟨hframe,hwidth,hpacked⟩ := hfields
    obtain ⟨hw,hlen⟩ := hwf
    have hend : st.groupOffset + st.packedRound remaining ≤ values.length := by
      omega
    have hunpack := PackedAt.unpackFrom (hwidth.symm ▸ hpacked) (hwidth.symm ▸ hw)
      (show st.packedRound remaining ≤ 32 - st.groupOffset % 32 by omega) hend
    refine ⟨st.packedRound remaining,.of_eq st.deltaOffset hpos (by omega) (by omega) ?_ ?_
      ⟨hmode,⟨hframe,hwidth,hpacked⟩,hw,hlen⟩⟩
    · simp [ScanState.skipRound,hmode]
    · simp [ScanState.scanRound,hmode,hunpack,applyFrameOfReference_eq,hframe,hwidth,decode]

/-- All groups but the last one are full. -/
def Regular : List (Group t) → Prop
  | [] => True
  | [g] => 0 < g.count ∧ g.count ≤ metadataGroupSize
  | g :: g' :: groups => g.count = metadataGroupSize ∧ Regular (g' :: groups)

theorem Regular.getElem? (h : Regular groups) (hj : groups[j]? = some g) :
    0 < g.count ∧ g.count ≤ 2048 ∧ (j + 1 < groups.length → g.count = 2048) ∧
      2048 * j + g.count ≤ (groups.map Group.count).sum ∧
      (j + 1 = groups.length → 2048 * j + g.count = (groups.map Group.count).sum) := by
  induction groups generalizing j with
  | nil => simp at hj
  | cons g₀ groups ih =>
    cases groups with
    | nil =>
      obtain ⟨hlt,hg⟩ := List.getElem?_eq_some_iff.mp hj
      simp only [length_singleton] at hlt
      have hj0 : j = 0 := by omega
      subst hj0
      subst hg
      exact ⟨h.1,h.2,by simp,by simp,by simp⟩
    | cons g₁ groups =>
      obtain ⟨hfull,hrest⟩ := h
      have hfull' : g₀.count = 2048 := hfull
      cases j with
      | zero =>
        obtain rfl := Option.some.inj hj
        refine ⟨by omega,by omega,fun _ => hfull',?_,?_⟩
        · simp
        · simp
      | succ j =>
        obtain ⟨hpos,hle,hlast,hsum,hend⟩ := ih hrest hj
        rw [map_cons,sum_cons,hfull']
        refine ⟨hpos,hle,?_,by omega,?_⟩
        · intro hlt
          apply hlast
          simpa using hlt
        · intro hlen
          have := hend (by simpa using hlen)
          omega

/-- The value at a row of the segment. -/
def valueAt (groups : List (Group t)) (p : Nat) : Option (BitVec t.bits) :=
  (groups[p / 2048]?).map (fun g => g.data.decode (p % 2048))

/-- The reader is at row `p` of the segment. -/
def At (P : Packer t.bits) (env : Environment t) (m : Memory) (base size : Nat)
    (groups : List (Group t))
    (st : ScanState t) (p : Nat) : Prop :=
  ∃ j g, groups[j]? = some g ∧ Loaded P env m st g ∧ p = 2048 * j + st.groupOffset ∧
    st.groupOffset ≤ g.count ∧ st.metadataPtr = base + size - 4 * (j + 2)

section Loops

variable {base size : Nat} {groups : List (Group t)} {st : ScanState t} {p : Nat}

theorem initScan_spec (hs : Stored P env m base size groups) (hne : groups ≠ [])
    (raw : ScanState t) :
    ∃ st, ScanState.initScan m base raw = .ok st ∧ At P env m base size groups st 0 := by
  obtain ⟨g,rest,rfl⟩ := exists_cons_of_ne_nil hne
  obtain ⟨a,hat⟩ := hs.groupAt 0 g rfl
  have hptr : base + m.load 8 base - metadataSize = base + size - 4 * (0 + 1) := by
    rw [hs.header]
    rfl
  have hat' : GroupAt P env m base
      ({ raw with metadataPtr := base + m.load 8 base - metadataSize } : ScanState t).metadataPtr
          a g := by
    rw [hptr]
    exact hat
  obtain ⟨st,hst,hload,hoff,hmeta⟩ := loadNextGroup_spec hat'
  dsimp only at hmeta
  refine ⟨st,hst,0,g,rfl,hload,by omega,by omega,?_⟩
  omega

/-- Before the end of the segment there is a group to read from. -/
theorem At.nextIfExhausted (hs : Stored P env m base size groups) (hreg : Regular groups)
    (h : At P env m base size groups st p) (hp : p < (groups.map Group.count).sum) :
    ∃ st' j g, st.nextIfExhausted m base = .ok st' ∧ groups[j]? = some g ∧ Loaded P env m st' g ∧
      p = 2048 * j + st'.groupOffset ∧ st'.groupOffset < g.count ∧
      st'.metadataPtr = base + size - 4 * (j + 2) := by
  obtain ⟨j,g,hj,hload,hpos,hle,hmeta⟩ := h
  obtain ⟨hcpos,hcle,hfull,hsum,hend⟩ := hreg.getElem? hj
  obtain ⟨hjlt,-⟩ := List.getElem?_eq_some_iff.mp hj
  have h2048 : metadataGroupSize = 2048 := rfl
  by_cases hex : st.groupOffset ≥ metadataGroupSize
  · have hnext : j + 1 < groups.length := by
      by_contra hlast
      omega
    have hj' : groups[j + 1]? = some groups[j + 1] := getElem?_eq_getElem hnext
    obtain ⟨a,hat⟩ := hs.groupAt (j + 1) _ hj'
    have hptr : base + size - 4 * (j + 1 + 1) = st.metadataPtr := by omega
    obtain ⟨st',hst',hload',hoff',hmeta'⟩ := loadNextGroup_spec (hptr ▸ hat)
    have hcount := (hreg.getElem? hj').1
    refine ⟨st',j + 1,_,?_,hj',hload',by omega,by omega,by omega⟩
    rw [ScanState.nextIfExhausted,if_pos hex,hst']
  · refine ⟨st,j,g,?_,hj,hload,hpos,?_,hmeta⟩
    · rw [ScanState.nextIfExhausted,if_neg hex]
    · by_cases hnext : j + 1 < groups.length
      · omega
      · omega

theorem valueAt_eq (hj : groups[j]? = some g) (hk : k < 2048) :
    valueAt groups (2048 * j + k) = some (g.data.decode k) := by
  have hdiv : (2048 * j + k) / 2048 = j := by omega
  have hmod : (2048 * j + k) % 2048 = k := by omega
  rw [valueAt,hdiv,hmod,hj]
  rfl

/-- The loops of the scan and of the skip pass over the same rows and end in the same
state, and the scan returns the values of the rows. -/
theorem At.loops (hs : Stored P env m base size groups) (hreg : Regular groups)
    (h : At P env m base size groups st p) (hfuel : remaining ≤ fuel)
    (hp : p + remaining ≤ (groups.map Group.count).sum) :
    ∃ values st', ScanState.scanLoop P m base fuel st remaining = .ok (values, st') ∧
      ScanState.skipLoop P m base fuel st remaining = .ok st' ∧
      At P env m base size groups st' (p + remaining) ∧
      values.map some = (range remaining).map (fun i => valueAt groups (p + i)) := by
  induction fuel generalizing st p remaining with
  | zero =>
    have h0 : remaining = 0 := by omega
    subst h0
    exact ⟨[],st,rfl,rfl,h,rfl⟩
  | succ fuel ih =>
    by_cases h0 : remaining = 0
    · subst h0
      exact ⟨[],st,rfl,rfl,h,rfl⟩
    obtain ⟨st₁,j,g,hnext,hj,hload,hpos,hlt,hmeta⟩ := h.nextIfExhausted hs hreg (by omega)
    obtain ⟨hcpos,hcle,hfull,hsum,hend⟩ := hreg.getElem? hj
    obtain ⟨hjlt,-⟩ := List.getElem?_eq_some_iff.mp hj
    have h2048 : metadataGroupSize = 2048 := rfl
    have hinGroup : st₁.groupOffset + min remaining (metadataGroupSize - st₁.groupOffset) ≤
        g.count := by
      by_cases hn : j + 1 < groups.length
      · omega
      · omega
    obtain ⟨n,hround⟩ := exists_roundOf hload (by omega) (by omega) hinGroup
    have hn := hround.pos
    have hnle := hround.le
    have hin := hround.inGroup
    have hat : At P env m base size groups (st₁.skipRound P m remaining).2 (p + n) := by
      refine ⟨j,g,hj,hround.loaded,?_,?_,?_⟩
      · rw [hround.groupOffset]
        omega
      · rw [hround.groupOffset]
        by_cases hnx : j + 1 < groups.length
        · omega
        · omega
      · rw [hround.metadataPtr,hmeta]
    have hfuel' : remaining - n ≤ fuel := by omega
    obtain ⟨values,st',hscan,hskip,hat',hvalues⟩ := ih hat hfuel' (by omega)
    have hlen : (st₁.scanRound P m remaining).1.length = n := by
      rw [hround.scanned]
      simp
    refine ⟨(st₁.scanRound P m remaining).1 ++ values,st',?_,?_,?_,?_⟩
    · simp only [ScanState.scanLoop,if_neg h0,hnext,hlen,hround.sameState,hscan]
    · simp only [ScanState.skipLoop,if_neg h0,hnext,hround.skipped,hskip]
    · rwa [show p + n + (remaining - n) = p + remaining by omega] at hat'
    have hfirst : (st₁.scanRound P m remaining).1.map some =
        (range n).map (fun i => valueAt groups (p + i)) := by
      rw [hround.scanned,map_map]
      apply map_congr_left
      intro i hi
      rw [mem_range] at hi
      rw [Function.comp,hpos,add_assoc,valueAt_eq hj (by omega)]
    have hsplit : range remaining = range n ++ (range (remaining - n)).map (n + ·) := by
      rw [← range_add,Nat.add_sub_of_le hnle]
    rw [map_append,hfirst,hvalues,hsplit,map_append,map_map]
    congr 1
    apply map_congr_left
    intro i _
    rw [Function.comp,add_assoc]

end Loops

end PredTrans.Compression.Bitpacking
