import PredTrans.Compression.BitpackingAnalyze
import PredTrans.Compression.BitpackingScan

/-!
# Bitpacking gives back its input
-/

namespace PredTrans.Compression.Bitpacking

open Library BitpackingPrimitives GroupData CompressState List BitpackingState

variable {t : IntegerType} {P : Packer t.bits} {env : Environment t} {m : Memory}

def ReadCall.count : ReadCall → Nat
  | skip n => n
  | scanPartial n => n

/-- From row `p` on, the calls stay inside a segment of `n` rows: a scan may reach its end,
a skip stops before it. -/
def Inside (n : Nat) : Nat → List ReadCall → Prop
  | _, [] => True
  | p, .skip k :: calls => p + k < n ∧ Inside n (p + k) calls
  | p, .scanPartial k :: calls => p + k ≤ n ∧ Inside n (p + k) calls

section Reading

variable {base size : Nat} {groups : List (Group t)} {st : ScanState t} {p : Nat}

section

variable (hs : Stored P env m base size groups) (hreg : Regular groups)
include hs hreg

theorem At.skip (h : At P env m base size groups st p) (hp : p + n < (groups.map Group.count).sum) :
    ∃ st' j g, st.skip P m base n = .ok st' ∧ groups[j]? = some g ∧ Loaded P env m st' g ∧
      p + n = 2048 * j + st'.groupOffset ∧ st'.groupOffset < g.count ∧
      st'.metadataPtr = base + size - 4 * (j + 2) := by
  obtain ⟨-,st₁,-,hskip,hat,-⟩ := h.loops hs hreg le_rfl hp.le
  obtain ⟨st₂,j,g,hnext,hrest⟩ := hat.nextIfExhausted hs hreg hp
  refine ⟨st₂,j,g,?_,hrest⟩
  rw [ScanState.skip,hskip]
  exact hnext

theorem At.readCalls
    (h : At P env m base size groups st p) (hin : Inside (groups.map Group.count).sum p calls) :
    ∃ values, readCalls P m base st calls = .ok values ∧
      values.length = (calls.map ReadCall.count).sum ∧
      ∀ (i : Nat) x, values[i]? = some (some x) → valueAt groups (p + i) = some x := by
  induction calls generalizing st p with
  | nil => exact ⟨[],rfl,rfl,by simp⟩
  | cons call calls ih =>
    cases call with
    | skip n =>
      obtain ⟨hlt,hrest⟩ := hin
      obtain ⟨st',j,g,hskip,hj,hload,hpos,hoff,hmeta⟩ := h.skip hs hreg hlt
      have hat : At P env m base size groups st' (p + n) := ⟨j,g,hj,hload,hpos,hoff.le,hmeta⟩
      obtain ⟨values,hvalues,hlen,hget⟩ := ih hat hrest
      refine ⟨List.replicate n none ++ values,?_,?_,?_⟩
      · simp only [Bitpacking.readCalls,hskip,hvalues]
      · simp [hlen,ReadCall.count]
      intro i x hi
      rw [getElem?_append] at hi
      split at hi
      · simp [getElem?_replicate] at hi
      · rename_i hge
        simp only [length_replicate] at hge hi
        have hx := hget _ x hi
        rwa [show p + n + (i - n) = p + i by omega] at hx
    | scanPartial n =>
      obtain ⟨hle,hrest⟩ := hin
      obtain ⟨scanned,st',hscan,-,hat,hmap⟩ := h.loops hs hreg le_rfl hle
      have hscan' : st.scanPartial P m base n = .ok (scanned, st') := hscan
      obtain ⟨values,hvalues,hlen,hget⟩ := ih hat hrest
      have hn : scanned.length = n := by
        have := congrArg List.length hmap
        simpa using this
      refine ⟨scanned.map some ++ values,?_,?_,?_⟩
      · simp only [Bitpacking.readCalls,hscan',hvalues]
      · simp [hlen,hn,ReadCall.count]
      intro i x hi
      rw [hmap,getElem?_append] at hi
      simp only [length_map,length_range] at hi
      split at hi
      · rename_i hlt
        simpa [hlt] using hi
      · have hx := hget _ x hi
        rwa [show p + n + (i - n) = p + i by omega] at hx

theorem fetchRow_spec (raw : ScanState t) (hrow : row < (groups.map Group.count).sum) :
    fetchRow P m base raw row = .ok (valueAt groups row) := by
  have hne : groups ≠ [] := by
    rintro rfl
    simp at hrow
  obtain ⟨st,hinit,hat⟩ := initScan_spec hs hne raw
  obtain ⟨st',j,g,hskip,hj,hload,hpos,hoff,-⟩ := hat.skip hs hreg (by rwa [zero_add])
  have hcount := (hreg.getElem? hj).2.1
  have hvalue : valueAt groups row = some (g.data.decode st'.groupOffset) := by
    rw [← valueAt_eq hj (show st'.groupOffset < 2048 by omega)]
    congr 1
    omega
  obtain ⟨hmode,hfields,hwf⟩ := hload
  rw [hvalue]
  simp only [fetchRow,hinit,hskip]
  obtain ⟨data,count⟩ := g
  cases data with
  | constant value =>
    change st'.mode = .constant at hmode
    change st'.constant = value at hfields
    simp [hmode,hfields,decode]
  | constantDelta frame delta =>
    change st'.mode = .constantDelta at hmode
    obtain ⟨hframe,hdelta⟩ := hfields
    simp [hmode,hframe,hdelta,decode]
  | deltaFor frame width offset values =>
    change st'.mode = .deltaFor at hmode
    obtain ⟨hframe,hwidth,hpacked,hdelta⟩ := hfields
    have hget := hpacked.value hwf.1 (hwf.2.symm ▸ hoff)
    simp [hmode,hframe,hdelta,hwidth,bitpackingAlgorithmGroupSize,hget,decode,deltaSum_eq]
  | frameOfReference frame width values =>
    change st'.mode = .frameOfReference at hmode
    obtain ⟨hframe,hwidth,hpacked⟩ := hfields
    have hget := hpacked.value hwf.1 (hwf.2.symm ▸ hoff)
    simp [hmode,hframe,hwidth,bitpackingAlgorithmGroupSize,hget,decode]

end

end Reading

section Rows

variable {groups : List (Group t)} {rows rows' : List (BitVec t.bits × Bool)}

/-- Full groups stand for the rows. -/
structure Represents (groups : List (Group t)) (rows : List (BitVec t.bits × Bool)) : Prop where
  count : rows.length = (groups.map Group.count).sum
  value : ∀ (p : Nat) v, rows[p]? = some (v, true) → valueAt groups p = some v

def Full (groups : List (Group t)) : Prop := ∀ g ∈ groups, g.count = 2048

theorem Full.sum (h : Full groups) : (groups.map Group.count).sum = 2048 * groups.length := by
  induction groups with
  | nil => rfl
  | cons g groups ih =>
    rw [map_cons,sum_cons,h g mem_cons_self,
      ih (forall_mem_cons.mp h).2,length_cons]
    omega

theorem Full.regular_append (h : Full groups) (hpos : 0 < g.count)
    (hle : g.count ≤ metadataGroupSize) : Regular (groups ++ [g]) := by
  induction groups with
  | nil => exact ⟨hpos,hle⟩
  | cons g₀ groups ih =>
    have hrest := ih (forall_mem_cons.mp h).2
    cases groups with
    | nil | cons g₁ groups => exact ⟨h g₀ mem_cons_self,hrest⟩

theorem Full.regular (h : Full groups) : Regular groups := by
  rcases eq_nil_or_concat' groups with rfl | ⟨l,g,rfl⟩
  · trivial
  · have hg := h g (by simp)
    exact Full.regular_append (fun g' hg' => h g' (mem_append_left _ hg')) (by omega)
      (hg.trans_le (by decide))

theorem Represents.append (h : Represents groups rows) (hfull : Full groups)
    (hg : BitpackingState.Encodes g rows') (hle : g.count ≤ 2048) :
    Represents (groups ++ [g]) (rows ++ rows') := by
  obtain ⟨hcount,-,hdecode⟩ := hg
  have hlen := h.count
  rw [hfull.sum] at hlen
  constructor
  · rw [length_append,map_append,sum_append,← h.count,← hcount]
    simp
  intro p v hv
  rw [getElem?_append] at hv
  split at hv
  · have hold := h.value p v hv
    rw [valueAt,getElem?_append_left (by omega)]
    exact hold
  · obtain ⟨hlt,-⟩ := List.getElem?_eq_some_iff.mp hv
    have hp : p = 2048 * groups.length + (p - rows.length) := by omega
    have hlast : (groups ++ [g])[groups.length]? = some g := by simp
    rw [hp,valueAt_eq hlast (by omega),hdecode _ v hv]

end Rows

/-- The segment stores the rows: wherever its bytes are copied to, the reader returns the
stored values. -/
structure SegmentEncodes (P : Packer t.bits) (s : Segment) (rows : List (BitVec t.bits × Bool)) :
    Prop where
  count : s.count = rows.length
  size : s.size ≤ blockSize
  calls : ∀ m base raw, m.read base s.size = s.block.read 0 s.size →
    ∃ st : ScanState t, ScanState.initScan m base raw = .ok st ∧ ∀ calls, Inside s.count 0 calls →
      ∃ values, readCalls P m base st calls = .ok values ∧
        values.length = (calls.map ReadCall.count).sum ∧
        ∀ (i : Nat) x v, values[i]? = some (some x) → rows[i]? = some (v, true) → x = v
  fetch : ∀ m base raw, m.read base s.size = s.block.read 0 s.size →
    ∀ (i : Nat) v, rows[i]? = some (v, true) → fetchRow P m base raw i = .ok (some v)

theorem segmentEncodes (h : Filled P env c groups) (hreg : Regular groups)
    (hrep : Represents groups rows) (hne : c.count ≠ 0) :
    SegmentEncodes P ⟨c.start, c.count, c.finishBlock.1, c.finishBlock.2⟩ rows := by
  obtain ⟨hsize,hstored⟩ := h.finishBlock
  have hcount := h.count
  have hgroups : groups ≠ [] := by
    rintro rfl
    exact hne (by simpa using hcount)
  refine ⟨hcount.trans hrep.count.symm,hsize,?_,?_⟩
  · intro m base raw hm
    have hs := hstored m base hm
    obtain ⟨st,hinit,hat⟩ := initScan_spec hs hgroups raw
    refine ⟨st,hinit,?_⟩
    intro calls hin
    obtain ⟨values,hvalues,hlen,hget⟩ := hat.readCalls hs hreg (hcount ▸ hin)
    refine ⟨values,hvalues,hlen,?_⟩
    intro i x v hi hrow
    have hx := hget i x hi
    rw [zero_add,hrep.value i v hrow] at hx
    exact (Option.some.inj hx).symm
  · intro m base raw hm i v hrow
    obtain ⟨hlt,-⟩ := List.getElem?_eq_some_iff.mp hrow
    rw [fetchRow_spec (hstored m base hm) hreg raw (hrep.count ▸ hlt),hrep.value i v hrow]

section Writing

variable {rowStart : Nat} {c : CompressState t} {done all : List (BitVec t.bits × Bool)}
  {groups : List (Group t)}

/-- The flushed segments and the groups of the current one store the rows. -/
structure Stores (P : Packer t.bits) (env : Environment t) (rowStart : Nat) (c : CompressState t)
    (groups : List (Group t)) (rows : List (BitVec t.bits × Bool)) : Prop where
  filled : Filled P env c groups
  covers : ∃ done current, rows = done ++ current ∧
    Covers (SegmentEncodes P) rowStart c.flushed done ∧
    c.start = rowStart + done.length ∧ Represents groups current

theorem Stores.flushSegment (h : Stores P env rowStart c groups all) (hreg : Regular groups) :
    ∃ segments, c.flushSegment = .ok segments ∧ Covers (SegmentEncodes P) rowStart segments all ∧
      c.start + c.count = rowStart + all.length := by
  obtain ⟨hfilled,done,current,rfl,hcov,hstart,hrep⟩ := h
  have hcount : c.count = current.length := hfilled.count.trans hrep.count.symm
  have hlen : c.start + c.count = rowStart + (done ++ current).length := by
    rw [length_append]
    omega
  unfold flushSegment
  rw [hfilled.canStore_zero]
  split
  · rename_i h0
    simp at h0
  split
  · rename_i h0
    have hnil : current = [] := length_eq_zero_iff.mp (hcount ▸ h0)
    refine ⟨_,rfl,?_,hlen⟩
    rwa [hnil,append_nil]
  · rename_i hne
    exact ⟨_,rfl,hcov.append (segmentEncodes hfilled hreg hrep hne) hcount hstart,hlen⟩

/-- A group is written to the current segment, or to a new one if it is full. -/
theorem Stores.writeGroup (h : Stores P env rowStart c groups all) (hfull : Full groups)
    (hg : BitpackingState.Encodes g rows) (hle : g.count ≤ metadataGroupSize) :
    ∃ c' groups', c.writeGroup P env g = .ok c' ∧ c'.state = c.state ∧ Full groups' ∧
      Stores P env rowStart c' (groups' ++ [g]) (all ++ rows) := by
  obtain ⟨hcount,hwf,hdecode⟩ := hg
  have hbytes : (g.data.bytes P env.tmp).length = g.data.reserved t g.count := length_bytes hwf
  unfold CompressState.writeGroup CompressState.flushAndCreateSegmentIfFull
  by_cases hs : c.canStore (g.data.reserved t g.count) metadataSize = true
  · rw [if_pos hs]
    obtain ⟨hfilled,done,current,rfl,hcov,hstart,hrep⟩ := h
    have hgap := hfilled.gap_of_canStore hs
    refine ⟨_,groups,rfl,rfl,hfull,hfilled.putGroup hwf (by omega),done,current ++ rows,?_,hcov,
      hstart,hrep.append hfull ⟨hcount,hwf,hdecode⟩ hle⟩
    rw [append_assoc]
  rw [if_neg hs]
  obtain ⟨segments,hseg,hcov,hstart⟩ := h.flushSegment hfull.regular
  have hres := reserved_le hle hwf
  simp only [hseg]
  have hempty : Filled P env ({ c with flushed := segments }.createEmptySegment env
      (c.start + c.count)) [] :=
    filled_empty _ rfl rfl rfl
  refine ⟨_,[],rfl,rfl,by simp [Full],hempty.putGroup hwf ?_,all,rows,rfl,hcov,hstart,?_⟩
  · have h1 : ({ c with flushed := segments }.createEmptySegment env (c.start + c.count)).dataPtr =
      8 := rfl
    have h2 : ({ c with flushed := segments }.createEmptySegment env
        (c.start + c.count)).metadataPtr = 262136 := rfl
    have h3 : metadataSize = 4 := rfl
    omega
  · have hnone : Represents ([] : List (Group t)) [] := ⟨rfl,by simp⟩
    have hone := hnone.append (by simp [Full]) ⟨hcount,hwf,hdecode⟩ hle
    simpa using hone

/-- The rows taken in: those in written groups, and those of the group being collected. -/
def Runs (P : Packer t.bits) (env : Environment t) (rowStart : Nat) (c : CompressState t)
    (all : List (BitVec t.bits × Bool)) : Prop :=
  ∃ groups written rows, all = written ++ rows ∧ Full groups ∧
    Stores P env rowStart c groups written ∧
    BitpackingState.Collects c.state rows ∧ rows.length < metadataGroupSize

theorem flush_written {st : BitpackingState t} {mode : BitpackingMode} (hcount : st.count ≠ 0)
    (hf : (st.flush mode).1 ≠ .failed) : ∃ g, (st.flush mode).1 = .written g := by
  cases hr : (st.flush mode).1 with
  | written g => exact ⟨g,rfl⟩
  | failed => exact absurd hr hf
  | nothing =>
    unfold flush at hr
    rw [if_neg hcount] at hr
    split at hr
    · cases hr
    split at hr
    · unfold flushFor at hr
      dsimp only at hr
      split at hr <;> cases hr
    split at hr
    · cases hr
    dsimp only at hr
    split at hr
    · cases hr
    · unfold flushFor at hr
      dsimp only at hr
      split at hr <;> cases hr

theorem Runs.write (h : Runs P env rowStart c all) {mode : BitpackingMode} {value : BitVec t.bits}
    (hf : (c.state.update mode value valid).1 ≠ .failed) :
    ∃ c', c.write P env (c.state.update mode value valid) = .ok c' ∧
      c'.state = (c.state.update mode value valid).2 ∧
          Runs P env rowStart c' (all ++ [(value, valid)]) := by
  obtain ⟨groups,written,rows,rfl,hfull,hstores,hcol,hlt⟩ := h
  have hadd := hcol.add value valid
  have hcount := hadd.count
  rw [length_append,length_singleton] at hcount
  by_cases hend : (c.state.add value valid).count = metadataGroupSize
  · have hupdate : c.state.update mode value valid =
        (((c.state.add value valid).flush mode).1,
            .reset ((c.state.add value valid).flush mode).2.buffer) := by
      simp [update,hend]
    rw [hupdate] at hf ⊢
    obtain ⟨g,hg⟩ := flush_written (by rw [hend]; decide) hf
    have henc := hadd.flush hg
    have hle : g.count ≤ metadataGroupSize := by
      rw [henc.1,length_append,length_singleton]
      omega
    have hfull' : g.count = 2048 := by
      have h2048 : metadataGroupSize = 2048 := rfl
      rw [henc.1,length_append,length_singleton]
      omega
    have hstores' : Stores P env rowStart
        { c with state := .reset ((c.state.add value valid).flush mode).2.buffer } groups written :=
      ⟨{ hstores.filled with },hstores.covers⟩
    obtain ⟨c',groups',hc',hstate,hfulls,hst⟩ := hstores'.writeGroup hfull henc hle
    refine ⟨c',?_,hstate,groups' ++ [g],_,[],(append_nil _).symm,?_,?_,?_,Nat.succ_pos _⟩
    · simp only [write,hg,hc']
    · intro g' hmem
      rcases mem_append.mp hmem with hmem | hmem
      · exact hfulls g' hmem
      · rw [mem_singleton.mp hmem,hfull']
    · rwa [append_assoc]
    · rw [hstate]
      exact collects_reset _
  · have hupdate : c.state.update mode value valid = (.nothing, c.state.add value valid) := by
      simp [update,hend]
    rw [hupdate]
    refine ⟨{ c with state := c.state.add value valid },rfl,rfl,groups,written,rows ++
      [(value, valid)],
      by simp,hfull,?_,hadd,?_⟩
    · exact ⟨{ hstores.filled with },hstores.covers⟩
    · rw [length_append,length_singleton]
      omega

/-- What the analysis accepts, the compression takes in. -/
theorem Runs.append (h : Runs P env rowStart c all) {mode : BitpackingMode}
    (hsim : BitpackingState.Similar st c.state) (hok : analyze mode st rows = some st') :
    ∃ c', c.append P env mode rows = .ok c' ∧ BitpackingState.Similar st' c'.state ∧
      Runs P env rowStart c' (all ++ rows) := by
  induction rows generalizing c all st with
  | nil =>
    obtain rfl := Option.some.inj hok
    exact ⟨c,rfl,hsim,by simpa using h⟩
  | cons row rows ih =>
    obtain ⟨value,valid⟩ := row
    obtain ⟨hsim',hfailed⟩ := hsim.update mode value valid
    have hstep : (st.update mode value valid).1 ≠ .failed ∧
        analyze mode (st.update mode value valid).2 rows = some st' := by
      unfold analyze at hok
      generalize st.update mode value valid = r at hok ⊢
      obtain ⟨result,st₁⟩ := r
      cases result with
      | failed => cases hok
      | nothing | written g => exact ⟨by simp,hok⟩
    obtain ⟨c₁,hc₁,hstate,hruns⟩ := h.write (fun hf => hstep.1 (hfailed hf))
    obtain ⟨c₂,hc₂,hsim₂,hruns₂⟩ := ih hruns (hstate ▸ hsim') hstep.2
    refine ⟨c₂,?_,hsim₂,by simpa using hruns₂⟩
    simp only [append,hc₁,hc₂]

theorem Runs.finalize (h : Runs P env rowStart c all) {mode : BitpackingMode}
    (hf : (c.state.flush mode).1 ≠ .failed) :
    ∃ c' segments, c.write P env (c.state.flush mode) = .ok c' ∧ c'.flushSegment = .ok segments ∧
      Covers (SegmentEncodes P) rowStart segments all := by
  obtain ⟨groups,written,rows,rfl,hfull,hstores,hcol,hlt⟩ := h
  have hstores' : Stores P env rowStart { c with state := (c.state.flush mode).2 } groups written :=
    ⟨{ hstores.filled with },hstores.covers⟩
  by_cases h0 : c.state.count = 0
  · have hflush : (c.state.flush mode).1 = .nothing := by
      simp [flush,h0]
    have hnil : rows = [] := length_eq_zero_iff.mp (hcol.count ▸ h0)
    obtain ⟨segments,hseg,hcov,-⟩ := hstores'.flushSegment hfull.regular
    refine ⟨_,segments,?_,hseg,?_⟩
    · simp only [CompressState.write,hflush]
    · rwa [hnil,append_nil]
  · obtain ⟨g,hg⟩ := flush_written h0 hf
    have henc := hcol.flush hg
    have hle : g.count ≤ metadataGroupSize := by
      rw [henc.1]
      exact hlt.le
    obtain ⟨c',groups',hc',-,hfulls,hst⟩ := hstores'.writeGroup hfull henc hle
    have hpos : 0 < g.count := by
      rw [henc.1,← hcol.count]
      omega
    obtain ⟨segments,hseg,hcov,-⟩ := hst.flushSegment (hfulls.regular_append hpos hle)
    refine ⟨c',segments,?_,hseg,hcov⟩
    simp only [CompressState.write,hg,hc']

end Writing

/-- What the analysis accepts is compressed without a size error, and its segments store it. -/
theorem bitpacking_covers (P : Packer t.bits) (env : Environment t) (mode : BitpackingMode)
    (rowStart : Nat)
    (buffer : Nat → BitVec t.bits) (rows : List (BitVec t.bits × Bool))
    (hok : accepts mode buffer rows = true) :
    ∃ segments, compress P env mode rowStart rows = .ok segments ∧
      Covers (SegmentEncodes P) rowStart segments rows := by
  unfold accepts at hok
  split at hok
  · cases hok
  rename_i st hst
  have hinit : Runs P env rowStart (initial env rowStart) [] :=
    ⟨[],[],[],rfl,by simp [Full],
      ⟨filled_empty _ rfl rfl rfl,[],[],rfl,rfl,rfl,⟨rfl,by simp⟩⟩,
      collects_reset _,Nat.succ_pos _⟩
  have hsim : BitpackingState.Similar (reset buffer)
      (initial env rowStart).state := similar_reset _ _
  obtain ⟨c,hc,hsim',hruns⟩ := hinit.append hsim hst
  have hnot : (st.flush mode).1 ≠ .failed := by
    intro hfail
    rw [hfail] at hok
    cases hok
  obtain ⟨c',segments,hc',hseg,hcov⟩ := hruns.finalize (fun hf => hnot (hsim'.flush_failed hf))
  refine ⟨segments,?_,by simpa using hcov⟩
  simp only [compress,hc,hc',hseg]

theorem bitpacking_covers_mixed :
    ∃ segments, compress (t := .int8) (bitStream 8)
      ⟨fun _ => 0, List.replicate 32 9, rfl, fun _ => 0⟩ .auto 0
        [(100, true), (3, true), (0, false), (-20, true)] = .ok segments ∧
      Covers (SegmentEncodes (t := .int8) (bitStream 8)) 0 segments
        [(100, true), (3, true), (0, false), (-20, true)] :=
  bitpacking_covers (t := .int8) (bitStream 8)
    ⟨fun _ => 0,List.replicate 32 9,rfl,fun _ => 0⟩ .auto 0
    (fun _ => 1) [(100, true),(3, true),(0, false),(-20, true)] (by decide)

end PredTrans.Compression.Bitpacking
