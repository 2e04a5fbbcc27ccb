import PredTrans.Join.ProbeSpec

/-! The result of a join in terms of its two inputs, and that probing all chunks against a table and
scanning the table afterwards produces it. -/

namespace PredTrans.Join

open List Library ScanStructure JoinConfig

variable {n : Nat} {V L P : Type}

def bothSides (pair : TupleRow n V L × TupleRow n V P) : ResultRow L P :=
  (some pair.1.payload, some pair.2.payload)

def leftOnly (row : TupleRow n V L) : ResultRow L P := (some row.payload, none)

def rightOnly (row : TupleRow n V P) : ResultRow L P := (none, some row.payload)

section

variable [LinearOrder V] (cfg : JoinConfig n V)

def JoinConfig.rowMatch (l : TupleRow n V L) (r : TupleRow n V P) : Bool :=
  cfg.rowMatches l.keys r.keys

def JoinConfig.rowMatchFlip (r : TupleRow n V P) (l : TupleRow n V L) : Bool :=
  cfg.rowMatches l.keys r.keys

variable (l : List (TupleRow n V L)) (r : List (TupleRow n V P))

/-- What the join of `l` and `r` is in SQL. The marker of a MARK join and the check of a scalar
subquery (SINGLE) are not rows of the two sides. -/
def JoinConfig.sqlJoin : List (ResultRow L P) :=
  match cfg.joinType with
  | .inner => (pairs cfg.rowMatch l r).map bothSides
  | .left => (pairs cfg.rowMatch l r).map bothSides ++ (unmatched cfg.rowMatch l r).map leftOnly
  | .right =>
    (pairs cfg.rowMatch l r).map bothSides ++ (unmatched cfg.rowMatchFlip r l).map rightOnly
  | .outer =>
    (pairs cfg.rowMatch l r).map bothSides ++ (unmatched cfg.rowMatch l r).map leftOnly
      ++ (unmatched cfg.rowMatchFlip r l).map rightOnly
  | .semi => (matched cfg.rowMatch l r).map leftOnly
  | .anti => (unmatched cfg.rowMatch l r).map leftOnly
  | .rightSemi => (matched cfg.rowMatchFlip r l).map rightOnly
  | .rightAnti => (unmatched cfg.rowMatchFlip r l).map rightOnly
  | .mark | .single => []

/-- The part of the result that probing produces. -/
def JoinConfig.probeResult : List (ResultRow L P) :=
  match cfg.joinType with
  | .inner | .right => (pairs cfg.rowMatch l r).map bothSides
  | .left | .outer =>
    (pairs cfg.rowMatch l r).map bothSides ++ (unmatched cfg.rowMatch l r).map leftOnly
  | .semi => (matched cfg.rowMatch l r).map leftOnly
  | .anti => (unmatched cfg.rowMatch l r).map leftOnly
  | _ => []

/-- The part of the result that the scan of the table produces. -/
def JoinConfig.buildResult : List (ResultRow L P) :=
  match cfg.joinType with
  | .right | .outer | .rightAnti => (unmatched cfg.rowMatchFlip r l).map rightOnly
  | .rightSemi => (matched cfg.rowMatchFlip r l).map rightOnly
  | _ => []

/-- The join types whose result consists of rows of the two sides. -/
def isRowJoin : JoinType → Bool
  | .mark | .single => false
  | _ => true

theorem sqlJoin_eq : cfg.sqlJoin l r = cfg.probeResult l r ++ cfg.buildResult l r := by
  unfold sqlJoin probeResult buildResult
  cases cfg.joinType <;> simp

end

variable {cfg : JoinConfig n V} {rows : List (TupleRow n V P)}

/-- The rows of a chunk selected by a flag that says whether they have a match. -/
theorem map_leftOnly_filter (chunk : DataChunk n V L)
    (h : ∀ idx < chunk.size, flags idx = q (cfg.appendedRow chunk idx)) :
    ((List.range chunk.size).filter flags).map (fun idx => (some (chunk.payload idx), none))
      = (((cfg.chunkRows chunk).filter q).map leftOnly : List (ResultRow L P)) := by
  rw [chunkRows,filter_map,map_map]
  have hfilter : (List.range chunk.size).filter flags
      = (List.range chunk.size).filter (q ∘ cfg.appendedRow chunk) :=
    filter_congr fun idx hidx => h idx (mem_range.mp hidx)
  rw [hfilter]
  rfl

theorem live_probe (cfg : JoinConfig n V) (rows : List (TupleRow n V P)) (bitmask : BitVec 64)
    (keys : Nat → Keys n V) (size : Nat) :
    (cfg.probe bitmask (finalize bitmask rows) keys size).Live rows.length := by
  intro idx hidx
  simp only [probe,mem_filter] at hidx ⊢
  exact ⟨by simpa using hidx.2,length_finalize_le _ _ _⟩

theorem marked_perm {rows more : List (Nat × Pointer n V P)} (h : rows.Perm more)
    (found : Nat → Bool) : marked cfg found rows = marked cfg found more := by
  unfold marked markFound
  simp only [any_congr_perm h]

variable [LinearOrder V]

theorem probeChunk_eq
    (hs : (cfg.probe bitmask (finalize bitmask rows) chunk.keys chunk.size).next cfg rows.length
      chunk found = s) :
    cfg.probeChunk bitmask rows chunk found
      = ((s.ss.drain cfg rows.length chunk (rows.length + 2) s.found).1,
        s.result ++ (s.ss.drain cfg rows.length chunk (rows.length + 2) s.found).2) := by
  subst hs
  rfl

section Probe

variable (hhash : HashRespects cfg) (hrows : ∀ row ∈ rows, row.hash = cfg.hash row.keys)
  (bitmask : BitVec 64) (chunk : DataChunk n V L) (found : Nat → Bool)

include hhash hrows in
theorem remaining_probe (keys : Nat → Keys n V) (size : Nat) :
    ((cfg.probe bitmask (finalize bitmask rows) keys size).remaining cfg keys).Perm
      ((List.range size).flatMap fun idx =>
        ((rowLocations rows).filter fun row => cfg.rowMatches (keys idx) row.2.keys).map
          fun row => (idx, row)) := by
  unfold ScanStructure.remaining probe
  simp only [prepareKeys_eq,flatMap_filter_eq]
  apply List.Perm.flatMap_left
  intro idx _
  have hbucket : ((finalize bitmask rows (cfg.hash (keys idx) &&& bitmask)).filter
      fun row => cfg.rowMatches (keys idx) row.2.keys).Perm
        ((rowLocations rows).filter fun row => cfg.rowMatches (keys idx) row.2.keys) := by
    -- a matching row is in the chain that the probe row follows
    rw [finalize_apply,filter_reverse,filter_filter]
    refine (reverse_perm _).trans (List.Perm.of_eq (filter_congr ?_))
    intro row hrow
    have hmem : row.2 ∈ rows := by
      simpa using mem_map_of_mem (f := Prod.snd) hrow
    cases hm : cfg.rowMatches (keys idx) row.2.keys with
    | false => rfl
    | true => simp [hrows row.2 hmem,hhash.eq hm]
  by_cases hcan : cfg.canMatch (keys idx)
  · cases hchain : finalize bitmask rows (cfg.hash (keys idx) &&& bitmask) with
    | nil =>
      rw [hchain] at hbucket
      have hnil := (List.Perm.nil_eq hbucket).symm
      simp [hnil]
    | cons row rest =>
      rw [hchain] at hbucket
      simpa [hcan] using hbucket.map _
  · have hnone : ((rowLocations rows).filter
        fun row => cfg.rowMatches (keys idx) row.2.keys) = [] := by
      rw [filter_eq_nil_iff]
      exact fun row _ hm => hcan (canMatch_of_rowMatches hm)
    simp [hcan,hnone]

/-- The matches of a chunk against a table. -/
def chunkMatches (cfg : JoinConfig n V) (rows : List (TupleRow n V P)) (chunk : DataChunk n V L) :
    List (Nat × Pointer n V P) :=
  (List.range chunk.size).flatMap fun idx =>
    ((rowLocations rows).filter fun row => cfg.rowMatches (chunk.keys idx) row.2.keys).map
      fun row => (idx, row)

theorem emit_chunkMatches :
    emit chunk.payload (chunkMatches cfg rows chunk)
      = (pairs cfg.rowMatch (cfg.chunkRows chunk) rows).map bothSides := by
  have hrow : ∀ idx, (((rowLocations rows).filter
      fun row => cfg.rowMatches (chunk.keys idx) row.2.keys).map Prod.snd)
        = rows.filter fun row => cfg.rowMatches (chunk.keys idx) row.keys := by
    intro idx
    conv_rhs => rw [← map_snd_rowLocations rows,filter_map]
    rfl
  simp only [emit,chunkMatches,pairs,chunkRows,map_flatMap,flatMap_map,
    map_map]
  apply flatMap_congr
  intro idx _
  have hmapped := congrArg (List.map fun row : TupleRow n V P =>
    ((some (chunk.payload idx), some row.payload) : ResultRow L P)) (hrow idx)
  simp only [map_map] at hmapped
  exact hmapped

theorem any_chunkMatches (hidx : idx < chunk.size) :
    (chunkMatches cfg rows chunk).any (fun row => row.1 = idx)
      = rows.any fun row => cfg.rowMatches (chunk.keys idx) row.keys := by
  rw [Bool.eq_iff_iff]
  simp only [chunkMatches,any_eq_true,mem_flatMap,mem_range,mem_map,
    mem_filter,decide_eq_true_eq]
  constructor
  · rintro ⟨_,⟨_,_,row,⟨hmem,hm⟩,rfl⟩,rfl⟩
    exact ⟨row.2,by simpa using mem_map_of_mem (f := Prod.snd) hmem,hm⟩
  · rintro ⟨row,hmem,hm⟩
    rw [← map_snd_rowLocations rows] at hmem
    obtain ⟨p,hp,rfl⟩ := mem_map.mp hmem
    exact ⟨(idx, p),⟨idx,hidx,p,⟨hp,hm⟩,rfl⟩,rfl⟩

theorem unmatchedRows_eq (hdone : (chunkMatches cfg rows chunk).Perm done) :
    unmatchedRows chunk (fun _ => false) done
      = (unmatched cfg.rowMatch (cfg.chunkRows chunk) rows).map leftOnly := by
  apply map_leftOnly_filter
  intro idx hidx
  rw [Bool.false_or,← any_congr_perm hdone,any_chunkMatches chunk hidx]
  rfl

include hhash hrows

theorem leftRows_scanKeyMatches (flag : Bool) :
    ((cfg.probe bitmask (finalize bitmask rows) chunk.keys chunk.size).scanKeyMatches cfg
        chunk.keys rows.length).leftRows chunk flag
      = (((cfg.chunkRows chunk).filter fun l => rows.any (cfg.rowMatch l) == flag).map leftOnly :
        List (ResultRow L P)) := by
  apply map_leftOnly_filter
  intro idx hidx
  have hfound := foundMatch_probe hhash hrows bitmask chunk.keys hidx
  have hany : rows.any (cfg.rowMatch (cfg.appendedRow chunk idx))
      ↔ ∃ row ∈ rows, cfg.rowMatches (chunk.keys idx) row.keys := by
    simp [rowMatch]
  rw [Bool.eq_iff_iff.mpr (hfound.trans hany.symm)]

theorem probeChunk_innerLike (hinner : isInnerLike cfg.joinType) :
    ∃ done, (chunkMatches cfg rows chunk).Perm done
      ∧ cfg.probeChunk bitmask rows chunk found
        = (marked cfg found done, emitted cfg chunk.payload done) := by
  have hlive := live_probe cfg rows bitmask chunk.keys chunk.size
  have hrem := remaining_probe hhash hrows bitmask chunk.keys chunk.size
  obtain ⟨done,hstep⟩ := nextInnerJoin_spec chunk found cfg le_rfl hlive
  have hcalls : rows.length - 1 < rows.length + 2 := by omega
  obtain ⟨more,hmore,hdrain⟩ := drain_innerLike chunk (marked cfg found done) hinner
    (Nat.sub_le rows.length 1) hcalls hstep.live (hstep.finished.trans rfl)
  refine ⟨done ++ more,
    hrem.symm.trans (hstep.remaining.trans (hmore.append_left done)),?_⟩
  rw [probeChunk_eq (next_innerLike _ _ hinner rfl _),hstep.found,hstep.result,hdrain,
    marked_append,emitted_append]

theorem probeChunk_leftLike (hleft : isLeftLike cfg.joinType) :
    ∃ done, (chunkMatches cfg rows chunk).Perm done
      ∧ (cfg.probeChunk bitmask rows chunk found).1 = marked cfg found done
      ∧ (cfg.probeChunk bitmask rows chunk found).2.Perm
        (emit chunk.payload done ++ unmatchedRows chunk (fun _ => false) done) := by
  have hlive := live_probe cfg rows bitmask chunk.keys chunk.size
  have hrem := remaining_probe hhash hrows bitmask chunk.keys chunk.size
  obtain ⟨done,hdone,hfound,hout⟩ := next_drain_leftLike chunk found hleft (le_refl rows.length)
    (Nat.le_add_right rows.length 2) hlive rfl
  exact ⟨done,hrem.symm.trans hdone,hfound,hout⟩

theorem probeChunk_semiOrAnti (flag : Bool)
    (hnext : ∀ ss : ScanStructure n V P, ss.finished = false → ∀ found,
      ∀ chunk : DataChunk n V L, ss.next cfg rows.length chunk found
        = nextSemiOrAntiJoin cfg flag rows.length chunk ss found) :
    cfg.probeChunk bitmask rows chunk found
      = (found, ((cfg.chunkRows chunk).filter fun l => rows.any (cfg.rowMatch l) == flag).map
        leftOnly) := by
  rw [probeChunk_eq (hnext _ rfl found chunk),drain_finished _ _ rfl]
  simp [nextSemiOrAntiJoin,leftRows_scanKeyMatches hhash hrows]

/-- All calls for one probe chunk: the build rows that its rows match are marked, and the part of
the result that belongs to its rows is produced. -/
theorem probeChunk_spec (hjoin : isRowJoin cfg.joinType) :
    (cfg.probeChunk bitmask rows chunk found).1
        = marked cfg found (chunkMatches cfg rows chunk)
      ∧ (cfg.probeChunk bitmask rows chunk found).2.Perm
        (cfg.probeResult (cfg.chunkRows chunk) rows) := by
  have hpairs : ∀ done, (chunkMatches cfg rows chunk).Perm done → (emit chunk.payload done).Perm
      ((pairs cfg.rowMatch (cfg.chunkRows chunk) rows).map bothSides) := by
    intro done hdone
    rw [← emit_chunkMatches]
    exact (hdone.map _).symm
  by_cases hinner : isInnerLike cfg.joinType
  · obtain ⟨done,hdone,hrun⟩ := probeChunk_innerLike hhash hrows bitmask chunk found hinner
    rw [hrun]
    refine ⟨(marked_perm hdone found).symm,?_⟩
    unfold probeResult emitted
    cases htype : cfg.joinType <;> simp_all [isInnerLike]
  by_cases hleft : isLeftLike cfg.joinType
  · obtain ⟨done,hdone,hfound,hout⟩ :=
      probeChunk_leftLike hhash hrows bitmask chunk found hleft
    rw [unmatchedRows_eq chunk hdone] at hout
    refine ⟨hfound.trans (marked_perm hdone found).symm,hout.trans ?_⟩
    have hall := (hpairs done hdone).append_right
      ((unmatched cfg.rowMatch (cfg.chunkRows chunk) rows).map leftOnly)
    unfold probeResult
    cases htype : cfg.joinType <;> simp_all [isLeftLike]
  · cases htype : cfg.joinType <;> simp_all [isInnerLike,isLeftLike,isRowJoin]
    case semi =>
      rw [probeChunk_semiOrAnti hhash hrows bitmask chunk found true
        (fun ss hfin _ _ => by simp [ScanStructure.next,hfin,htype])]
      simp [probeResult,htype,marked,propagatesBuildSide,matched]
    case anti =>
      rw [probeChunk_semiOrAnti hhash hrows bitmask chunk found false
        (fun ss hfin _ _ => by simp [ScanStructure.next,hfin,htype])]
      simp [probeResult,htype,marked,propagatesBuildSide,unmatched]

omit hhash hrows

theorem probeResult_append (l₁ l₂ : List (TupleRow n V L)) (r : List (TupleRow n V P)) :
    (cfg.probeResult (l₁ ++ l₂) r).Perm (cfg.probeResult l₁ r ++ cfg.probeResult l₂ r) := by
  have hpairs : pairs cfg.rowMatch (l₁ ++ l₂) r
      = pairs cfg.rowMatch l₁ r ++ pairs cfg.rowMatch l₂ r := by simp [pairs]
  have hmatched : matched cfg.rowMatch (l₁ ++ l₂) r
      = matched cfg.rowMatch l₁ r ++ matched cfg.rowMatch l₂ r := by simp [matched]
  have hunmatched : unmatched cfg.rowMatch (l₁ ++ l₂) r
      = unmatched cfg.rowMatch l₁ r ++ unmatched cfg.rowMatch l₂ r := by simp [unmatched]
  unfold probeResult
  cases cfg.joinType <;>
    simp only [hpairs,hmatched,hunmatched,map_append,append_nil,List.Perm.refl]
  case left | outer =>
    rw [append_assoc,append_assoc]
    exact (perm_append_comm_assoc _ _ _).append_left _

/-- Whether the build row at an address matches one of the probe rows. -/
def hit (cfg : JoinConfig n V) (rows : List (TupleRow n V P)) (l : List (TupleRow n V L))
    (address : Nat) : Bool :=
  (rowLocations rows).any fun row => row.1 = address && l.any fun left => cfg.rowMatch left row.2

theorem hit_append (l₁ l₂ : List (TupleRow n V L)) (address : Nat) :
    hit cfg rows (l₁ ++ l₂) address
      = (hit cfg rows l₁ address || hit cfg rows l₂ address) := by
  simp only [hit,any_append,Bool.and_or_distrib_left]
  induction rowLocations rows with
  | nil => rfl
  | cons row rest ih => simp only [any_cons,ih]; ac_rfl

theorem marked_chunkMatches (h : propagatesBuildSide cfg.joinType) (address : Nat) :
    marked cfg found (chunkMatches cfg rows chunk) address
      = (found address || hit cfg rows (cfg.chunkRows chunk) address) := by
  have hany : (chunkMatches cfg rows chunk).any (fun row => row.2.1 = address)
      = hit cfg rows (cfg.chunkRows chunk) address := by
    rw [Bool.eq_iff_iff]
    simp only [chunkMatches,hit,chunkRows,any_eq_true,mem_flatMap,
      mem_map,mem_filter,decide_eq_true_eq,Bool.and_eq_true]
    constructor
    · rintro ⟨_,⟨idx,hidx,row,⟨hmem,hm⟩,rfl⟩,haddr⟩
      exact ⟨row,hmem,haddr,_,⟨idx,hidx,rfl⟩,hm⟩
    · rintro ⟨row,hmem,haddr,_,⟨idx,hidx,rfl⟩,hm⟩
      exact ⟨(idx, row),⟨idx,hidx,row,⟨hmem,hm⟩,rfl⟩,haddr⟩
  simp [marked,h,markFound,hany]

include hhash hrows in
theorem probeChunks_spec (hjoin : isRowJoin cfg.joinType) (chunks : List (DataChunk n V L)) :
    (propagatesBuildSide cfg.joinType → ∀ address,
        (cfg.probeChunks bitmask rows chunks found).1 address
          = (found address || hit cfg rows (chunks.flatMap cfg.chunkRows) address))
      ∧ (cfg.probeChunks bitmask rows chunks found).2.Perm
        (cfg.probeResult (chunks.flatMap cfg.chunkRows) rows) := by
  induction chunks generalizing found with
  | nil =>
    refine ⟨fun _ address => by simp [probeChunks,hit],?_⟩
    unfold probeChunks probeResult
    cases cfg.joinType <;> simp [pairs,matched,unmatched]
  | cons chunk chunks ih =>
    obtain ⟨hfound,hout⟩ := probeChunk_spec hhash hrows bitmask chunk found hjoin
    rcases hrun : cfg.probeChunk bitmask rows chunk found with ⟨found',result⟩
    rw [hrun] at hfound hout
    obtain ⟨hfounds,houts⟩ := ih found'
    simp only [probeChunks,hrun,flatMap_cons]
    refine ⟨fun hprop address => ?_,?_⟩
    · rw [hfounds hprop address,hit_append,← Bool.or_assoc,
        ← marked_chunkMatches chunk found hprop address,← hfound]
    · exact (hout.append houts).trans (probeResult_append _ _ _).symm

end Probe

end PredTrans.Join
