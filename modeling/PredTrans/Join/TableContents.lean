import PredTrans.Join.HashTable

/-! The merged table holds the rows whose keys can match, and for a MARK join the NULL flag and the
counts of all the rows it saw. A probe finds a match exactly when a stored row satisfies all
conditions. -/

namespace PredTrans.Join
open List

variable {n : Nat} {V P : Type}

namespace JoinConfig

variable (cfg : JoinConfig n V)

/-- No column on which NULL never matches is NULL. -/
def canMatch (keys : Keys n V) : Bool :=
  (List.finRange n).all fun col =>
    (cfg.conditions col).nullValuesAreEqual || (keys col).isSome

/-- The build rows that enter the table. -/
def keeps (row : TupleRow n V P) : Bool :=
  propagatesBuildSide cfg.joinType || cfg.canMatch row.keys

/-- The rows of a chunk, NULL keys included. -/
def chunkRows (chunk : DataChunk n V P) : List (TupleRow n V P) :=
  (List.range chunk.size).map (cfg.appendedRow chunk)

/-- All rows that are sunk into the table. -/
def buildInput (locals : List (List (DataChunk n V P))) : List (TupleRow n V P) :=
  locals.flatMap fun chunks => chunks.flatMap cfg.chunkRows

theorem foldl_filterNullValues (keys : Nat → Keys n V) (cols : List (Fin n)) (sel : List Nat) :
    cols.foldl (fun sel col =>
      if (cfg.conditions col).nullValuesAreEqual then sel else filterNullValues keys col sel) sel
      = sel.filter fun idx => cols.all fun col =>
          (cfg.conditions col).nullValuesAreEqual || (keys idx col).isSome := by
  induction cols generalizing sel with
  | nil => simp
  | cons col cols ih =>
    simp only [foldl_cons,ih,all_cons]
    by_cases hnull : (cfg.conditions col).nullValuesAreEqual
    · simp [hnull]
    · simp [hnull,filterNullValues,Bool.and_comm]

theorem prepareKeys_eq (keys : Nat → Keys n V) (size : Nat) (buildSide : Bool) :
    cfg.prepareKeys keys size buildSide = (List.range size).filter fun idx =>
      (buildSide && propagatesBuildSide cfg.joinType) || cfg.canMatch (keys idx) := by
  unfold prepareKeys
  cases buildSide && propagatesBuildSide cfg.joinType with
  | true => simp
  | false => simp [foldl_filterNullValues,canMatch]

@[simp]
theorem appendedRow_keys (chunk : DataChunk n V P) (i : Nat) :
    (cfg.appendedRow chunk i).keys = chunk.keys i := rfl

theorem prepared_rows (chunk : DataChunk n V P) :
    (cfg.prepareKeys chunk.keys chunk.size true).map (cfg.appendedRow chunk)
      = (cfg.chunkRows chunk).filter cfg.keeps := by
  rw [prepareKeys_eq,chunkRows,filter_map]
  rfl

theorem prepared_length (chunk : DataChunk n V P) :
    (cfg.prepareKeys chunk.keys chunk.size true).length
      = (cfg.chunkRows chunk).countP cfg.keeps := by
  rw [countP_eq_length_filter,← prepared_rows,length_map]

/-- A chunk loses rows exactly when one of its rows cannot match. -/
theorem prepared_short (chunk : DataChunk n V P) :
    decide ((cfg.prepareKeys chunk.keys chunk.size true).length < chunk.size)
      = (cfg.chunkRows chunk).any fun row => !cfg.keeps row := by
  have hlen : (cfg.chunkRows chunk).length = chunk.size := by simp [chunkRows]
  rw [prepared_length,← hlen,countP_eq_length_filter,Bool.eq_iff_iff,decide_eq_true_iff]
  have hle := length_filter_le cfg.keeps (cfg.chunkRows chunk)
  have hiff := length_filter_eq_length_iff (p := cfg.keeps) (l := cfg.chunkRows chunk)
  rw [lt_iff_le_and_ne,ne_eq,hiff]
  simp [hle]

variable [DecidableEq V]

/-- The counts of one group over a list of rows. -/
def groupCounts (rows : List (TupleRow n V P)) (g : Keys n V) : Nat × Nat :=
  (rows.countP fun row => cfg.group row.keys = g,
    rows.countP fun row => cfg.group row.keys = g ∧ (cfg.lastKey row.keys).isSome)

theorem groupCounts_append (rows more : List (TupleRow n V P)) (g : Keys n V) :
    cfg.groupCounts (rows ++ more) g
      = ((cfg.groupCounts rows g).1 + (cfg.groupCounts more g).1,
        (cfg.groupCounts rows g).2 + (cfg.groupCounts more g).2) := by
  simp [groupCounts]

theorem addCount_apply (counts : Keys n V → Nat × Nat) (row : TupleRow n V P) (g : Keys n V) :
    cfg.addCount counts row.keys g
      = ((counts g).1 + (cfg.groupCounts [row] g).1,
        (counts g).2 + (cfg.groupCounts [row] g).2) := by
  by_cases hg : cfg.group row.keys = g
  · subst hg
    cases hlast : (cfg.lastKey row.keys).isSome <;>
      simp [addCount,groupCounts]
  · have hne : g ≠ cfg.group row.keys := fun h => hg h.symm
    simp [addCount,groupCounts,Function.update_of_ne hne,hg]

theorem addChunk_apply (counts : Keys n V → Nat × Nat) (chunk : DataChunk n V P) (g : Keys n V) :
    cfg.addChunk counts chunk g
      = ((counts g).1 + (cfg.groupCounts (cfg.chunkRows chunk) g).1,
        (counts g).2 + (cfg.groupCounts (cfg.chunkRows chunk) g).2) := by
  unfold addChunk chunkRows
  generalize List.range chunk.size = indices
  induction indices generalizing counts with
  | nil => simp [groupCounts]
  | cons i rest ih =>
    have hone := cfg.addCount_apply counts (cfg.appendedRow chunk i) g
    have happ := cfg.groupCounts_append [cfg.appendedRow chunk i]
      (rest.map (cfg.appendedRow chunk)) g
    simp only [appendedRow_keys] at hone
    simp only [singleton_append] at happ
    simp only [foldl_cons,ih,map_cons,happ,hone,Nat.add_assoc]

/-- What a table knows about the rows it has seen. -/
structure Holds (rows : List (TupleRow n V P)) (ht : JoinHashTable n V P) : Prop where
  stored : ht.sinkCollection = rows.filter cfg.keeps
  null : cfg.joinType = .mark → ht.hasNull = rows.any fun row => !cfg.keeps row
  counts : cfg.isCorrelated → ∀ g, ht.correlatedCounts g = cfg.groupCounts rows g

theorem holds_empty : cfg.Holds ([] : List (TupleRow n V P)) {} where
  stored := rfl
  null := fun _ => rfl
  counts := fun _ _ => rfl

theorem holds_build (h : cfg.Holds rows ht) (chunk : DataChunk n V P) :
    cfg.Holds (rows ++ cfg.chunkRows chunk) (cfg.build ht chunk) := by
  by_cases hsize : chunk.size = 0
  · have hnil : cfg.chunkRows chunk = [] := by simp [chunkRows,hsize]
    simpa [build,hsize,hnil] using h
  constructor
  · simp [build,hsize,h.stored,prepared_rows]
  · intro hmark
    simp [build,hsize,h.null hmark,prepared_short]
  · intro hcor g
    simp [build,hsize,hcor,addChunk_apply,h.counts hcor,groupCounts_append]

theorem holds_sink (chunks : List (DataChunk n V P)) :
    cfg.Holds (chunks.flatMap cfg.chunkRows) (cfg.sink chunks) := by
  suffices hrun : ∀ (rows : List (TupleRow n V P)) ht, cfg.Holds rows ht →
      cfg.Holds (rows ++ chunks.flatMap cfg.chunkRows) (chunks.foldl cfg.build ht) by
    simpa [sink] using hrun [] {} cfg.holds_empty
  induction chunks with
  | nil => simp
  | cons chunk chunks ih =>
    intro rows ht h
    simpa using ih _ _ (cfg.holds_build h chunk)

theorem holds_merge (h : cfg.Holds rows ht) (hother : cfg.Holds more other) :
    cfg.Holds (rows ++ more) (cfg.merge ht other) where
  stored := by simp [merge,h.stored,hother.stored]
  null := fun hmark => by simp [merge,hmark,h.null hmark,hother.null hmark]
  counts := fun hcor g => by
    simp [merge,hcor,h.counts hcor,hother.counts hcor,groupCounts_append]

theorem holds_combine (locals : List (List (DataChunk n V P))) :
    cfg.Holds (cfg.buildInput locals) (cfg.combine locals) := by
  suffices hrun : ∀ (rows : List (TupleRow n V P)) ht, cfg.Holds rows ht →
      cfg.Holds (rows ++ cfg.buildInput locals)
        ((locals.map cfg.sink).foldl cfg.merge ht) by
    simpa [combine] using hrun [] {} cfg.holds_empty
  unfold buildInput
  induction locals with
  | nil => simp
  | cons chunks locals ih =>
    intro rows ht h
    simpa using ih _ _ (cfg.holds_merge h (cfg.holds_sink chunks))

end JoinConfig

theorem hash_of_mem_buildInput {cfg : JoinConfig n V} (h : row ∈ cfg.buildInput locals) :
    row.hash = cfg.hash row.keys := by
  simp only [JoinConfig.buildInput,JoinConfig.chunkRows,mem_flatMap,mem_map] at h
  obtain ⟨_,_,_,_,_,_,rfl⟩ := h
  rfl

@[simp]
theorem map_snd_rowLocations (rows : List (TupleRow n V P)) :
    (rowLocations rows).map Prod.snd = rows := by
  simp [rowLocations,Function.comp_def,zipIdx_map_fst]

theorem foldl_insertHash (bitmask : BitVec 64) (rows : List (Pointer n V P))
    (table : BitVec 64 → List (Pointer n V P)) (index : BitVec 64) :
    rows.foldl (insertHash bitmask) table index
      = (rows.filter fun row => row.2.hash &&& bitmask = index).reverse ++ table index := by
  induction rows generalizing table with
  | nil => simp
  | cons row rows ih =>
    rw [foldl_cons,ih]
    by_cases hidx : row.2.hash &&& bitmask = index
    · subst hidx
      simp [insertHash]
    · have hne : index ≠ row.2.hash &&& bitmask := fun h => hidx h.symm
      simp [insertHash,Function.update_of_ne hne,hidx]

/-- A chain holds the rows of its index, the last inserted first. -/
theorem finalize_apply (bitmask : BitVec 64) (rows : List (TupleRow n V P)) (index : BitVec 64) :
    finalize bitmask rows index
      = ((rowLocations rows).filter fun row => row.2.hash &&& bitmask = index).reverse := by
  simp [finalize,foldl_insertHash]

theorem length_finalize_le (bitmask : BitVec 64) (rows : List (TupleRow n V P))
    (index : BitVec 64) : (finalize bitmask rows index).length ≤ rows.length := by
  have hle := length_filter_le (fun row => row.2.hash &&& bitmask = index)
    (rowLocations rows)
  have hlen : (rowLocations rows).length = rows.length := by simp [rowLocations]
  rw [finalize_apply,length_reverse]
  omega

variable [LinearOrder V] {cfg : JoinConfig n V}

theorem Comparison.isSome_of_holds {c : Comparison} {a b : Option V}
    (h : c.holds a b = true) : c.nullValuesAreEqual || a.isSome := by
  cases c <;> cases a <;> cases b <;> simp_all [Comparison.holds,Comparison.nullValuesAreEqual]

theorem rowMatches_iff :
    cfg.rowMatches probe build
      ↔ ∀ col, (cfg.conditions col).holds (probe col) (build col) = true := by
  simp [JoinConfig.rowMatches]

theorem canMatch_of_rowMatches (h : cfg.rowMatches probe build) : cfg.canMatch probe := by
  rw [rowMatches_iff] at h
  simp only [JoinConfig.canMatch,all_eq_true]
  intro col _
  exact Comparison.isSome_of_holds (h col)

/-- A build row that matches is never filtered out. -/
theorem keeps_of_rowMatches (h : cfg.rowMatches probe row.keys) : cfg.keeps row := by
  have hcan : cfg.canMatch row.keys := by
    simp only [JoinConfig.canMatch,all_eq_true]
    intro col _
    have hcol := rowMatches_iff.mp h col
    cases hc : cfg.conditions col <;> cases hp : probe col <;> cases hb : row.keys col <;>
      simp_all [Comparison.holds,Comparison.nullValuesAreEqual]
  simp [JoinConfig.keeps,hcan]

/-- The hash is a function of the columns of the equality conditions, as these compare them. -/
def HashRespects (cfg : JoinConfig n V) : Prop :=
  ∀ a b : Keys n V, (∀ col, (cfg.conditions col).isEquality →
    (cfg.conditions col).holds (a col) (b col)) → cfg.hash a = cfg.hash b

theorem HashRespects.eq (hhash : HashRespects cfg) (h : cfg.rowMatches probe build) :
    cfg.hash probe = cfg.hash build :=
  hhash probe build fun col _ => rowMatches_iff.mp h col

namespace ScanStructure

variable {keys : Nat → Keys n V} {ss : ScanStructure n V P}

theorem mem_resolve_fst : idx ∈ (ss.resolvePredicates cfg keys).1
    ↔ idx ∈ ss.selVector ∧ ss.headMatches cfg keys idx := by
  simp [resolvePredicates]

theorem mem_resolve_snd : idx ∈ (ss.resolvePredicates cfg keys).2
    ↔ idx ∈ ss.selVector ∧ ss.headMatches cfg keys idx = false := by
  simp [resolvePredicates]

/-- The rows of a chain that a probe row matches. -/
def anyMatch (cfg : JoinConfig n V) (keys : Nat → Keys n V) (ss : ScanStructure n V P)
    (idx : Nat) : Bool :=
  (ss.pointers idx).any fun row => cfg.rowMatches (keys idx) row.2.keys

theorem anyMatch_eq (idx : Nat) : ss.anyMatch cfg keys idx
    = (ss.headMatches cfg keys idx
      || (ss.pointers idx).tail.any fun row => cfg.rowMatches (keys idx) row.2.keys) := by
  unfold anyMatch headMatches
  cases ss.pointers idx with
  | nil => rfl
  | cons row rest => simp

/-- With a round for every pointer of the longest chain the loop marks exactly the selected rows
that match some row of their chain. -/
theorem foundMatch_scanKeyMatches (fuel : Nat)
    (hfuel : ∀ idx ∈ ss.selVector, (ss.pointers idx).length ≤ fuel) (idx : Nat) :
    (ss.scanKeyMatches cfg keys fuel).foundMatch idx
      = (ss.foundMatch idx || (ss.selVector.contains idx && ss.anyMatch cfg keys idx)) := by
  induction fuel generalizing ss with
  | zero =>
    simp only [scanKeyMatches]
    by_cases hsel : idx ∈ ss.selVector
    · have hnil : ss.pointers idx = [] := by simpa using hfuel idx hsel
      simp [anyMatch,hnil]
    · simp [hsel]
  | succ fuel ih =>
    simp only [scanKeyMatches]
    by_cases hempty : ss.selVector = []
    · simp [hempty]
    rw [if_neg hempty,ih]
    · -- only the rows without a match move on along their chain
      have hany : ss.anyMatch cfg keys idx = _ := anyMatch_eq idx
      rw [hany]
      by_cases hsel : idx ∈ ss.selVector
      · cases hhead : ss.headMatches cfg keys idx with
        | true =>
          have hfst := mem_resolve_fst.mpr ⟨hsel,hhead⟩
          simp [setFound,advancePointers,hfst,hsel]
        | false =>
          have hfst : idx ∉ (ss.resolvePredicates cfg keys).1 := by
            simp [mem_resolve_fst,hhead]
          have hsnd := mem_resolve_snd.mpr ⟨hsel,hhead⟩
          cases htail : (ss.pointers idx).tail <;>
            simp [setFound,advancePointers,anyMatch,hfst,hsnd,hsel,htail]
      · have hfst : idx ∉ (ss.resolvePredicates cfg keys).1 := by simp [mem_resolve_fst,hsel]
        have hsnd : idx ∉ (ss.resolvePredicates cfg keys).2 := by simp [mem_resolve_snd,hsel]
        simp [setFound,advancePointers,hfst,hsnd,hsel]
    · intro i hi
      simp only [advancePointers,mem_filter] at hi
      have hlen := hfuel i (mem_resolve_snd.mp hi.1).1
      simp only [advancePointers,hi.1,if_true,setFound,length_tail]
      omega

end ScanStructure

/-- A probe finds a match for a row of the chunk exactly when a stored row satisfies all
conditions. -/
theorem foundMatch_probe {rows : List (TupleRow n V P)} (hhash : HashRespects cfg)
    (hrows : ∀ row ∈ rows, row.hash = cfg.hash row.keys) (bitmask : BitVec 64)
    (keys : Nat → Keys n V) (hidx : idx < size) :
    ((cfg.probe bitmask (finalize bitmask rows) keys size).scanKeyMatches cfg keys
        rows.length).foundMatch idx
      ↔ ∃ row ∈ rows, cfg.rowMatches (keys idx) row.keys := by
  rw [ScanStructure.foundMatch_scanKeyMatches _ (fun i _ => length_finalize_le _ _ _)]
  simp only [JoinConfig.probe,JoinConfig.prepareKeys_eq,ScanStructure.anyMatch,Bool.false_or,
    Bool.and_eq_true,contains_iff_mem,mem_filter,mem_range,any_eq_true,
    Bool.false_and,finalize_apply,mem_reverse,decide_eq_true_eq]
  constructor
  · rintro ⟨_,row,⟨hmem,_⟩,hmatch⟩
    have hrow : row.2 ∈ (rowLocations rows).map Prod.snd := mem_map_of_mem hmem
    exact ⟨row.2,by simpa using hrow,hmatch⟩
  rintro ⟨row,hmem,hmatch⟩
  rw [← map_snd_rowLocations rows] at hmem
  obtain ⟨p,hp,rfl⟩ := mem_map.mp hmem
  -- a matching row has the hash of the probe row, so it is in the chain that is followed
  have hsame : p.2.hash &&& bitmask = cfg.hash (keys idx) &&& bitmask := by
    rw [hrows p.2 (by simpa using mem_map_of_mem (f := Prod.snd) hp),hhash.eq hmatch]
  refine ⟨⟨⟨hidx,canMatch_of_rowMatches hmatch⟩,?_⟩,p,⟨hp,hsame⟩,hmatch⟩
  have hin : p ∈ ((rowLocations rows).filter
      fun row => row.2.hash &&& bitmask = cfg.hash (keys idx) &&& bitmask).reverse := by
    simp [hp,hsame]
  simpa using ne_nil_of_mem hin

end PredTrans.Join
