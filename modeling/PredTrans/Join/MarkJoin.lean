import PredTrans.Join.TableContents

/-! The marker of a probe row is TRUE, FALSE or NULL, as an `Option Bool`. The NULL information of
the build side is one flag without correlated columns, and a pair of counts per group with them. -/

namespace PredTrans.Join
open List JoinConfig

variable {n : Nat} {V P : Type}

/-- The last key column. -/
def backKey (keys : Keys n V) : Option V :=
  if h : n - 1 < n then keys ⟨n - 1, h⟩ else none

namespace JoinConfig

variable (cfg : JoinConfig n V)

/-- The marker of row `i` from its validity bit and its match flag. Columns whose validity mask was
never allocated (`allValid`) leave the validity of the result as it is. -/
def constructMarkJoinResult (hasNull : Bool) (allValid : Fin n → Bool) (keys : Nat → Keys n V)
    (foundMatch : Nat → Bool) (i : Nat) : Option Bool :=
  let valid := (List.finRange n).foldl (fun valid col =>
    if (cfg.conditions col).nullValuesAreEqual || allValid col then valid
    else (keys i col).isSome) true
  -- any FALSE becomes NULL when the right side contains NULL values
  let valid := if hasNull && !foundMatch i then false else valid
  if valid then some (foundMatch i) else none

/-- The marker of row `i` when there are correlated columns. -/
def correlatedMark (counts : Keys n V → Nat × Nat) (keys : Nat → Keys n V)
    (foundMatch : Nat → Bool) (i : Nat) : Option Bool :=
  let (countStar, count) := counts (cfg.group (keys i))
  let valid := (backKey (keys i)).isSome
  let valid := if !foundMatch i && count < countStar then false else valid
  let valid := if countStar = 0 then true else valid
  if valid then some (foundMatch i) else none

/-- `NextMarkJoin` for a table with the rows `rows`. -/
def nextMarkJoin [LinearOrder V] (ht : JoinHashTable n V P) (rows : List (TupleRow n V P))
    (allValid : Fin n → Bool) (keys : Nat → Keys n V) (ss : ScanStructure n V P) :
    Nat → Option Bool :=
  let ss := ss.scanKeyMatches cfg keys rows.length
  if cfg.correlatedTypes = 0 then
    cfg.constructMarkJoinResult ht.hasNull allValid keys ss.foundMatch
  else cfg.correlatedMark ht.correlatedCounts keys ss.foundMatch

/-- A whole MARK join: the build input is sunk through local tables, its rows are hashed in the
order `rows`, and one chunk is probed. -/
def markJoin [LinearOrder V] (locals : List (List (DataChunk n V P)))
    (rows : List (TupleRow n V P)) (bitmask : BitVec 64) (allValid : Fin n → Bool)
    (keys : Nat → Keys n V) (size : Nat) : Nat → Option Bool :=
  cfg.nextMarkJoin (cfg.combine locals) rows allValid keys
    (cfg.probe bitmask (finalize bitmask rows) keys size)

end JoinConfig

/-- A marker in three-valued logic: TRUE when `holds`, otherwise NULL when `unknown`, otherwise
FALSE. -/
structure IsMarker (holds unknown : Prop) (marker : Option Bool) : Prop where
  isTrue : holds → marker = some true
  isNull : ¬holds → unknown → marker = none
  isFalse : ¬holds → ¬unknown → marker = some false

variable {cfg : JoinConfig n V}

/-- Without correlated columns: the marker from the flag of the build side and the validity of the
probe keys. -/
theorem isMarker_uncorrelated {hasNull valid : Bool} {found : Nat → Bool} (hfound : found i ↔ holds)
    (hvalid : holds → valid) (hunknown : unknown ↔ valid = false ∨ hasNull) :
    IsMarker holds unknown
      (if (if hasNull && !found i then false else valid) then some (found i) else none) := by
  constructor
  · intro h
    simp [hfound.mpr h,hvalid h]
  · intro h hu
    have hf : found i = false := by simpa using fun hf => h (hfound.mp hf)
    rcases hunknown.mp hu with hv | hn
    · simp [hv]
    · simp [hn,hf]
  · intro h hu
    simp_all

theorem isMarker_correlated {keys : Nat → Keys n V} (hfound : found i ↔ holds)
    (hback : holds → (backKey (keys i)).isSome)
    (hgroup : hasGroup ↔ (counts (cfg.group (keys i))).1 ≠ 0)
    (hunknown : unknown ↔ backKey (keys i) = none ∨ (counts (cfg.group (keys i))).2 < (counts
      (cfg.group (keys i))).1) :
    IsMarker holds (hasGroup ∧ unknown) (cfg.correlatedMark counts keys found i) := by
  unfold correlatedMark
  rcases hcounts : counts (cfg.group (keys i)) with ⟨countStar,count⟩
  simp only [hcounts] at hgroup hunknown
  constructor
  · intro h
    simp [hfound.mpr h,hback h]
  · rintro h ⟨hgrp,hu⟩
    have hf : found i = false := by simpa using fun hf => h (hfound.mp hf)
    have hne := hgroup.mp hgrp
    rcases hunknown.mp hu with hb | hlt
    · simp [hne,hb]
    · simp [hne,hf,hlt]
  · intro h hu
    have hf : found i = false := by simpa using fun hf => h (hfound.mp hf)
    by_cases hzero : countStar = 0
    · simp [hzero,hf]
    · have hnot := fun hor => hu ⟨hgroup.mpr hzero,hunknown.mpr hor⟩
      obtain ⟨hb,hlt⟩ := not_or.mp hnot
      have hsome := Option.isSome_iff_ne_none.mpr hb
      simp [hf,hlt,hsome]

/-- The correlated columns of two rows agree. -/
theorem group_eq_iff :
    cfg.group a = cfg.group b ↔ ∀ col : Fin n, col.val < cfg.correlatedTypes → a col = b col := by
  constructor
  · intro h col hcol
    simpa [group,hcol] using congrFun h col
  intro h
  funext col
  by_cases hcol : col.val < cfg.correlatedTypes
  · simp [group,h col hcol]
  · simp [group,hcol]

variable [LinearOrder V]

theorem Comparison.eq_of_holds {c : Comparison} {a b : Option V} (hc : c.isEquality)
    (h : c.holds a b = true) : a = b := by
  cases c <;> cases a <;> cases b <;> simp_all [Comparison.holds,Comparison.isEquality]

theorem hashRespects_of_equalities (h : ∀ col, (cfg.conditions col).isEquality) :
    HashRespects cfg := by
  intro a b hab
  have heq : a = b := funext fun col => Comparison.eq_of_holds (h col) (hab col (h col))
  rw [heq]

/-- The match flags of a whole MARK join. -/
theorem foundMatch_combine (hrows : rows.Perm (cfg.combine locals).sinkCollection)
    (heq : ∀ col, (cfg.conditions col).isEquality) (bitmask : BitVec 64) (keys : Nat → Keys n V)
    (hidx : idx < size) :
    ((cfg.probe bitmask (finalize bitmask rows) keys size).scanKeyMatches cfg keys
        rows.length).foundMatch idx
      ↔ ∃ row ∈ cfg.buildInput locals, cfg.rowMatches (keys idx) row.keys := by
  have hstored := (cfg.holds_combine locals).stored
  have hmem : ∀ row, row ∈ rows ↔ row ∈ cfg.buildInput locals ∧ cfg.keeps row := by
    intro row
    rw [hrows.mem_iff,hstored,mem_filter]
  rw [foundMatch_probe (hashRespects_of_equalities heq)
    (fun row hrow => hash_of_mem_buildInput ((hmem row).mp hrow).1) bitmask keys hidx]
  constructor
  · rintro ⟨row,hrow,hmatch⟩
    exact ⟨row,((hmem row).mp hrow).1,hmatch⟩
  · rintro ⟨row,hrow,hmatch⟩
    exact ⟨row,(hmem row).mpr ⟨hrow,keeps_of_rowMatches hmatch⟩,hmatch⟩

theorem hasNull_combine (hmark : cfg.joinType = .mark) (locals : List (List (DataChunk n V P))) :
    (cfg.combine locals).hasNull
      ↔ ∃ row ∈ cfg.buildInput locals, cfg.canMatch row.keys = false := by
  rw [(cfg.holds_combine locals).null hmark]
  simp [keeps,hmark,propagatesBuildSide]

theorem count_lt_countStar_iff (rows : List (TupleRow n V P)) (g : Keys n V) :
    (cfg.groupCounts rows g).2 < (cfg.groupCounts rows g).1
      ↔ ∃ row ∈ rows, cfg.group row.keys = g ∧ cfg.lastKey row.keys = none := by
  induction rows with
  | nil => simp [groupCounts]
  | cons row rows ih =>
    have hle : (cfg.groupCounts rows g).2 ≤ (cfg.groupCounts rows g).1 :=
      countP_mono_left fun _ _ h => by
        simp only [decide_eq_true_eq] at h ⊢
        exact h.1
    have happ := cfg.groupCounts_append [row] rows g
    simp only [singleton_append] at happ
    rw [happ]
    by_cases hg : cfg.group row.keys = g
    · cases hlast : cfg.lastKey row.keys with
      | none =>
        have hone : cfg.groupCounts [row] g = (1, 0) := by
          simp [groupCounts,hg,hlast]
        have hlt : (cfg.groupCounts rows g).2 < 1 + (cfg.groupCounts rows g).1 := by omega
        simpa [hone,hg,hlast] using hlt
      | some v => simpa [groupCounts,hlast] using ih
    · simpa [groupCounts,hg] using ih

theorem countStar_eq_zero_iff (rows : List (TupleRow n V P)) (g : Keys n V) :
    (cfg.groupCounts rows g).1 = 0 ↔ ∀ row ∈ rows, cfg.group row.keys ≠ g := by
  simp [groupCounts]

theorem mark_single_equal {cfg : JoinConfig 1 V} (hmark : cfg.joinType = .mark)
    (hcor : cfg.correlatedTypes = 0) (heq : cfg.conditions 0 = .equal)
    (hrows : rows.Perm (cfg.combine locals).sinkCollection) (bitmask : BitVec 64)
    {allValid : Fin 1 → Bool} {keys : Nat → Keys 1 V} (hidx : idx < size)
    (hvalid : ∀ col, allValid col → ∀ i < size, (keys i col).isSome) :
    IsMarker (∃ row ∈ cfg.buildInput locals, cfg.rowMatches (keys idx) row.keys)
      (keys idx 0 = none ∨ ∃ row ∈ cfg.buildInput locals, row.keys 0 = none)
      (cfg.markJoin locals rows bitmask allValid keys size idx) := by
  have hequal : ∀ col, (cfg.conditions col).isEquality := by
    intro col
    rw [Subsingleton.elim col 0,heq]
    rfl
  have hfound := foundMatch_combine hrows hequal bitmask keys hidx
  have hcan : ∀ k : Keys 1 V, cfg.canMatch k = (k 0).isSome := by
    simp [canMatch,heq,Comparison.nullValuesAreEqual,finRange_succ]
  -- the mask ends up as the validity of the probe key, allocated or not
  have hmask : (List.finRange 1).foldl (fun valid col =>
      if (cfg.conditions col).nullValuesAreEqual || allValid col then valid
      else (keys idx col).isSome) true = (keys idx 0).isSome := by
    cases hav : allValid 0 with
    | true => simp [finRange_succ,hvalid 0 hav idx hidx]
    | false => simp [finRange_succ,hav,heq,Comparison.nullValuesAreEqual]
  simp only [markJoin,nextMarkJoin,hcor,if_true,
    constructMarkJoinResult,hmask]
  apply isMarker_uncorrelated hfound
  · rintro ⟨row,_,hmatch⟩
    simpa [hcan] using canMatch_of_rowMatches hmatch
  · rw [hasNull_combine hmark]
    simp [hcan]

theorem mark_notDistinct (hmark : cfg.joinType = .mark) (hcor : cfg.correlatedTypes = 0)
    (hnd : ∀ col, cfg.conditions col = .notDistinctFrom)
    (hrows : rows.Perm (cfg.combine locals).sinkCollection) (bitmask : BitVec 64)
    {allValid : Fin n → Bool} {keys : Nat → Keys n V} (hidx : idx < size) :
    IsMarker (∃ row ∈ cfg.buildInput locals, cfg.rowMatches (keys idx) row.keys) False
      (cfg.markJoin locals rows bitmask allValid keys size idx) := by
  have hequal : ∀ col, (cfg.conditions col).isEquality := by
    intro col
    rw [hnd col]
    rfl
  have hfound := foundMatch_combine hrows hequal bitmask keys hidx
  have hmask : ∀ cols : List (Fin n), cols.foldl (fun valid col =>
      if (cfg.conditions col).nullValuesAreEqual || allValid col then valid
      else (keys idx col).isSome) true = true := by
    intro cols
    induction cols with
    | nil => rfl
    | cons col cols ih => simpa [hnd col,Comparison.nullValuesAreEqual] using ih
  have hnull : ¬(cfg.combine locals).hasNull = true := by
    rw [hasNull_combine hmark]
    simp [canMatch,hnd,Comparison.nullValuesAreEqual]
  simp only [markJoin,nextMarkJoin,hcor,if_true,
    constructMarkJoinResult,hmask]
  exact isMarker_uncorrelated hfound (fun _ => rfl) (by simpa using hnull)

theorem mark_correlated {c : Nat} {cfg : JoinConfig (c + 1) V} (hmark : cfg.joinType = .mark)
    (hpos : 0 < c) (hcor : cfg.correlatedTypes = c)
    (hnd : ∀ col : Fin (c + 1), col.val < c → cfg.conditions col = .notDistinctFrom)
    (hlast : cfg.conditions (Fin.last c) = .equal) {locals : List (List (DataChunk (c + 1) V P))}
    {rows : List (TupleRow (c + 1) V P)}
    (hrows : rows.Perm (cfg.combine locals).sinkCollection)
    (bitmask : BitVec 64) {allValid : Fin (c + 1) → Bool} {keys : Nat → Keys (c + 1) V}
    (hidx : idx < size) :
    IsMarker (∃ row ∈ cfg.buildInput locals, cfg.rowMatches (keys idx) row.keys)
      ((∃ row ∈ cfg.buildInput locals, cfg.group row.keys = cfg.group (keys idx))
        ∧ (keys idx (Fin.last c) = none
          ∨ ∃ row ∈ cfg.buildInput locals, cfg.group row.keys = cfg.group (keys idx)
            ∧ row.keys (Fin.last c) = none))
      (cfg.markJoin locals rows bitmask allValid keys size idx) := by
  have hequal : ∀ col, (cfg.conditions col).isEquality := by
    intro col
    by_cases hcol : col.val < c
    · rw [hnd col hcol]
      rfl
    · have heq : col = Fin.last c := Fin.ext (by simp; omega)
      rw [heq,hlast]
      rfl
  have hfound := foundMatch_combine hrows hequal bitmask keys hidx
  have hcounts := (cfg.holds_combine locals).counts
    (by simp [isCorrelated,hmark,hcor,hpos])
  have hlastKey : ∀ k : Keys (c + 1) V, cfg.lastKey k = k (Fin.last c) := by
    simp [lastKey,hcor,Fin.last]
  have hback : ∀ k : Keys (c + 1) V, backKey k = k (Fin.last c) := by
    simp [backKey,Fin.last]
  simp only [markJoin,nextMarkJoin,hcor,Nat.pos_iff_ne_zero.mp hpos,
    if_false]
  apply isMarker_correlated hfound
  · rintro ⟨row,_,hmatch⟩
    have hcol := rowMatches_iff.mp hmatch (Fin.last c)
    rw [hlast] at hcol
    simpa [hback,Comparison.nullValuesAreEqual] using Comparison.isSome_of_holds hcol
  · simp [hcounts,countStar_eq_zero_iff]
  · simp [hcounts,count_lt_countStar_iff,hback,hlastKey]

/-- MARK joins compute `IN` with three-valued logic. However the build input is cut into chunks and
local tables, in whatever order its rows are hashed into a pointer table of any size, and for every
row of every probe chunk: the marker is TRUE when some build row satisfies all conditions; otherwise
it is NULL or FALSE as the form of the join says. -/
theorem mark_join_three_valued (cfg : JoinConfig n V) (hmark : cfg.joinType = .mark)
    (locals : List (List (DataChunk n V P))) (rows : List (TupleRow n V P))
    (hrows : rows.Perm (cfg.combine locals).sinkCollection) (bitmask : BitVec 64)
    (allValid : Fin n → Bool) (keys : Nat → Keys n V) (size idx : Nat) (hidx : idx < size)
    (hvalid : ∀ col, allValid col → ∀ i < size, (keys i col).isSome) :
    -- one `=` condition and no correlated columns
    (∀ hn : n = 1, cfg.correlatedTypes = 0 → (∀ col, cfg.conditions col = .equal) →
      IsMarker (∃ row ∈ cfg.buildInput locals, cfg.rowMatches (keys idx) row.keys)
        (keys idx ⟨0, by omega⟩ = none
          ∨ ∃ row ∈ cfg.buildInput locals, row.keys ⟨0, by omega⟩ = none)
        (cfg.markJoin locals rows bitmask allValid keys size idx))
    -- only `IS NOT DISTINCT FROM` conditions
    ∧ (cfg.correlatedTypes = 0 → (∀ col, cfg.conditions col = .notDistinctFrom) →
      IsMarker (∃ row ∈ cfg.buildInput locals, cfg.rowMatches (keys idx) row.keys) False
        (cfg.markJoin locals rows bitmask allValid keys size idx))
    -- correlated columns, then one `=` condition
    ∧ (∀ (c : Nat) (hn : n = c + 1), 0 < c → cfg.correlatedTypes = c →
      (∀ col : Fin n, col.val < c → cfg.conditions col = .notDistinctFrom) →
      cfg.conditions ⟨c, by omega⟩ = .equal →
      IsMarker (∃ row ∈ cfg.buildInput locals, cfg.rowMatches (keys idx) row.keys)
        ((∃ row ∈ cfg.buildInput locals,
            ∀ col : Fin n, col.val < c → row.keys col = keys idx col)
          ∧ (keys idx ⟨c, by omega⟩ = none
            ∨ ∃ row ∈ cfg.buildInput locals,
              (∀ col : Fin n, col.val < c → row.keys col = keys idx col)
                ∧ row.keys ⟨c, by omega⟩ = none))
        (cfg.markJoin locals rows bitmask allValid keys size idx)) := by
  refine ⟨?_,?_,?_⟩
  · intro hn hcor heq
    subst hn
    exact mark_single_equal hmark hcor (heq 0) hrows bitmask hidx hvalid
  · intro hcor hnd
    exact mark_notDistinct hmark hcor hnd hrows bitmask hidx
  intro c hn hpos hcor hnd hlast
  subst hn
  have hmarker : IsMarker _ _ (cfg.markJoin locals rows bitmask allValid keys size idx) :=
    mark_correlated hmark hpos hcor hnd hlast hrows bitmask hidx
  simp only [group_eq_iff,hcor] at hmarker
  exact hmarker

/-- A correlated `IN`: one correlated column and one compared column. -/
def correlatedIn : JoinConfig 2 Nat where
  joinType := .mark
  conditions := ![.notDistinctFrom, .equal]
  hash := fun keys => BitVec.ofNat 64 ((keys 0).getD 0)
  correlatedTypes := 1

/-- The build rows (1, NULL) and (2, 5), one in each of two local tables. -/
def correlatedInLocals : List (List (DataChunk 2 Nat Unit)) :=
  [[⟨1, fun _ => ![some 1, none], fun _ => ()⟩], [⟨1, fun _ => ![some 2, some 5], fun _ => ()⟩]]

/-- 7 is not among the values of group 1, but a NULL is, so the marker is NULL. -/
theorem mark_join_three_valued_null :
    correlatedIn.markJoin correlatedInLocals (correlatedIn.combine
      correlatedInLocals).sinkCollection
      3 (fun _ => false) (fun _ => ![some 1, some 7]) 1 0 = none := by
  have hmarker := (mark_join_three_valued correlatedIn rfl correlatedInLocals _ (List.Perm.refl _) 3
    (fun _ => false) (fun _ => ![some 1,some 7]) 1 0 (by decide)
    (fun _ h => absurd h (by decide))).2.2 1 rfl (by decide) rfl (by decide) rfl
  apply hmarker.isNull
  · decide
  · exact ⟨by decide,.inr (by decide)⟩

end PredTrans.Join
