import PredTrans.Join.JoinResult

/-! The scan for unmatched build rows reports every row once over all its calls, and a round
produces the join of its probe rows with its build rows. -/

namespace PredTrans.Join

open Library ScanStructure List JoinConfig

variable {n : Nat} {V L P : Type}

section Scan

/-- The rows a scan state has not looked at. -/
def HTScanState.pending (state : HTScanState n V P) : List (Pointer n V P) :=
  match state.chunks with
  | [] => []
  | chunk :: chunks => chunk.drop state.offset ++ chunks.flatten

@[simp]
theorem pending_cons (chunk : List (Pointer n V P)) (chunks : List (List (Pointer n V P)))
    (offset : Nat) :
    HTScanState.pending ⟨chunk :: chunks, offset⟩ = chunk.drop offset ++ chunks.flatten := rfl

@[simp]
theorem pending_start (chunks : List (List (Pointer n V P))) :
    HTScanState.pending ⟨chunks, 0⟩ = chunks.flatten := by
  cases chunks <;> simp [HTScanState.pending]

variable (select : Pointer n V P → Bool) (vectorSize : Nat)

theorem scanRows_spec (rows : List (Pointer n V P)) (i : Nat) (entries : List (Pointer n V P)) :
    (scanRows select vectorSize rows i entries = (entries ++ rows.filter select, none))
      ∨ ∃ seen rest, rows = seen ++ rest ∧ seen.filter select ≠ []
        ∧ scanRows select vectorSize rows i entries
          = (entries ++ seen.filter select, some (i + seen.length)) := by
  induction rows generalizing i entries with
  | nil => simp [scanRows]
  | cons row rows ih =>
    by_cases hsel : select row
    · by_cases hfull : (entries ++ [row]).length = vectorSize
      · exact .inr ⟨[row],rows,rfl,by simp [hsel],by simp [scanRows,hsel,hfull]⟩
      simp only [scanRows,hsel,if_true,hfull,if_false]
      rcases ih (i + 1) (entries ++ [row]) with hall | ⟨seen,rest,rfl,_,hrun⟩
      · exact .inl (by simp [hall,hsel])
      · refine .inr ⟨row :: seen,rest,rfl,by simp [hsel],?_⟩
        simp [hrun,hsel,add_assoc,add_comm]
    · simp only [scanRows,hsel]
      rcases ih (i + 1) entries with hall | ⟨seen,rest,rfl,hne,hrun⟩
      · exact .inl (by simp [hall,hsel])
      · refine .inr ⟨row :: seen,rest,rfl,by simpa [hsel] using hne,?_⟩
        simp [hrun,hsel,add_assoc,add_comm]

/-- A call reports the selected rows up to the point where it stops, and it reports none only if
none are left. -/
theorem scanFullOuter_spec (state : HTScanState n V P) (entries : List (Pointer n V P)) :
    ∃ reported state', scanFullOuter select vectorSize state.chunks state.offset entries
        = (entries ++ reported, state')
      ∧ state.pending.filter select = reported ++ state'.pending.filter select
      ∧ (reported = [] → state'.pending = []) := by
  obtain ⟨chunks,offset⟩ := state
  induction chunks generalizing offset entries with
  | nil => exact ⟨[],{ chunks := [] },by simp [scanFullOuter],by simp [HTScanState.pending],
      fun _ => rfl⟩
  | cons chunk chunks ih =>
    simp only [scanFullOuter]
    rcases scanRows_spec select vectorSize (chunk.drop offset) offset entries with hall |
      ⟨seen,rest,hdrop,hne,hrun⟩
    · obtain ⟨reported,state',hscan,hpending,hnone⟩ :=
        ih (entries ++ (chunk.drop offset).filter select) 0
      rw [hall]
      refine ⟨(chunk.drop offset).filter select ++ reported,state',by simpa using hscan,?_,?_⟩
      · rw [pending_start] at hpending
        simp [hpending]
      · intro hnil
        exact hnone (append_eq_nil_iff.mp hnil).2
    · rw [hrun]
      refine ⟨seen.filter select,⟨chunk :: chunks,offset + seen.length⟩,rfl,?_,
        fun hnil => absurd hnil hne⟩
      have hmore : chunk.drop (offset + seen.length) = rest := by
        rw [← drop_drop,hdrop,drop_left]
      simp [hdrop,hmore]

theorem scanTask_spec (calls : Nat) (state : HTScanState n V P)
    (hcalls : (state.pending.filter select).length < calls) :
    scanTask select vectorSize calls state = state.pending.filter select := by
  induction calls generalizing state with
  | zero => omega
  | succ calls ih =>
    obtain ⟨reported,state',hscan,hpending,hnone⟩ :=
      scanFullOuter_spec select vectorSize state []
    simp only [scanTask,hscan,nil_append]
    by_cases hnil : reported = []
    · simp [hnil,hpending,hnone hnil]
    · have hpos := length_pos_iff.mpr hnil
      rw [if_neg hnil,hpending,ih state' (by rw [hpending,length_append] at hcalls; omega)]

end Scan

theorem scanHT_eq {cfg : JoinConfig n V} (h : propagatesBuildSide cfg.joinType) (vectorSize : Nat)
    (tasks : List (List (List (Pointer n V P)))) (found : Nat → Bool) :
    cfg.scanHT vectorSize tasks found
      = (((tasks.map List.flatten).flatten.filter fun row =>
          found row.1 == decide (cfg.joinType = .rightSemi)).map fun row =>
            (none, some row.2.payload) : List (ResultRow L P)) := by
  unfold scanHT
  rw [if_pos h]
  induction tasks with
  | nil => rfl
  | cons chunks tasks ih =>
    have hlen : (chunks.flatten.filter fun row =>
        found row.1 == decide (cfg.joinType = .rightSemi)).length < chunks.flatten.length + 1 :=
      Nat.lt_succ_of_le (length_filter_le _ _)
    rw [← pending_start] at hlen
    simp only [flatMap_cons,map_cons,flatten_cons,filter_append,
      map_append,ih]
    rw [← pending_start chunks,scanTask_spec _ _ _ _ hlen]

theorem rowLocations_injective {p q : Pointer n V P} (hp : p ∈ rowLocations rows)
    (hq : q ∈ rowLocations rows) (h : p.1 = q.1) : p = q := by
  have hget : ∀ r : Pointer n V P, r ∈ rowLocations rows → rows[r.1]? = some r.2 := by
    intro r hr
    obtain ⟨x,hx,rfl⟩ := mem_map.mp hr
    exact mem_zipIdx_iff_getElem?.mp hx
  have hpq := (hget p hp).symm.trans (h ▸ hget q hq)
  exact Prod.ext h (Option.some.inj hpq)

variable {cfg : JoinConfig n V}

theorem constructEmpty_rows (h : cfg.joinType = .anti ∨ cfg.joinType = .left ∨
    cfg.joinType = .outer)
    (chunks : List (DataChunk n V L)) : chunks.flatMap cfg.constructEmptyJoinResult
      = ((chunks.flatMap cfg.chunkRows).map leftOnly : List (ResultRow L P)) := by
  rw [map_flatMap]
  apply flatMap_congr
  intro chunk _
  unfold constructEmptyJoinResult chunkRows
  rw [map_map]
  rcases h with h | h | h <;> rw [h] <;> rfl

variable [LinearOrder V]

theorem hit_of_mem (hp : p ∈ rowLocations rows) (l : List (TupleRow n V L)) :
    hit cfg rows l p.1 = l.any (cfg.rowMatchFlip p.2) := by
  rw [Bool.eq_iff_iff]
  simp only [hit,any_eq_true (l := rowLocations rows),Bool.and_eq_true,decide_eq_true_eq]
  constructor
  · rintro ⟨q,hq,haddr,hany⟩
    rw [← rowLocations_injective hq hp haddr]
    exact hany
  · intro hany
    exact ⟨p,hp,rfl,hany⟩

theorem scan_hits (rows : List (TupleRow n V P)) (l : List (TupleRow n V L)) (flag : Bool) :
    (((rowLocations rows).filter fun row => hit cfg rows l row.1 == flag).map fun row =>
        (none, some row.2.payload))
      = ((rows.filter fun row => l.any (cfg.rowMatchFlip row) == flag).map rightOnly :
        List (ResultRow L P)) := by
  conv_rhs => rw [← map_snd_rowLocations rows,filter_map,map_map]
  have hfilter : ((rowLocations rows).filter fun row => hit cfg rows l row.1 == flag)
      = (rowLocations rows).filter
        ((fun row => l.any (cfg.rowMatchFlip row) == flag) ∘ Prod.snd) :=
    filter_congr fun row hrow => by rw [hit_of_mem hrow]; rfl
  rw [hfilter]
  rfl

/-- The tasks of a round cut its data collection into ranges of chunks. -/
def JoinConfig.Round.TasksCover (round : JoinConfig.Round n V L P) : Prop :=
  (round.tasks.map List.flatten).flatten = rowLocations round.rows

theorem scanHT_spec {round : JoinConfig.Round n V L P} (htasks : round.TasksCover)
    (vectorSize : Nat) (l : List (TupleRow n V L))
    (hfound : propagatesBuildSide cfg.joinType → ∀ address, found address = hit cfg round.rows l
      address) :
    cfg.scanHT vectorSize round.tasks found = cfg.buildResult l round.rows := by
  by_cases hprop : propagatesBuildSide cfg.joinType
  · have hflags : found = hit cfg round.rows l := funext (hfound hprop)
    rw [scanHT_eq hprop,hflags,htasks,scan_hits]
    unfold buildResult
    cases htype : cfg.joinType <;> simp_all [propagatesBuildSide,matched,unmatched]
  · unfold scanHT buildResult
    cases htype : cfg.joinType <;> simp_all [propagatesBuildSide]

theorem runRound_spec (hjoin : isRowJoin cfg.joinType) (hhash : HashRespects cfg)
    (vectorSize : Nat) {round : JoinConfig.Round n V L P} (htasks : round.TasksCover)
    (hrows : ∀ row ∈ round.rows, row.hash = cfg.hash row.keys) :
    (cfg.runRound vectorSize round).Perm
      (cfg.sqlJoin (round.probe.flatMap cfg.chunkRows) round.rows) := by
  unfold runRound
  by_cases hempty : round.rows = []
  · -- an empty table: the result is empty, or the probe rows stay unmatched
    have hpairs : pairs cfg.rowMatch (round.probe.flatMap cfg.chunkRows)
        ([] : List (TupleRow n V P))
        = [] := Apart.pairs_eq_nil fun _ _ _ hb => absurd hb not_mem_nil
    cases htype : cfg.joinType <;>
      simp_all [isRowJoin,emptyResultIfRHSIsEmpty,sqlJoin,matched,
        unmatched,constructEmpty_rows]
  · rw [if_neg hempty,sqlJoin_eq]
    obtain ⟨hfound,hout⟩ := probeChunks_spec hhash hrows round.bitmask (fun _ => false) hjoin
      round.probe
    rcases hrun : cfg.probeChunks round.bitmask round.rows round.probe fun _ => false with
      ⟨found,result⟩
    rw [hrun] at hfound hout
    dsimp only
    rw [scanHT_spec htasks vectorSize (round.probe.flatMap cfg.chunkRows)
      (fun hprop address => by simpa using hfound hprop address)]
    exact hout.append_right _

theorem sqlJoin_perm {l₁ l₂ : List (TupleRow n V L)} {r₁ r₂ : List (TupleRow n V P)}
    (hl : l₁.Perm l₂) (hr : r₁.Perm r₂) : (cfg.sqlJoin l₁ r₁).Perm (cfg.sqlJoin l₂ r₂) := by
  have hpairs := (perm_pairs (m := cfg.rowMatch) hl hr).map bothSides
  have hmatched := (perm_matched (m := cfg.rowMatch) hl hr).map (leftOnly (P := P))
  have hunmatched := (perm_unmatched (m := cfg.rowMatch) hl hr).map (leftOnly (P := P))
  have hmatched' := (perm_matched (m := cfg.rowMatchFlip) hr hl).map (rightOnly (L := L))
  have hunmatched' := (perm_unmatched (m := cfg.rowMatchFlip) hr hl).map (rightOnly (L := L))
  unfold sqlJoin
  cases cfg.joinType with
  | inner => exact hpairs
  | left => exact hpairs.append hunmatched
  | right => exact hpairs.append hunmatched'
  | outer => exact (hpairs.append hunmatched).append hunmatched'
  | semi => exact hmatched
  | anti => exact hunmatched
  | rightSemi => exact hmatched'
  | rightAnti => exact hunmatched'
  | mark | single => exact List.Perm.refl _

theorem append_append_perm (a b c d : List α) : (a ++ b ++ (c ++ d)).Perm (a ++ c ++ (b ++ d)) := by
  rw [append_assoc,append_assoc]
  exact (perm_append_comm_assoc b c d).append_left a

/-- The join of two parts between which nothing matches. -/
theorem sqlJoin_append (h₁₂ : Apart cfg.rowMatch l₁ r₂) (h₂₁ : Apart cfg.rowMatch l₂ r₁) :
    (cfg.sqlJoin (l₁ ++ l₂) (r₁ ++ r₂)).Perm (cfg.sqlJoin l₁ r₁ ++ cfg.sqlJoin l₂ r₂) := by
  have hpairs := (pairs_append h₁₂ h₂₁).map bothSides
  have hmatched := matched_append h₁₂ h₂₁
  have hunmatched := unmatched_append h₁₂ h₂₁
  have hmatched' : matched cfg.rowMatchFlip (r₁ ++ r₂) (l₁ ++ l₂)
      = matched cfg.rowMatchFlip r₁ l₁ ++ matched cfg.rowMatchFlip r₂ l₂ :=
    matched_append h₂₁.flip h₁₂.flip
  have hunmatched' : unmatched cfg.rowMatchFlip (r₁ ++ r₂) (l₁ ++ l₂)
      = unmatched cfg.rowMatchFlip r₁ l₁ ++ unmatched cfg.rowMatchFlip r₂ l₂ :=
    unmatched_append h₂₁.flip h₁₂.flip
  rw [map_append] at hpairs
  unfold sqlJoin
  rw [hmatched,hunmatched,hmatched',hunmatched']
  simp only [map_append]
  cases cfg.joinType with
  | inner => exact hpairs
  | left | right => exact (hpairs.append_right _).trans (append_append_perm _ _ _ _)
  | outer =>
    refine ((hpairs.append_right _).append_right _).trans ?_
    refine ((append_append_perm _ _ _ _).append_right _).trans ?_
    exact append_append_perm _ _ _ _
  | semi | anti | rightSemi | rightAnti | mark | single => exact List.Perm.refl _

/-- Build rows that are not kept change nothing. -/
theorem sqlJoin_filter_keeps (l : List (TupleRow n V L)) (r : List (TupleRow n V P)) :
    cfg.sqlJoin l (r.filter cfg.keeps) = cfg.sqlJoin l r := by
  by_cases hprop : propagatesBuildSide cfg.joinType
  · have hall : r.filter cfg.keeps = r :=
      filter_eq_self.mpr fun row _ => by simp [keeps,hprop]
    rw [hall]
  have hkeep : ∀ (a : TupleRow n V L) (b : TupleRow n V P), cfg.rowMatch a b → cfg.keeps b :=
    fun _ _ h => keeps_of_rowMatches h
  unfold sqlJoin
  cases htype : cfg.joinType <;>
    simp_all [propagatesBuildSide,pairs_filter hkeep,matched_filter hkeep,
      unmatched_filter hkeep]

end PredTrans.Join
