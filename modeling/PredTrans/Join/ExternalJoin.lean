import PredTrans.Join.JoinRounds

/-! The rounds of an external join take ranges of the radix partitions. The first round spills the
probe rows of later partitions; each later round probes the rows spilled for its partitions. -/

namespace PredTrans.Join

open Library List JoinConfig

variable {n : Nat} {V L P : Type}

/-- The hash falls into one of the partitions from `start` up to `stop`. -/
def inPartitions (partition : BitVec 64 → Nat) (start stop : Nat) (hash : BitVec 64) : Bool :=
  start ≤ partition hash ∧ partition hash < stop

/-- A later round: its table holds the build rows of its partitions, and the chunks it probes hold
the spilled rows of these partitions, both in any order. -/
structure Covers (cfg : JoinConfig n V) (partition : BitVec 64 → Nat) (start stop : Nat)
    (stored : List (TupleRow n V P)) (spilled : List (TupleRow n V L))
    (round : JoinConfig.Round n V L P) : Prop where
  rows : round.rows.Perm (stored.filter fun row => inPartitions partition start stop row.hash)
  probe : (round.probe.flatMap cfg.chunkRows).Perm
    (spilled.filter fun row => inPartitions partition start stop row.hash)
  tasks : round.TasksCover

/-- The rounds from partition `start` on, each with the end of its partitions. -/
def LaterRounds (cfg : JoinConfig n V) (partition : BitVec 64 → Nat) (numPartitions : Nat)
    (stored : List (TupleRow n V P)) (spilled : List (TupleRow n V L)) :
    Nat → List (Nat × JoinConfig.Round n V L P) → Prop
  | start, [] => start = numPartitions
  | start, (stop, round) :: rest =>
    start < stop ∧ stop ≤ numPartitions ∧ Covers cfg partition start stop stored spilled round
      ∧ LaterRounds cfg partition numPartitions stored spilled stop rest

/-- The rounds of an external join of the probe input with a table that stored the given rows. -/
structure ExternalRun (cfg : JoinConfig n V) (partition : BitVec 64 → Nat) (numPartitions : Nat)
    (stored : List (TupleRow n V P)) (input : List (DataChunk n V L)) (firstEnd : Nat)
    (first : JoinConfig.Round n V L P) (later : List (Nat × JoinConfig.Round n V L P)) : Prop where
  partitions : ∀ hash, partition hash < numPartitions
  rows : first.rows.Perm (stored.filter fun row => inPartitions partition 0 firstEnd row.hash)
  probe : first.probe = input.map fun chunk => (cfg.probeAndSpill partition firstEnd chunk).1
  tasks : first.TasksCover
  nonempty : first.rows ≠ []
  later : LaterRounds cfg partition numPartitions stored
    (input.flatMap fun chunk => (cfg.probeAndSpill partition firstEnd chunk).2) firstEnd later

theorem takePartitions_spec (counts sizes pointerTableSize : Nat → Nat)
    (maxHTSize left partitionIdx count dataSize : Nat) :
    let stop := takePartitions counts sizes pointerTableSize maxHTSize left partitionIdx count
      dataSize
    partitionIdx ≤ stop ∧ stop ≤ partitionIdx + left
      ∧ (stop < partitionIdx + left →
        0 < count ∨ ∃ i, partitionIdx ≤ i ∧ i < stop ∧ 0 < counts i) := by
  induction left generalizing partitionIdx count dataSize with
  | zero => simp [takePartitions]
  | succ left ih =>
    simp only [takePartitions]
    split
    · rename_i hfull
      exact ⟨le_rfl,by omega,fun _ => .inl hfull.1⟩
    obtain ⟨hle,hend,hrow⟩ := ih (partitionIdx + 1) (count + counts partitionIdx)
      (dataSize + sizes partitionIdx)
    refine ⟨by omega,by omega,fun hlt => ?_⟩
    rcases hrow (by omega) with hcount | ⟨i,hi,hstop,hpos⟩
    · by_cases hzero : count = 0
      · exact .inr ⟨partitionIdx,le_rfl,by omega,by omega⟩
      · exact .inl (by omega)
    · exact .inr ⟨i,by omega,hstop,hpos⟩

/-- A round takes at least one partition, and at least one row unless it is the last. -/
theorem prepareExternalFinalize_spec (hstart : start ≤ numPartitions)
    (h : prepareExternalFinalize counts sizes pointerTableSize maxHTSize numPartitions start = some
      stop) :
    start < stop ∧ stop ≤ numPartitions
      ∧ (stop < numPartitions → ∃ i, start ≤ i ∧ i < stop ∧ 0 < counts i) := by
  unfold prepareExternalFinalize at h
  split at h
  · cases h
  obtain ⟨left,hleft⟩ : ∃ left, numPartitions - start = left + 1 :=
    ⟨numPartitions - start - 1,by omega⟩
  rw [hleft] at h
  simp only [takePartitions,lt_irrefl,false_and,if_false,zero_add,Option.some.injEq] at h
  obtain ⟨hle,hend,hrow⟩ := takePartitions_spec counts sizes pointerTableSize maxHTSize left
    (start + 1) (counts start) (sizes start)
  rw [h] at hle hend hrow
  refine ⟨by omega,by omega,fun hlt => ?_⟩
  rcases hrow (by omega) with hcount | ⟨i,hi,hstop,hpos⟩
  · exact ⟨start,le_rfl,by omega,hcount⟩
  · exact ⟨i,by omega,hstop,hpos⟩

variable {cfg : JoinConfig n V} {partition : BitVec 64 → Nat}

theorem chunkRows_slice (chunk : DataChunk n V L) (sel : List Nat) :
    cfg.chunkRows (slice chunk sel) = sel.map (cfg.appendedRow chunk) := by
  apply ext_getElem
  · simp [chunkRows,slice]
  · intro i h₁ h₂
    have hi : i < sel.length := by simpa using h₂
    simp [chunkRows,slice,appendedRow,hi]

theorem probeAndSpill_rows (firstEnd : Nat) (chunk : DataChunk n V L) :
    cfg.chunkRows (cfg.probeAndSpill partition firstEnd chunk).1
        = (cfg.chunkRows chunk).filter (fun row => partition row.hash < firstEnd)
      ∧ (cfg.probeAndSpill partition firstEnd chunk).2
        = (cfg.chunkRows chunk).filter (fun row => !(partition row.hash < firstEnd)) := by
  unfold probeAndSpill
  rw [partition_eq_filter_filter]
  rw [chunkRows_slice]
  constructor
  · conv_rhs => rw [chunkRows,filter_map]
    rfl
  · conv_rhs => rw [chunkRows,filter_map]
    rfl

theorem hash_of_mem_chunkRows (h : row ∈ cfg.chunkRows chunk) : row.hash = cfg.hash row.keys := by
  obtain ⟨i,_,rfl⟩ := mem_map.mp h
  rfl

variable [LinearOrder V]

theorem sqlJoin_split (hhash : HashRespects cfg) (p : BitVec 64 → Bool)
    {l : List (TupleRow n V L)} {r : List (TupleRow n V P)}
    (hl : ∀ row ∈ l, row.hash = cfg.hash row.keys) (hr : ∀ row ∈ r, row.hash = cfg.hash row.keys) :
    (cfg.sqlJoin l r).Perm
      (cfg.sqlJoin (l.filter fun row => p row.hash) (r.filter fun row => p row.hash)
        ++ cfg.sqlJoin (l.filter fun row => !p row.hash) (r.filter fun row => !p row.hash)) := by
  -- rows that match have the same hash, so they fall on the same side
  have hsame : ∀ a ∈ l, ∀ b ∈ r, cfg.rowMatch a b → p a.hash = p b.hash := by
    intro a ha b hb hm
    rw [hl a ha,hr b hb,hhash.eq hm]
  have hsplit : (cfg.sqlJoin l r).Perm _ :=
    sqlJoin_perm (filter_append_perm (fun row => p row.hash) l).symm
      (filter_append_perm (fun row => p row.hash) r).symm
  refine hsplit.trans (sqlJoin_append ?_ ?_)
  all_goals
    intro a ha b hb
    simp only [mem_filter,Bool.not_eq_true'] at ha hb
    rw [Bool.eq_false_iff]
    intro hm
    have hside := hsame a ha.1 b hb.1 hm
    simp [ha.2,hb.2] at hside

theorem laterRounds_spec (hjoin : isRowJoin cfg.joinType) (hhash : HashRespects cfg)
    (vectorSize : Nat) {numPartitions : Nat} (hpart : ∀ hash, partition hash < numPartitions)
    {stored : List (TupleRow n V P)} (hstored : ∀ row ∈ stored, row.hash = cfg.hash row.keys)
    (hspilled : ∀ row ∈ spilled, row.hash = cfg.hash row.keys)
    {rounds : List (Nat × JoinConfig.Round n V L P)}
    (hrounds : LaterRounds cfg partition numPartitions stored spilled start rounds) :
    (rounds.flatMap fun round => cfg.runRound vectorSize round.2).Perm
      (cfg.sqlJoin (spilled.filter fun row => start ≤ partition row.hash)
        (stored.filter fun row => start ≤ partition row.hash)) := by
  induction rounds generalizing start with
  | nil =>
    obtain rfl : start = numPartitions := hrounds
    have hnone : ∀ {T : Type} (rows : List (TupleRow n V T)),
        (rows.filter fun row => start ≤ partition row.hash) = [] := by
      intro T rows
      rw [filter_eq_nil_iff]
      intro row _
      simpa using hpart row.hash
    rw [hnone,hnone]
    unfold sqlJoin
    cases cfg.joinType <;> simp [pairs,matched,unmatched]
  | cons round rest ih =>
    obtain ⟨stop,round⟩ := round
    obtain ⟨hlt,hstop,hcovers,hrest⟩ := hrounds
    have hinside : ∀ {T : Type} (rows : List (TupleRow n V T)),
        (rows.filter fun row => start ≤ partition row.hash).filter
            (fun row => partition row.hash < stop)
          = rows.filter fun row => inPartitions partition start stop row.hash := by
      intro T rows
      rw [filter_filter]
      apply filter_congr
      simp [inPartitions,Bool.and_comm]
    have houtside : ∀ {T : Type} (rows : List (TupleRow n V T)),
        (rows.filter fun row => start ≤ partition row.hash).filter
            (fun row => !(partition row.hash < stop : Bool))
          = rows.filter fun row => stop ≤ partition row.hash := by
      intro T rows
      rw [filter_filter]
      apply filter_congr
      intro row _
      rw [Bool.eq_iff_iff]
      simp
      omega
    have hfirst := runRound_spec hjoin hhash vectorSize hcovers.tasks fun row hrow =>
      hstored row (mem_filter.mp (hcovers.rows.mem_iff.mp hrow)).1
    have hsplit := sqlJoin_split hhash (fun hash => partition hash < stop)
      (fun row hrow => hspilled row (mem_filter.mp hrow).1)
      (fun row hrow => hstored row (mem_filter.mp hrow).1)
      (l := spilled.filter fun row => start ≤ partition row.hash)
      (r := stored.filter fun row => start ≤ partition row.hash)
    rw [hinside,hinside,houtside,houtside] at hsplit
    refine List.Perm.trans ?_ hsplit.symm
    exact (hfirst.trans (sqlJoin_perm hcovers.probe hcovers.rows)).append (ih hrest)

theorem external_spec (hjoin : isRowJoin cfg.joinType) (hhash : HashRespects cfg) (vectorSize : Nat)
    {numPartitions firstEnd : Nat} {stored : List (TupleRow n V P)}
    (hstored : ∀ row ∈ stored, row.hash = cfg.hash row.keys)
    {later : List (Nat × JoinConfig.Round n V L P)}
    (hrun : ExternalRun cfg partition numPartitions stored input firstEnd first later) :
    (cfg.runRound vectorSize first
        ++ later.flatMap fun round => cfg.runRound vectorSize round.2).Perm
      (cfg.sqlJoin (input.flatMap cfg.chunkRows) stored) := by
  have hinput : ∀ row ∈ input.flatMap cfg.chunkRows, row.hash = cfg.hash row.keys := by
    intro row hrow
    obtain ⟨chunk,_,hmem⟩ := mem_flatMap.mp hrow
    exact hash_of_mem_chunkRows hmem
  have hprobe : first.probe.flatMap cfg.chunkRows = (input.flatMap cfg.chunkRows).filter
      fun row => partition row.hash < firstEnd := by
    rw [hrun.probe,flatMap_map,filter_flatMap]
    exact flatMap_congr fun chunk _ => (probeAndSpill_rows firstEnd chunk).1
  have hspill : (input.flatMap fun chunk => (cfg.probeAndSpill partition firstEnd chunk).2)
      = (input.flatMap cfg.chunkRows).filter fun row =>
          !(partition row.hash < firstEnd : Bool) := by
    rw [filter_flatMap]
    exact flatMap_congr fun chunk _ => (probeAndSpill_rows firstEnd chunk).2
  have hbelow : ∀ {T : Type} (rows : List (TupleRow n V T)),
      (rows.filter fun row => inPartitions partition 0 firstEnd row.hash)
        = rows.filter fun row => partition row.hash < firstEnd := by
    intro T rows
    apply filter_congr
    simp [inPartitions]
  have habove : ∀ {T : Type} (rows : List (TupleRow n V T)),
      (rows.filter fun row => firstEnd ≤ partition row.hash)
        = rows.filter fun row => !(partition row.hash < firstEnd : Bool) := by
    intro T rows
    apply filter_congr
    intro row _
    rw [Bool.eq_iff_iff]
    simp
  have hlater := hrun.later
  rw [hspill] at hlater
  have hrest := laterRounds_spec hjoin hhash vectorSize hrun.partitions hstored
    (fun row hrow => hinput row (mem_filter.mp hrow).1) hlater
  rw [habove,habove,filter_filter] at hrest
  simp only [Bool.and_self] at hrest
  have hrows := hrun.rows
  rw [hbelow] at hrows
  have hfirst := runRound_spec hjoin hhash vectorSize hrun.tasks fun row hrow =>
    hstored row (mem_filter.mp (hrows.mem_iff.mp hrow)).1
  rw [hprobe] at hfirst
  refine List.Perm.trans ?_ (sqlJoin_split hhash (fun hash => partition hash < firstEnd)
    hinput hstored).symm
  exact (hfirst.trans (sqlJoin_perm (List.Perm.refl _) hrows)).append hrest

/-- The hash join computes the join, in memory and out of core. The build input is cut into chunks
and local tables in any way, and the probe input into chunks. In memory, one round probes all of
the input, whatever order the rows are hashed in and however large the pointer table is. Out of
core, the rounds take any ranges of the partitions (the first one at least one row), and the rows
that were spilled are probed in any order and in any chunks. Either way the rows that probing and
the scans for unmatched build rows produce are the rows of the SQL join. -/
theorem hash_join_is_sql_join (cfg : JoinConfig n V) (hjoin : isRowJoin cfg.joinType)
    (hhash : HashRespects cfg) (vectorSize : Nat) (locals : List (List (DataChunk n V P)))
    (input : List (DataChunk n V L)) :
    (∀ round : JoinConfig.Round n V L P,
      round.rows.Perm (cfg.combine locals).sinkCollection → round.probe = input →
      round.TasksCover →
      (cfg.runRound vectorSize round).Perm
        (cfg.sqlJoin (input.flatMap cfg.chunkRows) (cfg.buildInput locals)))
    ∧ (∀ (partition : BitVec 64 → Nat) (numPartitions firstEnd : Nat)
        (first : JoinConfig.Round n V L P) (later : List (Nat × JoinConfig.Round n V L P)),
      ExternalRun cfg partition numPartitions (cfg.combine locals).sinkCollection input firstEnd
        first later →
      (cfg.runRound vectorSize first
          ++ later.flatMap fun round => cfg.runRound vectorSize round.2).Perm
        (cfg.sqlJoin (input.flatMap cfg.chunkRows) (cfg.buildInput locals))) := by
  have hsink : (cfg.combine locals).sinkCollection = (cfg.buildInput locals).filter cfg.keeps :=
    (cfg.holds_combine locals).stored
  have hstored : ∀ row ∈ (cfg.combine locals).sinkCollection, row.hash = cfg.hash row.keys := by
    intro row hrow
    rw [hsink] at hrow
    exact hash_of_mem_buildInput (mem_filter.mp hrow).1
  rw [← sqlJoin_filter_keeps,← hsink]
  constructor
  · rintro round hrows rfl htasks
    have hround := runRound_spec hjoin hhash vectorSize htasks fun row hrow =>
      hstored row (hrows.mem_iff.mp hrow)
    exact hround.trans (sqlJoin_perm (List.Perm.refl _) hrows)
  · intro partition numPartitions firstEnd first later hrun
    exact external_spec hjoin hhash vectorSize hstored hrun

/-- A full outer join on one key, hashed to its value. -/
def outerOnKey : JoinConfig 1 Nat where
  joinType := .outer
  conditions := ![.equal]
  hash := fun keys => BitVec.ofNat 64 ((keys 0).getD 0)

/-- A chunk of one row whose payload is its key. -/
def keyChunk (key : Option Nat) : DataChunk 1 Nat (Option Nat) :=
  ⟨1, fun _ => ![key], fun _ => key⟩

/-- The build keys 2 and NULL in one local table, and 3 in another. -/
def outerLocals : List (List (DataChunk 1 Nat (Option Nat))) :=
  [[keyChunk (some 2), keyChunk none], [keyChunk (some 3)]]

/-- Even hashes in the first round, odd ones in the second. -/
def parity (hash : BitVec 64) : Nat := hash.toNat % 2

def outerRound (rows : List (TupleRow 1 Nat (Option Nat)))
    (probe : List (DataChunk 1 Nat (Option Nat))) :
    JoinConfig.Round 1 Nat (Option Nat) (Option Nat) :=
  ⟨3, rows, probe, [[rowLocations rows]]⟩

/-- Two rounds: the probe key 1 is spilled and comes out unmatched in the second round. -/
theorem hash_join_is_sql_join_outer :
    let sunk := (outerOnKey.combine outerLocals).sinkCollection
    let first := outerRound (sunk.take 2) [keyChunk (some 1),keyChunk (some 2)]
    let first := { first with probe := first.probe.map fun chunk =>
      (outerOnKey.probeAndSpill parity 1 chunk).1 }
    (outerOnKey.runRound 2048 first
        ++ [(2, outerRound (sunk.drop 2) [keyChunk (some 1)])].flatMap
          fun round => outerOnKey.runRound 2048 round.2).Perm
      [(some (some 2), some (some 2)),(some (some 1), none),(none, some none),
        (none, some (some 3))] := by
  have hhash : HashRespects outerOnKey := by
    intro a b h
    have hcol : (outerOnKey.conditions 0).holds (a 0) (b 0) := h 0 rfl
    have heq : a 0 = b 0 := by
      cases ha : a 0 <;> cases hb : b 0 <;>
        simp_all [outerOnKey,Comparison.holds]
    simp [outerOnKey,heq]
  refine ((hash_join_is_sql_join outerOnKey rfl hhash 2048 outerLocals
    [keyChunk (some 1),keyChunk (some 2)]).2 parity 2 1 _ _ ?_).trans (List.Perm.of_eq rfl)
  refine ⟨fun hash => Nat.mod_lt _ (by decide),List.Perm.of_eq rfl,rfl,rfl,?_,
    by decide,le_rfl,⟨List.Perm.of_eq rfl,List.Perm.of_eq rfl,rfl⟩,rfl⟩
  exact cons_ne_nil _ _

end PredTrans.Join
