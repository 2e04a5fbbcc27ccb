import PredTrans.Join.HashTable

/-! `ScanStructure::Next` for each join type, the stages that call it until it is exhausted,
`ScanFullOuter`, and the rounds of an external join. A side of a result row that is absent or all
NULL is `none`; the "found" booleans are a function of the address. -/

namespace PredTrans.Join

variable {n : Nat} {V L P : Type}

/-- A row of the result. -/
abbrev ResultRow (L P : Type) := Option L × Option P

/-- What one call of `Next` leaves: the scan structure, the "found" booleans of the build rows and
the rows of the result chunk. -/
structure Scanned (n : Nat) (V L P : Type) where
  ss : ScanStructure n V P
  found : Nat → Bool
  result : List (ResultRow L P)

namespace ScanStructure

variable [LinearOrder V] (cfg : JoinConfig n V)

/-- Sets the match flags; an INNER join has none. -/
def recordMatches (ss : ScanStructure n V P) (sel : List Nat) : ScanStructure n V P :=
  if cfg.joinType = .inner then ss else ss.setFound sel

/-- `ScanInnerJoin`: moves on until some selected row matches. -/
def scanInnerJoin (keys : Nat → Keys n V) :
    Nat → ScanStructure n V P → ScanStructure n V P × List Nat
  | 0, ss => (ss, [])
  | fuel + 1, ss =>
    let result := (ss.resolvePredicates cfg keys).1
    let ss := ss.recordMatches cfg result
    if result ≠ [] then (ss, result)
    else
      let ss := ss.advancePointers ss.selVector
      if ss.selVector = [] then (ss, []) else scanInnerJoin keys fuel ss

/-- The pointers of the given rows. -/
def heads (ss : ScanStructure n V P) (sel : List Nat) : List (Nat × Pointer n V P) :=
  sel.flatMap fun idx => (ss.pointers idx).head?.toList.map fun row => (idx, row)

def markFound (found : Nat → Bool) (rows : List (Nat × Pointer n V P)) : Nat → Bool :=
  fun address => found address || rows.any fun row => row.2.1 = address

/-- The result rows of matching pairs. -/
def emit (left : Nat → L) (rows : List (Nat × Pointer n V P)) : List (ResultRow L P) :=
  rows.map fun row => (some (left row.1), some row.2.2.payload)

variable (fuel : Nat) (chunk : DataChunk n V L) (ss : ScanStructure n V P) (found : Nat → Bool)

def nextInnerJoin : Scanned n V L P :=
  if ss.selVector = [] then ⟨ss, found, []⟩
  else
    let (ss, result) := scanInnerJoin cfg chunk.keys fuel ss
    if result = [] then ⟨ss, found, []⟩
    else
      let rows := ss.heads result
      { ss := ss.advancePointers ss.selVector
        found := if propagatesBuildSide cfg.joinType then markFound found rows else found
        result := if cfg.joinType = .rightSemi ∨ cfg.joinType = .rightAnti then []
          else emit chunk.payload rows }

/-- The rows of the chunk with the given match flag, without columns of the right side. -/
def leftRows (flag : Bool) : List (ResultRow L P) :=
  ((List.range chunk.size).filter fun idx => ss.foundMatch idx == flag).map fun idx =>
    (some (chunk.payload idx), none)

def nextSemiOrAntiJoin (flag : Bool) (fuel : Nat) (chunk : DataChunk n V L)
    (ss : ScanStructure n V P) (found : Nat → Bool) : Scanned n V L P :=
  let ss := ss.scanKeyMatches cfg chunk.keys fuel
  ⟨{ ss with finished := true }, found, ss.leftRows chunk flag⟩

def nextLeftJoin : Scanned n V L P :=
  let s := nextInnerJoin cfg fuel chunk ss found
  if s.result = [] then ⟨{ s.ss with finished := true }, s.found, s.ss.leftRows chunk false⟩
  else s

/-- Rows that matched keep their pointer at the match. -/
def nextSingleJoin : Scanned n V L P :=
  let ss := ss.scanKeyMatches cfg chunk.keys fuel
  { ss := { ss with finished := true }
    found
    result := (List.range chunk.size).map fun idx =>
      (some (chunk.payload idx),
        if ss.foundMatch idx then (ss.pointers idx).head?.map fun row => row.2.payload else none) }

/-- `Next`. The marker column of a MARK join is no row of the two sides: see `nextMarkJoin`. -/
def next : Scanned n V L P :=
  if ss.finished then ⟨ss, found, []⟩
  else match cfg.joinType with
    | .inner | .right | .rightAnti | .rightSemi => nextInnerJoin cfg fuel chunk ss found
    | .semi => nextSemiOrAntiJoin cfg true fuel chunk ss found
    | .anti => nextSemiOrAntiJoin cfg false fuel chunk ss found
    | .outer | .left => nextLeftJoin cfg fuel chunk ss found
    | .single => nextSingleJoin cfg fuel chunk ss found
    | .mark => ⟨ss, found, []⟩

/-- The calls of `Next` that follow the first one: until the pointers are exhausted and the result
chunk is empty. -/
def drain (fuel : Nat) (chunk : DataChunk n V L) :
    Nat → ScanStructure n V P → (Nat → Bool) → (Nat → Bool) × List (ResultRow L P)
  | 0, _, found => (found, [])
  | calls + 1, ss, found =>
    let s := next cfg fuel chunk ss found
    if s.ss.selVector = [] ∧ s.result = [] then (s.found, s.result)
    else
      let (found, rest) := drain fuel chunk calls s.ss s.found
      (found, s.result ++ rest)

end ScanStructure

namespace JoinConfig

variable (cfg : JoinConfig n V)

def emptyResultIfRHSIsEmpty : Bool :=
  match cfg.joinType with
  | .inner | .right | .semi | .rightSemi | .rightAnti => true
  | _ => false

/-- `ConstructEmptyJoinResult` (the marker column of a MARK join apart). -/
def constructEmptyJoinResult (chunk : DataChunk n V L) : List (ResultRow L P) :=
  match cfg.joinType with
  | .anti | .left | .outer | .single =>
    (List.range chunk.size).map fun idx => (some (chunk.payload idx), none)
  | _ => []

variable [LinearOrder V]

/-- All calls for one probe chunk: `Probe`, a first `Next` and the ones that follow. -/
def probeChunk (bitmask : BitVec 64) (rows : List (TupleRow n V P)) (chunk : DataChunk n V L)
    (found : Nat → Bool) : (Nat → Bool) × List (ResultRow L P) :=
  let ss := cfg.probe bitmask (finalize bitmask rows) chunk.keys chunk.size
  let s := ss.next cfg rows.length chunk found
  let (found, rest) := s.ss.drain cfg rows.length chunk (rows.length + 2) s.found
  (found, s.result ++ rest)

/-- The probe chunks of a round, one after the other. -/
def probeChunks (bitmask : BitVec 64) (rows : List (TupleRow n V P)) :
    List (DataChunk n V L) → (Nat → Bool) → (Nat → Bool) × List (ResultRow L P)
  | [], found => (found, [])
  | chunk :: chunks, found =>
    let (found, result) := cfg.probeChunk bitmask rows chunk found
    let (found, rest) := probeChunks bitmask rows chunks found
    (found, result ++ rest)

end JoinConfig

/-- A `JoinHTScanState`: the chunks that are left, the current one first, and `offset_in_chunk`. -/
structure HTScanState (n : Nat) (V P : Type) where
  chunks : List (List (Pointer n V P))
  offset : Nat := 0

/-- The loop over a chunk: the found entries, and the offset to go on at if the result is full. -/
def scanRows (select : Pointer n V P → Bool) (vectorSize : Nat) :
    List (Pointer n V P) → Nat → List (Pointer n V P) → List (Pointer n V P) × Option Nat
  | [], _, entries => (entries, none)
  | row :: rows, i, entries =>
    if select row then
      if (entries ++ [row]).length = vectorSize then (entries ++ [row], some (i + 1))
      else scanRows select vectorSize rows (i + 1) (entries ++ [row])
    else scanRows select vectorSize rows (i + 1) entries

/-- One call of `ScanFullOuter`. -/
def scanFullOuter (select : Pointer n V P → Bool) (vectorSize : Nat) :
    List (List (Pointer n V P)) → Nat → List (Pointer n V P) →
      List (Pointer n V P) × HTScanState n V P
  | [], _, entries => (entries, { chunks := [] })
  | chunk :: chunks, offset, entries =>
    match scanRows select vectorSize (chunk.drop offset) offset entries with
    | (entries, some offset) => (entries, { chunks := chunk :: chunks, offset })
    | (entries, none) => scanFullOuter select vectorSize chunks 0 entries

/-- `ExternalScanHT` until a call finds nothing. -/
def scanTask (select : Pointer n V P → Bool) (vectorSize : Nat) :
    Nat → HTScanState n V P → List (Pointer n V P)
  | 0, _ => []
  | calls + 1, state =>
    let (entries, state) := scanFullOuter select vectorSize state.chunks state.offset []
    if entries = [] then [] else entries ++ scanTask select vectorSize calls state

namespace JoinConfig

variable (cfg : JoinConfig n V)

/-- The scan of a whole table: each task is a range of the chunks of the data collection. -/
def scanHT (vectorSize : Nat) (tasks : List (List (List (Pointer n V P)))) (found : Nat → Bool) :
    List (ResultRow L P) :=
  if propagatesBuildSide cfg.joinType then
    let select := fun row : Pointer n V P => found row.1 == decide (cfg.joinType = .rightSemi)
    tasks.flatMap fun chunks =>
      (scanTask select vectorSize (chunks.flatten.length + 1) { chunks }).map fun row =>
        (none, some row.2.payload)
  else []

/-- One round: a table that holds `rows` is probed with the chunks and then scanned. -/
structure Round (n : Nat) (V L P : Type) where
  bitmask : BitVec 64
  rows : List (TupleRow n V P)
  probe : List (DataChunk n V L)
  tasks : List (List (List (Pointer n V P)))

variable [LinearOrder V]

def runRound (vectorSize : Nat) (round : Round n V L P) : List (ResultRow L P) :=
  if round.rows = [] then
    if cfg.emptyResultIfRHSIsEmpty then [] else round.probe.flatMap cfg.constructEmptyJoinResult
  else
    let (found, result) := cfg.probeChunks round.bitmask round.rows round.probe fun _ => false
    result ++ cfg.scanHT vectorSize round.tasks found

/-- The rows of a chunk that are selected. -/
def slice (chunk : DataChunk n V L) (sel : List Nat) : DataChunk n V L where
  size := sel.length
  keys := fun i => chunk.keys (sel.getD i 0)
  payload := fun i => chunk.payload (sel.getD i 0)

/-- `ProbeAndSpill`: the slice that can be probed now and the rows that are spilled. -/
def probeAndSpill (partition : BitVec 64 → Nat) (partitionEnd : Nat) (chunk : DataChunk n V L) :
    DataChunk n V L × List (TupleRow n V L) :=
  let (trueSel, falseSel) := (List.range chunk.size).partition fun i =>
    partition (cfg.hash (chunk.keys i)) < partitionEnd
  (slice chunk trueSel, falseSel.map (cfg.appendedRow chunk))

end JoinConfig

/-- The loop of `PrepareExternalFinalize` over the partitions that are left: the end of the round.
A partition that does not fit is taken all the same while the round has no rows. -/
def takePartitions (counts sizes pointerTableSize : Nat → Nat) (maxHTSize : Nat) :
    Nat → Nat → Nat → Nat → Nat
  | 0, partitionIdx, _, _ => partitionIdx
  | left + 1, partitionIdx, count, dataSize =>
    let inclCount := count + counts partitionIdx
    let inclDataSize := dataSize + sizes partitionIdx
    if 0 < count ∧ maxHTSize < inclDataSize + pointerTableSize inclCount then partitionIdx
    else takePartitions counts sizes pointerTableSize maxHTSize left (partitionIdx + 1) inclCount
      inclDataSize

/-- `PrepareExternalFinalize`: the end of the next round, or nothing when all partitions are done.
-/
def prepareExternalFinalize (counts sizes pointerTableSize : Nat → Nat)
    (maxHTSize numPartitions partitionEnd : Nat) : Option Nat :=
  if partitionEnd = numPartitions then none
  else some (takePartitions counts sizes pointerTableSize maxHTSize (numPartitions - partitionEnd)
    partitionEnd 0 0)

end PredTrans.Join
