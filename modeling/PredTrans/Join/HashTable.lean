import Mathlib

/-! The build side of a hash join and the pointer chasing of its probe side. The keys of a row are
`Fin n → Option V`; a selection vector is the list of the row numbers in it; a data pointer is an
address with the row stored there, and a chain of pointers is a list. -/

namespace PredTrans.Join

inductive Comparison where
  | equal
  | notEqual
  | lessThan
  | greaterThan
  | lessThanOrEqual
  | greaterThanOrEqual
  | distinctFrom
  | notDistinctFrom
deriving DecidableEq, Repr

/-- What one condition says about a probe value and a build value. -/
def Comparison.holds [LinearOrder V] : Comparison → Option V → Option V → Bool
  | .equal, some a, some b => a = b
  | .notEqual, some a, some b => a ≠ b
  | .lessThan, some a, some b => a < b
  | .greaterThan, some a, some b => b < a
  | .lessThanOrEqual, some a, some b => a ≤ b
  | .greaterThanOrEqual, some a, some b => b ≤ a
  | .distinctFrom, a, b => a ≠ b
  | .notDistinctFrom, a, b => a = b
  | _, _, _ => false

/-- Conditions under which NULL keys can have matches. -/
def Comparison.nullValuesAreEqual : Comparison → Bool
  | .distinctFrom | .notDistinctFrom => true
  | _ => false

/-- Conditions whose columns are hashed. -/
def Comparison.isEquality : Comparison → Bool
  | .equal | .notDistinctFrom => true
  | _ => false

inductive JoinType where
  | left
  | right
  | inner
  | outer
  | semi
  | anti
  | mark
  | single
  | rightSemi
  | rightAnti
deriving DecidableEq, Repr

def propagatesBuildSide : JoinType → Bool
  | .outer | .right | .rightAnti | .rightSemi => true
  | _ => false

/-- The keys of one row. -/
abbrev Keys (n : Nat) (V : Type) := Fin n → Option V

/-- What is fixed when the table is made. -/
structure JoinConfig (n : Nat) (V : Type) where
  joinType : JoinType
  conditions : Fin n → Comparison
  /-- The combined hash of the columns of the equality conditions. -/
  hash : Keys n V → BitVec 64
  /-- The number of correlated columns of a correlated MARK join. -/
  correlatedTypes : Nat := 0

/-- A chunk of keys and payload; nothing reads a row past `size`. -/
structure DataChunk (n : Nat) (V P : Type) where
  size : Nat
  keys : Nat → Keys n V
  payload : Nat → P

/-- A row of the table: keys, payload and hash. -/
structure TupleRow (n : Nat) (V P : Type) where
  keys : Keys n V
  payload : P
  hash : BitVec 64

/-- A table in its sink phase. `correlatedCounts` is the aggregate table of a correlated MARK join:
`COUNT(*)` and the count of the last key for every group of correlated columns. -/
structure JoinHashTable (n : Nat) (V P : Type) where
  sinkCollection : List (TupleRow n V P) := []
  hasNull : Bool := false
  correlatedCounts : Keys n V → Nat × Nat := fun _ => (0, 0)

namespace JoinConfig

variable {n : Nat} {V P : Type} (cfg : JoinConfig n V)

/-- `RowMatcher::Match` for one probe row and one build row. -/
def rowMatches [LinearOrder V] (probe build : Keys n V) : Bool :=
  (List.finRange n).all fun col => (cfg.conditions col).holds (probe col) (build col)

def filterNullValues (keys : Nat → Keys n V) (col : Fin n) (sel : List Nat) : List Nat :=
  sel.filter fun idx => (keys idx col).isSome

/-- The rows of a chunk whose keys can have a match. -/
def prepareKeys (keys : Nat → Keys n V) (size : Nat) (buildSide : Bool) : List Nat :=
  if buildSide && propagatesBuildSide cfg.joinType then List.range size
  else (List.finRange n).foldl (fun sel col =>
    if (cfg.conditions col).nullValuesAreEqual then sel else filterNullValues keys col sel)
    (List.range size)

/-- The correlated columns of a row. -/
def group (keys : Keys n V) : Keys n V := fun col =>
  if col.val < cfg.correlatedTypes then keys col else none

/-- The column that follows the correlated ones. -/
def lastKey (keys : Keys n V) : Option V :=
  if h : cfg.correlatedTypes < n then keys ⟨cfg.correlatedTypes, h⟩ else none

def isCorrelated : Bool := cfg.joinType = .mark && 0 < cfg.correlatedTypes

/-- `AddChunk` for one row of the chunk. -/
def addCount [DecidableEq V] (counts : Keys n V → Nat × Nat) (keys : Keys n V) :
    Keys n V → Nat × Nat :=
  Function.update counts (cfg.group keys)
    ((counts (cfg.group keys)).1 + 1,
      (counts (cfg.group keys)).2 + if (cfg.lastKey keys).isSome then 1 else 0)

def addChunk [DecidableEq V] (counts : Keys n V → Nat × Nat) (chunk : DataChunk n V P) :
    Keys n V → Nat × Nat :=
  (List.range chunk.size).foldl (fun counts i => cfg.addCount counts (chunk.keys i)) counts

/-- The row that is appended for row `i` of a chunk. -/
def appendedRow (chunk : DataChunk n V P) (i : Nat) : TupleRow n V P where
  keys := chunk.keys i
  payload := chunk.payload i
  hash := cfg.hash (chunk.keys i)

def build [DecidableEq V] (ht : JoinHashTable n V P) (chunk : DataChunk n V P) :
    JoinHashTable n V P :=
  if chunk.size = 0 then ht
  else
    let sel := cfg.prepareKeys chunk.keys chunk.size true
    { sinkCollection := ht.sinkCollection ++ sel.map (cfg.appendedRow chunk)
      hasNull := ht.hasNull || sel.length < chunk.size
      correlatedCounts :=
        if cfg.isCorrelated then cfg.addChunk ht.correlatedCounts chunk
        else ht.correlatedCounts }

/-- The local table of one thread: everything the thread sinks, chunk by chunk. -/
def sink [DecidableEq V] (chunks : List (DataChunk n V P)) : JoinHashTable n V P :=
  chunks.foldl cfg.build {}

def merge (ht other : JoinHashTable n V P) : JoinHashTable n V P where
  sinkCollection := ht.sinkCollection ++ other.sinkCollection
  hasNull := if cfg.joinType = .mark then ht.hasNull || other.hasNull else ht.hasNull
  correlatedCounts :=
    if cfg.isCorrelated then fun g =>
      ((ht.correlatedCounts g).1 + (other.correlatedCounts g).1,
        (ht.correlatedCounts g).2 + (other.correlatedCounts g).2)
    else ht.correlatedCounts

/-- The global table: the local tables merged into an empty one. -/
def combine [DecidableEq V] (locals : List (List (DataChunk n V P))) : JoinHashTable n V P :=
  (locals.map cfg.sink).foldl cfg.merge {}

end JoinConfig

variable {n : Nat} {V P : Type}

/-- A pointer to a stored row. -/
abbrev Pointer (n : Nat) (V P : Type) := Nat × TupleRow n V P

/-- The rows of a data collection with their addresses. -/
def rowLocations (rows : List (TupleRow n V P)) : List (Pointer n V P) :=
  rows.zipIdx.map Prod.swap

/-- One round of `InsertHashesLoop`: the row becomes the head of its chain. -/
def insertHash (bitmask : BitVec 64) (table : BitVec 64 → List (Pointer n V P))
    (row : Pointer n V P) : BitVec 64 → List (Pointer n V P) :=
  Function.update table (row.2.hash &&& bitmask) (row :: table (row.2.hash &&& bitmask))

/-- `InitializePointerTable` and `Finalize`. -/
def finalize (bitmask : BitVec 64) (rows : List (TupleRow n V P)) :
    BitVec 64 → List (Pointer n V P) :=
  (rowLocations rows).foldl (insertHash bitmask) fun _ => []

/-- The state of probing one chunk. -/
structure ScanStructure (n : Nat) (V P : Type) where
  pointers : Nat → List (Pointer n V P)
  selVector : List Nat
  foundMatch : Nat → Bool := fun _ => false
  finished : Bool := false

/-- `Probe`, with `InitializeSelectionVector`: only rows with a non-empty chain stay selected. -/
def JoinConfig.probe (cfg : JoinConfig n V) (bitmask : BitVec 64)
    (table : BitVec 64 → List (Pointer n V P)) (keys : Nat → Keys n V) (size : Nat) :
    ScanStructure n V P :=
  let pointers := fun idx => table (cfg.hash (keys idx) &&& bitmask)
  { pointers
    selVector := (cfg.prepareKeys keys size false).filter fun idx => !(pointers idx).isEmpty }

namespace ScanStructure

/-- Whether the row that selected row `idx` points to satisfies all conditions. -/
def headMatches [LinearOrder V] (cfg : JoinConfig n V) (keys : Nat → Keys n V)
    (ss : ScanStructure n V P) (idx : Nat) : Bool :=
  match ss.pointers idx with
  | [] => false
  | row :: _ => cfg.rowMatches (keys idx) row.2.keys

/-- `ResolvePredicates`: the selected rows that match and those that do not. -/
def resolvePredicates [LinearOrder V] (cfg : JoinConfig n V) (keys : Nat → Keys n V)
    (ss : ScanStructure n V P) : List Nat × List Nat :=
  ss.selVector.partition (ss.headMatches cfg keys)

def setFound (ss : ScanStructure n V P) (sel : List Nat) : ScanStructure n V P :=
  { ss with foundMatch := fun idx => ss.foundMatch idx || sel.contains idx }

/-- Moves the pointers of the given rows on and selects those that are not exhausted. -/
def advancePointers (ss : ScanStructure n V P) (sel : List Nat) : ScanStructure n V P :=
  let pointers := fun idx => if idx ∈ sel then (ss.pointers idx).tail else ss.pointers idx
  { ss with
    pointers
    selVector := sel.filter fun idx => !(pointers idx).isEmpty }

/-- `ScanKeyMatches`. `fuel` bounds the number of rounds of the loop. -/
def scanKeyMatches [LinearOrder V] (cfg : JoinConfig n V) (keys : Nat → Keys n V) :
    Nat → ScanStructure n V P → ScanStructure n V P
  | 0, ss => ss
  | fuel + 1, ss =>
    if ss.selVector = [] then ss
    else
      let (matchSel, noMatchSel) := ss.resolvePredicates cfg keys
      scanKeyMatches cfg keys fuel ((ss.setFound matchSel).advancePointers noMatchSel)

end ScanStructure

end PredTrans.Join
