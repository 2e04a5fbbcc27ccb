import Mathlib

/-! A column segment stores runs, that is values with a 16-bit count. A null extends the current
run. A run is cut when its count reaches the limit of the counter and when a different value
arrives. -/

namespace PredTrans.Compression

def blockSize : Nat := 262144 - 8
def standardVectorSize : Nat := 2048

def alignValue (n : Nat) : Nat := (n + 7) / 8 * 8

/-- The sizes of the types that can be run length encoded. -/
inductive TypeSize where
  | one
  | two
  | four
  | eight
  | sixteen
  deriving DecidableEq, Repr

def TypeSize.bytes : TypeSize → Nat
  | one => 1
  | two => 2
  | four => 4
  | eight => 8
  | sixteen => 16

namespace Rle

def rleHeaderSize : Nat := 8
def rleCountSize : Nat := 2
def rleCountMaximum : Nat := 65535

def maxRleCount (size : TypeSize) : Nat :=
  let entrySize := size.bytes + rleCountSize
  let entryCount := (blockSize - rleHeaderSize) / entrySize
  entryCount / standardVectorSize * standardVectorSize

structure RleSegment (T : Type*) where
  start : Nat
  count : Nat
  /-- The values with their counts. -/
  entries : List (T × Nat)
  deriving Repr

namespace RleSegment

variable {T : Type*}

def empty (start : Nat) : RleSegment T := ⟨start, 0, []⟩

end RleSegment

structure RleState (T : Type*) where
  lastValue : T
  lastSeenCount : Nat
  allNull : Bool

structure RleCompressState (T : Type*) where
  state : RleState T
  flushed : List (RleSegment T)
  current : RleSegment T

namespace RleCompressState

variable {T : Type*} [BEq T]

def initial (nullValue : T) (rowStart : Nat) : RleCompressState T where
  state := ⟨nullValue, 0, true⟩
  flushed := []
  current := .empty rowStart

/-- The checkpoint keeps a segment only if it has rows. -/
def flushSegment (c : RleCompressState T) : List (RleSegment T) :=
  if c.current.count = 0 then c.flushed else c.flushed ++ [c.current]

def writeValue (size : TypeSize) (c : RleCompressState T) (value : T) (count : Nat) :
    RleCompressState T :=
  let c := { c with current := { c.current with
    count := c.current.count + count
    entries := c.current.entries ++ [(value, count)] } }
  if c.current.entries.length = maxRleCount size then
    { c with
      flushed := c.flushSegment
      current := .empty (c.current.start + c.current.count) }
  else c

/-- `RLEState::Flush` with the writer of the compression. -/
def flush (size : TypeSize) (c : RleCompressState T) : RleCompressState T :=
  c.writeValue size c.state.lastValue c.state.lastSeenCount

/-- The part of `Update` that takes in one value. -/
def take (size : TypeSize) (c : RleCompressState T) (value : T) (valid : Bool) :
    RleCompressState T :=
  if valid then
    if c.state.allNull then
      { c with state := ⟨value, c.state.lastSeenCount + 1, false⟩ }
    else if c.state.lastValue == value then
      { c with state := { c.state with lastSeenCount := c.state.lastSeenCount + 1 } }
    else
      let c := c.flush size
      { c with state := { c.state with lastValue := value, lastSeenCount := 1 } }
  else
    { c with state := { c.state with lastSeenCount := c.state.lastSeenCount + 1 } }

/-- The part of `Update` that cuts a run at the limit of its counter. -/
def cut (size : TypeSize) (c : RleCompressState T) : RleCompressState T :=
  if c.state.lastSeenCount = rleCountMaximum then
    let c := c.flush size
    { c with state := { c.state with lastSeenCount := 0 } }
  else c

def update (size : TypeSize) (c : RleCompressState T) (row : T × Bool) : RleCompressState T :=
  (c.take size row.1 row.2).cut size

def append (size : TypeSize) (c : RleCompressState T) (vector : List (T × Bool)) :
    RleCompressState T :=
  vector.foldl (update size) c

def finalize (size : TypeSize) (c : RleCompressState T) : List (RleSegment T) :=
  (c.flush size).flushSegment

end RleCompressState

/-- The segments that a column is compressed to, vector by vector. -/
def compress {T : Type*} [BEq T] (size : TypeSize) (nullValue : T) (rowStart : Nat)
    (vectors : List (List (T × Bool))) : List (RleSegment T) :=
  ((vectors.foldl (RleCompressState.append size) (.initial nullValue rowStart)).finalize size)

structure RleScanState where
  entryPos : Nat
  positionInEntry : Nat
  deriving DecidableEq, Repr

namespace RleScanState

variable {T : Type*}

def initial : RleScanState := ⟨0, 0⟩

/-- The stored count of the current run. -/
def runLength (s : RleSegment T) (st : RleScanState) : Nat :=
  ((s.entries[st.entryPos]?).map Prod.snd).getD 0

def value? (s : RleSegment T) (st : RleScanState) : Option T :=
  (s.entries[st.entryPos]?).map Prod.fst

/-- Advances in the current run, and to the next one if it is exhausted. -/
def advance (s : RleSegment T) (st : RleScanState) (n : Nat) : RleScanState :=
  let st := { st with positionInEntry := st.positionInEntry + n }
  if st.positionInEntry ≥ runLength s st then ⟨st.entryPos + 1, 0⟩ else st

def skip (s : RleSegment T) (st : RleScanState) : Nat → RleScanState
  | 0 => st
  | n + 1 => skip s (st.advance s 1) n

/-- The loop of the scan, with the values that it puts into the result. -/
def scanFlat (s : RleSegment T) (st : RleScanState) : Nat → List (Option T) × RleScanState
  | 0 => ([], st)
  | n + 1 =>
    let rest := scanFlat s (st.advance s 1) n
    (st.value? s :: rest.1, rest.2)

def canEmitConstantVector (s : RleSegment T) (st : RleScanState) (scanCount : Nat) : Bool :=
  scanCount = standardVectorSize ∧ runLength s st - st.positionInEntry ≥ scanCount

/-- `RLEScanPartialInternal`; only a scan of an entire vector may emit a constant vector. -/
def scanPartialInternal (s : RleSegment T) (entireVector : Bool) (st : RleScanState)
    (scanCount : Nat) :
    List (Option T) × RleScanState :=
  if entireVector && canEmitConstantVector s st scanCount then
    (List.replicate scanCount (st.value? s), st.advance s scanCount)
  else scanFlat s st scanCount

end RleScanState

/-- A call of the reader. -/
inductive RleRead where
  | skip (count : Nat)
  | scanPartial (count : Nat)
  | scan (count : Nat)
  deriving DecidableEq, Repr

def RleRead.count : RleRead → Nat
  | skip n => n
  | scanPartial n => n
  | scan n => n

/-- The values that a list of calls returns, one for each row it passes over; a skipped
row has none. -/
def readCalls {T : Type*} (s : RleSegment T) (st : RleScanState) :
    List RleRead → List (Option (Option T))
  | [] => []
  | .skip n :: calls => List.replicate n none ++ readCalls s (st.skip s n) calls
  | .scanPartial n :: calls =>
    let r := st.scanPartialInternal s false n
    r.1.map some ++ readCalls s r.2 calls
  | .scan n :: calls =>
    let r := st.scanPartialInternal s true n
    r.1.map some ++ readCalls s r.2 calls

def fetchRow {T : Type*} (s : RleSegment T) (row : Nat) : Option T :=
  (RleScanState.initial.skip s row).value? s

end Rle

end PredTrans.Compression
