import PredTrans.Compression.Rle
import PredTrans.Compression.Segment
import PredTrans.Compression.BitpackingPrimitives

/-! Values are collected in groups of 2048 and written as a constant, as a constant delta, as packed
deltas or as packed differences to a frame of reference. Data grows up in the block, metadata grows
down from its end. All arithmetic is modulo the width of the type. -/

namespace PredTrans.Compression.Bitpacking

open Library BitpackingPrimitives BitVec

def metadataGroupSize : Nat := 2048

inductive IntegerType where
  | int8
  | int16
  | int32
  | int64
  | int128
  | uint8
  | uint16
  | uint32
  | uint64
  | uint128
  deriving DecidableEq, Repr

namespace IntegerType

/-- The size in bytes. -/
def size : IntegerType → Nat
  | int8 | uint8 => 1
  | int16 | uint16 => 2
  | int32 | uint32 => 4
  | int64 | uint64 => 8
  | int128 | uint128 => 16

def bits (t : IntegerType) : Nat := t.size * 8

def isSigned : IntegerType → Bool
  | int8 | int16 | int32 | int64 | int128 => true
  | uint8 | uint16 | uint32 | uint64 | uint128 => false

end IntegerType

inductive BitpackingMode where
  | invalid
  | auto
  | constant
  | constantDelta
  | deltaFor
  | frameOfReference
  deriving DecidableEq, Repr

def BitpackingMode.toByte : BitpackingMode → Nat
  | invalid => 0
  | auto => 1
  | constant => 2
  | constantDelta => 3
  | deltaFor => 4
  | frameOfReference => 5

def BitpackingMode.fromByte : Nat → Option BitpackingMode
  | 0 => some invalid
  | 1 => some auto
  | 2 => some constant
  | 3 => some constantDelta
  | 4 => some deltaFor
  | 5 => some frameOfReference
  | _ => none

section Arithmetic

variable {w : Nat}

/-- The number that bits stand for. -/
def valueOf (signed : Bool) (x : BitVec w) : Int := if signed then x.toInt else x.toNat

def numericMinimum (signed : Bool) : BitVec w := if signed then intMin w else 0

def numericMaximum (signed : Bool) : BitVec w := if signed then intMax w else allOnes w

def minValue (signed : Bool) (a b : BitVec w) : BitVec w :=
  if valueOf signed a < valueOf signed b then a else b

def maxValue (signed : Bool) (a b : BitVec w) : BitVec w :=
  if valueOf signed a > valueOf signed b then a else b

/-- Whether a difference is a number of the type. -/
def inRange (w : Nat) (signed : Bool) (x : Int) : Bool :=
  if signed then -2 ^ (w - 1) ≤ x ∧ x < 2 ^ (w - 1) else 0 ≤ x ∧ x < 2 ^ w

/-- The check of `Uhugeint::TrySubtractInPlace`, which compares the upper halves only. -/
def uhugeintNoOverflow (l r : BitVec w) : Bool :=
  let lower (x : BitVec w) := x.toNat % 2 ^ 64
  let upper (x : BitVec w) := x.toNat / 2 ^ 64
  let borrow := if lower l < lower r then 1 else 0
  (upper l + 2 ^ 65 - upper r - borrow) % 2 ^ 64 ≤ upper l

/-- `TrySubtractOperator`: whether it succeeds, and what it leaves in a result that was
zero before. -/
def trySubtract (signed : Bool) (l r : BitVec w) : Bool × BitVec w :=
  let success :=
    if w = 128 ∧ signed = false then uhugeintNoOverflow l r
    else inRange w signed (valueOf signed l - valueOf signed r)
  if success then (true, l - r)
  else if w = 128 ∧ signed = true then (false, l)
  else if w = 128 ∨ (w = 64 ∧ signed = true) then (false, l - r)
  else (false, 0)

/-- `MinimumBitWidth` with the signedness of the type. -/
def regularBitWidth (typeSize : Nat) (signed : Bool) (x : BitVec w) : Nat :=
  if signed then
    if x = intMin w then typeSize * 8
    else if x.toInt.natAbs = 0 then 0
    else getEffectiveWidth typeSize (1 + shifts x.toInt.natAbs)
  else minimumBitWidth typeSize x.toNat

end Arithmetic

/-- What is written for a group. -/
inductive GroupData (t : IntegerType) where
  | constant (value : BitVec t.bits)
  | constantDelta (frame delta : BitVec t.bits)
  | deltaFor (frame : BitVec t.bits) (width : Nat) (deltaOffset : BitVec t.bits)
      (values : List Nat)
  | frameOfReference (frame : BitVec t.bits) (width : Nat) (values : List Nat)

structure Group (t : IntegerType) where
  data : GroupData t
  count : Nat

structure BitpackingState (t : IntegerType) where
  /-- `compression_buffer`; NULL rows keep what was there before. -/
  buffer : Nat → BitVec t.bits
  count : Nat
  minimum : BitVec t.bits
  maximum : BitVec t.bits
  allValid : Bool
  allInvalid : Bool

structure DeltaStats (t : IntegerType) where
  deltas : Nat → BitVec t.bits
  minimumDelta : BitVec t.bits
  maximumDelta : BitVec t.bits
  minMaxDeltaDiff : BitVec t.bits
  deltaOffset : BitVec t.bits

inductive FlushResult (t : IntegerType) where
  | nothing
  | failed
  | written (group : Group t)

namespace BitpackingState

variable {t : IntegerType}

def reset (buffer : Nat → BitVec t.bits) : BitpackingState t where
  buffer
  count := 0
  minimum := numericMaximum t.isSigned
  maximum := numericMinimum t.isSigned
  allValid := true
  allInvalid := true

/-- The element before `i`; the internal buffer has a zero before the first one. -/
def previous (st : BitpackingState t) (i : Nat) : BitVec t.bits :=
  if i = 0 then 0 else st.buffer (i - 1)

/-- `CalculateDeltaStats`; the deltas are numbers of the signed type. -/
def calculateDeltaStats (st : BitpackingState t) : Option (DeltaStats t) :=
  if valueOf t.isSigned st.maximum > 2 ^ (t.bits - 1) - 1 then none
  else if st.count < 2 then none
  else if !st.allValid then none
  else
    let canDoAll := !t.isSigned ||
      ((trySubtract true st.minimum st.maximum).1 && (trySubtract true st.maximum st.minimum).1)
    if canDoAll || (List.range st.count).all (fun i =>
      (trySubtract true (st.buffer i) (st.previous i)).1) then
      let delta i := st.buffer i - st.previous i
      let maximumDelta := ((List.range (st.count - 1)).map (fun i => delta (i + 1))).foldl
        (maxValue true) (numericMinimum true)
      let minimumDelta := ((List.range (st.count - 1)).map (fun i => delta (i + 1))).foldl
        (minValue true) (numericMaximum true)
      let diff := trySubtract true maximumDelta minimumDelta
      let offset := trySubtract true (st.buffer 0) minimumDelta
      if diff.1 && offset.1 then
        some ⟨fun i => if i = 0 then minimumDelta
          else delta i, minimumDelta, maximumDelta, diff.2, offset.2⟩
      else none
    else none

/-- The buffer with the frame of reference subtracted. -/
def subtractFrameOfReference (buffer : Nat → BitVec t.bits) (count : Nat)
    (frameOfReference : BitVec t.bits) : Nat → BitVec t.bits :=
  fun i => if i < count then buffer i - frameOfReference else buffer i

def valuesOf (buffer : Nat → BitVec t.bits) (count : Nat) : List Nat :=
  (List.range count).map (fun i => (buffer i).toNat)

/-- The last part of `Flush`. -/
def flushFor (st : BitpackingState t) : FlushResult t × BitpackingState t :=
  let diff := trySubtract t.isSigned st.maximum st.minimum
  if diff.1 then
    let buffer := subtractFrameOfReference st.buffer st.count st.minimum
    (.written ⟨.frameOfReference st.minimum (minimumBitWidth t.size diff.2.toNat)
      (valuesOf buffer st.count), st.count⟩,
      { st with buffer })
  else (.failed, st)

def flush (mode : BitpackingMode) (st : BitpackingState t) : FlushResult t × BitpackingState t :=
  if st.count = 0 then (.nothing, st)
  else if (st.allInvalid || st.maximum == st.minimum) && (mode == .auto || mode == .constant) then
    (.written ⟨.constant st.maximum, st.count⟩, st)
  else
    match st.calculateDeltaStats with
    | none => st.flushFor
    | some d =>
      if d.maximumDelta = d.minimumDelta ∧ mode ≠ .frameOfReference ∧ mode ≠ .deltaFor then
        (.written ⟨.constantDelta (st.buffer 0) d.maximumDelta, st.count⟩, st)
      else
        let deltaWidth := minimumBitWidth t.size d.minMaxDeltaDiff.toNat
        let regularWidth := regularBitWidth t.size t.isSigned
          (trySubtract t.isSigned st.maximum st.minimum).2
        if deltaWidth < regularWidth ∧ mode ≠ .frameOfReference then
          let deltas := subtractFrameOfReference d.deltas st.count d.minimumDelta
          (.written ⟨.deltaFor d.minimumDelta deltaWidth d.deltaOffset (valuesOf deltas st.count),
            st.count⟩,
            st)
        else st.flushFor

/-- The part of `Update` before the group may be flushed. -/
def add (st : BitpackingState t) (value : BitVec t.bits) (valid : Bool) : BitpackingState t :=
  { buffer := if valid then Function.update st.buffer st.count value else st.buffer
    count := st.count + 1
    minimum := if valid then minValue t.isSigned st.minimum value else st.minimum
    maximum := if valid then maxValue t.isSigned st.maximum value else st.maximum
    allValid := st.allValid && valid
    allInvalid := st.allInvalid && !valid }

def update (mode : BitpackingMode) (st : BitpackingState t) (value : BitVec t.bits) (valid : Bool) :
    FlushResult t × BitpackingState t :=
  let st := st.add value valid
  if st.count = metadataGroupSize then
    let flushed := st.flush mode
    (flushed.1, reset flushed.2.buffer)
  else (.nothing, st)

end BitpackingState

/-- `BitpackingAnalyze` for one vector after the other; it stops at a group that cannot
be written. -/
def analyze {t : IntegerType} (mode : BitpackingMode) (st : BitpackingState t) :
    List (BitVec t.bits × Bool) → Option (BitpackingState t)
  | [] => some st
  | (value, valid) :: rows =>
    match st.update mode value valid with
    | (.failed, _) => none
    | (_, st) => analyze mode st rows

/-- Whether `BitpackingAnalyze` and `BitpackingFinalAnalyze` accept the rows. -/
def accepts {t : IntegerType} (mode : BitpackingMode) (buffer : Nat → BitVec t.bits)
    (rows : List (BitVec t.bits × Bool)) : Bool :=
  match analyze mode (BitpackingState.reset buffer) rows with
  | none => false
  | some st =>
    match (st.flush mode).1 with
    | .failed => false
    | _ => true

def bitpackingHeaderSize : Nat := 8
def metadataSize : Nat := 4

def encodeMeta (mode : BitpackingMode) (offset : Nat) : Nat := offset ||| (mode.toByte <<< 24)

inductive CompressError where
  | errorInSizeCalculation
  deriving DecidableEq, Repr

/-- What is found in memory that was not written: new blocks, the temporary buffer of the
packing, and the compression buffer. -/
structure Environment (t : IntegerType) where
  blank : Memory
  tmp : List Nat
  length_tmp : tmp.length = 32
  buffer : Nat → BitVec t.bits

namespace GroupData

variable {t : IntegerType}

def mode : GroupData t → BitpackingMode
  | constant _ => .constant
  | constantDelta _ _ => .constantDelta
  | deltaFor _ _ _ _ => .deltaFor
  | .frameOfReference _ _ _ => .frameOfReference

/-- The bytes of a value of the type. -/
def valueBytes (x : BitVec t.bits) : List UInt8 := storeBytes t.size x.toNat

/-- What the writer puts into the block. -/
def bytes (P : Packer t.bits) (tmp : List Nat) : GroupData t → List UInt8
  | constant value => valueBytes value
  | constantDelta frame delta => valueBytes frame ++ valueBytes delta
  | deltaFor frame width offset values =>
    valueBytes frame ++ (storeBytes t.size width ++
      (valueBytes offset ++ packBuffer P tmp values width))
  | .frameOfReference frame width values =>
    valueBytes frame ++ (storeBytes t.size width ++ packBuffer P tmp values width)

/-- The space that the writer reserves. -/
def reserved (t : IntegerType) (count : Nat) : GroupData t → Nat
  | constant _ => t.size
  | constantDelta _ _ => 2 * t.size
  | deltaFor _ width _ _ => getRequiredSize count width + 3 * t.size
  | .frameOfReference _ width _ => getRequiredSize count width + 2 * t.size

end GroupData

structure CompressState (t : IntegerType) where
  flushed : List Segment
  start : Nat
  count : Nat
  block : Memory
  dataPtr : Nat
  metadataPtr : Nat
  state : BitpackingState t

namespace CompressState

variable {t : IntegerType}

def canStore (c : CompressState t) (dataBytes metaBytes : Nat) : Bool :=
  alignValue dataBytes + (blockSize - (c.metadataPtr - c.dataPtr) + metaBytes) ≤
    blockSize - bitpackingHeaderSize

def createEmptySegment (env : Environment t) (c : CompressState t) (rowStart : Nat) :
    CompressState t :=
  { c with
    start := rowStart
    count := 0
    block := env.blank
    dataPtr := bitpackingHeaderSize
    metadataPtr := blockSize }

/-- The block with the metadata next to the data, and its size. -/
def finishBlock (c : CompressState t) : Nat × Memory :=
  let metadataOffset := alignValue c.dataPtr
  let size := blockSize - c.metadataPtr
  (metadataOffset + size,
    (c.block.move metadataOffset c.metadataPtr size).store 8 0 (metadataOffset + size))

def flushSegment (c : CompressState t) : Except CompressError (List Segment) :=
  if !c.canStore 0 0 then .error .errorInSizeCalculation
  else if c.count = 0 then .ok c.flushed
  else .ok (c.flushed ++ [⟨c.start, c.count, c.finishBlock.1, c.finishBlock.2⟩])

def flushAndCreateSegmentIfFull (env : Environment t) (c : CompressState t)
    (dataBytes metaBytes : Nat) :
    Except CompressError (CompressState t) :=
  if c.canStore dataBytes metaBytes then .ok c
  else
    match c.flushSegment with
    | .error e => .error e
    | .ok flushed => .ok ({ c with flushed }.createEmptySegment env (c.start + c.count))

/-- The writers, after space was reserved. -/
def putGroup (P : Packer t.bits) (env : Environment t) (c : CompressState t) (g : Group t) :
    CompressState t :=
  let metadataPtr := c.metadataPtr - metadataSize
  let block := c.block.store metadataSize metadataPtr (encodeMeta g.data.mode c.dataPtr)
  { c with
    block := block.write c.dataPtr (g.data.bytes P env.tmp)
    dataPtr := c.dataPtr + (g.data.bytes P env.tmp).length
    metadataPtr
    count := c.count + g.count }

def writeGroup (P : Packer t.bits) (env : Environment t) (c : CompressState t) (g : Group t) :
    Except CompressError (CompressState t) :=
  match c.flushAndCreateSegmentIfFull env (g.data.reserved t g.count) metadataSize with
  | .error e => .error e
  | .ok c => .ok (c.putGroup P env g)

/-- What the writer does with the result of a flush; the result itself is not looked at. -/
def write (P : Packer t.bits) (env : Environment t) (c : CompressState t)
    (result : FlushResult t × BitpackingState t) : Except CompressError (CompressState t) :=
  match result.1 with
  | .written g => { c with state := result.2 }.writeGroup P env g
  | _ => .ok { c with state := result.2 }

/-- `Append` -/
def append (P : Packer t.bits) (env : Environment t) (mode : BitpackingMode) (c : CompressState t) :
    List (BitVec t.bits × Bool) → Except CompressError (CompressState t)
  | [] => .ok c
  | (value, valid) :: rows =>
    match c.write P env (c.state.update mode value valid) with
    | .error e => .error e
    | .ok c => append P env mode c rows

def initial (env : Environment t) (rowStart : Nat) : CompressState t where
  flushed := []
  start := rowStart
  count := 0
  block := env.blank
  dataPtr := bitpackingHeaderSize
  metadataPtr := blockSize
  state := .reset env.buffer

end CompressState

/-- The segments that a column is compressed to. -/
def compress {t : IntegerType} (P : Packer t.bits) (env : Environment t) (mode : BitpackingMode)
    (rowStart : Nat) (rows : List (BitVec t.bits × Bool)) : Except CompressError (List Segment) :=
  match (CompressState.initial env rowStart).append P env mode rows with
  | .error e => .error e
  | .ok c =>
    match c.write P env (c.state.flush mode) with
    | .error e => .error e
    | .ok c => c.flushSegment

/-! ## Reading

A segment is read from memory that holds it at `base`. -/

inductive ScanError where
  | invalidBitpackingMode
  deriving DecidableEq, Repr

structure ScanState (t : IntegerType) where
  mode : BitpackingMode
  width : Nat
  frameOfReference : BitVec t.bits
  constant : BitVec t.bits
  deltaOffset : BitVec t.bits
  groupOffset : Nat
  groupPtr : Nat
  metadataPtr : Nat

def loadValue (t : IntegerType) (m : Memory) (a : Nat) : BitVec t.bits :=
    BitVec.ofNat t.bits (m.load t.size a)

def unpackBlock {t : IntegerType} (P : Packer t.bits) (m : Memory) (src width : Nat) :
    List (BitVec t.bits) :=
  (P.unpack width (m.read src (4 * width))).map (BitVec.ofNat t.bits)

def applyFrameOfReference {w : Nat} (frame : BitVec w) (values : List (BitVec w)) :
    List (BitVec w) :=
  if frame = 0 then values else values.map (· + frame)

/-- `DeltaDecode`, whose loop is unrolled in the source. -/
def deltaDecode {w : Nat} (previous : BitVec w) : List (BitVec w) → List (BitVec w)
  | [] => []
  | d :: ds => (d + previous) :: deltaDecode (d + previous) ds

namespace ScanState

variable {t : IntegerType}

def loadNextGroup (m : Memory) (base : Nat) (st : ScanState t) : Except ScanError (ScanState t) :=
  let ptr := base + (m.load metadataSize st.metadataPtr &&& 0xffffff)
  let mode := BitpackingMode.fromByte (m.load 1 (st.metadataPtr + 3))
  let st := { st with groupOffset := 0, metadataPtr := st.metadataPtr - metadataSize }
  match mode with
  | some .constant =>
    .ok { st with mode := .constant, constant := loadValue t m ptr, groupPtr := ptr + t.size }
  | some .constantDelta =>
    .ok { st with
      mode := .constantDelta
      frameOfReference := loadValue t m ptr
      constant := loadValue t m (ptr + t.size)
      groupPtr := ptr + 2 * t.size }
  | some .deltaFor =>
    .ok { st with
      mode := .deltaFor
      frameOfReference := loadValue t m ptr
      width := (loadValue t m (ptr + t.size)).toNat % 256
      deltaOffset := loadValue t m (ptr + 2 * t.size)
      groupPtr := ptr + 3 * t.size }
  | some .frameOfReference =>
    .ok { st with
      mode := .frameOfReference
      frameOfReference := loadValue t m ptr
      width := (loadValue t m (ptr + t.size)).toNat % 256
      groupPtr := ptr + 2 * t.size }
  | _ => .error .invalidBitpackingMode

/-- The constructor; `raw` is what the memory of the state held before. -/
def initScan (m : Memory) (base : Nat) (raw : ScanState t) : Except ScanError (ScanState t) :=
  loadNextGroup m base { raw with metadataPtr := base + m.load 8 base - metadataSize }

/-- Loads the next group if the current one is exhausted. -/
def nextIfExhausted (m : Memory) (base : Nat) (st : ScanState t) : Except ScanError (ScanState t) :=
  if st.groupOffset ≥ metadataGroupSize then st.loadNextGroup m base else .ok st

/-- The packed values from the current position to the end of its algorithm group, at most `n`. -/
def unpackFrom (P : Packer t.bits) (m : Memory) (st : ScanState t) (n : Nat) :
    List (BitVec t.bits) :=
  let offset := st.groupOffset % bitpackingAlgorithmGroupSize
  let start := st.groupPtr + st.groupOffset * st.width / 8 - offset * st.width / 8
  ((unpackBlock P m start st.width).drop offset).take n

/-- How far one round of the loops goes in a packed group. -/
def packedRound (st : ScanState t) (remaining : Nat) : Nat :=
  min remaining (bitpackingAlgorithmGroupSize - st.groupOffset % bitpackingAlgorithmGroupSize)

/-- How far one round of the loops goes in a constant group. -/
def constantRound (st : ScanState t) (remaining : Nat) : Nat :=
  min remaining (metadataGroupSize - st.groupOffset)

/-- The deltas from the current position on, decoded. -/
def decodeDeltas (P : Packer t.bits) (m : Memory) (st : ScanState t) (n : Nat) :
    List (BitVec t.bits) :=
  deltaDecode st.deltaOffset (applyFrameOfReference st.frameOfReference (st.unpackFrom P m n))

/-- One round of the loop of `Skip`. -/
def skipRound (P : Packer t.bits) (m : Memory) (st : ScanState t) (remaining : Nat) :
    Nat × ScanState t :=
  match st.mode with
  | .constant | .constantDelta =>
    let n := st.constantRound remaining
    (n, { st with groupOffset := st.groupOffset + n })
  | .deltaFor =>
    let n := st.packedRound remaining
    (n, { st with
      deltaOffset := (st.decodeDeltas P m n).getLastD st.deltaOffset
      groupOffset := st.groupOffset + n })
  | _ =>
    let n := st.packedRound remaining
    (n, { st with groupOffset := st.groupOffset + n })

/-- The loop of `Skip`; every round skips something, so there are at most `skipCount`. -/
def skipLoop (P : Packer t.bits) (m : Memory) (base : Nat) :
    Nat → ScanState t → Nat → Except ScanError (ScanState t)
  | 0, st, _ => .ok st
  | fuel + 1, st, remaining =>
    if remaining = 0 then .ok st
    else
      match st.nextIfExhausted m base with
      | .error e => .error e
      | .ok st =>
        let round := st.skipRound P m remaining
        skipLoop P m base fuel round.2 (remaining - round.1)

def skip (P : Packer t.bits) (m : Memory) (base : Nat) (st : ScanState t) (skipCount : Nat) :
    Except ScanError (ScanState t) :=
  match skipLoop P m base skipCount st skipCount with
  | .error e => .error e
  | .ok st => st.nextIfExhausted m base

/-- One round of the loop of `BitpackingScanPartial`. A constant is filled in past the end
of its group as well, which the next rounds overwrite. -/
def scanRound (P : Packer t.bits) (m : Memory) (st : ScanState t) (remaining : Nat) :
    List (BitVec t.bits) × ScanState t :=
  match st.mode with
  | .constant =>
    let n := st.constantRound remaining
    (List.replicate n st.constant, { st with groupOffset := st.groupOffset + n })
  | .constantDelta =>
    let n := st.constantRound remaining
    ((List.range n).map
      (fun i => BitVec.ofNat t.bits (st.groupOffset + i) * st.constant + st.frameOfReference),
      { st with groupOffset := st.groupOffset + n })
  | .deltaFor =>
    let n := st.packedRound remaining
    let values := st.decodeDeltas P m n
    (values, { st with
      deltaOffset := values.getLastD st.deltaOffset
      groupOffset := st.groupOffset + n })
  | _ =>
    let n := st.packedRound remaining
    (applyFrameOfReference st.frameOfReference (st.unpackFrom P m n),
      { st with groupOffset := st.groupOffset + n })

/-- The loop of `BitpackingScanPartial`; every round scans something. -/
def scanLoop (P : Packer t.bits) (m : Memory) (base : Nat) :
    Nat → ScanState t → Nat → Except ScanError (List (BitVec t.bits) × ScanState t)
  | 0, st, _ => .ok ([], st)
  | fuel + 1, st, remaining =>
    if remaining = 0 then .ok ([], st)
    else
      match st.nextIfExhausted m base with
      | .error e => .error e
      | .ok st =>
        let round := st.scanRound P m remaining
        match scanLoop P m base fuel round.2 (remaining - round.1.length) with
        | .error e => .error e
        | .ok (values, st) => .ok (round.1 ++ values, st)

def scanPartial (P : Packer t.bits) (m : Memory) (base : Nat) (st : ScanState t) (scanCount : Nat) :
    Except ScanError (List (BitVec t.bits) × ScanState t) :=
  scanLoop P m base scanCount st scanCount

end ScanState

inductive ReadCall where
  | skip (count : Nat)
  | scanPartial (count : Nat)
  deriving DecidableEq, Repr

/-- The values that a list of calls returns, one for each row it passes over; a skipped
row has none. -/
def readCalls {t : IntegerType} (P : Packer t.bits) (m : Memory) (base : Nat) (st : ScanState t) :
    List ReadCall → Except ScanError (List (Option (BitVec t.bits)))
  | [] => .ok []
  | .skip n :: calls =>
    match st.skip P m base n with
    | .error e => .error e
    | .ok st =>
      match readCalls P m base st calls with
      | .error e => .error e
      | .ok values => .ok (List.replicate n none ++ values)
  | .scanPartial n :: calls =>
    match st.scanPartial P m base n with
    | .error e => .error e
    | .ok (scanned, st) =>
      match readCalls P m base st calls with
      | .error e => .error e
      | .ok values => .ok (scanned.map some ++ values)

/-- `BitpackingFetchRow` -/
def fetchRow {t : IntegerType} (P : Packer t.bits) (m : Memory) (base : Nat) (raw : ScanState t)
    (rowId : Nat) : Except ScanError (Option (BitVec t.bits)) :=
  match ScanState.initScan m base raw with
  | .error e => .error e
  | .ok st =>
    match st.skip P m base rowId with
    | .error e => .error e
    | .ok st =>
      let offset := st.groupOffset % bitpackingAlgorithmGroupSize
      let start := st.groupPtr + (st.groupOffset - offset) * st.width / 8
      match st.mode with
      | .constant => .ok (some st.constant)
      | .constantDelta =>
        .ok (some (BitVec.ofNat t.bits st.groupOffset * st.constant + st.frameOfReference))
      | .deltaFor =>
        .ok (((unpackBlock P m start st.width)[offset]?).map
          (fun x => x + st.frameOfReference + st.deltaOffset))
      | _ => .ok (((unpackBlock P m start st.width)[offset]?).map (· + st.frameOfReference))

end PredTrans.Compression.Bitpacking
