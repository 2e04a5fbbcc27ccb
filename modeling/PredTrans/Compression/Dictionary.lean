import PredTrans.Compression.Rle
import PredTrans.Compression.Segment
import PredTrans.Compression.BitpackingPrimitives

/-! A block holds a header, the packed selection buffer, the index buffer and the dictionary, which
grows down from the end. An entry of the index buffer is the size of the dictionary up to its
string; entry 0 stands for NULL. -/

namespace PredTrans.Compression.Dictionary

open Library BitpackingPrimitives

/-- `STRING_BLOCK_LIMIT` -/
def stringBlockLimit : Nat := 4096

/-- `DICTIONARY_HEADER_SIZE` -/
def dictionaryHeaderSize : Nat := 20

/-- `COMPACTION_FLUSH_LIMIT` -/
def compactionFlushLimit : Nat := blockSize / 5 * 4

/-- The fields of the header, each of four bytes. -/
inductive HeaderField where
  | dictSize
  | dictEnd
  | indexBufferOffset
  | indexBufferCount
  | bitpackingWidth
  deriving DecidableEq, Repr

def HeaderField.offset : HeaderField → Nat
  | dictSize => 0
  | dictEnd => 4
  | indexBufferOffset => 8
  | indexBufferCount => 12
  | bitpackingWidth => 16

/-- Stores a header field of the segment being written, which starts its block. -/
def setField (m : Memory) (field : HeaderField) (x : Nat) : Memory := m.store 4 field.offset x

def getField (m : Memory) (base : Nat) (field : HeaderField) : Nat := m.load 4 (base + field.offset)

structure StringDictionaryContainer where
  size : Nat
  dictEnd : Nat
  deriving DecidableEq, Repr

def setDictionary (m : Memory) (dict : StringDictionaryContainer) : Memory :=
  setField (setField m .dictSize dict.size) .dictEnd dict.dictEnd

def getDictionary (m : Memory) (base : Nat) : StringDictionaryContainer :=
  ⟨getField m base .dictSize, getField m base .dictEnd⟩

def requiredSpace (count indexCount dictSize width : Nat) : Nat :=
  dictionaryHeaderSize + dictSize + indexCount * 4 + getRequiredSize count width

def hasEnoughSpace (count indexCount dictSize width : Nat) : Bool :=
  requiredSpace count indexCount dictSize width ≤ blockSize

inductive DictionaryError where
  | couldNotWriteToNewSegment
  deriving DecidableEq, Repr

structure CompressState where
  flushed : List Segment
  start : Nat
  count : Nat
  block : Memory
  dictionary : StringDictionaryContainer
  stringMap : List (List UInt8 × Nat)
  indexBuffer : List Nat
  selectionBuffer : List Nat
  currentWidth : Nat
  nextWidth : Nat
  latestLookupResult : Nat

/-- What the compression finds in memory that it did not write: the contents of new
blocks, and the temporary buffer of the packing. -/
structure Environment where
  blank : Memory
  tmp : List Nat
  length_tmp : tmp.length = 32

namespace CompressState

/-- `CreateEmptySegment`; a new string block has an empty dictionary that ends with the block. -/
def createEmptySegment (env : Environment) (flushed : List Segment) (rowStart : Nat) :
    CompressState :=
  let block := setDictionary env.blank ⟨0, blockSize⟩
  { flushed, start := rowStart, count := 0, block
    dictionary := getDictionary block 0
    stringMap := []
    indexBuffer := [0]
    selectionBuffer := []
    currentWidth := 0
    nextWidth := 0
    latestLookupResult := 0 }

def lookupString (c : CompressState) (str : List UInt8) : Bool × CompressState :=
  match c.stringMap.lookup str with
  | some index => (true, { c with latestLookupResult := index })
  | none => (false, c)

def addNewString (c : CompressState) (str : List UInt8) : CompressState :=
  let dictionary := { c.dictionary with size := c.dictionary.size + str.length }
  let block := c.block.write (blockSize - dictionary.size) str
  let indexBuffer := c.indexBuffer ++ [dictionary.size]
  { c with
    dictionary
    indexBuffer
    selectionBuffer := c.selectionBuffer ++ [indexBuffer.length - 1]
    stringMap := c.stringMap ++ [(str, indexBuffer.length - 1)]
    block := setDictionary block dictionary
    currentWidth := c.nextWidth
    count := c.count + 1 }

def addNull (c : CompressState) : CompressState :=
  { c with selectionBuffer := c.selectionBuffer ++ [0], count := c.count + 1 }

def addLastLookup (c : CompressState) : CompressState :=
  { c with selectionBuffer := c.selectionBuffer ++ [c.latestLookupResult], count := c.count + 1 }

def calculateSpaceRequirements (c : CompressState) (newString : Bool) (stringSize : Nat) :
    Bool × CompressState :=
  if newString then
    let nextWidth := minimumBitWidth 8 (c.indexBuffer.length - 1 + 1)
    (hasEnoughSpace (c.count + 1) (c.indexBuffer.length + 1)
      (c.dictionary.size + stringSize) nextWidth,
      { c with nextWidth })
  else
    (hasEnoughSpace (c.count + 1) c.indexBuffer.length c.dictionary.size c.currentWidth, c)

/-- The bytes of the index buffer. -/
def indexBytes (indexBuffer : List Nat) : List UInt8 := indexBuffer.flatMap (storeBytes 4)

/-- The block with selection buffer, index buffer and header, before compaction. -/
def writeBuffers (P : Packer 32) (env : Environment) (c : CompressState) : Memory :=
  let indexBufferOffset := dictionaryHeaderSize + getRequiredSize c.count c.currentWidth
  let m := c.block.write dictionaryHeaderSize
    (packBuffer P env.tmp c.selectionBuffer c.currentWidth)
  let m := m.write indexBufferOffset (indexBytes c.indexBuffer)
  let m := setField m .indexBufferOffset indexBufferOffset
  let m := setField m .indexBufferCount c.indexBuffer.length
  setField m .bitpackingWidth c.currentWidth

/-- `Finalize`, with the size and the contents of the segment. -/
def finalize (P : Packer 32) (env : Environment) (c : CompressState) : Nat × Memory :=
  let indexBufferOffset := dictionaryHeaderSize + getRequiredSize c.count c.currentWidth
  let indexBufferSize := c.indexBuffer.length * 4
  let totalSize := dictionaryHeaderSize + getRequiredSize c.count c.currentWidth + indexBufferSize +
    c.dictionary.size
  let m := writeBuffers P env c
  if totalSize ≥ compactionFlushLimit then (blockSize, m)
  else
    let moveAmount := blockSize - totalSize
    let m := m.move (indexBufferOffset + indexBufferSize) (c.dictionary.dictEnd - c.dictionary.size)
      c.dictionary.size
    (totalSize, setDictionary m { c.dictionary with dictEnd := c.dictionary.dictEnd - moveAmount })

/-- `Flush` up to the new segment; the checkpoint drops a segment without rows. -/
def flushSegment (P : Packer 32) (env : Environment) (c : CompressState) : List Segment :=
  if c.count = 0 then c.flushed
  else
    let (size, block) := c.finalize P env
    c.flushed ++ [⟨c.start, c.count, size, block⟩]

def flush (P : Packer 32) (env : Environment) (c : CompressState) : CompressState :=
  createEmptySegment env (c.flushSegment P env) (c.start + c.count)

/-- Adds a value for which there is space. -/
def addValue (c : CompressState) (str : List UInt8) (valid newString : Bool) : CompressState :=
  if !valid then c.addNull else if newString then c.addNewString str else c.addLastLookup

/-- Adds a value for which the current segment has no space. -/
def addToNewSegment (P : Packer 32) (env : Environment) (c : CompressState) (str : List UInt8)
    (valid : Bool) : Except DictionaryError CompressState :=
  let stringSize := if valid then str.length else 0
  let space := (c.flush P env).calculateSpaceRequirements true stringSize
  if space.1 then .ok (space.2.addValue str valid true) else .error .couldNotWriteToNewSegment

/-- The body of the loop of `UpdateState`. -/
def updateRow (P : Packer 32) (env : Environment) (c : CompressState) (str : List UInt8)
    (valid : Bool) :
    Except DictionaryError CompressState :=
  let stringSize := if valid then str.length else 0
  let looked := if valid then c.lookupString str else (true, c)
  let newString := !looked.1
  let space := looked.2.calculateSpaceRequirements newString stringSize
  if space.1 then .ok (space.2.addValue str valid newString)
  else space.2.addToNewSegment P env str valid

/-- `UpdateState`, which stops at a big string. -/
def updateState (P : Packer 32) (env : Environment) (c : CompressState) :
    List (List UInt8 × Bool) → Except DictionaryError (Bool × CompressState)
  | [] => .ok (true, c)
  | (str, valid) :: rows =>
    if valid && str.length ≥ stringBlockLimit then .ok (false, c)
    else
      match c.updateRow P env str valid with
      | .error e => .error e
      | .ok c => updateState P env c rows

/-- `Compress` for one vector after the other; the result of `UpdateState` is not looked at. -/
def compressVectors (P : Packer 32) (env : Environment) (c : CompressState) :
    List (List (List UInt8 × Bool)) → Except DictionaryError CompressState
  | [] => .ok c
  | rows :: vectors =>
    match c.updateState P env rows with
    | .error e => .error e
    | .ok (_, c) => compressVectors P env c vectors

end CompressState

/-- The segments that a column is compressed to. -/
def compress (P : Packer 32) (env : Environment) (rowStart : Nat)
    (vectors : List (List (List UInt8 × Bool))) : Except DictionaryError (List Segment) :=
  match CompressState.compressVectors P env (.createEmptySegment env [] rowStart) vectors with
  | .error e => .error e
  | .ok c => .ok (c.flushSegment P env)

/-! ## Reading

A segment is read from memory that holds it at `base`. -/

def getIndex (m : Memory) (base index : Nat) : Nat :=
  m.load 4 (base + getField m base .indexBufferOffset + index * 4)

/-- `GetStringLength`: a difference of 32-bit numbers, cut to 16 bits. -/
def getStringLength (m : Memory) (base index : Nat) : Nat :=
  if index = 0 then 0 else (getIndex m base index + 2 ^ 32 - getIndex m base (index - 1)) % 2 ^ 16

def fetchStringFromDict (m : Memory) (base : Nat) (dict : StringDictionaryContainer)
    (dictOffset stringLength : Nat) : List UInt8 :=
  if dictOffset = 0 then [] else m.read (base + dict.dictEnd - dictOffset) stringLength

/-- The string with a number, as the flat scan and the fetch look it up. -/
def stringAt (m : Memory) (base stringNumber : Nat) : List UInt8 :=
  fetchStringFromDict m base (getDictionary m base) (getIndex m base stringNumber)
    (getStringLength m base stringNumber)

/-- The dictionary vector of `StringInitScan`. -/
def initScan (m : Memory) (base : Nat) : List (List UInt8) :=
  (List.range (getField m base .indexBufferCount)).map (stringAt m base)

/-- `StringScanPartial`: a flat vector, or a dictionary vector if that is allowed. -/
def scanPartial (P : Packer 32) (m : Memory) (base : Nat) (allowDictVectors : Bool)
    (start scanCount : Nat) :
    List (Option (List UInt8)) :=
  let width := getField m base .bitpackingWidth
  let baseData := base + dictionaryHeaderSize
  if !allowDictVectors || scanCount ≠ standardVectorSize ||
      start % bitpackingAlgorithmGroupSize ≠ 0 then
    let startOffset := start % bitpackingAlgorithmGroupSize
    let decompressCount := roundUpToAlgorithmGroupSize (scanCount + startOffset)
    let selVec := unpackBuffer P m (baseData + (start - startOffset) * width / 8)
      decompressCount width
    (List.range scanCount).map (fun i => (selVec[i + startOffset]?).map (stringAt m base))
  else
    let selVec := unpackBuffer P m (baseData + start * width / 8) scanCount width
    (List.range scanCount).map (fun i => (selVec[i]?).bind (fun n => (initScan m base)[n]?))

/-- `StringScan` -/
def scan (P : Packer 32) (m : Memory) (base start scanCount : Nat) : List (Option (List UInt8)) :=
  scanPartial P m base true start scanCount

/-- `StringFetchRow` -/
def fetchRow (P : Packer 32) (m : Memory) (base rowId : Nat) : Option (List UInt8) :=
  let width := getField m base .bitpackingWidth
  let startOffset := rowId % bitpackingAlgorithmGroupSize
  let decompressed := unpackBuffer P m (base + dictionaryHeaderSize +
    (rowId - startOffset) * width / 8)
    bitpackingAlgorithmGroupSize width
  (decompressed[startOffset]?).map (stringAt m base)

end PredTrans.Compression.Dictionary
