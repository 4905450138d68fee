import BonsaiNinja.FactStore.StringPool

namespace BonsaiNinja.FactStore

open BonsaiNinja.Library BonsaiNinja.Library.Access

structure LookupHit where
  bodyHash : UInt64
  payload : List UInt8
  deriving DecidableEq, Repr

-- The reader of one entry or of a part of it: where it stands in the file and how
-- many bytes are left.
structure PayloadReader where
  bodyHash : UInt64
  file : StoredFile
  offset : Nat
  remaining : Nat

structure FactStoreReader where
  file : StoredFile
  header : Header
  indexBytes : List UInt8
  stringPoolBytes : List UInt8
  stringPoolOffsets : List UInt8

def readExactAt (file : StoredFile) (offset count : Nat) : Access FactStoreError (List UInt8) :=
  readExact (.io .unexpectedEof) file offset count

def toU32 (value : UInt64) : Option UInt32 := if value.toNat < 2 ^ 32 then some value.toUInt32 else none

def u64Max : Nat := 2 ^ 64 - 1

-- An empty pool is not read from the file, as `readExact` leaves an empty buffer.
def loadStringPool (file : StoredFile) (header : Header) : Access FactStoreError (List UInt8 × List UInt8) := do
  let count ← orFail (.badStringPool "string count exceeds StrId range") (toU32 header.stringCount)
  let bytesLen ← orFail (.badStringPool "string bytes exceed offset range") (toU32 header.stringPoolBytesLen)
  allocate bytesLen.toNat
  let bytes ← readExactAt file header.stringPoolOffset.toNat bytesLen.toNat
  let offsetsLen ← StringPoolView.offsetsLen count
  allocate offsetsLen
  let offsetsOffset ← add header.stringPoolOffset.toNat header.stringPoolBytesLen.toNat
  let offsets ← readExactAt file offsetsOffset offsetsLen
  let _ ← StringPoolView.new bytes offsets count
  pure (bytes,offsets)

def loadIndex (file : StoredFile) (header : Header) : Access FactStoreError (List UInt8) := do
  let len ← mul header.indexCount.toNat indexEntrySize
  allocate len
  readExactAt file header.indexOffset.toNat len

def sectionBounds (header : Header) : List (Nat × Nat) :=
  [(header.stringPoolOffset.toNat,header.stringPoolBytesLen.toNat),
   (saturatingAdd header.stringPoolOffset.toNat header.stringPoolBytesLen.toNat,
    saturatingMul (saturatingAdd header.stringCount.toNat 1) 4),
   (header.indexOffset.toNat,saturatingMul header.indexCount.toNat indexEntrySize),
   (header.payloadOffset.toNat,header.payloadLen.toNat)]

def checkSection (fileLen : Nat) (bounds : Nat × Nat) : Access FactStoreError Unit := do
  let stop ← orFail (.truncated u64Max fileLen) (checkedAdd bounds.1 bounds.2)
  if fileLen < stop then fail (.truncated stop fileLen) else pure ()

def validateSectionBounds (header : Header) (fileLen : Nat) : Access FactStoreError Unit :=
  forEach (checkSection fileLen) (sectionBounds header)

def rowAt (indexBytes : List UInt8) (row : Nat) : Access FactStoreError IndexEntry := do
  let start ← mul row indexEntrySize
  let next ← add row 1
  let stop ← mul next indexEntrySize
  let raw ← subslice indexBytes start stop
  orFail (.badIndexEntry row) (IndexEntry.fromBytes raw)

def checkRow (header : Header) (indexBytes : List UInt8) (sectionEnd : Nat) (prevKey : UInt64) (i : Nat) :
    Access FactStoreError UInt64 := do
  let entry ← rowAt indexBytes i
  if 0 < i ∧ entry.key < prevKey then fail .unsortedIndex
  else if 0 < i ∧ entry.key = prevKey then fail (.duplicateKey entry.key)
  else do
    let payloadEnd ← orFail (.badIndexEntry i) (checkedAdd entry.payloadOffset.toNat entry.payloadLen.toNat)
    if entry.payloadOffset < header.payloadOffset ∨ sectionEnd < payloadEnd then fail (.badIndexEntry i)
    else pure entry.key

def validateIndexSortedAndBounded (header : Header) (indexBytes : List UInt8) : Access FactStoreError Unit :=
  if header.indexCount.toNat = 0 then pure ()
  else do
    let sectionEnd ← orFail (.truncated u64Max header.payloadOffset.toNat)
      (checkedAdd header.payloadOffset.toNat header.payloadLen.toNat)
    let _ ← forRange (checkRow header indexBytes sectionEnd) 0 header.indexCount.toNat
    pure ()

def searchRows (index : List UInt8) (key : UInt64) : Nat → Nat → Nat → Access FactStoreError (Option Nat)
  | 0, _, _ => panic
  | turns + 1, lo, hi =>
    if lo < hi then do
      let mid ← add lo ((hi - lo) / 2)
      let start ← mul mid indexEntrySize
      let stop ← add start 8
      let keyBytes ← subslice index start stop
      if u64From keyBytes = key then pure (some mid)
      else if u64From keyBytes < key then do
        let above ← add mid 1
        searchRows index key turns above hi
      else searchRows index key turns lo mid
    else pure none

def binarySearchIndex (index : List UInt8) (count : Nat) (key : UInt64) : Access FactStoreError (Option Nat) :=
  searchRows index key (count + 1) 0 count

namespace FactStoreReader

def openChecked (file : StoredFile) (caller : Header → Access FactStoreError Unit) : Access FactStoreError FactStoreReader :=
  if file.bytes.length < headerSize then fail (.truncated headerSize file.bytes.length)
  else do
    let headerBuf ← readExactAt file 0 headerSize
    let header ← orFail .badMagic (Header.fromBytes headerBuf)
    if header.formatVersion ≠ formatVersion then fail (.versionMismatch header.formatVersion formatVersion)
    else do
      caller header
      validateSectionBounds header file.bytes.length
      let pool ← loadStringPool file header
      let indexBytes ← loadIndex file header
      validateIndexSortedAndBounded header indexBytes
      pure ⟨file,header,indexBytes,pool.1,pool.2⟩

def checkCaller (expectedTableId : UInt32) (expectedPipelineHash : UInt64) (header : Header) : Access FactStoreError Unit :=
  if header.tableId ≠ expectedTableId then fail (.wrongTable header.tableId expectedTableId)
  else if header.pipelineHash ≠ expectedPipelineHash then fail (.pipelineMismatch header.pipelineHash expectedPipelineHash)
  else pure ()

def openStore (file : StoredFile) (expectedTableId : UInt32) (expectedPipelineHash : UInt64) :
    Access FactStoreError FactStoreReader :=
  openChecked file (checkCaller expectedTableId expectedPipelineHash)

def openRelaxed (file : StoredFile) : Access FactStoreError FactStoreReader := openChecked file fun _ => pure ()

def len (reader : FactStoreReader) : Nat := reader.header.indexCount.toNat

def containsKey (reader : FactStoreReader) (key : UInt64) : Access FactStoreError Bool := do
  let row ← binarySearchIndex reader.indexBytes reader.len key
  pure row.isSome

def findEntry (reader : FactStoreReader) (key : UInt64) : Access FactStoreError (Option IndexEntry) := do
  let row ← binarySearchIndex reader.indexBytes reader.len key
  match row with
  | none => pure none
  | some row => do
    let entry ← rowAt reader.indexBytes row
    pure (some entry)

def whenFound (found : Option IndexEntry) (next : IndexEntry → Access FactStoreError α) : Access FactStoreError (Option α) :=
  match found with
  | none => pure none
  | some entry => do
    let value ← next entry
    pure (some value)

def entryMetadata (reader : FactStoreReader) (key : UInt64) : Access FactStoreError (Option (UInt64 × UInt32)) := do
  let found ← reader.findEntry key
  whenFound found fun entry => pure (entry.bodyHash,entry.payloadLen)

def stringPool (reader : FactStoreReader) : StringPoolView :=
  ⟨reader.stringPoolBytes,reader.stringPoolOffsets,reader.header.stringCount.toUInt32⟩

def readEntry (reader : FactStoreReader) (entry : IndexEntry) : Access FactStoreError LookupHit := do
  allocate entry.payloadLen.toNat
  let payload ← readExactAt reader.file entry.payloadOffset.toNat entry.payloadLen.toNat
  pure ⟨entry.bodyHash,payload⟩

def get (reader : FactStoreReader) (key : UInt64) : Access FactStoreError (Option LookupHit) := do
  let found ← reader.findEntry key
  whenFound found reader.readEntry

def payloadReader (reader : FactStoreReader) (key : UInt64) : Access FactStoreError (Option PayloadReader) := do
  let found ← reader.findEntry key
  whenFound found fun entry => pure ⟨entry.bodyHash,reader.file,entry.payloadOffset.toNat,entry.payloadLen.toNat⟩

def checkRange (key relativeOffset : UInt64) (length payloadLength : Nat) : Access FactStoreError Nat :=
  orFail (.badPayloadRange key relativeOffset length payloadLength)
    ((checkedAdd relativeOffset.toNat length).filter fun stop => decide (stop ≤ payloadLength))

def payloadRangeReader (reader : FactStoreReader) (key relativeOffset length : UInt64) :
    Access FactStoreError (Option PayloadReader) := do
  let found ← reader.findEntry key
  whenFound found fun entry => do
    let _ ← checkRange key relativeOffset length.toNat entry.payloadLen.toNat
    pure ⟨entry.bodyHash,reader.file,saturatingAdd entry.payloadOffset.toNat relativeOffset.toNat,length.toNat⟩

-- The bytes that fill an output buffer of `length` bytes, or none where the buffer
-- is left alone.
def readPayloadRange (reader : FactStoreReader) (key relativeOffset : UInt64) (length : Nat) :
    Access FactStoreError (Option (List UInt8)) := do
  let found ← reader.findEntry key
  whenFound found fun entry => do
    let _ ← checkRange key relativeOffset length entry.payloadLen.toNat
    readExactAt reader.file (saturatingAdd entry.payloadOffset.toNat relativeOffset.toNat) length

def next (reader : FactStoreReader) (cursor : Nat) :
    Access FactStoreError (Option (Except FactStoreError (UInt64 × LookupHit)) × Nat) :=
  if reader.len ≤ cursor then pure (none,cursor)
  else do
    let following ← add cursor 1
    let item ← attempt do
      let entry ← rowAt reader.indexBytes cursor
      let hit ← reader.readEntry entry
      pure (entry.key,hit)
    pure (some item,following)

def collect (reader : FactStoreReader) : Nat → Nat → Access FactStoreError (List (Except FactStoreError (UInt64 × LookupHit)))
  | 0, _ => panic
  | turns + 1, cursor => do
    let step ← reader.next cursor
    match step.1 with
    | none => pure []
    | some item => do
      let later ← collect reader turns step.2
      pure (item :: later)

-- Every item of the iterator; running out of turns counts as a panic.
def iter (reader : FactStoreReader) : Access FactStoreError (List (Except FactStoreError (UInt64 × LookupHit))) :=
  reader.collect (reader.len + 1) 0

end FactStoreReader

namespace PayloadReader

def read (reader : PayloadReader) (bufLen : Nat) : Access FactStoreError (List UInt8 × PayloadReader) :=
  if reader.remaining = 0 ∨ bufLen = 0 then pure ([],reader)
  else do
    let bytes ← readExactAt reader.file reader.offset (min reader.remaining bufLen)
    pure (bytes,{reader with
      offset := saturatingAdd reader.offset (min reader.remaining bufLen)
      remaining := reader.remaining - min reader.remaining bufLen})

-- What any sequence of buffer sizes brings, as the buffer in front of the reader
-- asks for them.
def readSizes : List Nat → PayloadReader → Access FactStoreError (List UInt8)
  | [], _ => pure []
  | bufLen :: sizes, reader => do
    let (bytes,reader) ← reader.read bufLen
    let later ← readSizes sizes reader
    pure (bytes ++ later)

end PayloadReader

end BonsaiNinja.FactStore
