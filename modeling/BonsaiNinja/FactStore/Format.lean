import BonsaiNinja.Library.Decoding
import BonsaiNinja.Library.FileAccess

namespace BonsaiNinja.FactStore

open BonsaiNinja.Library

inductive IoError where
  | unexpectedEof
  | invalidInput (message : String)
  | invalidData (message : String)
  | brokenPipe (message : String)
  | other (message : String)
  deriving DecidableEq, Repr

inductive FactStoreError where
  | io (reason : IoError)
  | badMagic
  | truncated (expected actual : Nat)
  | versionMismatch (file expected : UInt32)
  | pipelineMismatch (file expected : UInt64)
  | wrongTable (file expected : UInt32)
  | badStringPool (reason : String)
  | badIndexEntry (row : Nat)
  | badPayloadRange (key offset : UInt64) (length payloadLength : Nat)
  | unsortedIndex
  | duplicateKey (key : UInt64)
  | badStringId (id count : UInt32)
  deriving DecidableEq, Repr

-- "BNSAIFC1"
def magicBytes : List UInt8 := [66,78,83,65,73,70,67,49]

def formatVersion : UInt32 := 1

def headerSize : Nat := 96

def indexEntrySize : Nat := 32

-- `reserved` is carried as read; the writer stores zero.
structure Header where
  magic : List UInt8
  formatVersion : UInt32
  tableId : UInt32
  pipelineHash : UInt64
  stringPoolOffset : UInt64
  stringPoolBytesLen : UInt64
  stringCount : UInt64
  indexOffset : UInt64
  indexCount : UInt64
  payloadOffset : UInt64
  payloadLen : UInt64
  reserved : List UInt8
  deriving DecidableEq, Repr

structure IndexEntry where
  key : UInt64
  bodyHash : UInt64
  payloadOffset : UInt64
  payloadLen : UInt32
  reserved : UInt32
  deriving DecidableEq, Repr

def u32Bytes (value : UInt32) : List UInt8 := leBytes 4 value.toNat

def u64Bytes (value : UInt64) : List UInt8 := leBytes 8 value.toNat

def u32From (bytes : List UInt8) : UInt32 := UInt32.ofNat (leValue bytes)

def u64From (bytes : List UInt8) : UInt64 := UInt64.ofNat (leValue bytes)

namespace Header

def toBytes (header : Header) : List UInt8 :=
  header.magic ++ u32Bytes header.formatVersion ++ u32Bytes header.tableId ++ u64Bytes header.pipelineHash ++
    u64Bytes header.stringPoolOffset ++ u64Bytes header.stringPoolBytesLen ++ u64Bytes header.stringCount ++
    u64Bytes header.indexOffset ++ u64Bytes header.indexCount ++ u64Bytes header.payloadOffset ++
    u64Bytes header.payloadLen ++ header.reserved ++ List.replicate 8 0

def fromBytes (bytes : List UInt8) : Option Header :=
  if bytes.length < headerSize then none
  else if slice bytes 0 8 ≠ magicBytes then none
  else some {
    magic := slice bytes 0 8
    formatVersion := u32From (slice bytes 8 12)
    tableId := u32From (slice bytes 12 16)
    pipelineHash := u64From (slice bytes 16 24)
    stringPoolOffset := u64From (slice bytes 24 32)
    stringPoolBytesLen := u64From (slice bytes 32 40)
    stringCount := u64From (slice bytes 40 48)
    indexOffset := u64From (slice bytes 48 56)
    indexCount := u64From (slice bytes 56 64)
    payloadOffset := u64From (slice bytes 64 72)
    payloadLen := u64From (slice bytes 72 80)
    reserved := slice bytes 80 88
  }

end Header

namespace IndexEntry

def toBytes (entry : IndexEntry) : List UInt8 :=
  u64Bytes entry.key ++ u64Bytes entry.bodyHash ++ u64Bytes entry.payloadOffset ++ u32Bytes entry.payloadLen ++
    u32Bytes entry.reserved

def fields (bytes : List UInt8) : IndexEntry where
  key := u64From (slice bytes 0 8)
  bodyHash := u64From (slice bytes 8 16)
  payloadOffset := u64From (slice bytes 16 24)
  payloadLen := u32From (slice bytes 24 28)
  reserved := u32From (slice bytes 28 32)

def fromBytes (bytes : List UInt8) : Option IndexEntry :=
  if bytes.length < indexEntrySize then none else some (fields bytes)

end IndexEntry

@[simp] theorem u32Bytes_length (value : UInt32) : (u32Bytes value).length = 4 := leBytes_length _ _

@[simp] theorem u64Bytes_length (value : UInt64) : (u64Bytes value).length = 8 := leBytes_length _ _

@[simp] theorem u32From_u32Bytes (value : UInt32) : u32From (u32Bytes value) = value := by
  have read : leValue (u32Bytes value) = value.toNat := leValue_leBytes (lt_of_lt_of_le value.toNat_lt (by decide))
  rw [u32From,read,UInt32.ofNat_toNat]

@[simp] theorem u64From_u64Bytes (value : UInt64) : u64From (u64Bytes value) = value := by
  have read : leValue (u64Bytes value) = value.toNat := leValue_leBytes (lt_of_lt_of_le value.toNat_lt (by decide))
  rw [u64From,read,UInt64.ofNat_toNat]

theorem slice_past {field after : List UInt8} {start stop : Nat} (behind : field.length ≤ start) :
    slice (field ++ after) start stop = slice after (start - field.length) (stop - field.length) := by
  rw [slice,slice,List.drop_append,List.drop_eq_nil_of_le behind,List.nil_append]
  congr 1
  omega

theorem slice_first {field after : List UInt8} {stop : Nat} (whole : field.length = stop) :
    slice (field ++ after) 0 stop = field := by
  rw [slice,List.drop_zero,Nat.sub_zero,← whole,List.take_left]

theorem slice_whole {field : List UInt8} {stop : Nat} (whole : field.length = stop) : slice field 0 stop = field := by
  rw [slice,List.drop_zero,Nat.sub_zero,← whole,List.take_length]

@[simp] theorem IndexEntry.toBytes_length (entry : IndexEntry) : entry.toBytes.length = indexEntrySize := by
  simp [toBytes,indexEntrySize]

theorem IndexEntry.fields_toBytes (entry : IndexEntry) : fields entry.toBytes = entry := by
  rw [fields,toBytes]
  simp [slice_past,slice_first,slice_whole]

structure Header.Shaped (header : Header) : Prop where
  magic : header.magic = magicBytes
  reserved : header.reserved.length = 8

theorem Header.toBytes_length {header : Header} (shaped : header.Shaped) : header.toBytes.length = headerSize := by
  simp [toBytes,headerSize,shaped.magic,shaped.reserved,magicBytes]

theorem Header.fromBytes_toBytes {header : Header} (shaped : header.Shaped) : fromBytes header.toBytes = some header := by
  have long : ¬header.toBytes.length < headerSize := by rw [toBytes_length shaped]; omega
  have magicLength : header.magic.length = 8 := by rw [shaped.magic]; rfl
  have front : slice header.toBytes 0 8 = header.magic := by
    rw [toBytes]
    simp only [List.append_assoc]
    exact slice_first magicLength
  rw [fromBytes,if_neg long,front,if_neg (not_not_intro shaped.magic),toBytes]
  simp [slice_past,slice_first,magicLength,shaped.reserved]

end BonsaiNinja.FactStore
