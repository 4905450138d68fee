import BonsaiNinja.Idg.ReverseIndexes
import BonsaiNinja.Library.SortedPages

namespace BonsaiNinja.Idg
open Library

theorem field_at (width bits : Nat) (whole : 256 ^ width = 2 ^ bits) (fields : List (List UInt8)) (i : Nat)
    (value : Fin (2 ^ bits)) (start stop : Nat) (held : fields[i]? = some (leBytes width value.val))
    (starts : (fields.take i).flatten.length = start) (stops : start + width = stop) :
    leFin bits (slice fields.flatten start stop) = value := by
  rw [slice_flatten held starts (by rw [leBytes_length]; exact stops),leFin_leBytes whole]

structure WireSpan where
  file : U32
  start : U64
  stop : U64
  deriving DecidableEq, Repr

-- A transform in the machine words of its page; a missing operand is the largest word.
structure CompactSymbolicTransform where
  source : U32
  target : U32
  exactField : U32
  callSpan : WireSpan
  writeSpan : WireSpan
  callKind : CallEdgeKind
  kind : SymbolicFieldTransformKind
  argIdx : U32
  paramIdx : U32
  allowOutOfOrderSource : Bool
  deriving DecidableEq, Repr

def encodeCallKind : CallEdgeKind → U8
  | .direct => 0
  | .virtual => 1
  | .indirect => 2
  | .unknown => 3

-- Any other byte aborts.
def decodeCallKind (value : U8) : Option CallEdgeKind :=
  match value.val with
  | 0 => some .direct
  | 1 => some .virtual
  | 2 => some .indirect
  | 3 => some .unknown
  | _ => none

theorem decodeCallKind_encodeCallKind (kind : CallEdgeKind) : decodeCallKind (encodeCallKind kind) = some kind := by
  cases kind <;> rfl

structure TransformRecord where
  target : U32
  exactField : U32
  callSpan : WireSpan
  writeSpan : WireSpan
  callKind : U8
  kind : U8
  argIdx : U32
  paramIdx : U32
  allowOutOfOrderSource : U8
  deriving DecidableEq, Repr

namespace TransformRecord

def fields (record : TransformRecord) : List (List UInt8) :=
  [leBytes 4 record.target,leBytes 4 record.exactField,
    leBytes 4 record.callSpan.file,leBytes 8 record.callSpan.start,leBytes 8 record.callSpan.stop,
    leBytes 4 record.writeSpan.file,leBytes 8 record.writeSpan.start,leBytes 8 record.writeSpan.stop,
    leBytes 1 record.callKind,leBytes 1 record.kind,
    leBytes 4 record.argIdx,leBytes 4 record.paramIdx,leBytes 1 record.allowOutOfOrderSource]

def parse (record : List UInt8) : TransformRecord where
  target := leFin 32 (slice record 0 4)
  exactField := leFin 32 (slice record 4 8)
  callSpan := ⟨leFin 32 (slice record 8 12),leFin 64 (slice record 12 20),leFin 64 (slice record 20 28)⟩
  writeSpan := ⟨leFin 32 (slice record 28 32),leFin 64 (slice record 32 40),leFin 64 (slice record 40 48)⟩
  callKind := leFin 8 (slice record 48 49)
  kind := leFin 8 (slice record 49 50)
  argIdx := leFin 32 (slice record 50 54)
  paramIdx := leFin 32 (slice record 54 58)
  allowOutOfOrderSource := leFin 8 (slice record 58 59)

theorem parse_fields (record : TransformRecord) : parse record.fields.flatten = record := by
  have word := fun i value start stop => field_at 4 32 (by decide) record.fields i value start stop
  have wide := fun i value start stop => field_at 8 64 (by decide) record.fields i value start stop
  have byte := fun i value start stop => field_at 1 8 (by decide) record.fields i value start stop
  have target := word 0 record.target 0 4 rfl (by simp [fields]) rfl
  have exactField := word 1 record.exactField 4 8 rfl (by simp [fields]) rfl
  have callFile := word 2 record.callSpan.file 8 12 rfl (by simp [fields]) rfl
  have callStart := wide 3 record.callSpan.start 12 20 rfl (by simp [fields]) rfl
  have callStop := wide 4 record.callSpan.stop 20 28 rfl (by simp [fields]) rfl
  have writeFile := word 5 record.writeSpan.file 28 32 rfl (by simp [fields]) rfl
  have writeStart := wide 6 record.writeSpan.start 32 40 rfl (by simp [fields]) rfl
  have writeStop := wide 7 record.writeSpan.stop 40 48 rfl (by simp [fields]) rfl
  have callKind := byte 8 record.callKind 48 49 rfl (by simp [fields]) rfl
  have kind := byte 9 record.kind 49 50 rfl (by simp [fields]) rfl
  have argIdx := word 10 record.argIdx 50 54 rfl (by simp [fields]) rfl
  have paramIdx := word 11 record.paramIdx 54 58 rfl (by simp [fields]) rfl
  have allow := byte 12 record.allowOutOfOrderSource 58 59 rfl (by simp [fields]) rfl
  rw [parse,target,exactField,callFile,callStart,callStop,writeFile,writeStart,writeStop,callKind,kind,argIdx,paramIdx,allow]

instance : RecordCodec TransformRecord where
  width := 59
  encode record := record.fields.flatten
  decode := parse
  positive := by decide
  sized record := by simp [fields]
  inverse := parse_fields

end TransformRecord

def encodeSymbolicTransform (transform : CompactSymbolicTransform) : TransformRecord where
  target := transform.target
  exactField := transform.exactField
  callSpan := transform.callSpan
  writeSpan := transform.writeSpan
  callKind := encodeCallKind transform.callKind
  kind := kindByte transform.kind
  argIdx := transform.argIdx
  paramIdx := transform.paramIdx
  allowOutOfOrderSource := if transform.allowOutOfOrderSource then 1 else 0

def decodeSymbolicTransform (record : TransformRecord) (source : U32) : Option CompactSymbolicTransform := do
  let callKind ← decodeCallKind record.callKind
  let kind ← decodeKind record.kind
  return {
    source := source
    target := record.target
    exactField := record.exactField
    callSpan := record.callSpan
    writeSpan := record.writeSpan
    callKind := callKind
    kind := kind
    argIdx := record.argIdx
    paramIdx := record.paramIdx
    allowOutOfOrderSource := record.allowOutOfOrderSource != 0 }

theorem decode_encode_transform (transform : CompactSymbolicTransform) :
    decodeSymbolicTransform (encodeSymbolicTransform transform) transform.source = some transform := by
  have kind : decodeKind (kindByte transform.kind) = some transform.kind := by cases transform.kind <;> rfl
  have allow : ((if transform.allowOutOfOrderSource then (1 : U8) else 0) != 0) = transform.allowOutOfOrderSource := by
    cases transform.allowOutOfOrderSource <;> rfl
  simp only [decodeSymbolicTransform,encodeSymbolicTransform,decodeCallKind_encodeCallKind,kind,allow,Option.bind_eq_bind,
    Option.bind_some]
  rfl

structure SymbolicTransformRunRow where
  source : U32
  ordinal : U64
  transform : TransformRecord
  deriving DecidableEq, Repr

instance : RowOrder UInt8 := .lift UInt8.toNat fun _ _ => UInt8.toNat_inj.mp

namespace SymbolicTransformRunRow

def fields (row : SymbolicTransformRunRow) : List (List UInt8) :=
  [leBytes 4 row.source,leBytes 8 row.ordinal,encode row.transform]

theorem key_injective (a b : SymbolicTransformRunRow)
    (same : ((a.source,a.ordinal),encode a.transform) = ((b.source,b.ordinal),encode b.transform)) : a = b := by
  obtain ⟨place,bytes⟩ := Prod.mk.inj same
  obtain ⟨source,ordinal⟩ := Prod.mk.inj place
  have record := congrArg (decode : List UInt8 → TransformRecord) bytes
  rw [RecordCodec.inverse,RecordCodec.inverse] at record
  cases a; cases b
  cases source; cases ordinal; cases record
  rfl

-- Rows compare by source and ordinal. No two rows of a spool share an ordinal, so
-- the bytes behind it never decide.
instance : RowOrder SymbolicTransformRunRow := .lift (fun row => ((row.source,row.ordinal),encode row.transform)) key_injective

instance : ExternalRecord SymbolicTransformRunRow where
  width := 71
  encode row := row.fields.flatten
  decode record := ⟨leFin 32 (slice record 0 4),leFin 64 (slice record 4 12),decode (slice record 12 71)⟩
  positive := by decide
  sized row := by simp [fields,RecordCodec.sized,width]
  inverse row := by
    have source := field_at 4 32 (by decide) row.fields 0 row.source 0 4 rfl (by simp [fields]) rfl
    have ordinal := field_at 8 64 (by decide) row.fields 1 row.ordinal 4 12 rfl (by simp [fields]) rfl
    have size : (encode row.transform).length = 59 := RecordCodec.sized row.transform
    have bytes : slice row.fields.flatten 12 71 = encode row.transform :=
      slice_flatten (i := 2) rfl (by simp [fields]) (by rw [size])
    rw [source,ordinal,bytes,RecordCodec.inverse]

theorem before_iff {a b : SymbolicTransformRunRow} (apart : a.ordinal ≠ b.ordinal) :
    before a b = before (a.source,a.ordinal) (b.source,b.ordinal) := by
  have differs : (a.source,a.ordinal) ≠ (b.source,b.ordinal) := fun same => apart (Prod.mk.inj same).2
  show (before (a.source,a.ordinal) (b.source,b.ordinal) || (decide ((a.source,a.ordinal) = (b.source,b.ordinal)) && _)) = _
  rw [decide_eq_false differs,Bool.false_and,Bool.or_false]

end SymbolicTransformRunRow

end BonsaiNinja.Idg
