import BonsaiNinja.FactStore.Format
import BonsaiNinja.Hash.ShortIds

namespace BonsaiNinja.FactStore

open BonsaiNinja.Library BonsaiNinja.Library.Access
open Idg (Text)
open Hash (utf8Bytes utf8Bytes_injective)

def fromUtf8 (bytes : List UInt8) : Option Text := (String.fromUTF8? bytes.toByteArray).map String.toList

def IsUtf8 (bytes : List UInt8) : Prop := ∃ text, bytes = utf8Bytes text

theorem toByteArray_utf8Bytes (text : Text) : (utf8Bytes text).toByteArray = (String.ofList text).toByteArray := by
  rw [String.toByteArray_ofList]
  rfl

theorem fromUtf8_utf8Bytes (text : Text) : fromUtf8 (utf8Bytes text) = some text := by
  have valid : (String.ofList text).toByteArray.IsValidUTF8 := (String.ofList text).isValidUTF8
  rw [fromUtf8,toByteArray_utf8Bytes,String.fromUTF8?,dif_pos valid,Option.map_some]
  exact congrArg some String.toList_ofList

theorem fromUtf8_eq_some_iff {bytes : List UInt8} {text : Text} : fromUtf8 bytes = some text ↔ bytes = utf8Bytes text := by
  constructor
  · intro decoded
    obtain ⟨string,read,same⟩ := Option.map_eq_some_iff.mp decoded
    unfold String.fromUTF8? at read
    split at read
    · cases Option.some.inj read
      rename_i valid
      have stored : (utf8Bytes text).toByteArray = bytes.toByteArray := by
        rw [toByteArray_utf8Bytes,← same,String.ofList_toList]
        rfl
      rw [← List.toList_data_toByteArray (l := bytes),← stored,List.toList_data_toByteArray]
    · cases read
  · intro same
    rw [same,fromUtf8_utf8Bytes]

theorem fromUtf8_isSome_iff {bytes : List UInt8} : (fromUtf8 bytes).isSome ↔ IsUtf8 bytes := by
  rw [Option.isSome_iff_exists]
  exact exists_congr fun _ => fromUtf8_eq_some_iff

structure StringPoolView where
  bytes : List UInt8
  offsets : List UInt8
  count : UInt32
  deriving DecidableEq

def offsetAt (offsets : List UInt8) (i : Nat) : Nat := (u32From (slice offsets (i * 4) ((i + 1) * 4))).toNat

def getRange (bytes : List UInt8) (start stop : Nat) : Option (List UInt8) :=
  if start ≤ stop ∧ stop ≤ bytes.length then some (slice bytes start stop) else none

namespace StringPoolView

def checkOffset (bytesSection offsetsSection : List UInt8) (prev i : Nat) : Access FactStoreError Nat := do
  let start ← mul i 4
  let next ← add i 1
  let stop ← mul next 4
  let raw ← subslice offsetsSection start stop
  if bytesSection.length < (u32From raw).toNat then fail (.badStringPool "offset points past bytes section")
  else if 0 < i ∧ (u32From raw).toNat < prev then fail (.badStringPool "offsets section is not non-decreasing")
  else pure (u32From raw).toNat

def offsetsLen (count : UInt32) : Access FactStoreError Nat :=
  orFail (.badStringPool "offsets length overflow") ((checkedAdd count.toNat 1).bind fun entries => checkedMul entries 4)

def new (bytesSection offsetsSection : List UInt8) (count : UInt32) : Access FactStoreError StringPoolView := do
  let expected ← offsetsLen count
  if offsetsSection.length ≠ expected then
    fail (.badStringPool "offsets section length disagrees with declared string count")
  else do
    let last ← forRange (checkOffset bytesSection offsetsSection) 0 (count.toNat + 1)
    if last ≠ bytesSection.length then fail (.badStringPool "trailing sentinel does not match bytes section length")
    else pure ⟨bytesSection,offsetsSection,count⟩

def get (view : StringPoolView) (id : UInt32) : Access FactStoreError (Option Text) :=
  if view.count ≤ id then pure none
  else do
    let start ← subslice view.offsets (id.toNat * 4) ((id.toNat + 1) * 4)
    let stop ← subslice view.offsets ((id.toNat + 1) * 4) ((id.toNat + 2) * 4)
    pure ((getRange view.bytes (u32From start).toNat (u32From stop).toNat).bind fromUtf8)

def getOrErr (view : StringPoolView) (id : UInt32) : Access FactStoreError Text := do
  let found ← view.get id
  orFail (.badStringId id view.count) found

end StringPoolView

-- Sections that a pool of `count` strings can be read from.
structure OffsetTable (bytes offsets : List UInt8) (count : Nat) : Prop where
  length : offsets.length = (count + 1) * 4
  within : ∀ i ≤ count, offsetAt offsets i ≤ bytes.length
  ascending : ∀ i < count, offsetAt offsets i ≤ offsetAt offsets (i + 1)
  whole : offsetAt offsets count = bytes.length

def stringBytes (bytes offsets : List UInt8) (i : Nat) : List UInt8 :=
  slice bytes (offsetAt offsets i) (offsetAt offsets (i + 1))

section
variable {allowed : Nat → Nat → Prop} {bytes offsets : List UInt8} {count : UInt32}

def offsetBefore (offsets : List UInt8) : Nat → Nat
  | 0 => 0
  | i + 1 => offsetAt offsets i

theorem exact_checkOffset {i : Nat} (inside : (i + 1) * 4 ≤ offsets.length) (small : i < 2 ^ 32) :
    Exact (StringPoolView.checkOffset bytes offsets (offsetBefore offsets i) i) allowed fun next =>
      (offsetAt offsets i ≤ bytes.length ∧ ¬(0 < i ∧ offsetAt offsets i < offsetBefore offsets i)) ∧
        next = offsetBefore offsets (i + 1) := by
  refine .step (exact_mul (by omega)) (.step (exact_add (by omega)) (.step (exact_mul (by omega))
    (.step (exact_subslice (by omega) inside) ?_)))
  refine (Exact.unless _ fun _ => .unless _ fun _ => exact_pure _).congr fun next => ?_
  rw [← offsetAt,not_lt,and_assoc]
  rfl

theorem exact_offsetsLen : Exact (StringPoolView.offsetsLen count) allowed (· = (count.toNat + 1) * 4) := by
  have small := count.toNat_lt
  rw [StringPoolView.offsetsLen,checkedAdd,if_pos (by omega),Option.bind_some,checkedMul,if_pos (by omega)]
  exact exact_pure _

theorem exact_new (bytes offsets : List UInt8) (count : UInt32) (allowed : Nat → Nat → Prop) :
    Exact (StringPoolView.new bytes offsets count) allowed fun view =>
      OffsetTable bytes offsets count.toNat ∧ view = ⟨bytes,offsets,count⟩ := by
  have small := count.toNat_lt
  refine .step exact_offsetsLen ?_
  refine (Exact.unless _ fun length => ((exact_forRange (offsetBefore offsets) fun i below =>
    exact_checkOffset (by omega) (by omega)).bind fun last _ => .unless _ fun _ => exact_pure _)).congr fun view => ?_
  rw [not_not]
  constructor
  · intro found
    obtain ⟨length,last,⟨checked,same⟩,whole,rfl⟩ := found
    rw [not_not,same] at whole
    refine ⟨⟨length,fun i below => (checked i (by omega)).1,fun i below => ?_,whole⟩,rfl⟩
    exact not_lt.mp fun lower => (checked (i + 1) (by omega)).2 ⟨Nat.succ_pos i,lower⟩
  · intro found
    obtain ⟨table,rfl⟩ := found
    refine ⟨table.length,_,⟨fun i below => ⟨table.within i (by omega),fun late => ?_⟩,rfl⟩,not_not.mpr table.whole,rfl⟩
    obtain ⟨positive,lower⟩ := late
    cases i with
    | zero => exact absurd positive (Nat.lt_irrefl 0)
    | succ i => exact absurd (table.ascending i (by omega)) (not_le.mpr lower)

theorem exact_get (allowed : Nat → Nat → Prop) (table : OffsetTable bytes offsets count.toNat) (id : UInt32) :
    Exact (StringPoolView.get ⟨bytes,offsets,count⟩ id) allowed
      (· = if id < count then fromUtf8 (stringBytes bytes offsets id.toNat) else none) := by
  unfold StringPoolView.get
  by_cases outside : count ≤ id
  · rw [if_pos outside,if_neg (UInt32.not_lt.mpr outside)]
    exact exact_pure _
  · have below : id < count := UInt32.not_le.mp outside
    have position : id.toNat < count.toNat := UInt32.lt_iff_toNat_lt.mp below
    have length := table.length
    rw [if_neg outside,if_pos below]
    refine .step (exact_subslice (by omega) (by dsimp only; omega)) (.step (exact_subslice (by omega) (by dsimp only; omega)) ?_)
    have found : getRange bytes (offsetAt offsets id.toNat) (offsetAt offsets (id.toNat + 1)) =
        some (stringBytes bytes offsets id.toNat) :=
      if_pos ⟨table.ascending _ position,table.within _ position⟩
    have read := congrArg (Option.bind · fromUtf8) found
    rw [← Option.bind_some (stringBytes bytes offsets id.toNat) fromUtf8,← read]
    exact exact_pure _

end

end BonsaiNinja.FactStore
