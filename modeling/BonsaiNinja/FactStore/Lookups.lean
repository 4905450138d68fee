import BonsaiNinja.FactStore.OpenedFiles

namespace BonsaiNinja.FactStore
variable {i : Nat} {key : UInt64} {entry : IndexEntry}

open BonsaiNinja.Library BonsaiNinja.Library.Access

variable {allowed : Nat → Nat → Prop} {file : StoredFile} {header : Header} {index : List UInt8} {count : Nat}

def rowOf (index : List UInt8) (count : Nat) (key : UInt64) : Option Nat :=
  (List.range count).find? fun i => (entryAt index i).key == key

abbrev Ascending (index : List UInt8) (count : Nat) : Prop :=
  ∀ i, i + 1 < count → (entryAt index i).key < (entryAt index (i + 1)).key

theorem Ascending.lt (ascending : Ascending index count) {j : Nat} (before : i < j) (below : j < count) :
    (entryAt index i).key < (entryAt index j).key := by
  induction j with
  | zero => exact absurd before (Nat.not_lt_zero i)
  | succ j ih =>
    have step := ascending j below
    rcases Nat.lt_succ_iff_lt_or_eq.mp before with earlier | same
    · exact UInt64.lt_trans (ih earlier (by omega)) step
    · exact same ▸ step

theorem rowOf_eq_some_iff (ascending : Ascending index count) :
    rowOf index count key = some i ↔ i < count ∧ (entryAt index i).key = key := by
  rw [rowOf,List.find?_range_eq_some,beq_iff_eq,List.mem_range]
  constructor
  · intro found
    exact ⟨found.2.1,found.1⟩
  · intro found
    obtain ⟨below,same⟩ := found
    refine ⟨same,below,fun j before => ?_⟩
    rw [Bool.not_eq_true',beq_eq_false_iff_ne,← same]
    exact UInt64.ne_of_lt (ascending.lt before below)

theorem rowOf_eq_none_iff : rowOf index count key = none ↔ ∀ i < count, (entryAt index i).key ≠ key := by
  rw [rowOf,List.find?_range_eq_none]
  exact forall₂_congr fun _ _ => by rw [Bool.not_eq_true',beq_eq_false_iff_ne]

theorem leading_key (index : List UInt8) (row : Nat) :
    u64From (slice index (row * indexEntrySize) (row * indexEntrySize + 8)) = (entryAt index row).key := by
  have inside : row * indexEntrySize + 0 + 8 ≤ (row + 1) * indexEntrySize := by
    unfold indexEntrySize
    omega
  exact congrArg u64From (slice_slice inside).symm

-- The search loop: rows with the key lie in [lo, hi), which shrinks every turn.
theorem exact_searchRows (ascending : Ascending index count) (inside : count * indexEntrySize ≤ index.length)
    (sized : index.length < 2 ^ 63) {turns lo hi : Nat} (upper : hi ≤ count) (enough : hi - lo < turns)
    (only : ∀ i < count, (entryAt index i).key = key → lo ≤ i ∧ i < hi) :
    Exact (searchRows index key turns lo hi) allowed (· = rowOf index count key) := by
  induction turns generalizing lo hi with
  | zero => exact absurd enough (Nat.not_lt_zero _)
  | succ turns ih =>
    unfold searchRows
    by_cases more : lo < hi
    · rw [if_pos more]
      have bound : count * 32 ≤ index.length := inside
      generalize middle : lo + (hi - lo) / 2 = mid
      have range : lo ≤ mid ∧ mid < hi := by omega
      refine .step (exact_add (by omega)) (.step (exact_mul (by unfold indexEntrySize; omega)) (.step (exact_add (by
        unfold indexEntrySize; omega)) (.step (exact_subslice (by omega) (by unfold indexEntrySize; omega)) ?_)))
      rw [middle,leading_key]
      by_cases same : (entryAt index mid).key = key
      · rw [if_pos same,(rowOf_eq_some_iff ascending).mpr ⟨by omega,same⟩]
        exact exact_pure _
      rw [if_neg same]
      by_cases lower : (entryAt index mid).key < key
      · rw [if_pos lower]
        refine .step (exact_add (by omega)) (ih upper (by omega) fun i below found => ?_)
        refine ⟨Nat.succ_le_of_lt (Nat.lt_of_not_le fun early => ?_),(only i below found).2⟩
        rcases Nat.lt_or_eq_of_le early with before | rfl
        · exact UInt64.lt_asymm (found ▸ ascending.lt before (by omega)) lower
        · exact same found
      · rw [if_neg lower]
        refine ih (by omega) (by omega) fun i below found => ⟨(only i below found).1,Nat.lt_of_not_le fun late => ?_⟩
        rcases Nat.lt_or_eq_of_le late with after | rfl
        · exact lower (found ▸ ascending.lt after below)
        · exact same found
    · rw [if_neg more,rowOf_eq_none_iff.mpr fun i below found => absurd (only i below found) (by omega)]
      exact exact_pure _

theorem exact_binarySearchIndex (ascending : Ascending index count) (inside : count * indexEntrySize ≤ index.length)
    (sized : index.length < 2 ^ 63) (key : UInt64) :
    Exact (binarySearchIndex index count key) allowed (· = rowOf index count key) :=
  exact_searchRows ascending inside sized (Nat.le_refl count) (by omega) fun i below _ => ⟨Nat.zero_le i,below⟩

section
variable (good : WellFormed file header)
include good

theorem WellFormed.indexLength :
    (indexSection file header).length = header.indexCount.toNat * indexEntrySize := by
  rw [indexSection,slice_length good.sections.index]
  omega

theorem WellFormed.indexSized : (indexSection file header).length < 2 ^ 63 := by
  have inside := good.sections.index
  have sized := file.sized
  rw [good.indexLength]
  omega

theorem WellFormed.entry_inside (below : i < header.indexCount.toNat) :
    entryEnd (entryAt (indexSection file header) i) ≤ file.bytes.length :=
  le_trans (good.rows.contained i below).2 good.sections.payload

def entryOf (file : StoredFile) (header : Header) (key : UInt64) : Option IndexEntry :=
  (rowOf (indexSection file header) header.indexCount.toNat key).map (entryAt (indexSection file header))

theorem entryOf_eq_some
    (found : entryOf file header key = some entry) : ∃ i < header.indexCount.toNat,
      entryAt (indexSection file header) i = entry ∧ entry.key = key := by
  obtain ⟨i,row,rfl⟩ := Option.map_eq_some_iff.mp found
  obtain ⟨below,same⟩ := (rowOf_eq_some_iff good.rows.ascending).mp row
  exact ⟨i,below,rfl,same⟩

end

theorem entryOf_eq_none_iff : entryOf file header key = none ↔
    ∀ i < header.indexCount.toNat, (entryAt (indexSection file header) i).key ≠ key := by
  rw [entryOf,Option.map_eq_none_iff,rowOf_eq_none_iff]

def entryPayload (file : StoredFile) (entry : IndexEntry) : List UInt8 :=
  slice file.bytes entry.payloadOffset.toNat (entryEnd entry)

def hitOf (file : StoredFile) (entry : IndexEntry) : LookupHit := ⟨entry.bodyHash,entryPayload file entry⟩

def InEntry (entry : IndexEntry) (offset count : Nat) : Prop :=
  entry.payloadOffset.toNat ≤ offset ∧ offset + count ≤ entryEnd entry

section
variable (good : WellFormed file header)
include good

theorem exact_containsKey (key : UInt64) (allowed : Nat → Nat → Prop) :
    Exact ((readerOf file header).containsKey key) allowed (· = (entryOf file header key).isSome) := by
  refine .step (exact_binarySearchIndex good.rows.ascending good.indexLength.ge good.indexSized key) ?_
  rw [entryOf,Option.isSome_map]
  exact exact_pure _

theorem exact_findEntry (key : UInt64) :
    Exact ((readerOf file header).findEntry key) allowed (· = entryOf file header key) := by
  refine .step (exact_binarySearchIndex good.rows.ascending good.indexLength.ge good.indexSized key) ?_
  unfold entryOf
  cases found : rowOf (indexSection file header) header.indexCount.toNat key with
  | none => exact exact_pure _
  | some row =>
    obtain ⟨below,_⟩ := (rowOf_eq_some_iff good.rows.ascending).mp found
    refine .step (exact_rowAt ?_ good.indexSized) (exact_pure _)
    change (row + 1) * indexEntrySize ≤ (indexSection file header).length
    rw [good.indexLength]
    exact Nat.mul_le_mul_right _ below

theorem exact_lookup (key : UInt64)
    {next : IndexEntry → Access FactStoreError α} {described : IndexEntry → α → Prop}
    (each : ∀ entry, entryOf file header key = some entry → Exact (next entry) allowed (described entry)) :
    Exact (do
      let found ← (readerOf file header).findEntry key
      FactStoreReader.whenFound found next) allowed fun result =>
        (entryOf file header key = none ∧ result = none) ∨
          ∃ entry value, entryOf file header key = some entry ∧ described entry value ∧ result = some value := by
  refine .step (exact_findEntry good key) ?_
  cases found : entryOf file header key with
  | none =>
    refine (exact_pure _).congr fun result => ⟨fun same => .inl ⟨rfl,same⟩,fun either => ?_⟩
    rcases either with absent | present
    · exact absent.2
    · obtain ⟨_,_,impossible,_⟩ := present
      cases impossible
  | some entry =>
    refine ((each entry found).bind fun value _ => exact_pure (some value)).congr fun result => ?_
    constructor
    · intro given
      obtain ⟨value,good,same⟩ := given
      exact .inr ⟨entry,value,rfl,good,same⟩
    · intro either
      rcases either with absent | present
      · cases absent.1
      · obtain ⟨_,value,same,good,result⟩ := present
        cases same
        exact ⟨value,good,result⟩

theorem exact_lookup_of (key : UInt64)
    {next : IndexEntry → Access FactStoreError α} {value : IndexEntry → α}
    (each : ∀ entry, entryOf file header key = some entry → Exact (next entry) allowed (· = value entry)) :
    Exact (do
      let found ← (readerOf file header).findEntry key
      FactStoreReader.whenFound found next) allowed (· = (entryOf file header key).map value) := by
  refine (exact_lookup good key each).congr fun result => ?_
  cases entryOf file header key with
  | none => simp
  | some entry => simp

theorem exact_entryMetadata (key : UInt64) :
    Exact ((readerOf file header).entryMetadata key) allowed
      (· = (entryOf file header key).map fun entry => (entry.bodyHash,entry.payloadLen)) :=
  exact_lookup_of good key fun _ _ => exact_pure _

end

theorem exact_readEntry (inside : entryEnd entry ≤ file.bytes.length)
    (may : ∀ offset count, InEntry entry offset count → allowed offset count) :
    Exact ((readerOf file header).readEntry entry) allowed (· = hitOf file entry) := by
  have small := entry.payloadLen.toNat_lt
  exact .step (exact_allocate (by omega)) (.step (exact_readExact _ inside (may _ _ ⟨Nat.le_refl _,Nat.le_refl _⟩))
    (exact_pure _))

def OfKey (file : StoredFile) (header : Header) (key : UInt64) (offset count : Nat) : Prop :=
  ∃ entry, entryOf file header key = some entry ∧ InEntry entry offset count

theorem exact_get_entry (good : WellFormed file header) (key : UInt64) :
    Exact ((readerOf file header).get key) (OfKey file header key) (· = (entryOf file header key).map (hitOf file)) := by
  refine exact_lookup_of good key fun entry found => ?_
  obtain ⟨i,below,rfl,_⟩ := entryOf_eq_some good found
  exact exact_readEntry (good.entry_inside below) fun offset count inside => ⟨_,found,inside⟩

def wholeReader (file : StoredFile) (entry : IndexEntry) : PayloadReader :=
  ⟨entry.bodyHash,file,entry.payloadOffset.toNat,entry.payloadLen.toNat⟩

def rangeReader (file : StoredFile) (entry : IndexEntry) (relativeOffset length : Nat) : PayloadReader :=
  ⟨entry.bodyHash,file,entry.payloadOffset.toNat + relativeOffset,length⟩

theorem exact_payloadReader (good : WellFormed file header) (key : UInt64) (allowed : Nat → Nat → Prop) :
    Exact ((readerOf file header).payloadReader key) allowed (· = (entryOf file header key).map (wholeReader file)) :=
  exact_lookup_of good key fun _ _ => exact_pure _

theorem exact_checkRange {relativeOffset : UInt64} {length : Nat} :
    Exact (FactStoreReader.checkRange key relativeOffset length entry.payloadLen.toNat) allowed fun stop =>
      relativeOffset.toNat + length ≤ entry.payloadLen.toNat ∧ stop = relativeOffset.toNat + length := by
  have small := entry.payloadLen.toNat_lt
  refine (exact_orFail _ _).congr fun stop => ?_
  rw [Option.filter_eq_some_iff,decide_eq_true_eq,checkedAdd]
  constructor
  · intro found
    obtain ⟨sum,below⟩ := found
    split at sum
    · cases sum
      exact ⟨below,rfl⟩
    · cases sum
  · intro found
    obtain ⟨below,rfl⟩ := found
    exact ⟨if_pos (by omega),below⟩

theorem saturatingAdd_inside {offset relativeOffset length : Nat} (inside : offset + length ≤ file.bytes.length)
    (below : relativeOffset ≤ length) : saturatingAdd offset relativeOffset = offset + relativeOffset := by
  have sized := file.sized
  exact Nat.min_eq_left (Nat.le_sub_one_of_lt (by omega))

theorem exact_payloadRangeReader (good : WellFormed file header) (key relativeOffset length : UInt64)
    (allowed : Nat → Nat → Prop) :
    Exact ((readerOf file header).payloadRangeReader key relativeOffset length) allowed fun result =>
      (entryOf file header key = none ∧ result = none) ∨ ∃ entry value, entryOf file header key = some entry ∧
        (relativeOffset.toNat + length.toNat ≤ entry.payloadLen.toNat ∧
          value = rangeReader file entry relativeOffset.toNat length.toNat) ∧ result = some value := by
  refine exact_lookup good key fun entry found => .given exact_checkRange fun below => ?_
  obtain ⟨i,inside,rfl,_⟩ := entryOf_eq_some good found
  rw [saturatingAdd_inside (good.entry_inside inside) (by omega)]
  exact exact_pure _

theorem exact_readPayloadRange (good : WellFormed file header) (key relativeOffset : UInt64) (length : Nat) :
    Exact ((readerOf file header).readPayloadRange key relativeOffset length) (OfKey file header key) fun result =>
      (entryOf file header key = none ∧ result = none) ∨ ∃ entry value, entryOf file header key = some entry ∧
        (relativeOffset.toNat + length ≤ entry.payloadLen.toNat ∧
          value = slice (entryPayload file entry) relativeOffset.toNat (relativeOffset.toNat + length)) ∧
        result = some value := by
  refine exact_lookup good key fun entry found => .given exact_checkRange fun below => ?_
  obtain ⟨i,inside,rfl,_⟩ := entryOf_eq_some good found
  have stored := good.entry_inside inside
  generalize entryAt (indexSection file header) i = entry at found below stored
  have bounds : entry.payloadOffset.toNat + relativeOffset.toNat + length ≤ entryEnd entry := by
    unfold entryEnd
    omega
  rw [saturatingAdd_inside stored (by omega),entryPayload,slice_slice bounds]
  exact exact_readExact _ (le_trans bounds stored) ⟨entry,found,Nat.le_add_right _ _,bounds⟩

theorem exact_readSizes (sizes : List Nat) (allowed : Nat → Nat → Prop) {reader : PayloadReader}
    (inside : reader.offset + reader.remaining ≤ reader.file.bytes.length)
    (may : ∀ offset count, reader.offset ≤ offset → offset + count ≤ reader.offset + reader.remaining → allowed offset count) :
    Exact (reader.readSizes sizes) allowed
      (· = (slice reader.file.bytes reader.offset (reader.offset + reader.remaining)).take sizes.sum) := by
  have sized := reader.file.sized
  induction sizes generalizing reader with
  | nil => exact exact_pure _
  | cons bufLen sizes ih =>
    unfold PayloadReader.readSizes PayloadReader.read
    by_cases idle : reader.remaining = 0 ∨ bufLen = 0
    · rw [if_pos idle]
      refine .step (exact_pure _) (.step (ih inside may sized) ?_)
      have same : (slice reader.file.bytes reader.offset (reader.offset + reader.remaining)).take (bufLen :: sizes).sum =
          (slice reader.file.bytes reader.offset (reader.offset + reader.remaining)).take sizes.sum := by
        rw [List.sum_cons]
        rcases idle with exhausted | zero
        · rw [exhausted,Nat.add_zero,slice,Nat.sub_self,List.take_zero,List.take_nil,List.take_nil]
        · rw [zero,Nat.zero_add]
      rw [same]
      exact exact_pure _
    · rw [if_neg idle]
      generalize portion : min reader.remaining bufLen = len
      have moved : saturatingAdd reader.offset len = reader.offset + len :=
        saturatingAdd_inside inside (by omega)
      have rest : reader.offset + len + (reader.remaining - len) = reader.offset + reader.remaining := by omega
      rw [moved]
      refine .step (.step (exact_readExact _ (by omega) (may _ _ (Nat.le_refl _) (by omega))) (exact_pure _))
        (.step (ih (by dsimp only; omega) (fun offset count lower upper => may offset count (by
          dsimp only at lower; omega) (by dsimp only at upper; omega)) sized) ?_)
      have same : slice reader.file.bytes reader.offset (reader.offset + len) ++
          (slice reader.file.bytes (reader.offset + len) (reader.offset + reader.remaining)).take sizes.sum =
          (slice reader.file.bytes reader.offset (reader.offset + reader.remaining)).take (bufLen :: sizes).sum := by
        have front : (slice reader.file.bytes reader.offset (reader.offset + len)).length = len := by
          rw [slice_length (by omega)]
          omega
        have taken : (slice reader.file.bytes reader.offset (reader.offset + len)).take (bufLen + sizes.sum) =
            slice reader.file.bytes reader.offset (reader.offset + len) := List.take_of_length_le (by omega)
        have later : reader.offset + len ≤ reader.offset + reader.remaining := by omega
        have parts : slice reader.file.bytes reader.offset (reader.offset + len) ++
            slice reader.file.bytes (reader.offset + len) (reader.offset + reader.remaining) =
            slice reader.file.bytes reader.offset (reader.offset + reader.remaining) :=
          slice_append_slice (Nat.le_add_right _ _) later
        rw [← parts,List.sum_cons,List.take_append,taken,front]
        rcases Nat.le_total reader.remaining bufLen with whole | partly
        · -- Everything is taken, so nothing is left to take later.
          have ended : len = reader.remaining := by omega
          have empty : slice reader.file.bytes (reader.offset + len) (reader.offset + reader.remaining) = [] := by
            rw [ended,slice,Nat.sub_self,List.take_zero]
          rw [empty,List.take_nil,List.take_nil]
        · have left : bufLen + sizes.sum - len = sizes.sum := by omega
          rw [left]
      rw [rest,same]
      exact exact_pure _

def itemAt (file : StoredFile) (header : Header) (i : Nat) : Except FactStoreError (UInt64 × LookupHit) :=
  .ok ((entryAt (indexSection file header) i).key,hitOf file (entryAt (indexSection file header) i))

theorem exact_collect (good : WellFormed file header) (cursor : Nat) {turns : Nat}
    (enough : header.indexCount.toNat - cursor < turns)
    (may : ∀ i < header.indexCount.toNat, ∀ offset count, InEntry (entryAt (indexSection file header) i) offset count →
      allowed offset count) :
    Exact ((readerOf file header).collect turns cursor) allowed
      (· = ((List.range header.indexCount.toNat).drop cursor).map (itemAt file header)) := by
  induction turns generalizing cursor with
  | zero => exact absurd enough (Nat.not_lt_zero _)
  | succ turns ih =>
    have length : (readerOf file header).len = header.indexCount.toNat := rfl
    have bounded := header.indexCount.toNat_lt
    unfold FactStoreReader.collect FactStoreReader.next
    rw [length]
    by_cases ended : header.indexCount.toNat ≤ cursor
    · rw [if_pos ended,List.drop_eq_nil_of_le (by rw [List.length_range]; exact ended)]
      exact .step (exact_pure _) (exact_pure _)
    · have below : cursor < header.indexCount.toNat := Nat.lt_of_not_le ended
      have row : (cursor + 1) * indexEntrySize ≤ (indexSection file header).length := by
        rw [good.indexLength]
        exact Nat.mul_le_mul_right _ below
      have item : Exact (attempt do
          let entry ← rowAt (indexSection file header) cursor
          let hit ← (readerOf file header).readEntry entry
          pure (entry.key,hit)) allowed (· = itemAt file header cursor) :=
        Exact.attempt (.step (exact_rowAt row good.indexSized) (.step (exact_readEntry (good.entry_inside below)
          (may cursor below)) (exact_pure _)))
      have rest : (List.range header.indexCount.toNat).drop cursor =
          cursor :: (List.range header.indexCount.toNat).drop (cursor + 1) := by
        rw [List.drop_eq_getElem_cons (by rw [List.length_range]; exact below),List.getElem_range]
      rw [if_neg ended,rest,List.map_cons]
      exact .step (.step (exact_add (by omega)) (.step item (exact_pure _))) (.step (ih _ (by omega)) (exact_pure _))

theorem exact_iter (good : WellFormed file header) (allowed : Nat → Nat → Prop)
    (may : ∀ i < header.indexCount.toNat, ∀ offset count, InEntry (entryAt (indexSection file header) i) offset count →
      allowed offset count) :
    Exact (readerOf file header).iter allowed (· = (List.range header.indexCount.toNat).map (itemAt file header)) :=
  exact_collect good 0 (Nat.lt_succ_self _) may

theorem exact_string (good : WellFormed file header) (allowed : Nat → Nat → Prop) (id : UInt32) :
    Exact ((readerOf file header).stringPool.get id) allowed (· =
      if id.toNat < header.stringCount.toNat then
        fromUtf8 (stringBytes (poolSection file header) (offsetSection file header) id.toNat)
      else none) := by
  have count := toUInt32_toNat good.stringCount
  have strings : OffsetTable (poolSection file header) (offsetSection file header) header.stringCount.toUInt32.toNat :=
    count.symm ▸ good.strings
  have read := exact_get allowed strings id
  simp only [UInt32.lt_iff_toNat_lt,count] at read
  exact read

end BonsaiNinja.FactStore
