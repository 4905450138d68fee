import BonsaiNinja.FactStore.Lookups
import BonsaiNinja.FactStore.WriterRuns

namespace BonsaiNinja.FactStore

open BonsaiNinja.Library
open Idg (Text)
open Hash (utf8Bytes)

instance : RecordCodec IndexEntry where
  width := indexEntrySize
  encode := IndexEntry.toBytes
  decode := IndexEntry.fields
  positive := by decide
  sized := IndexEntry.toBytes_length
  inverse := IndexEntry.fields_toBytes

theorem sortByKey_perm (entries : List PendingIndexEntry) : (sortByKey entries).Perm entries := List.perm_insertionSort _ _

theorem sortByKey_pairwise (entries : List PendingIndexEntry) :
    (sortByKey entries).Pairwise fun a b => a.key.toNat ≤ b.key.toNat := by
  have total : Std.Total fun a b : PendingIndexEntry => a.key.toNat ≤ b.key.toNat := ⟨fun a b => Nat.le_total _ _⟩
  have transitive : IsTrans PendingIndexEntry fun a b => a.key.toNat ≤ b.key.toNat := ⟨fun a b c => Nat.le_trans⟩
  exact List.pairwise_insertionSort _ entries

theorem strict_of_neighbours {entries : List PendingIndexEntry} (sorted : entries.Pairwise fun a b => a.key.toNat ≤ b.key.toNat)
    (differ : ∀ pair ∈ entries.zip entries.tail, pair.1.key ≠ pair.2.key) : entries.Pairwise fun a b => a.key < b.key := by
  induction entries with
  | nil => exact .nil
  | cons first rest ih =>
    obtain ⟨above,later⟩ := List.pairwise_cons.mp sorted
    cases rest with
    | nil => exact List.pairwise_singleton _ _
    | cons second rest =>
      have strict := ih later fun pair member => differ pair (List.mem_cons_of_mem _ member)
      have apart : first.key.toNat ≠ second.key.toNat := fun same =>
        differ (first,second) List.mem_cons_self (UInt64.toNat_inj.mp same)
      have step : first.key < second.key :=
        UInt64.lt_iff_toNat_lt.mpr (lt_of_le_of_ne (above second List.mem_cons_self) apart)
      refine List.pairwise_cons.mpr ⟨fun entry member => ?_,strict⟩
      rcases List.mem_cons.mp member with rfl | behind
      · exact step
      · exact UInt64.lt_trans step ((List.pairwise_cons.mp strict).1 entry behind)

theorem duplicateKey_eq_none_iff {entries : List PendingIndexEntry} :
    duplicateKey (sortByKey entries) = none ↔ (entries.map (·.key)).Nodup := by
  rw [duplicateKey,Option.map_eq_none_iff,List.find?_eq_none,← ((sortByKey_perm entries).map (·.key)).nodup_iff]
  constructor
  · intro checked
    have strict := strict_of_neighbours (sortByKey_pairwise entries) fun pair member same =>
      checked pair member (beq_iff_eq.mpr same)
    exact List.pairwise_map.mpr (strict.imp fun below same => UInt64.ne_of_lt below same)
  · intro distinct pair member same
    exact pair_of_zip_tail (List.pairwise_map.mp distinct) pair member (beq_iff_eq.mp same)

theorem slice_patched {front : List UInt8} (body : List UInt8) {start : Nat} (behind : front.length ≤ start) (stop : Nat) :
    slice (front ++ body.drop front.length) start stop = slice body start stop := by
  rw [slice_past behind,slice,slice,List.drop_drop]
  have place : front.length + (start - front.length) = start := by omega
  have count : stop - front.length - (start - front.length) = stop - start := by omega
  rw [place,count]

section
variable {tableId : UInt32} {pipelineHash : UInt64} {state : ThreadState} {facts : List Fact} {strings : Strings}

-- A thread's state that `finish` turns into a file: its facts, with different
-- keys, and a stored string pool, of a size that a file can have.
structure Finished (state : ThreadState) (facts : List Fact) (strings : Strings) (texts : List Text) : Prop where
  stored : Stored state facts
  distinct : (facts.map (·.key)).Nodup
  table : OffsetTable strings.bytes strings.offsets strings.count
  count : strings.count = texts.length
  texts : ∀ i (below : i < texts.length), stringBytes strings.bytes strings.offsets i = utf8Bytes texts[i]
  many : strings.count < 2 ^ 32
  long : strings.bytes.length < 2 ^ 32
  fits : state.content.length + (strings.bytes.length + ((strings.count + 1) * 4 + facts.length * indexEntrySize)) < 2 ^ 63

variable {texts : List Text}

theorem Stored.entries_length (stored : Stored state facts) : state.entries.length = facts.length := by
  rw [← stored.facts,List.length_map]

theorem Stored.keys (stored : Stored state facts) : state.entries.map (·.key) = facts.map (·.key) := by
  rw [← stored.facts,List.map_map]
  rfl

abbrev sortedRows (state : ThreadState) : List IndexEntry := (sortByKey state.entries).map PendingIndexEntry.onDisk

theorem trailer_eq (strings : Strings) (state : ThreadState) :
    trailer strings (sortByKey state.entries) = strings.bytes ++ (strings.offsets ++ wire (sortedRows state)) := by
  rw [trailer,wire,List.flatMap_map]
  rfl

theorem sortedRows_length (stored : Stored state facts) : (sortedRows state).length = facts.length := by
  rw [List.length_map,(sortByKey_perm state.entries).length_eq,stored.entries_length]

theorem finalHeader_shaped (payloadSectionEnd entryCount : Nat) :
    (finalHeader tableId pipelineHash payloadSectionEnd entryCount strings).Shaped :=
  ⟨rfl,List.length_replicate⟩

theorem Finished.body_length (finished : Finished state facts strings texts) :
    (state.content ++ trailer strings (sortByKey state.entries)).length =
      state.content.length + (strings.bytes.length + ((strings.count + 1) * 4 + facts.length * indexEntrySize)) := by
  rw [trailer_eq,List.length_append,List.length_append,List.length_append,wire_length,sortedRows_length finished.stored,
    finished.table.length]
  rfl

theorem header_length : (finalHeader tableId pipelineHash state.nextPayloadOffset state.entries.length strings).toBytes.length =
    headerSize :=
  Header.toBytes_length (finalHeader_shaped _ _)

theorem Finished.content_length (finished : Finished state facts strings texts) :
    (finalContent tableId pipelineHash state strings).length =
      state.content.length + (strings.bytes.length + ((strings.count + 1) * 4 + facts.length * indexEntrySize)) := by
  have headed := finished.stored.headed
  rw [finalContent,List.length_append,List.length_drop,header_length,finished.body_length]
  omega

theorem slice_content {start : Nat} (behind : headerSize ≤ start) (stop : Nat) :
    slice (finalContent tableId pipelineHash state strings) start stop =
      slice (state.content ++ trailer strings (sortByKey state.entries)) start stop := by
  have length : (finalHeader tableId pipelineHash state.nextPayloadOffset state.entries.length strings).toBytes.length = headerSize :=
    header_length
  rw [← length] at behind
  have patched := slice_patched (state.content ++ trailer strings (sortByKey state.entries)) behind stop
  rw [length] at patched
  exact patched

def finishedFile (tableId : UInt32) (pipelineHash : UInt64) (finished : Finished state facts strings texts) : StoredFile :=
  ⟨finalContent tableId pipelineHash state strings,by rw [finished.content_length]; exact finished.fits⟩

abbrev finishedHeader (tableId : UInt32) (pipelineHash : UInt64) (state : ThreadState) (strings : Strings) : Header :=
  finalHeader tableId pipelineHash state.nextPayloadOffset state.entries.length strings

structure HeaderNumbers (header : Header) (state : ThreadState) (facts : List Fact) (strings : Strings) : Prop where
  stringPoolOffset : header.stringPoolOffset.toNat = state.content.length
  stringPoolBytesLen : header.stringPoolBytesLen.toNat = strings.bytes.length
  stringCount : header.stringCount.toNat = strings.count
  indexOffset : header.indexOffset.toNat = state.content.length + strings.bytes.length + (strings.count + 1) * 4
  indexCount : header.indexCount.toNat = facts.length
  payloadOffset : header.payloadOffset.toNat = headerSize
  payloadLen : header.payloadLen.toNat = state.content.length - headerSize

section
variable (finished : Finished state facts strings texts)
include finished

theorem Finished.numbers (tableId : UInt32) (pipelineHash : UInt64) :
    HeaderNumbers (finishedHeader tableId pipelineHash state strings) state facts strings := by
  have fits := finished.fits
  have size : indexEntrySize = 32 := rfl
  rw [size] at fits
  have small : ∀ n, n < 2 ^ 63 → (UInt64.ofNat n).toNat = n := fun n below =>
    UInt64.toNat_ofNat_of_lt (lt_trans below (by decide))
  unfold finishedHeader finalHeader
  rw [finished.stored.offset,finished.stored.entries_length,finished.table.length]
  exact ⟨small _ (by omega),small _ (by omega),small _ (by omega),small _ (by omega),small _ (by omega),rfl,
    small _ (by omega)⟩

theorem Finished.poolSection_eq :
    poolSection (finishedFile tableId pipelineHash finished) (finishedHeader tableId pipelineHash state strings) =
      strings.bytes := by
  have numbers := finished.numbers tableId pipelineHash
  rw [poolSection,numbers.stringPoolOffset,numbers.stringPoolBytesLen]
  refine (slice_content finished.stored.headed _).trans ?_
  rw [slice_past (Nat.le_refl _),Nat.sub_self,Nat.add_sub_cancel_left,trailer_eq,slice_first rfl]

theorem Finished.offsetSection_eq :
    offsetSection (finishedFile tableId pipelineHash finished) (finishedHeader tableId pipelineHash state strings) =
      strings.offsets := by
  have numbers := finished.numbers tableId pipelineHash
  have headed := finished.stored.headed
  rw [offsetSection,numbers.stringPoolOffset,numbers.stringPoolBytesLen,numbers.stringCount]
  refine (slice_content (by omega) _).trans ?_
  have first : state.content.length + strings.bytes.length - state.content.length = strings.bytes.length := by omega
  have second : state.content.length + strings.bytes.length + (strings.count + 1) * 4 - state.content.length -
      strings.bytes.length = strings.offsets.length := by rw [finished.table.length]; omega
  rw [slice_past (by omega),first,trailer_eq,slice_past (Nat.le_refl _),Nat.sub_self,second,slice_first rfl]

theorem Finished.indexSection_eq :
    indexSection (finishedFile tableId pipelineHash finished) (finishedHeader tableId pipelineHash state strings) =
      wire (sortedRows state) := by
  have numbers := finished.numbers tableId pipelineHash
  have headed := finished.stored.headed
  have rows : (wire (sortedRows state)).length = facts.length * indexEntrySize := by
    rw [wire_length,sortedRows_length finished.stored]
    rfl
  have offsets := finished.table.length
  rw [indexSection,numbers.indexOffset,numbers.indexCount]
  refine (slice_content (by omega) _).trans ?_
  rw [slice_past (by omega),trailer_eq,slice_past (by omega),slice_past (by omega)]
  have start : state.content.length + strings.bytes.length + (strings.count + 1) * 4 - state.content.length -
      strings.bytes.length - strings.offsets.length = 0 := by omega
  rw [start]
  exact slice_whole (by omega)

theorem Finished.entryAt_eq {i : Nat} (below : i < (sortedRows state).length) :
    entryAt (indexSection (finishedFile tableId pipelineHash finished) (finishedHeader tableId pipelineHash state strings)) i =
      (sortedRows state)[i] := by
  rw [finished.indexSection_eq]
  exact recordAt_wire below

theorem Finished.sortedRows_strict :
    (sortByKey state.entries).Pairwise fun a b => a.key < b.key := by
  have none := duplicateKey_eq_none_iff.mpr (finished.stored.keys ▸ finished.distinct)
  rw [duplicateKey,Option.map_eq_none_iff,List.find?_eq_none] at none
  exact strict_of_neighbours (sortByKey_pairwise _) fun pair member same => none pair member (beq_iff_eq.mpr same)

theorem Finished.wellFormed :
    WellFormed (finishedFile tableId pipelineHash finished) (finishedHeader tableId pipelineHash state strings) := by
  have numbers := finished.numbers tableId pipelineHash
  have headed := finished.stored.headed
  have length : (finishedFile tableId pipelineHash finished).bytes.length = _ := finished.content_length
  have rows := sortedRows_length finished.stored
  have shaped : (finishedHeader tableId pipelineHash state strings).Shaped := finalHeader_shaped _ _
  refine ⟨?_,?_,rfl,⟨?_,?_,?_⟩,?_,?_,?_,⟨fun i below => ?_,fun i below => ?_⟩⟩
  · rw [length]
    omega
  · have front : slice (finishedFile tableId pipelineHash finished).bytes 0 headerSize =
        (finishedHeader tableId pipelineHash state strings).toBytes := slice_first header_length
    rw [front]
    exact Header.fromBytes_toBytes shaped
  · rw [length,numbers.stringPoolOffset,numbers.stringPoolBytesLen,numbers.stringCount]
    omega
  · rw [length,numbers.indexOffset,numbers.indexCount]
    omega
  · rw [length,numbers.payloadOffset,numbers.payloadLen]
    omega
  · rw [numbers.stringCount]
    exact finished.many
  · rw [numbers.stringPoolBytesLen]
    exact finished.long
  · rw [finished.poolSection_eq,finished.offsetSection_eq,numbers.stringCount]
    exact finished.table
  · rw [numbers.indexCount] at below
    rw [finished.entryAt_eq (by omega),finished.entryAt_eq (by omega),List.getElem_map,List.getElem_map]
    exact List.pairwise_iff_getElem.mp finished.sortedRows_strict i (i + 1) _ _ (Nat.lt_succ_self i)
  · rw [numbers.indexCount] at below
    rw [finished.entryAt_eq (by omega),List.getElem_map,numbers.payloadOffset,numbers.payloadLen]
    rw [List.length_map] at rows
    have inside : i < (sortByKey state.entries).length := by omega
    have bounds := finished.stored.inside _ ((sortByKey_perm state.entries).mem_iff.mp (List.getElem_mem inside))
    refine ⟨bounds.1,le_trans bounds.2 ?_⟩
    omega

end

end

end BonsaiNinja.FactStore
