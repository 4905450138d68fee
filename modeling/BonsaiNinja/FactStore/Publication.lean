import BonsaiNinja.FactStore.FinishedFiles

namespace BonsaiNinja.FactStore
variable {entries : List PreparedFactStoreEntry} {files : Files} {target : StorePath} {tableId : UInt32} {pipelineHash : UInt64}
  {prepared : PreparedFactStorePayload} {writer : FactStoreWriter}

open BonsaiNinja.Library
open Idg (Text)
open Hash (utf8Bytes)

def Fact.item (fact : Fact) : Except FactStoreError (UInt64 × LookupHit) := .ok (fact.key,⟨fact.bodyHash,fact.payload⟩)

-- The answers of a reader over facts with different keys, and over the ids of
-- strings.
structure StoreAnswers (reader : FactStoreReader) (facts : List Fact) (ids : List (Text × UInt32)) : Prop where
  hit : ∀ fact ∈ facts, (reader.get fact.key).result = .ok (some ⟨fact.bodyHash,fact.payload⟩)
  miss : ∀ key ∉ facts.map (·.key), (reader.get key).result = .ok none
  iteration : ∃ listed : List Fact, listed.Perm facts ∧ listed.Pairwise (fun a b => a.key < b.key) ∧
    reader.iter.result = .ok (listed.map Fact.item)
  part : ∀ fact ∈ facts, ∀ (offset : UInt64) (length : Nat), offset.toNat + length ≤ fact.payload.length →
    (reader.readPayloadRange fact.key offset length).result =
      .ok (some (slice fact.payload offset.toNat (offset.toNat + length)))
  partBeyond : ∀ fact ∈ facts, ∀ (offset : UInt64) (length : Nat), fact.payload.length < offset.toNat + length →
    ∃ reason, (reader.readPayloadRange fact.key offset length).result = .error (.error reason)
  range : ∀ fact ∈ facts, ∀ offset length : UInt64, offset.toNat + length.toNat ≤ fact.payload.length →
    ∃ opened, (reader.payloadRangeReader fact.key offset length).result = .ok (some opened) ∧
      opened.bodyHash = fact.bodyHash ∧ ∀ sizes, (opened.readSizes sizes).result =
        .ok ((slice fact.payload offset.toNat (offset.toNat + length.toNat)).take sizes.sum)
  rangeBeyond : ∀ fact ∈ facts, ∀ offset length : UInt64, fact.payload.length < offset.toNat + length.toNat →
    ∃ reason, (reader.payloadRangeReader fact.key offset length).result = .error (.error reason)
  strings : ∀ pair ∈ ids, (reader.stringPool.get pair.2).result = .ok (some pair.1)

section
variable {tableId : UInt32} {pipelineHash : UInt64} {state : ThreadState} {facts : List Fact} {strings : Strings}
  {texts : List Text}
variable {entry : PendingIndexEntry}

section
variable (finished : Finished state facts strings texts)
include finished

theorem Finished.entryOf_eq (tableId : UInt32) (pipelineHash : UInt64)
    (member : entry ∈ state.entries) :
    entryOf (finishedFile tableId pipelineHash finished) (finishedHeader tableId pipelineHash state strings) entry.key =
      some entry.onDisk := by
  obtain ⟨i,below,same⟩ := List.getElem_of_mem ((sortByKey_perm state.entries).mem_iff.mpr member)
  have numbers := finished.numbers tableId pipelineHash
  have rows := sortedRows_length finished.stored
  have inside : i < (sortedRows state).length := by rw [List.length_map]; exact below
  have stored : entryAt (indexSection (finishedFile tableId pipelineHash finished)
      (finishedHeader tableId pipelineHash state strings)) i = entry.onDisk := by
    rw [finished.entryAt_eq inside,List.getElem_map,same]
  have row := (rowOf_eq_some_iff finished.wellFormed.rows.ascending).mpr
    ⟨by rw [numbers.indexCount]; omega,congrArg IndexEntry.key stored⟩
  rw [entryOf]
  exact (congrArg _ row).trans (congrArg some stored)

theorem Finished.entryOf_eq_none {key : UInt64}
    (absent : key ∉ facts.map (·.key)) :
    entryOf (finishedFile tableId pipelineHash finished) (finishedHeader tableId pipelineHash state strings) key = none := by
  have numbers := finished.numbers tableId pipelineHash
  have rows := sortedRows_length finished.stored
  refine entryOf_eq_none_iff.mpr fun i below same => absent ?_
  rw [numbers.indexCount] at below
  rw [finished.entryAt_eq (by omega),List.getElem_map] at same
  rw [← finished.stored.keys,← same]
  exact List.mem_map_of_mem ((sortByKey_perm state.entries).mem_iff.mp (List.getElem_mem _))

theorem Finished.payload_eq (tableId : UInt32) (pipelineHash : UInt64)
    (member : entry ∈ state.entries) : entryPayload (finishedFile tableId pipelineHash finished) entry.onDisk =
      (entry.factIn state.content).payload := by
  have bounds := finished.stored.inside entry member
  exact (slice_content bounds.1 _).trans (slice_append_left bounds.2)

theorem Finished.payload_length
    (member : entry ∈ state.entries) : (entry.factIn state.content).payload.length = entry.payloadLen.toNat := by
  refine (slice_length (finished.stored.inside entry member).2).trans ?_
  unfold pendingEnd
  omega

theorem Finished.fact_entry {fact : Fact} (member : fact ∈ facts) :
    ∃ entry ∈ state.entries, entry.factIn state.content = fact := by
  rw [← finished.stored.facts] at member
  exact List.mem_map.mp member

theorem Finished.answers {ids : List (Text × UInt32)}
    (known : ∀ pair ∈ ids, texts[pair.2.toNat]? = some pair.1) :
    StoreAnswers (readerOf (finishedFile tableId pipelineHash finished) (finishedHeader tableId pipelineHash state strings))
      facts ids where
  hit fact member := by
    obtain ⟨entry,listed,rfl⟩ := finished.fact_entry member
    refine ((exact_get_entry finished.wellFormed entry.key).returns _).mpr ?_
    rw [finished.entryOf_eq tableId pipelineHash listed,Option.map_some,hitOf,finished.payload_eq tableId pipelineHash listed]
    rfl
  miss key absent := by
    refine ((exact_get_entry finished.wellFormed key).returns _).mpr ?_
    rw [finished.entryOf_eq_none absent,Option.map_none]
  iteration := by
    refine ⟨(sortByKey state.entries).map (·.factIn state.content),?_,?_,?_⟩
    · rw [← finished.stored.facts]
      exact (sortByKey_perm state.entries).map _
    · exact List.pairwise_map.mpr finished.sortedRows_strict
    · refine ((exact_iter finished.wellFormed (fun _ _ => True) fun _ _ _ _ _ => trivial).returns _).mpr ?_
      have numbers := finished.numbers tableId pipelineHash
      have rows := sortedRows_length finished.stored
      have length := (sortByKey_perm state.entries).length_eq.trans finished.stored.entries_length
      refine List.ext_getElem ?_ fun i left right => ?_
      · rw [List.length_map,List.length_map,List.length_map,List.length_range,numbers.indexCount,length]
      · rw [List.length_map,List.length_map] at left
        have member : (sortByKey state.entries)[i] ∈ state.entries :=
          (sortByKey_perm state.entries).mem_iff.mp (List.getElem_mem _)
        rw [List.getElem_map,List.getElem_map,List.getElem_map,List.getElem_range,itemAt,finished.entryAt_eq (by omega),
          List.getElem_map,hitOf,finished.payload_eq tableId pipelineHash member]
        rfl
  part fact member offset length fits := by
    obtain ⟨entry,listed,rfl⟩ := finished.fact_entry member
    rw [finished.payload_length listed] at fits
    refine ((exact_readPayloadRange finished.wellFormed entry.key offset length).returns _).mpr (.inr ?_)
    exact ⟨_,_,finished.entryOf_eq tableId pipelineHash listed,⟨fits,rfl⟩,by rw [finished.payload_eq tableId pipelineHash listed]⟩
  partBeyond fact member offset length exceeds := by
    obtain ⟨entry,listed,rfl⟩ := finished.fact_entry member
    rw [finished.payload_length listed] at exceeds
    refine (exact_readPayloadRange finished.wellFormed entry.key offset length).refused fun value either => ?_
    rw [finished.entryOf_eq tableId pipelineHash listed] at either
    rcases either with absent | present
    · cases absent.1
    · obtain ⟨_,_,same,fits,_⟩ := present
      cases same
      exact absurd fits.1 (not_le.mpr exceeds)
  range fact member offset length fits := by
    obtain ⟨entry,listed,rfl⟩ := finished.fact_entry member
    have bound := fits
    rw [finished.payload_length listed] at bound
    refine ⟨_,((exact_payloadRangeReader finished.wellFormed entry.key offset length fun _ _ => True).returns _).mpr
      (.inr ⟨_,_,finished.entryOf_eq tableId pipelineHash listed,⟨bound,rfl⟩,rfl⟩),rfl,fun sizes => ?_⟩
    have inside : entryEnd entry.onDisk ≤ (finishedFile tableId pipelineHash finished).bytes.length := by
      obtain ⟨i,below,row,_⟩ := entryOf_eq_some finished.wellFormed
        (finished.entryOf_eq tableId pipelineHash listed)
      exact row ▸ finished.wellFormed.entry_inside below
    have part : entry.onDisk.payloadOffset.toNat + offset.toNat + length.toNat ≤ entryEnd entry.onDisk := by
      unfold entryEnd PendingIndexEntry.onDisk
      dsimp only
      omega
    refine ((exact_readSizes sizes (fun _ _ => True) ?_ fun _ _ _ _ => trivial).returns _).mpr ?_
    · exact le_trans part inside
    rw [← finished.payload_eq tableId pipelineHash listed,entryPayload,slice_slice part]
    rfl
  rangeBeyond fact member offset length exceeds := by
    obtain ⟨entry,listed,rfl⟩ := finished.fact_entry member
    rw [finished.payload_length listed] at exceeds
    refine (exact_payloadRangeReader finished.wellFormed entry.key offset length fun _ _ => True).refused
      fun value either => ?_
    rw [finished.entryOf_eq tableId pipelineHash listed] at either
    rcases either with absent | present
    · cases absent.1
    · obtain ⟨_,_,same,fits,_⟩ := present
      cases same
      exact absurd fits.1 (not_le.mpr exceeds)
  strings pair member := by
    have numbers := finished.numbers tableId pipelineHash
    have resolved := known pair member
    obtain ⟨below,same⟩ := List.getElem?_eq_some_iff.mp resolved
    refine ((exact_string finished.wellFormed (fun _ _ => True) pair.2).returns _).mpr ?_
    rw [finished.poolSection_eq,finished.offsetSection_eq,numbers.stringCount,finished.count,if_pos below,
      finished.texts _ below,fromUtf8_utf8Bytes,same]

end

end

theorem uniqueTmpPath_ne (target : StorePath) (pid counter : Nat) : uniqueTmpPath target pid counter ≠ target := by
  intro same
  unfold uniqueTmpPath at same
  split at same
  · rename_i fileName named
    have names := congrArg StorePath.fileName same
    rw [named,Option.some.injEq] at names
    have lengths := congrArg List.length names
    rw [List.length_append,List.length_append] at lengths
    have dots : ".tmp.".toList.length = 5 := by decide
    omega
  · rename_i unnamed
    have names := congrArg StorePath.fileName same
    rw [unnamed] at names
    cases names

def preparedFacts (prepared : PreparedFactStorePayload) (entries : List PreparedFactStoreEntry) : List Fact :=
  entries.map (·.factIn prepared.bytes)

def Session.facts (session : Session) : List Fact := session.sent.map WriteCmd.fact

def storeSize (prepared : PreparedFactStorePayload) (session : Session) (facts : List Fact) : Nat :=
  prepared.bytes.length + (session.sent.map (·.fact.payload.length)).sum +
    (session.writer.stringPool.bytes.length + ((session.writer.stringPool.len + 1) * 4 + facts.length * indexEntrySize))

theorem checkPrepared_ok {preparedLen : Nat} {entry : PreparedFactStoreEntry}
    (checked : FactStoreWriter.checkPrepared preparedLen entry = .ok ()) :
    headerSize ≤ entry.payloadOffset.toNat ∧ pendingEnd entry ≤ preparedLen := by
  unfold FactStoreWriter.checkPrepared checkedAdd at checked
  split at checked
  · cases checked
  · rename_i payloadEnd sum
    split at sum
    · cases sum
      split at checked
      · cases checked
      · rename_i inside
        unfold pendingEnd
        omega
    · cases sum

theorem checkAllPrepared_ok {preparedLen : Nat}
    (checked : FactStoreWriter.checkAllPrepared preparedLen entries = .ok ()) :
    ∀ entry ∈ entries, headerSize ≤ entry.payloadOffset.toNat ∧ pendingEnd entry ≤ preparedLen := by
  induction entries with
  | nil => exact fun _ member => absurd member List.not_mem_nil
  | cons first rest ih =>
    unfold FactStoreWriter.checkAllPrepared at checked
    split at checked
    · cases checked
    · rename_i ok
      intro entry member
      rcases List.mem_cons.mp member with rfl | later
      · exact checkPrepared_ok ok
      · exact ih checked entry later

-- A writer as it is created: where it stands, and that the target file is as it
-- was without the staging file.
structure Fresh (files : Files) (target tmp : StorePath) (tableId : UInt32) (pipelineHash : UInt64)
    (prepared : PreparedFactStorePayload) (entries : List PreparedFactStoreEntry) (writer : FactStoreWriter) : Prop where
  targetIs : writer.targetPath = target
  tmpIs : writer.tmpPath = tmp
  tableIdIs : writer.tableId = tableId
  pipelineHashIs : writer.pipelineHash = pipelineHash
  pool : writer.stringPool = .new
  queue : writer.queue = []
  thread : writer.thread = .ok ⟨prepared.bytes,entries,prepared.bytes.length⟩
  stored : Stored ⟨prepared.bytes,entries,prepared.bytes.length⟩ (preparedFacts prepared entries)
  kept : writer.files target = files target

theorem createFromPrepared_fresh {tmp : StorePath}
    (apart : tmp ≠ target) (new : files prepared.path = none)
    (created : FactStoreWriter.createFromPrepared (prepared.staged files) target tmp tableId pipelineHash prepared entries =
      .ok writer) : Fresh files target tmp tableId pipelineHash prepared entries writer := by
  unfold FactStoreWriter.createFromPrepared at created
  split at created
  · cases created
  · rename_i checked
    cases created
    refine ⟨rfl,rfl,rfl,rfl,rfl,rfl,rfl,⟨prepared.headed,rfl,checkAllPrepared_ok checked,rfl⟩,?_⟩
    unfold PreparedFactStorePayload.relocate Files.remove PreparedFactStorePayload.staged
    dsimp only
    rw [Function.update_of_ne (Ne.symm apart)]
    by_cases same : target = prepared.path
    · rw [same,Function.update_self,new]
    · rw [Function.update_of_ne same,Function.update_of_ne same]

theorem consume_keys {commands : List WriteCmd} {state final : ThreadState} (ran : consume commands state = .ok final) :
    final.entries.map (·.key) = state.entries.map (·.key) ++ commands.map (·.fact.key) := by
  induction commands generalizing state with
  | nil =>
    cases ran
    rw [List.map_nil,List.append_nil]
  | cons command rest ih =>
    rw [consume] at ran
    rcases process_cases state command with ok | failed
    · rw [ok.2.2] at ran
      rw [ih ran,List.map_cons]
      change (state.entries ++ [_]).map (fun entry : PendingIndexEntry => entry.key) ++ _ = _
      rw [List.map_append,List.append_assoc]
      rfl
    · obtain ⟨_,reason,stopped⟩ := failed
      rw [stopped] at ran
      cases ran

-- What a session of a fresh writer comes to: one complete store in the place of
-- the target file, or the target file as it was.
structure PublishesOrKeeps (files : Files) (target : StorePath) (tableId : UInt32) (pipelineHash : UInt64)
    (facts : List Fact) (size : Nat) (session : Session) : Prop where
  unfinished : session.writer.files target = files target
  dropped : session.writer.drop target = files target
  published : (∀ command ∈ session.sent, command.Succeeds) → (facts.map (·.key)).Nodup →
    session.writer.stringPool.bytes.length < 2 ^ 32 → size < 2 ^ 63 →
    session.writer.finish.1 = .ok facts.length ∧ ∃ file : StoredFile, session.writer.finish.2 target = some file.bytes ∧
      ∃ reader, (FactStoreReader.openStore file tableId pipelineHash).result = .ok reader ∧
        StoreAnswers reader facts session.returned
  repeated : ¬(facts.map (·.key)).Nodup →
    (∃ fault, session.writer.finish.1 = .error fault) ∧ session.writer.finish.2 target = files target
  failed : (∃ command ∈ session.sent, ¬command.Succeeds) →
    (∃ fault, session.writer.finish.1 = .error fault) ∧ session.writer.finish.2 target = files target
  overfull : 2 ^ 32 ≤ session.writer.stringPool.bytes.length →
    session.writer.finish.1 = .error .panic ∧ session.writer.finish.2 target = files target

section
variable {files : Files} {target tmp : StorePath} {tableId : UInt32} {pipelineHash : UInt64}
  {prepared : PreparedFactStorePayload} {entries : List PreparedFactStoreEntry} {writer : FactStoreWriter}
variable {other : FactStoreWriter}

abbrev firstState (prepared : PreparedFactStorePayload) (entries : List PreparedFactStoreEntry) : ThreadState :=
  ⟨prepared.bytes,entries,prepared.bytes.length⟩

theorem Fresh.follows (fresh : Fresh files target tmp tableId pipelineHash prepared entries writer) (calls : List Call) :
    Follows writer (firstState prepared entries) (Session.run writer calls) :=
  follows_run fresh.thread fresh.queue fresh.pool calls

variable {session : Session}

section
variable (fresh : Fresh files target tmp tableId pipelineHash prepared entries writer)
include fresh

theorem Fresh.kept_by (apart : tmp ≠ target)
    (continues : Continues writer other) : other.files target = files target :=
  (continues.files target (fresh.tmpIs ▸ apart.symm)).trans fresh.kept

theorem Fresh.kept_removing (apart : tmp ≠ target)
    (continues : Continues writer other) : other.files.remove other.tmpPath target = files target := by
  rw [Files.remove,continues.tmp,fresh.tmpIs,Function.update_of_ne apart.symm,fresh.kept_by apart continues]

theorem Fresh.kept_dropping (apart : tmp ≠ target)
    (continues : Continues writer other) : other.drop target = files target := by
  have drained := (drain_spec other).1
  have removed := fresh.kept_removing apart (continues.trans drained)
  rw [drained.tmp] at removed
  exact removed

-- The ways of `finish` where the thread does not get through all commands.
theorem Fresh.finish_stopped (apart : tmp ≠ target)
    (follows : Follows writer (firstState prepared entries) session) {reason : ThreadEnd}
    (stopped : consume session.sent (firstState prepared entries) = .error reason) :
    (∃ fault, session.writer.finish.1 = .error fault) ∧ session.writer.finish.2 target = files target := by
  have drained := follows.drained.trans stopped
  unfold FactStoreWriter.finish
  cases session.writer.stringPool.offsetsBytes with
  | none => exact ⟨⟨_,rfl⟩,fresh.kept_dropping apart follows.continues⟩
  | some offsets =>
    dsimp only
    cases session.writer.thread with
    | error earlier => exact ⟨⟨_,rfl⟩,fresh.kept_dropping apart follows.continues⟩
    | ok now =>
      rw [drained]
      exact ⟨⟨_,rfl⟩,fresh.kept_by apart (follows.continues.trans (drain_spec session.writer).1)⟩

end

theorem Follows.finish_eq (follows : Follows writer (firstState prepared entries) session) {final : ThreadState}
    {offsets : List UInt8} (ran : consume session.sent (firstState prepared entries) = .ok final)
    (stored : session.writer.stringPool.offsetsBytes = some offsets) : session.writer.finish =
      session.writer.drain.finalizeWriter final ⟨session.writer.stringPool.bytes,offsets,session.writer.stringPool.len⟩ := by
  unfold FactStoreWriter.finish
  rw [stored]
  dsimp only
  cases running : session.writer.thread with
  | error reason =>
    rw [follows.ended running] at ran
    cases ran
  | ok now =>
    dsimp only
    rw [follows.drained.trans ran]

section
variable (fresh : Fresh files target tmp tableId pipelineHash prepared entries writer)
include fresh

theorem Fresh.finish_repeated (apart : tmp ≠ target)
    (follows : Follows writer (firstState prepared entries) session)
    (repeated : ¬((preparedFacts prepared entries ++ session.facts).map (·.key)).Nodup) :
    (∃ fault, session.writer.finish.1 = .error fault) ∧ session.writer.finish.2 target = files target := by
  cases ran : consume session.sent (firstState prepared entries) with
  | error reason => exact fresh.finish_stopped apart follows ran
  | ok final =>
    cases stored : session.writer.stringPool.offsetsBytes with
    | none =>
      unfold FactStoreWriter.finish
      rw [stored]
      exact ⟨⟨_,rfl⟩,fresh.kept_dropping apart follows.continues⟩
    | some offsets =>
      have keys : final.entries.map (·.key) = (preparedFacts prepared entries ++ session.facts).map (·.key) := by
        rw [consume_keys ran,List.map_append,preparedFacts,Session.facts,List.map_map,List.map_map]
        rfl
      rw [follows.finish_eq ran stored,FactStoreWriter.finalizeWriter]
      cases found : duplicateKey (sortByKey final.entries) with
      | none => exact absurd (keys ▸ duplicateKey_eq_none_iff.mp found) repeated
      | some key =>
        exact ⟨⟨_,rfl⟩,fresh.kept_removing apart (follows.continues.trans (drain_spec session.writer).1)⟩

theorem Fresh.finished
    (follows : Follows writer (firstState prepared entries) session) {offsets : List UInt8}
    (succeed : ∀ command ∈ session.sent, command.Succeeds)
    (distinct : ((preparedFacts prepared entries ++ session.facts).map (·.key)).Nodup)
    (stored : session.writer.stringPool.offsetsBytes = some offsets)
    (fits : storeSize prepared session (preparedFacts prepared entries ++ session.facts) < 2 ^ 63) :
    ∃ final texts, consume session.sent (firstState prepared entries) = .ok final ∧
      Finished final (preparedFacts prepared entries ++ session.facts)
        ⟨session.writer.stringPool.bytes,offsets,session.writer.stringPool.len⟩ texts ∧
      ∀ pair ∈ session.returned, texts[pair.2.toNat]? = some pair.1 := by
  have small : session.writer.stringPool.bytes.length < 2 ^ 32 := by
    unfold StringPoolBuilder.offsetsBytes at stored
    split at stored
    · assumption
    · cases stored
  unfold storeSize at fits
  obtain ⟨final,ran,held,length,_⟩ := consume_stored fresh.stored succeed (by dsimp only; omega)
  obtain ⟨texts,pooled,known⟩ := follows.strings
  obtain ⟨table,each⟩ := pooled.sections stored
  have many : texts.length < 2 ^ 32 := length_lt_of_bytes pooled.distinct (pooled.bytes ▸ small)
  have count : session.writer.stringPool.len = texts.length := pooled.length
  refine ⟨final,texts,ran,⟨held,distinct,by rw [count]; exact table,count,each,by rw [count]; exact many,small,?_⟩,known⟩
  rw [length]
  exact fits

theorem Fresh.finish_published (apart : tmp ≠ target)
    (follows : Follows writer (firstState prepared entries) session)
    (succeed : ∀ command ∈ session.sent, command.Succeeds)
    (distinct : ((preparedFacts prepared entries ++ session.facts).map (·.key)).Nodup)
    (small : session.writer.stringPool.bytes.length < 2 ^ 32)
    (fits : storeSize prepared session (preparedFacts prepared entries ++ session.facts) < 2 ^ 63) :
    session.writer.finish.1 = .ok (preparedFacts prepared entries ++ session.facts).length ∧
      ∃ file : StoredFile, session.writer.finish.2 target = some file.bytes ∧
        ∃ reader, (FactStoreReader.openStore file tableId pipelineHash).result = .ok reader ∧
          StoreAnswers reader (preparedFacts prepared entries ++ session.facts) session.returned := by
  have stored : session.writer.stringPool.offsetsBytes = some _ := if_pos small
  obtain ⟨final,texts,ran,finished,known⟩ := fresh.finished follows succeed distinct stored fits
  have none := duplicateKey_eq_none_iff.mpr (finished.stored.keys ▸ finished.distinct)
  have continues := follows.continues.trans (drain_spec session.writer).1
  rw [follows.finish_eq ran stored,FactStoreWriter.finalizeWriter,none]
  dsimp only
  refine ⟨congrArg Except.ok finished.stored.entries_length,finishedFile tableId pipelineHash finished,?_,_,
    ((exact_openStore tableId pipelineHash).returns _).mpr ⟨_,finished.wellFormed,⟨rfl,rfl⟩,rfl⟩,finished.answers known⟩
  rw [continues.tmp,continues.target,continues.tableId,continues.pipelineHash,fresh.tmpIs,fresh.targetIs,fresh.tableIdIs,
    fresh.pipelineHashIs,Files.rename,if_neg apart,Function.update_of_ne apart.symm,Function.update_self,Function.update_self]
  rfl

end

end

theorem finish_overfull (large : 2 ^ 32 ≤ writer.stringPool.bytes.length) :
    writer.finish = (.error .panic,writer.drop) := by
  have overflow : writer.stringPool.offsetsBytes = none := if_neg (not_lt.mpr large)
  unfold FactStoreWriter.finish
  rw [overflow]

-- Every use of a writer, in any order of producers and thread, publishes one store
-- that reads back what was written, or leaves the target file alone.
theorem store_published_or_kept {files : Files} {target : StorePath} {pid counter : Nat} {tableId : UInt32}
    {pipelineHash : UInt64} {prepared : PreparedFactStorePayload} {entries : List PreparedFactStoreEntry}
    {writer : FactStoreWriter} (new : files prepared.path = none)
    (created : FactStoreWriter.createFromPrepared (prepared.staged files) target (uniqueTmpPath target pid counter) tableId
      pipelineHash prepared entries = .ok writer) (calls : List Call) :
    PublishesOrKeeps files target tableId pipelineHash
      (preparedFacts prepared entries ++ (Session.run writer calls).facts)
      (storeSize prepared (Session.run writer calls) (preparedFacts prepared entries ++ (Session.run writer calls).facts))
      (Session.run writer calls) := by
  have apart := uniqueTmpPath_ne target pid counter
  have fresh := createFromPrepared_fresh apart new created
  have follows := fresh.follows calls
  refine ⟨fresh.kept_by apart follows.continues,fresh.kept_dropping apart follows.continues,
    fun succeed distinct small fits => fresh.finish_published apart follows succeed distinct small fits,
    fresh.finish_repeated apart follows,fun failing => ?_,fun large => ?_⟩
  · obtain ⟨command,member,fails⟩ := failing
    obtain ⟨reason,stopped⟩ := consume_error member fails (firstState prepared entries)
    exact fresh.finish_stopped apart follows stopped
  · rw [finish_overfull large]
    exact ⟨rfl,fresh.kept_dropping apart follows.continues⟩

def exampleTarget : StorePath := ⟨[],some "store".toList⟩

def examplePrepared : PreparedFactStorePayload :=
  ⟨uniqueTmpPath exampleTarget 1 0,List.replicate headerSize 0 ++ [5,6],by decide⟩

theorem three_facts_published : ∃ writer,
    FactStoreWriter.createFromPrepared (examplePrepared.staged fun _ => none) exampleTarget (uniqueTmpPath exampleTarget 1 1) 4 9
      examplePrepared [⟨3,30,96,2⟩] = .ok writer ∧
    (Session.run writer [.intern ['a'],.add 2 20 [1,2,3],.receive,
      .addStreamed 1 10 (.write [7] fun _ => .done)]).writer.finish.1 = .ok 3 := by
  refine ⟨_,rfl,?_⟩
  have created : FactStoreWriter.createFromPrepared (examplePrepared.staged fun _ => none) exampleTarget
      (uniqueTmpPath exampleTarget 1 1) 4 9 examplePrepared [⟨3,30,96,2⟩] = .ok _ := rfl
  have kept := store_published_or_kept rfl created [.intern ['a'],.add 2 20 [1,2,3],.receive,
    .addStreamed 1 10 (.write [7] fun _ => .done)]
  have published := (kept.published (fun command member => ?_) (by decide) (by decide) (by decide)).1
  · exact published
  · rcases List.mem_cons.mp member with rfl | later
    · exact (by decide : [(1 : UInt8),2,3].length < 2 ^ 32)
    · cases List.mem_singleton.mp later
      rfl

-- A string of 4 GiB is interned, and then there is no `u32` for the end of the pool.
theorem utf8Bytes_replicate (count : Nat) : (utf8Bytes (List.replicate count 'a')).length = count := by
  induction count with
  | zero => rfl
  | succ count ih =>
    rw [List.replicate_succ]
    change (String.utf8EncodeChar 'a' ++ utf8Bytes (List.replicate count 'a')).length = count + 1
    rw [List.length_append,ih,Nat.add_comm]
    rfl

theorem intern_first (empty : writer.stringPool = .new) (text : Text) :
    (Session.run writer [.intern text]).writer.stringPool.bytes = utf8Bytes text ∧
      (Session.run writer [.intern text]).sent = [] := by
  have interned : writer.intern text = some (0,{writer with
      stringPool := ⟨utf8Bytes text,[0],[(text,0)]⟩}) := by
    unfold FactStoreWriter.intern
    rw [empty]
    rfl
  change ((⟨writer,[],[]⟩ : Session).step (.intern text)).writer.stringPool.bytes = _ ∧
    ((⟨writer,[],[]⟩ : Session).step (.intern text)).sent = _
  unfold Session.step
  dsimp only
  rw [interned]
  exact ⟨rfl,rfl⟩

theorem long_string_defeats_finish : ∃ writer,
    FactStoreWriter.createFromPrepared (examplePrepared.staged fun _ => none) exampleTarget (uniqueTmpPath exampleTarget 1 1) 4 9
      examplePrepared [] = .ok writer ∧
    (Session.run writer [.intern (List.replicate (2 ^ 32) 'a')]).sent = [] ∧
    ¬∃ count, (Session.run writer [.intern (List.replicate (2 ^ 32) 'a')]).writer.finish.1 = .ok count := by
  refine ⟨_,rfl,(intern_first rfl _).2,fun finished => ?_⟩
  obtain ⟨count,finished⟩ := finished
  rw [finish_overfull (by rw [(intern_first rfl _).1,utf8Bytes_replicate])] at finished
  cases finished

end BonsaiNinja.FactStore
