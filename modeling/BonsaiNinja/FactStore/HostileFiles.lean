import BonsaiNinja.FactStore.Lookups

namespace BonsaiNinja.FactStore
variable {key : UInt64}

open BonsaiNinja.Library BonsaiNinja.Library.Access

variable {file : StoredFile} {header : Header}

def HasKey (reader : FactStoreReader) (key : UInt64) : Prop :=
  ∃ i < reader.len, (entryAt reader.indexBytes i).key = key

def Permitted (reader : FactStoreReader) (key : UInt64) (offset count : Nat) : Prop :=
  ∃ i < reader.len, (entryAt reader.indexBytes i).key = key ∧ InEntry (entryAt reader.indexBytes i) offset count ∧
    reader.header.payloadOffset.toNat ≤ offset ∧
    offset + count ≤ reader.header.payloadOffset.toNat + reader.header.payloadLen.toNat

def Holds (reader : FactStoreReader) (key : UInt64) (relativeOffset length : Nat) : Prop :=
  ∃ i < reader.len, (entryAt reader.indexBytes i).key = key ∧
    relativeOffset + length ≤ (entryAt reader.indexBytes i).payloadLen.toNat

-- A lookup that does not panic, reads nothing but bytes of its key's entry, and
-- says that the key is absent exactly when no row has it.
structure Answers (reader : FactStoreReader) (key : UInt64) (access : Access FactStoreError (Option α)) : Prop where
  quiet : access.result ≠ .error .panic
  inside : ∀ range ∈ access.reads, Permitted reader key range.1 range.2
  absent : access.result = .ok none ↔ ¬HasKey reader key

structure LookupsAgree (reader : FactStoreReader) (key : UInt64) : Prop where
  contains : ∃ found, (reader.containsKey key).result = .ok found ∧ (found = true ↔ HasKey reader key)
  metadata : Answers reader key (reader.entryMetadata key) ∧ ∃ found, (reader.entryMetadata key).result = .ok found
  hit : Answers reader key (reader.get key) ∧ ∃ found, (reader.get key).result = .ok found
  whole : Answers reader key (reader.payloadReader key) ∧ ∃ found, (reader.payloadReader key).result = .ok found
  part : ∀ relativeOffset length, Answers reader key (reader.payloadRangeReader key relativeOffset length) ∧
    ((∃ opened, (reader.payloadRangeReader key relativeOffset length).result = .ok (some opened)) ↔
      Holds reader key relativeOffset.toNat length.toNat)
  filled : ∀ relativeOffset length, Answers reader key (reader.readPayloadRange key relativeOffset length) ∧
    ((∃ bytes, (reader.readPayloadRange key relativeOffset length).result = .ok (some bytes)) ↔
      Holds reader key relativeOffset.toNat length)
  portions : ∀ opened, ((reader.payloadReader key).result = .ok (some opened) ∨
      ∃ relativeOffset length, (reader.payloadRangeReader key relativeOffset length).result = .ok (some opened)) →
    ∀ sizes, (∃ bytes, (opened.readSizes sizes).result = .ok bytes) ∧
      ∀ range ∈ (opened.readSizes sizes).reads, Permitted reader key range.1 range.2

structure IterationAgrees (reader : FactStoreReader) : Prop where
  items : ∃ items, reader.iter.result = .ok items ∧ (∀ item ∈ items, ∃ pair, item = .ok pair) ∧
    ∀ key, (∃ hit, .ok (key,hit) ∈ items) ↔ HasKey reader key
  inside : ∀ range ∈ reader.iter.reads, ∃ key, Permitted reader key range.1 range.2

def StringsPresent (reader : FactStoreReader) : Prop :=
  ∀ id, ∃ text, (reader.stringPool.get id).result = .ok text ∧
    (text.isSome ↔ id.toNat < reader.header.stringCount.toNat)

structure ReaderContract (reader : FactStoreReader) : Prop where
  lookups : ∀ key, LookupsAgree reader key
  iteration : IterationAgrees reader
  strings : StringsPresent reader

structure FileContract (file : StoredFile) : Prop where
  openStore : ∀ tableId pipelineHash, (FactStoreReader.openStore file tableId pipelineHash).result ≠ .error .panic
  openRelaxed : (FactStoreReader.openRelaxed file).result ≠ .error .panic
  readers : ∀ reader, ((FactStoreReader.openRelaxed file).result = .ok reader ∨
    ∃ tableId pipelineHash, (FactStoreReader.openStore file tableId pipelineHash).result = .ok reader) → ReaderContract reader

theorem hasKey_iff : HasKey (readerOf file header) key ↔ entryOf file header key ≠ none := by
  rw [ne_eq,entryOf_eq_none_iff]
  constructor
  · intro found absent
    obtain ⟨i,below,same⟩ := found
    exact absent i below same
  · intro present
    by_contra none
    exact present fun i below same => none ⟨i,below,same⟩

section
variable (good : WellFormed file header)
include good

theorem permitted_of_key {offset count : Nat}
    (ofKey : OfKey file header key offset count) : Permitted (readerOf file header) key offset count := by
  obtain ⟨entry,found,inside⟩ := ofKey
  obtain ⟨i,below,rfl,same⟩ := entryOf_eq_some good found
  have contained := good.rows.contained i below
  exact ⟨i,below,same,inside,le_trans contained.1 inside.1,le_trans inside.2 contained.2⟩

theorem holds_iff {relativeOffset length : Nat} :
    Holds (readerOf file header) key relativeOffset length ↔ ∃ entry, entryOf file header key = some entry ∧
      relativeOffset + length ≤ entry.payloadLen.toNat := by
  constructor
  · intro held
    obtain ⟨i,below,same,fits⟩ := held
    have row := (rowOf_eq_some_iff good.rows.ascending).mpr ⟨below,same⟩
    exact ⟨_,by rw [entryOf,row]; rfl,fits⟩
  · intro found
    obtain ⟨entry,found,fits⟩ := found
    obtain ⟨i,below,rfl,same⟩ := entryOf_eq_some good found
    exact ⟨i,below,same,fits⟩

theorem answers_of_exact {access : Access FactStoreError (Option α)}
    {value : IndexEntry → α} (exactly : Exact access (OfKey file header key) (· = (entryOf file header key).map value)) :
    Answers (readerOf file header) key access ∧ ∃ found, access.result = .ok found := by
  refine ⟨⟨exactly.quiet,fun range member => permitted_of_key good (exactly.inside range member),?_⟩,
    _,(exactly.returns _).mpr rfl⟩
  rw [exactly.returns,hasKey_iff,not_not,eq_comm,Option.map_eq_none_iff]

theorem answers_of_range {access : Access FactStoreError (Option α)}
    {relativeOffset length : Nat} {value : IndexEntry → α}
    (exactly : Exact access (OfKey file header key) fun result =>
      (entryOf file header key = none ∧ result = none) ∨ ∃ entry found, entryOf file header key = some entry ∧
        (relativeOffset + length ≤ entry.payloadLen.toNat ∧ found = value entry) ∧ result = some found) :
    Answers (readerOf file header) key access ∧ ((∃ found, access.result = .ok (some found)) ↔
      Holds (readerOf file header) key relativeOffset length) := by
  refine ⟨⟨exactly.quiet,fun range member => permitted_of_key good (exactly.inside range member),?_⟩,?_⟩
  · rw [exactly.returns,hasKey_iff,not_not]
    constructor
    · intro either
      rcases either with absent | present
      · exact absent.1
      · obtain ⟨_,_,_,_,impossible⟩ := present
        cases impossible
    · intro absent
      exact .inl ⟨absent,rfl⟩
  · rw [holds_iff good]
    constructor
    · intro succeeded
      obtain ⟨found,ran⟩ := succeeded
      rcases (exactly.returns _).mp ran with absent | present
      · cases absent.2
      · obtain ⟨entry,_,present,fits,_⟩ := present
        exact ⟨entry,present,fits.1⟩
    · intro held
      obtain ⟨entry,present,fits⟩ := held
      exact ⟨value entry,(exactly.returns _).mpr (.inr ⟨entry,_,present,⟨fits,rfl⟩,rfl⟩)⟩

theorem portions_inside {entry : IndexEntry} {opened : PayloadReader}
    (found : entryOf file header key = some entry) (same : opened.file = file)
    (starts : entry.payloadOffset.toNat ≤ opened.offset) (stops : opened.offset + opened.remaining ≤ entryEnd entry)
    (sizes : List Nat) : (∃ bytes, (opened.readSizes sizes).result = .ok bytes) ∧
      ∀ range ∈ (opened.readSizes sizes).reads, Permitted (readerOf file header) key range.1 range.2 := by
  have stored : entryEnd entry ≤ file.bytes.length := by
    obtain ⟨i,below,rfl,_⟩ := entryOf_eq_some good found
    exact good.entry_inside below
  have bounds : opened.offset + opened.remaining ≤ opened.file.bytes.length := by
    rw [same]
    omega
  have exactly := exact_readSizes sizes (OfKey file header key) bounds fun offset count lower upper =>
    ⟨entry,found,by omega,by omega⟩
  exact ⟨⟨_,(exactly.returns _).mpr rfl⟩,fun range member => permitted_of_key good (exactly.inside range member)⟩

theorem lookups_agree (key : UInt64) : LookupsAgree (readerOf file header) key where
  contains := by
    refine ⟨_,((exact_containsKey good key (OfKey file header key)).returns _).mpr rfl,?_⟩
    rw [hasKey_iff,Option.isSome_iff_ne_none]
  metadata := answers_of_exact good (exact_entryMetadata good key)
  hit := answers_of_exact good (exact_get_entry good key)
  whole := answers_of_exact good (exact_payloadReader good key _)
  part relativeOffset length := answers_of_range good (exact_payloadRangeReader good key relativeOffset length _)
  filled relativeOffset length := answers_of_range good (exact_readPayloadRange good key relativeOffset length)
  portions opened origin sizes := by
    rcases origin with whole | part
    · have read := ((exact_payloadReader good key (OfKey file header key)).returns _).mp whole
      obtain ⟨entry,found,rfl⟩ := Option.map_eq_some_iff.mp read.symm
      exact portions_inside good found rfl (Nat.le_refl _) (Nat.le_refl _) sizes
    · obtain ⟨relativeOffset,length,ran⟩ := part
      rcases ((exact_payloadRangeReader good key relativeOffset length (OfKey file header key)).returns _).mp ran with
        absent | present
      · cases absent.2
      · obtain ⟨entry,_,found,⟨fits,rfl⟩,same⟩ := present
        cases same
        refine portions_inside good found rfl (Nat.le_add_right _ _) ?_ sizes
        unfold entryEnd rangeReader
        dsimp only
        omega

theorem iteration_agrees : IterationAgrees (readerOf file header) := by
  have exactly := exact_iter good (fun offset count => ∃ key, Permitted (readerOf file header) key offset count)
    fun i below offset count inside => ⟨_,i,below,rfl,inside,le_trans (good.rows.contained i below).1 inside.1,
      le_trans inside.2 (good.rows.contained i below).2⟩
  refine ⟨⟨_,(exactly.returns _).mpr rfl,fun item member => ?_,fun key => ?_⟩,exactly.inside⟩
  · obtain ⟨i,_,rfl⟩ := List.mem_map.mp member
    exact ⟨_,rfl⟩
  · constructor
    · intro listed
      obtain ⟨hit,member⟩ := listed
      obtain ⟨i,below,same⟩ := List.mem_map.mp member
      cases same
      exact ⟨i,List.mem_range.mp below,rfl⟩
    · intro present
      obtain ⟨i,below,rfl⟩ := present
      exact ⟨_,List.mem_map.mpr ⟨i,List.mem_range.mpr below,rfl⟩⟩

def StringsAreUtf8 (file : StoredFile) (header : Header) : Prop :=
  ∀ i < header.stringCount.toNat, IsUtf8 (stringBytes (poolSection file header) (offsetSection file header) i)

theorem strings_present_iff :
    StringsPresent (readerOf file header) ↔ StringsAreUtf8 file header := by
  constructor
  · intro present i below
    have small := good.stringCount
    have word : (UInt32.ofNat i).toNat = i := UInt32.toNat_ofNat_of_lt (lt_trans below small)
    obtain ⟨text,read,known⟩ := present (UInt32.ofNat i)
    have value := ((exact_string good (fun _ _ => True) (UInt32.ofNat i)).returns _).mp read
    rw [word,if_pos below] at value
    rw [word] at known
    exact fromUtf8_isSome_iff.mp (value ▸ known.mpr below)
  · intro texts id
    refine ⟨_,((exact_string good (fun _ _ => True) id).returns _).mpr rfl,?_⟩
    by_cases below : id.toNat < header.stringCount.toNat
    · rw [if_pos below,fromUtf8_isSome_iff]
      exact ⟨fun _ => below,fun _ => texts _ below⟩
    · rw [if_neg below]
      exact ⟨nofun,fun inside => absurd inside below⟩

theorem contract_iff :
    ReaderContract (readerOf file header) ↔ StringsAreUtf8 file header := by
  rw [← strings_present_iff good]
  exact ⟨ReaderContract.strings,fun present => ⟨lookups_agree good,iteration_agrees good,present⟩⟩

end

theorem opens_wellFormed {reader : FactStoreReader} (opened : (FactStoreReader.openRelaxed file).result = .ok reader ∨
    ∃ tableId pipelineHash, (FactStoreReader.openStore file tableId pipelineHash).result = .ok reader) :
    ∃ header, WellFormed file header ∧ reader = readerOf file header := by
  rcases opened with relaxed | store
  · exact (exact_openRelaxed.returns reader).mp relaxed
  · obtain ⟨tableId,pipelineHash,ran⟩ := store
    obtain ⟨header,good,_,same⟩ := ((exact_openStore tableId pipelineHash).returns reader).mp ran
    exact ⟨header,good,same⟩

-- Every file is opened or refused without a panic, and its reader keeps to the
-- contract but for strings that are not UTF-8.
theorem hostile_files_read_safely (file : StoredFile) :
    FileContract file ↔ ∀ header, WellFormed file header → StringsAreUtf8 file header := by
  constructor
  · intro contract header good
    exact (contract_iff good).mp (contract.readers _ (.inl ((exact_openRelaxed.returns _).mpr ⟨header,good,rfl⟩)))
  · intro texts
    refine ⟨fun tableId pipelineHash => (exact_openStore tableId pipelineHash).quiet,exact_openRelaxed.quiet,
      fun reader opened => ?_⟩
    obtain ⟨header,good,rfl⟩ := opens_wellFormed opened
    exact (contract_iff good).mpr (texts header good)

def looseByteHeader : Header where
  magic := magicBytes
  formatVersion := formatVersion
  tableId := 0
  pipelineHash := 0
  stringPoolOffset := 96
  stringPoolBytesLen := 1
  stringCount := 1
  indexOffset := 105
  indexCount := 0
  payloadOffset := 96
  payloadLen := 0
  reserved := [0,0,0,0,0,0,0,0]

def looseByteFile : StoredFile := ⟨looseByteHeader.toBytes ++ [255,0,0,0,0,1,0,0,0],by decide⟩

theorem looseByteFile_wellFormed : WellFormed looseByteFile looseByteHeader where
  long := by decide
  decoded := by decide
  version := rfl
  sections := ⟨by decide,by decide,by decide⟩
  stringCount := by decide
  stringBytesLen := by decide
  strings := ⟨by decide,by decide,by decide,by decide⟩
  rows := ⟨fun i below => absurd below (Nat.not_lt_zero _),fun i below => absurd below (Nat.not_lt_zero _)⟩

theorem not_isUtf8_high_byte : ¬IsUtf8 [255] := by
  rw [← fromUtf8_isSome_iff]
  decide

theorem loose_byte_breaks_contract : ¬FileContract looseByteFile := by
  intro contract
  have reader := contract.readers _ (.inl ((exact_openRelaxed.returns _).mpr ⟨_,looseByteFile_wellFormed,rfl⟩))
  exact not_isUtf8_high_byte ((contract_iff looseByteFile_wellFormed).mp reader 0 (by decide))

end BonsaiNinja.FactStore
