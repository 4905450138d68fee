import BonsaiNinja.FactStore.Reader

namespace BonsaiNinja.FactStore

open BonsaiNinja.Library BonsaiNinja.Library.Access

variable {allowed : Nat → Nat → Prop} {file : StoredFile} {header : Header} {index : List UInt8}

def poolSection (file : StoredFile) (header : Header) : List UInt8 :=
  slice file.bytes header.stringPoolOffset.toNat (header.stringPoolOffset.toNat + header.stringPoolBytesLen.toNat)

def offsetSection (file : StoredFile) (header : Header) : List UInt8 :=
  slice file.bytes (header.stringPoolOffset.toNat + header.stringPoolBytesLen.toNat)
    (header.stringPoolOffset.toNat + header.stringPoolBytesLen.toNat + (header.stringCount.toNat + 1) * 4)

def indexSection (file : StoredFile) (header : Header) : List UInt8 :=
  slice file.bytes header.indexOffset.toNat (header.indexOffset.toNat + header.indexCount.toNat * indexEntrySize)

def entryAt (index : List UInt8) (i : Nat) : IndexEntry :=
  IndexEntry.fields (slice index (i * indexEntrySize) ((i + 1) * indexEntrySize))

def entryEnd (entry : IndexEntry) : Nat := entry.payloadOffset.toNat + entry.payloadLen.toNat

structure SectionsInside (header : Header) (fileLen : Nat) : Prop where
  strings : header.stringPoolOffset.toNat + header.stringPoolBytesLen.toNat + (header.stringCount.toNat + 1) * 4 ≤ fileLen
  index : header.indexOffset.toNat + header.indexCount.toNat * indexEntrySize ≤ fileLen
  payload : header.payloadOffset.toNat + header.payloadLen.toNat ≤ fileLen

structure IndexTable (header : Header) (index : List UInt8) : Prop where
  ascending : ∀ i, i + 1 < header.indexCount.toNat → (entryAt index i).key < (entryAt index (i + 1)).key
  contained : ∀ i < header.indexCount.toNat, header.payloadOffset.toNat ≤ (entryAt index i).payloadOffset.toNat ∧
    entryEnd (entryAt index i) ≤ header.payloadOffset.toNat + header.payloadLen.toNat

structure WellFormed (file : StoredFile) (header : Header) : Prop where
  long : headerSize ≤ file.bytes.length
  decoded : Header.fromBytes (slice file.bytes 0 headerSize) = some header
  version : header.formatVersion = formatVersion
  sections : SectionsInside header file.bytes.length
  stringCount : header.stringCount.toNat < 2 ^ 32
  stringBytesLen : header.stringPoolBytesLen.toNat < 2 ^ 32
  strings : OffsetTable (poolSection file header) (offsetSection file header) header.stringCount.toNat
  rows : IndexTable header (indexSection file header)

def readerOf (file : StoredFile) (header : Header) : FactStoreReader :=
  ⟨file,header,indexSection file header,poolSection file header,offsetSection file header⟩

theorem exact_checkSection {fileLen : Nat} (bounds : Nat × Nat) (small : fileLen < 2 ^ 63) :
    Exact (checkSection fileLen bounds) allowed fun _ => bounds.1 + bounds.2 ≤ fileLen := by
  refine ((exact_orFail _ _).bind fun stop _ => Exact.unless _ fun _ => exact_pure ()).congr fun _ => ?_
  rw [checkedAdd]
  constructor
  · intro found
    obtain ⟨stop,sum,below,_⟩ := found
    split at sum
    · cases sum
      omega
    · cases sum
  · intro below
    exact ⟨_,if_pos (by omega),by omega,rfl⟩

theorem exact_validateSectionBounds {fileLen : Nat} (small : fileLen < 2 ^ 63) :
    Exact (validateSectionBounds header fileLen) allowed fun _ => SectionsInside header fileLen := by
  refine (exact_forEach fun bounds _ => exact_checkSection bounds small).congr fun _ => ?_
  have limited : fileLen < 2 ^ 64 - 1 := lt_of_lt_of_le small (by decide)
  simp only [sectionBounds,List.forall_mem_cons,List.not_mem_nil,false_imp_iff,implies_true,and_true,saturatingAdd,
    saturatingMul,saturated_add_le_iff limited,add_saturated_mul_le_iff limited (by decide : 0 < 4),
    add_saturated_le_iff limited]
  constructor
  · intro inside
    exact ⟨inside.2.1,inside.2.2.1,inside.2.2.2⟩
  · intro inside
    exact ⟨le_trans (Nat.le_add_right _ _) inside.strings,inside.strings,inside.index,inside.payload⟩

theorem exact_toU32 {value : UInt64} (reason : FactStoreError) :
    Exact (orFail reason (toU32 value)) allowed fun word => value.toNat < 2 ^ 32 ∧ word = value.toUInt32 := by
  refine (exact_orFail _ _).congr fun word => ?_
  rw [toU32]
  split
  · rename_i small
    rw [Option.some.injEq]
    exact ⟨fun same => ⟨small,same.symm⟩,fun found => found.2.symm⟩
  · rename_i large
    exact ⟨nofun,fun found => absurd found.1 large⟩

theorem toUInt32_toNat {value : UInt64} (small : value.toNat < 2 ^ 32) : value.toUInt32.toNat = value.toNat := by
  rw [UInt64.toNat_toUInt32,Nat.mod_eq_of_lt small]

theorem exact_readExactAt {offset count : Nat} (inside : offset + count ≤ file.bytes.length) :
    Exact (readExactAt file offset count) (fun offset count => offset + count ≤ file.bytes.length)
      (· = slice file.bytes offset (offset + count)) :=
  exact_readExact _ inside inside

theorem exact_loadStringPool (sections : SectionsInside header file.bytes.length) :
    Exact (loadStringPool file header) (fun offset count => offset + count ≤ file.bytes.length) fun pool =>
      header.stringCount.toNat < 2 ^ 32 ∧ header.stringPoolBytesLen.toNat < 2 ^ 32 ∧
        OffsetTable (poolSection file header) (offsetSection file header) header.stringCount.toNat ∧
        pool = (poolSection file header,offsetSection file header) := by
  have sized := file.sized
  have strings := sections.strings
  refine .given (exact_toU32 _) fun manyStrings => .given (exact_toU32 _) fun small => ?_
  refine .step (exact_allocate (by rw [toUInt32_toNat small]; omega)) (.step (exact_readExactAt (by
    rw [toUInt32_toNat small]; omega)) (.step exact_offsetsLen (.step (exact_allocate (by
    rw [toUInt32_toNat manyStrings]; omega)) (.step (exact_add (by omega)) (.step (exact_readExactAt (by
    rw [toUInt32_toNat manyStrings]; omega)) ?_)))))
  have checked := exact_new (poolSection file header) (offsetSection file header) header.stringCount.toUInt32
    fun offset count => offset + count ≤ file.bytes.length
  rw [toUInt32_toNat manyStrings] at checked
  rw [toUInt32_toNat small,toUInt32_toNat manyStrings]
  exact checked.given fun _ => exact_pure _

theorem exact_loadIndex (sections : SectionsInside header file.bytes.length) :
    Exact (loadIndex file header) (fun offset count => offset + count ≤ file.bytes.length) (· = indexSection file header) := by
  have sized := file.sized
  have rows := sections.index
  exact .step (exact_mul (by omega)) (.step (exact_allocate (by omega)) (exact_readExactAt rows))

theorem exact_rowAt {row : Nat} (inside : (row + 1) * indexEntrySize ≤ index.length) (sized : index.length < 2 ^ 63) :
    Exact (rowAt index row) allowed (· = entryAt index row) := by
  have bound : (row + 1) * 32 ≤ index.length := inside
  have width : (slice index (row * indexEntrySize) ((row + 1) * indexEntrySize)).length = indexEntrySize := by
    rw [slice_length inside,← Nat.sub_mul,Nat.add_sub_cancel_left,Nat.one_mul]
  refine .step (exact_mul (by unfold indexEntrySize; omega)) (.step (exact_add (by omega)) (.step (exact_mul (by
    unfold indexEntrySize; omega)) (.step (exact_subslice (by unfold indexEntrySize; omega) inside) ?_)))
  rw [IndexEntry.fromBytes,if_neg (by rw [width]; exact Nat.lt_irrefl _)]
  exact exact_pure _

def keyBefore (index : List UInt8) : Nat → UInt64
  | 0 => 0
  | i + 1 => (entryAt index i).key

theorem exact_checkRow {sectionEnd i : Nat} (inside : (i + 1) * indexEntrySize ≤ index.length)
    (sized : index.length < 2 ^ 63) (bounded : sectionEnd < 2 ^ 63) :
    Exact (checkRow header index sectionEnd (keyBefore index i) i) allowed fun next =>
      ((0 < i → keyBefore index i < (entryAt index i).key) ∧
        header.payloadOffset.toNat ≤ (entryAt index i).payloadOffset.toNat ∧ entryEnd (entryAt index i) ≤ sectionEnd) ∧
      next = keyBefore index (i + 1) := by
  refine .step (exact_rowAt inside sized) ?_
  refine (Exact.unless _ fun _ => .unless _ fun _ => (exact_orFail _ _).bind fun stop _ =>
    .unless _ fun _ => exact_pure _).congr fun next => ?_
  have sum : ∀ stop, checkedAdd (entryAt index i).payloadOffset.toNat (entryAt index i).payloadLen.toNat = some stop →
      stop = entryEnd (entryAt index i) := by
    intro stop added
    rw [checkedAdd] at added
    split at added
    · exact (Option.some.inj added).symm
    · cases added
  constructor
  · intro found
    obtain ⟨sorted,differs,stop,added,bounds,same⟩ := found
    cases sum stop added
    refine ⟨⟨fun positive => ?_,?_,by omega⟩,same⟩
    · exact UInt64.lt_of_le_of_ne (UInt64.not_lt.mp fun lower => sorted ⟨positive,lower⟩)
        fun equal => differs ⟨positive,equal.symm⟩
    · exact UInt64.le_iff_toNat_le.mp (UInt64.not_lt.mp fun lower => bounds (.inl lower))
  · intro found
    obtain ⟨⟨above,starts,stops⟩,same⟩ := found
    refine ⟨fun late => ?_,fun late => ?_,_,if_pos (lt_of_le_of_lt stops (by omega)),fun out => ?_,same⟩
    · exact UInt64.lt_asymm (above late.1) late.2
    · exact UInt64.ne_of_lt (above late.1) late.2.symm
    · rcases out with early | late
      · exact absurd (UInt64.lt_iff_toNat_lt.mp early) (by omega)
      · exact absurd stops (not_le.mpr late)

theorem exact_validateIndex (sections : SectionsInside header file.bytes.length) :
    Exact (validateIndexSortedAndBounded header (indexSection file header)) allowed fun _ =>
      IndexTable header (indexSection file header) := by
  have sized := file.sized
  have rows := sections.index
  have payload := sections.payload
  have length : (indexSection file header).length = header.indexCount.toNat * indexEntrySize := by
    rw [indexSection,slice_length rows]
    omega
  unfold validateIndexSortedAndBounded
  by_cases empty : header.indexCount.toNat = 0
  · rw [if_pos empty]
    refine (exact_pure ()).congr fun _ => ⟨fun _ => ⟨fun i below => ?_,fun i below => ?_⟩,fun _ => rfl⟩
    · omega
    · omega
  · rw [if_neg empty,checkedAdd,if_pos (by omega)]
    refine .step (exact_pure _) ?_
    refine ((exact_forRange (keyBefore (indexSection file header)) fun i below => exact_checkRow (by
      rw [length]; exact Nat.mul_le_mul_right _ below) (by omega) (by omega)).bind fun _ _ => exact_pure ()).congr fun _ => ?_
    constructor
    · intro found
      obtain ⟨last,⟨checked,_⟩,_⟩ := found
      exact ⟨fun i below => (checked (i + 1) below).1 (Nat.succ_pos i),fun i below => (checked i below).2⟩
    · intro table
      refine ⟨_,⟨fun i below => ⟨fun positive => ?_,table.contained i below⟩,rfl⟩,rfl⟩
      cases i with
      | zero => exact absurd positive (Nat.lt_irrefl 0)
      | succ i => exact table.ascending i below

theorem exact_openChecked {caller : Header → Access FactStoreError Unit} {known : Header → Prop}
    (checked : ∀ header, Exact (caller header) (fun offset count => offset + count ≤ file.bytes.length) fun _ => known header) :
    Exact (FactStoreReader.openChecked file caller) (fun offset count => offset + count ≤ file.bytes.length) fun reader =>
      ∃ header, WellFormed file header ∧ known header ∧ reader = readerOf file header := by
  have sized := file.sized
  refine (Exact.unless _ fun long => .step (exact_readExactAt (by omega)) ((exact_orFail _ _).bind fun header _ =>
    .unless _ fun _ => (checked header).bind fun _ _ => (exact_validateSectionBounds sized).bind fun _ sections =>
    (exact_loadStringPool sections).bind fun pool loaded => .step (exact_loadIndex sections)
    ((exact_validateIndex sections).bind fun _ _ => exact_pure _))).congr fun reader => ?_
  constructor
  · intro found
    obtain ⟨long,header,decoded,version,_,accepted,_,sections,pool,⟨manyStrings,small,strings,rfl⟩,_,rows,same⟩ := found
    rw [Nat.zero_add] at decoded
    exact ⟨header,⟨by omega,decoded,not_not.mp version,sections,manyStrings,small,strings,rows⟩,accepted,same⟩
  · intro found
    obtain ⟨header,good,accepted,same⟩ := found
    rw [Nat.zero_add]
    exact ⟨not_lt.mpr good.long,header,good.decoded,not_not.mpr good.version,(),accepted,(),good.sections,_,
      ⟨good.stringCount,good.stringBytesLen,good.strings,rfl⟩,(),good.rows,same⟩

theorem exact_openRelaxed : Exact (FactStoreReader.openRelaxed file) (fun offset count => offset + count ≤ file.bytes.length)
    fun reader => ∃ header, WellFormed file header ∧ reader = readerOf file header := by
  have anyone : ∀ header : Header, Exact (pure () : Access FactStoreError Unit)
      (fun offset count => offset + count ≤ file.bytes.length) fun _ => (fun _ => True) header :=
    fun _ => (exact_pure ()).congr fun _ => ⟨fun _ => trivial,fun _ => rfl⟩
  exact (exact_openChecked anyone).congr fun _ => exists_congr fun _ => and_congr_right fun _ => iff_of_eq (true_and _)

theorem exact_openStore (tableId : UInt32) (pipelineHash : UInt64) :
    Exact (FactStoreReader.openStore file tableId pipelineHash) (fun offset count => offset + count ≤ file.bytes.length)
      fun reader => ∃ header, WellFormed file header ∧ (header.tableId = tableId ∧ header.pipelineHash = pipelineHash) ∧
        reader = readerOf file header := by
  refine exact_openChecked fun header => ?_
  refine (Exact.unless _ fun _ => .unless _ fun _ => exact_pure ()).congr fun _ => ?_
  rw [not_not,not_not]
  exact and_congr_right fun _ => and_iff_left rfl

end BonsaiNinja.FactStore
