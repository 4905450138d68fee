import BonsaiNinja.FactStore.StringPoolBuilder
import BonsaiNinja.Library.Interning

namespace BonsaiNinja.FactStore

open BonsaiNinja.Library BonsaiNinja.Library.Access
open Idg (Text)
open Hash (utf8Bytes utf8Bytes_injective)

-- The builder with the flag that tells whether `byStr` covers the whole pool.
structure ReleasablePool extends StringPoolBuilder where
  lookupComplete : Bool
  deriving DecidableEq

namespace ReleasablePool

def new : ReleasablePool := ⟨.new,true⟩

-- Where a string ends; none stands for a bytes section too long for the word.
def stopOf (pool : ReleasablePool) (i : Nat) : Option Nat :=
  match pool.offsets[i + 1]? with
  | some offset => some offset.toNat
  | none => if pool.bytes.length < 2 ^ 32 then some pool.bytes.length else none

def get (pool : ReleasablePool) (id : UInt32) : Option (Option Text) :=
  match pool.offsets[id.toNat]? with
  | none => some none
  | some start => (pool.stopOf id.toNat).map fun stop => (getRange pool.bytes start.toNat stop).bind fromUtf8

def find (pool : ReleasablePool) (s : Text) : List Nat → Option (Option UInt32)
  | [] => some none
  | index :: rest =>
    match pool.get (UInt32.ofNat index) with
    | none => none
    | some found => if found = some s then some (some (UInt32.ofNat index)) else pool.find s rest

def scan (pool : ReleasablePool) (s : Text) : Option (Option UInt32) :=
  if pool.lookupComplete then some none else pool.find s (List.range pool.offsets.length)

def lookup (pool : ReleasablePool) (name : Text) : Option (Option UInt32) :=
  match pool.byStr.lookup name with
  | some id => some (some id)
  | none => pool.scan name

def intern (pool : ReleasablePool) (s : Text) : Option (UInt32 × ReleasablePool) :=
  match pool.byStr.lookup s with
  | some id => some (id,pool)
  | none =>
    match pool.scan s with
    | none => none
    | some (some id) => some (id,pool)
    | some none =>
      if pool.offsets.length < 2 ^ 32 ∧ pool.bytes.length < 2 ^ 32 then
        some (UInt32.ofNat pool.offsets.length,{ pool with
          bytes := pool.bytes ++ utf8Bytes s
          offsets := pool.offsets ++ [UInt32.ofNat pool.bytes.length]
          byStr := (s,UInt32.ofNat pool.offsets.length) :: pool.byStr })
      else none

def releaseLookup (pool : ReleasablePool) : ReleasablePool := { pool with byStr := [], lookupComplete := false }

def rebuildStep (pool : ReleasablePool) (byStr : List (Text × UInt32)) (i : Nat) : Option (List (Text × UInt32)) :=
  match pool.get (UInt32.ofNat i) with
  | none => none
  | some none => some byStr
  | some (some s) => some ((s,UInt32.ofNat i) :: byStr)

def rebuildLookup (pool : ReleasablePool) : Option ReleasablePool :=
  ((List.range pool.offsets.length).foldlM pool.rebuildStep []).map fun byStr =>
    { pool with byStr := byStr, lookupComplete := true }

def serialize (pool : ReleasablePool) : List UInt8 × List UInt32 := (pool.bytes,pool.offsets)

def deserialize (stored : List UInt8 × List UInt32) : ReleasablePool := ⟨⟨stored.1,stored.2,[]⟩,false⟩

def interning : Interning Text ReleasablePool where
  new := new
  intern := intern
  lookup := lookup
  get := get
  releaseLookup := releaseLookup
  rebuildLookup := rebuildLookup
  reload pool := deserialize pool.serialize

end ReleasablePool

-- Fewer than 4 GiB of text.
def FitsBytes (texts : List Text) : Prop := (textBytes texts).length < 2 ^ 32

structure ReleasablePool.Holds (pool : ReleasablePool) (texts : List Text) : Prop where
  bytes : pool.bytes = textBytes texts
  offsets : pool.offsets = (List.range texts.length).map fun i => UInt32.ofNat (startOf texts i)
  indexed : Indexed pool.byStr pool.lookupComplete texts

namespace ReleasablePool

variable {pool : ReleasablePool} {texts : List Text}

section
variable (holds : pool.Holds texts)
include holds

theorem Holds.length : pool.offsets.length = texts.length := by
  rw [holds.offsets,List.length_map,List.length_range]

section
variable (fit : FitsBytes texts)
include fit

theorem Holds.offset {i : Nat} (below : i < texts.length) :
    ∃ offset, pool.offsets[i]? = some offset ∧ offset.toNat = startOf texts i := by
  have small : startOf texts i < 2 ^ 32 := Nat.lt_of_le_of_lt (startOf_le texts i) fit
  refine ⟨UInt32.ofNat (startOf texts i),?_,UInt32.toNat_ofNat_of_lt small⟩
  rw [holds.offsets,List.getElem?_map,List.getElem?_range below]
  rfl

theorem Holds.stopOf {i : Nat} (below : i < texts.length) :
    pool.stopOf i = some (startOf texts (i + 1)) := by
  unfold ReleasablePool.stopOf
  by_cases last : i + 1 < texts.length
  · obtain ⟨offset,found,word⟩ := holds.offset fit last
    rw [found,← word]
  · have final : i + 1 = texts.length := by omega
    have outside : pool.offsets[i + 1]? = none := List.getElem?_eq_none (by rw [holds.length]; omega)
    have whole : startOf texts (i + 1) = (textBytes texts).length := by rw [final,startOf,List.take_length]
    rw [outside,whole,holds.bytes]
    exact if_pos fit

theorem Holds.get (id : UInt32) : pool.get id = some texts[id.toNat]? := by
  unfold ReleasablePool.get
  by_cases below : id.toNat < texts.length
  · obtain ⟨offset,found,word⟩ := holds.offset fit below
    have ascending : startOf texts id.toNat ≤ startOf texts (id.toNat + 1) := by
      rw [startOf_succ below]
      exact Nat.le_add_right _ _
    have range : getRange pool.bytes offset.toNat (startOf texts (id.toNat + 1)) = some (utf8Bytes texts[id.toNat]) := by
      rw [word,holds.bytes,getRange,if_pos ⟨ascending,startOf_le texts _⟩,slice_textBytes below]
    rw [found,List.getElem?_eq_getElem below]
    simp only [holds.stopOf fit below,Option.map_some,range,Option.bind_some,fromUtf8_utf8Bytes]
  · have outside : pool.offsets[id.toNat]? = none := List.getElem?_eq_none (by rw [holds.length]; omega)
    rw [outside,List.getElem?_eq_none (Nat.le_of_not_lt below)]

theorem Holds.find (s : Text) (indices : List Nat) :
    pool.find s indices =
      some ((indices.find? fun index => texts[(UInt32.ofNat index).toNat]? = some s).map UInt32.ofNat) := by
  induction indices with
  | nil => rfl
  | cons index rest ih =>
    rw [ReleasablePool.find,holds.get fit]
    by_cases here : texts[(UInt32.ofNat index).toNat]? = some s
    · rw [List.find?_cons_of_pos (by simpa using here)]
      exact if_pos here
    · rw [List.find?_cons_of_neg (by simpa using here),← ih]
      exact if_neg here

theorem Holds.scan (s : Text) :
    ∃ found, pool.scan s = some found ∧ Scanned pool.lookupComplete texts s found := by
  unfold ReleasablePool.scan Scanned
  cases pool.lookupComplete with
  | true => exact ⟨none,rfl,rfl⟩
  | false =>
    refine ⟨_,holds.find fit s _,fun id => ?_⟩
    rw [Option.map_eq_some_iff]
    constructor
    · intro found
      obtain ⟨index,first,same⟩ := found
      rw [← same]
      simpa using List.find?_some first
    · intro stored
      obtain ⟨below,_⟩ := List.getElem?_eq_some_iff.mp stored
      have listed : id.toNat ∈ List.range pool.offsets.length := by rw [holds.length]; exact List.mem_range.mpr below
      have hit : texts[(UInt32.ofNat id.toNat).toNat]? = some s := by rw [UInt32.ofNat_toNat]; exact stored
      have located : ((List.range pool.offsets.length).find? fun index =>
          texts[(UInt32.ofNat index).toNat]? = some s).isSome = true :=
        List.find?_isSome.mpr ⟨id.toNat,listed,decide_eq_true hit⟩
      obtain ⟨index,first⟩ := Option.isSome_iff_exists.mp located
      have known : texts[(UInt32.ofNat index).toNat]? = some s := by simpa using List.find?_some first
      exact ⟨index,first,holds.indexed.unique known stored⟩

theorem Holds.lookup (s : Text) :
    ∃ found, pool.lookup s = some found ∧ ∀ id, found = some id ↔ texts[id.toNat]? = some s := by
  obtain ⟨scanned,ran,scan⟩ := holds.scan fit s
  refine ⟨(pool.byStr.lookup s).or scanned,?_,holds.indexed.lookup_iff scan⟩
  unfold ReleasablePool.lookup
  rw [ran]
  cases pool.byStr.lookup s <;> rfl

end

end

theorem intern_eq (pool : ReleasablePool) (s : Text) : pool.intern s = match pool.lookup s with
    | none => none
    | some (some id) => some (id,pool)
    | some none =>
      if pool.offsets.length < 2 ^ 32 ∧ pool.bytes.length < 2 ^ 32 then
        some (UInt32.ofNat pool.offsets.length,{ pool with
          bytes := pool.bytes ++ utf8Bytes s
          offsets := pool.offsets ++ [UInt32.ofNat pool.bytes.length]
          byStr := (s,UInt32.ofNat pool.offsets.length) :: pool.byStr })
      else none := by
  unfold intern lookup
  cases pool.byStr.lookup s <;> rfl

theorem Holds.push (holds : pool.Holds texts) (fit : FitsBytes texts) {s : Text} (fresh : s ∉ texts) :
    ∃ pool', pool.intern s = some (UInt32.ofNat texts.length,pool') ∧ pool'.Holds (texts ++ [s]) := by
  have room := length_lt_of_bytes holds.indexed.distinct fit
  obtain ⟨found,looked,known⟩ := holds.lookup fit s
  have absent : found = none := by
    cases found with
    | none => rfl
    | some id => exact absurd (List.mem_of_getElem? ((known id).mp rfl)) fresh
  let pool' : ReleasablePool := { pool with
    bytes := pool.bytes ++ utf8Bytes s
    offsets := pool.offsets ++ [UInt32.ofNat pool.bytes.length]
    byStr := (s,UInt32.ofNat texts.length) :: pool.byStr }
  refine ⟨pool',?_,⟨?_,?_,holds.indexed.push fresh room⟩⟩
  · have small : pool.bytes.length < 2 ^ 32 := by rw [holds.bytes]; exact fit
    rw [intern_eq,looked,absent]
    simp only [holds.length,room,small,and_self,if_true,pool']
  · rw [textBytes_append,← holds.bytes]
    exact congrArg _ (List.append_nil _).symm
  · rw [offsets_snoc,← holds.bytes,← holds.offsets]

theorem Holds.rebuild (holds : pool.Holds texts) (fit : FitsBytes texts) (n : Nat) (bound : n ≤ texts.length) :
    ∃ byStr, (List.range n).foldlM pool.rebuildStep [] = some byStr ∧ Indexed byStr true (texts.take n) := by
  induction n with
  | zero => exact ⟨[],rfl,indexed_new true⟩
  | succ n ih =>
    obtain ⟨byStr,ran,indexed⟩ := ih (Nat.le_of_succ_le bound)
    have room : n < 2 ^ 32 := Nat.lt_of_lt_of_le bound holds.indexed.ids
    have word : (UInt32.ofNat n).toNat = n := UInt32.toNat_ofNat_of_lt room
    have read : pool.get (UInt32.ofNat n) = some (some texts[n]) := by
      rw [holds.get fit,word,List.getElem?_eq_getElem bound]
    have length : (texts.take n).length = n := List.length_take_of_le (Nat.le_of_succ_le bound)
    have fresh : texts[n] ∉ texts.take n := by
      intro member
      obtain ⟨i,below,same⟩ := List.getElem_of_mem member
      rw [List.getElem_take] at same
      exact absurd (holds.indexed.distinct.getElem_inj_iff.mp same) (by omega)
    refine ⟨(texts[n],UInt32.ofNat n) :: byStr,?_,?_⟩
    · rw [List.range_succ,List.foldlM_append,ran]
      simp only [Option.bind_eq_bind,Option.bind_some,List.foldlM_cons,List.foldlM_nil,rebuildStep,read]
      rfl
    · rw [List.take_succ_eq_append_getElem bound]
      have pushed := indexed.push fresh (by rw [length]; exact room)
      rwa [length] at pushed

theorem represents : interning.Represents FitsBytes Holds where
  new := ⟨rfl,rfl,indexed_new true⟩
  answers pool texts holds fit := by
    refine ⟨holds.indexed.distinct,holds.get fit,holds.lookup fit,fun s member => ?_,fun s absent fit' => ?_⟩
    · obtain ⟨id,stored⟩ := holds.indexed.mem_iff.mp member
      obtain ⟨found,looked,known⟩ := holds.lookup fit s
      refine ⟨id,stored,?_⟩
      change pool.intern s = _
      rw [intern_eq,looked,(known id).mpr stored]
    · obtain ⟨pool',interned,holds'⟩ := holds.push fit absent
      have room := length_lt_of_bytes holds.indexed.distinct fit
      have word : (UInt32.ofNat texts.length).toNat = texts.length := UInt32.toNat_ofNat_of_lt room
      refine ⟨pool',interned,(holds'.get fit' _).trans ?_⟩
      rw [word,List.getElem?_concat_length]
  intern pool texts s id pool' holds fit absent interned := by
    obtain ⟨last,pushed,holds'⟩ := holds.push fit absent
    cases Option.some.inj (interned.symm.trans pushed)
    exact holds'
  shorter _ _ growth fit := by
    obtain ⟨later,rfl⟩ := growth
    rw [FitsBytes,textBytes_append,List.length_append] at fit
    exact Nat.lt_of_le_of_lt (Nat.le_add_right _ _) fit
  releaseLookup _ _ holds := ⟨holds.bytes,holds.offsets,holds.indexed.release⟩
  rebuildLookup pool texts holds fit := by
    obtain ⟨byStr,ran,indexed⟩ := holds.rebuild fit texts.length (Nat.le_refl _)
    rw [List.take_length] at indexed
    refine ⟨{ pool with byStr := byStr, lookupComplete := true },?_,holds.bytes,holds.offsets,indexed⟩
    change pool.rebuildLookup = _
    rw [rebuildLookup,holds.length,ran]
    rfl
  reload _ _ holds := ⟨holds.bytes,holds.offsets,holds.indexed.release⟩

theorem Holds.decodes (holds : pool.Holds texts) (fit : FitsBytes texts) :
    ∃ offsets view, pool.offsetsBytes = some offsets ∧
      (StringPoolView.new pool.bytes offsets (UInt32.ofNat pool.len)).result = .ok view ∧
      ∀ id, (view.get id).result = .ok texts[id.toNat]? := by
  obtain ⟨byStr,_,indexed⟩ := holds.rebuild fit texts.length (Nat.le_refl _)
  rw [List.take_length] at indexed
  have pooled : Pooled ⟨pool.bytes,pool.offsets,byStr⟩ texts := by
    refine ⟨holds.bytes,holds.offsets,fun i below => Nat.lt_of_le_of_lt (startOf_le texts i) fit,fun s id => ?_,
      indexed.distinct,indexed.ids⟩
    have nothing : Scanned true texts s none := rfl
    rw [← indexed.lookup_iff nothing,Option.or_none]
  have small : pool.bytes.length < 2 ^ 32 := by rw [holds.bytes]; exact fit
  have stored : pool.offsetsBytes = some (pool.offsets.flatMap u32Bytes ++ u32Bytes (UInt32.ofNat pool.bytes.length)) := by
    rw [StringPoolBuilder.offsetsBytes,if_pos small]
  obtain ⟨table,strings⟩ := pooled.sections stored
  have room := length_lt_of_bytes indexed.distinct fit
  have count : (UInt32.ofNat pool.len).toNat = texts.length := by
    rw [StringPoolBuilder.len,holds.length]
    exact UInt32.toNat_ofNat_of_lt room
  rw [← count] at table
  refine ⟨_,_,stored,((exact_new _ _ _ fun _ _ => True).returns _).mpr ⟨table,rfl⟩,fun id => ?_⟩
  refine ((exact_get (fun _ _ => True) table id).returns _).mpr ?_
  have order : id < UInt32.ofNat pool.len ↔ id.toNat < texts.length := by rw [UInt32.lt_iff_toNat_lt,count]
  by_cases below : id.toNat < texts.length
  · rw [if_pos (order.mpr below),strings _ below,fromUtf8_utf8Bytes,List.getElem?_eq_getElem below]
  · rw [if_neg (fun inside => below (order.mp inside)),List.getElem?_eq_none (Nat.le_of_not_lt below)]

end ReleasablePool

end BonsaiNinja.FactStore
