import BonsaiNinja.FactStore.StringPool

namespace BonsaiNinja.FactStore
variable {pool : StringPoolBuilder} {texts : List Text}

open BonsaiNinja.Library BonsaiNinja.Library.Access
open Idg (Text)
open Hash (utf8Bytes utf8Bytes_injective)

-- The reverse index `byStr` lists every interned string, as the writer never
-- releases it.
structure StringPoolBuilder where
  bytes : List UInt8
  offsets : List UInt32
  byStr : List (Text × UInt32)
  deriving DecidableEq

namespace StringPoolBuilder

def new : StringPoolBuilder := ⟨[],[],[]⟩

def intern (pool : StringPoolBuilder) (s : Text) : Option (UInt32 × StringPoolBuilder) :=
  match pool.byStr.lookup s with
  | some id => some (id,pool)
  | none =>
    if pool.offsets.length < 2 ^ 32 ∧ pool.bytes.length < 2 ^ 32 then
      some (UInt32.ofNat pool.offsets.length,{
        bytes := pool.bytes ++ utf8Bytes s
        offsets := pool.offsets ++ [UInt32.ofNat pool.bytes.length]
        byStr := (s,UInt32.ofNat pool.offsets.length) :: pool.byStr
      })
    else none

def len (pool : StringPoolBuilder) : Nat := pool.offsets.length

-- Every offset and the length of the bytes section behind them; none stands for a
-- panic.
def offsetsBytes (pool : StringPoolBuilder) : Option (List UInt8) :=
  if pool.bytes.length < 2 ^ 32 then
    some (pool.offsets.flatMap u32Bytes ++ u32Bytes (UInt32.ofNat pool.bytes.length))
  else none

end StringPoolBuilder

instance : RecordCodec UInt32 where
  width := 4
  encode := u32Bytes
  decode := u32From
  positive := by decide
  sized := u32Bytes_length
  inverse := u32From_u32Bytes

def textBytes (texts : List Text) : List UInt8 := texts.flatMap utf8Bytes

def startOf (texts : List Text) (i : Nat) : Nat := (textBytes (texts.take i)).length

structure Pooled (pool : StringPoolBuilder) (texts : List Text) : Prop where
  bytes : pool.bytes = textBytes texts
  offsets : pool.offsets = (List.range texts.length).map fun i => UInt32.ofNat (startOf texts i)
  starts : ∀ i < texts.length, startOf texts i < 2 ^ 32
  byStr : ∀ s id, pool.byStr.lookup s = some id ↔ texts[id.toNat]? = some s
  distinct : texts.Nodup
  ids : texts.length ≤ 2 ^ 32

theorem textBytes_append (front back : List Text) : textBytes (front ++ back) = textBytes front ++ textBytes back :=
  List.flatMap_append

theorem pooled_new : Pooled .new [] where
  bytes := rfl
  offsets := rfl
  starts _ below := absurd below (Nat.not_lt_zero _)
  byStr s id := by simp [StringPoolBuilder.new]
  distinct := List.nodup_nil
  ids := Nat.zero_le _

theorem Pooled.length (pooled : Pooled pool texts) :
    pool.offsets.length = texts.length := by
  rw [pooled.offsets,List.length_map,List.length_range]

theorem offsets_snoc (texts : List Text) (s : Text) :
    (List.range (texts ++ [s]).length).map (fun i => UInt32.ofNat (startOf (texts ++ [s]) i)) =
      (List.range texts.length).map (fun i => UInt32.ofNat (startOf texts i)) ++ [UInt32.ofNat (textBytes texts).length] := by
  rw [List.length_append,List.length_singleton,List.range_succ,List.map_append,List.map_singleton]
  refine congrArg₂ _ (List.map_congr_left fun i member => ?_) ?_
  · rw [startOf,List.take_append_of_le_length (Nat.le_of_lt (List.mem_range.mp member)),startOf]
  · rw [startOf,List.take_left]

theorem Pooled.intern {pool' : StringPoolBuilder} {s : Text} {id : UInt32}
    (pooled : Pooled pool texts) (interned : pool.intern s = some (id,pool')) :
    ∃ later, Pooled pool' (texts ++ later) ∧ (texts ++ later)[id.toNat]? = some s := by
  unfold StringPoolBuilder.intern at interned
  split at interned
  · rename_i known found
    cases interned
    exact ⟨[],by rwa [List.append_nil],by rw [List.append_nil]; exact (pooled.byStr s _).mp found⟩
  · rename_i unknown
    split at interned
    · rename_i room
      cases interned
      rw [pooled.length] at room ⊢
      have word : (UInt32.ofNat texts.length).toNat = texts.length := UInt32.toNat_ofNat_of_lt room.1
      have fresh : s ∉ texts := by
        intro member
        obtain ⟨i,below,same⟩ := List.getElem_of_mem member
        have small : (UInt32.ofNat i).toNat = i := UInt32.toNat_ofNat_of_lt (lt_trans below room.1)
        have found := (pooled.byStr s (UInt32.ofNat i)).mpr (by rw [small,List.getElem?_eq_getElem below,same])
        rw [unknown] at found
        cases found
      refine ⟨[s],⟨?_,?_,fun i below => ?_,fun other id => ?_,?_,?_⟩,?_⟩
      · rw [textBytes_append,← pooled.bytes]
        exact congrArg _ (List.append_nil _).symm
      · rw [offsets_snoc,← pooled.bytes,← pooled.offsets]
      · rw [List.length_append,List.length_singleton] at below
        rcases Nat.lt_succ_iff_lt_or_eq.mp below with lower | rfl
        · rw [startOf,List.take_append_of_le_length (Nat.le_of_lt lower)]
          exact pooled.starts i lower
        · rw [startOf,List.take_left,← pooled.bytes]
          exact room.2
      · rw [List.lookup_cons]
        by_cases same : other = s
        · rw [same,beq_self_eq_true,Option.some.injEq]
          constructor
          · intro equal
            rw [← equal,word,List.getElem?_concat_length]
          · intro found
            rw [← UInt32.toNat_inj,word]
            rcases Nat.lt_or_ge id.toNat texts.length with lower | upper
            · rw [List.getElem?_append_left lower] at found
              exact absurd (List.mem_of_getElem? found) fresh
            · obtain ⟨bound,_⟩ := List.getElem?_eq_some_iff.mp found
              rw [List.length_append,List.length_singleton] at bound
              omega
        · rw [beq_eq_false_iff_ne.mpr same]
          change pool.byStr.lookup other = some id ↔ _
          rw [pooled.byStr]
          rcases Nat.lt_or_ge id.toNat texts.length with lower | upper
          · rw [List.getElem?_append_left lower]
          · rw [List.getElem?_append_right upper,List.getElem?_eq_none upper]
            constructor
            · exact nofun
            · intro found
              exact absurd (List.mem_singleton.mp (List.mem_of_getElem? found)) same
      · exact List.nodup_append.mpr ⟨pooled.distinct,List.nodup_singleton s,fun a member b last equal =>
          fresh (List.mem_singleton.mp last ▸ equal ▸ member)⟩
      · rw [List.length_append,List.length_singleton]
        omega
      · rw [word,List.getElem?_concat_length]
    · cases interned

theorem startOf_succ {i : Nat} (below : i < texts.length) :
    startOf texts (i + 1) = startOf texts i + (utf8Bytes texts[i]).length := by
  rw [startOf,List.take_succ_eq_append_getElem below,textBytes_append,List.length_append]
  exact congrArg (startOf texts i + List.length ·) (List.append_nil _)

theorem startOf_le (texts : List Text) (i : Nat) : startOf texts i ≤ (textBytes texts).length := by
  conv_rhs => rw [← List.take_append_drop i texts,textBytes_append,List.length_append]
  exact Nat.le_add_right _ _

theorem slice_textBytes {i : Nat} (below : i < texts.length) :
    slice (textBytes texts) (startOf texts i) (startOf texts (i + 1)) = utf8Bytes texts[i] := by
  have split : textBytes texts = textBytes (texts.take i) ++ (utf8Bytes texts[i] ++ textBytes (texts.drop (i + 1))) := by
    conv_lhs => rw [← List.take_append_drop i texts,textBytes_append,List.drop_eq_getElem_cons below]
    rfl
  have front : (textBytes (texts.take i)).length = startOf texts i := rfl
  rw [startOf_succ below,split,slice_past front.le,front,Nat.sub_self,Nat.add_sub_cancel_left]
  exact slice_first rfl

theorem Pooled.sections {offsets : List UInt8} (pooled : Pooled pool texts)
    (stored : pool.offsetsBytes = some offsets) : OffsetTable pool.bytes offsets texts.length ∧
      ∀ i (below : i < texts.length), stringBytes pool.bytes offsets i = utf8Bytes texts[i] := by
  unfold StringPoolBuilder.offsetsBytes at stored
  split at stored
  · rename_i small
    cases stored
    rw [pooled.bytes] at small ⊢
    have whole : startOf texts texts.length = (textBytes texts).length := by rw [startOf,List.take_length]
    have rows : pool.offsets.flatMap u32Bytes ++ u32Bytes (UInt32.ofNat (textBytes texts).length) =
        wire ((List.range (texts.length + 1)).map fun i => UInt32.ofNat (startOf texts i)) := by
      rw [List.range_succ,List.map_append,wire_append,pooled.offsets,List.map_singleton,whole]
      exact congrArg _ (List.append_nil _).symm
    have read : ∀ i ≤ texts.length, offsetAt (pool.offsets.flatMap u32Bytes ++ u32Bytes (UInt32.ofNat (textBytes texts).length)) i =
        startOf texts i := by
      intro i below
      have inside : i < ((List.range (texts.length + 1)).map fun i => UInt32.ofNat (startOf texts i)).length := by
        rw [List.length_map,List.length_range]
        omega
      have record := recordAt_wire inside
      rw [List.getElem_map,List.getElem_range,← rows] at record
      have fits := lt_of_le_of_lt (startOf_le texts i) small
      exact (congrArg UInt32.toNat record).trans (UInt32.toNat_ofNat_of_lt fits)
    refine ⟨⟨?_,fun i below => ?_,fun i below => ?_,?_⟩,fun i below => ?_⟩
    · rw [rows,wire_length,List.length_map,List.length_range]
      rfl
    · rw [read i below]
      exact startOf_le texts i
    · rw [read i (Nat.le_of_lt below),read (i + 1) below,startOf_succ below]
      exact Nat.le_add_right _ _
    · rw [read _ (Nat.le_refl _),whole]
    · rw [stringBytes,read i (Nat.le_of_lt below),read (i + 1) below,slice_textBytes below]
  · cases stored

-- Fewer than 2^32 bytes hold fewer than 2^32 different strings: all but the empty
-- one and those of one byte take at least two.
theorem length_lt_of_bytes (distinct : texts.Nodup) (small : (textBytes texts).length < 2 ^ 32) :
    texts.length < 2 ^ 32 := by
  have shortOnes : (texts.filter fun text => (utf8Bytes text).length < 2).length ≤ 257 := by
    have unique : ((texts.filter fun text => (utf8Bytes text).length < 2).map utf8Bytes).Nodup :=
      (distinct.filter _).map utf8Bytes_injective
    have inside : ((texts.filter fun text => (utf8Bytes text).length < 2).map utf8Bytes) ⊆
        [] :: (List.range 256).map fun byte => [UInt8.ofNat byte] := by
      intro bytes member
      obtain ⟨text,found,rfl⟩ := List.mem_map.mp member
      have short := of_decide_eq_true (List.mem_filter.mp found).2
      match stored : utf8Bytes text with
      | [] => exact List.mem_cons_self
      | [byte] =>
        refine List.mem_cons_of_mem _ (List.mem_map.mpr ⟨byte.toNat,List.mem_range.mpr byte.toNat_lt,?_⟩)
        rw [UInt8.ofNat_toNat]
      | first :: second :: rest =>
        rw [stored,List.length_cons,List.length_cons] at short
        omega
    have bound := (unique.subperm inside).length_le
    rwa [List.length_map,List.length_cons,List.length_map,List.length_range] at bound
  have longOnes : 2 * (texts.filter fun text => ¬(utf8Bytes text).length < 2).length ≤ (textBytes texts).length := by
    clear distinct small shortOnes
    induction texts with
    | nil => exact Nat.zero_le _
    | cons text rest ih =>
      have total : (textBytes (text :: rest)).length = (utf8Bytes text).length + (textBytes rest).length := List.length_append
      rw [total,List.filter_cons]
      split
      · rename_i long
        have two := of_decide_eq_true long
        rw [List.length_cons]
        omega
      · omega
  have all : (texts.filter fun text => (utf8Bytes text).length < 2).length +
      (texts.filter fun text => ¬(utf8Bytes text).length < 2).length = texts.length := by
    have parts := List.length_eq_length_filter_add (l := texts) fun text => decide ((utf8Bytes text).length < 2)
    rw [parts]
    simp only [decide_not]
  omega

end BonsaiNinja.FactStore
