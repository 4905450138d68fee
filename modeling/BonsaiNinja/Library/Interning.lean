import Mathlib.Algebra.Order.Ring.Nat
import Mathlib.Data.List.Induction
import Mathlib.Data.List.Nodup
import Mathlib.Order.Basic

namespace BonsaiNinja.Library

variable {α : Type} {σ : Type} [BEq α]

-- A reverse index over `values`, whose ids are their positions. An index that is
-- not complete lists only some of them.
structure Indexed (index : List (α × UInt32)) (complete : Bool) (values : List α) : Prop where
  distinct : values.Nodup
  ids : values.length ≤ 2 ^ 32
  sound : ∀ x id, index.lookup x = some id → values[id.toNat]? = some x
  whole : complete = true → ∀ x ∈ values, (index.lookup x).isSome = true

theorem indexed_new (complete : Bool) : Indexed ([] : List (α × UInt32)) complete [] where
  distinct := .nil
  ids := Nat.zero_le _
  sound _ _ found := by simp at found
  whole _ _ member := absurd member List.not_mem_nil

section
variable {index : List (α × UInt32)} {complete : Bool} {values : List α}

section
variable (indexed : Indexed index complete values)
include indexed

theorem Indexed.release : Indexed [] false values where
  distinct := indexed.distinct
  ids := indexed.ids
  sound _ _ found := by simp at found
  whole absent := nomatch absent

theorem Indexed.push [LawfulBEq α] {x : α} (fresh : x ∉ values) (room : values.length < 2 ^ 32) :
    Indexed ((x,UInt32.ofNat values.length) :: index) complete (values ++ [x]) where
  distinct := List.nodup_append.mpr ⟨indexed.distinct,List.nodup_singleton x,fun a member b last equal =>
    fresh (List.mem_singleton.mp last ▸ equal ▸ member)⟩
  ids := by rw [List.length_append,List.length_singleton]; exact room
  sound y id found := by
    rw [List.lookup_cons] at found
    by_cases same : y = x
    · rw [same,beq_self_eq_true] at found
      cases found
      have word : (UInt32.ofNat values.length).toNat = values.length := UInt32.toNat_ofNat_of_lt room
      rw [word,List.getElem?_concat_length,same]
    · rw [beq_eq_false_iff_ne.mpr same] at found
      have known := indexed.sound y id found
      obtain ⟨below,_⟩ := List.getElem?_eq_some_iff.mp known
      rw [List.getElem?_append_left below]
      exact known
  whole all y member := by
    rw [List.lookup_cons]
    by_cases same : y = x
    · rw [same,beq_self_eq_true]
      rfl
    · rw [beq_eq_false_iff_ne.mpr same]
      have earlier : y ∈ values := (List.mem_append.mp member).resolve_right fun last => same (List.mem_singleton.mp last)
      exact indexed.whole all y earlier

theorem Indexed.unique {x : α} {id other : UInt32}
    (first : values[id.toNat]? = some x) (second : values[other.toNat]? = some x) : id = other := by
  obtain ⟨below,here⟩ := List.getElem?_eq_some_iff.mp first
  obtain ⟨above,there⟩ := List.getElem?_eq_some_iff.mp second
  exact UInt32.toNat_inj.mp ((indexed.distinct.getElem_inj_iff).mp (here.trans there.symm))

-- What a search of the values themselves must return to stand in for the part
-- the index misses.
def Scanned (complete : Bool) (values : List α) (x : α) (found : Option UInt32) : Prop :=
  if complete then found = none else ∀ id, found = some id ↔ values[id.toNat]? = some x

theorem Indexed.lookup_iff {x : α} {scanned : Option UInt32}
    (scan : Scanned complete values x scanned) (id : UInt32) :
    (index.lookup x).or scanned = some id ↔ values[id.toNat]? = some x := by
  cases found : index.lookup x with
  | some known =>
    have stored := indexed.sound x known found
    rw [Option.some_or,Option.some.injEq]
    constructor
    · intro same
      rw [← same]
      exact stored
    · exact indexed.unique stored
  | none =>
    rw [Option.none_or]
    cases complete with
    | false => exact scan id
    | true =>
      have nothing : scanned = none := scan
      rw [nothing]
      refine ⟨(fun absent => nomatch absent),fun stored => ?_⟩
      have listed := indexed.whole rfl x (List.mem_of_getElem? stored)
      rw [found] at listed
      cases listed

theorem Indexed.mem_iff {x : α} :
    x ∈ values ↔ ∃ id : UInt32, values[id.toNat]? = some x := by
  constructor
  · intro member
    obtain ⟨i,below,same⟩ := List.getElem_of_mem member
    have small : i < 2 ^ 32 := Nat.lt_of_lt_of_le below indexed.ids
    have word : (UInt32.ofNat i).toNat = i := UInt32.toNat_ofNat_of_lt small
    exact ⟨UInt32.ofNat i,by rw [word,List.getElem?_eq_getElem below,same]⟩
  · intro stored
    obtain ⟨id,found⟩ := stored
    exact List.mem_of_getElem? found

end

end

-- The operations of an interner; none stands for a panic.
structure Interning (α σ : Type) where
  new : σ
  intern : σ → α → Option (UInt32 × σ)
  lookup : σ → α → Option (Option UInt32)
  get : σ → UInt32 → Option (Option α)
  releaseLookup : σ → σ
  rebuildLookup : σ → Option σ
  -- Serialized and read back.
  reload : σ → σ

inductive InternOp (α : Type) where
  | intern (x : α)
  | lookup (x : α)
  | releaseLookup
  | rebuildLookup
  | reload

namespace Interning

def apply (table : Interning α σ) (s : σ) : InternOp α → Option σ
  | .intern x => (table.intern s x).map Prod.snd
  | .lookup x => (table.lookup s x).map fun _ => s
  | .releaseLookup => some (table.releaseLookup s)
  | .rebuildLookup => table.rebuildLookup s
  | .reload => some (table.reload s)

def run (table : Interning α σ) (ops : List (InternOp α)) : Option σ := ops.foldlM table.apply table.new

end Interning

def addInterned (values : List α) : InternOp α → List α
  | .intern x => if values.contains x then values else values ++ [x]
  | _ => values

def internedValues (ops : List (InternOp α)) : List α := ops.foldl addInterned []

theorem addInterned_grows (values : List α) (op : InternOp α) : values <+: addInterned values op := by
  cases op with
  | intern x =>
    rw [addInterned]
    split
    · exact List.prefix_refl _
    · exact List.prefix_append _ _
  | _ => exact List.prefix_refl _

theorem internedValues_grows (ops later : List (InternOp α)) : internedValues ops <+: internedValues (ops ++ later) := by
  rw [internedValues,internedValues,List.foldl_append]
  generalize ops.foldl addInterned [] = values
  induction later generalizing values with
  | nil => exact List.prefix_refl _
  | cons op rest ih => exact (addInterned_grows values op).trans (ih _)

theorem mem_addInterned [LawfulBEq α] {values : List α} {op : InternOp α} {x : α} :
    x ∈ addInterned values op ↔ x ∈ values ∨ op = .intern x := by
  cases op with
  | intern y =>
    rw [addInterned,InternOp.intern.injEq]
    by_cases member : y ∈ values
    · rw [if_pos (List.contains_iff_mem.mpr member)]
      exact ⟨.inl,fun found => found.elim id fun same => same ▸ member⟩
    · rw [if_neg fun found => member (List.contains_iff_mem.mp found),List.mem_append,List.mem_singleton,@eq_comm _ x]
  | _ => simp [addInterned]

theorem mem_internedValues [LawfulBEq α] {ops : List (InternOp α)} {x : α} : x ∈ internedValues ops ↔ .intern x ∈ ops := by
  induction ops using List.reverseRecOn with
  | nil => simp [internedValues]
  | append_singleton ops op ih =>
    rw [internedValues,List.foldl_append,List.foldl_cons,List.foldl_nil,mem_addInterned,List.mem_append,List.mem_singleton]
    exact or_congr ih eq_comm

namespace Interning

structure Answers (table : Interning α σ) (fits : List α → Prop) (s : σ) (values : List α) : Prop where
  distinct : values.Nodup
  get : ∀ id, table.get s id = some values[id.toNat]?
  lookup : ∀ x, ∃ found, table.lookup s x = some found ∧ ∀ id, found = some id ↔ values[id.toNat]? = some x
  known : ∀ x ∈ values, ∃ id, values[id.toNat]? = some x ∧ table.intern s x = some (id,s)
  fresh : ∀ x, x ∉ values → fits (values ++ [x]) → ∃ s', table.intern s x = some (UInt32.ofNat values.length,s') ∧
    table.get s' (UInt32.ofNat values.length) = some (some x)

structure Represents (table : Interning α σ) (fits : List α → Prop) (holds : σ → List α → Prop) : Prop where
  new : holds table.new []
  answers : ∀ s values, holds s values → fits values → table.Answers fits s values
  intern : ∀ s values x id s', holds s values → fits values → x ∉ values → table.intern s x = some (id,s') →
    holds s' (values ++ [x])
  shorter : ∀ values values', values <+: values' → fits values' → fits values
  releaseLookup : ∀ s values, holds s values → holds (table.releaseLookup s) values
  rebuildLookup : ∀ s values, holds s values → fits values → ∃ s', table.rebuildLookup s = some s' ∧ holds s' values
  reload : ∀ s values, holds s values → holds (table.reload s) values

variable {table : Interning α σ} {fits : List α → Prop} {holds : σ → List α → Prop}

section
variable (represents : table.Represents fits holds)
include represents

theorem Represents.apply [LawfulBEq α] {s : σ} {values : List α} {op : InternOp α}
    (held : holds s values) (fit : fits (addInterned values op)) :
    ∃ s', table.apply s op = some s' ∧ holds s' (addInterned values op) := by
  have before := represents.shorter _ _ (addInterned_grows values op) fit
  have answers := represents.answers s values held before
  cases op with
  | intern x =>
    rw [addInterned] at fit ⊢
    by_cases member : x ∈ values
    · obtain ⟨id,_,interned⟩ := answers.known x member
      rw [if_pos (List.contains_iff_mem.mpr member)]
      exact ⟨s,by rw [Interning.apply,interned]; rfl,held⟩
    · have absent : ¬values.contains x = true := fun found => member (List.contains_iff_mem.mp found)
      rw [if_neg absent] at fit ⊢
      obtain ⟨s',interned,_⟩ := answers.fresh x member fit
      exact ⟨s',by rw [Interning.apply,interned]; rfl,represents.intern s values x _ s' held before member interned⟩
  | lookup x =>
    obtain ⟨found,looked,_⟩ := answers.lookup x
    exact ⟨s,by rw [Interning.apply,looked]; rfl,held⟩
  | releaseLookup => exact ⟨_,rfl,represents.releaseLookup s values held⟩
  | rebuildLookup => exact represents.rebuildLookup s values held before
  | reload => exact ⟨_,rfl,represents.reload s values held⟩

-- A run whose values fit does not panic and ends with the distinct values it
-- interned, in the order they came.
theorem Represents.run [LawfulBEq α] (ops : List (InternOp α)) (fit : fits (internedValues ops)) :
    ∃ s, table.run ops = some s ∧ holds s (internedValues ops) := by
  induction ops using List.reverseRecOn with
  | nil => exact ⟨table.new,rfl,represents.new⟩
  | append_singleton ops op ih =>
    rw [internedValues,List.foldl_append] at fit
    obtain ⟨s,ran,held⟩ := ih (represents.shorter _ _ (addInterned_grows _ op) fit)
    obtain ⟨s',applied,kept⟩ := represents.apply held fit
    refine ⟨s',?_,?_⟩
    · rw [Interning.run,List.foldlM_append]
      rw [Interning.run] at ran
      rw [ran]
      simp only [Option.bind_eq_bind,Option.bind_some,List.foldlM_cons,List.foldlM_nil,applied]
      rfl
    · rw [internedValues,List.foldl_append]
      exact kept

-- Every run answers exactly for the values it interned, and an id keeps its
-- meaning over every later run.
structure Stable (table : Interning α σ) (fits : List α → Prop) : Prop where
  interned : ∀ (ops : List (InternOp α)) x, x ∈ internedValues ops ↔ .intern x ∈ ops
  answers : ∀ ops, fits (internedValues ops) → ∃ s, table.run ops = some s ∧ table.Answers fits s (internedValues ops)
  keeps : ∀ ops later s s', fits (internedValues (ops ++ later)) → table.run ops = some s → table.run (ops ++ later) = some s' →
    ∀ id x, table.get s id = some (some x) → table.get s' id = some (some x)

theorem Represents.stable [LawfulBEq α] : table.Stable fits where
  interned _ _ := mem_internedValues
  answers ops fit := by
    obtain ⟨s,ran,held⟩ := represents.run ops fit
    exact ⟨s,ran,represents.answers s _ held fit⟩
  keeps ops later s s' fit ran ran' id x found := by
    have growth := internedValues_grows ops later
    have fit' := represents.shorter _ _ growth fit
    obtain ⟨first,firstRan,held⟩ := represents.run ops fit'
    obtain ⟨last,lastRan,held'⟩ := represents.run (ops ++ later) fit
    cases Option.some.inj (firstRan.symm.trans ran)
    cases Option.some.inj (lastRan.symm.trans ran')
    rw [(represents.answers _ _ held fit').get,Option.some.injEq] at found
    rw [(represents.answers _ _ held' fit).get,Option.some.injEq]
    obtain ⟨rest,grown⟩ := growth
    obtain ⟨below,_⟩ := List.getElem?_eq_some_iff.mp found
    rw [← grown,List.getElem?_append_left below]
    exact found

end

end Interning

def position (values : List α) (x : α) : Option UInt32 := (values.findIdx? (· == x)).map UInt32.ofNat

theorem position_iff [LawfulBEq α] {values : List α} (distinct : values.Nodup) (ids : values.length ≤ 2 ^ 32) {x : α}
    (id : UInt32) : position values x = some id ↔ values[id.toNat]? = some x := by
  unfold position
  rw [Option.map_eq_some_iff]
  constructor
  · intro found
    obtain ⟨i,first,same⟩ := found
    obtain ⟨below,stored,_⟩ := List.findIdx?_eq_some_iff_getElem.mp first
    have small : i < 2 ^ 32 := Nat.lt_of_lt_of_le below ids
    have word : (UInt32.ofNat i).toNat = i := UInt32.toNat_ofNat_of_lt small
    rw [← same,word,List.getElem?_eq_getElem below,eq_of_beq stored]
  · intro stored
    obtain ⟨below,same⟩ := List.getElem?_eq_some_iff.mp stored
    refine ⟨id.toNat,List.findIdx?_eq_some_iff_getElem.mpr ⟨below,beq_iff_eq.mpr same,fun j earlier other => ?_⟩,
      UInt32.ofNat_toNat⟩
    have equal := (eq_of_beq other).trans same.symm
    exact absurd (distinct.getElem_inj_iff.mp equal) (Nat.ne_of_lt earlier)

structure Interner (α : Type) where
  values : List α
  index : List (α × UInt32)
  lookupComplete : Bool

namespace Interner

def new : Interner α := ⟨[],[],true⟩

def lookup (dict : Interner α) (x : α) : Option UInt32 :=
  match dict.index.lookup x with
  | some id => some id
  | none => if dict.lookupComplete then none else position dict.values x

-- The id of a value and the dictionary after; none stands for a panic.
def intern (dict : Interner α) (x : α) : Option (UInt32 × Interner α) :=
  match dict.index.lookup x with
  | some id => some (id,dict)
  | none =>
    match if dict.lookupComplete then none else position dict.values x with
    | some id => some (id,dict)
    | none =>
      if dict.values.length < 2 ^ 32 then
        let id := UInt32.ofNat dict.values.length
        some (id,{ dict with index := (x,id) :: dict.index, values := dict.values ++ [x] })
      else none

def get (dict : Interner α) (id : UInt32) : Option α := dict.values[id.toNat]?

def releaseLookup (dict : Interner α) : Interner α := { dict with index := [], lookupComplete := false }

def rebuildLookup (dict : Interner α) : Interner α :=
  { dict with
    index := dict.values.zipIdx.foldl (fun index row => (row.1,UInt32.ofNat row.2) :: index) []
    lookupComplete := true }

def serialize (dict : Interner α) : List α := dict.values

def deserialize (values : List α) : Interner α := ⟨values,[],false⟩

def interning : Interning α (Interner α) where
  new := new
  intern := intern
  lookup dict x := some (dict.lookup x)
  get dict id := some (dict.get id)
  releaseLookup := releaseLookup
  rebuildLookup dict := some dict.rebuildLookup
  reload dict := deserialize dict.serialize

structure Holds (dict : Interner α) (values : List α) : Prop where
  canonical : dict.values = values
  indexed : Indexed dict.index dict.lookupComplete values

def FitsIds (values : List α) : Prop := values.length ≤ 2 ^ 32

variable {dict : Interner α} {values : List α}

theorem Holds.scanned [LawfulBEq α] (holds : dict.Holds values) (x : α) :
    Scanned dict.lookupComplete values x (if dict.lookupComplete then none else position dict.values x) := by
  unfold Scanned
  cases dict.lookupComplete with
  | true => rfl
  | false =>
    rw [holds.canonical]
    exact position_iff holds.indexed.distinct holds.indexed.ids

theorem lookup_eq (x : α) :
    dict.lookup x = (dict.index.lookup x).or (if dict.lookupComplete then none else position dict.values x) := by
  unfold lookup
  cases dict.index.lookup x <;> rfl

theorem intern_eq (x : α) : dict.intern x = match dict.lookup x with
    | some id => some (id,dict)
    | none =>
      if dict.values.length < 2 ^ 32 then
        some (UInt32.ofNat dict.values.length,{ dict with
          index := (x,UInt32.ofNat dict.values.length) :: dict.index, values := dict.values ++ [x] })
      else none := by
  unfold intern lookup
  cases dict.index.lookup x <;> rfl

section
variable (holds : dict.Holds values)
include holds

theorem Holds.lookup_iff [LawfulBEq α] {x : α} (id : UInt32) :
    dict.lookup x = some id ↔ values[id.toNat]? = some x := by
  rw [lookup_eq]
  exact holds.indexed.lookup_iff (holds.scanned x) id

theorem Holds.lookup_none [LawfulBEq α] {x : α} (absent : x ∉ values) : dict.lookup x = none := by
  cases found : dict.lookup x with
  | none => rfl
  | some id => exact absurd (List.mem_of_getElem? ((holds.lookup_iff id).mp found)) absent

theorem Holds.push [LawfulBEq α] {x : α} (fresh : x ∉ values) (room : values.length < 2 ^ 32) :
    ∃ dict', dict.intern x = some (UInt32.ofNat values.length,dict') ∧ dict'.Holds (values ++ [x]) := by
  let dict' : Interner α := { dict with
    index := (x,UInt32.ofNat values.length) :: dict.index, values := dict.values ++ [x] }
  refine ⟨dict',?_,⟨congrArg (· ++ [x]) holds.canonical,holds.indexed.push fresh room⟩⟩
  rw [intern_eq,holds.lookup_none fresh]
  simp only [holds.canonical,if_pos room,dict']

theorem Holds.get (id : UInt32) : dict.get id = values[id.toNat]? := by
  rw [Interner.get,holds.canonical]

end

theorem rebuilt_indexed [LawfulBEq α] {values : List α} (distinct : values.Nodup) (ids : values.length ≤ 2 ^ 32) :
    Indexed (values.zipIdx.foldl (fun index row => (row.1,UInt32.ofNat row.2) :: index) []) true values := by
  induction values using List.reverseRecOn with
  | nil => exact indexed_new true
  | append_singleton values x ih =>
    obtain ⟨earlier,_,apart⟩ := List.nodup_append.mp distinct
    rw [List.length_append,List.length_singleton] at ids
    rw [List.zipIdx_append,List.foldl_append,Nat.zero_add]
    exact (ih earlier (Nat.le_of_succ_le ids)).push (fun member => apart x member x (List.mem_singleton_self x) rfl) ids

theorem represents [LawfulBEq α] : (interning : Interning α (Interner α)).Represents FitsIds Holds where
  new := ⟨rfl,indexed_new true⟩
  answers dict values holds fit := by
    refine ⟨holds.indexed.distinct,fun id => congrArg some (holds.get id),fun x => ⟨_,rfl,holds.lookup_iff⟩,fun x member => ?_,
      fun x absent fit' => ?_⟩
    · obtain ⟨id,stored⟩ := holds.indexed.mem_iff.mp member
      refine ⟨id,stored,?_⟩
      change dict.intern x = _
      rw [intern_eq,(holds.lookup_iff id).mpr stored]
    · rw [FitsIds,List.length_append,List.length_singleton] at fit'
      obtain ⟨dict',interned,holds'⟩ := holds.push absent fit'
      refine ⟨dict',interned,congrArg some ?_⟩
      have word : (UInt32.ofNat values.length).toNat = values.length := UInt32.toNat_ofNat_of_lt fit'
      rw [holds'.get,word,List.getElem?_concat_length]
  intern dict values x id dict' holds fit absent interned := by
    change dict.intern x = _ at interned
    by_cases room : values.length < 2 ^ 32
    · obtain ⟨last,pushed,holds'⟩ := holds.push absent room
      cases Option.some.inj (interned.symm.trans pushed)
      exact holds'
    · rw [intern_eq,holds.lookup_none absent] at interned
      simp only [holds.canonical,if_neg room] at interned
      cases interned
  shorter _ _ growth fit := Nat.le_trans growth.length_le fit
  releaseLookup _ _ holds := ⟨holds.canonical,holds.indexed.release⟩
  rebuildLookup dict values holds _ := by
    refine ⟨_,rfl,holds.canonical,?_⟩
    have whole := rebuilt_indexed holds.indexed.distinct holds.indexed.ids
    rwa [← holds.canonical] at whole ⊢
  reload _ _ holds := ⟨holds.canonical,holds.indexed.release⟩

end Interner

end BonsaiNinja.Library
