import BonsaiNinja.Hash.ShortIds

namespace BonsaiNinja.AbstractInterp
open Hash (utf8Bytes)
export Idg (Text)

abbrev TypeId := Nat

def i64Max : Int := 2 ^ 63 - 1

structure OwnedString where
  text : Text
  fits : (utf8Bytes text).length ≤ i64Max
  deriving DecidableEq

def OwnedString.len (string : OwnedString) : Nat := (utf8Bytes string.text).length

structure IntRange where
  min : Option Int
  max : Option Int
  deriving DecidableEq, Repr

namespace IntRange

def singleton (value : Int) : IntRange := ⟨some value,some value⟩

def joinLowerBound : Option Int → Option Int → Option Int
  | some left, some right => some (Min.min left right)
  | _, _ => none

def joinUpperBound : Option Int → Option Int → Option Int
  | some left, some right => some (Max.max left right)
  | _, _ => none

def join (left right : IntRange) : IntRange := ⟨joinLowerBound left.min right.min,joinUpperBound left.max right.max⟩

def contains (range : IntRange) (value : Int) : Bool := range.min.all (· ≤ value) && range.max.all (value ≤ ·)

end IntRange

structure BoolDomain where
  canBeTrue : Bool
  canBeFalse : Bool
  deriving DecidableEq, Repr

namespace BoolDomain

def singleton (value : Bool) : BoolDomain := ⟨value,!value⟩

def join (left right : BoolDomain) : BoolDomain :=
  ⟨left.canBeTrue || right.canBeTrue,left.canBeFalse || right.canBeFalse⟩

end BoolDomain

inductive Nullness where
  | unknown | null | nonNull | maybeNull
  deriving DecidableEq, Repr

def Nullness.join : Nullness → Nullness → Nullness
  | .unknown, _ | _, .unknown => .unknown
  | .null, .null => .null
  | .nonNull, .nonNull => .nonNull
  | _, _ => .maybeNull

inductive AbstractValue where
  | unknown
  | constInt (value : Int)
  | intRange (range : IntRange)
  | constBool (value : Bool)
  | bool (domain : BoolDomain)
  | constString (value : OwnedString)
  | stringWithLength (range : IntRange)
  | null
  | nullable (value : AbstractValue)
  | object (type : TypeId)
  | set (values : List AbstractValue)
  | top (type : TypeId)

namespace AbstractValue

mutual

def same : AbstractValue → AbstractValue → Bool
  | .unknown, .unknown => true
  | .constInt left, .constInt right => left == right
  | .intRange left, .intRange right => left == right
  | .constBool left, .constBool right => left == right
  | .bool left, .bool right => left == right
  | .constString left, .constString right => left == right
  | .stringWithLength left, .stringWithLength right => left == right
  | .null, .null => true
  | .nullable left, .nullable right => same left right
  | .object left, .object right => left == right
  | .set left, .set right => sameAll left right
  | .top left, .top right => left == right
  | _, _ => false

def sameAll : List AbstractValue → List AbstractValue → Bool
  | [], [] => true
  | left :: lefts, right :: rights => same left right && sameAll lefts rights
  | _, _ => false

end

mutual

theorem same_iff (left right : AbstractValue) : same left right = true ↔ left = right := by
  cases left <;> cases right <;> simp [same, same_iff, sameAll_iff]

theorem sameAll_iff (lefts rights : List AbstractValue) : sameAll lefts rights = true ↔ lefts = rights := by
  cases lefts <;> cases rights <;> simp [sameAll, same_iff, sameAll_iff]

end

instance : DecidableEq AbstractValue := fun left right => decidable_of_iff _ (same_iff left right)

mutual

def nullness : AbstractValue → Nullness
  | .unknown => .unknown
  | .null => .null
  | .nullable _ => .maybeNull
  | .set values =>
    match nullnesses values with
    | [] => .unknown
    | first :: rest => rest.foldl Nullness.join first
  | _ => .nonNull

def nullnesses : List AbstractValue → List Nullness
  | [] => []
  | value :: values => nullness value :: nullnesses values

end

def withNull : AbstractValue → AbstractValue
  | .unknown => .unknown
  | .null => .null
  | .nullable value => .nullable value
  | value => .nullable value

def setWidenThreshold : Nat := 8

def widenSet (values : List AbstractValue) : AbstractValue :=
  if values.length > setWidenThreshold then .unknown else .set values

def pushValue (values : List AbstractValue) (value : AbstractValue) : List AbstractValue :=
  if value ∈ values then values else values ++ [value]

def lengthRange (string : OwnedString) : IntRange :=
  .singleton (if string.len ≤ i64Max then string.len else i64Max)

def join (left right : AbstractValue) : AbstractValue :=
  if left = right then left
  else match left, right with
    | .unknown, _ | _, .unknown => .unknown
    | .constInt left, .constInt right => .intRange ((IntRange.singleton left).join (.singleton right))
    | .constInt value, .intRange range | .intRange range, .constInt value => .intRange (range.join (.singleton value))
    | .intRange left, .intRange right => .intRange (left.join right)
    | .constBool left, .constBool right => .bool ((BoolDomain.singleton left).join (.singleton right))
    | .constBool value, .bool domain | .bool domain, .constBool value => .bool (domain.join (.singleton value))
    | .bool left, .bool right => .bool (left.join right)
    | .constString left, .stringWithLength right | .stringWithLength right, .constString left =>
      .stringWithLength ((lengthRange left).join right)
    | .stringWithLength left, .stringWithLength right => .stringWithLength (left.join right)
    | .null, value | value, .null => value.withNull
    | .nullable left, .nullable right => .nullable (left.join right)
    | .nullable left, value | value, .nullable left => .nullable (left.join value)
    | .set left, .set right => widenSet (right.foldl pushValue left)
    | .set values, other | other, .set values => widenSet (pushValue values other)
    | left, right => .set [left,right]
termination_by sizeOf left + sizeOf right

end AbstractValue

-- What the abstract values stand for.
inductive ConcreteValue where
  | int (value : Int)
  | bool (value : Bool)
  | string (value : OwnedString)
  | null
  | object (type : TypeId) (identity : Nat)
  deriving DecidableEq

def IntRange.Holds (range : IntRange) (value : ConcreteValue) : Prop :=
  ∃ number, value = .int number ∧ range.contains number = true

def BoolDomain.Holds (domain : BoolDomain) (value : ConcreteValue) : Prop :=
  value = .bool true ∧ domain.canBeTrue = true ∨ value = .bool false ∧ domain.canBeFalse = true

def Nullness.Holds : Nullness → ConcreteValue → Prop
  | .null, value => value = .null
  | .nonNull, value => value ≠ .null
  | _, _ => True

section denotation
variable (typed : TypeId → ConcreteValue → Prop)

-- No type has the absent value.
mutual

def Denotes : AbstractValue → ConcreteValue → Prop
  | .unknown, _ => True
  | .constInt number, value => value = .int number
  | .intRange range, value => range.Holds value
  | .constBool flag, value => value = .bool flag
  | .bool domain, value => domain.Holds value
  | .constString string, value => value = .string string
  | .stringWithLength range, value => ∃ string, value = .string string ∧ range.contains string.len = true
  | .null, value => value = .null
  | .nullable inner, value => Denotes inner value ∨ value = .null
  | .object type, value => ∃ identity, value = .object type identity
  | .set values, value => DenotesAny values value
  | .top type, value => typed type value ∧ value ≠ .null

def DenotesAny : List AbstractValue → ConcreteValue → Prop
  | [], _ => False
  | first :: rest, value => Denotes first value ∨ DenotesAny rest value

end

end denotation

namespace IntRange
variable {left right : IntRange} {value : Int}

theorem joinLowerBound_assoc (a b c : Option Int) :
    joinLowerBound (joinLowerBound a b) c = joinLowerBound a (joinLowerBound b c) := by
  cases a <;> cases b <;> cases c <;> simp [joinLowerBound, min_assoc]

theorem joinUpperBound_assoc (a b c : Option Int) :
    joinUpperBound (joinUpperBound a b) c = joinUpperBound a (joinUpperBound b c) := by
  cases a <;> cases b <;> cases c <;> simp [joinUpperBound, max_assoc]

theorem join_assoc (a b c : IntRange) : (a.join b).join c = a.join (b.join c) := by
  rw [join, join, joinLowerBound_assoc, joinUpperBound_assoc]
  rfl

theorem join_comm (a b : IntRange) : a.join b = b.join a := by
  obtain ⟨aMin,aMax⟩ := a
  obtain ⟨bMin,bMax⟩ := b
  cases aMin <;> cases bMin <;> cases aMax <;> cases bMax <;>
    simp [join, joinLowerBound, joinUpperBound, min_comm, max_comm]

@[simp] theorem join_self (a : IntRange) : a.join a = a := by
  obtain ⟨low,high⟩ := a
  cases low <;> cases high <;> simp [join, joinLowerBound, joinUpperBound]

@[simp] theorem join_right (a b : IntRange) : (a.join b).join b = a.join b := by
  rw [join_assoc, join_self]

@[simp] theorem join_left (a b : IntRange) : (a.join b).join a = a.join b := by
  rw [join_comm a b, join_right]

@[simp] theorem join_inner (a b : IntRange) : a.join (a.join b) = a.join b := by
  rw [← join_assoc, join_self]

theorem contains_left (held : left.contains value = true) : (left.join right).contains value = true := by
  obtain ⟨leftMin,leftMax⟩ := left
  obtain ⟨rightMin,rightMax⟩ := right
  cases leftMin <;> cases rightMin <;> cases leftMax <;> cases rightMax <;>
    simp_all [contains, join, joinLowerBound, joinUpperBound]

theorem contains_right (held : right.contains value = true) : (left.join right).contains value = true := by
  rw [join_comm]
  exact contains_left held

@[simp] theorem contains_singleton {number : Int} : (singleton number).contains value = true ↔ value = number := by
  simp [contains, singleton]
  omega

theorem holds_join {left right : IntRange} {value : ConcreteValue} (either : left.Holds value ∨ right.Holds value) :
    (left.join right).Holds value := by
  rcases either with held | held
  · obtain ⟨number,same,inside⟩ := held
    exact ⟨number,same,contains_left inside⟩
  · obtain ⟨number,same,inside⟩ := held
    exact ⟨number,same,contains_right inside⟩

theorem holds_singleton {number : Int} : (singleton number).Holds (.int number) := ⟨number,rfl,contains_singleton.mpr rfl⟩

end IntRange

namespace BoolDomain

theorem join_assoc (a b c : BoolDomain) : (a.join b).join c = a.join (b.join c) := by
  simp [join, Bool.or_assoc]

theorem join_comm (a b : BoolDomain) : a.join b = b.join a := by
  simp [join, Bool.or_comm]

@[simp] theorem join_self (a : BoolDomain) : a.join a = a := by
  simp [join]

@[simp] theorem join_right (a b : BoolDomain) : (a.join b).join b = a.join b := by
  rw [join_assoc, join_self]

@[simp] theorem join_left (a b : BoolDomain) : (a.join b).join a = a.join b := by
  rw [join_comm a b, join_right]

theorem holds_join {left right : BoolDomain} {value : ConcreteValue} (either : left.Holds value ∨ right.Holds value) :
    (left.join right).Holds value := by
  simp only [Holds, join, Bool.or_eq_true] at either ⊢
  tauto

theorem holds_singleton {flag : Bool} : (singleton flag).Holds (.bool flag) := by
  cases flag
  · exact .inr ⟨rfl,rfl⟩
  · exact .inl ⟨rfl,rfl⟩

end BoolDomain

theorem Nullness.holds_join {left right : Nullness} {value : ConcreteValue} (either : left.Holds value ∨ right.Holds value) :
    (left.join right).Holds value := by
  cases left <;> cases right <;> simp_all [Nullness.join, Nullness.Holds]

theorem lengthRange_contains (string : OwnedString) : (AbstractValue.lengthRange string).contains string.len = true := by
  have short : (string.len : Int) ≤ i64Max := string.fits
  rw [AbstractValue.lengthRange, if_pos short, IntRange.contains_singleton]

namespace AbstractValue
variable {typed : TypeId → ConcreteValue → Prop} {value : ConcreteValue}
variable {values : List AbstractValue} {a : AbstractValue}

theorem denotesAny_iff :
    DenotesAny typed values value ↔ ∃ member ∈ values, Denotes typed member value := by
  induction values with
  | nil => simp [DenotesAny]
  | cons first rest ih => simp [DenotesAny, ih]

theorem denotes_withNull : Denotes typed a.withNull value ↔ Denotes typed a value ∨ value = .null := by
  cases a <;> simp [withNull, Denotes]

theorem mem_pushValue {b : AbstractValue} : a ∈ pushValue values b ↔ a ∈ values ∨ a = b := by
  unfold pushValue
  split
  · next member => exact ⟨.inl,fun either => either.elim id fun same => same ▸ member⟩
  · simp

theorem mem_pushAll {others : List AbstractValue} :
    a ∈ others.foldl pushValue values ↔ a ∈ values ∨ a ∈ others := by
  induction others generalizing values with
  | nil => simp
  | cons first rest ih => rw [List.foldl_cons, ih, mem_pushValue, List.mem_cons, or_assoc]

theorem denotes_widenSet {member : AbstractValue} (among : member ∈ values)
    (held : Denotes typed member value) : Denotes typed (widenSet values) value := by
  unfold widenSet
  split
  · trivial
  · exact denotesAny_iff.mpr ⟨member,among,held⟩

theorem holds_constInt {number : Int} (held : Denotes typed (.constInt number) value) :
    (IntRange.singleton number).Holds value := by
  rw [show value = .int number from held]
  exact IntRange.holds_singleton

theorem holds_constBool {flag : Bool} (held : Denotes typed (.constBool flag) value) :
    (BoolDomain.singleton flag).Holds value := by
  rw [show value = .bool flag from held]
  exact BoolDomain.holds_singleton

theorem denotes_constString {string : OwnedString} (held : Denotes typed (.constString string) value) :
    Denotes typed (.stringWithLength (lengthRange string)) value :=
  ⟨string,held,lengthRange_contains string⟩

theorem denotes_stringWithLength {left right : IntRange}
    (either : Denotes typed (.stringWithLength left) value ∨ Denotes typed (.stringWithLength right) value) :
    Denotes typed (.stringWithLength (left.join right)) value := by
  rcases either with held | held
  · obtain ⟨string,same,inside⟩ := held
    exact ⟨string,same,IntRange.contains_left inside⟩
  · obtain ⟨string,same,inside⟩ := held
    exact ⟨string,same,IntRange.contains_right inside⟩

theorem denotes_union {left right : AbstractValue}
    (first : Denotes typed left value → ∃ member ∈ values, Denotes typed member value)
    (second : Denotes typed right value → ∃ member ∈ values, Denotes typed member value)
    (either : Denotes typed left value ∨ Denotes typed right value) : Denotes typed (widenSet values) value := by
  obtain ⟨member,among,held⟩ := either.elim first second
  exact denotes_widenSet among held

theorem denotes_join (left right : AbstractValue) (either : Denotes typed left value ∨ Denotes typed right value) :
    Denotes typed (left.join right) value := by
  fun_induction join left right with
  | case1 => exact either.elim id id
  | case2 | case3 => trivial
  | case4 => exact IntRange.holds_join (either.imp holds_constInt holds_constInt)
  | case5 => exact IntRange.holds_join (either.symm.imp_right holds_constInt)
  | case6 => exact IntRange.holds_join (either.imp_right holds_constInt)
  | case7 => exact IntRange.holds_join either
  | case8 => exact BoolDomain.holds_join (either.imp holds_constBool holds_constBool)
  | case9 => exact BoolDomain.holds_join (either.symm.imp_right holds_constBool)
  | case10 => exact BoolDomain.holds_join (either.imp_right holds_constBool)
  | case11 => exact BoolDomain.holds_join either
  | case12 => exact denotes_stringWithLength (either.imp_left denotes_constString)
  | case13 => exact denotes_stringWithLength (either.symm.imp_left denotes_constString)
  | case14 => exact denotes_stringWithLength either
  | case15 => exact denotes_withNull.mpr either.symm
  | case16 => exact denotes_withNull.mpr either
  | case17 _ _ _ ih | case18 _ _ _ _ _ _ ih | case19 _ _ _ _ _ _ ih =>
    simp only [Denotes] at either ⊢
    tauto
  | case20 left right =>
    refine denotes_union (fun held => ?_) (fun held => ?_) either
    · obtain ⟨member,among,held⟩ := denotesAny_iff.mp held
      exact ⟨member,mem_pushAll.mpr (.inl among),held⟩
    · obtain ⟨member,among,held⟩ := denotesAny_iff.mp held
      exact ⟨member,mem_pushAll.mpr (.inr among),held⟩
  | case21 values other =>
    refine denotes_union (fun held => ?_) (fun held => ⟨other,mem_pushValue.mpr (.inr rfl),held⟩) either
    obtain ⟨member,among,held⟩ := denotesAny_iff.mp held
    exact ⟨member,mem_pushValue.mpr (.inl among),held⟩
  | case22 other values =>
    refine denotes_union (fun held => ⟨other,mem_pushValue.mpr (.inr rfl),held⟩) (fun held => ?_) either
    obtain ⟨member,among,held⟩ := denotesAny_iff.mp held
    exact ⟨member,mem_pushValue.mpr (.inl among),held⟩
  | case23 left right =>
    refine denotesAny_iff.mpr ?_
    rcases either with held | held
    · exact ⟨left,List.mem_cons_self,held⟩
    · exact ⟨right,List.mem_cons_of_mem _ List.mem_cons_self,held⟩

section absorption
variable {a b : AbstractValue}
variable {values : List AbstractValue}

@[simp] theorem join_same (a : AbstractValue) : a.join a = a := by
  rw [join.eq_def, if_pos rfl]

@[simp] theorem unknown_join (b : AbstractValue) : unknown.join b = unknown := by
  rw [join.eq_def]
  split <;> rfl

@[simp] theorem intRange_join (left right : IntRange) : (intRange left).join (intRange right) = intRange (left.join right) := by
  rw [join.eq_def]
  split
  · next same => rw [AbstractValue.intRange.inj same, IntRange.join_self]
  · rfl

@[simp] theorem intRange_join_constInt (range : IntRange) (number : Int) :
    (intRange range).join (constInt number) = intRange (range.join (.singleton number)) := by
  rw [join.eq_def, if_neg nofun]

@[simp] theorem bool_join (left right : BoolDomain) : (bool left).join (bool right) = bool (left.join right) := by
  rw [join.eq_def]
  split
  · next same => rw [AbstractValue.bool.inj same, BoolDomain.join_self]
  · rfl

@[simp] theorem bool_join_constBool (domain : BoolDomain) (flag : Bool) :
    (bool domain).join (constBool flag) = bool (domain.join (.singleton flag)) := by
  rw [join.eq_def, if_neg nofun]

@[simp] theorem stringWithLength_join (left right : IntRange) :
    (stringWithLength left).join (stringWithLength right) = stringWithLength (left.join right) := by
  rw [join.eq_def]
  split
  · next same => rw [AbstractValue.stringWithLength.inj same, IntRange.join_self]
  · rfl

@[simp] theorem stringWithLength_join_constString (range : IntRange) (string : OwnedString) :
    (stringWithLength range).join (constString string) = stringWithLength ((lengthRange string).join range) := by
  rw [join.eq_def, if_neg nofun]

@[simp] theorem nullable_join_null : (nullable a).join null = nullable a := by
  rw [join.eq_def, if_neg nofun]
  rfl

@[simp] theorem nullable_join_nullable : (nullable a).join (nullable b) = nullable (a.join b) := by
  rw [join.eq_def]
  split
  · next same => rw [AbstractValue.nullable.inj same, join_same]
  · rfl

structure Plain (a : AbstractValue) : Prop where
  known : a ≠ unknown
  present : a ≠ null
  bare : ∀ inner, a ≠ nullable inner

theorem nullable_join (plain : b.Plain) : (nullable a).join b = nullable (a.join b) := by
  obtain ⟨known,present,bare⟩ := plain
  rw [join.eq_def, if_neg (bare a).symm]
  cases b <;> simp_all

theorem set_join_set {others : List AbstractValue} (among : ∀ other ∈ others, other ∈ values)
    (small : values.length ≤ setWidenThreshold) : (set values).join (set others) = set values := by
  have kept : others.foldl pushValue values = values := by
    induction others with
    | nil => rfl
    | cons first rest ih =>
      rw [List.foldl_cons, pushValue, if_pos (among first List.mem_cons_self)]
      exact ih fun other member => among other (List.mem_cons_of_mem _ member)
  rw [join.eq_def]
  split
  · rfl
  · dsimp only
    rw [kept, widenSet, if_neg (Nat.not_lt.mpr small)]

theorem set_join (plain : b.Plain) (single : ∀ others, b ≠ set others) (among : b ∈ values)
    (small : values.length ≤ setWidenThreshold) : (set values).join b = set values := by
  have kept : widenSet (pushValue values b) = set values := by
    rw [pushValue, if_pos among, widenSet, if_neg (Nat.not_lt.mpr small)]
  obtain ⟨known,present,bare⟩ := plain
  rw [join.eq_def, if_neg (single values).symm]
  cases b <;> simp_all

theorem widenSet_join
    (absorbed : values.length ≤ setWidenThreshold → (set values).join b = set values) :
    (widenSet values).join b = widenSet values := by
  unfold widenSet
  split
  · exact unknown_join b
  · next small => exact absorbed (Nat.not_lt.mp small)

theorem nullable_self (plain : a.Plain) : (nullable a).join a = nullable a ∧ (nullable a).join null = nullable a := by
  rw [nullable_join plain, join_same]
  exact ⟨rfl,nullable_join_null⟩

theorem withNull_join (a : AbstractValue) : a.withNull.join a = a.withNull ∧ a.withNull.join null = a.withNull := by
  cases a with
  | unknown => exact ⟨unknown_join _,unknown_join _⟩
  | null | nullable => simp [withNull]
  | _ => exact nullable_self ⟨nofun,nofun,nofun⟩

theorem join_absorbs (left right : AbstractValue) :
    (left.join right).join right = left.join right ∧ (left.join right).join left = left.join right := by
  fun_induction join left right with
  | case1 => exact ⟨join_same _,join_same _⟩
  | case2 | case3 => exact ⟨unknown_join _,unknown_join _⟩
  | case15 value => exact withNull_join value
  | case16 value => exact (withNull_join value).symm
  | case17 left right _ ih => exact ⟨by rw [nullable_join_nullable, ih.1],by rw [nullable_join_nullable, ih.2]⟩
  | case18 left value known present bare _ ih =>
    exact ⟨by rw [nullable_join ⟨known,present,bare⟩, ih.1],by rw [nullable_join_nullable, ih.2]⟩
  | case19 value left known present bare _ ih =>
    exact ⟨by rw [nullable_join_nullable, ih.2],by rw [nullable_join ⟨known,present,bare⟩, ih.1]⟩
  | case20 left right =>
    exact ⟨widenSet_join (set_join_set fun _ member => mem_pushAll.mpr (.inr member)),
      widenSet_join (set_join_set fun _ member => mem_pushAll.mpr (.inl member))⟩
  | case21 values other known present bare single =>
    exact ⟨widenSet_join (set_join ⟨known,present,bare⟩ single (mem_pushValue.mpr (.inr rfl))),
      widenSet_join (set_join_set fun _ member => mem_pushValue.mpr (.inl member))⟩
  | case22 other values known present bare single =>
    exact ⟨widenSet_join (set_join_set fun _ member => mem_pushValue.mpr (.inl member)),
      widenSet_join (set_join ⟨known,present,bare⟩ single (mem_pushValue.mpr (.inr rfl)))⟩
  | case23 left right =>
    have small : [left,right].length ≤ setWidenThreshold := by simp [setWidenThreshold]
    rename_i unknownLeft unknownRight _ _ _ _ _ _ _ _ _ _ _ nullLeft nullRight _ bareLeft bareRight _ singleLeft singleRight _
    exact ⟨set_join ⟨unknownRight,nullRight,bareRight⟩ singleRight (List.mem_cons_of_mem _ List.mem_cons_self) small,
      set_join ⟨unknownLeft,nullLeft,bareLeft⟩ singleLeft List.mem_cons_self small⟩
  | _ => simp

end absorption

theorem holds_foldJoin {first : Nullness} {rest : List Nullness}
    (either : first.Holds value ∨ ∃ nullness ∈ rest, nullness.Holds value) : (rest.foldl Nullness.join first).Holds value := by
  induction rest generalizing first with
  | nil => exact either.resolve_right (by simp)
  | cons next rest ih =>
    apply ih
    rcases either with held | ⟨other,member,held⟩
    · exact .inl (Nullness.holds_join (.inl held))
    · rcases List.mem_cons.mp member with same | later
      · exact .inl (Nullness.holds_join (.inr (same ▸ held)))
      · exact .inr ⟨other,later,held⟩

mutual

theorem holds_nullness : (a : AbstractValue) → Denotes typed a value → a.nullness.Holds value
  | .unknown, _ => trivial
  | .null, held => held
  | .nullable _, _ => trivial
  | .set values, held => by
    obtain ⟨nullness,member,held⟩ := holds_nullnesses values held
    rw [AbstractValue.nullness]
    split
    · trivial
    · next first rest split =>
      rw [split, List.mem_cons] at member
      apply holds_foldJoin
      rcases member with same | later
      · rw [← same]
        exact .inl held
      · exact .inr ⟨nullness,later,held⟩
  | .constInt _, held | .constBool _, held | .constString _, held => by
    rw [show value = _ from held]
    nofun
  | .intRange _, held => by
    obtain ⟨number,same,_⟩ := held
    rw [same]
    nofun
  | .bool _, held => by
    rcases held with ⟨same,_⟩ | ⟨same,_⟩ <;> rw [same] <;> nofun
  | .stringWithLength _, held => by
    obtain ⟨string,same,_⟩ := held
    rw [same]
    nofun
  | .object _, held => by
    obtain ⟨identity,same⟩ := held
    rw [same]
    nofun
  | .top _, held => held.2

theorem holds_nullnesses : (values : List AbstractValue) → DenotesAny typed values value →
    ∃ nullness ∈ nullnesses values, nullness.Holds value
  | first :: rest, held => by
    rcases held with held | held
    · exact ⟨first.nullness,List.mem_cons_self,holds_nullness first held⟩
    · obtain ⟨nullness,member,held⟩ := holds_nullnesses rest held
      exact ⟨nullness,List.mem_cons_of_mem _ member,held⟩

end

end AbstractValue

end BonsaiNinja.AbstractInterp
