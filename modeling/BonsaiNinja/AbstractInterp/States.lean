import BonsaiNinja.AbstractInterp.Values
import BonsaiNinja.Cfg.Builder
import Mathlib.Data.List.AList

namespace BonsaiNinja.AbstractInterp
open Cfg (BasicBlockId)
export Idg (FuncId)

structure Constraint where
  text : String
  deriving DecidableEq, Repr

inductive RelationOp where
  | eq | notEq | lt | le | gt | ge
  deriving DecidableEq, Repr

inductive RelationTerm where
  | var (name : Text)
  | int (value : Int)
  | bool (value : Bool)
  | null
  deriving DecidableEq, Repr

structure ValueRelation where
  left : Text
  op : RelationOp
  right : RelationTerm
  deriving DecidableEq, Repr

structure Frame where
  caller : FuncId
  returnBb : BasicBlockId
  deriving DecidableEq, Repr

abbrev Locals := AList fun _ : Text => AbstractValue

structure ExecState where
  locals : Locals
  pathConstraints : List Constraint
  relations : List ValueRelation
  callStack : List Frame
  currentFunc : FuncId
  currentBb : BasicBlockId

namespace ExecState

def new (func : FuncId) (entry : BasicBlockId) : ExecState := ⟨∅,[],[],[],func,entry⟩

-- A constant of one predecessor alone does not survive.
def forgetMissing (locals others : Locals) : Locals × Bool :=
  let missing (name : Text) (value : AbstractValue) : Bool := (others.lookup name).isNone && value ≠ .unknown
  (⟨locals.entries.map (.map id fun name value => if missing name value then .unknown else value),
      locals.nodupKeys.map₂ fun name value => if missing name value then .unknown else value⟩,
    locals.entries.any fun entry => missing entry.1 entry.2)

def joinLocal (merge : Locals × Bool) (incoming : (_ : Text) × AbstractValue) : Locals × Bool :=
  match merge.1.lookup incoming.1 with
  | some existing =>
    let joined := existing.join incoming.2
    if existing = joined then merge else (merge.1.insert incoming.1 joined,true)
  | none => (merge.1.insert incoming.1 .unknown,true)

def mergeFrom (state other : ExecState) : ExecState × Bool :=
  let (locals,changed) := other.locals.entries.foldl joinLocal (forgetMissing state.locals other.locals)
  let pathConstraints := state.pathConstraints.filter (· ∈ other.pathConstraints)
  let relations := state.relations.filter (· ∈ other.relations)
  ({state with locals, pathConstraints, relations},
    changed || pathConstraints.length != state.pathConstraints.length || relations.length != state.relations.length)

def assumeRelation (state : ExecState) (relation : ValueRelation) : ExecState :=
  if relation ∈ state.relations then state else {state with relations := state.relations ++ [relation]}

end ExecState

def joinFact : Option AbstractValue → Option AbstractValue → Option AbstractValue
  | some existing, some incoming => some (existing.join incoming)
  | none, none => none
  | _, _ => some .unknown

namespace ExecState
variable {state other : ExecState}

theorem lookup_forgetMissing {locals others : Locals} {name : Text} : (forgetMissing locals others).1.lookup name =
    if (others.lookup name).isNone then (locals.lookup name).map fun _ => .unknown else locals.lookup name := by
  have read : (forgetMissing locals others).1.lookup name = (locals.lookup name).map fun value =>
      if (others.lookup name).isNone && decide (value ≠ .unknown) then .unknown else value :=
    List.dlookup_map₂ name
  rw [read]
  cases locals.lookup name with
  | none => simp
  | some value => cases (others.lookup name).isNone <;> by_cases same : value = .unknown <;> simp [same]

theorem forgetMissing_changed {locals others : Locals} : (forgetMissing locals others).2 = true ↔
    ∃ name, (forgetMissing locals others).1.lookup name ≠ locals.lookup name := by
  have flag : (forgetMissing locals others).2 = true ↔
      ∃ name value, locals.lookup name = some value ∧ others.lookup name = none ∧ value ≠ .unknown := by
    simp only [forgetMissing, List.any_eq_true, Bool.and_eq_true, decide_eq_true_eq, Option.isNone_iff_eq_none]
    constructor
    · intro found
      obtain ⟨⟨name,value⟩,member,missing⟩ := found
      exact ⟨name,value,AList.mem_lookup_iff.mpr member,missing⟩
    · intro found
      obtain ⟨name,value,held,missing⟩ := found
      exact ⟨⟨name,value⟩,AList.mem_lookup_iff.mp held,missing⟩
  rw [flag]
  refine exists_congr fun name => ?_
  rw [lookup_forgetMissing]
  cases others.lookup name <;> cases locals.lookup name <;> simp [eq_comm]

def enterFact (existing : Option AbstractValue) (incoming : AbstractValue) : AbstractValue :=
  match existing with
  | some existing => existing.join incoming
  | none => .unknown

theorem lookup_joinLocal {merge : Locals × Bool} {incoming : (_ : Text) × AbstractValue} {name : Text} :
    (joinLocal merge incoming).1.lookup name =
      if name = incoming.1 then some (enterFact (merge.1.lookup incoming.1) incoming.2) else merge.1.lookup name := by
  unfold joinLocal
  cases held : merge.1.lookup incoming.1 with
  | none =>
    by_cases own : name = incoming.1
    · rw [own, if_pos rfl, AList.lookup_insert, enterFact]
    · rw [if_neg own, AList.lookup_insert_ne own]
  | some existing =>
    dsimp only [enterFact]
    by_cases own : name = incoming.1
    · rw [own, if_pos rfl]
      split
      · next same => rw [held, ← same]
      · rw [AList.lookup_insert]
    · rw [if_neg own]
      split
      · rfl
      · rw [AList.lookup_insert_ne own]

theorem joinLocal_changed {merge : Locals × Bool} {incoming : (_ : Text) × AbstractValue} :
    (joinLocal merge incoming).2 = true ↔
      merge.2 = true ∨ some (enterFact (merge.1.lookup incoming.1) incoming.2) ≠ merge.1.lookup incoming.1 := by
  unfold joinLocal
  cases merge.1.lookup incoming.1 with
  | none => simp [enterFact]
  | some existing =>
    dsimp only [enterFact]
    split
    · next same => simp [← same]
    · next other => simp [Ne.symm other]

theorem lookup_joinLocals (incoming : List ((_ : Text) × AbstractValue)) (distinct : incoming.NodupKeys)
    (merge : Locals × Bool) (name : Text) : (incoming.foldl joinLocal merge).1.lookup name =
      match incoming.dlookup name with
      | some value => some (enterFact (merge.1.lookup name) value)
      | none => merge.1.lookup name := by
  induction incoming generalizing merge with
  | nil => rfl
  | cons first rest ih =>
    obtain ⟨key,value⟩ := first
    obtain ⟨fresh,distinct⟩ := List.nodupKeys_cons.mp distinct
    rw [List.foldl_cons, ih distinct, lookup_joinLocal]
    by_cases own : name = key
    · subst own
      rw [List.dlookup_cons_eq, List.dlookup_eq_none.mpr fresh, if_pos rfl]
    · rw [List.dlookup_cons_ne _ _ own, if_neg own]

theorem joinLocals_changed (incoming : List ((_ : Text) × AbstractValue)) (distinct : incoming.NodupKeys)
    (merge : Locals × Bool) : (incoming.foldl joinLocal merge).2 = true ↔
      merge.2 = true ∨ ∃ name, (incoming.foldl joinLocal merge).1.lookup name ≠ merge.1.lookup name := by
  induction incoming generalizing merge with
  | nil => simp
  | cons first rest ih =>
    obtain ⟨key,value⟩ := first
    obtain ⟨fresh,distinct⟩ := List.nodupKeys_cons.mp distinct
    -- The rest leaves the first name as it is.
    have kept : (rest.foldl joinLocal (joinLocal merge ⟨key,value⟩)).1.lookup key =
        some (enterFact (merge.1.lookup key) value) := by
      rw [lookup_joinLocals rest distinct, List.dlookup_eq_none.mpr fresh, lookup_joinLocal, if_pos rfl]
    rw [List.foldl_cons, ih distinct, joinLocal_changed, or_assoc]
    refine or_congr_right ⟨fun either => ?_,fun differs => ?_⟩
    · rcases either with widened | ⟨name,differs⟩
      · exact ⟨key,by rw [kept]; exact widened⟩
      · refine ⟨name,?_⟩
        by_cases own : name = key
        · subst own
          rw [kept, lookup_joinLocal, if_pos rfl] at differs
          exact absurd rfl differs
        · rw [lookup_joinLocal, if_neg own] at differs
          exact differs
    · obtain ⟨name,differs⟩ := differs
      by_cases own : name = key
      · subst own
        rw [kept] at differs
        exact .inl differs
      · refine .inr ⟨name,?_⟩
        rw [lookup_joinLocal, if_neg own]
        exact differs

theorem lookup_mergeFrom (name : Text) : (state.mergeFrom other).1.locals.lookup name =
    joinFact (state.locals.lookup name) (other.locals.lookup name) := by
  have read : (state.mergeFrom other).1.locals.lookup name = _ :=
    lookup_joinLocals other.locals.entries other.locals.nodupKeys (forgetMissing state.locals other.locals) name
  rw [read, lookup_forgetMissing, show other.locals.entries.dlookup name = other.locals.lookup name from rfl]
  cases other.locals.lookup name <;> cases state.locals.lookup name <;> rfl

structure Agrees (state other : ExecState) : Prop where
  locals : ∀ name, state.locals.lookup name = other.locals.lookup name
  pathConstraints : state.pathConstraints = other.pathConstraints
  relations : state.relations = other.relations
  callStack : state.callStack = other.callStack
  currentFunc : state.currentFunc = other.currentFunc
  currentBb : state.currentBb = other.currentBb

theorem localsMerge_changed : (other.locals.entries.foldl joinLocal (forgetMissing state.locals other.locals)).2 = true ↔
    ∃ name, (state.mergeFrom other).1.locals.lookup name ≠ state.locals.lookup name := by
  rw [joinLocals_changed _ other.locals.nodupKeys, forgetMissing_changed, ← exists_or]
  refine exists_congr fun name => ?_
  have final : (other.locals.entries.foldl joinLocal (forgetMissing state.locals other.locals)).1.lookup name =
    joinFact (state.locals.lookup name) (other.locals.lookup name) := lookup_mergeFrom name
  rw [final, lookup_mergeFrom, lookup_forgetMissing]
  cases other.locals.lookup name <;> cases state.locals.lookup name <;> simp [joinFact]

theorem filter_shorter [DecidableEq α] {rows others : List α} :
    ((rows.filter (· ∈ others)).length != rows.length) = true ↔ rows.filter (· ∈ others) ≠ rows := by
  rw [bne_iff_ne, Ne, Ne, List.length_filter_eq_length_iff, List.filter_eq_self]

theorem mergeFrom_changed : (state.mergeFrom other).2 = true ↔ ¬(state.mergeFrom other).1.Agrees state := by
  have flag : (state.mergeFrom other).2 = true ↔
      (∃ name, (state.mergeFrom other).1.locals.lookup name ≠ state.locals.lookup name) ∨
        (state.mergeFrom other).1.pathConstraints ≠ state.pathConstraints ∨
        (state.mergeFrom other).1.relations ≠ state.relations := by
    rw [← localsMerge_changed]
    show (_ || _ || _) = true ↔ _
    rw [Bool.or_eq_true, Bool.or_eq_true, filter_shorter, filter_shorter, or_assoc]
    rfl
  rw [flag]
  constructor
  · intro differs agrees
    rcases differs with ⟨name,differs⟩ | differs | differs
    · exact differs (agrees.locals name)
    · exact differs agrees.pathConstraints
    · exact differs agrees.relations
  · intro apart
    by_contra same
    simp only [not_or, not_exists, not_not] at same
    exact apart ⟨same.1,same.2.1,same.2.2,rfl,rfl,rfl⟩

theorem joinFact_absorbs (existing incoming : Option AbstractValue) :
    joinFact (joinFact existing incoming) incoming = joinFact existing incoming := by
  cases existing <;> cases incoming <;> simp [joinFact, (AbstractValue.join_absorbs _ _).1]

theorem mergeFrom_again : ((state.mergeFrom other).1.mergeFrom other).2 = false := by
  rw [← Bool.not_eq_true, mergeFrom_changed, not_not]
  refine ⟨fun name => ?_,?_,?_,rfl,rfl,rfl⟩
  · rw [lookup_mergeFrom, lookup_mergeFrom, joinFact_absorbs]
  · exact List.filter_eq_self.mpr fun constraint member => (List.mem_filter.mp member).2
  · exact List.filter_eq_self.mpr fun relation member => (List.mem_filter.mp member).2

section facts
variable (typed : TypeId → ConcreteValue → Prop)

def MayHold (state : ExecState) (name : Text) (value : ConcreteValue) : Prop :=
  ∀ fact, state.locals.lookup name = some fact → Denotes typed fact value

variable {typed}

theorem mayHold_mergeFrom {name : Text} {value : ConcreteValue}
    (either : state.MayHold typed name value ∨ other.MayHold typed name value) :
    (state.mergeFrom other).1.MayHold typed name value := by
  unfold MayHold at either ⊢
  rw [lookup_mergeFrom]
  intro fact joined
  cases existing : state.locals.lookup name <;> cases incoming : other.locals.lookup name <;>
    rw [existing, incoming] at joined <;> cases joined
  · trivial
  · trivial
  · exact AbstractValue.denotes_join _ _ (either.imp (fun held => held _ existing) fun held => held _ incoming)

end facts

structure Merges (typed : TypeId → ConcreteValue → Prop) (state other : ExecState) : Prop where
  facts : ∀ name value, state.MayHold typed name value ∨ other.MayHold typed name value →
    (state.mergeFrom other).1.MayHold typed name value
  constraints : ∀ constraint ∈ (state.mergeFrom other).1.pathConstraints,
    constraint ∈ state.pathConstraints ∧ constraint ∈ other.pathConstraints
  relations : ∀ relation ∈ (state.mergeFrom other).1.relations, relation ∈ state.relations ∧ relation ∈ other.relations
  changed : (state.mergeFrom other).2 = true ↔ ¬(state.mergeFrom other).1.Agrees state
  again : ((state.mergeFrom other).1.mergeFrom other).2 = false

theorem merges (typed : TypeId → ConcreteValue → Prop) (state other : ExecState) : Merges typed state other where
  facts _ _ := mayHold_mergeFrom
  constraints _ member := (List.mem_filter.mp member).imp_right of_decide_eq_true
  relations _ member := (List.mem_filter.mp member).imp_right of_decide_eq_true
  changed := mergeFrom_changed
  again := mergeFrom_again

end ExecState

structure JoinSound (typed : TypeId → ConcreteValue → Prop) : Prop where
  upper : ∀ a b value, Denotes typed a value ∨ Denotes typed b value → Denotes typed (a.join b) value
  absorbs : ∀ a b : AbstractValue, (a.join b).join b = a.join b
  withNull : ∀ a value, Denotes typed a.withNull value ↔ Denotes typed a value ∨ value = .null
  ranges : ∀ (a b : IntRange) value, a.Holds value ∨ b.Holds value → (a.join b).Holds value
  flags : ∀ (a b : BoolDomain) value, a.Holds value ∨ b.Holds value → (a.join b).Holds value
  nullness : ∀ a value, Denotes typed a value → a.nullness.Holds value
  nullnesses : ∀ (a b : Nullness) value, a.Holds value ∨ b.Holds value → (a.join b).Holds value
  merges : ∀ state other : ExecState, state.Merges typed other

theorem abstract_join_sound (typed : TypeId → ConcreteValue → Prop) : JoinSound typed where
  upper a b _ := AbstractValue.denotes_join a b
  absorbs a b := (AbstractValue.join_absorbs a b).1
  withNull _ _ := AbstractValue.denotes_withNull
  ranges _ _ _ := IntRange.holds_join
  flags _ _ _ := BoolDomain.holds_join
  nullness a _ := AbstractValue.holds_nullness a
  nullnesses _ _ _ := Nullness.holds_join
  merges := ExecState.merges typed

end BonsaiNinja.AbstractInterp
