import Mathlib.Logic.Function.Basic

namespace BonsaiNinja.Library

-- A computation that answers its questions through a table shared with others: a
-- question that is not in the table is computed and stored.
inductive Memo {κ : Type} (β : κ → Type) : Type → Type 1 where
  | done {α : Type} (value : α) : Memo β α
  | ask {α : Type} (key : κ) (miss : Memo β (β key)) (next : β key → Memo β α) : Memo β α

namespace Memo
variable {κ : Type} {β : κ → Type}

abbrev Table (β : κ → Type) := ∀ key, Option (β key)

def empty : Table β := fun _ => none

def bind {α γ : Type} : Memo β α → (α → Memo β γ) → Memo β γ
  | .done value, next => next value
  | .ask key miss more, next => .ask key miss fun answer => (more answer).bind next

instance : Monad (Memo β) where
  pure := .done
  bind := .bind

def lookup (key : κ) (miss : Memo β (β key)) : Memo β (β key) := .ask key miss .done

def run [DecidableEq κ] {α : Type} : Memo β α → Table β → α × Table β
  | .done value, table => (value,table)
  | .ask key miss next, table =>
    match table key with
    | some answer => (next answer).run table
    | none =>
      let (answer,table) := miss.run table
      (next answer).run (Function.update table key (some answer))

def plain {α : Type} : Memo β α → α
  | .done value => value
  | .ask _ miss next => (next miss.plain).plain

-- The questions of the computation without a table, each with its own answer.
inductive Asks : {α : Type} → Memo β α → (key : κ) → β key → Prop
  | here {α : Type} {key : κ} {miss : Memo β (β key)} {next : β key → Memo β α} : Asks (.ask key miss next) key miss.plain
  | inside {α : Type} {key other : κ} {miss : Memo β (β key)} {next : β key → Memo β α} {answer : β other} :
    Asks miss other answer → Asks (.ask key miss next) other answer
  | later {α : Type} {key other : κ} {miss : Memo β (β key)} {next : β key → Memo β α} {answer : β other} :
    Asks (next miss.plain) other answer → Asks (.ask key miss next) other answer

def asked {α : Type} : Memo β α → List ((key : κ) × β key)
  | .done _ => []
  | .ask key miss next => ⟨key,miss.plain⟩ :: (miss.asked ++ (next miss.plain).asked)

theorem Asks.mem_asked {α : Type} {program : Memo β α} {key : κ} {answer : β key} (asks : program.Asks key answer) :
    ⟨key,answer⟩ ∈ program.asked := by
  induction asks with
  | here => exact List.mem_cons_self
  | inside _ ih => exact List.mem_cons_of_mem _ (List.mem_append_left _ ih)
  | later _ ih => exact List.mem_cons_of_mem _ (List.mem_append_right _ ih)

theorem not_asks_pure {α : Type} {value : α} {key : κ} {answer : β key} : ¬(pure value : Memo β α).Asks key answer := nofun

theorem asks_lookup {key other : κ} {value : β key} {answer : β other} (asked : (lookup key (pure value)).Asks other answer) :
    ∃ same : other = key, same ▸ answer = value := by
  cases asked with
  | here => exact ⟨rfl,rfl⟩
  | inside asked => exact absurd asked not_asks_pure
  | later asked => exact absurd asked not_asks_pure

theorem asks_bind {α γ : Type} {first : Memo β α} {next : α → Memo β γ} {key : κ} {answer : β key}
    (asked : (first >>= next).Asks key answer) : first.Asks key answer ∨ (next first.plain).Asks key answer := by
  induction first with
  | done value => exact .inr asked
  | ask own miss more _ ih =>
    change (Memo.ask own miss fun value => more value >>= next).Asks key answer at asked
    cases asked with
    | here => exact .inl .here
    | inside asked => exact .inl (.inside asked)
    | later asked => exact (ih _ asked).imp .later id

def Yields {α : Type} (holds : α → Prop) : Memo β α → Prop
  | .done value => holds value
  | .ask _ _ next => ∀ answer, (next answer).Yields holds

theorem yields_pure {α : Type} {holds : α → Prop} {value : α} (held : holds value) : (pure value : Memo β α).Yields holds := held

theorem yields_bind {α γ : Type} {first : Memo β α} {next : α → Memo β γ} {given : α → Prop} {holds : γ → Prop}
    (start : first.Yields given) (more : ∀ value, given value → (next value).Yields holds) : (first >>= next).Yields holds := by
  induction first with
  | done value => exact more value start
  | ask key miss answers _ ih => exact fun answer => ih answer (start answer) more

theorem yields_any {α : Type} (program : Memo β α) : program.Yields fun _ => True := by
  induction program with
  | done _ => trivial
  | ask _ _ _ _ ih => exact ih

theorem Yields.run [DecidableEq κ] {α : Type} {holds : α → Prop} {program : Memo β α} (yields : program.Yields holds)
    (table : Table β) : holds (program.run table).1 := by
  induction program generalizing table with
  | done value => exact yields
  | ask key miss next _ ih =>
    simp only [Memo.run]
    split
    · exact ih _ (yields _) table
    · exact ih _ (yields _) _

theorem Yields.plain {α : Type} {holds : α → Prop} {program : Memo β α} (yields : program.Yields holds) : holds program.plain := by
  induction program with
  | done value => exact yields
  | ask key miss next _ ih => exact ih _ (yields _)

variable {known : ∀ key, β key → Prop}

def Within (table : Table β) (known : ∀ key, β key → Prop) : Prop := ∀ key answer, table key = some answer → known key answer

theorem empty_within : Within empty known := fun _ _ found => by cases found

theorem plain_bind {α γ : Type} (first : Memo β α) (next : α → Memo β γ) : (first >>= next).plain = (next first.plain).plain := by
  induction first with
  | done value => rfl
  | ask key miss more _ ih => exact ih _ next

-- Where all questions that may meet in the table have one answer each, the table
-- changes nothing.
theorem run_plain [DecidableEq κ] (agree : ∀ key left right, known key left → known key right → left = right)
    {α : Type} (program : Memo β α) : ∀ table, (∀ key answer, program.Asks key answer → known key answer) →
      Within table known → (program.run table).1 = program.plain ∧ Within (program.run table).2 known := by
  induction program with
  | done value => exact fun _ _ within => ⟨rfl,within⟩
  | ask key miss next missed later =>
    intro table asks within
    have own := asks key _ .here
    cases found : table key with
    | some answer =>
      have same := agree key _ _ (within key answer found) own
      simp only [run, plain, found, same]
      exact later _ table (fun other held asked => asks other held (.later asked)) within
    | none =>
      obtain ⟨same,kept⟩ := missed table (fun other held asked => asks other held (.inside asked)) within
      simp only [run, plain, found, same]
      apply later _ _ fun other held asked => asks other held (.later asked)
      intro other held stored
      by_cases here : other = key
      · subst here
        rw [Function.update_self] at stored
        exact Option.some.inj stored ▸ own
      · rw [Function.update_of_ne here] at stored
        exact kept other held stored

end Memo
end BonsaiNinja.Library
