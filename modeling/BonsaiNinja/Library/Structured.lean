import Mathlib.Tactic.TypeStar

namespace BonsaiNinja.Library

-- How a structured statement ends: it falls through, it leaves every statement
-- around it, or it addresses the n-th loop around it.
inductive Outcome where
  | normal
  | exit
  | break (loop : Nat)
  | continue (loop : Nat)
  deriving DecidableEq, Repr

-- The loops that a statement addresses are among the innermost ones.
def Outcome.Within (inner : Nat) : Outcome → Prop
  | .break loop | .continue loop => loop < inner
  | _ => True

-- The traces of a statement, each with its outcome.
abbrev Behaviour (ε : Type*) := List ε → Outcome → Prop

namespace Behaviour
variable {ε : Type*}

def skip : Behaviour ε := fun trace outcome => trace = [] ∧ outcome = .normal

def leave (event : ε) (outcome : Outcome) : Behaviour ε := fun trace found => trace = [event] ∧ found = outcome

def emit (event : ε) : Behaviour ε := leave event .normal

def andThen (first next : Behaviour ε) : Behaviour ε := fun trace outcome =>
  first trace outcome ∧ outcome ≠ .normal ∨
    ∃ before after, trace = before ++ after ∧ first before .normal ∧ next after outcome

def either (left right : Behaviour ε) : Behaviour ε := fun trace outcome => left trace outcome ∨ right trace outcome

def onlyIf (possible : Bool) (body : Behaviour ε) : Behaviour ε := fun trace outcome => possible = true ∧ body trace outcome

-- The outcome behind a cleanup that itself ends abruptly is the cleanup's.
def settle (body cleanup : Outcome) : Outcome := if cleanup = .normal then body else cleanup

def andFinally (body cleanup : Behaviour ε) : Behaviour ε := fun trace outcome =>
  ∃ before after left last, trace = before ++ after ∧ body before left ∧ cleanup after last ∧ outcome = settle left last

@[simp] theorem onlyIf_true (body : Behaviour ε) : onlyIf true body = body := by
  funext trace outcome
  simp [onlyIf]

@[simp] theorem either_onlyIf_false (left right : Behaviour ε) : left.either (onlyIf false right) = left := by
  funext trace outcome
  simp [either, onlyIf]

end Behaviour

inductive LoopPhase where
  | condition | body | update
  deriving DecidableEq, Repr

structure LoopParts (ε : Type*) where
  condition : Behaviour ε
  body : Behaviour ε
  update : Behaviour ε
  -- Whether the loop may end behind its condition.
  leaves : Bool
  -- The phase that a continue enters.
  resumes : LoopPhase

-- What follows a phase: another phase, or the end of the loop. The condition
-- belongs to the scope around the loop.
def LoopParts.after {ε : Type*} (parts : LoopParts ε) : LoopPhase → Outcome → LoopPhase ⊕ Outcome
  | .condition, .normal => .inl .body
  | .condition, outcome => .inr outcome
  | .body, .normal => .inl .update
  | .update, .normal => .inl .condition
  | _, .exit => .inr .exit
  | _, .break 0 => .inr .normal
  | _, .break (loop + 1) => .inr (.break loop)
  | _, .continue 0 => .inl parts.resumes
  | _, .continue (loop + 1) => .inr (.continue loop)

def LoopParts.phase {ε : Type*} (parts : LoopParts ε) : LoopPhase → Behaviour ε
  | .condition => parts.condition
  | .body => parts.body
  | .update => parts.update

inductive Looping {ε : Type*} (parts : LoopParts ε) : LoopPhase → Behaviour ε
  | leave {trace : List ε} : parts.leaves = true → parts.condition trace .normal → Looping parts .condition trace .normal
  | done {phase : LoopPhase} {trace : List ε} {outcome last : Outcome} : parts.phase phase trace outcome →
    parts.after phase outcome = .inr last → Looping parts phase trace last
  | again {phase next : LoopPhase} {trace later : List ε} {outcome last : Outcome} : parts.phase phase trace outcome →
    parts.after phase outcome = .inl next → Looping parts next later last → Looping parts phase (trace ++ later) last

-- A loop takes the transfers that address it and passes on the others.
theorem Looping.within {ε : Type*} {parts : LoopParts ε} {inner : Nat}
    (condition : ∀ trace outcome, parts.condition trace outcome → outcome.Within inner)
    (body : ∀ trace outcome, parts.body trace outcome → outcome.Within (inner + 1))
    (update : ∀ trace outcome, parts.update trace outcome → outcome.Within (inner + 1)) {phase : LoopPhase} {trace : List ε}
    {outcome : Outcome} (looping : Looping parts phase trace outcome) : outcome.Within inner := by
  have passed : ∀ {phase : LoopPhase} {outcome last : Outcome}, phase ≠ .condition → outcome.Within (inner + 1) →
      parts.after phase outcome = .inr last → last.Within inner := by
    intro phase outcome last inside within ended
    cases phase with
    | condition => exact absurd rfl inside
    | body | update =>
      cases outcome with
      | normal => cases ended
      | exit => cases ended; trivial
      | «break» loop =>
        cases loop with
        | zero => cases ended; trivial
        | succ loop => cases ended; exact Nat.lt_of_succ_lt_succ within
      | «continue» loop =>
        cases loop with
        | zero => cases ended
        | succ loop => cases ended; exact Nat.lt_of_succ_lt_succ within
  induction looping with
  | leave _ _ => trivial
  | @done phase trace outcome last ran ended =>
    cases phase with
    | condition =>
      cases outcome with
      | normal => cases ended
      | exit | «break» _ | «continue» _ => cases ended; exact condition _ _ ran
    | body => exact passed (by decide) (body _ _ ran) ended
    | update => exact passed (by decide) (update _ _ ran) ended
  | again _ _ _ ih => exact ih

end BonsaiNinja.Library
