import Mathlib.Data.List.Basic

namespace BonsaiNinja.Library

-- One region of a text gives way to another that starts at the same place.
structure Replacement where
  start : Nat
  oldEnd : Nat
  newEnd : Nat
  deriving DecidableEq, Repr

namespace Replacement
variable {α : Type u} (edit : Replacement)

structure Turns (old new : List α) : Prop where
  oldOrdered : edit.start ≤ edit.oldEnd ∧ edit.oldEnd ≤ old.length
  newOrdered : edit.start ≤ edit.newEnd ∧ edit.newEnd ≤ new.length
  front : old.take edit.start = new.take edit.start
  back : old.drop edit.oldEnd = new.drop edit.newEnd

def carry (position : Nat) : Option Nat :=
  if position < edit.start then some position
  else if position < edit.oldEnd then none
  else some (position - edit.oldEnd + edit.newEnd)

def reverse : Replacement := ⟨edit.start,edit.newEnd,edit.oldEnd⟩

variable {edit}

theorem Turns.reverse {old new : List α} (turns : edit.Turns old new) : edit.reverse.Turns new old :=
  ⟨turns.newOrdered,turns.oldOrdered,turns.front.symm,turns.back.symm⟩

theorem Turns.carried {old new : List α} (turns : edit.Turns old new) {position moved : Nat}
    (outside : edit.carry position = some moved) : new[moved]? = old[position]? := by
  unfold carry at outside
  split at outside
  · next before =>
    cases outside
    have same := congrArg (fun front => front[position]?) turns.front
    simp only [List.getElem?_take,before,if_true] at same
    exact same.symm
  · split at outside
    · cases outside
    · next behind =>
      cases outside
      have same := congrArg (fun back => back[position - edit.oldEnd]?) turns.back
      simp only [List.getElem?_drop] at same
      rw [Nat.add_sub_cancel' (Nat.le_of_not_lt behind)] at same
      rw [same,Nat.add_comm]

end Replacement

inductive Replays {α : Type u} : List Replacement → List α → List α → Prop
  | done (text : List α) : Replays [] text text
  | apply {edit : Replacement} {rest : List Replacement} {old middle new : List α} (first : edit.Turns old middle)
      (later : Replays rest middle new) : Replays (edit :: rest) old new

namespace Replays
variable {α : Type u} {left right edits : List Replacement} {old middle new : List α}

theorem append (first : Replays left old middle) (later : Replays right middle new) : Replays (left ++ right) old new := by
  induction first with
  | done text => exact later
  | apply turns _ ih => exact .apply turns (ih later)

theorem nil_iff : Replays [] old new ↔ old = new := by
  constructor
  · intro replays
    cases replays
    rfl
  · intro same
    exact same ▸ .done old

theorem singleton_iff {edit : Replacement} : Replays [edit] old new ↔ edit.Turns old new := by
  constructor
  · intro replays
    cases replays with
    | apply first later => exact nil_iff.mp later ▸ first
  · intro turns
    exact .apply turns (.done new)

theorem reverse (replays : Replays edits old new) : Replays (edits.reverse.map Replacement.reverse) new old := by
  induction replays with
  | done text => exact .done text
  | apply turns _ ih =>
    rw [List.reverse_cons,List.map_append]
    exact ih.append (singleton_iff.mpr turns.reverse)

end Replays

def transport (edits : List Replacement) (position : Nat) : Option Nat := edits.foldlM (fun position edit => edit.carry position) position

theorem Replays.carried {α : Type u} {edits : List Replacement} {old new : List α} (replays : Replays edits old new)
    {position moved : Nat} (outside : transport edits position = some moved) : new[moved]? = old[position]? := by
  induction replays generalizing position with
  | done text =>
    cases outside
    rfl
  | apply turns _ ih =>
    obtain ⟨middle,first,rest⟩ := Option.bind_eq_some_iff.mp outside
    exact (ih rest).trans (turns.carried first)

end BonsaiNinja.Library
