import Mathlib.Data.Finset.Lattice.Lemmas

namespace BonsaiNinja.Library

structure GenKill (α δ : Type) where
  apply : α → Finset δ → Finset δ
  adds : α → Finset δ
  keeps : α → δ → Prop
  mem_apply : ∀ {op state fact}, fact ∈ apply op state ↔ fact ∈ adds op ∨ fact ∈ state ∧ keeps op fact
  adds_nonempty : ∀ op, (adds op).Nonempty

namespace GenKill

variable {α δ : Type} {effects : GenKill α δ} {ops : List α} {state other : Finset δ} {fact : δ}

def run (effects : GenKill α δ) (ops : List α) (state : Finset δ) : Finset δ := ops.foldl (fun state op => effects.apply op state) state

@[simp] theorem run_nil : effects.run [] state = state := rfl

@[simp] theorem run_cons {op : α} : effects.run (op :: ops) state = effects.run ops (effects.apply op state) := rfl

theorem run_append {front back : List α} : effects.run (front ++ back) state = effects.run back (effects.run front state) :=
  List.foldl_append

theorem apply_subset {op : α} (inside : state ⊆ other) : effects.apply op state ⊆ effects.apply op other := by
  intro fact member
  rw [effects.mem_apply] at member ⊢
  exact member.imp_right fun both => ⟨inside both.1,both.2⟩

theorem run_subset (inside : state ⊆ other) : effects.run ops state ⊆ effects.run ops other := by
  induction ops generalizing state other with
  | nil => exact inside
  | cons op ops ih => exact ih (apply_subset inside)

theorem apply_nonempty {op : α} : (effects.apply op state).Nonempty := by
  obtain ⟨fact,added⟩ := effects.adds_nonempty op
  exact ⟨fact,effects.mem_apply.mpr (.inl added)⟩

theorem run_nonempty (some : state.Nonempty) : (effects.run ops state).Nonempty := by
  induction ops generalizing state with
  | nil => exact some
  | cons op ops ih => exact ih apply_nonempty

theorem mem_run : fact ∈ effects.run ops state ↔ fact ∈ effects.run ops ∅ ∨ fact ∈ state ∧ ∀ op ∈ ops, effects.keeps op fact := by
  induction ops generalizing state with
  | nil => simp
  | cons op ops ih =>
    have fresh : fact ∈ effects.apply op ∅ ↔ fact ∈ effects.adds op := by
      rw [effects.mem_apply]
      simp
    rw [run_cons,run_cons,ih,@ih (effects.apply op ∅),effects.mem_apply,fresh]
    simp only [List.forall_mem_cons]
    tauto

theorem run_from_one (some : state.Nonempty) (member : fact ∈ effects.run ops state) :
    ∃ source ∈ state, fact ∈ effects.run ops {source} := by
  rcases mem_run.mp member with added | ⟨kept,keeps⟩
  · obtain ⟨source,inside⟩ := some
    exact ⟨source,inside,mem_run.mpr (.inl added)⟩
  · exact ⟨fact,kept,mem_run.mpr (.inr ⟨Finset.mem_singleton_self fact,keeps⟩)⟩

inductive Repeats (paths : List α → Prop) : List α → Prop
  | none : Repeats paths []
  | again {front back : List α} : Repeats paths front → paths back → Repeats paths (front ++ back)

def Reached (effects : GenKill α δ) (paths : List α → Prop) (state : Finset δ) (fact : δ) : Prop :=
  ∃ ops, paths ops ∧ fact ∈ effects.run ops state

-- Once the facts along the paths are joined with those at the entry, going along the paths again
-- leads to nothing else.
theorem reached_closed {paths : List α → Prop} {entry once : Finset δ}
    (exact : ∀ fact, fact ∈ once ↔ fact ∈ entry ∨ effects.Reached paths state fact) :
    (fact ∈ entry ∨ effects.Reached paths once fact) ↔ fact ∈ once := by
  constructor
  · intro either
    rcases either with here | ⟨ops,path,member⟩
    · exact (exact fact).mpr (.inl here)
    · rcases mem_run.mp member with added | ⟨kept,_⟩
      · exact (exact fact).mpr (.inr ⟨ops,path,mem_run.mpr (.inl added)⟩)
      · exact kept
  · intro inside
    rcases (exact fact).mp inside with here | ⟨ops,path,member⟩
    · exact .inl here
    · rcases mem_run.mp member with added | ⟨_,keeps⟩
      · exact .inr ⟨ops,path,mem_run.mpr (.inl added)⟩
      · exact .inr ⟨ops,path,mem_run.mpr (.inr ⟨inside,keeps⟩)⟩

end GenKill

end BonsaiNinja.Library
