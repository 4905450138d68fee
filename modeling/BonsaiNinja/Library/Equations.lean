import Mathlib.Algebra.Order.BigOperators.Group.Finset

namespace BonsaiNinja.Library

-- A finite system `value i = update i value`, solved by recompiling stale
-- members. `dependents j` must name every member whose update reads `j`.
structure Equations (ι : Type u) (α : Type v) [PartialOrder α] [OrderBot α] where
  domain : Finset ι
  update : ι → (ι → α) → α
  dependents : ι → List ι

namespace Equations
variable {ι : Type u} {α : Type v} [PartialOrder α] [OrderBot α] {E : Equations ι α}

def Monotone (E : Equations ι α) : Prop :=
  ∀ i ∈ E.domain, ∀ v w : ι → α, v ≤ w → E.update i v ≤ E.update i w

def Tracked [DecidableEq ι] (E : Equations ι α) : Prop :=
  ∀ i ∈ E.domain, ∀ j, i ∉ E.dependents j → ∀ v x, E.update i (Function.update v j x) = E.update i v

structure Bounded (E : Equations ι α) (height : α → Nat) (limit : ι → Nat) : Prop where
  strict : StrictMono height
  within : ∀ i ∈ E.domain, ∀ v, height (E.update i v) ≤ limit i

def Solves (E : Equations ι α) (v : ι → α) : Prop := ∀ i ∈ E.domain, v i = E.update i v

-- A round drains `pending` into `batch`; members of the batch are recompiled in
-- any order, against the values already updated in the same round.
structure Round (ι : Type u) (α : Type v) where
  value : ι → α
  batch : List ι
  pending : List ι

inductive Advances [DecidableEq ι] (E : Equations ι α) : Round ι α → Round ι α → Prop where
  | drain {v pending batch} : pending ≠ [] → batch.Nodup → (∀ i, i ∈ batch ↔ i ∈ pending ∧ i ∈ E.domain) →
      Advances E ⟨v,[],pending⟩ ⟨v,batch,[]⟩
  | settled {i v batch pending} : i ∈ batch → E.update i v = v i → Advances E ⟨v,batch,pending⟩ ⟨v,batch.erase i,pending⟩
  | changed {i v batch pending grown} : i ∈ batch → E.update i v ≠ v i → (∀ j, j ∈ grown ↔ j ∈ pending ∨ j ∈ E.dependents i) →
      Advances E ⟨v,batch,pending⟩ ⟨Function.update v i (E.update i v),batch.erase i,grown⟩

-- Values only rise, and never above a solution; this needs no tracking.
structure Ascending (E : Equations ι α) (s : Round ι α) : Prop where
  batch_mem : ∀ i ∈ s.batch, i ∈ E.domain
  rising : ∀ i ∈ E.domain, s.value i ≤ E.update i s.value
  outside : ∀ i, i ∉ E.domain → s.value i = ⊥
  below : ∀ w, (∀ i ∈ E.domain, E.update i w ≤ w i) → s.value ≤ w

def Waiting (E : Equations ι α) (s : Round ι α) : Prop :=
  ∀ i ∈ E.domain, E.update i s.value = s.value i ∨ i ∈ s.batch ∨ i ∈ s.pending

def start (pending : List ι) : Round ι α := ⟨fun _ => ⊥,[],pending⟩

theorem start_ascending : E.Ascending (start pending) where
  batch_mem _ member := absurd member List.not_mem_nil
  rising _ _ := bot_le
  outside _ _ := rfl
  below _ _ _ := bot_le

theorem start_waiting (all : ∀ i ∈ E.domain, i ∈ pending) : E.Waiting (start pending) :=
  fun i member => .inr (.inr (all i member))

theorem finished_solves (waiting : E.Waiting s) (batch : s.batch = []) (pending : s.pending = []) : E.Solves s.value := by
  intro i member
  rcases waiting i member with same | waits | waits
  · exact same.symm
  · exact absurd (batch ▸ waits) List.not_mem_nil
  · exact absurd (pending ▸ waits) List.not_mem_nil

variable [DecidableEq ι]

theorem update_le (rising : v i ≤ E.update i v) : v ≤ Function.update v i (E.update i v) := by
  intro j
  by_cases same : j = i
  · subst same; simpa using rising
  · simp [Function.update_of_ne same]

theorem advances_ascending (monotone : E.Monotone) (valid : E.Ascending s) (step : Advances E s t) : E.Ascending t := by
  cases step with
  | drain _ _ drained => exact ⟨fun i member => ((drained i).mp member).2,valid.rising,valid.outside,valid.below⟩
  | settled _ _ => exact ⟨fun j member => valid.batch_mem j (List.mem_of_mem_erase member),valid.rising,valid.outside,valid.below⟩
  | @changed i v batch pending grown picked differs _ =>
    have inDomain := valid.batch_mem i picked
    have grows := update_le (valid.rising i inDomain)
    refine ⟨fun j member => valid.batch_mem j (List.mem_of_mem_erase member),fun j member => ?_,fun j outside => ?_,
      fun w closed j => ?_⟩
    · refine le_trans ?_ (monotone j member _ _ grows)
      by_cases this : j = i
      · subst this; simp
      · simpa [Function.update_of_ne this] using valid.rising j member
    · have this : j ≠ i := fun same => outside (same ▸ inDomain)
      simpa [Function.update_of_ne this] using valid.outside j outside
    · by_cases this : j = i
      · subst this
        simpa using (monotone j inDomain _ _ (valid.below w closed)).trans (closed j inDomain)
      · simpa [Function.update_of_ne this] using valid.below w closed j

theorem advances_waiting (tracked : E.Tracked) (waiting : E.Waiting s) (step : Advances E s t) : E.Waiting t := by
  intro j member
  cases step with
  | drain _ _ drained =>
    rcases waiting j member with same | absent | waits
    · exact .inl same
    · exact absurd absent List.not_mem_nil
    · exact .inr (.inl ((drained j).mpr ⟨waits,member⟩))
  | @settled i v batch pending picked same =>
    by_cases this : j = i
    · subst this; exact .inl same
    · exact (waiting j member).imp_right (Or.imp_left (List.mem_erase_of_ne this).mpr)
  | @changed i v batch pending grown picked differs extends_ =>
    by_cases reads : j ∈ E.dependents i
    · exact .inr (.inr ((extends_ j).mpr (.inr reads)))
    · dsimp only
      rw [tracked j member i reads]
      by_cases this : j = i
      · subst this; exact .inl (by simp)
      · rcases waiting j member with same | waits | waits
        · exact .inl (by simpa [Function.update_of_ne this] using same)
        · exact .inr (.inl ((List.mem_erase_of_ne this).mpr waits))
        · exact .inr (.inr ((extends_ j).mpr (.inl waits)))

section
variable {height : α → Nat} {limit : ι → Nat}

def room (E : Equations ι α) (height : α → Nat) (limit : ι → Nat) (v : ι → α) : Nat :=
  ∑ i ∈ E.domain, (limit i - height (v i))

theorem changed_room (bounded : E.Bounded height limit) (valid : E.Ascending s) (picked : i ∈ s.batch)
    (differs : E.update i s.value ≠ s.value i) :
    E.room height limit (Function.update s.value i (E.update i s.value)) < E.room height limit s.value := by
  have inDomain := valid.batch_mem i picked
  have rises := bounded.strict (lt_of_le_of_ne (valid.rising i inDomain) (Ne.symm differs))
  have within := bounded.within i inDomain s.value
  refine Finset.sum_lt_sum (fun j _ => ?_) ⟨i,inDomain,by simp only [Function.update_self]; omega⟩
  by_cases this : j = i
  · subst this; simp only [Function.update_self]; omega
  · simp [Function.update_of_ne this]

def rank (E : Equations ι α) (height : α → Nat) (limit : ι → Nat) (s : Round ι α) : Nat × Nat :=
  (E.room height limit s.value,2 * s.pending.length + s.batch.length)

theorem advances_rank (bounded : E.Bounded height limit) (valid : E.Ascending s) (step : Advances E s t) :
    Prod.Lex (· < ·) (· < ·) (E.rank height limit t) (E.rank height limit s) := by
  cases step with
  | @drain v pending batch some nodup drained =>
    have shorter := (List.subperm_of_subset nodup fun i member => ((drained i).mp member).1).length_le
    have positive := List.length_pos_iff.mpr some
    exact .right _ (by simp only [List.length_nil]; omega)
  | @settled i v batch pending picked same =>
    have shorter := List.length_erase_of_mem picked
    have positive := List.length_pos_of_mem picked
    exact .right _ (by simp only [shorter]; omega)
  | @changed i v batch pending grown picked differs _ =>
    exact .left _ _ (changed_room bounded valid picked differs)

theorem terminates (monotone : E.Monotone) (bounded : E.Bounded height limit) (valid : E.Ascending s) : Acc (fun t s => Advances E s t) s := by
  have wellFounded : WellFounded (@Prod.Lex Nat Nat (· < ·) (· < ·)) :=
    WellFounded.prod_lex wellFounded_lt wellFounded_lt
  generalize measured : E.rank height limit s = rank
  induction rank using wellFounded.induction generalizing s with
  | _ rank ih =>
    refine ⟨_,fun t step => ?_⟩
    exact ih _ (measured ▸ advances_rank bounded valid step) (advances_ascending monotone valid step) rfl

end

end Equations

end BonsaiNinja.Library
