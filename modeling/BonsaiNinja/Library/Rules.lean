import Mathlib.Order.FixedPoints
import Mathlib.Order.CompletePartialOrder

namespace BonsaiNinja.Library

structure Rules (α : Type u) where
  follows : Set α → α → Prop
  mono : ∀ {known more : Set α}, known ⊆ more → ∀ {new : α}, follows known new → follows more new

namespace Rules
variable {α : Type u} {rules : Rules α} {known : Set α}

def consequences (rules : Rules α) : Set α →o Set α where
  toFun known := {new | rules.follows known new}
  monotone' _ _ included _ := rules.mono included

def Closed (rules : Rules α) (known : Set α) : Prop := ∀ new, rules.follows known new → new ∈ known

def least (rules : Rules α) : Set α := OrderHom.lfp rules.consequences

theorem least_closed : rules.Closed rules.least := by
  intro new follows
  have unfolded : rules.consequences rules.least = rules.least := OrderHom.map_lfp rules.consequences
  rw [← unfolded]
  exact follows

theorem least_subset (closed : rules.Closed known) : rules.least ⊆ known :=
  OrderHom.lfp_le rules.consequences fun new follows => closed new follows

theorem eq_least (closed : rules.Closed known) (sound : known ⊆ rules.least) : known = rules.least :=
  Set.Subset.antisymm sound (least_subset closed)

theorem least_mono {more : Rules α} (included : ∀ known new, rules.follows known new → more.follows known new) :
    rules.least ⊆ more.least :=
  least_subset fun new follows => least_closed new (included _ new follows)

end Rules

-- A worklist that derives facts item by item. Each item stands for a known fact
-- and yields the conclusions of the rules it takes part in; the state keeps the
-- remaining rules applied by itself.
structure Tabulation (σ : Type u) (ι : Type v) (α : Type w) where
  rules : Rules α
  known : σ → Set α
  pending : σ → ι → Prop
  fact : ι → α
  yields : Set α → ι → α → Prop
  process : ι → σ → σ
  Valid : σ → Prop
  valid_process : ∀ {s item}, Valid s → pending s item → Valid (process item s)
  grows : ∀ {s item}, Valid s → pending s item → known s ⊆ known (process item s)
  processed : ∀ {s item other}, Valid s → pending s item → fact other ∈ known (process item s) →
    ¬pending (process item s) other → other = item ∨ fact other ∈ known s ∧ ¬pending s other
  delivers : ∀ {s item new}, Valid s → pending s item → yields (known s) item new → new ∈ known (process item s)
  sound : ∀ {s item known'}, Valid s → pending s item → rules.Closed known' → known s ⊆ known' →
    known (process item s) ⊆ known'
  covered : ∀ {s new}, Valid s → rules.follows (known s) new →
    (∀ item, fact item ∈ known s → yields (known s) item new → new ∈ known s) → new ∈ known s

namespace Tabulation
variable {σ : Type u} {ι : Type v} {α : Type w} (table : Tabulation σ ι α)

def Processed (s : σ) (item : ι) : Prop := table.fact item ∈ table.known s ∧ ¬table.pending s item

def Settled (s : σ) : Prop := ∀ item, table.Processed s item → ∀ new, table.yields (table.known s) item new → new ∈ table.known s

def Step (s s' : σ) : Prop := ∃ item, table.pending s item ∧ s' = table.process item s

abbrev Runs : σ → σ → Prop := Relation.ReflTransGen table.Step

-- No rule an earlier item (or this one) was refused is opened by what the step
-- derives.
def Quiet (s : σ) (item : ι) : Prop :=
  ∀ other, other = item ∨ table.Processed s other → ∀ new,
    table.yields (table.known (table.process item s)) other new →
      table.yields (table.known s) other new ∨ new ∈ table.known (table.process item s)

def QuietStep (s s' : σ) : Prop := ∃ item, table.pending s item ∧ table.Quiet s item ∧ s' = table.process item s

abbrev QuietRuns : σ → σ → Prop := Relation.ReflTransGen table.QuietStep

def Drained (s : σ) : Prop := ∀ item, ¬table.pending s item

variable {table} {s s' start : σ}

theorem QuietStep.step (quiet : table.QuietStep s s') : table.Step s s' := by
  obtain ⟨item,waiting,_,moved⟩ := quiet
  exact ⟨item,waiting,moved⟩

theorem QuietRuns.runs (run : table.QuietRuns s s') : table.Runs s s' :=
  Relation.ReflTransGen.mono (fun _ _ => QuietStep.step) _ _ run

theorem Runs.valid (run : table.Runs s s') (valid : table.Valid s) : table.Valid s' := by
  induction run with
  | refl => exact valid
  | tail _ step previous =>
    obtain ⟨item,waiting,rfl⟩ := step
    exact table.valid_process previous waiting

theorem Runs.sound (run : table.Runs s s') (valid : table.Valid s) {known : Set α} (closed : table.rules.Closed known)
    (start : table.known s ⊆ known) : table.known s' ⊆ known := by
  induction run with
  | refl => exact start
  | tail earlier step previous =>
    obtain ⟨item,waiting,rfl⟩ := step
    exact table.sound (Runs.valid earlier valid) waiting closed previous

theorem settled_step (valid : table.Valid s) (settled : table.Settled s) (step : table.QuietStep s s') :
    table.Settled s' := by
  obtain ⟨item,waiting,quiet,rfl⟩ := step
  intro other done new yields
  have earlier := table.processed valid waiting done.1 done.2
  rcases quiet other earlier new yields with before | already
  · rcases earlier with rfl | processed
    · exact table.delivers valid waiting before
    · exact table.grows valid waiting (settled other processed new before)
  · exact already

theorem QuietRuns.settled (run : table.QuietRuns s s') (valid : table.Valid s) (settled : table.Settled s) :
    table.Settled s' := by
  induction run with
  | refl => exact settled
  | tail earlier step previous => exact settled_step (Runs.valid (QuietRuns.runs earlier) valid) previous step

theorem closed_of_drained (valid : table.Valid s) (settled : table.Settled s) (drained : table.Drained s) :
    table.rules.Closed (table.known s) := by
  intro new follows
  exact table.covered valid follows fun item known yields => settled item ⟨known,drained item⟩ new yields

-- A drained run without late openings computes the least closed set, whatever
-- it processed first.
theorem QuietRuns.least (run : table.QuietRuns start s) (valid : table.Valid start) (settled : table.Settled start)
    (seeded : table.known start ⊆ table.rules.least) (drained : table.Drained s) :
    table.known s = table.rules.least :=
  Rules.eq_least (closed_of_drained (Runs.valid (QuietRuns.runs run) valid) (QuietRuns.settled run valid settled) drained)
    (Runs.sound (QuietRuns.runs run) valid Rules.least_closed seeded)

end Tabulation

end BonsaiNinja.Library
