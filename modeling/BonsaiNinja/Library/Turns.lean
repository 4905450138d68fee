import Mathlib.Algebra.Order.BigOperators.Group.Finset
import Mathlib.Data.Prod.Lex

namespace BonsaiNinja.Library
variable {σ : Type u} {ρ : Type v} {turn : σ → Except ρ σ}

def Ensures (holds : α → Prop) (stops : ρ → Prop) : Except ρ α → Prop
  | .ok a => holds a
  | .error result => stops result

section ensures
variable {holds : α → Prop} {stops : ρ → Prop} {x : Except ρ α}

theorem Ensures.ok {a : α} (held : holds a) : Ensures holds stops (.ok a : Except ρ α) := held

theorem Ensures.pure {a : α} (held : holds a) : Ensures holds stops (Pure.pure a : Except ρ α) := held

theorem Ensures.imp {others : α → Prop} (ensures : Ensures holds stops x) (weaker : ∀ a, holds a → others a) :
    Ensures others stops x := by
  cases x with
  | ok a => exact weaker a ensures
  | error result => exact ensures

theorem Ensures.ending {ends : ρ → Prop} (ensures : Ensures holds stops x) (weaker : ∀ result, stops result → ends result) :
    Ensures holds ends x := by
  cases x with
  | ok a => exact ensures
  | error result => exact weaker result ensures

theorem Ensures.bind {others : β → Prop} {f : α → Except ρ β} (ensures : Ensures holds stops x)
    (next : ∀ a, holds a → Ensures others stops (f a)) : Ensures others stops (x >>= f) := by
  cases x with
  | ok a => exact next a ensures
  | error result => exact ensures

theorem Ensures.foldlM {rows : List β} {f : α → β → Except ρ α} (motive : List β → α → Prop)
    (step : ∀ done row rest a, rows = done ++ row :: rest → motive done a → Ensures (motive (done ++ [row])) stops (f a row))
    {a : α} (first : motive [] a) : Ensures (motive rows) stops (rows.foldlM f a) := by
  have run : ∀ rest done a, rows = done ++ rest → motive done a → Ensures (motive rows) stops (rest.foldlM f a) := by
    intro rest
    induction rest with
    | nil =>
      intro done a split held
      rw [List.append_nil] at split
      rw [split]
      exact held
    | cons row rest ih =>
      intro done a split held
      rw [List.foldlM_cons]
      exact (step done row rest a split held).bind fun next held => ih (done ++ [row]) next (by rw [split]; simp) held
  exact run rows [] a rfl first

end ensures

def runTurns (turn : σ → Except ρ σ) : Nat → σ → Option ρ
  | 0, _ => none
  | fuel + 1, s =>
    match turn s with
    | .ok next => runTurns turn fuel next
    | .error result => some result

inductive Passes (turn : σ → Except ρ σ) (start : σ) : σ → Prop where
  | start : Passes turn start start
  | turn : Passes turn start s → turn s = .ok next → Passes turn start next

theorem Passes.holds {holds : σ → Prop} (kept : ∀ s next, holds s → turn s = .ok next → holds next) {start s : σ}
    (first : holds start) (passes : Passes turn start s) : holds s := by
  induction passes with
  | start => exact first
  | turn _ went ih => exact kept _ _ ih went

theorem runTurns_more {fuel more : Nat} {s : σ} {result : ρ} (ends : runTurns turn fuel s = some result) (enough : fuel ≤ more) :
    runTurns turn more s = some result := by
  induction fuel generalizing s more with
  | zero => cases ends
  | succ fuel ih =>
    obtain ⟨more,rfl⟩ := Nat.exists_eq_add_of_lt enough
    rw [runTurns] at ends
    rw [show fuel + more + 1 = (fuel + more) + 1 from rfl, runTurns]
    cases went : turn s with
    | ok next =>
      rw [went] at ends
      exact ih ends (Nat.le_add_right _ _)
    | error result =>
      rw [went] at ends
      exact ends

theorem runTurns_holds {holds : σ → Prop} {post : ρ → Prop} (kept : ∀ s next, holds s → turn s = .ok next → holds next)
    (final : ∀ s result, holds s → turn s = .error result → post result) {fuel : Nat} {s : σ} {result : ρ} (first : holds s)
    (ends : runTurns turn fuel s = some result) : post result := by
  induction fuel generalizing s with
  | zero => cases ends
  | succ fuel ih =>
    rw [runTurns] at ends
    cases went : turn s with
    | ok next =>
      rw [went] at ends
      exact ih (kept s next first went) ends
    | error last =>
      rw [went] at ends
      cases ends
      exact final s _ first went

-- A loop ends when each turn lowers a budget, or keeps it and leaves fewer tasks.
theorem runTurns_ends {holds : σ → Prop} (budget pending : σ → Nat)
    (kept : ∀ s next, holds s → turn s = .ok next → holds next)
    (lower : ∀ s next, holds s → turn s = .ok next →
      budget next < budget s ∨ budget next = budget s ∧ pending next < pending s)
    {s : σ} (first : holds s) : ∃ fuel result, runTurns turn fuel s = some result := by
  have descends : WellFounded fun a b : σ => Prod.Lex (· < ·) (· < ·) (budget a,pending a) (budget b,pending b) :=
    InvImage.wf _ (WellFounded.prod_lex Nat.lt_wfRel.wf Nat.lt_wfRel.wf)
  induction s using descends.induction with
  | _ s ih =>
    cases went : turn s with
    | error result => exact ⟨1,result,by rw [runTurns, went]⟩
    | ok next =>
      have smaller : Prod.Lex (· < ·) (· < ·) (budget next,pending next) (budget s,pending s) := by
        rw [Prod.lex_def]
        exact lower s next first went
      obtain ⟨fuel,result,ends⟩ := ih next smaller (kept s next first went)
      exact ⟨fuel + 1,result,by rw [runTurns, went]; exact ends⟩

def usesLeft [DecidableEq κ] (keys : Finset κ) (limit : Nat) (used : κ → Nat) : Nat := keys.sum fun key => limit - used key

theorem usesLeft_use [DecidableEq κ] {keys : Finset κ} {limit : Nat} {used next : κ → Nat} {key : κ} (member : key ∈ keys)
    (room : used key < limit) (own : next key = used key + 1) (others : ∀ other, other ≠ key → next other = used other) :
    usesLeft keys limit next < usesLeft keys limit used := by
  refine Finset.sum_lt_sum (fun other _ => ?_) ⟨key,member,by omega⟩
  by_cases same : other = key
  · rw [same, own]
    omega
  · rw [others other same]

end BonsaiNinja.Library
