import Mathlib.Algebra.Order.BigOperators.Group.List
import Mathlib.Algebra.Order.Ring.Nat

namespace BonsaiNinja.Library

-- The arithmetic of a weighted gate: what a request is charged, when it has to wait, and
-- what the counter is after an admission and a release.
structure GateRules where
  charge : Nat → Nat
  refuses : Nat → Nat → Bool
  booked : Nat → Nat → Nat
  silent : Nat → Bool
  release : Nat → Nat → Nat

-- Requests hold a permit, wait for the lock, or sleep until they are notified.
structure Gate where
  used : Nat
  outstanding : List Nat
  awake : List Nat
  parked : List Nat
  deriving DecidableEq, Repr

-- Each event runs under the lock of the counter; a sleeper may also wake by itself.
inductive GateEvent
  | acquire (request : Nat)
  | attempt (i : Nat)
  | tryAcquire (request : Nat)
  | drop (i : Nat)
  | wake (i : Nat)

namespace Gate

def new : Gate := ⟨0,[],[],[]⟩

section
variable (rules : GateRules) (gate : Gate)

def grant (request : Nat) : Gate :=
  { gate with
    used := rules.booked gate.used (rules.charge request)
    outstanding := gate.outstanding ++ [request] }

def tryAcquire (request : Nat) : Option Gate :=
  if rules.refuses gate.used (rules.charge request) then none else some (gate.grant rules request)

def attempt (i : Nat) : Option Gate :=
  match gate.awake[i]? with
  | none => none
  | some request =>
    let waiting := { gate with awake := gate.awake.eraseIdx i }
    match waiting.tryAcquire rules request with
    | some granted => some granted
    | none => some { waiting with parked := gate.parked ++ [request] }

def drop (i : Nat) : Option Gate :=
  match gate.outstanding[i]? with
  | none => none
  | some request =>
    let left := { gate with outstanding := gate.outstanding.eraseIdx i }
    if rules.silent (rules.charge request) then some left
    else
      some { left with
        used := rules.release gate.used (rules.charge request)
        awake := gate.awake ++ gate.parked
        parked := [] }

def wake (i : Nat) : Option Gate :=
  match gate.parked[i]? with
  | none => none
  | some request => some { gate with awake := gate.awake ++ [request], parked := gate.parked.eraseIdx i }

def step : GateEvent → Option Gate
  | .acquire request => some { gate with awake := gate.awake ++ [request] }
  | .attempt i => gate.attempt rules i
  | .tryAcquire request => some ((gate.tryAcquire rules request).getD gate)
  | .drop i => gate.drop rules i
  | .wake i => gate.wake i

def run (events : List GateEvent) : Option Gate := events.foldlM (step rules) gate

end

end Gate

structure GateRules.Exact (rules : GateRules) (capacity : Nat) : Prop where
  charged : ∀ request, rules.charge request ≤ capacity
  refuses : ∀ {used} request, used ≤ capacity → (rules.refuses used (rules.charge request) = true ↔ capacity < used + rules.charge request)
  booked : ∀ {used} request, used + rules.charge request ≤ capacity → rules.booked used (rules.charge request) = used + rules.charge request
  silent : ∀ request, rules.silent (rules.charge request) = true → rules.charge request = 0
  release : ∀ {used} request, rules.charge request ≤ used → rules.release used (rules.charge request) = used - rules.charge request

structure Gate.Sound (rules : GateRules) (capacity : Nat) (gate : Gate) : Prop where
  conserved : gate.used = (gate.outstanding.map rules.charge).sum
  bounded : gate.used ≤ capacity
  woken : gate.parked ≠ [] → 0 < gate.used

theorem sum_eraseIdx {weights : List Nat} {i weight : Nat} (held : weights[i]? = some weight) :
    (weights.eraseIdx i).sum + weight = weights.sum := by
  induction weights generalizing i with
  | nil => cases held
  | cons first rest ih =>
    cases i with
    | zero =>
      cases held
      rw [List.eraseIdx_cons_zero,List.sum_cons,Nat.add_comm]
    | succ i =>
      rw [List.eraseIdx_cons_succ,List.sum_cons,List.sum_cons,Nat.add_assoc,ih held]

namespace Gate
variable {rules : GateRules} {capacity : Nat} {gate next : Gate}

theorem new_sound : new.Sound rules capacity := ⟨rfl,Nat.zero_le _,fun asleep => absurd rfl asleep⟩

section
variable (exact' : rules.Exact capacity)
include exact'

section
variable (sound : gate.Sound rules capacity)
include sound

theorem grant_sound {request : Nat}
    (fits : gate.used + rules.charge request ≤ capacity) : (gate.grant rules request).Sound rules capacity := by
  have used : (gate.grant rules request).used = gate.used + rules.charge request := exact'.booked request fits
  refine ⟨?_,used ▸ fits,fun asleep => ?_⟩
  · rw [used,sound.conserved]
    simp [grant]
  · rw [used]
    exact Nat.add_pos_left (sound.woken asleep) _

theorem tryAcquire_refused (request : Nat) :
    gate.tryAcquire rules request = none ↔ capacity < (gate.outstanding.map rules.charge).sum + rules.charge request := by
  rw [← sound.conserved,← exact'.refuses request sound.bounded]
  unfold tryAcquire
  split
  · next refused => exact iff_of_true rfl refused
  · next granted => exact iff_of_false nofun granted

theorem tryAcquire_sound {request : Nat}
    (granted : gate.tryAcquire rules request = some next) : next.Sound rules capacity ∧ next = gate.grant rules request := by
  have fits : gate.used + rules.charge request ≤ capacity := by
    refine Nat.not_lt.mp fun refused => ?_
    rw [sound.conserved,← tryAcquire_refused exact' sound,granted] at refused
    cases refused
  unfold tryAcquire at granted
  split at granted
  · cases granted
  · cases granted
    exact ⟨grant_sound exact' sound fits,rfl⟩

theorem attempt_sound {i : Nat}
    (ran : gate.attempt rules i = some next) : next.Sound rules capacity := by
  unfold attempt at ran
  split at ran
  · cases ran
  · next request _ =>
    have waiting : Sound rules capacity { gate with awake := gate.awake.eraseIdx i } := ⟨sound.conserved,sound.bounded,sound.woken⟩
    simp only [] at ran
    split at ran
    · next granted =>
      cases ran
      exact (tryAcquire_sound exact' waiting granted).1
    · next refused =>
      cases ran
      -- Whoever goes to sleep has seen a permit in the way.
      have full := (tryAcquire_refused exact' waiting request).mp refused
      have small := exact'.charged request
      refine ⟨sound.conserved,sound.bounded,fun _ => ?_⟩
      show 0 < gate.used
      rw [sound.conserved]
      exact Nat.pos_of_ne_zero fun zero => by simp only [zero] at full; omega

theorem drop_sound {i : Nat}
    (ran : gate.drop rules i = some next) : next.Sound rules capacity := by
  unfold drop at ran
  split at ran
  · cases ran
  · next request held =>
    have weight : (gate.outstanding.map rules.charge)[i]? = some (rules.charge request) := by rw [List.getElem?_map,held]; rfl
    have left := sum_eraseIdx weight
    rw [List.eraseIdx_map] at left
    have used := sound.conserved
    have bounded := sound.bounded
    simp only [] at ran
    split at ran
    · next silent =>
      cases ran
      have none := exact'.silent request silent
      exact ⟨by simp only []; omega,bounded,sound.woken⟩
    · cases ran
      have released := @exact'.release gate.used request (by omega)
      refine ⟨?_,?_,fun asleep => absurd rfl asleep⟩
      · simp only [released]
        omega
      · simp only [released]
        omega

theorem step_sound {event : GateEvent}
    (ran : gate.step rules event = some next) : next.Sound rules capacity := by
  cases event with
  | acquire request =>
    cases ran
    exact ⟨sound.conserved,sound.bounded,sound.woken⟩
  | attempt i => exact attempt_sound exact' sound ran
  | tryAcquire request =>
    cases ran
    cases granted : gate.tryAcquire rules request with
    | none => exact sound
    | some after => exact (tryAcquire_sound exact' sound granted).1
  | drop i => exact drop_sound exact' sound ran
  | wake i =>
    simp only [step,wake] at ran
    split at ran
    · cases ran
    · next held =>
      cases ran
      refine ⟨sound.conserved,sound.bounded,fun _ => sound.woken fun none => ?_⟩
      rw [none] at held
      cases held

theorem run_sound {events : List GateEvent}
    (ran : gate.run rules events = some next) : next.Sound rules capacity := by
  induction events generalizing gate with
  | nil =>
    cases ran
    exact sound
  | cons event rest ih =>
    obtain ⟨middle,stepped,later⟩ := Option.bind_eq_some_iff.mp ran
    exact ih (step_sound exact' sound stepped) later

end

end

-- A permit of the whole capacity stands alone.
theorem alone {i j first second : Nat} (sound : gate.Sound rules capacity) (held : gate.outstanding[i]? = some first)
    (other : gate.outstanding[j]? = some second) (apart : i ≠ j) (whole : rules.charge first = capacity) :
    rules.charge second = 0 := by
  have weight : (gate.outstanding.map rules.charge)[i]? = some (rules.charge first) := by rw [List.getElem?_map,held]; rfl
  have left := sum_eraseIdx weight
  have bounded := sound.bounded
  rw [sound.conserved,← left,whole] at bounded
  have member : rules.charge second ∈ (gate.outstanding.map rules.charge).eraseIdx i := by
    refine List.mem_eraseIdx_iff_getElem?.mpr ⟨j,apart.symm,?_⟩
    rw [List.getElem?_map,other]
    rfl
  have within := List.single_le_sum (fun _ _ => Nat.zero_le _) _ member
  omega

theorem idle (exact' : rules.Exact capacity) (sound : gate.Sound rules capacity) (empty : gate.outstanding = []) :
    gate.used = 0 ∧ gate.parked = [] ∧
      ∀ i request, gate.awake[i]? = some request → ∃ after, gate.attempt rules i = some after ∧ after.outstanding = [request] := by
  have zero : gate.used = 0 := by rw [sound.conserved,empty]; rfl
  refine ⟨zero,?_,fun i request held => ?_⟩
  · by_contra asleep
    exact absurd (sound.woken asleep) (Nat.not_lt.mpr (Nat.le_of_eq zero))
  · have waiting : Sound rules capacity { gate with awake := gate.awake.eraseIdx i } := ⟨sound.conserved,sound.bounded,sound.woken⟩
    unfold attempt
    simp only [held]
    cases granted : tryAcquire rules { gate with awake := gate.awake.eraseIdx i } request with
    | none =>
      have full := (tryAcquire_refused exact' waiting request).mp granted
      have small := exact'.charged request
      simp only [empty,List.map_nil,List.sum_nil] at full
      omega
    | some after =>
      refine ⟨after,rfl,?_⟩
      rw [(tryAcquire_sound exact' waiting granted).2,grant]
      simp only [empty]
      rfl

end Gate

end BonsaiNinja.Library
