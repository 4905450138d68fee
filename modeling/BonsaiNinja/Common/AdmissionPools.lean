import BonsaiNinja.Library.AdmissionGates
import BonsaiNinja.Library.FileAccess

namespace BonsaiNinja.Resources
open Library

def u64Max : Nat := 2 ^ 64 - 1

def bytesPerMib : Nat := 1024 * 1024
def bytesPerGib : Nat := 1024 * 1024 * 1024
def syntaxResidentReserveBytes : Nat := 512 * bytesPerMib
def weightedCompilerUnitBaseBytes : Nat := 64 * bytesPerMib
def weightedCompilerSourceAmplification : Nat := 40
def streamingCompilerBodyResidentReserveBytes : Nat := 2 * bytesPerGib
def weightedCompilerHeadroomDivisor : Nat := 4
def weightedSyntaxHeadroomBytes : Nat := 384 * bytesPerMib
def sourceIngestionCopyAmplification : Nat := 2
def sourceIngestionMinHeadroomBytes : Nat := 128 * bytesPerMib

def weightedCompilerUnitBytes (sourceBytes : Nat) : Nat :=
  saturatingAdd weightedCompilerUnitBaseBytes (saturatingMul sourceBytes weightedCompilerSourceAmplification)

-- What a limit leaves beside the resident set and some headroom, and at least one byte.
def workingBytes (limit resident headroom : Nat) : Nat := max (limit - resident - headroom) 1

def syntaxWorkingMemoryBytes (limit residentBytes : Option Nat) : Option Nat :=
  limit.map fun limit =>
    workingBytes limit (residentBytes.getD syntaxResidentReserveBytes) (min weightedSyntaxHeadroomBytes (limit - 1))

def streamingCompilerBodyWorkingMemoryBytes (limit : Option Nat) : Option Nat :=
  limit.map fun limit =>
    workingBytes limit streamingCompilerBodyResidentReserveBytes (min weightedSyntaxHeadroomBytes (limit - 1))

-- The headroom keeps every working set away from the largest word.
theorem workingBytes_lt {limit headroom : Nat} (word : limit ≤ u64Max) (positive : 0 < headroom) (resident : Nat) :
    workingBytes limit resident headroom < u64Max := by
  unfold workingBytes u64Max at *
  omega

theorem headroom_lt {limit : Nat} (word : limit ≤ u64Max) (resident : Nat) :
    workingBytes limit resident (min weightedSyntaxHeadroomBytes (limit - 1)) < u64Max := by
  rcases Nat.lt_or_ge 1 limit with large | small
  · have positive : 0 < weightedSyntaxHeadroomBytes := by decide
    exact workingBytes_lt word (by omega) resident
  · unfold workingBytes u64Max
    omega

end BonsaiNinja.Resources

namespace BonsaiNinja.Resources
open Library

-- A pool without a capacity hands out permits that weigh nothing.
def admittedBytes (capacity : Option Nat) (sourceBytes : Nat) : Nat :=
  match capacity with
  | none => 0
  | some capacity => min (weightedCompilerUnitBytes sourceBytes) capacity

def syntaxMemoryPermitPool (capacity : Option Nat) : GateRules where
  charge := admittedBytes capacity
  refuses used admitted :=
    match capacity with
    | none => false
    | some capacity => 0 < used && capacity < saturatingAdd used admitted
  booked used admitted :=
    match capacity with
    | none => used
    | some _ => saturatingAdd used admitted
  silent admitted := admitted == 0
  release used admitted := used - admitted

def chargedBytes (payloadBytes : Nat) : Nat := max payloadBytes 1

-- The counter is added to without a check.
def byteBudget (limit : Nat) : GateRules where
  charge payloadBytes := min (chargedBytes payloadBytes) (max limit 1)
  refuses used charge := max limit 1 < saturatingAdd used charge
  booked used charge := (used + charge) % 2 ^ 64
  silent _ := false
  release used charge := used - charge

theorem syntaxMemoryPermitPool_exact {capacity : Nat} (room : capacity < u64Max) :
    (syntaxMemoryPermitPool (some capacity)).Exact capacity := by
  have charged : ∀ request, admittedBytes (some capacity) request ≤ capacity := fun request => Nat.min_le_right _ _
  unfold u64Max at room
  refine ⟨charged,fun {used} request bounded => ?_,fun {used} request fits => ?_,fun request silent => ?_,fun request _ => rfl⟩
  · have small := charged request
    show (decide (0 < used) && decide (capacity < saturatingAdd used (admittedBytes (some capacity) request))) = true ↔
      capacity < used + admittedBytes (some capacity) request
    rw [Bool.and_eq_true,decide_eq_true_eq,decide_eq_true_eq,saturatingAdd]
    omega
  · simp only [syntaxMemoryPermitPool,saturatingAdd] at fits ⊢
    omega
  · exact beq_iff_eq.mp silent

theorem unlimited_exact : (syntaxMemoryPermitPool none).Exact 0 := by
  refine ⟨fun _ => Nat.le_refl _,fun {used} request bounded => ?_,fun _ _ => rfl,fun _ _ => rfl,fun _ _ => rfl⟩
  simp only [syntaxMemoryPermitPool,admittedBytes]
  exact iff_of_false nofun (by omega)

theorem byteBudget_exact {limit : Nat} (room : limit < u64Max) : (byteBudget limit).Exact (max limit 1) := by
  unfold u64Max at room
  refine ⟨fun _ => Nat.min_le_right _ _,fun {used} request bounded => ?_,fun {used} request fits => ?_,nofun,fun _ _ => rfl⟩
  · show decide (max limit 1 < saturatingAdd used (min (chargedBytes request) (max limit 1))) = true ↔
      max limit 1 < used + min (chargedBytes request) (max limit 1)
    rw [decide_eq_true_eq,saturatingAdd]
    omega
  · simp only [byteBudget] at fits ⊢
    exact Nat.mod_eq_of_lt (by omega)

-- What holds in every state a gate reaches.
structure SafeAdmission (rules : GateRules) (weight : Nat → Nat) (capacity : Option Nat) (gate : Gate) : Prop where
  conserved : gate.used = (gate.outstanding.map rules.charge).sum
  bounded : ∀ most, capacity = some most → gate.used ≤ most
  alone : ∀ most, capacity = some most → ∀ (i j first second : Nat), gate.outstanding[i]? = some first →
    gate.outstanding[j]? = some second → i ≠ j → most < weight first → rules.charge second = 0
  refused : ∀ request, gate.tryAcquire rules request = none ↔
    ∃ most, capacity = some most ∧ most < (gate.outstanding.map rules.charge).sum + rules.charge request
  idle : gate.outstanding = [] → gate.used = 0 ∧ gate.parked = [] ∧
    ∀ (i request : Nat), gate.awake[i]? = some request → ∃ after, gate.attempt rules i = some after ∧ after.outstanding = [request]

theorem safe_of_exact {rules : GateRules} {weight : Nat → Nat} {most : Nat} (exact' : rules.Exact most)
    (clamped : ∀ request, rules.charge request = min (weight request) most) {events : List GateEvent} {gate : Gate}
    (ran : Gate.new.run rules events = some gate) : SafeAdmission rules weight (some most) gate := by
  have sound := Gate.run_sound exact' Gate.new_sound ran
  refine ⟨sound.conserved,?_,?_,fun request => ?_,Gate.idle exact' sound⟩
  · intro _ same
    cases same
    exact sound.bounded
  · intro _ same i j first second held other apart heavy
    cases same
    exact Gate.alone sound held other apart ((clamped first).trans (Nat.min_eq_right (Nat.le_of_lt heavy)))
  · rw [Gate.tryAcquire_refused exact' sound]
    simp

theorem unlimited_safe {events : List GateEvent} {gate : Gate} (ran : Gate.new.run (syntaxMemoryPermitPool none) events = some gate) :
    SafeAdmission (syntaxMemoryPermitPool none) weightedCompilerUnitBytes none gate := by
  have sound := Gate.run_sound unlimited_exact Gate.new_sound ran
  exact ⟨sound.conserved,nofun,nofun,fun request => iff_of_false nofun (fun full => nomatch full.choose_spec.1),
    Gate.idle unlimited_exact sound⟩

def SafeRuns (rules : GateRules) (weight : Nat → Nat) (capacity : Option Nat) : Prop :=
  ∀ events gate, Gate.new.run rules events = some gate → SafeAdmission rules weight capacity gate

theorem admission_gates_safe (capacity : Option Nat) (limit : Nat) (room : ∀ most, capacity = some most → most < u64Max)
    (budget : limit < u64Max) :
    SafeRuns (syntaxMemoryPermitPool capacity) weightedCompilerUnitBytes capacity ∧
      SafeRuns (byteBudget limit) chargedBytes (some (max limit 1)) := by
  refine ⟨fun events gate ran => ?_,fun events gate ran => safe_of_exact (byteBudget_exact budget) (fun _ => rfl) ran⟩
  cases capacity with
  | none => exact unlimited_safe ran
  | some most => exact safe_of_exact (syntaxMemoryPermitPool_exact (room most rfl)) (fun _ => rfl) ran

theorem three_gib_gates_safe :
    SafeRuns (syntaxMemoryPermitPool (some (3 * bytesPerGib))) weightedCompilerUnitBytes (some (3 * bytesPerGib)) ∧
      SafeRuns (byteBudget 4096) chargedBytes (some (max 4096 1)) :=
  admission_gates_safe (some (3 * bytesPerGib)) 4096 (fun _ same => by cases same; decide) (by decide)

-- At the largest word the saturating sum of two whole units still fits.
theorem saturated_capacity_drifts : ¬∀ capacity limit, SafeRuns (syntaxMemoryPermitPool capacity) weightedCompilerUnitBytes capacity ∧
    SafeRuns (byteBudget limit) chargedBytes (some (max limit 1)) := by
  intro claim
  have safe := (claim (some u64Max) 1).1 [.tryAcquire u64Max,.tryAcquire u64Max] _ rfl
  exact absurd safe.conserved (by decide)

end BonsaiNinja.Resources
