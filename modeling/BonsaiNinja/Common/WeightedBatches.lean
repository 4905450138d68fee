import BonsaiNinja.Common.AdmissionPools
import BonsaiNinja.Library.GreedyWindows

namespace BonsaiNinja.Resources
open Library

abbrev U64 := Fin (2 ^ 64)

def overBudget (workingBytes : Option Nat) (bytes : Nat) : Bool := workingBytes.any fun budget => budget < bytes

def weightedBatchesForWorkingSet (sourceBytes : List Nat) (cpuWorkers : Nat) (workingBytes : Option Nat) : List (Nat × Nat) :=
  windows (fun rest => fillWindow (some (max cpuWorkers 1)) (overBudget workingBytes) (rest.map weightedCompilerUnitBytes) 0 0)
    sourceBytes 0

def rawWindowBytes (limit : Nat) (residentBytes : Option Nat) : Nat :=
  let headroom := min (max (limit / weightedCompilerHeadroomDivisor) sourceIngestionMinHeadroomBytes) (limit - 1)
  let resident := residentBytes.getD (limit / 2)
  max ((limit - resident - headroom) / sourceIngestionCopyAmplification) 1

def sourceIngestionBatchesForLimitAndResident (sourceBytes : List Nat) (cpuWorkers : Nat) (limit residentBytes : Option Nat) :
    List (Nat × Nat) :=
  match limit with
  | none => weightedBatchesForWorkingSet sourceBytes cpuWorkers none
  | some limit => windows (fun rest => fillWindow none (rawWindowBytes limit residentBytes < ·) rest 0 0) sourceBytes 0

def largestUnits (sourceBytes : List Nat) : List Nat :=
  (sourceBytes.map weightedCompilerUnitBytes).mergeSort fun left right => right ≤ left

def syntaxWorkerCountForSourcesAndLimit (sourceBytes : List Nat) (cpuWorkers : Nat) (limit residentBytes : Option Nat) : Nat :=
  if sourceBytes.isEmpty then 1
  else
    match syntaxWorkingMemoryBytes limit residentBytes with
    | none => max (min (max cpuWorkers 1) sourceBytes.length) 1
    | some working => max (fillWindow none (working < ·) ((largestUnits sourceBytes).take (max cpuWorkers 1)) 0 0) 1

-- Nonempty ranges that follow one another from the first unit to the last.
def CoversExactly (ranges : List (Nat × Nat)) (length : Nat) : Prop := Tiles 0 (ranges.map offsetCount) length

def unitsOf (sourceBytes : List Nat) (range : Nat × Nat) : List Nat := slice sourceBytes range.1 range.2

-- A range is as long as its bounds allow, and a longer one than a single unit keeps them.
structure WeightedBatch (sourceBytes : List Nat) (cpuWorkers : Nat) (workingBytes : Option Nat) (range : Nat × Nat) : Prop where
  workers : range.2 - range.1 ≤ max cpuWorkers 1
  fits : range.2 = range.1 + 1 ∨ ∀ budget, workingBytes = some budget →
    saturatingSum ((unitsOf sourceBytes range).map weightedCompilerUnitBytes) ≤ budget
  maximal : range.2 = sourceBytes.length ∨ range.2 - range.1 = max cpuWorkers 1 ∨
    ∃ next budget, sourceBytes[range.2]? = some next ∧ workingBytes = some budget ∧
      budget < saturatingAdd (saturatingSum ((unitsOf sourceBytes range).map weightedCompilerUnitBytes)) (weightedCompilerUnitBytes next)

theorem weighted_covers (sourceBytes : List Nat) (cpuWorkers : Nat) (workingBytes : Option Nat) :
    CoversExactly (weightedBatchesForWorkingSet sourceBytes cpuWorkers workingBytes) sourceBytes.length := by
  have tiles := @windows_tile _ (fun rest =>
    fillWindow (some (max cpuWorkers 1)) (overBudget workingBytes) (rest.map weightedCompilerUnitBytes) 0 0)
    (fun rest => (fillWindow_exact _).inside.trans_eq (List.length_map _)) sourceBytes 0
  rwa [Nat.zero_add] at tiles

theorem weighted_batch {sourceBytes : List Nat} {cpuWorkers : Nat} {workingBytes : Option Nat} {range : Nat × Nat}
    (member : range ∈ weightedBatchesForWorkingSet sourceBytes cpuWorkers workingBytes) :
    WeightedBatch sourceBytes cpuWorkers workingBytes range := by
  obtain ⟨i,inside,first,second⟩ := mem_windows member
  rw [Nat.zero_add] at first second
  have filled := @fillWindow_exact (some (max cpuWorkers 1)) (overBudget workingBytes)
    ((sourceBytes.drop i).map weightedCompilerUnitBytes)
  have positive := @fillWindow_positive (some (max cpuWorkers 1)) (overBudget workingBytes)
    ((sourceBytes.drop i).map weightedCompilerUnitBytes) (by
      rw [Ne,List.map_eq_nil_iff,List.drop_eq_nil_iff]
      exact Nat.not_le.mpr inside) (by simp)
  generalize fillWindow (some (max cpuWorkers 1)) (overBudget workingBytes) ((sourceBytes.drop i).map weightedCompilerUnitBytes) 0 0 = count
    at filled positive second
  rw [Nat.max_eq_left positive] at second
  have units : (unitsOf sourceBytes range).map weightedCompilerUnitBytes =
      ((sourceBytes.drop i).map weightedCompilerUnitBytes).take count := by
    rw [unitsOf,slice,first,second,Nat.add_sub_cancel_left,List.map_take]
  have width : range.2 - range.1 = count := by omega
  refine ⟨width ▸ filled.short _ rfl,?_,?_⟩
  · rcases Nat.lt_or_ge count 2 with single | several
    · exact .inl (by omega)
    · refine .inr fun budget same => ?_
      have light := filled.light several
      rw [same,overBudget,Option.any_some] at light
      rw [units]
      exact Nat.not_lt.mp (of_decide_eq_false light)
  · rw [width,units]
    rcases filled.stopped with ends | full | heavy
    · rw [List.length_map,List.length_drop] at ends
      exact .inl (by omega)
    · exact .inr (.inl (Option.some.inj full).symm)
    · obtain ⟨weight,held,tooHeavy⟩ := heavy
      rw [List.getElem?_map,Option.map_eq_some_iff] at held
      obtain ⟨next,held,rfl⟩ := held
      rw [List.getElem?_drop] at held
      obtain ⟨budget,same,more⟩ := (Option.any_eq_true _ _).mp tooHeavy
      exact .inr (.inr ⟨next,budget,second ▸ held,same,of_decide_eq_true more⟩)

theorem rawWindowBytes_lt {limit : Nat} (word : limit ≤ u64Max) (residentBytes : Option Nat) : rawWindowBytes limit residentBytes < u64Max := by
  unfold rawWindowBytes sourceIngestionCopyAmplification u64Max at *
  simp only []
  omega

theorem sum_le_of_saturating {weights : List Nat} {budget : Nat} (small : budget < u64Max) (fits : saturatingSum weights ≤ budget) :
    weights.sum ≤ budget := by
  unfold u64Max at small
  rw [saturatingSum_eq] at fits
  omega

theorem ingestion_covers (sourceBytes : List Nat) (cpuWorkers : Nat) (limit residentBytes : Option Nat) :
    CoversExactly (sourceIngestionBatchesForLimitAndResident sourceBytes cpuWorkers limit residentBytes) sourceBytes.length := by
  cases limit with
  | none => exact weighted_covers _ _ _
  | some limit =>
    have tiles := @windows_tile _ (fun rest => fillWindow none (rawWindowBytes limit residentBytes < ·) rest 0 0)
      (fun rest => (fillWindow_exact rest).inside) sourceBytes 0
    rwa [Nat.zero_add] at tiles

theorem ingestion_batch {sourceBytes : List Nat} {cpuWorkers limit : Nat} (word : limit ≤ u64Max) {residentBytes : Option Nat}
    {range : Nat × Nat}
    (member : range ∈ sourceIngestionBatchesForLimitAndResident sourceBytes cpuWorkers (some limit) residentBytes) :
    range.2 = range.1 + 1 ∨ (unitsOf sourceBytes range).sum ≤ rawWindowBytes limit residentBytes := by
  obtain ⟨i,inside,first,second⟩ := mem_windows member
  rw [Nat.zero_add] at first second
  have filled := @fillWindow_exact none (rawWindowBytes limit residentBytes < ·) (sourceBytes.drop i)
  have positive := @fillWindow_positive none (rawWindowBytes limit residentBytes < ·) (sourceBytes.drop i) (by
    rw [Ne,List.drop_eq_nil_iff]
    exact Nat.not_le.mpr inside) nofun
  generalize fillWindow none (rawWindowBytes limit residentBytes < ·) (sourceBytes.drop i) 0 0 = count at filled positive second
  rw [Nat.max_eq_left positive] at second
  have units : unitsOf sourceBytes range = (sourceBytes.drop i).take count := by
    rw [unitsOf,slice,first,second,Nat.add_sub_cancel_left]
  rcases Nat.lt_or_ge count 2 with single | several
  · exact .inl (by omega)
  · refine .inr (sum_le_of_saturating (rawWindowBytes_lt word residentBytes) ?_)
    rw [units]
    exact Nat.not_lt.mp (of_decide_eq_false (filled.light several))

theorem largestUnits_sorted (sourceBytes : List Nat) : (largestUnits sourceBytes).Pairwise (· ≥ ·) := by
  have sorted := @List.pairwise_mergeSort Nat (fun left right : Nat => decide (right ≤ left))
    (fun a b c first second => decide_eq_true (Nat.le_trans (of_decide_eq_true second) (of_decide_eq_true first)))
    (fun a b => by
      rw [Bool.or_eq_true,decide_eq_true_eq,decide_eq_true_eq]
      exact Nat.le_total b a) (sourceBytes.map weightedCompilerUnitBytes)
  exact sorted.imp of_decide_eq_true

theorem worker_count_exact (sourceBytes : List Nat) (cpuWorkers : Nat) {limit : Option Nat} (word : ∀ most, limit = some most → most ≤ u64Max)
    (residentBytes : Option Nat) :
    let count := syntaxWorkerCountForSourcesAndLimit sourceBytes cpuWorkers limit residentBytes
    1 ≤ count ∧ count ≤ max cpuWorkers 1 ∧ (count = 1 ∨ ∀ units : List Nat, units.length = count →
      units.Subperm (sourceBytes.map weightedCompilerUnitBytes) →
        ∀ working, syntaxWorkingMemoryBytes limit residentBytes = some working → units.sum ≤ working) := by
  intro count
  have unfolded : count = if sourceBytes.isEmpty then 1 else
      match syntaxWorkingMemoryBytes limit residentBytes with
      | none => max (min (max cpuWorkers 1) sourceBytes.length) 1
      | some working => max (fillWindow none (working < ·) ((largestUnits sourceBytes).take (max cpuWorkers 1)) 0 0) 1 := rfl
  clear_value count
  cases empty : sourceBytes.isEmpty with
  | true =>
    rw [empty,if_pos rfl] at unfolded
    exact ⟨by omega,by omega,.inl unfolded⟩
  | false =>
    rw [empty,if_neg Bool.false_ne_true] at unfolded
    cases kept : syntaxWorkingMemoryBytes limit residentBytes with
    | none =>
      have chosen : count = max (min (max cpuWorkers 1) sourceBytes.length) 1 := by rw [unfolded,kept]
      exact ⟨by omega,by omega,.inr nofun⟩
    | some working =>
      have chosen : count = max (fillWindow none (working < ·) ((largestUnits sourceBytes).take (max cpuWorkers 1)) 0 0) 1 := by
        rw [unfolded,kept]
      have small : working < u64Max := by
        cases limit with
        | none => cases kept
        | some most =>
          cases kept
          exact headroom_lt (word most rfl) _
      have filled := @fillWindow_exact none (working < ·) ((largestUnits sourceBytes).take (max cpuWorkers 1))
      generalize fillWindow none (working < ·) ((largestUnits sourceBytes).take (max cpuWorkers 1)) 0 0 = admitted at filled chosen
      have inside := filled.inside
      rw [List.length_take] at inside
      refine ⟨by omega,by omega,?_⟩
      rcases Nat.lt_or_ge admitted 2 with single | several
      · exact .inl (by omega)
      · refine .inr fun units length part held same => ?_
        cases same
        have counted : units.length = admitted := by omega
        have heaviest := sum_le_heaviest (largestUnits_sorted sourceBytes) (List.mergeSort_perm ..) part
        have light := Nat.not_lt.mp (of_decide_eq_false (filled.light several))
        rw [List.take_take,Nat.min_eq_left (by omega)] at light
        rw [counted] at heaviest
        exact heaviest.trans (sum_le_of_saturating small light)

theorem memory_schedules_exact (sourceBytes : List U64) (cpuWorkers : Nat) (limit residentBytes workingBytes : Option U64) :
    let sources := sourceBytes.map Fin.val
    let weighted := weightedBatchesForWorkingSet sources cpuWorkers (workingBytes.map Fin.val)
    let ingestion := sourceIngestionBatchesForLimitAndResident sources cpuWorkers (limit.map Fin.val) (residentBytes.map Fin.val)
    let count := syntaxWorkerCountForSourcesAndLimit sources cpuWorkers (limit.map Fin.val) (residentBytes.map Fin.val)
    (CoversExactly weighted sources.length ∧ ∀ range ∈ weighted, WeightedBatch sources cpuWorkers (workingBytes.map Fin.val) range) ∧
      (CoversExactly ingestion sources.length ∧ ∀ range ∈ ingestion, range.2 = range.1 + 1 ∨
        ∀ most, limit = some most → (unitsOf sources range).sum ≤ rawWindowBytes most (residentBytes.map Fin.val)) ∧
        1 ≤ count ∧ count ≤ max cpuWorkers 1 ∧ (count = 1 ∨ ∀ units : List Nat, units.length = count →
          units.Subperm (sources.map weightedCompilerUnitBytes) →
            ∀ working, syntaxWorkingMemoryBytes (limit.map Fin.val) (residentBytes.map Fin.val) = some working → units.sum ≤ working) := by
  intro sources weighted ingestion count
  have word : ∀ most, limit.map Fin.val = some most → most ≤ u64Max := by
    intro most same
    obtain ⟨value,_,rfl⟩ := Option.map_eq_some_iff.mp same
    exact Nat.le_pred_of_lt value.isLt
  refine ⟨⟨weighted_covers _ _ _,fun range member => weighted_batch member⟩,⟨ingestion_covers _ _ _ _,fun range member => ?_⟩,
    worker_count_exact _ _ word _⟩
  cases limit with
  | none => exact .inr nofun
  | some most =>
    refine (ingestion_batch (word most.val rfl) member).imp (fun single => single) fun fits other same => ?_
    cases same
    exact fits

end BonsaiNinja.Resources
