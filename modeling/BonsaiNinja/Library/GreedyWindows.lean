import BonsaiNinja.Library.FileAccess
import Mathlib.Data.List.Induction

namespace BonsaiNinja.Library
variable {most : Option Nat} {heavy : Nat → Bool}

def saturatingSum (weights : List Nat) : Nat := weights.foldl saturatingAdd 0

theorem saturatingSum_snoc (weights : List Nat) (weight : Nat) :
    saturatingSum (weights ++ [weight]) = saturatingAdd (saturatingSum weights) weight := List.foldl_concat ..

theorem saturatingSum_eq (weights : List Nat) : saturatingSum weights = min weights.sum (2 ^ 64 - 1) := by
  induction weights using List.reverseRecOn with
  | nil => rfl
  | append_singleton weights weight ih =>
    rw [saturatingSum_snoc,ih,List.sum_append,List.sum_singleton,saturatingAdd]
    omega

-- A window takes weights from the front until it is long enough or the next one would make
-- it too heavy; the first weight is never too heavy.
def fillWindow (most : Option Nat) (heavy : Nat → Bool) : List Nat → Nat → Nat → Nat
  | [], count, _ => count
  | weight :: rest, count, total =>
    if most.any (· ≤ count) then count
    else if 0 < count && heavy (saturatingAdd total weight) then count
    else fillWindow most heavy rest (count + 1) (saturatingAdd total weight)

structure Filled (most : Option Nat) (heavy : Nat → Bool) (weights : List Nat) (count : Nat) : Prop where
  inside : count ≤ weights.length
  short : ∀ bound, most = some bound → count ≤ bound
  light : 2 ≤ count → heavy (saturatingSum (weights.take count)) = false
  stopped : count = weights.length ∨ most = some count ∨
    ∃ next, weights[count]? = some next ∧ heavy (saturatingAdd (saturatingSum (weights.take count)) next) = true

theorem fillWindow_filled {taken rest : List Nat}
    (short : ∀ bound, most = some bound → taken.length ≤ bound)
    (light : 2 ≤ taken.length → heavy (saturatingSum taken) = false) :
    Filled most heavy (taken ++ rest) (fillWindow most heavy rest taken.length (saturatingSum taken)) := by
  induction rest generalizing taken with
  | nil =>
    rw [List.append_nil]
    exact ⟨Nat.le_refl _,short,fun two => (List.take_length (l := taken)).symm ▸ light two,.inl rfl⟩
  | cons weight rest ih =>
    have front : (taken ++ weight :: rest).take taken.length = taken := List.take_left
    have here : (taken ++ weight :: rest)[taken.length]? = some weight := by simp
    rw [fillWindow]
    split
    · next full =>
      obtain ⟨bound,same,reached⟩ := (Option.any_eq_true _ _).mp full
      have equal : bound = taken.length := Nat.le_antisymm (of_decide_eq_true reached) (short bound same)
      exact ⟨by simp,short,fun two => front.symm ▸ light two,.inr (.inl (equal ▸ same))⟩
    · next room =>
      split
      · next tooHeavy =>
        obtain ⟨_,heavier⟩ := Bool.and_eq_true_iff.mp tooHeavy
        exact ⟨by simp,short,fun two => front.symm ▸ light two,.inr (.inr ⟨weight,here,front.symm ▸ heavier⟩)⟩
      · next under =>
        have moved : taken ++ weight :: rest = (taken ++ [weight]) ++ rest := by simp
        have longer : taken.length + 1 = (taken ++ [weight]).length := by simp
        rw [moved,longer,← saturatingSum_snoc]
        refine ih (fun bound same => ?_) fun two => ?_
        · have free : ¬bound ≤ taken.length := fun reached => room (by simp [same,reached])
          rw [← longer]
          exact Nat.lt_of_not_le free
        · have started : 0 < taken.length := by omega
          rw [saturatingSum_snoc]
          simpa [started] using under

theorem fillWindow_exact (weights : List Nat) :
    Filled most heavy weights (fillWindow most heavy weights 0 0) :=
  @fillWindow_filled most heavy [] weights (fun _ _ => Nat.zero_le _) nofun

theorem fillWindow_positive {weights : List Nat} (more : weights ≠ [])
    (room : ∀ bound, most = some bound → 0 < bound) : 0 < fillWindow most heavy weights 0 0 := by
  refine Nat.pos_of_ne_zero fun zero => ?_
  cases weights with
  | nil => exact more rfl
  | cons weight rest =>
    have grows : ∀ (rest : List Nat) (count total : Nat), count ≤ fillWindow most heavy rest count total := by
      intro rest
      induction rest with
      | nil => intro count total; exact Nat.le_refl _
      | cons weight rest ih =>
        intro count total
        rw [fillWindow]
        split
        · exact Nat.le_refl _
        · split
          · exact Nat.le_refl _
          · exact Nat.le_of_succ_le (ih _ _)
    rw [fillWindow] at zero
    have free : ¬most.any (· ≤ 0) := by
      cases most with
      | none => simp
      | some bound =>
        have positive := room bound rfl
        simp only [Option.any_some,decide_eq_true_eq]
        omega
    rw [if_neg free,if_neg (by simp)] at zero
    have least := grows rest (0 + 1) (saturatingAdd 0 weight)
    omega

def windows (window : List α → Nat) (rows : List α) (start : Nat) : List (Nat × Nat) :=
  if rows.length = 0 then []
  else
    let count := max (window rows) 1
    (start,start + count) :: windows window (rows.drop count) (start + count)
termination_by rows.length
decreasing_by rw [List.length_drop]; omega

def offsetCount (range : Nat × Nat) : Nat × Nat := (range.1,range.2 - range.1)

theorem windows_tile {window : List α → Nat} (inside : ∀ rows, window rows ≤ rows.length) (rows : List α) (start : Nat) :
    Tiles start ((windows window rows start).map offsetCount) (start + rows.length) := by
  induction length : rows.length using Nat.strong_induction_on generalizing rows start with
  | _ size ih =>
    rw [windows]
    split
    · next empty =>
      rw [← length,empty]
      exact .nil start
    · next more =>
      have fits := inside rows
      have later := ih (rows.drop (max (window rows) 1)).length (by rw [List.length_drop]; omega) _ (start + max (window rows) 1) rfl
      have ends : start + max (window rows) 1 + (rows.drop (max (window rows) 1)).length = start + size := by
        rw [List.length_drop]
        omega
      have width : offsetCount (start,start + max (window rows) 1) = (start,max (window rows) 1) := by
        simp [offsetCount]
      rw [ends] at later
      rw [List.map_cons,width]
      exact .cons (by omega) later

theorem mem_windows {window : List α → Nat} {rows : List α} {start : Nat} {range : Nat × Nat}
    (member : range ∈ windows window rows start) :
    ∃ i < rows.length, range.1 = start + i ∧ range.2 = start + i + max (window (rows.drop i)) 1 := by
  induction size : rows.length using Nat.strong_induction_on generalizing rows start with
  | _ size ih =>
    rw [windows] at member
    split at member
    · cases member
    · next more =>
      cases List.mem_cons.mp member with
      | inl same =>
        rw [same]
        exact ⟨0,by omega,rfl,by simp⟩
      | inr later =>
        obtain ⟨i,within,first,second⟩ := ih (rows.drop (max (window rows) 1)).length (by rw [List.length_drop]; omega) later rfl
        rw [List.length_drop] at within
        rw [List.drop_drop] at second
        exact ⟨max (window rows) 1 + i,by omega,by omega,by omega⟩

theorem sum_le_sum_take {sorted chosen : List Nat} (descending : sorted.Pairwise (· ≥ ·)) (part : chosen.Sublist sorted) :
    chosen.sum ≤ (sorted.take chosen.length).sum := by
  induction part with
  | slnil => exact Nat.le_refl _
  | @cons chosen sorted first _ ih =>
    obtain ⟨above,below⟩ := List.pairwise_cons.mp descending
    refine (ih below).trans ?_
    cases chosen with
    | nil => exact Nat.zero_le _
    | cons weight chosen =>
      rw [List.length_cons,List.take_succ_cons,List.sum_cons,Nat.add_comm first,List.take_add_one,List.sum_append]
      refine Nat.add_le_add_left ?_ _
      cases held : sorted[chosen.length]? with
      | none => exact Nat.zero_le _
      | some next =>
        have small := above next (List.mem_of_getElem? held)
        simpa using small
  | cons_cons weight _ ih =>
    rw [List.length_cons,List.take_succ_cons,List.sum_cons,List.sum_cons]
    exact Nat.add_le_add_left (ih (List.pairwise_cons.mp descending).2) _

theorem sum_le_heaviest {sorted weights chosen : List Nat} (descending : sorted.Pairwise (· ≥ ·)) (same : sorted.Perm weights)
    (part : chosen.Subperm weights) : chosen.sum ≤ (sorted.take chosen.length).sum := by
  obtain ⟨listed,perm,sub⟩ := part.trans same.symm.subperm
  rw [← perm.sum_eq,← perm.length_eq]
  exact sum_le_sum_take descending sub

end BonsaiNinja.Library
