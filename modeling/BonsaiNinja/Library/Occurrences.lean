import Mathlib.Data.List.Infix

namespace BonsaiNinja.Library

section
variable {α : Type} [DecidableEq α]

-- The starts of the occurrences that a scan from the left finds; `skip` elements still belong
-- to the last one, and no occurrence starts in them.
def matchesFrom (pattern : List α) : List α → Nat → Nat → List Nat
  | [], _, _ => []
  | _ :: rest, index, skip + 1 => matchesFrom pattern rest (index + 1) skip
  | first :: rest, index, 0 =>
    if pattern <+: first :: rest then index :: matchesFrom pattern rest (index + 1) (pattern.length - 1)
    else matchesFrom pattern rest (index + 1) 0

def matchIndices (pattern text : List α) : List Nat := matchesFrom pattern text 0 0

theorem matchesFrom_skip {pattern text : List α} {index skip : Nat} (inside : skip ≤ text.length) :
    matchesFrom pattern text index skip = matchesFrom pattern (text.drop skip) (index + skip) 0 := by
  induction text generalizing index skip with
  | nil =>
    rw [List.drop_nil]
    rfl
  | cons first rest ih =>
    cases skip with
    | zero => rfl
    | succ skip =>
      rw [matchesFrom,ih (Nat.le_of_succ_le_succ inside),List.drop_succ_cons]
      congr 1
      omega

def FirstAfter (pattern front : List α) : Prop := ∀ shift < front.length, ¬pattern <+: (front ++ pattern).drop shift

theorem matchesFrom_first {pattern front : List α} (first : FirstAfter pattern front) (nonempty : pattern ≠ []) (rest : List α)
    (index : Nat) : matchesFrom pattern (front ++ pattern ++ rest) index 0 =
      (index + front.length) :: matchesFrom pattern rest (index + front.length + pattern.length) 0 := by
  induction front generalizing index with
  | nil =>
    obtain ⟨head,tail,rfl⟩ := List.exists_cons_of_ne_nil nonempty
    have here : head :: tail <+: head :: (tail ++ rest) := List.prefix_append (head :: tail) rest
    have beyond : tail.length ≤ (tail ++ rest).length := by simp
    rw [List.nil_append,List.cons_append,matchesFrom,if_pos here,List.length_cons,Nat.add_sub_cancel,matchesFrom_skip beyond,
      List.drop_left,List.length_nil]
    congr 2
    omega
  | cons head front ih =>
    have later : FirstAfter pattern front := fun shift below => first (shift + 1) (Nat.succ_lt_succ below)
    -- An occurrence that starts in front ends before the one that follows, so the rest does not matter.
    have absent : ¬pattern <+: head :: (front ++ pattern ++ rest) := by
      intro here
      have inner : head :: (front ++ pattern) <+: head :: (front ++ pattern ++ rest) := List.prefix_append (head :: (front ++ pattern)) rest
      exact first 0 (Nat.zero_lt_succ _) (List.prefix_of_prefix_length_le here inner (by simp; omega))
    have moved : index + 1 + front.length = index + (head :: front).length := by
      rw [List.length_cons]
      omega
    rw [List.cons_append,List.cons_append,matchesFrom,if_neg absent,ih later,moved]

theorem first_occurrence (pattern text : List α) :
    (∀ index, matchesFrom pattern text index 0 = []) ∨
      ∃ front rest, FirstAfter pattern front ∧ text = front ++ pattern ++ rest := by
  induction text with
  | nil => exact .inl fun _ => rfl
  | cons head text ih =>
    by_cases here : pattern <+: head :: text
    · obtain ⟨rest,same⟩ := here
      exact .inr ⟨[],rest,fun _ below => absurd below (Nat.not_lt_zero _),same.symm⟩
    · cases ih with
      | inl none =>
        refine .inl fun index => ?_
        rw [matchesFrom,if_neg here]
        exact none _
      | inr found =>
        obtain ⟨front,rest,first,rfl⟩ := found
        refine .inr ⟨head :: front,rest,?_,rfl⟩
        intro shift below
        cases shift with
        | zero =>
          intro start
          exact here (start.trans (List.prefix_append (head :: (front ++ pattern)) rest))
        | succ shift => exact first shift (Nat.lt_of_succ_lt_succ below)

theorem matchesFrom_sound {pattern text : List α} {index : Nat} (nonempty : pattern ≠ []) :
    (matchesFrom pattern text index 0).Pairwise (· < ·) ∧
      ∀ start ∈ matchesFrom pattern text index 0, index ≤ start ∧ pattern <+: text.drop (start - index) := by
  obtain none | ⟨front,rest,first,split⟩ := first_occurrence pattern text
  · rw [none]
    exact ⟨.nil,fun _ member => absurd member List.not_mem_nil⟩
  · have shorter : rest.length < text.length := by
      have long := List.length_pos_of_ne_nil nonempty
      rw [split,List.length_append,List.length_append]
      omega
    obtain ⟨sorted,sound⟩ := @matchesFrom_sound pattern rest (index + front.length + pattern.length) nonempty
    rw [split,matchesFrom_first first nonempty]
    refine ⟨List.pairwise_cons.mpr ⟨?_,sorted⟩,?_⟩
    · intro start member
      have after := (sound start member).1
      have long := List.length_pos_of_ne_nil nonempty
      omega
    · intro start member
      rcases List.mem_cons.mp member with rfl | later
      · refine ⟨Nat.le_add_right _ _,?_⟩
        rw [Nat.add_sub_cancel_left,List.append_assoc,List.drop_left]
        exact List.prefix_append _ _
      · obtain ⟨after,occurs⟩ := sound start later
        refine ⟨by omega,?_⟩
        have shift : start - index = (front ++ pattern).length + (start - (index + front.length + pattern.length)) := by
          rw [List.length_append]
          omega
        rw [shift,List.drop_append,List.drop_eq_nil_of_le (Nat.le_add_right _ _),Nat.add_sub_cancel_left,List.nil_append]
        exact occurs
termination_by text.length

theorem matchIndices_sorted {pattern text : List α} (nonempty : pattern ≠ []) : (matchIndices pattern text).Pairwise (· < ·) :=
  (matchesFrom_sound nonempty).1

theorem matchIndices_occurs {pattern text : List α} {start : Nat} (nonempty : pattern ≠ [])
    (member : start ∈ matchIndices pattern text) : pattern <+: text.drop start := ((matchesFrom_sound nonempty).2 start member).2

-- Texts cut into pieces that each end with the first occurrence in them.
inductive EndsInTurn (pattern : List α) : List α → Prop where
  | last {front : List α} (first : FirstAfter pattern front) : EndsInTurn pattern (front ++ pattern)
  | more {front rest : List α} (first : FirstAfter pattern front) (turns : EndsInTurn pattern rest) :
      EndsInTurn pattern (front ++ pattern ++ rest)

theorem EndsInTurn.found {pattern text : List α} (turns : EndsInTurn pattern text) (nonempty : pattern ≠ []) (index : Nat) :
    pattern.length ≤ text.length ∧ index + (text.length - pattern.length) ∈ matchesFrom pattern text index 0 := by
  induction turns generalizing index with
  | @last front first =>
    refine ⟨by simp,?_⟩
    rw [← List.append_nil (front ++ pattern),matchesFrom_first first nonempty]
    simp
  | @more front rest first turns ih =>
    obtain ⟨long,found⟩ := ih (index + front.length + pattern.length)
    have shift : index + ((front ++ pattern ++ rest).length - pattern.length) =
        index + front.length + pattern.length + (rest.length - pattern.length) := by
      rw [List.length_append,List.length_append]
      omega
    refine ⟨by simp; omega,?_⟩
    rw [shift,matchesFrom_first first nonempty]
    exact List.mem_cons_of_mem _ found

theorem EndsInTurn.of_found {pattern text : List α} (nonempty : pattern ≠ []) (long : pattern.length ≤ text.length) (index : Nat)
    (found : index + (text.length - pattern.length) ∈ matchesFrom pattern text index 0) : EndsInTurn pattern text := by
  obtain none | ⟨front,rest,first,split⟩ := first_occurrence pattern text
  · rw [none] at found
    exact absurd found List.not_mem_nil
  · have positive := List.length_pos_of_ne_nil nonempty
    have lengths : text.length = front.length + pattern.length + rest.length := by
      rw [split,List.length_append,List.length_append]
    have cases := found
    rw [split,matchesFrom_first first nonempty,← split] at cases
    rcases List.mem_cons.mp cases with here | later
    · have none : rest = [] := List.eq_nil_of_length_eq_zero (by omega)
      rw [split,none,List.append_nil]
      exact .last first
    · obtain ⟨after,_⟩ := (matchesFrom_sound nonempty).2 _ later
      have room : pattern.length ≤ rest.length := by omega
      have shift : index + (text.length - pattern.length) =
          index + front.length + pattern.length + (rest.length - pattern.length) := by omega
      rw [shift] at later
      have turns := EndsInTurn.of_found nonempty room _ later
      rw [split]
      exact .more first turns
termination_by text.length
decreasing_by omega

theorem last_occurrence_found {pattern text : List α} (nonempty : pattern ≠ []) (long : pattern.length ≤ text.length) :
    text.length - pattern.length ∈ matchIndices pattern text ↔ EndsInTurn pattern text := by
  constructor
  · intro found
    exact .of_found nonempty long 0 (by rwa [Nat.zero_add])
  · intro turns
    have found := (turns.found nonempty 0).2
    rwa [Nat.zero_add] at found

end

end BonsaiNinja.Library
