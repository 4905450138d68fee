import Mathlib.Data.List.Range

namespace BonsaiNinja.Library
variable {blocks : List (Nat × Nat)} {start stop : Nat}

def Laid : List (Nat × Nat) → Nat → Nat → Prop
  | [], start, stop => start ≤ stop
  | (opens,closes) :: rest, start, stop => start ≤ opens ∧ opens ≤ closes ∧ Laid rest closes stop

def gaps : List (Nat × Nat) → Nat → Nat → Nat
  | [], start, stop => stop - start
  | (opens,closes) :: rest, start, stop => opens - start + gaps rest (max start closes) stop

def within (position : Nat) (block : Nat × Nat) : Bool := block.1 ≤ position && position < block.2

def uncovered (blocks : List (Nat × Nat)) (start stop : Nat) : List Nat :=
  (List.range' start (stop - start)).filter fun position => !blocks.any (within position)

section
variable (laid : Laid blocks start stop)
include laid

theorem Laid.ordered : start ≤ stop := by
  induction blocks generalizing start with
  | nil => exact laid
  | cons block rest ih =>
    obtain ⟨before,inside,later⟩ := laid
    exact (before.trans inside).trans (ih later)

theorem Laid.starts {block : Nat × Nat}
    (listed : block ∈ blocks) : start ≤ block.1 ∧ block.2 ≤ stop := by
  induction blocks generalizing start with
  | nil => exact absurd listed List.not_mem_nil
  | cons first rest ih =>
    obtain ⟨before,inside,later⟩ := laid
    rcases List.mem_cons.mp listed with rfl | among
    · exact ⟨before,later.ordered⟩
    · exact ⟨(before.trans inside).trans (ih later among).1,(ih later among).2⟩

theorem Laid.apart :
    blocks.Pairwise fun earlier later => earlier.2 ≤ later.1 := by
  induction blocks generalizing start with
  | nil => exact .nil
  | cons block rest ih =>
    obtain ⟨_,_,later⟩ := laid
    exact .cons (fun other listed => (later.starts listed).1) (ih later)

theorem Laid.lower {earlier : Nat} (before : earlier ≤ start) :
    Laid blocks earlier stop := by
  cases blocks with
  | nil => exact before.trans laid
  | cons block rest => exact ⟨before.trans laid.1,laid.2⟩

theorem Laid.sublist {fewer : List (Nat × Nat)} (part : fewer.Sublist blocks) :
    Laid fewer start stop := by
  induction part generalizing start with
  | slnil => exact laid
  | cons block _ ih =>
    obtain ⟨before,inside,later⟩ := laid
    exact (ih later).lower (before.trans inside)
  | cons_cons block _ ih =>
    obtain ⟨before,inside,later⟩ := laid
    exact ⟨before,inside,ih later⟩

end

theorem range'_split {middle : Nat} (first : start ≤ middle) (second : middle ≤ stop) :
    List.range' start (stop - start) = List.range' start (middle - start) ++ List.range' middle (stop - middle) := by
  have joined := @List.range'_append_1 start (middle - start) (stop - middle)
  rw [Nat.add_sub_cancel' first] at joined
  rw [joined]
  congr 1
  omega

theorem gaps_exact (laid : Laid blocks start stop) :
    gaps blocks start stop = (uncovered blocks start stop).length := by
  induction blocks generalizing start with
  | nil => simp [gaps,uncovered]
  | cons block rest ih =>
    obtain ⟨opens,closes⟩ := block
    obtain ⟨before,inside,later⟩ := laid
    have last := later.ordered
    have front : (List.range' start (opens - start)).filter (fun position => !((opens,closes) :: rest).any (within position)) =
        List.range' start (opens - start) := by
      rw [List.filter_eq_self]
      intro position listed
      have below := (List.mem_range'_1.mp listed).2
      rw [Nat.add_sub_cancel' before] at below
      rw [Bool.not_eq_true',List.any_eq_false]
      intro block among covered
      simp only [within,Bool.and_eq_true,decide_eq_true_eq] at covered
      rcases List.mem_cons.mp among with rfl | among
      · omega
      · have behind := (later.starts among).1
        omega
    have middle : (List.range' opens (closes - opens)).filter (fun position => !((opens,closes) :: rest).any (within position)) = [] := by
      rw [List.filter_eq_nil_iff]
      intro position listed
      have held := List.mem_range'_1.mp listed
      have covered : within position (opens,closes) = true := by
        simp only [within,Bool.and_eq_true,decide_eq_true_eq]
        omega
      simp [covered]
    have back : (List.range' closes (stop - closes)).filter (fun position => !((opens,closes) :: rest).any (within position)) =
        uncovered rest closes stop := by
      refine List.filter_congr fun position listed => ?_
      have held := (List.mem_range'_1.mp listed).1
      have apart : within position (opens,closes) = false := by
        simp only [within,Bool.and_eq_false_iff,decide_eq_false_iff_not]
        omega
      rw [List.any_cons,apart,Bool.false_or]
    rw [gaps,Nat.max_eq_right (before.trans inside),ih later,uncovered.eq_def _ start,range'_split before (inside.trans last),
      range'_split inside last,List.filter_append,List.filter_append,front,middle,back,List.nil_append,List.length_append,
      List.length_range']

theorem uncovered_nodup (blocks : List (Nat × Nat)) (start stop : Nat) : (uncovered blocks start stop).Nodup :=
  (List.nodup_range' 1).filter _

theorem mem_uncovered {position : Nat} : position ∈ uncovered blocks start stop ↔
    (start ≤ position ∧ position < stop) ∧ ∀ block ∈ blocks, ¬(block.1 ≤ position ∧ position < block.2) := by
  rw [uncovered,List.mem_filter,List.mem_range'_1,Bool.not_eq_true',List.any_eq_false]
  refine and_congr (by omega) ?_
  simp only [within,Bool.and_eq_true,decide_eq_true_eq]

end BonsaiNinja.Library
