import BonsaiNinja.Library.RecordFile

namespace BonsaiNinja.Library
variable {α : Type u} [RowOrder α]

def sortUnstable (rows : List α) : List α := rows.mergeSort fun a b => !before b a

@[simp] theorem mem_sortUnstable {rows : List α} {x : α} : x ∈ sortUnstable rows ↔ x ∈ rows :=
  (List.mergeSort_perm rows _).mem_iff

theorem not_before_trans (a b c : α) (ab : (!before b a) = true) (bc : (!before c b) = true) : (!before c a) = true := by
  rw [Bool.not_eq_true'] at ab bc ⊢
  cases up : before c a with
  | false => rfl
  | true =>
    cases down : before b c with
    | true => rw [RowOrder.trans _ _ _ down up] at ab; cases ab
    | false => rw [RowOrder.tri _ _ down bc,up] at ab; cases ab

theorem not_before_total (a b : α) : (!before b a || !before a b) = true := by
  cases lower : before b a with
  | true => rw [before_asymm lower]; rfl
  | false => rfl

theorem sortUnstable_sorted {rows : List α} (distinct : rows.Nodup) : Sorted (sortUnstable rows) := by
  have ordered : (sortUnstable rows).Pairwise fun a b => (!before b a) = true :=
    List.pairwise_mergeSort not_before_trans not_before_total rows
  have apart : (sortUnstable rows).Nodup := (List.mergeSort_perm rows _).nodup_iff.mpr distinct
  refine (ordered.and apart).imp fun both => ?_
  exact before_of_ne both.2 (by simpa using both.1)

theorem Sorted.rank_getElem {rows : List α} (sorted : Sorted rows) {i : Nat} (inside : i < rows.length) :
    rows.countP (before · rows[i]) = i := by
  have parts := sorted.partitioned rows[i]
  have atLeast : ¬ i < rows.countP (before · rows[i]) := by
    rw [← parts.lt_countP inside,RowOrder.irrefl]
    exact Bool.false_ne_true
  cases Nat.lt_or_ge (rows.countP (before · rows[i])) i with
  | inr ge => omega
  | inl fewer =>
    have lower := List.pairwise_iff_getElem.mp sorted _ _ (Nat.lt_trans fewer inside) inside fewer
    have counted := (parts.lt_countP (Nat.lt_trans fewer inside)).mp lower
    exact absurd counted (Nat.lt_irrefl _)

theorem Sorted.mem_iff_rank {rows : List α} (sorted : Sorted rows) (x : α) :
    x ∈ rows ↔ rows[rows.countP (before · x)]? = some x := by
  constructor
  · intro member
    obtain ⟨i,inside,rfl⟩ := List.getElem_of_mem member
    rw [sorted.rank_getElem inside,List.getElem?_eq_getElem inside]
  · exact List.mem_of_getElem?

theorem Sorted.mem_take_iff {rows : List α} (sorted : Sorted rows) {x : α} (member : x ∈ rows) (n : Nat) :
    x ∈ rows.take n ↔ rows.countP (before · x) < n := by
  obtain ⟨i,inside,rfl⟩ := List.getElem_of_mem member
  rw [sorted.rank_getElem inside]
  constructor
  · intro taken
    obtain ⟨j,short,same⟩ := List.getElem_of_mem taken
    rw [List.getElem_take] at same
    rw [List.length_take] at short
    have equal := (List.Nodup.getElem_inj_iff sorted.nodup).mp same
    omega
  · intro lower
    exact List.mem_take_iff_getElem.mpr ⟨i,by omega,rfl⟩

-- A page is fixed by its first rows: a sorted list between the first n rows of
-- another and the whole of it has the same first n rows.
theorem Sorted.take_eq {whole part : List α} (sorted : Sorted whole) (partSorted : Sorted part) {n : Nat}
    (inside : ∀ x ∈ part, x ∈ whole) (first : ∀ x ∈ whole.take n, x ∈ part) : part.take n = whole.take n := by
  refine Sorted.ext (partSorted.sublist (List.take_sublist n part)) (sorted.sublist (List.take_sublist n whole)) fun x => ?_
  have fewer : part.countP (before · x) ≤ whole.countP (before · x) := by
    rw [List.countP_eq_length_filter,List.countP_eq_length_filter]
    refine (List.subperm_of_subset (partSorted.nodup.filter _) fun y member => ?_).length_le
    obtain ⟨member,lower⟩ := List.mem_filter.mp member
    exact List.mem_filter.mpr ⟨inside y member,lower⟩
  constructor
  · intro taken
    have member := List.mem_of_mem_take taken
    by_contra later
    have far := (sorted.mem_take_iff (inside x member) n).not.mp later
    -- The first n rows all come before x, and all of them are in the part.
    have crowded : n ≤ part.countP (before · x) := by
      have all : (whole.take n).countP (before · x) = (whole.take n).length := by
        refine List.countP_eq_length.mpr fun y early => ?_
        obtain ⟨j,short,rfl⟩ := List.getElem_of_mem early
        rw [List.getElem_take]
        rw [List.length_take] at short
        exact ((sorted.partitioned x).lt_countP _).mpr (by omega)
      have room : (whole.take n).length = n := by
        have bounded := List.countP_le_length (p := (before · x)) (l := whole)
        rw [List.length_take]
        omega
      rw [← room,← all,List.countP_eq_length_filter,List.countP_eq_length_filter]
      refine (List.subperm_of_subset ((sorted.nodup.sublist (List.take_sublist n whole)).filter _) fun y member => ?_).length_le
      obtain ⟨member,lower⟩ := List.mem_filter.mp member
      exact List.mem_filter.mpr ⟨first y member,lower⟩
    have near := (partSorted.mem_take_iff member n).mp taken
    omega
  · intro taken
    have member := first x taken
    have near := (sorted.mem_take_iff (List.mem_of_mem_take taken) n).mp taken
    exact (partSorted.mem_take_iff member n).mpr (by omega)

theorem take_sortDedup_flatMap [DecidableEq α] {sources : List (List α)} (sorted : ∀ rows ∈ sources, Sorted rows) (n : Nat) :
    (sortDedup (sources.flatMap (List.take n))).take n = (sortDedup sources.flatten).take n := by
  refine Sorted.take_eq (sortDedup_sorted _) (sortDedup_sorted _) (fun x member => ?_) (fun x taken => ?_)
  · obtain ⟨rows,source,early⟩ := List.mem_flatMap.mp (mem_sortDedup.mp member)
    exact mem_sortDedup.mpr (List.mem_flatten.mpr ⟨rows,source,List.mem_of_mem_take early⟩)
  · have member := List.mem_of_mem_take taken
    have near := ((sortDedup_sorted _).mem_take_iff member n).mp taken
    obtain ⟨rows,source,held⟩ := List.mem_flatten.mp (mem_sortDedup.mp member)
    refine mem_sortDedup.mpr (List.mem_flatMap.mpr ⟨rows,source,?_⟩)
    refine ((sorted rows source).mem_take_iff held n).mpr (Nat.lt_of_le_of_lt ?_ near)
    rw [List.countP_eq_length_filter,List.countP_eq_length_filter]
    refine (List.subperm_of_subset ((sorted rows source).nodup.filter _) fun y early => ?_).length_le
    obtain ⟨early,lower⟩ := List.mem_filter.mp early
    exact List.mem_filter.mpr ⟨mem_sortDedup.mpr (List.mem_flatten.mpr ⟨rows,source,early⟩),lower⟩

end BonsaiNinja.Library
