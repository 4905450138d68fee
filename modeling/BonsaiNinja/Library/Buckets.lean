import BonsaiNinja.Library.RecordFile

namespace BonsaiNinja.Library.Buckets
variable {α : Type u} {κ : Type v} [RowOrder κ] {key : α → κ} {rows : List α}

abbrev KeyOrdered (key : α → κ) (rows : List α) : Prop := rows.Pairwise fun a b => before (key b) (key a) = false

theorem before_of_not_after {a b c : κ} (le : before b a = false) (lower : before b c = true) : before a c = true := by
  cases upper : before a b with
  | true => exact RowOrder.trans _ _ _ upper lower
  | false => exact RowOrder.tri _ _ upper le ▸ lower

theorem KeyOrdered.below (ordered : KeyOrdered key rows) (k : κ) : Partitioned (fun row => before (key row) k) rows :=
  ordered.imp fun le lower => before_of_not_after le lower

theorem KeyOrdered.upTo (ordered : KeyOrdered key rows) (k : κ) : Partitioned (fun row => !before k (key row)) rows := by
  refine ordered.imp fun {a b} le within => ?_
  simp only [Bool.not_eq_true'] at within ⊢
  cases above : before k (key a) with
  | false => rfl
  | true =>
    cases back : before (key a) (key b) with
    | true => rw [RowOrder.trans _ _ _ above back] at within; cases within
    | false => rw [← RowOrder.tri _ _ back le,above] at within; cases within

theorem drop_countP {p : α → Bool} (parts : Partitioned p rows) : rows.drop (rows.countP p) = rows.filter (!p ·) := by
  induction rows with
  | nil => rfl
  | cons row rest ih =>
    obtain ⟨head,tail⟩ := List.pairwise_cons.mp parts
    cases holds : p row with
    | true => rw [List.countP_cons_of_pos holds,List.drop_succ_cons,ih tail,List.filter_cons_of_neg (by simp [holds])]
    | false =>
      have later : ∀ x ∈ rest, p x = false := by
        intro x member
        cases other : p x with
        | false => rfl
        | true => rw [head x member other] at holds; cases holds
      have none : rest.countP p = 0 := List.countP_eq_zero.mpr fun x member => by simp [later x member]
      rw [List.countP_cons_of_neg (by simp [holds]),none,List.drop_zero,List.filter_cons_of_pos (by simp [holds]),
        List.filter_eq_self.mpr fun x member => by simp [later x member]]

theorem takeWhile_filter {p : α → Bool} (parts : Partitioned p rows) : rows.takeWhile p = rows.filter p := by
  induction rows with
  | nil => rfl
  | cons row rest ih =>
    obtain ⟨head,tail⟩ := List.pairwise_cons.mp parts
    cases holds : p row with
    | true => rw [List.takeWhile_cons_of_pos holds,List.filter_cons_of_pos holds,ih tail]
    | false =>
      rw [List.takeWhile_cons_of_neg (by simp [holds]),List.filter_cons_of_neg (by simp [holds])]
      refine (List.filter_eq_nil_iff.mpr fun x member yes => ?_).symm
      rw [head x member yes] at holds
      cases holds

theorem take_countP {p : α → Bool} (parts : Partitioned p rows) : rows.take (rows.countP p) = rows.filter p := by
  rw [← parts.partitionPoint,partitionPoint,← List.prefix_iff_eq_take.mp (List.takeWhile_prefix p),takeWhile_filter parts]

-- Rows between the first key that is not below and the first one above form the
-- bucket of the key.
theorem bucket_eq [DecidableEq κ] (k : κ) (row : α) :
    (decide (key row = k)) = (!before (key row) k && !before k (key row)) := by
  by_cases same : key row = k
  · simp [same,RowOrder.irrefl]
  · cases lower : before (key row) k with
    | true => simp [same]
    | false =>
      cases upper : before k (key row) with
      | true => simp [same]
      | false => exact absurd (RowOrder.tri _ _ lower upper) same

theorem slice_bucket [DecidableEq κ] (ordered : KeyOrdered key rows) (k : κ) :
    slice rows (rows.countP fun row => before (key row) k) (rows.countP fun row => !before k (key row)) =
      rows.filter fun row => key row = k := by
  have split := (ordered.below k)
  have front : rows.countP (fun row => before (key row) k) ≤ rows.countP fun row => !before k (key row) :=
    List.countP_mono_left fun row _ lower => by simp [before_asymm lower]
  rw [slice,← List.drop_take,take_countP (ordered.upTo k)]
  have kept : (rows.filter fun row => !before k (key row)).countP (fun row => before (key row) k) =
      rows.countP fun row => before (key row) k := by
    rw [List.countP_filter]
    refine List.countP_congr fun row _ => ?_
    cases lower : before (key row) k with
    | true => simp [before_asymm lower]
    | false => simp
  rw [← kept,drop_countP (List.Pairwise.filter _ split),List.filter_filter]
  refine List.filter_congr fun row _ => ?_
  rw [bucket_eq]

theorem takeWhile_bucket [DecidableEq κ] (ordered : KeyOrdered key rows) (k : κ) :
    (rows.drop (rows.countP fun row => before (key row) k)).takeWhile (fun row => key row = k) =
      rows.filter fun row => key row = k := by
  rw [drop_countP (ordered.below k)]
  have parts : Partitioned (fun row => decide (key row = k)) (rows.filter fun row => !before (key row) k) := by
    refine List.Pairwise.imp_of_mem ?_ (List.Pairwise.filter _ ordered)
    intro a b member _ le same
    rw [decide_eq_true_eq] at same ⊢
    have notBelow : before (key a) k = false := by simpa using (List.mem_filter.mp member).2
    exact RowOrder.tri _ _ notBelow (same ▸ le)
  rw [takeWhile_filter parts,List.filter_filter]
  refine List.filter_congr fun row _ => ?_
  by_cases same : key row = k
  · simp [same,RowOrder.irrefl]
  · simp [same]

end BonsaiNinja.Library.Buckets
