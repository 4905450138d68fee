import BonsaiNinja.Library.Rows

namespace BonsaiNinja.Library

theorem foldl_keeps {view : σ → β} {deliver : σ → κ → σ} (kept : ∀ s x, view (deliver s x) = view s) (s : σ)
    (page : List κ) : view (page.foldl deliver s) = view s := by
  induction page generalizing s with
  | nil => rfl
  | cons x rest ih => rw [List.foldl_cons, ih, kept]

section
variable {κ : Type u} [RowOrder κ]

def afterCursor (rows : List κ) : Option κ → List κ
  | none => rows
  | some last => rows.filter (before last)

-- Delivers a relation held by the state itself, page by page; each page is read
-- from the state the earlier pages left behind.
def replayPages (size : Nat) (rows : σ → List κ) (deliver : σ → κ → σ) : Nat → Option κ → σ → σ
  | 0, _, s => s
  | fuel + 1, cursor, s =>
    match ((afterCursor (rows s) cursor).take size).getLast? with
    | none => s
    | some last =>
      replayPages size rows deliver fuel (some last) (((afterCursor (rows s) cursor).take size).foldl deliver s)

theorem afterCursor_sorted {rows : List κ} (sorted : Sorted rows) (cursor : Option κ) : Sorted (afterCursor rows cursor) := by
  cases cursor with
  | none => exact sorted
  | some last => exact sorted.filter _

theorem filter_after_page {rows : List κ} (sorted : Sorted rows) {size : Nat} {last : κ}
    (ends : (rows.take size).getLast? = some last) : rows.filter (before last) = rows.drop size := by
  obtain ⟨front,split⟩ := List.getLast?_eq_some_iff.mp ends
  have whole : front ++ [last] ++ rows.drop size = rows := by rw [← split, List.take_append_drop]
  have parts := List.pairwise_append.mp (by rw [whole]; exact sorted : Sorted (front ++ [last] ++ rows.drop size))
  have earlier : (front ++ [last]).filter (before last) = [] := by
    refine List.filter_eq_nil_iff.mpr fun x member => ?_
    rcases List.mem_append.mp member with inFront | isLast
    · have lower := (List.pairwise_append.mp parts.1).2.2 x inFront last (by simp)
      simp [before_asymm lower]
    · simp [List.mem_singleton.mp isLast,RowOrder.irrefl]
  have later : (rows.drop size).filter (before last) = rows.drop size :=
    List.filter_eq_self.mpr fun x member => parts.2.2 last (by simp) x member
  calc rows.filter (before last)
      = (front ++ [last] ++ rows.drop size).filter (before last) := by rw [whole]
    _ = rows.drop size := by rw [List.filter_append, earlier, later, List.nil_append]

theorem afterCursor_next {rows : List κ} (sorted : Sorted rows) {size : Nat} {cursor : Option κ} {last : κ}
    (ends : ((afterCursor rows cursor).take size).getLast? = some last) :
    afterCursor rows (some last) = (afterCursor rows cursor).drop size := by
  have reached : last ∈ afterCursor rows cursor := List.mem_of_mem_take (List.mem_of_getLast? ends)
  rw [← filter_after_page (afterCursor_sorted sorted cursor) ends]
  cases cursor with
  | none => rfl
  | some previous =>
    have passed : before previous last = true := (List.mem_filter.mp reached).2
    rw [afterCursor, afterCursor, List.filter_filter]
    refine List.filter_congr fun x _ => ?_
    cases later : before last x with
    | false => rfl
    | true => exact (RowOrder.trans _ _ _ passed later).symm

-- Paging only bounds what is held at once: every row is delivered, once and in
-- order.
theorem replayPages_eq {size : Nat} {rows : σ → List κ} {deliver : σ → κ → σ} (positive : 0 < size)
    (kept : ∀ s x, rows (deliver s x) = rows s) {s : σ} (sorted : Sorted (rows s)) {fuel : Nat} {cursor : Option κ}
    (enough : (afterCursor (rows s) cursor).length ≤ fuel) :
    replayPages size rows deliver fuel cursor s = (afterCursor (rows s) cursor).foldl deliver s := by
  induction fuel generalizing s cursor with
  | zero =>
    have none_left : afterCursor (rows s) cursor = [] := List.length_eq_zero_iff.mp (by omega)
    rw [none_left]
    rfl
  | succ fuel ih =>
    rw [replayPages]
    cases ends : ((afterCursor (rows s) cursor).take size).getLast? with
    | none =>
      have empty := List.getLast?_eq_none_iff.mp ends
      have none_left : afterCursor (rows s) cursor = [] := by
        rcases List.take_eq_nil_iff.mp empty with zero | nil
        · omega
        · exact nil
      rw [none_left]
      rfl
    | some last =>
      have next := afterCursor_next sorted ends
      have same := foldl_keeps kept s ((afterCursor (rows s) cursor).take size)
      have longer : 0 < (afterCursor (rows s) cursor).length :=
        List.length_pos_of_mem (List.mem_of_mem_take (List.mem_of_getLast? ends))
      dsimp only
      rw [ih (by rw [same]; exact sorted) (by rw [same, next, List.length_drop]; omega), same, next, ← List.foldl_append,
        List.take_append_drop]

end

end BonsaiNinja.Library
