import Mathlib.Algebra.BigOperators.Group.List.Basic
import Mathlib.Data.List.Count
import Mathlib.Tactic.Linarith

namespace BonsaiNinja.Library

-- Nonempty ranges, given by offset and count, that follow one another.
inductive Tiles : Nat → List (Nat × Nat) → Nat → Prop
  | nil (start : Nat) : Tiles start [] start
  | cons {start count stop : Nat} {rest : List (Nat × Nat)} (positive : 0 < count) (later : Tiles (start + count) rest stop) :
      Tiles start ((start,count) :: rest) stop

namespace Tiles
variable {start stop : Nat} {ranges : List (Nat × Nat)}

section
variable (tiles : Tiles start ranges stop)
include tiles

theorem le : start ≤ stop := by
  induction tiles with
  | nil => exact Nat.le_refl _
  | cons _ _ ih => omega

theorem bounds {range : Nat × Nat} (member : range ∈ ranges) :
    start ≤ range.1 ∧ 0 < range.2 ∧ range.1 + range.2 ≤ stop := by
  induction tiles with
  | nil => cases member
  | cons positive later ih =>
    cases List.mem_cons.mp member with
    | inl same =>
      rw [same]
      exact ⟨Nat.le_refl _,positive,later.le⟩
    | inr rest =>
      have inside := ih rest
      exact ⟨by omega,inside.2⟩

theorem offsets_nodup : (ranges.map (·.1)).Nodup := by
  induction tiles with
  | nil => exact .nil
  | @cons start count stop rest positive later ih =>
    refine List.nodup_cons.mpr ⟨fun member => ?_,ih⟩
    obtain ⟨range,inside,same⟩ := List.mem_map.mp member
    have front := (later.bounds inside).1
    have back : range.1 = start := same
    omega

theorem snoc {count : Nat} (positive : 0 < count) :
    Tiles start (ranges ++ [(stop,count)]) (stop + count) := by
  induction tiles with
  | nil start => exact .cons positive (.nil _)
  | cons first _ ih => exact .cons first ih

end

theorem flatMap_eq {rows : List α} (tiles : Tiles start ranges rows.length) :
    (ranges.flatMap fun range => (rows.drop range.1).take range.2) = rows.drop start := by
  generalize ends : rows.length = stop at tiles
  induction tiles with
  | nil start =>
    rw [List.flatMap_nil,← ends,List.drop_length]
  | cons positive later ih =>
    rw [List.flatMap_cons,ih ends,← List.drop_drop,List.take_append_drop]

end Tiles

end BonsaiNinja.Library

namespace BonsaiNinja.Library

def slice (rows : List α) (start stop : Nat) : List α := (rows.drop start).take (stop - start)

@[simp] theorem slice_middle (before middle after : List α) :
    slice (before ++ middle ++ after) before.length (before ++ middle).length = middle := by
  simp [slice]

-- Running totals: entry `i` is `total` plus the first `i + 1` counts.
def accumulate (total : Nat) : List Nat → List Nat
  | [] => []
  | count :: rest => (total + count) :: accumulate (total + count) rest

theorem getElem?_accumulate (counts : List Nat) (total i : Nat) :
    (accumulate total counts)[i]? = if i < counts.length then some (total + (counts.take (i + 1)).sum) else none := by
  induction counts generalizing total i with
  | nil => simp [accumulate]
  | cons count rest ih =>
    cases i with
    | zero => simp [accumulate]
    | succ i =>
      rw [accumulate, List.getElem?_cons_succ, ih]
      simp only [List.length_cons, Nat.add_lt_add_iff_right, List.take_succ_cons, List.sum_cons, Nat.add_assoc]

theorem sum_take_modify (counts : List Nat) (j n : Nat) :
    ((counts.modify j (· + 1)).take n).sum = (counts.take n).sum + if j < n ∧ j < counts.length then 1 else 0 := by
  induction counts generalizing j n with
  | nil => simp
  | cons count rest ih =>
    cases n with
    | zero => simp
    | succ n =>
      cases j with
      | zero => simp; omega
      | succ j =>
        rw [List.modify_succ_cons, List.take_succ_cons, List.take_succ_cons, List.sum_cons, List.sum_cons, ih]
        simp only [Nat.add_lt_add_iff_right, List.length_cons]
        omega

theorem getElem?_flatten_sum {rows : List (List α)} {row : List α} {i k : Nat} (found : rows[i]? = some row)
    (inside : k < row.length) : rows.flatten[((rows.map List.length).take i).sum + k]? = row[k]? := by
  obtain ⟨bound,rfl⟩ := List.getElem?_eq_some_iff.mp found
  rw [← List.getElem?_drop, List.drop_sum_flatten, List.drop_eq_getElem_cons bound, List.flatten_cons,
    List.getElem?_append_left inside]

theorem getElem?_filterMap_range {f : Nat → Option α} {n : Nat} (total : ∀ i < n, (f i).isSome = true) :
    ((List.range n).filterMap f).length = n ∧
      ∀ i : Nat, ((List.range n).filterMap f)[i]? = if i < n then f i else none := by
  induction n with
  | zero => simp
  | succ n ih =>
    obtain ⟨length,rows⟩ := ih fun i lower => total i (by omega)
    obtain ⟨value,last⟩ := Option.isSome_iff_exists.mp (total n (by omega))
    rw [List.range_succ, List.filterMap_append, List.filterMap_cons_some last, List.filterMap_nil]
    refine ⟨by rw [List.length_append, length, List.length_singleton],fun i => ?_⟩
    rcases Nat.lt_trichotomy i n with lower | rfl | upper
    · rw [List.getElem?_append_left (by omega), rows, if_pos lower, if_pos (by omega)]
    · rw [List.getElem?_append_right (by omega), length, Nat.sub_self, List.getElem?_cons_zero, if_pos (by omega), last]
    · rw [List.getElem?_eq_none (by rw [List.length_append, length, List.length_singleton]; omega), if_neg (by omega)]

-- Counting sort's directory: `offsets[key] .. offsets[key + 1]` is the range of
-- `key` in a table sorted by key.
def countOffsets (keys : List Nat) (size : Nat) : List Nat :=
  accumulate 0 (keys.foldl (fun counts key => counts.modify (key + 1) (· + 1)) (List.replicate size 0))

theorem sum_take_tally (keys counts : List Nat) (n : Nat) (fits : ∀ key ∈ keys, key < counts.length) :
    ((keys.foldl (fun counts key => counts.modify key (· + 1)) counts).take n).sum =
      (counts.take n).sum + keys.countP (· < n) ∧
    (keys.foldl (fun counts key => counts.modify key (· + 1)) counts).length = counts.length := by
  induction keys generalizing counts with
  | nil => simp
  | cons key rest ih =>
    have later := ih (counts.modify key (· + 1)) fun other member => by
      rw [List.length_modify]; exact fits other (List.mem_cons_of_mem _ member)
    rw [List.foldl_cons, later.1, later.2, List.length_modify, sum_take_modify, List.countP_cons]
    refine ⟨?_,rfl⟩
    have room := fits key (by simp)
    simp only [room, and_true, decide_eq_true_eq]
    omega

theorem sum_take_counts (keys counts : List Nat) (n : Nat) (fits : ∀ key ∈ keys, key + 1 < counts.length) :
    ((keys.foldl (fun counts key => counts.modify (key + 1) (· + 1)) counts).take n).sum =
      (counts.take n).sum + keys.countP (· + 1 < n) ∧
    (keys.foldl (fun counts key => counts.modify (key + 1) (· + 1)) counts).length = counts.length := by
  have shifted := sum_take_tally (keys.map (· + 1)) counts n (by simpa using fits)
  rw [List.foldl_map, List.countP_map] at shifted
  exact shifted

theorem getElem?_countOffsets {keys : List Nat} {size i : Nat} (fits : ∀ key ∈ keys, key + 1 < size) :
    (countOffsets keys size)[i]? = if i < size then some (keys.countP (· < i)) else none := by
  have counted := sum_take_counts keys (List.replicate size 0) (i + 1) (by simpa using fits)
  rw [countOffsets, getElem?_accumulate, counted.1, counted.2]
  simp

-- In a table sorted by key the rows below `key` are a prefix and the rows of
-- `key` follow it.
theorem slice_countP {rows : List α} {key : α → Nat} (sorted : rows.Pairwise fun a b => key a ≤ key b) (k : Nat) :
    slice rows (rows.countP (key · < k)) (rows.countP (key · < k + 1)) = rows.filter (key · = k) := by
  induction rows with
  | nil => simp [slice]
  | cons row rest ih =>
    obtain ⟨head,tail⟩ := List.pairwise_cons.mp sorted
    have previous := ih tail
    rcases Nat.lt_trichotomy (key row) k with lower | same | upper
    · have counts : ∀ n, k ≤ n → (row :: rest).countP (key · < n) = rest.countP (key · < n) + 1 := fun n bound => by
        rw [List.countP_cons_of_pos (by simpa using lower.trans_le bound)]
      rw [counts k (Nat.le_refl _), counts (k + 1) (by omega), List.filter_cons_of_neg (by simp; omega)]
      simpa [slice,Nat.add_sub_add_right] using previous
    · have none : ∀ other ∈ rest, ¬key other < k := fun other member => by have := head other member; omega
      have zero : rest.countP (key · < k) = 0 := List.countP_eq_zero.mpr (by simpa using none)
      rw [zero] at previous
      rw [List.countP_cons_of_neg (by simp; omega), List.countP_cons_of_pos (by simp; omega), zero,
        List.filter_cons_of_pos (by simpa using same), ← previous]
      simp [slice]
    · have none : ∀ n, n ≤ k + 1 → (row :: rest).countP (key · < n) = 0 := fun n bound => by
        refine List.countP_eq_zero.mpr fun other member => ?_
        rcases List.mem_cons.mp member with rfl | later
        · simp; omega
        · have := head other later; simp; omega
      have empty : (row :: rest).filter (key · = k) = [] := by
        refine List.filter_eq_nil_iff.mpr fun other member => ?_
        rcases List.mem_cons.mp member with rfl | later
        · simp; omega
        · have := head other later; simp; omega
      rw [none k (by omega), none (k + 1) (Nat.le_refl _), empty]
      simp [slice]

end BonsaiNinja.Library
