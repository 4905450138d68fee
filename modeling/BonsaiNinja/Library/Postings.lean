import Mathlib.Data.List.Range

namespace BonsaiNinja.Library

variable {α κ : Type} [DecidableEq κ] (key : α → κ)

def postings (rows : List α) (k : κ) : List Nat :=
  (List.range rows.length).filter fun i => rows[i]?.any (key · = k)

variable {key} {rows : List α} {k : κ}

@[simp] theorem mem_postings {i : Nat} : i ∈ postings key rows k ↔ ∃ row, rows[i]? = some row ∧ key row = k := by
  unfold postings
  rw [List.mem_filter, List.mem_range]
  constructor
  · intro found
    obtain ⟨inside,same⟩ := found
    rw [List.getElem?_eq_getElem inside] at same ⊢
    exact ⟨_,rfl,of_decide_eq_true same⟩
  · intro found
    obtain ⟨row,present,same⟩ := found
    exact ⟨(List.getElem?_eq_some_iff.mp present).1,by rw [present]; exact decide_eq_true same⟩

theorem postings_snoc (rows : List α) (row : α) (k : κ) :
    postings key (rows ++ [row]) k = postings key rows k ++ if key row = k then [rows.length] else [] := by
  unfold postings
  rw [List.length_append, List.length_singleton, List.range_succ, List.filter_append]
  have earlier : (List.range rows.length).filter (fun i => (rows ++ [row])[i]?.any (key · = k)) =
      (List.range rows.length).filter fun i => rows[i]?.any (key · = k) := by
    refine List.filter_congr fun i inside => ?_
    rw [List.getElem?_append_left (List.mem_range.mp inside)]
  rw [earlier]
  congr 1
  rw [List.filter_singleton, List.getElem?_append_right (Nat.le_refl _), Nat.sub_self, List.getElem?_cons_zero]
  by_cases same : key row = k
  · simp [same]
  · simp [same]

theorem postings_rows (rows : List α) (k : κ) : (postings key rows k).filterMap (rows[·]?) = rows.filter (key · = k) := by
  induction rows using List.reverseRecOn with
  | nil => rfl
  | append_singleton rows row ih =>
    have earlier : (postings key rows k).filterMap ((rows ++ [row])[·]?) = (postings key rows k).filterMap (rows[·]?) := by
      refine List.filterMap_congr fun i member => ?_
      obtain ⟨_,present,_⟩ := mem_postings.mp member
      rw [List.getElem?_append_left (List.getElem?_eq_some_iff.mp present).1]
    rw [postings_snoc, List.filterMap_append, earlier, ih, List.filter_append, List.filter_singleton]
    congr 1
    split
    · next same => simp [same]
    · next differs => simp [differs]

theorem postings_nodup (rows : List α) (k : κ) : (postings key rows k).Nodup := List.nodup_range.filter _

theorem postings_length (rows : List α) (k : κ) : (postings key rows k).length = rows.countP (key · = k) := by
  induction rows using List.reverseRecOn with
  | nil => rfl
  | append_singleton rows row ih =>
    rw [postings_snoc, List.length_append, ih, List.countP_append, List.countP_singleton]
    congr 1
    by_cases same : key row = k
    · simp [same]
    · simp [same]

def rank (keep : α → Bool) (rows : List α) (i : Nat) : Nat := (rows.take i).countP keep

theorem rank_snoc {keep : α → Bool} {row : α} {i : Nat} (inside : i ≤ rows.length) :
    rank keep (rows ++ [row]) i = rank keep rows i := by
  rw [rank, rank, List.take_append_of_le_length inside]

theorem rank_length {keep : α → Bool} : rank keep rows rows.length = (rows.filter keep).length := by
  rw [rank, List.take_length, List.countP_eq_length_filter]

theorem postings_filter (keep : α → Bool) (rows : List α) (k : κ) :
    ((postings key rows k).filter fun i => rows[i]?.any keep).map (rank keep rows) = postings key (rows.filter keep) k := by
  induction rows using List.reverseRecOn with
  | nil => rfl
  | append_singleton rows row ih =>
    have earlier : ((postings key rows k).filter fun i => (rows ++ [row])[i]?.any keep).map (rank keep (rows ++ [row])) =
        ((postings key rows k).filter fun i => rows[i]?.any keep).map (rank keep rows) := by
      have inside : ∀ i ∈ postings key rows k, i < rows.length := fun i member => by
        obtain ⟨_,present,_⟩ := mem_postings.mp member
        exact (List.getElem?_eq_some_iff.mp present).1
      rw [List.filter_congr fun i member => by rw [List.getElem?_append_left (inside i member)]]
      exact List.map_congr_left fun i member => rank_snoc (inside i (List.mem_filter.mp member).1).le
    rw [postings_snoc, List.filter_append, List.map_append, earlier, ih, List.filter_append, List.filter_singleton]
    cases kept : keep row with
    | false =>
      split
      · simp [kept]
      · simp
    | true =>
      rw [cond_true, postings_snoc]
      congr 1
      split
      · simp [kept,rank_snoc,rank_length]
      · rfl

end BonsaiNinja.Library
