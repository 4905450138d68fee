import BonsaiNinja.Idg.ExternalRelation

namespace BonsaiNinja.Idg
open Library

variable {R : Type} [ExternalRecord R]

def ExternalRelationStorage.Holds (storage : ExternalRelationStorage R) (rows : List R) : Prop :=
  match storage with
  | .resident held => held = rows
  | .file bytes => bytes = wire rows
  | .persisted blob => blob = wire rows

structure SortedExternalRelation.Stores (relation : SortedExternalRelation R) (rows : List R) : Prop where
  len : relation.len = rows.length
  checkpoints : relation.checkpoints = stride indexStride rows
  storage : relation.storage.Holds rows
  sorted : Sorted rows

namespace SortedExternalRelation
variable {rows : List R}

theorem readExactAt_exact {relation : SortedExternalRelation R} (stores : relation.Stores rows)
    {offset count : Nat} (inside : offset + count ≤ rows.length * width R) :
    relation.readExactAt offset count = some (slice (wire rows) offset (offset + count)) := by
  unfold readExactAt
  have holds := stores.storage
  by_cases none : count = 0
  · rw [if_pos none,none]
    simp [slice]
  · rw [if_neg none]
    have plain : readAt (wire rows) offset count = some (slice (wire rows) offset (offset + count)) := by
      rw [readAt,if_pos (by rw [wire_length]; exact inside)]
    cases kept : relation.storage with
    | resident held =>
      rw [kept] at holds
      cases (holds : held = rows)
      have positive : 0 < width R := RecordCodec.positive
      have rounded := ceil_bounds positive (offset % width R + count)
      have whole : offset / width R * width R + offset % width R = offset := Nat.div_add_mod' _ _
      have fits : offset / width R + (offset % width R + count + (width R - 1)) / width R ≤ rows.length := by
        refine Nat.le_of_lt_succ (Nat.lt_of_mul_lt_mul_right (a := width R) ?_)
        rw [Nat.add_mul,Nat.succ_mul]
        omega
      simp only []
      rw [if_pos fits,← wire_slice,slice_slice (by rw [Nat.add_mul]; omega),whole]
    | file bytes =>
      rw [kept] at holds
      cases (holds : bytes = wire rows)
      exact plain
    | persisted blob =>
      rw [kept] at holds
      cases (holds : blob = wire rows)
      exact plain

theorem readRows_exact {relation : SortedExternalRelation R} (stores : relation.Stores rows)
    {start count : Nat} (inside : start + count ≤ rows.length) :
    relation.readExactAt (start * width R) (count * width R) = some (wire (slice rows start (start + count))) := by
  rw [readExactAt_exact stores (by rw [← Nat.add_mul]; exact Nat.mul_le_mul_right _ inside),← Nat.add_mul,wire_slice]

theorem lowerBound_exact {relation : SortedExternalRelation R} (stores : relation.Stores rows) (row : R) :
    relation.lowerBound row = some (rows.countP (before · row)) := by
  have parts := stores.sorted.partitioned row
  have paged : (if relation.len = 0 then some 0
      else do
        let checkpoint := partitionPoint (before · row) relation.checkpoints - 1
        let blockStart := min (checkpoint * indexStride) relation.len
        let blockEnd := min (blockStart + indexStride) relation.len
        let rows := blockEnd - blockStart
        let block ← relation.readExactAt (blockStart * width R) (rows * width R)
        return blockStart + searchBlock (before · row) block rows) = some (rows.countP (before · row)) := by
    by_cases empty : relation.len = 0
    · have none : rows = [] := List.length_eq_zero_iff.mp (stores.len.symm.trans empty)
      rw [if_pos empty,none]
      rfl
    · rw [if_neg empty]
      obtain ⟨lower,upper,_,within⟩ := block_bounds (show 0 < indexStride by decide) parts
      have bounded := List.countP_le_length (p := (before · row)) (l := rows)
      rw [Nat.mul_comm] at lower upper within
      simp only [stores.checkpoints,stores.len,Nat.min_eq_left within]
      generalize (partitionPoint (before · row) (stride indexStride rows) - 1) * indexStride = start at *
      have ends : start + (min (start + indexStride) rows.length - start) ≤ rows.length := by omega
      rw [readRows_exact stores ends]
      exact congrArg some (searchBlock_exact parts ends lower (by omega))
  unfold lowerBound
  have holds := stores.storage
  cases kept : relation.storage with
  | resident held =>
    rw [kept] at holds
    cases (holds : held = rows)
    exact congrArg some parts.partitionPoint
  | file bytes => exact paged
  | persisted blob => exact paged

omit [ExternalRecord R] in
theorem visitRows_append (visit : σ → R → σ × Bool) (s : σ) (front back : List R) :
    visitRows visit s (front ++ back) =
      match visitRows visit s front with
      | (s,true) => visitRows visit s back
      | (s,false) => (s,false) := by
  induction front generalizing s with
  | nil => rfl
  | cons row rest ih =>
    rw [List.cons_append,visitRows,visitRows]
    rcases visit s row with ⟨s',continues⟩
    cases continues with
    | true => exact ih s'
    | false => rfl

omit [ExternalRecord R] in
theorem visitRows_total (visit : σ → R → σ) (s : σ) (rows : List R) :
    visitRows (fun s row => (visit s row,true)) s rows = (rows.foldl visit s,true) := by
  induction rows generalizing s with
  | nil => rfl
  | cons row rest ih => exact ih (visit s row)

theorem visitPages_exact {relation : SortedExternalRelation R} (stores : relation.Stores rows)
    (visit : σ → R → σ × Bool) {stop : Nat} (inside : stop ≤ rows.length) (start : Nat) (s : σ) :
    relation.visitPages visit stop start s = some (visitRows visit s (slice rows start stop)).1 := by
  induction left : stop - start using Nat.strong_induction_on generalizing start s with
  | _ left ih =>
    rw [visitPages]
    split
    · next more =>
      have page : 0 < min (stop - start) readRows := by simp only [readRows]; omega
      have ends : start + min (stop - start) readRows ≤ stop := by omega
      simp only [readRows_exact stores (Nat.le_trans ends inside),chunksExact_wire]
      rw [← slice_append_slice (Nat.le_add_right start _) ends,visitRows_append]
      rcases visitRows visit s (slice rows start (start + min (stop - start) readRows)) with ⟨s',continues⟩
      cases continues with
      | true => exact ih _ (by omega) _ s' rfl
      | false => rfl
    · next done =>
      rw [slice,Nat.sub_eq_zero_of_le (Nat.le_of_not_lt done),List.take_zero]
      rfl

theorem visitRange_exact {relation : SortedExternalRelation R} (stores : relation.Stores rows)
    (visit : σ → R → σ) {start stop : Nat} (inside : stop ≤ rows.length) (s : σ) :
    relation.visitRange start stop visit s = some ((slice rows start stop).foldl visit s) := by
  have paged : relation.visitPages (fun s row => (visit s row,true)) stop start s =
      some ((slice rows start stop).foldl visit s) := by
    rw [visitPages_exact stores _ inside,visitRows_total]
  unfold visitRange
  split
  · next none =>
    rw [slice,Nat.sub_eq_zero_of_le none,List.take_zero]
    rfl
  · have holds := stores.storage
    cases kept : relation.storage with
    | resident held =>
      rw [kept] at holds
      cases (holds : held = rows)
      exact if_pos inside
    | file bytes => exact paged
    | persisted blob => exact paged

theorem visitWhile_exact {relation : SortedExternalRelation R} (stores : relation.Stores rows)
    (visit : σ → R → σ × Bool) (start : Nat) (s : σ) :
    relation.visitWhile start visit s = some (visitRows visit s (rows.drop start)).1 := by
  have paged : relation.visitPages visit relation.len start s = some (visitRows visit s (rows.drop start)).1 := by
    rw [stores.len,visitPages_exact stores visit (Nat.le_refl _),slice_to_end]
  unfold visitWhile
  split
  · next none =>
    rw [List.drop_eq_nil_of_le (stores.len ▸ none)]
    rfl
  · have holds := stores.storage
    cases kept : relation.storage with
    | resident held =>
      rw [kept] at holds
      cases (holds : held = rows)
      rfl
    | file bytes => exact paged
    | persisted blob => exact paged

theorem snapshotFrom_exact {relation : SortedExternalRelation R} (stores : relation.Stores rows)
    (offset : Nat) : relation.snapshotFrom offset = some ((wire rows).drop offset) := by
  induction left : relation.len * width R - offset using Nat.strong_induction_on generalizing offset with
  | _ left ih =>
    have total : relation.len * width R = (wire rows).length := by rw [stores.len,wire_length]
    rw [snapshotFrom]
    simp only []
    split
    · next more =>
      have page : 0 < min (relation.len * width R - offset) mib := by simp only [mib]; omega
      have ends : offset + min (relation.len * width R - offset) mib ≤ relation.len * width R := by omega
      rw [readExactAt_exact stores (stores.len ▸ ends)]
      simp only []
      rw [ih _ (by omega) _ rfl,Option.map_some,← slice_to_end,← slice_to_end,
        slice_append_slice (Nat.le_add_right offset _) (total ▸ ends)]
    · next done => rw [List.drop_eq_nil_of_le (by omega)]

theorem resident_stores (sorted : Sorted rows) : (resident rows).Stores rows :=
  ⟨rfl,rfl,rfl,sorted⟩

theorem fromPersisted_stores {relation : SortedExternalRelation R} (stores : relation.Stores rows) :
    ∃ reopened : SortedExternalRelation R, fromPersisted relation.persistedMetadata (wire rows) = .ok reopened ∧
      reopened.Stores rows := by
  have counted := (stride_rows (show 0 < indexStride by decide) rows).1
  have layout : ¬((wire (stride indexStride rows)).length ≠ (rows.length + (indexStride - 1)) / indexStride * width R ∨
      (wire rows).length ≠ rows.length * width R) := by
    rw [wire_length,wire_length,counted]
    simp
  have ordered : Sorted (stride indexStride rows) := stride_pairwise (by decide) stores.sorted
  have accepted : ((stride indexStride rows).zip (stride indexStride rows).tail).any
      (fun pair => !before pair.1 pair.2) = false := by
    rw [List.any_eq_false]
    intro pair member
    rw [pair_of_zip_tail ordered pair member]
    exact Bool.false_ne_true
  refine ⟨⟨.persisted (wire rows),rows.length,stride indexStride rows⟩,?_,rfl,rfl,rfl,stores.sorted⟩
  unfold fromPersisted persistedMetadata
  simp only [stores.len,stores.checkpoints,chunksExact_wire]
  rw [if_neg layout,accepted]
  rfl

end SortedExternalRelation

end BonsaiNinja.Idg
