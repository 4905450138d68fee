import BonsaiNinja.Idg.RunMerging

namespace BonsaiNinja.Idg
open Library

variable {R : Type} [ExternalRecord R] [DecidableEq R]

theorem mergePageRows_pos (memoryLimit : Option Nat) (runCount recordBytes maximumRows : Nat) :
    0 < mergePageRows memoryLimit runCount recordBytes maximumRows := Nat.le_max_left 1 _

structure ExternalSorter.Spooled (sorter : ExternalSorter R) (pushed : List R) : Prop where
  runs : ∃ contents, List.Forall₂ (RunEntry.At (sorter.file.getD [])) sorter.runs contents ∧
    (∀ rows ∈ contents, Sorted rows) ∧ ∀ x, x ∈ pushed ↔ x ∈ sorter.rows ∨ ∃ rows ∈ contents, x ∈ rows
  offset : sorter.writeOffset = (sorter.file.getD []).length
  spool : sorter.runs ≠ [] → sorter.file.isSome = true

namespace ExternalSorter
variable {pushed : List R}

omit [DecidableEq R] in
theorem new_spooled (maxRows : Nat) : (new maxRows : ExternalSorter R).Spooled [] :=
  ⟨⟨[],.nil,fun _ member => absurd member List.not_mem_nil,fun x => by simp [new]⟩,rfl,fun some => absurd rfl some⟩

omit [DecidableEq R] in
theorem at_append {file payload : List UInt8} {run : RunEntry} {rows : List R} (stored : run.At file rows) :
    run.At (file ++ payload) rows := by
  obtain ⟨after,split⟩ := stored.stored
  refine ⟨stored.count,by rw [List.length_append]; exact Nat.le_add_right_of_le stored.inside,after ++ payload,?_⟩
  rw [List.drop_append_of_le_length stored.inside,← split,List.append_assoc]

theorem flush_spooled {sorter : ExternalSorter R} (spooled : sorter.Spooled pushed) :
    sorter.flush.Spooled pushed ∧ sorter.flush.rows = [] ∧ (sorter.runs ≠ [] → sorter.flush.runs ≠ []) := by
  obtain ⟨⟨contents,stored,sorted,members⟩,offset,spool⟩ := spooled
  unfold flush
  cases kept : sorter.rows with
  | nil => exact ⟨⟨⟨contents,stored,sorted,members⟩,offset,spool⟩,kept,id⟩
  | cons row rest =>
    rw [← kept]
    have some : sorter.rows.isEmpty = false := by rw [kept]; rfl
    rw [some]
    simp only [Bool.false_eq_true,if_false]
    have written : writeAt (sorter.file.getD []) sorter.writeOffset (wire (sortDedup sorter.rows)) =
        sorter.file.getD [] ++ wire (sortDedup sorter.rows) := by
      rw [writeAt,offset,List.take_length,List.drop_eq_nil_of_le (Nat.le_add_right _ _),List.append_nil]
    refine ⟨⟨⟨contents ++ [sortDedup sorter.rows],?_,?_,fun x => ?_⟩,?_,fun _ => rfl⟩,trivial,fun _ => by simp⟩
    · simp only [Option.getD_some,written]
      refine List.rel_append (stored.imp fun _ _ at_run => at_append at_run) (.cons ⟨rfl,?_,[],?_⟩ .nil)
      · rw [List.length_append,offset]
        exact Nat.le_add_right _ _
      · rw [List.append_nil,offset,List.drop_left]
    · intro rows member
      cases List.mem_append.mp member with
      | inl earlier => exact sorted rows earlier
      | inr last => exact List.mem_singleton.mp last ▸ sortDedup_sorted sorter.rows
    · rw [members]
      simp only [List.mem_append,List.mem_singleton,List.not_mem_nil,false_or]
      constructor
      · intro found
        cases found with
        | inl resident => exact ⟨_,.inr rfl,mem_sortDedup.mpr resident⟩
        | inr run =>
          obtain ⟨rows,member,inside⟩ := run
          exact ⟨rows,.inl member,inside⟩
      · intro found
        obtain ⟨rows,place,inside⟩ := found
        cases place with
        | inl earlier => exact .inr ⟨rows,earlier,inside⟩
        | inr last => exact .inl (mem_sortDedup.mp (last ▸ inside))
    · rw [Option.getD_some,written,List.length_append,← offset]

theorem push_spooled {sorter : ExternalSorter R} (spooled : sorter.Spooled pushed) (row : R) :
    (sorter.push row).Spooled (pushed ++ [row]) := by
  have appended : { sorter with rows := sorter.rows ++ [row] }.Spooled (pushed ++ [row]) := by
    obtain ⟨⟨contents,stored,sorted,members⟩,offset,spool⟩ := spooled
    refine ⟨⟨contents,stored,sorted,fun x => ?_⟩,offset,spool⟩
    rw [List.mem_append,members,List.mem_append]
    exact or_right_comm
  unfold push
  simp only []
  split
  · exact (flush_spooled appended).1
  · exact appended

theorem pushes_spooled (rows : List R) {sorter : ExternalSorter R} (spooled : sorter.Spooled pushed) :
    (rows.foldl push sorter).Spooled (pushed ++ rows) := by
  induction rows generalizing sorter pushed with
  | nil => rw [List.append_nil]; exact spooled
  | cons row rest ih =>
    have next := ih (push_spooled spooled row)
    rwa [List.append_assoc] at next

-- Once nothing is left in memory, merging the runs delivers the pushed rows in
-- order, repetitions included.
theorem merge_exact {sorter : ExternalSorter R} (spooled : sorter.Spooled pushed) (emptied : sorter.rows = [])
    {file : List UInt8} (opened : sorter.file = some file) {pageRows : Nat} (pages : 0 < pageRows) :
    ∃ merger out, RunMerger.new file pageRows sorter.runs = some merger ∧
      merger.drain file (sorter.runs.map (·.count)).sum = some out ∧ (out.Pairwise fun a b => before b a = false) ∧
      ∀ x, x ∈ out ↔ x ∈ pushed := by
  obtain ⟨⟨contents,stored,sorted,members⟩,offset,spool⟩ := spooled
  rw [opened,Option.getD_some] at stored
  obtain ⟨merger,out,ran,drained,ordered,sources,_⟩ := RunMerger.merge_runs pages stored sorted
  refine ⟨merger,out,ran,drained,ordered,fun x => ?_⟩
  rw [sources,members,emptied]
  simp

theorem finish_exact {sorter : ExternalSorter R} (spooled : sorter.Spooled pushed)
    (memoryLimit : Option Nat) :
    ∃ relation rows, sorter.finish memoryLimit = some relation ∧ relation.Stores rows ∧ ∀ x, x ∈ rows ↔ x ∈ pushed := by
  unfold finish
  by_cases kept : sorter.runs = []
  · obtain ⟨⟨contents,stored,_,members⟩,_,_⟩ := spooled
    rw [kept] at stored
    cases stored
    refine ⟨_,sortDedup sorter.rows,if_pos (by rw [kept]; rfl),
      SortedExternalRelation.resident_stores (sortDedup_sorted _),fun x => ?_⟩
    rw [mem_sortDedup,members]
    simp
  · obtain ⟨flushed,emptied,grown⟩ := flush_spooled spooled
    obtain ⟨file,opened⟩ := Option.isSome_iff_exists.mp (flushed.spool (grown kept))
    have pages := mergePageRows_pos memoryLimit sorter.flush.runs.length (width R) readRows
    obtain ⟨merger,out,merging,drained,ordered,members⟩ := merge_exact flushed emptied opened pages
    obtain ⟨wrote,sorted,distinct⟩ := Merging.RecordWriter.write_sorted (show 0 < indexStride by decide) ordered
    let writer := out.foldl (Merging.RecordWriter.write indexStride) Merging.RecordWriter.empty
    have stores : SortedExternalRelation.Stores ⟨.file writer.output,writer.count,writer.checkpoints⟩
        (Merging.dedupFrom none out) := ⟨wrote.count,wrote.checkpoints,wrote.output,sorted⟩
    refine ⟨_,_,?_,stores,fun x => ?_⟩
    · rw [if_neg (by simpa using kept)]
      simp only [opened,merging,drained,Option.bind_eq_bind,Option.bind_some]
      rfl
    · rw [distinct,members]

theorem sorted_exact (maxRows : Nat) (memoryLimit : Option Nat) (pushed : List R) :
    ∃ relation rows, (pushed.foldl push (new maxRows)).finish memoryLimit = some relation ∧ relation.Stores rows ∧
      ∀ x, x ∈ rows ↔ x ∈ pushed :=
  finish_exact (pushes_spooled pushed (new_spooled maxRows)) memoryLimit

end ExternalSorter

structure SortedExternalRelation.Represents (relation : SortedExternalRelation R) (rows : List R) : Prop where
  len : relation.len = rows.length
  lowerBound : ∀ row, relation.lowerBound row = some (rows.countP (before · row))
  visitRange : ∀ {σ : Type} (start stop : Nat) (visit : σ → R → σ) (s : σ), start ≤ stop → stop ≤ relation.len →
    relation.visitRange start stop visit s = some ((slice rows start stop).foldl visit s)
  visitWhile : ∀ {σ : Type} (start : Nat) (visit : σ → R → σ × Bool) (s : σ),
    relation.visitWhile start visit s = some (visitRows visit s (rows.drop start)).1
  readExactAt : ∀ offset count, offset + count ≤ rows.length * width R →
    relation.readExactAt offset count = some (slice (wire rows) offset (offset + count))

omit [DecidableEq R] in
theorem SortedExternalRelation.Stores.represents {relation : SortedExternalRelation R} {rows : List R}
    (stores : relation.Stores rows) : relation.Represents rows where
  len := stores.len
  lowerBound := lowerBound_exact stores
  visitRange _ _ visit s _ inside := visitRange_exact stores visit (stores.len ▸ inside) s
  visitWhile start visit s := visitWhile_exact stores visit start s
  readExactAt _ _ inside := readExactAt_exact stores inside

end BonsaiNinja.Idg
