import BonsaiNinja.Idg.CallBoundaries
import BonsaiNinja.Idg.ReverseIndexes

namespace BonsaiNinja.Idg
open Library

structure BoundaryRecord where
  caller : U32
  callee : U32
  file : U32
  start : U64
  stop : U64
  first : U32
  second : U32
  deriving DecidableEq, Repr

def BoundaryRecord.row (record : BoundaryRecord) : BoundaryPairRow :=
  ⟨⟨record.caller,record.callee,⟨record.file,record.start,record.stop⟩⟩,(record.first,record.second)⟩

theorem BoundaryRecord.row_injective (a b : BoundaryRecord) (same : a.row = b.row) : a = b := by
  cases a; cases b
  simp only [BoundaryRecord.row, BoundaryPairRow.mk.injEq, CallBoundaryKey.mk.injEq, Span.mk.injEq, Prod.mk.injEq,
    Fin.val_inj] at same
  simp only [BoundaryRecord.mk.injEq]
  tauto

instance : RowOrder BoundaryRecord := .lift BoundaryRecord.row BoundaryRecord.row_injective

instance : ExternalRecord BoundaryRecord where
  width := 36
  encode row := leBytes 4 row.caller ++ (leBytes 4 row.callee ++ (leBytes 4 row.file ++ (leBytes 8 row.start ++
    (leBytes 8 row.stop ++ (leBytes 4 row.first ++ (leBytes 4 row.second ++ []))))))
  decode record := ⟨leFin 32 (slice record 0 4),leFin 32 (slice record 4 8),leFin 32 (slice record 8 12),
    leFin 64 (slice record 12 20),leFin 64 (slice record 20 28),leFin 32 (slice record 28 32),leFin 32 (slice record 32 36)⟩
  positive := by decide
  sized row := by simp
  inverse row := by
    have caller := word_at 4 32 (by decide) [] (leBytes 4 row.callee ++ (leBytes 4 row.file ++ (leBytes 8 row.start ++
      (leBytes 8 row.stop ++ (leBytes 4 row.first ++ (leBytes 4 row.second ++ [])))))) row.caller 0 4 rfl rfl
    have callee := word_at 4 32 (by decide) (leBytes 4 row.caller) (leBytes 4 row.file ++ (leBytes 8 row.start ++
      (leBytes 8 row.stop ++ (leBytes 4 row.first ++ (leBytes 4 row.second ++ []))))) row.callee 4 8 (by simp) rfl
    have file := word_at 4 32 (by decide) (leBytes 4 row.caller ++ leBytes 4 row.callee) (leBytes 8 row.start ++
      (leBytes 8 row.stop ++ (leBytes 4 row.first ++ (leBytes 4 row.second ++ [])))) row.file 8 12 (by simp) rfl
    have start := word_at 8 64 (by decide) (leBytes 4 row.caller ++ leBytes 4 row.callee ++ leBytes 4 row.file)
      (leBytes 8 row.stop ++ (leBytes 4 row.first ++ (leBytes 4 row.second ++ []))) row.start 12 20 (by simp) rfl
    have stop := word_at 8 64 (by decide) (leBytes 4 row.caller ++ leBytes 4 row.callee ++ leBytes 4 row.file ++
      leBytes 8 row.start) (leBytes 4 row.first ++ (leBytes 4 row.second ++ [])) row.stop 20 28 (by simp) rfl
    have first := word_at 4 32 (by decide) (leBytes 4 row.caller ++ leBytes 4 row.callee ++ leBytes 4 row.file ++
      leBytes 8 row.start ++ leBytes 8 row.stop) (leBytes 4 row.second ++ []) row.first 28 32 (by simp) rfl
    have second := word_at 4 32 (by decide) (leBytes 4 row.caller ++ leBytes 4 row.callee ++ leBytes 4 row.file ++
      leBytes 8 row.start ++ leBytes 8 row.stop ++ leBytes 4 row.first) [] row.second 32 36 (by simp) rfl
    rw [List.nil_append] at caller
    simp only [List.append_assoc] at file start stop first second
    rw [caller,callee,file,start,stop,first,second]

def boundaryRunRows : Nat := 100000

def boundaryReadRows : Nat := 1024

abbrev BoundaryPairSpool := ExternalSorter BoundaryRecord

namespace BoundaryPairSpool

def new : BoundaryPairSpool := ⟨some [],0,[],[],boundaryRunRows⟩

def push (spool : BoundaryPairSpool) (row : BoundaryRecord) : BoundaryPairSpool := ExternalSorter.push spool row

def flush (spool : BoundaryPairSpool) : BoundaryPairSpool := ExternalSorter.flush spool

-- The rows the merger yields until it is exhausted; it skips a row equal to the
-- one before.
def finish (memoryLimit : Option Nat) (spool : BoundaryPairSpool) : Option (List BoundaryPairRow) := do
  let spool := flush spool
  let file ← spool.file
  let pageRows := mergePageRows memoryLimit spool.runs.length (width BoundaryRecord) boundaryReadRows
  let merger ← RunMerger.new file pageRows spool.runs
  let rows ← merger.drain file (spool.runs.map (·.count)).sum
  return (Merging.dedupFrom none rows).map BoundaryRecord.row

theorem new_spooled : new.Spooled [] :=
  ⟨⟨[],.nil,fun _ member => absurd member List.not_mem_nil,fun x => by simp [new]⟩,rfl,fun some => absurd rfl some⟩

theorem push_file {spool : BoundaryPairSpool} (opened : spool.file.isSome = true) (row : BoundaryRecord) :
    (push spool row).file.isSome = true := by
  unfold push ExternalSorter.push ExternalSorter.flush
  grind

theorem pushes_file (rows : List BoundaryRecord) {spool : BoundaryPairSpool} (opened : spool.file.isSome = true) :
    (rows.foldl push spool).file.isSome = true := by
  induction rows generalizing spool with
  | nil => exact opened
  | cons row rest ih => exact ih (push_file opened row)

theorem flush_file {spool : BoundaryPairSpool} (opened : spool.file.isSome = true) : (flush spool).file.isSome = true := by
  unfold flush ExternalSorter.flush
  grind

theorem finish_exact (memoryLimit : Option Nat) (pushed : List BoundaryRecord) :
    finish memoryLimit (pushed.foldl push new) = some (finishSpool (pushed.map BoundaryRecord.row)) := by
  have spooled : (pushed.foldl push new).Spooled pushed := ExternalSorter.pushes_spooled pushed new_spooled
  obtain ⟨flushed,emptied⟩ : (flush (pushed.foldl push new)).Spooled pushed ∧ (flush (pushed.foldl push new)).rows = [] :=
    ⟨(ExternalSorter.flush_spooled spooled).1,(ExternalSorter.flush_spooled spooled).2.1⟩
  obtain ⟨file,opened⟩ := Option.isSome_iff_exists.mp (flush_file (pushes_file pushed (show new.file.isSome = true from rfl)))
  have pages := mergePageRows_pos memoryLimit (flush (pushed.foldl push new)).runs.length (width BoundaryRecord) boundaryReadRows
  obtain ⟨merger,out,merging,drained,ordered,members⟩ := ExternalSorter.merge_exact flushed emptied opened pages
  obtain ⟨sorted,distinct⟩ : Sorted (Merging.dedupFrom none out) ∧
      ∀ x, x ∈ Merging.dedupFrom none out ↔ x ∈ out ∧ none ≠ some x :=
    Merging.dedupFrom_exact ordered fun _ absent => nomatch absent
  have rows : (Merging.dedupFrom none out).map BoundaryRecord.row = finishSpool (pushed.map BoundaryRecord.row) := by
    refine Sorted.ext (List.pairwise_map.mpr sorted) (sortDedup_sorted _) fun row => ?_
    rw [finishSpool,mem_sortDedup,List.mem_map,List.mem_map]
    refine exists_congr fun record => ?_
    rw [distinct,members]
    simp
  unfold finish
  simp only [opened,merging,drained,Option.bind_eq_bind,Option.bind_some]
  exact congrArg some rows

end BoundaryPairSpool

def assembleCallBoundaries (memoryLimit : Option Nat) (inputRows outputRows : BoundaryPairSpool) : Option CallBoundaries := do
  let inputs ← inputRows.finish memoryLimit
  let outputs ← outputRows.finish memoryLimit
  return buildCallBoundaries inputs outputs

def pushedPairs (pushed : List BoundaryRecord) (key : CallBoundaryKey) : List (Nat × Nat) :=
  sortDedup (pairsOf (pushed.map BoundaryRecord.row) key)

theorem pairsOf_finishSpool (rows : List BoundaryPairRow) (key : CallBoundaryKey) :
    pairsOf (finishSpool rows) key = sortDedup (pairsOf rows key) := by
  refine Sorted.ext ?_ (sortDedup_sorted _) fun pair => ?_
  · refine List.pairwise_map.mpr (List.pairwise_filter.mpr ?_)
    refine (sortDedup_sorted rows).imp fun {a b} lower first second => ?_
    have order : (before a.key b.key || (decide (a.key = b.key) && before a.pair b.pair)) = true := lower
    rw [of_decide_eq_true first,of_decide_eq_true second,RowOrder.irrefl] at order
    simpa using order
  · rw [mem_sortDedup]
    simp only [pairsOf,finishSpool,List.mem_map,List.mem_filter,mem_sortDedup]

structure CallBoundaries.Assembles (boundaries : CallBoundaries) (inputRows outputRows : List BoundaryRecord) : Prop where
  ascending : boundaries.rows.Pairwise fun a b => before a.key b.key = true
  keys : ∀ key, (∃ boundary ∈ boundaries.rows, boundary.key = key) ↔
    ∃ record, (record ∈ inputRows ∨ record ∈ outputRows) ∧ record.row.key = key
  inputs : ∀ boundary ∈ boundaries.rows, boundaries.inputsOf boundary = pushedPairs inputRows boundary.key
  outputs : ∀ boundary ∈ boundaries.rows, boundaries.outputsOf boundary = pushedPairs outputRows boundary.key
  callers : ∀ caller, boundaries.forCaller caller = boundaries.rows.filter (·.key.caller = caller)

theorem build_assembles (inputRows outputRows : List BoundaryRecord) :
    (buildCallBoundaries (finishSpool (inputRows.map BoundaryRecord.row))
      (finishSpool (outputRows.map BoundaryRecord.row))).Assembles inputRows outputRows := by
  have inputs : Sorted (finishSpool (inputRows.map BoundaryRecord.row)) := sortDedup_sorted _
  have outputs : Sorted (finishSpool (outputRows.map BoundaryRecord.row)) := sortDedup_sorted _
  have merged := build_merged inputs outputs
  have spooled {pushed : List BoundaryRecord} {row : BoundaryPairRow} :
      row ∈ finishSpool (pushed.map BoundaryRecord.row) ↔ ∃ record ∈ pushed, record.row = row := by
    rw [finishSpool,mem_sortDedup,List.mem_map]
  refine ⟨merged.ascending,fun key => ⟨?_,?_⟩,fun boundary listed => ?_,fun boundary listed => ?_,forCaller_eq inputs outputs⟩
  · intro found
    obtain ⟨boundary,listed,keyed⟩ := found
    obtain ⟨row,member,same⟩ := merged.keyed boundary listed
    rw [spooled,spooled] at member
    cases member with
    | inl input =>
      obtain ⟨record,pushed,held⟩ := input
      exact ⟨record,.inl pushed,by rw [held,same,keyed]⟩
    | inr output =>
      obtain ⟨record,pushed,held⟩ := output
      exact ⟨record,.inr pushed,by rw [held,same,keyed]⟩
  · intro found
    obtain ⟨record,pushed,keyed⟩ := found
    have member := pushed.imp (fun input => spooled.mpr ⟨record,input,rfl⟩) fun output => spooled.mpr ⟨record,output,rfl⟩
    obtain ⟨boundary,listed,same⟩ := merged.covers record.row member
    exact ⟨boundary,listed,same.trans keyed⟩
  · rw [merged.inputsOf boundary listed,pairsOf_finishSpool,pushedPairs]
  · rw [merged.outputsOf boundary listed,pairsOf_finishSpool,pushedPairs]

end BonsaiNinja.Idg
