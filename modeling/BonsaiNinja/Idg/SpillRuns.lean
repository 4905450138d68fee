import Mathlib.Data.Fin.Basic
import BonsaiNinja.Idg.SpillSet

namespace BonsaiNinja.Idg
open Library

structure SortedRun.Stores (run : SortedRun) (rows : List U128) : Prop where
  file : run.file = wire rows
  len : run.len = rows.length
  checkpoints : run.checkpoints = stride runIndexStride rows
  sorted : Sorted rows

namespace SortedRun
variable {rows : List U128}

theorem fromWriter_stores {writer : Merging.RecordWriter U128} (wrote : writer.Wrote runIndexStride rows)
    (sorted : Sorted rows) : (fromWriter writer).Stores rows :=
  ⟨wrote.output,wrote.count,wrote.checkpoints,sorted⟩

theorem upTo_partitioned (sorted : Sorted rows) (key : U128) :
    Partitioned (fun candidate => !before key candidate) rows :=
  @Buckets.KeyOrdered.upTo _ _ _ id rows (sorted.imp before_asymm) key

theorem readBlock_exact {run : SortedRun} (stores : run.Stores rows) {start count : Nat}
    (inside : start + count ≤ rows.length) :
    run.readBlock start count = some (wire (slice rows start (start + count))) := by
  unfold readBlock
  split
  · next none =>
    rw [none]
    simp [slice]
  · rw [stores.file]
    exact readAt_wire inside

theorem recordAt_slice {start count i : Nat} (inside : start + count ≤ rows.length) (below : i < count)
    (position : start + i < rows.length) :
    recordAt (wire (slice rows start (start + count))) i = rows[start + i] := by
  have length : i < (slice rows start (start + count)).length := by
    rw [slice_length inside]; omega
  have row := getElem?_slice rows start (start + count) i
  rw [if_pos (by omega),List.getElem?_eq_getElem length,List.getElem?_eq_getElem position] at row
  rw [recordAt_wire length]
  exact Option.some.inj row

-- The checkpoint at or below the key starts the block that holds its position.
theorem locate_exact {run : SortedRun} (stores : run.Stores rows) (key : U128) :
    run.locate key = some (rows.countP (before · key),decide (key ∈ rows)) := by
  have below := stores.sorted.partitioned key
  have upTo := upTo_partitioned stores.sorted key
  obtain ⟨lower,upper,strict,within⟩ := block_bounds (show 0 < runIndexStride by decide) upTo
  have bounded := List.countP_le_length (p := fun candidate => !before key candidate) (l := rows)
  have few : rows.countP (before · key) ≤ rows.countP fun candidate => !before key candidate :=
    List.countP_mono_left fun row _ lower => by simp [before_asymm lower]
  -- A key up to the searched one that is not below it is the searched one.
  have equal : ∀ i (inside : i < rows.length), rows.countP (before · key) ≤ i →
      i < rows.countP (fun candidate => !before key candidate) → rows[i] = key := by
    intro i inside notBelow notAbove
    refine RowOrder.tri _ _ ?_ ?_
    · rw [← Bool.not_eq_true,below.lt_countP inside]
      exact Nat.not_lt.mpr notBelow
    · simpa using (upTo.lt_countP inside).mpr notAbove
  have near : rows.countP (fun candidate => !before key candidate) ≤ rows.countP (before · key) + 1 := by
    by_contra far
    have first := equal (rows.countP (before · key)) (by omega) (Nat.le_refl _) (by omega)
    have second := equal (rows.countP (before · key) + 1) (by omega) (Nat.le_succ _) (by omega)
    have lower := List.pairwise_iff_getElem.mp stores.sorted _ _ (by omega) (by omega) (Nat.lt_succ_self (rows.countP (before · key)))
    rw [first,second,RowOrder.irrefl] at lower
    cases lower
  have found : key ∈ rows → rows.countP (before · key) < rows.countP fun candidate => !before key candidate := by
    intro member
    have row := (stores.sorted.mem_iff_rank key).mp member
    obtain ⟨inside,same⟩ := List.getElem?_eq_some_iff.mp row
    rw [← upTo.lt_countP inside,same,RowOrder.irrefl]
    rfl
  unfold locate
  rw [Nat.mul_comm] at lower upper within strict
  simp only [stores.checkpoints,stores.len,Nat.min_eq_left within]
  generalize (partitionPoint (fun candidate => !before key candidate) (stride runIndexStride rows) - 1) * runIndexStride =
    start at *
  have ends : start + (min (start + runIndexStride) rows.length - start) ≤ rows.length := by omega
  have front : start ≤ rows.countP (before · key) := by omega
  have search := searchBlock_exact below ends front (by omega)
  simp only [readBlock_exact stores ends,Option.bind_eq_bind,Option.bind_some]
  generalize searchBlock (before · key)
    (wire (slice rows start (start + (min (start + runIndexStride) rows.length - start))))
    (min (start + runIndexStride) rows.length - start) = low at search ⊢
  have hit : (decide (low < min (start + runIndexStride) rows.length - start) &&
      decide ((recordAt (wire (slice rows start (start + (min (start + runIndexStride) rows.length - start)))) low : U128) =
        key)) = decide (key ∈ rows) := by
    by_cases inside : low < min (start + runIndexStride) rows.length - start
    · have position : start + low < rows.length := by omega
      rw [recordAt_slice ends inside position,decide_eq_true inside,Bool.true_and]
      refine decide_eq_decide.mpr ?_
      rw [stores.sorted.mem_iff_rank,← search,List.getElem?_eq_getElem position,Option.some.injEq]
    · have absent : key ∉ rows := by
        intro member
        have later := found member
        omega
      simp [inside,absent]
  rw [hit,search]
  rfl

theorem contains_exact {run : SortedRun} (stores : run.Stores rows) (key : U128) :
    run.contains key = some (decide (key ∈ rows)) := by
  unfold contains
  rw [locate_exact stores]
  rfl

theorem lowerBound_exact {run : SortedRun} (stores : run.Stores rows) (key : U128) :
    run.lowerBound key = some (rows.countP (before · key)) := by
  unfold lowerBound
  rw [locate_exact stores]
  rfl

theorem readKey_wire (key : U128) (rows : List U128) : readKey (wire (key :: rows)) = some (key,wire rows) := by
  have length : (encode key).length = 16 := RecordCodec.sized key
  rw [readKey,wire_cons,if_pos (by rw [List.length_append,length]; exact Nat.le_add_right _ _),List.take_left' length,
    List.drop_left' length,RecordCodec.inverse]

theorem readWithin_exact (upper : U128) (rows : List U128) {limit : Nat} (some : 0 < limit) :
    readWithin upper rows.length limit (wire rows) = .some ((rows.takeWhile fun key => !before upper key).take limit) := by
  induction rows generalizing limit with
  | nil => simp [readWithin]
  | cons key rest ih =>
    obtain ⟨left,rfl⟩ : ∃ left, limit = left + 1 := ⟨limit - 1,by omega⟩
    rw [List.length_cons,readWithin]
    simp only [readKey_wire,Option.bind_eq_bind,Option.bind_some]
    cases above : before upper key with
    | true =>
      rw [if_pos rfl,List.takeWhile_cons_of_neg (by simp [above])]
      rfl
    | false =>
      rw [if_neg (by simp),List.takeWhile_cons_of_pos (by simp [above]),List.take_succ_cons,Nat.add_sub_cancel]
      by_cases last : left + 1 ≤ 1
      · rw [if_pos last,show left = 0 by omega,List.take_zero]
        rfl
      · rw [if_neg last,ih (by omega)]
        rfl

end SortedRun

def inPage (head : U32) (after : Option U128) (key : U128) : Bool :=
  decide (SpillSet.topWord key = head) && after.all (before · key)

namespace SortedRun

theorem topWord_iff (head : U32) (key : U128) :
    SpillSet.topWord key = head ↔ head.val * 2 ^ 96 ≤ key.val ∧ key.val < (head.val + 1) * 2 ^ 96 := by
  have bounded := key.isLt
  have value : (SpillSet.topWord key).val = key.val / 2 ^ 96 := Nat.mod_eq_of_lt (by omega)
  rw [← Fin.val_inj,value,Nat.div_eq_iff (by decide)]
  omega

theorem prefixLower_val (head : U32) : (prefixLower head).val = head.val * 2 ^ 96 := by
  have bounded := head.isLt
  exact Nat.mod_eq_of_lt (by omega)

theorem prefixUpper_val (head : U32) : (prefixUpper head).val = (head.val + 1) * 2 ^ 96 - 1 := by
  have bounded := head.isLt
  unfold prefixUpper
  split
  · next top => rw [top]; rfl
  · exact Nat.mod_eq_of_lt (by omega)

theorem before_val {n : Nat} (a b : Fin n) : before a b = true ↔ a.val < b.val := decide_eq_true_iff

theorem not_before_val {n : Nat} (a b : Fin n) : before a b = false ↔ b.val ≤ a.val :=
  decide_eq_false_iff_not.trans Nat.not_lt

theorem firstAfter_val {head : U32} {after : Option U128} (open' : ∀ key ∈ after, before key (prefixUpper head) = true)
    (key : U128) : before key (firstAfter head after) = false ↔
      head.val * 2 ^ 96 ≤ key.val ∧ ∀ last ∈ after, last.val < key.val := by
  cases after with
  | none =>
    rw [firstAfter,not_before_val,prefixLower_val]
    simp
  | some last =>
    have below := (before_val _ _).mp (open' last rfl)
    have bounded := (prefixUpper head).isLt
    have room : last ≠ Fin.last _ := by
      intro top
      rw [top] at below
      exact absurd below (Nat.not_lt.mpr (Nat.le_of_lt_succ bounded))
    have next : (last + 1 : U128).val = last.val + 1 := Fin.val_add_one_of_lt (Fin.lt_last_iff_ne_last.mpr room)
    rw [firstAfter]
    simp only [if_neg room,Option.mem_def,Option.some.injEq,forall_eq']
    split
    · next lower =>
      rw [before_val,next,prefixLower_val] at lower
      rw [not_before_val,prefixLower_val]
      omega
    · next lower =>
      rw [Bool.not_eq_true,not_before_val,next,prefixLower_val] at lower
      rw [not_before_val,next]
      omega

theorem inPage_iff {head : U32} {after : Option U128} (open' : ∀ key ∈ after, before key (prefixUpper head) = true)
    (key : U128) : inPage head after key =
      (!before key (firstAfter head after) && !before (prefixUpper head) key) := by
  rw [Bool.eq_iff_iff,inPage,Bool.and_eq_true,Bool.and_eq_true,Bool.not_eq_true',Bool.not_eq_true',firstAfter_val open',
    not_before_val,prefixUpper_val,decide_eq_true_eq,topWord_iff]
  have behind : after.all (before · key) = true ↔ ∀ last ∈ after, last.val < key.val := by
    cases after with
    | none => simp
    | some last => simp [before_val]
  rw [behind]
  have positive : 0 < (head.val + 1) * 2 ^ 96 := by omega
  constructor
  · rintro ⟨⟨lower,upper⟩,later⟩
    exact ⟨⟨lower,later⟩,by omega⟩
  · rintro ⟨⟨lower,later⟩,upper⟩
    exact ⟨⟨lower,by omega⟩,later⟩

theorem prefixBatch_exact {run : SortedRun} {rows : List U128} (stores : run.Stores rows) (head : U32) (after : Option U128)
    {limit : Nat} (some : 0 < limit) :
    run.prefixBatch head after limit = .some ((rows.filter (inPage head after)).take limit) := by
  unfold prefixBatch
  by_cases closed : ∃ key ∈ after, before key (prefixUpper head) = false
  · obtain ⟨last,cursor,beyond⟩ := closed
    have none : rows.filter (inPage head after) = [] := by
      refine List.filter_eq_nil_iff.mpr fun key _ inside => ?_
      rw [inPage,Bool.and_eq_true,decide_eq_true_eq,topWord_iff] at inside
      rw [not_before_val,prefixUpper_val] at beyond
      rw [Option.mem_def.mp cursor,Option.all_some,before_val] at inside
      omega
    rw [Option.mem_def.mp cursor] at none ⊢
    rw [if_pos (by simp [beyond]),none,List.take_nil]
  · have open' : ∀ key ∈ after, before key (prefixUpper head) = true := by
      intro key cursor
      by_contra beyond
      exact closed ⟨key,cursor,by simpa using beyond⟩
    rw [if_neg]
    · have parts : Partitioned (before · (firstAfter head after)) rows := stores.sorted.partitioned _
      have upper : Partitioned (fun key => !before (prefixUpper head) key) (rows.filter fun key => !before key (firstAfter head after)) :=
        upTo_partitioned (List.Pairwise.filter _ stores.sorted) _
      have rest : run.len - rows.countP (before · (firstAfter head after)) =
          (rows.drop (rows.countP (before · (firstAfter head after)))).length := by
        rw [stores.len,List.length_drop]
      simp only [lowerBound_exact stores,Option.bind_eq_bind,Option.bind_some,rest,stores.file]
      have bytes : (wire rows).drop (rows.countP (before · (firstAfter head after)) * 16) =
          wire (rows.drop (rows.countP (before · (firstAfter head after)))) := wire_drop rows _
      rw [bytes,readWithin_exact _ _ some,Buckets.drop_countP parts,
        Buckets.takeWhile_filter upper,List.filter_filter]
      refine congrArg (fun kept => Option.some (List.take limit kept)) (List.filter_congr fun key _ => ?_)
      rw [inPage_iff open',Bool.and_comm]
    · cases after with
      | none => simp
      | some last => simp [open' last rfl]

end SortedRun

structure RunCursor.Holds (cursor : RunCursor) (rows : List U128) : Prop where
  head : cursor.head = rows.head?
  remaining : cursor.remaining = rows.length
  rest : cursor.rest = wire rows.tail

namespace RunCursor

theorem fill_exact (rows : List U128) : ∃ cursor, fill rows.length (wire rows) = some cursor ∧ cursor.Holds rows := by
  cases rows with
  | nil => exact ⟨_,rfl,rfl,rfl,rfl⟩
  | cons key rest =>
    refine ⟨⟨some key,rest.length + 1,wire rest⟩,?_,rfl,rfl,rfl⟩
    rw [fill,List.length_cons,if_pos (Nat.succ_pos _),SortedRun.readKey_wire]
    rfl

theorem start_exact {run : SortedRun} {rows : List U128} (stores : run.Stores rows) :
    ∃ cursor, start run.file = some cursor ∧ cursor.Holds rows := by
  have length : run.file.length / 16 = rows.length := by
    rw [stores.file,wire_length]
    exact Nat.mul_div_cancel _ (by decide)
  rw [start,length,stores.file]
  exact fill_exact rows

theorem Holds.advance {cursor : RunCursor} {key : U128} {rows : List U128} (holds : cursor.Holds (key :: rows)) :
    ∃ next, cursor.advance = some next ∧ next.Holds rows := by
  rw [RunCursor.advance,holds.remaining,holds.rest]
  exact fill_exact rows

end RunCursor

theorem mergeLoop_exact {fuel : Nat} {left right : RunCursor} {first second : List U128} (leftHolds : left.Holds first)
    (rightHolds : right.Holds second) (enough : first.length + second.length ≤ fuel) (writer : Merging.RecordWriter U128) :
    mergeLoop fuel left right writer =
      some ((List.merge first second fun a b => !before b a).foldl (Merging.RecordWriter.write runIndexStride) writer) := by
  induction fuel generalizing left right first second writer with
  | zero =>
    obtain rfl : first = [] := List.length_eq_zero_iff.mp (by omega)
    obtain rfl : second = [] := List.length_eq_zero_iff.mp (by omega)
    simp [mergeLoop,leftHolds.head,rightHolds.head]
  | succ fuel ih =>
    unfold mergeLoop
    rw [leftHolds.head,rightHolds.head]
    cases first with
    | nil =>
      cases second with
      | nil => simp
      | cons key rest =>
        obtain ⟨next,advances,holds⟩ := rightHolds.advance
        simp only [List.head?_nil,List.head?_cons,advances,Option.bind_eq_bind,Option.bind_some,List.nil_merge]
        rw [ih leftHolds holds (by simpa using enough),List.nil_merge]
        rfl
    | cons key rest =>
      cases second with
      | nil =>
        obtain ⟨next,advances,holds⟩ := leftHolds.advance
        simp only [List.head?_nil,List.head?_cons,advances,Option.bind_eq_bind,Option.bind_some,List.merge_right]
        rw [ih holds rightHolds (by simpa using enough),List.merge_right]
        rfl
      | cons other later =>
        simp only [List.length_cons] at enough
        rw [List.cons_merge_cons]
        cases lower : before other key with
        | true =>
          obtain ⟨next,advances,holds⟩ := rightHolds.advance
          simp only [List.head?_cons,lower,advances,Option.bind_eq_bind,Option.bind_some]
          exact ih leftHolds holds (by simp only [List.length_cons]; omega) _
        | false =>
          obtain ⟨next,advances,holds⟩ := leftHolds.advance
          simp only [List.head?_cons,lower,advances,Option.bind_eq_bind,Option.bind_some]
          exact ih holds rightHolds (by simp only [List.length_cons]; omega) _

namespace SortedRun

theorem fromSorted_stores {keys : List U128} (sorted : Sorted keys) :
    ∃ rows, (fromSorted keys).Stores rows ∧ ∀ key, key ∈ rows ↔ key ∈ keys := by
  obtain ⟨wrote,ordered,members⟩ := Merging.RecordWriter.write_sorted (show 0 < runIndexStride by decide)
    (sorted.imp before_asymm)
  exact ⟨_,fromWriter_stores wrote ordered,members⟩

theorem mergeRuns_exact {left right : SortedRun} {first second : List U128} (leftStores : left.Stores first)
    (rightStores : right.Stores second) : ∃ run rows, mergeRuns left right = some run ∧ run.Stores rows ∧
      ∀ key, key ∈ rows ↔ key ∈ first ∨ key ∈ second := by
  obtain ⟨leftCursor,leftStarts,leftHolds⟩ := RunCursor.start_exact leftStores
  obtain ⟨rightCursor,rightStarts,rightHolds⟩ := RunCursor.start_exact rightStores
  have lengths : left.file.length / 16 + right.file.length / 16 = first.length + second.length := by
    rw [leftStores.file,rightStores.file,wire_length,wire_length]
    exact congrArg₂ _ (Nat.mul_div_cancel _ (by decide)) (Nat.mul_div_cancel _ (by decide))
  have loop := mergeLoop_exact leftHolds rightHolds (Nat.le_of_eq lengths.symm) .empty
  have ordered : (List.merge first second fun a b => !before b a).Pairwise fun a b => before b a = false := by
    refine (List.pairwise_merge ?_ ?_ first second ?_ ?_).imp fun le => by simpa using le
    · exact not_before_trans
    · exact not_before_total
    · exact leftStores.sorted.imp fun lower => by simp [before_asymm lower]
    · exact rightStores.sorted.imp fun lower => by simp [before_asymm lower]
  obtain ⟨wrote,sorted,members⟩ := Merging.RecordWriter.write_sorted (show 0 < runIndexStride by decide) ordered
  refine ⟨_,_,?_,fromWriter_stores wrote sorted,fun key => ?_⟩
  · unfold mergeRuns
    simp only [leftStarts,rightStarts,loop,Option.bind_eq_bind,Option.bind_some]
    rfl
  · rw [members,List.mem_merge]

end SortedRun

end BonsaiNinja.Idg
