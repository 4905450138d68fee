import BonsaiNinja.Library.RecordFile
import Mathlib.Algebra.BigOperators.Group.Finset.Piecewise

namespace BonsaiNinja.Library.Merging
variable {α : Type u} [RowOrder α] [DecidableEq α]

-- The pending head of every source, smallest first; ties go by source.
def heapPush (x : α × Nat) : List (α × Nat) → List (α × Nat)
  | [] => [x]
  | y :: ys => if before y x then y :: heapPush x ys else x :: y :: ys

theorem mem_heapPush {x z : α × Nat} {pending : List (α × Nat)} : z ∈ heapPush x pending ↔ z = x ∨ z ∈ pending := by
  induction pending with
  | nil => simp [heapPush]
  | cons y ys ih =>
    rw [heapPush]
    split
    · rw [List.mem_cons,ih,List.mem_cons]
      tauto
    · rw [List.mem_cons]

theorem heapPush_sorted {x : α × Nat} {pending : List (α × Nat)} (fresh : x ∉ pending) (sorted : Sorted pending) :
    Sorted (heapPush x pending) := by
  induction pending with
  | nil => exact List.pairwise_singleton _ _
  | cons y ys ih =>
    obtain ⟨head,tail⟩ := List.pairwise_cons.mp sorted
    rw [List.mem_cons,not_or] at fresh
    rw [heapPush]
    split
    · next lower =>
      refine List.pairwise_cons.mpr ⟨fun z member => ?_,ih fresh.2 tail⟩
      cases mem_heapPush.mp member with
      | inl same => exact same ▸ lower
      | inr later => exact head z later
    · next upper =>
      have lower : before x y = true := before_of_ne fresh.1 (by simpa using upper)
      refine List.pairwise_cons.mpr ⟨fun z member => ?_,sorted⟩
      cases List.mem_cons.mp member with
      | inl same => exact same ▸ lower
      | inr later => exact RowOrder.trans _ _ _ lower (head z later)

structure Merges (pending : List (α × Nat)) (streams : Nat → List α) : Prop where
  heads : ∀ row i, (row,i) ∈ pending ↔ ∃ tail, streams i = row :: tail
  ordered : Sorted pending
  sources : ∀ i, Sorted (streams i)

def requeue (next : Option α) (i : Nat) (pending : List (α × Nat)) : List (α × Nat) :=
  match next with
  | none => pending
  | some row => heapPush (row,i) pending

theorem Merges.least {row : α} {i : Nat} {rest : List (α × Nat)} {streams : Nat → List α}
    (merges : Merges ((row,i) :: rest) streams) {j : Nat} {y : α} (member : y ∈ streams j) : before y row = false := by
  obtain ⟨later,_⟩ := List.pairwise_cons.mp merges.ordered
  cases held : streams j with
  | nil => rw [held] at member; exact absurd member List.not_mem_nil
  | cons head tail =>
    have headLeast : before head row = false := by
      have pending : (head,j) ∈ (row,i) :: rest := (merges.heads head j).mpr ⟨tail,held⟩
      cases List.mem_cons.mp pending with
      | inl same =>
        rw [(Prod.mk.inj same).1]
        exact RowOrder.irrefl row
      | inr after =>
        have lower := later _ after
        cases upper : before head row with
        | false => rfl
        | true =>
          have cyclic := before_asymm lower
          simp [before,upper] at cyclic
    rw [held] at member
    cases List.mem_cons.mp member with
    | inl same => exact same ▸ headLeast
    | inr after =>
      have lower := (List.pairwise_cons.mp (held ▸ merges.sources j)).1 y after
      cases upper : before y row with
      | false => rfl
      | true => rw [RowOrder.trans _ _ _ lower upper] at headLeast; cases headLeast

theorem Merges.remove {row : α} {i : Nat} {rest : List (α × Nat)} {streams : Nat → List α}
    (merges : Merges ((row,i) :: rest) streams) : Merges rest (Function.update streams i []) := by
  obtain ⟨tail,held⟩ := (merges.heads row i).mp List.mem_cons_self
  obtain ⟨later,ordered⟩ := List.pairwise_cons.mp merges.ordered
  refine ⟨fun other j => ?_,ordered,fun j => ?_⟩
  · by_cases same : j = i
    · subst same
      rw [Function.update_self]
      constructor
      · intro member
        obtain ⟨tail',held'⟩ := (merges.heads other j).mp (List.mem_cons_of_mem _ member)
        rw [held] at held'
        rw [← (List.cons.inj held').1] at member
        exact absurd (later _ member) (by rw [RowOrder.irrefl]; exact Bool.false_ne_true)
      · intro found
        obtain ⟨_,impossible⟩ := found
        cases impossible
    · rw [Function.update_of_ne same,← merges.heads]
      constructor
      · exact List.mem_cons_of_mem _
      · intro member
        exact (List.mem_cons.mp member).resolve_left fun eq => same (Prod.mk.inj eq).2
  · by_cases same : j = i
    · subst same; rw [Function.update_self]; exact .nil
    · rw [Function.update_of_ne same]; exact merges.sources j

theorem Merges.add {i : Nat} {pending : List (α × Nat)} {streams : Nat → List α} {rows : List α}
    (merges : Merges pending streams) (idle : streams i = []) (sorted : Sorted rows) :
    Merges (requeue rows.head? i pending) (Function.update streams i rows) := by
  have absent : ∀ row, (row,i) ∉ pending := by
    intro row member
    obtain ⟨_,held⟩ := (merges.heads row i).mp member
    rw [idle] at held
    cases held
  have sources : ∀ j, Sorted (Function.update streams i rows j) := by
    intro j
    by_cases same : j = i
    · subst same; rw [Function.update_self]; exact sorted
    · rw [Function.update_of_ne same]; exact merges.sources j
  cases rows with
  | nil =>
    refine ⟨fun row j => ?_,merges.ordered,sources⟩
    show (row,j) ∈ pending ↔ _
    by_cases same : j = i
    · subst same; simp [absent row]
    · rw [Function.update_of_ne same,merges.heads]
  | cons head tail =>
    refine ⟨fun row j => ?_,heapPush_sorted (absent head) merges.ordered,sources⟩
    show (row,j) ∈ heapPush (head,i) pending ↔ _
    rw [mem_heapPush]
    by_cases same : j = i
    · subst same; simp [absent row,eq_comm]
    · simp [same,merges.heads]

theorem Merges.pop {row : α} {i : Nat} {rest : List (α × Nat)} {streams : Nat → List α}
    (merges : Merges ((row,i) :: rest) streams) :
    ∃ tail, streams i = row :: tail ∧ Merges (requeue tail.head? i rest) (Function.update streams i tail) := by
  obtain ⟨tail,held⟩ := (merges.heads row i).mp List.mem_cons_self
  have tailSorted := (List.pairwise_cons.mp (held ▸ merges.sources i)).2
  have requeued := merges.remove.add (Function.update_self i [] streams) tailSorted
  rw [Function.update_idem] at requeued
  exact ⟨tail,held,requeued⟩

-- An exhausted merge has delivered all rows, none before an earlier one.
structure Merged (streams : Nat → List α) (out : List α) : Prop where
  ordered : out.Pairwise fun a b => before b a = false
  members : ∀ x, x ∈ out ↔ ∃ i, x ∈ streams i

theorem Merges.done {streams : Nat → List α} (merges : Merges [] streams) : Merged streams [] where
  ordered := .nil
  members x := by
    refine ⟨fun member => absurd member List.not_mem_nil,fun found => ?_⟩
    obtain ⟨i,member⟩ := found
    cases held : streams i with
    | nil => rw [held] at member; exact member
    | cons head tail => exact absurd ((merges.heads head i).mpr ⟨tail,held⟩) List.not_mem_nil

theorem Merges.deliver {row : α} {i : Nat} {rest : List (α × Nat)} {streams : Nat → List α} {tail out : List α}
    (merges : Merges ((row,i) :: rest) streams) (held : streams i = row :: tail)
    (later : Merged (Function.update streams i tail) out) : Merged streams (row :: out) := by
  have split : ∀ x, (∃ j, x ∈ streams j) ↔ x = row ∨ ∃ j, x ∈ Function.update streams i tail j := by
    intro x
    constructor
    · intro found
      obtain ⟨j,member⟩ := found
      by_cases same : j = i
      · subst same
        rw [held] at member
        cases List.mem_cons.mp member with
        | inl same => exact .inl same
        | inr after => exact .inr ⟨j,by rw [Function.update_self]; exact after⟩
      · exact .inr ⟨j,by rw [Function.update_of_ne same]; exact member⟩
    · intro found
      cases found with
      | inl same => exact ⟨i,by rw [held,same]; exact List.mem_cons_self⟩
      | inr found =>
        obtain ⟨j,member⟩ := found
        by_cases same : j = i
        · subst same
          rw [Function.update_self] at member
          exact ⟨j,by rw [held]; exact List.mem_cons_of_mem _ member⟩
        · exact ⟨j,by rwa [Function.update_of_ne same] at member⟩
  refine ⟨List.pairwise_cons.mpr ⟨fun y member => ?_,later.ordered⟩,fun x => ?_⟩
  · obtain ⟨j,source⟩ := (split y).mpr (.inr ((later.members y).mp member))
    exact merges.least source
  · rw [List.mem_cons,split,later.members]

def remaining (streams : Nat → List α) (n : Nat) : Nat := ∑ i ∈ Finset.range n, (streams i).length

omit [RowOrder α] [DecidableEq α] in
theorem remaining_pop {streams : Nat → List α} {row : α} {tail : List α} {i n : Nat} (held : streams i = row :: tail)
    (inside : i < n) : remaining streams n = remaining (Function.update streams i tail) n + 1 := by
  have source : i ∈ Finset.range n := Finset.mem_range.mpr inside
  have same : ∀ j ∈ (Finset.range n).erase i, (streams j).length = (Function.update streams i tail j).length := by
    intro j member
    rw [Function.update_of_ne (Finset.ne_of_mem_erase member)]
  unfold remaining
  rw [← Finset.add_sum_erase _ _ source,← Finset.add_sum_erase _ (fun j => (Function.update streams i tail j).length) source,
    Finset.sum_congr rfl same,held,Function.update_self,List.length_cons]
  omega

theorem remaining_done {streams : Nat → List α} (merges : Merges [] streams) (n : Nat) : remaining streams n = 0 := by
  refine Finset.sum_eq_zero fun i _ => ?_
  cases held : streams i with
  | nil => rfl
  | cons head tail => exact absurd ((merges.heads head i).mpr ⟨tail,held⟩) List.not_mem_nil

omit [RowOrder α] [DecidableEq α] in
theorem remaining_add {streams : Nat → List α} (rows : List α) (n : Nat) :
    remaining (Function.update streams n rows) (n + 1) = remaining streams n + rows.length := by
  have same : ∀ j ∈ Finset.range n, (Function.update streams n rows j).length = (streams j).length := by
    intro j member
    rw [Function.update_of_ne (Nat.ne_of_lt (Finset.mem_range.mp member))]
  unfold remaining
  rw [Finset.sum_range_succ,Finset.sum_congr rfl same,Function.update_self]

-- Equal neighbours are written once.
def dedupFrom : Option α → List α → List α
  | _, [] => []
  | previous, x :: xs => if previous = some x then dedupFrom previous xs else x :: dedupFrom (some x) xs

omit [RowOrder α] in
theorem dedupFrom_steps (previous : Option α) (rows : List α) : (dedupFrom previous rows).Sublist rows ∧
    (dedupFrom previous rows).IsChain (· ≠ ·) ∧ (∀ x ∈ (dedupFrom previous rows).head?, previous ≠ some x) ∧
      ∀ x ∈ rows, x ∈ dedupFrom previous rows ∨ previous = some x := by
  induction rows generalizing previous with
  | nil => simp [dedupFrom]
  | cons row rest ih =>
    rw [dedupFrom]
    split
    · next repeated =>
      obtain ⟨kept,apart,fresh,members⟩ := ih previous
      refine ⟨kept.cons _,apart,fresh,fun x member => ?_⟩
      cases member with
      | head => exact .inr repeated
      | tail _ member => exact members x member
    · next differs =>
      obtain ⟨kept,apart,fresh,members⟩ := ih (some row)
      refine ⟨kept.cons_cons _,List.isChain_cons.mpr ⟨fun x member same => fresh x member (congrArg some same),apart⟩,?_,?_⟩
      · intro x member
        cases Option.mem_some.mp member
        exact differs
      · intro x member
        cases member with
        | head => exact .inl List.mem_cons_self
        | tail _ member =>
          rcases members x member with member | same
          · exact .inl (List.mem_cons_of_mem _ member)
          · exact .inl (Option.some.inj same ▸ List.mem_cons_self)

theorem dedupFrom_exact {previous : Option α} {rows : List α} (ordered : rows.Pairwise fun a b => before b a = false)
    (behind : ∀ last, previous = some last → ∀ x ∈ rows, before x last = false) :
    Sorted (dedupFrom previous rows) ∧ ∀ x, x ∈ dedupFrom previous rows ↔ x ∈ rows ∧ previous ≠ some x := by
  induction rows generalizing previous with
  | nil => exact ⟨.nil,fun x => by simp [dedupFrom]⟩
  | cons row rest ih =>
    obtain ⟨least,ordered⟩ := List.pairwise_cons.mp ordered
    rw [dedupFrom]
    split
    · next repeated =>
      obtain ⟨sorted,members⟩ := ih ordered fun last same x member => behind last same x (List.mem_cons_of_mem _ member)
      refine ⟨sorted,fun x => ?_⟩
      rw [members,List.mem_cons,repeated]
      grind
    · next differs =>
      obtain ⟨sorted,members⟩ := ih ordered fun last same x member => Option.some.inj same ▸ least x member
      refine ⟨List.pairwise_cons.mpr ⟨fun y member => ?_,sorted⟩,fun x => ?_⟩
      · obtain ⟨later,other⟩ := (members y).mp member
        exact before_of_ne (fun same => other (congrArg some same)) (least y later)
      · rw [List.mem_cons,members,List.mem_cons]
        constructor
        · intro found
          cases found with
          | inl same => exact ⟨.inl same,same ▸ differs⟩
          | inr later =>
            refine ⟨.inr later.1,fun same => ?_⟩
            -- A row equal to the previous one cannot follow a different row.
            have up := behind x same row List.mem_cons_self
            have down := least x later.1
            exact later.2 (congrArg some (RowOrder.tri _ _ up down))
        · intro found
          cases found.1 with
          | inl same => exact .inl same
          | inr later =>
            by_cases same : x = row
            · exact .inl same
            · exact .inr ⟨later,fun eq => same (Option.some.inj eq).symm⟩

omit [RowOrder α] in
-- What the writer of a merged file has put down so far: the distinct rows, and
-- every k-th of them as a checkpoint.
structure RecordWriter (α : Type u) where
  output : List UInt8
  checkpoints : List α
  count : Nat
  previous : Option α

def RecordWriter.empty : RecordWriter α := ⟨[],[],0,none⟩

variable [RecordCodec α]

def RecordWriter.write (k : Nat) (writer : RecordWriter α) (row : α) : RecordWriter α :=
  if writer.previous = some row then writer
  else
    { output := writer.output ++ encode row
      checkpoints := if writer.count % k = 0 then writer.checkpoints ++ [row] else writer.checkpoints
      count := writer.count + 1
      previous := some row }

structure RecordWriter.Wrote (k : Nat) (writer : RecordWriter α) (rows : List α) : Prop where
  output : writer.output = wire rows
  checkpoints : writer.checkpoints = stride k rows
  count : writer.count = rows.length

omit [RowOrder α] [DecidableEq α] in
theorem RecordWriter.empty_wrote (k : Nat) : (RecordWriter.empty : RecordWriter α).Wrote k [] :=
  ⟨rfl,(stride_nil k).symm,rfl⟩

omit [RowOrder α] in
theorem RecordWriter.writes_wrote {k : Nat} (positive : 0 < k) (rows : List α) {writer : RecordWriter α} {out : List α}
    (wrote : writer.Wrote k out) :
    (rows.foldl (RecordWriter.write k) writer).Wrote k (out ++ dedupFrom writer.previous rows) := by
  induction rows generalizing writer out with
  | nil =>
    rw [dedupFrom,List.append_nil]
    exact wrote
  | cons row rest ih =>
    rw [List.foldl_cons,dedupFrom,RecordWriter.write]
    split
    · exact ih wrote
    · have next : RecordWriter.Wrote k ⟨writer.output ++ encode row,
          if writer.count % k = 0 then writer.checkpoints ++ [row] else writer.checkpoints,
          writer.count + 1,some row⟩ (out ++ [row]) := by
        refine ⟨?_,?_,?_⟩
        · rw [wrote.output,wire_append,wire_cons,wire_nil,List.append_nil]
        · rw [stride_snoc positive,wrote.checkpoints,wrote.count]
          split
          · rfl
          · rw [List.append_nil]
        · rw [wrote.count,List.length_append]
          rfl
      have later := ih next
      rw [List.append_assoc] at later
      exact later

theorem RecordWriter.write_sorted {k : Nat} (positive : 0 < k) {rows : List α}
    (ordered : rows.Pairwise fun a b => before b a = false) :
    (rows.foldl (RecordWriter.write k) RecordWriter.empty).Wrote k (dedupFrom none rows) ∧
      Sorted (dedupFrom none rows) ∧ ∀ x, x ∈ dedupFrom none rows ↔ x ∈ rows := by
  obtain ⟨sorted,members⟩ := dedupFrom_exact ordered fun last (impossible : (none : Option α) = some last) => nomatch impossible
  refine ⟨RecordWriter.writes_wrote positive rows (RecordWriter.empty_wrote k),sorted,fun x => (members x).trans ?_⟩
  simp

end BonsaiNinja.Library.Merging
