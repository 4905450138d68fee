import BonsaiNinja.Library.CountingSort
import BonsaiNinja.Library.Rows
import Mathlib.Data.List.TakeWhile

namespace BonsaiNinja.Library
variable {start stop k : Nat}

theorem slice_slice {rows : List α} {inner count : Nat} (inside : start + inner + count ≤ stop) :
    slice (slice rows start stop) inner (inner + count) = slice rows (start + inner) (start + inner + count) := by
  refine List.ext_getElem? fun i => ?_
  rw [getElem?_slice,getElem?_slice,getElem?_slice]
  by_cases below : i < count
  · rw [if_pos (by omega),if_pos (by omega),if_pos (by omega),Nat.add_assoc]
  · rw [if_neg (by omega),if_neg (by omega)]

theorem slice_append_slice {rows : List α} {middle : Nat} (first : start ≤ middle) (later : middle ≤ stop) :
    slice rows start middle ++ slice rows middle stop = slice rows start stop := by
  have split := List.take_append_drop (middle - start) (slice rows start stop)
  have front : (slice rows start stop).take (middle - start) = slice rows start middle := by
    rw [slice,slice,List.take_take,Nat.min_eq_left (by omega)]
  have back : (slice rows start stop).drop (middle - start) = slice rows middle stop := by
    rw [slice,slice,List.drop_take,List.drop_drop,show start + (middle - start) = middle by omega,
      show stop - start - (middle - start) = stop - middle by omega]
  rw [← front,← back,split]

theorem slice_flatten {fields : List (List α)} {i : Nat} {field : List α} (held : fields[i]? = some field)
    (starts : (fields.take i).flatten.length = start) (stops : start + field.length = stop) :
    slice fields.flatten start stop = field := by
  induction fields generalizing i start stop with
  | nil => cases held
  | cons first rest ih =>
    cases i with
    | zero =>
      cases held
      cases starts
      rw [slice,List.flatten_cons,List.take_zero,List.flatten_nil,List.length_nil,List.drop_zero,Nat.sub_zero,← stops]
      simp
    | succ i =>
      rw [List.take_succ_cons,List.flatten_cons,List.length_append] at starts
      have later := ih held rfl (Eq.refl ((rest.take i).flatten.length + field.length))
      rw [slice,List.flatten_cons,← starts,← List.drop_drop,List.drop_left,← later,slice]
      congr 1
      omega

theorem slice_to_end (rows : List α) (start : Nat) : slice rows start rows.length = rows.drop start := by
  rw [slice,List.take_of_length_le (by rw [List.length_drop])]

theorem pair_of_zip_tail {r : α → α → Prop} {rows : List α} (ordered : rows.Pairwise r) :
    ∀ pair ∈ rows.zip rows.tail, r pair.1 pair.2 := by
  induction rows with
  | nil => intro pair member; exact absurd member List.not_mem_nil
  | cons row rest ih =>
    obtain ⟨head,tail⟩ := List.pairwise_cons.mp ordered
    cases rest with
    | nil => intro pair member; exact absurd member List.not_mem_nil
    | cons next later =>
      intro pair member
      cases List.mem_cons.mp member with
      | inl same => exact same ▸ head next List.mem_cons_self
      | inr found => exact ih tail pair found

theorem ceil_bounds {w : Nat} (positive : 0 < w) (count : Nat) :
    count ≤ (count + (w - 1)) / w * w ∧ (count + (w - 1)) / w * w < count + w := by
  have whole := Nat.div_add_mod (count + (w - 1)) w
  have below := Nat.mod_lt (count + (w - 1)) positive
  rw [Nat.mul_comm] at whole
  omega

-- Rows of one width, read back from positioned bytes.
class RecordCodec (α : Type u) where
  width : Nat
  encode : α → List UInt8
  decode : List UInt8 → α
  positive : 0 < width
  sized : ∀ row, (encode row).length = width
  inverse : ∀ row, decode (encode row) = row

export RecordCodec (width encode decode)

section
variable {α : Type u} [RecordCodec α]

def wire (rows : List α) : List UInt8 := rows.flatMap encode

@[simp] theorem wire_nil : wire ([] : List α) = [] := rfl

theorem wire_cons (row : α) (rows : List α) : wire (row :: rows) = encode row ++ wire rows := List.flatMap_cons

theorem wire_append (left right : List α) : wire (left ++ right) = wire left ++ wire right := List.flatMap_append

@[simp] theorem wire_length (rows : List α) : (wire rows).length = rows.length * width α := by
  induction rows with
  | nil => simp
  | cons row rest ih => rw [wire_cons,List.length_append,ih,RecordCodec.sized,List.length_cons,Nat.succ_mul,Nat.add_comm]

theorem wire_drop (rows : List α) (n : Nat) : (wire rows).drop (n * width α) = wire (rows.drop n) := by
  rcases Nat.le_total n rows.length with inside | outside
  · have split := congrArg wire (List.take_append_drop n rows)
    rw [wire_append] at split
    rw [← split]
    exact List.drop_left' (by rw [wire_length,List.length_take_of_le inside])
  · rw [List.drop_eq_nil_of_le (by rw [wire_length]; exact Nat.mul_le_mul_right _ outside),List.drop_eq_nil_of_le outside]
    rfl

theorem wire_take (rows : List α) (n : Nat) : (wire rows).take (n * width α) = wire (rows.take n) := by
  rcases Nat.le_total n rows.length with inside | outside
  · have split := congrArg wire (List.take_append_drop n rows)
    rw [wire_append] at split
    rw [← split]
    exact List.take_left' (by rw [wire_length,List.length_take_of_le inside])
  · rw [List.take_of_length_le (by rw [wire_length]; exact Nat.mul_le_mul_right _ outside),List.take_of_length_le outside]

theorem wire_slice (rows : List α) (start stop : Nat) :
    slice (wire rows) (start * width α) (stop * width α) = wire (slice rows start stop) := by
  rw [slice,slice,wire_drop,← Nat.sub_mul,wire_take]

def readAt (bytes : List UInt8) (offset count : Nat) : Option (List UInt8) :=
  if offset + count ≤ bytes.length then some (slice bytes offset (offset + count)) else none

theorem readAt_wire {rows : List α} {start count : Nat} (inside : start + count ≤ rows.length) :
    readAt (wire rows) (start * width α) (count * width α) = some (wire (slice rows start (start + count))) := by
  rw [readAt,← Nat.add_mul,if_pos (by rw [wire_length]; exact Nat.mul_le_mul_right _ inside),wire_slice]

def recordAt (block : List UInt8) (i : Nat) : α := decode (slice block (i * width α) ((i + 1) * width α))

theorem recordAt_wire {rows : List α} {i : Nat} (inside : i < rows.length) : recordAt (wire rows) i = rows[i] := by
  have single : slice rows i (i + 1) = [rows[i]] := by
    rw [slice_succ (Nat.le_refl i) (List.getElem?_eq_getElem inside)]
    simp [slice]
  rw [recordAt,wire_slice,single,wire_cons,wire_nil,List.append_nil,RecordCodec.inverse]

def chunksExact (block : List UInt8) : List α := (List.range (block.length / width α)).map (recordAt block)

theorem chunksExact_wire (rows : List α) : chunksExact (wire rows) = rows := by
  rw [chunksExact,wire_length,Nat.mul_div_cancel _ RecordCodec.positive]
  refine List.ext_getElem (by simp) fun i inside other => ?_
  rw [List.getElem_map,List.getElem_range,recordAt_wire other]

end

def partitionPoint (p : α → Bool) (rows : List α) : Nat := (rows.takeWhile p).length

abbrev Partitioned (p : α → Bool) (rows : List α) : Prop := rows.Pairwise fun a b => p b = true → p a = true

theorem Partitioned.lt_countP {p : α → Bool} {rows : List α} (parts : Partitioned p rows) {i : Nat} (inside : i < rows.length) :
    p rows[i] = true ↔ i < rows.countP p := by
  induction rows generalizing i with
  | nil => exact absurd inside (Nat.not_lt_zero i)
  | cons row rest ih =>
    obtain ⟨head,tail⟩ := List.pairwise_cons.mp parts
    cases holds : p row with
    | true =>
      rw [List.countP_cons_of_pos holds]
      cases i with
      | zero => simp [holds]
      | succ i => rw [List.getElem_cons_succ,ih tail,Nat.succ_lt_succ_iff]
    | false =>
      have none : rest.countP p = 0 :=
        List.countP_eq_zero.mpr fun x member yes => by simp [holds] at head; simp [head x member] at yes
      rw [List.countP_cons_of_neg (by simp [holds]),none]
      cases i with
      | zero => simp [holds]
      | succ i =>
        rw [List.getElem_cons_succ,ih tail,none]
        simp

theorem Partitioned.partitionPoint {p : α → Bool} {rows : List α} (parts : Partitioned p rows) :
    partitionPoint p rows = rows.countP p := by
  unfold BonsaiNinja.Library.partitionPoint
  induction rows with
  | nil => rfl
  | cons row rest ih =>
    obtain ⟨head,tail⟩ := List.pairwise_cons.mp parts
    cases holds : p row with
    | true => rw [List.takeWhile_cons_of_pos holds,List.length_cons,ih tail,List.countP_cons_of_pos holds]
    | false =>
      have none : rest.countP p = 0 :=
        List.countP_eq_zero.mpr fun x member yes => by simp [holds] at head; simp [head x member] at yes
      rw [List.takeWhile_cons_of_neg (by simp [holds]),List.countP_cons_of_neg (by simp [holds]),none,List.length_nil]

-- Halving search for the first position where a partitioned test fails.
def halve (below : Nat → Bool) (low high : Nat) : Nat :=
  if low < high then
    let middle := low + (high - low) / 2
    if below middle then halve below (middle + 1) high else halve below low middle
  else low
termination_by high - low

theorem halve_eq {below : Nat → Bool} {low high point : Nat} (test : ∀ i, i < high → (below i = true ↔ i < point))
    (lower : low ≤ point) (upper : point ≤ high) : halve below low high = point := by
  fun_induction halve below low high with
  | case1 low high more middle yes ih =>
    exact ih test ((test middle (by omega)).mp yes) upper
  | case2 low high more middle no ih =>
    have above : ¬ middle < point := fun lt => no ((test middle (by omega)).mpr lt)
    exact ih (fun i inside => test i (by omega)) lower (by omega)
  | case3 low high done => omega

def searchBlock [RecordCodec α] (p : α → Bool) (block : List UInt8) (count : Nat) : Nat :=
  halve (fun middle => p (recordAt block middle)) 0 count

theorem searchBlock_exact [RecordCodec α] {p : α → Bool} {rows : List α} (parts : Partitioned p rows) {count : Nat}
    (inside : start + count ≤ rows.length) (lower : start ≤ rows.countP p) (upper : rows.countP p ≤ start + count) :
    start + searchBlock p (wire (slice rows start (start + count))) count = rows.countP p := by
  have found : searchBlock p (wire (slice rows start (start + count))) count = rows.countP p - start := by
    refine halve_eq (fun i below => ?_) (Nat.zero_le _) (by omega)
    have bound : start + i < rows.length := by omega
    have length : i < (slice rows start (start + count)).length := by
      rw [slice_length inside]; omega
    have same : (slice rows start (start + count))[i] = rows[start + i] := by
      have row := getElem?_slice rows start (start + count) i
      rw [if_pos (by omega),List.getElem?_eq_getElem length,List.getElem?_eq_getElem bound] at row
      exact Option.some.inj row
    rw [recordAt_wire length,same,parts.lt_countP bound]
    omega
  omega

theorem Sorted.partitioned [RowOrder α] {rows : List α} (sorted : Sorted rows) (row : α) : Partitioned (before · row) rows :=
  sorted.imp fun lower later => RowOrder.trans _ _ _ lower later

def stride (k : Nat) (rows : List α) : List α :=
  (List.range ((rows.length + (k - 1)) / k)).filterMap fun i => rows[k * i]?

@[simp] theorem stride_nil (k : Nat) : stride k ([] : List α) = [] :=
  List.filterMap_eq_nil_iff.mpr fun _ _ => rfl

section
variable (positive : 0 < k)
include positive

theorem lt_stride_iff (i n : Nat) : i < (n + (k - 1)) / k ↔ k * i < n := by
  rw [Nat.lt_div_iff_mul_lt positive,Nat.add_sub_cancel,Nat.mul_comm]

theorem stride_rows (rows : List α) :
    (stride k rows).length = (rows.length + (k - 1)) / k ∧ ∀ i : Nat, (stride k rows)[i]? = rows[k * i]? := by
  have total : ∀ i < (rows.length + (k - 1)) / k, (rows[k * i]?).isSome = true := by
    intro i inside
    rw [List.getElem?_eq_getElem ((lt_stride_iff positive i _).mp inside)]
    rfl
  obtain ⟨length,found⟩ := getElem?_filterMap_range total
  refine ⟨length,fun i => (found i).trans ?_⟩
  split
  · rfl
  · next outside =>
    exact (List.getElem?_eq_none (Nat.le_of_not_lt fun inside => outside ((lt_stride_iff positive i _).mpr inside))).symm

theorem stride_pairwise {rows : List α} {r : α → α → Prop} (ordered : rows.Pairwise r) :
    (stride k rows).Pairwise r := by
  obtain ⟨_,found⟩ := stride_rows positive rows
  refine List.pairwise_iff_getElem.mpr fun i j inside other lower => ?_
  have at_i := found i
  have at_j := found j
  rw [List.getElem?_eq_getElem inside] at at_i
  rw [List.getElem?_eq_getElem other] at at_j
  obtain ⟨bound,first⟩ := List.getElem?_eq_some_iff.mp at_i.symm
  obtain ⟨bound',second⟩ := List.getElem?_eq_some_iff.mp at_j.symm
  rw [← first,← second]
  exact List.pairwise_iff_getElem.mp ordered _ _ bound bound' (Nat.mul_lt_mul_of_pos_left lower positive)

theorem stride_snoc (rows : List α) (row : α) :
    stride k (rows ++ [row]) = stride k rows ++ if rows.length % k = 0 then [row] else [] := by
  obtain ⟨length,found⟩ := stride_rows positive rows
  refine List.ext_getElem? fun i => ?_
  rw [(stride_rows positive (rows ++ [row])).2,List.getElem?_append,List.getElem?_append,length,found]
  simp only [lt_stride_iff positive]
  split
  · rfl
  · next outside =>
    split
    · next boundary =>
      obtain ⟨q,whole⟩ := Nat.dvd_of_mod_eq_zero boundary
      have counted : (rows.length + (k - 1)) / k = q := by
        rw [whole,Nat.mul_add_div positive,Nat.div_eq_of_lt (show k - 1 < k by omega),Nat.add_zero]
      rw [counted,whole,← Nat.mul_sub]
      have after : q ≤ i := Nat.le_of_mul_le_mul_left (by omega) positive
      cases same : i - q with
      | zero => rfl
      | succ d =>
        have far : [row].length ≤ k * (d + 1) := Nat.le_trans positive (Nat.le_mul_of_pos_right k (Nat.succ_pos d))
        rw [List.getElem?_eq_none far,List.getElem?_eq_none (by simp)]
    · next between =>
      rw [List.getElem?_nil,List.getElem?_eq_none]
      have differs : k * i ≠ rows.length := fun same => between (by rw [← same,Nat.mul_mod_right])
      rw [List.length_singleton]
      omega

-- The block behind the last checkpoint that satisfies the test holds the point
-- where the test turns.
theorem block_bounds {p : α → Bool} {rows : List α} (parts : Partitioned p rows) :
    k * (partitionPoint p (stride k rows) - 1) ≤ rows.countP p ∧
      rows.countP p ≤ k * (partitionPoint p (stride k rows) - 1) + k ∧
      (0 < rows.countP p → k * (partitionPoint p (stride k rows) - 1) < rows.countP p) ∧
      k * (partitionPoint p (stride k rows) - 1) ≤ rows.length := by
  have sparse : Partitioned p (stride k rows) := stride_pairwise positive parts
  obtain ⟨length,found⟩ := stride_rows positive rows
  have bounded := List.countP_le_length (p := p) (l := rows)
  rw [sparse.partitionPoint]
  have inside : ∀ i, i < (stride k rows).countP p ↔ k * i < rows.countP p := by
    intro i
    by_cases short : i < (stride k rows).length
    · have row := found i
      rw [List.getElem?_eq_getElem short] at row
      obtain ⟨bound,same⟩ := List.getElem?_eq_some_iff.mp row.symm
      rw [← sparse.lt_countP short,← parts.lt_countP bound,same]
    · have beyond : rows.length ≤ k * i := by
        rw [length] at short
        exact Nat.le_of_not_lt fun lower => short ((lt_stride_iff positive i _).mpr lower)
      have few := List.countP_le_length (p := p) (l := stride k rows)
      exact ⟨fun lower => absurd lower (by omega),fun lower => absurd lower (by omega)⟩
  have past := mt (inside ((stride k rows).countP p)).mpr (Nat.lt_irrefl _)
  cases count : (stride k rows).countP p with
  | zero =>
    rw [count] at past
    omega
  | succ q =>
    have last := (inside q).mp (by omega)
    rw [count,Nat.mul_succ] at past
    rw [Nat.add_sub_cancel]
    omega

end

end BonsaiNinja.Library
