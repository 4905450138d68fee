import BonsaiNinja.Library.Ranges

namespace BonsaiNinja.Library
variable {start stop : Nat}

theorem getElem?_slice (rows : List α) (start stop i : Nat) :
    (slice rows start stop)[i]? = if i < stop - start then rows[start + i]? else none := by
  rw [slice, List.getElem?_take]
  split
  · rw [List.getElem?_drop]
  · rfl

theorem slice_congr {rows rows' : List α}
    (same : ∀ i, start ≤ i → i < stop → rows[i]? = rows'[i]?) : slice rows start stop = slice rows' start stop := by
  refine List.ext_getElem? fun i => ?_
  rw [getElem?_slice, getElem?_slice]
  split
  · exact same _ (by omega) (by omega)
  · rfl

theorem slice_succ {rows : List α} {row : α} (ordered : start ≤ stop) (last : rows[stop]? = some row) :
    slice rows start (stop + 1) = slice rows start stop ++ [row] := by
  obtain ⟨bound,rfl⟩ := List.getElem?_eq_some_iff.mp last
  rw [slice, slice, Nat.succ_sub ordered, List.take_add_one, List.getElem?_drop, Nat.add_sub_cancel' ordered, last,
    Option.toList_some]

@[simp] theorem accumulate_length (total : Nat) (counts : List Nat) : (accumulate total counts).length = counts.length := by
  induction counts generalizing total with
  | nil => rfl
  | cons count counts ih => rw [accumulate, List.length_cons, ih, List.length_cons]

def sortRange (le : α → α → Bool) (start stop : Nat) (rows : List α) : List α :=
  rows.take start ++ ((slice rows start stop).mergeSort le ++ rows.drop stop)

theorem slice_length {rows : List α} (inside : stop ≤ rows.length) :
    (slice rows start stop).length = stop - start := by
  rw [slice, List.length_take, List.length_drop]
  omega

theorem sortRange_length {le : α → α → Bool} {rows : List α} (ordered : start ≤ stop)
    (inside : stop ≤ rows.length) : (sortRange le start stop rows).length = rows.length := by
  rw [sortRange, List.length_append, List.length_append, List.length_mergeSort, slice_length inside, List.length_take,
    List.length_drop]
  omega

theorem sortRange_outside {le : α → α → Bool} {rows : List α} (ordered : start ≤ stop)
    (inside : stop ≤ rows.length) {i : Nat} (outside : i < start ∨ stop ≤ i) : (sortRange le start stop rows)[i]? = rows[i]? := by
  have before : (rows.take start).length = start := by rw [List.length_take]; omega
  have middle : ((slice rows start stop).mergeSort le).length = stop - start := by
    rw [List.length_mergeSort, slice_length inside]
  rw [sortRange]
  rcases outside with early | late
  · rw [List.getElem?_append_left (by omega), List.getElem?_take, if_pos early]
  · rw [List.getElem?_append_right (by omega), before, List.getElem?_append_right (by omega), middle, List.getElem?_drop]
    congr 1
    omega

theorem slice_sortRange {le : α → α → Bool} {rows : List α} (ordered : start ≤ stop)
    (inside : stop ≤ rows.length) : slice (sortRange le start stop rows) start stop = (slice rows start stop).mergeSort le := by
  have before : (rows.take start).length = start := by rw [List.length_take]; omega
  have middle : ((slice rows start stop).mergeSort le).length = stop - start := by
    rw [List.length_mergeSort, slice_length inside]
  conv_lhs => rw [slice, sortRange]
  rw [List.drop_append_of_le_length (by omega), List.drop_of_length_le (by omega), List.nil_append,
    List.take_append_of_le_length (by omega), List.take_of_length_le (by omega)]

theorem sortRange_slice {le : α → α → Bool} {rows : List α} (ordered : start ≤ stop)
    (inside : stop ≤ rows.length) : (slice (sortRange le start stop rows) start stop).Perm (slice rows start stop) := by
  rw [slice_sortRange ordered inside]
  exact List.mergeSort_perm _ _

def startOf (keys : List Nat) (key : Nat) : Nat := keys.countP (· < key)

theorem startOf_succ (keys : List Nat) (key : Nat) : startOf keys (key + 1) = startOf keys key + keys.count key := by
  unfold startOf
  induction keys with
  | nil => rfl
  | cons first keys ih =>
    rw [List.countP_cons, List.countP_cons, List.count_cons, ih]
    simp only [decide_eq_true_eq, beq_iff_eq]
    rcases Nat.lt_trichotomy first key with lower | rfl | upper
    · rw [if_pos (by omega), if_pos lower, if_neg (by omega)]
      omega
    · rw [if_pos (by omega), if_neg (by omega), if_pos rfl]
      omega
    · rw [if_neg (by omega), if_neg (by omega), if_neg (by omega)]
      omega

theorem startOf_mono (keys : List Nat) {key key' : Nat} (lower : key ≤ key') : startOf keys key ≤ startOf keys key' :=
  List.countP_mono_left fun other _ small => by
    simp only [decide_eq_true_eq] at small ⊢
    omega

theorem startOf_le (keys : List Nat) (key : Nat) : startOf keys key ≤ keys.length := List.countP_le_length

theorem ranges_apart (keys : List Nat) {key other i j : Nat} (differs : key ≠ other) (lower : startOf keys key ≤ i)
    (upper : i < startOf keys (key + 1)) (lower' : startOf keys other ≤ j) (upper' : j < startOf keys (other + 1)) : i ≠ j := by
  rcases Nat.lt_or_gt_of_ne differs with before | behind
  · have apart := startOf_mono keys (Nat.succ_le_of_lt before)
    simp only [Nat.succ_eq_add_one] at apart
    omega
  · have apart := startOf_mono keys (Nat.succ_le_of_lt behind)
    simp only [Nat.succ_eq_add_one] at apart
    omega

structure Filling where
  cursors : List Nat
  table : List Nat

namespace Filling
variable {key : Nat} {le : Nat → Nat → Bool}

def place (filling : Filling) (key value : Nat) : Filling where
  cursors := filling.cursors.modify key (· + 1)
  table := filling.table.set (filling.cursors.getD key 0) value

def sortRows (filling : Filling) (le : Nat → Nat → Bool) (start stop : Nat) : Filling :=
  {filling with table := sortRange le start stop filling.table}

structure Filled (keys : List Nat) (count : Nat) (filling : Filling) : Prop where
  length : filling.table.length = keys.length
  cursor : ∀ key ∈ keys, filling.cursors[key]? = some (startOf keys key + (keys.take count).count key)
  range : ∀ key, (slice filling.table (startOf keys key) (startOf keys key + (keys.take count).count key)).Perm
    ((List.range count).filter fun row => keys[row]? = some key)

variable {keys : List Nat} {count : Nat} {filling : Filling}

theorem filled_start (cursors : ∀ key ∈ keys, filling.cursors[key]? = some (startOf keys key))
    (length : filling.table.length = keys.length) : Filled keys 0 filling where
  length := length
  cursor key member := by
    rw [cursors key member, List.take_zero, List.count_nil, Nat.add_zero]
  range key := by simp [slice]

theorem count_take_le (keys : List Nat) (count key : Nat) : startOf keys key + (keys.take count).count key ≤ startOf keys (key + 1) := by
  rw [startOf_succ]
  exact Nat.add_le_add_left (List.Sublist.count_le key (List.take_sublist _ _)) _

-- The next row of a key goes behind the rows of the key so far, within the key's range.
theorem Filled.position (filled : Filled keys count filling) (next : keys[count]? = some key) :
    (filling.place key count).table = filling.table.set (startOf keys key + (keys.take count).count key) count ∧
      startOf keys key + (keys.take count).count key < startOf keys (key + 1) := by
  obtain ⟨bound,same⟩ := List.getElem?_eq_some_iff.mp next
  have member : key ∈ keys := by rw [← same]; exact List.getElem_mem bound
  constructor
  · rw [Filling.place, List.getD_eq_getElem?_getD, filled.cursor key member, Option.getD_some]
  · have full := count_take_le keys (count + 1) key
    rw [List.take_add_one, next, Option.toList_some, List.count_append, List.count_singleton, if_pos (beq_self_eq_true key)] at full
    omega

theorem Filled.place (filled : Filled keys count filling) (next : keys[count]? = some key) :
    Filled keys (count + 1) (filling.place key count) := by
  have taken : keys.take (count + 1) = keys.take count ++ [key] := by rw [List.take_add_one, next, Option.toList_some]
  have counted : ∀ other, (keys.take (count + 1)).count other = (keys.take count).count other + if key = other then 1 else 0 := by
    intro other
    rw [taken, List.count_append, List.count_singleton]
    simp
  obtain ⟨position,room⟩ := filled.position next
  have inside : startOf keys key + (keys.take count).count key < filling.table.length := by
    rw [filled.length]
    exact room.trans_le (startOf_le keys (key + 1))
  refine ⟨by rw [position, List.length_set, filled.length],fun other found => ?_,fun other => ?_⟩
  · rw [Filling.place, List.getElem?_modify, filled.cursor other found, counted]
    by_cases this : key = other
    · simp [this,Nat.add_assoc]
    · simp [this]
  · rw [position, counted, List.range_succ, List.filter_append, List.filter_cons, List.filter_nil, next]
    by_cases this : key = other
    · subst this
      rw [if_pos rfl, if_pos (by simp), ← Nat.add_assoc, slice_succ (Nat.le_add_right _ _) (List.getElem?_set_self inside)]
      refine List.Perm.append ?_ (List.Perm.refl _)
      rw [slice_congr fun i _ upper => List.getElem?_set_ne (by omega)]
      exact filled.range key
    · rw [if_neg this, if_neg (by simpa using this), Nat.add_zero, List.append_nil]
      have last := count_take_le keys count other
      rw [slice_congr fun i lower upper => List.getElem?_set_ne
        (ranges_apart keys this (Nat.le_add_right _ _) room lower (by omega))]
      exact filled.range other

theorem Filled.sortRows (filled : Filled keys count filling) (le : Nat → Nat → Bool)
    (complete : (keys.take count).count key = keys.count key) :
    Filled keys count (filling.sortRows le (startOf keys key) (startOf keys (key + 1))) := by
  have ordered : startOf keys key ≤ startOf keys (key + 1) := startOf_mono keys (Nat.le_succ key)
  have inside : startOf keys (key + 1) ≤ filling.table.length := by rw [filled.length]; exact startOf_le keys _
  refine ⟨?_,filled.cursor,fun other => ?_⟩
  · rw [Filling.sortRows, sortRange_length ordered inside, filled.length]
  · by_cases this : key = other
    · subst this
      have range := filled.range key
      rw [complete, ← startOf_succ] at range ⊢
      exact (sortRange_slice ordered inside).trans range
    · have last := count_take_le keys count other
      rw [Filling.sortRows, slice_congr fun i lower upper => sortRange_outside ordered inside ?_]
      · exact filled.range other
      · by_contra within
        exact ranges_apart keys this (by omega) (by omega) lower (by omega) rfl

theorem Filled.finish (filled : Filled keys keys.length filling) (key : Nat) :
    (slice filling.table (startOf keys key) (startOf keys (key + 1))).Perm
      ((List.range keys.length).filter fun row => keys[row]? = some key) := by
  have range := filled.range key
  rw [List.take_length, ← startOf_succ] at range
  exact range

def InOrder (keys : List Nat) (filling : Filling) (le : Nat → Nat → Bool) (key : Nat) : Prop :=
  (slice filling.table (startOf keys key) (startOf keys (key + 1))).Pairwise fun a b => le a b = true

theorem Filled.inOrder_sortRows (filled : Filled keys count filling)
    (transitive : ∀ a b c, le a b = true → le b c = true → le a c = true) (total : ∀ a b, (le a b || le b a) = true) :
    InOrder keys (filling.sortRows le (startOf keys key) (startOf keys (key + 1))) le key := by
  have inside : startOf keys (key + 1) ≤ filling.table.length := by rw [filled.length]; exact startOf_le keys _
  rw [InOrder, Filling.sortRows, slice_sortRange (startOf_mono keys (Nat.le_succ key)) inside]
  exact List.pairwise_mergeSort transitive total _

theorem InOrder.place {other : Nat} (ordered : InOrder keys filling le other)
    (filled : Filled keys count filling) (next : keys[count]? = some key) (differs : key ≠ other) :
    InOrder keys (filling.place key count) le other := by
  obtain ⟨position,room⟩ := filled.position next
  rw [InOrder, position, slice_congr fun i lower upper => List.getElem?_set_ne
    (ranges_apart keys differs (Nat.le_add_right _ _) room lower upper)]
  exact ordered

theorem InOrder.sortRows {other : Nat} {le' : Nat → Nat → Bool} (ordered : InOrder keys filling le other)
    (filled : Filled keys count filling) (differs : key ≠ other) :
    InOrder keys (filling.sortRows le' (startOf keys key) (startOf keys (key + 1))) le other := by
  have inside : startOf keys (key + 1) ≤ filling.table.length := by rw [filled.length]; exact startOf_le keys _
  have range : startOf keys key ≤ startOf keys (key + 1) := startOf_mono keys (Nat.le_succ key)
  rw [InOrder, Filling.sortRows, slice_congr fun i lower upper => sortRange_outside range inside ?_]
  · exact ordered
  · by_contra within
    exact ranges_apart keys differs (by omega) (by omega) lower upper rfl

end Filling
end BonsaiNinja.Library
