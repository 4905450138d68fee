import BonsaiNinja.Library.CountingSort

namespace BonsaiNinja.Library

def splice (rows : List α) (start stop : Nat) (middle : List α) : List α := rows.take start ++ (middle ++ rows.drop stop)

section
variable {rows middle : List α} {start stop : Nat} (ordered : start ≤ stop) (inside : stop ≤ rows.length)
  (fits : middle.length = stop - start)
include ordered inside fits

theorem splice_length : (splice rows start stop middle).length = rows.length := by
  rw [splice,List.length_append,List.length_append,List.length_take,List.length_drop]
  omega

theorem splice_outside {i : Nat} (outside : i < start ∨ stop ≤ i) : (splice rows start stop middle)[i]? = rows[i]? := by
  have before : (rows.take start).length = start := by rw [List.length_take]; omega
  rw [splice]
  cases outside with
  | inl early => rw [List.getElem?_append_left (by omega),List.getElem?_take,if_pos early]
  | inr late =>
    rw [List.getElem?_append_right (by omega),before,List.getElem?_append_right (by omega),fits,List.getElem?_drop]
    congr 1
    omega

theorem slice_splice : slice (splice rows start stop middle) start stop = middle := by
  have before : (rows.take start).length = start := by rw [List.length_take]; omega
  rw [slice,splice,List.drop_append_of_le_length (by omega),List.drop_of_length_le (by omega),List.nil_append,
    List.take_append_of_le_length (by omega),List.take_of_length_le (by omega)]

end

theorem slice_empty (rows : List α) (start : Nat) : slice rows start start = [] := by
  rw [slice,Nat.sub_self,List.take_zero]

theorem slice_before {rows : List α} {start stop : Nat} {row : α} (ordered : start < stop) (first : rows[start]? = some row) :
    slice rows start stop = row :: slice rows (start + 1) stop := by
  obtain ⟨bound,rfl⟩ := List.getElem?_eq_some_iff.mp first
  rw [slice,slice,List.drop_eq_getElem_cons bound,show stop - start = stop - (start + 1) + 1 by omega,List.take_succ_cons]

namespace SparseRows

def valuesOf (pairs : List (Nat × α)) (key : Nat) : List α := (pairs.filter (·.1 = key)).map (·.2)

abbrev firstOf (pairs : List (Nat × α)) (key : Nat) : Nat := startOf (pairs.map (·.1)) key

variable {α : Type u} {pairs front rest : List (Nat × α)} {key other : Nat} {value : α}

theorem valuesOf_append (left right : List (Nat × α)) (key : Nat) :
    valuesOf (left ++ right) key = valuesOf left key ++ valuesOf right key := by
  rw [valuesOf,List.filter_append,List.map_append]
  rfl

theorem valuesOf_cons (pair : Nat × α) (rest : List (Nat × α)) (key : Nat) :
    valuesOf (pair :: rest) key = if pair.1 = key then pair.2 :: valuesOf rest key else valuesOf rest key := by
  by_cases same : pair.1 = key
  · rw [if_pos same,valuesOf,List.filter_cons_of_pos (by simpa using same),List.map_cons]
    rfl
  · rw [if_neg same,valuesOf,List.filter_cons_of_neg (by simpa using same)]
    rfl

theorem firstOf_succ (pairs : List (Nat × α)) (key : Nat) :
    firstOf pairs (key + 1) = firstOf pairs key + (valuesOf pairs key).length := by
  rw [firstOf,startOf_succ,valuesOf,List.length_map,← List.countP_eq_length_filter,List.count_eq_countP,List.countP_map]
  rfl

theorem firstOf_le (pairs : List (Nat × α)) (key : Nat) : firstOf pairs key ≤ pairs.length :=
  (startOf_le _ key).trans_eq (List.length_map _)

theorem firstOf_zero (pairs : List (Nat × α)) : firstOf pairs 0 = 0 := by
  rw [firstOf,startOf,List.countP_eq_zero]
  simp

theorem firstOf_size {size : Nat} (bounded : ∀ pair ∈ pairs, pair.1 < size) : firstOf pairs size = pairs.length := by
  rw [firstOf,startOf,List.countP_map,List.countP_eq_length]
  intro pair member
  exact decide_eq_true (bounded pair member)

def flat (pairs : List (Nat × α)) (size : Nat) : List α := (List.range size).flatMap (valuesOf pairs)

def offsets (pairs : List (Nat × α)) (size : Nat) : List Nat := (List.range (size + 1)).map (firstOf pairs)

structure Laid (pairs : List (Nat × α)) (table : List α) : Prop where
  length : table.length = pairs.length
  row : ∀ key, slice table (firstOf pairs key) (firstOf pairs (key + 1)) = valuesOf pairs key

theorem Laid.leading {table : List α} (laid : Laid pairs table) (size : Nat) :
    slice table 0 (firstOf pairs size) = flat pairs size := by
  induction size with
  | zero =>
    rw [firstOf_zero,slice_empty]
    rfl
  | succ size ih =>
    have joined : slice table 0 (firstOf pairs (size + 1)) = slice table 0 (firstOf pairs size) ++
        slice table (firstOf pairs size) (firstOf pairs (size + 1)) := by
      have later := startOf_mono (pairs.map (·.1)) (Nat.le_succ size)
      rw [slice,slice,slice,List.drop_zero,Nat.sub_zero,Nat.sub_zero,← List.take_add]
      congr 1
      exact (Nat.add_sub_cancel' later).symm
    rw [joined,ih,laid.row,flat,flat,List.range_succ,List.flatMap_append,List.flatMap_singleton]

theorem Laid.table_eq {table : List α} (laid : Laid pairs table) {size : Nat} (bounded : ∀ pair ∈ pairs, pair.1 < size) :
    table = flat pairs size := by
  rw [← laid.leading,firstOf_size bounded,← laid.length,slice,List.drop_zero,Nat.sub_zero,List.take_length]

theorem slice_elsewhere {table : List α} {position start stop : Nat} (from' : firstOf pairs key ≤ position)
    (below : position < firstOf pairs (key + 1)) (apart : key ≠ other) (lower : firstOf pairs other ≤ start)
    (upper : stop ≤ firstOf pairs (other + 1)) (value : α) :
    slice (table.set position value) start stop = slice table start stop := by
  refine slice_congr fun i above within => List.getElem?_set_ne ?_
  rcases Nat.lt_or_gt_of_ne apart with before | behind
  · have far : firstOf pairs (key + 1) ≤ firstOf pairs other := startOf_mono _ before
    omega
  · have far : firstOf pairs (other + 1) ≤ firstOf pairs key := startOf_mono _ behind
    omega

theorem room (split : pairs = front ++ (key,value) :: rest) : (valuesOf front key).length < (valuesOf pairs key).length := by
  rw [split,valuesOf_append,valuesOf_cons,if_pos rfl,List.length_append,List.length_cons]
  omega

theorem within (split : pairs = front ++ rest) (key : Nat) : (valuesOf front key).length ≤ (valuesOf pairs key).length := by
  rw [split,valuesOf_append,List.length_append]
  omega

-- A table filled from the front of every range: `filling` knows the next free place.
structure Front (size : Nat) (pairs front : List (Nat × Nat)) (filling : Filling) : Prop where
  length : filling.table.length = pairs.length
  cursor : ∀ key < size, filling.cursors[key]? = some (firstOf pairs key + (valuesOf front key).length)
  row : ∀ key, slice filling.table (firstOf pairs key) (firstOf pairs key + (valuesOf front key).length) = valuesOf front key

section
variable {size : Nat} {pairs front rest : List (Nat × Nat)} {filling : Filling} {key value : Nat}

theorem valuesOf_snoc (front : List (Nat × Nat)) (key value other : Nat) :
    valuesOf (front ++ [(key,value)]) other = if key = other then valuesOf front other ++ [value] else valuesOf front other := by
  rw [valuesOf_append,valuesOf_cons]
  by_cases same : key = other
  · rw [if_pos same,if_pos same]
    rfl
  · rw [if_neg same,if_neg same]
    exact List.append_nil _

theorem Front.place (filled : Front size pairs front filling) (split : pairs = front ++ (key,value) :: rest)
    (bounded : key < size) : Front size pairs (front ++ [(key,value)]) (filling.place key value) := by
  have cursor := filled.cursor key bounded
  have free := room split
  have next := firstOf_succ pairs key
  have position : (filling.place key value).table =
      filling.table.set (firstOf pairs key + (valuesOf front key).length) value := by
    rw [Filling.place,List.getD_eq_getElem?_getD,cursor,Option.getD_some]
  have inside : firstOf pairs key + (valuesOf front key).length < filling.table.length := by
    have last := firstOf_le pairs (key + 1)
    rw [filled.length]
    omega
  refine ⟨by rw [position,List.length_set,filled.length],?_,?_⟩
  · intro other smaller
    rw [Filling.place,List.getElem?_modify,filled.cursor other smaller,valuesOf_snoc]
    by_cases same : key = other
    · simp [same,Nat.add_assoc]
    · simp [same]
  · intro other
    rw [position,valuesOf_snoc]
    by_cases same : key = other
    · subst same
      rw [if_pos rfl,List.length_append,List.length_singleton,← Nat.add_assoc,
        slice_succ (Nat.le_add_right _ _) (List.getElem?_set_self inside),
        slice_congr fun i _ upper => List.getElem?_set_ne (by omega),filled.row]
    · have last := within split other
      have after := firstOf_succ pairs other
      rw [if_neg same,slice_elsewhere (by omega) (by omega) same (Nat.le_refl _) (by omega),filled.row]

theorem Front.placed (filled : Front size pairs front filling) (split : pairs = front ++ rest)
    (bounded : ∀ pair ∈ pairs, pair.1 < size) :
    Front size pairs pairs (rest.foldl (fun filling pair => filling.place pair.1 pair.2) filling) := by
  induction rest generalizing front filling with
  | nil =>
    rw [List.append_nil] at split
    exact split ▸ filled
  | cons pair rest ih =>
    refine ih (filled.place split (bounded pair (split ▸ by simp))) ?_
    rw [split,List.append_assoc]
    rfl

theorem Front.laid (filled : Front size pairs pairs filling) : Laid pairs filling.table where
  length := filled.length
  row key := by rw [firstOf_succ,filled.row]

end

structure Backfill where
  ends : List Nat
  table : List Nat

def Backfill.place (filling : Backfill) (key value : Nat) : Backfill :=
  let ends := filling.ends.modify key (· - 1)
  ⟨ends,filling.table.set (ends.getD key 0) value⟩

structure Back (size : Nat) (pairs front : List (Nat × Nat)) (filling : Backfill) : Prop where
  length : filling.table.length = pairs.length
  sized : filling.ends.length = size
  ends : ∀ key < size, filling.ends[key]? = some (firstOf pairs (key + 1) - (valuesOf front key).length)
  row : ∀ key, slice filling.table (firstOf pairs (key + 1) - (valuesOf front key).length) (firstOf pairs (key + 1)) =
    (valuesOf front key).reverse

section
variable {size : Nat} {pairs front rest : List (Nat × Nat)} {filling : Backfill} {key value : Nat}

theorem Back.place (filled : Back size pairs front filling) (split : pairs = front ++ (key,value) :: rest)
    (bounded : key < size) : Back size pairs (front ++ [(key,value)]) (filling.place key value) := by
  have ending := filled.ends key bounded
  have free := room split
  have next := firstOf_succ pairs key
  have position : (filling.place key value).table =
      filling.table.set (firstOf pairs (key + 1) - (valuesOf front key).length - 1) value := by
    rw [Backfill.place]
    dsimp only
    rw [List.getD_eq_getElem?_getD,List.getElem?_modify_eq,ending]
    rfl
  have inside : firstOf pairs (key + 1) - (valuesOf front key).length - 1 < filling.table.length := by
    have last := firstOf_le pairs (key + 1)
    rw [filled.length]
    omega
  refine ⟨by rw [position,List.length_set,filled.length],by rw [Backfill.place]; simp [filled.sized],?_,?_⟩
  · intro other smaller
    rw [Backfill.place]
    dsimp only
    rw [List.getElem?_modify,filled.ends other smaller,valuesOf_snoc]
    by_cases same : key = other
    · simp [same,Nat.sub_sub]
    · simp [same]
  · intro other
    rw [position,valuesOf_snoc]
    by_cases same : key = other
    · subst same
      rw [if_pos rfl,List.length_append,List.length_singleton,List.reverse_append,← Nat.sub_sub,
        slice_before (by omega) (List.getElem?_set_self inside),
        slice_congr fun i above _ => List.getElem?_set_ne (by omega),
        show firstOf pairs (key + 1) - (valuesOf front key).length - 1 + 1 =
          firstOf pairs (key + 1) - (valuesOf front key).length by omega,filled.row]
      rfl
    · have last := within split other
      have after := firstOf_succ pairs other
      rw [if_neg same,slice_elsewhere (by omega) (by omega) same (by omega) (Nat.le_refl _),filled.row]

theorem Back.placed (filled : Back size pairs front filling) (split : pairs = front ++ rest)
    (bounded : ∀ pair ∈ pairs, pair.1 < size) :
    Back size pairs pairs (rest.foldl (fun filling pair => filling.place pair.1 pair.2) filling) := by
  induction rest generalizing front filling with
  | nil =>
    rw [List.append_nil] at split
    exact split ▸ filled
  | cons pair rest ih =>
    refine ih (filled.place split (bounded pair (split ▸ by simp))) ?_
    rw [split,List.append_assoc]
    rfl

-- All ends have become starts, and every row stands backwards.
theorem Back.finished (filled : Back size pairs pairs filling) :
    filling.ends = (List.range size).map (firstOf pairs) ∧
      ∀ key, slice filling.table (firstOf pairs key) (firstOf pairs (key + 1)) = (valuesOf pairs key).reverse := by
  have starts : ∀ key, firstOf pairs (key + 1) - (valuesOf pairs key).length = firstOf pairs key := by
    intro key
    rw [firstOf_succ]
    omega
  refine ⟨List.ext_getElem? fun i => ?_,fun key => by rw [← filled.row,starts]⟩
  rw [List.getElem?_map]
  by_cases inside : i < size
  · rw [filled.ends i inside,starts,List.getElem?_range inside]
    rfl
  · rw [List.getElem?_eq_none (by rw [filled.sized]; omega),List.getElem?_eq_none (by rw [List.length_range]; omega)]
    rfl

end

def reverseRange (start stop : Nat) (table : List α) : List α := splice table start stop (slice table start stop).reverse

def reverseRows (offsets : List Nat) (table : List α) : List α :=
  (offsets.zip offsets.tail).foldl (fun table range => reverseRange range.1 range.2 table) table

theorem windows_map (f : Nat → β) (size : Nat) :
    ((List.range (size + 1)).map f).zip ((List.range (size + 1)).map f).tail =
      (List.range size).map fun i => (f i,f (i + 1)) := by
  refine List.ext_getElem (by simp) fun i inside _ => ?_
  simp

section
variable {table : List α} {start stop : Nat}

theorem reverseRange_length (ordered : start ≤ stop) (inside : stop ≤ table.length) :
    (reverseRange start stop table).length = table.length :=
  splice_length ordered inside (by rw [List.length_reverse,slice_length inside])

theorem reverseRange_slice (ordered : start ≤ stop) (inside : stop ≤ table.length) :
    slice (reverseRange start stop table) start stop = (slice table start stop).reverse :=
  slice_splice ordered inside (by rw [List.length_reverse,slice_length inside])

theorem reverseRange_apart (ordered : start ≤ stop) (inside : stop ≤ table.length) {lower upper : Nat}
    (apart : upper ≤ start ∨ stop ≤ lower) : slice (reverseRange start stop table) lower upper = slice table lower upper := by
  refine slice_congr fun i above within => splice_outside ordered inside (by rw [List.length_reverse,slice_length inside]) ?_
  omega

end

theorem reverseRows_laid {table : List α} {size : Nat} (length : table.length = pairs.length)
    (bounded : ∀ pair ∈ pairs, pair.1 < size)
    (backwards : ∀ key, slice table (firstOf pairs key) (firstOf pairs (key + 1)) = (valuesOf pairs key).reverse) :
    Laid pairs (reverseRows (offsets pairs size) table) := by
  have turned : ∀ count, (((List.range count).map fun i => (firstOf pairs i,firstOf pairs (i + 1))).foldl
      (fun table range => reverseRange range.1 range.2 table) table).length = pairs.length ∧
      ∀ key, slice (((List.range count).map fun i => (firstOf pairs i,firstOf pairs (i + 1))).foldl
        (fun table range => reverseRange range.1 range.2 table) table) (firstOf pairs key) (firstOf pairs (key + 1)) =
          if key < count then valuesOf pairs key else (valuesOf pairs key).reverse := by
    intro count
    induction count with
    | zero => exact ⟨length,fun key => by rw [if_neg (Nat.not_lt_zero key)]; exact backwards key⟩
    | succ count ih =>
      obtain ⟨sized,rows⟩ := ih
      have ordered : firstOf pairs count ≤ firstOf pairs (count + 1) := startOf_mono _ (Nat.le_succ count)
      have inside := firstOf_le pairs (count + 1)
      rw [← sized] at inside
      rw [List.range_succ,List.map_append,List.foldl_append]
      refine ⟨(reverseRange_length ordered inside).trans sized,fun key => ?_⟩
      rcases Nat.lt_trichotomy key count with earlier | rfl | later
      · have far : firstOf pairs (key + 1) ≤ firstOf pairs count := startOf_mono _ earlier
        refine (reverseRange_apart ordered inside (.inl far)).trans ?_
        rw [rows,if_pos earlier,if_pos (by omega)]
      · refine (reverseRange_slice ordered inside).trans ?_
        rw [rows,if_neg (Nat.lt_irrefl key),if_pos (Nat.lt_succ_self key),List.reverse_reverse]
      · have far : firstOf pairs (count + 1) ≤ firstOf pairs key := startOf_mono _ later
        refine (reverseRange_apart ordered inside (.inr far)).trans ?_
        rw [rows,if_neg (by omega),if_neg (by omega)]
  obtain ⟨sized,rows⟩ := turned size
  unfold reverseRows offsets
  rw [windows_map]
  refine ⟨sized,fun key => ?_⟩
  rw [rows]
  split
  · rfl
  · next large =>
    have none : valuesOf pairs key = [] := by
      rw [valuesOf,List.map_eq_nil_iff,List.filter_eq_nil_iff]
      intro pair member same
      have small := bounded pair member
      exact absurd (of_decide_eq_true same) (Nat.ne_of_lt (small.trans_le (Nat.le_of_not_lt large)))
    rw [none,List.reverse_nil]

theorem pairs_perm {size : Nat} (bounded : ∀ pair ∈ pairs, pair.1 < size) :
    ((List.range size).flatMap fun key => (valuesOf pairs key).map (key,·)).Perm pairs := by
  have rows : ∀ count, ((List.range count).flatMap fun key => (valuesOf pairs key).map (key,·)).Perm
      (pairs.filter (·.1 < count)) := by
    intro count
    induction count with
    | zero => simp
    | succ count ih =>
      have split := List.filter_append_perm (fun pair : Nat × α => decide (pair.1 < count)) (pairs.filter (·.1 < count + 1))
      have low : (pairs.filter (·.1 < count + 1)).filter (fun pair => decide (pair.1 < count)) = pairs.filter (·.1 < count) := by
        rw [List.filter_filter]
        refine List.filter_congr fun pair _ => ?_
        rw [← Bool.decide_and]
        exact decide_eq_decide.mpr (by omega)
      have last : (pairs.filter (·.1 < count + 1)).filter (fun pair => !decide (pair.1 < count)) =
          (valuesOf pairs count).map (count,·) := by
        rw [List.filter_filter,valuesOf,List.map_map]
        have same : ∀ pair ∈ pairs.filter (·.1 = count), ((count,·) ∘ (·.2)) pair = pair := by
          intro pair member
          have key := (List.mem_filter.mp member).2
          rw [← of_decide_eq_true key]
          rfl
        rw [List.map_congr_left same,List.map_id']
        refine List.filter_congr fun pair _ => ?_
        rw [← decide_not,← Bool.decide_and]
        refine decide_eq_decide.mpr ?_
        omega
      rw [List.range_succ,List.flatMap_append,List.flatMap_singleton]
      rw [low,last] at split
      exact (ih.append_right _).trans split
  have all := rows size
  rw [List.filter_eq_self.mpr fun pair member => decide_eq_true (bounded pair member)] at all
  exact all

end SparseRows

end BonsaiNinja.Library
