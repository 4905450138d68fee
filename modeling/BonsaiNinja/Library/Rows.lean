import Mathlib.Data.List.Perm.Subperm
import Mathlib.Data.List.Nodup
import Mathlib.Order.Monotone.Defs
import Mathlib.Order.Nat

namespace BonsaiNinja.Library

-- The total order a row type is sorted by. It is Boolean so that sorted tables
-- stay computable.
class RowOrder (α : Type u) where
  before : α → α → Bool
  irrefl : ∀ a, before a a = false
  trans : ∀ a b c, before a b = true → before b c = true → before a c = true
  tri : ∀ a b, before a b = false → before b a = false → a = b

export RowOrder (before)

instance : RowOrder Nat where
  before a b := decide (a < b)
  irrefl a := by simp
  trans a b c ab bc := by simp only [decide_eq_true_eq] at *; omega
  tri a b ab ba := by simp only [decide_eq_false_iff_not] at *; omega

instance : RowOrder Bool where
  before a b := !a && b
  irrefl a := by cases a <;> rfl
  trans a b c ab bc := by cases a <;> cases b <;> simp_all
  tri a b ab ba := by cases a <;> cases b <;> simp_all

-- Lexicographic, as tuples and derived structure orders compare.
instance [RowOrder α] [DecidableEq α] [RowOrder β] : RowOrder (α × β) where
  before x y := before x.1 y.1 || (decide (x.1 = y.1) && before x.2 y.2)
  irrefl x := by simp [RowOrder.irrefl]
  trans x y z xy yz := by
    simp only [Bool.or_eq_true, Bool.and_eq_true, decide_eq_true_eq] at *
    rcases xy with first | ⟨same,second⟩ <;> rcases yz with first' | ⟨same',second'⟩
    · exact .inl (RowOrder.trans _ _ _ first first')
    · exact .inl (same' ▸ first)
    · exact .inl (same ▸ first')
    · exact .inr ⟨same.trans same',RowOrder.trans _ _ _ second second'⟩
  tri x y xy yx := by
    simp only [Bool.or_eq_false_iff, Bool.and_eq_false_imp, decide_eq_true_eq] at *
    have first := RowOrder.tri _ _ xy.1 yx.1
    exact Prod.ext first (RowOrder.tri _ _ (xy.2 first) (yx.2 first.symm))

def listBefore [RowOrder α] [DecidableEq α] : List α → List α → Bool
  | _, [] => false
  | [], _ :: _ => true
  | x :: xs, y :: ys => before x y || (decide (x = y) && listBefore xs ys)

theorem listBefore_irrefl [RowOrder α] [DecidableEq α] : ∀ rows : List α, listBefore rows rows = false
  | [] => rfl
  | x :: xs => by simp [listBefore,RowOrder.irrefl,listBefore_irrefl xs]

theorem listBefore_trans [RowOrder α] [DecidableEq α] :
    ∀ xs ys zs : List α, listBefore xs ys = true → listBefore ys zs = true → listBefore xs zs = true
  | _, _, [], _, yz => by simp [listBefore] at yz
  | _, [], _ :: _, xy, _ => by simp [listBefore] at xy
  | [], _ :: _, _ :: _, _, _ => rfl
  | x :: xs, y :: ys, z :: zs, xy, yz => by
    simp only [listBefore, Bool.or_eq_true, Bool.and_eq_true, decide_eq_true_eq] at *
    rcases xy with first | ⟨same,later⟩ <;> rcases yz with first' | ⟨same',later'⟩
    · exact .inl (RowOrder.trans _ _ _ first first')
    · exact .inl (same' ▸ first)
    · exact .inl (same ▸ first')
    · exact .inr ⟨same.trans same',listBefore_trans xs ys zs later later'⟩

theorem listBefore_tri [RowOrder α] [DecidableEq α] :
    ∀ xs ys : List α, listBefore xs ys = false → listBefore ys xs = false → xs = ys
  | [], [], _, _ => rfl
  | [], _ :: _, xy, _ => by simp [listBefore] at xy
  | _ :: _, [], _, yx => by simp [listBefore] at yx
  | x :: xs, y :: ys, xy, yx => by
    simp only [listBefore, Bool.or_eq_false_iff, Bool.and_eq_false_imp, decide_eq_true_eq] at *
    have first := RowOrder.tri _ _ xy.1 yx.1
    rw [first,listBefore_tri xs ys (xy.2 first) (yx.2 first.symm)]

-- A proper prefix comes first, as strings and vectors compare.
instance [RowOrder α] [DecidableEq α] : RowOrder (List α) where
  before := listBefore
  irrefl := listBefore_irrefl
  trans := listBefore_trans
  tri := listBefore_tri

@[reducible] def RowOrder.lift [RowOrder β] (key : α → β) (injective : ∀ a b, key a = key b → a = b) : RowOrder α where
  before a b := before (key a) (key b)
  irrefl a := RowOrder.irrefl (key a)
  trans _ _ _ := RowOrder.trans _ _ _
  tri a b ab ba := injective a b (RowOrder.tri _ _ ab ba)

instance : RowOrder Char := .lift Char.toNat fun _ _ => Char.toNat_inj.mp

section
variable {α : Type u} [RowOrder α]

theorem before_ne {a b : α} (lower : before a b = true) : a ≠ b := by
  rintro rfl
  simp [RowOrder.irrefl] at lower

theorem before_asymm {a b : α} (lower : before a b = true) : before b a = false := by
  cases upper : before b a with
  | false => rfl
  | true =>
    have cyclic := RowOrder.trans _ _ _ lower upper
    simp [RowOrder.irrefl] at cyclic

theorem before_of_ne {a b : α} (differs : a ≠ b) (upper : before b a = false) : before a b = true := by
  cases lower : before a b with
  | true => rfl
  | false => exact absurd (RowOrder.tri _ _ lower upper) differs

abbrev Sorted (rows : List α) : Prop := rows.Pairwise (fun a b => before a b = true)

theorem Sorted.nodup {rows : List α} (sorted : Sorted rows) : rows.Nodup :=
  sorted.imp before_ne

theorem Sorted.ext : ∀ {left right : List α}, Sorted left → Sorted right →
    (∀ x, x ∈ left ↔ x ∈ right) → left = right
  | [], [], _, _, _ => rfl
  | [], y :: ys, _, _, same => absurd ((same y).mpr (by simp)) (by simp)
  | x :: xs, [], _, _, same => absurd ((same x).mp (by simp)) (by simp)
  | x :: xs, y :: ys, left, right, same => by
    obtain ⟨leftHead,leftTail⟩ := List.pairwise_cons.mp left
    obtain ⟨rightHead,rightTail⟩ := List.pairwise_cons.mp right
    have heads : x = y := by
      by_contra differs
      have xLater := rightHead x (List.mem_of_ne_of_mem differs ((same x).mp (by simp)))
      have yLater := leftHead y (List.mem_of_ne_of_mem (Ne.symm differs) ((same y).mpr (by simp)))
      simp [before_asymm xLater] at yLater
    subst heads
    refine congrArg (x :: ·) (Sorted.ext leftTail rightTail fun z => ⟨fun member => ?_,fun member => ?_⟩)
    · exact List.mem_of_ne_of_mem (before_ne (leftHead z member)).symm ((same z).mp (List.mem_cons_of_mem _ member))
    · exact List.mem_of_ne_of_mem (before_ne (rightHead z member)).symm ((same z).mpr (List.mem_cons_of_mem _ member))

variable [DecidableEq α]

def insertRow (x : α) : List α → List α
  | [] => [x]
  | y :: ys => if x = y then y :: ys else if before x y then x :: y :: ys else y :: insertRow x ys

@[simp] theorem mem_insertRow {x z : α} {rows : List α} : z ∈ insertRow x rows ↔ z = x ∨ z ∈ rows := by
  induction rows with
  | nil => simp [insertRow]
  | cons y ys ih =>
    rw [insertRow]
    split
    · next same => subst same; simp
    · split
      · simp
      · rw [List.mem_cons, List.mem_cons, ih]
        tauto

theorem insertRow_sorted {x : α} : ∀ {rows : List α}, Sorted rows → Sorted (insertRow x rows)
  | [], _ => by simp [insertRow]
  | y :: ys, sorted => by
    obtain ⟨head,tail⟩ := List.pairwise_cons.mp sorted
    rw [insertRow]
    split
    · exact sorted
    · next differs =>
      split
      · next lower =>
        refine List.pairwise_cons.mpr ⟨fun z member => ?_,sorted⟩
        rcases List.mem_cons.mp member with rfl | later
        · exact lower
        · exact RowOrder.trans _ _ _ lower (head z later)
      · next upper =>
        refine List.pairwise_cons.mpr ⟨fun z member => ?_,insertRow_sorted tail⟩
        rcases mem_insertRow.mp member with rfl | later
        · exact before_of_ne (Ne.symm differs) (by simpa using upper)
        · exact head z later

-- `sort_unstable` followed by `dedup`.
def sortDedup (rows : List α) : List α := rows.foldr insertRow []

@[simp] theorem mem_sortDedup {x : α} {rows : List α} : x ∈ sortDedup rows ↔ x ∈ rows := by
  induction rows with
  | nil => simp [sortDedup]
  | cons y ys ih =>
    rw [sortDedup, List.foldr_cons, mem_insertRow, List.mem_cons]
    exact or_congr_right ih

theorem sortDedup_sorted (rows : List α) : Sorted (sortDedup rows) := by
  induction rows with
  | nil => exact List.Pairwise.nil
  | cons y ys ih => exact insertRow_sorted ih

-- Halving search; the caller's table must be sorted for a miss to mean absence.
def searchHalves (x : α) : Nat → List α → Bool
  | 0, _ => false
  | fuel + 1, rows =>
    match rows.drop (rows.length / 2) with
    | [] => false
    | middle :: after =>
      if x = middle then true
      else if before x middle then searchHalves x fuel (rows.take (rows.length / 2))
      else searchHalves x fuel after

def binarySearch (rows : List α) (x : α) : Bool := searchHalves x rows.length rows

theorem searchHalves_iff {x : α} : ∀ {fuel : Nat} {rows : List α}, rows.length ≤ fuel → Sorted rows →
    (searchHalves x fuel rows = true ↔ x ∈ rows)
  | 0, rows, enough, _ => by
    have empty : rows = [] := List.length_eq_zero_iff.mp (by omega)
    simp [searchHalves,empty]
  | fuel + 1, rows, enough, sorted => by
    have whole := List.take_append_drop (rows.length / 2) rows
    rw [searchHalves]
    cases right : rows.drop (rows.length / 2) with
    | nil =>
      have short := List.drop_eq_nil_iff.mp right
      have empty : rows = [] := List.length_eq_zero_iff.mp (by omega)
      simp [empty]
    | cons middle after =>
      rw [right] at whole
      have lengths := congrArg List.length whole
      simp only [List.length_append, List.length_take, List.length_cons] at lengths
      rw [← whole] at sorted
      obtain ⟨leftSorted,rightSorted,across⟩ := List.pairwise_append.mp sorted
      obtain ⟨later,afterSorted⟩ := List.pairwise_cons.mp rightSorted
      have member : x ∈ rows ↔ x ∈ rows.take (rows.length / 2) ∨ x = middle ∨ x ∈ after := by
        conv_lhs => rw [← whole]
        simp
      rw [member]
      dsimp only
      split
      · next same => simp [same]
      · next differs =>
        split
        · next lower =>
          rw [searchHalves_iff (by simp only [List.length_take]; omega) leftSorted]
          refine ⟨.inl,?_⟩
          rintro (found | same | found)
          · exact found
          · exact absurd same differs
          · exact absurd (later x found) (by simp [before_asymm lower])
        · next upper =>
          rw [searchHalves_iff (by omega) afterSorted]
          refine ⟨fun found => .inr (.inr found),?_⟩
          rintro (found | same | found)
          · exact absurd (across x found middle (by simp)) upper
          · exact absurd same differs
          · exact found

theorem binarySearch_iff {rows : List α} (sorted : Sorted rows) {x : α} : binarySearch rows x = true ↔ x ∈ rows :=
  searchHalves_iff (Nat.le_refl _) sorted

end

structure SortedRows (α : Type u) [RowOrder α] where
  rows : List α
  sorted : Sorted rows

namespace SortedRows
variable {α : Type u} [RowOrder α]

instance : Membership α (SortedRows α) := ⟨fun table x => x ∈ table.rows⟩

theorem mem_rows {table : SortedRows α} {x : α} : x ∈ table.rows ↔ x ∈ table := Iff.rfl

theorem ext_mem {left right : SortedRows α} (same : ∀ x, x ∈ left ↔ x ∈ right) : left = right := by
  obtain ⟨rows,sorted⟩ := left
  obtain ⟨rows',sorted'⟩ := right
  have equal : rows = rows' := Sorted.ext sorted sorted' same
  subst equal
  rfl

instance [DecidableEq α] : DecidableEq (SortedRows α) := fun left right =>
  decidable_of_iff (left.rows = right.rows)
    ⟨fun same => by cases left; cases right; simp_all,fun same => by rw [same]⟩

instance : PartialOrder (SortedRows α) where
  le left right := ∀ x, x ∈ left → x ∈ right
  le_refl _ _ member := member
  le_trans _ _ _ lower upper x member := upper x (lower x member)
  le_antisymm _ _ lower upper := ext_mem fun x => ⟨lower x,upper x⟩

instance : OrderBot (SortedRows α) where
  bot := ⟨[],List.Pairwise.nil⟩
  bot_le _ _ member := absurd member List.not_mem_nil

@[simp] theorem not_mem_bot {x : α} : ¬x ∈ (⊥ : SortedRows α) := List.not_mem_nil

theorem length_le {left right : SortedRows α} (lower : left ≤ right) : left.rows.length ≤ right.rows.length :=
  (List.subperm_of_subset left.sorted.nodup lower).length_le

theorem length_strictMono : StrictMono fun table : SortedRows α => table.rows.length := by
  intro left right lower
  refine lt_of_le_of_ne (length_le lower.le) fun same => lower.ne ?_
  have perm := (List.subperm_of_subset left.sorted.nodup lower.le).perm_of_length_le same.ge
  exact ext_mem fun x => perm.mem_iff

variable [DecidableEq α]

def ofList (rows : List α) : SortedRows α := ⟨sortDedup rows,sortDedup_sorted rows⟩

@[simp] theorem mem_ofList {x : α} {rows : List α} : x ∈ ofList rows ↔ x ∈ rows := mem_sortDedup

def search (table : SortedRows α) (x : α) : Bool := binarySearch table.rows x

@[simp] theorem search_iff {table : SortedRows α} {x : α} : table.search x = true ↔ x ∈ table :=
  binarySearch_iff table.sorted

end SortedRows

abbrev GroupedRows (κ : Type u) (β : Type v) [RowOrder κ] [DecidableEq κ] [RowOrder β] := SortedRows (κ × β)

namespace GroupedRows
variable {κ : Type u} {β : Type v} [RowOrder κ] [DecidableEq κ] [RowOrder β]

def get (table : GroupedRows κ β) (key : κ) : List β :=
  (table.rows.filter fun row => row.1 = key).map (·.2)

@[simp] theorem mem_get {table : GroupedRows κ β} {key : κ} {value : β} :
    value ∈ get table key ↔ (key,value) ∈ table := by
  simp [get,SortedRows.mem_rows]

end GroupedRows

end BonsaiNinja.Library
