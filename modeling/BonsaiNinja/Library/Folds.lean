import Mathlib.Data.List.Induction
import Mathlib.Data.List.NodupEquivFin
import Mathlib.Order.WellFounded

namespace BonsaiNinja.Library

-- A fold whose step only adds the facts of its element collects the facts of all
-- elements.
theorem foldl_collects {step : σ → α → σ} (holds : σ → Prop) (adds : α → Prop)
    (each : ∀ s x, holds (step s x) ↔ holds s ∨ adds x) (s : σ) (rows : List α) :
    holds (rows.foldl step s) ↔ holds s ∨ ∃ x ∈ rows, adds x := by
  induction rows generalizing s with
  | nil => simp
  | cons x rest ih =>
    rw [List.foldl_cons, ih, each, or_assoc]
    simp

-- The elements consumed so far are a parameter of what a fold maintains.
theorem foldl_consumes {step : σ → α → σ} (holds : List α → σ → Prop)
    (each : ∀ consumed s x, holds consumed s → holds (consumed ++ [x]) (step s x)) {consumed : List α} {s : σ}
    (start : holds consumed s) (rows : List α) : holds (consumed ++ rows) (rows.foldl step s) := by
  induction rows generalizing consumed s with
  | nil => simpa using start
  | cons x rest ih => simpa using ih (each consumed s x start)

theorem mapM_filterMap {read : α → Option β} {rows : List α} (total : ∀ row ∈ rows, (read row).isSome = true) :
    rows.mapM read = some (rows.filterMap read) := by
  induction rows with
  | nil => rfl
  | cons row rest ih =>
    obtain ⟨value,found⟩ := Option.isSome_iff_exists.mp (total row List.mem_cons_self)
    have later := ih fun other member => total other (List.mem_cons_of_mem row member)
    rw [List.mapM_cons,later,found,List.filterMap_cons_some found]
    rfl

theorem mem_of_lookup [DecidableEq κ] {rows : List (κ × β)} {key : κ} {value : β} (found : rows.lookup key = some value) :
    (key,value) ∈ rows := by
  obtain ⟨before,after,rfl,_⟩ := List.lookup_eq_some_iff.mp found
  exact List.mem_append_right _ List.mem_cons_self

def gather [DecidableEq κ] (rows : List (κ × β)) (key : κ) : List β :=
  rows.filterMap fun row => if row.1 = key then some row.2 else none

@[simp] theorem mem_gather [DecidableEq κ] {rows : List (κ × β)} {key : κ} {value : β} :
    value ∈ gather rows key ↔ (key,value) ∈ rows := by
  simp only [gather, List.mem_filterMap, Option.ite_none_right_eq_some, Option.some.injEq, Prod.exists]
  constructor
  · rintro ⟨_,_,member,rfl,rfl⟩
    exact member
  · exact fun member => ⟨key,value,member,rfl,rfl⟩

theorem getElem?_kept (keep : α → Bool) (change : α → β) {rows : List α} {n : Nat} {row : α} (found : rows[n]? = some row)
    (kept : keep row = true) :
    (rows.filterMap fun row => if keep row then some (change row) else none)[(rows.take n).countP keep]? = some (change row) := by
  induction rows generalizing n with
  | nil => cases found
  | cons first rows ih =>
    cases n with
    | zero =>
      cases found
      simp only [List.filterMap_cons, kept, if_true]
      rfl
    | succ n =>
      rw [List.take_succ_cons, List.countP_cons]
      by_cases here : keep first = true
      · simp only [List.filterMap_cons, here, if_true, List.getElem?_cons_succ]
        exact ih found
      · simp only [List.filterMap_cons, here]
        exact ih found

theorem exists_kept (keep : α → Bool) (change : α → β) {rows : List α} {i : Nat} {changed : β}
    (found : (rows.filterMap fun row => if keep row then some (change row) else none)[i]? = some changed) :
    ∃ (n : Nat) (row : α), rows[n]? = some row ∧ keep row = true ∧ (rows.take n).countP keep = i ∧ changed = change row := by
  induction rows generalizing i with
  | nil => cases found
  | cons first rows ih =>
    by_cases here : keep first = true
    · simp only [List.filterMap_cons, here, if_true] at found
      cases i with
      | zero =>
        cases found
        exact ⟨0,first,rfl,here,rfl,rfl⟩
      | succ i =>
        obtain ⟨n,row,present,kept,count,same⟩ := ih found
        exact ⟨n + 1,row,present,kept,by rw [List.take_succ_cons, List.countP_cons, if_pos here, count],same⟩
    · simp only [List.filterMap_cons, here] at found
      obtain ⟨n,row,present,kept,count,same⟩ := ih found
      exact ⟨n + 1,row,present,kept,by rw [List.take_succ_cons, List.countP_cons, if_neg here, count, Nat.add_zero],same⟩

theorem countP_take_lt (keep : α → Bool) {rows : List α} {n m : Nat} {row : α} (found : rows[n]? = some row)
    (kept : keep row = true) (below : n < m) : (rows.take n).countP keep < (rows.take m).countP keep := by
  have next : (rows.take (n + 1)).countP keep = (rows.take n).countP keep + 1 := by
    rw [List.take_add_one, found, List.countP_append]
    simp [kept]
  have longer : (rows.take (n + 1)).Sublist (rows.take m) := List.take_sublist_take_left below
  have more := longer.countP_le (p := keep)
  omega

-- Blocks laid one after the other and cut off at a budget repeat an entry exactly when a
-- block does within its share, or a block that still has a share has been laid before.
theorem nodup_take_blocks {row : List α} {block : α → List β}
    (apart : ∀ {a b x}, a ∈ row → b ∈ row → x ∈ block a → x ∈ block b → a = b) (budget : Nat) : ((row.flatMap block).take budget).Nodup ↔ ∀ earlier target later, row = earlier ++ target :: later →
      ((block target).take (budget - (earlier.flatMap block).length)).Nodup ∧
        (target ∈ earlier → block target ≠ [] → budget ≤ (earlier.flatMap block).length) := by
  induction row using List.reverseRecOn with
  | nil =>
    refine iff_of_true (by simp) fun earlier target later split => ?_
    exact absurd split.symm (by simp)
  | append_singleton row last ih =>
    rw [List.flatMap_append,List.flatMap_singleton,List.take_append,List.nodup_append,
      ih fun here there => apart (List.mem_append_left _ here) (List.mem_append_left _ there)]
    constructor
    · rintro ⟨old,new,disjoint⟩ earlier target later split
      rcases List.eq_nil_or_concat' later with rfl | ⟨rest,final,rfl⟩
      · obtain ⟨rfl,ends⟩ := List.append_inj' split rfl
        cases ends
        refine ⟨new,fun member leads => ?_⟩
        by_contra due
        obtain ⟨x,found⟩ := List.exists_mem_of_ne_nil _ leads
        have share : 0 < budget - (row.flatMap block).length := by omega
        rw [List.take_of_length_le (by omega)] at disjoint
        obtain ⟨first,tail,shape⟩ := List.exists_cons_of_ne_nil leads
        have taken : first ∈ (block last).take (budget - (row.flatMap block).length) := by
          rw [shape]
          obtain ⟨more,size⟩ := Nat.exists_eq_succ_of_ne_zero (Nat.pos_iff_ne_zero.mp share)
          rw [size,List.take_succ_cons]
          exact List.mem_cons_self
        exact disjoint first (List.mem_flatMap.mpr ⟨last,member,shape ▸ List.mem_cons_self⟩) first taken rfl
      · rw [← List.cons_append,← List.append_assoc] at split
        obtain ⟨same,_⟩ := List.append_inj' split rfl
        exact old earlier target rest same
    · intro all
      obtain ⟨new,again⟩ := all row last [] rfl
      refine ⟨fun earlier target later split => all earlier target (later ++ [last]) (by rw [split]; simp),new,?_⟩
      intro x old y found same
      subst same
      obtain ⟨other,member,inside⟩ := List.mem_flatMap.mp (List.mem_of_mem_take old)
      have equal := apart (List.mem_append_left _ member) (List.mem_append_right _ (List.mem_singleton_self _)) inside
        (List.mem_of_mem_take found)
      subst equal
      have due := again member (List.ne_nil_of_mem inside)
      rw [Nat.sub_eq_zero_of_le due,List.take_zero] at found
      cases found

theorem filter_index {keep : α → Bool} {f : α → β} (rows : List α) {k : Nat} {y : β}
    (found : ((rows.filter keep).map f)[k]? = some y) : ∃ i, k ≤ i ∧ (rows.map f)[i]? = some y := by
  have shorter : ((rows.filter keep).map f).Sublist (rows.map f) := List.filter_sublist.map f
  obtain ⟨place,same⟩ := List.sublist_iff_exists_orderEmbedding_getElem?_eq.mp shorter
  exact ⟨place k,StrictMono.le_apply place.strictMono,(same k).symm.trans found⟩

theorem getElem?_filter_iff {keep : α → Bool} {f : α → β} : ∀ {rows : List α} {k : Nat}, (rows.map f).Nodup →
    (((rows.filter keep).map f)[k]? = (rows.map f)[k]? ↔ rows.length ≤ k ∨ (rows.take (k + 1)).all keep = true)
  | [], k, _ => by simp
  | row :: rows, k, distinct => by
    obtain ⟨_,rest⟩ := List.nodup_cons.mp distinct
    cases kept : keep row with
    | true =>
      rw [List.filter_cons_of_pos kept]
      cases k with
      | zero => simp [kept]
      | succ k =>
        rw [List.map_cons, List.map_cons, List.getElem?_cons_succ, List.getElem?_cons_succ, getElem?_filter_iff rest,
          List.length_cons, Nat.add_le_add_iff_right, List.take_succ_cons, List.all_cons, kept, Bool.true_and]
    | false =>
      rw [List.filter_cons_of_neg (by simp [kept]), List.take_succ_cons, List.all_cons, kept, Bool.false_and,
        or_iff_left Bool.false_ne_true]
      constructor
      · intro same
        by_contra inside
        have short : k < ((row :: rows).map f).length := by
          rw [List.length_map]
          omega
        have found := List.getElem?_eq_getElem short
        obtain ⟨i,later,moved⟩ := filter_index rows (same.trans found)
        have equal : k = i + 1 := (List.getElem?_inj short distinct).mp (found.trans moved.symm)
        omega
      · intro outside
        have fewer := List.length_filter_le keep rows
        have longer : (row :: rows).length = rows.length + 1 := List.length_cons
        rw [List.getElem?_eq_none (by rw [List.length_map]; omega), List.getElem?_eq_none (by rw [List.length_map]; omega)]

theorem find?_filter_iff {keep : α → Bool} {f : α → β} {kind : β → Bool} : ∀ {rows : List α}, (rows.map f).Nodup →
    (((rows.filter keep).map f).find? kind = (rows.map f).find? kind ↔ (rows.find? (kind ∘ f)).all keep = true)
  | [], _ => by simp
  | row :: rows, distinct => by
    obtain ⟨fresh,rest⟩ := List.nodup_cons.mp distinct
    rw [List.map_cons, List.find?_cons, List.find?_cons, Function.comp_apply]
    cases same : kind (f row) with
    | true =>
      cases kept : keep row with
      | true => simp [kept,same]
      | false =>
        rw [List.filter_cons_of_neg (by simp [kept])]
        simp only [Option.all_some, kept, Bool.false_eq_true, iff_false]
        intro found
        have member := List.mem_of_find?_eq_some found
        exact fresh (List.filter_sublist.map f |>.subset member)
    | false =>
      cases kept : keep row with
      | true =>
        rw [List.filter_cons_of_pos kept, List.map_cons, List.find?_cons, same]
        exact find?_filter_iff rest
      | false =>
        rw [List.filter_cons_of_neg (by simp [kept])]
        exact find?_filter_iff rest

end BonsaiNinja.Library
