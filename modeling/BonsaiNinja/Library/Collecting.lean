import BonsaiNinja.Library.Folds
import Mathlib.Data.List.AList

namespace BonsaiNinja.Library

def collectM (turn : α → Except ε (List β)) : List α → Except ε (List β)
  | [] => .ok []
  | row :: rows => do
    let found ← turn row
    let rest ← collectM turn rows
    return found ++ rest

theorem collectM_ok {turn : α → Except ε (List β)} {yields : α → List β} {rows : List α}
    (total : ∀ row ∈ rows, turn row = .ok (yields row)) : collectM turn rows = .ok (rows.flatMap yields) := by
  induction rows with
  | nil => rfl
  | cons row rows ih =>
    rw [collectM, total row List.mem_cons_self, ih fun other member => total other (List.mem_cons_of_mem _ member)]
    rfl

variable {κ : Type} [DecidableEq κ] {β : Type}

def upsert (fresh : β) (change : β → β) (key : κ) (map : AList fun _ : κ => β) : AList fun _ : κ => β :=
  map.insert key (change ((map.lookup key).getD fresh))

theorem lookup_upsert (fresh : β) (change : β → β) (key other : κ) (map : AList fun _ : κ => β) :
    (upsert fresh change key map).lookup other =
      if other = key then some (change ((map.lookup key).getD fresh)) else map.lookup other := by
  unfold upsert
  split
  · next same =>
    rw [same]
    exact AList.lookup_insert map
  · next differs => exact AList.lookup_insert_ne differs

def pushAll (rows : List (κ × β)) (map : AList fun _ : κ => List β) : AList fun _ : κ => List β :=
  rows.foldl (fun map row => upsert [] (· ++ [row.2]) row.1 map) map

theorem pushAll_snoc {rows : List (κ × β)} {row : κ × β} {map : AList fun _ : κ => List β} :
    pushAll (rows ++ [row]) map = upsert [] (· ++ [row.2]) row.1 (pushAll rows map) := by
  rw [pushAll, List.foldl_append, pushAll, List.foldl_cons, List.foldl_nil]

theorem lookup_pushAll (rows : List (κ × β)) (map : AList fun _ : κ => List β) (key : κ) :
    ((pushAll rows map).lookup key).getD [] = (map.lookup key).getD [] ++ gather rows key := by
  induction rows using List.reverseRecOn with
  | nil => exact (List.append_nil _).symm
  | append_singleton rows row ih =>
    rw [pushAll_snoc, lookup_upsert, gather, List.filterMap_append, ← gather, ← List.append_assoc, ← ih]
    by_cases same : row.1 = key
    · subst same
      simp
    · simp [same,Ne.symm same]

theorem mem_pushAll {rows : List (κ × β)} {map : AList fun _ : κ => List β} {key : κ} {value : β} :
    value ∈ ((pushAll rows map).lookup key).getD [] ↔ value ∈ (map.lookup key).getD [] ∨ (key,value) ∈ rows := by
  rw [lookup_pushAll, List.mem_append, mem_gather]

theorem pushAll_nonempty {rows : List (κ × β)} {map : AList fun _ : κ => List β}
    (filled : ∀ key, map.lookup key ≠ some []) (key : κ) : (pushAll rows map).lookup key ≠ some [] := by
  unfold pushAll
  induction rows generalizing map with
  | nil => exact filled key
  | cons row rows ih =>
    refine ih fun other => ?_
    rw [lookup_upsert]
    split
    · simp
    · exact filled other

end BonsaiNinja.Library
