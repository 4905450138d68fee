import Mathlib.Data.List.Nodup

namespace BonsaiNinja.Library

structure PageCache (κ : Type u) (β : Type v) where
  pages : List (κ × β)
  order : List κ

namespace PageCache
variable {κ : Type u} {β : Type v} [DecidableEq κ]

def empty : PageCache κ β := ⟨[],[]⟩

-- The oldest pages go until the rest fits; without an order the loop would not end.
def evict (capacity : Nat) : List κ → List (κ × β) → Option (PageCache κ β)
  | order, pages =>
    if pages.length ≤ capacity then some ⟨pages,order⟩
    else
      match order with
      | [] => none
      | evicted :: order => evict capacity order (pages.filter (·.1 ≠ evicted))

def get (cache : PageCache κ β) (key : κ) : Option β := cache.pages.lookup key

def remember (cache : PageCache κ β) (capacity : Nat) (key : κ) (page : β) : Option (PageCache κ β) :=
  evict capacity (cache.order ++ [key]) (cache.pages ++ [(key,page)])

structure Valid (page : κ → β) (cache : PageCache κ β) : Prop where
  pages : ∀ entry ∈ cache.pages, entry.2 = page entry.1
  listed : cache.order = cache.pages.map (·.1)
  distinct : (cache.pages.map (·.1)).Nodup

omit [DecidableEq κ] in
theorem empty_valid (page : κ → β) : (empty : PageCache κ β).Valid page :=
  ⟨fun _ member => absurd member List.not_mem_nil,rfl,.nil⟩

theorem get_exact {page : κ → β} {cache : PageCache κ β} (valid : cache.Valid page) {key : κ} {held : β}
    (found : cache.get key = some held) : held = page key := by
  obtain ⟨front,back,split,_⟩ := List.lookup_eq_some_iff.mp found
  exact valid.pages (key,held) (by rw [split]; simp)

theorem evict_exact (capacity : Nat) {pages : List (κ × β)} (distinct : (pages.map (·.1)).Nodup) :
    ∃ kept, evict capacity (pages.map (·.1)) pages = some ⟨kept,kept.map (·.1)⟩ ∧ kept <:+ pages := by
  induction pages with
  | nil => exact ⟨[],by simp [evict],List.suffix_refl _⟩
  | cons page rest ih =>
    obtain ⟨fresh,distinct⟩ := List.nodup_cons.mp distinct
    rw [List.map_cons,evict]
    by_cases fits : (page :: rest).length ≤ capacity
    · exact ⟨page :: rest,by rw [if_pos fits]; rfl,List.suffix_refl _⟩
    · obtain ⟨kept,ran,suffix⟩ := ih distinct
      have others : (page :: rest).filter (·.1 ≠ page.1) = rest := by
        rw [List.filter_cons_of_neg (by simp)]
        refine List.filter_eq_self.mpr fun other member => ?_
        rw [decide_eq_true_eq]
        exact fun same => fresh (List.mem_map.mpr ⟨other,member,same⟩)
      refine ⟨kept,?_,suffix.trans (List.suffix_cons page rest)⟩
      rw [if_neg fits]
      simp only [others]
      exact ran

theorem remember_valid {page : κ → β} {cache : PageCache κ β} (valid : cache.Valid page) {key : κ}
    (missed : cache.get key = none) (capacity : Nat) :
    ∃ cache', cache.remember capacity key (page key) = some cache' ∧ cache'.Valid page := by
  have fresh : key ∉ cache.pages.map (·.1) := by
    intro member
    obtain ⟨entry,source,same⟩ := List.mem_map.mp member
    have apart := List.lookup_eq_none_iff.mp missed entry source
    simp [same] at apart
  have grown : (cache.pages ++ [(key,page key)]).map (·.1) = cache.order ++ [key] := by
    rw [List.map_append,valid.listed]
    rfl
  have distinct : ((cache.pages ++ [(key,page key)]).map (·.1)).Nodup := by
    rw [List.map_append]
    refine List.nodup_append.mpr ⟨valid.distinct,List.nodup_singleton _,fun a member b last => ?_⟩
    rw [List.mem_singleton.mp last]
    exact fun (same : a = key) => fresh (same ▸ member)
  obtain ⟨kept,ran,suffix⟩ := evict_exact capacity distinct
  rw [grown] at ran
  refine ⟨_,ran,fun entry member => ?_,rfl,distinct.sublist (suffix.sublist.map _)⟩
  cases List.mem_append.mp (suffix.mem member) with
  | inl old => exact valid.pages entry old
  | inr last => rw [List.mem_singleton.mp last]

end PageCache

end BonsaiNinja.Library
