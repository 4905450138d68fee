import BonsaiNinja.Cli.Paging
import BonsaiNinja.Library.Ranges
import Mathlib.Data.List.GetD

namespace BonsaiNinja.Cli
open Idg (Text)
open Hash Library

theorem cursorId_apart {command : Text} {filtersHash : UInt64} {secondary : Option UInt64} {a b : Nat} (aShort : a < 2 ^ 24)
    (bShort : b < 2 ^ 24) (same : cursorId command filtersHash secondary a = cursorId command filtersHash secondary b) :
    a = b :=
  offset_apart aShort bShort (hex08_injective (List.append_cancel_left same))

section Boundaries
variable {cap budget : Option Nat}

theorem takeRows_bounds (costs : List Nat) (taken tokens : Nat) :
    taken ≤ takeRows cap budget costs taken tokens ∧ takeRows cap budget costs taken tokens ≤ taken + costs.length := by
  induction costs generalizing taken tokens with
  | nil => exact ⟨Nat.le_refl _,Nat.le_refl _⟩
  | cons cost rest ih =>
    rw [takeRows,List.length_cons]
    split
    · omega
    · split
      · omega
      · have later := ih (taken + 1) (tokens + cost)
        omega

theorem takeRows_cap {limit : Nat} (costs : List Nat) {taken : Nat} (tokens : Nat) (within : taken ≤ limit) :
    takeRows (some limit) budget costs taken tokens ≤ limit := by
  induction costs generalizing taken tokens with
  | nil => exact within
  | cons cost rest ih =>
    rw [takeRows]
    split
    · exact within
    · next room =>
      split
      · exact within
      · exact ih _ (Nat.succ_le_of_lt (by simpa using room))

theorem takeRows_budget {limit : Nat} (costs : List Nat) {taken tokens : Nat} (within : taken ≤ 1 ∨ tokens ≤ limit) :
    takeRows cap (some limit) costs taken tokens ≤ 1 ∨
      tokens + (costs.take (takeRows cap (some limit) costs taken tokens - taken)).sum ≤ limit := by
  induction costs generalizing taken tokens with
  | nil => simpa [takeRows] using within
  | cons cost rest ih =>
    rw [takeRows]
    split
    · simpa using within
    · split
      · simpa using within
      · next room =>
        have next : taken + 1 ≤ 1 ∨ tokens + cost ≤ limit := by
          by_cases none : taken = 0
          · exact .inl (by omega)
          · refine .inr (Nat.le_of_not_lt fun above => room ?_)
            simp [above,Nat.pos_of_ne_zero none]
        have grows := (@takeRows_bounds cap (some limit) rest (taken + 1) (tokens + cost)).1
        refine (ih next).imp id fun fits => ?_
        obtain ⟨more,split⟩ : ∃ more, takeRows cap (some limit) rest (taken + 1) (tokens + cost) = taken + 1 + more :=
          ⟨_,(Nat.add_sub_cancel' grows).symm⟩
        rw [split] at fits ⊢
        have behind : taken + 1 + more - taken = more + 1 := by omega
        have behind' : taken + 1 + more - (taken + 1) = more := by omega
        rw [behind'] at fits
        rw [behind,List.take_succ_cons,List.sum_cons]
        omega

structure Page (cap budget : Option Nat) (perRow : List Nat) (page : Nat × Nat) : Prop where
  capped : ∀ limit, cap = some limit → page.2 ≤ max 1 limit
  affordable : ∀ limit, budget = some limit → page.2 ≤ 1 ∨ ((perRow.drop page.1).take page.2).sum ≤ limit

section
variable (perRow : List Nat)
include perRow

theorem buildPages_tiles {turns offset : Nat} (enough : perRow.length ≤ offset + turns)
    (inside : offset ≤ perRow.length) : Tiles offset (buildPages cap budget perRow turns offset) perRow.length := by
  induction turns generalizing offset with
  | zero =>
    have ends : perRow.length = offset := by omega
    rw [buildPages,ends]
    exact .nil _
  | succ turns ih =>
    rw [buildPages]
    split
    · next more =>
      have bounds := (@takeRows_bounds cap budget (perRow.drop offset) 0 0).2
      rw [List.length_drop] at bounds
      dsimp only
      split
      · exact .cons (by decide) (ih (by omega) (by omega))
      · next some => exact .cons (Nat.pos_of_ne_zero some) (ih (by omega) (by omega))
    · have ends : perRow.length = offset := by omega
      rw [ends]
      exact .nil _

theorem buildPages_pages (turns offset : Nat) :
    ∀ page ∈ buildPages cap budget perRow turns offset, Page cap budget perRow page := by
  induction turns generalizing offset with
  | zero => intro page member; cases member
  | succ turns ih =>
    intro page member
    rw [buildPages] at member
    split at member
    · cases List.mem_cons.mp member with
      | inr later => exact ih _ page later
      | inl same =>
        rw [same]
        split
        · exact ⟨fun _ _ => Nat.le_max_left _ _,fun _ _ => .inl (Nat.le_refl _)⟩
        · refine ⟨fun limit capped => ?_,fun limit priced => ?_⟩
          · rw [capped]
            exact Nat.le_trans (takeRows_cap _ _ (Nat.zero_le _)) (Nat.le_max_right _ _)
          · rw [priced]
            have fits := @takeRows_budget cap limit (perRow.drop offset) 0 0 (.inl (Nat.zero_le 1))
            simpa using fits
    · cases member

theorem pageBounds_cases :
    Tiles 0 (pageBounds cap budget perRow) perRow.length ∨ perRow = [] ∧ pageBounds cap budget perRow = [(0,0)] := by
  have tiles := @buildPages_tiles cap budget perRow perRow.length 0 (by omega) (Nat.zero_le _)
  unfold pageBounds
  cases built : buildPages cap budget perRow perRow.length 0 with
  | cons page rest =>
    rw [built] at tiles
    exact .inl tiles
  | nil =>
    rw [built] at tiles
    generalize ends : perRow.length = stop at tiles
    cases tiles
    exact .inr ⟨List.length_eq_zero_iff.mp ends,rfl⟩

theorem pageBounds_pages : ∀ page ∈ pageBounds cap budget perRow, Page cap budget perRow page := by
  unfold pageBounds
  split
  · intro page member
    rw [List.mem_singleton.mp member]
    exact ⟨fun _ _ => Nat.zero_le _,fun _ _ => .inl (Nat.zero_le _)⟩
  · next built =>
    rw [← built]
    exact buildPages_pages perRow _ _

theorem pageBounds_length : 0 < (pageBounds cap budget perRow).length := by
  unfold pageBounds
  split
  · exact Nat.succ_pos _
  · exact Nat.succ_pos _

theorem pageBounds_inside : ∀ page ∈ pageBounds cap budget perRow, page.1 + page.2 ≤ perRow.length := by
  intro page member
  cases @pageBounds_cases cap budget perRow with
  | inl tiles => exact (tiles.bounds member).2.2
  | inr empty =>
    rw [empty.2] at member
    rw [List.mem_singleton.mp member]
    exact Nat.zero_le _

theorem pageBounds_offsets : ((pageBounds cap budget perRow).map (·.1)).Nodup := by
  cases @pageBounds_cases cap budget perRow with
  | inl tiles => exact tiles.offsets_nodup
  | inr empty =>
    rw [empty.2]
    exact List.nodup_singleton 0

end

theorem pageBounds_flatMap {T : Type} {rows : List T} {perRow : List Nat} (same : perRow.length = rows.length) :
    ((pageBounds cap budget perRow).flatMap fun page => (rows.drop page.1).take page.2) = rows := by
  cases @pageBounds_cases cap budget perRow with
  | inl tiles =>
    rw [same] at tiles
    exact tiles.flatMap_eq
  | inr empty =>
    rw [empty.1] at same
    rw [empty.2,List.length_eq_zero_iff.mp same.symm]
    rfl

theorem pageBounds_positive {perRow : List Nat} (some : perRow ≠ []) :
    ∀ page ∈ pageBounds cap budget perRow, 0 < page.2 := by
  intro page member
  cases @pageBounds_cases cap budget perRow with
  | inl tiles => exact (tiles.bounds member).2.1
  | inr empty => exact absurd empty.1 some

end Boundaries

-- What walking a listing of one command must give: its pages, reached by every
-- way of naming them.
structure Lossless {T : Type} (rows : List T) (command : Text) (cap : Option Nat) (budget : Nat) (cost : T → Nat)
    (call : PageArg → Except Text (List T × PageInfo)) (pages : List (List T × PageInfo)) : Prop where
  partition : (pages.map (·.1)).flatten = rows
  nonempty : rows ≠ [] → ∀ page ∈ pages, page.1 ≠ []
  capped : ∀ limit, cap = some limit → ∀ page ∈ pages, page.1.length ≤ max 1 limit
  affordable : ∀ page ∈ pages, page.1.length ≤ 1 ∨ (page.1.map cost).sum ≤ budget
  walked : walkPages call pages.length .first = some pages
  counted : ∀ page ∈ pages, page.2.totalPages = pages.length
  last : ∀ i (inside : i < pages.length), pages[i].2.isLast = decide (i + 1 = pages.length)
  numbered : ∀ i (inside : i < pages.length), call (.number (i + 1)) = .ok pages[i]
  outOfRange : ∀ n, pages.length < n → call (.number n) = .error (outOfRangeError n pages.length command)
  distinct : (pages.map (·.2.cursor)).Nodup
  resolved : ∀ i (inside : i < pages.length), call (.cursor pages[i].2.cursor) = .ok pages[i]

section Walks
variable {T : Type} {rows : List T} {perRow : List Nat} {budget : Option Nat} {pages : List (Nat × Nat)} {id : Nat → Text}

theorem target_cursor (distinct : (pages.map fun page => id page.1).Nodup) (lastCursor : Option Text) {i : Nat}
    (inside : i < pages.length) : PageArg.target pages id lastCursor (.cursor (id pages[i].1)) = .ok i := by
  have found : (pages.findIdx? fun page => id page.1 = id pages[i].1) = some i := by
    refine List.findIdx?_eq_some_iff_getElem.mpr ⟨inside,decide_eq_true rfl,fun j before same => ?_⟩
    have apart := List.pairwise_iff_getElem.mp distinct j i (by rw [List.length_map]; omega) (by rwa [List.length_map]) before
    rw [List.getElem_map,List.getElem_map] at apart
    exact apart (of_decide_eq_true same)
  simp only [PageArg.target,found]

theorem walkPages_exact {call : PageArg → Except Text (List T × PageInfo)}
    (resolved : ∀ i, i < pages.length → call (.cursor (id (pages.getD i (0,0)).1)) = .ok (pageAt rows perRow budget pages id i))
    {turns i : Nat} (inside : i < pages.length) (left : turns = pages.length - i) {arg : PageArg}
    (starts : call arg = .ok (pageAt rows perRow budget pages id i)) :
    walkPages call turns arg = some ((List.range' i turns).map (pageAt rows perRow budget pages id)) := by
  induction turns generalizing i arg with
  | zero => omega
  | succ turns ih =>
    rw [walkPages,starts,List.range'_succ,List.map_cons]
    by_cases last : pages.length ≤ i + 1
    · have none : turns = 0 := by omega
      simp [pageAt,last,none]
    · have next := ih (by omega) (by omega) (resolved (i + 1) (by omega))
      have more : (pageAt rows perRow budget pages id i).2.nextCursor = some (id (pages.getD (i + 1) (0,0)).1) := by
        simp [pageAt,last]
      dsimp only
      rw [more]
      dsimp only
      rw [next]
      rfl

theorem map_pageAt {β : Type} (f : List T × PageInfo → β) (g : Nat × Nat → β)
    (same : ∀ i (inside : i < pages.length), f (pageAt rows perRow budget pages id i) = g pages[i]) :
    ((List.range pages.length).map (pageAt rows perRow budget pages id)).map f = pages.map g := by
  refine List.ext_getElem (by simp) fun i short _ => ?_
  simp only [List.getElem_map,List.getElem_range]
  exact same i (by simpa using short)

theorem pageAt_eq {i : Nat} (inside : i < pages.length) :
    (pageAt rows perRow budget pages id i).1 = (rows.drop pages[i].1).take pages[i].2 ∧
      (pageAt rows perRow budget pages id i).2.cursor = id pages[i].1 := by
  have page : pages.getD i (0,0) = pages[i] := List.getD_eq_getElem _ _ inside
  exact ⟨by rw [← page]; rfl,by rw [← page]; rfl⟩

theorem pageAt_length {i : Nat} (inside : i < pages.length) (bounded : pages[i].1 + pages[i].2 ≤ rows.length) :
    (pageAt rows perRow budget pages id i).1.length = pages[i].2 := by
  rw [(pageAt_eq inside).1,List.length_take,List.length_drop]
  omega

end Walks

-- The offsets of one listing are too small for two of its cursors to collide.
theorem cursors_distinct {cap budget : Option Nat} {perRow : List Nat} (few : perRow.length < 2 ^ 24) (command : Text)
    (filtersHash : UInt64) (secondary : Option UInt64) :
    ((pageBounds cap budget perRow).map fun page => cursorId command filtersHash secondary page.1).Nodup := by
  have short : ∀ offset ∈ (pageBounds cap budget perRow).map (·.1), offset < 2 ^ 24 := by
    intro offset member
    obtain ⟨page,inside,rfl⟩ := List.mem_map.mp member
    have bounded := pageBounds_inside perRow page inside
    omega
  have ids : (((pageBounds cap budget perRow).map (·.1)).map (cursorId command filtersHash secondary)).Nodup :=
    List.Nodup.map_on (fun a first b second equal => cursorId_apart (short a first) (short b second) equal) (pageBounds_offsets perRow)
  rwa [List.map_map] at ids

section Calls
variable {T : Type} {rows : List T} {rowCostBytes : T → Nat} {context pageSize : Option Nat} {formatClass : FormatClass}
  {reserve : Nat → Nat} {command : Text} {filtersHash : UInt64} {secondary : Option UInt64} {lastCursor : Option Text}
  {perRow : List Nat} {pages : List (Nat × Nat)} {id : Nat → Text}

theorem effectiveBudget_listing (arg : PageArg) :
    (PagingConfig.mk context arg pageSize false formatClass).effectiveBudget = some (context.getD defaultContextText) := by
  cases context with
  | some budget => rfl
  | none => cases formatClass <;> rfl

variable (costs : rows.map (fun row => bytesToTokens (rowCostBytes row)) = perRow)
  (built : pageBounds pageSize (some (perPageBudget reserve (context.getD defaultContextText))) perRow = pages)
  (named : cursorId command filtersHash secondary = id)
include costs built named

theorem paginate_answers {arg : PageArg} {i : Nat} (target : arg.target pages id lastCursor = .ok i)
    (valid : arg.validate pages.length command = .ok ()) (inside : i < pages.length) :
    paginate reserve secondary lastCursor rows ⟨context,arg,pageSize,false,formatClass⟩ command filtersHash rowCostBytes =
      .ok (pageAt rows perRow (some (context.getD defaultContextText)) pages id i) := by
  have clamped : min i (pages.length - 1) = i := by omega
  unfold paginate
  simp only [effectiveBudget_listing,costs,named,Option.map_some,built,target,valid,Bool.false_eq_true,if_false]
  show Except.ok (pageAt _ _ _ _ _ (min i (pages.length - 1))) = _
  rw [clamped]

theorem paginate_beyond {n : Nat} (beyond : pages.length < n) :
    paginate reserve secondary lastCursor rows ⟨context,.number n,pageSize,false,formatClass⟩ command filtersHash rowCostBytes =
      .error (outOfRangeError n pages.length command) := by
  have total : 0 < pages.length := built ▸ pageBounds_length perRow
  have rejected : validatePageNumber n pages.length command = .error (outOfRangeError n pages.length command) :=
    if_pos (by omega)
  unfold paginate
  simp only [effectiveBudget_listing,costs,named,Option.map_some,built,PageArg.target,PageArg.validate,rejected,
    Bool.false_eq_true,if_false]
  rfl

end Calls

-- Every row is on exactly one page, and every page is reached by number, by
-- cursor and by walking on from the first one.
theorem pagination_lossless {T : Type} (rows : List T) (few : rows.length < 2 ^ 24) (rowCostBytes : T → Nat)
    (context pageSize : Option Nat) (formatClass : FormatClass) (reserve : Nat → Nat) (command : Text) (filtersHash : UInt64)
    (secondary : Option UInt64) (lastCursor : Option Text) :
    ∃ pages, Lossless rows command pageSize (perPageBudget reserve (context.getD defaultContextText))
      (fun row => bytesToTokens (rowCostBytes row))
      (fun page => paginate reserve secondary lastCursor rows ⟨context,page,pageSize,false,formatClass⟩ command filtersHash
        rowCostBytes) pages := by
  generalize costs : rows.map (fun row => bytesToTokens (rowCostBytes row)) = perRow
  have same : perRow.length = rows.length := by rw [← costs,List.length_map]
  have distinct := @cursors_distinct pageSize (some (perPageBudget reserve (context.getD defaultContextText))) perRow
    (same ▸ few) command filtersHash secondary
  generalize named : cursorId command filtersHash secondary = id at distinct
  generalize built : pageBounds pageSize (some (perPageBudget reserve (context.getD defaultContextText))) perRow = pages at distinct
  have total : 0 < pages.length := built ▸ pageBounds_length perRow
  have resolved : ∀ i, i < pages.length →
      paginate reserve secondary lastCursor rows ⟨context,.cursor (id (pages.getD i (0,0)).1),pageSize,false,formatClass⟩ command
        filtersHash rowCostBytes = .ok (pageAt rows perRow (some (context.getD defaultContextText)) pages id i) := by
    intro i inside
    rw [List.getD_eq_getElem _ _ inside]
    exact paginate_answers costs built named (target_cursor distinct lastCursor inside) rfl inside
  have member : ∀ i (inside : i < pages.length),
      pages[i] ∈ pageBounds pageSize (some (perPageBudget reserve (context.getD defaultContextText))) perRow := by
    intro i inside
    rw [built]
    exact List.getElem_mem inside
  have lengthOf : ∀ i (inside : i < pages.length),
      (pageAt rows perRow (some (context.getD defaultContextText)) pages id i).1.length = pages[i].2 := fun i inside =>
    pageAt_length inside (same ▸ pageBounds_inside perRow pages[i] (member i inside))
  have shaped : ∀ i (inside : i < pages.length),
      Page pageSize (some (perPageBudget reserve (context.getD defaultContextText))) perRow pages[i] := fun i inside =>
    pageBounds_pages perRow pages[i] (member i inside)
  have visited : ∀ page ∈ (List.range pages.length).map (pageAt rows perRow (some (context.getD defaultContextText)) pages id),
      ∃ i, i < pages.length ∧ pageAt rows perRow (some (context.getD defaultContextText)) pages id i = page := by
    intro page listed
    obtain ⟨i,inside,same⟩ := List.mem_map.mp listed
    exact ⟨i,List.mem_range.mp inside,same⟩
  have size : ((List.range pages.length).map
      (pageAt rows perRow (some (context.getD defaultContextText)) pages id)).length = pages.length := by simp
  refine ⟨(List.range pages.length).map (pageAt rows perRow (some (context.getD defaultContextText)) pages id),
    ?_,?_,?_,?_,?_,?_,?_,?_,?_,?_,?_⟩
  · rw [map_pageAt (fun page => page.1) (fun page => (rows.drop page.1).take page.2) fun i inside => (pageAt_eq inside).1,
      ← List.flatMap_def,← built]
    exact pageBounds_flatMap same
  · intro some page listed empty
    obtain ⟨i,inside,rfl⟩ := visited page listed
    have nonempty : perRow ≠ [] := fun none => some (List.length_eq_zero_iff.mp (by rw [← same,none]; rfl))
    have positive := pageBounds_positive nonempty pages[i] (member i inside)
    rw [← lengthOf i inside,empty] at positive
    exact Nat.lt_irrefl 0 positive
  · intro limit capped page listed
    obtain ⟨i,inside,rfl⟩ := visited page listed
    rw [lengthOf i inside]
    exact (shaped i inside).capped limit capped
  · intro page listed
    obtain ⟨i,inside,rfl⟩ := visited page listed
    have priced : (pageAt rows perRow (some (context.getD defaultContextText)) pages id i).1.map
        (fun row => bytesToTokens (rowCostBytes row)) = (perRow.drop pages[i].1).take pages[i].2 := by
      rw [(pageAt_eq inside).1,List.map_take,List.map_drop,costs]
    rw [lengthOf i inside,priced]
    exact (shaped i inside).affordable _ rfl
  · rw [size,List.range_eq_range']
    exact walkPages_exact resolved total rfl (paginate_answers costs built named rfl rfl total)
  · intro page listed
    obtain ⟨i,inside,rfl⟩ := visited page listed
    exact size.symm
  · intro i inside
    rw [size] at inside ⊢
    rw [List.getElem_map,List.getElem_range]
    exact decide_eq_decide.mpr ⟨fun last => by omega,fun last => by omega⟩
  · intro i inside
    rw [size] at inside
    rw [List.getElem_map,List.getElem_range]
    refine paginate_answers costs built named rfl ?_ inside
    exact if_neg (by omega)
  · intro n beyond
    rw [size] at beyond ⊢
    exact paginate_beyond costs built named beyond
  · rw [map_pageAt (fun page => page.2.cursor) (fun page => id page.1) fun i inside => (pageAt_eq inside).2]
    exact distinct
  · intro i inside
    rw [size] at inside
    rw [List.getElem_map,List.getElem_range,(pageAt_eq inside).2,← List.getD_eq_getElem _ (0,0) inside]
    exact resolved i inside

theorem three_rows_lossless : ∃ pages, Lossless [700,20,30] "defs".toList (some 2) (perPageBudget (· / 20) 8)
    (fun row => bytesToTokens row)
    (fun page => paginate (· / 20) none none [700,20,30] ⟨some 8,page,some 2,false,.text⟩ "defs".toList 7 id) pages :=
  pagination_lossless [700,20,30] (by decide) id (some 8) (some 2) .text (· / 20) "defs".toList 7 none none

end BonsaiNinja.Cli
