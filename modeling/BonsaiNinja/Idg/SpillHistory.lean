import BonsaiNinja.Idg.SpillRuns
import BonsaiNinja.Idg.SpillCaches

namespace BonsaiNinja.Idg
open Library

-- What a spill set is for: the keys inserted so far, newest first.
abbrev KeyHistory := List U128

def KeyHistory.page (history : KeyHistory) (head : U32) (after : Option U128) (limit : Nat) : List U128 :=
  (sortDedup (history.filter (inPage head after))).take limit

namespace SpillSet

def Level : Option SortedRun → List U128 → Prop
  | none, rows => rows = []
  | some run, rows => run.Stores rows

theorem stored_sorted {levels : List (Option SortedRun)} {held : List (List U128)} (stored : List.Forall₂ Level levels held)
    (rows : List U128) (member : rows ∈ held) : Sorted rows := by
  induction stored with
  | nil => cases member
  | @cons level first levels held here later ih =>
    cases List.mem_cons.mp member with
    | inr rest => exact ih rest
    | inl same =>
      rw [same]
      cases level with
      | none =>
        obtain rfl : first = [] := here
        exact .nil
      | some run => exact SortedRun.Stores.sorted here

theorem placeRun_exact {levels : List (Option SortedRun)} {held : List (List U128)} (stored : List.Forall₂ Level levels held)
    {run : SortedRun} {rows : List U128} (stores : run.Stores rows) :
    ∃ next held', placeRun levels run = some next ∧ List.Forall₂ Level next held' ∧
      ∀ key, key ∈ held'.flatten ↔ key ∈ held.flatten ∨ key ∈ rows := by
  induction stored generalizing run rows with
  | nil => exact ⟨_,[rows],rfl,.cons stores .nil,fun key => by simp⟩
  | @cons level first levels held here later ih =>
    cases level with
    | none =>
      obtain rfl : first = [] := here
      exact ⟨_,rows :: held,rfl,.cons stores later,fun key => by simp [or_comm]⟩
    | some existing =>
      obtain ⟨merged,both,merges,mergedStores,union⟩ := SortedRun.mergeRuns_exact here stores
      obtain ⟨next,held',placed,nextStored,members⟩ := ih mergedStores
      refine ⟨none :: next,[] :: held',?_,.cons rfl nextStored,fun key => ?_⟩
      · simp only [placeRun,merges,placed,Option.bind_eq_bind,Option.bind_some]
        rfl
      · rw [List.flatten_cons,List.nil_append,members,union,List.flatten_cons,List.mem_append]
        tauto

theorem anyRun_exact {levels : List (Option SortedRun)} {held : List (List U128)} (stored : List.Forall₂ Level levels held)
    (key : U128) : anyRun key levels = some (decide (key ∈ held.flatten)) := by
  induction stored with
  | nil => simp [anyRun]
  | @cons level first levels held here later ih =>
    cases level with
    | none =>
      obtain rfl : first = [] := here
      exact ih
    | some run =>
      simp only [anyRun,SortedRun.contains_exact here,ih,Option.bind_eq_bind,Option.bind_some]
      by_cases member : key ∈ first
      · simp [member]
      · simp [member]

theorem runBatches_exact {levels : List (Option SortedRun)} {held : List (List U128)}
    (stored : List.Forall₂ Level levels held) (head : U32) (after : Option U128) {limit : Nat} (positive : 0 < limit) :
    runBatches head after limit levels = some (held.flatMap fun rows => (rows.filter (inPage head after)).take limit) := by
  induction stored with
  | nil => rfl
  | @cons level first levels held here later ih =>
    cases level with
    | none =>
      obtain rfl : first = [] := here
      simpa [runBatches] using ih
    | some run =>
      simp only [runBatches,SortedRun.prefixBatch_exact here head after positive,ih,Option.bind_eq_bind,Option.bind_some]
      rfl

-- The resident rows and the runs together hold the keys of the history; what
-- the cache and the filter say agrees with that.
structure Holds (set : SpillSet) (track : Bool) (history : KeyHistory) (held : List (List U128)) : Prop where
  stored : List.Forall₂ Level set.levels held
  resident : set.resident.Nodup
  members : ∀ key, key ∈ history ↔ key ∈ set.resident ∨ key ∈ held.flatten
  counted : set.len = history.dedup.length
  cache : ∀ cache, set.recentPositives = some cache → cache.Holds (· ∈ history)
  spilled : set.levels ≠ [] → set.recentPositives.isSome
  filter : ∀ filter, set.membershipFilter = some filter → filter.Covers (· ∈ held.flatten)
  unfiltered : set.membershipFilter = none → 8 ≤ set.membershipFilterBudgetBytes → held.flatten = []
  prefixes : ∀ byPrefix, set.residentByPrefix = some byPrefix → ∀ head,
    (byPrefix.lookup head).getD [] = set.resident.filter fun key => topWord key = head
  tracked : set.residentByPrefix.isSome = track

theorem new_holds (maxResidentEntries bloomBytes recentPositiveBytes : Nat) (track : Bool) :
    (new maxResidentEntries bloomBytes recentPositiveBytes track).Holds track [] [] where
  stored := .nil
  resident := .nil
  members key := by simp [new]
  counted := rfl
  cache cache found := nomatch found
  spilled nonempty := absurd rfl nonempty
  filter filter found := nomatch found
  unfiltered _ _ := rfl
  prefixes byPrefix found head := by
    simp only [new] at found
    split at found
    · obtain rfl := Option.some.inj found
      rfl
    · cases found
  tracked := by cases track <;> rfl

variable {set : SpillSet} {track : Bool} {history : KeyHistory} {held : List (List U128)}

section
variable (holds : set.Holds track history held)
include holds

theorem containsInRuns_exact (key : U128) :
    set.containsInRuns key = some (decide (key ∈ held.flatten)) := by
  have searched := anyRun_exact holds.stored key
  unfold containsInRuns
  split
  · next empty =>
    have none : set.levels = [] := List.isEmpty_iff.mp empty
    rw [← searched,none]
    rfl
  · split
    · next ruledOut =>
      cases opened : set.membershipFilter with
      | none => rw [opened] at ruledOut; cases ruledOut
      | some filter =>
        rw [opened] at ruledOut
        have absent : key ∉ held.flatten := by
          intro member
          have marked := (BloomFilter.mayContain_iff filter key).mpr ((holds.filter filter opened).marks key member)
          simp [marked] at ruledOut
        rw [decide_eq_false absent]
    · exact searched

theorem Holds.withCache {cache : RecentPositiveCache}
    (cached : cache.Holds (· ∈ history)) : Holds { set with recentPositives := some cache } track history held :=
  { holds with
    cache := fun _ found => Option.some.inj found ▸ cached
    spilled := fun _ => rfl }

theorem probeRecent_exact (key : U128) :
    ((set.probeRecent key).1 = true → key ∈ history) ∧ (set.probeRecent key).2.Holds track history held ∧
      (set.probeRecent key).2.resident = set.resident := by
  unfold probeRecent
  cases present : set.recentPositives with
  | none => exact ⟨fun hit => (nomatch hit),holds,rfl⟩
  | some cache =>
    obtain ⟨hit,cached⟩ := RecentPositiveCache.contains_exact (holds.cache cache present) key
    exact ⟨hit,holds.withCache cached,rfl⟩

theorem rememberAbsent_exact (present : set.recentPositives.isSome) {key : U128}
    (member : key ∈ history) : ∃ next, set.rememberAbsent key = some next ∧ next.Holds track history held := by
  obtain ⟨cache,opened⟩ := Option.isSome_iff_exists.mp present
  obtain ⟨next,remembered,cached⟩ := RecentPositiveCache.rememberAbsent_exact (holds.cache cache opened) member
  refine ⟨_,?_,holds.withCache cached⟩
  simp only [rememberAbsent,opened,remembered,Option.bind_eq_bind,Option.bind_some]
  rfl

theorem remember_exact (present : set.recentPositives.isSome) {key : U128}
    (member : key ∈ history) : ∃ next, set.remember key = some next ∧ next.Holds track history held := by
  obtain ⟨cache,opened⟩ := Option.isSome_iff_exists.mp present
  obtain ⟨next,remembered,cached⟩ := RecentPositiveCache.remember_exact (holds.cache cache opened) member
  refine ⟨_,?_,holds.withCache cached⟩
  simp only [remember,opened,remembered,Option.bind_eq_bind,Option.bind_some]
  rfl

-- A key found in a run proves that a flush has opened the cache.
theorem Holds.cached {key : U128} (member : key ∈ held.flatten) :
    set.recentPositives.isSome := by
  refine holds.spilled fun empty => ?_
  have stored := holds.stored
  rw [empty] at stored
  cases stored
  exact absurd member List.not_mem_nil

theorem openFilter_covers {filter : BloomFilter} (opened : set.openFilter = some filter) :
    filter.Covers (· ∈ held.flatten) := by
  unfold openFilter at opened
  split at opened
  · next fresh =>
    rw [Bool.and_eq_true,Option.isNone_iff_eq_none,decide_eq_true_eq] at fresh
    obtain rfl := Option.some.inj opened
    refine ⟨BloomFilter.new_sized _ _,fun key member => ?_⟩
    rw [holds.unfiltered fresh.1 fresh.2] at member
    exact absurd member List.not_mem_nil
  · exact holds.filter filter opened

end

theorem openFilter_isNone {set : SpillSet} (closed : set.openFilter = none) (budget : 8 ≤ set.membershipFilterBudgetBytes) :
    False := by
  unfold openFilter at closed
  split at closed
  · cases closed
  · next kept =>
    rw [closed] at kept
    simp [budget] at kept

theorem flush_exact (holds : set.Holds track history held) :
    ∃ next held', set.flush = some next ∧ next.Holds track history held' := by
  have sorted : Sorted (sortUnstable set.resident) := sortUnstable_sorted holds.resident
  have known : ∀ key ∈ sortUnstable set.resident, key ∈ history := fun key member =>
    (holds.members key).mpr (.inl (mem_sortUnstable.mp member))
  have opened : (set.recentPositives.getD (RecentPositiveCache.new set.recentPositiveBudgetBytes)).Holds (· ∈ history) := by
    cases present : set.recentPositives with
    | none => exact RecentPositiveCache.new_holds _ _
    | some cache => exact holds.cache cache present
  obtain ⟨cache,remembered,cached⟩ := RecentPositiveCache.remembers_exact opened known
  obtain ⟨rows,stores,members⟩ := SortedRun.fromSorted_stores sorted
  obtain ⟨levels,held',placed,stored,union⟩ := placeRun_exact holds.stored stores
  have moved : ∀ key, key ∈ held'.flatten ↔ key ∈ held.flatten ∨ key ∈ set.resident := by
    intro key
    rw [union,members,mem_sortUnstable]
  refine ⟨{ set with
    resident := []
    recentPositives := some cache
    membershipFilter := set.openFilter.map fun filter => (sortUnstable set.resident).foldl BloomFilter.insert filter
    residentByPrefix := set.residentByPrefix.map fun _ => []
    levels := levels },held',?_,?_⟩
  · simp only [flush,remembered,placed,Option.bind_eq_bind,Option.bind_some]
    rfl
  · refine ⟨stored,.nil,fun key => ?_,holds.counted,fun other found => Option.some.inj found ▸ cached,fun _ => rfl,
      fun filter found => ?_,fun closed budget => ?_,fun byPrefix found head => ?_,?_⟩
    · rw [moved,holds.members,or_comm]
      exact (or_iff_right List.not_mem_nil).symm
    · obtain ⟨before,wasOpen,rfl⟩ := Option.map_eq_some_iff.mp found
      have covers := BloomFilter.inserts_cover (openFilter_covers holds wasOpen) (sortUnstable set.resident)
      refine ⟨covers.sized,fun key member => covers.marks key ?_⟩
      rwa [moved,← @mem_sortUnstable _ _ set.resident] at member
    · exact (openFilter_isNone (Option.map_eq_none_iff.mp closed) budget).elim
    · obtain ⟨_,_,rfl⟩ := Option.map_eq_some_iff.mp found
      rfl
    · rw [Option.isSome_map]
      exact holds.tracked

theorem entryPush_lookup (head : U32) (key : U128) (byPrefix : List (U32 × List U128)) (other : U32) :
    ((entryPush head key byPrefix).lookup other).getD [] =
      (byPrefix.lookup other).getD [] ++ if head = other then [key] else [] := by
  induction byPrefix with
  | nil =>
    by_cases same : head = other
    · simp [entryPush,same]
    · simp [entryPush,List.lookup_cons,same,beq_eq_false_iff_ne.mpr (Ne.symm same)]
  | cons entry rest ih =>
    obtain ⟨word,keys⟩ := entry
    rw [entryPush]
    dsimp only
    by_cases here : word = head
    · rw [if_pos here,here]
      by_cases same : head = other
      · simp [same]
      · simp [List.lookup_cons,same,beq_eq_false_iff_ne.mpr (Ne.symm same)]
    · rw [if_neg here]
      by_cases same : other = word
      · simp [same,Ne.symm here]
      · rw [List.lookup_cons,List.lookup_cons,beq_eq_false_iff_ne.mpr same]
        exact ih

section
variable (holds : set.Holds track history held)
include holds

theorem insertNew_exact {key : U128} (fresh : key ∉ history) :
    ∃ next held', set.insertNew key = some next ∧ next.Holds track (key :: history) held' := by
  have absent : key ∉ set.resident := fun member => fresh ((holds.members key).mpr (.inl member))
  -- What the set holds once the key is resident, for every cache that knows
  -- only inserted keys.
  have grown : ∀ cached : Option RecentPositiveCache, (set.recentPositives.isSome → cached.isSome) →
      (∀ cache, cached = some cache → cache.Holds (· ∈ key :: history)) →
      Holds { set with
        resident := set.resident ++ [key]
        recentPositives := cached
        residentByPrefix := set.residentByPrefix.map (entryPush (topWord key) key)
        len := set.len + 1 } track (key :: history) held := by
    intro cached opened caches
    refine { holds with
      resident := ?_
      members := fun other => ?_
      counted := ?_
      cache := caches
      spilled := fun nonempty => opened (holds.spilled nonempty)
      prefixes := fun byPrefix found head => ?_
      tracked := ?_ }
    · exact List.nodup_append.mpr ⟨holds.resident,List.nodup_singleton key,fun a member b single same => absent
        (List.mem_singleton.mp single ▸ same ▸ member)⟩
    · rw [List.mem_cons,holds.members,List.mem_append,List.mem_singleton]
      tauto
    · show set.len + 1 = _
      rw [List.dedup_cons_of_notMem fresh,List.length_cons,holds.counted]
    · obtain ⟨old,present,rfl⟩ := Option.map_eq_some_iff.mp found
      rw [entryPush_lookup,holds.prefixes old present,List.filter_append]
      congr 1
      by_cases same : topWord key = head
      · simp [same]
      · simp [same]
    · rw [Option.isSome_map]
      exact holds.tracked
  have remembered : ∃ cached : Option RecentPositiveCache,
      { set with resident := set.resident ++ [key] }.rememberResident key =
        some { set with resident := set.resident ++ [key], recentPositives := cached } ∧
      (set.recentPositives.isSome → cached.isSome) ∧
      ∀ cache, cached = some cache → cache.Holds (· ∈ key :: history) := by
    cases present : set.recentPositives with
    | none => exact ⟨none,rfl,id,fun cache found => (nomatch found)⟩
    | some cache =>
      have known := (holds.cache cache present).mono fun other => List.mem_cons_of_mem key
      obtain ⟨next,found,nextHolds⟩ := RecentPositiveCache.rememberAbsent_exact known List.mem_cons_self
      refine ⟨some next,?_,fun _ => rfl,fun other same => Option.some.inj same ▸ nextHolds⟩
      simp only [rememberResident,Option.isSome_some,if_true,rememberAbsent,found,Option.bind_eq_bind,Option.bind_some]
      rfl
  obtain ⟨cached,found,opened,caches⟩ := remembered
  unfold insertNew
  simp only [found,Option.bind_eq_bind,Option.bind_some]
  split
  · exact flush_exact (grown cached opened caches)
  · exact ⟨_,held,rfl,grown cached opened caches⟩

theorem Holds.again {key : U128} (member : key ∈ history) :
    set.Holds track (key :: history) held := by
  have same : ∀ other, other ∈ key :: history ↔ other ∈ history := fun other => by
    rw [List.mem_cons]
    exact or_iff_right_of_imp fun eq => eq ▸ member
  refine { holds with
    members := fun other => (same other).trans (holds.members other)
    counted := ?_
    cache := fun cache found => (holds.cache cache found).mono fun other => (same other).mpr }
  rw [List.dedup_cons_of_mem member]
  exact holds.counted

theorem insert_exact (key : U128) :
    ∃ next held', set.insert key = some (decide (key ∉ history),next) ∧ next.Holds track (key :: history) held' := by
  have old : ∀ {next : SpillSet}, key ∈ history → next.Holds track history held →
      ∃ next' held', some (false,next) = some (decide (key ∉ history),next') ∧ next'.Holds track (key :: history) held' := by
    intro next member nextHolds
    exact ⟨next,held,by rw [decide_eq_false (not_not_intro member)],nextHolds.again member⟩
  unfold insert
  split
  · next resident => exact old ((holds.members key).mpr (.inl (List.contains_iff_mem.mp resident))) holds
  · next outside =>
    obtain ⟨hit,probed,same⟩ := probeRecent_exact holds key
    cases recent : set.probeRecent key with
    | mk found next =>
      rw [recent] at hit probed same
      cases found with
      | true => exact old (hit rfl) probed
      | false =>
        simp only [containsInRuns_exact probed,Option.bind_eq_bind,Option.bind_some]
        by_cases spilled : key ∈ held.flatten
        · have member : key ∈ history := (holds.members key).mpr (.inr spilled)
          obtain ⟨next',remembered,nextHolds⟩ := rememberAbsent_exact probed (probed.cached spilled) member
          simp only [decide_eq_true spilled,if_true,remembered,Option.bind_some]
          exact old member nextHolds
        · have fresh : key ∉ history := fun member =>
            ((holds.members key).mp member).elim (fun resident => outside (List.contains_iff_mem.mpr resident)) spilled
          obtain ⟨next',held',inserted,nextHolds⟩ := insertNew_exact probed fresh
          simp only [decide_eq_false spilled,Bool.false_eq_true,if_false,inserted,Option.bind_some]
          exact ⟨next',held',by rw [decide_eq_true fresh]; rfl,nextHolds⟩

theorem contains_exact (key : U128) :
    ∃ next, set.contains key = some (decide (key ∈ history),next) ∧ next.Holds track history held := by
  obtain ⟨hit,probed,same⟩ := probeRecent_exact holds key
  unfold contains
  cases recent : set.probeRecent key with
  | mk found next =>
    rw [recent] at hit probed same
    dsimp only at hit probed same ⊢
    split
    · next positive =>
      have member : key ∈ history := by
        rw [Bool.or_eq_true,same] at positive
        cases positive with
        | inl resident => exact (holds.members key).mpr (.inl (List.contains_iff_mem.mp resident))
        | inr recently => exact hit recently
      exact ⟨next,by rw [decide_eq_true member],probed⟩
    · next negative =>
      rw [Bool.or_eq_true,not_or,same] at negative
      simp only [containsInRuns_exact probed,Option.bind_eq_bind,Option.bind_some]
      by_cases spilled : key ∈ held.flatten
      · have member : key ∈ history := (holds.members key).mpr (.inr spilled)
        obtain ⟨next',remembered,nextHolds⟩ := remember_exact probed (probed.cached spilled) member
        simp only [decide_eq_true spilled,if_true,remembered,Option.bind_some]
        exact ⟨next',by rw [decide_eq_true member]; rfl,nextHolds⟩
      · have fresh : key ∉ history := fun member =>
          ((holds.members key).mp member).elim (fun resident => negative.1 (List.contains_iff_mem.mpr resident)) spilled
        simp only [decide_eq_false spilled,Bool.false_eq_true,if_false]
        exact ⟨next,by rw [decide_eq_false fresh]; rfl,probed⟩

end

theorem residentKeys_exact (holds : set.Holds true history held) (head : U32) (after : Option U128) :
    set.residentKeys head after = set.resident.filter (inPage head after) := by
  obtain ⟨byPrefix,present⟩ := Option.isSome_iff_exists.mp holds.tracked
  have keys : ((set.residentByPrefix.bind fun byPrefix => byPrefix.lookup head).getD []) =
      set.resident.filter fun key => topWord key = head := by
    rw [present,Option.bind_some]
    exact holds.prefixes byPrefix present head
  unfold residentKeys
  rw [keys]
  cases after with
  | none => exact List.filter_congr fun key _ => (Bool.and_true _).symm
  | some last =>
    dsimp only
    rw [List.filter_filter]
    exact List.filter_congr fun key _ => Bool.and_comm _ _

theorem page_exact (holds : set.Holds true history held) (head : U32) (after : Option U128) (limit : Nat) :
    set.keysWithPrefixBatch head after limit = some (history.page head after (max limit 1)) := by
  have positive : 0 < max limit 1 := Nat.le_max_right limit 1
  unfold keysWithPrefixBatch
  simp only [residentKeys_exact holds,runBatches_exact holds.stored head after positive,Option.bind_eq_bind,
    Option.bind_some]
  have sources : ∀ rows ∈ sortUnstable (set.resident.filter (inPage head after)) ::
      held.map (List.filter (inPage head after)), Sorted rows := by
    intro rows member
    cases List.mem_cons.mp member with
    | inl same =>
      rw [same]
      exact sortUnstable_sorted (holds.resident.filter _)
    | inr spilled =>
      obtain ⟨run,source,rfl⟩ := List.mem_map.mp spilled
      exact List.Pairwise.filter _ (stored_sorted holds.stored run source)
  have cut := take_sortDedup_flatMap sources (max limit 1)
  rw [List.flatMap_cons,List.flatMap_map] at cut
  refine congrArg some (cut.trans ?_)
  refine congrArg (List.take (max limit 1)) (Sorted.ext (sortDedup_sorted _) (sortDedup_sorted _) fun key => ?_)
  rw [mem_sortDedup,mem_sortDedup,List.flatten_cons,List.mem_append,mem_sortUnstable,List.mem_filter,List.mem_filter,
    holds.members]
  have flat : key ∈ (held.map (List.filter (inPage head after))).flatten ↔ key ∈ held.flatten ∧ inPage head after key = true := by
    simp only [List.mem_flatten,List.mem_map]
    grind
  rw [flat]
  tauto

end SpillSet

end BonsaiNinja.Idg
