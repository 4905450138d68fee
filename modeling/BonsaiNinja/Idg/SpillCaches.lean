import BonsaiNinja.Idg.SpillSet

namespace BonsaiNinja.Idg
open Library

namespace BloomFilter
variable {filter : BloomFilter}

structure Sized (filter : BloomFilter) : Prop where
  bits : filter.bitLen = filter.words.length * 64
  positive : 0 < filter.bitLen

def Marks (filter : BloomFilter) (key : U128) : Prop :=
  ∀ round < filter.hashCount, bitAt filter.words (filter.bit key round) = true

theorem new_sized (bytes expectedItems : Nat) : (new bytes expectedItems).Sized := by
  have bits : (new bytes expectedItems).bitLen = (new bytes expectedItems).words.length * 64 := by
    show _ = (List.replicate _ _).length * 64
    rw [List.length_replicate]
    rfl
  refine ⟨bits,?_⟩
  show 0 < (max bytes 8 + 7) / 8 * 64
  omega

theorem mayContain_iff (filter : BloomFilter) (key : U128) : filter.mayContain key = true ↔ filter.Marks key := by
  unfold mayContain Marks
  rw [List.all_eq_true]
  simp only [List.mem_range]
  refine forall_congr' fun round => forall_congr' fun _ => ?_
  rw [nodeMask,WordBits.and_mask_ne_zero (Nat.mod_lt _ (by decide)),bitAt]

@[simp] theorem setBit_length (words : List (BitVec 64)) (bit : Nat) : (setBit words bit).length = words.length :=
  List.length_set

theorem setBit_bitAt {words : List (BitVec 64)} {bit : Nat} (inside : bit / 64 < words.length) (i : Nat) :
    bitAt (setBit words bit) i = true ↔ bitAt words i = true ∨ i = bit := by
  rw [setBit,bitAt_set _ inside]
  split
  · next same =>
    rw [BitVec.getLsbD_or,getLsbD_nodeMask _ _ (Nat.mod_lt _ (by decide)),bitAt,same,Bool.or_eq_true,decide_eq_true_eq]
    exact or_congr_right ⟨eq_of_word_and_offset same,fun eq => by rw [eq]⟩
  · next other => exact ⟨.inl,fun found => found.resolve_right fun eq => other (by rw [eq])⟩

theorem setBits_length (bits : List Nat) (words : List (BitVec 64)) : (bits.foldl setBit words).length = words.length := by
  induction bits generalizing words with
  | nil => rfl
  | cons bit rest ih => rw [List.foldl_cons,ih,setBit_length]

theorem setBits_bitAt {bits : List Nat} {words : List (BitVec 64)} (inside : ∀ bit ∈ bits, bit / 64 < words.length) (i : Nat) :
    bitAt (bits.foldl setBit words) i = true ↔ bitAt words i = true ∨ i ∈ bits := by
  induction bits generalizing words with
  | nil => simp
  | cons bit rest ih =>
    have later : ∀ other ∈ rest, other / 64 < (setBit words bit).length := by
      intro other member
      rw [setBit_length]
      exact inside other (List.mem_cons_of_mem _ member)
    rw [List.foldl_cons,ih later,setBit_bitAt (inside bit List.mem_cons_self),List.mem_cons,or_assoc]

theorem bit_inside (sized : filter.Sized) (key : U128) (round : Nat) :
    filter.bit key round / 64 < filter.words.length := by
  have below : filter.bit key round < filter.bitLen := Nat.mod_lt _ sized.positive
  rw [sized.bits] at below
  exact Nat.div_lt_of_lt_mul (by rwa [Nat.mul_comm])

theorem insert_words (filter : BloomFilter) (key : U128) :
    (filter.insert key).words = ((List.range filter.hashCount).map (filter.bit key)).foldl setBit filter.words := by
  rw [List.foldl_map]
  rfl

theorem insert_sized (sized : filter.Sized) (key : U128) : (filter.insert key).Sized := by
  refine ⟨?_,sized.positive⟩
  rw [insert_words,setBits_length]
  exact sized.bits

theorem insert_bitAt (sized : filter.Sized) (key : U128) (i : Nat) :
    bitAt (filter.insert key).words i = true ↔
      bitAt filter.words i = true ∨ ∃ round < filter.hashCount, filter.bit key round = i := by
  rw [insert_words,setBits_bitAt]
  · simp
  · intro bit member
    obtain ⟨round,_,rfl⟩ := List.mem_map.mp member
    exact bit_inside sized key round

theorem insert_marks (sized : filter.Sized) (key : U128) : (filter.insert key).Marks key :=
  fun round below => (insert_bitAt sized key _).mpr (.inr ⟨round,below,rfl⟩)

theorem insert_keeps (sized : filter.Sized) (key : U128) {old : U128} (marks : filter.Marks old) :
    (filter.insert key).Marks old :=
  fun round below => (insert_bitAt sized key _).mpr (.inl (marks round below))

structure Covers (filter : BloomFilter) (known : U128 → Prop) : Prop where
  sized : filter.Sized
  marks : ∀ key, known key → filter.Marks key

theorem inserts_cover {known : U128 → Prop} (covers : filter.Covers known) (keys : List U128) :
    (keys.foldl insert filter).Covers fun key => known key ∨ key ∈ keys := by
  induction keys generalizing filter known with
  | nil => exact ⟨covers.sized,fun key old => covers.marks key (old.resolve_right List.not_mem_nil)⟩
  | cons first rest ih =>
    have next : (filter.insert first).Covers fun key => known key ∨ key = first := by
      refine ⟨insert_sized covers.sized first,fun key member => ?_⟩
      cases member with
      | inl old => exact insert_keeps covers.sized first (covers.marks key old)
      | inr same =>
        rw [same]
        exact insert_marks covers.sized first
    have all := ih next
    refine ⟨all.sized,fun key member => all.marks key ?_⟩
    rwa [List.mem_cons,← or_assoc] at member

end BloomFilter

namespace RecentPositiveCache
variable {key : U128}

structure Holds (cache : RecentPositiveCache) (known : U128 → Prop) : Prop where
  keys : cache.keys.length = cache.ways.length
  members : ∀ i, (cache.flagsAt i).occupied = true → known (cache.keyAt i)

variable {cache : RecentPositiveCache} {known : U128 → Prop}

theorem Holds.mono {more : U128 → Prop} (holds : cache.Holds known) (grows : ∀ key, known key → more key) : cache.Holds more :=
  ⟨holds.keys,fun i occupied => grows _ (holds.members i occupied)⟩

theorem new_holds (memoryBudgetBytes : Nat) (known : U128 → Prop) : (new memoryBudgetBytes).Holds known := by
  refine ⟨?_,fun i occupied => ?_⟩
  · show (List.replicate _ _).length = (List.replicate _ _).length
    rw [List.length_replicate,List.length_replicate]
  have free : (new memoryBudgetBytes).flagsAt i = ⟨false,false⟩ := by
    simp only [new,flagsAt,List.getD_eq_getElem?_getD,List.getElem?_replicate]
    split <;> rfl
  rw [free] at occupied
  cases occupied

theorem flags_set (cache : RecentPositiveCache) (index : Nat) (flags : WayFlags) (i : Nat) :
    (cache.ways.set index flags).getD i ⟨false,false⟩ =
      if index = i ∧ index < cache.ways.length then flags else cache.flagsAt i := by
  simp only [flagsAt,List.getD_eq_getElem?_getD,List.getElem?_set]
  grind

section
variable (holds : cache.Holds known)
include holds

-- Flags may change as long as no free way becomes occupied.
theorem Holds.mark {index : Nat} (occupied : (cache.flagsAt index).occupied = true)
    (flags : WayFlags) : Holds { cache with ways := cache.ways.set index flags } known := by
  refine ⟨by rw [List.length_set]; exact holds.keys,fun i found => holds.members i ?_⟩
  simp only [flagsAt] at found
  rw [flags_set] at found
  split at found
  · next same => exact same.1 ▸ occupied
  · exact found

theorem Holds.place (member : known key) (index : Nat) :
    (cache.place index key).Holds known := by
  refine ⟨by simp only [RecentPositiveCache.place,List.length_set]; exact holds.keys,fun i found => ?_⟩
  simp only [RecentPositiveCache.place,flagsAt] at found
  rw [flags_set] at found
  simp only [RecentPositiveCache.place,keyAt,List.getD_eq_getElem?_getD,List.getElem?_set,holds.keys]
  by_cases same : index = i ∧ index < cache.ways.length
  · rw [if_pos same.1,if_pos same.2]
    exact member
  · rw [if_neg same] at found
    have old := holds.members i found
    simp only [keyAt,List.getD_eq_getElem?_getD] at old
    by_cases here : index = i
    · have outside : cache.keys[i]? = none := List.getElem?_eq_none (by rw [holds.keys]; omega)
      rw [outside] at old
      rw [if_pos here,if_neg (by tauto)]
      exact old
    · rw [if_neg here]
      exact old

theorem probe_exact (key : U128) (indices : List Nat) :
    ((cache.probe key indices).1 = true → known key) ∧ (cache.probe key indices).2.Holds known := by
  induction indices with
  | nil => exact ⟨fun hit => (nomatch hit),holds⟩
  | cons index rest ih =>
    rw [probe]
    split
    · exact ⟨fun hit => (nomatch hit),holds⟩
    · next occupied =>
      have taken : (cache.flagsAt index).occupied = true := by simpa using occupied
      split
      · next same => exact ⟨fun _ => same ▸ holds.members index taken,holds.mark taken _⟩
      · exact ih

theorem contains_exact (key : U128) :
    ((cache.contains key).1 = true → known key) ∧ (cache.contains key).2.Holds known :=
  probe_exact holds key _

def referenced (cache : RecentPositiveCache) (start : Nat) : Finset Nat :=
  (Finset.range recentPositiveAssociativity).filter fun way => (cache.flagsAt (start + way)).referenced

theorem sweep_exact {fuel start hand : Nat} (member : known key)
    (full : ∀ way < recentPositiveAssociativity, (cache.flagsAt (start + way)).occupied = true)
    (inside : hand < recentPositiveAssociativity) (enough : (cache.referenced start).card < fuel) :
    ∃ next hand', sweep start key fuel hand cache = some (next,hand') ∧ next.Holds known := by
  induction fuel generalizing hand cache with
  | zero => exact absurd enough (Nat.not_lt_zero _)
  | succ fuel ih =>
    have marked := holds.mark (full hand inside) ⟨true,false⟩
    rw [sweep]
    cases flag : (cache.flagsAt (start + hand)).referenced with
    | false => exact ⟨_,_,rfl,marked.place member _⟩
    | true =>
      refine ih marked (fun way below => ?_) (Nat.mod_lt _ (by decide)) ?_
      · simp only [flagsAt]
        rw [flags_set]
        split
        · rfl
        · exact full way below
      · refine Nat.lt_of_lt_of_le (Finset.card_lt_card ?_) (Nat.le_of_lt_succ enough)
        refine Finset.ssubset_iff_subset_ne.mpr ⟨fun way found => ?_,fun same => ?_⟩
        · obtain ⟨below,set⟩ := Finset.mem_filter.mp found
          refine Finset.mem_filter.mpr ⟨below,?_⟩
          simp only [flagsAt] at set
          rw [flags_set] at set
          split at set
          · cases set
          · exact set
        · have here : hand ∈ cache.referenced start := Finset.mem_filter.mpr ⟨Finset.mem_range.mpr inside,flag⟩
          rw [← same] at here
          have set := (Finset.mem_filter.mp here).2
          simp only [flagsAt] at set
          rw [flags_set] at set
          split at set
          · cases set
          · next outside =>
            -- A way beyond the table has no flag to clear.
            have missing : cache.ways[start + hand]? = none := List.getElem?_eq_none (by omega)
            simp only [flagsAt,List.getD_eq_getElem?_getD,missing] at set
            cases set

theorem rememberAbsent_exact (member : known key) :
    ∃ next, cache.rememberAbsent key = some next ∧ next.Holds known := by
  unfold rememberAbsent
  cases free : ((List.range recentPositiveAssociativity).map (cache.setIndex key * recentPositiveAssociativity + ·)).find?
      fun index => !(cache.flagsAt index).occupied with
  | some index =>
    have placed := holds.place member index
    refine ⟨{ cache.place index key with len := cache.len + 1 },?_,placed.keys,placed.members⟩
    simp only [free]
  | none =>
    have full : ∀ way < recentPositiveAssociativity,
        (cache.flagsAt (cache.setIndex key * recentPositiveAssociativity + way)).occupied = true := by
      intro way below
      have occupied := List.find?_eq_none.mp free _ (List.mem_map.mpr ⟨way,List.mem_range.mpr below,rfl⟩)
      simpa using occupied
    have few : (cache.referenced (cache.setIndex key * recentPositiveAssociativity)).card <
        recentPositiveAssociativity + 1 := by
      have bounded := Finset.card_filter_le (Finset.range recentPositiveAssociativity)
        fun way => (cache.flagsAt (cache.setIndex key * recentPositiveAssociativity + way)).referenced
      rw [Finset.card_range] at bounded
      exact Nat.lt_succ_of_le bounded
    obtain ⟨next,hand,swept,nextHolds⟩ := sweep_exact holds member full
      (Nat.mod_lt (cache.hands.getD (cache.setIndex key) 0) (by decide)) few
    refine ⟨{ next with hands := next.hands.set (cache.setIndex key) hand },?_,nextHolds.keys,nextHolds.members⟩
    simp only [free,swept,Option.bind_eq_bind,Option.bind_some]
    rfl

theorem remember_exact (member : known key) :
    ∃ next, cache.remember key = some next ∧ next.Holds known := by
  have probed := (contains_exact holds key).2
  unfold remember
  cases hit : cache.contains key with
  | mk found next =>
    rw [hit] at probed
    cases found with
    | true => exact ⟨next,rfl,probed⟩
    | false => exact rememberAbsent_exact probed member

theorem remembers_exact {keys : List U128} (members : ∀ key ∈ keys, known key) :
    ∃ next, keys.foldlM remember cache = some next ∧ next.Holds known := by
  induction keys generalizing cache with
  | nil => exact ⟨cache,rfl,holds⟩
  | cons key rest ih =>
    obtain ⟨next,remembered,nextHolds⟩ := remember_exact holds (members key List.mem_cons_self)
    rw [List.foldlM_cons,remembered]
    exact ih nextHolds fun other later => members other (List.mem_cons_of_mem _ later)

end

end RecentPositiveCache

end BonsaiNinja.Idg
