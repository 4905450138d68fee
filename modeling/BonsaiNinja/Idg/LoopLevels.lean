import BonsaiNinja.Cfg.Builder
import BonsaiNinja.Idg.FlowExits

namespace BonsaiNinja.Idg
open LangApi (LoopControlTarget FlowEvent)
variable {exits : ControlExitStates} {levels depth : Nat} {state : WriterState} {loopLabel : Option Text}
  {definition : Option (Text × FlowNode)} {target : Option LoopControlTarget} {order : KeyOrder} {loops : List NestedLoop}

def joinState (state other : Option WriterState) : Option WriterState := other.elim state fun other => some (mergeState state other)

def ownTargets (loopLabel : Option Text) : List (Option LoopControlTarget) :=
  [none] ++ (loopLabel.map fun label => some (.label label)).toList ++ [some (.levels 1)]

def ownState (exits : ControlExitStates) (loopLabel : Option Text) : Option WriterState :=
  (ownTargets loopLabel).foldl (fun state target => joinState state (exits.lookup target)) none

def outerState (exits : ControlExitStates) (loopLabel : Option Text) : Option LoopControlTarget → Option WriterState
  | none => none
  | some (.label label) => if loopLabel = some label then none else exits.lookup (some (.label label))
  | some (.levels 0) => exits.lookup (some (.levels 0))
  | some (.levels (levels + 1)) => exits.lookup (some (.levels (levels + 2)))

structure Retargets (exits : ControlExitStates) (loopLabel : Option Text) (taken : Option WriterState × ControlExitStates) : Prop where
  consumed : taken.1 = ownState exits loopLabel
  escaped : ∀ target, taken.2.lookup target = outerState exits loopLabel target

-- No two consecutive levels leave the loop.
def LevelsApart (exits : ControlExitStates) : Prop :=
  ∀ levels, 2 ≤ levels → (exits.lookup (some (.levels levels))).isSome → exits.lookup (some (.levels (levels + 1))) = none

theorem lookup_addControlExit (exits : ControlExitStates) (target other : Option LoopControlTarget) (state : WriterState) :
    (addControlExit exits target state).lookup other =
      if other = target then some (mergeState (exits.lookup target) state) else exits.lookup other := by
  unfold addControlExit
  split
  · next same =>
    rw [same]
    exact AList.lookup_insert _
  · next apart => exact AList.lookup_insert_ne apart

theorem lookup_erase (exits : ControlExitStates) (target other : Option LoopControlTarget) :
    (exits.erase target).lookup other = if other = target then none else exits.lookup other := by
  split
  · next same =>
    rw [same]
    exact AList.lookup_erase _ _
  · next apart => exact AList.lookup_erase_ne apart

theorem takeTarget_fst (taken : Option WriterState × ControlExitStates) (target : Option LoopControlTarget) :
    (takeTarget taken target).1 = joinState taken.1 (taken.2.lookup target) := by
  unfold takeTarget
  split
  · next found => rw [found]; rfl
  · next none => rw [none]; rfl

theorem takeTarget_lookup (taken : Option WriterState × ControlExitStates) (target other : Option LoopControlTarget) :
    (takeTarget taken target).2.lookup other = if other = target then none else taken.2.lookup other := by
  unfold takeTarget
  split
  · exact lookup_erase _ _ _
  · next none =>
    split
    · next same => rw [same,none]
    · rfl

def takeOwn (exits : ControlExitStates) (loopLabel : Option Text) : Option WriterState × ControlExitStates :=
  (ownTargets loopLabel).foldl takeTarget (none,exits)

theorem takeLoopControlExit_eq (order : KeyOrder) (exits : ControlExitStates) (loopLabel : Option Text) :
    takeLoopControlExit order exits loopLabel = ((takeOwn exits loopLabel).1,
      (order.arrange (deeperLevels (takeOwn exits loopLabel).2)).foldl shiftLevel (takeOwn exits loopLabel).2) := by
  cases loopLabel <;> rfl

theorem takeOwn_lookup (exits : ControlExitStates) (loopLabel : Option Text) (target : Option LoopControlTarget) :
    (takeOwn exits loopLabel).2.lookup target = if target ∈ ownTargets loopLabel then none else exits.lookup target := by
  cases loopLabel <;> simp only [takeOwn,ownTargets,Option.map,Option.toList,List.cons_append,List.nil_append,List.foldl,
    takeTarget_lookup,List.mem_cons,List.not_mem_nil,or_false] <;> split_ifs <;> simp_all

theorem takeOwn_fst (exits : ControlExitStates) (loopLabel : Option Text) :
    (takeOwn exits loopLabel).1 = ownState exits loopLabel := by
  cases loopLabel <;> simp [takeOwn,ownState,ownTargets,takeTarget_fst,takeTarget_lookup]

theorem mem_deeperLevels :
    levels ∈ deeperLevels exits ↔ 1 < levels ∧ (exits.lookup (some (.levels levels))).isSome := by
  rw [deeperLevels,List.mem_filterMap,AList.lookup_isSome]
  constructor
  · intro found
    obtain ⟨target,member,above⟩ := found
    unfold levelAbove at above
    split at above
    · split at above
      · next deep =>
        cases above
        exact ⟨deep,AList.mem_keys.mpr member⟩
      · exact nomatch above
    · exact nomatch above
  · intro both
    exact ⟨some (.levels levels),AList.mem_keys.mp both.2,if_pos both.1⟩

theorem deeperLevels_nodup (exits : ControlExitStates) : (deeperLevels exits).Nodup := by
  refine exits.keys_nodup.filterMap fun target other levels one two => ?_
  unfold levelAbove at one two
  split at one <;> split at two <;> simp_all

theorem lookup_shiftLevel
    (found : exits.lookup (some (.levels levels)) = some state) (target : Option LoopControlTarget) :
    (shiftLevel exits levels).lookup target =
      if target = some (.levels (levels - 1)) then
        some (mergeState ((exits.erase (some (.levels levels))).lookup (some (.levels (levels - 1)))) state)
      else if target = some (.levels levels) then none else exits.lookup target := by
  rw [shiftLevel,found]
  simp only
  rw [lookup_addControlExit]
  split
  · rfl
  · exact lookup_erase _ _ _

theorem shift_apart {order : List Nat} (distinct : order.Nodup)
    (live : ∀ levels ∈ order, 1 < levels ∧ (exits.lookup (some (.levels levels))).isSome)
    (room : ∀ levels ∈ order, exits.lookup (some (.levels (levels - 1))) = none) :
    (∀ label, (order.foldl shiftLevel exits).lookup (some (.label label)) = exits.lookup (some (.label label))) ∧
    (order.foldl shiftLevel exits).lookup none = exits.lookup none ∧
    ∀ levels, (order.foldl shiftLevel exits).lookup (some (.levels levels)) =
      if levels + 1 ∈ order then exits.lookup (some (.levels (levels + 1)))
      else if levels ∈ order then none else exits.lookup (some (.levels levels)) := by
  induction order generalizing exits with
  | nil => simp
  | cons first order ih =>
    obtain ⟨absent,distinct⟩ := List.nodup_cons.mp distinct
    obtain ⟨deep,found⟩ := live first (List.mem_cons_self ..)
    obtain ⟨state,found⟩ := Option.isSome_iff_exists.mp found
    have empty := room first (List.mem_cons_self ..)
    have moved : ∀ levels, (shiftLevel exits first).lookup (some (.levels levels)) =
        if levels + 1 = first then some state else if levels = first then none else exits.lookup (some (.levels levels)) := by
      intro levels
      have gone : (exits.erase (some (.levels first))).lookup (some (.levels (first - 1))) = none := by
        rw [lookup_erase]
        split
        · rfl
        · exact empty
      have index : (some (LoopControlTarget.levels levels) = some (.levels (first - 1))) ↔ levels + 1 = first := by
        rw [Option.some.injEq,LoopControlTarget.levels.injEq]
        omega
      have same : (some (LoopControlTarget.levels levels) = some (.levels first)) ↔ levels = first := by
        rw [Option.some.injEq,LoopControlTarget.levels.injEq]
      rw [lookup_shiftLevel found,gone]
      simp only [index,same,mergeState,Option.getD_none,Finset.empty_union]
    have others : ∀ levels ∈ order, levels ≠ first ∧ levels + 1 ≠ first := by
      intro levels member
      refine ⟨fun same => absent (same ▸ member),fun below => ?_⟩
      have present := (live levels (List.mem_cons_of_mem _ member)).2
      have same : first - 1 = levels := by omega
      rw [same] at empty
      rw [empty] at present
      exact nomatch present
    obtain ⟨labels,bare,rest⟩ := @ih (shiftLevel exits first) distinct (by
      intro levels member
      obtain ⟨other,below⟩ := others levels member
      rw [moved,if_neg below,if_neg other]
      exact live levels (List.mem_cons_of_mem _ member)) (by
      intro levels member
      obtain ⟨other,_⟩ := others levels member
      obtain ⟨deeper,_⟩ := live levels (List.mem_cons_of_mem _ member)
      rw [moved,if_neg (by omega)]
      split
      · rfl
      · exact room levels (List.mem_cons_of_mem _ member))
    refine ⟨fun label => ?_,?_,fun levels => ?_⟩
    · rw [List.foldl_cons,labels,lookup_shiftLevel found,if_neg (by simp),if_neg (by simp)]
    · rw [List.foldl_cons,bare,lookup_shiftLevel found,if_neg (by simp),if_neg (by simp)]
    · rw [List.foldl_cons,rest,moved,moved]
      simp only [List.mem_cons]
      by_cases above : levels + 1 ∈ order
      · obtain ⟨other,below⟩ := others _ above
        rw [if_pos above,if_neg below,if_neg other,if_pos (.inr above)]
      · by_cases here : levels ∈ order
        · obtain ⟨other,below⟩ := others _ here
          simp [above,here,below]
        · by_cases under : levels + 1 = first
          · subst under
            simp [above,here,found]
          · by_cases same : levels = first
            · subst same
              simp [above]
            · simp [above,here,under,same]

theorem level_own (loopLabel : Option Text) (levels : Nat) : some (.levels levels) ∈ ownTargets loopLabel ↔ levels = 1 := by
  cases loopLabel <;> simp [ownTargets]

theorem takeOwn_level (other : levels ≠ 1) :
    (takeOwn exits loopLabel).2.lookup (some (.levels levels)) = exits.lookup (some (.levels levels)) := by
  rw [takeOwn_lookup,if_neg (mt (level_own loopLabel levels).mp other)]

theorem takeOwn_bare (exits : ControlExitStates) (loopLabel : Option Text) : (takeOwn exits loopLabel).2.lookup none = none := by
  rw [takeOwn_lookup,if_pos (by cases loopLabel <;> simp [ownTargets])]

theorem takeOwn_label (exits : ControlExitStates) (loopLabel : Option Text) (label : Text) :
    (takeOwn exits loopLabel).2.lookup (some (.label label)) =
      if loopLabel = some label then none else exits.lookup (some (.label label)) := by
  rw [takeOwn_lookup]
  cases loopLabel <;> simp [ownTargets,eq_comm]

theorem takeLoopControlExit_apart (apart : LevelsApart exits) (order : KeyOrder)
    (loopLabel : Option Text) : Retargets exits loopLabel (takeLoopControlExit order exits loopLabel) := by
  rw [takeLoopControlExit_eq]
  refine ⟨takeOwn_fst exits loopLabel,?_⟩
  have perm := order.perm (deeperLevels (takeOwn exits loopLabel).2)
  have member : ∀ levels, levels ∈ order.arrange (deeperLevels (takeOwn exits loopLabel).2) ↔
      1 < levels ∧ (exits.lookup (some (.levels levels))).isSome := by
    intro levels
    rw [perm.mem_iff,mem_deeperLevels]
    refine and_congr_right fun deep => ?_
    rw [takeOwn_level (Nat.ne_of_gt deep)]
  obtain ⟨labels,bare,shifted⟩ := @shift_apart (takeOwn exits loopLabel).2 _ (perm.nodup_iff.mpr (deeperLevels_nodup _)) (by
    intro levels inside
    exact mem_deeperLevels.mp (perm.mem_iff.mp inside)) (by
    intro levels inside
    obtain ⟨deep,present⟩ := (member levels).mp inside
    by_cases lowest : levels - 1 = 1
    · rw [lowest,takeOwn_lookup,if_pos ((level_own loopLabel 1).mpr rfl)]
    · rw [takeOwn_level lowest]
      have above : levels - 1 + 1 = levels := by omega
      refine Option.not_isSome_iff_eq_none.mp fun below => ?_
      have none := apart (levels - 1) (by omega) below
      rw [above] at none
      rw [none] at present
      exact nomatch present)
  intro target
  match target with
  | none => exact bare.trans (takeOwn_bare exits loopLabel)
  | some (.label label) => exact (labels label).trans (takeOwn_label exits loopLabel label)
  | some (.levels 0) =>
    change AList.lookup _ (List.foldl shiftLevel _ _) = exits.lookup (some (.levels 0))
    rw [shifted,if_neg (fun inside => absurd ((member 1).mp inside).1 (by omega)),
      if_neg (fun inside => absurd ((member 0).mp inside).1 (by omega)),takeOwn_level (by omega)]
  | some (.levels (levels + 1)) =>
    change AList.lookup _ (List.foldl shiftLevel _ _) = exits.lookup (some (.levels (levels + 2)))
    rw [shifted]
    by_cases above : (exits.lookup (some (.levels (levels + 2)))).isSome
    · rw [if_pos ((member _).mpr ⟨by omega,above⟩),takeOwn_level (by omega)]
    · rw [if_neg (fun inside => above ((member _).mp inside).2)]
      have none := Option.not_isSome_iff_eq_none.mp above
      rw [none]
      split
      · rfl
      · next absent =>
        by_cases lowest : levels + 1 = 1
        · rw [takeOwn_lookup,if_pos ((level_own loopLabel _).mpr lowest)]
        · rw [takeOwn_level lowest]
          refine Option.not_isSome_iff_eq_none.mp fun present => ?_
          exact absent ((member _).mpr ⟨by omega,present⟩)

-- A level that nothing moves into stays away.
theorem shift_keeps_none (positive : 1 < levels)
    (gone : exits.lookup (some (.levels levels)) = none) {order : List Nat} (absent : levels + 1 ∉ order) :
    (order.foldl shiftLevel exits).lookup (some (.levels levels)) = none := by
  induction order generalizing exits with
  | nil => exact gone
  | cons first order ih =>
    refine ih ?_ fun member => absent (List.mem_cons_of_mem _ member)
    cases found : exits.lookup (some (.levels first)) with
    | none =>
      rw [shiftLevel,found]
      exact gone
    | some state =>
      have other : levels + 1 ≠ first := fun same => absent (same ▸ List.mem_cons_self ..)
      rw [lookup_shiftLevel found,if_neg (by simp; omega)]
      split
      · rfl
      · exact gone

def KeyOrder.deeperFirst (levels : Nat) : KeyOrder where
  arrange keys := if levels ∈ keys ∧ levels + 1 ∈ keys then (levels + 1) :: levels :: (keys.erase (levels + 1)).erase levels else keys
  perm keys := by
    split
    · next both =>
      have inner : levels ∈ keys.erase (levels + 1) := (List.mem_erase_of_ne (Nat.ne_of_lt (Nat.lt_succ_self levels))).mpr both.1
      exact (((List.perm_cons_erase inner).symm.cons (levels + 1)).trans (List.perm_cons_erase both.2).symm)
    · exact List.Perm.refl _

theorem takeLoopControlExit_merges (deep : 2 ≤ levels)
    (here : (exits.lookup (some (.levels levels))).isSome) (above : (exits.lookup (some (.levels (levels + 1)))).isSome)
    (loopLabel : Option Text) :
    ¬Retargets exits loopLabel (takeLoopControlExit (.deeperFirst levels) exits loopLabel) := by
  intro retargets
  have expected := retargets.escaped (some (.levels levels))
  obtain ⟨lower,rfl⟩ := Nat.exists_eq_add_of_le' (show 1 ≤ levels by omega)
  have same : outerState exits loopLabel (some (.levels (lower + 1))) = exits.lookup (some (.levels (lower + 2))) := rfl
  rw [takeLoopControlExit_eq,same] at expected
  have keys : ∀ level, 1 < level → (exits.lookup (some (.levels level))).isSome →
      level ∈ deeperLevels (takeOwn exits loopLabel).2 := by
    intro level deep present
    refine mem_deeperLevels.mpr ⟨deep,?_⟩
    rwa [takeOwn_level (by omega)]
  have both := And.intro (keys _ (by omega) here) (keys _ (by omega) above)
  have distinct := deeperLevels_nodup (takeOwn exits loopLabel).2
  have once : lower + 1 + 1 ∉ ((deeperLevels (takeOwn exits loopLabel).2).erase (lower + 1 + 1)).erase (lower + 1) := fun member =>
    (distinct.not_mem_erase) (List.mem_of_mem_erase member)
  simp only [KeyOrder.deeperFirst,if_pos both,List.foldl_cons] at expected
  rw [shift_keeps_none (by omega) ?_ once] at expected
  · rw [← expected] at above
    exact nomatch above
  · generalize shiftLevel (takeOwn exits loopLabel).2 (lower + 1 + 1) = moved
    cases found : moved.lookup (some (.levels (lower + 1))) with
    | none => rw [shiftLevel,found]; exact found
    | some state => rw [lookup_shiftLevel found,if_neg (by simp),if_pos rfl]

-- Only the levels that occur have to be compared.
theorem levelsApart_iff :
    LevelsApart exits ↔ ∀ levels ∈ deeperLevels exits, levels + 1 ∉ deeperLevels exits := by
  constructor
  · intro apart levels here above
    obtain ⟨deep,present⟩ := mem_deeperLevels.mp here
    have none := apart levels deep present
    have found := (mem_deeperLevels.mp above).2
    rw [none] at found
    exact nomatch found
  · intro apart levels deep present
    refine Option.not_isSome_iff_eq_none.mp fun above => ?_
    exact apart levels (mem_deeperLevels.mpr ⟨deep,present⟩) (mem_deeperLevels.mpr ⟨by omega,above⟩)

instance (exits : ControlExitStates) : Decidable (LevelsApart exits) := decidable_of_iff' _ levelsApart_iff

theorem takeLoopControlExit_retargets (exits : ControlExitStates) (loopLabel : Option Text) :
    (∀ order, Retargets exits loopLabel (takeLoopControlExit order exits loopLabel)) ↔ LevelsApart exits := by
  constructor
  · intro retargets levels deep here
    refine Option.not_isSome_iff_eq_none.mp fun above => ?_
    exact takeLoopControlExit_merges deep here above loopLabel (retargets _)
  · intro apart order
    exact takeLoopControlExit_apart apart order loopLabel

def Holds (state : WriterState) : Option (Text × FlowNode) → Prop
  | none => True
  | some definition => definition ∈ state

theorem holds_union {other : WriterState} :
    Holds (state ∪ other) definition ↔ Holds state definition ∨ Holds other definition := by
  cases definition with
  | none => exact iff_of_true trivial (.inl trivial)
  | some definition => exact Finset.mem_union

def Arrives (state : Option WriterState) (definition : Option (Text × FlowNode)) : Prop := ∃ found, state = some found ∧ Holds found definition

def Live (exits : ControlExitStates) (target : Option LoopControlTarget) (definition : Option (Text × FlowNode)) : Prop :=
  Arrives (exits.lookup target) definition

theorem holds_mergeState {state : Option WriterState} {other : WriterState} :
    Holds (mergeState state other) definition ↔ Arrives state definition ∨ Holds other definition := by
  cases state with
  | none =>
    rw [mergeState,Option.getD_none,Finset.empty_union]
    exact ⟨.inr,fun either => either.elim (fun arrives => (nomatch arrives.choose_spec.1)) id⟩
  | some state =>
    rw [mergeState,Option.getD_some,holds_union]
    refine or_congr_left ⟨fun holds => ⟨state,rfl,holds⟩,fun arrives => ?_⟩
    obtain ⟨found,same,holds⟩ := arrives
    cases same
    exact holds

theorem arrives_some :
    Arrives (some state) definition ↔ Holds state definition := by
  constructor
  · intro arrives
    obtain ⟨found,same,holds⟩ := arrives
    cases same
    exact holds
  · exact fun holds => ⟨state,rfl,holds⟩

theorem not_arrives_none : ¬Arrives none definition := fun arrives => nomatch arrives.choose_spec.1

theorem arrives_joinState {state other : Option WriterState} :
    Arrives (joinState state other) definition ↔ Arrives state definition ∨ Arrives other definition := by
  cases other with
  | none => exact ⟨.inl,fun either => either.elim id fun absurd => (not_arrives_none absurd).elim⟩
  | some other => exact arrives_some.trans (holds_mergeState.trans (or_congr_right arrives_some.symm))

theorem live_addControlExit {other : Option LoopControlTarget}
    : Live (addControlExit exits target state) other definition ↔
      Live exits other definition ∨ other = target ∧ Holds state definition := by
  unfold Live
  rw [lookup_addControlExit]
  split
  · next same =>
    rw [arrives_some,holds_mergeState,same]
    simp
  · next apart => simp [apart]

theorem live_mergeControlExits {incoming : ControlExitStates}
    :
    Live (mergeControlExits exits incoming) target definition ↔ Live exits target definition ∨ Live incoming target definition := by
  have folded : ∀ (entries : List (Sigma fun _ : Option LoopControlTarget => WriterState)) (exits : ControlExitStates),
      Live (entries.foldl (fun exits entry => addControlExit exits entry.1 entry.2) exits) target definition ↔
        Live exits target definition ∨ ∃ state, ⟨target,state⟩ ∈ entries ∧ Holds state definition := by
    intro entries
    induction entries with
    | nil => simp
    | cons entry entries ih =>
      intro exits
      rw [List.foldl_cons,ih,live_addControlExit,or_assoc]
      refine or_congr_right ?_
      constructor
      · intro either
        rcases either with ⟨same,holds⟩ | ⟨state,member,holds⟩
        · exact ⟨entry.2,by rw [same]; exact List.mem_cons_self ..,holds⟩
        · exact ⟨state,List.mem_cons_of_mem _ member,holds⟩
      · intro found
        obtain ⟨state,member,holds⟩ := found
        rcases List.mem_cons.mp member with same | later
        · rw [← same]
          exact .inl ⟨rfl,holds⟩
        · exact .inr ⟨state,later,holds⟩
  rw [mergeControlExits,folded]
  refine or_congr_right ?_
  constructor
  · intro found
    obtain ⟨state,member,holds⟩ := found
    exact ⟨state,AList.mem_lookup_iff.mpr member,holds⟩
  · intro arrives
    obtain ⟨state,found,holds⟩ := arrives
    exact ⟨state,AList.mem_lookup_iff.mp found,holds⟩

def outward (loopLabel : Option Text) : Option LoopControlTarget → Option (Option LoopControlTarget)
  | none => none
  | some (.label label) => if loopLabel = some label then none else some (some (.label label))
  | some (.levels 0) => some (some (.levels 0))
  | some (.levels 1) => none
  | some (.levels (levels + 2)) => some (some (.levels (levels + 1)))

theorem outward_none :
    outward loopLabel target = none ↔ target ∈ ownTargets loopLabel := by
  match target with
  | none => cases loopLabel <;> simp [outward,ownTargets]
  | some (.label label) => cases loopLabel <;> simp [outward,ownTargets,eq_comm]
  | some (.levels 0) => cases loopLabel <;> simp [outward,ownTargets]
  | some (.levels 1) => cases loopLabel <;> simp [outward,ownTargets]
  | some (.levels (levels + 2)) => cases loopLabel <;> simp [outward,ownTargets]

theorem outerState_outward
    : Arrives (outerState exits loopLabel target) definition ↔
      ∃ inner, outward loopLabel inner = some target ∧ Live exits inner definition := by
  constructor
  · intro arrives
    match target with
    | none => exact (not_arrives_none arrives).elim
    | some (.label label) =>
      rw [outerState] at arrives
      split at arrives
      · exact (not_arrives_none arrives).elim
      · next other => exact ⟨some (.label label),if_neg other,arrives⟩
    | some (.levels 0) => exact ⟨some (.levels 0),rfl,arrives⟩
    | some (.levels (levels + 1)) => exact ⟨some (.levels (levels + 2)),rfl,arrives⟩
  · intro found
    obtain ⟨inner,moved,live⟩ := found
    match inner with
    | none => exact nomatch moved
    | some (.label label) =>
      rw [outward] at moved
      split at moved
      · exact nomatch moved
      · next other =>
        cases moved
        rw [outerState,if_neg other]
        exact live
    | some (.levels 0) =>
      cases moved
      exact live
    | some (.levels 1) => exact nomatch moved
    | some (.levels (levels + 2)) =>
      cases moved
      exact live

theorem ownState_arrives :
    Arrives (ownState exits loopLabel) definition ↔ ∃ target ∈ ownTargets loopLabel, Live exits target definition := by
  cases loopLabel <;> simp [ownState,ownTargets,arrives_joinState,Live,not_arrives_none,or_assoc]

def selectedLoop (labels : List (Option Text)) : Option LoopControlTarget → Option Nat
  | none => if labels.isEmpty then none else some 0
  | some (.label label) => labels.findIdx? (· == some label)
  | some (.levels levels) => if levels = 0 ∨ labels.length < levels then none else some (levels - 1)

theorem selectedLoop_first {labels : List (Option Text)} :
    selectedLoop (loopLabel :: labels) target = some 0 ↔ target ∈ ownTargets loopLabel := by
  match target with
  | none => cases loopLabel <;> simp [selectedLoop,ownTargets]
  | some (.label label) =>
    rw [selectedLoop,List.findIdx?_cons]
    cases loopLabel with
    | none => simp [ownTargets]
    | some own =>
      by_cases same : own = label
      · simp [ownTargets,same]
      · simp [ownTargets,same,Ne.symm same]
  | some (.levels levels) =>
    rw [level_own,selectedLoop]
    split
    · next none => simp; simp at none; omega
    · next some => simp; simp at some; omega

theorem selectedLoop_later {labels : List (Option Text)} :
    selectedLoop (loopLabel :: labels) target = some (depth + 1) ↔
      ∃ outer, outward loopLabel target = some outer ∧ selectedLoop labels outer = some depth := by
  match target with
  | none => simp [selectedLoop,outward]
  | some (.label label) =>
    rw [selectedLoop,List.findIdx?_cons,outward]
    by_cases same : loopLabel = some label
    · simp [same]
    · simp [same,selectedLoop]
  | some (.levels 0) => simp [selectedLoop,outward]
  | some (.levels 1) => simp [selectedLoop,outward]
  | some (.levels (levels + 2)) => simp [selectedLoop,outward]

-- The loop selected here is the one that the flow graph's builder links the transfer to.
theorem selectTarget_eq (target : Option LoopControlTarget) (targets : List Cfg.LoopTargets) :
    Cfg.selectTarget target targets = (selectedLoop (targets.map Cfg.LoopTargets.label) target).bind (targets[·]?) := by
  match target with
  | none => cases targets <;> rfl
  | some (.label label) =>
    rw [Cfg.selectTarget,selectedLoop]
    induction targets with
    | nil => rfl
    | cons first targets ih =>
      rw [List.find?_cons,List.map_cons,List.findIdx?_cons]
      cases first.label == some label with
      | true => rfl
      | false => simpa [Option.bind_map,Function.comp_def] using ih
  | some (.levels levels) =>
    rw [Cfg.selectTarget,selectedLoop,List.length_map]
    by_cases zero : levels = 0
    · simp [zero]
    · by_cases beyond : targets.length < levels
      · simp [zero,beyond]
        omega
      · simp [zero,beyond]

-- Loops from the innermost outwards, each with what its phase adds to the exits of the loop inside it.
structure NestedLoop where
  label : Option Text
  exits : FlowExits

def leaveLoops (order : KeyOrder) : List NestedLoop → FlowExits → List PhaseRoute
  | [], _ => []
  | loop :: outer, inner =>
    let route := routeLoopPhaseExits order (loop.exits.merge inner) loop.label .none ∅ false
    route :: leaveLoops order outer route.escaped

def NestApart (order : KeyOrder) : List NestedLoop → FlowExits → Prop
  | [], _ => True
  | loop :: outer, inner =>
    LevelsApart (loop.exits.merge inner).breaks ∧ LevelsApart (loop.exits.merge inner).continues ∧
      NestApart order outer (routeLoopPhaseExits order (loop.exits.merge inner) loop.label .none ∅ false).escaped

inductive ControlKind where
  | break
  | continue

def FlowExits.control (exits : FlowExits) : ControlKind → ControlExitStates
  | .break => exits.breaks
  | .continue => exits.continues

theorem addThrows_control (exits : FlowExits) (throws : List ThrowExit) (kind : ControlKind) :
    (exits.addThrows throws).control kind = exits.control kind := by
  rw [FlowExits.addThrows]
  induction throws generalizing exits with
  | nil => rfl
  | cons thrown throws ih =>
    rw [List.foldl_cons,ih]
    cases kind <;> rfl

theorem addReturning_control (exits : FlowExits) (state : Option WriterState) (kind : ControlKind) :
    (exits.addReturning state).control kind = exits.control kind := by
  cases state <;> cases kind <;> rfl

theorem addFalling_control (exits : FlowExits) (state : Option WriterState) (kind : ControlKind) :
    (exits.addFalling state).control kind = exits.control kind := by
  cases state <;> cases kind <;> rfl

theorem merge_control (exits other : FlowExits) (kind : ControlKind) :
    (exits.merge other).control kind = mergeControlExits (exits.control kind) (other.control kind) := by
  rw [FlowExits.merge,addThrows_control]
  cases kind with
  | «break» =>
    change mergeControlExits (((exits.addFalling other.fallthrough).addReturning other.returns).control .break) _ = _
    rw [addReturning_control,addFalling_control]
    rfl
  | «continue» =>
    change mergeControlExits (((exits.addFalling other.fallthrough).addReturning other.returns).control .continue) _ = _
    rw [addReturning_control,addFalling_control]
    rfl

theorem route_escapes (order : KeyOrder) (exits escaped : FlowExits) (loopLabel : Option Text) (loopBreaks : WriterState)
    (hasLoopBreak : Bool) (kind : ControlKind) :
    (routeLoopPhaseExits order exits loopLabel escaped loopBreaks hasLoopBreak).escaped.control kind =
      mergeControlExits (escaped.control kind) (takeLoopControlExit order (exits.control kind) loopLabel).2 := by
  unfold routeLoopPhaseExits
  rw [addThrows_control,addReturning_control]
  cases kind <;> rfl

def consumedAt (order : KeyOrder) (kind : ControlKind) : List NestedLoop → FlowExits → Nat → Option WriterState
  | [], _, _ => none
  | loop :: _, inner, 0 => (takeLoopControlExit order ((loop.exits.merge inner).control kind) loop.label).1
  | loop :: outer, inner, depth + 1 =>
    consumedAt order kind outer (routeLoopPhaseExits order (loop.exits.merge inner) loop.label .none ∅ false).escaped depth

theorem live_empty : ¬Live ∅ target definition :=
  fun live => (not_arrives_none live)

theorem apart_control {exits : FlowExits} (breaks : LevelsApart exits.breaks) (continues : LevelsApart exits.continues)
    (kind : ControlKind) : LevelsApart (exits.control kind) := by
  cases kind with
  | «break» => exact breaks
  | «continue» => exact continues

theorem consumedAt_iff {inner : FlowExits} (apart : NestApart order loops inner)
    (kind : ControlKind) (depth : Nat) (definition : Option (Text × FlowNode)) :
    Arrives (consumedAt order kind loops inner depth) definition ↔
      (∃ target, Live (inner.control kind) target definition ∧
        selectedLoop (loops.map NestedLoop.label) target = some depth) ∨
      ∃ (index : Nat) (loop : NestedLoop) (target : Option LoopControlTarget), index ≤ depth ∧ loops[index]? = some loop ∧
        Live (loop.exits.control kind) target definition ∧
        selectedLoop ((loops.map NestedLoop.label).drop index) target = some (depth - index) := by
  induction loops generalizing inner depth with
  | nil =>
    refine iff_of_false not_arrives_none fun either => ?_
    rcases either with ⟨target,_,selected⟩ | ⟨_,_,_,_,none,_⟩
    · match target with
      | .none => exact nomatch selected
      | some (.label label) => exact nomatch selected
      | some (.levels levels) => simp [selectedLoop] at selected
    · exact nomatch none
  | cons loop outer ih =>
    obtain ⟨breaks,continues,rest⟩ := apart
    have taken := takeLoopControlExit_apart (apart_control breaks continues kind) order loop.label
    have phase : ∀ target, Live ((loop.exits.merge inner).control kind) target definition ↔
        Live (loop.exits.control kind) target definition ∨ Live (inner.control kind) target definition := by
      intro target
      rw [merge_control]
      exact live_mergeControlExits
    cases depth with
    | zero =>
      rw [consumedAt,taken.consumed,ownState_arrives]
      constructor
      · intro found
        obtain ⟨target,own,live⟩ := found
        have selected : selectedLoop (loop.label :: outer.map NestedLoop.label) target = some 0 := selectedLoop_first.mpr own
        rcases (phase target).mp live with here | inside
        · exact .inr ⟨0,loop,target,Nat.le_refl _,rfl,here,selected⟩
        · exact .inl ⟨target,inside,selected⟩
      · intro either
        rcases either with ⟨target,inside,selected⟩ | ⟨index,found,target,first,same,here,selected⟩
        · exact ⟨target,selectedLoop_first.mp selected,(phase target).mpr (.inr inside)⟩
        · obtain ⟨rfl⟩ := Nat.le_zero.mp first
          cases same
          exact ⟨target,selectedLoop_first.mp selected,(phase target).mpr (.inl here)⟩
    | succ depth =>
      have moved : ∀ outside, Live ((routeLoopPhaseExits order (loop.exits.merge inner) loop.label .none ∅ false).escaped.control kind)
          outside definition ↔ ∃ target, outward loop.label target = some outside ∧
            Live ((loop.exits.merge inner).control kind) target definition := by
        intro outside
        have blank : ¬Live (FlowExits.none.control kind) outside definition := by
          cases kind <;> exact live_empty
        rw [route_escapes,live_mergeControlExits,or_iff_right blank,Live,taken.escaped]
        exact outerState_outward
      rw [consumedAt,ih rest depth]
      constructor
      · intro either
        rcases either with ⟨outside,live,selected⟩ | ⟨index,found,target,near,same,live,selected⟩
        · obtain ⟨target,points,live⟩ := (moved outside).mp live
          have chosen := selectedLoop_later.mpr ⟨outside,points,selected⟩
          rcases (phase target).mp live with here | inside
          · exact .inr ⟨0,loop,target,Nat.zero_le _,rfl,here,chosen⟩
          · exact .inl ⟨target,inside,chosen⟩
        · refine .inr ⟨index + 1,found,target,Nat.succ_le_succ near,same,live,?_⟩
          rwa [Nat.succ_sub_succ]
      · intro either
        rcases either with ⟨target,inside,selected⟩ | ⟨index,found,target,near,same,live,selected⟩
        · obtain ⟨outside,points,chosen⟩ := selectedLoop_later.mp selected
          exact .inl ⟨outside,(moved outside).mpr ⟨target,points,(phase target).mpr (.inr inside)⟩,chosen⟩
        · cases index with
          | zero =>
            cases same
            obtain ⟨outside,points,chosen⟩ := selectedLoop_later.mp selected
            exact .inl ⟨outside,(moved outside).mpr ⟨target,points,(phase target).mpr (.inl live)⟩,chosen⟩
          | succ index =>
            rw [Nat.succ_sub_succ] at selected
            exact .inr ⟨index,found,target,Nat.le_of_succ_le_succ near,same,live,selected⟩

def PhaseRoute.broken (route : PhaseRoute) : Option WriterState := if route.hasLoopBreak then some route.loopBreaks else none

theorem route_broken (order : KeyOrder) (exits : FlowExits) (loopLabel : Option Text) (definition : Option (Text × FlowNode)) :
    Arrives (routeLoopPhaseExits order exits loopLabel .none ∅ false).broken definition ↔
      Arrives (takeLoopControlExit order exits.breaks loopLabel).1 definition := by
  have broken : (routeLoopPhaseExits order exits loopLabel .none ∅ false).broken =
      if (takeLoopControlExit order exits.breaks loopLabel).1.isSome then
        some ((takeLoopControlExit order exits.breaks loopLabel).1.elim ∅ (∅ ∪ ·)) else none := rfl
  rw [broken]
  cases (takeLoopControlExit order exits.breaks loopLabel).1 <;> simp

theorem route_next (order : KeyOrder) (exits : FlowExits) (loopLabel : Option Text) (definition : Option (Text × FlowNode)) :
    Arrives (routeLoopPhaseExits order exits loopLabel .none ∅ false).next definition ↔
      Arrives exits.fallthrough definition ∨ Arrives (takeLoopControlExit order exits.continues loopLabel).1 definition := by
  have moved : (routeLoopPhaseExits order exits loopLabel .none ∅ false).next =
      (takeLoopControlExit order exits.continues loopLabel).1.elim exits.fallthrough
        fun state => some (mergeState exits.fallthrough state) := rfl
  rw [moved]
  cases (takeLoopControlExit order exits.continues loopLabel).1 with
  | none => exact ⟨.inl,fun either => either.elim id fun absurd => (not_arrives_none absurd).elim⟩
  | some state => exact arrives_some.trans (holds_mergeState.trans (or_congr_right arrives_some.symm))

theorem addThrows_falls (throws : List ThrowExit) (exits : FlowExits) : (exits.addThrows throws).fallthrough = exits.fallthrough := by
  induction throws generalizing exits with
  | nil => rfl
  | cons thrown throws ih => exact ih _

-- An inner loop does not fall through before its after state is known.
theorem route_falls (order : KeyOrder) (exits : FlowExits) (loopLabel : Option Text) :
    (routeLoopPhaseExits order exits loopLabel .none ∅ false).escaped.fallthrough = none := by
  unfold routeLoopPhaseExits
  rw [addThrows_falls]
  cases exits.returns <;> rfl

theorem merge_falls (exits other : FlowExits) (still : other.fallthrough = none) :
    (exits.merge other).fallthrough = exits.fallthrough := by
  rw [FlowExits.merge,addThrows_falls,still]
  cases other.returns <;> rfl

def JoinsAt (kind : ControlKind) (loops : List NestedLoop) (depth : Nat) (definition : Option (Text × FlowNode)) : Prop :=
  ∃ (index : Nat) (loop : NestedLoop) (target : Option LoopControlTarget), index ≤ depth ∧ loops[index]? = some loop ∧
    Live (loop.exits.control kind) target definition ∧
    selectedLoop ((loops.map NestedLoop.label).drop index) target = some (depth - index)

theorem leaveLoops_route {inner : FlowExits} {route : PhaseRoute}
    (still : inner.fallthrough = none) (found : (leaveLoops order loops inner)[depth]? = some route)
    (definition : Option (Text × FlowNode)) :
    (Arrives route.broken definition ↔ Arrives (consumedAt order .break loops inner depth) definition) ∧
    (Arrives route.next definition ↔ (∃ loop, loops[depth]? = some loop ∧ Arrives loop.exits.fallthrough definition) ∨
      Arrives (consumedAt order .continue loops inner depth) definition) := by
  induction loops generalizing inner depth with
  | nil => exact nomatch found
  | cons loop outer ih =>
    cases depth with
    | zero =>
      cases found
      refine ⟨route_broken _ _ _ _,(route_next _ _ _ _).trans (or_congr_left ?_)⟩
      rw [merge_falls _ _ still]
      simp
    | succ depth => exact ih (route_falls order _ loop.label) found

theorem leaveLoops_joins (apart : NestApart order loops .none)
    {route : PhaseRoute} (found : (leaveLoops order loops .none)[depth]? = some route) (definition : Option (Text × FlowNode)) :
    (Arrives route.broken definition ↔ JoinsAt .break loops depth definition) ∧
    (Arrives route.next definition ↔ (∃ loop, loops[depth]? = some loop ∧ Arrives loop.exits.fallthrough definition) ∨
      JoinsAt .continue loops depth definition) := by
  obtain ⟨broken,continued⟩ := leaveLoops_route rfl found definition
  have outside : ∀ kind, ¬∃ target, Live (FlowExits.none.control kind) target definition ∧
      selectedLoop (loops.map NestedLoop.label) target = some depth := by
    intro kind some
    obtain ⟨target,live,_⟩ := some
    cases kind <;> exact live_empty live
  exact ⟨broken.trans ((consumedAt_iff apart .break depth definition).trans (or_iff_right (outside .break))),
    continued.trans (or_congr_right ((consumedAt_iff apart .continue depth definition).trans (or_iff_right (outside .continue))))⟩

theorem multi_level_exits (exits : ControlExitStates) (loopLabel : Option Text) (order : KeyOrder) (loops : List NestedLoop) :
    ((∀ order, Retargets exits loopLabel (takeLoopControlExit order exits loopLabel)) ↔ LevelsApart exits) ∧
    (NestApart order loops .none → ∀ depth route, (leaveLoops order loops .none)[depth]? = some route → ∀ definition,
      (Arrives route.broken definition ↔ JoinsAt .break loops depth definition) ∧
      (Arrives route.next definition ↔ (∃ loop, loops[depth]? = some loop ∧ Arrives loop.exits.fallthrough definition) ∨
        JoinsAt .continue loops depth definition)) ∧
    ∀ span target targets exit,
      Cfg.controlTransferTarget (.break span target) targets exit =
        (((selectedLoop (targets.map Cfg.LoopTargets.label) target).bind (targets[·]?)).elim (exit,0)
          fun loop => (loop.breakTo,loop.retainedFinallyDepth)) ∧
      Cfg.controlTransferTarget (.continue span target) targets exit =
        (((selectedLoop (targets.map Cfg.LoopTargets.label) target).bind (targets[·]?)).elim (exit,0)
          fun loop => (loop.continueTo,loop.retainedFinallyDepth)) := by
  refine ⟨takeLoopControlExit_retargets exits loopLabel,fun apart depth route found definition => leaveLoops_joins apart found definition,?_⟩
  intro span target targets exit
  rw [← selectTarget_eq]
  exact ⟨rfl,rfl⟩

def KeyOrder.given : KeyOrder := ⟨id,fun levels => List.Perm.refl levels⟩

def breakTwo : List NestedLoop :=
  [⟨none,FlowExits.none.addBreak (some (.levels 2)) {(['x'],.write ['x'] ⟨0,1,2⟩)}⟩,⟨none,.none⟩]

theorem break_two_joins_outer : ∀ route, (leaveLoops .given breakTwo .none)[1]? = some route → ∀ definition,
    (Arrives route.broken definition ↔ JoinsAt .break breakTwo 1 definition) ∧
    (Arrives route.next definition ↔ (∃ loop, breakTwo[1]? = some loop ∧ Arrives loop.exits.fallthrough definition) ∨
      JoinsAt .continue breakTwo 1 definition) := by
  refine (multi_level_exits ∅ none .given breakTwo).2.1 ?_ 1
  exact ⟨by decide,by decide,by decide,by decide,trivial⟩

def twoAndThree : ControlExitStates :=
  addControlExit (addControlExit ∅ (some (.levels 2)) {(['x'],.write ['x'] ⟨0,1,2⟩)}) (some (.levels 3)) {(['x'],.write ['x'] ⟨0,3,4⟩)}

theorem consecutive_levels_merge :
    ¬∀ (exits : ControlExitStates) (loopLabel : Option Text) (order : KeyOrder),
      Retargets exits loopLabel (takeLoopControlExit order exits loopLabel) := by
  intro retargets
  have here : (twoAndThree.lookup (some (.levels 2))).isSome := by decide
  exact takeLoopControlExit_merges (Nat.le_refl 2) here (by decide) none (retargets twoAndThree none _)

end BonsaiNinja.Idg
