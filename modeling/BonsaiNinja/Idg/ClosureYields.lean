import BonsaiNinja.Idg.ClosureSteps

namespace BonsaiNinja.Idg
open Library

namespace ClosureProgram
variable {program : ClosureProgram} {known more : Set ClosureAtom} {w w' : SymbolicClosureWorklist}
variable {boundary : ContextBoundaryKey}
variable {context : CallContext}
variable {fact : SymbolicNodeFact}
variable {func : FuncId}
variable {new : Set ClosureAtom → Set ClosureAtom}
variable {node : NodeId}
variable {transform : SymbolicFieldTransform}

-- An operation yields the conclusions `new` draws from what is known: all of them
-- are present afterwards, and nothing else is that the rules do not derive.
structure Emits (program : ClosureProgram) (new : Set ClosureAtom → Set ClosureAtom) (w w' : SymbolicClosureWorklist) :
    Prop where
  onward : Extends w w'
  kept : Kept program w'.atoms
  delivers : new w.atoms ⊆ w'.atoms
  sound : ∀ known, program.replayYields known ⊆ known → w.atoms ⊆ known → new known ⊆ known → w'.atoms ⊆ known

theorem Emits.congr {new' : Set ClosureAtom → Set ClosureAtom} (same : ∀ known, new known = new' known)
    (emits : Emits program new w w') : Emits program new' w w' where
  onward := emits.onward
  kept := emits.kept
  delivers := by rw [← same]; exact emits.delivers
  sound known closed start included := emits.sound known closed start (by rw [same]; exact included)

theorem emits_nothing (kept : Kept program w.atoms) (none : ∀ atom ∈ new w.atoms, atom ∈ w.atoms) :
    Emits program new w w where
  onward := .refl
  kept := kept
  delivers := none
  sound _ _ start _ := start

theorem Emits.trans {first second : Set ClosureAtom → Set ClosureAtom} {middle : SymbolicClosureWorklist}
    (mono : Monotone second) (left : Emits program first w middle) (right : Emits program second middle w') :
    Emits program (fun known => first known ∪ second known) w w' where
  onward := left.onward.trans right.onward
  kept := right.kept
  delivers := Set.union_subset (left.delivers.trans right.onward.atoms) ((mono left.onward.atoms).trans right.delivers)
  sound known closed start included :=
    right.sound known closed (left.sound known closed start (Set.subset_union_left.trans included))
      (Set.subset_union_right.trans included)

theorem emits_foldl {new : α → Set ClosureAtom → Set ClosureAtom} {step : SymbolicClosureWorklist → α → SymbolicClosureWorklist}
    (mono : ∀ x, Monotone (new x)) (each : ∀ w x, Kept program w.atoms → Emits program (new x) w (step w x))
    (rows : List α) (w : SymbolicClosureWorklist) (kept : Kept program w.atoms) :
    Emits program (fun known => {atom | ∃ x ∈ rows, atom ∈ new x known}) w (rows.foldl step w) := by
  induction rows generalizing w with
  | nil =>
    refine emits_nothing kept fun atom member => ?_
    obtain ⟨x,row,_⟩ := member
    cases row
  | cons x rest ih =>
    have first := each w x kept
    have later := ih (step w x) first.kept
    have monoRest : Monotone fun known => {atom | ∃ x ∈ rest, atom ∈ new x known} := by
      intro smaller larger included atom member
      obtain ⟨x,row,inside⟩ := member
      exact ⟨x,row,mono x included inside⟩
    refine (first.trans monoRest later).congr fun known => ?_
    ext atom
    simp only [Set.mem_union, Set.mem_ofPred_eq, List.mem_cons, exists_eq_or_imp]

theorem emits_exact {added : Set ClosureAtom} (onward : Extends w w')
    (kept : Kept program w'.atoms) (exact : w'.atoms = w.atoms ∪ added) (delivers : new w.atoms ⊆ w.atoms ∪ added)
    (sound : ∀ known, program.replayYields known ⊆ known → w.atoms ⊆ known → new known ⊆ known → added ⊆ known) :
    Emits program new w w' where
  onward := onward
  kept := kept
  delivers := by rw [exact]; exact delivers
  sound known closed start included := by
    rw [exact]
    exact Set.union_subset start (sound known closed start included)

theorem enqueueSource_kept (kept : Kept program w.atoms) {state : ClosureNodeState} :
    Kept program (program.enqueueSymbolicNodeSource w state).atoms := by
  rw [enqueueSource_atoms kept.introduced]
  exact kept.union plain_sourced.gate

theorem activateSummaryFunc_refused (refused : program.funcIsAllowed func = false) :
    program.activateSummaryFunc w func = (w,false) := by
  simp [activateSummaryFunc,refused]

theorem activateSummaryFunc_admitted (allowed : program.funcIsAllowed func = true) :
    (program.activateSummaryFunc w func).2 = true := by
  unfold activateSummaryFunc
  rw [allowed]
  simp only [Bool.not_true, Bool.false_eq_true, if_false]
  split <;> rfl

theorem activateSummaryFunc_atoms (allowed : program.funcIsAllowed func = true) :
    (program.activateSummaryFunc w func).1.atoms = w.atoms ∪ program.activation func := by
  unfold activateSummaryFunc
  rw [allowed]
  simp only [Bool.not_true, Bool.false_eq_true, if_false]
  split
  · next restricted =>
    have rooted : program.policy.summaryRoot ≠ none := Option.isSome_iff_ne_none.mp restricted
    ext atom
    cases atom <;>
      simp [SymbolicClosureWorklist.atoms,SymbolicClosureWorklist.Knows,activation,rooted]
  · next free =>
    have rootless : program.policy.summaryRoot = none := by simpa [summaryRestricted] using free
    ext atom
    simp [activation,rootless]

theorem activateSummaryFunc_extends : Extends w (program.activateSummaryFunc w func).1 := by
  cases allowed : program.funcIsAllowed func with
  | false => rw [activateSummaryFunc_refused allowed]; exact .refl
  | true =>
    refine extends_of_frontier ?_ ?_ ?_ ?_ ?_
    · rw [activateSummaryFunc_atoms allowed]
      exact Set.subset_union_left
    all_goals
      unfold activateSummaryFunc
      split
      · rfl
      · split <;> rfl

theorem isActive_activated (allowed : program.funcIsAllowed func = true) :
    program.IsActive (known ∪ program.activation func) func := by
  refine ⟨allowed,?_⟩
  by_cases rootless : program.policy.summaryRoot = none
  · exact .inl rootless
  · exact .inr (.inr ⟨rootless,rfl⟩)

theorem activation_subset (active : program.IsActive known func) : program.activation func ⊆ known := by
  rintro atom ⟨rooted,rfl⟩
  exact active.2.resolve_left rooted

theorem activateSummaryCall_cases (w : SymbolicClosureWorklist) (boundary : ContextBoundaryKey) :
    (program.MayEnter w.atoms boundary.caller boundary.callee ∧ (program.activateSummaryCall w boundary).2 = true ∧
        (program.activateSummaryCall w boundary).1.atoms = w.atoms ∪ program.activation boundary.callee) ∨
      (¬program.MayEnter w.atoms boundary.caller boundary.callee ∧ program.activateSummaryCall w boundary = (w,false)) := by
  unfold activateSummaryCall
  split
  · next refused =>
    refine .inr ⟨fun enter => ?_,rfl⟩
    rcases Bool.or_eq_true_iff.mp refused with inactive | unpermitted
    · simp [summaryFuncIsActive_iff.mpr enter.1] at inactive
    · simp [enter.2.1] at unpermitted
  · next passed =>
    simp only [Bool.or_eq_true, Bool.not_eq_true', not_or, Bool.not_eq_false] at passed
    have caller := summaryFuncIsActive_iff.mp passed.1
    cases allowed : program.funcIsAllowed boundary.callee with
    | false =>
      refine .inr ⟨fun enter => ?_,activateSummaryFunc_refused allowed⟩
      rw [enter.2.2] at allowed
      cases allowed
    | true => exact .inl ⟨⟨caller,passed.2,allowed⟩,activateSummaryFunc_admitted allowed,activateSummaryFunc_atoms allowed⟩

theorem activateSummaryCall_extends : Extends w (program.activateSummaryCall w boundary).1 := by
  unfold activateSummaryCall
  split
  · exact .refl
  · exact activateSummaryFunc_extends

theorem transition_monotone {source target : NodeId} :
    Monotone fun known => program.transitionYields known source target context :=
  fun _ _ included => transitionYields_within (activeWithin_mono included)

-- A transition enters an active function, activates the function it enters, or is
-- refused.
inductive TransitionCase (program : ClosureProgram) (w : SymbolicClosureWorklist) (source target : NodeId) : Prop
  | active (relevant : program.nodeIsRelevant target = true) (ownSource : program.unified.wsNodeFunc source = some sourceFunc)
      (ownTarget : program.unified.wsNodeFunc target = some targetFunc) (active : program.IsActive w.atoms targetFunc)
      (result : program.activateSummaryTransition w source target = (w,true))
  | activated (relevant : program.nodeIsRelevant target = true)
      (ownSource : program.unified.wsNodeFunc source = some sourceFunc)
      (ownTarget : program.unified.wsNodeFunc target = some targetFunc)
      (enter : program.MayEnter w.atoms sourceFunc targetFunc)
      (result : program.activateSummaryTransition w source target = program.activateSummaryFunc w targetFunc)
  | refused (idle : ∀ context, program.transitionYields w.atoms source target context = ∅)
      (result : program.activateSummaryTransition w source target = (w,false))

theorem activateSummaryTransition_cases (w : SymbolicClosureWorklist) (source target : NodeId) :
    TransitionCase program w source target := by
  cases relevant : program.nodeIsRelevant target with
  | false =>
    refine .refused (fun context => Set.eq_empty_of_forall_notMem fun atom member => ?_)
      (by simp [activateSummaryTransition,relevant])
    simp [member.1] at relevant
  | true =>
    cases ownSource : program.unified.wsNodeFunc source with
    | none =>
      refine .refused (fun context => Set.eq_empty_of_forall_notMem fun atom member => ?_)
        (by simp [activateSummaryTransition,relevant,ownSource])
      obtain ⟨_,func,func',own,_⟩ := member
      simp [ownSource] at own
    | some sourceFunc =>
      cases ownTarget : program.unified.wsNodeFunc target with
      | none =>
        refine .refused (fun context => Set.eq_empty_of_forall_notMem fun atom member => ?_)
          (by simp [activateSummaryTransition,relevant,ownTarget])
        obtain ⟨_,func,func',_,own,_⟩ := member
        simp [ownTarget] at own
      | some targetFunc =>
        by_cases active : program.IsActive w.atoms targetFunc
        · exact .active relevant ownSource ownTarget active (by
            simp [activateSummaryTransition,relevant,ownSource,ownTarget,summaryFuncIsActive_iff.mpr active])
        · have inactive : program.summaryFuncIsActive w targetFunc = false :=
            Bool.eq_false_iff.mpr fun found => active (summaryFuncIsActive_iff.mp found)
          by_cases enter : program.MayEnter w.atoms sourceFunc targetFunc
          · exact .activated relevant ownSource ownTarget enter (by
              simp [activateSummaryTransition,relevant,ownSource,ownTarget,inactive,summaryFuncIsActive_iff.mpr enter.1,
                enter.2.1])
          · refine .refused (fun context => Set.eq_empty_of_forall_notMem fun atom member => ?_) ?_
            · obtain ⟨_,func,func',own,own',⟨now,_⟩ | ⟨now,_⟩⟩ := member
              all_goals
                rw [ownSource] at own
                rw [ownTarget] at own'
                cases own
                cases own'
              · exact active now
              · exact enter now
            · simp only [activateSummaryTransition, relevant, Bool.not_true, Bool.false_eq_true, if_false, ownSource,
                ownTarget, inactive]
              split
              · rfl
              · next passed =>
                simp only [Bool.or_eq_true, Bool.not_eq_true', not_or, Bool.not_eq_false] at passed
                refine activateSummaryFunc_refused (Bool.eq_false_iff.mpr fun allowed => enter ?_)
                exact ⟨summaryFuncIsActive_iff.mp passed.1,passed.2,allowed⟩

theorem visitTransition_emits (kept : Kept program w.atoms) {source target : NodeId} :
    Emits program (fun known => program.transitionYields known source target context) w
      (program.visitTransition source context w target) := by
  unfold visitTransition
  cases activateSummaryTransition_cases w source target with
  | refused idle result =>
    rw [result]
    refine emits_nothing kept fun atom member => ?_
    rw [idle context] at member
    cases member
  | active relevant ownSource ownTarget active result =>
    rename_i sourceFunc targetFunc
    rw [result]
    refine emits_exact enqueueSource_extends (enqueueSource_kept kept) (enqueueSource_atoms kept.introduced _) ?_ ?_
    · rintro atom ⟨_,func,func',own,own',⟨_,member⟩ | ⟨_,activation | member⟩⟩
      · exact .inr ⟨⟨relevant,targetFunc,ownTarget,active⟩,member⟩
      · rw [ownTarget] at own'
        cases own'
        exact .inl (activation_subset active activation)
      · exact .inr ⟨⟨relevant,targetFunc,ownTarget,active⟩,member⟩
    · rintro known _ start included atom ⟨_,member⟩
      exact included ⟨relevant,sourceFunc,targetFunc,ownSource,ownTarget,.inl ⟨active.mono start,member⟩⟩
  | activated relevant ownSource ownTarget enter result =>
    rename_i sourceFunc targetFunc
    have allowed := enter.2.2
    have atoms := activateSummaryFunc_atoms allowed (w := w)
    have keptNext : Kept program (program.activateSummaryFunc w targetFunc).1.atoms := by
      rw [atoms]
      exact kept.union plain_activation
    have entered : program.NodeAllowed (program.activateSummaryFunc w targetFunc).1.atoms target := by
      rw [atoms]
      exact ⟨relevant,targetFunc,ownTarget,isActive_activated allowed⟩
    have exact : (program.enqueueSymbolicNodeSource (program.activateSummaryFunc w targetFunc).1 ⟨target,context⟩).atoms =
        w.atoms ∪ (program.activation targetFunc ∪ program.sourced ⟨target,context⟩) := by
      rw [enqueueSource_atoms keptNext.introduced]
      simp only [entered, true_and]
      rw [atoms, Set.union_assoc]
      rfl
    dsimp only
    rw [result, activateSummaryFunc_admitted allowed]
    refine emits_exact (activateSummaryFunc_extends.trans enqueueSource_extends) (enqueueSource_kept keptNext) exact ?_ ?_
    · rintro atom ⟨_,func,func',own,own',⟨_,member⟩ | ⟨_,member⟩⟩
      · exact .inr (.inr member)
      · rw [ownTarget] at own'
        cases own'
        exact .inr member
    · rintro known _ start included atom member
      exact included ⟨relevant,sourceFunc,targetFunc,ownSource,ownTarget,.inr ⟨enter.mono start,member⟩⟩

theorem call_monotone {call : ContextBoundaryEdge} :
    Monotone fun known => program.callYields known context call :=
  fun _ _ included => callYields_within (activeWithin_mono included)

theorem return_monotone {returned : ContextBoundaryEdge} :
    Monotone fun known => program.returnYields known context returned :=
  fun _ _ included => returnYields_within (activeWithin_mono included)

theorem replayed_subset (closed : program.replayYields known ⊆ known) (kept : Kept program w.atoms)
    (start : w.atoms ⊆ known)
    (caller : .caller boundary context ∈ known) :
    {atom | atom = .caller boundary context ∨
      (∃ node, .returnedNode boundary node ∈ w.atoms ∧ atom ∈ program.sourced ⟨node,context⟩) ∨
        ∃ identity, .returnedFact boundary identity ∈ w.atoms ∧ atom ∈ program.factState ⟨identity,context⟩} ⊆ known := by
  rintro atom (rfl | ⟨node,returned,member⟩ | ⟨identity,returned,member⟩)
  · exact caller
  · exact closed ⟨boundary,context,caller,.inl ⟨node,start returned,(kept.allowed boundary node returned).mono start,member⟩⟩
  · exact closed ⟨boundary,context,caller,.inr ⟨identity,start returned,member⟩⟩

section
variable (kept : Kept program w.atoms)
include kept

theorem registerContextCall_kept :
    Kept program (program.registerContextCall w context boundary).atoms := by
  rw [registerContextCall_atoms kept]
  exact kept_registered kept context boundary

def entered (program : ClosureProgram) (w : SymbolicClosureWorklist) (context : CallContext)
    (boundary : ContextBoundaryKey) : SymbolicClosureWorklist :=
  program.registerContextCall (program.activateSummaryCall w boundary).1 context boundary

theorem entered_emits (context : CallContext)
    (enter : program.MayEnter w.atoms boundary.caller boundary.callee) :
    Emits program (fun known => {atom | program.MayEnter known boundary.caller boundary.callee ∧
      (atom ∈ program.activation boundary.callee ∨ atom = .caller boundary context)}) w (entered program w context boundary) := by
  rcases activateSummaryCall_cases w boundary with ⟨_,_,atoms⟩ | ⟨refused,_⟩
  · have keptNext : Kept program (program.activateSummaryCall w boundary).1.atoms := by
      rw [atoms]
      exact kept.union plain_activation
    have exact := registerContextCall_atoms keptNext context boundary
    refine ⟨activateSummaryCall_extends.trans registerContextCall_extends,registerContextCall_kept keptNext,?_,?_⟩
    · rintro atom ⟨_,activation | rfl⟩
      · refine registerContextCall_extends.atoms ?_
        rw [atoms]
        exact .inr activation
      · unfold entered
        rw [exact]
        exact .inr (.inl rfl)
    · intro known closed start included
      have inside : (program.activateSummaryCall w boundary).1.atoms ⊆ known := by
        rw [atoms]
        exact Set.union_subset start fun atom member => included ⟨enter.mono start,.inl member⟩
      unfold entered
      rw [exact]
      exact Set.union_subset inside (replayed_subset closed keptNext inside (included ⟨enter.mono start,.inr rfl⟩))
  · exact absurd enter refused

theorem isActive_entered
    (enter : program.MayEnter w.atoms boundary.caller boundary.callee) :
    program.IsActive (entered program w context boundary).atoms boundary.callee := by
  refine ⟨enter.2.2,?_⟩
  by_cases rootless : program.policy.summaryRoot = none
  · exact .inl rootless
  · exact .inr ((entered_emits kept context enter).delivers ⟨enter,.inl ⟨rootless,rfl⟩⟩)

theorem visitCall_emits {call : ContextBoundaryEdge} :
    Emits program (fun known => program.callYields known context call) w (program.visitCall context w call) := by
  unfold visitCall
  split
  · next irrelevant =>
    refine emits_nothing kept fun atom member => ?_
    simp [member.1] at irrelevant
  · next passed =>
    have relevant : program.nodeIsRelevant call.target = true := by simpa using passed
    dsimp only
    rcases activateSummaryCall_cases w call.key with ⟨enter,passes,_⟩ | ⟨refused,result⟩
    · rw [if_pos passes]
      have first := entered_emits kept context enter
      have target := enqueueSource_atoms first.kept.introduced ⟨call.target,some call.key⟩
      refine ⟨first.onward.trans enqueueSource_extends,enqueueSource_kept first.kept,?_,?_⟩
      · rintro atom ⟨_,_,activation | caller | ⟨guard,member⟩⟩
        · exact enqueueSource_extends.atoms (first.delivers ⟨enter,.inl activation⟩)
        · exact enqueueSource_extends.atoms (first.delivers ⟨enter,.inr caller⟩)
        · change atom ∈ (program.enqueueSymbolicNodeSource (entered program w context call.key) ⟨call.target,some call.key⟩).atoms
          rw [target]
          refine .inr ⟨?_,member⟩
          rcases guard with allowed | callee
          · exact allowed.mono first.onward.atoms
          · exact ⟨relevant,_,callee,isActive_entered kept enter⟩
      · intro known closed start included
        have inside := first.sound known closed start fun atom member =>
          included ⟨relevant,member.1,member.2.imp id .inl⟩
        change (program.enqueueSymbolicNodeSource (entered program w context call.key) ⟨call.target,some call.key⟩).atoms ⊆ known
        rw [target]
        refine Set.union_subset inside fun atom member => included ⟨relevant,enter.mono start,.inr (.inr ⟨.inl ?_,member.2⟩)⟩
        exact member.1.mono inside
    · rw [result]
      refine emits_nothing kept fun atom member => ?_
      exact absurd member.2.1 refused

theorem completeNodeReturn_emits (boundary : ContextBoundaryKey)
    (allowed : program.NodeAllowed w.atoms node) : Emits program (fun _ => {atom | atom = .returnedNode boundary node}) w
      (program.completeNodeReturn w boundary node) := by
  refine emits_exact completeNodeReturn_extends ?_ (completeNodeReturn_atoms kept boundary allowed) ?_ ?_
  · rw [completeNodeReturn_atoms kept boundary allowed]
    exact kept_nodeReturned kept allowed
  · rintro atom rfl
    exact .inr (.inl rfl)
  · rintro known closed start included atom (rfl | ⟨context,caller,member⟩)
    · exact included rfl
    · exact closed ⟨boundary,context,start caller,.inl ⟨node,included rfl,allowed.mono start,member⟩⟩

theorem completeFactReturn_emits
    {identity : SymbolicFactIdentity} : Emits program (fun _ => {atom | atom = .returnedFact boundary identity}) w
      (program.completeFactReturn w boundary identity) := by
  refine emits_exact completeFactReturn_extends ?_ (completeFactReturn_atoms kept) ?_ ?_
  · rw [completeFactReturn_atoms kept]
    exact kept_factReturned kept
  · rintro atom rfl
    exact .inr (.inl rfl)
  · rintro known closed start included atom (rfl | ⟨context,caller,member⟩)
    · exact included rfl
    · exact closed ⟨boundary,context,start caller,.inr ⟨identity,included rfl,member⟩⟩

theorem enqueueSource_emits (state : ClosureNodeState) :
    Emits program (fun known => {atom | program.NodeAllowed known state.node ∧ atom ∈ program.sourced state}) w
      (program.enqueueSymbolicNodeSource w state) :=
  emits_exact enqueueSource_extends (enqueueSource_kept kept) (enqueueSource_atoms kept.introduced state) Set.subset_union_right
    fun _ _ start included _ member => included ⟨member.1.mono start,member.2⟩

theorem enqueueFactState_emits :
    Emits program (fun _ => program.factState fact) w (program.enqueueFactState w fact) :=
  emits_exact enqueueFactState_extends (by rw [enqueueFactState_atoms]; exact kept.union plain_factState)
    enqueueFactState_atoms Set.subset_union_right fun _ _ _ included => included

theorem visitReturn_emits {returned : ContextBoundaryEdge} :
    Emits program (fun known => program.returnYields known context returned) w (program.visitReturn context w returned) := by
  unfold visitReturn
  split
  · next refused =>
    refine emits_nothing kept fun atom member => ?_
    simp [symbolicNodeAllowed_iff.mpr member.1] at refused
  · next passed =>
    have allowed : program.NodeAllowed w.atoms returned.target := symbolicNodeAllowed_iff.mp (by simpa using passed)
    split
    · next matched =>
      have complete := completeNodeReturn_emits kept returned.key allowed
      refine ⟨complete.onward,complete.kept,?_,fun known closed start included => ?_⟩
      · rintro atom ⟨_,⟨_,rfl⟩ | ⟨empty,_⟩⟩
        · exact complete.delivers rfl
        · rw [empty] at matched
          cases matched
      · refine complete.sound known closed start fun atom same => included ⟨allowed.mono start,.inl ⟨matched,same⟩⟩
    · next unmatched =>
      split
      · next seeded =>
        simp only [Bool.and_eq_true, Option.isNone_iff_eq_none] at seeded
        have source := enqueueSource_emits kept ⟨returned.target,none⟩
        refine ⟨source.onward,source.kept,?_,fun known closed start included => ?_⟩
        · rintro atom ⟨_,⟨matched,_⟩ | ⟨_,_,member⟩⟩
          · exact absurd matched unmatched
          · exact source.delivers ⟨allowed,member⟩
        · exact source.sound known closed start fun atom member => included ⟨member.1,.inr ⟨seeded.2,seeded.1,member.2⟩⟩
      · next idle =>
        refine emits_nothing kept fun atom member => ?_
        rcases member.2 with ⟨matched,_⟩ | ⟨empty,seeded,_⟩
        · exact absurd matched unmatched
        · simp [empty,seeded] at idle

end

theorem rows_monotone {rows : List α} {new : α → Set ClosureAtom → Set ClosureAtom} (mono : ∀ x, Monotone (new x)) :
    Monotone fun known => {atom | ∃ x ∈ rows, atom ∈ new x known} := by
  intro smaller larger included atom member
  obtain ⟨x,row,inside⟩ := member
  exact ⟨x,row,mono x included inside⟩

section
variable (kept : Kept program w.atoms)
include kept

theorem visitTransitions_emits (source : NodeId) (context : CallContext)
    (targets : List NodeId) : Emits program
      (fun known => {atom | ∃ target ∈ targets, atom ∈ program.transitionYields known source target context}) w
      (targets.foldl (program.visitTransition source context) w) := by
  apply emits_foldl
  · exact fun target => transition_monotone
  · exact fun w target kept => visitTransition_emits kept
  · exact kept

theorem visitCalls_emits (context : CallContext) (calls : List ContextBoundaryEdge) :
    Emits program (fun known => {atom | ∃ call ∈ calls, atom ∈ program.callYields known context call}) w
      (calls.foldl (program.visitCall context) w) := by
  apply emits_foldl
  · exact fun call => call_monotone
  · exact fun w call kept => visitCall_emits kept
  · exact kept

theorem visitReturns_emits (context : CallContext) (returns : List ContextBoundaryEdge) :
    Emits program (fun known => {atom | ∃ returned ∈ returns, atom ∈ program.returnYields known context returned}) w
      (returns.foldl (program.visitReturn context) w) := by
  apply emits_foldl
  · exact fun returned => return_monotone
  · exact fun w returned kept => visitReturn_emits kept
  · exact kept

theorem propagateNode_emits (state : ClosureNodeState) :
    Emits program (fun known => program.nodeYields known state) w (program.propagateSymbolicClosureNode w state) := by
  unfold propagateSymbolicClosureNode
  have ordinary := visitTransitions_emits kept state.node state.context (program.reach.get state.node)
  split
  · next plain =>
    refine ordinary.congr fun known => ?_
    ext atom
    simp [nodeYields,plain]
  · next contextual policy =>
    have heap := visitTransitions_emits ordinary.kept state.node none (contextual.heapByFrom.get state.node)
    have calls := visitCalls_emits heap.kept state.context (contextual.callsByFrom.get state.node)
    have returns := visitReturns_emits calls.kept state.context (contextual.returnsByFrom.get state.node)
    have all := ((ordinary.trans (rows_monotone fun _ => transition_monotone) heap).trans
      (rows_monotone fun _ => call_monotone) calls).trans (rows_monotone fun _ => return_monotone) returns
    refine all.congr fun known => ?_
    ext atom
    simp only [nodeYields, policy, Set.mem_union, Set.mem_ofPred_eq, Option.some.injEq, exists_eq_left', or_assoc]

theorem visitRebase_emits {rebase : SymbolicBaseRebase} :
    Emits program (fun _ => program.rebaseYields fact rebase) w (program.visitRebase fact w rebase) := by
  unfold visitRebase
  split
  · next missing =>
    refine emits_nothing kept fun atom member => ?_
    obtain ⟨field,found,_⟩ := member
    rw [missing] at found
    cases found
  · next field found =>
    refine (enqueueFactState_emits kept).congr fun known => ?_
    ext atom
    simp [rebaseYields,found]

theorem visitConsumer_emits :
    Emits program (fun known => program.consumerYields known fact node) w (program.visitConsumer fact w node) := by
  unfold visitConsumer
  split
  · next passed =>
    have allowed := symbolicNodeAllowed_iff.mp passed
    refine emits_exact enqueueNode_extends ?_ enqueueNode_atoms ?_ ?_
    · rw [enqueueNode_atoms]
      exact kept.union plain_reached
    · exact fun atom member => .inr ⟨allowed.inside,member.2⟩
    · exact fun known _ start included atom member => included ⟨allowed.mono start,member.2⟩
  · next refused =>
    refine emits_nothing kept fun atom member => ?_
    exact absurd (symbolicNodeAllowed_iff.mpr member.1) refused

end

theorem boundary_enters {key : ContextBoundaryKey}
    (boundary : symbolicTransformBoundary program.symbolic transform = some (key,true)) :
    transform.kind = .argument ∧ ∃ base, program.symbolic.bases[transform.target]? = some base ∧ base.func = key.callee := by
  simp only [symbolicTransformBoundary, Option.bind_eq_bind, Option.bind_eq_some_iff] at boundary
  obtain ⟨source,_,target,found,inside⟩ := boundary
  split at inside
  · cases inside
  · split at inside
    · next kind =>
      cases inside
      exact ⟨kind,target,found,rfl⟩
    all_goals cases inside

inductive CrossCase (program : ClosureProgram) (w : SymbolicClosureWorklist) (transform : SymbolicFieldTransform)
    (context : CallContext) : Prop
  | stays (delivers : program.Delivers w.atoms transform context contexts)
      (unique : ∀ other, program.Delivers w.atoms transform context other → other = contexts)
      (inside : ∀ key, program.policy.contextual ≠ none → symbolicTransformBoundary program.symbolic transform ≠ some (key,true))
      (result : program.symbolicTransformContexts w transform context = (w,some contexts))
  | enters (contextual : program.policy.contextual ≠ none)
      (boundary : symbolicTransformBoundary program.symbolic transform = some (key,true))
      (enter : program.MayEnter w.atoms key.caller key.callee)
      (result : program.symbolicTransformContexts w transform context =
        (entered program w context key,some (.next (some key))))
  | refused (idle : ∀ contexts, ¬program.Delivers w.atoms transform context contexts)
      (silent : program.entryYields w.atoms transform context = ∅)
      (result : program.symbolicTransformContexts w transform context = (w,none))

theorem symbolicTransformContexts_cases (w : SymbolicClosureWorklist) (transform : SymbolicFieldTransform)
    (context : CallContext) : CrossCase program w transform context := by
  cases policy : program.policy.contextual with
  | none =>
    refine .stays (.ordinary (.inl policy)) (fun other delivers => ?_) (fun key contextual => absurd policy contextual)
      (by simp [symbolicTransformContexts,policy])
    cases delivers with
    | ordinary => rfl
    | enters contextual | matched contextual | seedCaller contextual => exact absurd policy contextual
  | some contextual =>
    have present : program.policy.contextual ≠ none := by simp [policy]
    cases crossing : symbolicTransformBoundary program.symbolic transform with
    | none =>
      refine .stays (.ordinary (.inr crossing)) (fun other delivers => ?_) (fun key _ => by simp [crossing])
        (by simp [symbolicTransformContexts,policy,crossing])
      cases delivers with
      | ordinary => rfl
      | enters _ boundary | matched _ boundary | seedCaller _ boundary => rw [crossing] at boundary; cases boundary
    | some crossed =>
      obtain ⟨key,enters⟩ := crossed
      have outside : ¬(program.policy.contextual = none ∨ symbolicTransformBoundary program.symbolic transform = none) := by
        simp [policy,crossing]
      cases enters with
      | true =>
        rcases activateSummaryCall_cases w key with ⟨enter,passes,_⟩ | ⟨refused,result⟩
        · exact .enters present crossing enter (by simp [symbolicTransformContexts,policy,crossing,passes,entered])
        · refine .refused (fun contexts delivers => ?_) (Set.eq_empty_of_forall_notMem fun atom member => ?_)
            (by simp [symbolicTransformContexts,policy,crossing,result])
          · cases delivers with
            | ordinary ordinary => exact outside ordinary
            | enters _ boundary enter =>
              rw [crossing] at boundary
              cases boundary
              exact refused enter
            | matched _ boundary | seedCaller _ boundary => rw [crossing] at boundary; cases boundary
          · obtain ⟨_,key',boundary,enter,_⟩ := member
            rw [crossing] at boundary
            cases boundary
            exact refused enter
      | false =>
        have inside : ∀ key', program.policy.contextual ≠ none →
            symbolicTransformBoundary program.symbolic transform ≠ some (key',true) := fun key' _ => by simp [crossing]
        by_cases matched : context = some key
        · refine .stays (.matched present crossing matched) (fun other delivers => ?_) inside
            (by simp [symbolicTransformContexts,policy,crossing,matched])
          cases delivers with
          | ordinary ordinary => exact absurd ordinary outside
          | enters _ boundary => rw [crossing] at boundary; cases boundary
          | matched _ boundary _ => rw [crossing] at boundary; cases boundary; rfl
          | seedCaller _ _ _ empty => rw [empty] at matched; cases matched
        · by_cases seeded : program.policy.activateSeedCallers = true ∧ context = none
          · refine .stays (.seedCaller present crossing seeded.1 seeded.2) (fun other delivers => ?_) inside
              (by simp [symbolicTransformContexts,policy,crossing,seeded])
            cases delivers with
            | ordinary ordinary => exact absurd ordinary outside
            | enters _ boundary => rw [crossing] at boundary; cases boundary
            | matched _ boundary same => rw [crossing] at boundary; cases boundary; exact absurd same matched
            | seedCaller => rfl
          · refine .refused (fun contexts delivers => ?_) (Set.eq_empty_of_forall_notMem fun atom member => ?_) ?_
            · cases delivers with
              | ordinary ordinary => exact outside ordinary
              | enters _ boundary => rw [crossing] at boundary; cases boundary
              | matched _ boundary same => rw [crossing] at boundary; cases boundary; exact matched same
              | seedCaller _ _ active empty => exact seeded ⟨active,empty⟩
            · obtain ⟨_,key',boundary,_⟩ := member
              rw [crossing] at boundary
              cases boundary
            · have idle : (program.policy.activateSeedCallers && context.isNone) = false := by
                rw [Bool.eq_false_iff, Ne, Bool.and_eq_true, Option.isNone_iff_eq_none]
                exact seeded
              simp [symbolicTransformContexts,policy,crossing,matched,idle]

theorem deliverNode_emits (kept : Kept program w.atoms) {contexts : TransformContexts} :
    Emits program (fun known => {atom | program.NodeAllowed known node ∧ atom ∈ program.nodeDelivery node contexts}) w
      (program.deliverNode contexts w node) := by
  unfold deliverNode
  split
  · next refused =>
    refine emits_nothing kept fun atom member => ?_
    simp [symbolicNodeAllowed_iff.mpr member.1] at refused
  · next passed =>
    have allowed : program.NodeAllowed w.atoms node := symbolicNodeAllowed_iff.mp (by simpa using passed)
    cases contexts with
    | next context => exact enqueueSource_emits kept ⟨node,context⟩
    | completed boundary =>
      have complete := completeNodeReturn_emits kept boundary allowed
      refine ⟨complete.onward,complete.kept,fun atom member => complete.delivers member.2,?_⟩
      exact fun known closed start included =>
        complete.sound known closed start fun atom member => included ⟨allowed.mono start,member⟩

theorem delivery_monotone {contexts : TransformContexts} :
    Monotone fun known => {atom | program.NodeAllowed known node ∧ atom ∈ program.nodeDelivery node contexts} :=
  fun _ _ included _ member => ⟨member.1.mono included,member.2⟩

section
variable (kept : Kept program w.atoms)
include kept

theorem propagateScalar_emits (transform : SymbolicFieldTransform)
    (identity : SymbolicFactIdentity) (contexts : TransformContexts) :
    Emits program (fun known => {atom | program.scalarMatches transform identity.field = true ∧
      ∃ node ∈ program.runtime.scalarWrites.get (transform.target,transform.writeSpan),
        program.NodeAllowed known node ∧ atom ∈ program.nodeDelivery node contexts}) w
      (program.propagateScalarSymbolicReturn w transform identity contexts) := by
  unfold propagateScalarSymbolicReturn
  split
  · next exact =>
    have delivered : Emits program (fun known => {atom |
        ∃ node ∈ program.runtime.scalarWrites.get (transform.target,transform.writeSpan),
          atom ∈ {atom | program.NodeAllowed known node ∧ atom ∈ program.nodeDelivery node contexts}}) w
        ((program.runtime.scalarWrites.get (transform.target,transform.writeSpan)).foldl (program.deliverNode contexts) w) := by
      apply emits_foldl
      · exact fun node => delivery_monotone
      · exact fun w node kept => deliverNode_emits kept
      · exact kept
    refine delivered.congr fun known => ?_
    ext atom
    simp [exact]
  · next differs =>
    refine emits_nothing kept fun atom member => ?_
    exact absurd member.1 differs

theorem deliverFact_emits (identity : SymbolicFactIdentity) (contexts : TransformContexts) :
    Emits program (fun _ => program.factDelivery identity contexts) w (program.deliverFact w identity contexts) := by
  cases contexts with
  | next context => exact enqueueFactState_emits kept
  | completed boundary => exact completeFactReturn_emits kept

-- Staying in the fact's context, a transform only needs its target active.
theorem visitStaying_emits
    (ordered : program.writtenAfter transform fact.identity = false)
    (relevant : transform.kind ≠ .scalarReturn → program.factIsRelevant transform.target fact.identity.field = true)
    {contexts : TransformContexts} (delivers : program.Delivers w.atoms transform fact.context contexts)
    (inside : ∀ key, program.policy.contextual ≠ none → symbolicTransformBoundary program.symbolic transform ≠ some (key,true))
    (unique : ∀ other, program.Delivers w.atoms transform fact.context other → other = contexts) :
    Emits program (fun known => program.transformYields known fact transform) w
      (if transform.kind = .scalarReturn then program.propagateScalarSymbolicReturn w transform fact.identity contexts
      else if program.targetBaseActive w transform then
        program.deliverFact w (program.transformedIdentity transform fact.identity.field) contexts
      else w) := by
  have silent : ∀ known atom, atom ∉ program.entryYields known transform fact.context := fun known atom member => by
    obtain ⟨contextual,key,boundary,_⟩ := member
    exact inside key contextual boundary
  split
  · next scalar =>
    have emits := propagateScalar_emits kept transform fact.identity contexts
    refine ⟨emits.onward,emits.kept,?_,fun known closed start included => ?_⟩
    · rintro atom ⟨_,_,entry | ⟨other,reaches,⟨_,exact,member⟩ | ⟨plain,_⟩⟩⟩
      · exact absurd entry (silent _ atom)
      · cases unique other reaches
        exact emits.delivers ⟨exact,member⟩
      · exact absurd scalar plain
    · exact emits.sound known closed start fun atom member =>
        included ⟨ordered,relevant,.inr ⟨contexts,delivers.mono start,.inl ⟨scalar,member⟩⟩⟩
  · next plain =>
    split
    · next active =>
      have target : program.TargetActive w.atoms transform := by
        obtain ⟨base,found,now⟩ := targetBaseActive_iff.mp active
        exact ⟨base,found,.inl now⟩
      have emits := deliverFact_emits kept (program.transformedIdentity transform fact.identity.field) contexts
      refine ⟨emits.onward,emits.kept,?_,fun known closed start included => ?_⟩
      · rintro atom ⟨_,_,entry | ⟨other,reaches,⟨scalar,_⟩ | ⟨_,_,member⟩⟩⟩
        · exact absurd entry (silent _ atom)
        · exact absurd scalar plain
        · cases unique other reaches
          exact emits.delivers member
      · exact emits.sound known closed start fun atom member =>
          included ⟨ordered,relevant,.inr ⟨contexts,delivers.mono start,.inr ⟨plain,target.mono start,member⟩⟩⟩
    · next inactive =>
      refine emits_nothing kept fun atom member => ?_
      obtain ⟨_,_,entry | ⟨other,reaches,⟨scalar,_⟩ | ⟨_,target,_⟩⟩⟩ := member
      · exact absurd entry (silent _ atom)
      · exact absurd scalar plain
      · obtain ⟨base,found,now | ⟨contextual,key,boundary,_⟩⟩ := target
        · exact absurd (targetBaseActive_iff.mpr ⟨base,found,now⟩) inactive
        · exact absurd boundary (inside key contextual)

-- Entering a callee makes its target active, so the fact always arrives.
theorem visitEntering_emits
    (ordered : program.writtenAfter transform fact.identity = false)
    (relevant : transform.kind ≠ .scalarReturn → program.factIsRelevant transform.target fact.identity.field = true)
    (contextual : program.policy.contextual ≠ none) {key : ContextBoundaryKey}
    (boundary : symbolicTransformBoundary program.symbolic transform = some (key,true))
    (enter : program.MayEnter w.atoms key.caller key.callee) :
    Emits program (fun known => program.transformYields known fact transform) w
      (program.deliverFact (entered program w fact.context key)
        (program.transformedIdentity transform fact.identity.field) (.next (some key))) := by
  have first := entered_emits kept fact.context enter
  obtain ⟨kind,base,found,owner⟩ := boundary_enters boundary
  have plain : transform.kind ≠ .scalarReturn := by simp [kind]
  have emits := deliverFact_emits first.kept (program.transformedIdentity transform fact.identity.field) (.next (some key))
  have target : program.TargetActive w.atoms transform := ⟨base,found,.inr ⟨contextual,key,boundary,enter⟩⟩
  refine ⟨first.onward.trans emits.onward,emits.kept,?_,fun known closed start included => ?_⟩
  · rintro atom ⟨_,_,⟨_,key',boundary',_,member⟩ | ⟨other,reaches,⟨scalar,_⟩ | ⟨_,_,member⟩⟩⟩
    · rw [boundary] at boundary'
      cases boundary'
      exact emits.onward.atoms (first.delivers ⟨enter,member⟩)
    · exact absurd scalar plain
    · have same : other = .next (some key) := by
        cases reaches with
        | ordinary ordinary =>
          rcases ordinary with absent | absent
          · exact absurd absent contextual
          · rw [boundary] at absent
            cases absent
        | enters _ boundary' =>
          rw [boundary] at boundary'
          cases boundary'
          rfl
        | matched _ boundary' | seedCaller _ boundary' => rw [boundary] at boundary'; cases boundary'
      cases same
      exact emits.delivers member
  · have inside := first.sound known closed start fun atom member =>
      included ⟨ordered,relevant,.inl ⟨contextual,key,boundary,member⟩⟩
    refine emits.sound known closed inside fun atom member => included ⟨ordered,relevant,.inr ⟨.next (some key),?_,?_⟩⟩
    · exact .enters contextual boundary (enter.mono start)
    · exact .inr ⟨plain,target.mono start,member⟩

theorem visitTransform_emits :
    Emits program (fun known => program.transformYields known fact transform) w (program.visitTransform fact w transform) := by
  unfold visitTransform
  split
  · next late =>
    refine emits_nothing kept fun atom member => ?_
    rw [member.1] at late
    cases late
  · next timely =>
    have ordered : program.writtenAfter transform fact.identity = false := Bool.eq_false_iff.mpr timely
    split
    · next irrelevant =>
      refine emits_nothing kept fun atom member => ?_
      simp [member.2.1 irrelevant.1] at irrelevant
    · next passed =>
      have relevant : transform.kind ≠ .scalarReturn → program.factIsRelevant transform.target fact.identity.field = true := by
        intro plain
        by_contra irrelevant
        exact passed ⟨plain,by simp [irrelevant]⟩
      dsimp only
      cases symbolicTransformContexts_cases w transform fact.context with
      | stays delivers unique inside result =>
        rw [result]
        exact visitStaying_emits kept ordered relevant delivers inside unique
      | enters contextual boundary enter result =>
        obtain ⟨kind,base,found,owner⟩ := boundary_enters boundary
        have active : program.targetBaseActive (entered program w fact.context _) transform = true :=
          targetBaseActive_iff.mpr ⟨base,found,owner ▸ isActive_entered kept enter⟩
        rw [result]
        simp only [kind, reduceCtorEq, if_false, active, if_true]
        exact visitEntering_emits kept ordered relevant contextual boundary enter
      | refused idle silent result =>
        rw [result]
        refine emits_nothing kept fun atom member => ?_
        obtain ⟨_,_,entry | ⟨other,reaches,_⟩⟩ := member
        · rw [silent] at entry
          cases entry
        · exact absurd reaches (idle other)

end

theorem consumer_monotone :
    Monotone fun known => program.consumerYields known fact node := fun _ _ included => consumerYields_within (activeWithin_mono included)

theorem transform_monotone :
    Monotone fun known => program.transformYields known fact transform := fun _ _ included => transformYields_within (activeWithin_mono included)

section
variable (kept : Kept program w.atoms)
include kept

theorem visitRebases_emits (fact : SymbolicNodeFact) (rebases : List SymbolicBaseRebase) :
    Emits program (fun _ => {atom | ∃ rebase ∈ rebases, atom ∈ program.rebaseYields fact rebase}) w
      (rebases.foldl (program.visitRebase fact) w) := by
  apply emits_foldl
  · exact fun rebase => monotone_const
  · exact fun w rebase kept => visitRebase_emits kept
  · exact kept

theorem visitConsumers_emits (fact : SymbolicNodeFact) (nodes : List NodeId) :
    Emits program (fun known => {atom | ∃ node ∈ nodes, atom ∈ program.consumerYields known fact node}) w
      (nodes.foldl (program.visitConsumer fact) w) := by
  apply emits_foldl
  · exact fun node => consumer_monotone
  · exact fun w node kept => visitConsumer_emits kept
  · exact kept

theorem visitTransforms_emits (fact : SymbolicNodeFact) (transforms : List SymbolicFieldTransform) :
    Emits program (fun known => {atom | ∃ transform ∈ transforms, atom ∈ program.transformYields known fact transform}) w
      (transforms.foldl (program.visitTransform fact) w) := by
  apply emits_foldl
  · exact fun transform => transform_monotone
  · exact fun w transform kept => visitTransform_emits kept
  · exact kept

theorem propagateFact_emits (fact : SymbolicNodeFact) :
    Emits program (fun known => program.factYields known fact) w (program.propagateSymbolicClosureFact w fact) := by
  have rebases := visitRebases_emits kept fact (program.runtime.baseRebases.get fact.identity.base)
  have consumers := visitConsumers_emits rebases.kept fact (program.factConsumers fact.identity)
  have transforms := visitTransforms_emits consumers.kept fact (program.runtime.outgoing fact.identity.base)
  have all := (rebases.trans (rows_monotone fun _ => consumer_monotone) consumers).trans
    (rows_monotone fun _ => transform_monotone) transforms
  refine all.congr fun known => ?_
  ext atom
  simp only [factYields, Set.mem_union, Set.mem_ofPred_eq, or_assoc]

end

end ClosureProgram

end BonsaiNinja.Idg
