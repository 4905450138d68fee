import BonsaiNinja.Cfg.BuiltPaths

namespace BonsaiNinja.Cfg
open Library LangApi

def InRange (blocks : Blocks) : Prop :=
  ∀ id node, viewOf blocks id = some node → ∀ next ∈ node.successors, next < blocks.length

structure Ranges (before after : Blocks) : Prop where
  longer : before.length ≤ after.length
  inRange : InRange before → InRange after

section ranges
variable {blocks after last : Blocks} {exit source target : Nat} {loopTargets : List LoopTargets}

theorem Ranges.trans (first : Ranges blocks after) (next : Ranges after last) : Ranges blocks last where
  longer := first.longer.trans next.longer
  inRange := fun inside => next.inRange (first.inRange inside)

theorem Ranges.refl : Ranges blocks blocks := ⟨Nat.le_refl _,id⟩

theorem ranges_newBlock (label : String) (kind : SyntheticBlockKind) : Ranges blocks (newBlock blocks label kind) where
  longer := by simp
  inRange inside id node found next member := by
    rw [viewOf_newBlock] at found
    rw [newBlock_length]
    split at found
    · cases found
      cases member
    · exact (inside id node found next member).trans (Nat.lt_succ_self _)

theorem ranges_recordSpan (id : Nat) (span : Span) : Ranges blocks (recordSpan blocks id span) where
  longer := by simp
  inRange inside i node found next member := by
    rw [viewOf_recordSpan] at found
    rw [recordSpan_length]
    exact inside i node found next member

theorem ranges_setTerminator (id : Nat) (terminator : Terminator) : Ranges blocks (setTerminator blocks id terminator) where
  longer := by simp
  inRange inside i node found next member := by
    rw [viewOf_setTerminator] at found
    rw [setTerminator_length]
    split at found
    · obtain ⟨earlier,present,rfl⟩ := Option.map_eq_some_iff.mp found
      exact inside i earlier present next member
    · exact inside i node found next member

theorem ranges_pushEvent (id : Nat) (event : FlowEvent) : Ranges blocks (pushEvent blocks id event) where
  longer := by simp
  inRange inside i node found next member := by
    rw [viewOf_pushEvent] at found
    rw [pushEvent_length]
    split at found
    · obtain ⟨earlier,present,rfl⟩ := Option.map_eq_some_iff.mp found
      exact inside i earlier present next member
    · exact inside i node found next member

theorem ranges_link (source target : Nat) (bounded : target < blocks.length) : Ranges blocks (link blocks source target) where
  longer := by simp
  inRange inside i node found next member := by
    rw [viewOf_link] at found
    rw [link_length]
    split at found
    · obtain ⟨earlier,present,rfl⟩ := Option.map_eq_some_iff.mp found
      split at member
      · exact inside i earlier present next member
      · rcases List.mem_append.mp member with old | new
        · exact inside i earlier present next old
        · rw [List.mem_singleton.mp new]
          exact bounded
    · exact inside i node found next member

structure Bounded (exit : Nat) (loopTargets : List LoopTargets) (blocks : Blocks) : Prop where
  exit : exit < blocks.length
  targets : ∀ target ∈ loopTargets, target.breakTo < blocks.length ∧ target.continueTo < blocks.length

theorem Bounded.later (bounded : Bounded exit loopTargets blocks) (ranges : Ranges blocks after) :
    Bounded exit loopTargets after where
  exit := bounded.exit.trans_le ranges.longer
  targets found member := by
    obtain ⟨first,second⟩ := bounded.targets found member
    exact ⟨first.trans_le ranges.longer,second.trans_le ranges.longer⟩

theorem Bounded.loop (bounded : Bounded exit loopTargets blocks) {found : LoopTargets} (breaks : found.breakTo < blocks.length)
    (continues : found.continueTo < blocks.length) : Bounded exit (found :: loopTargets) blocks where
  exit := bounded.exit
  targets other member := by
    rcases List.mem_cons.mp member with rfl | member
    · exact ⟨breaks,continues⟩
    · exact bounded.targets other member

theorem selectTarget_mem {label : Option LoopControlTarget} {found : LoopTargets}
    (selected : selectTarget label loopTargets = some found) : found ∈ loopTargets := by
  unfold selectTarget at selected
  split at selected
  · exact List.mem_of_mem_head? selected
  · exact List.mem_of_find?_eq_some selected
  · split at selected
    · cases selected
    · exact List.mem_of_getElem? selected

theorem Bounded.transfer (bounded : Bounded exit loopTargets blocks) (event : FlowEvent) :
    (controlTransferTarget event loopTargets exit).1 < blocks.length := by
  unfold controlTransferTarget
  split
  · next label =>
    cases selected : selectTarget label loopTargets with
    | none => exact bounded.exit
    | some found => exact (bounded.targets found (selectTarget_mem selected)).1
  · next label =>
    cases selected : selectTarget label loopTargets with
    | none => exact bounded.exit
    | some found => exact (bounded.targets found (selectTarget_mem selected)).2
  · exact bounded.exit

theorem loopLinks_ranges (blocks : Blocks) (cur conditionTail : Nat) {first body after : Nat} (loopKind : LoopKind)
    (firstInside : first < blocks.length)
    (bodyInside : body < blocks.length) (afterInside : after < blocks.length) : Ranges blocks
      (let linked := link (link (setTerminator blocks conditionTail .loopHeader) cur first) conditionTail body
      if loopKind = .loop then linked else link linked conditionTail after) := by
  have enters : Ranges (setTerminator blocks conditionTail .loopHeader)
      (link (setTerminator blocks conditionTail .loopHeader) cur first) := ranges_link _ _ (by rwa [setTerminator_length])
  have both := ((ranges_setTerminator conditionTail .loopHeader).trans enters).trans
    (ranges_link conditionTail body (by rwa [link_length, setTerminator_length]))
  dsimp only
  split
  · exact both
  · exact both.trans (ranges_link _ _ (by rwa [link_length, link_length, setTerminator_length]))

theorem transfer_ranges {pendingFinally : List FinallyFrame} {cur : Nat} (event : FlowEvent) (terminator : Terminator)
    (bounded : Bounded exit loopTargets blocks)
    (routes : ∀ blocks, Bounded exit loopTargets blocks → Ranges blocks (appendFinallyPath exit loopTargets
      (controlTransferTarget event loopTargets exit).1 (controlTransferTarget event loopTargets exit).2 pendingFinally blocks cur)) :
    let target := controlTransferTarget event loopTargets exit
    let marked := pushEvent (setTerminator (recordSpan blocks cur (eventSpan event)) cur terminator) cur event
    let routed := if pendingFinally.length = target.2 then
        if terminator = .break ∨ terminator = .continue then link marked cur target.1 else marked
      else appendFinallyPath exit loopTargets target.1 target.2 pendingFinally marked cur
    Ranges blocks (setTerminator (newBlock routed "unreachable" .unreachable) routed.length .unreachable) := by
  intro target marked routed
  have marks : Ranges blocks marked :=
    ((ranges_recordSpan cur _).trans (ranges_setTerminator cur _)).trans (ranges_pushEvent cur _)
  have routes' : Ranges marked routed := by
    dsimp only [routed]
    split
    · split
      · exact ranges_link _ _ ((bounded.later marks).transfer event)
      · exact .refl
    · exact routes marked (bounded.later marks)
  exact ((marks.trans routes').trans (ranges_newBlock _ _)).trans (ranges_setTerminator _ _)

end ranges

section walkRanges
variable {exit : Nat}

mutual

theorem walkWithFinally_ranges (loopTargets : List LoopTargets) (pendingFinally : List FinallyFrame) : ∀ events blocks cur,
    Bounded exit loopTargets blocks → Ranges blocks (walkWithFinally exit loopTargets pendingFinally events blocks cur).1
  | [], blocks, cur, _ => by
    rw [walkWithFinally]
    exact .refl
  | event :: events, blocks, cur, bounded => by
    rw [walkWithFinally]
    have first := walkEvent_ranges loopTargets pendingFinally event blocks cur bounded
    exact first.trans (walkWithFinally_ranges loopTargets pendingFinally events _ _ (bounded.later first))
termination_by events => framesSize pendingFinally + 2 * sizeOf events

theorem walkEvent_ranges (loopTargets : List LoopTargets) (pendingFinally : List FinallyFrame) : ∀ event blocks cur,
    Bounded exit loopTargets blocks → Ranges blocks (walkEvent exit loopTargets pendingFinally event blocks cur).1
  | .branch span condition thenEvents elseEvents, blocks, cur, bounded => by
    rw [walkEvent]
    dsimp only
    simp only [newBlock_length, setTerminator_length, recordSpan_length]
    have start : Ranges blocks (newBlock (newBlock (newBlock (setTerminator (recordSpan blocks cur span) cur .branch)
        s!"join@{span.start}" .branchJoin) s!"then@{span.start}" .branchThen) s!"else@{span.start}" .branchElse) :=
      ((((ranges_recordSpan cur span).trans (ranges_setTerminator cur .branch)).trans (ranges_newBlock _ _)).trans
        (ranges_newBlock _ _)).trans (ranges_newBlock _ _)
    have length : (newBlock (newBlock (newBlock (setTerminator (recordSpan blocks cur span) cur .branch) s!"join@{span.start}"
        .branchJoin) s!"then@{span.start}" .branchThen) s!"else@{span.start}" .branchElse).length = blocks.length + 3 := by simp
    generalize newBlock (newBlock (newBlock (setTerminator (recordSpan blocks cur span) cur .branch) _ _) _ _) _ _ = three
      at start length ⊢
    have forks : Ranges blocks (link (link three cur (blocks.length + 1)) cur (blocks.length + 1 + 1)) :=
      (start.trans (ranges_link _ _ (by omega))).trans (ranges_link _ _ (by rw [link_length]; omega))
    have first := walkWithFinally_ranges loopTargets pendingFinally thenEvents _ (blocks.length + 1) (bounded.later forks)
    have second := walkWithFinally_ranges loopTargets pendingFinally elseEvents _ (blocks.length + 1 + 1)
      (bounded.later (forks.trans first))
    have longer := first.longer
    have longest := second.longer
    rw [link_length, link_length] at longer
    exact ((forks.trans first).trans second).trans ((ranges_link _ _ (by omega)).trans (ranges_link _ _ (by rw [link_length]; omega)))
  | .loop span loopKind label conditionEvents updateEvents body, blocks, cur, bounded => by
    rw [walkEvent]
    dsimp only
    simp only [newBlock_length, recordSpan_length]
    have adds := addsThree (recordSpan blocks cur span) s!"loop-header@{span.start}" s!"loop-body@{span.start}"
      s!"loop-after@{span.start}" .loopHeader .loopBody .loopAfter
    have start : Ranges blocks (newBlock (newBlock (newBlock (recordSpan blocks cur span) s!"loop-header@{span.start}" .loopHeader)
        s!"loop-body@{span.start}" .loopBody) s!"loop-after@{span.start}" .loopAfter) :=
      (((ranges_recordSpan cur span).trans (ranges_newBlock _ _)).trans (ranges_newBlock _ _)).trans (ranges_newBlock _ _)
    have length := adds.length
    rw [recordSpan_length] at length
    generalize newBlock (newBlock (newBlock (recordSpan blocks cur span) _ _) _ _) _ _ = three at start length ⊢
    have condition := walkWithFinally_ranges loopTargets pendingFinally conditionEvents three blocks.length (bounded.later start)
    generalize walkWithFinally exit loopTargets pendingFinally conditionEvents three blocks.length = conditionWalked
      at condition ⊢
    have longer := condition.longer
    have links := loopLinks_ranges conditionWalked.1 cur conditionWalked.2 loopKind
      (by split <;> omega : (if loopKind = .doWhile then blocks.length + 1 else blocks.length) < conditionWalked.1.length)
      (by omega : blocks.length + 1 < conditionWalked.1.length) (by omega : blocks.length + 2 < conditionWalked.1.length)
    dsimp only at links
    generalize (if loopKind = .loop then _ else link _ conditionWalked.2 (blocks.length + 2)) = linked at links ⊢
    have before := (start.trans condition).trans links
    have linkedLonger := links.longer
    have around := bounded.later before
    have headerInside : blocks.length < linked.length := by omega
    have afterInside : blocks.length + 2 < linked.length := by omega
    cases updateEvents with
    | nil =>
      simp only [List.isEmpty_nil, if_true, ite_self]
      have walked := walkWithFinally_ranges (⟨label,blocks.length + 2,blocks.length,pendingFinally.length⟩ :: loopTargets)
        pendingFinally body linked (blocks.length + 1) (around.loop afterInside headerInside)
      have longest := walked.longer
      exact (before.trans walked).trans (ranges_link _ _ (by omega))
    | cons event events =>
      simp only [List.isEmpty_cons, Bool.false_eq_true, if_false]
      have added := @ranges_newBlock linked s!"loop-update@{span.start}" .loopUpdate
      have within : Bounded exit (⟨label,blocks.length + 2,if loopKind = .doWhile then blocks.length else linked.length,
          pendingFinally.length⟩ :: loopTargets) (newBlock linked s!"loop-update@{span.start}" .loopUpdate) := by
        refine (around.later added).loop (afterInside.trans_le added.longer) ?_
        rw [newBlock_length]
        dsimp only
        split
        · exact headerInside.trans (Nat.lt_succ_self _)
        · exact Nat.lt_succ_self _
      have walked := walkWithFinally_ranges _ pendingFinally body _ (blocks.length + 1) within
      have longest := walked.longer
      rw [newBlock_length] at longest
      generalize walkWithFinally exit (_ :: loopTargets) pendingFinally body _ (blocks.length + 1) = bodyWalked at walked longest ⊢
      have back : Ranges bodyWalked.1 (link bodyWalked.1 bodyWalked.2 linked.length) := ranges_link _ _ (by omega)
      have updated := walkWithFinally_ranges _ pendingFinally (event :: events) _ linked.length
        (within.later (walked.trans back))
      have most := updated.longer
      rw [link_length] at most
      exact (((before.trans added).trans (walked.trans back)).trans updated).trans (ranges_link _ _ (by omega))
  | .try span body catchEvents finallyEvents catchParam catchTypes catchArms, blocks, cur, bounded => by
    rw [walkEvent]
    dsimp only
    simp only [newBlock_length, recordSpan_length, link_length]
    have fork : Ranges blocks (recordSpan (link (newBlock (recordSpan blocks cur span) s!"try_fork@{span.start}" .tryFork) cur
        blocks.length) blocks.length span) :=
      (((ranges_recordSpan cur span).trans (ranges_newBlock _ _)).trans (ranges_link _ _ (by simp))).trans (ranges_recordSpan _ _)
    have anchored := (fork.trans (ranges_newBlock s!"try@{span.start}" .tryBody)).trans
      (ranges_link blocks.length (blocks.length + 1) (by simp))
    have length : (link (newBlock (recordSpan (link (newBlock (recordSpan blocks cur span) s!"try_fork@{span.start}" .tryFork) cur
        blocks.length) blocks.length span) s!"try@{span.start}" .tryBody) blocks.length (blocks.length + 1)).length =
        blocks.length + 2 := by simp
    generalize hasCatch catchEvents catchParam catchTypes catchArms = caught
    generalize link (newBlock (recordSpan (link (newBlock (recordSpan blocks cur span) _ _) _ _) _ _) _ _) blocks.length
      (blocks.length + 1) = tried at anchored length ⊢
    cases caught with
    | false =>
      simp only [Bool.false_eq_true, if_false]
      have walked := walkWithFinally_ranges loopTargets (⟨span,finallyEvents⟩ :: pendingFinally) body tried (blocks.length + 1)
        (bounded.later anchored)
      generalize walkWithFinally exit loopTargets (_ :: pendingFinally) body tried (blocks.length + 1) = bodyWalked at walked ⊢
      have joined : Ranges bodyWalked.1 (link (newBlock bodyWalked.1 s!"finally@{span.start}" .finally) bodyWalked.2
          bodyWalked.1.length) := (ranges_newBlock _ _).trans (ranges_link _ _ (by simp))
      have before := (anchored.trans walked).trans joined
      exact before.trans (walkWithFinally_ranges loopTargets pendingFinally finallyEvents _ _ (bounded.later before))
    | true =>
      simp only [if_true]
      have handled : Ranges tried (setTerminator (link (newBlock tried s!"catch@{span.start}" .catch) blocks.length
          (blocks.length + 2)) blocks.length .tryFork) :=
        ((ranges_newBlock _ _).trans (ranges_link _ _ (by rw [newBlock_length]; omega))).trans (ranges_setTerminator _ _)
      have first := walkWithFinally_ranges loopTargets (⟨span,finallyEvents⟩ :: pendingFinally) body _ (blocks.length + 1)
        (bounded.later (anchored.trans handled))
      have second := walkWithFinally_ranges loopTargets (⟨span,finallyEvents⟩ :: pendingFinally) catchEvents _ (blocks.length + 2)
        (bounded.later ((anchored.trans handled).trans first))
      have before := ((anchored.trans handled).trans first).trans second
      refine Ranges.trans (before.trans ((ranges_newBlock _ _).trans ((ranges_link _ _ (by simp)).trans (ranges_link _ _ (by simp)))))
        (walkWithFinally_ranges loopTargets pendingFinally finallyEvents _ _ (bounded.later (before.trans ?_)))
      exact (ranges_newBlock _ _).trans ((ranges_link _ _ (by simp)).trans (ranges_link _ _ (by simp)))
  | .defer span body, blocks, cur, bounded => by
    rw [walkEvent]
    exact walkWithFinally_ranges loopTargets pendingFinally body blocks cur bounded
  | .using span body, blocks, cur, bounded => by
    rw [walkEvent]
    exact walkWithFinally_ranges loopTargets pendingFinally body blocks cur bounded
  | .return span valueKind valueText valueName, blocks, cur, bounded => by
    rw [walkEvent]
    · exact transfer_ranges (.return span valueKind valueText valueName) .return bounded fun blocks inside =>
        appendFinallyPath_ranges loopTargets pendingFinally _ blocks cur inside (inside.transfer _)
    all_goals
      intros
      contradiction
  | .throw span valueName thrownType, blocks, cur, bounded => by
    rw [walkEvent]
    · exact transfer_ranges (.throw span valueName thrownType) .throw bounded fun blocks inside =>
        appendFinallyPath_ranges loopTargets pendingFinally _ blocks cur inside (inside.transfer _)
    all_goals
      intros
      contradiction
  | .break span target, blocks, cur, bounded => by
    rw [walkEvent]
    · exact transfer_ranges (.break span target) .break bounded fun blocks inside =>
        appendFinallyPath_ranges loopTargets pendingFinally _ blocks cur inside (inside.transfer _)
    all_goals
      intros
      contradiction
  | .continue span target, blocks, cur, bounded => by
    rw [walkEvent]
    · exact transfer_ranges (.continue span target) .continue bounded fun blocks inside =>
        appendFinallyPath_ranges loopTargets pendingFinally _ blocks cur inside (inside.transfer _)
    all_goals
      intros
      contradiction
  | .call .., blocks, cur, _ | .assign .., blocks, cur, _ | .aggregateAssign .., blocks, cur, _ | .yield .., blocks, cur, _
  | .await .., blocks, cur, _ | .lifecycle .., blocks, cur, _ => by
    rw [walkEvent]
    · exact (ranges_recordSpan cur _).trans (ranges_pushEvent cur _)
    all_goals
      intros
      contradiction
termination_by event => framesSize pendingFinally + 2 * sizeOf event

theorem appendFinallyPath_ranges (loopTargets : List LoopTargets) : ∀ (pendingFinally : List FinallyFrame)
    (target : BasicBlockId × Nat) blocks cur, Bounded exit loopTargets blocks → target.1 < blocks.length →
      Ranges blocks (appendFinallyPath exit loopTargets target.1 target.2 pendingFinally blocks cur)
  | [], target, blocks, cur, _, goal => by
    rw [appendFinallyPath]
    exact ranges_link _ _ goal
  | frame :: pendingFinally, target, blocks, cur, bounded, goal => by
    rw [appendFinallyPath]
    split
    · exact ranges_link _ _ goal
    · have start : Ranges blocks (recordSpan (link (newBlock blocks s!"finally@{frame.span.start}" .finally) cur blocks.length)
          blocks.length frame.span) :=
        ((ranges_newBlock _ _).trans (ranges_link _ _ (by simp))).trans (ranges_recordSpan _ _)
      have walked := start.trans (walkWithFinally_ranges loopTargets pendingFinally frame.events _ blocks.length
        (bounded.later start))
      exact walked.trans (appendFinallyPath_ranges loopTargets pendingFinally target _ _ (bounded.later walked)
        (goal.trans_le walked.longer))
termination_by pendingFinally => framesSize pendingFinally

end

end walkRanges

end BonsaiNinja.Cfg
