import BonsaiNinja.Cfg.WalkPaths

namespace BonsaiNinja.Cfg
open Library LangApi

def labelsOf (loopTargets : List LoopTargets) : Scope := loopTargets.map (·.label)

-- What the walks rely on: pending finally bodies are not left by their transfers,
-- and every loop that may be addressed has no more pending bodies than its event.
structure Surroundings (loopTargets : List LoopTargets) (pendingFinally : List FinallyFrame) (inner : Nat) : Prop where
  frames : ∀ frame ∈ pendingFinally, cleanupsStayAll frame.events = true ∧ staysInsideAll [] frame.events = true
  retains : ∀ loop < inner, ∀ target, loopTargets[loop]? = some target → target.retainedFinallyDepth ≤ pendingFinally.length

section surroundings
variable {exit : BasicBlockId} {loopTargets : List LoopTargets} {pendingFinally : List FinallyFrame} {inner : Nat}

section
variable (around : Surroundings loopTargets pendingFinally inner)
include around

theorem Surroundings.destination {outcome : Outcome}
    (within : outcome.Within inner) : (destination exit loopTargets outcome).2 ≤ pendingFinally.length := by
  cases outcome with
  | normal | exit => exact Nat.zero_le _
  | «break» loop | «continue» loop =>
    unfold Cfg.destination
    dsimp only
    cases found : loopTargets[loop]? with
    | none => exact Nat.zero_le _
    | some target => exact around.retains loop within target found

theorem Surroundings.loop {target : LoopTargets}
    (retained : target.retainedFinallyDepth = pendingFinally.length) :
    Surroundings (target :: loopTargets) pendingFinally (inner + 1) where
  frames := around.frames
  retains loop below found same := by
    cases loop with
    | zero =>
      cases same
      exact retained.le
    | succ loop => exact around.retains loop (Nat.lt_of_succ_lt_succ below) found same

theorem Surroundings.frame {frame : FinallyFrame}
    (stay : cleanupsStayAll frame.events = true) (inside : staysInsideAll [] frame.events = true) :
    Surroundings loopTargets (frame :: pendingFinally) inner where
  frames other member := by
    rcases List.mem_cons.mp member with rfl | member
    · exact ⟨stay,inside⟩
    · exact around.frames other member
  retains loop below found same := (around.retains loop below found same).trans (Nat.le_succ _)

end

theorem Surroundings.outside {frame : FinallyFrame} (around : Surroundings loopTargets (frame :: pendingFinally) inner) :
    Surroundings loopTargets pendingFinally 0 where
  frames other member := around.frames other (List.mem_cons_of_mem _ member)
  retains loop below := absurd below (Nat.not_lt_zero loop)

theorem contained_of_staysInside {events : List FlowEvent} (inside : staysInsideAll [] events = true) :
    Contained (runsAll [] events) := by
  intro trace outcome ran
  have within := runsAll_within events (runsAll_inside [] [] events inside).2 trace outcome ran
  cases outcome with
  | normal => exact .inl rfl
  | exit => exact .inr rfl
  | «break» loop | «continue» loop => exact absurd within (Nat.not_lt_zero loop)

theorem find_findIdx (label : Option Text) (loopTargets : List LoopTargets) :
    (loopTargets.find? fun target => target.label == label) =
      ((labelsOf loopTargets).findIdx? (· == label)).bind (loopTargets[·]?) := by
  induction loopTargets with
  | nil => rfl
  | cons target loopTargets ih =>
    rw [labelsOf, List.map_cons, List.findIdx?_cons, List.find?_cons]
    cases target.label == label with
    | true => rfl
    | false =>
      rw [ih, labelsOf]
      cases (loopTargets.map (·.label)).findIdx? (· == label) with
      | none => rfl
      | some loop => rfl

theorem selectTarget_eq (target : Option LoopControlTarget) :
    selectTarget target loopTargets = (resolveTarget (labelsOf loopTargets) target).bind (loopTargets[·]?) := by
  cases target with
  | none => cases loopTargets <;> rfl
  | some target =>
    cases target with
    | label label => exact find_findIdx (some label) loopTargets
    | levels levels =>
      unfold selectTarget resolveTarget
      by_cases zero : levels = 0
      · simp only [zero, true_or, if_true]
        rfl
      · simp only [zero, false_or, if_false]
        rw [labelsOf, List.length_map]
        split
        · exact List.getElem?_eq_none (by omega)
        · rfl

theorem transferOutcome_jump (jump : Nat → Outcome) {found : Option Nat}
    (passes : ∀ loop, jump loop ≠ .normal ∧ (loop < inner → (jump loop).Within inner))
    (within : ∀ loop, found = some loop → loop < inner) :
    transferOutcome jump found ≠ .normal ∧ (transferOutcome jump found).Within inner := by
  cases found with
  | none => exact ⟨nofun,trivial⟩
  | some loop => exact ⟨(passes loop).1,(passes loop).2 (within loop rfl)⟩

theorem controlTransferTarget_break (span : Span) (target : Option LoopControlTarget) :
    controlTransferTarget (.break span target) loopTargets exit =
      destination exit loopTargets (transferOutcome .break (resolveTarget (labelsOf loopTargets) target)) := by
  rw [controlTransferTarget, selectTarget_eq]
  cases resolveTarget (labelsOf loopTargets) target with
  | none => rfl
  | some loop => rfl

theorem controlTransferTarget_continue (span : Span) (target : Option LoopControlTarget) :
    controlTransferTarget (.continue span target) loopTargets exit =
      destination exit loopTargets (transferOutcome .continue (resolveTarget (labelsOf loopTargets) target)) := by
  rw [controlTransferTarget, selectTarget_eq]
  cases resolveTarget (labelsOf loopTargets) target with
  | none => rfl
  | some loop => rfl

end surroundings

def WalksAll (exit : Nat) (loopTargets : List LoopTargets) (pendingFinally : List FinallyFrame) (events : List FlowEvent) : Prop :=
  ∀ blocks cur, Builds exit loopTargets pendingFinally blocks cur
    (walkWithFinally exit loopTargets pendingFinally events blocks cur).1
    (walkWithFinally exit loopTargets pendingFinally events blocks cur).2 (runsAll (labelsOf loopTargets) events)

def WalksEvent (exit : Nat) (loopTargets : List LoopTargets) (pendingFinally : List FinallyFrame) (event : FlowEvent) : Prop :=
  ∀ blocks cur, Builds exit loopTargets pendingFinally blocks cur
    (walkEvent exit loopTargets pendingFinally event blocks cur).1
    (walkEvent exit loopTargets pendingFinally event blocks cur).2 (runs (labelsOf loopTargets) event)

section cases
variable {exit : Nat} {loopTargets : List LoopTargets} {pendingFinally : List FinallyFrame} {inner : Nat} {blocks : Blocks}
  {cur stop : Nat}

structure AddsThree (before after : Blocks) : Prop where
  touches : Touches before after fun _ => False
  length : after.length = before.length + 3
  opened : ∀ i, before.length ≤ i → i < after.length → Holds (viewOf after) i 0 [] false

theorem addsThree (blocks : Blocks) (first second third : String) (one two three : SyntheticBlockKind) :
    AddsThree blocks (newBlock (newBlock (newBlock blocks first one) second two) third three) where
  touches := (touches_newBlock first one).extend ((touches_newBlock second two).extend (touches_newBlock third three))
  length := by simp
  opened i lower upper := by
    simp only [newBlock_length] at upper
    have last := @touches_newBlock (newBlock (newBlock blocks first one) second two) third three
    rcases (by omega : i = blocks.length ∨ i = blocks.length + 1 ∨ i = blocks.length + 2) with rfl | rfl | rfl
    · exact ((holds_newBlock first one).kept (touches_newBlock second two) id).kept last id
    · have second := @holds_newBlock (newBlock blocks first one) second two
      rw [newBlock_length] at second
      exact second.kept last id
    · have third := @holds_newBlock (newBlock (newBlock blocks first one) second two) third three
      rw [newBlock_length, newBlock_length] at third
      exact third

theorem Open.recordSpan (opened : Open blocks cur) (id : Nat) (span : Span) :
    Holds (viewOf (recordSpan blocks id span)) cur (stopOf blocks cur) [] false := by
  rw [viewOf_recordSpan]
  exact opened

theorem walksEvent_branch {span : Span} {condition : Option Text} {thenEvents elseEvents : List FlowEvent}
    (thenWalks : WalksAll exit loopTargets pendingFinally thenEvents)
    (elseWalks : WalksAll exit loopTargets pendingFinally elseEvents) :
    WalksEvent exit loopTargets pendingFinally (.branch span condition thenEvents elseEvents) := by
  intro blocks cur opened inner inside
  rw [walkEvent, runs]
  have lower := opened.lt
  have marked := (opened.recordSpan cur span).setTerminator .branch
  have adds := addsThree (setTerminator (recordSpan blocks cur span) cur .branch) s!"join@{span.start}"
    s!"then@{span.start}" s!"else@{span.start}" .branchJoin .branchThen .branchElse
  have length := adds.length
  have fresh := adds.opened
  rw [setTerminator_length, recordSpan_length] at length fresh
  dsimp only
  simp only [newBlock_length, setTerminator_length, recordSpan_length]
  refine branch_builds ?touches ?length ?forks ?opened (thenWalks _ _) (elseWalks _ _) opened inner inside
  case touches =>
    exact (((touches_recordSpan cur span).extend (touches_setTerminator cur .branch)).trans (adds.touches.extend
      ((touches_link cur _).trans (touches_link cur _)))).mono fun i _ touched => by omega
  case length =>
    rw [link_length, link_length]
    exact length
  case forks => exact ((marked.kept adds.touches id).link List.not_mem_nil).link (by simp)
  case opened =>
    intro i above below
    rw [link_length, link_length] at below
    exact ((fresh i above below).kept (touches_link cur _) (by omega)).kept (touches_link cur _) (by omega)

def phaseEntry (header body update : Nat) : LoopPhase → Nat
  | .condition => header
  | .body => body
  | .update => update

theorem walksEvent_loop {span : Span} {loopKind : LoopKind} {label : Option Text}
    {conditionEvents updateEvents body : List FlowEvent}
    (conditionWalks : WalksAll exit loopTargets pendingFinally conditionEvents)
    (updateWalks : ∀ target : LoopTargets, target.label = label → target.retainedFinallyDepth = pendingFinally.length →
      WalksAll exit (target :: loopTargets) pendingFinally updateEvents)
    (bodyWalks : ∀ target : LoopTargets, target.label = label → target.retainedFinallyDepth = pendingFinally.length →
      WalksAll exit (target :: loopTargets) pendingFinally body) :
    WalksEvent exit loopTargets pendingFinally (.loop span loopKind label conditionEvents updateEvents body) := by
  intro blocks cur opened inner inside
  rw [walkEvent, runs]
  have lower := opened.lt
  have adds := addsThree (recordSpan blocks cur span) s!"loop-header@{span.start}"
    s!"loop-body@{span.start}" s!"loop-after@{span.start}" .loopHeader .loopBody .loopAfter
  have touches := (@touches_recordSpan blocks cur span).extend adds.touches
  have length := adds.length
  have fresh := adds.opened
  rw [recordSpan_length] at length fresh
  dsimp only
  simp only [newBlock_length, recordSpan_length]
  generalize newBlock (newBlock (newBlock (recordSpan blocks cur span) _ _) _ _) _ _ = three at touches length fresh ⊢
  have condition := conditionWalks three blocks.length
  generalize walkWithFinally exit loopTargets pendingFinally conditionEvents three blocks.length = conditionWalked
    at condition ⊢
  have links : Holds (viewOf conditionWalked.1) cur (stopOf blocks cur) [] false → Open conditionWalked.1 conditionWalked.2 →
      cur ≠ conditionWalked.2 → LoopLinks conditionWalked.1 cur (stopOf blocks cur) conditionWalked.2
        (if loopKind = .doWhile then blocks.length + 1 else blocks.length)
        ((blocks.length + 1) :: if decide (loopKind ≠ .loop) then [blocks.length + 2] else [])
        (let linked := link (link (setTerminator conditionWalked.1 conditionWalked.2 .loopHeader) cur
          (if loopKind = .doWhile then blocks.length + 1 else blocks.length)) conditionWalked.2 (blocks.length + 1)
        if loopKind = .loop then linked else link linked conditionWalked.2 (blocks.length + 2)) :=
    fun enters opens apart => loopLinks_holds loopKind enters opens apart (by omega)
  dsimp only at links
  generalize (if loopKind = .loop then _ else link _ conditionWalked.2 (blocks.length + 2)) = linked at links ⊢
  have first : ∀ update, (if loopKind = .doWhile then blocks.length + 1 else blocks.length) =
      phaseEntry blocks.length (blocks.length + 1) update (if loopKind = .doWhile then .body else .condition) := by
    intro update
    split <;> rfl
  have resumes : ∀ update, (if loopKind = .doWhile then blocks.length else update) =
      phaseEntry blocks.length (blocks.length + 1) update (if loopKind = .doWhile then .condition else .update) := by
    intro update
    split <;> rfl
  cases updateEvents with
  | nil =>
    rw [first blocks.length] at links
    exact loop_builds (phaseEntry blocks.length (blocks.length + 1) blocks.length) touches length fresh ⟨rfl,rfl⟩ condition links
      Touches.refl (.inl rfl) ⟨rfl,resumes _,rfl⟩ (bodyWalks _ rfl rfl _ _) (fun _ _ => loopUpdate_none) opened inner inside
  | cons event events =>
    rw [first linked.length] at links
    exact loop_builds (phaseEntry blocks.length (blocks.length + 1) linked.length) touches length fresh ⟨rfl,rfl⟩ condition links
      (touches_newBlock _ _) (.inr ⟨Nat.le_refl _,holds_newBlock _ _⟩) ⟨rfl,resumes _,rfl⟩ (bodyWalks _ rfl rfl _ _)
      (fun longer starts => loopUpdate_walk (starts longer.ne') longer inside (updateWalks _ rfl rfl _ _)) opened inner inside

structure Anchors (before : Blocks) (cur stop : Nat) (after : Blocks) : Prop where
  touches : Touches before after (· = cur)
  length : after.length = before.length + 2
  enters : Holds (viewOf after) cur stop [before.length] false
  anchors : Holds (viewOf after) before.length 0 [before.length + 1] false
  opened : Holds (viewOf after) (before.length + 1) 0 [] false

theorem anchors_holds {before : Blocks} (forkLabel bodyLabel : String) (forkKind bodyKind : SyntheticBlockKind) (span : Span)
    (spans : Touches before blocks fun _ => False) (same : blocks.length = before.length)
    (opened : Holds (viewOf blocks) cur stop [] false) :
    Anchors before cur stop (link (newBlock (recordSpan (link (newBlock blocks forkLabel forkKind) cur before.length)
      before.length span) bodyLabel bodyKind) before.length (before.length + 1)) := by
  have lower := opened.lt
  have fork := @touches_newBlock blocks forkLabel forkKind
  have placed := @holds_newBlock blocks forkLabel forkKind
  have linked := @touches_link (newBlock blocks forkLabel forkKind) cur before.length
  have spanned := @touches_recordSpan (link (newBlock blocks forkLabel forkKind) cur before.length) before.length span
  have body := @touches_newBlock (recordSpan (link (newBlock blocks forkLabel forkKind) cur before.length) before.length span)
    bodyLabel bodyKind
  have bodyPlaced := @holds_newBlock (recordSpan (link (newBlock blocks forkLabel forkKind) cur before.length) before.length
    span) bodyLabel bodyKind
  have added := spanned.extend body
  have ends := @touches_link (newBlock (recordSpan (link (newBlock blocks forkLabel forkKind) cur before.length) before.length
    span) bodyLabel bodyKind) before.length (before.length + 1)
  rw [recordSpan_length, link_length, newBlock_length, same] at bodyPlaced
  rw [same] at placed
  constructor
  · exact ((spans.extend (fork.extend linked)).trans (added.extend ends)).mono fun i within touched => by omega
  · simp [same]
  · exact (((opened.kept fork id).link List.not_mem_nil).kept added id).kept ends (by omega)
  · exact ((placed.kept linked (by omega)).kept added id).link List.not_mem_nil
  · exact bodyPlaced.kept ends (by omega)

theorem walksEvent_try {span : Span} {body catchEvents finallyEvents : List FlowEvent} {catchParam : Option Text}
    {catchTypes : List Text} {catchArms : List CatchArmFact} (around : Surroundings loopTargets pendingFinally inner)
    (bodyInner : addressesAll (labelsOf loopTargets) inner body)
    (catchInner : addressesAll (labelsOf loopTargets) inner catchEvents) (inside : staysInsideAll [] finallyEvents = true)
    (bodyWalks : WalksAll exit loopTargets (⟨span,finallyEvents⟩ :: pendingFinally) body)
    (catchWalks : WalksAll exit loopTargets (⟨span,finallyEvents⟩ :: pendingFinally) catchEvents)
    (finallyWalks : WalksAll exit loopTargets pendingFinally finallyEvents) :
    WalksEvent exit loopTargets pendingFinally (.try span body catchEvents finallyEvents catchParam catchTypes catchArms) := by
  intro blocks cur opened apart above
  rw [walkEvent, runs]
  have lower := opened.lt
  have anchors := anchors_holds s!"try_fork@{span.start}" s!"try@{span.start}" .tryFork .tryBody span
    (touches_recordSpan cur span) (recordSpan_length span) (opened.recordSpan cur span)
  dsimp only
  simp only [newBlock_length, recordSpan_length, link_length]
  generalize hasCatch catchEvents catchParam catchTypes catchArms = caught
  generalize link (newBlock (recordSpan (link (newBlock (recordSpan blocks cur span) _ _) _ _) _ _) _ _) blocks.length
    (blocks.length + 1) = anchored at anchors ⊢
  have same := (runsAll_inside [] (labelsOf loopTargets) finallyEvents inside).1
  have contained := contained_of_staysInside inside
  rw [List.nil_append] at same
  rw [← same] at contained
  have reaches : ∀ trace outcome, (runsAll (labelsOf loopTargets) body).either
      (.onlyIf caught (runsAll (labelsOf loopTargets) catchEvents)) trace outcome →
      (destination exit loopTargets outcome).2 ≤ pendingFinally.length := by
    intro trace outcome ran
    rcases ran with ran | ⟨_,ran⟩
    · exact around.destination (runsAll_within body bodyInner trace outcome ran)
    · exact around.destination (runsAll_within catchEvents catchInner trace outcome ran)
  cases caught with
  | false =>
    simp only [Bool.false_eq_true, if_false]
    refine andFinally_builds ⟨span,finallyEvents⟩ same contained reaches ?_ (finallyWalks _ _) opened apart above
    rw [Behaviour.either_onlyIf_false]
    exact region_builds _ _ anchors.touches anchors.length anchors.enters anchors.anchors anchors.opened (bodyWalks _ _)
  | true =>
    simp only [if_true]
    refine andFinally_builds ⟨span,finallyEvents⟩ same contained reaches ?_ (finallyWalks _ _) opened apart above
    rw [Behaviour.onlyIf_true]
    have length := anchors.length
    have added := @touches_newBlock anchored s!"catch@{span.start}" .catch
    have placed := @holds_newBlock anchored s!"catch@{span.start}" .catch
    rw [length] at placed
    have changes := (@touches_link (newBlock anchored s!"catch@{span.start}" .catch) blocks.length (blocks.length + 2)).trans
      (touches_setTerminator blocks.length .tryFork)
    refine handled_builds _ _ ?touches ?length ?enters ?anchors ?body ?handler (bodyWalks _ _) (catchWalks _ _)
    case touches => exact (anchors.touches.trans (added.extend changes)).mono fun i within touched => by omega
    case length => simp [length]
    case enters => exact (anchors.enters.kept added id).kept changes (by omega)
    case anchors =>
      have forks := (anchors.anchors.kept added id).link (by simp : blocks.length + 2 ∉ [blocks.length + 1])
      exact forks.setTerminator .tryFork
    case body => exact (anchors.opened.kept added id).kept changes (by omega)
    case handler => exact placed.kept changes (by omega)

theorem transfer_builds (event : FlowEvent) (terminator : Terminator) {outcome : Outcome} (abrupt : outcome ≠ .normal)
    (goes : controlTransferTarget event loopTargets exit = destination exit loopTargets outcome)
    (halts : terminator ≠ .break → terminator ≠ .continue → outcome = .exit ∧ (terminator = .return ∨ terminator = .throw))
    (routes : ∀ blocks start returns, Holds (viewOf blocks) cur start [] returns →
      Routes exit pendingFinally (destination exit loopTargets outcome) blocks cur start (appendFinallyPath exit loopTargets
        (destination exit loopTargets outcome).1 (destination exit loopTargets outcome).2 pendingFinally blocks cur)) :
    let target := controlTransferTarget event loopTargets exit
    let marked := pushEvent (setTerminator (recordSpan blocks cur (eventSpan event)) cur terminator) cur event
    let routed := if pendingFinally.length = target.2 then
        if terminator = .break ∨ terminator = .continue then link marked cur target.1 else marked
      else appendFinallyPath exit loopTargets target.1 target.2 pendingFinally marked cur
    Builds exit loopTargets pendingFinally blocks cur (setTerminator (newBlock routed "unreachable" .unreachable) routed.length
      .unreachable) routed.length (.leave event outcome) := by
  intro target marked routed opened
  rw [← goes] at routes
  have spanned := opened.recordSpan cur (eventSpan event)
  have ended := spanned.setTerminator terminator
  have holds := ended.pushEvent event
  have touches : Touches blocks marked (· = cur) := (touches_recordSpan cur _).extend
    (((touches_setTerminator cur terminator).trans (touches_pushEvent cur event)).mono fun i _ touched => touched.elim id id)
  refine leave_builds "unreachable" .unreachable touches (by simp [marked]) (eventAt_pushEvent ended event) abrupt ?_ opened
  rw [← goes]
  by_cases arrives : pendingFinally.length = target.2
  · by_cases jumps : terminator = .break ∨ terminator = .continue
    · have same : routed = link marked cur target.1 := by simp only [routed, if_pos arrives, if_pos jumps]
      rw [same]
      exact routes_arrive holds arrives.le
    · rw [not_or] at jumps
      obtain ⟨rfl,returns⟩ := halts jumps.1 jumps.2
      have last : controlTransferTarget event loopTargets exit = (exit,0) := goes
      have none : pendingFinally = [] := List.eq_nil_of_length_eq_zero (by rw [arrives]; exact congrArg Prod.snd last)
      have same : routed = marked := by simp only [routed, if_pos arrives, if_neg (not_or.mpr jumps)]
      rw [same, none, last]
      rw [decide_eq_true returns] at holds
      exact routes_halt holds
  · have same : routed = appendFinallyPath exit loopTargets target.1 target.2 pendingFinally marked cur := by
      simp only [routed, if_neg arrives]
    rw [same]
    exact routes marked _ _ holds

theorem walksEvent_plain {event : FlowEvent} (plain : ∀ blocks cur, walkEvent exit loopTargets pendingFinally event blocks cur =
      (pushEvent (recordSpan blocks cur (eventSpan event)) cur event,cur))
    (emits : runs (labelsOf loopTargets) event = .emit event) : WalksEvent exit loopTargets pendingFinally event := by
  intro blocks cur
  rw [plain, emits]
  exact emit_builds

end cases

section walks
variable {exit : Nat}

mutual

theorem walksAll (loopTargets : List LoopTargets) (pendingFinally : List FinallyFrame) (inner : Nat)
    (around : Surroundings loopTargets pendingFinally inner) : ∀ events, cleanupsStayAll events = true →
      addressesAll (labelsOf loopTargets) inner events → WalksAll exit loopTargets pendingFinally events
  | [], _, _ => by
    intro blocks cur
    rw [walkWithFinally, runsAll]
    exact .skip
  | event :: events, stay, within => by
    obtain ⟨head,tail⟩ := Bool.and_eq_true_iff.mp stay
    intro blocks cur
    rw [walkWithFinally, runsAll]
    exact (walksEvent loopTargets pendingFinally inner around event head within.1 blocks cur).andThen
      (walksAll loopTargets pendingFinally inner around events tail within.2 _ _)
termination_by events => framesSize pendingFinally + 2 * sizeOf events

theorem walksEvent (loopTargets : List LoopTargets) (pendingFinally : List FinallyFrame) (inner : Nat)
    (around : Surroundings loopTargets pendingFinally inner) : ∀ event, cleanupsStay event = true →
      addresses (labelsOf loopTargets) inner event → WalksEvent exit loopTargets pendingFinally event
  | .branch _ _ thenEvents elseEvents, stay, within => by
    obtain ⟨left,right⟩ := Bool.and_eq_true_iff.mp stay
    exact walksEvent_branch (walksAll loopTargets pendingFinally inner around thenEvents left within.1)
      (walksAll loopTargets pendingFinally inner around elseEvents right within.2)
  | .loop _ _ label conditionEvents updateEvents body, stay, within => by
    obtain ⟨both,last⟩ := Bool.and_eq_true_iff.mp stay
    obtain ⟨left,right⟩ := Bool.and_eq_true_iff.mp both
    refine walksEvent_loop (walksAll loopTargets pendingFinally inner around conditionEvents left within.1) ?_ ?_
    · rintro target rfl retained
      exact walksAll (target :: loopTargets) pendingFinally (inner + 1) (around.loop retained) updateEvents right within.2.1
    · rintro target rfl retained
      exact walksAll (target :: loopTargets) pendingFinally (inner + 1) (around.loop retained) body last within.2.2
  | .try span body catchEvents finallyEvents _ _ _, stay, within => by
    obtain ⟨three,inside⟩ := Bool.and_eq_true_iff.mp stay
    obtain ⟨both,last⟩ := Bool.and_eq_true_iff.mp three
    obtain ⟨left,right⟩ := Bool.and_eq_true_iff.mp both
    have framed : Surroundings loopTargets (⟨span,finallyEvents⟩ :: pendingFinally) inner := around.frame last inside
    exact walksEvent_try around within.1 within.2.1 inside
      (walksAll loopTargets (⟨span,finallyEvents⟩ :: pendingFinally) inner framed body left within.1)
      (walksAll loopTargets (⟨span,finallyEvents⟩ :: pendingFinally) inner framed catchEvents right within.2.1)
      (walksAll loopTargets pendingFinally inner around finallyEvents last within.2.2)
  | .defer _ body, stay, within => by
    intro blocks cur
    rw [walkEvent, runs]
    exact walksAll loopTargets pendingFinally inner around body (Bool.and_eq_true_iff.mp stay).1 within blocks cur
  | .using _ body, stay, within => by
    intro blocks cur
    rw [walkEvent, runs]
    exact walksAll loopTargets pendingFinally inner around body stay within blocks cur
  | .return span valueKind valueText valueName, _, _ => by
    intro blocks cur
    rw [walkEvent, runs]
    · exact transfer_builds (.return span valueKind valueText valueName) .return exit_abrupt rfl (fun _ _ => ⟨rfl,.inl rfl⟩) fun blocks start returns =>
        routesAll loopTargets pendingFinally inner around (exit,0) (Nat.zero_le _) blocks cur start returns
    all_goals
      intros
      contradiction
  | .throw span valueName thrownType, _, _ => by
    intro blocks cur
    rw [walkEvent, runs]
    · exact transfer_builds (.throw span valueName thrownType) .throw exit_abrupt rfl (fun _ _ => ⟨rfl,.inr rfl⟩) fun blocks start returns =>
        routesAll loopTargets pendingFinally inner around (exit,0) (Nat.zero_le _) blocks cur start returns
    all_goals
      intros
      contradiction
  | .break span target, _, within => by
    intro blocks cur
    rw [walkEvent, runs]
    · have jumps := transferOutcome_jump .break (fun loop => ⟨nofun,id⟩) within
      exact transfer_builds _ .break jumps.1 (controlTransferTarget_break span target) (fun other => absurd rfl other)
        fun blocks start returns => routesAll loopTargets pendingFinally inner around _ (around.destination jumps.2) blocks cur
          start returns
    all_goals
      intros
      contradiction
  | .continue span target, _, within => by
    intro blocks cur
    rw [walkEvent, runs]
    · have jumps := transferOutcome_jump .continue (fun loop => ⟨nofun,id⟩) within
      exact transfer_builds _ .continue jumps.1 (controlTransferTarget_continue span target) (fun _ other => absurd rfl other)
        fun blocks start returns => routesAll loopTargets pendingFinally inner around _ (around.destination jumps.2) blocks cur
          start returns
    all_goals
      intros
      contradiction
  | .call .., _, _ | .assign .., _, _ | .aggregateAssign .., _, _ | .yield .., _, _ | .await .., _, _ | .lifecycle .., _, _ =>
    walksEvent_plain (fun _ _ => by rw [walkEvent] <;> first | rfl | nofun) (by rw [runs] <;> nofun)
termination_by event => framesSize pendingFinally + 2 * sizeOf event

theorem routesAll (loopTargets : List LoopTargets) : ∀ (pendingFinally : List FinallyFrame) (inner : Nat),
    Surroundings loopTargets pendingFinally inner → ∀ target : BasicBlockId × Nat, target.2 ≤ pendingFinally.length →
      ∀ blocks cur start returns, Holds (viewOf blocks) cur start [] returns → Routes exit pendingFinally target blocks cur start
        (appendFinallyPath exit loopTargets target.1 target.2 pendingFinally blocks cur)
  | [], _, _, target, _, blocks, cur, start, returns, holds => by
    rw [appendFinallyPath]
    exact routes_arrive holds (Nat.zero_le _)
  | frame :: pendingFinally, inner, around, target, _, blocks, cur, start, returns, holds => by
    rw [appendFinallyPath]
    by_cases retained : pendingFinally.length < target.2
    · rw [if_pos retained]
      exact routes_arrive holds retained
    · rw [if_neg retained]
      obtain ⟨stay,inside⟩ := around.frames frame List.mem_cons_self
      have same := runsAll_inside [] (labelsOf loopTargets) frame.events inside
      have lower := holds.lt
      have added := @touches_newBlock blocks s!"finally@{frame.span.start}" .finally
      have placed := @holds_newBlock blocks s!"finally@{frame.span.start}" .finally
      have linked := @touches_link (newBlock blocks s!"finally@{frame.span.start}" .finally) cur blocks.length
      have spanned := @touches_recordSpan (link (newBlock blocks s!"finally@{frame.span.start}" .finally) cur blocks.length)
        blocks.length frame.span
      have builds := walksAll loopTargets pendingFinally 0 around.outside frame.events stay same.2 (recordSpan (link
        (newBlock blocks s!"finally@{frame.span.start}" .finally) cur blocks.length) blocks.length frame.span) blocks.length
      rw [← List.nil_append (labelsOf loopTargets), same.1] at builds
      have enters := ((holds.kept added id).link (List.not_mem_nil : blocks.length ∉ [])).kept spanned id
      refine routes_frame (Nat.le_of_not_lt retained) (contained_of_staysInside inside) lower ?touches ?length enters ?opened
        builds fun opened =>
          routesAll loopTargets pendingFinally 0 around.outside target (Nat.le_of_not_lt retained) _ _ _ _ opened
      case touches => exact (added.extend (linked.trans spanned)).mono fun i _ touched => touched.elim id False.elim
      case length => simp
      case opened => exact (placed.kept linked (by omega)).kept spanned id
termination_by pendingFinally => framesSize pendingFinally

end

end walks

end BonsaiNinja.Cfg
