import BonsaiNinja.Cfg.BuilderPaths

namespace BonsaiNinja.Cfg
open Library LangApi

section statements
variable {exit : Nat} {loopTargets : List LoopTargets} {pendingFinally : List FinallyFrame} {before blocks after last : Blocks}
  {id cur tail : Nat}

theorem emit_builds {event : FlowEvent} {span : Span} : Builds exit loopTargets pendingFinally before cur
    (pushEvent (recordSpan before cur span) cur event) cur (.emit event) := by
  intro opened inner inside
  have spanned : Holds (viewOf (recordSpan before cur span)) cur (stopOf before cur) [] false := by
    rw [viewOf_recordSpan]
    exact opened
  have pushed := spanned.pushEvent event
  refine ⟨⟨?_,.inl rfl,pushed.open⟩,fun view empty shows => ?_⟩
  · exact (touches_recordSpan cur span).extend (touches_pushEvent cur event)
  · rw [pushed.stopOf]
    exact .emit (shows.eventAt (eventAt_pushEvent spanned event))

theorem branch_builds {thenTail elseTail : Nat} {left right : Behaviour FlowEvent}
    (touches : Touches before blocks (· = cur)) (length : blocks.length = before.length + 3)
    (forks : Holds (viewOf blocks) cur (stopOf before cur) [before.length + 1,before.length + 2] false)
    (opened : ∀ i, before.length ≤ i → i < blocks.length → Holds (viewOf blocks) i 0 [] false)
    (thenBuilds : Builds exit loopTargets pendingFinally blocks (before.length + 1) after thenTail left)
    (elseBuilds : Builds exit loopTargets pendingFinally after (before.length + 2) last elseTail right) :
    Builds exit loopTargets pendingFinally before cur (link (link last thenTail before.length) elseTail before.length)
      before.length (left.either right) := by
  intro start inner inside
  have lower := start.lt
  have thenOpen := opened (before.length + 1) (by omega) (by omega)
  have elseOpen := opened (before.length + 2) (by omega) (by omega)
  obtain ⟨thenWalks,thenFollows⟩ := thenBuilds thenOpen.open (by omega) (by omega)
  have longer := thenWalks.touches.length
  have elseOpen' := elseOpen.kept thenWalks.touches (by omega)
  obtain ⟨elseWalks,elseFollows⟩ := elseBuilds elseOpen'.open (by omega) (by omega)
  have longest := elseWalks.touches.length
  have thenFresh := thenWalks.fresh
  have elseFresh := elseWalks.fresh
  have thenInside := thenWalks.opened.lt
  have elseInside := elseWalks.opened.lt
  have links : Touches last (link (link last thenTail before.length) elseTail before.length)
      fun i => i = thenTail ∨ i = elseTail := (touches_link thenTail _).trans (touches_link elseTail _)
  have thenLinked : Holds (viewOf (link (link last thenTail before.length) elseTail before.length)) thenTail
      (stopOf after thenTail) [before.length] false :=
    ((thenWalks.opened.kept elseWalks.touches (by omega)).link (List.not_mem_nil)).kept (touches_link elseTail _) (by omega)
  have elseLinked : Holds (viewOf (link (link last thenTail before.length) elseTail before.length)) elseTail
      (stopOf last elseTail) [before.length] false :=
    (elseWalks.opened.kept (touches_link thenTail _) (by omega)).link (List.not_mem_nil)
  have joined : Holds (viewOf (link (link last thenTail before.length) elseTail before.length)) before.length 0 [] false :=
    (((opened before.length (Nat.le_refl _) (by omega)).kept thenWalks.touches (by omega)).kept elseWalks.touches
      (by omega)).kept links (by omega)
  have forked : Holds (viewOf (link (link last thenTail before.length) elseTail before.length)) cur (stopOf before cur)
      [before.length + 1,before.length + 2] false :=
    ((forks.kept thenWalks.touches (by omega)).kept elseWalks.touches (by omega)).kept links (by omega)
  refine ⟨⟨?_,.inr (Nat.le_refl _),joined.open⟩,fun view empty shows => ?_⟩
  · refine (((touches.trans thenWalks.touches).trans elseWalks.touches).trans links).mono fun i within touched => ?_
    omega
  · rw [joined.stopOf]
    have first := thenFollows view empty (shows.inside (elseWalks.touches.trans links) fun i bound region other => by omega)
    have second := elseFollows view empty (shows.inside links fun i bound region other => by omega)
    rw [thenOpen.stopOf] at first
    rw [elseOpen'.stopOf] at second
    have thenEnds : Ends view exit thenTail (stopOf after thenTail) [before.length] :=
      (shows.holds thenLinked (by omega) (by omega)).ends (by omega) (List.cons_ne_nil _ _)
    have elseEnds : Ends view exit elseTail (stopOf last elseTail) [before.length] :=
      (shows.holds elseLinked (by omega) (by omega)).ends (by omega) (List.cons_ne_nil _ _)
    have curEnds := (shows.holds forked (by omega) (by omega)).ends inner (List.cons_ne_nil _ _)
    exact .either curEnds (first.link thenEnds) (second.link elseEnds)

structure LoopLinks (before : Blocks) (cur stop conditionTail first : Nat) (successors : List Nat) (after : Blocks) : Prop where
  touches : Touches before after fun i => i = cur ∨ i = conditionTail
  enters : Holds (viewOf after) cur stop [first] false
  ends : Holds (viewOf after) conditionTail (stopOf before conditionTail) successors false

theorem loopLinks_holds {stop conditionTail first body after : Nat} (loopKind : LoopKind)
    (enters : Holds (viewOf blocks) cur stop [] false) (opened : Open blocks conditionTail) (apart : cur ≠ conditionTail)
    (differs : after ≠ body) :
    LoopLinks blocks cur stop conditionTail first (body :: if decide (loopKind ≠ .loop) then [after] else [])
      (let linked := link (link (setTerminator blocks conditionTail .loopHeader) cur first) conditionTail body
      if loopKind = .loop then linked else link linked conditionTail after) := by
  have marked := opened.setTerminator .loopHeader
  have entered : Holds (viewOf (link (setTerminator blocks conditionTail .loopHeader) cur first)) cur stop [first] false :=
    (enters.kept (touches_setTerminator conditionTail .loopHeader) apart).link List.not_mem_nil
  have looped : Holds (viewOf (link (link (setTerminator blocks conditionTail .loopHeader) cur first) conditionTail body))
      conditionTail (stopOf blocks conditionTail) [body] false :=
    (marked.kept (touches_link cur first) (Ne.symm apart)).link List.not_mem_nil
  have touches := ((touches_setTerminator conditionTail .loopHeader).trans (touches_link cur first)).trans
    (@touches_link (link (setTerminator blocks conditionTail .loopHeader) cur first) conditionTail body)
  by_cases forever : loopKind = .loop
  · simp only [if_pos forever, decide_eq_false (not_not_intro forever), Bool.false_eq_true, if_false]
    exact ⟨touches.mono fun i _ touched => by omega,entered.kept (touches_link conditionTail body) apart,looped⟩
  · simp only [if_neg forever, decide_eq_true forever, if_true]
    have leaving := looped.link (by simpa using differs : after ∉ [body])
    refine ⟨(touches.trans (touches_link conditionTail after)).mono fun i _ touched => by omega,?_,leaving⟩
    exact (entered.kept (touches_link conditionTail body) apart).kept (touches_link conditionTail after) apart

structure LoopUpdate (exit : Nat) (loopTargets : List LoopTargets) (pendingFinally : List FinallyFrame) (before : Blocks)
    (header entry : Nat) (after : Blocks) (update : Behaviour FlowEvent) : Prop where
  touches : Touches before after fun i => i = entry ∧ entry ≠ header
  follows : ∀ view, ExitEmpty view exit → Shows view before entry after header →
    Follows view exit loopTargets pendingFinally entry 0 update header 0

theorem loopUpdate_none {header : Nat} : LoopUpdate exit loopTargets pendingFinally before header header before .skip where
  touches := Touches.refl.mono fun _ _ => False.elim
  follows _ _ _ := .skip

theorem loopUpdate_walk {header entry : Nat} {update : Behaviour FlowEvent} (opened : Holds (viewOf before) entry 0 [] false)
    (apart : header < entry) (above : exit < header) (builds : Builds exit loopTargets pendingFinally before entry after tail update) :
    LoopUpdate exit loopTargets pendingFinally before header entry (link after tail header) update := by
  have lower := opened.lt
  obtain ⟨walks,follows⟩ := builds opened.open (by omega) (by omega)
  have fresh := walks.fresh
  have linked := walks.opened.link (List.not_mem_nil : header ∉ [])
  constructor
  · exact (walks.touches.trans (touches_link tail header)).mono fun i within touched => by omega
  · intro view empty shows
    have path := follows view empty (shows.inside (touches_link tail header) fun i bound region other => by omega)
    rw [opened.stopOf] at path
    have ends : Ends view exit tail (stopOf after tail) [header] :=
      (shows.holds linked (by omega) (by omega)).ends (by omega) (List.cons_ne_nil _ _)
    exact path.link ends

theorem loop_builds (entryOf : LoopPhase → Nat) {parts : LoopParts FlowEvent} {phase : LoopPhase} {target : LoopTargets}
    {conditionBlocks linked bodyStart bodyBlocks : Blocks} {conditionTail bodyTail : Nat}
    (touches : Touches before blocks fun _ => False) (length : blocks.length = before.length + 3)
    (opened : ∀ i, before.length ≤ i → i < blocks.length → Holds (viewOf blocks) i 0 [] false)
    (entries : entryOf .condition = before.length ∧ entryOf .body = before.length + 1)
    (condition : Builds exit loopTargets pendingFinally blocks before.length conditionBlocks conditionTail parts.condition)
    (links : Holds (viewOf conditionBlocks) cur (stopOf before cur) [] false → Open conditionBlocks conditionTail →
      cur ≠ conditionTail → LoopLinks conditionBlocks cur (stopOf before cur) conditionTail (entryOf phase)
        ((before.length + 1) :: if parts.leaves then [before.length + 2] else []) linked)
    (starts : Touches linked bodyStart fun _ => False)
    (entry : entryOf .update = before.length ∨ linked.length ≤ entryOf .update ∧ Holds (viewOf bodyStart) (entryOf .update) 0 [] false)
    (goals : target.breakTo = before.length + 2 ∧ target.continueTo = entryOf parts.resumes ∧
      target.retainedFinallyDepth = pendingFinally.length)
    (body : Builds exit (target :: loopTargets) pendingFinally bodyStart (before.length + 1) bodyBlocks bodyTail parts.body)
    (updates : before.length < linked.length → (entryOf .update ≠ before.length →
        Holds (viewOf (link bodyBlocks bodyTail (entryOf .update))) (entryOf .update) 0 [] false) →
      LoopUpdate exit (target :: loopTargets) pendingFinally (link bodyBlocks bodyTail (entryOf .update)) before.length
        (entryOf .update) last parts.update) :
    Builds exit loopTargets pendingFinally before cur last (before.length + 2) (Looping parts phase) := by
  intro start inner inside
  have lower := start.lt
  have headerOpen := opened before.length (Nat.le_refl _) (by omega)
  obtain ⟨conditionWalks,conditionFollows⟩ := condition headerOpen.open (by omega) (by omega)
  have conditionFresh := conditionWalks.fresh
  have conditionLonger := conditionWalks.touches.length
  have conditionInside := conditionWalks.opened.lt
  have linkedAll := links ((Holds.kept start touches id).kept conditionWalks.touches (by omega)) conditionWalks.opened (by omega)
  have linkedLonger := linkedAll.touches.length
  have startLonger := starts.length
  have bodyOpen : Holds (viewOf bodyStart) (before.length + 1) 0 [] false :=
    (((opened (before.length + 1) (by omega) (by omega)).kept conditionWalks.touches (by omega)).kept linkedAll.touches
      (by omega)).kept starts id
  have entryInside : entryOf .update = before.length ∨ linked.length ≤ entryOf .update ∧ entryOf .update < bodyStart.length :=
    entry.imp_right fun found => ⟨found.1,found.2.lt⟩
  obtain ⟨bodyWalks,bodyFollows⟩ := body bodyOpen.open (by omega) (by omega)
  have bodyFresh := bodyWalks.fresh
  have bodyLonger := bodyWalks.touches.length
  have bodyInside := bodyWalks.opened.lt
  have repeats := @touches_link bodyBlocks bodyTail (entryOf .update)
  have updated := updates (by omega) fun other => ((entry.resolve_left other).2.kept bodyWalks.touches (by omega)).kept repeats (by omega)
  have later : Touches linked last fun i => i = before.length + 1 ∨ i = bodyTail ∨ i = entryOf .update ∧ entryOf .update ≠ before.length :=
    ((starts.extend bodyWalks.touches).trans (repeats.trans updated.touches)).mono fun i within touched => by omega
  have afterOpen : Holds (viewOf last) (before.length + 2) 0 [] false :=
    (((opened (before.length + 2) (by omega) (by omega)).kept conditionWalks.touches (by omega)).kept linkedAll.touches
      (by omega)).kept later (by omega)
  refine ⟨⟨?_,.inr (by omega),afterOpen.open⟩,fun view empty shows => ?_⟩
  · exact (((touches.extend conditionWalks.touches).trans linkedAll.touches).trans later).mono fun i within touched => by omega
  rw [afterOpen.stopOf]
  have curEnds : Ends view exit cur (stopOf before cur) [entryOf phase] :=
    (shows.holds (linkedAll.enters.kept later (by omega)) (by omega) (by omega)).ends inner (List.cons_ne_nil _ _)
  have conditionPath := conditionFollows view empty
    (shows.inside (linkedAll.touches.trans later) fun i bound region other => by omega)
  have bodyPath := bodyFollows view empty (shows.inside (repeats.trans updated.touches) fun i bound region other => by omega)
  have updatePath := updated.follows view empty ⟨shows.extends_,fun i bound region other => shows.closed i bound (by
    rw [link_length] at region
    omega) (by
    rw [link_length] at region
    omega)⟩
  rw [headerOpen.stopOf] at conditionPath
  rw [bodyOpen.stopOf] at bodyPath
  have afterInner : before.length + 2 ≠ exit := by omega
  have entryInner : ∀ phase, entryOf phase ≠ exit := by
    intro phase
    cases phase <;> omega
  have looping : LoopBlocks view exit loopTargets pendingFinally parts entryOf (before.length + 2) :=
    { target
      conditionTail
      conditionStop := stopOf conditionBlocks conditionTail
      bodyTail
      bodyStop := stopOf bodyBlocks bodyTail
      condition := by rw [entries.1]; exact conditionPath
      ends := by
        rw [entries.2]
        exact (shows.holds (linkedAll.ends.kept later (by omega)) (by omega) (by omega)).ends (by omega) (List.cons_ne_nil _ _)
      body := by rw [entries.2]; exact bodyPath
      repeats := (shows.holds ((bodyWalks.opened.link List.not_mem_nil).kept updated.touches (by omega)) (by omega)
        (by omega)).ends (by omega) (List.cons_ne_nil _ _)
      update := by rw [entries.1]; exact updatePath
      breaks := goals.1
      continues := goals.2.1
      retained := goals.2.2
      inside := ⟨afterInner,entryInner⟩ }
  exact .step curEnds (looping.follows phase)

theorem region_builds {bodyBlocks : Blocks} {bodyTail : Nat} {body : Behaviour FlowEvent} (label : String)
    (kind : SyntheticBlockKind) (touches : Touches before blocks (· = cur)) (length : blocks.length = before.length + 2)
    (enters : Holds (viewOf blocks) cur (stopOf before cur) [before.length] false)
    (anchors : Holds (viewOf blocks) before.length 0 [before.length + 1] false)
    (opened : Holds (viewOf blocks) (before.length + 1) 0 [] false)
    (builds : Builds exit loopTargets pendingFinally blocks (before.length + 1) bodyBlocks bodyTail body) :
    Builds exit loopTargets pendingFinally before cur (link (newBlock bodyBlocks label kind) bodyTail bodyBlocks.length)
      bodyBlocks.length body := by
  intro start inner inside
  have lower := start.lt
  obtain ⟨walks,follows⟩ := builds opened.open (by omega) (by omega)
  have fresh := walks.fresh
  have longer := walks.touches.length
  have within := walks.opened.lt
  have closes : Touches bodyBlocks (link (newBlock bodyBlocks label kind) bodyTail bodyBlocks.length) (· = bodyTail) :=
    (touches_newBlock label kind).extend (touches_link bodyTail _)
  have linked : Holds (viewOf (link (newBlock bodyBlocks label kind) bodyTail bodyBlocks.length)) bodyTail
      (stopOf bodyBlocks bodyTail) [bodyBlocks.length] false :=
    (Holds.kept walks.opened (touches_newBlock label kind) id).link List.not_mem_nil
  have joined : Holds (viewOf (link (newBlock bodyBlocks label kind) bodyTail bodyBlocks.length)) bodyBlocks.length 0 [] false :=
    (holds_newBlock label kind).kept (touches_link bodyTail _) (by omega)
  have later := walks.touches.trans closes
  refine ⟨⟨(touches.trans later).mono fun i _ touched => by omega,.inr (by omega),joined.open⟩,fun view empty shows => ?_⟩
  rw [joined.stopOf]
  have path := follows view empty (shows.inside closes fun i bound region other => by omega)
  rw [opened.stopOf] at path
  have curEnds : Ends view exit cur (stopOf before cur) [before.length] :=
    (shows.holds (enters.kept later (by omega)) (by omega) (by omega)).ends inner (List.cons_ne_nil _ _)
  have anchorEnds : Ends view exit before.length 0 [before.length + 1] :=
    (shows.holds (anchors.kept later (by omega)) (by omega) (by omega)).ends (by omega) (List.cons_ne_nil _ _)
  have bodyEnds : Ends view exit bodyTail (stopOf bodyBlocks bodyTail) [bodyBlocks.length] :=
    (shows.holds linked (by omega) (by omega)).ends (by omega) (List.cons_ne_nil _ _)
  exact .step curEnds (.step anchorEnds (path.link bodyEnds))

theorem handled_builds {bodyBlocks handlerBlocks : Blocks} {bodyTail handlerTail : Nat} {body handler : Behaviour FlowEvent}
    (label : String) (kind : SyntheticBlockKind) (touches : Touches before blocks (· = cur))
    (length : blocks.length = before.length + 3)
    (enters : Holds (viewOf blocks) cur (stopOf before cur) [before.length] false)
    (anchors : Holds (viewOf blocks) before.length 0 [before.length + 1,before.length + 2] false)
    (bodyOpen : Holds (viewOf blocks) (before.length + 1) 0 [] false)
    (handlerOpen : Holds (viewOf blocks) (before.length + 2) 0 [] false)
    (bodyBuilds : Builds exit loopTargets pendingFinally blocks (before.length + 1) bodyBlocks bodyTail body)
    (handlerBuilds : Builds exit loopTargets pendingFinally bodyBlocks (before.length + 2) handlerBlocks handlerTail handler) :
    Builds exit loopTargets pendingFinally before cur
      (link (link (newBlock handlerBlocks label kind) bodyTail handlerBlocks.length) handlerTail handlerBlocks.length)
      handlerBlocks.length (body.either handler) := by
  intro start inner inside
  have lower := start.lt
  obtain ⟨bodyWalks,bodyFollows⟩ := bodyBuilds bodyOpen.open (by omega) (by omega)
  have bodyFresh := bodyWalks.fresh
  have bodyLonger := bodyWalks.touches.length
  have bodyInside := bodyWalks.opened.lt
  have handlerOpen' := handlerOpen.kept bodyWalks.touches (by omega)
  obtain ⟨handlerWalks,handlerFollows⟩ := handlerBuilds handlerOpen'.open (by omega) (by omega)
  have handlerFresh := handlerWalks.fresh
  have handlerLonger := handlerWalks.touches.length
  have handlerInside := handlerWalks.opened.lt
  have added := @touches_newBlock handlerBlocks label kind
  have links : Touches (newBlock handlerBlocks label kind)
      (link (link (newBlock handlerBlocks label kind) bodyTail handlerBlocks.length) handlerTail handlerBlocks.length)
      fun i => i = bodyTail ∨ i = handlerTail := (touches_link bodyTail _).trans (touches_link handlerTail _)
  have closes := added.extend links
  have bodyLinked : Holds (viewOf (link (link (newBlock handlerBlocks label kind) bodyTail handlerBlocks.length) handlerTail
      handlerBlocks.length)) bodyTail (stopOf bodyBlocks bodyTail) [handlerBlocks.length] false :=
    (((bodyWalks.opened.kept handlerWalks.touches (by omega)).kept added id).link List.not_mem_nil).kept
      (touches_link handlerTail _) (by omega)
  have handlerLinked : Holds (viewOf (link (link (newBlock handlerBlocks label kind) bodyTail handlerBlocks.length) handlerTail
      handlerBlocks.length)) handlerTail (stopOf handlerBlocks handlerTail) [handlerBlocks.length] false :=
    ((Holds.kept handlerWalks.opened added id).kept (touches_link bodyTail _) (by omega)).link List.not_mem_nil
  have joined := (@holds_newBlock handlerBlocks label kind).kept links (by omega)
  have later := (bodyWalks.touches.trans handlerWalks.touches).trans closes
  refine ⟨⟨(touches.trans later).mono fun i _ touched => by omega,.inr (by omega),joined.open⟩,fun view empty shows => ?_⟩
  rw [joined.stopOf]
  have first := bodyFollows view empty
    (shows.inside (handlerWalks.touches.trans closes) fun i bound region other => by omega)
  have second := handlerFollows view empty (shows.inside closes fun i bound region other => by omega)
  rw [bodyOpen.stopOf] at first
  rw [handlerOpen'.stopOf] at second
  have curEnds : Ends view exit cur (stopOf before cur) [before.length] :=
    (shows.holds (enters.kept later (by omega)) (by omega) (by omega)).ends inner (List.cons_ne_nil _ _)
  have anchorEnds : Ends view exit before.length 0 [before.length + 1,before.length + 2] :=
    (shows.holds (anchors.kept later (by omega)) (by omega) (by omega)).ends (by omega) (List.cons_ne_nil _ _)
  have bodyEnds : Ends view exit bodyTail (stopOf bodyBlocks bodyTail) [handlerBlocks.length] :=
    (shows.holds bodyLinked (by omega) (by omega)).ends (by omega) (List.cons_ne_nil _ _)
  have handlerEnds : Ends view exit handlerTail (stopOf handlerBlocks handlerTail) [handlerBlocks.length] :=
    (shows.holds handlerLinked (by omega) (by omega)).ends (by omega) (List.cons_ne_nil _ _)
  exact .step curEnds (.either anchorEnds (first.link bodyEnds) (second.link handlerEnds))

theorem andFinally_builds (frame : FinallyFrame) {middle : Nat} {region cleanup : Behaviour FlowEvent}
    (same : cleanup = runsAll [] frame.events) (contained : Contained cleanup)
    (reaches : ∀ trace outcome, region trace outcome → (destination exit loopTargets outcome).2 ≤ pendingFinally.length)
    (builds : Builds exit loopTargets (frame :: pendingFinally) before cur blocks middle region)
    (finallyBuilds : Builds exit loopTargets pendingFinally blocks middle after tail cleanup) :
    Builds exit loopTargets pendingFinally before cur after tail (region.andFinally cleanup) := by
  intro opened inner inside
  obtain ⟨walks,follows⟩ := builds opened inner inside
  have longer := walks.touches.length
  have inner' : middle ≠ exit := by
    have fresh := walks.fresh
    omega
  obtain ⟨walks',follows'⟩ := finallyBuilds walks.opened inner' (by omega)
  refine ⟨walks.trans walks',fun view empty shows => ?_⟩
  exact .andFinally same contained reaches (follows view empty (shows.earlier walks'))
    (follows' view empty (shows.later walks))

end statements

-- What the blocks behind an abrupt event build: in every finished graph its paths
-- leave for the destination.
def Routes (exit : Nat) (pendingFinally : List FinallyFrame) (target : BasicBlockId × Nat) (before : Blocks) (id start : Nat)
    (after : Blocks) : Prop :=
  id ≠ exit → exit < before.length → Touches before after (· = id) ∧ ∀ view, ExitEmpty view exit →
    Shows view before id after after.length → Leaving view exit pendingFinally id start target

section transfers
variable {exit : Nat} {loopTargets : List LoopTargets} {pendingFinally : List FinallyFrame} {before blocks after : Blocks}
  {id cur start : Nat} {returns : Bool} {target : BasicBlockId × Nat}

theorem routes_halt (holds : Holds (viewOf before) id start [] true) : Routes exit [] (exit,0) before id start before := by
  intro inner inside
  refine ⟨Touches.refl.mono fun _ _ => False.elim,fun view empty shows => ?_⟩
  have lower := holds.lt
  exact .halt empty (shows.holds holds (.inl rfl) (by omega)).stops

theorem routes_arrive (holds : Holds (viewOf before) id start [] returns) (retained : pendingFinally.length ≤ target.2) :
    Routes exit pendingFinally target before id start (link before id target.1) := by
  intro inner inside
  refine ⟨touches_link id target.1,fun view empty shows => ?_⟩
  have lower := holds.lt
  have linked := holds.link (List.not_mem_nil : target.1 ∉ [])
  refine .arrive empty ((shows.holds linked (.inl rfl) ?_).ends inner (List.cons_ne_nil _ _)) retained
  rw [link_length]
  omega

-- A copy of a pending finally body, then the way on from its end.
theorem routes_frame {frame : FinallyFrame} {entered walked : Blocks}
    (left : target.2 ≤ pendingFinally.length) (contained : Contained (runsAll [] frame.events))
    (lower : id < before.length) (touches : Touches before entered (· = id)) (length : entered.length = before.length + 1)
    (enters : Holds (viewOf entered) id start [before.length] returns)
    (opened : Holds (viewOf entered) before.length 0 [] false)
    (builds : Builds exit loopTargets pendingFinally entered before.length walked cur (runsAll [] frame.events))
    (routes : Open walked cur → Routes exit pendingFinally target walked cur (stopOf walked cur) after) :
    Routes exit (frame :: pendingFinally) target before id start after := by
  intro inner inside
  obtain ⟨walks,follows⟩ := builds opened.open (by omega) (by omega)
  have fresh := walks.fresh
  have longer := walks.touches.length
  have within := walks.opened.lt
  obtain ⟨closes,leaving⟩ := routes walks.opened (by omega) (by omega)
  have longest := closes.length
  have later := walks.touches.trans closes
  refine ⟨(touches.trans later).mono fun i bound touched => by omega,fun view empty shows => ?_⟩
  have ends : Ends view exit id start [before.length] :=
    (shows.holds (enters.kept later (by omega)) (.inl rfl) (by omega)).ends inner (List.cons_ne_nil _ _)
  have path := follows view empty (shows.inside closes fun i bound region other => by omega)
  rw [opened.stopOf] at path
  have rest := leaving view empty ⟨shows.extends_,fun i bound region other => shows.closed i bound (by omega) other⟩
  exact .frame ends left contained path rest

theorem leave_builds {event : FlowEvent} {outcome : Outcome} (label : String) (kind : SyntheticBlockKind)
    (touches : Touches before blocks (· = cur)) (length : blocks.length = before.length)
    (at_ : EventAt (viewOf blocks) cur (stopOf before cur) event) (abrupt : outcome ≠ .normal)
    (routes : Routes exit pendingFinally (destination exit loopTargets outcome) blocks cur (stopOf before cur + 1) after) :
    Builds exit loopTargets pendingFinally before cur (setTerminator (newBlock after label kind) after.length .unreachable)
      after.length (.leave event outcome) := by
  intro opened inner inside
  obtain ⟨closes,leaving⟩ := routes inner (by omega)
  have longer := closes.length
  have lower := opened.lt
  have added : Touches after (setTerminator (newBlock after label kind) after.length .unreachable) fun _ => False :=
    ((touches_newBlock label kind).trans (touches_setTerminator after.length .unreachable)).mono fun i within touched => by
      have above := touched.resolve_left id
      omega
  have dead := (@holds_newBlock after label kind).setTerminator .unreachable
  refine ⟨⟨?_,.inr (by omega),dead.open⟩,fun view empty shows => ?_⟩
  · exact ((touches.trans closes).trans added).mono fun i within touched => by
      rcases touched with changed | impossible
      · exact changed.elim id id
      · exact impossible.elim
  have placed : EventAt view cur (stopOf before cur) event := by
    obtain ⟨node,found,present⟩ := at_
    obtain ⟨later,found',⟨rest,same⟩⟩ := (closes.trans added).events cur node found
    refine shows.eventAt ⟨later,found',?_⟩
    obtain ⟨bound,equal⟩ := List.getElem?_eq_some_iff.mp present
    rw [← same, List.getElem?_append_left bound]
    exact present
  exact .leave placed abrupt (leaving view empty (shows.inside added fun i bound region other => ⟨by omega,by omega,id⟩))

end transfers

end BonsaiNinja.Cfg
