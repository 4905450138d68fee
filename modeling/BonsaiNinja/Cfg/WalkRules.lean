import BonsaiNinja.Cfg.BuiltPaths

namespace BonsaiNinja.Cfg
open Library LangApi

-- The leaf events of a tree in the order of its fields. An occurrence of an event
-- is a position in this list.
mutual

def leaves : FlowEvent → List FlowEvent
  | .branch _ _ thenEvents elseEvents => leavesAll thenEvents ++ leavesAll elseEvents
  | .loop _ _ _ conditionEvents updateEvents body => leavesAll conditionEvents ++ leavesAll updateEvents ++ leavesAll body
  | .try _ body catchEvents finallyEvents _ _ _ => leavesAll body ++ leavesAll catchEvents ++ leavesAll finallyEvents
  | .defer _ body | .using _ body => leavesAll body
  | event => [event]

def leavesAll : List FlowEvent → List FlowEvent
  | [] => []
  | event :: events => leaves event ++ leavesAll events

end

def leafCount (events : List FlowEvent) : Nat := (leavesAll events).length

def plain : FlowEvent → Bool
  | .call .. | .assign .. | .aggregateAssign .. | .yield .. | .await .. | .lifecycle .. => true
  | _ => false

-- A pending finally body, where its occurrences begin and the loops around it.
structure Cleanup (Loop : Type) where
  frame : FinallyFrame
  offset : Nat
  scope : List Loop

abbrev framesOf {Loop : Type} (cleanups : List (Cleanup Loop)) : List FinallyFrame := cleanups.map (·.frame)

-- One event as the walk places it. The walk resolves transfers among `loops`; the
-- loops around the event in the program are `scope`. A transfer arrives from
-- `source`, behind the finally bodies that it runs.
structure Placement where
  occurrence : Nat
  event : FlowEvent
  block : BasicBlockId
  loops : List LoopTargets
  scope : List LoopTargets
  source : BasicBlockId

-- The steps of the walk, each on the block that it works on.
section steps
variable (blocks : Blocks) (cur : BasicBlockId) (span : Span)

def forkBranch : Blocks :=
  let blocks := setTerminator (recordSpan blocks cur span) cur .branch
  let three := newBlock (newBlock (newBlock blocks s!"join@{span.start}" .branchJoin) s!"then@{span.start}" .branchThen)
    s!"else@{span.start}" .branchElse
  link (link three cur (blocks.length + 1)) cur (blocks.length + 2)

def enterLoop : Blocks :=
  newBlock (newBlock (newBlock (recordSpan blocks cur span) s!"loop-header@{span.start}" .loopHeader)
    s!"loop-body@{span.start}" .loopBody) s!"loop-after@{span.start}" .loopAfter

def linkLoop (conditionTail header : BasicBlockId) (loopKind : LoopKind) : Blocks :=
  let blocks := setTerminator blocks conditionTail .loopHeader
  let blocks := link blocks cur (if loopKind = .doWhile then header + 1 else header)
  let blocks := link blocks conditionTail (header + 1)
  if loopKind = .loop then blocks else link blocks conditionTail (header + 2)

def enterTry : Blocks :=
  let blocks := recordSpan blocks cur span
  let anchor := blocks.length
  let blocks := recordSpan (link (newBlock blocks s!"try_fork@{span.start}" .tryFork) cur anchor) anchor span
  link (newBlock blocks s!"try@{span.start}" .tryBody) anchor (anchor + 1)

def enterCatch (anchor : BasicBlockId) : Blocks :=
  setTerminator (link (newBlock blocks s!"catch@{span.start}" .catch) anchor blocks.length) anchor .tryFork

def joinFinally : Blocks := link (newBlock blocks s!"finally@{span.start}" .finally) cur blocks.length

def enterFinally : Blocks := recordSpan (joinFinally blocks cur span) blocks.length span

def markAbrupt (event : FlowEvent) (terminator : Terminator) : Blocks :=
  pushEvent (setTerminator (recordSpan blocks cur (eventSpan event)) cur terminator) cur event

def addDead : Blocks := setTerminator (newBlock blocks "unreachable" .unreachable) blocks.length .unreachable

end steps

def pathTail (exit : BasicBlockId) (loops : List LoopTargets) (retainedFinallyDepth : Nat) :
    List FinallyFrame → Blocks → BasicBlockId → BasicBlockId
  | [], _, cur => cur
  | frame :: pendingFinally, blocks, cur =>
    if pendingFinally.length < retainedFinallyDepth then cur
    else
      let walked := walkWithFinally exit loops pendingFinally frame.events (enterFinally blocks cur frame.span) blocks.length
      pathTail exit loops retainedFinallyDepth pendingFinally walked.1 walked.2

-- Where the walk places the events of a tree, in the order in which it does.
mutual

def placeAll (exit : BasicBlockId) (loops scope : List LoopTargets) (cleanups : List (Cleanup LoopTargets)) (offset : Nat) :
    List FlowEvent → Blocks → BasicBlockId → List Placement
  | [], _, _ => []
  | event :: events, blocks, cur =>
    let walked := walkEvent exit loops (framesOf cleanups) event blocks cur
    placeEvent exit loops scope cleanups offset event blocks cur ++
      placeAll exit loops scope cleanups (offset + (leaves event).length) events walked.1 walked.2
termination_by events => framesSize (framesOf cleanups) + 2 * sizeOf events

def placeEvent (exit : BasicBlockId) (loops scope : List LoopTargets) (cleanups : List (Cleanup LoopTargets)) (offset : Nat)
    (event : FlowEvent) (blocks : Blocks) (cur : BasicBlockId) : List Placement :=
  let frames := framesOf cleanups
  match event with
  | .branch span _ thenEvents elseEvents =>
    let forked := forkBranch blocks cur span
    let walked := walkWithFinally exit loops frames thenEvents forked (blocks.length + 1)
    placeAll exit loops scope cleanups offset thenEvents forked (blocks.length + 1) ++
      placeAll exit loops scope cleanups (offset + leafCount thenEvents) elseEvents walked.1 (blocks.length + 2)
  | .loop span loopKind label conditionEvents updateEvents body =>
    let header := blocks.length
    let entered := enterLoop blocks cur span
    let condition := walkWithFinally exit loops frames conditionEvents entered header
    let linked := linkLoop condition.1 cur condition.2 header loopKind
    let updateEntry := if updateEvents.isEmpty then header else linked.length
    let ready := if updateEvents.isEmpty then linked else newBlock linked s!"loop-update@{span.start}" .loopUpdate
    let target := ⟨label,header + 2,if loopKind = .doWhile then header else updateEntry,cleanups.length⟩
    let walked := walkWithFinally exit (target :: loops) frames body ready (header + 1)
    placeAll exit loops scope cleanups offset conditionEvents entered header ++
      placeAll exit (target :: loops) (target :: scope) cleanups (offset + leafCount conditionEvents + leafCount updateEvents)
        body ready (header + 1) ++
      placeAll exit (target :: loops) (target :: scope) cleanups (offset + leafCount conditionEvents) updateEvents
        (link walked.1 walked.2 updateEntry) updateEntry
  | .try span body catchEvents finallyEvents catchParam catchTypes catchArms =>
    let anchor := blocks.length
    let caught := hasCatch catchEvents catchParam catchTypes catchArms
    let entered := if caught then enterCatch (enterTry blocks cur span) span anchor else enterTry blocks cur span
    let frame := ⟨span,finallyEvents⟩
    let inner := ⟨frame,offset + leafCount body + leafCount catchEvents,scope⟩ :: cleanups
    let walked := walkWithFinally exit loops (frame :: frames) body entered (anchor + 1)
    let handled := if caught then walkWithFinally exit loops (frame :: frames) catchEvents walked.1 (anchor + 2)
      else (walked.1,anchor + 2)
    let joined := joinFinally handled.1 walked.2 span
    let joined := if caught then link joined handled.2 handled.1.length else joined
    placeAll exit loops scope inner offset body entered (anchor + 1) ++
      (if caught then placeAll exit loops scope inner (offset + leafCount body) catchEvents walked.1 (anchor + 2) else []) ++
      placeAll exit loops scope cleanups (offset + leafCount body + leafCount catchEvents) finallyEvents joined handled.1.length
  | .defer _ body | .using _ body => placeAll exit loops scope cleanups offset body blocks cur
  | event =>
    match terminatorOf event with
    | none => [⟨offset,event,cur,loops,scope,cur⟩]
    | some terminator =>
      let target := controlTransferTarget event loops exit
      let marked := markAbrupt blocks cur event terminator
      if cleanups.length = target.2 then [⟨offset,event,cur,loops,scope,cur⟩]
      else ⟨offset,event,cur,loops,scope,pathTail exit loops target.2 frames marked cur⟩ ::
        placePath exit loops target.2 cleanups marked cur
termination_by framesSize (framesOf cleanups) + 2 * sizeOf event
decreasing_by
  all_goals first
    | decreasing_tactic
    | have positive := event_size_pos event
      omega

def placePath (exit : BasicBlockId) (loops : List LoopTargets) (retainedFinallyDepth : Nat) :
    List (Cleanup LoopTargets) → Blocks → BasicBlockId → List Placement
  | [], _, _ => []
  | cleanup :: cleanups, blocks, cur =>
    if cleanups.length < retainedFinallyDepth then []
    else
      let entered := enterFinally blocks cur cleanup.frame.span
      let walked := walkWithFinally exit loops (framesOf cleanups) cleanup.frame.events entered blocks.length
      placeAll exit loops cleanup.scope cleanups cleanup.offset cleanup.frame.events entered blocks.length ++
        placePath exit loops retainedFinallyDepth cleanups walked.1 walked.2
termination_by cleanups => framesSize (framesOf cleanups)

end

-- What a step of the walk works on: a list of events, one event, or the way of a
-- transfer through the pending finally bodies.
inductive Task where
  | all (offset : Nat) (events : List FlowEvent)
  | one (offset : Nat) (event : FlowEvent)
  | path (target : BasicBlockId × Nat)

-- The walk as rules: the blocks and the block it starts on, those it ends with, and
-- the placements in between.
inductive Walked (exit : BasicBlockId) : List LoopTargets → List LoopTargets → List (Cleanup LoopTargets) → Task → Blocks → BasicBlockId →
    Blocks → BasicBlockId → List Placement → Prop
  | none {loops scope cleanups offset blocks cur} : Walked exit loops scope cleanups (.all offset []) blocks cur blocks cur []
  | next {loops scope cleanups offset event events blocks cur middle tail last final placed placed'} :
    Walked exit loops scope cleanups (.one offset event) blocks cur middle tail placed →
    Walked exit loops scope cleanups (.all (offset + (leaves event).length) events) middle tail last final placed' →
    Walked exit loops scope cleanups (.all offset (event :: events)) blocks cur last final (placed ++ placed')
  | plain {loops scope cleanups offset event blocks cur} : plain event = true →
    Walked exit loops scope cleanups (.one offset event) blocks cur (pushEvent (recordSpan blocks cur (eventSpan event)) cur event)
      cur [⟨offset,event,cur,loops,scope,cur⟩]
  | arrive {loops scope cleanups offset event terminator blocks cur} : terminatorOf event = some terminator →
    cleanups.length = (controlTransferTarget event loops exit).2 →
    Walked exit loops scope cleanups (.one offset event) blocks cur
      (addDead (if terminator = .break ∨ terminator = .continue then
        link (markAbrupt blocks cur event terminator) cur (controlTransferTarget event loops exit).1
        else markAbrupt blocks cur event terminator))
      blocks.length [⟨offset,event,cur,loops,scope,cur⟩]
  | leave {loops scope cleanups offset event terminator blocks cur last source placed} : terminatorOf event = some terminator →
    cleanups.length ≠ (controlTransferTarget event loops exit).2 →
    Walked exit loops scope cleanups (.path (controlTransferTarget event loops exit)) (markAbrupt blocks cur event terminator) cur
      last source placed →
    Walked exit loops scope cleanups (.one offset event) blocks cur (addDead last) last.length
      (⟨offset,event,cur,loops,scope,source⟩ :: placed)
  | branch {loops scope cleanups offset span condition thenEvents elseEvents blocks cur middle thenTail last elseTail placed
      placed'} :
    Walked exit loops scope cleanups (.all offset thenEvents) (forkBranch blocks cur span) (blocks.length + 1) middle thenTail
      placed →
    Walked exit loops scope cleanups (.all (offset + leafCount thenEvents) elseEvents) middle (blocks.length + 2) last elseTail
      placed' →
    Walked exit loops scope cleanups (.one offset (.branch span condition thenEvents elseEvents)) blocks cur
      (link (link last thenTail blocks.length) elseTail blocks.length) blocks.length (placed ++ placed')
  | loop {loops scope cleanups offset span loopKind label conditionEvents body blocks cur tested conditionTail target last bodyTail
      placed placed'} :
    Walked exit loops scope cleanups (.all offset conditionEvents) (enterLoop blocks cur span) blocks.length tested conditionTail
      placed →
    target = ⟨label,blocks.length + 2,blocks.length,cleanups.length⟩ →
    Walked exit (target :: loops) (target :: scope) cleanups (.all (offset + leafCount conditionEvents) body)
      (linkLoop tested cur conditionTail blocks.length loopKind) (blocks.length + 1) last bodyTail placed' →
    Walked exit loops scope cleanups (.one offset (.loop span loopKind label conditionEvents [] body)) blocks cur
      (link last bodyTail blocks.length) (blocks.length + 2) (placed ++ placed')
  | update {loops scope cleanups offset span loopKind label conditionEvents updateEvents body blocks cur tested conditionTail linked
      target middle bodyTail last updateTail placed placed' placed''} : updateEvents ≠ [] →
    Walked exit loops scope cleanups (.all offset conditionEvents) (enterLoop blocks cur span) blocks.length tested conditionTail
      placed →
    linked = linkLoop tested cur conditionTail blocks.length loopKind →
    target = ⟨label,blocks.length + 2,if loopKind = .doWhile then blocks.length else linked.length,cleanups.length⟩ →
    Walked exit (target :: loops) (target :: scope) cleanups
      (.all (offset + leafCount conditionEvents + leafCount updateEvents) body)
      (newBlock linked s!"loop-update@{span.start}" .loopUpdate) (blocks.length + 1) middle bodyTail placed' →
    Walked exit (target :: loops) (target :: scope) cleanups (.all (offset + leafCount conditionEvents) updateEvents)
      (link middle bodyTail linked.length) linked.length last updateTail placed'' →
    Walked exit loops scope cleanups (.one offset (.loop span loopKind label conditionEvents updateEvents body)) blocks cur
      (link last updateTail blocks.length) (blocks.length + 2) (placed ++ placed' ++ placed'')
  | try {loops scope cleanups offset span body catchEvents finallyEvents catchParam catchTypes catchArms blocks cur middle bodyTail
      last final placed placed'} : hasCatch catchEvents catchParam catchTypes catchArms = false →
    Walked exit loops scope (⟨⟨span,finallyEvents⟩,offset + leafCount body + leafCount catchEvents,scope⟩ :: cleanups)
      (.all offset body) (enterTry blocks cur span) (blocks.length + 1) middle bodyTail placed →
    Walked exit loops scope cleanups (.all (offset + leafCount body + leafCount catchEvents) finallyEvents)
      (joinFinally middle bodyTail span) middle.length last final placed' →
    Walked exit loops scope cleanups (.one offset (.try span body catchEvents finallyEvents catchParam catchTypes catchArms)) blocks
      cur last final (placed ++ placed')
  | handle {loops scope cleanups offset span body catchEvents finallyEvents catchParam catchTypes catchArms blocks cur middle bodyTail
      handled catchTail last final placed placed' placed''} : hasCatch catchEvents catchParam catchTypes catchArms = true →
    Walked exit loops scope (⟨⟨span,finallyEvents⟩,offset + leafCount body + leafCount catchEvents,scope⟩ :: cleanups)
      (.all offset body) (enterCatch (enterTry blocks cur span) span blocks.length) (blocks.length + 1) middle bodyTail placed →
    Walked exit loops scope (⟨⟨span,finallyEvents⟩,offset + leafCount body + leafCount catchEvents,scope⟩ :: cleanups)
      (.all (offset + leafCount body) catchEvents) middle (blocks.length + 2) handled catchTail placed' →
    Walked exit loops scope cleanups (.all (offset + leafCount body + leafCount catchEvents) finallyEvents)
      (link (joinFinally handled bodyTail span) catchTail handled.length) handled.length last final placed'' →
    Walked exit loops scope cleanups (.one offset (.try span body catchEvents finallyEvents catchParam catchTypes catchArms)) blocks
      cur last final (placed ++ placed' ++ placed'')
  | block {loops scope cleanups offset event body blocks cur last tail placed} :
    (∃ span, event = .defer span body ∨ event = .using span body) →
    Walked exit loops scope cleanups (.all offset body) blocks cur last tail placed →
    Walked exit loops scope cleanups (.one offset event) blocks cur last tail placed
  | reached {loops scope cleanups target blocks cur} : cleanups.length ≤ target.2 →
    Walked exit loops scope cleanups (.path target) blocks cur (link blocks cur target.1) cur []
  | through {loops scope cleanup cleanups target blocks cur middle tail last source placed placed'} :
    target.2 ≤ cleanups.length →
    Walked exit loops cleanup.scope cleanups (.all cleanup.offset cleanup.frame.events)
      (enterFinally blocks cur cleanup.frame.span) blocks.length middle tail placed →
    Walked exit loops scope cleanups (.path target) middle tail last source placed' →
    Walked exit loops scope (cleanup :: cleanups) (.path target) blocks cur last source (placed ++ placed')

section walked
variable {exit : BasicBlockId} {blocks : Blocks} {cur : BasicBlockId} {span : Span}

@[simp] theorem forkBranch_length : (forkBranch blocks cur span).length = blocks.length + 3 := by simp [forkBranch]

@[simp] theorem enterLoop_length : (enterLoop blocks cur span).length = blocks.length + 3 := by simp [enterLoop]

@[simp] theorem linkLoop_length {conditionTail header : BasicBlockId} {loopKind : LoopKind} :
    (linkLoop blocks cur conditionTail header loopKind).length = blocks.length := by
  unfold linkLoop
  dsimp only
  split <;> simp

@[simp] theorem enterTry_length : (enterTry blocks cur span).length = blocks.length + 2 := by simp [enterTry]

@[simp] theorem enterCatch_length {anchor : BasicBlockId} : (enterCatch blocks span anchor).length = blocks.length + 1 := by
  simp [enterCatch]

@[simp] theorem joinFinally_length : (joinFinally blocks cur span).length = blocks.length + 1 := by simp [joinFinally]

@[simp] theorem enterFinally_length : (enterFinally blocks cur span).length = blocks.length + 1 := by simp [enterFinally]

@[simp] theorem markAbrupt_length {event : FlowEvent} {terminator : Terminator} :
    (markAbrupt blocks cur event terminator).length = blocks.length := by simp [markAbrupt]

@[simp] theorem addDead_length : (addDead blocks).length = blocks.length + 1 := by simp [addDead]

end walked

-- The builder in terms of its steps.
section equations
variable {exit : BasicBlockId} {loops : List LoopTargets} {frames : List FinallyFrame} {span : Span} {blocks : Blocks}
  {cur : BasicBlockId}

theorem walkEvent_branch {condition : Option Text} {thenEvents elseEvents : List FlowEvent} :
    walkEvent exit loops frames (.branch span condition thenEvents elseEvents) blocks cur =
      let first := walkWithFinally exit loops frames thenEvents (forkBranch blocks cur span) (blocks.length + 1)
      let second := walkWithFinally exit loops frames elseEvents first.1 (blocks.length + 2)
      (link (link second.1 first.2 blocks.length) second.2 blocks.length,blocks.length) := by
  rw [walkEvent]
  simp only [forkBranch, newBlock_length, setTerminator_length, recordSpan_length]

theorem walkEvent_loop {loopKind : LoopKind} {label : Option Text} {conditionEvents updateEvents body : List FlowEvent} :
    walkEvent exit loops frames (.loop span loopKind label conditionEvents updateEvents body) blocks cur =
      let condition := walkWithFinally exit loops frames conditionEvents (enterLoop blocks cur span) blocks.length
      let linked := linkLoop condition.1 cur condition.2 blocks.length loopKind
      let updateEntry := if updateEvents.isEmpty then blocks.length else linked.length
      let ready := if updateEvents.isEmpty then linked else newBlock linked s!"loop-update@{span.start}" .loopUpdate
      let target := ⟨label,blocks.length + 2,if loopKind = .doWhile then blocks.length else updateEntry,frames.length⟩
      let walked := walkWithFinally exit (target :: loops) frames body ready (blocks.length + 1)
      let joined := link walked.1 walked.2 updateEntry
      let updated := walkWithFinally exit (target :: loops) frames updateEvents joined updateEntry
      (if updateEvents.isEmpty then joined else link updated.1 updated.2 blocks.length,blocks.length + 2) := by
  rw [walkEvent]
  simp only [enterLoop, linkLoop, newBlock_length, recordSpan_length]
  cases updateEvents.isEmpty with
  | false => simp only [Bool.false_eq_true, if_false]
  | true => simp only [if_true]

theorem walkEvent_try {body catchEvents finallyEvents : List FlowEvent} {catchParam : Option Text} {catchTypes : List Text}
    {catchArms : List CatchArmFact} :
    walkEvent exit loops frames (.try span body catchEvents finallyEvents catchParam catchTypes catchArms) blocks cur =
      let caught := hasCatch catchEvents catchParam catchTypes catchArms
      let entered := if caught then enterCatch (enterTry blocks cur span) span blocks.length else enterTry blocks cur span
      let inner := ⟨span,finallyEvents⟩ :: frames
      let walked := walkWithFinally exit loops inner body entered (blocks.length + 1)
      let handled := if caught then walkWithFinally exit loops inner catchEvents walked.1 (blocks.length + 2)
        else (walked.1,blocks.length + 2)
      let joined := joinFinally handled.1 walked.2 span
      let joined := if caught then link joined handled.2 handled.1.length else joined
      walkWithFinally exit loops frames finallyEvents joined handled.1.length := by
  rw [walkEvent]
  simp only [enterCatch, enterTry, joinFinally, newBlock_length, recordSpan_length, link_length]

theorem walkEvent_plain {event : FlowEvent} (simple : plain event = true) :
    walkEvent exit loops frames event blocks cur = (pushEvent (recordSpan blocks cur (eventSpan event)) cur event,cur) := by
  cases event with
  | call | assign | aggregateAssign | yield | await | lifecycle =>
    rw [walkEvent]
    · rfl
    all_goals
      intros
      contradiction
  | branch | loop | «return» | throw | «try» | «break» | «continue» | defer | «using» => cases simple

theorem walkEvent_abrupt {event : FlowEvent} {terminator : Terminator} (abrupt : terminatorOf event = some terminator) :
    walkEvent exit loops frames event blocks cur =
      let target := controlTransferTarget event loops exit
      let marked := markAbrupt blocks cur event terminator
      let routed := if frames.length = target.2 then
          if terminator = .break ∨ terminator = .continue then link marked cur target.1 else marked
        else appendFinallyPath exit loops target.1 target.2 frames marked cur
      (addDead routed,routed.length) := by
  cases event with
  | «return» | throw | «break» | «continue» =>
    cases abrupt
    rw [walkEvent]
    · rfl
    all_goals
      intros
      contradiction
  | call | assign | aggregateAssign | yield | await | lifecycle | branch | loop | «try» | defer | «using» => cases abrupt

theorem placeEvent_abrupt {scope : List LoopTargets} {cleanups : List (Cleanup LoopTargets)} {offset : Nat} {event : FlowEvent}
    {terminator : Terminator} (abrupt : terminatorOf event = some terminator) :
    placeEvent exit loops scope cleanups offset event blocks cur =
      let target := controlTransferTarget event loops exit
      let marked := markAbrupt blocks cur event terminator
      if cleanups.length = target.2 then [⟨offset,event,cur,loops,scope,cur⟩]
      else ⟨offset,event,cur,loops,scope,pathTail exit loops target.2 (framesOf cleanups) marked cur⟩ ::
        placePath exit loops target.2 cleanups marked cur := by
  cases event with
  | «return» | throw | «break» | «continue» =>
    cases abrupt
    rw [placeEvent]
    · rfl
    all_goals
      intros
      contradiction
  | call | assign | aggregateAssign | yield | await | lifecycle | branch | loop | «try» | defer | «using» => cases abrupt

end equations

-- The rules describe the builder.
section walks
variable {exit : BasicBlockId}

mutual

theorem walked_all (loops scope : List LoopTargets) (cleanups : List (Cleanup LoopTargets)) : ∀ offset events blocks cur,
    Walked exit loops scope cleanups (.all offset events) blocks cur
      (walkWithFinally exit loops (framesOf cleanups) events blocks cur).1
      (walkWithFinally exit loops (framesOf cleanups) events blocks cur).2
      (placeAll exit loops scope cleanups offset events blocks cur)
  | offset, [], blocks, cur => by
    rw [walkWithFinally, placeAll]
    exact .none
  | offset, event :: events, blocks, cur => by
    rw [walkWithFinally, placeAll]
    exact .next (walked_one loops scope cleanups offset event blocks cur) (walked_all loops scope cleanups _ events _ _)
termination_by _ events => framesSize (framesOf cleanups) + 2 * sizeOf events

theorem walked_one (loops scope : List LoopTargets) (cleanups : List (Cleanup LoopTargets)) : ∀ offset event blocks cur,
    Walked exit loops scope cleanups (.one offset event) blocks cur
      (walkEvent exit loops (framesOf cleanups) event blocks cur).1
      (walkEvent exit loops (framesOf cleanups) event blocks cur).2
      (placeEvent exit loops scope cleanups offset event blocks cur)
  | offset, .branch span condition thenEvents elseEvents, blocks, cur => by
    rw [walkEvent_branch, placeEvent]
    exact .branch (walked_all loops scope cleanups offset thenEvents _ _) (walked_all loops scope cleanups _ elseEvents _ _)
  | offset, .loop span loopKind label conditionEvents updateEvents body, blocks, cur => by
    rw [walkEvent_loop, placeEvent]
    cases updateEvents with
    | nil =>
      simp only [List.isEmpty_nil, if_true, ite_self, placeAll, List.append_nil, List.length_map]
      exact .loop (walked_all loops scope cleanups offset conditionEvents _ _) rfl (walked_all _ _ cleanups _ body _ _)
    | cons event events =>
      simp only [List.isEmpty_cons, Bool.false_eq_true, if_false, List.length_map]
      exact .update (List.cons_ne_nil event events) (walked_all loops scope cleanups offset conditionEvents _ _) rfl rfl
        (walked_all _ _ cleanups _ body _ _) (walked_all _ _ cleanups _ (event :: events) _ _)
  | offset, .try span body catchEvents finallyEvents catchParam catchTypes catchArms, blocks, cur => by
    rw [walkEvent_try, placeEvent]
    cases caught : hasCatch catchEvents catchParam catchTypes catchArms with
    | false =>
      simp only [Bool.false_eq_true, if_false, List.append_nil]
      exact .try caught (walked_all loops scope (⟨⟨span,finallyEvents⟩,_,scope⟩ :: cleanups) offset body _ _)
        (walked_all loops scope cleanups _ finallyEvents _ _)
    | true =>
      simp only [if_true]
      exact .handle caught (walked_all loops scope (⟨⟨span,finallyEvents⟩,_,scope⟩ :: cleanups) offset body _ _)
        (walked_all loops scope (⟨⟨span,finallyEvents⟩,_,scope⟩ :: cleanups) _ catchEvents _ _)
        (walked_all loops scope cleanups _ finallyEvents _ _)
  | offset, .defer span body, blocks, cur => by
    rw [walkEvent, placeEvent]
    exact .block ⟨span,.inl rfl⟩ (walked_all loops scope cleanups offset body blocks cur)
  | offset, .using span body, blocks, cur => by
    rw [walkEvent, placeEvent]
    exact .block ⟨span,.inr rfl⟩ (walked_all loops scope cleanups offset body blocks cur)
  | offset, .return span valueKind valueText valueName, blocks, cur => by
    exact walked_abrupt loops scope cleanups offset (.return span valueKind valueText valueName) .return rfl blocks cur
  | offset, .throw span valueName thrownType, blocks, cur => by
    exact walked_abrupt loops scope cleanups offset (.throw span valueName thrownType) .throw rfl blocks cur
  | offset, .break span target, blocks, cur => by
    exact walked_abrupt loops scope cleanups offset (.break span target) .break rfl blocks cur
  | offset, .continue span target, blocks, cur => by
    exact walked_abrupt loops scope cleanups offset (.continue span target) .continue rfl blocks cur
  | offset, .call .., blocks, cur | offset, .assign .., blocks, cur | offset, .aggregateAssign .., blocks, cur
  | offset, .yield .., blocks, cur | offset, .await .., blocks, cur | offset, .lifecycle .., blocks, cur => by
    rw [walkEvent_plain rfl, placeEvent]
    · exact .plain rfl
    all_goals
      intros
      contradiction
termination_by _ event => framesSize (framesOf cleanups) + 2 * sizeOf event

theorem walked_abrupt (loops scope : List LoopTargets) (cleanups : List (Cleanup LoopTargets)) (offset : Nat) (event : FlowEvent)
    (terminator : Terminator) (abrupt : terminatorOf event = some terminator) (blocks : Blocks) (cur : BasicBlockId) :
    Walked exit loops scope cleanups (.one offset event) blocks cur
      (walkEvent exit loops (framesOf cleanups) event blocks cur).1
      (walkEvent exit loops (framesOf cleanups) event blocks cur).2
      (placeEvent exit loops scope cleanups offset event blocks cur) := by
  rw [walkEvent_abrupt abrupt, placeEvent_abrupt abrupt]
  dsimp only
  rw [List.length_map]
  by_cases arrives : cleanups.length = (controlTransferTarget event loops exit).2
  · have marked : (if terminator = .break ∨ terminator = .continue then
        link (markAbrupt blocks cur event terminator) cur (controlTransferTarget event loops exit).1
        else markAbrupt blocks cur event terminator).length = blocks.length := by
      split <;> simp
    rw [if_pos arrives, if_pos arrives, marked]
    exact .arrive abrupt arrives
  · rw [if_neg arrives, if_neg arrives]
    exact .leave abrupt arrives (walked_path loops scope _ cleanups _ cur)
termination_by 1 + framesSize (framesOf cleanups)

theorem walked_path (loops scope : List LoopTargets) (target : BasicBlockId × Nat) : ∀ (cleanups : List (Cleanup LoopTargets)) blocks cur,
    Walked exit loops scope cleanups (.path target) blocks cur
      (appendFinallyPath exit loops target.1 target.2 (framesOf cleanups) blocks cur)
      (pathTail exit loops target.2 (framesOf cleanups) blocks cur)
      (placePath exit loops target.2 cleanups blocks cur)
  | [], blocks, cur => by
    rw [framesOf, List.map_nil, appendFinallyPath, pathTail, placePath]
    exact .reached (Nat.zero_le _)
  | cleanup :: cleanups, blocks, cur => by
    rw [framesOf, List.map_cons, appendFinallyPath, pathTail, placePath, List.length_map]
    split
    · exact .reached (by rw [List.length_cons]; omega)
    · next left =>
      exact .through (by omega) (walked_all loops cleanup.scope cleanups cleanup.offset cleanup.frame.events
        (enterFinally blocks cur cleanup.frame.span) blocks.length) (walked_path loops scope target cleanups _ _)
termination_by cleanups => framesSize (framesOf cleanups)

end

end walks

end BonsaiNinja.Cfg
