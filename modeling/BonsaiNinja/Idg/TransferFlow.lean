import BonsaiNinja.Idg.TransferWalk

namespace BonsaiNinja.Idg
open LangApi (FlowEvent LoopControlTarget LoopKind CatchArmFact)
open Names (CharClass)

structure HashOrder where
  levels : KeyOrder
  arrange : List (Option LoopControlTarget) → List (Option LoopControlTarget)
  perm : ∀ targets, (arrange targets).Perm targets

def FlowExits.leaving (exits : FlowExits) : FlowExits := {exits with fallthrough := Option.none}

-- Behind one event of a list: its exits escape, and the rest runs from where it falls through.
def continueWith (escaped : FlowExits) (walked : FlowExits × TransferCtx) (rest : FlowExits → TransferCtx → Walked) : Walked :=
  let escaped := escaped.merge walked.1.leaving
  match walked.1.fallthrough with
  | some state => rest escaped {walked.2 with lastWriter := state}
  | none => some (escaped,{walked.2 with lastWriter := ∅})

def endEvents (escaped : FlowExits) (ctx : TransferCtx) : Walked := some ({escaped with fallthrough := some ctx.lastWriter},ctx)

def walkBranch (thenWalk elseWalk : TransferCtx → Walked) (ctx : TransferCtx) : Walked := do
  let (thenExits,after) ← thenWalk ctx
  let (elseExits,after) ← elseWalk {after with lastWriter := ctx.lastWriter}
  let exits := (FlowExits.none.merge thenExits).merge elseExits
  some (exits,{after with lastWriter := exits.fallthrough.getD ∅})

structure LoopRun where
  escaped : FlowExits
  loopBreaks : WriterState
  hasLoopBreak : Bool
  ctx : TransferCtx

def LoopRun.start (ctx : TransferCtx) : LoopRun := ⟨.none,∅,false,ctx⟩

section
variable (order : HashOrder)

def walkLoopPhase (loopLabel : Option Text) (walk : TransferCtx → Walked) (input : Option WriterState) (run : LoopRun) :
    Option (Option WriterState × LoopRun) :=
  match input with
  | none => some (none,run)
  | some input => do
    let (exits,ctx) ← walk {run.ctx with lastWriter := input}
    let route := routeLoopPhaseExits order.levels exits loopLabel run.escaped run.loopBreaks run.hasLoopBreak
    some (route.next,⟨route.escaped,route.loopBreaks,route.hasLoopBreak,ctx⟩)

structure LoopWalks where
  kind : LoopKind
  label : Option Text
  test : TransferCtx → Walked
  body : TransferCtx → Walked
  update : TransferCtx → Walked

structure LoopRound where
  normalExit : Option WriterState
  backedge : Option WriterState
  run : LoopRun

def walkRound (loop : LoopWalks) (iterationEntry : WriterState) (run : LoopRun) : Option LoopRound :=
  match loop.kind with
  | .doWhile => do
    let (backedge,run) ← walkLoopPhase order loop.label loop.body (some iterationEntry) run
    let (backedge,run) ← walkLoopPhase order loop.label loop.update backedge run
    let (backedge,run) ← walkLoopPhase order loop.label loop.test backedge run
    some ⟨backedge,backedge,run⟩
  | .loop => do
    let (backedge,run) ← walkLoopPhase order loop.label loop.body (some iterationEntry) run
    let (backedge,run) ← walkLoopPhase order loop.label loop.update backedge run
    some ⟨none,backedge,run⟩
  | _ => do
    let (bodyEntry,run) ← walkLoopPhase order loop.label loop.test (some iterationEntry) run
    let (backedge,run) ← walkLoopPhase order loop.label loop.body bodyEntry run
    let (backedge,run) ← walkLoopPhase order loop.label loop.update backedge run
    some ⟨bodyEntry,backedge,run⟩

-- The loop header is solved to a fixed point; `rounds` bounds the trips.
def iterateLoop (loop : LoopWalks) (entry : WriterState) : Nat → WriterState → LoopRun → Option LoopRound
  | 0, _, _ => none
  | rounds + 1, iterationEntry, run => do
    let round ← walkRound order loop iterationEntry run
    let nextEntry := round.backedge.elim entry (entry ∪ ·)
    if nextEntry = iterationEntry then some round else iterateLoop loop entry rounds nextEntry round.run

def afterLoop (round : LoopRound) : Option WriterState :=
  if round.run.hasLoopBreak then some (mergeState round.normalExit round.run.loopBreaks) else round.normalExit

def walkLoop (rounds : Nat) (loop : LoopWalks) (ctx : TransferCtx) : Walked := do
  let round ← iterateLoop order loop ctx.lastWriter rounds ctx.lastWriter (.start ctx)
  some ({round.run.escaped with fallthrough := afterLoop round},{round.run.ctx with lastWriter := (afterLoop round).getD ∅})

structure Handler where
  types : List Text
  parameter : Option Text
  span : Span
  walk : TransferCtx → Walked

def catchTypeIds (catchTypes : List Text) : List Text := catchTypes.filter (!·.isEmpty)

def mayCatch (catchTypes : List Text) (site : ThrowSite) : Bool :=
  (catchTypeIds catchTypes).isEmpty || site.thrownType.elim true (catchTypeIds catchTypes).contains

def definitelyCaught (catchTypes : List Text) (site : ThrowSite) : Bool :=
  catchTypes.isEmpty || site.thrownType.elim false (catchTypeIds catchTypes).contains

def thrownWriters (throws : List ThrowExit) : WriterState := throws.foldl (fun state thrown => state ∪ thrown.writers) ∅

def catchEntryWriterState (throws : List ThrowExit) (catchTypes : List Text) (fallback : WriterState) : WriterState :=
  let eligible := thrownWriters (throws.filter fun thrown => mayCatch catchTypes thrown.site)
  let matched := if eligible = ∅ then thrownWriters throws else eligible
  if matched = ∅ then fallback else matched

def bindParameter (parameter : Option Text) (armSpan : Span) (catchNode : FlowNode) : List LeafOp :=
  ((parameter.filter (!·.isEmpty)).map fun name =>
    [.write (.commit name (.write name armSpan)),.source (.edge catchNode (.write name armSpan))]).getD []

def thrownTypeReachesCatch (catchType : Text) (site : ThrowSite) : Bool := site.thrownType.elim true (· == catchType)

def bindCatchType (throws : List ThrowSite) (parameter : Option Text) (trySpan armSpan : Span) (catchType : Text) : List LeafOp :=
  let catchNode := .catch catchType armSpan trySpan
  (throws.filter (thrownTypeReachesCatch catchType)).map (fun site => .source (.edge site.throwNode catchNode)) ++
    bindParameter parameter armSpan catchNode

def bindCatchAll (throws : List ThrowSite) (parameter : Option Text) (trySpan armSpan : Span) : List LeafOp :=
  let catchNode := .catch ['*'] armSpan trySpan
  throws.map (fun site => .source (.edge site.throwNode catchNode)) ++ bindParameter parameter armSpan catchNode

def bindCatchArm (throws : List ThrowSite) (catchTypes : List Text) (parameter : Option Text) (trySpan armSpan : Span) :
    List LeafOp :=
  (catchTypeIds catchTypes).flatMap (bindCatchType throws parameter trySpan armSpan) ++
    if catchTypes.isEmpty && !throws.isEmpty then bindCatchAll throws parameter trySpan armSpan else []

variable (table : CharClass) (facts : TransferFacts)

def catching (parameter : Option Text) (receivers : Finset Text) : Finset Text :=
  (parameter.filter (!·.isEmpty)).elim receivers (insert · receivers)

def walkHandler (throws : List ThrowExit) (entry : WriterState) (trySpan : Span) (handler : Handler) (ctx : TransferCtx) : Walked := do
  let entered := {ctx with lastWriter := catchEntryWriterState throws handler.types entry}
  let bound := entered.runLeaves table facts
    (bindCatchArm (throws.map ThrowExit.site) handler.types handler.parameter trySpan handler.span)
  let (exits,after) ← handler.walk {bound with catchReceivers := catching handler.parameter bound.catchReceivers}
  some (exits,{after with catchReceivers := ctx.catchReceivers})

def walkHandlers (throws : List ThrowExit) (entry : WriterState) (trySpan : Span) : List Handler → FlowExits → TransferCtx → Walked
  | [], caught, ctx => some (caught,ctx)
  | handler :: handlers, caught, ctx => do
    let (exits,ctx) ← walkHandler table facts throws entry trySpan handler ctx
    walkHandlers throws entry trySpan handlers (caught.merge exits) ctx

def FlowExits.departures (exits : FlowExits) : List (Departure × WriterState) :=
  (exits.fallthrough.map fun state => (.falls,state)).toList ++ (exits.returns.map fun state => (.returns,state)).toList ++
  (order.arrange exits.breaks.keys).filterMap (fun target => (exits.breaks.lookup target).map fun state => (.breaks target,state)) ++
  (order.arrange exits.continues.keys).filterMap
    (fun target => (exits.continues.lookup target).map fun state => (.continues target,state)) ++
  exits.throws.map fun thrown => (.throws thrown.site,thrown.writers)

-- A cleanup that falls through resumes the exit it was run for.
def resume (routed : FlowExits) (incoming : Departure) (cleanup : FlowExits) : FlowExits :=
  (cleanup.fallthrough.elim routed fun state => routed.add state incoming).merge cleanup.leaving

def routeFinally (finallyWalk : TransferCtx → Walked) : List (Departure × WriterState) → FlowExits → TransferCtx → Walked
  | [], routed, ctx => some (routed,ctx)
  | incoming :: departures, routed, ctx => do
    let (cleanup,ctx) ← finallyWalk {ctx with lastWriter := incoming.2}
    routeFinally finallyWalk departures (resume routed incoming.1 cleanup) ctx

def applyFinallyToExits (exits : FlowExits) (finallyWalk : Option (TransferCtx → Walked)) (ctx : TransferCtx) : Walked :=
  match finallyWalk with
  | none => some (exits,ctx)
  | some finallyWalk => routeFinally finallyWalk (exits.departures order) .none ctx

structure TryWalks where
  span : Span
  bodyEvents : List FlowEvent
  body : TransferCtx → Walked
  handlers : List Handler
  cleanup : Option (TransferCtx → Walked)

def walkTry (region : TryWalks) (ctx : TransferCtx) : Walked := do
  let (bodyExits,after) ← region.body ctx
  let throws := bodyExits.throws
  let after := after.runSources table facts (facts.compoundThrow region.bodyEvents (throws.map ThrowExit.site))
  let (caught,after) ← walkHandlers table facts throws ctx.lastWriter region.span region.handlers .none after
  let combined := FlowExits.merge {bodyExits with throws := []} caught
  let uncaught := throws.filter fun thrown => !region.handlers.any fun handler => definitelyCaught handler.types thrown.site
  let (exits,after) ← applyFinallyToExits order (combined.addThrows uncaught) region.cleanup after
  some (exits,{after with lastWriter := exits.fallthrough.getD ∅})

def armHandler (arm : CatchArmFact) (walk : TransferCtx → Walked) : Handler := ⟨arm.types,arm.parameter,arm.span,walk⟩

def handlersOf (arms : Option (List Handler)) (hasCatch : Bool) (merged : Handler) : List Handler :=
  if hasCatch then arms.getD [merged] else []

def siteHint (before : List FlowEvent) (event : FlowEvent) (behind : List FlowEvent) (ctx : TransferCtx) : Option AssignCallSiteHint :=
  assignCallSiteHint facts.assignmentValues facts.flowCallSites ctx.loweredCallSites before event behind

variable (rounds : Nat)

mutual

def walkEvent : FlowEvent → Option AssignCallSiteHint → TransferCtx → Walked
  | .branch _ _ thenEvents elseEvents, _, ctx => walkBranch (walkFrom [] thenEvents .none) (walkFrom [] elseEvents .none) ctx
  | .loop _ kind label conditionEvents updateEvents body, _, ctx =>
    walkLoop order rounds
      ⟨kind,label,walkFrom [] conditionEvents .none,walkFrom [] body .none,walkFrom [] updateEvents .none⟩ ctx
  | .try span body catchEvents finallyEvents catchParam catchTypes catchArms, _, ctx =>
    walkTry order table facts
      { span
        bodyEvents := body
        body := walkFrom [] body .none
        handlers := handlersOf (catchArmWalks catchArms catchEvents)
          (catchParam.isSome || !catchTypes.isEmpty || !catchArms.isEmpty || !catchEvents.isEmpty)
          ⟨catchTypes,catchParam,span,walkFrom [] catchEvents .none⟩
        cleanup := if finallyEvents.isEmpty then none else some (walkFrom [] finallyEvents .none) } ctx
  | .defer _ body, _, ctx => walkFrom [] body .none ctx
  | .using _ body, _, ctx => walkFrom [] body .none ctx
  | event, hint, ctx => some (walkLeaf table facts event hint ctx)

def walkFrom (before : List FlowEvent) : List FlowEvent → FlowExits → TransferCtx → Walked
  | [], escaped, ctx => endEvents escaped ctx
  | event :: behind, escaped, ctx => do
    let walked ← walkEvent event (siteHint facts before event behind ctx) ctx
    continueWith escaped walked (walkFrom (event :: before) behind)

def catchArmWalks : List CatchArmFact → List FlowEvent → Option (List Handler)
  | [], _ => none
  | arm :: arms, [] => if arms.isEmpty then some [armHandler arm (endEvents .none)] else none
  | arm :: arms, event :: behind =>
    if arms.isEmpty then
      some [armHandler arm fun ctx => do
        let walked ← walkEvent event (siteHint facts [] event behind ctx) ctx
        continueWith .none walked (walkFrom [event] behind)]
    else match event, behind with
      | .branch span none thenEvents elseEvents, [] =>
        if span = arm.span then
          (catchArmWalks arms elseEvents).map (armHandler arm (walkFrom [] thenEvents .none) :: ·)
        else none
      | _, _ => none

end

def walkEvents (events : List FlowEvent) (ctx : TransferCtx) : Walked := walkFrom order table facts rounds [] events .none ctx

end

end BonsaiNinja.Idg
