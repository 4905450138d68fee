import BonsaiNinja.LangApi.FlowEvents

namespace BonsaiNinja.Cfg
open LangApi

inductive SyntheticBlockKind where
  | entry | exit | branchJoin | branchThen | branchElse | loopHeader | loopBody | loopUpdate | loopAfter | tryFork | tryBody
  | catch | finally | unreachable
  deriving DecidableEq, Repr

inductive Terminator where
  | fallthrough | branch | loopHeader | tryFork | return | throw | break | continue | unreachable
  deriving DecidableEq, Repr

abbrev BasicBlockId := Nat

structure BasicBlock where
  id : BasicBlockId
  label : String
  syntheticKind : Option SyntheticBlockKind
  events : List FlowEvent
  successors : List BasicBlockId
  terminator : Terminator
  span : Span

structure Graph where
  analysisComplete : Bool
  analysisIncompleteReasons : List String
  function : String
  entry : BasicBlockId
  exit : BasicBlockId
  blocks : List BasicBlock

def invalidFile : FileId := 2 ^ 32 - 1

def eventSpan : FlowEvent → Span
  | .call span .. | .branch span .. | .loop span .. | .assign span .. | .aggregateAssign span .. | .return span ..
  | .throw span .. | .try span .. | .break span .. | .continue span .. | .yield span .. | .await span .. | .defer span ..
  | .using span .. | .lifecycle span .. => span

-- A deferred body becomes the finally body of everything behind it.
mutual

def normalizeDeferredScopes : List FlowEvent → List FlowEvent
  | [] => []
  | .defer span body :: events =>
    [.try span (normalizeDeferredScopes events) [] (normalizeDeferredScopes body) none [] []]
  | event :: events => normalizeDeferredScope event :: normalizeDeferredScopes events

def normalizeDeferredScope : FlowEvent → FlowEvent
  | .branch span condition thenEvents elseEvents =>
    .branch span condition (normalizeDeferredScopes thenEvents) (normalizeDeferredScopes elseEvents)
  | .loop span loopKind label conditionEvents updateEvents body =>
    .loop span loopKind label (normalizeDeferredScopes conditionEvents) (normalizeDeferredScopes updateEvents)
      (normalizeDeferredScopes body)
  | .try span body catchEvents finallyEvents catchParam catchTypes catchArms =>
    .try span (normalizeDeferredScopes body) (normalizeDeferredScopes catchEvents) (normalizeDeferredScopes finallyEvents)
      catchParam catchTypes catchArms
  | .using span body => .using span (normalizeDeferredScopes body)
  | event => event

end

abbrev Blocks := List BasicBlock

def newBlock (blocks : Blocks) (label : String) (syntheticKind : SyntheticBlockKind) : Blocks :=
  blocks ++ [⟨blocks.length,label,some syntheticKind,[],[],.fallthrough,⟨invalidFile,0,0⟩⟩]

def link (blocks : Blocks) (source target : BasicBlockId) : Blocks :=
  blocks.modify source fun block =>
    if target ∈ block.successors then block else {block with successors := block.successors ++ [target]}

def recordSpan (blocks : Blocks) (id : BasicBlockId) (span : Span) : Blocks :=
  blocks.modify id fun block => if block.span.file = invalidFile then {block with span} else block

def setTerminator (blocks : Blocks) (id : BasicBlockId) (terminator : Terminator) : Blocks :=
  blocks.modify id fun block => {block with terminator}

def pushEvent (blocks : Blocks) (id : BasicBlockId) (event : FlowEvent) : Blocks :=
  blocks.modify id fun block => {block with events := block.events ++ [event]}

-- Both stacks have their innermost entry first.
structure LoopTargets where
  label : Option Text
  breakTo : BasicBlockId
  continueTo : BasicBlockId
  retainedFinallyDepth : Nat

structure FinallyFrame where
  span : Span
  events : List FlowEvent

def selectTarget (target : Option LoopControlTarget) (loopTargets : List LoopTargets) : Option LoopTargets :=
  match target with
  | none => loopTargets.head?
  | some (.label label) => loopTargets.find? fun target => target.label == some label
  | some (.levels levels) => if levels = 0 then none else loopTargets[levels - 1]?

-- Where an abrupt event goes, and how many pending finally bodies stay.
def controlTransferTarget (event : FlowEvent) (loopTargets : List LoopTargets) (exit : BasicBlockId) :
    BasicBlockId × Nat :=
  match event with
  | .break _ target => (selectTarget target loopTargets).elim (exit,0) fun found => (found.breakTo,found.retainedFinallyDepth)
  | .continue _ target =>
    (selectTarget target loopTargets).elim (exit,0) fun found => (found.continueTo,found.retainedFinallyDepth)
  | _ => (exit,0)

def terminatorOf : FlowEvent → Option Terminator
  | .return .. => some .return
  | .throw .. => some .throw
  | .break .. => some .break
  | .continue .. => some .continue
  | _ => none

def hasCatch (catchEvents : List FlowEvent) (catchParam : Option Text) (catchTypes : List Text)
    (catchArms : List CatchArmFact) : Bool :=
  catchParam.isSome || !catchTypes.isEmpty || !catchEvents.isEmpty || !catchArms.isEmpty

noncomputable def framesSize (pendingFinally : List FinallyFrame) : Nat :=
  (pendingFinally.map fun frame => 1 + 2 * sizeOf frame.events).sum

@[simp] theorem framesSize_cons (frame : FinallyFrame) (pendingFinally : List FinallyFrame) :
    framesSize (frame :: pendingFinally) = 1 + 2 * sizeOf frame.events + framesSize pendingFinally := by
  simp [framesSize]

theorem event_size_pos (event : FlowEvent) : 0 < sizeOf event := by
  cases event <;> simp only [FlowEvent.call.sizeOf_spec, FlowEvent.branch.sizeOf_spec, FlowEvent.loop.sizeOf_spec,
    FlowEvent.assign.sizeOf_spec, FlowEvent.aggregateAssign.sizeOf_spec, FlowEvent.return.sizeOf_spec,
    FlowEvent.throw.sizeOf_spec, FlowEvent.try.sizeOf_spec, FlowEvent.break.sizeOf_spec, FlowEvent.continue.sizeOf_spec,
    FlowEvent.yield.sizeOf_spec, FlowEvent.await.sizeOf_spec, FlowEvent.defer.sizeOf_spec, FlowEvent.using.sizeOf_spec,
    FlowEvent.lifecycle.sizeOf_spec] <;> omega

-- Every walk returns the blocks and the block that the next event goes to.
mutual

def walkWithFinally (exit : BasicBlockId) (loopTargets : List LoopTargets) (pendingFinally : List FinallyFrame) :
    List FlowEvent → Blocks → BasicBlockId → Blocks × BasicBlockId
  | [], blocks, cur => (blocks,cur)
  | event :: events, blocks, cur =>
    let (blocks,cur) := walkEvent exit loopTargets pendingFinally event blocks cur
    walkWithFinally exit loopTargets pendingFinally events blocks cur
termination_by events => framesSize pendingFinally + 2 * sizeOf events

def walkEvent (exit : BasicBlockId) (loopTargets : List LoopTargets) (pendingFinally : List FinallyFrame) (event : FlowEvent)
    (blocks : Blocks) (cur : BasicBlockId) : Blocks × BasicBlockId :=
  match event with
  | .branch span _ thenEvents elseEvents =>
    let blocks := setTerminator (recordSpan blocks cur span) cur .branch
    let join := blocks.length
    let blocks := newBlock blocks s!"join@{span.start}" .branchJoin
    let thenId := blocks.length
    let blocks := newBlock blocks s!"then@{span.start}" .branchThen
    let elseId := blocks.length
    let blocks := newBlock blocks s!"else@{span.start}" .branchElse
    let blocks := link (link blocks cur thenId) cur elseId
    let (blocks,thenTail) := walkWithFinally exit loopTargets pendingFinally thenEvents blocks thenId
    let (blocks,elseTail) := walkWithFinally exit loopTargets pendingFinally elseEvents blocks elseId
    (link (link blocks thenTail join) elseTail join,join)
  | .loop span loopKind label conditionEvents updateEvents body =>
    let blocks := recordSpan blocks cur span
    let header := blocks.length
    let blocks := newBlock blocks s!"loop-header@{span.start}" .loopHeader
    let bodyId := blocks.length
    let blocks := newBlock blocks s!"loop-body@{span.start}" .loopBody
    let after := blocks.length
    let blocks := newBlock blocks s!"loop-after@{span.start}" .loopAfter
    let (blocks,conditionTail) := walkWithFinally exit loopTargets pendingFinally conditionEvents blocks header
    let blocks := setTerminator blocks conditionTail .loopHeader
    let blocks := link blocks cur (if loopKind = .doWhile then bodyId else header)
    let blocks := link blocks conditionTail bodyId
    let blocks := if loopKind = .loop then blocks else link blocks conditionTail after
    let updateEntry := if updateEvents.isEmpty then header else blocks.length
    let blocks := if updateEvents.isEmpty then blocks else newBlock blocks s!"loop-update@{span.start}" .loopUpdate
    let nestedLoopTargets := ⟨label,after,if loopKind = .doWhile then header else updateEntry,pendingFinally.length⟩ :: loopTargets
    let (blocks,bodyTail) := walkWithFinally exit nestedLoopTargets pendingFinally body blocks bodyId
    let blocks := link blocks bodyTail updateEntry
    if updateEvents.isEmpty then (blocks,after)
    else
      let (blocks,updateTail) := walkWithFinally exit nestedLoopTargets pendingFinally updateEvents blocks updateEntry
      (link blocks updateTail header,after)
  | .try span body catchEvents finallyEvents catchParam catchTypes catchArms =>
    let blocks := recordSpan blocks cur span
    let anchor := blocks.length
    let blocks := newBlock blocks s!"try_fork@{span.start}" .tryFork
    let blocks := recordSpan (link blocks cur anchor) anchor span
    let tryId := blocks.length
    let blocks := link (newBlock blocks s!"try@{span.start}" .tryBody) anchor tryId
    let caught := hasCatch catchEvents catchParam catchTypes catchArms
    let catchId := blocks.length
    let blocks := if caught then
      setTerminator (link (newBlock blocks s!"catch@{span.start}" .catch) anchor catchId) anchor .tryFork else blocks
    let innerFinally := ⟨span,finallyEvents⟩ :: pendingFinally
    let (blocks,tryTail) := walkWithFinally exit loopTargets innerFinally body blocks tryId
    let (blocks,catchTail) := if caught then walkWithFinally exit loopTargets innerFinally catchEvents blocks catchId
      else (blocks,catchId)
    let finallyId := blocks.length
    let blocks := link (newBlock blocks s!"finally@{span.start}" .finally) tryTail finallyId
    let blocks := if caught then link blocks catchTail finallyId else blocks
    walkWithFinally exit loopTargets pendingFinally finallyEvents blocks finallyId
  | .defer _ body | .using _ body => walkWithFinally exit loopTargets pendingFinally body blocks cur
  | event =>
    match terminatorOf event with
    | none => (pushEvent (recordSpan blocks cur (eventSpan event)) cur event,cur)
    | some terminator =>
      let blocks := setTerminator (recordSpan blocks cur (eventSpan event)) cur terminator
      let (finalTarget,retainedFinallyDepth) := controlTransferTarget event loopTargets exit
      let blocks := pushEvent blocks cur event
      let blocks := if pendingFinally.length = retainedFinallyDepth then
          if terminator = .break ∨ terminator = .continue then link blocks cur finalTarget else blocks
        else appendFinallyPath exit loopTargets finalTarget retainedFinallyDepth pendingFinally blocks cur
      let dead := blocks.length
      (setTerminator (newBlock blocks "unreachable" .unreachable) dead .unreachable,dead)
termination_by framesSize pendingFinally + 2 * sizeOf event
decreasing_by
  all_goals first
    | decreasing_tactic
    | have positive := event_size_pos event
      omega

-- The innermost frames run first, each among the frames outside it.
def appendFinallyPath (exit : BasicBlockId) (loopTargets : List LoopTargets) (finalTarget : BasicBlockId)
    (retainedFinallyDepth : Nat) : List FinallyFrame → Blocks → BasicBlockId → Blocks
  | [], blocks, cur => link blocks cur finalTarget
  | frame :: pendingFinally, blocks, cur =>
    if pendingFinally.length < retainedFinallyDepth then link blocks cur finalTarget
    else
      let finallyId := blocks.length
      let blocks := newBlock blocks s!"finally@{frame.span.start}" .finally
      let blocks := recordSpan (link blocks cur finallyId) finallyId frame.span
      let (blocks,cur) := walkWithFinally exit loopTargets pendingFinally frame.events blocks finallyId
      appendFinallyPath exit loopTargets finalTarget retainedFinallyDepth pendingFinally blocks cur
termination_by pendingFinally => framesSize pendingFinally

end

def eventEnvelope : List FlowEvent → Option Span
  | [] => none
  | first :: events =>
    let first := eventSpan first
    events.foldlM (fun span event =>
      let next := eventSpan event
      if next.file = first.file then some ⟨first.file,min span.start next.start,max span.stop next.stop⟩ else none) first

def keepBlock (blocks : Blocks) (entry exit : BasicBlockId) (id : Nat) (block : BasicBlock) : Bool :=
  id == entry || id == exit || !block.events.isEmpty || block.syntheticKind.any (· != .unreachable) ||
    blocks.any fun other => id ∈ other.successors

def remapId (blocks : Blocks) (entry exit : BasicBlockId) (id : BasicBlockId) : BasicBlockId :=
  (blocks.zipIdx.take id).countP fun (block,id) => keepBlock blocks entry exit id block

def isKept (blocks : Blocks) (entry exit : BasicBlockId) (id : BasicBlockId) : Bool :=
  blocks[id]?.any (keepBlock blocks entry exit id)

def compactIds (blocks : Blocks) (entry exit : BasicBlockId) : BasicBlockId × BasicBlockId × Blocks :=
  (remapId blocks entry exit entry,remapId blocks entry exit exit,
    blocks.zipIdx.filterMap fun (block,id) =>
      if keepBlock blocks entry exit id block then
        some {block with
          id := remapId blocks entry exit id
          successors := (block.successors.filter (isKept blocks entry exit)).map (remapId blocks entry exit)}
      else none)

def fillSpans (functionSpan : Option Span) (blocks : Blocks) : Blocks :=
  match functionSpan.filter (·.file ≠ invalidFile) with
  | some span => blocks.map fun block => if block.span.file = invalidFile then {block with span} else block
  | none => blocks

def buildCfgFromFlowInSpan (functionName : String) (functionSpan : Option Span) (events : List FlowEvent) : Graph :=
  let normalizedEvents := normalizeDeferredScopes events
  let exit := 0
  let blocks := newBlock [] "exit" .exit
  let entry := blocks.length
  let blocks := newBlock blocks "entry" .entry
  let (blocks,tail) := walkWithFinally exit [] [] normalizedEvents blocks entry
  let blocks := fillSpans functionSpan (link blocks tail exit)
  let (entry,exit,compacted) := compactIds blocks entry exit
  { analysisComplete := true
    analysisIncompleteReasons := []
    function := functionName
    entry
    exit
    blocks := compacted }

def buildCfgFromFlow (functionName : String) (events : List FlowEvent) : Graph :=
  buildCfgFromFlowInSpan functionName (eventEnvelope events) events

end BonsaiNinja.Cfg
