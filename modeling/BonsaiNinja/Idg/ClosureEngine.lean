import BonsaiNinja.Idg.SymbolicRuntime
import BonsaiNinja.Library.Paging

namespace BonsaiNinja.Idg
open Library

structure ContextBoundaryEdge where
  key : ContextBoundaryKey
  target : NodeId
  deriving DecidableEq, Repr

instance : RowOrder ContextBoundaryEdge := .lift (fun e => (e.key,e.target)) fun a b same => by
  cases a; cases b; simp_all

structure ContextualSummaryRuntime where
  reach : GroupedRows NodeId NodeId
  heapByFrom : GroupedRows NodeId NodeId
  callsByFrom : GroupedRows NodeId ContextBoundaryEdge
  returnsByFrom : GroupedRows NodeId ContextBoundaryEdge
  reverseReach : GroupedRows NodeId NodeId
  reverseHeap : GroupedRows NodeId NodeId
  reverseCalls : GroupedRows NodeId NodeId
  reverseReturns : GroupedRows NodeId NodeId

structure IdgTargetRelevance where
  nodes : List NodeId
  facts : List (Nat × Nat)
  wildcardBases : List Nat
  pruningComplete : Bool

namespace IdgTargetRelevance

def containsNode (relevance : IdgTargetRelevance) (node : NodeId) : Bool :=
  !relevance.pruningComplete || relevance.nodes.contains node

def containsFact (relevance : IdgTargetRelevance) (base field : Nat) : Bool :=
  !relevance.pruningComplete || relevance.wildcardBases.contains base || relevance.facts.contains (base,field)

def admitsAny (relevance : IdgTargetRelevance) (seeds : List NodeId) : Bool := seeds.any relevance.containsNode

end IdgTargetRelevance

structure SymbolicClosurePolicy where
  allowedFuncs : FuncScope
  targetRelevance : Option IdgTargetRelevance
  summaryCallees : Option (IdMap (SortedRows FuncId))
  summaryRoot : Option FuncId
  contextual : Option ContextualSummaryRuntime
  activateSeedCallers : Bool

-- Everything one closure run reads and never changes.
structure ClosureProgram where
  unified : UnifiedAddressSpace
  reach : GroupedRows NodeId NodeId
  runtime : SymbolicRuntimeIndex
  fieldDemand : List Nat
  symbolic : SymbolicFieldGraph
  policy : SymbolicClosurePolicy

structure ClosureNodeState where
  node : NodeId
  context : CallContext
  deriving DecidableEq, Repr

structure CallContexts where
  callers : List (ContextBoundaryKey × CallContext)
  returnedNodes : List (ContextBoundaryKey × NodeId)
  returnedFacts : List (ContextBoundaryKey × SymbolicFactIdentity)

structure SymbolicClosureWorklist where
  pendingNodes : List ClosureNodeState
  reached : List ClosureNodeState
  factSourceStates : List ClosureNodeState
  facts : List SymbolicNodeFact
  pendingFacts : List SymbolicNodeFact
  contexts : CallContexts
  activeSummaryFuncs : List FuncId

def contextReplayBatchEntries : Nat := 16384

namespace CallContexts

def callersOf (contexts : CallContexts) (boundary : ContextBoundaryKey) : List CallContext :=
  (contexts.callers.filter fun row => row.1 = boundary).map (·.2)

def nodesReturned (contexts : CallContexts) (boundary : ContextBoundaryKey) : List NodeId :=
  sortDedup ((contexts.returnedNodes.filter fun row => row.1 = boundary).map (·.2))

def factsReturned (contexts : CallContexts) (boundary : ContextBoundaryKey) : List SymbolicFactIdentity :=
  sortDedup ((contexts.returnedFacts.filter fun row => row.1 = boundary).map (·.2))

end CallContexts

namespace SymbolicClosureWorklist

def enqueueNode (w : SymbolicClosureWorklist) (nodeCount : Nat) (state : ClosureNodeState) : SymbolicClosureWorklist :=
  if state.node < nodeCount ∧ state ∉ w.reached then
    { w with reached := state :: w.reached, pendingNodes := state :: w.pendingNodes }
  else w

def activateFactSource (w : SymbolicClosureWorklist) (state : ClosureNodeState) : SymbolicClosureWorklist :=
  { w with factSourceStates := state :: w.factSourceStates }

def registerCaller (w : SymbolicClosureWorklist) (boundary : ContextBoundaryKey) (callerContext : CallContext) :
    SymbolicClosureWorklist :=
  { w with contexts := { w.contexts with callers := (boundary,callerContext) :: w.contexts.callers } }

def recordNodeReturn (w : SymbolicClosureWorklist) (boundary : ContextBoundaryKey) (node : NodeId) :
    SymbolicClosureWorklist :=
  { w with contexts := { w.contexts with returnedNodes := (boundary,node) :: w.contexts.returnedNodes } }

def recordFactReturn (w : SymbolicClosureWorklist) (boundary : ContextBoundaryKey) (identity : SymbolicFactIdentity) :
    SymbolicClosureWorklist :=
  { w with contexts := { w.contexts with returnedFacts := (boundary,identity) :: w.contexts.returnedFacts } }

end SymbolicClosureWorklist

-- The boundary a transform crosses, and whether it enters the callee.
def symbolicTransformBoundary (symbolic : SymbolicFieldGraph) (transform : SymbolicFieldTransform) :
    Option (ContextBoundaryKey × Bool) := do
  let source ← symbolic.bases[transform.source]?
  let target ← symbolic.bases[transform.target]?
  if source.func = target.func then none
  else match transform.kind with
    | .argument => some (⟨source.func,target.func,transform.callSpan⟩,true)
    | .return | .scalarReturn | .constructorReturn | .receiverMutation =>
      some (⟨target.func,source.func,transform.callSpan⟩,false)
    | .copy => none

-- Where a transformed fact goes: a context of its own, or the completed return of
-- a boundary.
inductive TransformContexts where
  | next (context : CallContext)
  | completed (boundary : ContextBoundaryKey)
  deriving DecidableEq, Repr

namespace ClosureProgram
variable (program : ClosureProgram)

def funcIsAllowed (func : FuncId) : Bool := program.policy.allowedFuncs.admits func

def summaryRestricted : Bool := program.policy.summaryRoot.isSome

def nodeIsRelevant (node : NodeId) : Bool :=
  match program.policy.targetRelevance with
  | none => true
  | some relevance => relevance.containsNode node

def factIsRelevant (base field : Nat) : Bool :=
  program.fieldDemand.contains base &&
    match program.policy.targetRelevance with
    | none => true
    | some relevance => relevance.containsFact base field

def summaryDependencyIsPermitted (caller callee : FuncId) : Bool :=
  match program.policy.summaryCallees with
  | none => true
  | some callees => (callees.lookup caller).any fun targets => targets.search callee

def summaryFuncIsActive (w : SymbolicClosureWorklist) (func : FuncId) : Bool :=
  program.funcIsAllowed func && (!program.summaryRestricted || w.activeSummaryFuncs.contains func)

def activateSummaryFunc (w : SymbolicClosureWorklist) (func : FuncId) : SymbolicClosureWorklist × Bool :=
  if !program.funcIsAllowed func then (w,false)
  else if program.summaryRestricted then ({ w with activeSummaryFuncs := w.activeSummaryFuncs.insert func },true)
  else (w,true)

def symbolicNodeAllowed (w : SymbolicClosureWorklist) (node : NodeId) : Bool :=
  program.nodeIsRelevant node && (program.unified.wsNodeFunc node).any (program.summaryFuncIsActive w)

def activateSummaryCall (w : SymbolicClosureWorklist) (boundary : ContextBoundaryKey) : SymbolicClosureWorklist × Bool :=
  if !program.summaryFuncIsActive w boundary.caller ||
      !program.summaryDependencyIsPermitted boundary.caller boundary.callee then (w,false)
  else program.activateSummaryFunc w boundary.callee

def activateSummaryTransition (w : SymbolicClosureWorklist) (source target : NodeId) : SymbolicClosureWorklist × Bool :=
  if !program.nodeIsRelevant target then (w,false) else
  match program.unified.wsNodeFunc source, program.unified.wsNodeFunc target with
  | some sourceFunc, some targetFunc =>
    if program.summaryFuncIsActive w targetFunc then (w,true)
    else if !program.summaryFuncIsActive w sourceFunc ||
        !program.summaryDependencyIsPermitted sourceFunc targetFunc then (w,false)
    else program.activateSummaryFunc w targetFunc
  | _, _ => (w,false)

def enqueueFactState (w : SymbolicClosureWorklist) (fact : SymbolicNodeFact) : SymbolicClosureWorklist :=
  if program.factIsRelevant fact.identity.base fact.identity.field ∧ fact ∉ w.facts then
    { w with facts := fact :: w.facts, pendingFacts := fact :: w.pendingFacts }
  else w

def introduceFacts (w : SymbolicClosureWorklist) (state : ClosureNodeState) : SymbolicClosureWorklist :=
  (program.runtime.symbolicFactsForNode program.unified state.node).foldl (fun w identity =>
    program.enqueueFactState w ⟨identity,state.context⟩) w

def enqueueSymbolicNodeSource (w : SymbolicClosureWorklist) (state : ClosureNodeState) : SymbolicClosureWorklist :=
  if !program.symbolicNodeAllowed w state.node then w else
  let w := w.enqueueNode program.unified.nodeCount state
  if program.fieldDemand.isEmpty || w.factSourceStates.contains state then w
  else program.introduceFacts (w.activateFactSource state) state

def replayNode (callerContext : CallContext) (w : SymbolicClosureWorklist) (node : NodeId) : SymbolicClosureWorklist :=
  program.enqueueSymbolicNodeSource w ⟨node,callerContext⟩

def replayFact (callerContext : CallContext) (w : SymbolicClosureWorklist) (identity : SymbolicFactIdentity) :
    SymbolicClosureWorklist :=
  program.enqueueFactState w ⟨identity,callerContext⟩

-- A caller met for the first time receives everything its callee already
-- returned.
def registerContextCall (w : SymbolicClosureWorklist) (callerContext : CallContext) (boundary : ContextBoundaryKey) :
    SymbolicClosureWorklist :=
  if (boundary,callerContext) ∈ w.contexts.callers then w else
  let w := w.registerCaller boundary callerContext
  let w := replayPages contextReplayBatchEntries (·.contexts.nodesReturned boundary) (program.replayNode callerContext)
    (w.contexts.nodesReturned boundary).length none w
  replayPages contextReplayBatchEntries (·.contexts.factsReturned boundary) (program.replayFact callerContext)
    (w.contexts.factsReturned boundary).length none w

def completeNodeReturn (w : SymbolicClosureWorklist) (boundary : ContextBoundaryKey) (node : NodeId) :
    SymbolicClosureWorklist :=
  if (boundary,node) ∈ w.contexts.returnedNodes then w else
  (w.contexts.callersOf boundary).foldl (fun w context => program.enqueueSymbolicNodeSource w ⟨node,context⟩)
    (w.recordNodeReturn boundary node)

def completeFactReturn (w : SymbolicClosureWorklist) (boundary : ContextBoundaryKey) (identity : SymbolicFactIdentity) :
    SymbolicClosureWorklist :=
  if (boundary,identity) ∈ w.contexts.returnedFacts then w else
  (w.contexts.callersOf boundary).foldl (fun w context => program.enqueueFactState w ⟨identity,context⟩)
    (w.recordFactReturn boundary identity)

def visitTransition (source : NodeId) (context : CallContext) (w : SymbolicClosureWorklist) (target : NodeId) :
    SymbolicClosureWorklist :=
  let entered := program.activateSummaryTransition w source target
  if entered.2 then program.enqueueSymbolicNodeSource entered.1 ⟨target,context⟩ else entered.1

def visitCall (context : CallContext) (w : SymbolicClosureWorklist) (call : ContextBoundaryEdge) :
    SymbolicClosureWorklist :=
  if !program.nodeIsRelevant call.target then w else
  let entered := program.activateSummaryCall w call.key
  if entered.2 then
    program.enqueueSymbolicNodeSource (program.registerContextCall entered.1 context call.key) ⟨call.target,some call.key⟩
  else entered.1

def visitReturn (context : CallContext) (w : SymbolicClosureWorklist) (returned : ContextBoundaryEdge) :
    SymbolicClosureWorklist :=
  if !program.symbolicNodeAllowed w returned.target then w
  else if context = some returned.key then program.completeNodeReturn w returned.key returned.target
  else if program.policy.activateSeedCallers && context.isNone then
    program.enqueueSymbolicNodeSource w ⟨returned.target,none⟩
  else w

def propagateSymbolicClosureNode (w : SymbolicClosureWorklist) (state : ClosureNodeState) : SymbolicClosureWorklist :=
  let w := (program.reach.get state.node).foldl (program.visitTransition state.node state.context) w
  match program.policy.contextual with
  | none => w
  | some contextual =>
    let w := (contextual.heapByFrom.get state.node).foldl (program.visitTransition state.node none) w
    let w := (contextual.callsByFrom.get state.node).foldl (program.visitCall state.context) w
    (contextual.returnsByFrom.get state.node).foldl (program.visitReturn state.context) w

def visitRebase (fact : SymbolicNodeFact) (w : SymbolicClosureWorklist) (rebase : SymbolicBaseRebase) :
    SymbolicClosureWorklist :=
  match program.runtime.rebasedField rebase fact.identity.field with
  | none => w
  | some field => program.enqueueFactState w ⟨⟨rebase.target,field,fact.identity.provenance⟩,fact.context⟩

-- A consumed fact reaches the reading node without making it a source again.
def visitConsumer (fact : SymbolicNodeFact) (w : SymbolicClosureWorklist) (node : NodeId) : SymbolicClosureWorklist :=
  if program.symbolicNodeAllowed w node then w.enqueueNode program.unified.nodeCount ⟨node,fact.context⟩ else w

def factConsumers (identity : SymbolicFactIdentity) : List NodeId :=
  program.runtime.exactReads.get (identity.base,identity.field) ++ program.runtime.aggregateReads.get identity.base

-- A fact written behind the transform's site does not flow through it.
def writtenAfter (transform : SymbolicFieldTransform) (identity : SymbolicFactIdentity) : Bool :=
  !transform.allowOutOfOrderSource && !identity.provenance.isInterprocedural &&
    (identity.provenance.spanId.bind program.runtime.span).any fun span =>
      !(transform.kind = .argument && span = transform.writeSpan) && span.file = transform.callSpan.file &&
        transform.callSpan.start < span.start

def symbolicTransformContexts (w : SymbolicClosureWorklist) (transform : SymbolicFieldTransform)
    (context : CallContext) : SymbolicClosureWorklist × Option TransformContexts :=
  if program.policy.contextual.isNone then (w,some (.next context)) else
  match symbolicTransformBoundary program.symbolic transform with
  | none => (w,some (.next context))
  | some (boundary,true) =>
    let entered := program.activateSummaryCall w boundary
    if entered.2 then (program.registerContextCall entered.1 context boundary,some (.next (some boundary)))
    else (entered.1,none)
  | some (boundary,false) =>
    if context = some boundary then (w,some (.completed boundary))
    else if program.policy.activateSeedCallers && context.isNone then (w,some (.next none))
    else (w,none)

def deliverNode (contexts : TransformContexts) (w : SymbolicClosureWorklist) (node : NodeId) : SymbolicClosureWorklist :=
  if !program.symbolicNodeAllowed w node then w else
  match contexts with
  | .completed boundary => program.completeNodeReturn w boundary node
  | .next context => program.enqueueSymbolicNodeSource w ⟨node,context⟩

def scalarMatches (transform : SymbolicFieldTransform) (field : Nat) : Bool :=
  match transform.exactField.bind program.symbolic.string, program.runtime.field field with
  | some expected, some actual => expected = actual
  | _, _ => false

def propagateScalarSymbolicReturn (w : SymbolicClosureWorklist) (transform : SymbolicFieldTransform)
    (identity : SymbolicFactIdentity) (contexts : TransformContexts) : SymbolicClosureWorklist :=
  if program.scalarMatches transform identity.field then
    (program.runtime.scalarWrites.get (transform.target,transform.writeSpan)).foldl (program.deliverNode contexts) w
  else w

def transformedIdentity (transform : SymbolicFieldTransform) (field : Nat) : SymbolicFactIdentity :=
  let interprocedural := transform.kind ≠ .copy
  ⟨transform.target,field,.of (if interprocedural then none
    else program.runtime.localProvenanceId transform.target transform.writeSpan) interprocedural⟩

def targetBaseActive (w : SymbolicClosureWorklist) (transform : SymbolicFieldTransform) : Bool :=
  (program.symbolic.bases[transform.target]?).any fun base => program.summaryFuncIsActive w base.func

def deliverFact (w : SymbolicClosureWorklist) (identity : SymbolicFactIdentity) (contexts : TransformContexts) :
    SymbolicClosureWorklist :=
  match contexts with
  | .completed boundary => program.completeFactReturn w boundary identity
  | .next context => program.enqueueFactState w ⟨identity,context⟩

def visitTransform (fact : SymbolicNodeFact) (w : SymbolicClosureWorklist) (transform : SymbolicFieldTransform) :
    SymbolicClosureWorklist :=
  if program.writtenAfter transform fact.identity then w
  else if transform.kind ≠ .scalarReturn ∧ !program.factIsRelevant transform.target fact.identity.field then w
  else
    let crossed := program.symbolicTransformContexts w transform fact.context
    match crossed.2 with
    | none => crossed.1
    | some contexts =>
      if transform.kind = .scalarReturn then
        program.propagateScalarSymbolicReturn crossed.1 transform fact.identity contexts
      else if program.targetBaseActive crossed.1 transform then
        program.deliverFact crossed.1 (program.transformedIdentity transform fact.identity.field) contexts
      else crossed.1

def propagateSymbolicClosureFact (w : SymbolicClosureWorklist) (fact : SymbolicNodeFact) : SymbolicClosureWorklist :=
  let w := (program.runtime.baseRebases.get fact.identity.base).foldl (program.visitRebase fact) w
  let w := (program.factConsumers fact.identity).foldl (program.visitConsumer fact) w
  (program.runtime.outgoing fact.identity.base).foldl (program.visitTransform fact) w

def startWorklist : SymbolicClosureWorklist := ⟨[],[],[],[],[],⟨[],[],[]⟩,program.policy.summaryRoot.toList⟩

def enqueueSeed (w : SymbolicClosureWorklist) (seed : NodeId) : SymbolicClosureWorklist :=
  if seed < program.unified.nodeCount ∧ program.symbolicNodeAllowed w seed then
    program.enqueueSymbolicNodeSource w ⟨seed,none⟩
  else w

def seedWorklist (seeds : List NodeId) : SymbolicClosureWorklist := seeds.foldl program.enqueueSeed program.startWorklist

def nextNode (w : SymbolicClosureWorklist) : SymbolicClosureWorklist :=
  match w.pendingNodes with
  | [] => w
  | state :: rest => program.propagateSymbolicClosureNode { w with pendingNodes := rest } state

def nextFact (w : SymbolicClosureWorklist) : SymbolicClosureWorklist :=
  match w.pendingFacts with
  | [] => w
  | fact :: rest => program.propagateSymbolicClosureFact { w with pendingFacts := rest } fact

def hasPending (w : SymbolicClosureWorklist) : Bool := !w.pendingNodes.isEmpty || !w.pendingFacts.isEmpty

def closureLoop : Nat → SymbolicClosureWorklist → SymbolicClosureWorklist
  | 0, w => w
  | fuel + 1, w => if hasPending w then closureLoop fuel (program.nextFact (program.nextNode w)) else w

end ClosureProgram

end BonsaiNinja.Idg
