import BonsaiNinja.Cfg.Builder
import BonsaiNinja.Idg.WriterTable

namespace BonsaiNinja.Idg
open LangApi (FlowEvent LoopControlTarget LoopKind CallKind CatchArmFact AssignValueKind)
open Names (CharClass)

-- What the syntax tree says about the value of an assignment.
structure AssignmentValueFact where
  assignmentSpan : Span
  target : Option Text
  directCallSpan : Option Span
  directCallName : Option Text
  directCallReceiver : Option Text

structure AssignCallSiteHint where
  siteSpan : Span
  siblingCallEvent : Bool
  prebindTargetReceiver : Bool
  deriving DecidableEq

def assignSourcesMatchCall (sourceCall sourceName : Option Text) (sourceNames : List Text) (callName : Text) : Bool :=
  if callName.isEmpty then false
  else match sourceCall.filter (!·.isEmpty) with
    | some sourceCall => sourceCall == callName
    | none => sourceName == some callName || sourceNames.contains callName

def spanContainsOrEqual (outer inner : Span) : Bool :=
  outer.file = inner.file && outer.start ≤ inner.start && inner.stop ≤ outer.stop

structure AssignShape where
  span : Span
  target : Text
  sourceName : Option Text
  sourceCall : Option Text
  sourceNames : List Text
  valueKind : Option AssignValueKind

def AssignShape.of : FlowEvent → Option AssignShape
  | .assign span target sourceName sourceCall _ sourceNames _ valueKind =>
    some ⟨span,target,sourceName,sourceCall,sourceNames,valueKind⟩
  | _ => none

def AssignShape.joins (assign : AssignShape) (callSpan : Span) (name : Text) : Bool :=
  (spanContainsOrEqual assign.span callSpan ||
    (assign.valueKind == some .yieldResult && spanContainsOrEqual callSpan assign.span)) &&
  assignSourcesMatchCall assign.sourceCall assign.sourceName assign.sourceNames name

def factHint (assign : AssignShape) (flowCallSites : List Span) (lowered : Finset Span) (fact : AssignmentValueFact) :
    Option AssignCallSiteHint := do
  if fact.assignmentSpan ≠ assign.span then none
  if fact.target.any fun target => trim target != trim assign.target then none
  let callSpan ← fact.directCallSpan
  let callName ← fact.directCallName
  if !(flowCallSites.contains callSpan &&
      assignSourcesMatchCall assign.sourceCall assign.sourceName assign.sourceNames callName) then none
  some ⟨callSpan,true,!(decide (callSpan ∈ lowered)) && fact.directCallReceiver.map trim == some (trim assign.target)⟩

def precedingCall (assign : AssignShape) : List FlowEvent → Option AssignCallSiteHint
  | [] => none
  | sibling :: before =>
    let span := Cfg.eventSpan sibling
    if span.file ≠ assign.span.file || span.stop < assign.span.start then none
    else match sibling with
      | .call callSpan name _ _ _ _ => if assign.joins callSpan name then some ⟨callSpan,true,false⟩ else precedingCall assign before
      | _ => precedingCall assign before

def followingCall (assign : AssignShape) : List FlowEvent → Option AssignCallSiteHint
  | [] => none
  | sibling :: behind =>
    let span := Cfg.eventSpan sibling
    if span.file ≠ assign.span.file || assign.span.stop < span.start then none
    else match sibling with
      | .call callSpan name receiver _ callKind _ =>
        if assign.joins callSpan name then
          some ⟨callSpan,true,callKind == .method && receiver.map trim == some (trim assign.target)⟩
        else followingCall assign behind
      | _ => followingCall assign behind

def assignCallSiteHint (assignmentValues : List AssignmentValueFact) (flowCallSites : List Span) (lowered : Finset Span)
    (before : List FlowEvent) (event : FlowEvent) (behind : List FlowEvent) : Option AssignCallSiteHint := do
  let assign ← AssignShape.of event
  (assignmentValues.findSome? (factHint assign flowCallSites lowered)).or ((precedingCall assign before).or (followingCall assign behind))

inductive AssignOutcome where
  | sourceCallback
  | structural
  | literal
  | value

structure AssignLowering where
  outcome : AssignOutcome
  target : Text
  writeNode : FlowNode
  fields : List LeafOp
  sources : Option AssignCallSiteHint → List SourceOp
  receiverState : List LeafOp

structure ReceiverFact where
  isNamespace : Bool
  reads : List SourceOp

structure CallLowering where
  arguments : List LeafOp
  projections : Finset Text → List SourceOp
  results : List LeafOp

-- The compiler facts of a function, and the lowering of its expressions. The walk is the same
-- for every lowering.
structure TransferFacts where
  assignmentValues : List AssignmentValueFact
  flowCallSites : List Span
  throwingCallSites : Finset Span
  receiverFact : Span → Option ReceiverFact
  complete : WriterState → Text → Finset FlowNode
  assign : FlowEvent → AssignLowering
  call : FlowEvent → CallLowering
  other : FlowEvent → List LeafOp
  compoundThrow : List FlowEvent → List ThrowSite → List SourceOp

structure TransferCtx where
  lastWriter : WriterState
  edges : FlowEdges
  loweredCallSites : Finset Span
  preboundReceivers : Finset Span
  catchReceivers : Finset Text

section
variable (table : CharClass) (facts : TransferFacts)

def sourceEdges (state : WriterState) : SourceOp → FlowEdges
  | .read name consumer => bridgeRead table facts.complete state name consumer
  | .edge source target => {(source,target)}

namespace TransferCtx

def runSource (ctx : TransferCtx) (op : SourceOp) : TransferCtx :=
  {ctx with edges := ctx.edges ∪ sourceEdges table facts ctx.lastWriter op}

def runWrite (ctx : TransferCtx) (op : WriteOp) : TransferCtx := {ctx with lastWriter := op.apply table ctx.lastWriter}

def runLeaf (ctx : TransferCtx) : LeafOp → TransferCtx
  | .source op => ctx.runSource table facts op
  | .write op => ctx.runWrite table op

def runSources (ctx : TransferCtx) (ops : List SourceOp) : TransferCtx := ops.foldl (runSource table facts) ctx

def runLeaves (ctx : TransferCtx) (ops : List LeafOp) : TransferCtx := ops.foldl (runLeaf table facts) ctx

end TransferCtx

open TransferCtx

def isNamespaceReceiver (site : Span) : Bool := (facts.receiverFact site).any ReceiverFact.isNamespace

def prebind (target : Text) (hint : Option AssignCallSiteHint) (ctx : TransferCtx) : TransferCtx :=
  match hint.filter AssignCallSiteHint.prebindTargetReceiver with
  | some hint =>
    if isNamespaceReceiver facts hint.siteSpan then ctx
    else
      let ctx := ctx.runSource table facts (.read target (.callArg hint.siteSpan (2 ^ 32 - 1)))
      {ctx with preboundReceivers := insert hint.siteSpan ctx.preboundReceivers}
  | none => ctx

def walkAssign (event : FlowEvent) (hint : Option AssignCallSiteHint) (ctx : TransferCtx) : TransferCtx :=
  let lowering := facts.assign event
  match lowering.outcome with
  | .sourceCallback => ctx
  | outcome =>
    if lowering.target.isEmpty then ctx
    else
      let ctx := ctx.runLeaves table facts lowering.fields
      match outcome with
      | .literal => ctx.runWrite table (.commit lowering.target lowering.writeNode)
      | .value =>
        let ctx := ctx.runSources table facts (lowering.sources hint)
        let ctx := prebind table facts lowering.target hint ctx
        let ctx := ctx.runWrite table (.commit lowering.target lowering.writeNode)
        ctx.runLeaves table facts lowering.receiverState
      | _ => ctx

def receiverReads (site : Span) (receiver : Option Text) : List SourceOp :=
  match facts.receiverFact site with
  | some fact => if fact.isNamespace then [] else fact.reads
  | none => ((receiver.filter (!·.isEmpty)).map fun receiver => .read receiver (.callArg site (2 ^ 32 - 1))).toList

def walkCall (event : FlowEvent) (span : Span) (receiver : Option Text) (callKind : CallKind) (ctx : TransferCtx) : TransferCtx :=
  let lowering := facts.call event
  let ctx := {ctx with loweredCallSites := insert span ctx.loweredCallSites}
  let ctx := ctx.runLeaves table facts lowering.arguments
  let ctx := ctx.runSources table facts (lowering.projections ctx.catchReceivers)
  let ctx :=
    if callKind = .method then
      if span ∈ ctx.preboundReceivers then {ctx with preboundReceivers := ctx.preboundReceivers.erase span}
      else ctx.runSources table facts (receiverReads facts span receiver)
    else ctx
  ctx.runLeaves table facts lowering.results

-- An untyped throw carries the type that every handler matches.
def throwSite (span : Span) (thrownType : Option Text) : ThrowSite := ⟨.throw (thrownType.getD ['*']) span,thrownType,span⟩

def walkThrow (span : Span) (valueName thrownType : Option Text) (ctx : TransferCtx) : TransferCtx :=
  ctx.runSources table facts
    ((valueName.filter (!·.isEmpty)).map fun name => .read name (throwSite span thrownType).throwNode).toList

inductive Departure where
  | falls
  | returns
  | breaks (target : Option LoopControlTarget)
  | continues (target : Option LoopControlTarget)
  | throws (site : ThrowSite)

def FlowExits.add (exits : FlowExits) (state : WriterState) : Departure → FlowExits
  | .falls => exits.addFallthrough state
  | .returns => exits.addReturn state
  | .breaks target => exits.addBreak target state
  | .continues target => exits.addContinue target state
  | .throws site => exits.addThrow site state

def FlowExits.only (departure : Departure) (state : WriterState) : FlowExits := FlowExits.none.add state departure

abbrev Walked := Option (FlowExits × TransferCtx)

def argumentThrows (span : Span) (count : Nat) : List SourceOp :=
  (List.range count).map fun index => .edge (.callArg span index) (throwSite span none).throwNode

def walkLeaf (event : FlowEvent) (hint : Option AssignCallSiteHint) (ctx : TransferCtx) : FlowExits × TransferCtx :=
  match event with
  | .assign .. =>
    let ctx := walkAssign table facts event hint ctx
    (.only .falls ctx.lastWriter,ctx)
  | .call span _ receiver _ callKind args =>
    let ctx := walkCall table facts event span receiver callKind ctx
    if span ∈ facts.throwingCallSites then
      let ctx := ctx.runSources table facts (argumentThrows span args.length)
      (.only (.throws (throwSite span none)) ctx.lastWriter,ctx)
    else (.only .falls ctx.lastWriter,ctx)
  | .return .. =>
    let ctx := ctx.runLeaves table facts (facts.other event)
    (.only .returns ctx.lastWriter,ctx)
  | .throw span valueName thrownType =>
    let ctx := walkThrow table facts span valueName thrownType ctx
    (.only (.throws (throwSite span thrownType)) ctx.lastWriter,ctx)
  | .break _ target => (.only (.breaks target) ctx.lastWriter,ctx)
  | .continue _ target => (.only (.continues target) ctx.lastWriter,ctx)
  | .lifecycle .. => (.only .falls ctx.lastWriter,ctx)
  | event =>
    let ctx := ctx.runLeaves table facts (facts.other event)
    (.only .falls ctx.lastWriter,ctx)

end

end BonsaiNinja.Idg
