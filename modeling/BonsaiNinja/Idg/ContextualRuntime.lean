import BonsaiNinja.Idg.ForwardClosure
import BonsaiNinja.Idg.SymbolicIndex

namespace BonsaiNinja.Idg
open Library

structure ContextualSummaryEdge where
  segment : SegmentId
  source : NodeId
  target : NodeId
  deriving DecidableEq, Repr

structure ReturnSummaryBatch where
  indices : IdMap (List Nat)
  symbolicSensitive : List FuncId
  symbolicCallees : IdMap (SortedRows FuncId)
  contextualEdges : List ContextualSummaryEdge

def localNodesOf (segment : IdgSegment) (func : FuncId) : List NodeId :=
  (segment.nodes.zipIdx.filter fun entry => entry.1.func = func).map (·.2)

section
variable (workspace : IdgWorkspace) (scope : FuncScope)

def scalarTargets : List (Nat × Span) :=
  ((workspace.visitSymbolicTransforms.filter (·.kind = .scalarReturn)).filter (transformAdmitted workspace scope)).map
    fun transform => (transform.target,transform.writeSpan)

def isSymbolicConsumer (visited : ScopedNode) : Bool :=
  match visited.storage with
  | none => false
  | some (parts,writeSpan,isRead) =>
    let fullBase := workspace.symbolicField.baseId visited.segmentId visited.node.func (joinDots parts)
    (isRead && fullBase.isSome) ||
      (isRead && (accessPaths parts).any fun path =>
        (workspace.symbolicField.baseId visited.segmentId visited.node.func path.1).isSome) ||
        match writeSpan, fullBase with
        | some span, some base => (scalarTargets workspace scope).contains (base,span)
        | _, _ => false

def symbolicConsumerNodes (func : FuncId) (layout : FunctionLayout) : List Nat :=
  if !workspace.hasSymbolicTransforms then [] else
  match workspace.segmentView layout.segment with
  | none => []
  | some segment =>
    ((localNodesOf segment func).zipIdx.filter fun (localNode,_) =>
      match segment.nodes[localNode]? with
      | none => false
      | some node => isSymbolicConsumer workspace scope ⟨layout.segment,segment,localNode,node⟩).map (·.2)

variable (program : SummaryProgram) (summaries : Summaries)

def derivedContextualEdges (func : FuncId) (layout : FunctionLayout) : List ContextualSummaryEdge :=
  match workspace.segmentView layout.segment with
  | none => []
  | some segment =>
    ((program.compile func layout summaries.get).derivedEdges.rows).filterMap fun (source,target) => do
      let source ← (localNodesOf segment func)[source]?
      let target ← (localNodesOf segment func)[target]?
      pure ⟨layout.segment,source,target⟩

def backwardOfReturn (func : FuncId) (layout : FunctionLayout) : List Nat :=
  match layout.returnNode with
  | none => []
  | some returnNode => (program.compile func layout summaries.get).reach.backwardClosure [returnNode]

def layoutRows : List (FuncId × FunctionLayout) := program.layouts.entries.map fun entry => (entry.1,entry.2)

def directlySensitive : List FuncId :=
  ((layoutRows program).filter fun (func,layout) => (symbolicConsumerNodes workspace scope func layout).any
    (backwardOfReturn program summaries func layout).contains).map (·.1)

-- `(caller, callee)` where the callee's result may reach the caller's result.
def returnDependencies : List (FuncId × FuncId) :=
  (layoutRows program).flatMap fun (func,layout) =>
    (program.boundaries.forCaller func).filterMap fun boundary =>
      if (program.boundaries.outputsOf boundary).any fun row =>
          (backwardOfReturn program summaries func layout).contains row.2
      then some (func,boundary.key.callee) else none

def symbolicSensitive : List FuncId :=
  Closure.closure (fun callee => ((returnDependencies program summaries).filter (·.2 = callee)).map (·.1))
    (program.layouts.entries.length + (returnDependencies program summaries).length)
    (directlySensitive workspace scope program summaries)

def symbolicCallees : IdMap (SortedRows FuncId) :=
  let sensitive := symbolicSensitive workspace scope program summaries
  let rows := (returnDependencies program summaries).filter fun row =>
    sensitive.contains row.1 && sensitive.contains row.2
  rows.foldl (fun callees row =>
    callees.insert row.1 (.ofList ((rows.filter (·.1 = row.1)).map (·.2)))) ∅

def requestedIndices (funcs : List FuncId) : IdMap (List Nat) :=
  (sortDedup funcs).foldl (fun indices func =>
    indices.insert func (match program.layouts.lookup func with
      | none => []
      | some layout => (layout.params.filter fun param =>
          (backwardOfReturn program summaries func layout).contains param.2).map (·.1))) ∅

end

def returnTaintParamIndicesInScope (workspace : IdgWorkspace) (funcs : List FuncId) (scope : FuncScope) :
    ReturnSummaryBatch :=
  let program := summaryProgram workspace scope
  let summaries := program.compileSummariesToFixedPoint
  { indices := requestedIndices program summaries funcs
    symbolicSensitive := symbolicSensitive workspace scope program summaries
    symbolicCallees := symbolicCallees workspace scope program summaries
    contextualEdges := (layoutRows program).flatMap fun (func,layout) =>
      derivedContextualEdges workspace program summaries func layout }

end BonsaiNinja.Idg

namespace BonsaiNinja.Idg
open Library

-- An edge of the workspace between two placed nodes; `projected` when either
-- endpoint is projected storage.
structure PlacedEdge where
  source : NodeId
  target : NodeId
  projected : Bool
  edgeMeta : EdgeMeta
  deriving DecidableEq, Repr

section
variable (unified : UnifiedAddressSpace)

def contextualEndpointIsStructural (kind : IdgEdgeKind) (source target : NodeId) : Bool :=
  match kind with
  | .interCallArg | .interSourceCallback => unified.hasBoundary target nodeBoundaryParam
  | .interReturn => unified.hasBoundary source nodeBoundaryReturn
  | .interYield => unified.hasBoundary source nodeBoundaryYield
  | .interThrow => unified.hasBoundary source nodeBoundaryThrow
  | _ => false

def contextualBoundaryIdentity (edge : PlacedEdge) : Option (ContextBoundaryKey × Bool) :=
  match edge.edgeMeta.kind with
  | .interCallArg | .interSourceCallback => do
    let caller ← unified.wsNodeFunc edge.source
    let callee ← unified.wsNodeFunc edge.target
    pure (⟨caller,callee,edge.edgeMeta.viaSpan⟩,true)
  | .interReturn | .interThrow | .interYield => do
    let caller ← unified.wsNodeFunc edge.target
    let callee ← unified.wsNodeFunc edge.source
    pure (⟨caller,callee,edge.edgeMeta.viaSpan⟩,false)
  | _ => none

namespace PlacedEdge
variable (edge : PlacedEdge)

def isStructural : Bool := contextualEndpointIsStructural unified edge.edgeMeta.kind edge.source edge.target

-- A projected endpoint makes an interprocedural edge heap flow, unless it is a
-- structural boundary.
def isHeap : Bool := edge.edgeMeta.kind.isInter && !edge.isStructural unified && edge.projected

def isOrdinary : Bool :=
  !edge.edgeMeta.kind.isInter && edge.edgeMeta.kind ≠ .intraAggregateConsume &&
    (unified.wsNodeFunc edge.source ≠ unified.wsNodeFunc edge.target || edge.edgeMeta.kind.isIntra)

def preservesExactCaptureTarget : Bool :=
  edge.edgeMeta.kind = .interCallArg && (unified.callArgs.lookup edge.source).isNone &&
    (unified.params.lookup edge.target).isNone && !unified.hasBoundary edge.source nodeBoundaryCallRet

end PlacedEdge

variable (workspace : IdgWorkspace) (allowed : FuncScope)

def nodePairIsAllowed (source target : NodeId) : Bool :=
  match allowed with
  | none => true
  | some funcs => (unified.wsNodeFunc source).any funcs.contains && (unified.wsNodeFunc target).any funcs.contains

def placeEdge (edge : CrossFileEdge) : Option PlacedEdge := do
  let source ← unified.wsNodeFor edge.fromSegment edge.edge.fromNode
  let target ← unified.wsNodeFor edge.toSegment edge.edge.toNode
  if nodePairIsAllowed unified allowed source target then
    some ⟨source,target,unified.isProjected source || unified.isProjected target,edge.edge.edgeMeta⟩
  else none

def contextualRelation : List CrossFileEdge :=
  (scopedViews workspace allowed).flatMap (fun (segmentId,segment) => segment.edges.map (⟨segmentId,segmentId,·⟩)) ++
    workspace.visitCrossFileEdges

def placedEdges : List PlacedEdge := (contextualRelation workspace allowed).filterMap (placeEdge unified allowed)

def heapRows : List (NodeId × NodeId) :=
  ((placedEdges unified workspace allowed).filter (·.isHeap unified)).map fun edge => (edge.source,edge.target)

def structuralBoundaryDemand : List (FuncId × Span) :=
  ((placedEdges unified workspace allowed).filter fun edge =>
    edge.edgeMeta.kind.isInter && !edge.isHeap unified && !edge.isStructural unified).filterMap fun edge =>
      (contextualBoundaryIdentity unified edge).map fun identity => (identity.1.caller,identity.1.span)

def structuralBoundaries : SortedRows ContextBoundaryKey :=
  .ofList (((placedEdges unified workspace allowed).filter (·.isStructural unified)).filterMap fun edge =>
    match contextualBoundaryIdentity unified edge with
    | some (key,_) =>
      if (structuralBoundaryDemand unified workspace allowed).contains (key.caller,key.span) then some key else none
    | none => none)

def structuralForSite (caller : FuncId) (span : Span) : List ContextBoundaryKey :=
  (structuralBoundaries unified workspace allowed).rows.filter fun key => key.caller = caller ∧ key.span = span

-- The boundaries one call or return edge belongs to: its own, or the structural
-- boundaries of its call site.
def boundaryKeys (edge : PlacedEdge) (endpoint : ContextBoundaryKey) : List ContextBoundaryKey :=
  let structural := structuralForSite unified workspace allowed endpoint.caller endpoint.span
  if structural.isEmpty || structural.any (fun key => key.callee = endpoint.callee) ||
      edge.preservesExactCaptureTarget unified then [endpoint]
  else structural

def boundaryRows (entering : Bool) : List (NodeId × ContextBoundaryEdge) :=
  ((placedEdges unified workspace allowed).filter fun edge => !edge.isHeap unified).flatMap fun edge =>
    match contextualBoundaryIdentity unified edge with
    | some (endpoint,enters) =>
      if enters = entering then
        (boundaryKeys unified workspace allowed edge endpoint).map fun key => (edge.source,⟨key,edge.target⟩)
      else []
    | none => []

def summaryPairs (summaryEdges : List ContextualSummaryEdge) : List (NodeId × NodeId) :=
  (summaryEdges.filterMap fun edge => do
    let source ← unified.wsNodeFor edge.segment edge.source
    let target ← unified.wsNodeFor edge.segment edge.target
    pure (source,target)).filter fun pair => nodePairIsAllowed unified allowed pair.1 pair.2

def ordinaryPairs : List (NodeId × NodeId) :=
  ((placedEdges unified workspace allowed).filter (·.isOrdinary unified)).map fun edge => (edge.source,edge.target)

def flipped (rows : List (NodeId × NodeId)) : List (NodeId × NodeId) := rows.map fun row => (row.2,row.1)

def boundaryPairs (entering : Bool) : List (NodeId × NodeId) :=
  (boundaryRows unified workspace allowed entering).map fun row => (row.1,row.2.target)

def buildContextualSummaryRuntimeWithReverse (summaryEdges : List ContextualSummaryEdge) (includeReverse : Bool) :
    ContextualSummaryRuntime :=
  let reachPairs := summaryPairs unified allowed summaryEdges ++ ordinaryPairs unified workspace allowed
  let reverse := fun rows => if includeReverse then flipped rows else []
  { reach := .ofList reachPairs
    heapByFrom := .ofList (heapRows unified workspace allowed)
    callsByFrom := .ofList (boundaryRows unified workspace allowed true)
    returnsByFrom := .ofList (boundaryRows unified workspace allowed false)
    reverseReach := .ofList (reverse reachPairs)
    reverseHeap := .ofList (reverse (heapRows unified workspace allowed))
    reverseCalls := .ofList (reverse (boundaryPairs unified workspace allowed true))
    reverseReturns := .ofList (reverse (boundaryPairs unified workspace allowed false)) }

def buildContextualSummaryRuntime (summaryEdges : List ContextualSummaryEdge) : ContextualSummaryRuntime :=
  buildContextualSummaryRuntimeWithReverse unified workspace allowed summaryEdges true

end

-- The requested functions only select summary rows, never edges: a scoped batch asks
-- for its scope, the global one for none.
def contextualRuntime (workspace : IdgWorkspace) (allowed : FuncScope) : ContextualSummaryRuntime :=
  buildContextualSummaryRuntime (buildUnified workspace) workspace allowed
    (returnTaintParamIndicesInScope workspace (allowed.getD []) allowed).contextualEdges

def queryRuntimes (workspace : IdgWorkspace) (allowed : FuncScope) : QueryRuntimes where
  unified := buildUnified workspace
  contextual := contextualRuntime workspace allowed
  runtime := buildSymbolicRuntimeIndex workspace (buildUnified workspace) allowed
  symbolic := workspace.symbolicField
  hasSymbolicTransforms := workspace.hasSymbolicTransforms

-- A query uses a runtime already compiled for the whole workspace when there is one,
-- and compiles its own scope otherwise.
def cachedScope (global : Bool) (allowed : FuncScope) : FuncScope := if global then none else allowed

def cachedRuntimes (workspace : IdgWorkspace) (globalContextual globalSymbolic : Bool) (allowed : FuncScope) :
    QueryRuntimes where
  unified := buildUnified workspace
  contextual := contextualRuntime workspace (cachedScope globalContextual allowed)
  runtime := buildSymbolicRuntimeIndex workspace (buildUnified workspace) (cachedScope globalSymbolic allowed)
  symbolic := workspace.symbolicField
  hasSymbolicTransforms := workspace.hasSymbolicTransforms

end BonsaiNinja.Idg
