import BonsaiNinja.Idg.Query
import BonsaiNinja.Idg.Workspace
import BonsaiNinja.Library.Ranges

namespace BonsaiNinja.Idg
open Library

-- `none` admits every function of the workspace.
abbrev FuncScope := Option (List FuncId)

def FuncScope.admits (scope : FuncScope) (func : FuncId) : Bool :=
  match scope with
  | none => true
  | some funcs => funcs.contains func

structure CallBoundaryKey where
  caller : FuncId
  callee : FuncId
  span : Span
  deriving DecidableEq, Repr

instance : RowOrder CallBoundaryKey := .lift (fun k => (k.caller,k.callee,k.span)) fun a b same => by
  cases a; cases b; simp_all

structure CallBoundary where
  key : CallBoundaryKey
  inputStart : Nat
  inputEnd : Nat
  outputStart : Nat
  outputEnd : Nat

-- `inputs` holds (caller source, callee input) rows and `outputs` holds
-- (callee output, caller continuation) rows; a boundary is a range of each.
structure CallBoundaries where
  rows : List CallBoundary
  inputs : List (Nat × Nat)
  outputs : List (Nat × Nat)
  callerOffsets : List Nat

namespace CallBoundaries

def forCaller (boundaries : CallBoundaries) (caller : FuncId) : List CallBoundary :=
  match boundaries.callerOffsets[caller]?, boundaries.callerOffsets[caller + 1]? with
  | some start, some stop => slice boundaries.rows start stop
  | _, _ => []

def inputsOf (boundaries : CallBoundaries) (boundary : CallBoundary) : List (Nat × Nat) :=
  slice boundaries.inputs boundary.inputStart boundary.inputEnd

def outputsOf (boundaries : CallBoundaries) (boundary : CallBoundary) : List (Nat × Nat) :=
  slice boundaries.outputs boundary.outputStart boundary.outputEnd

end CallBoundaries

structure BoundaryPairRow where
  key : CallBoundaryKey
  pair : Nat × Nat
  deriving DecidableEq, Repr

instance : RowOrder BoundaryPairRow := .lift (fun r => (r.key,r.pair)) fun a b same => by
  cases a; cases b; simp_all

-- The two row relations being collected. Sorted runs merged on read deliver each
-- distinct row once, in order.
structure BoundarySpools where
  inputs : List BoundaryPairRow
  outputs : List BoundaryPairRow

def finishSpool (rows : List BoundaryPairRow) : List BoundaryPairRow := sortDedup rows

structure FunctionLayout where
  segment : SegmentId
  nodeCount : Nat
  params : List (Nat × Nat)
  outputs : List Nat
  returnNode : Option Nat

def FunctionLayout.new (segment : SegmentId) : FunctionLayout := ⟨segment,0,[],[],none⟩

structure FunctionCompilation where
  reach : ReachabilityIndex
  summary : SortedRows (Nat × Nat)
  derivedEdges : SortedRows (Nat × Nat)

inductive Boundary where
  | none | param | return | throw | yield
  deriving DecidableEq, Repr

structure CompactAddress where
  func : FuncId
  compact : Nat
  boundary : Boundary
  deriving DecidableEq, Repr

def boundaryTag : Option Place → Boundary
  | some (.param _) => .param
  | some .return => .return
  | some (.throw ..) => .throw
  | some .yield => .yield
  | _ => .none

-- One node takes the next compact index of its function and registers its ports.
def FunctionLayout.addNode (layout : FunctionLayout) (place : Option Place) : FunctionLayout :=
  let compact := layout.nodeCount
  let layout := { layout with nodeCount := compact + 1 }
  match place with
  | some (.param idx) => { layout with params := layout.params ++ [(idx,compact)] }
  | some .return => { layout with returnNode := some compact, outputs := layout.outputs ++ [compact] }
  | some (.throw ..) => { layout with outputs := layout.outputs ++ [compact] }
  | _ => layout

structure Lowering where
  layouts : IdMap FunctionLayout
  addresses : List CompactAddress

def lowerNode (scope : FuncScope) (segmentId : SegmentId) (segment : IdgSegment) (s : Lowering) (node : IdgNode) :
    Lowering :=
  if scope.admits node.func then
    let layout := (s.layouts.lookup node.func).getD (.new segmentId)
    ⟨s.layouts.insert node.func (layout.addNode (segment.placeOf node)),
      s.addresses ++ [⟨node.func,layout.nodeCount,boundaryTag (segment.placeOf node)⟩]⟩
  else ⟨s.layouts,s.addresses ++ [⟨node.func,0,.none⟩]⟩

def lowerSegment (scope : FuncScope) (layouts : IdMap FunctionLayout) (segmentId : SegmentId) (segment : IdgSegment) :
    Lowering :=
  segment.nodes.foldl (lowerNode scope segmentId segment) ⟨layouts,[]⟩

-- Nodes of each function are renumbered in segment order; an address needs a
-- layout with room for it.
def baseAddresses (layouts : IdMap FunctionLayout) : IdMap Nat → List IdgNode → List (Option (FuncId × Nat))
  | _, [] => []
  | nextCompact, node :: rest =>
    let compact := (nextCompact.lookup node.func).getD 0
    let address := match layouts.lookup node.func with
      | some layout => if compact < layout.nodeCount then some (node.func,compact) else none
      | none => none
    address :: baseAddresses layouts (nextCompact.insert node.func (compact + 1)) rest

def segmentBaseEdges (segment : IdgSegment) (layouts : IdMap FunctionLayout) (func : FuncId) :
    SortedRows (Nat × Nat) :=
  let addresses := baseAddresses layouts ∅ segment.nodes
  .ofList (segment.edges.filterMap fun edge =>
    if edge.edgeMeta.kind = .intraAggregateConsume || !edge.edgeMeta.kind.isIntra then none
    else match addresses[edge.fromNode]?, addresses[edge.toNode]? with
      | some (some (fromFunc,source)), some (some (toFunc,target)) =>
        if fromFunc = toFunc && fromFunc = func then some (source,target) else none
      | _, _ => none)

def structuralBoundary (kind : IdgEdgeKind) (source target : CompactAddress) : Bool :=
  match kind with
  | .interCallArg | .interSourceCallback => target.boundary = .param
  | .interReturn => source.boundary = .return
  | .interThrow => source.boundary = .throw
  | .interYield => source.boundary = .yield
  | _ => false

def recordCallBoundary (spools : BoundarySpools) (fromAddresses toAddresses : List CompactAddress) (edge : IdgEdge)
    (scope : FuncScope) : BoundarySpools :=
  if edge.edgeMeta.kind = .intraAggregateConsume then spools else
  match fromAddresses[edge.fromNode]?, toAddresses[edge.toNode]? with
  | some source, some target =>
    if !(scope.admits source.func && scope.admits target.func) then spools else
    if !structuralBoundary edge.edgeMeta.kind source target then spools else
    match edge.edgeMeta.kind with
    | .interCallArg | .interSourceCallback =>
      { spools with inputs := spools.inputs ++
          [⟨⟨source.func,target.func,edge.edgeMeta.viaSpan⟩,(source.compact,target.compact)⟩] }
    | .interReturn | .interThrow | .interYield =>
      { spools with outputs := spools.outputs ++
          [⟨⟨target.func,source.func,edge.edgeMeta.viaSpan⟩,(source.compact,target.compact)⟩] }
    | _ => spools
  | _, _ => spools

structure LocalSummaryInputs where
  layouts : IdMap FunctionLayout
  addresses : IdMap (List CompactAddress)
  basePages : IdMap (FuncId → SortedRows (Nat × Nat))
  spools : BoundarySpools

def summarySegments (workspace : IdgWorkspace) (scope : FuncScope) : List SegmentId :=
  sortDedup (match scope with
    | some funcs => funcs.filterMap workspace.segmentForFunc
    | none => List.range workspace.segmentCount)

def lowerInputs (workspace : IdgWorkspace) (scope : FuncScope) (s : LocalSummaryInputs) (segmentId : SegmentId) :
    LocalSummaryInputs :=
  match workspace.segmentView segmentId with
  | none => s
  | some segment =>
    let lowered := lowerSegment scope s.layouts segmentId segment
    ⟨lowered.layouts,s.addresses.insert segmentId lowered.addresses,
      s.basePages.insert segmentId (segmentBaseEdges segment lowered.layouts),
      segment.edges.foldl (fun spools edge =>
        recordCallBoundary spools lowered.addresses lowered.addresses edge scope) s.spools⟩

def FunctionLayout.sortPorts (layout : FunctionLayout) : FunctionLayout :=
  { layout with params := sortDedup layout.params, outputs := sortDedup layout.outputs }

def buildLocalSummaryInputs (workspace : IdgWorkspace) (segments : List SegmentId) (scope : FuncScope) :
    LocalSummaryInputs :=
  let lowered := segments.foldl (lowerInputs workspace scope) ⟨∅,∅,∅,⟨[],[]⟩⟩
  { lowered with layouts := IdMap.mapValues FunctionLayout.sortPorts lowered.layouts }

def recordCrossFile (addresses : IdMap (List CompactAddress)) (scope : FuncScope) (spools : BoundarySpools)
    (edge : CrossFileEdge) : BoundarySpools :=
  match addresses.lookup edge.fromSegment, addresses.lookup edge.toSegment with
  | some source, some target => recordCallBoundary spools source target edge.edge scope
  | _, _ => spools

def crossFileBoundaries (workspace : IdgWorkspace) (inputs : LocalSummaryInputs) (scope : FuncScope) : BoundarySpools :=
  workspace.visitCrossFileEdges.foldl (recordCrossFile inputs.addresses scope) inputs.spools

def nextBoundaryKey (inputRows outputRows : List BoundaryPairRow) : Option CallBoundaryKey :=
  match inputRows, outputRows with
  | input :: _, output :: _ => some (if before output.key input.key then output.key else input.key)
  | input :: _, [] => some input.key
  | [], output :: _ => some output.key
  | [], [] => none

-- One boundary for every key met in either sorted relation, smallest key first.
def mergeBoundaries : Nat → List BoundaryPairRow → List BoundaryPairRow → CallBoundaries → CallBoundaries
  | 0, _, _, s => s
  | fuel + 1, inputRows, outputRows, s =>
    match nextBoundaryKey inputRows outputRows with
    | none => s
    | some key =>
      let inputs := s.inputs ++ (inputRows.takeWhile (·.key = key)).map (·.pair)
      let outputs := s.outputs ++ (outputRows.takeWhile (·.key = key)).map (·.pair)
      mergeBoundaries fuel (inputRows.dropWhile (·.key = key)) (outputRows.dropWhile (·.key = key))
        { s with inputs := inputs, outputs := outputs
                 rows := s.rows ++ [⟨key,s.inputs.length,inputs.length,s.outputs.length,outputs.length⟩] }

def offsetTableSize (rows : List CallBoundary) : Nat :=
  match (rows.map (·.key.caller)).max? with
  | none => 1
  | some largest => largest + 2

-- `offsets[f] .. offsets[f + 1]` is the range of caller `f`.
def callerOffsets (rows : List CallBoundary) : List Nat :=
  countOffsets (rows.map (·.key.caller)) (offsetTableSize rows)

def buildCallBoundaries (inputRows outputRows : List BoundaryPairRow) : CallBoundaries :=
  let merged := mergeBoundaries (inputRows.length + outputRows.length) inputRows outputRows ⟨[],[],[],[]⟩
  { merged with callerOffsets := callerOffsets merged.rows }

abbrev Summaries := IdMap (SortedRows (Nat × Nat))

def Summaries.get (summaries : Summaries) (func : FuncId) : SortedRows (Nat × Nat) := (summaries.lookup func).getD ⊥

-- `summaries` is the map as read: a callee without an entry has no pairs.
def derivedPairs (boundaries : CallBoundaries) (baseEdges : SortedRows (Nat × Nat))
    (summaries : FuncId → SortedRows (Nat × Nat)) (boundary : CallBoundary) : List (Nat × Nat) :=
  (boundaries.inputsOf boundary).flatMap fun (callerInput,calleeInput) =>
    (boundaries.outputsOf boundary).filterMap fun (calleeOutput,callerContinuation) =>
      if (summaries boundary.key.callee).search (calleeInput,calleeOutput) &&
          !baseEdges.search (callerInput,callerContinuation)
      then some (callerInput,callerContinuation) else none

def compileFunction (func : FuncId) (layout : FunctionLayout) (baseEdges : SortedRows (Nat × Nat))
    (boundaries : CallBoundaries) (summaries : FuncId → SortedRows (Nat × Nat)) : FunctionCompilation :=
  let derivedEdges := SortedRows.ofList ((boundaries.forCaller func).flatMap (derivedPairs boundaries baseEdges summaries))
  let reach := ReachabilityIndex.fromPairs layout.nodeCount (baseEdges.rows ++ derivedEdges.rows)
  let summary := layout.outputs.flatMap fun output =>
    let backward := reach.backwardClosure [output]
    (layout.params.filter fun param => backward.contains param.2).map fun param => (param.2,output)
  ⟨reach,.ofList summary,derivedEdges⟩

-- Everything the worklist reads: one base-edge page per segment, the boundaries
-- and the callers to wake when a callee changes.
structure SummaryProgram where
  layouts : IdMap FunctionLayout
  basePages : SegmentId → FuncId → SortedRows (Nat × Nat)
  boundaries : CallBoundaries
  callersByCallee : IdMap (List FuncId)

def SummaryProgram.compile (program : SummaryProgram) (func : FuncId) (layout : FunctionLayout)
    (summaries : FuncId → SortedRows (Nat × Nat)) : FunctionCompilation :=
  compileFunction func layout (program.basePages layout.segment func) program.boundaries summaries

structure SummaryRun where
  summaries : Summaries
  batch : List FuncId
  pending : List FuncId

-- Recompile one function of the batch in place and wake its callers if its
-- summary moved.
def SummaryProgram.recompile (program : SummaryProgram) (s : SummaryRun) (func : FuncId) : SummaryRun :=
  let batch := s.batch.erase func
  match program.layouts.lookup func with
  | none => { s with batch := batch }
  | some layout =>
    let summary := (program.compile func layout s.summaries.get).summary
    if s.summaries.lookup func = some summary then { s with batch := batch } else
    ⟨s.summaries.insert func summary,batch,
      ((program.callersByCallee.lookup func).getD []).foldl (fun pending caller => pending.insert caller) s.pending⟩

def SummaryProgram.start (program : SummaryProgram) : SummaryRun :=
  ⟨IdMap.mapValues (fun _ => ⊥) program.layouts,[],program.layouts.keys⟩

def SummaryProgram.drainOrder (program : SummaryProgram) (pending : List FuncId) : List FuncId :=
  (sortDedup (pending.filterMap fun func =>
    (program.layouts.lookup func).map fun layout => (layout.segment,func))).map (·.2)

def SummaryProgram.round (program : SummaryProgram) (s : SummaryRun) : SummaryRun :=
  let batch := program.drainOrder s.pending
  batch.foldl program.recompile ⟨s.summaries,batch,[]⟩

def SummaryProgram.rounds (program : SummaryProgram) : Nat → SummaryRun → SummaryRun
  | 0, s => s
  | fuel + 1, s => if s.pending.isEmpty then s else program.rounds fuel (program.round s)

-- Rounds that can change a summary: each adds at least one (parameter, output).
def SummaryProgram.capacity (program : SummaryProgram) : Nat :=
  (program.layouts.entries.map fun entry => entry.2.params.length * entry.2.outputs.length).sum

def SummaryProgram.compileSummariesToFixedPoint (program : SummaryProgram) : Summaries :=
  (program.rounds (program.capacity + 2) program.start).summaries

def insertCaller (callers : IdMap (List FuncId)) (boundary : CallBoundary) : IdMap (List FuncId) :=
  callers.insert boundary.key.callee ((callers.lookup boundary.key.callee).getD [] ++ [boundary.key.caller])

def callersByCallee (boundaries : CallBoundaries) : IdMap (List FuncId) :=
  IdMap.mapValues sortDedup (boundaries.rows.foldl insertCaller ∅)

def summaryProgram (workspace : IdgWorkspace) (scope : FuncScope) : SummaryProgram :=
  let inputs := buildLocalSummaryInputs workspace (summarySegments workspace scope) scope
  let spools := crossFileBoundaries workspace inputs scope
  let boundaries := buildCallBoundaries (finishSpool spools.inputs) (finishSpool spools.outputs)
  ⟨inputs.layouts,fun segment => (inputs.basePages.lookup segment).getD fun _ => ⊥,boundaries,callersByCallee boundaries⟩

def functionSummaries (workspace : IdgWorkspace) (scope : FuncScope) : Summaries :=
  (summaryProgram workspace scope).compileSummariesToFixedPoint

end BonsaiNinja.Idg
