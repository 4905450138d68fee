import BonsaiNinja.Idg.ContextualRuntime

namespace BonsaiNinja.Idg
open Library

structure WorkspaceBody where
  segments : List IdgSegment
  byFunc : IdMap SegmentId
  crossFile : List CrossFileEdge
  strings : List Text
  bases : List SymbolicFieldBase
  transforms : List SymbolicFieldTransform

-- Resident; spooled by the compiler, with some segments still decoded; or opened
-- from disk for queries.
inductive StorageMode where
  | resident
  | spooled (residentSegments : List Bool)
  | persisted

def emptySegment : IdgSegment := ⟨[],[],[],[],[]⟩

def WorkspaceBody.stored (body : WorkspaceBody) : StorageMode → IdgWorkspace
  | .resident =>
    { segments := body.segments, querySidecar := none, segmentSpool := none, residentSegments := [], crossFileSpool := none
      symbolicTransformSpool := none, byFunc := body.byFunc, crossFile := body.crossFile
      symbolicField := ⟨body.strings,body.bases,body.transforms⟩ }
  | .spooled residentSegments =>
    { segments := body.segments.zipIdx.map fun (segment,id) =>
        if residentSegments.getD id false then segment else emptySegment
      querySidecar := none, segmentSpool := some body.segments, residentSegments := residentSegments
      crossFileSpool := some body.crossFile, symbolicTransformSpool := some body.transforms, byFunc := body.byFunc
      crossFile := [], symbolicField := ⟨body.strings,body.bases,[]⟩ }
  | .persisted =>
    { segments := [], querySidecar := some ⟨body.segments,body.crossFile,body.transforms⟩, segmentSpool := none
      residentSegments := [], crossFileSpool := none, symbolicTransformSpool := none, byFunc := body.byFunc, crossFile := []
      symbolicField := .fromHeaderParts body.strings body.bases }

-- Tainted call arguments of a computed closure, with the unresolved calls that
-- consume a reached aggregate.
def taintedCallArgsOfNode (unified : UnifiedAddressSpace) (runtime : SymbolicRuntimeIndex) (targets : FuncScope)
    (node : NodeId) : List (FuncId × Span × Nat) :=
  match unified.wsNodeFunc node with
  | none => []
  | some func =>
    if !targets.admits func then [] else
    ((unified.callArgs.lookup node).toList.map fun arg => (func,arg)) ++
      (((runtime.aggregateOutputs.get node).filter fun argNode => !runtime.resolvedCallArgs.search argNode).filterMap
        fun argNode => do
          let argFunc ← unified.wsNodeFunc argNode
          if targets.admits argFunc then (unified.callArgs.lookup argNode).map fun arg => (argFunc,arg) else none)

def taintedCallArgsInReachableNodesForFuncs (unified : UnifiedAddressSpace) (runtime : SymbolicRuntimeIndex)
    (closure : List NodeId) (targets : FuncScope) : List (FuncId × Span × Nat) :=
  sortDedup (closure.flatMap (taintedCallArgsOfNode unified runtime targets))

structure SameAccess (left right : IdgWorkspace) : Prop where
  segmentCount : left.segmentCount = right.segmentCount
  segmentView : left.segmentView = right.segmentView
  crossFile : left.visitCrossFileEdges = right.visitCrossFileEdges
  transforms : left.visitSymbolicTransforms = right.visitSymbolicTransforms
  byFunc : left.byFunc = right.byFunc
  strings : left.symbolicField.strings = right.symbolicField.strings
  bases : left.symbolicField.bases = right.symbolicField.bases

theorem stored_sameAccess (body : WorkspaceBody) (mode : StorageMode) :
    SameAccess (body.stored mode) (body.stored .resident) := by
  cases mode with
  | resident => exact ⟨rfl,rfl,rfl,rfl,rfl,rfl,rfl⟩
  | persisted => exact ⟨rfl,rfl,rfl,rfl,rfl,rfl,rfl⟩
  | spooled residentSegments =>
    refine ⟨?_,?_,rfl,rfl,rfl,rfl,rfl⟩
    · simp [IdgWorkspace.segmentCount,WorkspaceBody.stored]
    · funext id
      change (if residentSegments.getD id false = true then _ else body.segments[id]?) = body.segments[id]?
      by_cases kept : residentSegments.getD id false = true
      · rw [if_pos kept]
        simp only [WorkspaceBody.stored]
        rw [List.getElem?_map, List.getElem?_zipIdx]
        cases body.segments[id]? with
        | none => rfl
        | some segment =>
          simp only [Option.map_some, Nat.zero_add]
          rw [if_pos kept]
      · rw [if_neg kept]

section
variable {left right : IdgWorkspace}

section
variable (same : SameAccess left right)
include same

theorem SameAccess.baseId : left.symbolicField.baseId = right.symbolicField.baseId := by
  funext segment func storage
  simp only [SymbolicFieldGraph.baseId, SymbolicFieldGraph.stringId, same.strings, same.bases]

theorem SameAccess.rebaseSpecs :
    rebaseSpecs left.symbolicField = rebaseSpecs right.symbolicField := by
  simp only [Idg.rebaseSpecs, rebaseSpecsOf, SymbolicFieldGraph.string, same.strings, same.bases, same.baseId]

theorem SameAccess.summarySegments : summarySegments left = summarySegments right := by
  have owner : left.segmentForFunc = right.segmentForFunc := by
    funext func
    simp only [IdgWorkspace.segmentForFunc, same.byFunc]
  funext scope
  simp only [Idg.summarySegments, same.segmentCount, owner]

theorem SameAccess.scopedViews : scopedViews left = scopedViews right := by
  funext allowed
  simp only [Idg.scopedViews, symbolicSegments, same.summarySegments, same.segmentView]

theorem SameAccess.scopedNodes : scopedNodes left = scopedNodes right := by
  funext allowed
  simp only [Idg.scopedNodes, same.scopedViews]

theorem SameAccess.symbolicFields : symbolicFields left = symbolicFields right := by
  funext allowed
  simp only [Idg.symbolicFields, fieldNames, same.scopedNodes, same.rebaseSpecs]

theorem SameAccess.admittedTransforms :
    admittedTransforms left = admittedTransforms right := by
  funext allowed
  simp only [Idg.admittedTransforms, same.transforms]
  congr 1
  funext transform
  simp only [transformAdmitted, same.bases]

theorem SameAccess.symbolicSpans : symbolicSpans left = symbolicSpans right := by
  funext allowed
  simp only [Idg.symbolicSpans, same.scopedNodes, same.admittedTransforms]

theorem SameAccess.orderingSensitive : orderingSensitive left = orderingSensitive right := by
  funext allowed
  simp only [Idg.orderingSensitive, same.admittedTransforms]

theorem SameAccess.pageFacts : pageFacts left = pageFacts right := by
  funext allowed visited
  simp only [Idg.pageFacts, same.baseId, same.symbolicFields, same.orderingSensitive, same.symbolicSpans]

theorem SameAccess.factPages : factPages left = factPages right := by
  funext allowed
  simp only [Idg.factPages, buildSymbolicFactPage, same.scopedViews, same.pageFacts]

theorem SameAccess.projectedFacts : projectedFacts left = projectedFacts right := by
  funext segmentBases allowed
  simp only [Idg.projectedFacts, same.scopedNodes, same.pageFacts]

theorem SameAccess.storageBase : storageBase left = storageBase right := by
  funext segmentBases visited
  simp only [Idg.storageBase, same.baseId]

theorem SameAccess.scalarWriteRows : scalarWriteRows left = scalarWriteRows right := by
  funext segmentBases allowed
  simp only [Idg.scalarWriteRows, same.scopedNodes, same.storageBase]

theorem SameAccess.storageReadRows : storageReadRows left = storageReadRows right := by
  funext segmentBases allowed
  simp only [Idg.storageReadRows, bareReadRows, same.scopedNodes, same.storageBase]

theorem SameAccess.aggregateEdges : aggregateEdges left = aggregateEdges right := by
  funext segmentBases allowed
  simp only [Idg.aggregateEdges, same.scopedViews]

theorem SameAccess.resolvedByEdge : resolvedByEdge left = resolvedByEdge right := by
  funext segmentBases allowed
  simp only [Idg.resolvedByEdge, symbolicSegments, same.summarySegments, same.scopedViews, same.crossFile]

theorem index_congr {segmentBases : List Nat} {layout : Option UnifiedAddressSpace}
    {allowed : FuncScope} (resolved : resolvedCallArgs left segmentBases layout allowed =
      resolvedCallArgs right segmentBases layout allowed) :
    buildSymbolicRuntimeIndexWithLayout left segmentBases layout allowed =
      buildSymbolicRuntimeIndexWithLayout right segmentBases layout allowed := by
  simp only [buildSymbolicRuntimeIndexWithLayout, aggregateReadRows, scopedAggregateEdges, same.symbolicFields,
    same.symbolicSpans, same.orderingSensitive, same.rebaseSpecs, same.projectedFacts, same.scalarWriteRows,
    same.storageReadRows, same.aggregateEdges, same.admittedTransforms, same.factPages, resolved]

theorem SameAccess.summaryProgram : summaryProgram left = summaryProgram right := by
  funext scope
  have lowered : lowerInputs left = lowerInputs right := by
    funext scope inputs segmentId
    simp only [lowerInputs, same.segmentView]
  simp only [Idg.summaryProgram, buildLocalSummaryInputs, crossFileBoundaries, same.summarySegments, lowered,
    same.crossFile]

theorem SameAccess.contextualEdges (funcs : List FuncId) (scope : FuncScope) :
    (returnTaintParamIndicesInScope left funcs scope).contextualEdges =
      (returnTaintParamIndicesInScope right funcs scope).contextualEdges := by
  simp only [returnTaintParamIndicesInScope, same.summaryProgram]
  congr 1
  funext row
  simp only [derivedContextualEdges, same.segmentView]

theorem SameAccess.contextual (unified : UnifiedAddressSpace) (allowed : FuncScope)
    (edges : List ContextualSummaryEdge) :
    buildContextualSummaryRuntime unified left allowed edges = buildContextualSummaryRuntime unified right allowed edges := by
  have placed : placedEdges unified left = placedEdges unified right := by
    funext scope
    simp only [placedEdges, contextualRelation, same.scopedViews, same.crossFile]
  have demand : structuralBoundaryDemand unified left = structuralBoundaryDemand unified right := by
    funext scope
    simp only [structuralBoundaryDemand, placed]
  have structural : structuralBoundaries unified left = structuralBoundaries unified right := by
    funext scope
    simp only [structuralBoundaries, placed]
    rw [demand]
  have sites : structuralForSite unified left = structuralForSite unified right := by
    funext scope caller span
    simp only [structuralForSite, structural]
  have boundaries : boundaryRows unified left = boundaryRows unified right := by
    unfold boundaryRows boundaryKeys
    rw [sites, placed]
  simp only [buildContextualSummaryRuntime, buildContextualSummaryRuntimeWithReverse, ordinaryPairs, heapRows, boundaryPairs,
    placed, boundaries]

end

end

-- A closure run reads only the dictionaries of the symbolic graph.
theorem closureLoop_dictionary (program : ClosureProgram) (transforms : List SymbolicFieldTransform) (fuel : Nat)
    (w : SymbolicClosureWorklist) :
    ({ program with symbolic := ⟨program.symbolic.strings,program.symbolic.bases,transforms⟩ } : ClosureProgram).closureLoop
      fuel w = program.closureLoop fuel w := by
  induction fuel generalizing w with
  | zero => rfl
  | succ fuel ih =>
    rw [ClosureProgram.closureLoop, ClosureProgram.closureLoop, ih]
    rfl

theorem symbolicForwardClosureNodes_dictionary (runtimes : QueryRuntimes) (transforms : List SymbolicFieldTransform)
    (seeds : List NodeId) (policy : SymbolicClosurePolicy) :
    ({ runtimes with symbolic := ⟨runtimes.symbolic.strings,runtimes.symbolic.bases,transforms⟩ } :
      QueryRuntimes).symbolicForwardClosureNodes seeds policy = runtimes.symbolicForwardClosureNodes seeds policy := by
  have run := closureLoop_dictionary (runtimes.program policy) transforms (runtimes.program policy).closureFuel
    ((runtimes.program policy).seedWorklist seeds)
  unfold QueryRuntimes.symbolicForwardClosureNodes ClosureProgram.closureRun
  rw [← run]
  rfl

section
variable (body : WorkspaceBody) (unified : UnifiedAddressSpace) (segmentBases : List Nat)
  (layout : Option UnifiedAddressSpace) (allowed : FuncScope)

def storedIndex (mode : StorageMode) : SymbolicRuntimeIndex :=
  buildSymbolicRuntimeIndexWithLayout (body.stored mode) segmentBases layout allowed

def storedRuntimes (mode : StorageMode) : QueryRuntimes where
  unified := unified
  contextual := buildContextualSummaryRuntime unified (body.stored mode) allowed
    (returnTaintParamIndicesInScope (body.stored mode) (allowed.getD []) allowed).contextualEdges
  runtime := storedIndex body segmentBases layout allowed mode
  symbolic := (body.stored mode).symbolicField
  hasSymbolicTransforms := (body.stored mode).hasSymbolicTransforms

-- The index, the closures and the tainted arguments a mode answers are those of the
-- resident workspace.
structure StorageIndependent : Prop where
  index : ∀ mode, storedIndex body segmentBases layout allowed mode = storedIndex body segmentBases layout allowed .resident
  closure : ∀ mode seeds scope relevance root,
    (storedRuntimes body unified segmentBases layout allowed mode).forwardClosureEvidenceInFuncScope seeds scope relevance root =
      (storedRuntimes body unified segmentBases layout allowed .resident).forwardClosureEvidenceInFuncScope seeds scope
        relevance root
  tainted : ∀ mode closure targets,
    taintedCallArgsInReachableNodesForFuncs unified (storedIndex body segmentBases layout allowed mode) closure targets =
      taintedCallArgsInReachableNodesForFuncs unified (storedIndex body segmentBases layout allowed .resident) closure targets

def EdgesResolveArguments : Prop :=
  ∀ visited ∈ scopedNodes (body.stored .resident) allowed, resolvedByTransform (body.stored .resident) visited = true →
    ∀ node, wsNodeForSegmentBases segmentBases visited.segmentId visited.localNode = some node →
      node ∈ resolvedByEdge (body.stored .resident) segmentBases allowed ∧ nodeOwnedByAllowed layout allowed node = true

variable {body unified segmentBases layout allowed}

theorem mem_resolvedCallArgs {workspace : IdgWorkspace} {node : NodeId} :
    node ∈ resolvedCallArgs workspace segmentBases layout allowed ↔
      (∃ visited ∈ scopedNodes workspace allowed, resolvedByTransform workspace visited = true ∧
        wsNodeForSegmentBases segmentBases visited.segmentId visited.localNode = some node) ∨
      node ∈ resolvedByEdge workspace segmentBases allowed ∧ nodeOwnedByAllowed layout allowed node = true := by
  simp only [resolvedCallArgs, SortedRows.mem_ofList, List.mem_append, List.mem_filterMap, List.mem_filter, and_assoc]

-- Outside a resident workspace the transforms the index asks for are not there.
theorem resolvedByTransform_away {mode : StorageMode} (away : (body.stored mode).symbolicField.transforms = [])
    (visited : ScopedNode) : resolvedByTransform (body.stored mode) visited = false := by
  unfold resolvedByTransform resolvedSymbolicArgs
  rw [away]
  split <;> simp

theorem resolved_iff {mode : StorageMode} (away : (body.stored mode).symbolicField.transforms = []) :
    resolvedCallArgs (body.stored mode) segmentBases layout allowed =
        resolvedCallArgs (body.stored .resident) segmentBases layout allowed ↔
      EdgesResolveArguments body segmentBases layout allowed := by
  have same := stored_sameAccess body mode
  have elsewhere : ∀ node, node ∈ resolvedCallArgs (body.stored mode) segmentBases layout allowed ↔
      node ∈ resolvedByEdge (body.stored .resident) segmentBases allowed ∧ nodeOwnedByAllowed layout allowed node = true := by
    intro node
    rw [mem_resolvedCallArgs, same.resolvedByEdge]
    refine ⟨fun found => found.elim (fun transformed => ?_) id,.inr⟩
    obtain ⟨visited,_,resolved,_⟩ := transformed
    rw [resolvedByTransform_away away] at resolved
    cases resolved
  constructor
  · intro equal visited inside resolved node address
    rw [← elsewhere, equal]
    exact mem_resolvedCallArgs.mpr (.inl ⟨visited,inside,resolved,address⟩)
  · intro edges
    refine SortedRows.ext_mem fun node => ?_
    rw [elsewhere, mem_resolvedCallArgs]
    refine ⟨.inr,fun found => found.elim (fun transformed => ?_) id⟩
    obtain ⟨visited,inside,resolved,address⟩ := transformed
    exact edges visited inside resolved node address

theorem storedIndex_eq (edges : EdgesResolveArguments body segmentBases layout allowed) (mode : StorageMode) :
    storedIndex body segmentBases layout allowed mode = storedIndex body segmentBases layout allowed .resident := by
  refine index_congr (stored_sameAccess body mode) ?_
  cases mode with
  | resident => rfl
  | spooled | persisted => exact (resolved_iff rfl).mpr edges

theorem storedRuntimes_eq (edges : EdgesResolveArguments body segmentBases layout allowed) (mode : StorageMode) :
    storedRuntimes body unified segmentBases layout allowed mode =
      { storedRuntimes body unified segmentBases layout allowed .resident with
        symbolic := ⟨body.strings,body.bases,(body.stored mode).symbolicField.transforms⟩ } := by
  have same := stored_sameAccess body mode
  have dictionary : (body.stored mode).symbolicField =
      ⟨body.strings,body.bases,(body.stored mode).symbolicField.transforms⟩ := by cases mode <;> rfl
  have transforms : (body.stored mode).hasSymbolicTransforms = (body.stored .resident).hasSymbolicTransforms := by
    rw [IdgWorkspace.hasSymbolicTransforms, IdgWorkspace.hasSymbolicTransforms, same.transforms]
  unfold storedRuntimes
  rw [same.contextualEdges, same.contextual, storedIndex_eq edges mode, transforms, ← dictionary]

end

-- `obj.f` is written and `obj` passed to function 1 at one call; only the field
-- transform connects the argument with the formal.
def transformOnlyCall : WorkspaceBody where
  segments := [{
    places := [.write 0 [1] ⟨0,10,15⟩,.callArg ⟨⟨0,20,26⟩⟩ 0,.param 0]
    nodes := [⟨0,0⟩,⟨0,1⟩,⟨1,2⟩]
    edges := [⟨0,1,⟨.intraAggregateConsume,.direct,⟨0,20,26⟩⟩⟩]
    funcs := [0,1]
    strings := [['o','b','j'],['f']] }]
  byFunc := (AList.singleton 0 0).insert 1 0
  crossFile := []
  strings := [['o','b','j'],['p']]
  bases := [⟨0,0,0⟩,⟨0,1,1⟩]
  transforms := [⟨0,1,none,⟨0,20,26⟩,⟨0,20,26⟩,.direct,.argument,some 0,some 0,false⟩]

end BonsaiNinja.Idg
