import BonsaiNinja.Idg.SymbolicRuntime

namespace BonsaiNinja.Idg
open Library

def rebaseSpecsOf (symbolic : SymbolicFieldGraph) (nestedId : Nat) (nested : SymbolicFieldBase) : List RebaseSpec :=
  match symbolic.string nested.storage with
  | none => []
  | some storage =>
    let parts := splitDots storage
    ((List.range parts.length).drop 1).flatMap fun split =>
      match symbolic.baseId nested.segment nested.func (joinDots (parts.take split)) with
      | none => []
      | some ancestorId =>
        [⟨nestedId,ancestorId,joinDots (parts.drop split),.prependPrefix⟩,
          ⟨ancestorId,nestedId,joinDots (parts.drop split),.stripPrefix⟩]

def rebaseSpecs (symbolic : SymbolicFieldGraph) : SortedRows RebaseSpec :=
  .ofList (symbolic.bases.zipIdx.flatMap fun (nested,nestedId) => rebaseSpecsOf symbolic nestedId nested)

def rebasesFromSpecs (specs : SortedRows RebaseSpec) (fields : SortedRows Text) : GroupedRows Nat SymbolicBaseRebase :=
  .ofList (specs.rows.filterMap fun spec =>
    (fields.rows.idxOf? spec.prefixText).map fun prefixId => (spec.source,⟨spec.target,prefixId,spec.kind⟩))

structure ScopedNode where
  segmentId : SegmentId
  segment : IdgSegment
  localNode : NodeId
  node : IdgNode

def ScopedNode.place (visited : ScopedNode) : Option Place := visited.segment.placeOf visited.node

def ScopedNode.storage (visited : ScopedNode) : Option (List Text × Option Span × Bool) :=
  visited.place.bind (structuredStorageParts visited.segment)

-- `(base suffix, field suffix)` for every proper split of a storage path.
def accessPaths (parts : List Text) : List (Text × Text) :=
  ((List.range parts.length).drop 1).map fun split => (joinDots (parts.take split),joinDots (parts.drop split))

section
variable (workspace : IdgWorkspace) (segmentBases : List Nat) (unified : Option UnifiedAddressSpace)
  (allowed : FuncScope)

def symbolicSegments : List SegmentId := summarySegments workspace allowed

def scopedViews : List (SegmentId × IdgSegment) :=
  (symbolicSegments workspace allowed).filterMap fun id => (workspace.segmentView id).map fun segment => (id,segment)

def viewNodes (view : SegmentId × IdgSegment) : List ScopedNode :=
  (view.2.nodes.zipIdx.map fun (node,localNode) => ⟨view.1,view.2,localNode,node⟩).filter fun visited =>
    allowed.admits visited.node.func

def scopedNodes : List ScopedNode := (scopedViews workspace allowed).flatMap (viewNodes allowed)

def nodeOwnedByAllowed (node : NodeId) : Bool :=
  match allowed with
  | none => true
  | some funcs => ((unified.bind (·.wsNodeFunc node)).any funcs.contains)

def fieldNames : List Text :=
  ((scopedNodes workspace allowed).filterMap ScopedNode.storage).flatMap fun storage => (accessPaths storage.1).map (·.2)

def symbolicFields : SortedRows Text :=
  .ofList (fieldNames workspace allowed ++ (rebaseSpecs workspace.symbolicField).rows.map (·.prefixText))

def transformAdmitted (transform : SymbolicFieldTransform) : Bool :=
  match allowed with
  | none => true
  | some funcs =>
    (workspace.symbolicField.bases[transform.source]?).any (fun base => funcs.contains base.func) &&
      (workspace.symbolicField.bases[transform.target]?).any (fun base => funcs.contains base.func)

def admittedTransforms : List SymbolicFieldTransform :=
  workspace.visitSymbolicTransforms.filter (transformAdmitted workspace allowed)

def symbolicSpans : SortedRows Span :=
  .ofList (((scopedNodes workspace allowed).filterMap ScopedNode.storage).filterMap (·.2.1) ++
    (admittedTransforms workspace allowed).map (·.writeSpan))

def orderingSensitive : List Nat :=
  ((admittedTransforms workspace allowed).filter fun transform => !transform.allowOutOfOrderSource).map (·.source)

def storageBase (visited : ScopedNode) : Option (NodeId × Nat × Option Span × Bool) := do
  let (parts,writeSpan,isRead) ← visited.storage
  let node ← wsNodeForSegmentBases segmentBases visited.segmentId visited.localNode
  let base ← workspace.symbolicField.baseId visited.segmentId visited.node.func (joinDots parts)
  pure (node,base,writeSpan,isRead)

def bareReadRows : List (Nat × NodeId) :=
  (scopedNodes workspace allowed).filterMap fun visited =>
    match storageBase workspace segmentBases visited with
    | some (node,base,_,true) => some (base,node)
    | _ => none

def scalarWriteRows : List ((Nat × Span) × NodeId) :=
  (scopedNodes workspace allowed).filterMap fun visited =>
    match storageBase workspace segmentBases visited with
    | some (node,base,some span,_) => some ((base,span),node)
    | _ => none

def pageFacts (visited : ScopedNode) : List SymbolicFactTemplate :=
  match visited.storage with
  | none => []
  | some (parts,writeSpan,_) =>
    (accessPaths parts).filterMap fun (baseText,fieldText) => do
      let base ← workspace.symbolicField.baseId visited.segmentId visited.node.func baseText
      let field ← (symbolicFields workspace allowed).rows.idxOf? fieldText
      pure ⟨base,field,writeSpan.bind fun span =>
        if (orderingSensitive workspace allowed).contains base then (symbolicSpans workspace allowed).rows.idxOf? span
        else none⟩

def buildSymbolicFactPage (view : SegmentId × IdgSegment) : List (List SymbolicFactTemplate) :=
  view.2.nodes.zipIdx.map fun (node,localNode) =>
    if allowed.admits node.func then pageFacts workspace allowed ⟨view.1,view.2,localNode,node⟩ else []

def factPages : IdMap (List (List SymbolicFactTemplate)) :=
  (scopedViews workspace allowed).foldl (fun pages view =>
    pages.insert view.1 (buildSymbolicFactPage workspace allowed view)) ∅

def projectedFacts : List ((Nat × Nat) × NodeId × Bool) :=
  (scopedNodes workspace allowed).flatMap fun visited =>
    match wsNodeForSegmentBases segmentBases visited.segmentId visited.localNode with
    | none => []
    | some node => (pageFacts workspace allowed visited).map fun template =>
      ((template.base,template.field),node,visited.place.any fun place => place matches .read _ _)

-- The positional arguments owned by a field transform. Only the transforms the
-- resident graph still holds are seen here.
def resolvedSymbolicArgs : List (SegmentId × FuncId × Span × Option Nat) :=
  (workspace.symbolicField.transforms.filter fun transform => transform.kind = .argument).filterMap fun transform =>
    (workspace.symbolicField.bases[transform.source]?).map fun source =>
      (source.segment,source.func,transform.callSpan,transform.argIdx)

def resolvedByTransform (visited : ScopedNode) : Bool :=
  match visited.place with
  | some (.callArg site idx) =>
    (resolvedSymbolicArgs workspace).contains (visited.segmentId,visited.node.func,site.span,some idx)
  | _ => false

-- Sources of resolver-proven argument edges, inside a segment or across files.
def resolvedByEdge : List NodeId :=
  ((scopedViews workspace allowed).flatMap fun (segmentId,segment) =>
      (segment.edges.filter fun edge => edge.edgeMeta.kind = .interCallArg).filterMap fun edge =>
        wsNodeForSegmentBases segmentBases segmentId edge.fromNode) ++
    (workspace.visitCrossFileEdges.filter fun edge =>
        edge.edge.edgeMeta.kind = .interCallArg && (symbolicSegments workspace allowed).contains edge.fromSegment).filterMap
      fun edge => wsNodeForSegmentBases segmentBases edge.fromSegment edge.edge.fromNode

def resolvedCallArgs : SortedRows NodeId :=
  .ofList (((scopedNodes workspace allowed).filter (resolvedByTransform workspace)).filterMap (fun visited =>
      wsNodeForSegmentBases segmentBases visited.segmentId visited.localNode) ++
    (resolvedByEdge workspace segmentBases allowed).filter (nodeOwnedByAllowed unified allowed))

def aggregateEdges : List (NodeId × NodeId) :=
  (scopedViews workspace allowed).flatMap fun (segmentId,segment) =>
    (segment.edges.filter fun edge => edge.edgeMeta.kind = .intraAggregateConsume).filterMap fun edge => do
      let source ← wsNodeForSegmentBases segmentBases segmentId edge.fromNode
      let target ← wsNodeForSegmentBases segmentBases segmentId edge.toNode
      pure (source,target)

def storageReadRows : List (NodeId × Nat) :=
  (bareReadRows workspace segmentBases allowed).map fun (base,node) => (node,base)

def aggregateReadRows : List (Nat × NodeId) :=
  ((aggregateEdges workspace segmentBases allowed).filterMap fun (source,target) =>
      ((storageReadRows workspace segmentBases allowed).lookup source).map fun base => (base,target)).filter
    fun (_,target) => !(resolvedCallArgs workspace segmentBases unified allowed).search target

def scopedAggregateEdges : List (NodeId × NodeId) :=
  (aggregateEdges workspace segmentBases allowed).filter fun (source,target) =>
    nodeOwnedByAllowed unified allowed source && nodeOwnedByAllowed unified allowed target

def buildSymbolicRuntimeIndexWithLayout : SymbolicRuntimeIndex where
  fields := symbolicFields workspace allowed
  spans := symbolicSpans workspace allowed
  orderingSensitiveBases := orderingSensitive workspace allowed
  baseRebases := rebasesFromSpecs (rebaseSpecs workspace.symbolicField) (symbolicFields workspace allowed)
  exactReads := .ofList (((projectedFacts workspace segmentBases allowed).filter (·.2.2)).map fun (key,node,_) => (key,node))
  projectedFactKeys := .ofList ((projectedFacts workspace segmentBases allowed).map (·.1))
  aggregateReads := .ofList (aggregateReadRows workspace segmentBases unified allowed)
  scalarWrites := .ofList (scalarWriteRows workspace segmentBases allowed)
  storageReads := storageReadRows workspace segmentBases allowed
  storageWrites := (scalarWriteRows workspace segmentBases allowed).filterMap fun ((base,span),node) =>
    ((symbolicSpans workspace allowed).rows.idxOf? span).map fun spanId => (node,base,spanId)
  factSources := .ofList ((projectedFacts workspace segmentBases allowed).map fun (key,node,_) => (key,node))
  aggregateInputs := .ofList ((scopedAggregateEdges workspace segmentBases unified allowed).map fun (source,target) =>
    (target,source))
  aggregateOutputs := .ofList (scopedAggregateEdges workspace segmentBases unified allowed)
  resolvedCallArgs := resolvedCallArgs workspace segmentBases unified allowed
  reverseTransforms := .ofList (((admittedTransforms workspace allowed).filter fun transform =>
    transform.kind ≠ .scalarReturn).map fun transform => ⟨transform.target,transform.source,transform.kind⟩)
  reverseScalarTransforms := .ofList (((admittedTransforms workspace allowed).filter fun transform =>
    transform.kind = .scalarReturn).map fun transform =>
      ⟨transform.target,transform.writeSpan,transform.source,transform.exactField⟩)
  factPages := factPages workspace allowed
  transforms := admittedTransforms workspace allowed

end

def buildSymbolicRuntimeIndex (workspace : IdgWorkspace) (unified : UnifiedAddressSpace) (allowed : FuncScope) :
    SymbolicRuntimeIndex :=
  buildSymbolicRuntimeIndexWithLayout workspace unified.segmentBases (some unified) allowed

end BonsaiNinja.Idg
