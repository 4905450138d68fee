import BonsaiNinja.Idg.FunctionSummary
import BonsaiNinja.Idg.SegmentLayout
import BonsaiNinja.Library.Memo
import BonsaiNinja.Library.Merging

namespace BonsaiNinja.Idg
open Library

inductive CrossCallRelation where
  | argument | callback | capture | return | fieldState | sharedStateCall
  deriving DecidableEq, Repr

def CrossCallRelation.rank : CrossCallRelation → Nat
  | .argument => 0
  | .callback => 1
  | .capture => 2
  | .return => 3
  | .fieldState => 4
  | .sharedStateCall => 5

structure CrossCallEdge where
  caller : FuncId
  callee : FuncId
  callSpan : Span
  argIdx : Nat
  paramIdx : Nat
  callKind : CallEdgeKind
  relation : CrossCallRelation
  deriving DecidableEq, Repr

-- `u32::MAX`, the slot of a hop that has no positional operand.
def noSlot : Nat := 2 ^ 32 - 1

inductive CompactCrossCallLift where
  | complete (row : Option CrossCallEdge)
  | needsSegmentPlaces
  deriving DecidableEq, Repr

section
variable (unified : UnifiedAddressSpace)

-- The row of an edge between two global nodes, read off the boundary tags.
def liftPlaced (source target : NodeId) (caller callee : FuncId) (edge : EdgeMeta) : CompactCrossCallLift :=
  if edge.kind = .interCallArg then
    match unified.callArgs.lookup source, unified.params.lookup target with
    | some (callSpan,argIdx), some paramIdx =>
      .complete (some ⟨caller,callee,callSpan,argIdx,paramIdx,edge.callKind,.argument⟩)
    | _, paramIdx =>
      match unified.hasBoundary source nodeBoundaryCallRet, paramIdx with
      | true, some paramIdx => .complete (some ⟨caller,callee,edge.viaSpan,noSlot,paramIdx,edge.callKind,.callback⟩)
      | _, _ => if caller ≠ callee then .needsSegmentPlaces else .complete none
  else if edge.kind = .interSourceCallback then
    .complete ((unified.params.lookup target).map fun paramIdx =>
      ⟨caller,callee,edge.viaSpan,noSlot,paramIdx,edge.callKind,.callback⟩)
  else if edge.kind = .interFieldCallArg then
    if caller ≠ callee then .needsSegmentPlaces else .complete none
  else if edge.kind = .interSharedFieldState ∧ caller ≠ callee then
    .complete (some ⟨caller,callee,edge.viaSpan,noSlot,noSlot,edge.callKind,.sharedStateCall⟩)
  else if (edge.kind = .interReturn ∨ edge.kind = .interFieldReturn ∨ edge.kind = .interYield) ∧ caller ≠ callee then
    .complete (some ⟨caller,callee,edge.viaSpan,noSlot,noSlot,edge.callKind,.return⟩)
  else .complete none

def liftCrossCallEdgeFromUnified (fromSegment toSegment : SegmentId) (edge : IdgEdge) : CompactCrossCallLift :=
  match unified.wsNodeFor fromSegment edge.fromNode, unified.wsNodeFor toSegment edge.toNode with
  | some source, some target =>
    match unified.wsNodeFunc source, unified.wsNodeFunc target with
    | some caller, some callee => liftPlaced unified source target caller callee edge.edgeMeta
    | _, _ => .complete none
  | _, _ => .complete none

end

def storageBaseFromPlace (segment : IdgSegment) (place : Place) : Option Text := do
  let name ← match place with
    | .read name _ => some name
    | .write name _ _ => some name
    | _ => none
  let text ← segment.strings[name]?
  let base := trim text
  if base.isEmpty then none else some base

def leastIndex (best : Option Nat) (idx : Nat) : Option Nat := some (best.elim idx fun existing => min existing idx)

def ownedPlace (segment : IdgSegment) (func : FuncId) (node : NodeId) : Option Place := do
  let node ← segment.nodes[node]?
  if node.func = func then segment.placeOf node else none

def callArgIndexForStorageBase (segment : IdgSegment) (caller : FuncId) (callSpan : Span) (base : Text) : Option Nat :=
  segment.edges.foldl (fun best edge =>
    if !edge.edgeMeta.kind.isIntra then best else
    match ownedPlace segment caller edge.toNode, ownedPlace segment caller edge.fromNode with
    | some (.callArg site idx), some fromPlace =>
      if site.span = callSpan ∧ storageBaseFromPlace segment fromPlace = some base then leastIndex best idx else best
    | _, _ => best) none

def paramIndexForStorageBase (segment : IdgSegment) (callee : FuncId) (base : Text) : Option Nat :=
  segment.edges.foldl (fun best edge =>
    if !edge.edgeMeta.kind.isIntra then best else
    match ownedPlace segment callee edge.fromNode, ownedPlace segment callee edge.toNode with
    | some (.param idx), some toPlace =>
      if storageBaseFromPlace segment toPlace = some base then leastIndex best idx else best
    | _, _ => best) none

inductive FieldCrossCallKey where
  | callArg (segment : SegmentId) (caller : FuncId) (callSpan : Span) (base : Text)
  | param (segment : SegmentId) (callee : FuncId) (base : Text)
  deriving DecidableEq

-- Both tables of the index answer with an optional slot.
abbrev FieldCrossCallIndex := Memo.Table fun _ : FieldCrossCallKey => Option Nat

abbrev WithFieldIndex (α : Type) := Memo (fun _ : FieldCrossCallKey => Option Nat) α

structure SegmentPage where
  id : SegmentId
  segment : IdgSegment

def callArgIndex (page : SegmentPage) (caller : FuncId) (callSpan : Span) (base : Text) : WithFieldIndex (Option Nat) :=
  Memo.lookup (.callArg page.id caller callSpan base) (pure (callArgIndexForStorageBase page.segment caller callSpan base))

def paramIndex (page : SegmentPage) (callee : FuncId) (base : Text) : WithFieldIndex (Option Nat) :=
  Memo.lookup (.param page.id callee base) (pure (paramIndexForStorageBase page.segment callee base))

def fieldCrossCallArgAndParamIndices (source target : SegmentPage) (caller callee : FuncId) (callSpan : Span)
    (fromPlace toPlace : Place) : WithFieldIndex (Option (Nat × Nat)) :=
  match storageBaseFromPlace source.segment fromPlace, storageBaseFromPlace target.segment toPlace with
  | some fromBase, some toBase => do
    let argIdx ← callArgIndex source caller callSpan fromBase
    let paramIdx ← paramIndex target callee toBase
    pure (some (argIdx.getD noSlot,paramIdx.getD noSlot))
  | _, _ => pure none

structure Endpoint where
  func : FuncId
  place : Place

def endpointOf (segment : IdgSegment) (node : NodeId) : Option Endpoint := do
  let node ← segment.nodes[node]?
  let place ← segment.placeOf node
  pure ⟨node.func,place⟩

def positionalRow (caller callee : Endpoint) (edge : EdgeMeta) : Option CrossCallEdge :=
  match edge.kind, caller.place, callee.place with
  | .interCallArg, .callArg site idx, .param paramIdx =>
    some ⟨caller.func,callee.func,site.span,idx,paramIdx,edge.callKind,.argument⟩
  | .interSourceCallback, .callRet _, .param paramIdx =>
    some ⟨caller.func,callee.func,edge.viaSpan,noSlot,paramIdx,edge.callKind,.callback⟩
  | _, _, _ => none

def outboundRow (caller callee : FuncId) (edge : EdgeMeta) : Option CrossCallEdge :=
  if edge.kind = .interSharedFieldState ∧ caller ≠ callee then
    some ⟨caller,callee,edge.viaSpan,noSlot,noSlot,edge.callKind,.sharedStateCall⟩
  else if (edge.kind = .interReturn ∨ edge.kind = .interFieldReturn ∨ edge.kind = .interYield) ∧ caller ≠ callee then
    some ⟨caller,callee,edge.viaSpan,noSlot,noSlot,edge.callKind,.return⟩
  else none

def liftCallArgEdge (source target : SegmentPage) (edge : IdgEdge) : WithFieldIndex (Option CrossCallEdge) :=
  match endpointOf source.segment edge.fromNode, endpointOf target.segment edge.toNode with
  | some caller, some callee =>
    match positionalRow caller callee edge.edgeMeta with
    | some row => pure (some row)
    | none =>
      if (edge.edgeMeta.kind = .interCallArg ∨ edge.edgeMeta.kind = .interFieldCallArg) ∧ caller.func ≠ callee.func then do
        let slots ← fieldCrossCallArgAndParamIndices source target caller.func callee.func edge.edgeMeta.viaSpan caller.place
          callee.place
        let (argIdx,paramIdx) := slots.getD (noSlot,noSlot)
        pure (some ⟨caller.func,callee.func,edge.edgeMeta.viaSpan,argIdx,paramIdx,edge.edgeMeta.callKind,
          if edge.edgeMeta.kind = .interFieldCallArg then .argument else .capture⟩)
      else pure (outboundRow caller.func callee.func edge.edgeMeta)
  | _, _ => pure none

structure FieldFlowLink where
  writer : FuncId
  reader : FuncId
  writerWsNode : NodeId
  viaSpan : Span

structure PendingLift where
  fromWs : NodeId
  source : SegmentPage
  target : SegmentPage
  edge : IdgEdge

section
variable (workspace : IdgWorkspace) (unified : UnifiedAddressSpace) (allowed : FuncScope)

def rowIsAllowed (row : CrossCallEdge) : Bool := allowed.admits row.caller && allowed.admits row.callee

def crossCallSegments : List SegmentPage :=
  (summarySegments workspace allowed).filterMap fun id => (workspace.segmentView id).map (SegmentPage.mk id)

def intraLifts : List PendingLift :=
  (crossCallSegments workspace allowed).flatMap fun page => page.segment.edges.filterMap fun edge =>
    (unified.wsNodeFor page.id edge.fromNode).map fun fromWs => ⟨fromWs,page,page,edge⟩

def linkRows (links : List FieldFlowLink) : List (NodeId × CrossCallEdge) :=
  (links.filter fun link => allowed.admits link.writer && allowed.admits link.reader).map fun link =>
    (link.writerWsNode,⟨link.writer,link.reader,link.viaSpan,noSlot,noSlot,.indirect,.sharedStateCall⟩)

def scopedCrossFileEdges : List CrossFileEdge :=
  workspace.visitCrossFileEdges.filter fun edge =>
    (summarySegments workspace allowed).contains edge.fromSegment && (summarySegments workspace allowed).contains edge.toSegment

def completeRows : List (NodeId × CrossCallEdge) :=
  (scopedCrossFileEdges workspace allowed).filterMap fun edge => do
    let fromWs ← unified.wsNodeFor edge.fromSegment edge.edge.fromNode
    match liftCrossCallEdgeFromUnified unified edge.fromSegment edge.toSegment edge.edge with
    | .complete (some row) => if rowIsAllowed allowed row then some (fromWs,row) else none
    | _ => none

def projectedEdges : List CrossFileEdge :=
  (scopedCrossFileEdges workspace allowed).filter fun edge =>
    (unified.wsNodeFor edge.fromSegment edge.edge.fromNode).isSome &&
      liftCrossCallEdgeFromUnified unified edge.fromSegment edge.toSegment edge.edge = .needsSegmentPlaces

def projectedLifts : List PendingLift :=
  let edges := projectedEdges workspace unified allowed
  (sortDedup (edges.map fun edge => (edge.fromSegment,edge.toSegment))).flatMap fun pair =>
    (edges.filter fun edge => (edge.fromSegment,edge.toSegment) = pair).filterMap fun edge => do
      let fromWs ← unified.wsNodeFor edge.fromSegment edge.edge.fromNode
      let source ← workspace.segmentView pair.1
      let target ← workspace.segmentView pair.2
      some ⟨fromWs,⟨pair.1,source⟩,⟨pair.2,target⟩,edge.edge⟩

def liftAll : List PendingLift → WithFieldIndex (List (NodeId × CrossCallEdge))
  | [] => pure []
  | pending :: rest => do
    let row ← liftCallArgEdge pending.source pending.target pending.edge
    let later ← liftAll rest
    pure ((row.toList.filter (rowIsAllowed allowed)).map (fun row => (pending.fromWs,row)) ++ later)

def crossCallRows (links : List FieldFlowLink) : List (NodeId × CrossCallEdge) :=
  let lifted := ((liftAll allowed (intraLifts workspace unified allowed ++ projectedLifts workspace unified allowed)).run
    Memo.empty).1
  lifted ++ linkRows allowed links ++ completeRows workspace unified allowed

-- The sort key leaves the call kind out.
def crossCallKey (row : CrossCallEdge) : FuncId × FuncId × Span × Nat × Nat × Nat :=
  (row.caller,row.callee,row.callSpan,row.argIdx,row.paramIdx,row.relation.rank)

def buildCrossCallsByFrom (links : List FieldFlowLink) (fromWs : NodeId) : List CrossCallEdge :=
  let rows := ((crossCallRows workspace unified allowed links).filter (·.1 = fromWs)).map (·.2)
  Merging.dedupFrom none (rows.mergeSort fun a b => !before (crossCallKey b) (crossCallKey a))

end

end BonsaiNinja.Idg
