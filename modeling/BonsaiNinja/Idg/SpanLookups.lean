import BonsaiNinja.Idg.LocalNodes
import BonsaiNinja.Library.Collecting
import Mathlib.Data.Finset.Union

namespace BonsaiNinja.Idg
open Library

def spansOverlap (a b : Span) : Bool := a.file == b.file && a.start < b.stop && b.start < a.stop

def placeSpan : Place → Option Span
  | .write _ _ span => some span
  | .callRet site => some site.span
  | .callArg site _ => some site.span
  | _ => none

section scalar
variable (workspace : IdgWorkspace) (core : QueryCore) (segId : SegmentId) (segment : IdgSegment) (func : FuncId) (matchSpan : Span)

def nodesAtPlaces : Except Halt (List NodeId) :=
  collectM (fun (place,pid) =>
    match placeSpan place with
    | none => .ok []
    | some span =>
      if spansOverlap span matchSpan then do
        match ← localNodeFor workspace core segId func pid with
        | none => return []
        | some localNode =>
          let wsNode ← core.wsNodeFor segId localNode
          return wsNode.toList
      else .ok []) segment.places.zipIdx

def nodesAtEdges : Except Halt (List NodeId) :=
  collectM (fun edge =>
    if spansOverlap edge.edgeMeta.viaSpan matchSpan then
      if (segment.nodes[edge.toNode]?).all (·.func ≠ func) then .ok []
      else do
        let wsNode ← core.wsNodeFor segId edge.toNode
        return wsNode.toList
    else .ok []) segment.edges

-- Edges answer only where no place does.
def nodesAtSpan : Except Halt (List NodeId) :=
  let core := buildQueryCore workspace
  match workspace.segmentForFunc func with
  | none => .ok []
  | some segId =>
    match workspace.segmentView segId with
    | none => .ok []
    | some segment => do
      let direct ← nodesAtPlaces workspace core segId segment func matchSpan
      let out ← if direct.isEmpty then nodesAtEdges core segId segment func matchSpan else .ok direct
      return sortDedup out

end scalar

abbrev SpanTarget := FuncId × Span

def targetsBySegment (workspace : IdgWorkspace) (targets : List SpanTarget) : IdMap (IdMap (List Span)) × Finset FuncId :=
  targets.foldl (fun (groups,unresolved) (func,span) =>
    match workspace.segmentForFunc func with
    | none => (groups,insert func unresolved)
    | some segment => (upsert ∅ (upsert [] (· ++ [span]) func) segment groups,unresolved)) (∅,∅)

structure SpanHit where
  target : SpanTarget
  node : NodeId

section batch
variable (workspace : IdgWorkspace) (core : QueryCore)

def hitAt (segmentId : SegmentId) (localNode : NodeId) (target : SpanTarget) : Except Halt (List SpanHit) := do
  let wsNode ← core.wsNodeFor segmentId localNode
  return wsNode.toList.map fun node => ⟨target,node⟩

def placeHits (segmentId : SegmentId) (segment : IdgSegment) (targetsByFunc : IdMap (List Span)) : Except Halt (List SpanHit) :=
  collectM (fun (node,localIndex) =>
    match targetsByFunc.lookup node.func with
    | none => .ok []
    | some matchSpans =>
      match (segment.placeOf node).bind placeSpan with
      | none => .ok []
      | some span => collectM (fun matchSpan =>
          if spansOverlap span matchSpan then hitAt core segmentId localIndex (node.func,matchSpan) else .ok [])
          matchSpans) segment.nodes.zipIdx

def edgeHits (segmentId : SegmentId) (segment : IdgSegment) (targetsByFunc : IdMap (List Span))
    (directlyResolved : List SpanTarget) : Except Halt (List SpanHit) :=
  collectM (fun edge =>
    match segment.nodes[edge.toNode]? with
    | none => .ok []
    | some targetNode =>
      match targetsByFunc.lookup targetNode.func with
      | none => .ok []
      | some matchSpans => collectM (fun matchSpan =>
          if directlyResolved.contains (targetNode.func,matchSpan) || !spansOverlap edge.edgeMeta.viaSpan matchSpan then .ok []
          else hitAt core segmentId edge.toNode (targetNode.func,matchSpan)) matchSpans) segment.edges

def missedFuncs (byFunc : IdMap (List Span)) (resolved : List SpanTarget) : List FuncId :=
  (byFunc.entries.filter fun entry => entry.2.any fun span => !resolved.contains (entry.1,span)).map (·.1)

structure SpanBatch where
  nodes : IdMap (List NodeId)
  unresolvedFuncs : Finset FuncId

def resolveSegment (batch : SpanBatch) (group : (_ : SegmentId) × IdMap (List Span)) : Except Halt SpanBatch :=
  match workspace.segmentView group.1 with
  | none => .ok {batch with unresolvedFuncs := batch.unresolvedFuncs ∪ group.2.keys.toFinset}
  | some segment => do
    let direct ← placeHits core group.1 segment group.2
    let viaEdges ← edgeHits core group.1 segment group.2 (direct.map (·.target))
    let hits := direct ++ viaEdges
    let resolved := hits.map (·.target)
    return {
      nodes := pushAll (hits.map fun hit => (hit.target.1,hit.node)) batch.nodes
      unresolvedFuncs := batch.unresolvedFuncs ∪ (missedFuncs group.2 resolved).toFinset }

def nodesByFuncAndUnresolvedAtSpans (targets : List SpanTarget) : Except Halt SpanBatch := do
  let core := buildQueryCore workspace
  let (groups,unresolved) := targetsBySegment workspace (sortDedup targets)
  let batch ← groups.entries.foldlM (resolveSegment workspace core) ⟨∅,unresolved⟩
  return {batch with nodes := batch.nodes.mapValues sortDedup}

def nodesAndUnresolvedFuncsAtSpans (targets : List SpanTarget) : Except Halt (List NodeId × Finset FuncId) := do
  let batch ← nodesByFuncAndUnresolvedAtSpans workspace targets
  return (sortDedup (batch.nodes.entries.flatMap (·.2)),batch.unresolvedFuncs)

end batch

end BonsaiNinja.Idg
