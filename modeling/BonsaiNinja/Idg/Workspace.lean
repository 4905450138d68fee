import BonsaiNinja.Idg.Place
import Mathlib.Data.List.AList

namespace BonsaiNinja.Idg

abbrev IdMap (β : Type) := AList fun _ : Nat => β

namespace IdMap

def mapValues (f : β → γ) (map : IdMap β) : IdMap γ :=
  ⟨map.entries.map (.map id fun _ => f),map.nodupKeys.map₂ fun _ => f⟩

@[simp] theorem lookup_mapValues {f : β → γ} {map : IdMap β} {key : Nat} :
    (mapValues f map).lookup key = (map.lookup key).map f :=
  List.dlookup_map₂ key

end IdMap

structure IdgSegment where
  places : List Place
  nodes : List IdgNode
  edges : List IdgEdge
  funcs : List FuncId
  strings : List Text

def IdgSegment.placeOf (segment : IdgSegment) (node : IdgNode) : Option Place := segment.places[node.place]?

structure CrossFileEdge where
  fromSegment : SegmentId
  toSegment : SegmentId
  edge : IdgEdge
  deriving DecidableEq, Repr

structure SymbolicFieldBase where
  segment : SegmentId
  func : FuncId
  storage : StrId
  deriving DecidableEq, Repr

inductive SymbolicFieldTransformKind where
  | argument | return | scalarReturn | constructorReturn | receiverMutation | copy
  deriving DecidableEq, Repr

-- `exactField`, `argIdx` and `paramIdx` hold `u32::MAX` where the relation has
-- no operand; the model keeps the absence itself.
structure SymbolicFieldTransform where
  source : Nat
  target : Nat
  exactField : Option StrId
  callSpan : Span
  writeSpan : Span
  callKind : CallEdgeKind
  kind : SymbolicFieldTransformKind
  argIdx : Option Nat
  paramIdx : Option Nat
  allowOutOfOrderSource : Bool
  deriving DecidableEq, Repr

structure SymbolicFieldGraph where
  strings : List Text
  bases : List SymbolicFieldBase
  transforms : List SymbolicFieldTransform

namespace SymbolicFieldGraph

def string (graph : SymbolicFieldGraph) (id : StrId) : Option Text := graph.strings[id]?

def stringId (graph : SymbolicFieldGraph) (value : Text) : Option StrId :=
  let position := graph.strings.findIdx (· == value)
  if position < graph.strings.length then some position else none

def baseId (graph : SymbolicFieldGraph) (segment : SegmentId) (func : FuncId) (storage : Text) : Option Nat :=
  match graph.stringId storage with
  | none => none
  | some storage =>
    let position := graph.bases.findIdx (· == ⟨segment,func,storage⟩)
    if position < graph.bases.length then some position else none

-- Only the dictionaries survive in a paged query graph.
def fromHeaderParts (strings : List Text) (bases : List SymbolicFieldBase) : SymbolicFieldGraph := ⟨strings,bases,[]⟩

end SymbolicFieldGraph

-- Segments, cross edges and transforms as the positioned reader of a persisted
-- workspace serves them.
structure IdgQuerySidecar where
  segments : List IdgSegment
  crossFile : List CrossFileEdge
  transforms : List SymbolicFieldTransform

structure IdgWorkspace where
  segments : List IdgSegment
  querySidecar : Option IdgQuerySidecar
  segmentSpool : Option (List IdgSegment)
  residentSegments : List Bool
  crossFileSpool : Option (List CrossFileEdge)
  symbolicTransformSpool : Option (List SymbolicFieldTransform)
  byFunc : IdMap SegmentId
  crossFile : List CrossFileEdge
  symbolicField : SymbolicFieldGraph

namespace IdgWorkspace

def segmentForFunc (workspace : IdgWorkspace) (func : FuncId) : Option SegmentId := workspace.byFunc.lookup func

def segmentView (workspace : IdgWorkspace) (id : SegmentId) : Option IdgSegment :=
  match workspace.querySidecar with
  | some sidecar => sidecar.segments[id]?
  | none =>
    match workspace.segmentSpool with
    | some spool => if workspace.residentSegments.getD id false then workspace.segments[id]? else spool[id]?
    | none => workspace.segments[id]?

def segmentCount (workspace : IdgWorkspace) : Nat :=
  match workspace.querySidecar with
  | some sidecar => sidecar.segments.length
  | none => workspace.segments.length

def segmentViews (workspace : IdgWorkspace) : List (SegmentId × IdgSegment) :=
  (List.range workspace.segmentCount).filterMap fun id => (workspace.segmentView id).map fun segment => (id,segment)

-- The visitors yield the relation of whichever storage the workspace uses.
def visitCrossFileEdges (workspace : IdgWorkspace) : List CrossFileEdge :=
  match workspace.querySidecar with
  | some sidecar => sidecar.crossFile
  | none => workspace.crossFileSpool.getD workspace.crossFile

def visitSymbolicTransforms (workspace : IdgWorkspace) : List SymbolicFieldTransform :=
  match workspace.querySidecar with
  | some sidecar => sidecar.transforms
  | none => workspace.symbolicTransformSpool.getD workspace.symbolicField.transforms

def hasSymbolicTransforms (workspace : IdgWorkspace) : Bool := !workspace.visitSymbolicTransforms.isEmpty

theorem mem_segmentViews {workspace : IdgWorkspace} {id : SegmentId} {segment : IdgSegment} :
    (id,segment) ∈ workspace.segmentViews ↔ id < workspace.segmentCount ∧ workspace.segmentView id = some segment := by
  simp [segmentViews,and_comm,and_assoc]

end IdgWorkspace

-- Every function lives in the segment of its own source file: no two segments
-- hold nodes of one function.
def IdgWorkspace.Owned (workspace : IdgWorkspace) : Prop :=
  ∀ left ∈ workspace.segmentViews, ∀ right ∈ workspace.segmentViews,
    ∀ a ∈ left.2.nodes, ∀ b ∈ right.2.nodes, a.func = b.func → left.1 = right.1

instance (workspace : IdgWorkspace) : Decidable workspace.Owned := by unfold IdgWorkspace.Owned; infer_instance

structure OwnedWorkspace extends IdgWorkspace where
  owned : toIdgWorkspace.Owned

end BonsaiNinja.Idg
