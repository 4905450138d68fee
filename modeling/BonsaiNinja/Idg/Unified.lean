import BonsaiNinja.Idg.Workspace
import BonsaiNinja.Library.Ranges

namespace BonsaiNinja.Idg
open Library

def splitDots (text : Text) : List Text := (text.splitOn '.').filter (· ≠ [])

def joinDots (parts : List Text) : Text := List.intercalate ['.'] parts

-- Canonical storage components of a read or write, the write site, and whether
-- the place is a read.
def structuredStorageParts (segment : IdgSegment) (place : Place) : Option (List Text × Option Span × Bool) :=
  match place with
  | .read name path => do
    let text ← segment.strings[name]?
    let suffix ← path.mapM fun part => segment.strings[part]?
    pure (splitDots text ++ suffix,none,true)
  | .write name path span => do
    let text ← segment.strings[name]?
    let suffix ← path.mapM fun part => segment.strings[part]?
    pure (splitDots text ++ suffix,some span,false)
  | _ => none

-- Numeric boundary tags of a workspace node. A yield and a call result share one
-- tag.
abbrev NodeBoundary := Nat

def nodeBoundaryParam : NodeBoundary := 1
def nodeBoundaryReturn : NodeBoundary := 2
def nodeBoundaryThrow : NodeBoundary := 3
def nodeBoundaryYield : NodeBoundary := 4
def nodeBoundaryCallRet : NodeBoundary := 4

def nodeBoundary : Option Place → NodeBoundary
  | some (.param _) => nodeBoundaryParam
  | some .return => nodeBoundaryReturn
  | some (.throw ..) => nodeBoundaryThrow
  | some .yield => nodeBoundaryYield
  | some (.callRet _) => nodeBoundaryCallRet
  | _ => 0

structure UnifiedAddressSpace where
  segmentBases : List Nat
  funcSegments : IdMap SegmentId
  nodeFuncs : List FuncId
  nodeBoundaries : List NodeBoundary
  projectedStorage : List Bool
  callArgs : List (NodeId × Span × Nat)
  params : List (NodeId × Nat)
  sized : nodeFuncs.length = segmentBases.getLastD 0

def wsNodeForSegmentBases (segmentBases : List Nat) (segmentId : SegmentId) (localNode : NodeId) : Option NodeId :=
  match segmentBases[segmentId]?, segmentBases[segmentId + 1]? with
  | some start, some stop => if localNode < stop - start then some (start + localNode) else none
  | _, _ => none

namespace UnifiedAddressSpace

def nodeCount (unified : UnifiedAddressSpace) : Nat := unified.segmentBases.getLastD 0

def wsNodeFor (unified : UnifiedAddressSpace) (segmentId : SegmentId) (localNode : NodeId) : Option NodeId :=
  wsNodeForSegmentBases unified.segmentBases segmentId localNode

def wsNodeFunc (unified : UnifiedAddressSpace) (node : NodeId) : Option FuncId := unified.nodeFuncs[node]?

def wsAddress (unified : UnifiedAddressSpace) (node : NodeId) : Option (SegmentId × NodeId) := do
  let func ← unified.nodeFuncs[node]?
  let segmentId ← unified.funcSegments.lookup func
  let start ← unified.segmentBases[segmentId]?
  let stop ← unified.segmentBases[segmentId + 1]?
  if start ≤ node ∧ node < stop then some (segmentId,node - start) else none

-- The dense directory ends at the largest function that owns a node.
def nodesByFunc (unified : UnifiedAddressSpace) (func : FuncId) : Option (List NodeId) :=
  if unified.nodeFuncs.any (func ≤ ·) then
    some ((List.range unified.nodeFuncs.length).filter fun node => unified.nodeFuncs[node]? = some func)
  else none

def isProjected (unified : UnifiedAddressSpace) (node : NodeId) : Bool := unified.projectedStorage[node]? = some true

def nodeIsProjectedStorage (unified : UnifiedAddressSpace) (segmentId : SegmentId) (localNode : NodeId) : Bool :=
  match unified.wsNodeFor segmentId localNode with
  | some node => unified.isProjected node
  | none => false

def hasBoundary (unified : UnifiedAddressSpace) (node : NodeId) (tag : NodeBoundary) : Bool :=
  unified.nodeBoundaries[node]? = some tag

theorem wsNodeFunc_isSome {unified : UnifiedAddressSpace} {node : NodeId} :
    (∃ func, unified.wsNodeFunc node = some func) ↔ node < unified.nodeCount := by
  rw [wsNodeFunc, nodeCount, ← unified.sized]
  constructor
  · intro owned
    obtain ⟨func,found⟩ := owned
    exact (List.getElem?_eq_some_iff.mp found).1
  · exact fun inside => ⟨_,List.getElem?_eq_getElem inside⟩

theorem wsNodeFor_wsAddress {unified : UnifiedAddressSpace} {node : NodeId} {segmentId : SegmentId} {localNode : NodeId}
    (address : unified.wsAddress node = some (segmentId,localNode)) :
    unified.wsNodeFor segmentId localNode = some node := by
  simp only [wsAddress, Option.bind_eq_bind, Option.bind_eq_some_iff] at address
  obtain ⟨func,_,segment,_,start,first,stop,last,inside⟩ := address
  split at inside
  · next bounds =>
    simp only [Option.some.injEq, Prod.mk.injEq] at inside
    obtain ⟨rfl,rfl⟩ := inside
    have fits : node - start < stop - start := Nat.sub_lt_sub_right bounds.1 bounds.2
    rw [wsNodeFor, wsNodeForSegmentBases, first, last]
    dsimp only
    rw [if_pos fits, Nat.add_sub_cancel' bounds.1]
  · simp at inside

end UnifiedAddressSpace

def projectedPlace (segment : IdgSegment) (place : Option Place) : Bool :=
  match place.bind (structuredStorageParts segment) with
  | some (parts,_,_) => 1 < parts.length
  | none => false

def nodePlaces (workspace : IdgWorkspace) : List (Option Place) :=
  workspace.segmentViews.flatMap fun view => view.2.nodes.map view.2.placeOf

-- `0`, then the running node count behind every segment.
def segmentBasesOf (workspace : IdgWorkspace) : List Nat :=
  0 :: accumulate 0 (workspace.segmentViews.map fun view => view.2.nodes.length)

def nodeFuncsOf (workspace : IdgWorkspace) : List FuncId :=
  workspace.segmentViews.flatMap fun view => view.2.nodes.map (·.func)

theorem getLastD_accumulate (total : Nat) (counts : List Nat) :
    (total :: accumulate total counts).getLastD 0 = total + counts.sum := by
  induction counts generalizing total with
  | nil => simp [accumulate]
  | cons count rest ih =>
    have later := ih (total + count)
    rw [List.getLastD_cons] at later ⊢
    rw [accumulate, List.getLastD_cons, later, List.sum_cons, Nat.add_assoc]

theorem nodeFuncsOf_length (workspace : IdgWorkspace) :
    (nodeFuncsOf workspace).length = (segmentBasesOf workspace).getLastD 0 := by
  rw [segmentBasesOf, getLastD_accumulate, nodeFuncsOf, List.length_flatMap]
  simp

def callArgsOf (places : List (Option Place)) : List (NodeId × Span × Nat) :=
  places.zipIdx.filterMap fun (place,node) =>
    match place with
    | some (.callArg site idx) => some (node,site.span,idx)
    | _ => none

def paramsOf (places : List (Option Place)) : List (NodeId × Nat) :=
  places.zipIdx.filterMap fun (place,node) =>
    match place with
    | some (.param idx) => some (node,idx)
    | _ => none

def buildUnified (workspace : IdgWorkspace) : UnifiedAddressSpace where
  segmentBases := segmentBasesOf workspace
  funcSegments := workspace.segmentViews.foldl (fun owners view =>
    view.2.funcs.foldl (fun owners func => owners.insert func view.1) owners) ∅
  nodeFuncs := nodeFuncsOf workspace
  nodeBoundaries := (nodePlaces workspace).map nodeBoundary
  projectedStorage := workspace.segmentViews.flatMap fun view =>
    view.2.nodes.map fun node => projectedPlace view.2 (view.2.placeOf node)
  callArgs := callArgsOf (nodePlaces workspace)
  params := paramsOf (nodePlaces workspace)
  sized := nodeFuncsOf_length workspace

end BonsaiNinja.Idg
