import BonsaiNinja.Idg.Place

namespace BonsaiNinja.Callgraph
open Library
export Idg (FileId FuncId Text Span)

inductive EdgeKind where
  | direct | virtual | indirect | unknown
  deriving DecidableEq, Repr

inductive EdgeProvenanceKind where
  | unknown | directSymbol | receiverDispatch | declarationFamily
  | callableBindingCall | callableBindingAssignment | callableArgument | custom
  deriving DecidableEq, Repr

structure CustomEdgeProvenance where
  resolverStage : Text
  evidence : Text
  confidence : Nat
  deriving DecidableEq, Repr

structure EdgeProvenance where
  kind : EdgeProvenanceKind
  custom : Option CustomEdgeProvenance
  deriving DecidableEq, Repr

namespace EdgeProvenance

def known (kind : EdgeProvenanceKind) : EdgeProvenance := ⟨kind,none⟩

def new (stage evidence : Text) (confidence : Nat) : EdgeProvenance :=
  ⟨.custom,some ⟨stage,evidence,min confidence 100⟩⟩

def callableValue (evidence : Text) : EdgeProvenance :=
  if evidence = "local or receiver-projected callable binding matched call expression".toList then
    known .callableBindingCall
  else if evidence = "local or receiver-projected callable binding matched assignment call".toList then
    known .callableBindingAssignment
  else if evidence = "call argument resolved as callable reference".toList then known .callableArgument
  else new "callable_value".toList evidence 86

end EdgeProvenance

structure CallEdge where
  fromFunc : FuncId
  toFunc : FuncId
  span : Span
  kind : EdgeKind
  provenance : EdgeProvenance
  deriving DecidableEq, Repr

-- What the graph takes for one and the same edge: the source token is its file
-- and start, so the end of the span and the provenance do not count.
def CallEdge.sameToken (existing edge : CallEdge) : Bool :=
  existing.fromFunc == edge.fromFunc && existing.toFunc == edge.toFunc && existing.span.file == edge.span.file &&
    existing.span.start == edge.span.start && existing.kind == edge.kind

theorem CallEdge.sameToken_refl (edge : CallEdge) : edge.sameToken edge = true := by simp [sameToken]

structure CallGraphLocalBinding where
  caller : FuncId
  name : Text
  target : FuncId
  deriving DecidableEq, Repr

structure CallGraphCallableArgument where
  caller : FuncId
  span : Span
  target : FuncId
  deriving DecidableEq, Repr

structure UnresolvedWorkspaceCallSite where
  caller : FuncId
  span : Span
  deriving DecidableEq, Repr

end BonsaiNinja.Callgraph
