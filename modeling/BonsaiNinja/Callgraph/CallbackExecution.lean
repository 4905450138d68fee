import BonsaiNinja.Callgraph.CallEdges
import BonsaiNinja.Library.Folds

namespace BonsaiNinja.Callgraph
open Library

structure CallbackFormalInvocation where
  host : FuncId
  paramIndex : Nat
  span : Span
  deriving DecidableEq, Repr

structure CallbackFormalBinding where
  host : FuncId
  paramIndex : Nat
  target : FuncId
  deriving DecidableEq, Repr

structure CallbackFormalForward where
  caller : FuncId
  callerParamIndex : Nat
  host : FuncId
  hostParamIndex : Nat
  deriving DecidableEq, Repr

structure CallbackExecutionFacts where
  invocations : List CallbackFormalInvocation
  bindings : List CallbackFormalBinding
  forwards : List CallbackFormalForward
  deriving DecidableEq, Repr

abbrev CallbackFormalKey := FuncId × Nat

def CallbackFormalInvocation.key (invocation : CallbackFormalInvocation) : CallbackFormalKey :=
  (invocation.host,invocation.paramIndex)

def CallbackFormalBinding.key (binding : CallbackFormalBinding) : CallbackFormalKey := (binding.host,binding.paramIndex)

def CallbackFormalForward.source (forward : CallbackFormalForward) : CallbackFormalKey :=
  (forward.caller,forward.callerParamIndex)

def CallbackFormalForward.destination (forward : CallbackFormalForward) : CallbackFormalKey :=
  (forward.host,forward.hostParamIndex)

structure SetOrder where
  visit : List FuncId → List FuncId
  perm : ∀ members, (visit members).Perm members

-- The hash maps from a formal to a vector are rows in insertion order, those to
-- a set are rows without repetition.
structure CallbackExecutionAccumulator where
  seenInvocations : List CallbackFormalInvocation := []
  seenBindings : List CallbackFormalBinding := []
  seenForwards : List CallbackFormalForward := []
  invocations : List (CallbackFormalKey × Span) := []
  forwards : List (CallbackFormalKey × CallbackFormalKey) := []
  targets : List (CallbackFormalKey × FuncId) := []
  emitted : List (FuncId × FuncId × Span) := []
  deriving DecidableEq, Repr

-- The locals of one `extend_parts` call. The top of the `pending` vector is the
-- head of the list.
structure CallbackExtension where
  accumulator : CallbackExecutionAccumulator
  newlyProven : List CallEdge
  pending : List (CallbackFormalKey × FuncId)
  deriving DecidableEq, Repr

def executionEdge (host target : FuncId) (span : Span) : CallEdge :=
  ⟨host,target,span,.indirect,.callableValue "formal invocation resolved from compiler-bound callable argument".toList⟩

namespace CallbackExtension

def pushExecutionEdge (host target : FuncId) (span : Span) (s : CallbackExtension) : CallbackExtension :=
  if (host,target,span) ∈ s.accumulator.emitted then s
  else
    { s with
      accumulator := { s.accumulator with emitted := (host,target,span) :: s.accumulator.emitted }
      newlyProven := s.newlyProven ++ [executionEdge host target span] }

def admitInvocation (order : SetOrder) (s : CallbackExtension) (invocation : CallbackFormalInvocation) : CallbackExtension :=
  if invocation ∈ s.accumulator.seenInvocations then s
  else
    let admitted :=
      { s with
        accumulator := { s.accumulator with
          seenInvocations := invocation :: s.accumulator.seenInvocations
          invocations := s.accumulator.invocations ++ [(invocation.key,invocation.span)] } }
    (order.visit (gather admitted.accumulator.targets invocation.key)).foldl
      (fun s target => s.pushExecutionEdge invocation.host target invocation.span) admitted

def admitForward (order : SetOrder) (s : CallbackExtension) (forward : CallbackFormalForward) : CallbackExtension :=
  if forward ∈ s.accumulator.seenForwards then s
  else
    { s with
      accumulator := { s.accumulator with
        seenForwards := forward :: s.accumulator.seenForwards
        forwards := s.accumulator.forwards ++ [(forward.source,forward.destination)] }
      pending := ((order.visit (gather s.accumulator.targets forward.source)).map (forward.destination,·)).reverse ++ s.pending }

def admitBinding (s : CallbackExtension) (binding : CallbackFormalBinding) : CallbackExtension :=
  if binding ∈ s.accumulator.seenBindings then s
  else
    { s with
      accumulator := { s.accumulator with seenBindings := binding :: s.accumulator.seenBindings }
      pending := (binding.key,binding.target) :: s.pending }

def admitTarget (s : CallbackExtension) (key : CallbackFormalKey) (target : FuncId) : CallbackExtension :=
  if (key,target) ∈ s.accumulator.targets then s
  else
    let admitted := { s with accumulator := { s.accumulator with targets := (key,target) :: s.accumulator.targets } }
    let invoked := (gather admitted.accumulator.invocations key).foldl
      (fun s span => s.pushExecutionEdge key.1 target span) admitted
    { invoked with pending := ((gather invoked.accumulator.forwards key).map (·,target)).reverse ++ invoked.pending }

-- The loop has no bound in the source; the result is missing when the fuel ends
-- first.
def drain : Nat → CallbackExtension → Option CallbackExtension
  | fuel, s =>
    match s.pending with
    | [] => some s
    | (key,target) :: rest =>
      match fuel with
      | 0 => none
      | fuel + 1 => drain fuel ({ s with pending := rest }.admitTarget key target)

-- Room for one pop of every pair there is now, and for one push along every
-- forward for each formal and target that can still meet.
def popBound (s : CallbackExtension) : Nat :=
  s.pending.length + (s.pending.length + s.accumulator.forwards.length) * s.pending.length * s.accumulator.forwards.length

end CallbackExtension

def edgeRow (edge : CallEdge) : Nat × Nat × Nat × Nat × Nat :=
  (edge.fromFunc,edge.toFunc,edge.span.file,edge.span.start,edge.span.stop)

def sortEdges (edges : List CallEdge) : List CallEdge :=
  edges.insertionSort fun a b => before (edgeRow b) (edgeRow a) = false

namespace CallbackExecutionAccumulator

def extendParts (order : SetOrder) (accumulator : CallbackExecutionAccumulator) (facts : CallbackExecutionFacts) :
    Option (CallbackExecutionAccumulator × List CallEdge) :=
  let invoked := facts.invocations.foldl (CallbackExtension.admitInvocation order) ⟨accumulator,[],[]⟩
  let forwarded := facts.forwards.foldl (CallbackExtension.admitForward order) invoked
  let bound := facts.bindings.foldl CallbackExtension.admitBinding forwarded
  (bound.drain bound.popBound).map fun s => (s.accumulator,sortEdges s.newlyProven)

end CallbackExecutionAccumulator

structure ResolvedCallGraph where
  edges : List CallEdge
  callbackExecutionFacts : CallbackExecutionFacts
  deriving DecidableEq, Repr

def CallbackExecutionAccumulator.extend (order : SetOrder) (accumulator : CallbackExecutionAccumulator)
    (graph : ResolvedCallGraph) : Option (CallbackExecutionAccumulator × List CallEdge) :=
  (accumulator.extendParts order graph.callbackExecutionFacts).map fun (next,edges) =>
    (next,edges.filter fun candidate => !graph.edges.any fun existing => existing.sameToken candidate)

-- The execution edges of one build's facts, appended to the edges its files
-- resolved to.
def materializeCallbackExecutionEdges (order : SetOrder) (edges : List CallEdge) (facts : CallbackExecutionFacts) :
    Option (List CallEdge) :=
  (CallbackExecutionAccumulator.extendParts order {} facts).map fun (_,proven) => edges ++ proven

def materializedGraph (order : SetOrder) (edges : List CallEdge) (facts : CallbackExecutionFacts) : Option ResolvedCallGraph :=
  (materializeCallbackExecutionEdges order edges facts).map fun edges => ⟨edges,facts⟩

end BonsaiNinja.Callgraph
