import BonsaiNinja.Idg.ClosureTermination

namespace BonsaiNinja.Idg
open Library

structure QueryRuntimes where
  unified : UnifiedAddressSpace
  contextual : ContextualSummaryRuntime
  runtime : SymbolicRuntimeIndex
  symbolic : SymbolicFieldGraph
  hasSymbolicTransforms : Bool

def SymbolicClosureWorklist.nodes (w : SymbolicClosureWorklist) : List NodeId := sortDedup (w.reached.map (·.node))

theorem SymbolicClosureWorklist.mem_nodes {w : SymbolicClosureWorklist} {node : NodeId} :
    node ∈ w.nodes ↔ ∃ context, .reached ⟨node,context⟩ ∈ w.atoms := by
  simp only [nodes, mem_sortDedup, List.mem_map]
  constructor
  · intro found
    obtain ⟨state,reached,rfl⟩ := found
    exact ⟨state.context,reached⟩
  · intro found
    obtain ⟨context,reached⟩ := found
    exact ⟨⟨node,context⟩,reached,rfl⟩

-- `ContextualReach::forward_closure_nodes`: the ordinary relation alone.
def reachClosureNodes (reach : GroupedRows NodeId NodeId) (seeds : List NodeId) : List NodeId :=
  sortDedup (Closure.closure reach.get (seeds.length + reach.rows.length) seeds)

def SymbolicClosurePolicy.isOrdinary (policy : SymbolicClosurePolicy) : Bool :=
  policy.contextual.isNone && policy.allowedFuncs.isNone && policy.targetRelevance.isNone && policy.summaryRoot.isNone

namespace QueryRuntimes
variable (runtimes : QueryRuntimes)

def program (policy : SymbolicClosurePolicy) : ClosureProgram where
  unified := runtimes.unified
  reach := runtimes.contextual.reach
  runtime := runtimes.runtime
  fieldDemand := runtimes.runtime.fieldDemand
  symbolic := runtimes.symbolic
  policy := policy

def symbolicForwardClosureNodes (seeds : List NodeId) (policy : SymbolicClosurePolicy) : List NodeId :=
  if !runtimes.hasSymbolicTransforms && policy.isOrdinary then reachClosureNodes runtimes.contextual.reach seeds
  else if policy.targetRelevance.any fun relevance => !relevance.admitsAny seeds then []
  else ((runtimes.program policy).closureRun seeds).nodes

def unrestrictedPolicy : SymbolicClosurePolicy := ⟨none,none,none,none,some runtimes.contextual,true⟩

def forwardClosure (seeds : List NodeId) : List NodeId :=
  runtimes.symbolicForwardClosureNodes seeds runtimes.unrestrictedPolicy

def scopedPolicy (allowed : List FuncId) (relevance : Option IdgTargetRelevance) : SymbolicClosurePolicy :=
  ⟨some allowed,relevance,none,none,some runtimes.contextual,true⟩

def forwardClosureWithinFuncScope (seeds : List NodeId) (allowed : List FuncId) (relevance : Option IdgTargetRelevance) :
    List NodeId :=
  if seeds.isEmpty || allowed.isEmpty then []
  else runtimes.symbolicForwardClosureNodes seeds (runtimes.scopedPolicy allowed relevance)

def forwardClosureWithinFuncs (seeds : List NodeId) (allowed : List FuncId) : List NodeId :=
  runtimes.forwardClosureWithinFuncScope seeds allowed none

def evidencePolicy (allowed : FuncScope) (relevance : Option IdgTargetRelevance) (root : Option FuncId) :
    SymbolicClosurePolicy :=
  ⟨allowed,relevance,none,root,some runtimes.contextual,root.isNone⟩

def forwardClosureEvidenceInFuncScope (seeds : List NodeId) (allowed : FuncScope) (relevance : Option IdgTargetRelevance)
    (root : Option FuncId) : List NodeId :=
  runtimes.symbolicForwardClosureNodes seeds (runtimes.evidencePolicy allowed relevance root)

def forwardClosureEvidenceRootedAtFuncWithinFuncsAndRelevance (seeds : List NodeId) (root : FuncId) (allowed : List FuncId)
    (relevance : Option IdgTargetRelevance) : List NodeId :=
  if seeds.isEmpty || allowed.isEmpty || !allowed.contains root then []
  else runtimes.forwardClosureEvidenceInFuncScope seeds (some allowed) relevance (some root)

def forwardClosureEvidenceRootedAtFuncAndRelevance (seeds : List NodeId) (root : FuncId)
    (relevance : Option IdgTargetRelevance) : List NodeId :=
  if seeds.isEmpty then [] else runtimes.forwardClosureEvidenceInFuncScope seeds none relevance (some root)

def summaryPolicy (root : FuncId) (callees : IdMap (SortedRows FuncId)) (allowed : FuncScope) : SymbolicClosurePolicy :=
  ⟨allowed,none,some callees,some root,some runtimes.contextual,false⟩

def contextualForwardClosureForSummary (seeds : List NodeId) (root : FuncId) (callees : IdMap (SortedRows FuncId))
    (allowed : FuncScope) : List NodeId :=
  runtimes.symbolicForwardClosureNodes seeds (runtimes.summaryPolicy root callees allowed)

variable {runtimes : QueryRuntimes}

theorem mem_contextualNodes {policy : SymbolicClosurePolicy} (contextual : policy.contextual ≠ none)
    (unpruned : policy.targetRelevance = none) {seeds : List NodeId} {node : NodeId} :
    node ∈ runtimes.symbolicForwardClosureNodes seeds policy ↔
      ∃ context, .reached ⟨node,context⟩ ∈ ((runtimes.program policy).closureRun seeds).atoms := by
  have solved : policy.isOrdinary = false := by
    cases given : policy.contextual with
    | none => exact absurd given contextual
    | some _ => simp [SymbolicClosurePolicy.isOrdinary,given]
  rw [symbolicForwardClosureNodes, solved, unpruned]
  simp only [Bool.and_false, Bool.false_eq_true, if_false, Option.any_none]
  exact SymbolicClosureWorklist.mem_nodes

end QueryRuntimes

end BonsaiNinja.Idg
