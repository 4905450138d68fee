import BonsaiNinja.Idg.ContextualRuntime

namespace BonsaiNinja.Idg
open Library

inductive DemandItem where
  | node (node : NodeId)
  | fact (base field : Nat)
  | wildcard (base : Nat)
  deriving DecidableEq, Repr

-- Who may own a demanded predecessor: anybody, an active function, or a provider,
-- whose function becomes active.
inductive DemandGate where
  | always
  | inside (func : Option FuncId)
  | provides (func : Option FuncId)
  deriving DecidableEq, Repr

structure Demand where
  item : DemandItem
  gate : DemandGate
  deriving DecidableEq, Repr

-- `activeFuncs` is only kept for a source-rooted proof.
structure TargetRelevanceWorklist where
  relevance : IdgTargetRelevance
  pendingNodes : List NodeId
  pendingFacts : List (Nat × Nat)
  pendingWildcardBases : List Nat
  activeFuncs : FuncScope

namespace TargetRelevanceWorklist

def new (sourceRoot : Option FuncId) : TargetRelevanceWorklist := ⟨⟨[],[],[],true⟩,[],[],[],sourceRoot.map ([·])⟩

def enqueueNode (w : TargetRelevanceWorklist) (node : NodeId) : TargetRelevanceWorklist :=
  if node ∈ w.relevance.nodes then w else
  { w with relevance := { w.relevance with nodes := node :: w.relevance.nodes }, pendingNodes := node :: w.pendingNodes }

def enqueueFact (w : TargetRelevanceWorklist) (base field : Nat) : TargetRelevanceWorklist :=
  if base ∈ w.relevance.wildcardBases ∨ (base,field) ∈ w.relevance.facts then w else
  { w with relevance := { w.relevance with facts := (base,field) :: w.relevance.facts }
           pendingFacts := (base,field) :: w.pendingFacts }

def enqueueWildcardBase (w : TargetRelevanceWorklist) (base : Nat) : TargetRelevanceWorklist :=
  if base ∈ w.relevance.wildcardBases then w else
  { w with relevance := { w.relevance with wildcardBases := base :: w.relevance.wildcardBases }
           pendingWildcardBases := base :: w.pendingWildcardBases }

def enqueue (w : TargetRelevanceWorklist) : DemandItem → TargetRelevanceWorklist
  | .node node => w.enqueueNode node
  | .fact base field => w.enqueueFact base field
  | .wildcard base => w.enqueueWildcardBase base

def activate (w : TargetRelevanceWorklist) (func : FuncId) : TargetRelevanceWorklist :=
  { w with activeFuncs := w.activeFuncs.map (·.insert func) }

def hasPending (w : TargetRelevanceWorklist) : Bool :=
  !w.pendingNodes.isEmpty || !w.pendingFacts.isEmpty || !w.pendingWildcardBases.isEmpty

def giveUp (w : TargetRelevanceWorklist) : TargetRelevanceWorklist :=
  { w with relevance := { w.relevance with pruningComplete := false } }

end TargetRelevanceWorklist

def SymbolicFieldTransformKind.activatesProvider : SymbolicFieldTransformKind → Bool
  | .return | .constructorReturn | .receiverMutation => true
  | _ => false

namespace QueryRuntimes
variable (runtimes : QueryRuntimes) (allowed : FuncScope)

def baseFunc (base : Nat) : Option FuncId := (runtimes.symbolic.bases[base]?).map (·.func)

def visitDemand (w : TargetRelevanceWorklist) (demand : Demand) : TargetRelevanceWorklist :=
  match demand.gate with
  | .always => w.enqueue demand.item
  | .inside func =>
    if func.any fun func => allowed.admits func && w.activeFuncs.admits func then w.enqueue demand.item else w
  | .provides none => w
  | .provides (some func) => if allowed.admits func then (w.activate func).enqueue demand.item else w

def insideNode (node : NodeId) : Demand := ⟨.node node,.inside (runtimes.unified.wsNodeFunc node)⟩

def providingNode (node : NodeId) : Demand := ⟨.node node,.provides (runtimes.unified.wsNodeFunc node)⟩

def scalarDemands (node : NodeId) : List Demand :=
  match runtimes.runtime.storageWriteIdentity node with
  | none => []
  | some (target,spanId) =>
    match runtimes.runtime.span spanId with
    | none => []
    | some writeSpan => (runtimes.runtime.incomingScalar target writeSpan).filterMap fun row =>
        ((row.exactField.bind runtimes.symbolic.string).bind runtimes.runtime.fieldId).map fun field =>
          ⟨.fact row.source field,.provides (runtimes.baseFunc row.source)⟩

def nodeDemands (node : NodeId) : List Demand :=
  (runtimes.contextual.reverseReach.get node).map runtimes.insideNode ++
    (runtimes.contextual.reverseHeap.get node).map runtimes.providingNode ++
    (runtimes.contextual.reverseCalls.get node).map runtimes.insideNode ++
    (runtimes.contextual.reverseReturns.get node).map runtimes.providingNode ++
    (runtimes.runtime.aggregateInputs.get node).map runtimes.insideNode ++
    (runtimes.runtime.symbolicFactsForNode runtimes.unified node).map (fun fact => ⟨.fact fact.base fact.field,.always⟩) ++
    (runtimes.runtime.storageReadBase node).toList.map (fun base => ⟨.wildcard base,.always⟩) ++
    runtimes.scalarDemands node

def transformDemand (item : Nat → DemandItem) (row : ReverseSymbolicTransform) : Demand :=
  ⟨item row.source,if row.kind.activatesProvider then .provides (runtimes.baseFunc row.source)
    else .inside (runtimes.baseFunc row.source)⟩

def factDemands (base field : Nat) : List Demand :=
  (runtimes.runtime.baseRebases.get base).filterMap (fun rebase =>
      (runtimes.runtime.rebasedField rebase field).map fun field => ⟨.fact rebase.target field,.always⟩) ++
    (runtimes.runtime.factSources.get (base,field)).map runtimes.insideNode ++
    (runtimes.runtime.incoming base).map (runtimes.transformDemand fun source => .fact source field)

def wildcardDemands (base : Nat) : List Demand :=
  (runtimes.runtime.baseRebases.get base).map (fun rebase => ⟨.wildcard rebase.target,.always⟩) ++
    ((runtimes.runtime.factSources.rows.filter fun row => row.1.1 = base).map fun row => runtimes.insideNode row.2) ++
    (runtimes.runtime.incoming base).map (runtimes.transformDemand .wildcard)

def demandsOf : DemandItem → List Demand
  | .node node => runtimes.nodeDemands node
  | .fact base field => runtimes.factDemands base field
  | .wildcard base => runtimes.wildcardDemands base

-- A projected place without an access-path fact cannot be inverted, so nothing may
-- be pruned any more.
def lacksInverse (node : NodeId) : Bool :=
  (runtimes.runtime.symbolicFactsForNode runtimes.unified node).isEmpty && runtimes.unified.isProjected node

def expandDemand (w : TargetRelevanceWorklist) (item : DemandItem) : TargetRelevanceWorklist :=
  let w := (runtimes.demandsOf item).foldl (visitDemand allowed) w
  match item with
  | .node node => if runtimes.lacksInverse node then w.giveUp else w
  | _ => w

def nextDemandNode (w : TargetRelevanceWorklist) : TargetRelevanceWorklist :=
  match w.pendingNodes with
  | [] => w
  | node :: rest => runtimes.expandDemand allowed { w with pendingNodes := rest } (.node node)

def nextDemandFact (w : TargetRelevanceWorklist) : TargetRelevanceWorklist :=
  match w.pendingFacts with
  | [] => w
  | (base,field) :: rest => runtimes.expandDemand allowed { w with pendingFacts := rest } (.fact base field)

def nextDemandBase (w : TargetRelevanceWorklist) : TargetRelevanceWorklist :=
  match w.pendingWildcardBases with
  | [] => w
  | base :: rest => runtimes.expandDemand allowed { w with pendingWildcardBases := rest } (.wildcard base)

def relevanceLoop : Nat → TargetRelevanceWorklist → TargetRelevanceWorklist
  | 0, w => w
  | fuel + 1, w =>
    if w.hasPending then
      let w := runtimes.nextDemandNode allowed w
      if w.relevance.pruningComplete then relevanceLoop fuel (runtimes.nextDemandBase allowed (runtimes.nextDemandFact allowed w))
      else w
    else w

def targetDemands (targetNodes : List NodeId) (targetFuncs : List FuncId) : List Demand :=
  targetNodes.map runtimes.insideNode ++
    targetFuncs.flatMap fun func => ((runtimes.unified.nodesByFunc func).getD []).map fun node =>
      ⟨.node node,.inside (some func)⟩

def seedRelevance (targetNodes : List NodeId) (targetFuncs : List FuncId) (sourceRoot : Option FuncId) :
    TargetRelevanceWorklist :=
  (runtimes.targetDemands targetNodes targetFuncs).foldl (visitDemand allowed) (.new sourceRoot)

def demandableNodes : List NodeId := List.range runtimes.unified.nodeCount

def demandableBases : List Nat :=
  runtimes.runtime.baseRebases.rows.map (·.2.target) ++ runtimes.runtime.factPages.entries.flatMap (fun page =>
      page.2.flatten.map (·.base)) ++
    runtimes.runtime.storageReads.map (·.2) ++ runtimes.runtime.reverseTransforms.rows.map (·.source) ++
    runtimes.runtime.reverseScalarTransforms.rows.map (·.source)

def demandableFields : List Nat :=
  List.range runtimes.runtime.fields.rows.length ++ runtimes.runtime.factPages.entries.flatMap fun page =>
    page.2.flatten.map (·.field)

def relevanceFuel : Nat :=
  runtimes.demandableNodes.length + runtimes.demandableBases.length * runtimes.demandableFields.length +
    runtimes.demandableBases.length

def targetRelevanceInFuncScope (targetNodes : List NodeId) (targetFuncs : List FuncId) (sourceRoot : Option FuncId) :
    IdgTargetRelevance :=
  (runtimes.relevanceLoop allowed runtimes.relevanceFuel
    (runtimes.seedRelevance allowed targetNodes targetFuncs sourceRoot)).relevance

def targetRelevance (targetNodes : List NodeId) (targetFuncs : List FuncId) : IdgTargetRelevance :=
  runtimes.targetRelevanceInFuncScope none targetNodes targetFuncs none

def targetRelevanceWithinFuncs (targetNodes : List NodeId) (targetFuncs allowed : List FuncId) : IdgTargetRelevance :=
  runtimes.targetRelevanceInFuncScope (some allowed) targetNodes targetFuncs none

def targetRelevanceFromSourceWithinFuncs (source : FuncId) (targetNodes : List NodeId) (targetFuncs allowed : List FuncId) :
    IdgTargetRelevance :=
  runtimes.targetRelevanceInFuncScope (some allowed) targetNodes targetFuncs (some source)

end QueryRuntimes

end BonsaiNinja.Idg
