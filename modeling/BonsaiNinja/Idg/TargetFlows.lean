import BonsaiNinja.Idg.TargetTermination

namespace BonsaiNinja.Idg
open Library

-- A state of the forward algebra with its call context and write order erased.
inductive FlowPoint where
  | node (node : NodeId)
  | fact (base field : Nat)
  deriving DecidableEq, Repr

def FlowPoint.item : FlowPoint → DemandItem
  | .node source => .node source
  | .fact base field => .fact base field

def IdgTargetRelevance.admits (relevance : IdgTargetRelevance) : FlowPoint → Bool
  | .node source => relevance.containsNode source
  | .fact base field => relevance.containsFact base field

namespace QueryRuntimes
open TargetRelevanceWorklist
variable (runtimes : QueryRuntimes) (allowed : FuncScope)

def owner : FlowPoint → Option FuncId
  | .node source => runtimes.unified.wsNodeFunc source
  | .fact base _ => runtimes.baseFunc base

def StaysIn (point : FlowPoint) : Prop := (runtimes.owner point).any allowed.admits = true

inductive Feeds : FlowPoint → FlowPoint → Prop
  | ordinary (edge : target ∈ runtimes.contextual.reach.get source) : Feeds (.node source) (.node target)
  | heap (edge : target ∈ runtimes.contextual.heapByFrom.get source) : Feeds (.node source) (.node target)
  | call (edge : ⟨key,target⟩ ∈ runtimes.contextual.callsByFrom.get source) : Feeds (.node source) (.node target)
  | returned (edge : ⟨key,target⟩ ∈ runtimes.contextual.returnsByFrom.get source) : Feeds (.node source) (.node target)
  | aggregate (edge : target ∈ runtimes.runtime.aggregateOutputs.get source) : Feeds (.node source) (.node target)
  | introduces (fact : identity ∈ runtimes.runtime.symbolicFactsForNode runtimes.unified node) :
      Feeds (.node node) (.fact identity.base identity.field)
  | exactRead (read : node ∈ runtimes.runtime.exactReads.get (base,field)) : Feeds (.fact base field) (.node node)
  | aggregateRead (read : node ∈ runtimes.runtime.aggregateReads.get base) : Feeds (.fact base field) (.node node)
  | rebase (row : rebase ∈ runtimes.runtime.baseRebases.get base)
      (known : runtimes.runtime.rebasedField rebase field = some field') :
      Feeds (.fact base field) (.fact rebase.target field')
  | transform (row : transform ∈ runtimes.runtime.outgoing base) (whole : transform.kind ≠ .scalarReturn) :
      Feeds (.fact base field) (.fact transform.target field)
  | scalarReturn (row : transform ∈ runtimes.runtime.outgoing base) (scalar : transform.kind = .scalarReturn)
      (same : (runtimes.program runtimes.unrestrictedPolicy).scalarMatches transform field = true)
      (written : node ∈ runtimes.runtime.scalarWrites.get (transform.target,transform.writeSpan)) :
      Feeds (.fact base field) (.node node)

def IsTarget (targetNodes : List NodeId) (targetFuncs : List FuncId) (node : NodeId) : Prop :=
  node ∈ targetNodes ∨ ∃ func ∈ targetFuncs, runtimes.unified.wsNodeFunc node = some func

inductive ReachesTarget (targetNodes : List NodeId) (targetFuncs : List FuncId) : FlowPoint → Prop
  | target (named : runtimes.IsTarget targetNodes targetFuncs node) (inside : runtimes.StaysIn allowed (.node node)) :
      ReachesTarget targetNodes targetFuncs (.node node)
  | step (rule : runtimes.Feeds point next) (inside : runtimes.StaysIn allowed point)
      (rest : ReachesTarget targetNodes targetFuncs next) : ReachesTarget targetNodes targetFuncs point

structure Invertible : Prop where
  reach : ∀ {source target}, target ∈ runtimes.contextual.reach.get source → source ∈ runtimes.contextual.reverseReach.get target
  heap : ∀ {source target}, target ∈ runtimes.contextual.heapByFrom.get source →
    source ∈ runtimes.contextual.reverseHeap.get target
  calls : ∀ {source key target}, ⟨key,target⟩ ∈ runtimes.contextual.callsByFrom.get source →
    source ∈ runtimes.contextual.reverseCalls.get target
  returns : ∀ {source key target}, ⟨key,target⟩ ∈ runtimes.contextual.returnsByFrom.get source →
    source ∈ runtimes.contextual.reverseReturns.get target
  aggregate : ∀ {source target}, target ∈ runtimes.runtime.aggregateOutputs.get source →
    source ∈ runtimes.runtime.aggregateInputs.get target
  introduced : ∀ {node identity}, identity ∈ runtimes.runtime.symbolicFactsForNode runtimes.unified node →
    node ∈ runtimes.runtime.factSources.get (identity.base,identity.field)
  exactRead : ∀ {node base field}, node ∈ runtimes.runtime.exactReads.get (base,field) →
    runtimes.lacksInverse node = true ∨
      ∃ identity ∈ runtimes.runtime.symbolicFactsForNode runtimes.unified node, identity.base = base ∧ identity.field = field
  aggregateRead : ∀ {node base}, node ∈ runtimes.runtime.aggregateReads.get base →
    (runtimes.baseFunc base).any allowed.admits = true → (runtimes.unified.wsNodeFunc node).any allowed.admits = true →
      ∃ source ∈ runtimes.runtime.aggregateInputs.get node, runtimes.runtime.storageReadBase source = some base ∧
        runtimes.unified.wsNodeFunc source = runtimes.baseFunc base
  rebase : ∀ {base rebase}, rebase ∈ runtimes.runtime.baseRebases.get base →
    ∃ back ∈ runtimes.runtime.baseRebases.get rebase.target, back.target = base ∧ ∀ field field',
      runtimes.runtime.rebasedField rebase field = some field' → runtimes.runtime.rebasedField back field' = some field
  transform : ∀ {base transform}, transform ∈ runtimes.runtime.outgoing base → transform.kind ≠ .scalarReturn →
    ⟨transform.target,base,transform.kind⟩ ∈ runtimes.runtime.incoming transform.target
  scalarReturn : ∀ {base field node transform}, transform ∈ runtimes.runtime.outgoing base → transform.kind = .scalarReturn →
    (runtimes.program runtimes.unrestrictedPolicy).scalarMatches transform field = true →
      node ∈ runtimes.runtime.scalarWrites.get (transform.target,transform.writeSpan) →
        ⟨.fact base field,.provides (runtimes.baseFunc base)⟩ ∈ runtimes.scalarDemands node

variable {runtimes} {allowed} {w : TargetRelevanceWorklist} {spared : DemandItem → Prop}

theorem reaches_stays {targetNodes : List NodeId} {targetFuncs : List FuncId} {point : FlowPoint}
    (reaches : runtimes.ReachesTarget allowed targetNodes targetFuncs point) : runtimes.StaysIn allowed point := by
  cases reaches <;> assumption

theorem admits_node {node : NodeId} : w.Admits (.node node) ↔ .node node ∈ w.held := by
  simp [Admits]

theorem admits_wildcard {base : Nat} : w.Admits (.wildcard base) ↔ .wildcard base ∈ w.held := by
  simp [Admits]

theorem admits_fact {base field : Nat} : w.Admits (.fact base field) ↔ .fact base field ∈ w.held ∨ .wildcard base ∈ w.held := by
  simp only [Admits, DemandItem.fact.injEq]
  refine or_congr_right ⟨?_,fun whole => ⟨base,field,⟨rfl,rfl⟩,whole⟩⟩
  intro found
  obtain ⟨_,_,⟨rfl,_⟩,whole⟩ := found
  exact whole

theorem admits_iff {point : FlowPoint} : w.relevance.admits point = true ↔
    w.relevance.pruningComplete = false ∨ w.Admits point.item := by
  cases point with
  | node node =>
    simp only [IdgTargetRelevance.admits, containsNode_iff, FlowPoint.item, admits_node, node_held]
  | fact base field =>
    simp only [IdgTargetRelevance.admits, containsFact_iff, FlowPoint.item, admits_fact, fact_held, wildcard_held]
    exact or_congr_right or_comm

theorem transformDemand_passes {row : ReverseSymbolicTransform} {item : Nat → DemandItem}
    (inside : (runtimes.baseFunc row.source).any allowed.admits = true) : Passes allowed (runtimes.transformDemand item row) := by
  unfold Passes transformDemand
  dsimp only
  cases row.kind.activatesProvider <;> exact inside

-- A finished backward run admits everything one forward rule before what it
-- admits.
section
variable (invertible : runtimes.Invertible allowed) (demanded : ∀ item ∈ w.held, ∀ demand ∈ runtimes.demandsOf item,
  Passes allowed demand → w.Admits demand.item)
include invertible demanded

theorem node_admits {node : NodeId} (held : .node node ∈ w.held) (inverted : runtimes.lacksInverse node = false)
    {point : FlowPoint} (rule : runtimes.Feeds point (.node node)) (stays : runtimes.StaysIn allowed point)
    (inside : runtimes.StaysIn allowed (.node node)) : w.Admits point.item := by
  have visits : ∀ demand ∈ runtimes.nodeDemands node, Passes allowed demand → w.Admits demand.item := demanded _ held
  simp only [nodeDemands, List.mem_append, List.mem_map] at visits
  cases rule with
  | ordinary edge => exact visits _ (.inl (.inl (.inl (.inl (.inl (.inl (.inl ⟨_,invertible.reach edge,rfl⟩))))))) stays
  | heap edge => exact visits _ (.inl (.inl (.inl (.inl (.inl (.inl (.inr ⟨_,invertible.heap edge,rfl⟩))))))) stays
  | call edge => exact visits _ (.inl (.inl (.inl (.inl (.inl (.inr ⟨_,invertible.calls edge,rfl⟩)))))) stays
  | returned edge => exact visits _ (.inl (.inl (.inl (.inl (.inr ⟨_,invertible.returns edge,rfl⟩))))) stays
  | aggregate edge => exact visits _ (.inl (.inl (.inl (.inr ⟨_,invertible.aggregate edge,rfl⟩)))) stays
  | exactRead read =>
    rcases invertible.exactRead read with lacks | ⟨identity,introduced,rfl,rfl⟩
    · rw [inverted] at lacks
      cases lacks
    · exact visits _ (.inl (.inl (.inr ⟨identity,introduced,rfl⟩))) trivial
  | aggregateRead read =>
    obtain ⟨source,input,bare,owned⟩ := invertible.aggregateRead read stays inside
    have sourceHeld : w.Admits (.node source) := by
      refine visits _ (.inl (.inl (.inl (.inr ⟨source,input,rfl⟩)))) ?_
      change (runtimes.unified.wsNodeFunc source).any allowed.admits = true
      rw [owned]
      exact stays
    have wild := demanded _ (admits_node.mp sourceHeld) ⟨.wildcard _,.always⟩
      (List.mem_append_left _ (List.mem_append_right _ (List.mem_map.mpr ⟨_,Option.mem_toList.mpr bare,rfl⟩))) trivial
    exact admits_fact.mpr (.inr (admits_wildcard.mp wild))
  | scalarReturn row scalar same written =>
    exact visits _ (.inr (invertible.scalarReturn row scalar same written)) stays

theorem fact_admits {base field : Nat} (admitted : w.Admits (.fact base field)) {point : FlowPoint}
    (rule : runtimes.Feeds point (.fact base field)) (stays : runtimes.StaysIn allowed point) : w.Admits point.item := by
  rcases admits_fact.mp admitted with held | whole
  · have visits : ∀ demand ∈ runtimes.factDemands base field, Passes allowed demand → w.Admits demand.item := demanded _ held
    simp only [factDemands, List.mem_append, List.mem_map, List.mem_filterMap, Option.map_eq_some_iff] at visits
    cases rule with
    | introduces fact => exact visits _ (.inl (.inr ⟨_,invertible.introduced fact,rfl⟩)) stays
    | rebase row known =>
      obtain ⟨back,backRow,rfl,inverse⟩ := invertible.rebase row
      exact visits _ (.inl (.inl ⟨back,backRow,_,inverse _ _ known,rfl⟩)) trivial
    | transform row whole => exact visits _ (.inr ⟨_,invertible.transform row whole,rfl⟩) (transformDemand_passes stays)
  · have visits : ∀ demand ∈ runtimes.wildcardDemands base, Passes allowed demand → w.Admits demand.item := demanded _ whole
    simp only [wildcardDemands, List.mem_append, List.mem_map, List.mem_filter, decide_eq_true_eq] at visits
    cases rule with
    | introduces fact =>
      exact visits _ (.inl (.inr ⟨_,⟨GroupedRows.mem_get.mp (invertible.introduced fact),rfl⟩,rfl⟩)) stays
    | rebase row known =>
      obtain ⟨back,backRow,rfl,_⟩ := invertible.rebase row
      exact admits_fact.mpr (.inr (admits_wildcard.mp (visits _ (.inl (.inl ⟨back,backRow,rfl⟩)) trivial)))
    | transform row scalar =>
      exact admits_fact.mpr (.inr (admits_wildcard.mp
        (visits _ (.inr ⟨_,invertible.transform row scalar,rfl⟩) (transformDemand_passes stays))))

end

end QueryRuntimes

end BonsaiNinja.Idg
