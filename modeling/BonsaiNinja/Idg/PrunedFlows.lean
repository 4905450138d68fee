import BonsaiNinja.Idg.RealizablePaths
import BonsaiNinja.Idg.StorageModes
import BonsaiNinja.Idg.TargetInverses

namespace BonsaiNinja.Idg
open Library

theorem stored_readable (body : WorkspaceBody) (mode : StorageMode) : (body.stored mode).Readable := by
  have same := stored_sameAccess body mode
  intro id inside
  rw [same.segmentCount] at inside
  rw [same.segmentView]
  exact Option.isSome_iff_exists.mpr ⟨_,List.getElem?_eq_getElem (l := body.segments) inside⟩

namespace QueryRuntimes
open TargetRelevanceWorklist
variable {runtimes : QueryRuntimes} {allowed : FuncScope} {w w' : TargetRelevanceWorklist} {spared : DemandItem → Prop}
  {targetNodes : List NodeId} {targetFuncs : List FuncId}

theorem popDemand_held (item : DemandItem) (w : TargetRelevanceWorklist) :
    w.held ⊆ (runtimes.popDemand allowed item w).held := by
  rw [(popDemand_lists runtimes allowed w item).1]
  intro other held
  exact (visitDemands_grows allowed _ _).held (by rwa [popped_held])

theorem runs_held (run : runtimes.DemandRuns allowed spared w w') : w.held ⊆ w'.held := by
  induction run with
  | refl => exact List.Subset.refl _
  | tail _ step previous =>
    obtain ⟨_,item,_,_,rfl⟩ := step
    exact List.Subset.trans previous (popDemand_held item _)

theorem target_demanded {node : NodeId} (named : runtimes.IsTarget targetNodes targetFuncs node) : ∃ demand ∈ runtimes.targetDemands targetNodes targetFuncs,
      demand.item = .node node ∧ demand.gate = .inside (runtimes.unified.wsNodeFunc node) := by
  simp only [targetDemands, List.mem_append, List.mem_map, List.mem_flatMap]
  rcases named with listed | ⟨func,member,owner⟩
  · exact ⟨runtimes.insideNode node,.inl ⟨node,listed,rfl⟩,rfl,rfl⟩
  · refine ⟨⟨.node node,.inside (some func)⟩,.inr ⟨func,member,node,?_,rfl⟩,rfl,by rw [owner]⟩
    have listed : runtimes.unified.nodeFuncs[node]? = some func := owner
    obtain ⟨bound,same⟩ := List.getElem?_eq_some_iff.mp listed
    have known : runtimes.unified.nodeFuncs.any (func ≤ ·) = true :=
      List.any_eq_true.mpr ⟨func,List.mem_of_getElem? listed,decide_eq_true (Nat.le_refl func)⟩
    unfold UnifiedAddressSpace.nodesByFunc
    rw [if_pos known, Option.getD_some, List.mem_filter]
    exact ⟨List.mem_range.mpr bound,decide_eq_true listed⟩

-- A finished, unrooted and complete run admits whatever leads to a target.
theorem run_admits (invertible : runtimes.Invertible allowed) (settled : runtimes.Settled allowed (fun _ => True) w)
    (drained : w.waiting = []) (complete : w.relevance.pruningComplete = true)
    (targets : ∀ node, runtimes.IsTarget targetNodes targetFuncs node → runtimes.StaysIn allowed (.node node) →
      w.Admits (.node node)) {point : FlowPoint}
    (reaches : runtimes.ReachesTarget allowed targetNodes targetFuncs point) : w.Admits point.item := by
  have idle : ∀ item, item ∉ w.waiting := by simp [drained]
  have demanded : ∀ item ∈ w.held, ∀ demand ∈ runtimes.demandsOf item, Passes allowed demand → w.Admits demand.item :=
    fun item held demand member passes => settled.demanded item held (idle item) demand member passes trivial
  induction reaches with
  | target named inside => exact targets _ named inside
  | step rule inside rest admitted =>
    rename_i point next
    cases next with
    | node node =>
      have held := admits_node.mp admitted
      exact node_admits invertible demanded held (settled.inverted complete node held (idle _)) rule inside (reaches_stays rest)
    | fact base field => exact fact_admits invertible demanded admitted rule inside

theorem targetRelevance_admits (invertible : runtimes.Invertible allowed) {point : FlowPoint}
    (reaches : runtimes.ReachesTarget allowed targetNodes targetFuncs point) :
    (runtimes.targetRelevanceInFuncScope allowed targetNodes targetFuncs none).admits point = true := by
  have run : runtimes.DemandRuns allowed (fun _ => True) (runtimes.seedRelevance allowed targetNodes targetFuncs none)
      (runtimes.relevanceRun allowed targetNodes targetFuncs none) :=
    (rootless_runs ((visitDemands_grows allowed _ _).rootless rfl) relevanceRun_runs).1
  change (runtimes.relevanceRun allowed targetNodes targetFuncs none).relevance.admits point = true
  cases complete : (runtimes.relevanceRun allowed targetNodes targetFuncs none).relevance.pruningComplete with
  | false => exact admits_iff.mpr (.inl complete)
  | true =>
    have drained : (runtimes.relevanceRun allowed targetNodes targetFuncs none).waiting = [] := by
      rcases relevanceRun_finished with gaveUp | drained
      · rw [complete] at gaveUp
        cases gaveUp
      · exact drained
    refine admits_iff.mpr (.inr (run_admits invertible (runs_settled run seedRelevance_settled) drained complete ?_ reaches))
    intro node named inside
    obtain ⟨demand,member,item,gate⟩ := target_demanded named
    have passes : Passes allowed demand := by
      unfold Passes
      rw [gate]
      exact inside
    have seeded : (runtimes.seedRelevance allowed targetNodes targetFuncs none).Admits demand.item :=
      visitDemands_admits (noneTurnedAway_unrooted rfl (fun _ => True) _) member passes trivial
    rw [item] at seeded
    exact admits_node.mpr (runs_held run (admits_node.mp seeded))

end QueryRuntimes

end BonsaiNinja.Idg

namespace BonsaiNinja.Idg
open Library

-- A forward state without its context: a node reached as a value source, a node
-- that consumed a fact, or a fact.
inductive FlowState where
  | source (node : NodeId)
  | consumed (node : NodeId)
  | fact (identity : SymbolicFactIdentity)

def FlowState.point : FlowState → FlowPoint
  | .source node | .consumed node => .node node
  | .fact identity => .fact identity.base identity.field

def FlowState.AtNode (node : NodeId) (state : FlowState) : Prop := state = .source node ∨ state = .consumed node

namespace QueryRuntimes
open TargetRelevanceWorklist
variable (runtimes : QueryRuntimes) (allowed : FuncScope)
variable {context : CallContext}

inductive Carries (transform : SymbolicFieldTransform) (identity : SymbolicFactIdentity) : FlowState → Prop
  | whole (unread : transform.kind ≠ .scalarReturn) :
      Carries transform identity (.fact (runtimes.unrestricted.transformedIdentity transform identity.field))
  | scalar (read : transform.kind = .scalarReturn)
      (same : runtimes.unrestricted.scalarMatches transform identity.field = true)
      (written : node ∈ runtimes.runtime.scalarWrites.get (transform.target,transform.writeSpan)) :
      Carries transform identity (.source node)

structure Transforms (boundary : Option (ContextBoundaryKey × Bool)) (identity : SymbolicFactIdentity) (next : FlowState)
    (transform : SymbolicFieldTransform) : Prop where
  row : transform ∈ runtimes.runtime.outgoing identity.base
  ordered : runtimes.unrestricted.writtenAfter transform identity = false
  crosses : symbolicTransformBoundary runtimes.symbolic transform = boundary
  carries : runtimes.Carries transform identity next

inductive LocalStep : FlowState → FlowState → Prop
  | ordinary (site : state.AtNode source) (edge : target ∈ runtimes.contextual.reach.get source) :
      LocalStep state (.source target)
  | introduces (fact : identity ∈ runtimes.runtime.symbolicFactsForNode runtimes.unified node) :
      LocalStep (.source node) (.fact identity)
  | consumes (read : node ∈ runtimes.unrestricted.factConsumers identity) : LocalStep (.fact identity) (.consumed node)
  | rebase (rebased : runtimes.Rebased identity identity') : LocalStep (.fact identity) (.fact identity')
  | transform (step : runtimes.Transforms none identity next transform) : LocalStep (.fact identity) next

inductive CallStep : FlowState → ContextBoundaryKey → FlowState → Prop
  | call (site : state.AtNode source) (edge : ⟨key,target⟩ ∈ runtimes.contextual.callsByFrom.get source)
      (inside : allowed.admits key.caller = true ∧ allowed.admits key.callee = true) : CallStep state key (.source target)
  | argument (step : runtimes.Transforms (some (key,true)) identity next transform)
      (inside : allowed.admits key.caller = true ∧ allowed.admits key.callee = true) : CallStep (.fact identity) key next

inductive ReturnStep : FlowState → ContextBoundaryKey → FlowState → Prop
  | returned (site : state.AtNode source) (edge : ⟨key,target⟩ ∈ runtimes.contextual.returnsByFrom.get source) :
      ReturnStep state key (.source target)
  | result (step : runtimes.Transforms (some (key,false)) identity next transform) : ReturnStep (.fact identity) key next

-- The whole forward algebra of a scope as a call graph. Facts of bases nobody
-- demands are not kept by any closure.
def symbolicFlow : PushdownGraph FlowState ContextBoundaryKey where
  owns state := runtimes.StaysIn allowed state.point ∧
    ∀ identity, state = .fact identity → identity.base ∈ runtimes.runtime.fieldDemand
  keeps := runtimes.LocalStep
  resets state next := ∃ source target, state.AtNode source ∧ next = .source target ∧
    target ∈ runtimes.contextual.heapByFrom.get source
  calls := runtimes.CallStep allowed
  returns := runtimes.ReturnStep

variable {runtimes} {allowed} {relevance : IdgTargetRelevance} {known : Set ClosureAtom} {seeds : List NodeId}

theorem atNode_point {state : FlowState} {node : NodeId} (site : state.AtNode node) : state.point = .node node := by
  rcases site with rfl | rfl <;> rfl

theorem transforms_feeds {boundary : Option (ContextBoundaryKey × Bool)} {identity : SymbolicFactIdentity} {next : FlowState}
    {transform : SymbolicFieldTransform} (step : runtimes.Transforms boundary identity next transform) :
    runtimes.Feeds (.fact identity.base identity.field) next.point := by
  cases step.carries with
  | whole unread => exact .transform step.row unread
  | scalar read same written => exact .scalarReturn step.row read same written

-- Erasing contexts and write order leaves the rules the backward run inverts.
theorem edge_feeds {state next : FlowState} (edge : (runtimes.symbolicFlow allowed).Edge state next) :
    runtimes.Feeds state.point next.point := by
  rcases edge with kept | ⟨source,target,site,rfl,heap⟩ | ⟨key,called | returned⟩
  · cases kept with
    | ordinary site edge => rw [atNode_point site]; exact .ordinary edge
    | introduces fact => exact .introduces fact
    | consumes read => exact (List.mem_append.mp read).elim .exactRead .aggregateRead
    | rebase rebased =>
      obtain ⟨rebase,row,field,found,rfl⟩ := rebased
      exact .rebase row found
    | transform step => exact transforms_feeds step
  · rw [atNode_point site]
    exact .heap heap
  · cases called with
    | call site edge _ => rw [atNode_point site]; exact .call edge
    | argument step _ => exact transforms_feeds step
  · cases returned with
    | returned site edge => rw [atNode_point site]; exact .returned edge
    | result step => exact transforms_feeds step

def prunedProgram (runtimes : QueryRuntimes) (allowed : FuncScope) (relevance : IdgTargetRelevance) : ClosureProgram :=
  runtimes.program (runtimes.evidencePolicy allowed (some relevance) none)

def Derived (runtimes : QueryRuntimes) (allowed : FuncScope) (relevance : IdgTargetRelevance) (known : Set ClosureAtom)
    (context : CallContext) : FlowState → Prop
  | .source node => (runtimes.prunedProgram allowed relevance).sourced ⟨node,context⟩ ⊆ known
  | .consumed node => .reached ⟨node,context⟩ ∈ known
  | .fact identity => .fact ⟨identity,context⟩ ∈ known

def Admitted (runtimes : QueryRuntimes) (allowed : FuncScope) (relevance : IdgTargetRelevance) (state : FlowState) : Prop :=
  (runtimes.symbolicFlow allowed).owns state ∧ relevance.admits state.point = true

theorem pruned_active {func : FuncId} (admitted : allowed.admits func = true) :
    (runtimes.prunedProgram allowed relevance).IsActive known func := ⟨admitted,.inl rfl⟩

theorem admitted_owner {node : NodeId} (inside : runtimes.StaysIn allowed (.node node)) :
    ∃ func, runtimes.unified.wsNodeFunc node = some func ∧ allowed.admits func = true := by
  obtain ⟨func,owner,admitted⟩ := (Option.any_eq_true ..).mp inside
  exact ⟨func,owner,admitted⟩

theorem pruned_allowed {node : NodeId} (inside : runtimes.StaysIn allowed (.node node))
    (relevant : relevance.admits (.node node) = true) : (runtimes.prunedProgram allowed relevance).NodeAllowed known node := by
  obtain ⟨func,owner,admitted⟩ := admitted_owner inside
  exact ⟨relevant,func,owner,pruned_active admitted⟩

theorem pruned_relevant {identity : SymbolicFactIdentity} (admitted : runtimes.Admitted allowed relevance (.fact identity)) :
    (runtimes.prunedProgram allowed relevance).factIsRelevant identity.base identity.field = true := by
  have demanded := admitted.1.2 identity rfl
  unfold ClosureProgram.factIsRelevant
  rw [Bool.and_eq_true]
  exact ⟨List.contains_iff_mem.mpr demanded,admitted.2⟩

theorem derived_reached {state : FlowState} {node : NodeId} (site : state.AtNode node)
    (inside : runtimes.StaysIn allowed state.point) (derived : runtimes.Derived allowed relevance known context state) :
    .reached ⟨node,context⟩ ∈ known := by
  rcases site with rfl | rfl
  · obtain ⟨func,owner,_⟩ := admitted_owner inside
    exact derived (.inl ⟨UnifiedAddressSpace.wsNodeFunc_isSome.mp ⟨func,owner⟩,rfl⟩)
  · exact derived

theorem pruned_transition {source target : NodeId} (from' : runtimes.StaysIn allowed (.node source))
    (inside : runtimes.StaysIn allowed (.node target)) (relevant : relevance.admits (.node target) = true) :
    (runtimes.prunedProgram allowed relevance).sourced ⟨target,context⟩ ⊆
      (runtimes.prunedProgram allowed relevance).transitionYields known source target context := by
  obtain ⟨sourceFunc,ownSource,_⟩ := admitted_owner from'
  obtain ⟨targetFunc,ownTarget,admitted⟩ := admitted_owner inside
  exact fun atom member => ⟨relevant,sourceFunc,targetFunc,ownSource,ownTarget,.inl ⟨pruned_active admitted,member⟩⟩

section
variable (closed : ((runtimes.prunedProgram allowed relevance).rules seeds).Closed known)
variable {context : CallContext}
include closed

theorem pruned_item (item : ClosureItem) (member : item.atom ∈ known) :
    (runtimes.prunedProgram allowed relevance).itemYields known item ⊆ known :=
  fun _ yields => closed _ (.inr (.inr (.inl ⟨item,member,yields⟩)))

theorem pruned_replay : (runtimes.prunedProgram allowed relevance).replayYields known ⊆ known :=
  fun _ yields => closed _ (.inr (.inr (.inr yields)))

theorem derived_transform {boundary : Option (ContextBoundaryKey × Bool)} {identity : SymbolicFactIdentity} {next : FlowState}
    {transform : SymbolicFieldTransform} {contexts : TransformContexts}
    (step : runtimes.Transforms boundary identity next transform) (admitted : runtimes.Admitted allowed relevance next)
    (derived : .fact ⟨identity,context⟩ ∈ known)
    (delivers : (runtimes.prunedProgram allowed relevance).Delivers known transform context contexts) :
    match next, contexts with
    | .source node, .completed key => .returnedNode key node ∈ known
    | .fact identity, .completed key => .returnedFact key identity ∈ known
    | next, .next context => runtimes.Derived allowed relevance known context next
    | .consumed _, .completed _ => False := by
  have onward : (runtimes.prunedProgram allowed relevance).transformYields known ⟨identity,context⟩ transform ⊆ known :=
    fun atom yields => pruned_item closed (.fact ⟨identity,context⟩) derived (.inr (.inr ⟨transform,step.row,yields⟩))
  cases step.carries with
  | whole unread =>
    have relevant := pruned_relevant admitted
    have active : (runtimes.prunedProgram allowed relevance).TargetActive known transform := by
      obtain ⟨func,owner,admits⟩ := (Option.any_eq_true ..).mp admitted.1.1
      obtain ⟨base,entry,rfl⟩ := Option.map_eq_some_iff.mp owner
      exact ⟨base,entry,.inl (pruned_active admits)⟩
    have delivered : (runtimes.prunedProgram allowed relevance).factDelivery
        (runtimes.unrestricted.transformedIdentity transform identity.field) contexts ⊆ known := fun atom member =>
      onward ⟨step.ordered,fun _ => relevant,.inr ⟨contexts,delivers,.inr ⟨unread,active,member⟩⟩⟩
    cases contexts with
    | completed key => exact delivered rfl
    | next context => exact delivered ⟨relevant,rfl⟩
  | scalar read same written =>
    rename_i node
    have allowed' : (runtimes.prunedProgram allowed relevance).NodeAllowed known _ := pruned_allowed admitted.1.1 admitted.2
    have delivered : (runtimes.prunedProgram allowed relevance).nodeDelivery node contexts ⊆ known := fun atom member =>
      onward ⟨step.ordered,fun unread => absurd read unread,.inr ⟨contexts,delivers,.inl ⟨read,same,node,written,allowed',member⟩⟩⟩
    cases contexts with
    | completed key => exact delivered rfl
    | next context => exact delivered

theorem derived_local {state next : FlowState} (inside : runtimes.Admitted allowed relevance state)
    (derived : runtimes.Derived allowed relevance known context state) (step : runtimes.LocalStep state next)
    (admitted : runtimes.Admitted allowed relevance next) : runtimes.Derived allowed relevance known context next := by
  cases step with
  | ordinary site edge =>
    have reached := derived_reached site inside.1.1 derived
    have from' := inside.1.1
    rw [atNode_point site] at from'
    exact fun atom member => pruned_item closed (.node ⟨_,context⟩) reached
      (.inl ⟨_,edge,pruned_transition from' admitted.1.1 admitted.2 member⟩)
  | introduces fact =>
    have demanded := admitted.1.2 _ rfl
    exact derived (.inr ⟨List.ne_nil_of_mem demanded,.inr ⟨_,fact,pruned_relevant admitted,rfl⟩⟩)
  | consumes read =>
    exact pruned_item closed (.fact ⟨_,context⟩) derived
      (.inr (.inl ⟨_,read,pruned_allowed admitted.1.1 admitted.2,rfl⟩))
  | rebase rebased =>
    obtain ⟨rebase,row,field,found,rfl⟩ := rebased
    exact pruned_item closed (.fact ⟨_,context⟩) derived (.inl ⟨rebase,row,field,found,pruned_relevant admitted,rfl⟩)
  | transform step =>
    have moved := derived_transform closed step admitted derived (.ordinary (.inr step.crosses))
    cases next <;> exact moved

theorem derived_call {state next : FlowState} {key : ContextBoundaryKey}
    (inside : runtimes.Admitted allowed relevance state) (derived : runtimes.Derived allowed relevance known context state)
    (step : runtimes.CallStep allowed state key next) (admitted : runtimes.Admitted allowed relevance next) :
    .caller key context ∈ known ∧ runtimes.Derived allowed relevance known (some key) next := by
  cases step with
  | call site edge scope =>
    have reached := derived_reached site inside.1.1 derived
    have enter : (runtimes.prunedProgram allowed relevance).MayEnter known key.caller key.callee :=
      ⟨pruned_active scope.1,rfl,scope.2⟩
    have onward : (runtimes.prunedProgram allowed relevance).callYields known context ⟨key,_⟩ ⊆ known := fun atom member =>
      pruned_item closed (.node ⟨_,context⟩) reached (.inr ⟨_,rfl,.inr (.inl ⟨_,edge,member⟩)⟩)
    refine ⟨onward ⟨admitted.2,enter,.inr (.inl rfl)⟩,fun atom member => onward ⟨admitted.2,enter,.inr (.inr ?_)⟩⟩
    exact ⟨.inl (pruned_allowed admitted.1.1 admitted.2),member⟩
  | argument step scope =>
    have enter : (runtimes.prunedProgram allowed relevance).MayEnter known key.caller key.callee :=
      ⟨pruned_active scope.1,rfl,scope.2⟩
    have contextual : (runtimes.prunedProgram allowed relevance).policy.contextual ≠ none := fun empty => by cases empty
    have moved := derived_transform closed step admitted derived (.enters contextual step.crosses enter)
    refine ⟨?_,by cases next <;> exact moved⟩
    refine pruned_item closed (.fact ⟨_,context⟩) derived (.inr (.inr ⟨_,step.row,step.ordered,?_,.inl ?_⟩))
    · intro unread
      cases step.carries with
      | whole _ => exact pruned_relevant admitted
      | scalar read _ _ => exact absurd read unread
    · exact ⟨contextual,key,step.crosses,enter,.inr rfl⟩

theorem derived_return {state next : FlowState} {key : ContextBoundaryKey} (inside : runtimes.Admitted allowed relevance state)
    (step : runtimes.ReturnStep state key next) (admitted : runtimes.Admitted allowed relevance next) :
    (runtimes.Derived allowed relevance known none state → runtimes.Derived allowed relevance known none next) ∧
      ∀ context, runtimes.Derived allowed relevance known (some key) state → .caller key context ∈ known →
        runtimes.Derived allowed relevance known context next := by
  cases step with
  | returned site edge =>
    have allowed' : (runtimes.prunedProgram allowed relevance).NodeAllowed known _ := pruned_allowed admitted.1.1 admitted.2
    refine ⟨fun derived => ?_,fun context derived caller => ?_⟩
    · have reached := derived_reached site inside.1.1 derived
      exact fun atom member => pruned_item closed (.node ⟨_,none⟩) reached
        (.inr ⟨_,rfl,.inr (.inr ⟨_,edge,allowed',.inr ⟨rfl,rfl,member⟩⟩)⟩)
    · have reached := derived_reached site inside.1.1 derived
      have recorded : .returnedNode key _ ∈ known := pruned_item closed (.node ⟨_,some key⟩) reached
        (.inr ⟨_,rfl,.inr (.inr ⟨_,edge,allowed',.inl ⟨rfl,rfl⟩⟩)⟩)
      exact fun atom member => pruned_replay closed ⟨key,context,caller,.inl ⟨_,recorded,allowed',member⟩⟩
  | result step =>
    have contextual : (runtimes.prunedProgram allowed relevance).policy.contextual ≠ none := fun empty => by cases empty
    refine ⟨fun derived => ?_,fun context derived caller => ?_⟩
    · have moved := derived_transform closed step admitted derived (.seedCaller contextual step.crosses rfl rfl)
      cases next <;> exact moved
    · have moved := derived_transform closed step admitted derived (.matched contextual step.crosses rfl)
      cases next with
      | source node =>
        exact fun atom member => pruned_replay closed ⟨key,context,caller,
          .inl ⟨node,moved,pruned_allowed admitted.1.1 admitted.2,member⟩⟩
      | consumed node => exact moved.elim
      | fact identity =>
        exact pruned_replay closed ⟨key,context,caller,.inr ⟨identity,moved,pruned_relevant admitted,rfl⟩⟩

theorem tabulated_derived {kept : FlowState → Prop} (admits : ∀ state, kept state → relevance.admits state.point = true)
    {state : FlowState}
    (path : ((runtimes.symbolicFlow allowed).restrict kept).Tabulated (fun state => ∃ seed ∈ seeds, state = .source seed)
      state context) : runtimes.Admitted allowed relevance state ∧ runtimes.Derived allowed relevance known context state := by
  have admitted : ∀ {state}, ((runtimes.symbolicFlow allowed).restrict kept).owns state →
      runtimes.Admitted allowed relevance state := fun owned => ⟨owned.1,admits _ owned.2⟩
  induction path with
  | start seed inside =>
    obtain ⟨node,member,rfl⟩ := seed
    refine ⟨admitted inside,fun atom sourced => closed _ (.inr (.inl ⟨node,member,?_,sourced⟩))⟩
    exact pruned_allowed inside.1.1 (admitted inside).2
  | keep _ edge inside ih => exact ⟨admitted inside,derived_local closed ih.1 ih.2 edge (admitted inside)⟩
  | reset path edge inside ih =>
    obtain ⟨source,target,site,rfl,heap⟩ := edge
    have from' := ih.1.1.1
    rw [atNode_point site] at from'
    have reached := derived_reached site ih.1.1.1 ih.2
    exact ⟨admitted inside,fun atom member => pruned_item closed (.node ⟨source,_⟩) reached
      (.inr ⟨_,rfl,.inl ⟨target,heap,pruned_transition from' inside.1.1 (admitted inside).2 member⟩⟩)⟩
  | call _ edge inside ih => exact ⟨admitted inside,(derived_call closed ih.1 ih.2 edge.1 (admitted inside)).2⟩
  | resumed _ edge inside _ called ih site =>
    have caller := (derived_call closed site.1 site.2 called.1 (admitted called.2)).1
    exact ⟨admitted inside,(derived_return closed ih.1 edge (admitted inside)).2 _ ih.2 caller⟩
  | escape _ edge inside ih => exact ⟨admitted inside,(derived_return closed ih.1 edge (admitted inside)).1 ih.2⟩

end

theorem mem_prunedNodes {node : NodeId} {seed : NodeId} (member : seed ∈ seeds)
    (relevant : relevance.admits (.node seed) = true)
    (reached : .reached ⟨node,context⟩ ∈ ((runtimes.prunedProgram allowed relevance).rules seeds).least) :
    node ∈ runtimes.forwardClosureEvidenceInFuncScope seeds allowed (some relevance) none := by
  have unseeded : (!relevance.admitsAny seeds) = false := by
    rw [Bool.not_eq_false']
    exact List.any_eq_true.mpr ⟨seed,member,relevant⟩
  have contextual : (runtimes.evidencePolicy allowed (some relevance) none).isOrdinary = false := rfl
  have pruning : (runtimes.evidencePolicy allowed (some relevance) none).targetRelevance = some relevance := rfl
  rw [forwardClosureEvidenceInFuncScope, symbolicForwardClosureNodes, contextual, pruning]
  simp only [Bool.and_false, Bool.false_eq_true, if_false, Option.any_some, unseeded]
  refine SymbolicClosureWorklist.mem_nodes.mpr ⟨context,?_⟩
  rw [ClosureProgram.closureRun_least rfl]
  exact reached

-- A flow to a target is among the states that lead to it, so a closure pruned by the
-- relevance still finds it.
theorem pruned_covers (invertible : runtimes.Invertible allowed) {targetNodes : List NodeId} {targetFuncs : List FuncId}
    {state : FlowState} {stack : List ContextBoundaryKey}
    (path : (runtimes.symbolicFlow allowed).Realizable (fun state => ∃ seed ∈ seeds, state = .source seed) state stack)
    (reaches : runtimes.ReachesTarget allowed targetNodes targetFuncs state.point) {node : NodeId} (site : state.AtNode node) :
    node ∈ runtimes.forwardClosureEvidenceInFuncScope seeds allowed
      (some (runtimes.targetRelevanceInFuncScope allowed targetNodes targetFuncs none)) none := by
  have leading : ((runtimes.symbolicFlow allowed).restrict fun state =>
      runtimes.ReachesTarget allowed targetNodes targetFuncs state.point).Realizable _ state stack :=
    path.restrict (fun inside edge leads => .step (edge_feeds edge) inside.1 leads) reaches
  obtain ⟨_,⟨seed,member,rfl⟩,started⟩ := leading.started
  obtain ⟨inside,derived⟩ := tabulated_derived Rules.least_closed (fun _ leads => targetRelevance_admits invertible leads)
    leading.tabulated
  exact mem_prunedNodes member (targetRelevance_admits invertible started.2) (derived_reached site inside.1.1 derived)

-- The backward proof for a target set, whichever runtimes the service has at hand: it
-- ends; it admits every node and fact a target can be reached from; incomplete, it
-- admits everything; and no realizable flow to a target is pruned.
theorem targetRelevance_sound (body : WorkspaceBody) (mode : StorageMode) (globalContextual globalSymbolic : Bool)
    (allowed : FuncScope) (targetNodes : List NodeId) (targetFuncs : List FuncId) :
    let runtimes := cachedRuntimes (body.stored mode) globalContextual globalSymbolic allowed
    let relevance := runtimes.targetRelevanceInFuncScope allowed targetNodes targetFuncs none
    Finished (runtimes.relevanceRun allowed targetNodes targetFuncs none) ∧
      (∀ point, runtimes.ReachesTarget allowed targetNodes targetFuncs point → relevance.admits point = true) ∧
        (relevance.pruningComplete = false → ∀ point, relevance.admits point = true) ∧
          ∀ seeds state stack,
            (runtimes.symbolicFlow allowed).Realizable (fun start => ∃ seed ∈ seeds, start = .source seed) state stack →
              runtimes.ReachesTarget allowed targetNodes targetFuncs state.point → ∀ node, state.AtNode node →
                node ∈ runtimes.forwardClosureEvidenceInFuncScope seeds allowed (some relevance) none := by
  intro runtimes relevance
  have invertible : runtimes.Invertible allowed := cachedRuntimes_invertible (stored_readable body mode)
  refine ⟨relevanceRun_finished,fun point reaches => targetRelevance_admits invertible reaches,fun gaveUp point => ?_,?_⟩
  · cases point with
    | node source => exact containsNode_iff.mpr (.inl gaveUp)
    | fact base field => exact containsFact_iff.mpr (.inl gaveUp)
  · intro seeds state stack path reaches node site
    exact pruned_covers invertible path reaches site

-- Function 0 writes `obj.f` and passes `obj`; function 1 reads the field of its
-- formal.
def passedField : WorkspaceBody :=
  { transformOnlyCall with segments := [{
      places := [.write 0 [1] ⟨0,10,15⟩,.callArg ⟨⟨0,20,26⟩⟩ 0,.param 0,.read 2 [1]]
      nodes := [⟨0,0⟩,⟨0,1⟩,⟨1,2⟩,⟨1,3⟩]
      edges := [⟨0,1,⟨.intraAggregateConsume,.direct,⟨0,20,26⟩⟩⟩]
      funcs := [0,1]
      strings := [['o','b','j'],['f'],['p']] }] }

theorem targetRelevance_passed_field :
    ((cachedRuntimes (passedField.stored .resident) false false none).targetRelevanceInFuncScope none [3] [] none).admits
      (.node 0) = true := by
  have writes : ⟨0,0,.span 0⟩ ∈ (cachedRuntimes (passedField.stored .resident) false false none).runtime.symbolicFactsForNode
      (buildUnified (passedField.stored .resident)) 0 := by decide
  have passes : ⟨0,1,none,⟨0,20,26⟩,⟨0,20,26⟩,.direct,.argument,some 0,some 0,false⟩ ∈
      (cachedRuntimes (passedField.stored .resident) false false none).runtime.outgoing 0 := by decide
  have reads : 3 ∈ (cachedRuntimes (passedField.stored .resident) false false none).runtime.exactReads.get (1,0) := by
    decide
  have owned : ∀ point ∈ [FlowPoint.node 0,.fact 0 0,.fact 1 0,.node 3],
      ((cachedRuntimes (passedField.stored .resident) false false none).owner point).any (FuncScope.admits none) = true := by
    decide
  refine (targetRelevance_sound passedField .resident false false none [3] []).2.1 (.node 0) ?_
  refine .step (.introduces writes) (owned _ (by decide)) (.step (.transform passes (by decide)) (owned (.fact 0 0) (by decide)) ?_)
  exact .step (.exactRead reads) (owned _ (by decide)) (.target (.inl (by decide)) (owned _ (by decide)))

end QueryRuntimes

end BonsaiNinja.Idg
