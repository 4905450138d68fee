import BonsaiNinja.Idg.ClosureFixedPoint
import Mathlib.Data.List.ProdSigma

namespace BonsaiNinja.Idg
open Library

namespace ClosureProgram
variable (program : ClosureProgram)
variable {node : NodeId} {transform : SymbolicFieldTransform} {state : ClosureNodeState} {fact : SymbolicNodeFact}
  {item : ClosureItem}

-- Everything a run can reach or derive is drawn from finitely many contexts, bases,
-- fields and provenances.
def callKeys : List ContextBoundaryKey :=
  match program.policy.contextual with
  | none => []
  | some contextual => contextual.callsByFrom.rows.map (·.2.key)

def transformKeys : List ContextBoundaryKey :=
  program.runtime.transforms.filterMap fun transform => (symbolicTransformBoundary program.symbolic transform).map (·.1)

def knownContexts : List CallContext := none :: (program.callKeys ++ program.transformKeys).map some

def introducedIdentities : List SymbolicFactIdentity :=
  (List.range program.unified.nodeCount).flatMap (program.runtime.symbolicFactsForNode program.unified)

def knownBases : List Nat :=
  program.introducedIdentities.map (·.base) ++
    (program.runtime.baseRebases.rows.map (·.2.target) ++ program.runtime.transforms.map (·.target))

def knownFields : List Nat :=
  program.introducedIdentities.map (·.field) ++ List.range program.runtime.fields.rows.length

def knownProvenances : List SymbolicProvenance :=
  program.introducedIdentities.map (·.provenance) ++
    program.runtime.transforms.map fun transform => (program.transformedIdentity transform 0).provenance

def nodeStates : List (NodeId × CallContext) := List.range program.unified.nodeCount ×ˢ program.knownContexts

def factStates : List ((Nat × Nat) × SymbolicProvenance × CallContext) :=
  (program.knownBases ×ˢ program.knownFields) ×ˢ (program.knownProvenances ×ˢ program.knownContexts)

def closureFuel : Nat :=
  program.unified.nodeCount * program.knownContexts.length +
    program.knownBases.length * program.knownFields.length * (program.knownProvenances.length * program.knownContexts.length)

theorem closureFuel_eq : program.closureFuel = program.nodeStates.length + program.factStates.length := by
  simp only [closureFuel, nodeStates, factStates, List.length_product, List.length_range]

def IdentityBounded (identity : SymbolicFactIdentity) : Prop :=
  identity.base ∈ program.knownBases ∧ identity.field ∈ program.knownFields ∧ identity.provenance ∈ program.knownProvenances

def AtomBounded : ClosureAtom → Prop
  | .reached state => state.node < program.unified.nodeCount ∧ state.context ∈ program.knownContexts
  | .fact fact => program.IdentityBounded fact.identity ∧ fact.context ∈ program.knownContexts
  | .caller _ context => context ∈ program.knownContexts
  | .returnedFact _ identity => program.IdentityBounded identity
  | _ => True

variable {program : ClosureProgram} {known : Set ClosureAtom} {w w' : SymbolicClosureWorklist} {seeds : List NodeId}

theorem none_known : none ∈ program.knownContexts := List.mem_cons_self

theorem call_known {contextual : ContextualSummaryRuntime} (policy : program.policy.contextual = some contextual)
    {call : ContextBoundaryEdge} (row : call ∈ contextual.callsByFrom.get node) :
    some call.key ∈ program.knownContexts := by
  refine List.mem_cons_of_mem _ (List.mem_map_of_mem (List.mem_append_left _ ?_))
  simp only [callKeys, policy]
  exact List.mem_map_of_mem (GroupedRows.mem_get.mp row)

theorem transform_known (row : transform ∈ program.runtime.transforms)
    {key : ContextBoundaryKey} {enters : Bool}
    (boundary : symbolicTransformBoundary program.symbolic transform = some (key,enters)) :
    some key ∈ program.knownContexts := by
  refine List.mem_cons_of_mem _ (List.mem_map_of_mem (List.mem_append_right _ ?_))
  exact List.mem_filterMap.mpr ⟨transform,row,by simp [boundary]⟩

theorem introduced_node {identity : SymbolicFactIdentity}
    (fact : identity ∈ program.runtime.symbolicFactsForNode program.unified node) : node < program.unified.nodeCount := by
  refine UnifiedAddressSpace.wsNodeFunc_isSome.mp ?_
  unfold SymbolicRuntimeIndex.symbolicFactsForNode at fact
  split at fact
  · cases fact
  · next address =>
    simp only [UnifiedAddressSpace.wsAddress, Option.bind_eq_bind, Option.bind_eq_some_iff] at address
    obtain ⟨func,owner,_⟩ := address
    exact ⟨func,owner⟩

theorem introduced_bounded {identity : SymbolicFactIdentity}
    (fact : identity ∈ program.runtime.symbolicFactsForNode program.unified node) : program.IdentityBounded identity := by
  have member : identity ∈ program.introducedIdentities :=
    List.mem_flatMap.mpr ⟨node,List.mem_range.mpr (introduced_node fact),fact⟩
  exact ⟨List.mem_append_left _ (List.mem_map_of_mem member),List.mem_append_left _ (List.mem_map_of_mem member),
    List.mem_append_left _ (List.mem_map_of_mem member)⟩

theorem sourced_bounded (context : state.context ∈ program.knownContexts) :
    program.sourced state ⊆ {atom | program.AtomBounded atom} := by
  rintro atom (⟨inside,rfl⟩ | ⟨_,rfl | ⟨identity,fact,_,rfl⟩⟩)
  · exact ⟨inside,context⟩
  · trivial
  · exact ⟨introduced_bounded fact,context⟩

theorem factState_bounded (identity : program.IdentityBounded fact.identity)
    (context : fact.context ∈ program.knownContexts) : program.factState fact ⊆ {atom | program.AtomBounded atom} := by
  rintro atom ⟨_,rfl⟩
  exact ⟨identity,context⟩

theorem activation_bounded {func : FuncId} : program.activation func ⊆ {atom | program.AtomBounded atom} := by
  rintro atom ⟨_,rfl⟩
  trivial

theorem transition_bounded {source target : NodeId} {context : CallContext} (inside : context ∈ program.knownContexts) :
    program.transitionYields known source target context ⊆ {atom | program.AtomBounded atom} := by
  rintro atom ⟨_,_,_,_,_,⟨_,member⟩ | ⟨_,activated | member⟩⟩
  · exact sourced_bounded inside member
  · exact activation_bounded activated
  · exact sourced_bounded inside member

theorem nodeYields_bounded (context : state.context ∈ program.knownContexts) :
    program.nodeYields known state ⊆ {atom | program.AtomBounded atom} := by
  rintro atom (⟨target,_,member⟩ | ⟨contextual,policy,⟨target,_,member⟩ | ⟨call,row,_,_,member⟩ | ⟨returned,_,_,member⟩⟩)
  · exact transition_bounded context member
  · exact transition_bounded none_known member
  · rcases member with activated | rfl | ⟨_,member⟩
    · exact activation_bounded activated
    · exact context
    · exact sourced_bounded (call_known policy row) member
  · rcases member with ⟨_,rfl⟩ | ⟨_,_,member⟩
    · trivial
    · exact sourced_bounded none_known member

theorem rebasedField_known {rebase : SymbolicBaseRebase} {field result : Nat}
    (found : program.runtime.rebasedField rebase field = some result) : result ∈ program.knownFields := by
  have indexed : ∃ name, program.runtime.fieldId name = some result := by
    simp only [SymbolicRuntimeIndex.rebasedField, Option.bind_eq_bind, Option.bind_eq_some_iff] at found
    obtain ⟨lead,_,name,_,found⟩ := found
    split at found
    · split at found
      · cases found
      · exact ⟨_,found⟩
    · split at found
      · exact ⟨_,found⟩
      · cases found
  obtain ⟨name,indexed⟩ := indexed
  refine List.mem_append_right _ (List.mem_range.mpr ?_)
  exact (List.findIdx?_eq_some_iff_getElem.mp indexed).choose

theorem transformedIdentity_bounded (row : transform ∈ program.runtime.transforms)
    {field : Nat} (inside : field ∈ program.knownFields) :
    program.IdentityBounded (program.transformedIdentity transform field) :=
  ⟨List.mem_append_right _ (List.mem_append_right _ (List.mem_map_of_mem row)),inside,
    List.mem_append_right _ (List.mem_map_of_mem row)⟩

theorem transformYields_bounded (bounded : program.AtomBounded (.fact fact))
    (row : transform ∈ program.runtime.transforms) :
    program.transformYields known fact transform ⊆ {atom | program.AtomBounded atom} := by
  rintro atom ⟨_,_,⟨_,key,boundary,_,activated | rfl⟩ | ⟨contexts,delivers,member⟩⟩
  · exact activation_bounded activated
  · exact bounded.2
  · have next : ∀ context, contexts = .next context → context ∈ program.knownContexts := by
      intro context same
      cases delivers with
      | ordinary => cases same; exact bounded.2
      | enters _ boundary => cases same; exact transform_known row boundary
      | matched => cases same
      | seedCaller => cases same; exact none_known
    rcases member with ⟨_,_,node,_,_,member⟩ | ⟨_,_,member⟩
    · cases contexts with
      | next context => exact sourced_bounded (next context rfl) member
      | completed boundary => cases member; trivial
    · have identity := transformedIdentity_bounded row bounded.1.2.1
      cases contexts with
      | next context => exact factState_bounded identity (next context rfl) member
      | completed boundary => cases member; exact identity

theorem factYields_bounded (bounded : program.AtomBounded (.fact fact)) :
    program.factYields known fact ⊆ {atom | program.AtomBounded atom} := by
  rintro atom (⟨rebase,row,field,found,member⟩ | ⟨node,_,allowed,rfl⟩ | ⟨transform,leaving,member⟩)
  · have target : rebase.target ∈ program.knownBases :=
      List.mem_append_right _ (List.mem_append_left _ (List.mem_map_of_mem (GroupedRows.mem_get.mp row)))
    have identity : program.IdentityBounded ⟨rebase.target,field,fact.identity.provenance⟩ :=
      ⟨target,rebasedField_known found,bounded.1.2.2⟩
    obtain ⟨_,rfl⟩ := member
    exact ⟨identity,bounded.2⟩
  · exact ⟨allowed.inside,bounded.2⟩
  · exact transformYields_bounded bounded (List.mem_of_mem_filter leaving) member

theorem rules_bounded : (program.rules seeds).Closed {atom | program.AtomBounded atom} := by
  intro atom follows
  rcases follows with start | ⟨seed,_,_,member⟩ | ⟨item,known,member⟩ | ⟨boundary,context,caller,member⟩
  · cases atom <;> trivial
  · exact sourced_bounded none_known member
  · cases item with
    | node state => exact nodeYields_bounded known.2 member
    | fact fact => exact factYields_bounded known member
  · have inside : context ∈ program.knownContexts := caller
    rcases member with ⟨node,_,_,member⟩ | ⟨identity,returned,member⟩
    · exact sourced_bounded inside member
    · have bounded : program.IdentityBounded identity := returned
      exact factState_bounded bounded inside member

structure Running (program : ClosureProgram) (seeds : List NodeId) (w : SymbolicClosureWorklist) : Prop where
  sound : program.Sound seeds w
  derived : w.atoms ⊆ (program.rules seeds).least
  distinct : w.reached.Nodup ∧ w.facts.Nodup

theorem Running.knownSize (running : program.Running seeds w) : w.knownSize ≤ program.closureFuel := by
  have bounded : ∀ atom ∈ w.atoms, program.AtomBounded atom := fun atom member =>
    Rules.least_subset rules_bounded (running.derived member)
  have nodes : w.reached.length ≤ program.nodeStates.length := by
    have distinct : (w.reached.map fun state => (state.node,state.context)).Nodup :=
      running.distinct.1.map fun a b same => by
        cases a
        cases b
        simp_all
    rw [← List.length_map fun (state : ClosureNodeState) => (state.node,state.context)]
    refine (distinct.subperm fun pair member => ?_).length_le
    obtain ⟨state,reached,rfl⟩ := List.mem_map.mp member
    have inside : program.AtomBounded (.reached state) := bounded _ reached
    exact List.mem_product.mpr ⟨List.mem_range.mpr inside.1,inside.2⟩
  have facts : w.facts.length ≤ program.factStates.length := by
    have distinct : (w.facts.map fun fact =>
        ((fact.identity.base,fact.identity.field),fact.identity.provenance,fact.context)).Nodup :=
      running.distinct.2.map fun a b same => by
        obtain ⟨⟨_,_,_⟩,_⟩ := a
        obtain ⟨⟨_,_,_⟩,_⟩ := b
        simp_all
    rw [← List.length_map fun (fact : SymbolicNodeFact) =>
      ((fact.identity.base,fact.identity.field),fact.identity.provenance,fact.context)]
    refine (distinct.subperm fun row member => ?_).length_le
    obtain ⟨fact,derived,rfl⟩ := List.mem_map.mp member
    have inside : program.AtomBounded (.fact fact) := bounded _ derived
    exact List.mem_product.mpr ⟨List.mem_product.mpr ⟨inside.1.1,inside.1.2.1⟩,
      List.mem_product.mpr ⟨inside.1.2.2,inside.2⟩⟩
  rw [closureFuel_eq]
  exact Nat.add_le_add nodes facts

def remaining (program : ClosureProgram) (w : SymbolicClosureWorklist) : Nat := program.closureFuel - w.knownSize + w.queueSize

theorem seedWorklist_running : program.Running seeds (program.seedWorklist seeds) :=
  ⟨seedWorklist_sound,seedWorklist_least,seedWorklist_extends.distinct ⟨List.nodup_nil,List.nodup_nil⟩⟩

theorem popped_queueSize (pending : w.Pending item) :
    (w.popped item).queueSize + 1 = w.queueSize := by
  cases item with
  | node state =>
    have removed := List.length_erase_of_mem (show state ∈ w.pendingNodes from pending)
    have some' := List.length_pos_of_mem (show state ∈ w.pendingNodes from pending)
    simp only [SymbolicClosureWorklist.queueSize, SymbolicClosureWorklist.popped, removed]
    omega
  | fact fact =>
    have removed := List.length_erase_of_mem (show fact ∈ w.pendingFacts from pending)
    have some' := List.length_pos_of_mem (show fact ∈ w.pendingFacts from pending)
    simp only [SymbolicClosureWorklist.queueSize, SymbolicClosureWorklist.popped, removed]
    omega

theorem popped_knownSize : (w.popped item).knownSize = w.knownSize := by cases item <;> rfl

theorem popped_distinct (distinct : w.reached.Nodup ∧ w.facts.Nodup) :
    (w.popped item).reached.Nodup ∧ (w.popped item).facts.Nodup := by cases item <;> exact distinct

theorem processItem_running (running : program.Running seeds w) (pending : w.Pending item) :
    program.Running seeds (program.processItem item w) where
  sound := processItem_sound running.sound
  derived := (tabulation program seeds).sound running.sound pending Rules.least_closed running.derived
  distinct := (processItem_emits running.sound.kept).onward.distinct (popped_distinct running.distinct)

theorem processItem_remaining (running : program.Running seeds w) (pending : w.Pending item) :
    program.remaining (program.processItem item w) < program.remaining w := by
  have emits : Emits program _ (w.popped item) (program.processItem item w) := processItem_emits running.sound.kept
  have balance := emits.onward.balance
  have later := (processItem_running running pending).knownSize
  have now := running.knownSize
  have queued := popped_queueSize pending
  rw [popped_knownSize] at balance
  simp only [remaining]
  omega

-- The loop pops the newest node and then the newest fact.
theorem nextNode_eq (program : ClosureProgram) {rest : List ClosureNodeState} (waiting : w.pendingNodes = state :: rest) :
    program.nextNode w = program.processItem (.node state) w ∧ w.Pending (.node state) := by
  refine ⟨?_,?_⟩
  · simp only [nextNode, processItem, SymbolicClosureWorklist.popped, waiting, List.erase_cons_head]
  · simp only [SymbolicClosureWorklist.Pending, waiting, List.mem_cons_self]

theorem nextFact_eq (program : ClosureProgram) {rest : List SymbolicNodeFact} (waiting : w.pendingFacts = fact :: rest) :
    program.nextFact w = program.processItem (.fact fact) w ∧ w.Pending (.fact fact) := by
  refine ⟨?_,?_⟩
  · simp only [nextFact, processItem, SymbolicClosureWorklist.popped, waiting, List.erase_cons_head]
  · simp only [SymbolicClosureWorklist.Pending, waiting, List.mem_cons_self]

abbrev ItemRuns (program : ClosureProgram) (seeds : List NodeId) :
    SymbolicClosureWorklist → SymbolicClosureWorklist → Prop := (tabulation program seeds).Runs

theorem nextNode_runs : program.ItemRuns seeds w (program.nextNode w) := by
  cases waiting : w.pendingNodes with
  | nil => simp only [nextNode, waiting]; exact .refl
  | cons state rest =>
    obtain ⟨next,pending⟩ := nextNode_eq program waiting
    exact .single ⟨.node state,pending,next⟩

theorem nextFact_runs : program.ItemRuns seeds w (program.nextFact w) := by
  cases waiting : w.pendingFacts with
  | nil => simp only [nextFact, waiting]; exact .refl
  | cons fact rest =>
    obtain ⟨next,pending⟩ := nextFact_eq program waiting
    exact .single ⟨.fact fact,pending,next⟩

theorem closureLoop_runs (fuel : Nat) : program.ItemRuns seeds w (program.closureLoop fuel w) := by
  induction fuel generalizing w with
  | zero => exact .refl
  | succ fuel ih =>
    rw [closureLoop]
    split
    · exact (nextNode_runs.trans nextFact_runs).trans ih
    · exact .refl

theorem runs_running (running : program.Running seeds w) (run : program.ItemRuns seeds w w') : program.Running seeds w' := by
  induction run with
  | refl => exact running
  | tail _ step previous =>
    obtain ⟨item,pending,rfl⟩ := step
    exact processItem_running previous pending

theorem runs_remaining (running : program.Running seeds w) (run : program.ItemRuns seeds w w') :
    program.remaining w' ≤ program.remaining w := by
  induction run with
  | refl => exact Nat.le_refl _
  | tail earlier step previous =>
    obtain ⟨item,pending,rfl⟩ := step
    exact Nat.le_trans (Nat.le_of_lt (processItem_remaining (runs_running running earlier) pending)) previous

theorem drained_of_not_pending (idle : hasPending w = false) : Drained w := by
  simp only [hasPending, Bool.or_eq_false_iff, Bool.not_eq_false', List.isEmpty_iff] at idle
  intro item pending
  cases item with
  | node state => exact absurd (idle.1 ▸ pending : state ∈ []) List.not_mem_nil
  | fact fact => exact absurd (idle.2 ▸ pending : fact ∈ []) List.not_mem_nil

theorem round_remaining (running : program.Running seeds w) (busy : hasPending w = true) :
    program.remaining (program.nextFact (program.nextNode w)) < program.remaining w := by
  have later := runs_remaining (runs_running running nextNode_runs) (nextFact_runs (w := program.nextNode w))
  cases nodes : w.pendingNodes with
  | cons state rest =>
    obtain ⟨next,pending⟩ := nextNode_eq program nodes
    have first := processItem_remaining running pending
    rw [← next] at first
    exact Nat.lt_of_le_of_lt later first
  | nil =>
    have same : program.nextNode w = w := by simp only [nextNode, nodes]
    rw [same]
    cases facts : w.pendingFacts with
    | nil => simp [hasPending,nodes,facts] at busy
    | cons fact rest =>
      obtain ⟨next,pending⟩ := nextFact_eq program facts
      rw [next]
      exact processItem_remaining running pending

-- Every run ends: a round uses up one of finitely many states.
theorem closureLoop_drained (running : program.Running seeds w) {fuel : Nat} (enough : program.remaining w ≤ fuel) :
    Drained (program.closureLoop fuel w) := by
  induction fuel generalizing w with
  | zero =>
    refine drained_of_not_pending ?_
    have empty : w.queueSize = 0 := by
      simp only [remaining] at enough
      omega
    simp only [SymbolicClosureWorklist.queueSize, Nat.add_eq_zero_iff, List.length_eq_zero_iff] at empty
    simp only [closureLoop, hasPending, empty.1, empty.2, List.isEmpty_nil, Bool.not_true, Bool.or_self]
  | succ fuel ih =>
    rw [closureLoop]
    split
    · next busy =>
      have shorter := round_remaining running busy
      exact ih (runs_running running (nextNode_runs.trans nextFact_runs)) (by omega)
    · next idle => exact drained_of_not_pending (by simpa using idle)

def closureRun (program : ClosureProgram) (seeds : List NodeId) : SymbolicClosureWorklist :=
  program.closureLoop program.closureFuel (program.seedWorklist seeds)

theorem closureRun_runs : program.ItemRuns seeds (program.seedWorklist seeds) (program.closureRun seeds) :=
  closureLoop_runs program.closureFuel

theorem closureRun_drained : Drained (program.closureRun seeds) := by
  refine closureLoop_drained seedWorklist_running ?_
  have started : Extends program.startWorklist (program.seedWorklist seeds) := seedWorklist_extends
  have running : program.Running seeds (program.seedWorklist seeds) := seedWorklist_running
  have balance := started.balance
  have known := running.knownSize
  have empty : program.startWorklist.knownSize = 0 ∧ program.startWorklist.queueSize = 0 := ⟨rfl,rfl⟩
  simp only [remaining]
  omega

theorem closureRun_least (unrooted : program.policy.summaryRoot = none) :
    (program.closureRun seeds).atoms = (program.rules seeds).least := by
  refine onTime_least (Relation.ReflTransGen.mono (fun w w' step => ?_) _ _ closureRun_runs) closureRun_drained
  obtain ⟨item,pending,moved⟩ := step
  exact ⟨item,pending,onTime_unrooted unrooted,moved⟩

end ClosureProgram

end BonsaiNinja.Idg
