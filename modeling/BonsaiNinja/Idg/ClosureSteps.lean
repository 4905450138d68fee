import BonsaiNinja.Idg.ClosureRules
import BonsaiNinja.Library.Folds

namespace BonsaiNinja.Idg
open Library

namespace ClosureProgram
variable {program : ClosureProgram} {known more : Set ClosureAtom} {w w' : SymbolicClosureWorklist}
variable {state : ClosureNodeState} {fact : SymbolicNodeFact} {boundary : ContextBoundaryKey} {context : CallContext}
  {node : NodeId} {identity : SymbolicFactIdentity}

theorem IsActive.mono (included : known ⊆ more) (active : program.IsActive known func) : program.IsActive more func :=
  ⟨active.1,active.2.imp id fun member => included member⟩

-- Guards read nothing of what is known but which functions are active.
def ActiveWithin (program : ClosureProgram) (known more : Set ClosureAtom) : Prop :=
  ∀ func, program.IsActive known func → program.IsActive more func

theorem activeWithin_mono (included : known ⊆ more) : ActiveWithin program known more := fun _ active => active.mono included

theorem activeWithin_unrooted (unrooted : program.policy.summaryRoot = none) : ActiveWithin program known more :=
  fun _ active => ⟨active.1,.inl unrooted⟩

theorem NodeAllowed.within (within : ActiveWithin program known more) (allowed : program.NodeAllowed known node) :
    program.NodeAllowed more node := by
  obtain ⟨relevant,func,owner,active⟩ := allowed
  exact ⟨relevant,func,owner,within func active⟩

theorem MayEnter.within (within : ActiveWithin program known more) (enter : program.MayEnter known caller callee) :
    program.MayEnter more caller callee :=
  ⟨within caller enter.1,enter.2⟩

theorem NodeAllowed.mono (included : known ⊆ more) (allowed : program.NodeAllowed known node) :
    program.NodeAllowed more node := allowed.within (activeWithin_mono included)

theorem MayEnter.mono (included : known ⊆ more) (enter : program.MayEnter known caller callee) :
    program.MayEnter more caller callee := enter.within (activeWithin_mono included)

theorem TargetActive.within (within : ActiveWithin program known more) (active : program.TargetActive known transform) :
    program.TargetActive more transform := by
  obtain ⟨base,found,now | ⟨contextual,key,boundary,enter⟩⟩ := active
  · exact ⟨base,found,.inl (within base.func now)⟩
  · exact ⟨base,found,.inr ⟨contextual,key,boundary,enter.within within⟩⟩

theorem TargetActive.mono (included : known ⊆ more) (active : program.TargetActive known transform) :
    program.TargetActive more transform := active.within (activeWithin_mono included)

theorem Delivers.within (within : ActiveWithin program known more)
    (delivers : program.Delivers known transform context contexts) : program.Delivers more transform context contexts := by
  cases delivers with
  | ordinary ordinary => exact .ordinary ordinary
  | enters contextual boundary enter => exact .enters contextual boundary (enter.within within)
  | matched contextual boundary inside => exact .matched contextual boundary inside
  | seedCaller contextual boundary seeded empty => exact .seedCaller contextual boundary seeded empty

theorem Delivers.mono (included : known ⊆ more) (delivers : program.Delivers known transform context contexts) :
    program.Delivers more transform context contexts := delivers.within (activeWithin_mono included)

section
variable (within : ActiveWithin program known more)
include within

theorem transitionYields_within :
    program.transitionYields known source target context ⊆ program.transitionYields more source target context := by
  rintro atom ⟨relevant,sourceFunc,targetFunc,ownSource,ownTarget,⟨active,member⟩ | ⟨enter,member⟩⟩
  · exact ⟨relevant,sourceFunc,targetFunc,ownSource,ownTarget,.inl ⟨within targetFunc active,member⟩⟩
  · exact ⟨relevant,sourceFunc,targetFunc,ownSource,ownTarget,.inr ⟨enter.within within,member⟩⟩

theorem callYields_within :
    program.callYields known context call ⊆ program.callYields more context call := by
  rintro atom ⟨relevant,enter,member⟩
  refine ⟨relevant,enter.within within,member.imp id (.imp id fun entered => ⟨?_,entered.2⟩)⟩
  exact entered.1.imp (·.within within) id

theorem returnYields_within :
    program.returnYields known context returned ⊆ program.returnYields more context returned :=
  fun _ member => ⟨member.1.within within,member.2⟩

theorem consumerYields_within :
    program.consumerYields known fact node ⊆ program.consumerYields more fact node :=
  fun _ member => ⟨member.1.within within,member.2⟩

theorem nodeYields_within :
    program.nodeYields known state ⊆ program.nodeYields more state := by
  rintro atom (⟨target,edge,member⟩ | ⟨contextual,policy,member⟩)
  · exact .inl ⟨target,edge,transitionYields_within within member⟩
  · refine .inr ⟨contextual,policy,?_⟩
    rcases member with ⟨target,edge,member⟩ | ⟨call,edge,member⟩ | ⟨returned,edge,member⟩
    · exact .inl ⟨target,edge,transitionYields_within within member⟩
    · exact .inr (.inl ⟨call,edge,callYields_within within member⟩)
    · exact .inr (.inr ⟨returned,edge,returnYields_within within member⟩)

theorem entryYields_within :
    program.entryYields known transform context ⊆ program.entryYields more transform context := by
  rintro atom ⟨contextual,key,boundary,enter,member⟩
  exact ⟨contextual,key,boundary,enter.within within,member⟩

theorem transformYields_within :
    program.transformYields known fact transform ⊆ program.transformYields more fact transform := by
  rintro atom ⟨ordered,relevant,entry | ⟨contexts,delivers,member⟩⟩
  · exact ⟨ordered,relevant,.inl (entryYields_within within entry)⟩
  · refine ⟨ordered,relevant,.inr ⟨contexts,delivers.within within,?_⟩⟩
    rcases member with ⟨scalar,exact,node,written,allowed,member⟩ | ⟨scalar,active,member⟩
    · exact .inl ⟨scalar,exact,node,written,allowed.within within,member⟩
    · exact .inr ⟨scalar,active.within within,member⟩

theorem factYields_within :
    program.factYields known fact ⊆ program.factYields more fact := by
  rintro atom (rebased | ⟨node,consumer,member⟩ | ⟨transform,leaving,member⟩)
  · exact .inl rebased
  · exact .inr (.inl ⟨node,consumer,consumerYields_within within member⟩)
  · exact .inr (.inr ⟨transform,leaving,transformYields_within within member⟩)

theorem itemYields_within :
    program.itemYields known item ⊆ program.itemYields more item := by
  cases item with
  | node state => exact nodeYields_within within
  | fact fact => exact factYields_within within

end

theorem itemYields_mono (included : known ⊆ more) : program.itemYields known item ⊆ program.itemYields more item :=
  itemYields_within (activeWithin_mono included)

theorem replayYields_mono (included : known ⊆ more) : program.replayYields known ⊆ program.replayYields more := by
  rintro atom ⟨boundary,context,caller,⟨node,returned,allowed,member⟩ | ⟨identity,returned,member⟩⟩
  · exact ⟨boundary,context,included caller,.inl ⟨node,included returned,allowed.mono included,member⟩⟩
  · exact ⟨boundary,context,included caller,.inr ⟨identity,included returned,member⟩⟩

-- The Boolean guards of the code, read against what the worklist knows.
@[simp] theorem summaryFuncIsActive_iff : program.summaryFuncIsActive w func = true ↔ program.IsActive w.atoms func := by
  simp only [summaryFuncIsActive, IsActive, summaryRestricted, Bool.and_eq_true, Bool.or_eq_true, Bool.not_eq_true',
    Option.isSome_eq_false_iff, Option.isNone_iff_eq_none, List.contains_iff_mem]
  exact Iff.rfl

@[simp] theorem symbolicNodeAllowed_iff : program.symbolicNodeAllowed w node = true ↔ program.NodeAllowed w.atoms node := by
  simp only [symbolicNodeAllowed, NodeAllowed, Bool.and_eq_true, Option.any_eq_true, summaryFuncIsActive_iff]

@[simp] theorem targetBaseActive_iff : program.targetBaseActive w transform = true ↔
    ∃ base, program.symbolic.bases[transform.target]? = some base ∧ program.IsActive w.atoms base.func := by
  simp only [targetBaseActive, Option.any_eq_true, summaryFuncIsActive_iff]

theorem NodeAllowed.inside (allowed : program.NodeAllowed known node) : node < program.unified.nodeCount :=
  UnifiedAddressSpace.wsNodeFunc_isSome.mp ⟨_,allowed.2.choose_spec.1⟩

-- Running on: what is known only grows, and every newly reached state or fact is
-- queued, once.
structure Extends (before after : SymbolicClosureWorklist) : Prop where
  atoms : before.atoms ⊆ after.atoms
  queued : ∀ item : ClosureItem, item.atom ∈ after.atoms → item.atom ∈ before.atoms ∨ after.Pending item
  waiting : ∀ item, before.Pending item → after.Pending item
  known : ∀ item, after.Pending item → before.Pending item ∨ item.atom ∈ after.atoms
  distinct : before.reached.Nodup ∧ before.facts.Nodup → after.reached.Nodup ∧ after.facts.Nodup
  balance : after.queueSize + before.knownSize = before.queueSize + after.knownSize

theorem Extends.refl : Extends w w := ⟨fun _ => id,fun _ => .inl,fun _ => id,fun _ => .inl,id,rfl⟩

theorem Extends.trans {a b c : SymbolicClosureWorklist} (ab : Extends a b) (bc : Extends b c) : Extends a c where
  atoms := ab.atoms.trans bc.atoms
  queued item member := (bc.queued item member).elim
    (fun earlier => (ab.queued item earlier).imp id (bc.waiting item)) .inr
  waiting item pending := bc.waiting item (ab.waiting item pending)
  known item pending := (bc.known item pending).elim
    (fun earlier => (ab.known item earlier).imp id fun member => bc.atoms member) .inr
  distinct start := bc.distinct (ab.distinct start)
  balance := by
    have first := ab.balance
    have second := bc.balance
    omega

theorem foldl_extends {step : SymbolicClosureWorklist → α → SymbolicClosureWorklist}
    (each : ∀ w x, Extends w (step w x)) (rows : List α) (w : SymbolicClosureWorklist) : Extends w (rows.foldl step w) := by
  induction rows generalizing w with
  | nil => exact .refl
  | cons x rest ih => exact (each w x).trans (ih (step w x))

theorem enqueueNode_atoms {count : Nat} :
    (w.enqueueNode count state).atoms = w.atoms ∪ {atom | state.node < count ∧ atom = .reached state} := by
  ext atom
  unfold SymbolicClosureWorklist.enqueueNode
  split
  · next fresh =>
    cases atom <;> simp [SymbolicClosureWorklist.atoms,SymbolicClosureWorklist.Knows,fresh.1]
  · next seen =>
    refine ⟨.inl,fun member => member.elim id fun added => ?_⟩
    obtain ⟨inside,rfl⟩ := added
    exact Classical.not_not.mp fun fresh => seen ⟨inside,fresh⟩

-- Fresh states and facts enter what is known and the queues together.
theorem Extends.queue (nodes : List ClosureNodeState) (facts : List SymbolicNodeFact)
    (fresh : w.reached.Nodup → (nodes ++ w.reached).Nodup) (new : w.facts.Nodup → (facts ++ w.facts).Nodup) :
    Extends w { w with
      reached := nodes ++ w.reached, pendingNodes := nodes ++ w.pendingNodes
      facts := facts ++ w.facts, pendingFacts := facts ++ w.pendingFacts } := by
  refine ⟨fun atom member => ?_,fun item => ?_,fun item => ?_,fun item => ?_,fun distinct => ⟨fresh distinct.1,new distinct.2⟩,?_⟩
  · cases atom <;> first | exact List.mem_append_right _ member | exact member
  · cases item <;>
      simp only [ClosureItem.atom,SymbolicClosureWorklist.atoms,SymbolicClosureWorklist.Knows,
        SymbolicClosureWorklist.Pending,Set.mem_ofPred_eq,List.mem_append] <;> tauto
  · cases item <;> exact List.mem_append_right _
  · cases item <;>
      simp only [ClosureItem.atom,SymbolicClosureWorklist.atoms,SymbolicClosureWorklist.Knows,
        SymbolicClosureWorklist.Pending,Set.mem_ofPred_eq,List.mem_append] <;> tauto
  · simp only [SymbolicClosureWorklist.queueSize,SymbolicClosureWorklist.knownSize,List.length_append]
    omega

theorem enqueueNode_extends {count : Nat} : Extends w (w.enqueueNode count state) := by
  by_cases fresh : state.node < count ∧ state ∉ w.reached
  · rw [SymbolicClosureWorklist.enqueueNode,if_pos fresh]
    exact .queue [state] [] (fun distinct => List.nodup_cons.mpr ⟨fresh.2,distinct⟩) id
  · rw [SymbolicClosureWorklist.enqueueNode,if_neg fresh]
    exact .refl

theorem enqueueFactState_atoms :
    (program.enqueueFactState w fact).atoms = w.atoms ∪ program.factState fact := by
  ext atom
  unfold enqueueFactState
  split
  · next fresh =>
    cases atom <;> simp [SymbolicClosureWorklist.atoms,SymbolicClosureWorklist.Knows,factState,fresh.1]
  · next seen =>
    refine ⟨.inl,fun member => member.elim id fun added => ?_⟩
    obtain ⟨relevant,rfl⟩ := added
    exact Classical.not_not.mp fun fresh => seen ⟨relevant,fresh⟩

theorem enqueueFactState_extends : Extends w (program.enqueueFactState w fact) := by
  by_cases fresh : program.factIsRelevant fact.identity.base fact.identity.field ∧ fact ∉ w.facts
  · rw [enqueueFactState,if_pos fresh]
    exact .queue [] [fact] id fun distinct => List.nodup_cons.mpr ⟨fresh.2,distinct⟩
  · rw [enqueueFactState,if_neg fresh]
    exact .refl

theorem extends_of_frontier (atoms : w.atoms ⊆ w'.atoms) (reached : w'.reached = w.reached) (facts : w'.facts = w.facts)
    (nodes : w'.pendingNodes = w.pendingNodes) (pendingFacts : w'.pendingFacts = w.pendingFacts) : Extends w w' := by
  refine ⟨atoms,fun item member => .inl ?_,fun item => ?_,fun item pending => .inl ?_,by rw [reached,facts]; exact id,?_⟩
  any_goals
    cases item <;>
      simp_all [ClosureItem.atom,SymbolicClosureWorklist.atoms,SymbolicClosureWorklist.Knows,SymbolicClosureWorklist.Pending]
  simp only [SymbolicClosureWorklist.queueSize,SymbolicClosureWorklist.knownSize,reached,facts,nodes,pendingFacts]

theorem foldl_atoms {step : SymbolicClosureWorklist → α → SymbolicClosureWorklist} {adds : α → Set ClosureAtom}
    (each : ∀ w x, (step w x).atoms = w.atoms ∪ adds x) (rows : List α) (w : SymbolicClosureWorklist) :
    (rows.foldl step w).atoms = w.atoms ∪ {atom | ∃ x ∈ rows, atom ∈ adds x} := by
  ext atom
  exact foldl_collects (atom ∈ ·.atoms) (atom ∈ adds ·) (fun w x => by rw [each]; exact Iff.rfl) w rows

theorem introduceFacts_extends : Extends w (program.introduceFacts w state) :=
  foldl_extends (fun _ _ => enqueueFactState_extends) _ _

theorem introduceFacts_atoms : (program.introduceFacts w state).atoms = w.atoms ∪
    {atom | ∃ identity ∈ program.runtime.symbolicFactsForNode program.unified state.node,
      atom ∈ program.factState ⟨identity,state.context⟩} :=
  foldl_atoms (fun w identity =>
    (enqueueFactState_atoms : (program.enqueueFactState w ⟨identity,state.context⟩).atoms = _)) _ _

def Introduced (program : ClosureProgram) (w : SymbolicClosureWorklist) : Prop :=
  ∀ state ∈ w.factSourceStates, program.introduced state ⊆ w.atoms

theorem activateFactSource_atoms : (w.activateFactSource state).atoms = w.atoms ∪ {.source state} := by
  ext atom
  cases atom <;>
    simp [SymbolicClosureWorklist.atoms,SymbolicClosureWorklist.Knows,SymbolicClosureWorklist.activateFactSource]

theorem activateFactSource_extends : Extends w (w.activateFactSource state) := by
  refine extends_of_frontier ?_ rfl rfl rfl rfl
  rw [activateFactSource_atoms]
  exact Set.subset_union_left

theorem enqueueSource_extends : Extends w (program.enqueueSymbolicNodeSource w state) := by
  unfold enqueueSymbolicNodeSource
  split
  · exact .refl
  · dsimp only
    split
    · exact enqueueNode_extends
    · exact enqueueNode_extends.trans (activateFactSource_extends.trans introduceFacts_extends)

theorem enqueueSource_atoms (valid : Introduced program w) (state : ClosureNodeState) :
    (program.enqueueSymbolicNodeSource w state).atoms =
      w.atoms ∪ {atom | program.NodeAllowed w.atoms state.node ∧ atom ∈ program.sourced state} := by
  unfold enqueueSymbolicNodeSource
  split
  · next refused =>
    have blocked : ¬program.NodeAllowed w.atoms state.node := fun allowed => by
      simp [symbolicNodeAllowed_iff.mpr allowed] at refused
    ext atom
    simp [blocked]
  · next admitted =>
    have allowed : program.NodeAllowed w.atoms state.node := symbolicNodeAllowed_iff.mp (by simpa using admitted)
    dsimp only
    split
    · next done =>
      rw [enqueueNode_atoms]
      ext atom
      simp only [Set.mem_union, Set.mem_ofPred_eq, allowed, true_and, sourced]
      refine ⟨.imp id .inl,fun member => ?_⟩
      rcases member with old | new | fact
      · exact .inl old
      · exact .inr new
      · rcases Bool.or_eq_true_iff.mp done with empty | seen
        · exact absurd (List.isEmpty_iff.mp empty) fact.1
        · have before : state ∈ w.factSourceStates := by
            have same : (w.enqueueNode program.unified.nodeCount state).factSourceStates = w.factSourceStates := by
              unfold SymbolicClosureWorklist.enqueueNode; split <;> rfl
            rw [same] at seen
            exact List.contains_iff_mem.mp seen
          exact .inl (valid state before fact)
    · next fresh =>
      have demanded : program.fieldDemand ≠ [] := fun empty => fresh (by simp [empty])
      rw [introduceFacts_atoms, activateFactSource_atoms, enqueueNode_atoms]
      ext atom
      simp only [Set.mem_union, Set.mem_ofPred_eq, Set.mem_singleton_iff, allowed, true_and, sourced, introduced, factState,
        demanded, ne_eq, not_false_eq_true]
      tauto

-- The facts a worklist keeps closed by itself: sources are introduced, completed
-- returns have reached every caller.
structure Kept (program : ClosureProgram) (known : Set ClosureAtom) : Prop where
  introduced : ∀ state, .source state ∈ known → program.introduced state ⊆ known
  nodes : ∀ boundary node context, .returnedNode boundary node ∈ known → .caller boundary context ∈ known →
    program.sourced ⟨node,context⟩ ⊆ known
  facts : ∀ boundary identity context, .returnedFact boundary identity ∈ known → .caller boundary context ∈ known →
    program.factState ⟨identity,context⟩ ⊆ known
  allowed : ∀ boundary node, .returnedNode boundary node ∈ known → program.NodeAllowed known node

def Plain (program : ClosureProgram) (added : Set ClosureAtom) : Prop :=
  (∀ state, .source state ∈ added → program.introduced state ⊆ added) ∧
    ∀ boundary, (∀ context, .caller boundary context ∉ added) ∧ (∀ node, .returnedNode boundary node ∉ added) ∧
      ∀ identity, .returnedFact boundary identity ∉ added

theorem Kept.union (kept : Kept program known) (plain : Plain program added) : Kept program (known ∪ added) where
  introduced state member := by
    rcases member with old | new
    · exact (kept.introduced state old).trans Set.subset_union_left
    · exact (plain.1 state new).trans Set.subset_union_right
  nodes boundary node context returned caller := by
    have returned := returned.resolve_right ((plain.2 boundary).2.1 node)
    have caller := caller.resolve_right ((plain.2 boundary).1 context)
    exact (kept.nodes boundary node context returned caller).trans Set.subset_union_left
  facts boundary identity context returned caller := by
    have returned := returned.resolve_right ((plain.2 boundary).2.2 identity)
    have caller := caller.resolve_right ((plain.2 boundary).1 context)
    exact (kept.facts boundary identity context returned caller).trans Set.subset_union_left
  allowed boundary node returned :=
    (kept.allowed boundary node (returned.resolve_right ((plain.2 boundary).2.1 node))).mono Set.subset_union_left

theorem plain_sourced : Plain program (program.sourced state) := by
  refine ⟨fun other member => ?_,fun boundary => ⟨fun context member => ?_,fun node member => ?_,fun identity member => ?_⟩⟩
  · rcases member with ⟨_,same⟩ | ⟨_,same | ⟨_,_,_,same⟩⟩
    · cases same
    · cases same
      exact Set.subset_union_right
    · cases same
  all_goals rcases member with ⟨_,same⟩ | ⟨_,same | ⟨_,_,_,same⟩⟩ <;> cases same

theorem plain_factState : Plain program (program.factState fact) := by
  refine ⟨fun _ member => ?_,fun _ => ⟨fun _ member => ?_,fun _ member => ?_,fun _ member => ?_⟩⟩
  all_goals cases member.2

theorem plain_activation {func : FuncId} : Plain program (program.activation func) := by
  refine ⟨fun _ member => ?_,fun _ => ⟨fun _ member => ?_,fun _ member => ?_,fun _ member => ?_⟩⟩
  all_goals cases member.2

theorem plain_reached {guard : Prop} : Plain program {atom | guard ∧ atom = .reached state} := by
  refine ⟨fun _ member => ?_,fun _ => ⟨fun _ member => ?_,fun _ member => ?_,fun _ member => ?_⟩⟩
  all_goals cases member.2

theorem Plain.gate {guard : Prop} (plain : Plain program added) : Plain program {atom | guard ∧ atom ∈ added} :=
  ⟨fun state member _ introduced => ⟨member.1,plain.1 state member.2 introduced⟩,fun boundary =>
    ⟨fun context member => (plain.2 boundary).1 context member.2,
      fun node member => (plain.2 boundary).2.1 node member.2,fun identity member => (plain.2 boundary).2.2 identity member.2⟩⟩

theorem Plain.all {rows : List α} {adds : α → Set ClosureAtom} (each : ∀ x, Plain program (adds x)) :
    Plain program {atom | ∃ x ∈ rows, atom ∈ adds x} := by
  refine ⟨fun state member => ?_,fun boundary => ⟨fun context member => ?_,fun node member => ?_,fun identity member => ?_⟩⟩
  all_goals obtain ⟨x,row,member⟩ := member
  · exact fun atom introduced => ⟨x,row,(each x).1 state member introduced⟩
  · exact ((each x).2 boundary).1 context member
  · exact ((each x).2 boundary).2.1 node member
  · exact ((each x).2 boundary).2.2 identity member

theorem nodeAllowed_union (idle : ∀ func, .active func ∉ added) :
    program.NodeAllowed (known ∪ added) node ↔ program.NodeAllowed known node := by
  refine ⟨fun allowed => ?_,fun allowed => allowed.mono Set.subset_union_left⟩
  obtain ⟨relevant,func,owner,admitted,active⟩ := allowed
  exact ⟨relevant,func,owner,admitted,active.imp id fun member => member.resolve_right (idle func)⟩

theorem idle_sourced {func : FuncId} : .active func ∉ program.sourced state := by
  intro member
  rcases member with ⟨_,same⟩ | ⟨_,same | ⟨_,_,_,same⟩⟩ <;> cases same

theorem enqueueSources_atoms (states : List ClosureNodeState) (introduced : Introduced program w) :
    (states.foldl program.enqueueSymbolicNodeSource w).atoms =
      w.atoms ∪ {atom | ∃ state ∈ states, program.NodeAllowed w.atoms state.node ∧ atom ∈ program.sourced state} := by
  induction states generalizing w with
  | nil => simp
  | cons state rest ih =>
    have first := enqueueSource_atoms introduced state
    have still : Introduced program (program.enqueueSymbolicNodeSource w state) := by
      intro other member
      have known : ClosureAtom.source other ∈ (program.enqueueSymbolicNodeSource w state).atoms := member
      rw [first] at known ⊢
      rcases known with old | new
      · exact (introduced other old).trans Set.subset_union_left
      · exact (plain_sourced.gate.1 other new).trans Set.subset_union_right
    rw [List.foldl_cons, ih still, first]
    have same : ∀ node, program.NodeAllowed (w.atoms ∪ {atom | program.NodeAllowed w.atoms state.node ∧ atom ∈ program.sourced state}) node ↔
        program.NodeAllowed w.atoms node := fun node => nodeAllowed_union fun func member => idle_sourced member.2
    ext atom
    simp only [same, Set.mem_union, Set.mem_ofPred_eq, List.mem_cons, exists_eq_or_imp, or_assoc]

theorem enqueueFactState_contexts : (program.enqueueFactState w fact).contexts = w.contexts := by
  unfold enqueueFactState
  split <;> rfl

theorem introduceFacts_contexts : (program.introduceFacts w state).contexts = w.contexts := by
  unfold introduceFacts
  generalize program.runtime.symbolicFactsForNode program.unified state.node = identities
  induction identities generalizing w with
  | nil => rfl
  | cons identity rest ih => rw [List.foldl_cons, ih, enqueueFactState_contexts]

theorem enqueueSource_contexts :
    (program.enqueueSymbolicNodeSource w state).contexts = w.contexts := by
  have queued : (w.enqueueNode program.unified.nodeCount state).contexts = w.contexts := by
    unfold SymbolicClosureWorklist.enqueueNode
    split <;> rfl
  unfold enqueueSymbolicNodeSource
  split
  · rfl
  · dsimp only
    split
    · exact queued
    · rw [introduceFacts_contexts]
      exact queued

theorem registerCaller_atoms :
    (w.registerCaller boundary context).atoms = w.atoms ∪ {.caller boundary context} := by
  ext atom
  cases atom <;>
    simp [SymbolicClosureWorklist.atoms,SymbolicClosureWorklist.Knows,SymbolicClosureWorklist.registerCaller]

theorem recordNodeReturn_atoms :
    (w.recordNodeReturn boundary node).atoms = w.atoms ∪ {.returnedNode boundary node} := by
  ext atom
  cases atom <;>
    simp [SymbolicClosureWorklist.atoms,SymbolicClosureWorklist.Knows,SymbolicClosureWorklist.recordNodeReturn]

theorem recordFactReturn_atoms :
    (w.recordFactReturn boundary identity).atoms = w.atoms ∪ {.returnedFact boundary identity} := by
  ext atom
  cases atom <;>
    simp [SymbolicClosureWorklist.atoms,SymbolicClosureWorklist.Knows,SymbolicClosureWorklist.recordFactReturn]

theorem mem_keyed {rows : List (ContextBoundaryKey × α)} {value : α} :
    value ∈ (rows.filter fun row => row.1 = boundary).map Prod.snd ↔ (boundary,value) ∈ rows := by
  simp only [List.mem_map, List.mem_filter, decide_eq_true_eq]
  constructor
  · rintro ⟨⟨_,_⟩,⟨member,rfl⟩,rfl⟩
    exact member
  · exact fun member => ⟨(boundary,value),⟨member,rfl⟩,rfl⟩

theorem mem_callersOf :
    context ∈ w.contexts.callersOf boundary ↔ .caller boundary context ∈ w.atoms := mem_keyed

theorem mem_nodesReturned :
    node ∈ w.contexts.nodesReturned boundary ↔ .returnedNode boundary node ∈ w.atoms := mem_sortDedup.trans mem_keyed

theorem mem_factsReturned :
    identity ∈ w.contexts.factsReturned boundary ↔ .returnedFact boundary identity ∈ w.atoms := mem_sortDedup.trans mem_keyed

theorem replayNode_contexts : (program.replayNode context w node).contexts = w.contexts :=
  enqueueSource_contexts

theorem replayFact_atoms :
    (program.replayFact context w identity).atoms = w.atoms ∪ program.factState ⟨identity,context⟩ := enqueueFactState_atoms

-- Paged replay hands over exactly the completed returns of the boundary.
theorem replayNodes_paged (v : SymbolicClosureWorklist) :
    replayPages contextReplayBatchEntries (·.contexts.nodesReturned boundary) (program.replayNode context)
        (v.contexts.nodesReturned boundary).length none v =
      (v.contexts.nodesReturned boundary).foldl (program.replayNode context) v := by
  apply replayPages_eq
  · decide
  · intro v node
    rw [replayNode_contexts]
  · exact sortDedup_sorted _
  · exact Nat.le_refl _

theorem replayFacts_paged (v : SymbolicClosureWorklist) :
    replayPages contextReplayBatchEntries (·.contexts.factsReturned boundary) (program.replayFact context)
        (v.contexts.factsReturned boundary).length none v =
      (v.contexts.factsReturned boundary).foldl (program.replayFact context) v := by
  apply replayPages_eq
  · decide
  · intro v identity
    rw [replayFact, enqueueFactState_contexts]
  · exact sortDedup_sorted _
  · exact Nat.le_refl _

theorem registerContextCall_eq
    (fresh : (boundary,context) ∉ w.contexts.callers) : program.registerContextCall w context boundary =
      (w.contexts.factsReturned boundary).foldl (program.replayFact context)
        ((w.contexts.nodesReturned boundary).foldl (program.replayNode context) (w.registerCaller boundary context)) := by
  have sameContexts : ∀ (nodes : List NodeId) (v : SymbolicClosureWorklist),
      (nodes.foldl (program.replayNode context) v).contexts = v.contexts := fun nodes v =>
    foldl_keeps (fun v node => replayNode_contexts) v nodes
  unfold registerContextCall
  rw [if_neg fresh]
  dsimp only
  rw [replayNodes_paged, replayFacts_paged, sameContexts]
  rfl

theorem foldl_replayNode (nodes : List NodeId) (v : SymbolicClosureWorklist) :
    nodes.foldl (program.replayNode context) v =
      (nodes.map fun node => (⟨node,context⟩ : ClosureNodeState)).foldl program.enqueueSymbolicNodeSource v := by
  rw [List.foldl_map]
  rfl

theorem foldl_replayFact_atoms (identities : List SymbolicFactIdentity) (v : SymbolicClosureWorklist) :
    (identities.foldl (program.replayFact context) v).atoms =
      v.atoms ∪ {atom | ∃ identity ∈ identities, atom ∈ program.factState ⟨identity,context⟩} := by
  apply foldl_atoms
  intro v identity
  exact replayFact_atoms

section
variable (kept : Kept program w.atoms)
include kept

theorem registerCaller_introduced :
    Introduced program (w.registerCaller boundary context) := fun state member => by
  rw [registerCaller_atoms]
  exact (kept.introduced state member).trans Set.subset_union_left

theorem registerContextCall_atoms (context : CallContext) (boundary : ContextBoundaryKey) :
    (program.registerContextCall w context boundary).atoms = w.atoms ∪
      {atom | atom = .caller boundary context ∨
        (∃ node, .returnedNode boundary node ∈ w.atoms ∧ atom ∈ program.sourced ⟨node,context⟩) ∨
          ∃ identity, .returnedFact boundary identity ∈ w.atoms ∧ atom ∈ program.factState ⟨identity,context⟩} := by
  by_cases seen : (boundary,context) ∈ w.contexts.callers
  · have same : program.registerContextCall w context boundary = w := by
      unfold registerContextCall
      rw [if_pos seen]
    rw [same]
    refine (Set.union_eq_self_of_subset_right ?_).symm
    rintro atom (rfl | ⟨node,returned,member⟩ | ⟨identity,returned,member⟩)
    · exact seen
    · exact kept.nodes boundary node context returned seen member
    · exact kept.facts boundary identity context returned seen member
  · have allowed : ∀ node, .returnedNode boundary node ∈ w.atoms →
        program.NodeAllowed (w.registerCaller boundary context).atoms node := fun node returned => by
      rw [registerCaller_atoms]
      exact (kept.allowed boundary node returned).mono Set.subset_union_left
    rw [registerContextCall_eq seen]
    rw [foldl_replayFact_atoms, foldl_replayNode, enqueueSources_atoms _ (registerCaller_introduced kept)]
    ext atom
    simp only [Set.mem_union, Set.mem_ofPred_eq, List.mem_map, exists_exists_and_eq_and, mem_nodesReturned, mem_factsReturned]
    rw [registerCaller_atoms]
    simp only [Set.mem_union, Set.mem_singleton_iff]
    constructor
    · rintro (((old | same) | ⟨node,returned,_,member⟩) | fact)
      · exact .inl old
      · exact .inr (.inl same)
      · exact .inr (.inr (.inl ⟨node,returned,member⟩))
      · exact .inr (.inr (.inr fact))
    · rintro (old | same | ⟨node,returned,member⟩ | fact)
      · exact .inl (.inl (.inl old))
      · exact .inl (.inl (.inr same))
      · refine .inl (.inr ⟨node,returned,?_,member⟩)
        rw [← registerCaller_atoms]
        exact allowed node returned
      · exact .inr fact

theorem completeNodeReturn_atoms (boundary : ContextBoundaryKey)
    (allowed : program.NodeAllowed w.atoms node) : (program.completeNodeReturn w boundary node).atoms = w.atoms ∪
      {atom | atom = .returnedNode boundary node ∨
        ∃ context, .caller boundary context ∈ w.atoms ∧ atom ∈ program.sourced ⟨node,context⟩} := by
  unfold completeNodeReturn
  split
  · next seen =>
    refine (Set.union_eq_self_of_subset_right ?_).symm
    rintro atom (rfl | ⟨context,caller,member⟩)
    · exact seen
    · exact kept.nodes boundary node context seen caller member
  · have introduced : Introduced program (w.recordNodeReturn boundary node) := fun state member => by
      rw [recordNodeReturn_atoms]
      exact (kept.introduced state member).trans Set.subset_union_left
    have still : program.NodeAllowed (w.recordNodeReturn boundary node).atoms node := by
      rw [recordNodeReturn_atoms]
      exact allowed.mono Set.subset_union_left
    have asStates : (w.contexts.callersOf boundary).foldl (fun w context =>
        program.enqueueSymbolicNodeSource w ⟨node,context⟩) (w.recordNodeReturn boundary node) =
          ((w.contexts.callersOf boundary).map fun context => (⟨node,context⟩ : ClosureNodeState)).foldl
            program.enqueueSymbolicNodeSource (w.recordNodeReturn boundary node) := by rw [List.foldl_map]
    rw [asStates, enqueueSources_atoms _ introduced]
    ext atom
    simp only [Set.mem_union, Set.mem_ofPred_eq, List.mem_map, exists_exists_and_eq_and, mem_callersOf, still, true_and]
    rw [recordNodeReturn_atoms]
    simp only [Set.mem_union, Set.mem_singleton_iff, or_assoc]

theorem completeFactReturn_atoms
    : (program.completeFactReturn w boundary identity).atoms = w.atoms ∪
      {atom | atom = .returnedFact boundary identity ∨
        ∃ context, .caller boundary context ∈ w.atoms ∧ atom ∈ program.factState ⟨identity,context⟩} := by
  unfold completeFactReturn
  split
  · next seen =>
    refine (Set.union_eq_self_of_subset_right ?_).symm
    rintro atom (rfl | ⟨context,caller,member⟩)
    · exact seen
    · exact kept.facts boundary identity context seen caller member
  · have delivered : ((w.contexts.callersOf boundary).foldl (fun w context =>
        program.enqueueFactState w ⟨identity,context⟩) (w.recordFactReturn boundary identity)).atoms =
          (w.recordFactReturn boundary identity).atoms ∪
            {atom | ∃ context ∈ w.contexts.callersOf boundary, atom ∈ program.factState ⟨identity,context⟩} := by
      apply foldl_atoms
      intro v context
      exact enqueueFactState_atoms
    rw [delivered, recordFactReturn_atoms]
    ext atom
    simp only [Set.mem_union, Set.mem_ofPred_eq, Set.mem_singleton_iff, mem_callersOf, or_assoc]

end

theorem registerContextCall_extends :
    Extends w (program.registerContextCall w context boundary) := by
  by_cases seen : (boundary,context) ∈ w.contexts.callers
  · unfold registerContextCall
    rw [if_pos seen]
    exact .refl
  · rw [registerContextCall_eq seen]
    have registered : Extends w (w.registerCaller boundary context) := by
      refine extends_of_frontier ?_ rfl rfl rfl rfl
      rw [registerCaller_atoms]
      exact Set.subset_union_left
    have nodes := foldl_extends (fun v node => (enqueueSource_extends : Extends v (program.replayNode context v node)))
      (w.contexts.nodesReturned boundary) (w.registerCaller boundary context)
    have facts := foldl_extends (fun v identity => (enqueueFactState_extends : Extends v (program.replayFact context v identity)))
      (w.contexts.factsReturned boundary)
      ((w.contexts.nodesReturned boundary).foldl (program.replayNode context) (w.registerCaller boundary context))
    exact registered.trans (nodes.trans facts)

theorem completeNodeReturn_extends :
    Extends w (program.completeNodeReturn w boundary node) := by
  unfold completeNodeReturn
  split
  · exact .refl
  · refine Extends.trans ?_ (foldl_extends (fun _ _ => enqueueSource_extends) _ _)
    refine extends_of_frontier ?_ rfl rfl rfl rfl
    rw [recordNodeReturn_atoms]
    exact Set.subset_union_left

theorem completeFactReturn_extends :
    Extends w (program.completeFactReturn w boundary identity) := by
  unfold completeFactReturn
  split
  · exact .refl
  · refine Extends.trans ?_ (foldl_extends (fun _ _ => enqueueFactState_extends) _ _)
    refine extends_of_frontier ?_ rfl rfl rfl rfl
    rw [recordFactReturn_atoms]
    exact Set.subset_union_left

-- A set made of plain parts is plain.
theorem Plain.parts (each : ∀ atom ∈ added, ∃ part, Plain program part ∧ part ⊆ added ∧ atom ∈ part) : Plain program added := by
  refine ⟨fun _ member => ?_,fun boundary => ⟨fun _ member => ?_,fun _ member => ?_,fun _ member => ?_⟩⟩
  all_goals obtain ⟨part,plain,within,inside⟩ := each _ member
  · exact (plain.1 _ inside).trans within
  · exact (plain.2 boundary).1 _ inside
  · exact (plain.2 boundary).2.1 _ inside
  · exact (plain.2 boundary).2.2 _ inside

theorem crossed_cases {entry left right : ClosureAtom} {derived : Set ClosureAtom}
    (first : left ∈ known ∪ {atom | atom = entry ∨ atom ∈ derived}) (second : right ∈ known ∪ {atom | atom = entry ∨ atom ∈ derived})
    (apart : left ≠ right) (outside : left ∉ derived ∧ right ∉ derived) :
    left ∈ known ∧ right ∈ known ∨ left ∈ known ∧ right = entry ∨ left = entry ∧ right ∈ known := by
  simp only [Set.mem_union,Set.mem_ofPred_eq] at first second
  grind

-- A caller or a return, added together with what the other side of its boundary hands over, keeps the contexts replayed.
theorem Kept.handed {entry : ClosureAtom} {derived : Set ClosureAtom} (kept : Kept program known) (plain : Plain program derived)
    (quiet : ∀ state, .source state ≠ entry)
    (nodes : ∀ boundary node context, .returnedNode boundary node ∈ known ∧ .caller boundary context = entry ∨
      .returnedNode boundary node = entry ∧ .caller boundary context ∈ known → program.sourced ⟨node,context⟩ ⊆ derived)
    (facts : ∀ boundary identity context, .returnedFact boundary identity ∈ known ∧ .caller boundary context = entry ∨
      .returnedFact boundary identity = entry ∧ .caller boundary context ∈ known → program.factState ⟨identity,context⟩ ⊆ derived)
    (allowed : ∀ boundary node, .returnedNode boundary node = entry → program.NodeAllowed known node) :
    Kept program (known ∪ {atom | atom = entry ∨ atom ∈ derived}) := by
  have further : derived ⊆ known ∪ {atom | atom = entry ∨ atom ∈ derived} := fun _ member => .inr (.inr member)
  refine ⟨fun state member => ?_,fun boundary node context returned caller => ?_,fun boundary identity context returned caller => ?_,
    fun boundary node returned => ?_⟩
  · rcases member with old | same | new
    · exact (kept.introduced state old).trans Set.subset_union_left
    · exact absurd same (quiet state)
    · exact (plain.1 state new).trans further
  · rcases crossed_cases returned caller nofun ⟨(plain.2 boundary).2.1 node,(plain.2 boundary).1 context⟩ with ⟨old,before⟩ | crossed
    · exact (kept.nodes boundary node context old before).trans Set.subset_union_left
    · exact (nodes boundary node context crossed).trans further
  · rcases crossed_cases returned caller nofun ⟨(plain.2 boundary).2.2 identity,(plain.2 boundary).1 context⟩ with ⟨old,before⟩ | crossed
    · exact (kept.facts boundary identity context old before).trans Set.subset_union_left
    · exact (facts boundary identity context crossed).trans further
  · rcases returned with old | same | new
    · exact (kept.allowed boundary node old).mono Set.subset_union_left
    · exact (allowed boundary node same).mono Set.subset_union_left
    · exact absurd new ((plain.2 boundary).2.1 node)

theorem kept_registered (kept : Kept program known) (context : CallContext) (boundary : ContextBoundaryKey) :
    Kept program (known ∪ {atom | atom = .caller boundary context ∨
      (∃ node, .returnedNode boundary node ∈ known ∧ atom ∈ program.sourced ⟨node,context⟩) ∨
        ∃ identity, .returnedFact boundary identity ∈ known ∧ atom ∈ program.factState ⟨identity,context⟩}) := by
  refine kept.handed (.parts fun atom member => ?_) nofun (fun other node caller met => ?_) (fun other identity caller met => ?_) nofun
  · rcases member with ⟨node,returned,new⟩ | ⟨identity,returned,new⟩
    · exact ⟨_,plain_sourced,fun _ inside => .inl ⟨node,returned,inside⟩,new⟩
    · exact ⟨_,plain_factState,fun _ inside => .inr ⟨identity,returned,inside⟩,new⟩
  · rcases met with ⟨returned,same⟩ | ⟨absurd,_⟩
    · cases same
      exact fun _ inside => .inl ⟨node,returned,inside⟩
    · cases absurd
  · rcases met with ⟨returned,same⟩ | ⟨absurd,_⟩
    · cases same
      exact fun _ inside => .inr ⟨identity,returned,inside⟩
    · cases absurd

theorem kept_nodeReturned (kept : Kept program known)
    (allowed : program.NodeAllowed known node) : Kept program (known ∪ {atom | atom = .returnedNode boundary node ∨
      ∃ context, .caller boundary context ∈ known ∧ atom ∈ program.sourced ⟨node,context⟩}) := by
  refine kept.handed (.parts fun atom member => ?_) nofun (fun other returned context met => ?_) (fun other identity context met => ?_)
    fun other returned same => ?_
  · obtain ⟨context,caller,new⟩ := member
    exact ⟨_,plain_sourced,fun _ inside => ⟨context,caller,inside⟩,new⟩
  · rcases met with ⟨_,absurd⟩ | ⟨same,caller⟩
    · cases absurd
    · cases same
      exact fun _ inside => ⟨context,caller,inside⟩
  · rcases met with ⟨_,absurd⟩ | ⟨absurd,_⟩ <;> cases absurd
  · cases same
    exact allowed

theorem kept_factReturned (kept : Kept program known) :
    Kept program (known ∪ {atom | atom = .returnedFact boundary identity ∨
      ∃ context, .caller boundary context ∈ known ∧ atom ∈ program.factState ⟨identity,context⟩}) := by
  refine kept.handed (.parts fun atom member => ?_) nofun (fun other node context met => ?_) (fun other returned context met => ?_) nofun
  · obtain ⟨context,caller,new⟩ := member
    exact ⟨_,plain_factState,fun _ inside => ⟨context,caller,inside⟩,new⟩
  · rcases met with ⟨_,absurd⟩ | ⟨absurd,_⟩ <;> cases absurd
  · rcases met with ⟨_,absurd⟩ | ⟨same,caller⟩
    · cases absurd
    · cases same
      exact fun _ inside => ⟨context,caller,inside⟩

end ClosureProgram

end BonsaiNinja.Idg
