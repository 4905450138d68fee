import BonsaiNinja.Idg.FlowRules
import BonsaiNinja.Idg.ForwardClosure

namespace BonsaiNinja.Idg
open Library

namespace ClosureProgram
variable (program : ClosureProgram)

def factAlgebra : FactAlgebra SymbolicFactIdentity where
  keeps identity := program.factIsRelevant identity.base identity.field = true
  introduces node identity := identity ∈ program.runtime.symbolicFactsForNode program.unified node
  rebases identity next := ∃ rebase ∈ program.runtime.baseRebases.get identity.base, ∃ field,
    program.runtime.rebasedField rebase identity.field = some field ∧ next = ⟨rebase.target,field,identity.provenance⟩
  reads identity node := node ∈ program.factConsumers identity
  passes identity transform := transform ∈ program.runtime.outgoing identity.base ∧
    program.writtenAfter transform identity = false ∧
    (transform.kind ≠ .scalarReturn → program.factIsRelevant transform.target identity.field = true)
  carried identity transform := program.transformedIdentity transform identity.field
  scalar identity transform node := program.scalarMatches transform identity.field = true ∧
    node ∈ program.runtime.scalarWrites.get (transform.target,transform.writeSpan)

end ClosureProgram

def FlowAtom.closureAtom : FlowAtom SymbolicFactIdentity → ClosureAtom
  | .reached state => .reached state
  | .fact identity context => .fact ⟨identity,context⟩
  | .caller boundary context => .caller boundary context
  | .returnedNode boundary node => .returnedNode boundary node
  | .returnedFact boundary identity => .returnedFact boundary identity
  | .active func => .active func

theorem FlowAtom.closureAtom_injective {a b : FlowAtom SymbolicFactIdentity} (same : a.closureAtom = b.closureAtom) : a = b := by
  cases a <;> cases b <;> simp_all [closureAtom]

namespace ClosureProgram
variable {program : ClosureProgram} {seeds : List NodeId} {known : Set (FlowAtom SymbolicFactIdentity)}

-- Which nodes were sources is only bookkeeping: no rule reads it.
def held (known : Set (FlowAtom SymbolicFactIdentity)) : Set ClosureAtom :=
  {atom | (∃ state, atom = .source state) ∨ ∃ a ∈ known, a.closureAtom = atom}

theorem held_iff {a : FlowAtom SymbolicFactIdentity} : a.closureAtom ∈ held known ↔ a ∈ known := by
  constructor
  · intro found
    rcases found with ⟨state,same⟩ | ⟨b,member,same⟩
    · cases a <;> cases same
    · rw [← FlowAtom.closureAtom_injective same]
      exact member
  · exact fun member => .inr ⟨a,member,rfl⟩

theorem held_active : ActiveWithin program (held known) (FactAlgebra.actives known) := by
  intro func active
  refine ⟨active.1,active.2.imp id fun member => ⟨func,rfl,?_⟩⟩
  exact (held_iff (a := .active func)).mp member

theorem held_sourced {state : ClosureNodeState} (member : atom ∈ program.sourced state)
    (all : ∀ a, program.factAlgebra.Sourced program state a → a ∈ known) : atom ∈ held known := by
  rcases member with ⟨inside,rfl⟩ | ⟨_,rfl | ⟨identity,introduced,kept,rfl⟩⟩
  · exact .inr ⟨.reached state,all _ (.node inside),rfl⟩
  · exact .inl ⟨state,rfl⟩
  · exact .inr ⟨.fact identity state.context,all _ (.fact introduced kept),rfl⟩

theorem held_activation {func : FuncId} (member : atom ∈ program.activation func)
    (rooted : program.policy.summaryRoot ≠ none → .active func ∈ known) : atom ∈ held known := by
  obtain ⟨rooted',rfl⟩ := member
  exact .inr ⟨.active func,rooted rooted',rfl⟩

section
variable (closed : (program.factAlgebra.rules program seeds).Closed known)
include closed

theorem held_transition {source target : NodeId} {context context' : CallContext}
    (reached : .reached ⟨source,context⟩ ∈ known) (moves : program.Moves ⟨source,context⟩ ⟨target,context'⟩) :
    program.transitionYields (FactAlgebra.actives known) source target context' ⊆ held known := by
  intro atom yields
  obtain ⟨relevant,sourceFunc,targetFunc,own,own',⟨active,member⟩ | ⟨enter,member⟩⟩ := yields
  · exact held_sourced member fun a sourced => closed a (.transition reached moves relevant own own' (.inl active) sourced)
  · rcases member with activated | member
    · exact held_activation activated fun rooted =>
        closed _ (.transitionActivates reached moves relevant own own' enter rooted)
    · exact held_sourced member fun a sourced => closed a (.transition reached moves relevant own own' (.inr enter) sourced)

theorem held_node {state : ClosureNodeState} (reached : .reached state ∈ known) :
    program.nodeYields (FactAlgebra.actives known) state ⊆ held known := by
  intro atom yields
  rcases yields with ⟨target,edge,yields⟩ | ⟨contextual,policy,⟨target,edge,yields⟩ | ⟨call,edge,yields⟩ | ⟨returned,edge,yields⟩⟩
  · exact held_transition closed reached (.ordinary edge) yields
  · exact held_transition closed reached (.heap policy edge) yields
  · obtain ⟨relevant,enter,activated | rfl | ⟨open',member⟩⟩ := yields
    · exact held_activation activated fun rooted => closed _ (.callActivates reached policy edge relevant enter rooted)
    · exact .inr ⟨.caller call.key state.context,closed _ (.callRegisters reached policy edge relevant enter),rfl⟩
    · exact held_sourced member fun a sourced => closed a (.callEnters reached policy edge relevant enter open' sourced)
  · obtain ⟨allowed,⟨same,rfl⟩ | ⟨empty,seeded,member⟩⟩ := yields
    · obtain ⟨source,context⟩ := state
      cases same
      exact .inr ⟨.returnedNode returned.key returned.target,closed _ (.returns reached policy edge allowed),rfl⟩
    · obtain ⟨source,context⟩ := state
      cases empty
      exact held_sourced member fun a sourced => closed a (.returnsToSeed reached policy edge allowed seeded sourced)

theorem held_fact {identity : SymbolicFactIdentity} {context : CallContext} (fact : .fact identity context ∈ known) :
    program.factYields (FactAlgebra.actives known) ⟨identity,context⟩ ⊆ held known := by
  intro atom yields
  rcases yields with ⟨rebase,row,field,found,kept,rfl⟩ | ⟨node,read,allowed,rfl⟩ |
    ⟨transform,row,ordered,relevant,entry | ⟨contexts,delivers,⟨kind,same,node,written,allowed,member⟩ | ⟨kind,target,member⟩⟩⟩
  · exact .inr ⟨.fact _ context,closed _ (.rebase fact ⟨rebase,row,field,found,rfl⟩ kept),rfl⟩
  · exact .inr ⟨.reached ⟨node,context⟩,closed _ (.read fact read allowed),rfl⟩
  · obtain ⟨contextual,key,boundary,enter,activated | rfl⟩ := entry
    · exact held_activation activated fun rooted =>
        closed _ (.transformActivates fact ⟨row,ordered,relevant⟩ contextual boundary enter rooted)
    · exact .inr ⟨.caller key context,closed _ (.transformRegisters fact ⟨row,ordered,relevant⟩ contextual boundary enter),rfl⟩
  · have delivery : ∀ a, program.factAlgebra.NodeDelivery program node contexts a → a ∈ known := fun a delivered =>
      closed a (.scalarReturn fact ⟨row,ordered,relevant⟩ delivers kind ⟨same,written⟩ allowed delivered)
    cases contexts with
    | completed boundary =>
      cases member
      exact .inr ⟨.returnedNode boundary node,delivery _ .completed,rfl⟩
    | next context' => exact held_sourced member fun a sourced => delivery a (.next sourced)
  · have delivery : ∀ a, FactAlgebra.FactDelivery program.factAlgebra (program.transformedIdentity transform identity.field)
        contexts a → a ∈ known := fun a delivered =>
      closed a (.transform fact ⟨row,ordered,relevant⟩ delivers kind target delivered)
    cases contexts with
    | completed boundary =>
      cases member
      exact .inr ⟨.returnedFact boundary _,delivery _ .completed,rfl⟩
    | next context' =>
      obtain ⟨kept,rfl⟩ := member
      exact .inr ⟨.fact _ context',delivery _ (.next kept),rfl⟩

theorem held_closed : (program.rules seeds).Closed (held known) := by
  intro atom follows
  rcases follows with start | ⟨seed,member,allowed,yields⟩ | ⟨item,member,yields⟩ |
    ⟨boundary,context,caller,⟨node,returned,allowed,member⟩ | ⟨identity,returned,kept,rfl⟩⟩
  · cases atom with
    | active func =>
      refine .inr ⟨.active func,closed _ (.root ?_),rfl⟩
      change func ∈ program.policy.summaryRoot.toList at start
      exact Option.mem_toList.mp start
    | _ => exact absurd start List.not_mem_nil
  · exact held_sourced yields fun a sourced => closed a (.seed member allowed sourced)
  · have within := itemYields_within held_active yields
    cases item with
    | node state => exact held_node closed ((held_iff (a := .reached state)).mp member) within
    | fact fact => exact held_fact closed ((held_iff (a := .fact fact.identity fact.context)).mp member) within
  · exact held_sourced member fun a sourced => closed a (.replayNode ((held_iff (a := .caller boundary context)).mp caller)
      ((held_iff (a := .returnedNode boundary node)).mp returned) (allowed.within held_active) sourced)
  · exact .inr ⟨.fact identity context,closed _ (.replayFact ((held_iff (a := .caller boundary context)).mp caller)
      ((held_iff (a := .returnedFact boundary identity)).mp returned) kept),rfl⟩

end

section
variable {derived : Set ClosureAtom}

def flown (derived : Set ClosureAtom) : Set (FlowAtom SymbolicFactIdentity) := {a | a.closureAtom ∈ derived}

theorem actives_flown : FactAlgebra.actives (flown derived) ⊆ derived := by
  intro atom found
  obtain ⟨func,rfl,active⟩ := found
  exact active

theorem flown_sourced {state : ClosureNodeState} {a : FlowAtom SymbolicFactIdentity}
    (all : program.sourced state ⊆ derived) (sourced : program.factAlgebra.Sourced program state a) : a ∈ flown derived := by
  cases sourced with
  | node inside => exact all (.inl ⟨inside,rfl⟩)
  | fact introduced kept =>
    refine all (.inr ⟨?_,.inr ⟨_,introduced,kept,rfl⟩⟩)
    intro nothing
    change program.factIsRelevant _ _ = true at kept
    simp [factIsRelevant,nothing] at kept

variable (closed : (program.rules seeds).Closed derived)
include closed

theorem derived_node {state : ClosureNodeState} (reached : .reached state ∈ derived) :
    program.nodeYields derived state ⊆ derived := fun atom yields =>
  closed atom (.inr (.inr (.inl ⟨.node state,reached,yields⟩)))

theorem derived_fact {fact : SymbolicNodeFact} (member : .fact fact ∈ derived) :
    program.factYields derived fact ⊆ derived := fun atom yields =>
  closed atom (.inr (.inr (.inl ⟨.fact fact,member,yields⟩)))

theorem derived_transition {state next : ClosureNodeState} (reached : .reached state ∈ derived)
    (moves : program.Moves state next) :
    program.transitionYields derived state.node next.node next.context ⊆ derived := by
  intro atom yields
  cases moves with
  | ordinary edge => exact derived_node closed reached (.inl ⟨_,edge,yields⟩)
  | heap policy edge => exact derived_node closed reached (.inr ⟨_,policy,.inl ⟨_,edge,yields⟩⟩)

theorem derived_call {source : NodeId} {context : CallContext} {contextual : ContextualSummaryRuntime}
    {call : ContextBoundaryEdge} (reached : .reached ⟨source,context⟩ ∈ derived)
    (policy : program.policy.contextual = some contextual) (edge : call ∈ contextual.callsByFrom.get source) :
    program.callYields derived context call ⊆ derived := fun _ yields =>
  derived_node closed reached (.inr ⟨contextual,policy,.inr (.inl ⟨call,edge,yields⟩)⟩)

theorem derived_return {source : NodeId} {context : CallContext} {contextual : ContextualSummaryRuntime}
    {returned : ContextBoundaryEdge} (reached : .reached ⟨source,context⟩ ∈ derived)
    (policy : program.policy.contextual = some contextual) (edge : returned ∈ contextual.returnsByFrom.get source) :
    program.returnYields derived context returned ⊆ derived := fun _ yields =>
  derived_node closed reached (.inr ⟨contextual,policy,.inr (.inr ⟨returned,edge,yields⟩)⟩)

theorem flown_closed : (program.factAlgebra.rules program seeds).Closed (flown derived) := by
  intro a follows
  have wider : FactAlgebra.actives (flown derived) ⊆ derived := actives_flown
  cases follows with
  | root root => exact closed _ (.inl (Option.mem_toList.mpr root))
  | seed member allowed sourced =>
    exact flown_sourced (fun atom yields => closed atom (.inr (.inl ⟨_,member,allowed,yields⟩))) sourced
  | transition reached moves relevant source target open' sourced =>
    refine flown_sourced (fun atom yields => derived_transition closed reached moves ?_) sourced
    refine ⟨relevant,_,_,source,target,open'.imp (fun active => ⟨active.mono wider,yields⟩) fun enter => ?_⟩
    exact ⟨enter.mono wider,.inr yields⟩
  | transitionActivates reached moves relevant source target enter rooted =>
    exact derived_transition closed reached moves
      ⟨relevant,_,_,source,target,.inr ⟨enter.mono wider,.inl ⟨rooted,rfl⟩⟩⟩
  | callActivates reached policy edge relevant enter rooted =>
    exact derived_call closed reached policy edge ⟨relevant,enter.mono wider,.inl ⟨rooted,rfl⟩⟩
  | callRegisters reached policy edge relevant enter =>
    exact derived_call closed reached policy edge ⟨relevant,enter.mono wider,.inr (.inl rfl)⟩
  | callEnters reached policy edge relevant enter open' sourced =>
    refine flown_sourced (fun atom yields => derived_call closed reached policy edge ?_) sourced
    exact ⟨relevant,enter.mono wider,.inr (.inr ⟨open'.imp_left (·.mono wider),yields⟩)⟩
  | returns reached policy edge allowed =>
    exact derived_return closed reached policy edge ⟨allowed.mono wider,.inl ⟨rfl,rfl⟩⟩
  | returnsToSeed reached policy edge allowed seeded sourced =>
    refine flown_sourced (fun atom yields => derived_return closed reached policy edge ?_) sourced
    exact ⟨allowed.mono wider,.inr ⟨rfl,seeded,yields⟩⟩
  | rebase fact rebased kept =>
    obtain ⟨rebase,row,field,found,rfl⟩ := rebased
    exact derived_fact closed fact (.inl ⟨rebase,row,field,found,kept,rfl⟩)
  | read fact read allowed => exact derived_fact closed fact (.inr (.inl ⟨_,read,allowed.mono wider,rfl⟩))
  | transformActivates fact passes contextual boundary enter rooted =>
    obtain ⟨row,ordered,relevant⟩ := passes
    refine derived_fact closed fact (.inr (.inr ⟨_,row,ordered,relevant,.inl ⟨contextual,_,boundary,enter.mono wider,?_⟩⟩))
    exact .inl ⟨rooted,rfl⟩
  | transformRegisters fact passes contextual boundary enter =>
    obtain ⟨row,ordered,relevant⟩ := passes
    refine derived_fact closed fact (.inr (.inr ⟨_,row,ordered,relevant,.inl ⟨contextual,_,boundary,enter.mono wider,?_⟩⟩))
    exact .inr rfl
  | scalarReturn fact passes delivers kind written allowed delivered =>
    obtain ⟨row,ordered,relevant⟩ := passes
    obtain ⟨same,written⟩ := written
    have delivery : ∀ atom, atom ∈ program.nodeDelivery _ _ → atom ∈ derived := fun atom yields =>
      derived_fact closed fact (.inr (.inr ⟨_,row,ordered,relevant,.inr ⟨_,delivers.mono wider,.inl
        ⟨kind,same,_,written,allowed.mono wider,yields⟩⟩⟩))
    cases delivered with
    | completed => exact delivery _ rfl
    | next sourced => exact flown_sourced delivery sourced
  | transform fact passes delivers kind target delivered =>
    obtain ⟨row,ordered,relevant⟩ := passes
    have delivery : ∀ atom, atom ∈ program.factDelivery _ _ → atom ∈ derived := fun atom yields =>
      derived_fact closed fact (.inr (.inr ⟨_,row,ordered,relevant,.inr ⟨_,delivers.mono wider,.inr
        ⟨kind,target.mono wider,yields⟩⟩⟩))
    cases delivered with
    | completed => exact delivery _ rfl
    | next kept => exact delivery _ ⟨kept,rfl⟩
  | replayNode caller returned allowed sourced =>
    refine flown_sourced (fun atom yields => closed atom (.inr (.inr (.inr ?_)))) sourced
    exact ⟨_,_,caller,.inl ⟨_,returned,allowed.mono wider,yields⟩⟩
  | replayFact caller returned kept =>
    exact closed _ (.inr (.inr (.inr ⟨_,_,caller,.inr ⟨_,returned,kept,rfl⟩⟩)))

end

theorem derived_iff {a : FlowAtom SymbolicFactIdentity} :
    a.closureAtom ∈ (program.rules seeds).least ↔ a ∈ (program.factAlgebra.rules program seeds).least := by
  constructor
  · intro derived
    exact held_iff.mp (Rules.least_subset (held_closed Rules.least_closed) derived)
  · intro flows
    exact Rules.least_subset (flown_closed Rules.least_closed) flows

theorem reaches_iff {node : NodeId} : program.factAlgebra.Reaches program seeds node ↔
    ∃ context, .reached ⟨node,context⟩ ∈ (program.rules seeds).least :=
  exists_congr fun context => (derived_iff (a := .reached ⟨node,context⟩)).symm

section
variable (timely : program.OnTimeRuns (program.seedWorklist seeds) (program.closureRun seeds))
include timely

theorem mem_onTime_nodes {node : NodeId} :
    node ∈ (program.closureRun seeds).nodes ↔ program.factAlgebra.Reaches program seeds node := by
  rw [SymbolicClosureWorklist.mem_nodes, onTime_least timely closureRun_drained, reaches_iff]

theorem onTime_nodes_eq {other : ClosureProgram}
    (timely' : other.OnTimeRuns (other.seedWorklist seeds) (other.closureRun seeds))
    (same : ∀ node, program.factAlgebra.Reaches program seeds node ↔ other.factAlgebra.Reaches other seeds node) :
    (program.closureRun seeds).nodes = (other.closureRun seeds).nodes := by
  refine Sorted.ext (sortDedup_sorted _) (sortDedup_sorted _) fun node => ?_
  exact (mem_onTime_nodes timely).trans ((same node).trans (mem_onTime_nodes timely').symm)

end

end ClosureProgram

end BonsaiNinja.Idg
