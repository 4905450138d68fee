import BonsaiNinja.Idg.ClosureTermination

namespace BonsaiNinja.Idg
open Library

inductive FlowAtom (ι : Type) where
  | reached (state : ClosureNodeState)
  | fact (fact : ι) (context : CallContext)
  | caller (boundary : ContextBoundaryKey) (context : CallContext)
  | returnedNode (boundary : ContextBoundaryKey) (node : NodeId)
  | returnedFact (boundary : ContextBoundaryKey) (fact : ι)
  | active (func : FuncId)

-- How facts arise, move and are consumed; the contexts they move through are the
-- closure's own.
structure FactAlgebra (ι : Type) where
  keeps : ι → Prop
  introduces : NodeId → ι → Prop
  rebases : ι → ι → Prop
  reads : ι → NodeId → Prop
  passes : ι → SymbolicFieldTransform → Prop
  carried : ι → SymbolicFieldTransform → ι
  scalar : ι → SymbolicFieldTransform → NodeId → Prop

inductive ClosureProgram.Moves (program : ClosureProgram) : ClosureNodeState → ClosureNodeState → Prop
  | ordinary (edge : target ∈ program.reach.get source) : Moves program ⟨source,context⟩ ⟨target,context⟩
  | heap (policy : program.policy.contextual = some contextual) (edge : target ∈ contextual.heapByFrom.get source) :
      Moves program ⟨source,context⟩ ⟨target,none⟩

namespace FactAlgebra
variable {ι : Type} (algebra : FactAlgebra ι) (program : ClosureProgram) (seeds : List NodeId)

def actives (known : Set (FlowAtom ι)) : Set ClosureAtom := {atom | ∃ func, atom = .active func ∧ .active func ∈ known}

inductive Sourced (state : ClosureNodeState) : FlowAtom ι → Prop
  | node (inside : state.node < program.unified.nodeCount) : Sourced state (.reached state)
  | fact (introduced : algebra.introduces state.node i) (kept : algebra.keeps i) : Sourced state (.fact i state.context)

inductive NodeDelivery (node : NodeId) : TransformContexts → FlowAtom ι → Prop
  | completed : NodeDelivery node (.completed boundary) (.returnedNode boundary node)
  | next (sourced : algebra.Sourced program ⟨node,context⟩ atom) : NodeDelivery node (.next context) atom

inductive FactDelivery (i : ι) : TransformContexts → FlowAtom ι → Prop
  | completed : FactDelivery i (.completed boundary) (.returnedFact boundary i)
  | next (kept : algebra.keeps i) : FactDelivery i (.next context) (.fact i context)

inductive Follows (known : Set (FlowAtom ι)) : FlowAtom ι → Prop
  | root (root : program.policy.summaryRoot = some func) : Follows known (.active func)
  | seed (member : seed ∈ seeds) (allowed : program.NodeAllowed program.startWorklist.atoms seed)
      (sourced : algebra.Sourced program ⟨seed,none⟩ atom) : Follows known atom
  | transition (reached : .reached state ∈ known) (moves : program.Moves state next)
      (relevant : program.nodeIsRelevant next.node = true) (source : program.unified.wsNodeFunc state.node = some sourceFunc)
      (target : program.unified.wsNodeFunc next.node = some targetFunc)
      (open' : program.IsActive (actives known) targetFunc ∨ program.MayEnter (actives known) sourceFunc targetFunc)
      (sourced : algebra.Sourced program next atom) : Follows known atom
  | transitionActivates (reached : .reached state ∈ known) (moves : program.Moves state next)
      (relevant : program.nodeIsRelevant next.node = true) (source : program.unified.wsNodeFunc state.node = some sourceFunc)
      (target : program.unified.wsNodeFunc next.node = some targetFunc)
      (enter : program.MayEnter (actives known) sourceFunc targetFunc) (rooted : program.policy.summaryRoot ≠ none) :
      Follows known (.active targetFunc)
  | callActivates (reached : .reached ⟨source,context⟩ ∈ known) (policy : program.policy.contextual = some contextual)
      (edge : call ∈ contextual.callsByFrom.get source) (relevant : program.nodeIsRelevant call.target = true)
      (enter : program.MayEnter (actives known) call.key.caller call.key.callee) (rooted : program.policy.summaryRoot ≠ none) :
      Follows known (.active call.key.callee)
  | callRegisters (reached : .reached ⟨source,context⟩ ∈ known) (policy : program.policy.contextual = some contextual)
      (edge : call ∈ contextual.callsByFrom.get source) (relevant : program.nodeIsRelevant call.target = true)
      (enter : program.MayEnter (actives known) call.key.caller call.key.callee) : Follows known (.caller call.key context)
  | callEnters (reached : .reached ⟨source,context⟩ ∈ known) (policy : program.policy.contextual = some contextual)
      (edge : call ∈ contextual.callsByFrom.get source) (relevant : program.nodeIsRelevant call.target = true)
      (enter : program.MayEnter (actives known) call.key.caller call.key.callee)
      (open' : program.NodeAllowed (actives known) call.target ∨ program.unified.wsNodeFunc call.target = some call.key.callee)
      (sourced : algebra.Sourced program ⟨call.target,some call.key⟩ atom) : Follows known atom
  | returns (reached : .reached ⟨source,some returned.key⟩ ∈ known) (policy : program.policy.contextual = some contextual)
      (edge : returned ∈ contextual.returnsByFrom.get source) (allowed : program.NodeAllowed (actives known) returned.target) :
      Follows known (.returnedNode returned.key returned.target)
  | returnsToSeed (reached : .reached ⟨source,none⟩ ∈ known) (policy : program.policy.contextual = some contextual)
      (edge : returned ∈ contextual.returnsByFrom.get source) (allowed : program.NodeAllowed (actives known) returned.target)
      (seeded : program.policy.activateSeedCallers = true) (sourced : algebra.Sourced program ⟨returned.target,none⟩ atom) :
      Follows known atom
  | rebase (fact : .fact i context ∈ known) (rebased : algebra.rebases i j) (kept : algebra.keeps j) :
      Follows known (.fact j context)
  | read (fact : .fact i context ∈ known) (read : algebra.reads i node) (allowed : program.NodeAllowed (actives known) node) :
      Follows known (.reached ⟨node,context⟩)
  | transformActivates (fact : .fact i context ∈ known) (passes : algebra.passes i transform)
      (contextual : program.policy.contextual ≠ none)
      (boundary : symbolicTransformBoundary program.symbolic transform = some (key,true))
      (enter : program.MayEnter (actives known) key.caller key.callee) (rooted : program.policy.summaryRoot ≠ none) :
      Follows known (.active key.callee)
  | transformRegisters (fact : .fact i context ∈ known) (passes : algebra.passes i transform)
      (contextual : program.policy.contextual ≠ none)
      (boundary : symbolicTransformBoundary program.symbolic transform = some (key,true))
      (enter : program.MayEnter (actives known) key.caller key.callee) : Follows known (.caller key context)
  | scalarReturn (fact : .fact i context ∈ known) (passes : algebra.passes i transform)
      (delivers : program.Delivers (actives known) transform context contexts) (kind : transform.kind = .scalarReturn)
      (written : algebra.scalar i transform node) (allowed : program.NodeAllowed (actives known) node)
      (delivered : algebra.NodeDelivery program node contexts atom) : Follows known atom
  | transform (fact : .fact i context ∈ known) (passes : algebra.passes i transform)
      (delivers : program.Delivers (actives known) transform context contexts) (kind : transform.kind ≠ .scalarReturn)
      (target : program.TargetActive (actives known) transform)
      (delivered : algebra.FactDelivery (algebra.carried i transform) contexts atom) : Follows known atom
  | replayNode (caller : .caller boundary context ∈ known) (returned : .returnedNode boundary node ∈ known)
      (allowed : program.NodeAllowed (actives known) node) (sourced : algebra.Sourced program ⟨node,context⟩ atom) :
      Follows known atom
  | replayFact (caller : .caller boundary context ∈ known) (returned : .returnedFact boundary i ∈ known)
      (kept : algebra.keeps i) : Follows known (.fact i context)

variable {algebra} {program} {seeds} {known more : Set (FlowAtom ι)}

theorem actives_mono (included : known ⊆ more) : actives known ⊆ actives more := by
  intro atom found
  obtain ⟨func,same,active⟩ := found
  exact ⟨func,same,included active⟩

theorem Follows.mono (included : known ⊆ more) {atom : FlowAtom ι} (follows : algebra.Follows program seeds known atom) :
    algebra.Follows program seeds more atom := by
  have wider := actives_mono included
  cases follows with
  | root root => exact .root root
  | seed member allowed sourced => exact .seed member allowed sourced
  | transition reached moves relevant source target open' sourced =>
    exact .transition (included reached) moves relevant source target (open'.imp (·.mono wider) (·.mono wider)) sourced
  | transitionActivates reached moves relevant source target enter rooted =>
    exact .transitionActivates (included reached) moves relevant source target (enter.mono wider) rooted
  | callActivates reached policy edge relevant enter rooted =>
    exact .callActivates (included reached) policy edge relevant (enter.mono wider) rooted
  | callRegisters reached policy edge relevant enter =>
    exact .callRegisters (included reached) policy edge relevant (enter.mono wider)
  | callEnters reached policy edge relevant enter open' sourced =>
    exact .callEnters (included reached) policy edge relevant (enter.mono wider) (open'.imp_left (·.mono wider)) sourced
  | returns reached policy edge allowed => exact .returns (included reached) policy edge (allowed.mono wider)
  | returnsToSeed reached policy edge allowed seeded sourced =>
    exact .returnsToSeed (included reached) policy edge (allowed.mono wider) seeded sourced
  | rebase fact rebased kept => exact .rebase (included fact) rebased kept
  | read fact read allowed => exact .read (included fact) read (allowed.mono wider)
  | transformActivates fact passes contextual boundary enter rooted =>
    exact .transformActivates (included fact) passes contextual boundary (enter.mono wider) rooted
  | transformRegisters fact passes contextual boundary enter =>
    exact .transformRegisters (included fact) passes contextual boundary (enter.mono wider)
  | scalarReturn fact passes delivers kind written allowed delivered =>
    exact .scalarReturn (included fact) passes (delivers.mono wider) kind written (allowed.mono wider) delivered
  | transform fact passes delivers kind target delivered =>
    exact .transform (included fact) passes (delivers.mono wider) kind (target.mono wider) delivered
  | replayNode caller returned allowed sourced =>
    exact .replayNode (included caller) (included returned) (allowed.mono wider) sourced
  | replayFact caller returned kept => exact .replayFact (included caller) (included returned) kept

def rules (algebra : FactAlgebra ι) (program : ClosureProgram) (seeds : List NodeId) : Rules (FlowAtom ι) where
  follows := algebra.Follows program seeds
  mono included _ follows := follows.mono included

def Reaches (algebra : FactAlgebra ι) (program : ClosureProgram) (seeds : List NodeId) (node : NodeId) : Prop :=
  ∃ context, .reached ⟨node,context⟩ ∈ (algebra.rules program seeds).least

end FactAlgebra

end BonsaiNinja.Idg
