import BonsaiNinja.Idg.ClosureEngine
import BonsaiNinja.Library.Rules

namespace BonsaiNinja.Idg
open Library

inductive ClosureAtom where
  | reached (state : ClosureNodeState)
  | source (state : ClosureNodeState)
  | fact (fact : SymbolicNodeFact)
  | caller (boundary : ContextBoundaryKey) (context : CallContext)
  | returnedNode (boundary : ContextBoundaryKey) (node : NodeId)
  | returnedFact (boundary : ContextBoundaryKey) (identity : SymbolicFactIdentity)
  | active (func : FuncId)
  deriving DecidableEq

inductive ClosureItem where
  | node (state : ClosureNodeState)
  | fact (fact : SymbolicNodeFact)
  deriving DecidableEq

def ClosureItem.atom : ClosureItem → ClosureAtom
  | .node state => .reached state
  | .fact known => .fact known

def SymbolicClosureWorklist.Knows (w : SymbolicClosureWorklist) : ClosureAtom → Prop
  | .reached state => state ∈ w.reached
  | .source state => state ∈ w.factSourceStates
  | .fact fact => fact ∈ w.facts
  | .caller boundary context => (boundary,context) ∈ w.contexts.callers
  | .returnedNode boundary node => (boundary,node) ∈ w.contexts.returnedNodes
  | .returnedFact boundary identity => (boundary,identity) ∈ w.contexts.returnedFacts
  | .active func => func ∈ w.activeSummaryFuncs

def SymbolicClosureWorklist.atoms (w : SymbolicClosureWorklist) : Set ClosureAtom := {atom | w.Knows atom}

def SymbolicClosureWorklist.Pending (w : SymbolicClosureWorklist) : ClosureItem → Prop
  | .node state => state ∈ w.pendingNodes
  | .fact fact => fact ∈ w.pendingFacts

def SymbolicClosureWorklist.queueSize (w : SymbolicClosureWorklist) : Nat :=
  w.pendingNodes.length + w.pendingFacts.length

def SymbolicClosureWorklist.knownSize (w : SymbolicClosureWorklist) : Nat := w.reached.length + w.facts.length

namespace ClosureProgram
variable (program : ClosureProgram) (known : Set ClosureAtom)

def IsActive (func : FuncId) : Prop :=
  program.funcIsAllowed func = true ∧ (program.policy.summaryRoot = none ∨ .active func ∈ known)

def NodeAllowed (node : NodeId) : Prop :=
  program.nodeIsRelevant node = true ∧ ∃ func, program.unified.wsNodeFunc node = some func ∧ program.IsActive known func

-- Entering `callee` from `caller` is permitted, whether or not it is active yet.
def MayEnter (caller callee : FuncId) : Prop :=
  program.IsActive known caller ∧ program.summaryDependencyIsPermitted caller callee = true ∧
    program.funcIsAllowed callee = true

def activation (func : FuncId) : Set ClosureAtom := {atom | program.policy.summaryRoot ≠ none ∧ atom = .active func}

def introduced (state : ClosureNodeState) : Set ClosureAtom :=
  {atom | program.fieldDemand ≠ [] ∧ (atom = .source state ∨
    ∃ identity ∈ program.runtime.symbolicFactsForNode program.unified state.node,
      program.factIsRelevant identity.base identity.field = true ∧ atom = .fact ⟨identity,state.context⟩)}

def sourced (state : ClosureNodeState) : Set ClosureAtom :=
  {atom | state.node < program.unified.nodeCount ∧ atom = .reached state} ∪ program.introduced state

def factState (fact : SymbolicNodeFact) : Set ClosureAtom :=
  {atom | program.factIsRelevant fact.identity.base fact.identity.field = true ∧ atom = .fact fact}

def transitionYields (source target : NodeId) (context : CallContext) : Set ClosureAtom :=
  {atom | program.nodeIsRelevant target = true ∧ ∃ sourceFunc targetFunc,
    program.unified.wsNodeFunc source = some sourceFunc ∧ program.unified.wsNodeFunc target = some targetFunc ∧
      (program.IsActive known targetFunc ∧ atom ∈ program.sourced ⟨target,context⟩ ∨
        program.MayEnter known sourceFunc targetFunc ∧
          atom ∈ program.activation targetFunc ∪ program.sourced ⟨target,context⟩)}

def callYields (context : CallContext) (call : ContextBoundaryEdge) : Set ClosureAtom :=
  {atom | program.nodeIsRelevant call.target = true ∧ program.MayEnter known call.key.caller call.key.callee ∧
    (atom ∈ program.activation call.key.callee ∨ atom = .caller call.key context ∨
      (program.NodeAllowed known call.target ∨ program.unified.wsNodeFunc call.target = some call.key.callee) ∧
        atom ∈ program.sourced ⟨call.target,some call.key⟩)}

def returnYields (context : CallContext) (returned : ContextBoundaryEdge) : Set ClosureAtom :=
  {atom | program.NodeAllowed known returned.target ∧
    (context = some returned.key ∧ atom = .returnedNode returned.key returned.target ∨
      context = none ∧ program.policy.activateSeedCallers = true ∧ atom ∈ program.sourced ⟨returned.target,none⟩)}

def nodeYields (state : ClosureNodeState) : Set ClosureAtom :=
  {atom | (∃ target ∈ program.reach.get state.node, atom ∈ program.transitionYields known state.node target state.context) ∨
    ∃ contextual, program.policy.contextual = some contextual ∧
      ((∃ target ∈ contextual.heapByFrom.get state.node, atom ∈ program.transitionYields known state.node target none) ∨
        (∃ call ∈ contextual.callsByFrom.get state.node, atom ∈ program.callYields known state.context call) ∨
          ∃ returned ∈ contextual.returnsByFrom.get state.node, atom ∈ program.returnYields known state.context returned)}

def rebaseYields (fact : SymbolicNodeFact) (rebase : SymbolicBaseRebase) : Set ClosureAtom :=
  {atom | ∃ field, program.runtime.rebasedField rebase fact.identity.field = some field ∧
    atom ∈ program.factState ⟨⟨rebase.target,field,fact.identity.provenance⟩,fact.context⟩}

def consumerYields (fact : SymbolicNodeFact) (node : NodeId) : Set ClosureAtom :=
  {atom | program.NodeAllowed known node ∧ atom = .reached ⟨node,fact.context⟩}

inductive Delivers (transform : SymbolicFieldTransform) (context : CallContext) : TransformContexts → Prop
  | ordinary (local' : program.policy.contextual = none ∨ symbolicTransformBoundary program.symbolic transform = none) :
      Delivers transform context (.next context)
  | enters (contextual : program.policy.contextual ≠ none)
      (boundary : symbolicTransformBoundary program.symbolic transform = some (key,true))
      (enter : program.MayEnter known key.caller key.callee) : Delivers transform context (.next (some key))
  | matched (contextual : program.policy.contextual ≠ none)
      (boundary : symbolicTransformBoundary program.symbolic transform = some (key,false))
      (inside : context = some key) : Delivers transform context (.completed key)
  | seedCaller (contextual : program.policy.contextual ≠ none)
      (boundary : symbolicTransformBoundary program.symbolic transform = some (key,false))
      (seeded : program.policy.activateSeedCallers = true) (empty : context = none) :
      Delivers transform context (.next none)

def entryYields (transform : SymbolicFieldTransform) (context : CallContext) : Set ClosureAtom :=
  {atom | program.policy.contextual ≠ none ∧ ∃ key, symbolicTransformBoundary program.symbolic transform = some (key,true) ∧
    program.MayEnter known key.caller key.callee ∧
      (atom ∈ program.activation key.callee ∨ atom = .caller key context)}

def nodeDelivery (node : NodeId) : TransformContexts → Set ClosureAtom
  | .completed boundary => {atom | atom = .returnedNode boundary node}
  | .next context => program.sourced ⟨node,context⟩

def factDelivery (identity : SymbolicFactIdentity) : TransformContexts → Set ClosureAtom
  | .completed boundary => {atom | atom = .returnedFact boundary identity}
  | .next context => program.factState ⟨identity,context⟩

def TargetActive (transform : SymbolicFieldTransform) : Prop :=
  ∃ base, program.symbolic.bases[transform.target]? = some base ∧
    (program.IsActive known base.func ∨ program.policy.contextual ≠ none ∧
      ∃ key, symbolicTransformBoundary program.symbolic transform = some (key,true) ∧
        program.MayEnter known key.caller key.callee)

def transformYields (fact : SymbolicNodeFact) (transform : SymbolicFieldTransform) : Set ClosureAtom :=
  {atom | program.writtenAfter transform fact.identity = false ∧
    (transform.kind ≠ .scalarReturn → program.factIsRelevant transform.target fact.identity.field = true) ∧
    (atom ∈ program.entryYields known transform fact.context ∨
      ∃ contexts, program.Delivers known transform fact.context contexts ∧
        (transform.kind = .scalarReturn ∧ program.scalarMatches transform fact.identity.field = true ∧
            (∃ node ∈ program.runtime.scalarWrites.get (transform.target,transform.writeSpan),
              program.NodeAllowed known node ∧ atom ∈ program.nodeDelivery node contexts) ∨
          transform.kind ≠ .scalarReturn ∧ program.TargetActive known transform ∧
            atom ∈ program.factDelivery (program.transformedIdentity transform fact.identity.field) contexts))}

def factYields (fact : SymbolicNodeFact) : Set ClosureAtom :=
  {atom | (∃ rebase ∈ program.runtime.baseRebases.get fact.identity.base, atom ∈ program.rebaseYields fact rebase) ∨
    (∃ node ∈ program.factConsumers fact.identity, atom ∈ program.consumerYields known fact node) ∨
      ∃ transform ∈ program.runtime.outgoing fact.identity.base, atom ∈ program.transformYields known fact transform}

def itemYields : ClosureItem → Set ClosureAtom
  | .node state => program.nodeYields known state
  | .fact fact => program.factYields known fact

def replayYields : Set ClosureAtom :=
  {atom | ∃ boundary context, .caller boundary context ∈ known ∧
    ((∃ node, .returnedNode boundary node ∈ known ∧ program.NodeAllowed known node ∧ atom ∈ program.sourced ⟨node,context⟩) ∨
      ∃ identity, .returnedFact boundary identity ∈ known ∧ atom ∈ program.factState ⟨identity,context⟩)}

def seedYields (seeds : List NodeId) : Set ClosureAtom :=
  {atom | ∃ seed ∈ seeds, program.NodeAllowed program.startWorklist.atoms seed ∧ atom ∈ program.sourced ⟨seed,none⟩}

end ClosureProgram

end BonsaiNinja.Idg
