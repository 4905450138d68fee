import BonsaiNinja.LangApi.FlowEvents
import Mathlib.Data.Finset.Lattice.Lemmas
import Mathlib.Data.List.AList

namespace BonsaiNinja.Idg
open LangApi (LoopControlTarget)

-- A node of one function is its place; the names are those of the function's own pool.
inductive FlowNode where
  | write (name : Text) (span : Span)
  | read (name : Text)
  | callArg (site : Span) (idx : Nat)
  | callRet (site : Span)
  | throw (type : Text) (site : Span)
  | catch (type : Text) (site trySpan : Span)
  | return
  | yield
  | await
  deriving DecidableEq, Repr

-- The definitions that may be the last ones of their names.
abbrev WriterState := Finset (Text × FlowNode)

abbrev ControlExitStates := AList fun _ : Option LoopControlTarget => WriterState

structure ThrowSite where
  throwNode : FlowNode
  thrownType : Option Text
  span : Span
  deriving DecidableEq

structure ThrowExit where
  site : ThrowSite
  writers : WriterState
  deriving DecidableEq

-- The states that leave a region, one for each way to leave it.
structure FlowExits where
  fallthrough : Option WriterState
  breaks : ControlExitStates
  continues : ControlExitStates
  returns : Option WriterState
  throws : List ThrowExit

def FlowExits.none : FlowExits := ⟨.none,∅,∅,.none,[]⟩

def mergeState (current : Option WriterState) (state : WriterState) : WriterState := current.getD ∅ ∪ state

def addControlExit (exits : ControlExitStates) (target : Option LoopControlTarget) (state : WriterState) : ControlExitStates :=
  exits.insert target (mergeState (exits.lookup target) state)

def mergeControlExits (target incoming : ControlExitStates) : ControlExitStates :=
  incoming.entries.foldl (fun exits entry => addControlExit exits entry.1 entry.2) target

namespace FlowExits

def falls (state : WriterState) : FlowExits := {none with fallthrough := some state}

def addFallthrough (exits : FlowExits) (state : WriterState) : FlowExits :=
  {exits with fallthrough := some (mergeState exits.fallthrough state)}

def addReturn (exits : FlowExits) (state : WriterState) : FlowExits :=
  {exits with returns := some (mergeState exits.returns state)}

def addBreak (exits : FlowExits) (target : Option LoopControlTarget) (state : WriterState) : FlowExits :=
  {exits with breaks := addControlExit exits.breaks target state}

def addContinue (exits : FlowExits) (target : Option LoopControlTarget) (state : WriterState) : FlowExits :=
  {exits with continues := addControlExit exits.continues target state}

end FlowExits

-- A throw endpoint is kept once, with its first site.
def addThrowTo (site : ThrowSite) (writers : WriterState) : List ThrowExit → List ThrowExit
  | [] => [⟨site,writers⟩]
  | existing :: rest =>
    if existing.site.throwNode = site.throwNode then {existing with writers := existing.writers ∪ writers} :: rest
    else existing :: addThrowTo site writers rest

namespace FlowExits

def addThrow (exits : FlowExits) (site : ThrowSite) (writers : WriterState) : FlowExits :=
  {exits with throws := addThrowTo site writers exits.throws}

def addThrows (exits : FlowExits) (throws : List ThrowExit) : FlowExits :=
  throws.foldl (fun exits thrown => exits.addThrow thrown.site thrown.writers) exits

def addFalling (exits : FlowExits) (state : Option WriterState) : FlowExits := state.elim exits exits.addFallthrough

def addReturning (exits : FlowExits) (state : Option WriterState) : FlowExits := state.elim exits exits.addReturn

def merge (exits other : FlowExits) : FlowExits :=
  let exits := (exits.addFalling other.fallthrough).addReturning other.returns
  let exits := {exits with
    breaks := mergeControlExits exits.breaks other.breaks, continues := mergeControlExits exits.continues other.continues}
  exits.addThrows other.throws

end FlowExits

-- The order in which a hash map yields keys is not specified.
structure KeyOrder where
  arrange : List Nat → List Nat
  perm : ∀ levels, (arrange levels).Perm levels

def levelAbove : Option LoopControlTarget → Option Nat
  | some (.levels levels) => if 1 < levels then some levels else none
  | _ => none

def deeperLevels (exits : ControlExitStates) : List Nat := exits.keys.filterMap levelAbove

def shiftLevel (exits : ControlExitStates) (levels : Nat) : ControlExitStates :=
  match exits.lookup (some (.levels levels)) with
  | some state => addControlExit (exits.erase (some (.levels levels))) (some (.levels (levels - 1))) state
  | none => exits

def takeTarget (taken : Option WriterState × ControlExitStates) (target : Option LoopControlTarget) :
    Option WriterState × ControlExitStates :=
  match taken.2.lookup target with
  | some state => (some (mergeState taken.1 state),taken.2.erase target)
  | none => taken

def takeLoopControlExit (order : KeyOrder) (exits : ControlExitStates) (loopLabel : Option Text) :
    Option WriterState × ControlExitStates :=
  let taken := takeTarget (none,exits) none
  let taken := loopLabel.elim taken fun label => takeTarget taken (some (.label label))
  let taken := takeTarget taken (some (.levels 1))
  (taken.1,(order.arrange (deeperLevels taken.2)).foldl shiftLevel taken.2)

structure PhaseRoute where
  escaped : FlowExits
  loopBreaks : WriterState
  hasLoopBreak : Bool
  next : Option WriterState

def routeLoopPhaseExits (order : KeyOrder) (exits : FlowExits) (loopLabel : Option Text) (escaped : FlowExits)
    (loopBreaks : WriterState) (hasLoopBreak : Bool) : PhaseRoute :=
  let (matchingBreak,breaks) := takeLoopControlExit order exits.breaks loopLabel
  let (matchingContinue,continues) := takeLoopControlExit order exits.continues loopLabel
  let escaped := {escaped with
    breaks := mergeControlExits escaped.breaks breaks, continues := mergeControlExits escaped.continues continues}
  let escaped := (escaped.addReturning exits.returns).addThrows exits.throws
  { escaped
    loopBreaks := matchingBreak.elim loopBreaks (loopBreaks ∪ ·)
    hasLoopBreak := hasLoopBreak || matchingBreak.isSome
    next := matchingContinue.elim exits.fallthrough fun state => some (mergeState exits.fallthrough state) }

end BonsaiNinja.Idg
