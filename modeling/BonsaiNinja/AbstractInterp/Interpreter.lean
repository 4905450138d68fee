import BonsaiNinja.AbstractInterp.States
import BonsaiNinja.Idg.CrossCalls
import BonsaiNinja.Library.Turns

namespace BonsaiNinja.AbstractInterp
open LangApi Library
open Cfg (BasicBlock BasicBlockId Graph eventSpan)

structure TraceLimits where
  maxSteps : Nat
  maxLoopIters : Nat
  maxBranches : Nat
  deriving DecidableEq, Repr

inductive StepKind where
  | enterFunction | evalExpr | assign | branchSplit | branchTaken | call | return | throw | await | yield | lifecycle
  | merge | diagnostic
  deriving DecidableEq, Repr

structure RawStep where
  id : Nat
  pathId : Nat
  kind : StepKind
  span : Span
  func : FuncId
  message : String
  deriving DecidableEq, Repr

structure RawTrace where
  steps : List RawStep
  truncated : Bool
  truncationReasons : List String
  incompleteReasons : List String
  deriving DecidableEq, Repr

namespace RawTrace

def markTruncated (trace : RawTrace) (reason : String) : RawTrace :=
  {trace with
    truncated := true
    truncationReasons := if reason ∈ trace.truncationReasons then trace.truncationReasons else trace.truncationReasons ++ [reason]}

def markIncomplete (trace : RawTrace) (reason : String) : RawTrace :=
  if reason = "" ∨ reason ∈ trace.incompleteReasons then trace
  else {trace with incompleteReasons := trace.incompleteReasons ++ [reason]}

end RawTrace

inductive StaticScalarValue where
  | string (value : OwnedString)
  | boolean (value : Bool)
  | integer (value : Int)
  | null
  deriving DecidableEq

structure AssignmentValueFact where
  assignmentSpan : Span
  target : Option Text
  staticValue : Option StaticScalarValue
  deriving DecidableEq

def spanBefore (a b : Span) : Bool :=
  a.file < b.file || a.file == b.file && (a.start < b.start || a.start == b.start && a.stop < b.stop)

def assignmentValueFactForSpan (facts : List AssignmentValueFact) (assignmentSpan : Span) : Option AssignmentValueFact :=
  (facts[facts.findIdx fun fact => !spanBefore fact.assignmentSpan assignmentSpan]?).filter
    fun fact => fact.assignmentSpan == assignmentSpan

def applyEvent (facts : List AssignmentValueFact) (state : ExecState) : FlowEvent → ExecState
  | .assign span target sourceName sourceCall _ _ _ _ =>
    let scalar := ((assignmentValueFactForSpan facts span).filter fun fact => fact.target == some target).bind (·.staticValue)
    let value := match scalar with
      | some (.integer value) => .constInt value
      | some (.boolean value) => .constBool value
      | some (.string value) => .constString value
      | some .null => .null
      | none =>
        if sourceCall.isNone then (sourceName.bind fun name => state.locals.lookup name).getD .unknown else .unknown
    {state with locals := state.locals.insert target value}
  | _ => state

def joinTexts (separator : Text) (texts : List Text) : Text := separator.intercalate texts

def nonEmpty (text : Text) : Option Text := if (Idg.trim text).isEmpty then none else some (Idg.trim text)

def assignmentTraceRhs (sourceName sourceCall : Option Text) (sourceCallArgs sourceNames : List Text) : Option Text :=
  match sourceName.bind nonEmpty with
  | some name => some name
  | none =>
    match sourceCall.bind nonEmpty with
    | some call => some (call ++ "(".toList ++ joinTexts ", ".toList sourceCallArgs ++ ")".toList)
    | none =>
      if sourceNames ≠ [] then some (joinTexts " + ".toList sourceNames)
      else if sourceCallArgs ≠ [] then some (joinTexts ", ".toList sourceCallArgs)
      else none

def assignmentTraceMessage (kind : String) (target : Text) (sourceName sourceCall : Option Text)
    (sourceCallArgs sourceNames : List Text) : String :=
  match assignmentTraceRhs sourceName sourceCall sourceCallArgs sourceNames with
  | some rhs => kind ++ " " ++ String.ofList target ++ " = " ++ String.ofList rhs
  | none => kind ++ " " ++ String.ofList target

-- `render` is the derived debug text of an event.
def classifyEvent (render : FlowEvent → String) : FlowEvent → StepKind × String
  | .call _ name .. => (.call,"call " ++ String.ofList name)
  | .assign _ target sourceName sourceCall sourceCallArgs sourceNames _ _ =>
    (.assign,assignmentTraceMessage "assign" target sourceName sourceCall sourceCallArgs sourceNames)
  | .return .. => (.return,"return")
  | .throw .. => (.throw,"throw")
  | .await .. => (.await,"await")
  | .yield _ (some text) => (.yield,"yield " ++ String.ofList text)
  | .yield _ none => (.yield,"yield")
  | .break .. => (.diagnostic,"break")
  | .continue .. => (.diagnostic,"continue")
  | .lifecycle _ name transition => (.lifecycle,"lifecycle " ++ String.ofList name ++ " -> " ++ String.ofList transition)
  | other => (.diagnostic,render other)

structure Pending where
  block : BasicBlockId
  path : Nat
  state : ExecState

structure Interp where
  trace : RawTrace
  nextStep : Nat
  nextPath : Nat
  worklist : List Pending
  visits : AList fun _ : BasicBlockId × Nat => Nat
  incomingStates : Idg.IdMap ExecState
  branchesEmitted : Nat

section turns
variable (render : FlowEvent → String) (func : FuncId) (cfg : Graph) (limits : TraceLimits) (facts : List AssignmentValueFact)

-- An exhausted budget hands out the trace as it is.
def emit (run : Interp) (kind : StepKind) (path : Nat) (span : Span) (message : String) : Except RawTrace Interp :=
  if run.nextStep ≥ limits.maxSteps then .error (run.trace.markTruncated "max-steps")
  else .ok {run with
    trace := {run.trace with steps := run.trace.steps ++ [⟨run.nextStep,path,kind,span,func,message⟩]}
    nextStep := run.nextStep + 1}

def push (path : Nat) (state : ExecState) (run : Interp) (successor : BasicBlockId) : Interp :=
  {run with worklist := ⟨successor,path,{state with currentBb := successor}⟩ :: run.worklist}

-- The first successor inherits the path, the others get fresh ones.
def pushBranchSuccessor (path : Nat) (state : ExecState) (run : Interp) (successor : BasicBlockId × Nat) :
    Except RawTrace Interp :=
  let constrained := {state with pathConstraints := state.pathConstraints ++ [⟨s!"branch successor {successor.2}"⟩]}
  if successor.2 = 0 then .ok (push path constrained run successor.1)
  else if run.nextPath + 1 < 2 ^ 32 then
    .ok (push (run.nextPath + 1) constrained {run with nextPath := run.nextPath + 1} successor.1)
  else .error (run.trace.markTruncated "path-id-overflow")

def pushBranchSuccessors (successors : List BasicBlockId) (path : Nat) (state : ExecState) (run : Interp) :
    Except RawTrace Interp :=
  successors.zipIdx.foldlM (pushBranchSuccessor path state) run

def mergeIncoming (block : BasicBlock) (id : BasicBlockId) (path : Nat) (state : ExecState) (run : Interp) :
    Except RawTrace (ExecState × Interp) :=
  match run.incomingStates.lookup id with
  | some existing =>
    let (merged,changed) := existing.mergeFrom state
    let run := {run with incomingStates := run.incomingStates.insert id merged}
    if changed then do
      let run ← emit func limits run .merge path block.span "merge abstract state"
      return (merged,run)
    else return (state,run)
  | none => return (state,{run with incomingStates := run.incomingStates.insert id state})

def runEvent (path : Nat) (current : ExecState × Interp) (event : FlowEvent) : Except RawTrace (ExecState × Interp) := do
  let state := applyEvent facts current.1 event
  let (kind,message) := classifyEvent render event
  let run ← emit func limits current.2 kind path (eventSpan event) message
  return (state,run)

-- The counter of a release build wraps.
def chargeBranch (run : Interp) : Except RawTrace Interp :=
  let branchesEmitted := (run.branchesEmitted + 1) % 2 ^ 32
  if branchesEmitted > limits.maxBranches then .error (run.trace.markTruncated "max-branches")
  else .ok {run with branchesEmitted}

def leaveBlock (block : BasicBlock) (path : Nat) (state : ExecState) (run : Interp) : Except RawTrace Interp :=
  match block.terminator with
  | .fallthrough | .loopHeader | .return | .throw | .break | .continue =>
    .ok (block.successors.foldl (push path state) run)
  | .tryFork => do
    let run ← chargeBranch limits run
    pushBranchSuccessors block.successors path state run
  | .branch => do
    let run ← chargeBranch limits run
    let run ← emit func limits run .branchSplit path block.span "branch"
    pushBranchSuccessors block.successors path state run
  | .unreachable => .ok run

def runBlock (block : BasicBlock) (task : Pending) (run : Interp) : Except RawTrace Interp := do
  let state := {task.state with currentBb := task.block}
  let entered ← mergeIncoming func limits block task.block task.path state run
  let (state,run) ← block.events.foldlM (runEvent render func limits facts task.path) entered
  leaveBlock func limits block task.path state run

def visitCount (run : Interp) (key : BasicBlockId × Nat) : Nat := (run.visits.lookup key).getD 0

def useVisit (run : Interp) (task : Pending) (rest : List Pending) : Interp :=
  {run with
    worklist := rest
    visits := run.visits.insert (task.block,task.path) (visitCount run (task.block,task.path) + 1)}

def interpTurn (run : Interp) : Except RawTrace Interp :=
  match run.worklist with
  | [] => .error run.trace
  | task :: rest =>
    if visitCount run (task.block,task.path) ≥ limits.maxLoopIters then
      .ok {run with worklist := rest, trace := run.trace.markTruncated "max-loop-iters"}
    else
      match cfg.blocks[task.block]? with
      | none =>
        .ok {useVisit run task rest with
          trace := (useVisit run task rest).trace.markIncomplete ("cfg-missing-block:" ++ toString task.block)}
      | some block => runBlock render func limits facts block task (useVisit run task rest)

def cfgTrace : RawTrace :=
  let trace := cfg.analysisIncompleteReasons.foldl RawTrace.markIncomplete ⟨[],false,[],[]⟩
  if cfg.analysisComplete = false ∧ trace.incompleteReasons = [] then trace.markIncomplete "cfg-incomplete" else trace

def enterFunction (entryState : ExecState) : Except RawTrace Interp :=
  match cfg.blocks[cfg.entry]? with
  | none => .error ((cfgTrace cfg).markIncomplete "cfg-missing-entry")
  | some block =>
    emit func limits ⟨cfgTrace cfg,0,1,[⟨cfg.entry,1,entryState⟩],∅,∅,0⟩ .enterFunction 1 block.span ("enter " ++ toString func)

def runFrom (entryState : ExecState) (fuel : Nat) : Option RawTrace :=
  match enterFunction func cfg limits entryState with
  | .error trace => some trace
  | .ok run => runTurns (interpTurn render func cfg limits facts) fuel run

def runEntryWithAssignmentValues (fuel : Nat) : Option RawTrace :=
  runFrom render func cfg limits facts (.new func cfg.entry) fuel

def runEntry (fuel : Nat) : Option RawTrace := runEntryWithAssignmentValues render func cfg limits [] fuel

end turns
end BonsaiNinja.AbstractInterp
