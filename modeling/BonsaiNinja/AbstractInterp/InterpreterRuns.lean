import BonsaiNinja.AbstractInterp.Interpreter

namespace BonsaiNinja.AbstractInterp
open LangApi Library
open Cfg (BasicBlock BasicBlockId Graph eventSpan)

-- A trace that claims to be whole.
def RawTrace.Clean (trace : RawTrace) : Prop := trace.truncated = false ∧ trace.incompleteReasons = []

-- Steps are numbered from `0` on and stay within the budget.
structure Numbered (limits : TraceLimits) (trace : RawTrace) : Prop where
  ids : trace.steps.map (·.id) = List.range trace.steps.length
  bounded : trace.steps.length ≤ limits.maxSteps

structure Cut (limits : TraceLimits) (trace : RawTrace) : Prop extends Numbered limits trace where
  truncated : trace.truncated = true

structure Counted (limits : TraceLimits) (run : Interp) : Prop extends Numbered limits run.trace where
  next : run.nextStep = run.trace.steps.length

structure Grown (limits : TraceLimits) (run next : Interp) : Prop where
  counted : Counted limits next
  steps : ∀ step ∈ run.trace.steps, step ∈ next.trace.steps
  truncated : next.trace.truncated = run.trace.truncated
  reasons : next.trace.incompleteReasons = run.trace.incompleteReasons
  visits : next.visits = run.visits

structure Emitted (limits : TraceLimits) (run next : Interp) : Prop extends Grown limits run next where
  worklist : next.worklist = run.worklist
  nextPath : next.nextPath = run.nextPath

section parts
variable {render : FlowEvent → String} {func : FuncId} {limits : TraceLimits} {facts : List AssignmentValueFact}
  {run next last : Interp} {path : Nat} {state : ExecState} {block : BasicBlock}
variable {successors : List BasicBlockId} {pushed : List Pending}

theorem Emitted.start (counted : Counted limits run) : Emitted limits run run := ⟨⟨counted,fun _ => id,rfl,rfl,rfl⟩,rfl,rfl⟩

theorem Emitted.remember (counted : Counted limits run) (incomingStates : Idg.IdMap ExecState) :
    Emitted limits run {run with incomingStates} :=
  ⟨⟨⟨⟨counted.ids,counted.bounded⟩,counted.next⟩,fun _ => id,rfl,rfl,rfl⟩,rfl,rfl⟩

theorem Emitted.trans (first : Emitted limits run next) (second : Emitted limits next last) : Emitted limits run last where
  counted := second.counted
  steps step member := second.steps step (first.steps step member)
  truncated := second.truncated.trans first.truncated
  reasons := second.reasons.trans first.reasons
  visits := second.visits.trans first.visits
  worklist := second.worklist.trans first.worklist
  nextPath := second.nextPath.trans first.nextPath

theorem Numbered.cut (numbered : Numbered limits trace) (reason : String) : Cut limits (trace.markTruncated reason) :=
  ⟨⟨numbered.ids,numbered.bounded⟩,rfl⟩

theorem emit_ensures (counted : Counted limits run) (kind : StepKind) (span : Span) (message : String) :
    Ensures (fun next => Emitted limits run next ∧ ⟨run.nextStep,path,kind,span,func,message⟩ ∈ next.trace.steps)
      (Cut limits) (emit func limits run kind path span message) := by
  unfold emit
  split
  · exact counted.cut _
  · next room =>
    refine ⟨⟨⟨⟨⟨?_,?_⟩,?_⟩,fun step => List.mem_append_left _,rfl,rfl,rfl⟩,rfl,rfl⟩,List.mem_append_right _ List.mem_cons_self⟩
    · rw [List.map_append, List.length_append, counted.ids, List.map_singleton, List.length_singleton, List.range_succ, counted.next]
    · rw [List.length_append, List.length_singleton, ← counted.next]
      exact Nat.lt_of_not_le room
    · rw [List.length_append, List.length_singleton, ← counted.next]

theorem mergeIncoming_ensures (counted : Counted limits run) (id : BasicBlockId) :
    Ensures (fun entered => Emitted limits run entered.2) (Cut limits) (mergeIncoming func limits block id path state run) := by
  unfold mergeIncoming
  split
  · next existing _ =>
    have kept := Emitted.remember counted (run.incomingStates.insert id (existing.mergeFrom state).1)
    dsimp only
    split
    · exact (emit_ensures kept.counted _ _ _).bind fun next emitted => Ensures.pure (kept.trans emitted.1)
    · exact Ensures.pure kept
  · exact Ensures.pure (Emitted.remember counted _)

def Recorded (render : FlowEvent → String) (func : FuncId) (event : FlowEvent) (trace : RawTrace) : Prop :=
  ∃ step ∈ trace.steps, step.func = func ∧ step.span = eventSpan event ∧ (step.kind,step.message) = classifyEvent render event

theorem Recorded.grown {event : FlowEvent} (recorded : Recorded render func event run.trace) (grown : Grown limits run next) :
    Recorded render func event next.trace := by
  obtain ⟨step,member,stands⟩ := recorded
  exact ⟨step,grown.steps step member,stands⟩

theorem runEvents_ensures {entered : ExecState × Interp} (counted : Counted limits entered.2) (events : List FlowEvent) :
    Ensures (fun last : ExecState × Interp => Emitted limits entered.2 last.2 ∧ ∀ event ∈ events, Recorded render func event last.2.trace)
      (Cut limits) (events.foldlM (runEvent render func limits facts path) entered) := by
  refine Ensures.foldlM (fun done (last : ExecState × Interp) => Emitted limits entered.2 last.2 ∧
    ∀ event ∈ done, Recorded render func event last.2.trace) ?_ ⟨Emitted.start counted,fun _ member => absurd member List.not_mem_nil⟩
  intro done event rest current _ held
  unfold runEvent
  refine (emit_ensures held.1.counted _ _ _).bind fun next emitted => Ensures.pure ⟨held.1.trans emitted.1,?_⟩
  intro other member
  rcases List.mem_append.mp member with earlier | last
  · exact (held.2 other earlier).grown emitted.1.toGrown
  · rw [List.mem_singleton.mp last]
    exact ⟨_,emitted.2,rfl,rfl,rfl⟩

-- What a block leaves on the worklist: the tasks of its successors, on the path of
-- the block or on fresh ones.
structure Pushes (limits : TraceLimits) (run next : Interp) (successors : List BasicBlockId) (path : Nat)
    (pushed : List Pending) : Prop extends Grown limits run next where
  worklist : next.worklist = pushed ++ run.worklist
  blocks : pushed.map (·.block) = successors.reverse
  own : ∀ task ∈ pushed, task.path = path ∨ run.nextPath < task.path ∧ task.path ≤ next.nextPath
  nextPath : run.nextPath ≤ next.nextPath
  room : run.nextPath < 2 ^ 32 → next.nextPath < 2 ^ 32

theorem Pushes.nothing (counted : Counted limits run) (path : Nat) : Pushes limits run run [] path [] :=
  ⟨⟨counted,fun _ => id,rfl,rfl,rfl⟩,rfl,rfl,nofun,Nat.le_refl _,id⟩

theorem Pushes.after (emitted : Emitted limits run next)
    (pushes : Pushes limits next last successors path pushed) : Pushes limits run last successors path pushed where
  counted := pushes.counted
  steps step member := pushes.steps step (emitted.steps step member)
  truncated := pushes.truncated.trans emitted.truncated
  reasons := pushes.reasons.trans emitted.reasons
  visits := pushes.visits.trans emitted.visits
  worklist := by rw [pushes.worklist, emitted.worklist]
  blocks := pushes.blocks
  own task member := by
    rw [← emitted.nextPath]
    exact pushes.own task member
  nextPath := by
    rw [← emitted.nextPath]
    exact pushes.nextPath
  room := by
    rw [← emitted.nextPath]
    exact pushes.room

theorem Pushes.push {own nextPath : Nat}
    (pushes : Pushes limits run next successors path pushed) (successor : BasicBlockId) (current : ExecState)
    (chosen : own = path ∧ nextPath = next.nextPath ∨ own = nextPath ∧ nextPath = next.nextPath + 1 ∧ nextPath < 2 ^ 32) :
    Pushes limits run (push own current {next with nextPath} successor) (successors ++ [successor]) path
      (⟨successor,own,{current with currentBb := successor}⟩ :: pushed) where
  counted := ⟨⟨pushes.counted.ids,pushes.counted.bounded⟩,pushes.counted.next⟩
  steps := pushes.steps
  truncated := pushes.truncated
  reasons := pushes.reasons
  visits := pushes.visits
  worklist := congrArg (_ :: ·) pushes.worklist
  blocks := by rw [List.map_cons, pushes.blocks, List.reverse_append, List.reverse_singleton, List.singleton_append]
  own task member := by
    have lower := pushes.nextPath
    show task.path = path ∨ run.nextPath < task.path ∧ task.path ≤ nextPath
    rcases List.mem_cons.mp member with rfl | earlier
    · show own = path ∨ run.nextPath < own ∧ own ≤ nextPath
      omega
    · have known := pushes.own task earlier
      omega
  nextPath := by
    have lower := pushes.nextPath
    show run.nextPath ≤ nextPath
    omega
  room below := by
    have room := pushes.room below
    show nextPath < 2 ^ 32
    omega

section
variable (counted : Counted limits run)
include counted

theorem pushSuccessors_pushes (path : Nat) (state : ExecState) (successors : List BasicBlockId) :
    ∃ pushed, Pushes limits run (successors.foldl (push path state) run) successors path pushed := by
  have run_ : ∀ rest done next pushed, Pushes limits run next done path pushed →
      ∃ pushed, Pushes limits run (rest.foldl (push path state) next) (done ++ rest) path pushed := by
    intro rest
    induction rest with
    | nil =>
      intro done next pushed pushes
      rw [List.append_nil]
      exact ⟨pushed,pushes⟩
    | cons successor rest ih =>
      intro done next pushed pushes
      obtain ⟨all,result⟩ := ih (done ++ [successor]) _ _ (pushes.push successor state (.inl ⟨rfl,rfl⟩))
      rw [List.append_assoc] at result
      exact ⟨all,result⟩
  exact run_ successors [] run [] (Pushes.nothing counted path)

theorem pushBranchSuccessors_ensures (known : path ≤ run.nextPath)
    (successors : List BasicBlockId) :
    Ensures (fun next => ∃ pushed, Pushes limits run next successors path pushed ∧ (pushed.map (·.path)).Nodup)
      (Cut limits) (pushBranchSuccessors successors path state run) := by
  have held : Ensures (fun next => ∃ pushed, Pushes limits run next (successors.zipIdx.map (·.1)) path pushed ∧
      (pushed.map (·.path)).Nodup) (Cut limits) (pushBranchSuccessors successors path state run) := by
    refine Ensures.foldlM (fun (done : List (BasicBlockId × Nat)) next => ∃ pushed,
      Pushes limits run next (done.map (·.1)) path pushed ∧ (pushed.map (·.path)).Nodup) ?_ ⟨[],Pushes.nothing counted path,.nil⟩
    intro done row rest next split held
    obtain ⟨pushed,pushes,distinct⟩ := held
    -- The number of a successor is the number of successors in front of it.
    have position : row.2 = done.length := by
      have found := congrArg (·[done.length]?) split
      rw [List.getElem?_append_right (Nat.le_refl _), Nat.sub_self, List.getElem?_cons_zero, List.getElem?_zipIdx] at found
      obtain ⟨_,_,same⟩ := Option.map_eq_some_iff.mp found
      rw [← same, Nat.zero_add]
    have length : pushed.length = done.length := by
      have same := congrArg List.length pushes.blocks
      rwa [List.length_map, List.length_reverse, List.length_map] at same
    unfold pushBranchSuccessor
    rw [List.map_append, List.map_singleton]
    dsimp only
    split
    · next first =>
      have none : pushed = [] := List.length_eq_zero_iff.mp (by omega)
      subst none
      exact ⟨_,pushes.push row.1 _ (.inl ⟨rfl,rfl⟩),List.nodup_singleton _⟩
    · split
      · next room =>
        refine ⟨_,pushes.push row.1 _ (.inr ⟨rfl,rfl,room⟩),List.nodup_cons.mpr ⟨fun member => ?_,distinct⟩⟩
        obtain ⟨task,among,same⟩ := List.mem_map.mp member
        have below := pushes.own task among
        have lower := pushes.nextPath
        dsimp only at same
        omega
      · exact pushes.counted.cut _
  rwa [show successors.zipIdx.map (·.1) = successors from List.zipIdx_map_fst 0 successors] at held

def executable (block : BasicBlock) : List BasicBlockId :=
  if block.terminator = .unreachable then [] else block.successors

theorem chargeBranch_ensures :
    Ensures (fun next => Emitted limits run next) (Cut limits) (chargeBranch limits run) := by
  unfold chargeBranch
  dsimp only
  split
  · exact counted.cut _
  · exact ⟨⟨⟨⟨counted.ids,counted.bounded⟩,counted.next⟩,fun _ => id,rfl,rfl,rfl⟩,rfl,rfl⟩

theorem leaveBlock_ensures (known : path ≤ run.nextPath) :
    Ensures (fun next => ∃ pushed, Pushes limits run next (executable block) path pushed ∧
        (block.terminator = .branch ∨ block.terminator = .tryFork → (pushed.map (·.path)).Nodup))
      (Cut limits) (leaveBlock func limits block path state run) := by
  -- A branch pushes in front of a run that only emitted.
  have branches : ∀ next, Emitted limits run next → Ensures (fun last => ∃ pushed,
      Pushes limits run last block.successors path pushed ∧ (pushed.map (·.path)).Nodup) (Cut limits)
      (pushBranchSuccessors block.successors path state next) := by
    intro next emitted
    refine (pushBranchSuccessors_ensures emitted.counted (by rw [emitted.nextPath]; exact known) _).imp fun last held => ?_
    obtain ⟨pushed,pushes,distinct⟩ := held
    exact ⟨pushed,pushes.after emitted,distinct⟩
  have straight : block.terminator ≠ .branch → block.terminator ≠ .tryFork → block.terminator ≠ .unreachable →
      Ensures (fun next => ∃ pushed, Pushes limits run next (executable block) path pushed ∧
        (block.terminator = .branch ∨ block.terminator = .tryFork → (pushed.map (·.path)).Nodup))
      (Cut limits) (.ok (block.successors.foldl (push path state) run)) := by
    intro notBranch notFork left
    obtain ⟨pushed,pushes⟩ := pushSuccessors_pushes counted path state block.successors
    refine Ensures.ok ⟨pushed,?_,fun forks => absurd forks (by simp [notBranch, notFork])⟩
    rw [executable, if_neg left]
    exact pushes
  unfold leaveBlock
  cases ends : block.terminator with
  | branch =>
    rw [executable, ends, if_neg nofun]
    refine (chargeBranch_ensures counted).bind fun charged first => ?_
    refine (emit_ensures first.counted _ _ _).bind fun split second => ?_
    refine (branches split (first.trans second.1)).imp fun last held => ?_
    obtain ⟨pushed,pushes,distinct⟩ := held
    exact ⟨pushed,pushes,fun _ => distinct⟩
  | tryFork =>
    rw [executable, ends, if_neg nofun]
    refine (chargeBranch_ensures counted).bind fun charged first => ?_
    refine (branches charged first).imp fun last held => ?_
    obtain ⟨pushed,pushes,distinct⟩ := held
    exact ⟨pushed,pushes,fun _ => distinct⟩
  | unreachable =>
    rw [executable, ends, if_pos rfl]
    exact ⟨[],Pushes.nothing counted path,fun _ => .nil⟩
  | _ =>
    rw [ends] at straight
    exact straight nofun nofun nofun

theorem runBlock_ensures {task : Pending} (known : task.path ≤ run.nextPath) :
    Ensures (fun next => ∃ pushed, Pushes limits run next (executable block) task.path pushed ∧
        (block.terminator = .branch ∨ block.terminator = .tryFork → (pushed.map (·.path)).Nodup) ∧
        ∀ event ∈ block.events, Recorded render func event next.trace)
      (Cut limits) (runBlock render func limits facts block task run) := by
  unfold runBlock
  refine (mergeIncoming_ensures counted task.block).bind fun entered first => ?_
  refine (runEvents_ensures first.counted block.events).bind fun left second => ?_
  have emitted := first.trans second.1
  refine (leaveBlock_ensures second.1.counted (by rw [emitted.nextPath]; exact known)).imp fun next held => ?_
  obtain ⟨pushed,pushes,distinct⟩ := held
  exact ⟨pushed,pushes.after emitted,distinct,fun event member => (second.2 event member).grown pushes.toGrown⟩

end

end parts

def Leads (cfg : Graph) (a b : BasicBlockId) : Prop := ∃ block, cfg.blocks[a]? = some block ∧ b ∈ executable block

section runs
variable (render : FlowEvent → String) (func : FuncId) (cfg : Graph) (limits : TraceLimits) (facts : List AssignmentValueFact)
variable {trace : RawTrace} {task : Pending} {rest : List Pending} {block : BasicBlock}

def Covered (id : BasicBlockId) (trace : RawTrace) : Prop :=
  ∃ block, cfg.blocks[id]? = some block ∧ ∀ event ∈ block.events, Recorded render func event trace

-- What a result says: it is numbered, and it is whole unless it says otherwise.
structure Honest (trace : RawTrace) : Prop extends Numbered limits trace where
  complete : trace.Clean → ∀ id, Relation.ReflTransGen (Leads cfg) cfg.entry id → Covered render func cfg id trace

def Visited (run : Interp) (id : BasicBlockId) : Prop := ∃ path, 0 < visitCount run (id,path)

def Seen (run : Interp) (id : BasicBlockId) : Prop := Visited run id ∨ ∃ task ∈ run.worklist, task.block = id

structure Explored (run : Interp) : Prop where
  entry : Seen run cfg.entry
  covered : ∀ id, Visited run id → Covered render func cfg id run.trace
  left : ∀ a b, Visited run a → Leads cfg a b → Seen run b

def knownBlocks : List BasicBlockId := cfg.entry :: cfg.blocks.flatMap (·.successors)

def visitKeys : Finset (BasicBlockId × Nat) := (knownBlocks cfg).toFinset ×ˢ Finset.range (2 ^ 32)

structure Sound (run : Interp) : Prop extends Counted limits run where
  paths : ∀ task ∈ run.worklist, task.path ≤ run.nextPath
  room : run.nextPath < 2 ^ 32
  known : ∀ task ∈ run.worklist, task.block ∈ knownBlocks cfg
  explored : run.trace.Clean → Explored render func cfg run

def visitsLeft (run : Interp) : Nat := usesLeft (visitKeys cfg) limits.maxLoopIters (visitCount run)

def Forks (run next : Interp) : Prop :=
  ∃ task rest pushed, run.worklist = task :: rest ∧ next.worklist = pushed ++ rest ∧
    (pushed = [] ∨ ∃ block, cfg.blocks[task.block]? = some block ∧ pushed.map (·.block) = (executable block).reverse ∧
      (block.terminator = .branch ∨ block.terminator = .tryFork → (pushed.map (·.path)).Nodup))

structure Uses (run next : Interp) (task : Pending) : Prop where
  counts : ∀ other, visitCount next other =
    if other = (task.block,task.path) then visitCount run other + 1 else visitCount run other
  room : visitCount run (task.block,task.path) < limits.maxLoopIters

variable {render func cfg limits facts} {run next : Interp}

theorem cut_honest (cut : Cut limits trace) : Honest render func cfg limits trace :=
  ⟨cut.toNumbered,fun clean => absurd (clean.1.symm.trans cut.truncated) nofun⟩

theorem explored_honest (sound : Sound render func cfg limits run) (done : run.worklist = []) :
    Honest render func cfg limits run.trace := by
  refine ⟨sound.toNumbered,fun clean id reachable => ?_⟩
  have explored := sound.explored clean
  have visited : ∀ id, Seen run id → Visited run id := by
    intro id seen
    rcases seen with visited | ⟨task,member,_⟩
    · exact visited
    · rw [done] at member
      exact absurd member List.not_mem_nil
  refine explored.covered id ?_
  induction reachable with
  | refl => exact visited _ explored.entry
  | tail _ leads ih => exact visited _ (explored.left _ _ ih leads)

theorem visitCount_useVisit (other : BasicBlockId × Nat) :
    visitCount (useVisit run task rest) other =
      if other = (task.block,task.path) then visitCount run other + 1 else visitCount run other := by
  unfold useVisit
  rw [visitCount]
  by_cases same : other = (task.block,task.path)
  · rw [same, if_pos rfl, AList.lookup_insert, Option.getD_some]
  · rw [if_neg same, AList.lookup_insert_ne same, visitCount]

theorem known_of_executable {id successor : BasicBlockId} (found : cfg.blocks[id]? = some block)
    (member : successor ∈ executable block) : successor ∈ knownBlocks cfg := by
  refine List.mem_cons_of_mem _ (List.mem_flatMap.mpr ⟨block,List.mem_of_getElem? found,?_⟩)
  unfold executable at member
  split at member
  · exact absurd member List.not_mem_nil
  · exact member

theorem markIncomplete_steps (trace : RawTrace) (reason : String) : (trace.markIncomplete reason).steps = trace.steps := by
  unfold RawTrace.markIncomplete
  split <;> rfl

theorem markIncomplete_reasons (trace : RawTrace) {reason : String} (said : reason ≠ "") :
    (trace.markIncomplete reason).incompleteReasons ≠ [] := by
  unfold RawTrace.markIncomplete
  split
  · next known => exact List.ne_nil_of_mem (known.resolve_left said)
  · simp

theorem Uses.lower (sound : Sound render func cfg limits run) (member : task ∈ run.worklist)
    (uses : Uses limits run next task) : visitsLeft cfg limits next < visitsLeft cfg limits run := by
  refine usesLeft_use (?_ : (task.block,task.path) ∈ visitKeys cfg) uses.room ?_ fun other differs => ?_
  · have below := sound.paths task member
    have room := sound.room
    exact Finset.mem_product.mpr ⟨List.mem_toFinset.mpr (sound.known task member),Finset.mem_range.mpr (by omega)⟩
  · rw [uses.counts, if_pos rfl]
  · rw [uses.counts, if_neg differs]

theorem Uses.visited (uses : Uses limits run next task) (id : BasicBlockId) :
    Visited next id ↔ Visited run id ∨ id = task.block := by
  constructor
  · intro visited
    obtain ⟨path,some⟩ := visited
    rw [uses.counts] at some
    split at some
    · next same => exact .inr (congrArg Prod.fst same)
    · exact .inl ⟨path,some⟩
  · intro either
    rcases either with ⟨path,some⟩ | rfl
    · refine ⟨path,?_⟩
      rw [uses.counts]
      split <;> omega
    · refine ⟨task.path,?_⟩
      rw [uses.counts, if_pos rfl]
      exact Nat.succ_pos _

theorem explored_pushes {pushed : List Pending}
    (explored : Explored render func cfg run) (worklist : run.worklist = task :: rest)
    (uses : Uses limits run next task) (found : cfg.blocks[task.block]? = some block)
    (steps : ∀ step ∈ run.trace.steps, step ∈ next.trace.steps) (left : next.worklist = pushed ++ rest)
    (blocks : pushed.map (·.block) = (executable block).reverse)
    (recorded : ∀ event ∈ block.events, Recorded render func event next.trace) : Explored render func cfg next := by
  have seen : ∀ id, Seen run id → Seen next id := by
    intro id before
    rcases before with visited | ⟨waiting,member,rfl⟩
    · exact .inl ((uses.visited id).mpr (.inl visited))
    · rw [worklist] at member
      rcases List.mem_cons.mp member with same | later
      · exact .inl ((uses.visited _).mpr (.inr (congrArg Pending.block same)))
      · refine .inr ⟨waiting,?_,rfl⟩
        rw [left]
        exact List.mem_append_right _ later
  refine ⟨seen _ explored.entry,fun id visited => ?_,fun a b visited leads => ?_⟩
  · rcases (uses.visited id).mp visited with before | rfl
    · obtain ⟨other,found',held⟩ := explored.covered id before
      refine ⟨other,found',fun event member => ?_⟩
      obtain ⟨step,among,stands⟩ := held event member
      exact ⟨step,steps step among,stands⟩
    · exact ⟨block,found,recorded⟩
  · rcases (uses.visited a).mp visited with before | rfl
    · exact seen b (explored.left a b before leads)
    · obtain ⟨other,found',member⟩ := leads
      rw [found] at found'
      cases found'
      rw [← List.mem_reverse, ← blocks] at member
      obtain ⟨waiting,among,same⟩ := List.mem_map.mp member
      refine .inr ⟨waiting,?_,same⟩
      rw [left]
      exact List.mem_append_left _ among

theorem interpTurn_ensures (facts : List AssignmentValueFact) (sound : Sound render func cfg limits run) :
    Ensures (fun next => Sound render func cfg limits next ∧ Forks cfg run next ∧
        (visitsLeft cfg limits next < visitsLeft cfg limits run ∨
          visitsLeft cfg limits next = visitsLeft cfg limits run ∧ next.worklist.length < run.worklist.length))
      (Honest render func cfg limits) (interpTurn render func cfg limits facts run) := by
  unfold interpTurn
  cases worklist : run.worklist with
  | nil => exact explored_honest sound worklist
  | cons task rest =>
    have among : task ∈ run.worklist := by rw [worklist]; exact List.mem_cons_self
    have later : ∀ other ∈ rest, other ∈ run.worklist := fun other member => by
      rw [worklist]
      exact List.mem_cons_of_mem _ member
    have below := sound.paths task among
    dsimp only
    split
    · -- The visits of the task are used up.
      refine Ensures.ok ⟨⟨⟨⟨sound.ids,sound.bounded⟩,sound.next⟩,fun other member => sound.paths other (later other member),
        sound.room,fun other member => sound.known other (later other member),fun clean => absurd clean.1 nofun⟩,?_,?_⟩
      · exact ⟨task,rest,[],worklist,rfl,.inl rfl⟩
      · refine .inr ⟨rfl,?_⟩
        rw [List.length_cons]
        exact Nat.lt_succ_self _
    · next room =>
      have uses : ∀ next : Interp, next.visits = (useVisit run task rest).visits → Uses limits run next task := by
        intro next same
        refine ⟨fun other => ?_,Nat.lt_of_not_le room⟩
        rw [visitCount, same]
        exact visitCount_useVisit other
      have counted : Counted limits (useVisit run task rest) := ⟨⟨sound.ids,sound.bounded⟩,sound.next⟩
      split
      · -- A block that does not exist is reported.
        have said : "cfg-missing-block:" ++ toString task.block ≠ "" := by
          rw [Ne, String.append_eq_empty_iff]
          exact fun empty => absurd empty.1 (by decide)
        refine Ensures.ok ⟨⟨⟨⟨?_,?_⟩,?_⟩,fun other member => sound.paths other (later other member),sound.room,
          fun other member => sound.known other (later other member),fun clean => absurd clean.2 (markIncomplete_reasons _ said)⟩,
          ⟨task,rest,[],worklist,rfl,.inl rfl⟩,.inl (Uses.lower sound among (uses _ rfl))⟩
        · rw [markIncomplete_steps]
          exact counted.ids
        · rw [markIncomplete_steps]
          exact counted.bounded
        · rw [markIncomplete_steps]
          exact counted.next
      · next block found =>
        refine ((runBlock_ensures counted below).ending fun _ => cut_honest).imp fun next held => ?_
        obtain ⟨pushed,pushes,distinct,recorded⟩ := held
        have used := uses next pushes.visits
        have left : next.worklist = pushed ++ rest := pushes.worklist
        have higher : run.nextPath ≤ next.nextPath := pushes.nextPath
        refine ⟨⟨pushes.counted,fun other member => ?_,pushes.room sound.room,fun other member => ?_,fun clean => ?_⟩,
          ⟨task,rest,pushed,worklist,left,.inr ⟨block,found,pushes.blocks,distinct⟩⟩,.inl (used.lower sound among)⟩
        · rw [left] at member
          rcases List.mem_append.mp member with new | old
          · have own : other.path = task.path ∨ run.nextPath < other.path ∧ other.path ≤ next.nextPath := pushes.own other new
            omega
          · exact (sound.paths other (later other old)).trans higher
        · rw [left] at member
          rcases List.mem_append.mp member with new | old
          · have mapped := List.mem_map_of_mem (f := Pending.block) new
            rw [pushes.blocks, List.mem_reverse] at mapped
            exact known_of_executable found mapped
          · exact sound.known other (later other old)
        · have before : run.trace.Clean := by
            rw [RawTrace.Clean, pushes.truncated, pushes.reasons] at clean
            exact clean
          exact explored_pushes (sound.explored before) worklist used found pushes.steps left pushes.blocks recorded

theorem cfgTrace_steps : (cfgTrace cfg).steps = [] := by
  have folded : ∀ (reasons : List String) trace, (reasons.foldl RawTrace.markIncomplete trace).steps = trace.steps := by
    intro reasons
    induction reasons with
    | nil => exact fun _ => rfl
    | cons first rest ih => exact fun trace => (ih _).trans (markIncomplete_steps trace first)
  unfold cfgTrace
  dsimp only
  split
  · rw [markIncomplete_steps, folded]
  · exact folded _ _

theorem numbered_empty (empty : trace.steps = []) : Numbered limits trace := by
  refine ⟨?_,?_⟩
  · rw [empty]
    rfl
  · rw [empty]
    exact Nat.zero_le _

theorem enterFunction_ensures (entryState : ExecState) : Ensures (Sound render func cfg limits)
    (Honest render func cfg limits) (enterFunction func cfg limits entryState) := by
  unfold enterFunction
  split
  · refine ⟨numbered_empty ?_,fun clean => absurd clean.2 (markIncomplete_reasons _ (by decide))⟩
    rw [markIncomplete_steps, cfgTrace_steps]
  · next block found =>
    have counted : Counted limits ⟨cfgTrace cfg,0,1,[⟨cfg.entry,1,entryState⟩],∅,∅,0⟩ :=
      ⟨numbered_empty cfgTrace_steps,by rw [cfgTrace_steps]; rfl⟩
    refine ((emit_ensures counted _ _ _).ending fun _ => cut_honest).imp fun run held => ?_
    have emitted := held.1
    have single : ∀ task ∈ run.worklist, task = ⟨cfg.entry,1,entryState⟩ := by
      rw [emitted.worklist]
      exact fun task member => List.mem_singleton.mp member
    have unvisited : ∀ id, ¬Visited run id := by
      intro id visited
      obtain ⟨path,some⟩ := visited
      rw [visitCount, emitted.visits] at some
      exact absurd some (Nat.lt_irrefl 0)
    refine ⟨emitted.counted,fun task member => ?_,?_,fun task member => ?_,fun _ => ⟨?_,?_,?_⟩⟩
    · rw [single task member, emitted.nextPath]
    · rw [emitted.nextPath]
      exact Nat.one_lt_two_pow (by decide)
    · rw [single task member]
      exact List.mem_cons_self
    · refine .inr ⟨⟨cfg.entry,1,entryState⟩,?_,rfl⟩
      rw [emitted.worklist]
      exact List.mem_cons_self
    · exact fun id visited => absurd visited (unvisited id)
    · exact fun a b visited => absurd visited (unvisited a)

theorem interpTurn_sound (sound : Sound render func cfg limits run) (went : interpTurn render func cfg limits facts run = .ok next) :
    Sound render func cfg limits next := by
  have ensures := interpTurn_ensures facts sound
  rw [went] at ensures
  exact ensures.1

end runs

structure Bounded (render : FlowEvent → String) (func : FuncId) (cfg : Graph) (limits : TraceLimits)
    (facts : List AssignmentValueFact) (entryState : ExecState) : Prop where
  ends : ∃ fuel trace, ∀ more, fuel ≤ more → runFrom render func cfg limits facts entryState more = some trace
  honest : ∀ fuel trace, runFrom render func cfg limits facts entryState fuel = some trace → Honest render func cfg limits trace
  forks : ∀ start run next, enterFunction func cfg limits entryState = .ok start →
    Passes (interpTurn render func cfg limits facts) start run → interpTurn render func cfg limits facts run = .ok next →
    Forks cfg run next

-- `runEntry` starts from a fresh state, with no facts.
theorem interpretation_bounded (render : FlowEvent → String) (func : FuncId) (cfg : Graph) (limits : TraceLimits)
    (facts : List AssignmentValueFact) (entryState : ExecState) : Bounded render func cfg limits facts entryState := by
  have entered : Ensures (Sound render func cfg limits) (Honest render func cfg limits)
      (enterFunction func cfg limits entryState) := enterFunction_ensures entryState
  have kept : ∀ run next, Sound render func cfg limits run → interpTurn render func cfg limits facts run = .ok next →
      Sound render func cfg limits next := fun run next => interpTurn_sound
  refine ⟨?_,fun fuel trace ended => ?_,fun start run next began passes went => ?_⟩
  · unfold runFrom
    cases began : enterFunction func cfg limits entryState with
    | error trace => exact ⟨0,trace,fun _ _ => rfl⟩
    | ok start =>
      rw [began] at entered
      obtain ⟨fuel,trace,ended⟩ := runTurns_ends (visitsLeft cfg limits) (fun run => run.worklist.length) kept
        (fun run next sound went => by
          have ensures := interpTurn_ensures facts sound
          rw [went] at ensures
          exact ensures.2.2) entered
      exact ⟨fuel,trace,fun more enough => runTurns_more ended enough⟩
  · unfold runFrom at ended
    cases began : enterFunction func cfg limits entryState with
    | error result =>
      rw [began] at ended entered
      cases ended
      exact entered
    | ok start =>
      rw [began] at ended entered
      refine runTurns_holds kept (fun run result sound went => ?_) entered ended
      have ensures := interpTurn_ensures facts sound
      rw [went] at ensures
      exact ensures
  · rw [began] at entered
    have ensures := interpTurn_ensures facts (passes.holds kept entered)
    rw [went] at ensures
    exact ensures.2.1

end BonsaiNinja.AbstractInterp
