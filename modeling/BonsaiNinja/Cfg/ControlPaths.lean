import BonsaiNinja.Cfg.StructuredRuns

namespace BonsaiNinja.Cfg
open Library LangApi

-- What paths need of a block: its events, its successors, and whether it ends the
-- function when it has none.
structure Node where
  events : List FlowEvent
  successors : List BasicBlockId
  returns : Bool

def nodeOf (block : BasicBlock) : Node :=
  ⟨block.events,block.successors,decide (block.terminator = .return ∨ block.terminator = .throw)⟩

abbrev View := BasicBlockId → Option Node

def viewOf (blocks : Blocks) : View := fun id => blocks[id]?.map nodeOf

def Finishes (exit id : BasicBlockId) (node : Node) : Prop := id = exit ∨ node.successors = [] ∧ node.returns = true

inductive PathFrom (view : View) (exit : BasicBlockId) : BasicBlockId → List FlowEvent → Prop
  | finish {id : BasicBlockId} {node : Node} : view id = some node → Finishes exit id node → PathFrom view exit id node.events
  | step {id next : BasicBlockId} {node : Node} {later : List FlowEvent} : view id = some node → next ∈ node.successors →
    PathFrom view exit next later → PathFrom view exit id (node.events ++ later)

def cfgTraces (graph : Graph) (trace : List FlowEvent) : Prop :=
  PathFrom (viewOf graph.blocks) graph.exit graph.entry trace

-- Paths of at most so many steps that begin behind the first events of a block.
def From (view : View) (exit : BasicBlockId) : Nat → BasicBlockId → Nat → List FlowEvent → Prop
  | 0, id, start, trace => ∃ node, view id = some node ∧ Finishes exit id node ∧ trace = node.events.drop start
  | steps + 1, id, start, trace => ∃ node, view id = some node ∧ (Finishes exit id node ∧ trace = node.events.drop start ∨
    ∃ next ∈ node.successors, ∃ later, trace = node.events.drop start ++ later ∧ From view exit steps next 0 later)

section paths
variable {view : View} {exit : BasicBlockId} {steps id start : Nat} {trace : List FlowEvent}

theorem From.succ (path : From view exit steps id start trace) : From view exit (steps + 1) id start trace := by
  induction steps generalizing id start trace with
  | zero =>
    obtain ⟨node,found,finish,same⟩ := path
    exact ⟨node,found,.inl ⟨finish,same⟩⟩
  | succ steps ih =>
    obtain ⟨node,found,finish | ⟨next,member,later,same,rest⟩⟩ := path
    · exact ⟨node,found,.inl finish⟩
    · exact ⟨node,found,.inr ⟨next,member,later,same,ih rest⟩⟩

theorem From.mono {more : Nat} (path : From view exit steps id start trace) (enough : steps ≤ more) :
    From view exit more id start trace := by
  induction enough with
  | refl => exact path
  | step _ ih => exact ih.succ

theorem pathFrom_iff : PathFrom view exit id trace ↔ ∃ steps, From view exit steps id 0 trace := by
  constructor
  · intro path
    induction path with
    | finish found finish => exact ⟨0,_,found,finish,rfl⟩
    | step found member _ ih =>
      obtain ⟨steps,rest⟩ := ih
      exact ⟨steps + 1,_,found,.inr ⟨_,member,_,rfl,rest⟩⟩
  · intro path
    obtain ⟨steps,path⟩ := path
    induction steps generalizing id trace with
    | zero =>
      obtain ⟨node,found,finish,rfl⟩ := path
      exact .finish found finish
    | succ steps ih =>
      obtain ⟨node,found,⟨finish,rfl⟩ | ⟨next,member,later,rfl,rest⟩⟩ := path
      · exact .finish found finish
      · exact .step found member (ih rest)

def EventAt (view : View) (id start : Nat) (event : FlowEvent) : Prop :=
  ∃ node, view id = some node ∧ node.events[start]? = some event

def Ends (view : View) (exit id start : Nat) (successors : List BasicBlockId) : Prop :=
  id ≠ exit ∧ ∃ node, view id = some node ∧ node.events.length = start ∧ node.successors = successors ∧ successors ≠ []

def Stops (view : View) (id start : Nat) : Prop :=
  ∃ node, view id = some node ∧ node.events.length = start ∧ node.successors = [] ∧ node.returns = true

def ExitEmpty (view : View) (exit : BasicBlockId) : Prop :=
  ∃ node, view exit = some node ∧ node.events = [] ∧ node.successors = []

theorem EventAt.from_iff {event : FlowEvent} (at_ : EventAt view id start event) : From view exit steps id start trace ↔
    ∃ later, trace = event :: later ∧ From view exit steps id (start + 1) later := by
  obtain ⟨node,found,present⟩ := at_
  obtain ⟨inside,same⟩ := List.getElem?_eq_some_iff.mp present
  have split : node.events.drop start = event :: node.events.drop (start + 1) := by
    rw [List.drop_eq_getElem_cons inside, same]
  cases steps with
  | zero =>
    constructor
    · intro path
      obtain ⟨other,found',finish,rfl⟩ := path
      cases found.symm.trans found'
      exact ⟨_,split,node,found,finish,rfl⟩
    · intro path
      obtain ⟨later,rfl,other,found',finish,rfl⟩ := path
      cases found.symm.trans found'
      exact ⟨node,found,finish,split.symm⟩
  | succ steps =>
    constructor
    · intro path
      obtain ⟨other,found',⟨finish,rfl⟩ | ⟨next,member,later,rfl,rest⟩⟩ := path
      · cases found.symm.trans found'
        exact ⟨_,split,node,found,.inl ⟨finish,rfl⟩⟩
      · cases found.symm.trans found'
        exact ⟨node.events.drop (start + 1) ++ later,by rw [split]; rfl,node,found,.inr ⟨next,member,later,rfl,rest⟩⟩
    · intro path
      obtain ⟨_,rfl,other,found',⟨finish,rfl⟩ | ⟨next,member,later,rfl,rest⟩⟩ := path
      · cases found.symm.trans found'
        exact ⟨node,found,.inl ⟨finish,split.symm⟩⟩
      · cases found.symm.trans found'
        exact ⟨node,found,.inr ⟨next,member,later,by rw [split]; rfl,rest⟩⟩

theorem Ends.from_iff {successors : List BasicBlockId} (ends : Ends view exit id start successors) :
    From view exit steps id start trace ↔ ∃ fewer, steps = fewer + 1 ∧ ∃ next ∈ successors, From view exit fewer next 0 trace := by
  obtain ⟨inner,node,found,length,same,occupied⟩ := ends
  have empty : node.events.drop start = [] := List.drop_of_length_le length.le
  have open_ : ¬Finishes exit id node := by
    intro finish
    rcases finish with last | ⟨none,_⟩
    · exact inner last
    · exact occupied (same.symm.trans none)
  cases steps with
  | zero =>
    refine iff_of_false (fun path => ?_) (fun path => ?_)
    · obtain ⟨other,found',finish,_⟩ := path
      cases found.symm.trans found'
      exact open_ finish
    · obtain ⟨fewer,impossible,_⟩ := path
      exact absurd impossible (Nat.succ_ne_zero fewer).symm
  | succ steps =>
    constructor
    · intro path
      obtain ⟨other,found',⟨finish,_⟩ | ⟨next,member,later,rfl,rest⟩⟩ := path
      · cases found.symm.trans found'
        exact absurd finish open_
      · cases found.symm.trans found'
        exact ⟨steps,rfl,next,by rw [← same]; exact member,by rw [empty]; exact rest⟩
    · intro path
      obtain ⟨fewer,equal,next,member,rest⟩ := path
      cases equal
      exact ⟨node,found,.inr ⟨next,by rw [same]; exact member,trace,by rw [empty]; rfl,rest⟩⟩

theorem Stops.from_iff (stops : Stops view id start) : From view exit steps id start trace ↔ trace = [] := by
  obtain ⟨node,found,length,none,returns⟩ := stops
  have empty : node.events.drop start = [] := List.drop_of_length_le length.le
  have finish : Finishes exit id node := .inr ⟨none,returns⟩
  cases steps with
  | zero =>
    constructor
    · intro path
      obtain ⟨other,found',_,rfl⟩ := path
      cases found.symm.trans found'
      exact empty
    · intro same
      exact ⟨node,found,finish,by rw [empty]; exact same⟩
  | succ steps =>
    constructor
    · intro path
      obtain ⟨other,found',⟨_,rfl⟩ | ⟨next,member,_⟩⟩ := path
      · cases found.symm.trans found'
        exact empty
      · cases found.symm.trans found'
        rw [none] at member
        cases member
    · intro same
      exact ⟨node,found,.inl ⟨finish,by rw [empty]; exact same⟩⟩

theorem ExitEmpty.from_iff (empty : ExitEmpty view exit) : From view exit steps exit 0 trace ↔ trace = [] := by
  obtain ⟨node,found,events,none⟩ := empty
  cases steps with
  | zero =>
    constructor
    · intro path
      obtain ⟨other,found',_,rfl⟩ := path
      cases found.symm.trans found'
      rw [events]
      rfl
    · intro same
      exact ⟨node,found,.inl rfl,by rw [events]; exact same⟩
  | succ steps =>
    constructor
    · intro path
      obtain ⟨other,found',⟨_,rfl⟩ | ⟨next,member,_⟩⟩ := path
      · cases found.symm.trans found'
        rw [events]
        rfl
      · cases found.symm.trans found'
        rw [none] at member
        cases member
    · intro same
      exact ⟨node,found,.inl ⟨.inl rfl,by rw [events]; exact same⟩⟩

end paths

def destination (exit : BasicBlockId) (loopTargets : List LoopTargets) : Outcome → BasicBlockId × Nat
  | .break loop => loopTargets[loop]?.elim (exit,0) fun target => (target.breakTo,target.retainedFinallyDepth)
  | .continue loop => loopTargets[loop]?.elim (exit,0) fun target => (target.continueTo,target.retainedFinallyDepth)
  | _ => (exit,0)

def Lands (view : View) (exit : BasicBlockId) (steps : Nat) (target : BasicBlockId) (trace : List FlowEvent) : Prop :=
  target = exit ∧ trace = [] ∨ ∃ fewer, steps = fewer + 1 ∧ From view exit fewer target 0 trace

-- The rest of a path that leaves for a destination through the finally bodies it
-- does not retain; an abrupt one of them leaves the function instead.
def Leaves (view : View) (exit : BasicBlockId) (steps : Nat) : List FinallyFrame → BasicBlockId × Nat → List FlowEvent → Prop
  | [], target, trace => Lands view exit steps target.1 trace
  | frame :: pendingFinally, target, trace =>
    pendingFinally.length < target.2 ∧ Lands view exit steps target.1 trace ∨
    target.2 ≤ pendingFinally.length ∧ ∃ before after outcome, trace = before ++ after ∧
      runsAll [] frame.events before outcome ∧
      Leaves view exit steps pendingFinally (if outcome = .normal then target else (exit,0)) after

def Continues (view : View) (exit : BasicBlockId) (loopTargets : List LoopTargets) (pendingFinally : List FinallyFrame)
    (steps tail stop : Nat) (outcome : Outcome) (trace : List FlowEvent) : Prop :=
  if outcome = .normal then From view exit steps tail stop trace
  else Leaves view exit steps pendingFinally (destination exit loopTargets outcome) trace

-- The paths from a position are the runs of a behaviour, each continued as its
-- outcome says.
structure Follows (view : View) (exit : BasicBlockId) (loopTargets : List LoopTargets) (pendingFinally : List FinallyFrame)
    (id start : Nat) (behaviour : Behaviour FlowEvent) (tail stop : Nat) : Prop where
  sound : ∀ steps trace, From view exit steps id start trace → ∃ before after outcome fewer, fewer ≤ steps ∧
    trace = before ++ after ∧ behaviour before outcome ∧
    Continues view exit loopTargets pendingFinally fewer tail stop outcome after
  complete : ∀ before after outcome steps, behaviour before outcome →
    Continues view exit loopTargets pendingFinally steps tail stop outcome after →
    ∃ more, From view exit more id start (before ++ after)

structure Leaving (view : View) (exit : BasicBlockId) (pendingFinally : List FinallyFrame) (id start : Nat)
    (target : BasicBlockId × Nat) : Prop where
  sound : ∀ steps trace, From view exit steps id start trace → Leaves view exit steps pendingFinally target trace
  complete : ∀ steps trace, Leaves view exit steps pendingFinally target trace → ∃ more, From view exit more id start trace

section rules
variable {view : View} {exit : BasicBlockId} {loopTargets : List LoopTargets} {pendingFinally : List FinallyFrame}
  {id start steps tail stop : Nat} {trace : List FlowEvent} {target : BasicBlockId × Nat} {behaviour : Behaviour FlowEvent}
variable {next : BasicBlockId}
variable {outcome : Outcome}

theorem Lands.mono {more target : Nat} (lands : Lands view exit steps target trace) (enough : steps ≤ more) :
    Lands view exit more target trace := by
  rcases lands with arrived | ⟨fewer,rfl,path⟩
  · exact .inl arrived
  · exact .inr ⟨more - 1,by omega,path.mono (by omega)⟩

theorem Leaves.mono {more : Nat} (leaves : Leaves view exit steps pendingFinally target trace) (enough : steps ≤ more) :
    Leaves view exit more pendingFinally target trace := by
  induction pendingFinally generalizing target trace with
  | nil => exact Lands.mono leaves enough
  | cons frame pendingFinally ih =>
    rcases leaves with ⟨retained,lands⟩ | ⟨left,before,after,outcome,same,ran,rest⟩
    · exact .inl ⟨retained,lands.mono enough⟩
    · exact .inr ⟨left,before,after,outcome,same,ran,ih rest⟩

theorem leaves_arrives (retained : pendingFinally.length ≤ target.2) :
    Leaves view exit steps pendingFinally target trace ↔ Lands view exit steps target.1 trace := by
  cases pendingFinally with
  | nil => exact Iff.rfl
  | cons frame pendingFinally =>
    have inside : pendingFinally.length < target.2 := retained
    constructor
    · intro leaves
      rcases leaves with ⟨_,lands⟩ | ⟨left,_⟩
      · exact lands
      · omega
    · exact fun lands => .inl ⟨inside,lands⟩

theorem leaves_cons {frame : FinallyFrame} (left : target.2 ≤ pendingFinally.length) :
    Leaves view exit steps (frame :: pendingFinally) target trace ↔ ∃ before after outcome, trace = before ++ after ∧
      runsAll [] frame.events before outcome ∧
      Leaves view exit steps pendingFinally (if outcome = .normal then target else (exit,0)) after := by
  constructor
  · intro leaves
    rcases leaves with ⟨retained,_⟩ | ⟨_,found⟩
    · omega
    · exact found
  · exact fun found => .inr ⟨left,found⟩

theorem continues_normal : Continues view exit loopTargets pendingFinally steps tail stop .normal trace ↔
    From view exit steps tail stop trace := by
  rw [Continues, if_pos rfl]

theorem continues_abrupt (abrupt : outcome ≠ .normal) :
    Continues view exit loopTargets pendingFinally steps tail stop outcome trace ↔
      Leaves view exit steps pendingFinally (destination exit loopTargets outcome) trace := by
  rw [Continues, if_neg abrupt]

theorem exit_abrupt : Outcome.exit ≠ .normal := nofun

theorem continues_exit : Continues view exit loopTargets pendingFinally steps tail stop .exit trace ↔
    Leaves view exit steps pendingFinally (exit,0) trace := continues_abrupt exit_abrupt

theorem Follows.skip : Follows view exit loopTargets pendingFinally id start .skip id start where
  sound steps trace path := ⟨[],trace,.normal,steps,Nat.le_refl _,rfl,⟨rfl,rfl⟩,continues_normal.mpr path⟩
  complete before after outcome steps ran continues := by
    obtain ⟨rfl,rfl⟩ := ran
    exact ⟨steps,continues_normal.mp continues⟩

theorem Follows.andThen {first next : Behaviour FlowEvent} {middle pause : Nat}
    (left : Follows view exit loopTargets pendingFinally id start first middle pause)
    (right : Follows view exit loopTargets pendingFinally middle pause next tail stop) :
    Follows view exit loopTargets pendingFinally id start (first.andThen next) tail stop where
  sound steps trace path := by
    obtain ⟨before,after,outcome,fewer,enough,rfl,ran,continues⟩ := left.sound steps trace path
    by_cases normal : outcome = .normal
    · rw [normal] at ran continues
      obtain ⟨before',after',outcome',fewer',enough',rfl,ran',continues'⟩ :=
        right.sound fewer after (continues_normal.mp continues)
      exact ⟨before ++ before',after',outcome',fewer',enough'.trans enough,(List.append_assoc _ _ _).symm,
        .inr ⟨before,before',rfl,ran,ran'⟩,continues'⟩
    · refine ⟨before,after,outcome,fewer,enough,rfl,.inl ⟨ran,normal⟩,?_⟩
      rw [continues_abrupt normal] at continues ⊢
      exact continues
  complete before after outcome steps ran continues := by
    rcases ran with ⟨abrupt,normal⟩ | ⟨before,middle,rfl,ran,ran'⟩
    · refine left.complete before after outcome steps abrupt ?_
      rw [continues_abrupt normal] at continues ⊢
      exact continues
    · obtain ⟨more,path⟩ := right.complete middle after outcome steps ran' continues
      obtain ⟨most,whole⟩ := left.complete before (middle ++ after) .normal more ran (continues_normal.mpr path)
      exact ⟨most,by rw [List.append_assoc]; exact whole⟩

theorem Follows.emit {event : FlowEvent} (at_ : EventAt view id start event) :
    Follows view exit loopTargets pendingFinally id start (.emit event) id (start + 1) where
  sound steps trace path := by
    obtain ⟨later,rfl,rest⟩ := at_.from_iff.mp path
    exact ⟨[event],later,.normal,steps,Nat.le_refl _,rfl,⟨rfl,rfl⟩,continues_normal.mpr rest⟩
  complete before after outcome steps ran continues := by
    obtain ⟨rfl,rfl⟩ := ran
    exact ⟨steps,at_.from_iff.mpr ⟨after,rfl,continues_normal.mp continues⟩⟩

theorem Follows.step (ends : Ends view exit id start [next])
    (follows : Follows view exit loopTargets pendingFinally next 0 behaviour tail stop) :
    Follows view exit loopTargets pendingFinally id start behaviour tail stop where
  sound steps trace path := by
    obtain ⟨fewer,rfl,other,member,rest⟩ := ends.from_iff.mp path
    cases List.mem_singleton.mp member
    obtain ⟨before,after,outcome,least,enough,found⟩ := follows.sound fewer trace rest
    exact ⟨before,after,outcome,least,enough.trans (Nat.le_succ _),found⟩
  complete before after outcome steps ran continues := by
    obtain ⟨more,path⟩ := follows.complete before after outcome steps ran continues
    exact ⟨more + 1,ends.from_iff.mpr ⟨more,rfl,next,List.mem_singleton_self _,path⟩⟩

-- A tail that goes on to the start of another block.
theorem Follows.link (follows : Follows view exit loopTargets pendingFinally id start behaviour tail stop)
    (ends : Ends view exit tail stop [next]) :
    Follows view exit loopTargets pendingFinally id start behaviour next 0 where
  sound steps trace path := by
    obtain ⟨before,after,outcome,fewer,enough,same,ran,continues⟩ := follows.sound steps trace path
    by_cases normal : outcome = .normal
    · subst normal
      obtain ⟨least,rfl,other,member,rest⟩ := ends.from_iff.mp (continues_normal.mp continues)
      cases List.mem_singleton.mp member
      exact ⟨before,after,.normal,least,by omega,same,ran,continues_normal.mpr rest⟩
    · refine ⟨before,after,outcome,fewer,enough,same,ran,?_⟩
      rw [continues_abrupt normal] at continues ⊢
      exact continues
  complete before after outcome steps ran continues := by
    by_cases normal : outcome = .normal
    · subst normal
      refine follows.complete before after .normal (steps + 1) ran (continues_normal.mpr ?_)
      exact ends.from_iff.mpr ⟨steps,rfl,next,List.mem_singleton_self _,continues_normal.mp continues⟩
    · refine follows.complete before after outcome steps ran ?_
      rw [continues_abrupt normal] at continues ⊢
      exact continues

theorem Follows.either {left right : Behaviour FlowEvent} {first second : BasicBlockId}
    (ends : Ends view exit id start [first,second]) (one : Follows view exit loopTargets pendingFinally first 0 left tail stop)
    (other : Follows view exit loopTargets pendingFinally second 0 right tail stop) :
    Follows view exit loopTargets pendingFinally id start (left.either right) tail stop where
  sound steps trace path := by
    obtain ⟨fewer,rfl,next,member,rest⟩ := ends.from_iff.mp path
    rcases List.mem_pair.mp member with rfl | rfl
    · obtain ⟨before,after,outcome,least,enough,same,ran,continues⟩ := one.sound fewer trace rest
      exact ⟨before,after,outcome,least,enough.trans (Nat.le_succ _),same,.inl ran,continues⟩
    · obtain ⟨before,after,outcome,least,enough,same,ran,continues⟩ := other.sound fewer trace rest
      exact ⟨before,after,outcome,least,enough.trans (Nat.le_succ _),same,.inr ran,continues⟩
  complete before after outcome steps ran continues := by
    rcases ran with ran | ran
    · obtain ⟨more,path⟩ := one.complete before after outcome steps ran continues
      exact ⟨more + 1,ends.from_iff.mpr ⟨more,rfl,first,by simp,path⟩⟩
    · obtain ⟨more,path⟩ := other.complete before after outcome steps ran continues
      exact ⟨more + 1,ends.from_iff.mpr ⟨more,rfl,second,by simp,path⟩⟩

theorem Follows.leave {event : FlowEvent} (at_ : EventAt view id start event) (abrupt : outcome ≠ .normal)
    (leaving : Leaving view exit pendingFinally id (start + 1) (destination exit loopTargets outcome)) :
    Follows view exit loopTargets pendingFinally id start (.leave event outcome) tail stop where
  sound steps trace path := by
    obtain ⟨later,rfl,rest⟩ := at_.from_iff.mp path
    exact ⟨[event],later,outcome,steps,Nat.le_refl _,rfl,⟨rfl,rfl⟩,(continues_abrupt abrupt).mpr (leaving.sound _ _ rest)⟩
  complete before after found steps ran continues := by
    obtain ⟨rfl,rfl⟩ := ran
    obtain ⟨more,path⟩ := leaving.complete _ _ ((continues_abrupt abrupt).mp continues)
    exact ⟨more,at_.from_iff.mpr ⟨after,rfl,path⟩⟩

theorem Leaving.arrive (empty : ExitEmpty view exit) (ends : Ends view exit id start [target.1])
    (retained : pendingFinally.length ≤ target.2) : Leaving view exit pendingFinally id start target where
  sound steps trace path := by
    obtain ⟨fewer,rfl,next,member,rest⟩ := ends.from_iff.mp path
    cases List.mem_singleton.mp member
    exact (leaves_arrives retained).mpr (.inr ⟨fewer,rfl,rest⟩)
  complete steps trace leaves := by
    rcases (leaves_arrives retained).mp leaves with ⟨last,rfl⟩ | ⟨fewer,_,path⟩
    · exact ⟨1,ends.from_iff.mpr ⟨0,rfl,target.1,List.mem_singleton_self _,by rw [last]; exact empty.from_iff.mpr rfl⟩⟩
    · exact ⟨fewer + 1,ends.from_iff.mpr ⟨fewer,rfl,target.1,List.mem_singleton_self _,path⟩⟩

theorem Leaving.halt (empty : ExitEmpty view exit) (stops : Stops view id start) :
    Leaving view exit [] id start (exit,0) where
  sound steps trace path := .inl ⟨rfl,stops.from_iff.mp path⟩
  complete steps trace leaves := by
    rcases leaves with ⟨_,same⟩ | ⟨fewer,_,path⟩
    · exact ⟨0,stops.from_iff.mpr same⟩
    · exact ⟨0,stops.from_iff.mpr (empty.from_iff.mp path)⟩

-- A finally body that its transfers do not leave ends normally or ends the function.
def Contained (behaviour : Behaviour FlowEvent) : Prop :=
  ∀ trace outcome, behaviour trace outcome → outcome = .normal ∨ outcome = .exit

theorem Leaving.frame {frame : FinallyFrame} {next middle pause : Nat} (ends : Ends view exit id start [next])
    (left : target.2 ≤ pendingFinally.length) (contained : Contained (runsAll [] frame.events))
    (follows : Follows view exit loopTargets pendingFinally next 0 (runsAll [] frame.events) middle pause)
    (leaving : Leaving view exit pendingFinally middle pause target) :
    Leaving view exit (frame :: pendingFinally) id start target where
  sound steps trace path := by
    obtain ⟨fewer,rfl,other,member,rest⟩ := ends.from_iff.mp path
    cases List.mem_singleton.mp member
    obtain ⟨before,after,outcome,least,enough,rfl,ran,continues⟩ := follows.sound fewer trace rest
    refine (leaves_cons left).mpr ⟨before,after,outcome,rfl,ran,?_⟩
    rcases contained before outcome ran with rfl | rfl
    · rw [if_pos rfl]
      exact (leaving.sound _ _ (continues_normal.mp continues)).mono (by omega)
    · rw [if_neg exit_abrupt]
      exact (continues_exit.mp continues).mono (by omega)
  complete steps trace leaves := by
    obtain ⟨before,after,outcome,rfl,ran,rest⟩ := (leaves_cons left).mp leaves
    have whole : ∃ more, From view exit more next 0 (before ++ after) := by
      rcases contained before outcome ran with rfl | rfl
      · rw [if_pos rfl] at rest
        obtain ⟨more,path⟩ := leaving.complete _ _ rest
        exact follows.complete before after .normal more ran (continues_normal.mpr path)
      · rw [if_neg exit_abrupt] at rest
        exact follows.complete before after .exit steps ran (continues_exit.mpr rest)
    obtain ⟨more,path⟩ := whole
    exact ⟨more + 1,ends.from_iff.mpr ⟨more,rfl,next,List.mem_singleton_self _,path⟩⟩

-- A region with a finally body: abrupt ends of the region run a copy of the body,
-- the normal end runs the body itself.
theorem Follows.andFinally {frame : FinallyFrame} {cleanup : Behaviour FlowEvent} {pause : Nat}
    (same : cleanup = runsAll [] frame.events) (contained : Contained cleanup)
    (reaches : ∀ trace outcome, behaviour trace outcome → (destination exit loopTargets outcome).2 ≤ pendingFinally.length)
    (body : Follows view exit loopTargets (frame :: pendingFinally) id start behaviour next pause)
    (last : Follows view exit loopTargets pendingFinally next pause cleanup tail stop) :
    Follows view exit loopTargets pendingFinally id start (behaviour.andFinally cleanup) tail stop where
  sound steps trace path := by
    obtain ⟨before,after,outcome,fewer,enough,rfl,ran,continues⟩ := body.sound steps trace path
    by_cases normal : outcome = .normal
    · subst normal
      obtain ⟨before',after',outcome',fewer',enough',rfl,ran',continues'⟩ :=
        last.sound fewer after (continues_normal.mp continues)
      refine ⟨before ++ before',after',outcome',fewer',enough'.trans enough,(List.append_assoc _ _ _).symm,
        ⟨before,before',.normal,outcome',rfl,ran,ran',?_⟩,continues'⟩
      unfold Behaviour.settle
      split
      · assumption
      · rfl
    · obtain ⟨before',after',outcome',rfl,ran',rest⟩ :=
        (leaves_cons (reaches before outcome ran)).mp ((continues_abrupt normal).mp continues)
      rw [← same] at ran'
      refine ⟨before ++ before',after',Behaviour.settle outcome outcome',fewer,enough,(List.append_assoc _ _ _).symm,
        ⟨before,before',outcome,outcome',rfl,ran,ran',rfl⟩,?_⟩
      rcases contained before' outcome' ran' with rfl | rfl
      · exact (continues_abrupt normal).mpr rest
      · exact continues_exit.mpr rest
  complete trace after outcome steps ran continues := by
    obtain ⟨before,before',left,right,rfl,ran,ran',rfl⟩ := ran
    rw [List.append_assoc]
    by_cases normal : left = .normal
    · subst normal
      have settled : Behaviour.settle .normal right = right := by
        unfold Behaviour.settle
        split
        · next ended => exact ended.symm
        · rfl
      rw [settled] at continues
      obtain ⟨more,path⟩ := last.complete before' after right steps ran' continues
      exact body.complete before (before' ++ after) .normal more ran (continues_normal.mpr path)
    · refine body.complete before (before' ++ after) left steps ran ((continues_abrupt normal).mpr ?_)
      refine (leaves_cons (reaches before left ran)).mpr ⟨before',after,right,rfl,by rw [← same]; exact ran',?_⟩
      rcases contained before' right ran' with rfl | rfl
      · exact (continues_abrupt normal).mp continues
      · exact continues_exit.mp continues

end rules

-- The blocks of a loop: each phase starts at its block, and the loop's targets are
-- the end of the loop and the phase that a continue enters.
structure LoopBlocks (view : View) (exit : BasicBlockId) (loopTargets : List LoopTargets)
    (pendingFinally : List FinallyFrame) (parts : LoopParts FlowEvent) (entryOf : LoopPhase → BasicBlockId)
    (after : BasicBlockId) where
  target : LoopTargets
  conditionTail : BasicBlockId
  conditionStop : Nat
  bodyTail : BasicBlockId
  bodyStop : Nat
  condition : Follows view exit loopTargets pendingFinally (entryOf .condition) 0 parts.condition conditionTail conditionStop
  ends : Ends view exit conditionTail conditionStop (entryOf .body :: if parts.leaves then [after] else [])
  body : Follows view exit (target :: loopTargets) pendingFinally (entryOf .body) 0 parts.body bodyTail bodyStop
  repeats : Ends view exit bodyTail bodyStop [entryOf .update]
  update : Follows view exit (target :: loopTargets) pendingFinally (entryOf .update) 0 parts.update (entryOf .condition) 0
  breaks : target.breakTo = after
  continues : target.continueTo = entryOf parts.resumes
  retained : target.retainedFinallyDepth = pendingFinally.length
  inside : after ≠ exit ∧ ∀ phase, entryOf phase ≠ exit

section loops
variable {view : View} {exit : BasicBlockId} {loopTargets : List LoopTargets} {pendingFinally : List FinallyFrame}
  {parts : LoopParts FlowEvent} {entryOf : LoopPhase → BasicBlockId} {after : BasicBlockId}
variable {outcome : Outcome}
variable {phase : LoopPhase}

def LoopSound (view : View) (exit : BasicBlockId) (loopTargets : List LoopTargets) (pendingFinally : List FinallyFrame)
    (parts : LoopParts FlowEvent) (entry after : BasicBlockId) (phase : LoopPhase) (steps : Nat) : Prop :=
  ∀ trace, From view exit steps entry 0 trace → ∃ before later outcome fewer, fewer ≤ steps ∧ trace = before ++ later ∧
    Looping parts phase before outcome ∧ Continues view exit loopTargets pendingFinally fewer after 0 outcome later

section
variable (blocks : LoopBlocks view exit loopTargets pendingFinally parts entryOf after)
include blocks

theorem LoopBlocks.abrupt_sound
    {steps : Nat} {before later : List FlowEvent} (inner : phase ≠ .condition)
    (ran : parts.phase phase before outcome) (abrupt : outcome ≠ .normal)
    (leaves : Leaves view exit steps pendingFinally (destination exit (blocks.target :: loopTargets) outcome) later)
    (resumes : ∀ fewer < steps, LoopSound view exit loopTargets pendingFinally parts (entryOf parts.resumes) after
      parts.resumes fewer) :
    ∃ first last final fewer, fewer ≤ steps ∧ before ++ later = first ++ last ∧ Looping parts phase first final ∧
      Continues view exit loopTargets pendingFinally fewer after 0 final last := by
  have passes : ∀ final, parts.after phase outcome = .inr final → final ≠ .normal →
      destination exit (blocks.target :: loopTargets) outcome = destination exit loopTargets final →
      ∃ first last final fewer, fewer ≤ steps ∧ before ++ later = first ++ last ∧ Looping parts phase first final ∧
        Continues view exit loopTargets pendingFinally fewer after 0 final last := by
    intro final ended other same
    refine ⟨before,later,final,steps,Nat.le_refl _,rfl,.done ran ended,(continues_abrupt other).mpr ?_⟩
    rw [← same]
    exact leaves
  cases outcome with
  | normal => exact absurd rfl abrupt
  | exit => exact passes .exit (by cases phase <;> rfl) nofun rfl
  | «break» loop =>
    cases loop with
    | succ loop => exact passes (.break loop) (by cases phase <;> first | rfl | exact absurd rfl inner) nofun rfl
    | zero =>
      have lands := (leaves_arrives (by rw [← blocks.retained]; rfl)).mp leaves
      rcases lands with ⟨last,_⟩ | ⟨fewer,rfl,path⟩
      · exact absurd (blocks.breaks.symm.trans last) blocks.inside.1
      · have ended : parts.after phase (.break 0) = .inr .normal := by
          cases phase <;> first | rfl | exact absurd rfl inner
        refine ⟨before,later,.normal,fewer,Nat.le_succ _,rfl,.done ran ended,continues_normal.mpr ?_⟩
        rw [← blocks.breaks]
        exact path
  | «continue» loop =>
    cases loop with
    | succ loop => exact passes (.continue loop) (by cases phase <;> first | rfl | exact absurd rfl inner) nofun rfl
    | zero =>
      have lands := (leaves_arrives (by rw [← blocks.retained]; rfl)).mp leaves
      rcases lands with ⟨last,_⟩ | ⟨fewer,rfl,path⟩
      · exact absurd (blocks.continues.symm.trans last) (blocks.inside.2 _)
      · have next : parts.after phase (.continue 0) = .inl parts.resumes := by
          cases phase <;> first | rfl | exact absurd rfl inner
        have start : From view exit fewer (entryOf parts.resumes) 0 later := by
          rw [← blocks.continues]
          exact path
        obtain ⟨first,last,final,least,enough,rfl,loops,continues⟩ := resumes fewer (Nat.lt_succ_self _) later start
        exact ⟨before ++ first,last,final,least,enough.trans (Nat.le_succ _),(List.append_assoc _ _ _).symm,
          .again ran next loops,continues⟩

-- Every path through the loop runs its phases: the induction is on the steps of the
-- path, which shrink from the condition to the body and from the body on.
theorem LoopBlocks.sound (steps : Nat)
    (phase : LoopPhase) : LoopSound view exit loopTargets pendingFinally parts (entryOf phase) after phase steps := by
  induction steps using Nat.strong_induction_on generalizing phase with
  | _ steps ih =>
    have condition : ∀ fewer ≤ steps,
        LoopSound view exit loopTargets pendingFinally parts (entryOf .condition) after .condition fewer := by
      intro most bound trace path
      obtain ⟨before,later,outcome,fewer,enough,rfl,ran,continues⟩ := blocks.condition.sound most trace path
      by_cases normal : outcome = .normal
      · subst normal
        obtain ⟨least,rfl,next,member,rest⟩ := blocks.ends.from_iff.mp (continues_normal.mp continues)
        rcases List.mem_cons.mp member with rfl | leaves
        · obtain ⟨first,last,final,used,under,rfl,loops,continues⟩ := ih least (by omega) .body later rest
          exact ⟨before ++ first,last,final,used,by omega,(List.append_assoc _ _ _).symm,.again ran rfl loops,continues⟩
        · split at leaves
          · next allowed =>
            cases List.mem_singleton.mp leaves
            exact ⟨before,later,.normal,least,by omega,rfl,.leave allowed ran,continues_normal.mpr rest⟩
          · cases leaves
      · have ended : parts.after .condition outcome = .inr outcome := by
          cases outcome <;> first | rfl | exact absurd rfl normal
        refine ⟨before,later,outcome,fewer,enough,rfl,.done ran ended,?_⟩
        rw [continues_abrupt normal] at continues ⊢
        exact continues
    have resumes : ∀ fewer < steps,
        LoopSound view exit loopTargets pendingFinally parts (entryOf parts.resumes) after parts.resumes fewer :=
      fun fewer below => ih fewer below parts.resumes
    cases phase with
    | condition => exact condition steps (Nat.le_refl _)
    | body =>
      intro trace path
      obtain ⟨before,later,outcome,fewer,enough,rfl,ran,continues⟩ := blocks.body.sound steps trace path
      by_cases normal : outcome = .normal
      · subst normal
        obtain ⟨least,rfl,next,member,rest⟩ := blocks.repeats.from_iff.mp (continues_normal.mp continues)
        cases List.mem_singleton.mp member
        obtain ⟨first,last,final,used,under,rfl,loops,continues⟩ := ih least (by omega) .update later rest
        exact ⟨before ++ first,last,final,used,by omega,(List.append_assoc _ _ _).symm,.again ran rfl loops,continues⟩
      · exact blocks.abrupt_sound nofun ran normal (((continues_abrupt normal).mp continues).mono enough) resumes
    | update =>
      intro trace path
      obtain ⟨before,later,outcome,fewer,enough,rfl,ran,continues⟩ := blocks.update.sound steps trace path
      by_cases normal : outcome = .normal
      · subst normal
        obtain ⟨first,last,final,used,under,rfl,loops,continues⟩ :=
          condition fewer enough later (continues_normal.mp continues)
        exact ⟨before ++ first,last,final,used,by omega,(List.append_assoc _ _ _).symm,.again ran rfl loops,continues⟩
      · exact blocks.abrupt_sound nofun ran normal (((continues_abrupt normal).mp continues).mono enough) resumes

theorem LoopBlocks.phase_complete
    {steps : Nat} {before later : List FlowEvent} (inner : phase ≠ .condition)
    (ran : parts.phase phase before outcome) (abrupt : outcome ≠ .normal)
    (leaves : Leaves view exit steps pendingFinally (destination exit (blocks.target :: loopTargets) outcome) later) :
    ∃ more, From view exit more (entryOf phase) 0 (before ++ later) := by
  cases phase with
  | condition => exact absurd rfl inner
  | body => exact blocks.body.complete before later outcome steps ran ((continues_abrupt abrupt).mpr leaves)
  | update => exact blocks.update.complete before later outcome steps ran ((continues_abrupt abrupt).mpr leaves)

theorem LoopBlocks.complete
    {before : List FlowEvent} (loops : Looping parts phase before outcome) :
    ∀ steps later, Continues view exit loopTargets pendingFinally steps after 0 outcome later →
      ∃ more, From view exit more (entryOf phase) 0 (before ++ later) := by
  induction loops with
  | @leave before allowed ran =>
    intro steps later continues
    refine blocks.condition.complete before later .normal (steps + 1) ran (continues_normal.mpr ?_)
    refine blocks.ends.from_iff.mpr ⟨steps,rfl,after,?_,continues_normal.mp continues⟩
    rw [if_pos allowed]
    simp
  | @done phase before outcome last ran ended =>
    intro steps later continues
    cases phase with
    | condition =>
      have same : outcome ≠ .normal ∧ last = outcome := by
        cases outcome <;> cases ended <;> exact ⟨nofun,rfl⟩
      obtain ⟨abrupt,rfl⟩ := same
      refine blocks.condition.complete before later last steps ran ?_
      rw [continues_abrupt abrupt] at continues ⊢
      exact continues
    | body | update =>
      cases outcome with
      | normal => cases ended
      | exit =>
        cases ended
        exact blocks.phase_complete nofun ran nofun (continues_exit.mp continues)
      | «break» loop =>
        cases loop with
        | zero =>
          cases ended
          refine blocks.phase_complete nofun ran nofun ((leaves_arrives (by rw [← blocks.retained]; rfl)).mpr
            (.inr ⟨steps,rfl,?_⟩))
          have path := continues_normal.mp continues
          rw [← blocks.breaks] at path
          exact path
        | succ loop =>
          cases ended
          have abrupt : Outcome.break loop ≠ .normal := nofun
          exact blocks.phase_complete nofun ran nofun ((continues_abrupt abrupt).mp continues)
      | «continue» loop =>
        cases loop with
        | zero => cases ended
        | succ loop =>
          cases ended
          have abrupt : Outcome.continue loop ≠ .normal := nofun
          exact blocks.phase_complete nofun ran nofun ((continues_abrupt abrupt).mp continues)
  | @again phase next before more outcome last ran turned _ ih =>
    intro steps later continues
    obtain ⟨used,path⟩ := ih steps later continues
    rw [List.append_assoc]
    cases outcome with
    | normal =>
      cases phase with
      | condition =>
        cases turned
        refine blocks.condition.complete before (more ++ later) .normal (used + 1) ran (continues_normal.mpr ?_)
        exact blocks.ends.from_iff.mpr ⟨used,rfl,_,List.mem_cons_self,path⟩
      | body =>
        cases turned
        refine blocks.body.complete before (more ++ later) .normal (used + 1) ran (continues_normal.mpr ?_)
        exact blocks.repeats.from_iff.mpr ⟨used,rfl,_,List.mem_singleton_self _,path⟩
      | update =>
        cases turned
        exact blocks.update.complete before (more ++ later) .normal used ran (continues_normal.mpr path)
    | «continue» loop =>
      have inner : phase ≠ .condition ∧ loop = 0 ∧ next = parts.resumes := by
        cases phase <;> cases loop <;> cases turned <;> exact ⟨nofun,rfl,rfl⟩
      obtain ⟨inner,rfl,rfl⟩ := inner
      refine blocks.phase_complete inner ran nofun ((leaves_arrives (by rw [← blocks.retained]; rfl)).mpr
        (.inr ⟨used,rfl,?_⟩))
      rw [← blocks.continues] at path
      exact path
    | exit => cases phase <;> cases turned
    | «break» loop => cases phase <;> cases loop <;> cases turned

theorem LoopBlocks.follows (phase : LoopPhase) :
    Follows view exit loopTargets pendingFinally (entryOf phase) 0 (Looping parts phase) after 0 where
  sound := fun steps => blocks.sound steps phase
  complete := fun _ _ _ steps ran continues => blocks.complete ran steps _ continues

end

end loops

end BonsaiNinja.Cfg
