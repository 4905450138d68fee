import BonsaiNinja.Cfg.ControlPaths

namespace BonsaiNinja.Cfg
open Library LangApi

section views
variable {blocks : Blocks} {id source target : Nat}

@[simp] theorem newBlock_length (label : String) (kind : SyntheticBlockKind) :
    (newBlock blocks label kind).length = blocks.length + 1 := by simp [newBlock]

@[simp] theorem link_length : (link blocks source target).length = blocks.length := by simp [link]

@[simp] theorem recordSpan_length (span : Span) : (recordSpan blocks id span).length = blocks.length := by simp [recordSpan]

@[simp] theorem setTerminator_length (terminator : Terminator) :
    (setTerminator blocks id terminator).length = blocks.length := by simp [setTerminator]

@[simp] theorem pushEvent_length (event : FlowEvent) : (pushEvent blocks id event).length = blocks.length := by
  simp [pushEvent]

theorem viewOf_newBlock (label : String) (kind : SyntheticBlockKind) (i : Nat) :
    viewOf (newBlock blocks label kind) i = if i = blocks.length then some ⟨[],[],false⟩ else viewOf blocks i := by
  unfold viewOf newBlock
  rcases Nat.lt_trichotomy i blocks.length with lower | rfl | upper
  · rw [List.getElem?_append_left lower, if_neg (by omega)]
  · rw [List.getElem?_append_right (Nat.le_refl _), Nat.sub_self, if_pos rfl]
    rfl
  · rw [List.getElem?_eq_none (by rw [List.length_append, List.length_singleton]; omega), List.getElem?_eq_none upper.le,
      if_neg (by omega)]

theorem viewOf_modify {change : BasicBlock → BasicBlock} (changed : Node → Node)
    (same : ∀ block, nodeOf (change block) = changed (nodeOf block)) (i : Nat) :
    viewOf (blocks.modify id change) i = if i = id then (viewOf blocks i).map changed else viewOf blocks i := by
  unfold viewOf
  rw [List.getElem?_modify]
  by_cases here : i = id
  · rw [if_pos here]
    cases blocks[i]? with
    | none => rfl
    | some block => simp [here,same]
  · rw [if_neg here]
    cases blocks[i]? with
    | none => rfl
    | some block => simp [Ne.symm here]

theorem viewOf_link (i : Nat) : viewOf (link blocks source target) i = if i = source then
    (viewOf blocks i).map fun node => if target ∈ node.successors then node else
      {node with successors := node.successors ++ [target]}
    else viewOf blocks i := by
  refine viewOf_modify (fun node => if target ∈ node.successors then node else
    {node with successors := node.successors ++ [target]}) (fun block => ?_) i
  unfold nodeOf
  dsimp only
  split <;> rfl

@[simp] theorem viewOf_recordSpan (span : Span) : viewOf (recordSpan blocks id span) = viewOf blocks := by
  funext i
  rw [recordSpan, viewOf_modify (fun node => node) fun block => ?_]
  · simp
  · split <;> rfl

theorem viewOf_setTerminator (terminator : Terminator) (i : Nat) :
    viewOf (setTerminator blocks id terminator) i = if i = id then (viewOf blocks i).map fun node =>
      {node with returns := decide (terminator = .return ∨ terminator = .throw)} else viewOf blocks i :=
  viewOf_modify (fun node => {node with returns := decide (terminator = .return ∨ terminator = .throw)}) (fun _ => rfl) i

theorem viewOf_pushEvent (event : FlowEvent) (i : Nat) :
    viewOf (pushEvent blocks id event) i = if i = id then (viewOf blocks i).map fun node =>
      {node with events := node.events ++ [event]} else viewOf blocks i :=
  viewOf_modify (fun node => {node with events := node.events ++ [event]}) (fun _ => rfl) i

theorem viewOf_isSome : (viewOf blocks id).isSome = true ↔ id < blocks.length := by
  rw [viewOf, Option.isSome_map, isSome_getElem?]

end views

structure Touches (before after : Blocks) (touched : Nat → Prop) : Prop where
  length : before.length ≤ after.length
  kept : ∀ i < before.length, ¬touched i → viewOf after i = viewOf before i
  events : ∀ i node, viewOf before i = some node → ∃ later, viewOf after i = some later ∧ node.events <+: later.events

section touches
variable {blocks after last : Blocks} {touched touched' : Nat → Prop}

theorem Touches.refl : Touches blocks blocks fun _ => False :=
  ⟨Nat.le_refl _,fun _ _ _ => rfl,fun _ node found => ⟨node,found,List.prefix_rfl⟩⟩

theorem Touches.trans (first : Touches blocks after touched) (next : Touches after last touched') :
    Touches blocks last fun i => touched i ∨ touched' i where
  length := first.length.trans next.length
  kept i inside untouched := by
    rw [not_or] at untouched
    rw [next.kept i (inside.trans_le first.length) untouched.2, first.kept i inside untouched.1]
  events i node found := by
    obtain ⟨middle,found',early⟩ := first.events i node found
    obtain ⟨final,found'',late⟩ := next.events i middle found'
    exact ⟨final,found'',early.trans late⟩

theorem Touches.mono (touches : Touches blocks after touched) (wider : ∀ i < blocks.length, touched i → touched' i) :
    Touches blocks after touched' where
  length := touches.length
  kept i inside untouched := touches.kept i inside fun here => untouched (wider i inside here)
  events := touches.events

theorem Touches.extend (first : Touches blocks after fun _ => False) (next : Touches after last touched) :
    Touches blocks last touched :=
  (first.trans next).mono fun _ _ changed => changed.resolve_left id

theorem touches_newBlock (label : String) (kind : SyntheticBlockKind) :
    Touches blocks (newBlock blocks label kind) fun _ => False where
  length := by simp
  kept i inside _ := by rw [viewOf_newBlock, if_neg (Nat.ne_of_lt inside)]
  events i node found := by
    have inside : i < blocks.length := viewOf_isSome.mp (by rw [found]; rfl)
    exact ⟨node,by rw [viewOf_newBlock, if_neg (Nat.ne_of_lt inside), found],List.prefix_rfl⟩

theorem touches_recordSpan (id : Nat) (span : Span) :
    Touches blocks (recordSpan blocks id span) fun _ => False where
  length := by simp
  kept i _ _ := by rw [viewOf_recordSpan]
  events i node found := ⟨node,by rw [viewOf_recordSpan, found],List.prefix_rfl⟩

theorem touches_link (source target : Nat) : Touches blocks (link blocks source target) (· = source) where
  length := by simp
  kept i _ other := by rw [viewOf_link, if_neg other]
  events i node found := by
    rw [viewOf_link]
    split
    · rw [found, Option.map_some]
      exact ⟨_,rfl,by split <;> exact List.prefix_rfl⟩
    · exact ⟨node,found,List.prefix_rfl⟩

theorem touches_setTerminator (id : Nat) (terminator : Terminator) :
    Touches blocks (setTerminator blocks id terminator) (· = id) where
  length := by simp
  kept i _ other := by rw [viewOf_setTerminator, if_neg other]
  events i node found := by
    rw [viewOf_setTerminator]
    split
    · rw [found, Option.map_some]
      exact ⟨_,rfl,List.prefix_rfl⟩
    · exact ⟨node,found,List.prefix_rfl⟩

theorem touches_pushEvent (id : Nat) (event : FlowEvent) :
    Touches blocks (pushEvent blocks id event) (· = id) where
  length := by simp
  kept i _ other := by rw [viewOf_pushEvent, if_neg other]
  events i node found := by
    rw [viewOf_pushEvent]
    split
    · rw [found, Option.map_some]
      exact ⟨_,rfl,List.prefix_append _ _⟩
    · exact ⟨node,found,List.prefix_rfl⟩

end touches

def Holds (view : View) (id stop : Nat) (successors : List Nat) (returns : Bool) : Prop :=
  ∃ node, view id = some node ∧ node.events.length = stop ∧ node.successors = successors ∧ node.returns = returns

def stopOf (blocks : Blocks) (id : Nat) : Nat := (viewOf blocks id).elim 0 (·.events.length)

def Open (blocks : Blocks) (id : Nat) : Prop := Holds (viewOf blocks) id (stopOf blocks id) [] false

section holds
variable {blocks after : Blocks} {view : View} {exit id stop target : Nat} {successors : List Nat} {returns : Bool}
  {touched : Nat → Prop}

theorem Holds.lt (holds : Holds (viewOf blocks) id stop successors returns) : id < blocks.length := by
  obtain ⟨node,found,_⟩ := holds
  exact viewOf_isSome.mp (by rw [found]; rfl)

theorem Holds.stopOf (holds : Holds (viewOf blocks) id stop successors returns) : stopOf blocks id = stop := by
  obtain ⟨node,found,length,_⟩ := holds
  rw [Cfg.stopOf, found]
  exact length

theorem Holds.open (holds : Holds (viewOf blocks) id stop [] false) : Open blocks id := by
  rw [Open, holds.stopOf]
  exact holds

section
variable (holds : Holds (viewOf blocks) id stop successors returns)
include holds

theorem Holds.kept (touches : Touches blocks after touched)
    (untouched : ¬touched id) : Holds (viewOf after) id stop successors returns := by
  obtain ⟨node,found,rest⟩ := holds
  exact ⟨node,by rw [touches.kept id (Holds.lt ⟨node,found,rest⟩) untouched, found],rest⟩

theorem Holds.link (fresh : target ∉ successors) :
    Holds (viewOf (link blocks id target)) id stop (successors ++ [target]) returns := by
  obtain ⟨node,found,length,rfl,same⟩ := holds
  refine ⟨{node with successors := node.successors ++ [target]},?_,length,rfl,same⟩
  rw [viewOf_link, if_pos rfl, found, Option.map_some, if_neg fresh]

theorem Holds.setTerminator (terminator : Terminator) :
    Holds (viewOf (setTerminator blocks id terminator)) id stop successors
      (decide (terminator = .return ∨ terminator = .throw)) := by
  obtain ⟨node,found,length,same,_⟩ := holds
  refine ⟨{node with returns := decide (terminator = .return ∨ terminator = .throw)},?_,length,same,rfl⟩
  rw [viewOf_setTerminator, if_pos rfl, found, Option.map_some]

theorem Holds.pushEvent (event : FlowEvent) :
    Holds (viewOf (pushEvent blocks id event)) id (stop + 1) successors returns := by
  obtain ⟨node,found,length,same,ends⟩ := holds
  refine ⟨{node with events := node.events ++ [event]},?_,?_,same,ends⟩
  · rw [viewOf_pushEvent, if_pos rfl, found, Option.map_some]
  · rw [List.length_append, length, List.length_singleton]

end

theorem holds_newBlock (label : String) (kind : SyntheticBlockKind) :
    Holds (viewOf (newBlock blocks label kind)) blocks.length 0 [] false :=
  ⟨⟨[],[],false⟩,by rw [viewOf_newBlock, if_pos rfl],rfl,rfl,rfl⟩

theorem Holds.ends (holds : Holds view id stop successors returns) (inner : id ≠ exit) (occupied : successors ≠ []) :
    Ends view exit id stop successors := by
  obtain ⟨node,found,length,same,_⟩ := holds
  exact ⟨inner,node,found,length,same,occupied⟩

theorem Holds.stops (holds : Holds view id stop [] true) : Stops view id stop := holds

theorem eventAt_pushEvent (holds : Holds (viewOf blocks) id stop successors returns) (event : FlowEvent) :
    EventAt (viewOf (Cfg.pushEvent blocks id event)) id stop event := by
  obtain ⟨node,found,rfl,_⟩ := holds
  refine ⟨{node with events := node.events ++ [event]},?_,?_⟩
  · rw [viewOf_pushEvent, if_pos rfl, found, Option.map_some]
  · rw [List.getElem?_append_right (Nat.le_refl _), Nat.sub_self]
    rfl

end holds

structure Walks (before : Blocks) (id : Nat) (after : Blocks) (tail : Nat) : Prop where
  touches : Touches before after (· = id)
  fresh : tail = id ∨ before.length ≤ tail
  opened : Open after tail

-- A view of the finished graph: blocks that the walk has left behind are as it
-- left them, all others have at least the events they had.
structure Shows (view : View) (before : Blocks) (id : Nat) (after : Blocks) (tail : Nat) : Prop where
  extends_ : ∀ i node, viewOf after i = some node → ∃ later, view i = some later ∧ node.events <+: later.events
  closed : ∀ i < after.length, i = id ∨ before.length ≤ i → i ≠ tail → view i = viewOf after i

-- What a walk builds: in every finished graph the paths between its blocks are the
-- runs of the behaviour.
def Builds (exit : Nat) (loopTargets : List LoopTargets) (pendingFinally : List FinallyFrame) (before : Blocks)
    (id : Nat) (after : Blocks) (tail : Nat) (behaviour : Behaviour FlowEvent) : Prop :=
  Open before id → id ≠ exit → exit < before.length → Walks before id after tail ∧
    ∀ view, ExitEmpty view exit → Shows view before id after tail →
      Follows view exit loopTargets pendingFinally id (stopOf before id) behaviour tail (stopOf after tail)

section builds
variable {exit : Nat} {loopTargets : List LoopTargets} {pendingFinally : List FinallyFrame}
  {blocks after last : Blocks} {id tail final : Nat} {first next : Behaviour FlowEvent}

theorem Walks.trans (one : Walks blocks id after tail) (two : Walks after tail last final) : Walks blocks id last final where
  touches := (one.touches.trans two.touches).mono fun i inside touched => by
    rcases touched with here | there
    · exact here
    · rcases one.fresh with same | later
      · exact there.trans same
      · omega
  fresh := by
    have longer := one.touches.length
    rcases two.fresh with same | later
    · rw [same]
      exact one.fresh
    · exact .inr (longer.trans later)
  opened := two.opened

theorem Shows.later {view : View} (one : Walks blocks id after tail) (shows : Shows view blocks id last final) :
    Shows view after tail last final where
  extends_ := shows.extends_
  closed i inside region other := by
    refine shows.closed i inside ?_ other
    have longer := one.touches.length
    rcases region with rfl | later
    · exact one.fresh
    · exact .inr (longer.trans later)

theorem Shows.earlier {view : View} (two : Walks after tail last final) (shows : Shows view blocks id last final) :
    Shows view blocks id after tail where
  extends_ i node found := by
    obtain ⟨later,found',early⟩ := two.touches.events i node found
    obtain ⟨latest,shown,late⟩ := shows.extends_ i later found'
    exact ⟨latest,shown,early.trans late⟩
  closed i inside region other := by
    have longer := two.touches.length
    rw [shows.closed i (inside.trans_le longer) region, two.touches.kept i inside other]
    intro same
    rcases two.fresh with here | later
    · exact other (same.trans here)
    · omega

theorem Shows.inside {view : View} {start stop : Nat} {middle : Blocks} {touched : Nat → Prop}
    (shows : Shows view blocks id last final) (touches : Touches after last touched)
    (region : ∀ i < after.length, i = start ∨ middle.length ≤ i → i ≠ stop →
      (i = id ∨ blocks.length ≤ i) ∧ i ≠ final ∧ ¬touched i) : Shows view middle start after stop where
  extends_ i node found := by
    obtain ⟨later,found',early⟩ := touches.events i node found
    obtain ⟨latest,shown,late⟩ := shows.extends_ i later found'
    exact ⟨latest,shown,early.trans late⟩
  closed i inside within other := by
    obtain ⟨here,ends,untouched⟩ := region i inside within other
    rw [shows.closed i (inside.trans_le touches.length) here ends, touches.kept i inside untouched]

theorem Shows.holds {view : View} {i stop : Nat} {successors : List Nat} {returns : Bool}
    (shows : Shows view blocks id last final) (holds : Holds (viewOf last) i stop successors returns)
    (region : i = id ∨ blocks.length ≤ i) (other : i ≠ final) : Holds view i stop successors returns := by
  obtain ⟨node,found,rest⟩ := holds
  exact ⟨node,by rw [shows.closed i (Holds.lt ⟨node,found,rest⟩) region other, found],rest⟩

theorem Shows.eventAt {view : View} {i start : Nat} {event : FlowEvent} (shows : Shows view blocks id last final)
    (at_ : EventAt (viewOf last) i start event) : EventAt view i start event := by
  obtain ⟨node,found,present⟩ := at_
  obtain ⟨later,shown,⟨rest,same⟩⟩ := shows.extends_ i node found
  obtain ⟨inside,equal⟩ := List.getElem?_eq_some_iff.mp present
  refine ⟨later,shown,?_⟩
  rw [← same, List.getElem?_append_left inside]
  exact present

theorem Builds.andThen (one : Builds exit loopTargets pendingFinally blocks id after tail first)
    (two : Builds exit loopTargets pendingFinally after tail last final next) :
    Builds exit loopTargets pendingFinally blocks id last final (first.andThen next) := by
  intro opened inner inside
  obtain ⟨walks,follows⟩ := one opened inner inside
  have longer := walks.touches.length
  have inner' : tail ≠ exit := by
    rcases walks.fresh with rfl | later
    · exact inner
    · omega
  obtain ⟨walks',follows'⟩ := two walks.opened inner' (by omega)
  refine ⟨walks.trans walks',fun view empty shows => ?_⟩
  exact (follows view empty (shows.earlier walks')).andThen (follows' view empty (shows.later walks))

theorem Builds.skip : Builds exit loopTargets pendingFinally blocks id blocks id .skip := by
  intro opened _ _
  refine ⟨⟨Touches.refl.mono fun _ _ => False.elim,.inl rfl,opened⟩,?_⟩
  exact fun _ _ _ => .skip

end builds

end BonsaiNinja.Cfg
