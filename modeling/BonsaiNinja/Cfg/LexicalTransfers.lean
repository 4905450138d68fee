import BonsaiNinja.Cfg.LiveEvents
import Mathlib.Data.List.Find

namespace BonsaiNinja.Cfg
open Library LangApi

def isTransfer : FlowEvent → Bool
  | .break .. | .continue .. => true
  | _ => false

def targetOf : FlowEvent → Option LoopControlTarget
  | .break _ target | .continue _ target => target
  | _ => none

-- The loop that a transfer finds on the stack of a copy is the one around it in the
-- program: none that it has to count or that has its label is foreign.
def resolvesLexically (stack : List LoopSite) : Option LoopControlTarget → Bool
  | none => stack.head?.all (!·.isForeign)
  | some (.label label) => (stack.find? (·.label == some label)).all (!·.isForeign)
  | some (.levels levels) => levels == 0 || decide (stack.length < levels) || (stack.take levels).all (!·.isForeign)

-- Every break and continue, in every copy of a finally body, has one edge behind the
-- finally bodies that it leaves: to its target among the loops around it in the program.
def TransfersLexically (functionSpan : Option Span) (events : List FlowEvent) : Prop :=
  ∀ placement ∈ placements events, isTransfer placement.event = true → ∀ j,
    Edge (walkerBlocks functionSpan events) placement.source j ↔ j = (controlTransferTarget placement.event placement.scope 0).1

structure Stacked (exit : Nat) (loops : List LoopTargets) : Prop where
  newer : loops.Pairwise fun inner outer => outer.breakTo < inner.breakTo ∧ outer.continueTo < inner.continueTo
  beyond : ∀ target ∈ loops, exit < target.breakTo ∧ exit < target.continueTo

-- A transfer whose last block lies behind the walk: its one edge is that of the
-- transfer, and the walk has left the block.
structure Settled (exit before cur : Nat) (last : Blocks) (tail : Nat) (placement : Placement) : Prop where
  region : placement.source = cur ∨ before ≤ placement.source
  inside : placement.source < last.length
  left : placement.source ≠ tail
  leads : ∀ j, Edge last placement.source j ↔ j = (controlTransferTarget placement.event placement.loops exit).1

def Arrived (exit before cur : Nat) (last : Blocks) (tail : Nat) (placement : Placement) : Prop :=
  Stacked exit placement.loops ∧ (isTransfer placement.event = true → Settled exit before cur last tail placement)

section settled
variable {exit before before' cur cur' tail tail' : Nat} {loops : List LoopTargets} {blocks middle last : Blocks}
  {placement : Placement} {placed placed' : List Placement}

theorem enterable_lt {id : Nat} (entered : Enterable blocks id) : id < blocks.length := by
  obtain ⟨block,found,_⟩ := entered
  exact (List.getElem?_eq_some_iff.mp found).1

theorem Stacked.loop (stacked : Stacked exit loops) (entered : Entered exit loops blocks) (target : LoopTargets)
    (breaks : blocks.length ≤ target.breakTo) (continues : blocks.length ≤ target.continueTo) : Stacked exit (target :: loops) where
  newer := by
    refine List.pairwise_cons.mpr ⟨fun outer member => ?_,stacked.newer⟩
    obtain ⟨one,two⟩ := entered.targets outer member
    exact ⟨(enterable_lt one).trans_le breaks,(enterable_lt two).trans_le continues⟩
  beyond other member := by
    rcases List.mem_cons.mp member with rfl | among
    · exact ⟨(enterable_lt entered.exit).trans_le breaks,(enterable_lt entered.exit).trans_le continues⟩
    · exact stacked.beyond other among

theorem Arrived.part (arrived : Arrived exit before cur middle tail placement) (longer : middle.length ≤ last.length)
    (same : ∀ i < middle.length, i = cur ∨ before ≤ i → i ≠ tail →
      (i = cur' ∨ before' ≤ i) ∧ i ≠ tail' ∧ ∀ j, Edge last i j ↔ Edge middle i j) :
    Arrived exit before' cur' last tail' placement := by
  refine ⟨arrived.1,fun transfer => ?_⟩
  have settled := arrived.2 transfer
  obtain ⟨region,left,edges⟩ := same placement.source settled.inside settled.region settled.left
  exact ⟨region,settled.inside.trans_le longer,left,fun j => (edges j).trans (settled.leads j)⟩

theorem Within.part (within : Within blocks cur middle tail last) (region : ∀ i < middle.length, i = cur ∨ blocks.length ≤ i →
    i ≠ tail → (i = cur' ∨ before' ≤ i) ∧ i ≠ tail') (i : Nat) (inside : i < middle.length) (here : i = cur ∨ blocks.length ≤ i)
    (far : i ≠ tail) : (i = cur' ∨ before' ≤ i) ∧ i ≠ tail' ∧ ∀ j, Edge last i j ↔ Edge middle i j := by
  obtain ⟨low,left⟩ := region i inside here far
  exact ⟨low,left,fun j => ⟨within.closed i inside here far j,within.edges i j⟩⟩

theorem Steps.edge_iff {touched : Nat → Prop} (steps : Steps middle last touched) {i : Nat} (inside : i < middle.length)
    (apart : ¬touched i) (j : Nat) : Edge last i j ↔ Edge middle i j := by
  rw [edge_iff_view, edge_iff_view, steps.touches.kept i inside apart]

theorem Arrived.next {final : Nat} {successors : List Nat} (arrived : Arrived exit before cur middle tail placement)
    (grown : Grown middle tail last final successors) : Arrived exit before cur last final placement := by
  have fresh := grown.fresh
  refine arrived.part grown.longer fun i inside here far => ?_
  exact ⟨here,by omega,grown.steps.edge_iff inside far⟩

theorem Arrived.dead (arrived : Arrived exit before cur last tail placement) :
    Arrived exit before cur (addDead last) last.length placement := by
  have dead := @addDead_steps last
  refine arrived.part dead.1.longer fun i inside here far => ?_
  exact ⟨here,by omega,dead.1.edge_iff inside id⟩

theorem both_arrived (first : ∀ placement ∈ placed, Arrived exit before cur last tail placement)
    (second : ∀ placement ∈ placed', Arrived exit before cur last tail placement) :
    ∀ placement ∈ placed ++ placed', Arrived exit before cur last tail placement := by
  intro placement member
  exact (List.mem_append.mp member).elim (first placement) (second placement)

theorem plain_transfer {event : FlowEvent} (simple : plain event = true) : isTransfer event = false := by
  cases event with
  | call | assign | aggregateAssign | yield | await | lifecycle => rfl
  | branch | loop | «return» | throw | «try» | «break» | «continue» | defer | «using» => cases simple

theorem transfer_terminator {event : FlowEvent} {terminator : Terminator} (abrupt : terminatorOf event = some terminator)
    (transfer : isTransfer event = true) : terminator = .break ∨ terminator = .continue := by
  cases event with
  | «break» =>
    cases abrupt
    exact .inl rfl
  | «continue» =>
    cases abrupt
    exact .inr rfl
  | call | assign | aggregateAssign | yield | await | lifecycle | branch | loop | «return» | throw | «try» | defer | «using» =>
    cases transfer

end settled

section walks
variable {exit cur tail : Nat} {loops scope : List LoopTargets} {cleanups : List (Cleanup LoopTargets)} {task : Task}
  {blocks last : Blocks} {placed : List Placement}

theorem Walked.arrives (walked : Walked exit loops scope cleanups task blocks cur last tail placed) :
    Ready exit loops blocks cur → task.Enters blocks → Stacked exit loops →
      ∀ placement ∈ placed, Arrived exit blocks.length cur last tail placement := by
  induction walked with
  | none | reached _ =>
    intro _ _ _ _ member
    cases member
  | next first rest firstArrives restArrives =>
    intro ready _ stacked
    have one := first.grown ready trivial
    have ready' := Ready.of one.leads ready one.steps
    have fresh := one.fresh
    have longer := one.longer
    refine both_arrived (fun placement member => ?_) fun placement member => ?_
    · exact (firstArrives ready trivial stacked placement member).next (rest.grown ready' trivial)
    · refine (restArrives ready' trivial stacked placement member).part (Nat.le_refl _) fun i inside here far => ?_
      exact ⟨by omega,far,fun j => Iff.rfl⟩
  | plain simple =>
    intro _ _ stacked placement member
    cases List.mem_singleton.mp member
    refine ⟨stacked,fun transfer => ?_⟩
    rw [plain_transfer simple] at transfer
    cases transfer
  | @arrive loops scope cleanups offset event terminator blocks cur abrupt _ =>
    intro ready _ stacked placement member
    cases List.mem_singleton.mp member
    refine ⟨stacked,fun transfer => ?_⟩
    rw [if_pos (transfer_terminator abrupt transfer)]
    have marked := ready.mark event terminator
    have length := @markAbrupt_length blocks cur event terminator
    have linked := marked.leads.link (List.not_mem_nil (a := (controlTransferTarget event loops exit).1))
    have inside := ready.leads.lt
    exact
      { region := .inl rfl
        inside := by simpa using Nat.lt_succ_of_lt inside
        left := Nat.ne_of_lt inside
        leads := fun j => (addDead_steps.1.edge_iff linked.lt id j).trans (linked.edge_iff.trans List.mem_singleton) }
  | @leave loops scope cleanups offset event terminator blocks cur last source placed _ _ path pathArrives =>
    intro ready _ stacked placement member
    have marked := ready.mark event terminator
    have length := @markAbrupt_length blocks cur event terminator
    have entered := marked.entered.transfer event
    have grown := path.grown marked entered
    have longer := @addDead_steps last
    rcases List.mem_cons.mp member with rfl | among
    · refine ⟨stacked,fun _ => ?_⟩
      exact
        { region := length ▸ grown.fresh
          inside := grown.leads.lt.trans_le longer.1.longer
          left := Nat.ne_of_lt grown.leads.lt
          leads := fun j => (longer.1.edge_iff grown.leads.lt id j).trans (grown.leads.edge_iff.trans List.mem_singleton) }
    · exact length ▸ (pathArrives marked entered stacked placement among).dead
  | @branch loops scope cleanups offset span condition thenEvents elseEvents blocks cur middle thenTail last elseTail placed placed'
      first second firstArrives secondArrives =>
    intro ready _ stacked
    have shape := branchGrown ready (fun inside => first.grown inside trivial) fun inside => second.grown inside trivial
    have length := @forkBranch_length blocks cur span
    have longer := shape.thenGrown.longer
    have longer' := shape.elseGrown.longer
    have final : (link (link last thenTail blocks.length) elseTail blocks.length).length = last.length := by simp
    refine both_arrived (fun placement member => ?_) fun placement member => ?_
    · refine (firstArrives shape.thenReady trivial stacked placement member).part (by omega) (shape.thenWithin.part ?_)
      intro i inside here far
      omega
    · refine (secondArrives shape.elseReady trivial stacked placement member).part (by omega) (shape.elseWithin.part ?_)
      intro i inside here far
      omega
  | @loop loops scope cleanups offset span loopKind label conditionEvents body blocks cur tested conditionTail target last bodyTail
      placed placed' test targetSame inner testArrives innerArrives =>
    intro ready _ stacked
    subst targetSame
    have shape := loopGrown ready (loopEntered loopKind ready fun inside => test.grown inside trivial) rfl rfl
      fun inside => inner.grown inside trivial
    have length := @enterLoop_length blocks cur span
    have longer := shape.entry.testGrown.longer
    have same := shape.entry.same
    have longer' := shape.bodyGrown.longer
    have final : (link last bodyTail blocks.length).length = last.length := link_length
    have nested := stacked.loop ready.entered ⟨label,blocks.length + 2,blocks.length,cleanups.length⟩ (Nat.le_add_right _ _)
      (Nat.le_refl _)
    refine both_arrived (fun placement member => ?_) fun placement member => ?_
    · refine (testArrives shape.entry.testReady trivial stacked placement member).part (by omega) (shape.testWithin.part ?_)
      intro i inside here far
      omega
    · refine (innerArrives shape.bodyReady trivial nested placement member).part (by omega) (shape.bodyWithin.part ?_)
      intro i inside here far
      omega
  | @update loops scope cleanups offset span loopKind label conditionEvents updateEvents body blocks cur tested conditionTail linked
      target middle bodyTail last updateTail placed placed' placed'' _ test linkedSame targetSame inner update testArrives
      innerArrives updateArrives =>
    intro ready _ stacked
    subst linkedSame targetSame
    have shape := updateGrown _ ready (loopEntered loopKind ready fun inside => test.grown inside trivial) rfl rfl
      (fun inside => inner.grown inside trivial) fun inside => update.grown inside trivial
    have length := @enterLoop_length blocks cur span
    have longer := shape.entry.testGrown.longer
    have same := shape.entry.same
    have longer' := shape.bodyGrown.longer
    have longest := shape.updateGrown.longer
    have joined := @link_length middle bodyTail (linkLoop tested cur conditionTail blocks.length loopKind).length
    have final : (link last updateTail blocks.length).length = last.length := link_length
    have nested := stacked.loop ready.entered ⟨label,blocks.length + 2,if loopKind = .doWhile then blocks.length else
      (linkLoop tested cur conditionTail blocks.length loopKind).length,cleanups.length⟩ (Nat.le_add_right _ _)
      (by dsimp only; split <;> omega)
    have extended := @newBlock_length (linkLoop tested cur conditionTail blocks.length loopKind) s!"loop-update@{span.start}" .loopUpdate
    refine both_arrived (both_arrived (fun placement member => ?_) fun placement member => ?_) fun placement member => ?_
    · refine (testArrives shape.entry.testReady trivial stacked placement member).part (by omega) (shape.testWithin.part ?_)
      intro i inside here far
      omega
    · refine (innerArrives shape.bodyReady trivial nested placement member).part (by omega) (shape.bodyWithin.part ?_)
      intro i inside here far
      omega
    · refine (updateArrives shape.updateReady trivial nested placement member).part (by omega) (shape.updateWithin.part ?_)
      intro i inside here far
      omega
  | @«try» loops scope cleanups offset span body catchEvents finallyEvents catchParam catchTypes catchArms blocks cur middle bodyTail
      last final placed placed' _ first second firstArrives secondArrives =>
    intro ready _ stacked
    have shape := tryGrown ready (fun inside => first.grown inside trivial) fun inside => second.grown inside trivial
    have length := @enterTry_length blocks cur span
    have longer := shape.bodyGrown.longer
    have joined := @joinFinally_length middle bodyTail span
    refine both_arrived (fun placement member => ?_) fun placement member => ?_
    · refine Arrived.next ?_ shape.finallyGrown
      refine (firstArrives shape.bodyReady trivial stacked placement member).part (by omega) (shape.bodyWithin.part ?_)
      intro i inside here far
      omega
    · refine (secondArrives shape.finallyReady trivial stacked placement member).part (Nat.le_refl _) fun i inside here far => ?_
      exact ⟨by omega,far,fun j => Iff.rfl⟩
  | @handle loops scope cleanups offset span body catchEvents finallyEvents catchParam catchTypes catchArms blocks cur middle bodyTail
      handled catchTail last final placed placed' placed'' _ first second third firstArrives secondArrives thirdArrives =>
    intro ready _ stacked
    have shape := handleGrown ready (fun inside => first.grown inside trivial) (fun inside => second.grown inside trivial)
      fun inside => third.grown inside trivial
    have length : (enterCatch (enterTry blocks cur span) span blocks.length).length = blocks.length + 3 := by simp
    have longer := shape.bodyGrown.longer
    have longer' := shape.catchGrown.longer
    have joined : (link (joinFinally handled bodyTail span) catchTail handled.length).length = handled.length + 1 := by simp
    refine both_arrived (both_arrived (fun placement member => ?_) fun placement member => ?_) fun placement member => ?_
    · refine Arrived.next ?_ shape.finallyGrown
      refine (firstArrives shape.bodyReady trivial stacked placement member).part (by omega) (shape.bodyWithin.part ?_)
      intro i inside here far
      omega
    · refine Arrived.next ?_ shape.finallyGrown
      refine (secondArrives shape.catchReady trivial stacked placement member).part (by omega) (shape.catchWithin.part ?_)
      intro i inside here far
      omega
    · refine (thirdArrives shape.finallyReady trivial stacked placement member).part (Nat.le_refl _) fun i inside here far => ?_
      exact ⟨by omega,far,fun j => Iff.rfl⟩
  | block _ _ inner =>
    intro ready _ stacked
    exact inner ready trivial stacked
  | @through loops scope cleanup cleanups target blocks cur middle tail last source placed placed' _ copy rest copyArrives restArrives =>
    intro ready entered stacked
    obtain ⟨steps,opened,_⟩ := enterFinally_steps ready.leads
    have copyReady := Ready.of opened ready steps
    have grown := copy.grown copyReady trivial
    have entered' := (entered.later steps.keeps).later grown.steps.keeps
    have shape := throughGrown ready (fun _ => grown) fun inside => rest.grown inside entered'
    have length := @enterFinally_length blocks cur cleanup.frame.span
    have longer := shape.copyGrown.longer
    have longer' := shape.restGrown.longer
    have fresh := shape.copyGrown.fresh
    have fresh' := shape.restGrown.fresh
    refine both_arrived (fun placement member => ?_) fun placement member => ?_
    · refine (copyArrives copyReady trivial stacked placement member).part longer' (shape.copyWithin.part ?_)
      intro i inside here far
      omega
    · refine (restArrives shape.restReady entered' stacked placement member).part (Nat.le_refl _) fun i inside here far => ?_
      exact ⟨by omega,far,fun j => Iff.rfl⟩

end walks

section resolution
variable {exit : Nat} {loops scope : List LoopTargets} {stack : List LoopSite}

theorem Stacked.breaks (stacked : Stacked exit loops) : (loops.map (·.breakTo)).Nodup :=
  List.pairwise_map.mpr (stacked.newer.imp fun older => older.1.ne')

theorem Stacked.nodup (stacked : Stacked exit loops) : loops.Nodup := stacked.breaks.of_map _

theorem Stacked.continues (stacked : Stacked exit loops) : (loops.map (·.continueTo)).Nodup :=
  List.pairwise_map.mpr (stacked.newer.imp fun older => older.2.ne')

theorem Stacked.landing_inj {landing : LoopTargets → Nat} (distinct : (loops.map landing).Nodup)
    (beyond : ∀ target ∈ loops, exit < landing target) {found found' : Option LoopTargets} (among : ∀ target ∈ found, target ∈ loops)
    (among' : ∀ target ∈ found', target ∈ loops) : found.elim exit landing = found'.elim exit landing ↔ found = found' := by
  refine ⟨fun same => ?_,fun same => by rw [same]⟩
  cases found with
  | none =>
    cases found' with
    | none => rfl
    | some target => exact absurd same (beyond target (among' target rfl)).ne
  | some target =>
    cases found' with
    | none => exact absurd same (beyond target (among target rfl)).ne'
    | some other => exact congrArg some (List.inj_on_of_nodup_map distinct (among target rfl) (among' other rfl) same)

theorem transfer_target {event : FlowEvent} (transfer : isTransfer event = true) (stacked : Stacked exit loops) (inner : scope ⊆ loops) :
    (controlTransferTarget event loops exit).1 = (controlTransferTarget event scope exit).1 ↔
      selectTarget (targetOf event) loops = selectTarget (targetOf event) scope := by
  have elim : ∀ (found : Option LoopTargets) (landing : LoopTargets → Nat),
      (found.elim (exit,0) fun target => (landing target,target.retainedFinallyDepth)).1 = found.elim exit landing := by
    intro found landing
    cases found <;> rfl
  have own : ∀ target ∈ selectTarget (targetOf event) loops, target ∈ loops := fun target found => selectTarget_mem found
  have other : ∀ target ∈ selectTarget (targetOf event) scope, target ∈ loops := fun target found => inner (selectTarget_mem found)
  cases event with
  | «break» span target =>
    rw [controlTransferTarget, controlTransferTarget, elim _ (·.breakTo), elim _ (·.breakTo)]
    exact Stacked.landing_inj stacked.breaks (fun target member => (stacked.beyond target member).1) own other
  | «continue» span target =>
    rw [controlTransferTarget, controlTransferTarget, elim _ (·.continueTo), elim _ (·.continueTo)]
    exact Stacked.landing_inj stacked.continues (fun target member => (stacked.beyond target member).2) own other
  | call | assign | aggregateAssign | yield | await | lifecycle | branch | loop | «return» | throw | «try» | defer | «using» =>
    cases transfer

section
variable (outlines : Outlines loops scope stack)
include outlines

theorem Outlines.rows : (loops.zip stack).map (·.1) = loops ∧ (loops.zip stack).map (·.2) = stack :=
  ⟨List.map_fst_zip outlines.length.ge,List.map_snd_zip outlines.length.le⟩

theorem Outlines.subset : scope ⊆ loops := by
  intro target member
  rw [outlines.lexical] at member
  rw [← outlines.rows.1]
  exact List.filter_sublist.map _ |>.subset member

theorem Outlines.row {row : LoopTargets × LoopSite} (member : row ∈ loops.zip stack) :
    row.1.label = row.2.label := by
  obtain ⟨i,inside,rfl⟩ := List.getElem_of_mem member
  rw [List.length_zip] at inside
  have labels := congrArg (fun labels => labels[i]?) outlines.labels
  rw [labelsOf, List.getElem?_map, List.getElem?_map, List.getElem?_eq_getElem (by omega), List.getElem?_eq_getElem (by omega)] at labels
  rw [List.getElem_zip]
  exact (Option.some.inj labels).symm

end

theorem selectTarget_rows {rows : List (LoopTargets × LoopSite)} (distinct : (rows.map (·.1)).Nodup)
    (labels : ∀ row ∈ rows, row.1.label = row.2.label) (target : Option LoopControlTarget) :
    selectTarget target ((rows.filter (!·.2.isForeign)).map (·.1)) = selectTarget target (rows.map (·.1)) ↔
      resolvesLexically (rows.map (·.2)) target = true := by
  have levels : ∀ k, ((rows.filter (!·.2.isForeign)).map (·.1))[k]? = (rows.map (·.1))[k]? ↔
      (rows.map (·.2)).length ≤ k ∨ ((rows.map (·.2)).take (k + 1)).all (!·.isForeign) = true := by
    intro k
    rw [getElem?_filter_iff distinct, List.length_map, ← List.map_take, List.all_map]
    rfl
  cases target with
  | none =>
    rw [selectTarget, selectTarget, List.head?_eq_getElem?, List.head?_eq_getElem?, levels 0, resolvesLexically]
    cases rows <;> simp
  | some target =>
    cases target with
    | label label =>
      have same : rows.find? ((fun target => target.label == some label) ∘ (·.1)) =
          rows.find? ((fun site => site.label == some label) ∘ (·.2)) :=
        List.find?_congr fun row member => congrArg (· == some label) (labels row member)
      rw [selectTarget, selectTarget, find?_filter_iff distinct, same, resolvesLexically, List.find?_map, Option.all_map]
    | levels count =>
      cases count with
      | zero => simp [selectTarget,resolvesLexically]
      | succ k =>
        have found := levels k
        simp only [selectTarget, resolvesLexically]
        simpa [Nat.lt_succ_iff] using found

-- The stack resolves a target as the loops around it do exactly when no foreign loop is
-- in between.
theorem selectTarget_lexical (outlines : Outlines loops scope stack) (distinct : loops.Nodup) (target : Option LoopControlTarget) :
    selectTarget target loops = selectTarget target scope ↔ resolvesLexically stack target = true := by
  obtain ⟨first,second⟩ := outlines.rows
  have rows := selectTarget_rows (first.symm ▸ distinct) (fun row member => outlines.row member) target
  rwa [← outlines.lexical, first, second, eq_comm] at rows

end resolution

section transfers
variable (functionSpan : Option Span) (events : List FlowEvent)

theorem placement_arrives {placement : Placement} (member : placement ∈ placements events) : Stacked 0 placement.loops ∧
    (isTransfer placement.event = true → ∀ j, Edge (walkerBlocks functionSpan events) placement.source j ↔
      j = (controlTransferTarget placement.event placement.loops 0).1) := by
  have walked := walked_placements events
  have grown := walked.grown startBlocks_ready trivial
  obtain ⟨stacked,settles⟩ := walked.arrives startBlocks_ready trivial ⟨.nil,nofun⟩ placement member
  refine ⟨stacked,fun transfer j => ?_⟩
  have settled := settles transfer
  have entered := (startBlocks_ready.entered.later grown.steps.keeps).exit
  have linked := steps_link grown.leads (Nat.zero_le 1) entered
  exact (edge_fillSpans functionSpan).trans ((linked.edge_iff settled.inside settled.left j).trans (settled.leads j))

theorem placed_lexical {placement : Placement} {site : Site} (member : placement ∈ placements events)
    (placed : Placed "" functionSpan events placement site) (transfer : isTransfer placement.event = true) :
    (∀ j, Edge (walkerBlocks functionSpan events) placement.source j ↔
      j = (controlTransferTarget placement.event placement.scope 0).1) ↔
      resolvesLexically site.stack (targetOf site.event) = true := by
  obtain ⟨stacked,edges⟩ := placement_arrives functionSpan events member
  rw [← placed.event, ← selectTarget_lexical placed.outlines stacked.nodup,
    ← transfer_target transfer stacked placed.outlines.subset]
  constructor
  · intro lexical
    exact (lexical _).mp ((edges transfer _).mpr rfl)
  · intro equal j
    rw [← equal]
    exact edges transfer j

theorem resolves_of_lexical (lexical : TransfersLexically functionSpan events) :
    ∀ site ∈ (outline events).sites, isTransfer site.event = true → resolvesLexically site.stack (targetOf site.event) = true := by
  intro site member transfer
  obtain ⟨placement,among,placed⟩ := placement_of "" functionSpan events member
  rw [← placed.event] at transfer
  exact (placed_lexical functionSpan events among placed transfer).mp (lexical placement among transfer)

theorem lexical_of_resolves (resolves : ∀ site ∈ (outline events).sites, isTransfer site.event = true →
    resolvesLexically site.stack (targetOf site.event) = true) : TransfersLexically functionSpan events := by
  intro placement member transfer
  obtain ⟨site,among,placed⟩ := site_of "" functionSpan events member
  exact (placed_lexical functionSpan events member placed transfer).mpr (resolves site among (placed.event ▸ transfer))

theorem transfers_lexically_iff : TransfersLexically functionSpan events ↔
    ∀ site ∈ (outline events).sites, isTransfer site.event = true → resolvesLexically site.stack (targetOf site.event) = true :=
  ⟨resolves_of_lexical functionSpan events,lexical_of_resolves functionSpan events⟩

end transfers

def crossedBreak : List FlowEvent :=
  [.loop ⟨0,0,90⟩ .loop none [] []
    [.try ⟨0,10,80⟩ [.loop ⟨0,20,40⟩ .loop none [] [] [.return ⟨0,30,36⟩ none none none]] [] [.break ⟨0,60,66⟩ none] none [] []]]

theorem crossed_break_lost : ¬TransfersLexically none crossedBreak := by
  intro lexical
  have resolves := resolves_of_lexical none crossedBreak lexical
  have site : ⟨1,.break ⟨0,60,66⟩ none,[⟨none,1,true⟩,⟨none,0,false⟩],true⟩ ∈ (outline crossedBreak).sites := by
    simp [outline,crossedBreak,normalizeDeferredScopes,normalizeDeferredScope,flowAll,flowEvent,flowPath,hasCatch,leafCount,leavesAll,
      leaves,terminatorOf,transferOf,retainedDepth,copyStack]
  cases resolves _ site rfl

end BonsaiNinja.Cfg
