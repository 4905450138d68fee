import BonsaiNinja.Cfg.WalkRegions

namespace BonsaiNinja.Cfg
open Library LangApi

def eventsOf (blocks : Blocks) (id : Nat) : List FlowEvent := blocks[id]?.elim [] (·.events)

def eventsAt (placed : List Placement) (id : Nat) : List FlowEvent := (placed.filter (·.block = id)).map (·.event)

section events
variable {exit cur id : Nat} {blocks : Blocks} {span : Span} {placed placed' : List Placement}

@[simp] theorem eventsAt_nil : eventsAt [] id = [] := rfl

@[simp] theorem eventsAt_append : eventsAt (placed ++ placed') id = eventsAt placed id ++ eventsAt placed' id := by
  simp [eventsAt]

theorem eventsOf_modify {change : BasicBlock → BasicBlock} (same : ∀ block, (change block).events = block.events) :
    eventsOf (blocks.modify cur change) id = eventsOf blocks id := by
  unfold eventsOf
  rw [List.getElem?_modify]
  cases blocks[id]? with
  | none => rfl
  | some block =>
    change (if cur = id then change block else block).events = block.events
    split
    · exact same block
    · rfl

@[simp] theorem eventsOf_newBlock (label : String) (kind : SyntheticBlockKind) :
    eventsOf (newBlock blocks label kind) id = eventsOf blocks id := by
  unfold eventsOf
  rw [getElem?_newBlock]
  split
  · next last => rw [last, List.getElem?_eq_none (Nat.le_refl _)]; rfl
  · rfl

@[simp] theorem eventsOf_link (target : Nat) : eventsOf (link blocks cur target) id = eventsOf blocks id :=
  eventsOf_modify fun block => by split <;> rfl

@[simp] theorem eventsOf_recordSpan : eventsOf (recordSpan blocks cur span) id = eventsOf blocks id :=
  eventsOf_modify fun block => by split <;> rfl

@[simp] theorem eventsOf_setTerminator (terminator : Terminator) :
    eventsOf (setTerminator blocks cur terminator) id = eventsOf blocks id := eventsOf_modify fun _ => rfl

theorem eventsOf_pushEvent (event : FlowEvent) (inside : cur < blocks.length) :
    eventsOf (pushEvent blocks cur event) id = eventsOf blocks id ++ if cur = id then [event] else [] := by
  unfold eventsOf pushEvent
  rw [List.getElem?_modify]
  by_cases here : cur = id
  · subst here
    rw [List.getElem?_eq_getElem inside]
    simp
  · cases blocks[id]? with
    | none => simp [here]
    | some block => simp [here]

@[simp] theorem eventsOf_forkBranch : eventsOf (forkBranch blocks cur span) id = eventsOf blocks id := by simp [forkBranch]

@[simp] theorem eventsOf_enterLoop : eventsOf (enterLoop blocks cur span) id = eventsOf blocks id := by simp [enterLoop]

@[simp] theorem eventsOf_linkLoop {conditionTail header : Nat} {loopKind : LoopKind} :
    eventsOf (linkLoop blocks cur conditionTail header loopKind) id = eventsOf blocks id := by
  unfold linkLoop
  dsimp only
  split <;> simp

@[simp] theorem eventsOf_enterTry : eventsOf (enterTry blocks cur span) id = eventsOf blocks id := by simp [enterTry]

@[simp] theorem eventsOf_enterCatch {anchor : Nat} : eventsOf (enterCatch blocks span anchor) id = eventsOf blocks id := by
  simp [enterCatch]

@[simp] theorem eventsOf_joinFinally : eventsOf (joinFinally blocks cur span) id = eventsOf blocks id := by simp [joinFinally]

@[simp] theorem eventsOf_enterFinally : eventsOf (enterFinally blocks cur span) id = eventsOf blocks id := by simp [enterFinally]

@[simp] theorem eventsOf_addDead : eventsOf (addDead blocks) id = eventsOf blocks id := by simp [addDead]

theorem eventsOf_markAbrupt {event : FlowEvent} {terminator : Terminator} (inside : cur < blocks.length) :
    eventsOf (markAbrupt blocks cur event terminator) id = eventsOf blocks id ++ if cur = id then [event] else [] := by
  unfold markAbrupt
  rw [eventsOf_pushEvent event (by rwa [setTerminator_length, recordSpan_length]), eventsOf_setTerminator, eventsOf_recordSpan]

theorem eventsAt_cons (placement : Placement) : eventsAt (placement :: placed) id =
    (if placement.block = id then [placement.event] else []) ++ eventsAt placed id := by
  unfold eventsAt
  rw [List.filter_cons]
  by_cases here : placement.block = id <;> simp [here]

end events

section walks
variable {exit cur tail : Nat} {loops scope : List LoopTargets} {cleanups : List (Cleanup LoopTargets)} {task : Task}
  {blocks last : Blocks} {placed : List Placement}

section
variable (walked : Walked exit loops scope cleanups task blocks cur last tail placed)
include walked

theorem Walked.events :
    Ready exit loops blocks cur → task.Enters blocks → ∀ id, eventsOf last id = eventsOf blocks id ++ eventsAt placed id := by
  induction walked with
  | none =>
    intro _ _ id
    rw [eventsAt_nil, List.append_nil]
  | next first _ firstEvents restEvents =>
    intro ready _ id
    have grown := first.grown ready trivial
    rw [restEvents (Ready.of grown.leads ready grown.steps) trivial, firstEvents ready trivial, eventsAt_append, List.append_assoc]
  | plain _ =>
    intro ready _ id
    rw [eventsOf_pushEvent _ (by rw [recordSpan_length]; exact ready.leads.lt), eventsOf_recordSpan, eventsAt_cons, eventsAt_nil,
      List.append_nil]
  | arrive _ _ =>
    intro ready _ id
    rw [eventsOf_addDead, eventsAt_cons, eventsAt_nil, List.append_nil]
    split
    · rw [eventsOf_link, eventsOf_markAbrupt ready.leads.lt]
    · exact eventsOf_markAbrupt ready.leads.lt
  | @leave loops scope cleanups offset event terminator blocks cur last source placed _ _ _ path =>
    intro ready _ id
    have marked := ready.mark event terminator
    rw [eventsOf_addDead, path marked (marked.entered.transfer event), eventsOf_markAbrupt ready.leads.lt, eventsAt_cons,
      List.append_assoc]
  | branch first second firstEvents secondEvents =>
    intro ready _ id
    have shape := branchGrown ready (fun inside => first.grown inside trivial) fun inside => second.grown inside trivial
    rw [eventsOf_link, eventsOf_link, secondEvents shape.elseReady trivial, firstEvents shape.thenReady trivial,
      eventsOf_forkBranch, eventsAt_append, List.append_assoc]
  | @loop loops scope cleanups offset span loopKind label conditionEvents body blocks cur tested conditionTail target last bodyTail
      _ _ test targetSame inner testEvents innerEvents =>
    intro ready _ id
    subst targetSame
    have shape := loopGrown ready (loopEntered loopKind ready fun inside => test.grown inside trivial) rfl rfl
      fun inside => inner.grown inside trivial
    rw [eventsOf_link, innerEvents shape.bodyReady trivial, eventsOf_linkLoop, testEvents shape.entry.testReady trivial,
      eventsOf_enterLoop, eventsAt_append, List.append_assoc]
  | @update loops scope cleanups offset span loopKind label conditionEvents updateEvents body blocks cur tested conditionTail linked
      target middle bodyTail last updateTail _ _ _ _ test linkedSame targetSame inner update testEvents innerEvents updateEvents' =>
    intro ready _ id
    subst linkedSame targetSame
    have shape := updateGrown _ ready (loopEntered loopKind ready fun inside => test.grown inside trivial) rfl rfl
      (fun inside => inner.grown inside trivial) fun inside => update.grown inside trivial
    rw [eventsOf_link, updateEvents' shape.updateReady trivial, eventsOf_link, innerEvents shape.bodyReady trivial,
      eventsOf_newBlock, eventsOf_linkLoop, testEvents shape.entry.testReady trivial, eventsOf_enterLoop, eventsAt_append,
      eventsAt_append, List.append_assoc, List.append_assoc, List.append_assoc]
  | «try» _ first second firstEvents secondEvents =>
    intro ready _ id
    have shape := tryGrown ready (fun inside => first.grown inside trivial) fun inside => second.grown inside trivial
    rw [secondEvents shape.finallyReady trivial, eventsOf_joinFinally, firstEvents shape.bodyReady trivial, eventsOf_enterTry,
      eventsAt_append, List.append_assoc]
  | handle _ first second third firstEvents secondEvents thirdEvents =>
    intro ready _ id
    have shape := handleGrown ready (fun inside => first.grown inside trivial) (fun inside => second.grown inside trivial)
      fun inside => third.grown inside trivial
    rw [thirdEvents shape.finallyReady trivial, eventsOf_link, eventsOf_joinFinally, secondEvents shape.catchReady trivial,
      firstEvents shape.bodyReady trivial, eventsOf_enterCatch, eventsOf_enterTry, eventsAt_append, eventsAt_append,
      List.append_assoc, List.append_assoc, List.append_assoc]
  | block _ _ inner =>
    intro ready _ id
    exact inner ready trivial id
  | reached _ =>
    intro _ _ id
    rw [eventsOf_link, eventsAt_nil, List.append_nil]
  | through _ copy rest copyEvents restEvents =>
    intro ready entered id
    obtain ⟨steps,opened,_⟩ := enterFinally_steps ready.leads
    have copyReady := Ready.of opened ready steps
    have grown := copy.grown copyReady trivial
    have entered' := (entered.later steps.keeps).later grown.steps.keeps
    rw [restEvents (Ready.of grown.leads copyReady grown.steps) entered', copyEvents copyReady trivial, eventsOf_enterFinally,
      eventsAt_append, List.append_assoc]

def Task.AlignedTo (whole : List FlowEvent) : Task → Prop
  | .all offset events => Aligned whole offset (leavesAll events)
  | .one offset event => Aligned whole offset (leaves event)
  | .path _ => True

theorem Walked.occurrences {whole : List FlowEvent} :
    task.AlignedTo whole → (∀ cleanup ∈ cleanups, Aligned whole cleanup.offset (leavesAll cleanup.frame.events)) →
      ∀ placement ∈ placed, whole[placement.occurrence]? = some placement.event := by
  have both : ∀ {placed placed' : List Placement}, (∀ placement ∈ placed, whole[placement.occurrence]? = some placement.event) →
      (∀ placement ∈ placed', whole[placement.occurrence]? = some placement.event) →
      ∀ placement ∈ placed ++ placed', whole[placement.occurrence]? = some placement.event :=
    fun first second placement member => (List.mem_append.mp member).elim (first placement) (second placement)
  induction walked with
  | none | reached => nofun
  | next _ _ first rest =>
    intro aligned around
    obtain ⟨head,tail⟩ := Aligned.append aligned
    exact both (first head around) (rest tail around)
  | @plain loops scope cleanups offset event blocks cur simple =>
    intro aligned _ placement member
    cases List.mem_singleton.mp member
    cases event with
    | call | assign | aggregateAssign | yield | await | lifecycle => exact Aligned.head aligned
    | branch | loop | «return» | throw | «try» | «break» | «continue» | defer | «using» => cases simple
  | @arrive loops scope cleanups offset event terminator blocks cur abrupt _ =>
    intro aligned _ placement member
    cases List.mem_singleton.mp member
    cases event with
    | «return» | throw | «break» | «continue» => exact Aligned.head aligned
    | call | assign | aggregateAssign | yield | await | lifecycle | branch | loop | «try» | defer | «using» => cases abrupt
  | @leave loops scope cleanups offset event terminator blocks cur last source placed abrupt _ _ path =>
    intro aligned around placement member
    rcases List.mem_cons.mp member with rfl | inside
    · cases event with
      | «return» | throw | «break» | «continue» => exact Aligned.head aligned
      | call | assign | aggregateAssign | yield | await | lifecycle | branch | loop | «try» | defer | «using» => cases abrupt
    · exact path trivial around placement inside
  | branch _ _ first second =>
    intro aligned around
    obtain ⟨head,tail⟩ := Aligned.append aligned
    exact both (first head around) (second tail around)
  | loop _ _ _ first second =>
    intro aligned around
    obtain ⟨both',third⟩ := Aligned.append aligned
    rw [List.length_append, ← Nat.add_assoc] at third
    exact both (first both'.append.1 around) (second third around)
  | update _ _ _ _ _ _ first second third =>
    intro aligned around
    obtain ⟨both',body⟩ := Aligned.append aligned
    rw [List.length_append, ← Nat.add_assoc] at body
    obtain ⟨condition,update⟩ := both'.append
    exact both (both (first condition around) (second body around)) (third update around)
  | «try» _ _ _ first second =>
    intro aligned around
    obtain ⟨both',cleanup⟩ := Aligned.append aligned
    rw [List.length_append, ← Nat.add_assoc] at cleanup
    refine both (first both'.append.1 ?_) (second cleanup around)
    exact List.forall_mem_cons.mpr ⟨cleanup,around⟩
  | handle _ _ _ _ first second third =>
    intro aligned around
    obtain ⟨both',cleanup⟩ := Aligned.append aligned
    rw [List.length_append, ← Nat.add_assoc] at cleanup
    obtain ⟨body,handler⟩ := both'.append
    exact both (both (first body (List.forall_mem_cons.mpr ⟨cleanup,around⟩))
      (second handler (List.forall_mem_cons.mpr ⟨cleanup,around⟩))) (third cleanup around)
  | block either _ inner =>
    intro aligned around
    obtain ⟨span,rfl | rfl⟩ := either
    · exact inner aligned around
    · exact inner aligned around
  | through _ _ _ copy rest =>
    intro _ around
    obtain ⟨own,outer⟩ := List.forall_mem_cons.mp around
    exact both (copy own outer) (rest trivial outer)

end

end walks

end BonsaiNinja.Cfg
