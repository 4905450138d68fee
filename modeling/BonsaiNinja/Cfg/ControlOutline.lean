import BonsaiNinja.Cfg.ExecutableOrder

namespace BonsaiNinja.Cfg
open Library LangApi

-- A loop on the stack of the walk, without its blocks. A foreign one is around the
-- event only because a finally body was copied into it.
structure LoopSite where
  label : Option Text
  retainedFinallyDepth : Nat
  isForeign : Bool
  deriving DecidableEq, Repr

-- One place of an event among the copies of the finally bodies, and whether control
-- gets there.
structure Site where
  occurrence : Nat
  event : FlowEvent
  stack : List LoopSite
  live : Bool

-- What control does in a part of the tree: whether it falls through, where it jumps,
-- and the places it passes.
structure Flow where
  fallsThrough : Bool
  jumps : List Outcome
  sites : List Site

def outward (jumps : List Outcome) : List Outcome :=
  jumps.filterMap fun
    | .break 0 | .continue 0 => none
    | .break (loop + 1) => some (.break loop)
    | .continue (loop + 1) => some (.continue loop)
    | outcome => some outcome

def transferOf (stack : List LoopSite) : FlowEvent → Outcome
  | .break _ target => transferOutcome .break (resolveTarget (stack.map (·.label)) target)
  | .continue _ target => transferOutcome .continue (resolveTarget (stack.map (·.label)) target)
  | _ => .exit

def retainedDepth (stack : List LoopSite) : Outcome → Nat
  | .break loop | .continue loop => stack[loop]?.elim 0 (·.retainedFinallyDepth)
  | _ => 0

-- The stack of a copied finally body: the loops that were not yet open when its try
-- was entered are foreign to it.
def copyStack (stack : List LoopSite) (cleanup : Cleanup LoopSite) : List LoopSite :=
  (stack.take (stack.length - cleanup.scope.length)).map ({· with isForeign := true}) ++ cleanup.scope

mutual

def flowAll (stack : List LoopSite) (pending : List (Cleanup LoopSite)) (live : Bool) (offset : Nat) : List FlowEvent → Flow
  | [] => ⟨live,[],[]⟩
  | event :: events =>
    let first := flowEvent stack pending live offset event
    let later := flowAll stack pending first.fallsThrough (offset + (leaves event).length) events
    ⟨later.fallsThrough,first.jumps ++ later.jumps,first.sites ++ later.sites⟩
termination_by events => framesSize (framesOf pending) + 2 * sizeOf events

def flowEvent (stack : List LoopSite) (pending : List (Cleanup LoopSite)) (live : Bool) (offset : Nat) (event : FlowEvent) : Flow :=
  match event with
  | .branch _ _ thenEvents elseEvents =>
    let first := flowAll stack pending live offset thenEvents
    let second := flowAll stack pending live (offset + leafCount thenEvents) elseEvents
    ⟨first.fallsThrough || second.fallsThrough,first.jumps ++ second.jumps,first.sites ++ second.sites⟩
  | .loop _ loopKind label conditionEvents updateEvents body =>
    let nested := ⟨label,pending.length,false⟩ :: stack
    let bodyOffset := offset + leafCount conditionEvents + leafCount updateEvents
    let updateOffset := offset + leafCount conditionEvents
    if loopKind = .doWhile then
      let inside := flowAll nested pending live bodyOffset body
      let update := flowAll nested pending inside.fallsThrough updateOffset updateEvents
      let jumps := inside.jumps ++ update.jumps
      let condition := flowAll stack pending (update.fallsThrough || decide (.continue 0 ∈ jumps)) offset conditionEvents
      ⟨condition.fallsThrough || decide (.break 0 ∈ jumps),condition.jumps ++ outward jumps,
        condition.sites ++ inside.sites ++ update.sites⟩
    else
      let condition := flowAll stack pending live offset conditionEvents
      let inside := flowAll nested pending condition.fallsThrough bodyOffset body
      let update := flowAll nested pending (inside.fallsThrough || decide (.continue 0 ∈ inside.jumps)) updateOffset updateEvents
      let jumps := inside.jumps ++ update.jumps
      ⟨condition.fallsThrough && decide (loopKind ≠ .loop) || decide (.break 0 ∈ jumps),condition.jumps ++ outward jumps,
        condition.sites ++ inside.sites ++ update.sites⟩
  | .try span body catchEvents finallyEvents catchParam catchTypes catchArms =>
    let caught := hasCatch catchEvents catchParam catchTypes catchArms
    let finallyOffset := offset + leafCount body + leafCount catchEvents
    let inner := ⟨⟨span,finallyEvents⟩,finallyOffset,stack⟩ :: pending
    let tried := flowAll stack inner live offset body
    let handled := if caught then flowAll stack inner live (offset + leafCount body) catchEvents else ⟨false,[],[]⟩
    let cleanup := flowAll stack pending (tried.fallsThrough || handled.fallsThrough) finallyOffset finallyEvents
    ⟨cleanup.fallsThrough,tried.jumps ++ handled.jumps ++ cleanup.jumps,tried.sites ++ handled.sites ++ cleanup.sites⟩
  | .defer _ body | .using _ body => flowAll stack pending live offset body
  | event =>
    match terminatorOf event with
    | none => ⟨live,[],[⟨offset,event,stack,live⟩]⟩
    | some _ =>
      let outcome := transferOf stack event
      let depth := retainedDepth stack outcome
      let path := if pending.length = depth then
          ⟨false,if live && !leavesFunction event then [outcome] else [],[]⟩
        else flowPath stack outcome depth live pending
      ⟨false,path.jumps,⟨offset,event,stack,live⟩ :: path.sites⟩
termination_by framesSize (framesOf pending) + 2 * sizeOf event
decreasing_by
  all_goals first
    | decreasing_tactic
    | have positive := event_size_pos event
      omega

-- A transfer runs the finally bodies that it leaves, each in a copy of its own.
def flowPath (stack : List LoopSite) (outcome : Outcome) (retainedFinallyDepth : Nat) (live : Bool) :
    List (Cleanup LoopSite) → Flow
  | [] => ⟨live,if live then [outcome] else [],[]⟩
  | cleanup :: pending =>
    if pending.length < retainedFinallyDepth then ⟨live,if live then [outcome] else [],[]⟩
    else
      let copy := flowAll (copyStack stack cleanup) pending live cleanup.offset cleanup.frame.events
      let later := flowPath stack outcome retainedFinallyDepth copy.fallsThrough pending
      ⟨later.fallsThrough,copy.jumps ++ later.jumps,copy.sites ++ later.sites⟩
termination_by pending => framesSize (framesOf pending)

end

structure Executed (nested : List (Nat × Nat)) (kept : List Nat) (occurrence : Nat) : Prop where
  kept : occurrence ∈ kept
  still : ∀ pair ∈ nested, pair.2 ≠ occurrence

def ExecutedAll (offset : Nat) (events : List FlowEvent) : Nat → Prop :=
  Executed (nestedAll offset events) (keptAll offset events)

def ExecutedPending (pending : List (Cleanup LoopSite)) (occurrence : Nat) : Prop :=
  ∃ cleanup ∈ pending, ExecutedAll cleanup.offset cleanup.frame.events occurrence

-- Control passes only places that pruning keeps, in the part itself or in a pending
-- finally body, and only when it enters the part.
structure Explained (pending : List (Cleanup LoopSite)) (live : Bool) (executed : Nat → Prop) (fallsThrough : Bool) (flow : Flow) :
    Prop where
  falls : flow.fallsThrough = true → live = true ∧ fallsThrough = true
  jumps : ∀ jump ∈ flow.jumps, live = true
  sites : ∀ site ∈ flow.sites, site.live = true → live = true ∧ (executed site.occurrence ∨ ExecutedPending pending site.occurrence)

section executed
variable {nested nested' : List (Nat × Nat)} {lower middle upper : Nat} {kept kept' : List Nat} {occurrence : Nat}

theorem Executed.left (executed : Executed nested kept occurrence) (first : Hoisted nested lower middle kept)
    (second : Between middle upper nested') : Executed (nested ++ nested') (kept ++ kept') occurrence where
  kept := List.mem_append_left _ executed.kept
  still pair member := by
    rcases List.mem_append.mp member with here | there
    · exact executed.still pair here
    · have below := (first.bounds occurrence executed.kept).2
      have above := second pair there
      omega

theorem Executed.right (executed : Executed nested' kept' occurrence) (first : Between lower middle nested)
    (second : Hoisted nested' middle upper kept') : Executed (nested ++ nested') (kept ++ kept') occurrence where
  kept := List.mem_append_right _ executed.kept
  still pair member := by
    rcases List.mem_append.mp member with here | there
    · have above := (second.bounds occurrence executed.kept).1
      have below := first pair here
      omega
    · exact executed.still pair there

end executed

section explained
variable {pending : List (Cleanup LoopSite)} {live live' : Bool} {executed executed' : Nat → Prop} {fallsThrough : Bool} {flow : Flow}

theorem Explained.sites_mono (explained : Explained pending live executed fallsThrough flow)
    (wider : ∀ occurrence, executed occurrence → executed' occurrence) {site : Site} (member : site ∈ flow.sites)
    (alive : site.live = true) : live = true ∧ (executed' site.occurrence ∨ ExecutedPending pending site.occurrence) := by
  obtain ⟨enters,here | there⟩ := explained.sites site member alive
  · exact ⟨enters,.inl (wider _ here)⟩
  · exact ⟨enters,.inr there⟩

end explained

section sequences
variable {offset occurrence : Nat} {event : FlowEvent} {events first second third : List FlowEvent}

theorem nestedAll_cons (stays : leavesFunction event = false) :
    nestedAll offset (event :: events) = nestedEvent offset event ++ nestedAll (offset + (leaves event).length) events := by
  rw [nestedAll, stays, if_neg Bool.false_ne_true, List.nil_append]

theorem keptAll_cons (stays : leavesFunction event = false) : keptAll offset (event :: events) =
    keptEvent offset event ++ if (pruneEvent event).2 then keptAll (offset + (leaves event).length) events else [] := by
  rw [keptAll, stays, if_neg Bool.false_ne_true]

theorem executed_head (executed : Executed (nestedEvent offset event) (keptEvent offset event) occurrence) :
    ExecutedAll offset (event :: events) occurrence := by
  have between := nestedAll_between (offset + (leaves event).length) events
  cases abrupt : leavesFunction event with
  | false =>
    rw [ExecutedAll, nestedAll_cons abrupt, keptAll_cons abrupt]
    exact executed.left (keptEvent_hoisted offset event) between
  | true =>
    have one : (leaves event).length = 1 := by rw [(leavesFunction_leaf abrupt).2.1]; rfl
    have here : occurrence = offset := by
      have bounds := (keptEvent_hoisted offset event).bounds occurrence executed.kept
      omega
    subst here
    refine ⟨?_,fun pair member => ?_⟩
    · rw [keptAll, if_pos abrupt]
      exact List.mem_append_right _ (List.mem_singleton_self _)
    · have behind := nestedAll_between occurrence (event :: events) pair member
      omega

theorem executed_tail (falls : (pruneEvent event).2 = true)
    (executed : ExecutedAll (offset + (leaves event).length) events occurrence) :
    ExecutedAll offset (event :: events) occurrence := by
  cases abrupt : leavesFunction event with
  | false =>
    rw [ExecutedAll, nestedAll_cons abrupt, keptAll_cons abrupt, if_pos falls]
    exact Executed.right executed (nestedEvent_between offset event) (keptAll_hoisted _ events)
  | true =>
    rw [(leavesFunction_leaf abrupt).1] at falls
    cases falls

theorem executed_part (executed : ExecutedAll offset first occurrence ∨ ExecutedAll (offset + leafCount first) second occurrence ∨
      ExecutedAll (offset + leafCount first + leafCount second) third occurrence) :
    Executed (nestedAll offset first ++ nestedAll (offset + leafCount first) second ++
        nestedAll (offset + leafCount first + leafCount second) third)
      (keptAll offset first ++ keptAll (offset + leafCount first) second ++
        keptAll (offset + leafCount first + leafCount second) third) occurrence := by
  have hoisted := (keptAll_hoisted offset first).append (keptAll_hoisted (offset + leafCount first) second)
  rcases executed with executed | executed | executed
  · exact (Executed.left executed (keptAll_hoisted offset first) (nestedAll_between _ second)).left hoisted (nestedAll_between _ third)
  · exact (Executed.right executed (nestedAll_between offset first) (keptAll_hoisted _ second)).left hoisted (nestedAll_between _ third)
  · exact Executed.right executed hoisted.between (keptAll_hoisted _ third)

theorem mem_outward {jumps : List Outcome} {jump : Outcome} (member : jump ∈ outward jumps) : ∃ inner, inner ∈ jumps := by
  obtain ⟨inner,among,_⟩ := List.mem_filterMap.mp member
  exact ⟨inner,among⟩

end sequences

section flows
variable {pending : List (Cleanup LoopSite)} {live : Bool}

-- Control comes into a loop by its entry alone.
theorem explained_loop (leaves : Bool) {entered tested resumed : Bool} {offset : Nat} {conditionEvents updateEvents body : List FlowEvent}
    {condition inside update : Flow}
    (first : Explained pending tested (ExecutedAll offset conditionEvents) (pruneUnreachableSequence conditionEvents).2 condition)
    (second : Explained pending entered (ExecutedAll (offset + leafCount conditionEvents + leafCount updateEvents) body)
      (pruneUnreachableSequence body).2 inside)
    (third : Explained pending resumed (ExecutedAll (offset + leafCount conditionEvents) updateEvents)
      (pruneUnreachableSequence updateEvents).2 update)
    (tests : tested = true → live = true) (enters : entered = true → live = true) (resumes : resumed = true → live = true) :
    Explained pending live
      (Executed (nestedAll offset conditionEvents ++ nestedAll (offset + leafCount conditionEvents) updateEvents ++
          nestedAll (offset + leafCount conditionEvents + leafCount updateEvents) body)
        (keptAll offset conditionEvents ++ keptAll (offset + leafCount conditionEvents) updateEvents ++
          keptAll (offset + leafCount conditionEvents + leafCount updateEvents) body)) true
      ⟨condition.fallsThrough && leaves || decide (.break 0 ∈ inside.jumps ++ update.jumps),
        condition.jumps ++ outward (inside.jumps ++ update.jumps),condition.sites ++ inside.sites ++ update.sites⟩ := by
  have jumps : ∀ jump ∈ inside.jumps ++ update.jumps, live = true := by
    intro jump member
    rcases List.mem_append.mp member with here | there
    · exact enters (second.jumps jump here)
    · exact resumes (third.jumps jump there)
  exact
    { falls := fun falls => by
        refine ⟨?_,rfl⟩
        rcases Bool.or_eq_true_iff.mp falls with normal | broken
        · exact tests (first.falls (Bool.and_eq_true_iff.mp normal).1).1
        · exact jumps _ (of_decide_eq_true broken)
      jumps := fun jump member => by
        rcases List.mem_append.mp member with here | there
        · exact tests (first.jumps jump here)
        · obtain ⟨inner,among⟩ := mem_outward there
          exact jumps inner among
      sites := fun site member alive => by
        rcases List.mem_append.mp member with both | last
        · rcases List.mem_append.mp both with here | there
          · exact (first.sites_mono (fun _ => executed_part ∘ .inl) here alive).imp tests id
          · exact (second.sites_mono (fun _ => executed_part ∘ .inr ∘ .inr) there alive).imp enters id
        · exact (third.sites_mono (fun _ => executed_part ∘ .inr ∘ .inl) last alive).imp resumes id }

theorem hasCatch_prune {catchEvents : List FlowEvent} {catchParam : Option Text} {catchTypes : List Text}
    {catchArms : List CatchArmFact} : hasCatch (pruneUnreachableSequence catchEvents).1 catchParam catchTypes catchArms =
      hasCatch catchEvents catchParam catchTypes catchArms := by
  have same : (pruneUnreachableSequence catchEvents).1.isEmpty = catchEvents.isEmpty := by
    cases catchEvents with
    | nil => rfl
    | cons event events =>
      rw [pruneUnreachableSequence]
      split
      · cases nestedCalls (eventSpan event) events <;> rfl
      · dsimp only
        split <;> rfl
  rw [hasCatch, hasCatch, same]

theorem flowEvent_transfer {stack : List LoopSite} {offset : Nat} {event : FlowEvent} {terminator : Terminator}
    (abrupt : terminatorOf event = some terminator) : flowEvent stack pending live offset event =
      let outcome := transferOf stack event
      let depth := retainedDepth stack outcome
      let path := if pending.length = depth then
          ⟨false,if live && !leavesFunction event then [outcome] else [],[]⟩
        else flowPath stack outcome depth live pending
      ⟨false,path.jumps,⟨offset,event,stack,live⟩ :: path.sites⟩ := by
  cases event with
  | «return» | throw | «break» | «continue» =>
    rw [flowEvent]
    · rfl
    all_goals
      intros
      contradiction
  | call | assign | aggregateAssign | yield | await | lifecycle | branch | loop | «try» | defer | «using» => cases abrupt

theorem Explained.onlyIf {executed : Nat → Prop} {fallsThrough : Bool} {flow : Flow}
    (explained : Explained pending live executed fallsThrough flow) (possible : Bool) :
    Explained pending live executed (possible && fallsThrough) (if possible then flow else ⟨false,[],[]⟩) := by
  cases possible with
  | false => exact ⟨nofun,nofun,nofun⟩
  | true => exact explained

theorem explained_arrives {outcome : Outcome} {executed : Nat → Prop} :
    Explained pending live executed true ⟨live,if live then [outcome] else [],[]⟩ := by
  refine ⟨fun falls => ⟨falls,rfl⟩,fun jump member => ?_,nofun⟩
  dsimp only at member
  split at member
  · assumption
  · cases member

theorem executed_deferred {offset occurrence : Nat} {body : List FlowEvent} (executed : ExecutedAll offset body occurrence) :
    Executed [] ((List.range (leafCount body)).map (offset + ·)) occurrence := by
  have bounds := (keptAll_hoisted offset body).bounds occurrence executed.kept
  refine ⟨List.mem_map.mpr ⟨occurrence - offset,List.mem_range.mpr (by omega),by omega⟩,nofun⟩

mutual

theorem flowAll_explained (stack : List LoopSite) (pending : List (Cleanup LoopSite)) : ∀ live offset events,
    Explained pending live (ExecutedAll offset events) (pruneUnreachableSequence events).2 (flowAll stack pending live offset events)
  | live, offset, [] => by
    rw [flowAll]
    exact ⟨fun falls => ⟨falls,rfl⟩,nofun,nofun⟩
  | live, offset, event :: events => by
    rw [flowAll]
    have first := flowEvent_explained stack pending live offset event
    generalize flowEvent stack pending live offset event = flow at first ⊢
    have later := flowAll_explained stack pending flow.fallsThrough (offset + (leaves event).length) events
    generalize flowAll stack pending flow.fallsThrough _ events = rest at later ⊢
    exact
      { falls := fun falls => by
          obtain ⟨enters,laterFalls⟩ := later.falls falls
          obtain ⟨alive,firstFalls⟩ := first.falls enters
          refine ⟨alive,?_⟩
          rw [pruneUnreachableSequence]
          split
          · next abrupt =>
            rw [(leavesFunction_leaf abrupt).1] at firstFalls
            cases firstFalls
          · simp only [firstFalls, if_true, laterFalls]
        jumps := fun jump member => by
          rcases List.mem_append.mp member with here | there
          · exact first.jumps jump here
          · exact (first.falls (later.jumps jump there)).1
        sites := fun site member alive => by
          rcases List.mem_append.mp member with here | there
          · exact first.sites_mono (fun _ => executed_head) here alive
          · have entered := (later.sites site there alive).1
            obtain ⟨enters,falls⟩ := first.falls entered
            exact (later.sites_mono (fun _ => executed_tail falls) there alive).imp (fun _ => enters) id }
termination_by _ _ events => framesSize (framesOf pending) + 2 * sizeOf events

theorem flowEvent_explained (stack : List LoopSite) (pending : List (Cleanup LoopSite)) : ∀ live offset event,
    Explained pending live (Executed (nestedEvent offset event) (keptEvent offset event)) (pruneEvent event).2
      (flowEvent stack pending live offset event)
  | live, offset, .branch span condition thenEvents elseEvents => by
    rw [flowEvent]
    have first := flowAll_explained stack pending live offset thenEvents
    have second := flowAll_explained stack pending live (offset + leafCount thenEvents) elseEvents
    exact
      { falls := fun falls => by
          rcases Bool.or_eq_true_iff.mp falls with here | there
          · exact (first.falls here).imp id fun falls => Bool.or_eq_true_iff.mpr (.inl falls)
          · exact (second.falls there).imp id fun falls => Bool.or_eq_true_iff.mpr (.inr falls)
        jumps := fun jump member => by
          rcases List.mem_append.mp member with here | there
          · exact first.jumps jump here
          · exact second.jumps jump there
        sites := fun site member alive => by
          rcases List.mem_append.mp member with here | there
          · exact first.sites_mono (fun _ executed => Executed.left executed (keptAll_hoisted offset thenEvents)
              (nestedAll_between _ elseEvents)) here alive
          · exact second.sites_mono (fun _ executed => Executed.right executed (nestedAll_between offset thenEvents)
              (keptAll_hoisted _ elseEvents)) there alive }
  | live, offset, .loop span loopKind label conditionEvents updateEvents body => by
    rw [flowEvent]
    dsimp only
    split
    · have second := flowAll_explained (⟨label,pending.length,false⟩ :: stack) pending live
        (offset + leafCount conditionEvents + leafCount updateEvents) body
      generalize flowAll (⟨label,pending.length,false⟩ :: stack) pending live _ body = inside at second ⊢
      have third := flowAll_explained (⟨label,pending.length,false⟩ :: stack) pending inside.fallsThrough
        (offset + leafCount conditionEvents) updateEvents
      generalize flowAll (⟨label,pending.length,false⟩ :: stack) pending inside.fallsThrough _ updateEvents = update at third ⊢
      have first := flowAll_explained stack pending
        (update.fallsThrough || decide (.continue 0 ∈ inside.jumps ++ update.jumps)) offset conditionEvents
      have enters := fun falls => (second.falls falls).1
      have whole := explained_loop true first second third (fun tested => ?_) id enters
      · rwa [Bool.and_true] at whole
      · rcases Bool.or_eq_true_iff.mp tested with falls | continued
        · exact enters (third.falls falls).1
        · rcases List.mem_append.mp (of_decide_eq_true continued) with here | there
          · exact second.jumps _ here
          · exact enters (third.jumps _ there)
    · have first := flowAll_explained stack pending live offset conditionEvents
      generalize flowAll stack pending live offset conditionEvents = condition at first ⊢
      have second := flowAll_explained (⟨label,pending.length,false⟩ :: stack) pending condition.fallsThrough
        (offset + leafCount conditionEvents + leafCount updateEvents) body
      generalize flowAll (⟨label,pending.length,false⟩ :: stack) pending condition.fallsThrough _ body = inside at second ⊢
      have third := flowAll_explained (⟨label,pending.length,false⟩ :: stack) pending
        (inside.fallsThrough || decide (.continue 0 ∈ inside.jumps)) (offset + leafCount conditionEvents) updateEvents
      have enters := fun falls => (first.falls falls).1
      refine explained_loop _ first second third id enters fun resumed => ?_
      rcases Bool.or_eq_true_iff.mp resumed with falls | continued
      · exact enters (second.falls falls).1
      · exact enters (second.jumps _ (of_decide_eq_true continued))
  | live, offset, .try span body catchEvents finallyEvents catchParam catchTypes catchArms => by
    rw [flowEvent]
    have first := flowAll_explained stack
      (⟨⟨span,finallyEvents⟩,offset + leafCount body + leafCount catchEvents,stack⟩ :: pending) live offset body
    have handled := flowAll_explained stack
      (⟨⟨span,finallyEvents⟩,offset + leafCount body + leafCount catchEvents,stack⟩ :: pending) live
      (offset + leafCount body) catchEvents
    have second := handled.onlyIf (hasCatch catchEvents catchParam catchTypes catchArms)
    generalize flowAll stack (_ :: pending) live offset body = tried at first ⊢
    generalize (if hasCatch catchEvents catchParam catchTypes catchArms then
      flowAll stack (_ :: pending) live (offset + leafCount body) catchEvents else ⟨false,[],[]⟩) = caught at second ⊢
    have third := flowAll_explained stack pending (tried.fallsThrough || caught.fallsThrough)
      (offset + leafCount body + leafCount catchEvents) finallyEvents
    have enters : (tried.fallsThrough || caught.fallsThrough) = true → live = true := fun falls =>
      (Bool.or_eq_true_iff.mp falls).elim (fun here => (first.falls here).1) fun there => (second.falls there).1
    -- A copy of its own finally body belongs to the try as well.
    have own : ∀ occurrence, ExecutedPending (⟨⟨span,finallyEvents⟩,offset + leafCount body + leafCount catchEvents,stack⟩ :: pending)
        occurrence → Executed (nestedEvent offset (.try span body catchEvents finallyEvents catchParam catchTypes catchArms))
          (keptEvent offset (.try span body catchEvents finallyEvents catchParam catchTypes catchArms)) occurrence ∨
        ExecutedPending pending occurrence := by
      intro occurrence executed
      obtain ⟨cleanup,member,inside⟩ := executed
      rcases List.mem_cons.mp member with rfl | outer
      · exact .inl (executed_part (.inr (.inr inside)))
      · exact .inr ⟨cleanup,outer,inside⟩
    exact
      { falls := fun falls => by
          obtain ⟨entered,cleanupFalls⟩ := third.falls falls
          refine ⟨enters entered,?_⟩
          rw [pruneEvent]
          simp only [hasCatch_prune, cleanupFalls, Bool.true_and]
          rcases Bool.or_eq_true_iff.mp entered with here | there
          · exact Bool.or_eq_true_iff.mpr (.inl (first.falls here).2)
          · exact Bool.or_eq_true_iff.mpr (.inr (second.falls there).2)
        jumps := fun jump member => by
          rcases List.mem_append.mp member with both | last
          · rcases List.mem_append.mp both with here | there
            · exact first.jumps jump here
            · exact second.jumps jump there
          · exact enters (third.jumps jump last)
        sites := fun site member alive => by
          rcases List.mem_append.mp member with both | last
          · rcases List.mem_append.mp both with here | there
            · obtain ⟨entered,executed⟩ := first.sites_mono (fun _ => executed_part ∘ .inl) here alive
              exact ⟨entered,executed.elim .inl (own _)⟩
            · obtain ⟨entered,executed⟩ := second.sites_mono (fun _ => executed_part ∘ .inr ∘ .inl) there alive
              exact ⟨entered,executed.elim .inl (own _)⟩
          · exact (third.sites_mono (fun _ => executed_part ∘ .inr ∘ .inr) last alive).imp enters id }
  | live, offset, .defer span body => by
    rw [flowEvent]
    have inside := flowAll_explained stack pending live offset body
    exact
      { falls := fun falls => ⟨(inside.falls falls).1,rfl⟩
        jumps := inside.jumps
        sites := fun site member alive => inside.sites_mono (fun _ executed => executed_deferred executed) member alive }
  | live, offset, .using span body => by
    rw [flowEvent]
    exact flowAll_explained stack pending live offset body
  | live, offset, .return span valueKind valueText valueName => by
    exact flowEvent_abrupt stack pending live offset (.return span valueKind valueText valueName) .return rfl
  | live, offset, .throw span valueName thrownType => by
    exact flowEvent_abrupt stack pending live offset (.throw span valueName thrownType) .throw rfl
  | live, offset, .break span target => by
    exact flowEvent_abrupt stack pending live offset (.break span target) .break rfl
  | live, offset, .continue span target => by
    exact flowEvent_abrupt stack pending live offset (.continue span target) .continue rfl
  | live, offset, .call .. | live, offset, .assign .. | live, offset, .aggregateAssign .. | live, offset, .yield ..
  | live, offset, .await .. | live, offset, .lifecycle .. => by
    rw [flowEvent]
    · refine ⟨fun falls => ⟨falls,rfl⟩,nofun,fun site member alive => ?_⟩
      cases List.mem_singleton.mp member
      exact ⟨alive,.inl ⟨List.mem_singleton_self _,nofun⟩⟩
    all_goals
      intros
      contradiction
termination_by _ _ event => framesSize (framesOf pending) + 2 * sizeOf event

theorem flowEvent_abrupt (stack : List LoopSite) (pending : List (Cleanup LoopSite)) (live : Bool) (offset : Nat)
    (event : FlowEvent) (terminator : Terminator) (abrupt : terminatorOf event = some terminator) :
    Explained pending live (Executed (nestedEvent offset event) (keptEvent offset event)) (pruneEvent event).2
      (flowEvent stack pending live offset event) := by
  rw [flowEvent_transfer abrupt]
  have path := flowPath_explained stack (transferOf stack event) (retainedDepth stack (transferOf stack event)) live pending
  have here : Executed (nestedEvent offset event) (keptEvent offset event) offset := by
    cases event with
    | «return» | throw | «break» | «continue» => exact ⟨List.mem_singleton_self _,nofun⟩
    | call | assign | aggregateAssign | yield | await | lifecycle | branch | loop | «try» | defer | «using» => cases abrupt
  dsimp only
  split
  · refine ⟨nofun,fun jump member => ?_,fun site member alive => ?_⟩
    · split at member
      · next enters => exact (Bool.and_eq_true_iff.mp enters).1
      · cases member
    · cases List.mem_singleton.mp member
      exact ⟨alive,.inl here⟩
  · refine ⟨nofun,path.jumps,fun site member alive => ?_⟩
    rcases List.mem_cons.mp member with rfl | inside
    · exact ⟨alive,.inl here⟩
    · exact path.sites_mono (fun _ => False.elim) inside alive
termination_by 1 + framesSize (framesOf pending)

theorem flowPath_explained (stack : List LoopSite) (outcome : Outcome) (depth : Nat) : ∀ live (pending : List (Cleanup LoopSite)),
    Explained pending live (fun _ => False) true (flowPath stack outcome depth live pending)
  | live, [] => by
    rw [flowPath]
    exact explained_arrives
  | live, cleanup :: pending => by
    rw [flowPath]
    split
    · exact explained_arrives
    · have first := flowAll_explained (copyStack stack cleanup) pending live cleanup.offset cleanup.frame.events
      generalize flowAll (copyStack stack cleanup) pending live cleanup.offset cleanup.frame.events = copy at first ⊢
      have later := flowPath_explained stack outcome depth copy.fallsThrough pending
      have outer : ∀ occurrence, ExecutedPending pending occurrence → ExecutedPending (cleanup :: pending) occurrence := by
        intro occurrence executed
        obtain ⟨other,member,inside⟩ := executed
        exact ⟨other,List.mem_cons_of_mem _ member,inside⟩
      exact
        { falls := fun falls => ⟨(first.falls (later.falls falls).1).1,rfl⟩
          jumps := fun jump member => by
            rcases List.mem_append.mp member with here | there
            · exact first.jumps jump here
            · exact (first.falls (later.jumps jump there)).1
          sites := fun site member alive => by
            rcases List.mem_append.mp member with here | there
            · obtain ⟨entered,inside | pending⟩ := first.sites site here alive
              · exact ⟨entered,.inr ⟨cleanup,List.mem_cons_self,inside⟩⟩
              · exact ⟨entered,.inr (outer _ pending)⟩
            · obtain ⟨entered,none | pending⟩ := later.sites site there alive
              · exact none.elim
              · exact ⟨(first.falls entered).1,.inr (outer _ pending)⟩ }
termination_by _ pending => framesSize (framesOf pending)

end

end flows

end BonsaiNinja.Cfg
