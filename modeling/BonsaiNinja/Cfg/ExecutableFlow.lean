import BonsaiNinja.Cfg.WalkRules

namespace BonsaiNinja.Cfg
open Library LangApi

def leavesFunction : FlowEvent → Bool
  | .return .. | .throw .. => true
  | _ => false

def isCall : FlowEvent → Bool
  | .call .. => true
  | _ => false

def strictlyContained (terminal nested : Span) : Bool :=
  nested.file == terminal.file && decide (terminal.start ≤ nested.start) && decide (nested.stop ≤ terminal.stop) &&
    nested != terminal

def nestedCalls (terminal : Span) : List FlowEvent → List FlowEvent
  | [] => []
  | nested :: events =>
    if strictlyContained terminal (eventSpan nested) then
      if isCall nested then nested :: nestedCalls terminal events else nestedCalls terminal events
    else []

-- The executable events, and whether control falls through behind them. Pruning
-- leaves a call as it is, and meets no `defer`: deferred scopes are lowered before.
mutual

def pruneUnreachableSequence : List FlowEvent → List FlowEvent × Bool
  | [] => ([],true)
  | event :: events =>
    if leavesFunction event then (nestedCalls (eventSpan event) events ++ [(pruneEvent event).1],false)
    else
      let (pruned,fallsThrough) := pruneEvent event
      if fallsThrough then
        let (executable,fallsThrough) := pruneUnreachableSequence events
        (pruned :: executable,fallsThrough)
      else ([pruned],false)

def pruneEvent : FlowEvent → FlowEvent × Bool
  | .branch span condition thenEvents elseEvents =>
    let (thenEvents,thenFallsThrough) := pruneUnreachableSequence thenEvents
    let (elseEvents,elseFallsThrough) := pruneUnreachableSequence elseEvents
    (.branch span condition thenEvents elseEvents,thenFallsThrough || elseFallsThrough)
  | .loop span loopKind label conditionEvents updateEvents body =>
    -- Without proof that it is infinite, a loop may end behind its condition.
    (.loop span loopKind label (pruneUnreachableSequence conditionEvents).1 (pruneUnreachableSequence updateEvents).1
      (pruneUnreachableSequence body).1,true)
  | .try span body catchEvents finallyEvents catchParam catchTypes catchArms =>
    let (body,bodyFallsThrough) := pruneUnreachableSequence body
    let (catchEvents,catchFallsThrough) := pruneUnreachableSequence catchEvents
    let (finallyEvents,finallyFallsThrough) := pruneUnreachableSequence finallyEvents
    (.try span body catchEvents finallyEvents catchParam catchTypes catchArms,
      finallyFallsThrough &&
        (bodyFallsThrough || hasCatch catchEvents catchParam catchTypes catchArms && catchFallsThrough))
  | .using span body =>
    let (body,fallsThrough) := pruneUnreachableSequence body
    (.using span body,fallsThrough)
  | event => (event,(terminatorOf event).isNone)

end

def normalizeExecutableFlow (events : List FlowEvent) : List FlowEvent :=
  (pruneUnreachableSequence (normalizeDeferredScopes events)).1

def nestedOccurrences (terminal : Span) (offset : Nat) : List FlowEvent → List Nat
  | [] => []
  | nested :: events =>
    if strictlyContained terminal (eventSpan nested) then
      if isCall nested then offset :: nestedOccurrences terminal (offset + (leaves nested).length) events
      else nestedOccurrences terminal (offset + (leaves nested).length) events
    else []

-- The occurrences that stay executable, in their new order.
mutual

def keptAll (offset : Nat) : List FlowEvent → List Nat
  | [] => []
  | event :: events =>
    if leavesFunction event then nestedOccurrences (eventSpan event) (offset + 1) events ++ [offset]
    else keptEvent offset event ++ if (pruneEvent event).2 then keptAll (offset + (leaves event).length) events else []

def keptEvent (offset : Nat) : FlowEvent → List Nat
  | .branch _ _ thenEvents elseEvents => keptAll offset thenEvents ++ keptAll (offset + leafCount thenEvents) elseEvents
  | .loop _ _ _ conditionEvents updateEvents body => keptAll offset conditionEvents ++
    keptAll (offset + leafCount conditionEvents) updateEvents ++
    keptAll (offset + leafCount conditionEvents + leafCount updateEvents) body
  | .try _ body catchEvents finallyEvents _ _ _ => keptAll offset body ++ keptAll (offset + leafCount body) catchEvents ++
    keptAll (offset + leafCount body + leafCount catchEvents) finallyEvents
  | .using _ body => keptAll offset body
  | .defer _ body => (List.range (leafCount body)).map (offset + ·)
  | _ => [offset]

end

-- Each return or throw with the calls nested in it, where pruning moves them.
mutual

def nestedAll (offset : Nat) : List FlowEvent → List (Nat × Nat)
  | [] => []
  | event :: events =>
    (if leavesFunction event then (nestedOccurrences (eventSpan event) (offset + 1) events).map (offset,·) else []) ++
      nestedEvent offset event ++ nestedAll (offset + (leaves event).length) events

def nestedEvent (offset : Nat) : FlowEvent → List (Nat × Nat)
  | .branch _ _ thenEvents elseEvents => nestedAll offset thenEvents ++ nestedAll (offset + leafCount thenEvents) elseEvents
  | .loop _ _ _ conditionEvents updateEvents body => nestedAll offset conditionEvents ++
    nestedAll (offset + leafCount conditionEvents) updateEvents ++
    nestedAll (offset + leafCount conditionEvents + leafCount updateEvents) body
  | .try _ body catchEvents finallyEvents _ _ _ => nestedAll offset body ++ nestedAll (offset + leafCount body) catchEvents ++
    nestedAll (offset + leafCount body + leafCount catchEvents) finallyEvents
  | .using _ body => nestedAll offset body
  | _ => []

end

-- Trees without deferred bodies.
mutual

def lowered : FlowEvent → Bool
  | .branch _ _ thenEvents elseEvents => loweredAll thenEvents && loweredAll elseEvents
  | .loop _ _ _ conditionEvents updateEvents body =>
    loweredAll conditionEvents && loweredAll updateEvents && loweredAll body
  | .try _ body catchEvents finallyEvents _ _ _ => loweredAll body && loweredAll catchEvents && loweredAll finallyEvents
  | .using _ body => loweredAll body
  | .defer .. => false
  | _ => true

def loweredAll : List FlowEvent → Bool
  | [] => true
  | event :: events => lowered event && loweredAll events

end

section lowering

theorem lowered_three {first second third : List FlowEvent}
    (low : (loweredAll first && loweredAll second && loweredAll third) = true) :
    loweredAll first = true ∧ loweredAll second = true ∧ loweredAll third = true := by
  rw [Bool.and_eq_true, Bool.and_eq_true] at low
  exact ⟨low.1.1,low.1.2,low.2⟩

theorem loweredAll_append (first second : List FlowEvent) :
    loweredAll (first ++ second) = (loweredAll first && loweredAll second) := by
  induction first with
  | nil => rfl
  | cons event first ih => rw [List.cons_append, loweredAll, loweredAll, ih, Bool.and_assoc]

mutual

theorem normalize_lowers : ∀ event, (∀ span body, event ≠ .defer span body) → lowered (normalizeDeferredScope event) = true
  | .branch _ _ thenEvents elseEvents, _ => by
    rw [normalizeDeferredScope, lowered, normalize_lowersAll thenEvents, normalize_lowersAll elseEvents]
    rfl
  | .loop _ _ _ conditionEvents updateEvents body, _ => by
    rw [normalizeDeferredScope, lowered, normalize_lowersAll conditionEvents, normalize_lowersAll updateEvents,
      normalize_lowersAll body]
    rfl
  | .try _ body catchEvents finallyEvents _ _ _, _ => by
    rw [normalizeDeferredScope, lowered, normalize_lowersAll body, normalize_lowersAll catchEvents,
      normalize_lowersAll finallyEvents]
    rfl
  | .using _ body, _ => by
    rw [normalizeDeferredScope, lowered, normalize_lowersAll body]
  | .defer span body, other => absurd rfl (other span body)
  | .call .., _ | .assign .., _ | .aggregateAssign .., _ | .return .., _ | .throw .., _ | .break .., _ | .continue .., _
  | .yield .., _ | .await .., _ | .lifecycle .., _ => by
    simp only [normalizeDeferredScope, lowered]

theorem normalize_lowersAll : ∀ events, loweredAll (normalizeDeferredScopes events) = true
  | [] => rfl
  | event :: events => by
    have later := normalize_lowersAll events
    have first := normalize_lowers event
    rw [normalizeDeferredScopes.eq_def]
    split
    · rfl
    · next span body rest same =>
      cases same
      have inside := normalize_lowersAll body
      simp only [loweredAll, lowered, later, inside, Bool.and_self]
    · next other same =>
      cases same
      simp only [loweredAll, first other, later, Bool.and_self]

end

mutual

theorem normalize_lowered : ∀ event, lowered event = true → normalizeDeferredScope event = event
  | .branch _ _ thenEvents elseEvents, low => by
    obtain ⟨left,right⟩ := Bool.and_eq_true_iff.mp low
    rw [normalizeDeferredScope, normalize_loweredAll thenEvents left, normalize_loweredAll elseEvents right]
  | .loop _ _ _ conditionEvents updateEvents body, low => by
    obtain ⟨first,second,third⟩ := lowered_three low
    rw [normalizeDeferredScope, normalize_loweredAll conditionEvents first, normalize_loweredAll updateEvents second,
      normalize_loweredAll body third]
  | .try _ body catchEvents finallyEvents _ _ _, low => by
    obtain ⟨first,second,third⟩ := lowered_three low
    rw [normalizeDeferredScope, normalize_loweredAll body first, normalize_loweredAll catchEvents second,
      normalize_loweredAll finallyEvents third]
  | .using _ body, low => by rw [normalizeDeferredScope, normalize_loweredAll body low]
  | .defer .., low => nomatch low
  | .call .., _ | .assign .., _ | .aggregateAssign .., _ | .return .., _ | .throw .., _ | .break .., _ | .continue .., _
  | .yield .., _ | .await .., _ | .lifecycle .., _ => by simp only [normalizeDeferredScope]

theorem normalize_loweredAll : ∀ events, loweredAll events = true → normalizeDeferredScopes events = events
  | [], _ => rfl
  | event :: events, low => by
    obtain ⟨head,tail⟩ := Bool.and_eq_true_iff.mp low
    rw [normalizeDeferredScopes.eq_def]
    split
    · next same => cases same
    · next span body rest same =>
      cases same
      cases head
    · next other same =>
      cases same
      rw [normalize_lowered event head, normalize_loweredAll events tail]

end

end lowering

section pruning
variable {terminal : Span} {event : FlowEvent} {events : List FlowEvent}

theorem nestedCalls_calls (member : event ∈ nestedCalls terminal events) : isCall event = true := by
  induction events with
  | nil => cases member
  | cons nested events ih =>
    unfold nestedCalls at member
    split at member
    · split at member
      · next call =>
        rcases List.mem_cons.mp member with rfl | later
        · exact call
        · exact ih later
      · exact ih member
    · cases member

theorem pruneEvent_plain (simple : plain event = true) : pruneEvent event = (event,true) := by
  cases event with
  | call | assign | aggregateAssign | yield | await | lifecycle => rfl
  | branch | loop | «return» | throw | «try» | «break» | «continue» | defer | «using» => cases simple

theorem isCall_plain (call : isCall event = true) : plain event = true ∧ leavesFunction event = false ∧ leaves event = [event] ∧
    lowered event = true := by
  cases event with
  | call => exact ⟨rfl,rfl,rfl,rfl⟩
  | assign | aggregateAssign | yield | await | lifecycle | branch | loop | «return» | throw | «try» | «break» | «continue» | defer
  | «using» => cases call

theorem leavesFunction_leaf (abrupt : leavesFunction event = true) : pruneEvent event = (event,false) ∧ leaves event = [event] ∧
    lowered event = true := by
  cases event with
  | «return» | throw => exact ⟨rfl,rfl,rfl⟩
  | call | assign | aggregateAssign | yield | await | lifecycle | branch | loop | «try» | «break» | «continue» | defer
  | «using» => cases abrupt

theorem prune_calls {calls : List FlowEvent} (all : ∀ call ∈ calls, isCall call = true) (events : List FlowEvent) :
    pruneUnreachableSequence (calls ++ events) =
      (calls ++ (pruneUnreachableSequence events).1,(pruneUnreachableSequence events).2) := by
  induction calls with
  | nil => rfl
  | cons call calls ih =>
    obtain ⟨simple,stays,_⟩ := isCall_plain (all call List.mem_cons_self)
    rw [List.cons_append, pruneUnreachableSequence, stays, pruneEvent_plain simple,
      ih fun other member => all other (List.mem_cons_of_mem _ member)]
    rfl

theorem calls_lowered {calls : List FlowEvent} (all : ∀ call ∈ calls, isCall call = true) : loweredAll calls = true := by
  induction calls with
  | nil => rfl
  | cons call calls ih =>
    rw [loweredAll, (isCall_plain (all call List.mem_cons_self)).2.2.2,
      ih fun other member => all other (List.mem_cons_of_mem _ member)]
    rfl

theorem pruneEvent_leavesFunction (event : FlowEvent) : leavesFunction (pruneEvent event).1 = leavesFunction event := by
  cases event <;> rfl

mutual

theorem pruneEvent_idempotent : ∀ event, pruneEvent (pruneEvent event).1 = pruneEvent event
  | .branch _ _ thenEvents elseEvents => by
    have first := pruneUnreachableSequence_idempotent thenEvents
    have second := pruneUnreachableSequence_idempotent elseEvents
    simp only [pruneEvent, first, second]
  | .loop _ _ _ conditionEvents updateEvents body => by
    have first := pruneUnreachableSequence_idempotent conditionEvents
    have second := pruneUnreachableSequence_idempotent updateEvents
    have third := pruneUnreachableSequence_idempotent body
    simp only [pruneEvent, first, second, third]
  | .try _ body catchEvents finallyEvents _ _ _ => by
    have first := pruneUnreachableSequence_idempotent body
    have second := pruneUnreachableSequence_idempotent catchEvents
    have third := pruneUnreachableSequence_idempotent finallyEvents
    simp only [pruneEvent, first, second, third]
  | .using _ body => by
    have inside := pruneUnreachableSequence_idempotent body
    simp only [pruneEvent, inside]
  | .call .. | .assign .. | .aggregateAssign .. | .return .. | .throw .. | .break .. | .continue .. | .yield .. | .await ..
  | .defer .. | .lifecycle .. => rfl

theorem pruneUnreachableSequence_idempotent : ∀ events,
    pruneUnreachableSequence (pruneUnreachableSequence events).1 = pruneUnreachableSequence events
  | [] => rfl
  | event :: events => by
    have first := pruneEvent_idempotent event
    have later := pruneUnreachableSequence_idempotent events
    rw [pruneUnreachableSequence]
    by_cases abrupt : leavesFunction event = true
    · rw [if_pos abrupt, (leavesFunction_leaf abrupt).1, prune_calls fun call member => nestedCalls_calls member,
        pruneUnreachableSequence, if_pos abrupt, (leavesFunction_leaf abrupt).1]
      rfl
    · rw [if_neg abrupt]
      have stays : ¬leavesFunction (pruneEvent event).1 = true := by rwa [pruneEvent_leavesFunction]
      cases falls : (pruneEvent event).2 with
      | false =>
        simp only [falls, Bool.false_eq_true, if_false]
        rw [pruneUnreachableSequence, if_neg stays, first]
        simp only [falls, Bool.false_eq_true, if_false]
      | true =>
        simp only [falls, if_true]
        rw [pruneUnreachableSequence, if_neg stays, first]
        simp only [falls, if_true, later]

end

mutual

theorem pruneEvent_lowered : ∀ event, lowered event = true → lowered (pruneEvent event).1 = true
  | .branch _ _ thenEvents elseEvents, low => by
    obtain ⟨left,right⟩ := Bool.and_eq_true_iff.mp low
    exact Bool.and_eq_true_iff.mpr ⟨prune_lowered thenEvents left,prune_lowered elseEvents right⟩
  | .loop _ _ _ conditionEvents updateEvents body, low => by
    obtain ⟨first,second,third⟩ := lowered_three low
    simp only [pruneEvent, lowered, prune_lowered conditionEvents first, prune_lowered updateEvents second,
      prune_lowered body third, Bool.and_self]
  | .try _ body catchEvents finallyEvents _ _ _, low => by
    obtain ⟨first,second,third⟩ := lowered_three low
    simp only [pruneEvent, lowered, prune_lowered body first, prune_lowered catchEvents second,
      prune_lowered finallyEvents third, Bool.and_self]
  | .using _ body, low => prune_lowered body low
  | .defer .., low => nomatch low
  | .call .., _ | .assign .., _ | .aggregateAssign .., _ | .return .., _ | .throw .., _ | .break .., _ | .continue .., _
  | .yield .., _ | .await .., _ | .lifecycle .., _ => rfl

theorem prune_lowered : ∀ events, loweredAll events = true → loweredAll (pruneUnreachableSequence events).1 = true
  | [], _ => rfl
  | event :: events, low => by
    obtain ⟨head,tail⟩ := Bool.and_eq_true_iff.mp low
    have first := pruneEvent_lowered event head
    have later := prune_lowered events tail
    rw [pruneUnreachableSequence]
    split
    · rw [loweredAll_append, calls_lowered fun call member => nestedCalls_calls member, loweredAll, first]
      rfl
    · dsimp only
      split
      · simp only [loweredAll, first, later, Bool.and_self]
      · simp only [loweredAll, first, Bool.and_self]

end

theorem normalizeExecutableFlow_idempotent (events : List FlowEvent) :
    normalizeExecutableFlow (normalizeExecutableFlow events) = normalizeExecutableFlow events := by
  unfold normalizeExecutableFlow
  rw [normalize_loweredAll _ (prune_lowered _ (normalize_lowersAll events)), pruneUnreachableSequence_idempotent]

end pruning

end BonsaiNinja.Cfg
