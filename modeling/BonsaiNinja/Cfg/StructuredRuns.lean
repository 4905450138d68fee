import BonsaiNinja.Cfg.Builder
import BonsaiNinja.Library.Structured

namespace BonsaiNinja.Cfg
open Library LangApi

abbrev Scope := List (Option Text)

def resolveTarget (scope : Scope) (target : Option LoopControlTarget) : Option Nat :=
  match target with
  | none => if scope.isEmpty then none else some 0
  | some (.label label) => scope.findIdx? (· == some label)
  | some (.levels levels) => if levels = 0 ∨ scope.length < levels then none else some (levels - 1)

-- An unresolved transfer leaves the function.
def transferOutcome (jump : Nat → Outcome) (found : Option Nat) : Outcome := found.elim .exit jump

def loopParts (loopKind : LoopKind) (condition body update : Behaviour FlowEvent) : LoopParts FlowEvent where
  condition := condition
  body := body
  update := update
  leaves := decide (loopKind ≠ .loop)
  resumes := if loopKind = .doWhile then .condition else .update

-- What a tree of events may do, statement by statement.
mutual

def runs (scope : Scope) : FlowEvent → Behaviour FlowEvent
  | .branch _ _ thenEvents elseEvents => (runsAll scope thenEvents).either (runsAll scope elseEvents)
  | .loop _ loopKind label conditionEvents updateEvents body =>
    Looping (loopParts loopKind (runsAll scope conditionEvents) (runsAll (label :: scope) body)
      (runsAll (label :: scope) updateEvents)) (if loopKind = .doWhile then .body else .condition)
  | .try _ body catchEvents finallyEvents catchParam catchTypes catchArms =>
    ((runsAll scope body).either (.onlyIf (hasCatch catchEvents catchParam catchTypes catchArms) (runsAll scope catchEvents))
      ).andFinally (runsAll scope finallyEvents)
  | .defer _ body | .using _ body => runsAll scope body
  | .return span valueKind valueText valueName => .leave (.return span valueKind valueText valueName) .exit
  | .throw span valueName thrownType => .leave (.throw span valueName thrownType) .exit
  | .break span target => .leave (.break span target) (transferOutcome .break (resolveTarget scope target))
  | .continue span target => .leave (.continue span target) (transferOutcome .continue (resolveTarget scope target))
  | event => .emit event

def runsAll (scope : Scope) : List FlowEvent → Behaviour FlowEvent
  | [] => .skip
  | event :: events => (runs scope event).andThen (runsAll scope events)

end

-- The traces of a function body: a transfer that no loop takes ends the function.
def structuredTraces (events : List FlowEvent) (trace : List FlowEvent) : Prop :=
  ∃ outcome, runsAll [] (normalizeDeferredScopes events) trace outcome

-- Every break or continue addresses a loop among the innermost of its scope:
-- `inner` counts those that belong to the tree or to its surroundings.
mutual

def addresses (scope : Scope) (inner : Nat) : FlowEvent → Prop
  | .branch _ _ thenEvents elseEvents => addressesAll scope inner thenEvents ∧ addressesAll scope inner elseEvents
  | .loop _ _ label conditionEvents updateEvents body => addressesAll scope inner conditionEvents ∧
    addressesAll (label :: scope) (inner + 1) updateEvents ∧ addressesAll (label :: scope) (inner + 1) body
  | .try _ body catchEvents finallyEvents _ _ _ =>
    addressesAll scope inner body ∧ addressesAll scope inner catchEvents ∧ addressesAll scope inner finallyEvents
  | .defer _ body | .using _ body => addressesAll scope inner body
  | .break _ target | .continue _ target => ∀ loop, resolveTarget scope target = some loop → loop < inner
  | _ => True

def addressesAll (scope : Scope) (inner : Nat) : List FlowEvent → Prop
  | [] => True
  | event :: events => addresses scope inner event ∧ addressesAll scope inner events

end

-- No break or continue leaves the tree: each addresses a loop inside it.
mutual

def staysInside (scope : Scope) : FlowEvent → Bool
  | .branch _ _ thenEvents elseEvents => staysInsideAll scope thenEvents && staysInsideAll scope elseEvents
  | .loop _ _ label conditionEvents updateEvents body => staysInsideAll scope conditionEvents &&
    staysInsideAll (label :: scope) updateEvents && staysInsideAll (label :: scope) body
  | .try _ body catchEvents finallyEvents _ _ _ =>
    staysInsideAll scope body && staysInsideAll scope catchEvents && staysInsideAll scope finallyEvents
  | .defer _ body | .using _ body => staysInsideAll scope body
  | .break _ target | .continue _ target => (resolveTarget scope target).isSome
  | _ => true

def staysInsideAll (scope : Scope) : List FlowEvent → Bool
  | [] => true
  | event :: events => staysInside scope event && staysInsideAll scope events

end

-- No finally or deferred body is left by a break or continue in it.
mutual

def cleanupsStay : FlowEvent → Bool
  | .branch _ _ thenEvents elseEvents => cleanupsStayAll thenEvents && cleanupsStayAll elseEvents
  | .loop _ _ _ conditionEvents updateEvents body =>
    cleanupsStayAll conditionEvents && cleanupsStayAll updateEvents && cleanupsStayAll body
  | .try _ body catchEvents finallyEvents _ _ _ => cleanupsStayAll body && cleanupsStayAll catchEvents &&
    cleanupsStayAll finallyEvents && staysInsideAll [] finallyEvents
  | .defer _ body => cleanupsStayAll body && staysInsideAll [] body
  | .using _ body => cleanupsStayAll body
  | _ => true

def cleanupsStayAll : List FlowEvent → Bool
  | [] => true
  | event :: events => cleanupsStay event && cleanupsStayAll events

end

theorem resolveTarget_lt {scope : Scope} {target : Option LoopControlTarget} {loop : Nat}
    (found : resolveTarget scope target = some loop) : loop < scope.length := by
  unfold resolveTarget at found
  split at found
  · split at found
    · cases found
    · next occupied =>
      cases found
      exact List.length_pos_of_ne_nil fun empty => occupied (by rw [empty]; rfl)
  · exact (List.findIdx?_eq_some_iff_getElem.mp found).1
  · split at found
    · cases found
    · cases found
      omega

-- A transfer that is resolved within the inner loops ignores the outer ones.
theorem resolveTarget_append {inner : Scope} {target : Option LoopControlTarget}
    (found : (resolveTarget inner target).isSome = true) (outer : Scope) :
    resolveTarget (inner ++ outer) target = resolveTarget inner target := by
  unfold resolveTarget at found ⊢
  split at found
  · split at found
    · cases found
    · next occupied =>
      rw [if_neg occupied, if_neg]
      intro empty
      rw [List.isEmpty_iff, List.append_eq_nil_iff] at empty
      exact occupied (by rw [empty.1]; rfl)
  · rw [List.findIdx?_append]
    obtain ⟨loop,same⟩ := Option.isSome_iff_exists.mp found
    rw [same]
    rfl
  · split at found
    · cases found
    · next inside =>
      rw [if_neg inside, if_neg]
      rw [List.length_append]
      omega

mutual

theorem addresses_scope (scope : Scope) : ∀ event, addresses scope scope.length event
  | .branch _ _ thenEvents elseEvents => ⟨addressesAll_scope scope thenEvents,addressesAll_scope scope elseEvents⟩
  | .loop _ _ label conditionEvents updateEvents body => ⟨addressesAll_scope scope conditionEvents,
    addressesAll_scope (label :: scope) updateEvents,addressesAll_scope (label :: scope) body⟩
  | .try _ body catchEvents finallyEvents _ _ _ =>
    ⟨addressesAll_scope scope body,addressesAll_scope scope catchEvents,addressesAll_scope scope finallyEvents⟩
  | .defer _ body => addressesAll_scope scope body
  | .using _ body => addressesAll_scope scope body
  | .break _ _ => fun _ found => resolveTarget_lt found
  | .continue _ _ => fun _ found => resolveTarget_lt found
  | .call .. | .assign .. | .aggregateAssign .. | .return .. | .throw .. | .yield .. | .await .. | .lifecycle .. => trivial

theorem addressesAll_scope (scope : Scope) : ∀ events, addressesAll scope scope.length events
  | [] => trivial
  | event :: events => ⟨addresses_scope scope event,addressesAll_scope scope events⟩

end

mutual

theorem runs_inside (inner outer : Scope) : ∀ event, staysInside inner event = true →
    runs (inner ++ outer) event = runs inner event ∧ addresses (inner ++ outer) inner.length event
  | .branch _ _ thenEvents elseEvents, stays => by
    obtain ⟨left,right⟩ := Bool.and_eq_true_iff.mp stays
    have first := runsAll_inside inner outer thenEvents left
    have second := runsAll_inside inner outer elseEvents right
    exact ⟨by rw [runs, runs, first.1, second.1],first.2,second.2⟩
  | .loop _ _ label conditionEvents updateEvents body, stays => by
    obtain ⟨both,last⟩ := Bool.and_eq_true_iff.mp stays
    obtain ⟨left,right⟩ := Bool.and_eq_true_iff.mp both
    have condition := runsAll_inside inner outer conditionEvents left
    have update := runsAll_inside (label :: inner) outer updateEvents right
    have inside := runsAll_inside (label :: inner) outer body last
    refine ⟨?_,condition.2,update.2,inside.2⟩
    rw [runs, runs, condition.1, ← List.cons_append, update.1, inside.1]
  | .try _ body catchEvents finallyEvents _ _ _, stays => by
    obtain ⟨both,last⟩ := Bool.and_eq_true_iff.mp stays
    obtain ⟨left,right⟩ := Bool.and_eq_true_iff.mp both
    have first := runsAll_inside inner outer body left
    have second := runsAll_inside inner outer catchEvents right
    have third := runsAll_inside inner outer finallyEvents last
    exact ⟨by rw [runs, runs, first.1, second.1, third.1],first.2,second.2,third.2⟩
  | .defer _ body, stays => by
    have whole := runsAll_inside inner outer body stays
    exact ⟨by rw [runs, runs, whole.1],whole.2⟩
  | .using _ body, stays => by
    have whole := runsAll_inside inner outer body stays
    exact ⟨by rw [runs, runs, whole.1],whole.2⟩
  | .break _ target, stays => by
    have same := resolveTarget_append stays outer
    exact ⟨by rw [runs, runs, same],fun loop found => resolveTarget_lt (same ▸ found)⟩
  | .continue _ target, stays => by
    have same := resolveTarget_append stays outer
    exact ⟨by rw [runs, runs, same],fun loop found => resolveTarget_lt (same ▸ found)⟩
  | .call .., _ | .assign .., _ | .aggregateAssign .., _ | .return .., _ | .throw .., _ | .yield .., _ | .await .., _
  | .lifecycle .., _ => by simp only [runs, addresses, and_self]

theorem runsAll_inside (inner outer : Scope) : ∀ events, staysInsideAll inner events = true →
    runsAll (inner ++ outer) events = runsAll inner events ∧ addressesAll (inner ++ outer) inner.length events
  | [], _ => ⟨rfl,trivial⟩
  | event :: events, stays => by
    obtain ⟨head,tail⟩ := Bool.and_eq_true_iff.mp stays
    have first := runs_inside inner outer event head
    have later := runsAll_inside inner outer events tail
    exact ⟨by rw [runsAll, runsAll, first.1, later.1],first.2,later.2⟩

end

mutual

theorem runs_within {scope : Scope} {inner : Nat} : ∀ event, addresses scope inner event →
    ∀ trace outcome, runs scope event trace outcome → outcome.Within inner
  | .branch _ _ thenEvents elseEvents, within, trace, outcome, ran => by
    rw [runs] at ran
    rcases ran with left | right
    · exact runsAll_within thenEvents within.1 trace outcome left
    · exact runsAll_within elseEvents within.2 trace outcome right
  | .loop _ loopKind label conditionEvents updateEvents body, within, trace, outcome, ran => by
    rw [runs] at ran
    exact Looping.within (runsAll_within conditionEvents within.1) (runsAll_within body within.2.2)
      (runsAll_within updateEvents within.2.1) ran
  | .try _ body catchEvents finallyEvents _ _ _, within, trace, outcome, ran => by
    rw [runs] at ran
    obtain ⟨before,after,left,last,_,first,cleanup,rfl⟩ := ran
    unfold Behaviour.settle
    split
    · rcases first with inBody | ⟨_,caught⟩
      · exact runsAll_within body within.1 before left inBody
      · exact runsAll_within catchEvents within.2.1 before left caught
    · exact runsAll_within finallyEvents within.2.2 after last cleanup
  | .defer _ body, within, trace, outcome, ran => by
    rw [runs] at ran
    exact runsAll_within body within trace outcome ran
  | .using _ body, within, trace, outcome, ran => by
    rw [runs] at ran
    exact runsAll_within body within trace outcome ran
  | .break _ target, within, _, _, ran => by
    rw [runs] at ran
    obtain ⟨_,rfl⟩ := ran
    cases found : resolveTarget scope target with
    | none => trivial
    | some loop => exact within loop found
  | .continue _ target, within, _, _, ran => by
    rw [runs] at ran
    obtain ⟨_,rfl⟩ := ran
    cases found : resolveTarget scope target with
    | none => trivial
    | some loop => exact within loop found
  | .return .., _, _, _, ran | .throw .., _, _, _, ran => by
    rw [runs] at ran
    obtain ⟨_,rfl⟩ := ran
    trivial
  | .call .., _, _, _, ran | .assign .., _, _, _, ran | .aggregateAssign .., _, _, _, ran | .yield .., _, _, _, ran
  | .await .., _, _, _, ran | .lifecycle .., _, _, _, ran => by
    simp only [runs] at ran
    obtain ⟨_,rfl⟩ := ran
    trivial

theorem runsAll_within {scope : Scope} {inner : Nat} : ∀ events, addressesAll scope inner events →
    ∀ trace outcome, runsAll scope events trace outcome → outcome.Within inner
  | [], _, _, _, ran => by
    obtain ⟨_,rfl⟩ := ran
    trivial
  | event :: events, within, trace, outcome, ran => by
    rw [runsAll] at ran
    rcases ran with ⟨first,_⟩ | ⟨_,after,_,_,later⟩
    · exact runs_within event within.1 trace outcome first
    · exact runsAll_within events within.2 after outcome later

end

-- Normalization moves a body, never a loop around it.
mutual

theorem normalize_staysInside (scope : Scope) : ∀ event, staysInside scope event = true →
    staysInside scope (normalizeDeferredScope event) = true ∧
      ∀ span body, event = .defer span body → staysInsideAll scope (normalizeDeferredScopes body) = true
  | .branch _ _ thenEvents elseEvents, stays => by
    obtain ⟨left,right⟩ := Bool.and_eq_true_iff.mp stays
    exact ⟨Bool.and_eq_true_iff.mpr ⟨normalize_staysInsideAll scope thenEvents left,
      normalize_staysInsideAll scope elseEvents right⟩,nofun⟩
  | .loop _ _ label conditionEvents updateEvents body, stays => by
    obtain ⟨both,last⟩ := Bool.and_eq_true_iff.mp stays
    obtain ⟨left,right⟩ := Bool.and_eq_true_iff.mp both
    exact ⟨Bool.and_eq_true_iff.mpr ⟨Bool.and_eq_true_iff.mpr ⟨normalize_staysInsideAll scope conditionEvents left,
      normalize_staysInsideAll (label :: scope) updateEvents right⟩,normalize_staysInsideAll (label :: scope) body last⟩,nofun⟩
  | .try _ body catchEvents finallyEvents _ _ _, stays => by
    obtain ⟨both,last⟩ := Bool.and_eq_true_iff.mp stays
    obtain ⟨left,right⟩ := Bool.and_eq_true_iff.mp both
    exact ⟨Bool.and_eq_true_iff.mpr ⟨Bool.and_eq_true_iff.mpr ⟨normalize_staysInsideAll scope body left,
      normalize_staysInsideAll scope catchEvents right⟩,normalize_staysInsideAll scope finallyEvents last⟩,nofun⟩
  | .using _ body, stays => ⟨normalize_staysInsideAll scope body stays,nofun⟩
  | .defer _ body, stays => by
    refine ⟨stays,fun _ _ same => ?_⟩
    cases same
    exact normalize_staysInsideAll scope body stays
  | .break .., stays | .continue .., stays | .call .., stays | .assign .., stays | .aggregateAssign .., stays
  | .return .., stays | .throw .., stays | .yield .., stays | .await .., stays | .lifecycle .., stays => by
    simp only [normalizeDeferredScope]
    exact ⟨stays,nofun⟩

theorem normalize_staysInsideAll (scope : Scope) : ∀ events, staysInsideAll scope events = true →
    staysInsideAll scope (normalizeDeferredScopes events) = true
  | [], _ => rfl
  | event :: events, stays => by
    obtain ⟨head,tail⟩ := Bool.and_eq_true_iff.mp stays
    have first := normalize_staysInside scope event head
    have later := normalize_staysInsideAll scope events tail
    rw [normalizeDeferredScopes.eq_def]
    split
    · rfl
    · next span body events same =>
      cases same
      simp only [staysInsideAll, staysInside, later, first.2 span body rfl, Bool.and_self]
    · next same =>
      cases same
      simp only [staysInsideAll, first.1, later, Bool.and_self]

end

mutual

theorem normalize_cleanupsStay : ∀ event, cleanupsStay event = true →
    cleanupsStay (normalizeDeferredScope event) = true ∧
      ∀ span body, event = .defer span body → cleanupsStayAll (normalizeDeferredScopes body) = true ∧
        staysInsideAll [] (normalizeDeferredScopes body) = true
  | .branch _ _ thenEvents elseEvents, stay => by
    obtain ⟨left,right⟩ := Bool.and_eq_true_iff.mp stay
    exact ⟨Bool.and_eq_true_iff.mpr ⟨normalize_cleanupsStayAll thenEvents left,normalize_cleanupsStayAll elseEvents right⟩,nofun⟩
  | .loop _ _ _ conditionEvents updateEvents body, stay => by
    obtain ⟨both,last⟩ := Bool.and_eq_true_iff.mp stay
    obtain ⟨left,right⟩ := Bool.and_eq_true_iff.mp both
    exact ⟨Bool.and_eq_true_iff.mpr ⟨Bool.and_eq_true_iff.mpr ⟨normalize_cleanupsStayAll conditionEvents left,
      normalize_cleanupsStayAll updateEvents right⟩,normalize_cleanupsStayAll body last⟩,nofun⟩
  | .try _ body catchEvents finallyEvents _ _ _, stay => by
    obtain ⟨three,inside⟩ := Bool.and_eq_true_iff.mp stay
    obtain ⟨both,last⟩ := Bool.and_eq_true_iff.mp three
    obtain ⟨left,right⟩ := Bool.and_eq_true_iff.mp both
    exact ⟨Bool.and_eq_true_iff.mpr ⟨Bool.and_eq_true_iff.mpr ⟨Bool.and_eq_true_iff.mpr ⟨normalize_cleanupsStayAll body left,
      normalize_cleanupsStayAll catchEvents right⟩,normalize_cleanupsStayAll finallyEvents last⟩,
      normalize_staysInsideAll [] finallyEvents inside⟩,nofun⟩
  | .using _ body, stay => ⟨normalize_cleanupsStayAll body stay,nofun⟩
  | .defer _ body, stay => by
    refine ⟨stay,fun _ _ same => ?_⟩
    cases same
    obtain ⟨nested,inside⟩ := Bool.and_eq_true_iff.mp stay
    exact ⟨normalize_cleanupsStayAll body nested,normalize_staysInsideAll [] body inside⟩
  | .break .., stay | .continue .., stay | .call .., stay | .assign .., stay | .aggregateAssign .., stay
  | .return .., stay | .throw .., stay | .yield .., stay | .await .., stay | .lifecycle .., stay => by
    simp only [normalizeDeferredScope]
    exact ⟨stay,nofun⟩

theorem normalize_cleanupsStayAll : ∀ events, cleanupsStayAll events = true →
    cleanupsStayAll (normalizeDeferredScopes events) = true
  | [], _ => rfl
  | event :: events, stay => by
    obtain ⟨head,tail⟩ := Bool.and_eq_true_iff.mp stay
    have first := normalize_cleanupsStay event head
    have later := normalize_cleanupsStayAll events tail
    rw [normalizeDeferredScopes.eq_def]
    split
    · rfl
    · next span body events same =>
      cases same
      obtain ⟨nested,inside⟩ := first.2 span body rfl
      simp only [cleanupsStayAll, cleanupsStay, later, nested, inside, Bool.and_self]
    · next same =>
      cases same
      simp only [cleanupsStayAll, first.1, later, Bool.and_self]

end

end BonsaiNinja.Cfg
