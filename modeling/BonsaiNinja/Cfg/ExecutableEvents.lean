import BonsaiNinja.Cfg.LiveEvents

namespace BonsaiNinja.Cfg
open Library LangApi

def loweredLeaves (events : List FlowEvent) : List FlowEvent := leavesAll (normalizeDeferredScopes events)

def executable (events : List FlowEvent) : List Nat := keptAll 0 (normalizeDeferredScopes events)

def operandCalls (events : List FlowEvent) : List (Nat × Nat) := nestedAll 0 (normalizeDeferredScopes events)

structure OperandCall (whole : List FlowEvent) (pair : Nat × Nat) : Prop where
  terminal : ∃ event, whole[pair.1]? = some event ∧ leavesFunction event = true ∧
    ∃ call, whole[pair.2]? = some call ∧ isCall call = true ∧ strictlyContained (eventSpan event) (eventSpan call) = true

-- The events of the reachable blocks stay executable. Nested calls move directly in
-- front of their return or throw, and no other event moves.
structure PruningKeepsLive (functionName : String) (functionSpan : Option Span) (events : List FlowEvent) : Prop where
  lowers : (loweredLeaves events).Perm (leavesAll events)
  holds : ∀ (id : Nat) (block : BasicBlock),
    (buildCfgFromFlowInSpan functionName functionSpan events).blocks[id]? = some block →
    block.events = ((placements events).filter (blockOf functionSpan events · = id)).map (·.event)
  occurs : ∀ placement ∈ placements events, (loweredLeaves events)[placement.occurrence]? = some placement.event
  keeps : ∀ placement ∈ placements events,
    Reachable (buildCfgFromFlowInSpan functionName functionSpan events) (blockOf functionSpan events placement) →
    placement.occurrence ∈ executable events
  executes : (leavesAll (normalizeExecutableFlow events)).map some = (executable events).map ((loweredLeaves events)[·]?)
  distinct : (executable events).Nodup
  hoisted : Hoisted (operandCalls events) 0 (loweredLeaves events).length (executable events)
  operands : ∀ pair ∈ operandCalls events, OperandCall (loweredLeaves events) pair
  idempotent : normalizeExecutableFlow (normalizeExecutableFlow events) = normalizeExecutableFlow events

-- Every executable call nested in a return or throw is in a reachable block when the
-- return or throw is.
def OperandCallsAgree (functionName : String) (functionSpan : Option Span) (events : List FlowEvent) : Prop :=
  ∀ pair ∈ operandCalls events, pair.2 ∈ executable events →
    (∃ terminal ∈ placements events, terminal.occurrence = pair.1 ∧
      Reachable (buildCfgFromFlowInSpan functionName functionSpan events) (blockOf functionSpan events terminal)) →
    ∃ call ∈ placements events, call.occurrence = pair.2 ∧
      Reachable (buildCfgFromFlowInSpan functionName functionSpan events) (blockOf functionSpan events call)

section operands
variable {whole : List FlowEvent}

theorem nestedOccurrences_operand (terminal : Span) (offset : Nat) : ∀ events, Aligned whole offset (leavesAll events) →
    ∀ occurrence ∈ nestedOccurrences terminal offset events, ∃ call, whole[occurrence]? = some call ∧ isCall call = true ∧
      strictlyContained terminal (eventSpan call) = true
  | [], _, _, member => by cases member
  | nested :: events, aligned, occurrence, member => by
    rw [leavesAll] at aligned
    obtain ⟨head,tail⟩ := aligned.append
    rw [nestedOccurrences] at member
    split at member
    · next contained =>
      split at member
      · next call =>
        rcases List.mem_cons.mp member with rfl | later
        · rw [(isCall_plain call).2.2.1] at head
          exact ⟨nested,head.head,call,contained⟩
        · exact nestedOccurrences_operand terminal _ events tail occurrence later
      · exact nestedOccurrences_operand terminal _ events tail occurrence member
    · cases member

theorem operands_append {nested nested' : List (Nat × Nat)} (first : ∀ pair ∈ nested, OperandCall whole pair)
    (second : ∀ pair ∈ nested', OperandCall whole pair) : ∀ pair ∈ nested ++ nested', OperandCall whole pair := by
  intro pair member
  rcases List.mem_append.mp member with here | there
  · exact first pair here
  · exact second pair there

mutual

theorem nestedEvent_operands (offset : Nat) : ∀ event, Aligned whole offset (leaves event) →
    ∀ pair ∈ nestedEvent offset event, OperandCall whole pair
  | .branch _ _ thenEvents elseEvents, aligned => by
    obtain ⟨left,right⟩ := Aligned.append aligned
    exact operands_append (nestedAll_operands offset thenEvents left) (nestedAll_operands _ elseEvents right)
  | .loop _ _ _ conditionEvents updateEvents body, aligned => by
    obtain ⟨both,third⟩ := Aligned.append aligned
    obtain ⟨first,second⟩ := both.append
    rw [List.length_append, ← Nat.add_assoc] at third
    exact operands_append (operands_append (nestedAll_operands offset conditionEvents first) (nestedAll_operands _ updateEvents second))
      (nestedAll_operands _ body third)
  | .try _ body catchEvents finallyEvents _ _ _, aligned => by
    obtain ⟨both,third⟩ := Aligned.append aligned
    obtain ⟨first,second⟩ := both.append
    rw [List.length_append, ← Nat.add_assoc] at third
    exact operands_append (operands_append (nestedAll_operands offset body first) (nestedAll_operands _ catchEvents second))
      (nestedAll_operands _ finallyEvents third)
  | .using _ body, aligned => nestedAll_operands offset body aligned
  | .defer .., _ | .call .., _ | .assign .., _ | .aggregateAssign .., _ | .return .., _ | .throw .., _ | .break .., _
  | .continue .., _ | .yield .., _ | .await .., _ | .lifecycle .., _ => nofun

theorem nestedAll_operands (offset : Nat) : ∀ events, Aligned whole offset (leavesAll events) →
    ∀ pair ∈ nestedAll offset events, OperandCall whole pair
  | [], _ => nofun
  | event :: events, aligned => by
    rw [leavesAll] at aligned
    obtain ⟨head,tail⟩ := aligned.append
    have own : ∀ pair ∈ (if leavesFunction event then
        (nestedOccurrences (eventSpan event) (offset + 1) events).map (offset,·) else []), OperandCall whole pair := by
      split
      · next abrupt =>
        intro pair member
        obtain ⟨occurrence,among,rfl⟩ := List.mem_map.mp member
        rw [(leavesFunction_leaf abrupt).2.1] at head tail
        exact ⟨event,head.head,abrupt,nestedOccurrences_operand _ _ events tail occurrence among⟩
      · nofun
    rw [nestedAll]
    exact operands_append (operands_append own (nestedEvent_operands offset event head)) (nestedAll_operands _ events tail)

end

-- Lowering a deferred scope moves its events behind the rest, and loses none.
mutual

theorem normalize_leaves : ∀ event, (leaves (normalizeDeferredScope event)).Perm (leaves event)
  | .branch _ _ thenEvents elseEvents => (normalize_leavesAll thenEvents).append (normalize_leavesAll elseEvents)
  | .loop _ _ _ conditionEvents updateEvents body =>
    ((normalize_leavesAll conditionEvents).append (normalize_leavesAll updateEvents)).append (normalize_leavesAll body)
  | .try _ body catchEvents finallyEvents _ _ _ =>
    ((normalize_leavesAll body).append (normalize_leavesAll catchEvents)).append (normalize_leavesAll finallyEvents)
  | .using _ body => normalize_leavesAll body
  | .defer .. | .call .. | .assign .. | .aggregateAssign .. | .return .. | .throw .. | .break .. | .continue .. | .yield ..
  | .await .. | .lifecycle .. => .refl _

theorem normalize_leavesAll : ∀ events, (leavesAll (normalizeDeferredScopes events)).Perm (leavesAll events)
  | [] => .refl _
  | .defer span body :: events => by
    have rest := normalize_leavesAll events
    have deferred := normalize_leavesAll body
    simp only [normalizeDeferredScopes, leavesAll_single, leaves, leavesAll, List.append_nil]
    exact (rest.append deferred).trans List.perm_append_comm
  | .branch .. :: events | .loop .. :: events | .try .. :: events | .using .. :: events | .call .. :: events | .assign .. :: events
  | .aggregateAssign .. :: events | .return .. :: events | .throw .. :: events | .break .. :: events | .continue .. :: events
  | .yield .. :: events | .await .. :: events | .lifecycle .. :: events => by
    rw [normalizeDeferredScopes]
    · exact (normalize_leaves _).append (normalize_leavesAll events)
    · nofun

end

end operands

theorem Hoisted.nodup {nested : List (Nat × Nat)} {lower upper : Nat} {kept : List Nat} (hoisted : Hoisted nested lower upper kept) :
    kept.Nodup := by
  refine hoisted.ordered.imp fun either => ?_
  rcases either with before | moved
  · exact before.ne
  · exact (hoisted.between _ moved).2.1.ne'

section agreement
variable (functionName : String) (functionSpan : Option Span) (events : List FlowEvent)

theorem executable_hoisted : Hoisted (operandCalls events) 0 (loweredLeaves events).length (executable events) := by
  have hoisted := keptAll_hoisted 0 (normalizeDeferredScopes events)
  rw [Nat.zero_add] at hoisted
  exact hoisted

theorem live_executed {site : Site} (member : site ∈ (outline events).sites) (live : site.live = true) :
    Executed (operandCalls events) (executable events) site.occurrence := by
  have explained := (flowAll_explained [] [] true 0 (normalizeDeferredScopes events)).sites site member live
  rcases explained.2 with here | ⟨_,none,_⟩
  · exact here
  · cases none

theorem mem_callsOf {nested : List (Nat × Nat)} {terminal call : Nat} : call ∈ callsOf nested terminal ↔ (terminal,call) ∈ nested := by
  rw [callsOf, List.mem_map]
  constructor
  · intro found
    obtain ⟨pair,member,rfl⟩ := found
    obtain ⟨among,same⟩ := List.mem_filter.mp member
    exact (of_decide_eq_true same) ▸ among
  · exact fun among => ⟨_,List.mem_filter.mpr ⟨among,decide_eq_true rfl⟩,rfl⟩

theorem whole_aligned (whole : List FlowEvent) : Aligned whole 0 whole := fun i _ => by rw [Nat.zero_add]

theorem pruning_keeps_live : PruningKeepsLive functionName functionSpan events where
  lowers := normalize_leavesAll events
  holds _ _ found := graph_events functionName functionSpan events found
  occurs _ member := placement_occurrence events member
  keeps placement member reached := by
    obtain ⟨site,among,placed⟩ := site_of functionName functionSpan events member
    rw [placed.occurrence]
    exact (live_executed events among (placed.reached.mp reached)).kept
  executes := prune_aligned 0 _ (whole_aligned _)
  distinct := (executable_hoisted events).nodup
  hoisted := executable_hoisted events
  operands := nestedAll_operands 0 _ (whole_aligned _)
  idempotent := normalizeExecutableFlow_idempotent events

-- A nested call stands behind its return or throw in the graph, where no block is
-- reachable.
theorem agreement_forces (agree : OperandCallsAgree functionName functionSpan events) :
    ∀ site ∈ (outline events).sites, site.live = true → callsOf (operandCalls events) site.occurrence = [] := by
  intro site member live
  refine List.eq_nil_iff_forall_not_mem.mpr fun call among => ?_
  have pair := mem_callsOf.mp among
  obtain ⟨terminal,here,placed⟩ := placement_of functionName functionSpan events member
  obtain ⟨before,after,same⟩ := (executable_hoisted events).direct site.occurrence (live_executed events member live).kept
  have kept : call ∈ executable events := by
    rw [same]
    exact List.mem_append_left _ (List.mem_append_right _ among)
  obtain ⟨placement,there,called,reached⟩ := agree _ pair kept ⟨terminal,here,placed.occurrence,placed.reached.mpr live⟩
  obtain ⟨place,found,placed'⟩ := site_of functionName functionSpan events there
  have executed := live_executed events found (placed'.reached.mp reached)
  exact executed.still _ pair (called.symm.trans placed'.occurrence)

theorem agreement_of_bare (none : ∀ site ∈ (outline events).sites, site.live = true →
    callsOf (operandCalls events) site.occurrence = []) : OperandCallsAgree functionName functionSpan events := by
  intro pair among _ terminal
  obtain ⟨placement,member,same,reached⟩ := terminal
  obtain ⟨site,found,placed⟩ := site_of functionName functionSpan events member
  have empty := none site found (placed.reached.mp reached)
  have call : pair.2 ∈ callsOf (operandCalls events) site.occurrence := by
    rw [mem_callsOf, ← placed.occurrence, same]
    exact among
  rw [empty] at call
  cases call

-- The two agree only when control gets to no return or throw that has nested calls.
theorem operand_calls_agree_iff : OperandCallsAgree functionName functionSpan events ↔
    ∀ site ∈ (outline events).sites, site.live = true → callsOf (operandCalls events) site.occurrence = [] :=
  ⟨agreement_forces functionName functionSpan events,agreement_of_bare functionName functionSpan events⟩

end agreement

def deferredCall : List FlowEvent :=
  [.defer ⟨0,0,9⟩ [.call ⟨0,1,8⟩ ['a'] none [] .function []],.call ⟨0,10,12⟩ ['b'] none [] .function []]

theorem deferred_call_moves : ¬∃ kept : List Nat,
    (leavesAll (normalizeExecutableFlow deferredCall)).map some = kept.map ((leavesAll deferredCall)[·]?) ∧
      kept.Pairwise fun earlier later => earlier < later ∨ (later,earlier) ∈ nestedAll 0 deferredCall := by
  intro found
  obtain ⟨kept,same,ordered⟩ := found
  have after : leavesAll (normalizeExecutableFlow deferredCall) =
      [.call ⟨0,10,12⟩ ['b'] none [] .function [],.call ⟨0,1,8⟩ ['a'] none [] .function []] := rfl
  have before : leavesAll deferredCall =
      [.call ⟨0,1,8⟩ ['a'] none [] .function [],.call ⟨0,10,12⟩ ['b'] none [] .function []] := rfl
  have none : nestedAll 0 deferredCall = [] := rfl
  rw [after, before] at same
  rw [none] at ordered
  match kept, same, ordered with
  | [_], same, _ | _ :: _ :: _ :: _, same, _ => simp at same
  | [first,second], same, ordered =>
    simp only [List.map_cons, List.map_nil, List.cons.injEq, and_true] at same
    have below : first < second := by simpa using ordered
    match first, second, same, below with
    | 0, _, same, _ => simp at same
    | 1, second + 2, same, _ => simp at same
    | _ + 2, _, same, _ => simp at same

def returnedCall : List FlowEvent :=
  [.return ⟨0,0,9⟩ (some .callResult) none none,.call ⟨0,7,9⟩ ['f'] none [] .function []]

theorem returned_call_disagrees : ¬OperandCallsAgree "f" none returnedCall := by
  intro agree
  have bare := agreement_forces "f" none returnedCall agree
  have site : ⟨0,.return ⟨0,0,9⟩ (some .callResult) none none,[],true⟩ ∈ (outline returnedCall).sites := by
    rw [outline, returnedCall, normalizeDeferredScopes, flowAll]
    · refine List.mem_append_left _ ?_
      rw [normalizeDeferredScope, flowEvent_transfer rfl]
      · exact List.mem_cons_self
      all_goals
        intros
        contradiction
    · nofun
  cases bare _ site rfl

end BonsaiNinja.Cfg
