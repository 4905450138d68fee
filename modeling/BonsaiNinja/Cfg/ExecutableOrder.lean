import BonsaiNinja.Cfg.ExecutableFlow

namespace BonsaiNinja.Cfg
open Library LangApi

def Aligned (whole : List FlowEvent) (offset : Nat) (part : List FlowEvent) : Prop :=
  ∀ i < part.length, whole[offset + i]? = part[i]?

def callsOf (nested : List (Nat × Nat)) (terminal : Nat) : List Nat := (nested.filter (·.1 = terminal)).map (·.2)

def Between (lower upper : Nat) (nested : List (Nat × Nat)) : Prop :=
  ∀ pair ∈ nested, lower ≤ pair.1 ∧ pair.1 < pair.2 ∧ pair.2 < upper

-- Kept occurrences of a part of the tree: they stay in order, but for the nested
-- calls, which stand directly in front of the return or throw that they belong to.
structure Hoisted (nested : List (Nat × Nat)) (lower upper : Nat) (kept : List Nat) : Prop where
  le : lower ≤ upper
  bounds : ∀ occurrence ∈ kept, lower ≤ occurrence ∧ occurrence < upper
  between : Between lower upper nested
  ordered : kept.Pairwise fun earlier later => earlier < later ∨ (later,earlier) ∈ nested
  direct : ∀ terminal ∈ kept, ∃ before after, kept = before ++ callsOf nested terminal ++ terminal :: after

section aligned
variable {whole first second part : List FlowEvent} {offset : Nat}

theorem Aligned.append (aligned : Aligned whole offset (first ++ second)) :
    Aligned whole offset first ∧ Aligned whole (offset + first.length) second := by
  constructor
  · intro i inside
    rw [aligned i (by rw [List.length_append]; omega), List.getElem?_append_left inside]
  · intro i inside
    rw [Nat.add_assoc, aligned (first.length + i) (by rw [List.length_append]; omega),
      List.getElem?_append_right (Nat.le_add_right _ _), Nat.add_sub_cancel_left]

theorem Aligned.head {event : FlowEvent} (aligned : Aligned whole offset [event]) : whole[offset]? = some event :=
  aligned 0 Nat.zero_lt_one

theorem nestedCalls_aligned (terminal : Span) {events : List FlowEvent} (aligned : Aligned whole offset (leavesAll events)) :
    (nestedCalls terminal events).map some = (nestedOccurrences terminal offset events).map (whole[·]?) := by
  induction events generalizing offset with
  | nil => rfl
  | cons nested events ih =>
    rw [leavesAll] at aligned
    obtain ⟨head,tail⟩ := aligned.append
    rw [nestedCalls, nestedOccurrences]
    split
    · split
      · next call =>
        rw [(isCall_plain call).2.2.1] at head
        rw [List.map_cons, List.map_cons, head.head, ih tail]
      · exact ih tail
    · rfl

theorem leavesAll_append (first second : List FlowEvent) : leavesAll (first ++ second) = leavesAll first ++ leavesAll second := by
  induction first with
  | nil => rfl
  | cons event first ih => rw [List.cons_append, leavesAll, leavesAll, ih, List.append_assoc]

theorem leavesAll_calls {calls : List FlowEvent} (all : ∀ call ∈ calls, isCall call = true) : leavesAll calls = calls := by
  induction calls with
  | nil => rfl
  | cons call calls ih =>
    rw [leavesAll, (isCall_plain (all call List.mem_cons_self)).2.2.1,
      ih fun other member => all other (List.mem_cons_of_mem _ member)]
    rfl

theorem leavesAll_single {event : FlowEvent} : leavesAll [event] = leaves event := by
  rw [leavesAll, leavesAll, List.append_nil]

-- The events that stay executable are those of the kept occurrences.
mutual

theorem pruneEvent_aligned (offset : Nat) : ∀ event, Aligned whole offset (leaves event) →
    (leaves (pruneEvent event).1).map some = (keptEvent offset event).map (whole[·]?)
  | .branch _ _ thenEvents elseEvents, aligned => by
    obtain ⟨left,right⟩ := Aligned.append aligned
    simp only [pruneEvent, leaves, keptEvent, List.map_append, prune_aligned offset thenEvents left]
    rw [prune_aligned _ elseEvents right]
    rfl
  | .loop _ _ _ conditionEvents updateEvents body, aligned => by
    obtain ⟨both,third⟩ := Aligned.append aligned
    obtain ⟨first,second⟩ := both.append
    rw [List.length_append, ← Nat.add_assoc] at third
    simp only [pruneEvent, leaves, keptEvent, List.map_append, prune_aligned offset conditionEvents first]
    rw [prune_aligned _ updateEvents second, prune_aligned _ body third]
    rfl
  | .try _ body catchEvents finallyEvents _ _ _, aligned => by
    obtain ⟨both,third⟩ := Aligned.append aligned
    obtain ⟨first,second⟩ := both.append
    rw [List.length_append, ← Nat.add_assoc] at third
    simp only [pruneEvent, leaves, keptEvent, List.map_append, prune_aligned offset body first]
    rw [prune_aligned _ catchEvents second, prune_aligned _ finallyEvents third]
    rfl
  | .using _ body, aligned => prune_aligned offset body aligned
  | .defer _ body, aligned => by
    simp only [pruneEvent, keptEvent, List.map_map]
    refine List.ext_getElem? fun i => ?_
    rw [List.getElem?_map, List.getElem?_map]
    by_cases inside : i < leafCount body
    · rw [List.getElem?_range inside]
      have same := aligned i inside
      simp only [Option.map_some, Function.comp, same]
      rw [leaves, leafCount] at *
      rw [List.getElem?_eq_getElem inside]
      rfl
    · rw [List.getElem?_eq_none (by rw [leaves]; exact Nat.le_of_not_lt inside),
        List.getElem?_eq_none (by rw [List.length_range]; exact Nat.le_of_not_lt inside)]
      rfl
  | .call .., aligned | .assign .., aligned | .aggregateAssign .., aligned | .return .., aligned | .throw .., aligned
  | .break .., aligned | .continue .., aligned | .yield .., aligned | .await .., aligned | .lifecycle .., aligned => by
    simp only [pruneEvent, leaves, keptEvent, List.map_cons, List.map_nil, Aligned.head aligned]

theorem prune_aligned (offset : Nat) : ∀ events, Aligned whole offset (leavesAll events) →
    (leavesAll (pruneUnreachableSequence events).1).map some = (keptAll offset events).map (whole[·]?)
  | [], _ => rfl
  | event :: events, aligned => by
    rw [leavesAll] at aligned
    obtain ⟨head,tail⟩ := aligned.append
    have first := pruneEvent_aligned offset event head
    have later := prune_aligned _ events tail
    rw [pruneUnreachableSequence, keptAll]
    split
    · next abrupt =>
      obtain ⟨stays,leaf,_⟩ := leavesFunction_leaf abrupt
      rw [leaf] at head tail
      dsimp only
      rw [leavesAll_append, leavesAll_calls fun call member => nestedCalls_calls member, leavesAll_single, stays, leaf,
        List.map_append, List.map_append, nestedCalls_aligned _ tail, List.map_cons, List.map_cons, head.head]
      rfl
    · dsimp only
      split
      · simp only [leavesAll, List.map_append, first, later]
      · simp only [leavesAll, first, List.append_nil]

end

end aligned

section hoisted
variable {nested nested' : List (Nat × Nat)} {lower middle upper offset terminal : Nat} {kept kept' : List Nat}

theorem callsOf_append (nested nested' : List (Nat × Nat)) (terminal : Nat) :
    callsOf (nested ++ nested') terminal = callsOf nested terminal ++ callsOf nested' terminal := by
  rw [callsOf, List.filter_append, List.map_append]
  rfl

theorem callsOf_none (none : ∀ pair ∈ nested, pair.1 ≠ terminal) : callsOf nested terminal = [] := by
  rw [callsOf, List.filter_eq_nil_iff.mpr fun pair member => by simpa using none pair member]
  rfl

theorem callsOf_own (terminal : Nat) (calls : List Nat) : callsOf (calls.map (terminal,·)) terminal = calls := by
  rw [callsOf, List.filter_eq_self.mpr fun pair member => ?_, List.map_map]
  · exact List.map_id' calls
  · obtain ⟨call,_,rfl⟩ := List.mem_map.mp member
    exact decide_eq_true rfl

theorem Between.append (first : Between lower middle nested) (second : Between middle upper nested') (le : lower ≤ middle)
    (le' : middle ≤ upper) : Between lower upper (nested ++ nested') := by
  intro pair member
  rcases List.mem_append.mp member with here | there
  · have bounds := first pair here
    exact ⟨bounds.1,bounds.2.1,bounds.2.2.trans_le le'⟩
  · have bounds := second pair there
    exact ⟨le.trans bounds.1,bounds.2⟩

theorem Hoisted.append (first : Hoisted nested lower middle kept) (second : Hoisted nested' middle upper kept') :
    Hoisted (nested ++ nested') lower upper (kept ++ kept') where
  le := first.le.trans second.le
  bounds occurrence member := by
    rcases List.mem_append.mp member with here | there
    · have bounds := first.bounds occurrence here
      exact ⟨bounds.1,bounds.2.trans_le second.le⟩
    · have bounds := second.bounds occurrence there
      exact ⟨first.le.trans bounds.1,bounds.2⟩
  between := first.between.append second.between first.le second.le
  ordered := by
    refine List.pairwise_append.mpr ⟨first.ordered.imp ?_,second.ordered.imp ?_,fun one among two among' => .inl ?_⟩
    · exact fun either => either.imp id (List.mem_append_left _)
    · exact fun either => either.imp id (List.mem_append_right _)
    · exact (first.bounds one among).2.trans_le (second.bounds two among').1
  direct terminal member := by
    rcases List.mem_append.mp member with here | there
    · have none : callsOf nested' terminal = [] := callsOf_none fun pair among => by
        have low := (second.between pair among).1
        have high := (first.bounds terminal here).2
        omega
      obtain ⟨before,after,same⟩ := first.direct terminal here
      refine ⟨before,after ++ kept',?_⟩
      rw [callsOf_append, none, List.append_nil, same]
      simp
    · have none : callsOf nested terminal = [] := callsOf_none fun pair among => by
        have high := (first.between pair among).2
        have low := (second.bounds terminal there).1
        omega
      obtain ⟨before,after,same⟩ := second.direct terminal there
      refine ⟨kept ++ before,after,?_⟩
      rw [callsOf_append, none, List.nil_append, same]
      simp

theorem Hoisted.drop (hoisted : Hoisted nested lower upper kept) : Hoisted nested lower upper [] :=
  ⟨hoisted.le,nofun,hoisted.between,.nil,nofun⟩

theorem Hoisted.none (le : lower ≤ upper) : Hoisted [] lower upper [] := ⟨le,nofun,nofun,.nil,nofun⟩

theorem Hoisted.single (offset : Nat) : Hoisted [] offset (offset + 1) [offset] where
  le := Nat.le_succ offset
  bounds occurrence member := by
    rw [List.mem_singleton.mp member]
    omega
  between := nofun
  ordered := List.pairwise_singleton _ _
  direct terminal member := ⟨[],[],by rw [List.mem_singleton.mp member]; rfl⟩

theorem hoisted_range (count offset : Nat) : Hoisted [] offset (offset + count) ((List.range count).map (offset + ·)) where
  le := Nat.le_add_right offset count
  bounds occurrence member := by
    obtain ⟨i,inside,rfl⟩ := List.mem_map.mp member
    rw [List.mem_range] at inside
    omega
  between := nofun
  ordered := by
    refine List.pairwise_map.mpr (List.pairwise_lt_range.imp fun below => .inl ?_)
    omega
  direct terminal member := by
    obtain ⟨before,after,same⟩ := List.append_of_mem member
    exact ⟨before,after,by rw [same]; simp [callsOf]⟩

theorem nestedOccurrences_sorted (span : Span) (offset : Nat) (events : List FlowEvent) : (nestedOccurrences span offset events).Pairwise (· < ·) ∧
    ∀ call ∈ nestedOccurrences span offset events, offset ≤ call ∧ call < offset + leafCount events := by
  induction events generalizing offset with
  | nil => exact ⟨.nil,List.forall_mem_nil _⟩
  | cons nested events ih =>
    obtain ⟨sorted,bounds⟩ := ih (offset + (leaves nested).length)
    have count : leafCount (nested :: events) = (leaves nested).length + leafCount events := by
      rw [leafCount, leavesAll, List.length_append]
      rfl
    rw [nestedOccurrences]
    split
    · split
      · next call =>
        have one : (leaves nested).length = 1 := by rw [(isCall_plain call).2.2.1]; rfl
        refine ⟨List.pairwise_cons.mpr ⟨fun other member => ?_,sorted⟩,fun other member => ?_⟩
        · have low := (bounds other member).1
          omega
        · rcases List.mem_cons.mp member with rfl | later
          · omega
          · have inside := bounds other later
            omega
      · refine ⟨sorted,fun other member => ?_⟩
        have inside := bounds other member
        omega
    · exact ⟨.nil,List.forall_mem_nil _⟩

theorem leafCount_cons (event : FlowEvent) (events : List FlowEvent) :
    leafCount (event :: events) = (leaves event).length + leafCount events := by
  rw [leafCount, leavesAll, List.length_append]
  rfl

mutual

theorem nestedEvent_between (offset : Nat) : ∀ event, Between offset (offset + (leaves event).length) (nestedEvent offset event)
  | .branch _ _ thenEvents elseEvents => by
    rw [leaves, List.length_append, ← Nat.add_assoc]
    exact (nestedAll_between offset thenEvents).append (nestedAll_between _ elseEvents) (Nat.le_add_right _ _) (Nat.le_add_right _ _)
  | .loop _ _ _ conditionEvents updateEvents body => by
    rw [leaves, List.length_append, List.length_append, ← Nat.add_assoc, ← Nat.add_assoc]
    exact ((nestedAll_between offset conditionEvents).append (nestedAll_between _ updateEvents) (Nat.le_add_right _ _)
      (Nat.le_add_right _ _)).append (nestedAll_between _ body)
      ((Nat.le_add_right _ _).trans (Nat.le_add_right _ _)) (Nat.le_add_right _ _)
  | .try _ body catchEvents finallyEvents _ _ _ => by
    rw [leaves, List.length_append, List.length_append, ← Nat.add_assoc, ← Nat.add_assoc]
    exact ((nestedAll_between offset body).append (nestedAll_between _ catchEvents) (Nat.le_add_right _ _)
      (Nat.le_add_right _ _)).append (nestedAll_between _ finallyEvents)
      ((Nat.le_add_right _ _).trans (Nat.le_add_right _ _)) (Nat.le_add_right _ _)
  | .using _ body => nestedAll_between offset body
  | .defer .. | .call .. | .assign .. | .aggregateAssign .. | .return .. | .throw .. | .break .. | .continue .. | .yield ..
  | .await .. | .lifecycle .. => nofun

theorem nestedAll_between (offset : Nat) : ∀ events, Between offset (offset + leafCount events) (nestedAll offset events)
  | [] => nofun
  | event :: events => by
    have first := nestedEvent_between offset event
    have later := nestedAll_between (offset + (leaves event).length) events
    have head : Between offset (offset + leafCount (event :: events)) (if leavesFunction event then
        (nestedOccurrences (eventSpan event) (offset + 1) events).map (offset,·) else []) := by
      split
      · next abrupt =>
        intro pair member
        obtain ⟨call,among,rfl⟩ := List.mem_map.mp member
        have bounds := (nestedOccurrences_sorted (eventSpan event) (offset + 1) events).2 call among
        have one : (leaves event).length = 1 := by rw [(leavesFunction_leaf abrupt).2.1]; rfl
        rw [leafCount_cons]
        dsimp only
        omega
      · nofun
    rw [nestedAll, leafCount_cons]
    rw [leafCount_cons] at head
    intro pair member
    rcases List.mem_append.mp member with both | there
    · rcases List.mem_append.mp both with own | inside
      · exact head pair own
      · have bounds := first pair inside
        omega
    · have bounds := later pair there
      omega

end

theorem nestedOccurrences_apart (span : Span) (offset : Nat) : ∀ events, ∀ call ∈ nestedOccurrences span offset events,
    ∀ pair ∈ nestedAll offset events, pair.1 ≠ call
  | [], _, member, _, _ => nomatch member
  | nested :: events, call, member, pair, among => by
    have bounds := (nestedOccurrences_sorted span (offset + (leaves nested).length) events).2
    have later := nestedAll_between (offset + (leaves nested).length) events
    have apart := nestedOccurrences_apart span (offset + (leaves nested).length) events
    rw [nestedOccurrences] at member
    split at member
    · split at member
      · next simple =>
        obtain ⟨_,stays,one,_⟩ := isCall_plain simple
        have count : (leaves nested).length = 1 := by rw [one]; rfl
        have none : nestedEvent offset nested = [] := by
          cases nested with
          | call => rfl
          | assign | aggregateAssign | yield | await | lifecycle | branch | loop | «return» | throw | «try» | «break» | «continue»
          | defer | «using» => cases simple
        rw [nestedAll, stays, none, if_neg Bool.false_ne_true, List.nil_append, List.nil_append] at among
        rcases List.mem_cons.mp member with rfl | member
        · have low := (later pair among).1
          omega
        · exact apart call member pair among
      · have low := (bounds call member).1
        rw [nestedAll] at among
        rcases List.mem_append.mp among with both | there
        · rcases List.mem_append.mp both with own | inside
          · split at own
            · next abrupt =>
              obtain ⟨other,_,rfl⟩ := List.mem_map.mp own
              have one : (leaves nested).length = 1 := by rw [(leavesFunction_leaf abrupt).2.1]; rfl
              dsimp only
              omega
            · cases own
          · have high := nestedEvent_between offset nested pair inside
            omega
        · exact apart call member pair there
    · cases member

theorem hoisted_terminal (span : Span) (offset : Nat) (events : List FlowEvent) :
    Hoisted ((nestedOccurrences span (offset + 1) events).map (offset,·) ++ nestedAll (offset + 1) events) offset
      (offset + 1 + leafCount events) (nestedOccurrences span (offset + 1) events ++ [offset]) := by
  obtain ⟨sorted,bounds⟩ := nestedOccurrences_sorted span (offset + 1) events
  have between := nestedAll_between (offset + 1) events
  have own : callsOf ((nestedOccurrences span (offset + 1) events).map (offset,·) ++ nestedAll (offset + 1) events) offset =
      nestedOccurrences span (offset + 1) events := by
    rw [callsOf_append, callsOf_own, callsOf_none fun pair among => ?_, List.append_nil]
    have low := (between pair among).1
    omega
  have none : ∀ call ∈ nestedOccurrences span (offset + 1) events,
      callsOf ((nestedOccurrences span (offset + 1) events).map (offset,·) ++ nestedAll (offset + 1) events) call = [] := by
    intro call member
    refine callsOf_none fun pair among => ?_
    rcases List.mem_append.mp among with here | there
    · obtain ⟨other,_,rfl⟩ := List.mem_map.mp here
      have low := (bounds call member).1
      dsimp only
      omega
    · exact nestedOccurrences_apart span (offset + 1) events call member pair there
  exact
    { le := by omega
      bounds := fun occurrence member => by
        rcases List.mem_append.mp member with call | last
        · have inside := bounds occurrence call
          omega
        · rw [List.mem_singleton.mp last]
          omega
      between := fun pair member => by
        rcases List.mem_append.mp member with here | there
        · obtain ⟨call,among,rfl⟩ := List.mem_map.mp here
          have inside := bounds call among
          dsimp only
          omega
        · have inside := between pair there
          omega
      ordered := by
        refine List.pairwise_append.mpr ⟨sorted.imp .inl,List.pairwise_singleton _ _,fun call member last only => .inr ?_⟩
        rw [List.mem_singleton.mp only]
        exact List.mem_append_left _ (List.mem_map_of_mem member)
      direct := fun terminal member => by
        rcases List.mem_append.mp member with call | last
        · obtain ⟨before,after,same⟩ := List.append_of_mem call
          refine ⟨before,after ++ [offset],?_⟩
          rw [none terminal call, same]
          simp
        · rw [List.mem_singleton.mp last, own]
          exact ⟨[],[],rfl⟩ }

mutual

theorem keptEvent_hoisted (offset : Nat) : ∀ event,
    Hoisted (nestedEvent offset event) offset (offset + (leaves event).length) (keptEvent offset event)
  | .branch _ _ thenEvents elseEvents => by
    rw [leaves, List.length_append, ← Nat.add_assoc]
    exact (keptAll_hoisted offset thenEvents).append (keptAll_hoisted _ elseEvents)
  | .loop _ _ _ conditionEvents updateEvents body => by
    rw [leaves, List.length_append, List.length_append, ← Nat.add_assoc, ← Nat.add_assoc]
    exact ((keptAll_hoisted offset conditionEvents).append (keptAll_hoisted _ updateEvents)).append (keptAll_hoisted _ body)
  | .try _ body catchEvents finallyEvents _ _ _ => by
    rw [leaves, List.length_append, List.length_append, ← Nat.add_assoc, ← Nat.add_assoc]
    exact ((keptAll_hoisted offset body).append (keptAll_hoisted _ catchEvents)).append (keptAll_hoisted _ finallyEvents)
  | .using _ body => keptAll_hoisted offset body
  | .defer _ body => hoisted_range (leafCount body) offset
  | .call .. | .assign .. | .aggregateAssign .. | .return .. | .throw .. | .break .. | .continue .. | .yield .. | .await ..
  | .lifecycle .. => .single offset

theorem keptAll_hoisted (offset : Nat) : ∀ events,
    Hoisted (nestedAll offset events) offset (offset + leafCount events) (keptAll offset events)
  | [] => .none (Nat.le_add_right _ _)
  | event :: events => by
    have first := keptEvent_hoisted offset event
    have later := keptAll_hoisted (offset + (leaves event).length) events
    rw [keptAll, nestedAll, leafCount_cons, ← Nat.add_assoc]
    split
    · next abrupt =>
      have one : (leaves event).length = 1 := by rw [(leavesFunction_leaf abrupt).2.1]; rfl
      have none : nestedEvent offset event = [] := by
        cases event with
        | «return» | throw => rfl
        | call | assign | aggregateAssign | yield | await | lifecycle | branch | loop | «try» | «break» | «continue» | defer
        | «using» => cases abrupt
      rw [one] at later ⊢
      rw [none, List.append_nil]
      exact hoisted_terminal (eventSpan event) offset events
    · rw [List.nil_append]
      split
      · exact first.append later
      · have whole := first.append later.drop
        rwa [List.append_nil] at whole ⊢

end

end hoisted

end BonsaiNinja.Cfg
