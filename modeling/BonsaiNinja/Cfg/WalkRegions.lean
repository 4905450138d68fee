import BonsaiNinja.Cfg.ControlOutline
import BonsaiNinja.Cfg.WellFormed
import BonsaiNinja.Library.Regions

namespace BonsaiNinja.Cfg
open Library LangApi

def loopFlow (loopKind : LoopKind) (live : Bool) (test body : Bool → Flow) : Flow :=
  let bodyLive := if loopKind = .doWhile then live else (test live).fallsThrough
  let inside := body bodyLive
  let condition := if loopKind = .doWhile then test (inside.fallsThrough || decide (.continue 0 ∈ inside.jumps)) else test live
  ⟨condition.fallsThrough && decide (loopKind ≠ .loop) || decide (.break 0 ∈ inside.jumps),
    condition.jumps ++ outward inside.jumps,condition.sites ++ inside.sites⟩

def bodyFlow (loopKind : LoopKind) (body update : Bool → Flow) (live : Bool) : Flow :=
  let inside := body live
  let later := update (inside.fallsThrough || decide (loopKind ≠ .doWhile ∧ .continue 0 ∈ inside.jumps))
  ⟨later.fallsThrough,inside.jumps ++ later.jumps,inside.sites ++ later.sites⟩

-- The stack of the outline describes the loops of the walk, and marks as foreign those
-- that are not around the event in the program.
structure Outlines (loops scope : List LoopTargets) (stack : List LoopSite) : Prop where
  same : stack.map (fun site => (site.label,site.retainedFinallyDepth)) =
    loops.map fun target => (target.label,target.retainedFinallyDepth)
  lexical : scope = ((loops.zip stack).filter fun pair => !pair.2.isForeign).map (·.1)

-- The loops at the entry of a try are those that are left when the newer ones are not counted.
structure CleanupOutlines (loops : List LoopTargets) (cleanup : Cleanup LoopTargets) (pending : Cleanup LoopSite) : Prop where
  frame : cleanup.frame = pending.frame
  offset : cleanup.offset = pending.offset
  opened : ∃ newer older, loops = newer ++ older ∧ Outlines older cleanup.scope pending.scope

def spaceOf (before cur bound : Nat) : Set Nat := {i | (i = cur ∨ before ≤ i) ∧ i < bound}

def landings (exit : Nat) (loops : List LoopTargets) (jumps : List Outcome) : Set Nat :=
  {j | ∃ jump ∈ jumps, j = (destination exit loops jump).1}

-- A placement of the walk is a place of the outline, in a block that is alive when the
-- place is.
structure Matches (space alive : Set Nat) (placement : Placement) (site : Site) : Prop where
  occurrence : placement.occurrence = site.occurrence
  event : placement.event = site.event
  outlines : Outlines placement.loops placement.scope site.stack
  within : placement.block ∈ space
  live : placement.block ∈ alive ↔ site.live = true

def TaskFlow (exit : Nat) (loops : List LoopTargets) (stack : List LoopSite) (pending : List (Cleanup LoopSite)) (live : Bool)
    (flow : Flow) : Task → Prop
  | .all offset events => flow = flowAll stack pending live offset events
  | .one offset event => flow = flowEvent stack pending live offset event
  | .path target => ∃ outcome, target = destination exit loops outcome ∧ flow = flowPath stack outcome target.2 live pending

section outlines
variable {exit : Nat} {loops scope : List LoopTargets} {stack : List LoopSite} {jumps jumps' : List Outcome}

section
variable (outlines : Outlines loops scope stack)
include outlines

theorem Outlines.length : stack.length = loops.length := by
  have same := congrArg List.length outlines.same
  rwa [List.length_map, List.length_map] at same

theorem Outlines.labels : stack.map (·.label) = labelsOf loops := by
  have same := congrArg (List.map Prod.fst) outlines.same
  rwa [List.map_map, List.map_map] at same

theorem Outlines.depth (loop : Nat) :
    stack[loop]?.map (·.retainedFinallyDepth) = loops[loop]?.map (·.retainedFinallyDepth) := by
  have same := congrArg (fun row => (row[loop]?).map Prod.snd) outlines.same
  rwa [List.getElem?_map, List.getElem?_map, Option.map_map, Option.map_map] at same

theorem Outlines.retained (outcome : Outcome) :
    (destination exit loops outcome).2 = retainedDepth stack outcome := by
  cases outcome with
  | normal | exit => rfl
  | «break» loop | «continue» loop =>
    have depth := outlines.depth loop
    simp only [destination, retainedDepth]
    cases found : loops[loop]? with
    | none =>
      rw [found, Option.map_none, Option.map_eq_none_iff] at depth
      rw [depth]
      rfl
    | some target =>
      rw [found, Option.map_some] at depth
      obtain ⟨site,present,equal⟩ := Option.map_eq_some_iff.mp depth
      rw [present]
      exact equal.symm

theorem Outlines.transfer (event : FlowEvent) :
    controlTransferTarget event loops exit = destination exit loops (transferOf stack event) := by
  cases event with
  | «break» span target => rw [transferOf, outlines.labels, controlTransferTarget_break]
  | «continue» span target => rw [transferOf, outlines.labels, controlTransferTarget_continue]
  | call | assign | aggregateAssign | yield | await | lifecycle | branch | loop | «return» | throw | «try» | defer | «using» => rfl

theorem Outlines.loop (target : LoopTargets) :
    Outlines (target :: loops) (target :: scope) (⟨target.label,target.retainedFinallyDepth,false⟩ :: stack) where
  same := by rw [List.map_cons, List.map_cons, outlines.same]
  lexical := by rw [List.zip_cons_cons, List.filter_cons_of_pos rfl, List.map_cons, ← outlines.lexical]

end

theorem CleanupOutlines.loop {cleanup : Cleanup LoopTargets} {pending : Cleanup LoopSite}
    (outlines : CleanupOutlines loops cleanup pending) (target : LoopTargets) : CleanupOutlines (target :: loops) cleanup pending where
  frame := outlines.frame
  offset := outlines.offset
  opened := by
    obtain ⟨newer,older,rfl,same⟩ := outlines.opened
    exact ⟨target :: newer,older,rfl,same⟩

theorem Outlines.cleanup (outlines : Outlines loops scope stack) (frame : FinallyFrame) (offset : Nat) :
    CleanupOutlines loops ⟨frame,offset,scope⟩ ⟨frame,offset,stack⟩ := ⟨rfl,rfl,[],loops,rfl,outlines⟩

-- A copied finally body sees the loops of its own try, and none that came later.
theorem Outlines.copy (outlines : Outlines loops scope stack) {cleanup : Cleanup LoopTargets} {pending : Cleanup LoopSite}
    (copied : CleanupOutlines loops cleanup pending) : Outlines loops cleanup.scope (copyStack stack pending) := by
  obtain ⟨newer,older,rfl,inner⟩ := copied.opened
  have length := outlines.length
  have innerLength := inner.length
  rw [List.length_append] at length
  have count : stack.length - pending.scope.length = newer.length := by omega
  have taken := congrArg (List.take newer.length) outlines.same
  rw [← List.map_take, List.map_append, List.take_left' (List.length_map _)] at taken
  unfold copyStack
  rw [count]
  refine ⟨?_,?_⟩
  · rw [List.map_append, List.map_append, ← taken, inner.same, List.map_map]
    rfl
  · have short : newer.length = ((stack.take newer.length).map ({· with isForeign := true})).length := by
      rw [List.length_map, List.length_take]
      omega
    have none : (newer.zip ((stack.take newer.length).map ({· with isForeign := true}))).filter
        (fun pair => !pair.2.isForeign) = [] := by
      refine List.filter_eq_nil_iff.mpr fun pair member => ?_
      obtain ⟨site,_,same⟩ := List.mem_map.mp (List.of_mem_zip member).2
      rw [← same]
      exact Bool.false_ne_true
    rw [List.zip_append short, List.filter_append, none, List.nil_append]
    exact inner.lexical

theorem landings_nil : landings exit loops [] = ∅ := by
  ext j
  simp [landings]

theorem landings_append : landings exit loops (jumps ++ jumps') = landings exit loops jumps ∪ landings exit loops jumps' := by
  ext j
  simp [landings, or_and_right, exists_or]

theorem landings_only {outcome : Outcome} {live : Bool} : landings exit loops (if live then [outcome] else []) =
    {j | j = (destination exit loops outcome).1 ∧ live = true} := by
  ext j
  cases live <;> simp [landings]

theorem landings_loop {target : LoopTargets} {j : Nat} (member : j ∈ landings exit (target :: loops) jumps) :
    .break 0 ∈ jumps ∧ j = target.breakTo ∨ .continue 0 ∈ jumps ∧ j = target.continueTo ∨
      j ∈ landings exit loops (outward jumps) := by
  obtain ⟨jump,among,rfl⟩ := member
  cases jump with
  | normal | exit => exact .inr (.inr ⟨_,List.mem_filterMap.mpr ⟨_,among,rfl⟩,rfl⟩)
  | «break» loop =>
    cases loop with
    | zero => exact .inl ⟨among,rfl⟩
    | succ loop => exact .inr (.inr ⟨.break loop,List.mem_filterMap.mpr ⟨_,among,rfl⟩,rfl⟩)
  | «continue» loop =>
    cases loop with
    | zero => exact .inr (.inl ⟨among,rfl⟩)
    | succ loop => exact .inr (.inr ⟨.continue loop,List.mem_filterMap.mpr ⟨_,among,rfl⟩,rfl⟩)

theorem landings_outward {target : LoopTargets} : landings exit loops (outward jumps) ⊆ landings exit (target :: loops) jumps := by
  intro j member
  obtain ⟨jump,among,rfl⟩ := member
  obtain ⟨inner,among',same⟩ := List.mem_filterMap.mp among
  refine ⟨inner,among',?_⟩
  cases inner with
  | normal | exit =>
    cases same
    rfl
  | «break» loop | «continue» loop =>
    cases loop with
    | zero => cases same
    | succ loop =>
      cases same
      rfl

theorem flowPath_arrives (outcome : Outcome) (depth : Nat) : ∀ (live : Bool) (pending : List (Cleanup LoopSite)),
    (flowPath stack outcome depth live pending).fallsThrough = true → outcome ∈ (flowPath stack outcome depth live pending).jumps
  | live, [], falls => by
    rw [flowPath] at falls ⊢
    have enters : live = true := falls
    rw [enters]
    exact List.mem_singleton_self _
  | live, cleanup :: pending, falls => by
    rw [flowPath] at falls ⊢
    split at falls
    · next retained =>
      have enters : live = true := falls
      rw [if_pos retained, enters]
      exact List.mem_singleton_self _
    · next left =>
      rw [if_neg left]
      exact List.mem_append_right _ (flowPath_arrives outcome depth _ pending falls)

end outlines

def Traced (exit : Nat) (loops : List LoopTargets) (before cur : Nat) (last : Blocks) (tail : Nat) (live : Bool) (flow : Flow)
    (placed : List Placement) : Prop :=
  ∃ alive, Region (Edge last) (spaceOf before cur last.length) cur tail (live = true) (flow.fallsThrough = true)
    (landings exit loops flow.jumps) alive ∧ List.Forall₂ (Matches (spaceOf before cur last.length) alive) placed flow.sites

section traced
variable {exit before cur tail final join : Nat} {loops : List LoopTargets} {blocks middle last : Blocks} {live : Bool}
  {one two flow : Flow} {placed placed' : List Placement} {space space' alive alive' : Set Nat} {sites sites' : List Site}
  {successors : List Nat}
variable {span : Span}

theorem matches_wider (matched : List.Forall₂ (Matches space alive) placed sites)
    (wider : ∀ i ∈ space, i ∈ space' ∧ (i ∈ alive' ↔ i ∈ alive)) : List.Forall₂ (Matches space' alive') placed sites := by
  refine matched.imp fun placement site same => ?_
  obtain ⟨inside,lives⟩ := wider placement.block same.within
  exact { same with
    within := inside
    live := lives.trans same.live }

theorem Within.seen {live falls : Prop} {jumps : Set Nat}
    (region : Region (Edge middle) (spaceOf blocks.length cur middle.length) cur tail live falls jumps alive)
    (within : Within blocks cur middle tail last) :
    Region (Edge last) (spaceOf blocks.length cur middle.length) cur tail live falls jumps alive :=
  region.transfer within.edges fun i member far j step => within.closed i member.2 member.1 far j step

theorem Traced.next (first : Traced exit loops before cur middle tail live one placed)
    (second : Traced exit loops middle.length tail last final one.fallsThrough two placed') (shorter : before ≤ middle.length)
    (fresh : tail = cur ∨ before ≤ tail) (grown : Grown middle tail last final successors) :
    Traced exit loops before cur last final live ⟨two.fallsThrough,one.jumps ++ two.jumps,one.sites ++ two.sites⟩
      (placed ++ placed') := by
  obtain ⟨alive,region,matched⟩ := first
  obtain ⟨alive',region',matched'⟩ := second
  have longer := grown.longer
  have seen : Region (Edge last) (spaceOf before cur middle.length) cur tail _ _ _ alive :=
    region.transfer grown.steps.edges fun i member far j edge => by
      rw [edge_iff_view] at edge ⊢
      rwa [grown.steps.touches.kept i member.2 far] at edge
  have apart : ∀ i ∈ spaceOf before cur middle.length, i ∈ spaceOf middle.length tail last.length → i = tail := by
    intro i here there
    obtain ⟨_,below⟩ := here
    obtain ⟨low,_⟩ := there
    omega
  have left : spaceOf before cur middle.length ⊆ spaceOf before cur last.length := fun i here => ⟨here.1,by
    have below := here.2
    omega⟩
  have right : spaceOf middle.length tail last.length ⊆ spaceOf before cur last.length := fun i there => ⟨by
    have low := there.1
    omega,there.2⟩
  refine ⟨alive ∪ alive',?_,?_⟩
  · rw [landings_append]
    exact (seen.next region' apart).widen (Set.union_subset left right)
  · exact List.rel_append
      (matches_wider matched fun i member => ⟨left member,seen.next_left region' apart member⟩)
      (matches_wider matched' fun i member => ⟨right member,seen.next_right region' apart member⟩)

theorem Traced.enter {start older : Nat} (traced : Traced exit loops before start last tail live flow placed)
    (below : cur < older) (fresh : older ≤ start) (shorter : older ≤ before) (inside : cur < last.length)
    (leads : Leads last cur [start]) : Traced exit loops older cur last tail live flow placed := by
  obtain ⟨alive,region,matched⟩ := traced
  have outside : cur ∉ spaceOf before start last.length := by
    intro member
    obtain ⟨low,_⟩ := member
    omega
  have edges : ∀ j, Edge last cur j ↔ j = start := fun j => leads.edge_iff.trans List.mem_singleton
  have inner : ∀ i ∈ spaceOf before start last.length, i ∈ spaceOf older cur last.length := fun i member => ⟨.inr (by
    have low := member.1
    omega),member.2⟩
  refine ⟨_,(region.enter outside edges).widen (Set.insert_subset ⟨.inl rfl,inside⟩ inner),?_⟩
  refine matches_wider matched fun i member => ⟨inner i member,?_⟩
  refine ⟨fun either => either.elim (fun here => ?_) id,.inr⟩
  exact absurd (here.1 ▸ member) outside

theorem traced_none (opened : Leads blocks cur []) : Traced exit loops blocks.length cur blocks cur live ⟨live,[],[]⟩ [] := by
  refine ⟨{i | i = cur ∧ live = true},?_,.nil⟩
  rw [landings_nil]
  refine (Region.single cur (live = true)).widen fun i member => ?_
  rw [Set.mem_singleton_iff.mp member]
  exact ⟨.inl rfl,opened.lt⟩

theorem traced_reached (opened : Leads blocks cur []) (outcome : Outcome) :
    Traced exit loops blocks.length cur (link blocks cur (destination exit loops outcome).1) cur live
      ⟨live,if live then [outcome] else [],[]⟩ [] := by
  refine ⟨{i | i = cur ∧ live = true},?_,.nil⟩
  rw [landings_only]
  have linked := opened.link (List.not_mem_nil (a := (destination exit loops outcome).1))
  refine (Region.arrive (linked.edge_iff.mpr (List.mem_singleton_self _))).widen fun i member => ?_
  rw [Set.mem_singleton_iff.mp member]
  exact ⟨.inl rfl,linked.lt⟩

-- An abrupt event and the way of its transfer; what follows it is dead.
theorem traced_leave (event : FlowEvent) (offset : Nat) {source : Nat} {scope : List LoopTargets} {stack : List LoopSite} {path : Flow}
    (outlines : Outlines loops scope stack) (traced : Traced exit loops before cur last source live path placed)
    (edges : path.fallsThrough = true → ∀ j, Edge last source j → j ∈ landings exit loops path.jumps)
    (longer : before ≤ last.length) :
    Traced exit loops before cur (addDead last) last.length live ⟨false,path.jumps,⟨offset,event,stack,live⟩ :: path.sites⟩
      (⟨offset,event,cur,loops,scope,source⟩ :: placed) := by
  obtain ⟨alive,region,matched⟩ := traced
  have dead := @addDead_steps last
  have length := @addDead_length last
  have back : ∀ i < last.length, ∀ j, Edge (addDead last) i j → Edge last i j := fun i below j edge => by
    rw [edge_iff_view] at edge ⊢
    rwa [dead.1.touches.kept i below id] at edge
  have seen := region.transfer dead.1.edges fun i member _ j edge => back i member.2 j edge
  have outside : last.length ∉ spaceOf before cur last.length := fun member => absurd member.2 (Nat.lt_irrefl _)
  have stopped := seen.stop outside fun falls j edge => edges falls j (back source region.tailIn.2 j edge)
  have inner : ∀ i ∈ spaceOf before cur last.length, i ∈ spaceOf before cur (addDead last).length := fun i member =>
    ⟨member.1,by
      have below := member.2
      omega⟩
  refine ⟨alive,?_,.cons ?_ (matches_wider matched fun i member => ⟨inner i member,Iff.rfl⟩)⟩
  · rw [Bool.false_eq_true]
    exact stopped.widen (Set.insert_subset ⟨.inr longer,by omega⟩ inner)
  · exact
      { occurrence := rfl
        event := rfl
        outlines := outlines
        within := inner cur region.entryIn
        live := region.enters }

theorem traced_plain {event : FlowEvent} {offset : Nat} {scope : List LoopTargets} {stack : List LoopSite}
    (outlines : Outlines loops scope stack) (inside : cur < last.length) :
    Traced exit loops before cur last cur live ⟨live,[],[⟨offset,event,stack,live⟩]⟩ [⟨offset,event,cur,loops,scope,cur⟩] := by
  refine ⟨{i | i = cur ∧ live = true},?_,.cons ?_ .nil⟩
  · rw [landings_nil]
    refine (Region.single cur (live = true)).widen fun i member => ?_
    rw [Set.mem_singleton_iff.mp member]
    exact ⟨.inl rfl,inside⟩
  · exact
      { occurrence := rfl
        event := rfl
        outlines := outlines
        within := ⟨.inl rfl,inside⟩
        live := ⟨And.right,fun enters => ⟨rfl,enters⟩⟩ }

theorem traced_parts {p q : Prop} (region : Region (Edge last) (insert cur (insert join (space ∪ space'))) cur join (live = true)
      (flow.fallsThrough = true) (landings exit loops flow.jumps)
      ({i | i = cur ∧ p} ∪ {i | i = join ∧ q} ∪ (alive ∪ alive')))
    (startFresh : cur ∉ space ∪ space') (joinFresh : join ∉ space ∪ space') (apart : ∀ i ∈ space, i ∉ space')
    (inside : alive ⊆ space) (inside' : alive' ⊆ space')
    (wider : insert cur (insert join (space ∪ space')) ⊆ spaceOf before cur last.length)
    (matched : List.Forall₂ (Matches space alive) placed sites) (matched' : List.Forall₂ (Matches space' alive') placed' sites')
    (same : flow.sites = sites ++ sites') : Traced exit loops before cur last join live flow (placed ++ placed') := by
  refine ⟨_,region.widen wider,?_⟩
  rw [same]
  refine List.rel_append (matches_wider matched fun i member => ⟨wider (.inr (.inr (.inl member))),?_⟩)
    (matches_wider matched' fun i member => ⟨wider (.inr (.inr (.inr member))),?_⟩)
  · exact Region.mem_left member (fun here => startFresh (.inl here)) (fun here => joinFresh (.inl here))
      fun there => apart i member (inside' there)
  · exact Region.mem_right member (fun here => startFresh (.inr here)) (fun here => joinFresh (.inr here))
      fun here => apart i (inside here) member

theorem traced_fork {left right leftTail rightTail leftBefore rightBefore : Nat} {leftLast rightLast : Blocks}
    (first : Region (Edge last) (spaceOf leftBefore left leftLast.length) left leftTail (live = true) (one.fallsThrough = true)
      (landings exit loops one.jumps) alive)
    (second : Region (Edge last) (spaceOf rightBefore right rightLast.length) right rightTail (live = true)
      (two.fallsThrough = true) (landings exit loops two.jumps) alive')
    (matched : List.Forall₂ (Matches (spaceOf leftBefore left leftLast.length) alive) placed one.sites)
    (matched' : List.Forall₂ (Matches (spaceOf rightBefore right rightLast.length) alive') placed' two.sites)
    (forks : Leads last cur [left,right]) (leftLeads : Leads last leftTail [join]) (rightLeads : Leads last rightTail [join])
    (startFresh : cur ∉ spaceOf leftBefore left leftLast.length ∪ spaceOf rightBefore right rightLast.length)
    (joinFresh : join ∉ spaceOf leftBefore left leftLast.length ∪ spaceOf rightBefore right rightLast.length)
    (apart : ∀ i ∈ spaceOf leftBefore left leftLast.length, i ∉ spaceOf rightBefore right rightLast.length) (other : cur ≠ join)
    (wider : insert cur (insert join (spaceOf leftBefore left leftLast.length ∪ spaceOf rightBefore right rightLast.length)) ⊆
      spaceOf before cur last.length) :
    Traced exit loops before cur last join live
      ⟨one.fallsThrough || two.fallsThrough,one.jumps ++ two.jumps,one.sites ++ two.sites⟩ (placed ++ placed') := by
  have whole := first.fork second (fun j => forks.edge_iff.trans (by simp))
    (fun j => leftLeads.edge_iff.trans List.mem_singleton) (fun j => rightLeads.edge_iff.trans List.mem_singleton)
    startFresh joinFresh other
  rw [← landings_append, ← Bool.or_eq_true] at whole
  exact traced_parts whole startFresh joinFresh apart first.inside second.inside wider matched matched' rfl

theorem traced_branch {thenTail elseTail : Nat}
    (shape : BranchGrown exit loops blocks cur span middle thenTail last elseTail) (inside : cur < blocks.length)
    (first : Traced exit loops (forkBranch blocks cur span).length (blocks.length + 1) middle thenTail live one placed)
    (second : Traced exit loops middle.length (blocks.length + 2) last elseTail live two placed') :
    Traced exit loops blocks.length cur (link (link last thenTail blocks.length) elseTail blocks.length) blocks.length live
      ⟨one.fallsThrough || two.fallsThrough,one.jumps ++ two.jumps,one.sites ++ two.sites⟩ (placed ++ placed') := by
  obtain ⟨alive,region,matched⟩ := first
  obtain ⟨alive',region',matched'⟩ := second
  have length := @forkBranch_length blocks cur span
  have longer := shape.thenGrown.longer
  have longer' := shape.elseGrown.longer
  have final : (link (link last thenTail blocks.length) elseTail blocks.length).length = last.length := by simp
  rw [length] at longer matched
  refine traced_fork (length ▸ shape.thenWithin.seen region) (shape.elseWithin.seen region') matched matched' shape.forks
    shape.thenLeads shape.elseLeads ?_ ?_ ?_ (Nat.ne_of_lt inside) ?_
  · intro member
    rcases member with ⟨low,_⟩ | ⟨low,_⟩ <;> omega
  · intro member
    rcases member with ⟨low,_⟩ | ⟨low,_⟩ <;> omega
  · intro i here there
    obtain ⟨low,below⟩ := here
    obtain ⟨high,_⟩ := there
    omega
  · intro i member
    rcases member with rfl | rfl | ⟨low,below⟩ | ⟨low,below⟩
    · exact ⟨.inl rfl,by omega⟩
    · exact ⟨.inr (Nat.le_refl _),by omega⟩
    · exact ⟨.inr (by omega),by omega⟩
    · exact ⟨.inr (by omega),by omega⟩

-- A loop: its test and what runs between two tests.
section loops
variable {target : LoopTargets} {first header body after testTail bodyTail : Nat} {testLive bodyLive : Bool}
  {condition inside : Flow} {loopKind : LoopKind}
variable {span : Span}

theorem traced_around
    (test : Region (Edge last) space header testTail (testLive = true) (condition.fallsThrough = true)
      (landings exit loops condition.jumps) alive)
    (inner : Region (Edge last) space' body bodyTail (bodyLive = true) (inside.fallsThrough = true)
      (landings exit (target :: loops) inside.jumps) alive')
    (matched : List.Forall₂ (Matches space alive) placed condition.sites)
    (matched' : List.Forall₂ (Matches space' alive') placed' inside.sites)
    (starts : Leads last cur [first]) (tests : Leads last testTail (if loopKind = .loop then [body] else [body,after]))
    (backs : Leads last bodyTail [header]) (breaks : target.breakTo = after)
    (startFresh : cur ∉ space ∪ space') (afterFresh : after ∉ space ∪ space') (apart : ∀ i ∈ space, i ∉ space')
    (other : cur ≠ after) (wider : insert cur (insert after (space ∪ space')) ⊆ spaceOf before cur last.length)
    (phase : first = header ∧ testLive = live ∧ bodyLive = condition.fallsThrough ∨
      first = body ∧ bodyLive = live ∧ testLive = (inside.fallsThrough || decide (.continue 0 ∈ inside.jumps)) ∧
        target.continueTo = header)
    (continues : .continue 0 ∈ inside.jumps → target.continueTo ∈ alive' ∨ target.continueTo = header ∧ testLive = true) :
    Traced exit loops before cur last after live
      ⟨condition.fallsThrough && decide (loopKind ≠ .loop) || decide (.break 0 ∈ inside.jumps),
        condition.jumps ++ outward inside.jumps,condition.sites ++ inside.sites⟩ (placed ++ placed') := by
  have leads : ∀ j, Edge last testTail j ↔ j = body ∨ loopKind ≠ .loop ∧ j = after := by
    intro j
    rw [tests.edge_iff]
    split
    · next endless => simp [endless]
    · next ends => simp [ends]
  have landing : ∀ j ∈ landings exit (target :: loops) inside.jumps, j = after ∧ .break 0 ∈ inside.jumps ∨ j ∈ alive' ∨
      j = header ∧ testLive = true ∨ j ∈ landings exit loops (outward inside.jumps) := by
    intro j member
    rcases landings_loop member with ⟨broke,rfl⟩ | ⟨again,rfl⟩ | away
    · exact .inl ⟨breaks,broke⟩
    · exact (continues again).elim (fun here => .inr (.inl here)) fun back => .inr (.inr (.inl back))
    · exact .inr (.inr (.inr away))
  have jump : ∀ outcome ∈ inside.jumps, (destination exit (target :: loops) outcome).1 ∈
      landings exit (target :: loops) inside.jumps := fun outcome among => ⟨outcome,among,rfl⟩
  have phases : first = header ∧ (testLive = true ↔ live = true) ∧ (bodyLive = true ↔ condition.fallsThrough = true) ∨
      first = body ∧ (bodyLive = true ↔ live = true) ∧
        (testLive = true ↔ inside.fallsThrough = true ∨ .continue 0 ∈ inside.jumps ∧ target.continueTo = header) := by
    rcases phase with ⟨same,tested,entered⟩ | ⟨same,entered,tested,resumes⟩
    · exact .inl ⟨same,by rw [tested],by rw [entered]⟩
    · refine .inr ⟨same,by rw [entered],?_⟩
      rw [tested, Bool.or_eq_true, decide_eq_true_iff]
      simp [resumes]
  have whole := test.loop inner (fun j => starts.edge_iff.trans List.mem_singleton) leads
    (fun j => backs.edge_iff.trans List.mem_singleton) startFresh afterFresh other phases landing
    (fun broke => breaks ▸ jump _ broke) (fun again => again.2 ▸ jump _ again.1) landings_outward
  rw [← landings_append] at whole
  have falls : ((condition.fallsThrough && decide (loopKind ≠ .loop) || decide (.break 0 ∈ inside.jumps)) = true) =
      (condition.fallsThrough = true ∧ loopKind ≠ .loop ∨ .break 0 ∈ inside.jumps) := by
    rw [Bool.or_eq_true, Bool.and_eq_true, decide_eq_true_eq, decide_eq_true_eq]
  rw [← falls] at whole
  exact traced_parts whole startFresh afterFresh apart test.inside inner.inside wider matched matched' rfl

theorem traced_phases {testFlow innerFlow : Bool → Flow}
    (around : ∀ testLive bodyLive,
      (loopKind ≠ .doWhile ∧ testLive = live ∧ bodyLive = (testFlow testLive).fallsThrough ∨
        loopKind = .doWhile ∧ bodyLive = live ∧
          testLive = ((innerFlow bodyLive).fallsThrough || decide (.continue 0 ∈ (innerFlow bodyLive).jumps))) →
      Traced exit loops before cur last after live
        ⟨(testFlow testLive).fallsThrough && decide (loopKind ≠ .loop) || decide (.break 0 ∈ (innerFlow bodyLive).jumps),
          (testFlow testLive).jumps ++ outward (innerFlow bodyLive).jumps,
          (testFlow testLive).sites ++ (innerFlow bodyLive).sites⟩ placed) :
    Traced exit loops before cur last after live (loopFlow loopKind live testFlow innerFlow) placed := by
  unfold loopFlow
  split
  · next post => exact around _ _ (.inr ⟨post,rfl,rfl⟩)
  · next pre => exact around _ _ (.inl ⟨pre,rfl,rfl⟩)

theorem traced_loop {tested linked : Blocks} {testFlow innerFlow : Bool → Flow}
    (shape : LoopGrown exit loops blocks cur span loopKind target tested testTail linked last bodyTail)
    (inside : cur < blocks.length) (breaks : target.breakTo = blocks.length + 2) (continues : target.continueTo = blocks.length)
    (first : ∀ live, Traced exit loops (enterLoop blocks cur span).length blocks.length tested testTail live (testFlow live) placed)
    (second : ∀ live, Traced exit (target :: loops) linked.length (blocks.length + 1) last bodyTail live (innerFlow live) placed') :
    Traced exit loops blocks.length cur (link last bodyTail blocks.length) (blocks.length + 2) live
      (loopFlow loopKind live testFlow innerFlow) (placed ++ placed') := by
  have length := @enterLoop_length blocks cur span
  have longer := shape.entry.testGrown.longer
  have same := shape.entry.same
  have longer' := shape.bodyGrown.longer
  have final : (link last bodyTail blocks.length).length = last.length := link_length
  rw [length] at first longer
  refine traced_phases fun testLive bodyLive phase => ?_
  obtain ⟨alive,region,matched⟩ := first testLive
  obtain ⟨alive',region',matched'⟩ := second bodyLive
  refine traced_around (length ▸ shape.testWithin.seen (length.symm ▸ region)) (shape.bodyWithin.seen region') matched matched'
    shape.enters shape.tests shape.backs breaks ?_ ?_ ?_ (by omega) ?_ ?_ ?_
  · intro member
    rcases member with ⟨low,_⟩ | ⟨low,_⟩ <;> omega
  · intro member
    rcases member with ⟨low,_⟩ | ⟨low,_⟩ <;> omega
  · intro i here there
    obtain ⟨low,below⟩ := here
    obtain ⟨high,_⟩ := there
    omega
  · intro i member
    rcases member with rfl | rfl | ⟨low,below⟩ | ⟨low,below⟩
    · exact ⟨.inl rfl,by omega⟩
    · exact ⟨.inr (by omega),by omega⟩
    · exact ⟨.inr (by omega),by omega⟩
    · exact ⟨.inr (by omega),by omega⟩
  · rcases phase with ⟨pre,tests,enters⟩ | ⟨post,enters,tests⟩
    · exact .inl ⟨if_neg pre,tests,enters⟩
    · exact .inr ⟨if_pos post,enters,tests,continues⟩
  · intro again
    refine .inr ⟨continues,?_⟩
    rcases phase with ⟨_,tests,enters⟩ | ⟨_,_,tests⟩
    · have alive := (region'.jumped _ ⟨_,again,rfl⟩).1
      rw [enters] at alive
      exact region.lives_of_falls alive
    · rw [tests, Bool.or_eq_true, decide_eq_true_iff]
      exact .inr again

theorem traced_update {tested linked added : Blocks} {updateTail : Nat} {placed'' : List Placement}
    {testFlow innerFlow updateFlow : Bool → Flow}
    (shape : UpdateGrown exit loops blocks cur span loopKind target tested testTail linked added middle bodyTail last updateTail)
    (inside : cur < blocks.length) (breaks : target.breakTo = blocks.length + 2)
    (continues : target.continueTo = if loopKind = .doWhile then blocks.length else linked.length)
    (extended : added.length = linked.length + 1)
    (first : ∀ live, Traced exit loops (enterLoop blocks cur span).length blocks.length tested testTail live (testFlow live) placed)
    (second : ∀ live, Traced exit (target :: loops) added.length (blocks.length + 1) middle bodyTail live (innerFlow live) placed')
    (third : ∀ live, Traced exit (target :: loops) (link middle bodyTail linked.length).length linked.length last updateTail live
      (updateFlow live) placed'') :
    Traced exit loops blocks.length cur (link last updateTail blocks.length) (blocks.length + 2) live
      (loopFlow loopKind live testFlow (bodyFlow loopKind innerFlow updateFlow)) (placed ++ (placed' ++ placed'')) := by
  have length := @enterLoop_length blocks cur span
  have longer := shape.entry.testGrown.longer
  have same := shape.entry.same
  have longer' := shape.bodyGrown.longer
  have longest := shape.updateGrown.longer
  have joined : (link middle bodyTail linked.length).length = middle.length := link_length
  have final : (link last updateTail blocks.length).length = last.length := link_length
  rw [length] at first longer
  rw [joined] at third longest
  refine traced_phases fun testLive bodyLive phase => ?_
  obtain ⟨alive,region,matched⟩ := first testLive
  obtain ⟨alive',region',matched'⟩ := second bodyLive
  obtain ⟨alive'',region'',matched''⟩ := third ((innerFlow bodyLive).fallsThrough ||
    decide (loopKind ≠ .doWhile ∧ .continue 0 ∈ (innerFlow bodyLive).jumps))
  have apart : ∀ i ∈ spaceOf added.length (blocks.length + 1) middle.length,
      i ∉ spaceOf middle.length linked.length last.length := by
    intro i here there
    obtain ⟨low,below⟩ := here
    obtain ⟨high,_⟩ := there
    have far := shape.entry.longer
    omega
  have body := shape.bodyWithin.seen region'
  have update := region''.transfer shape.updateWithin.edges fun i member far j step =>
    shape.updateWithin.closed i member.2 (by rw [joined]; exact member.1) far j step
  -- The update runs behind the body, or after a `continue` that leads there.
  have lively : ((innerFlow bodyLive).fallsThrough ||
      decide (loopKind ≠ .doWhile ∧ .continue 0 ∈ (innerFlow bodyLive).jumps)) = true ↔
      (innerFlow bodyLive).fallsThrough = true ∨ loopKind ≠ .doWhile ∧ .continue 0 ∈ (innerFlow bodyLive).jumps := by
    rw [Bool.or_eq_true, decide_eq_true_iff]
  have both := body.resume update (fun j => shape.backs.edge_iff.trans List.mem_singleton) apart lively fun again => ⟨_,again.2,by rw [destination]; simp [continues,again.1]⟩
  rw [← landings_append] at both
  have inner : List.Forall₂ (Matches (spaceOf added.length (blocks.length + 1) middle.length ∪
      spaceOf middle.length linked.length last.length) (alive' ∪ alive'')) (placed' ++ placed'')
      (bodyFlow loopKind innerFlow updateFlow bodyLive).sites := by
    refine List.rel_append (matches_wider matched' fun i member => ⟨.inl member,?_⟩)
      (matches_wider matched'' fun i member => ⟨.inr member,?_⟩)
    · exact ⟨fun either => either.elim id fun there => absurd (region''.inside there) (apart i member),.inl⟩
    · exact ⟨fun either => either.elim (fun here => absurd member (apart i (region'.inside here))) id,.inr⟩
  refine traced_around (length ▸ shape.testWithin.seen (length.symm ▸ region)) both matched inner
    shape.enters shape.tests shape.returns breaks ?_ ?_ ?_ (by omega) ?_ ?_ ?_
  · intro member
    rcases member with ⟨low,_⟩ | ⟨low,_⟩ | ⟨low,_⟩ <;> omega
  · intro member
    rcases member with ⟨low,_⟩ | ⟨low,_⟩ | ⟨low,_⟩ <;> omega
  · intro i here there
    obtain ⟨low,below⟩ := here
    rcases there with ⟨high,_⟩ | ⟨high,_⟩ <;> omega
  · intro i member
    rcases member with rfl | rfl | ⟨low,below⟩ | ⟨low,below⟩ | ⟨low,below⟩
    · exact ⟨.inl rfl,by omega⟩
    · exact ⟨.inr (by omega),by omega⟩
    · exact ⟨.inr (by omega),by omega⟩
    · exact ⟨.inr (by omega),by omega⟩
    · exact ⟨.inr (by omega),by omega⟩
  · rcases phase with ⟨pre,tests,enters⟩ | ⟨post,enters,tests⟩
    · exact .inl ⟨if_neg pre,tests,enters⟩
    · exact .inr ⟨if_pos post,enters,tests,continues.trans (if_pos post)⟩
  · intro again
    rcases phase with ⟨pre,_,_⟩ | ⟨post,_,tests⟩
    · rw [continues, if_neg pre]
      refine .inl (.inr (update.enters.mpr ?_))
      rcases List.mem_append.mp again with here | there
      · rw [Bool.or_eq_true, decide_eq_true_iff]
        exact .inr ⟨pre,here⟩
      · exact (update.jumped _ ⟨_,there,rfl⟩).1
    · refine .inr ⟨continues.trans (if_pos post),?_⟩
      rw [tests, Bool.or_eq_true, decide_eq_true_iff]
      exact .inr again

end loops

theorem traced_try {bodyTail : Nat}
    (shape : TryGrown exit loops blocks cur span middle bodyTail last final) (inside : cur < blocks.length)
    (first : Traced exit loops (enterTry blocks cur span).length (blocks.length + 1) middle bodyTail live one placed)
    (second : Traced exit loops (joinFinally middle bodyTail span).length middle.length last final one.fallsThrough two placed') :
    Traced exit loops blocks.length cur last final live
      ⟨two.fallsThrough,one.jumps ++ two.jumps,one.sites ++ two.sites⟩ (placed ++ placed') := by
  obtain ⟨alive,region,matched⟩ := first
  have length := @enterTry_length blocks cur span
  have longer := shape.bodyGrown.longer
  have joined := @joinFinally_length middle bodyTail span
  have fresh : middle.length ∉ spaceOf (enterTry blocks cur span).length (blocks.length + 1) middle.length := fun member =>
    absurd member.2 (Nat.lt_irrefl _)
  have linked := (shape.bodyWithin.seen region).link fresh fun j => shape.joins.edge_iff.trans List.mem_singleton
  have inner : ∀ i ∈ spaceOf (enterTry blocks cur span).length (blocks.length + 1) middle.length,
      i ∈ spaceOf (blocks.length + 2) (blocks.length + 1) (joinFinally middle bodyTail span).length := fun i member => by
    obtain ⟨low,below⟩ := member
    exact ⟨by omega,by omega⟩
  have body : Traced exit loops (blocks.length + 2) (blocks.length + 1) (joinFinally middle bodyTail span) middle.length live one
      placed := by
    refine ⟨_,linked.widen (Set.insert_subset ⟨.inr (by omega),by omega⟩ inner),?_⟩
    refine matches_wider matched fun i member => ⟨inner i member,?_⟩
    exact ⟨fun either => either.elim (fun here => absurd (here.1 ▸ member) fresh) id,.inr⟩
  have entered := (body.enter (by omega) (by omega : blocks.length + 1 ≤ blocks.length + 1) (by omega) (by omega) shape.forks).enter inside
    (Nat.le_refl _) (by omega) (by omega) shape.enters
  exact entered.next second (by omega) (.inr (by omega)) shape.finallyGrown

theorem traced_handle {bodyTail catchTail : Nat} {handled : Blocks} {three : Flow} {placed'' : List Placement}
    (shape : HandleGrown exit loops blocks cur span middle bodyTail handled catchTail last final) (inside : cur < blocks.length)
    (first : Traced exit loops (enterCatch (enterTry blocks cur span) span blocks.length).length (blocks.length + 1) middle bodyTail
      live one placed)
    (second : Traced exit loops middle.length (blocks.length + 2) handled catchTail live two placed')
    (third : Traced exit loops (link (joinFinally handled bodyTail span) catchTail handled.length).length handled.length last final
      (one.fallsThrough || two.fallsThrough) three placed'') :
    Traced exit loops blocks.length cur last final live
      ⟨three.fallsThrough,one.jumps ++ two.jumps ++ three.jumps,one.sites ++ two.sites ++ three.sites⟩
      (placed ++ placed' ++ placed'') := by
  obtain ⟨alive,region,matched⟩ := first
  obtain ⟨alive',region',matched'⟩ := second
  have length : (enterCatch (enterTry blocks cur span) span blocks.length).length = blocks.length + 3 := by simp
  have longer := shape.bodyGrown.longer
  have longer' := shape.catchGrown.longer
  have joined : (link (joinFinally handled bodyTail span) catchTail handled.length).length = handled.length + 1 := by simp
  rw [length] at longer matched
  have forked : Traced exit loops (blocks.length + 1) blocks.length (link (joinFinally handled bodyTail span) catchTail handled.length)
      handled.length live ⟨one.fallsThrough || two.fallsThrough,one.jumps ++ two.jumps,one.sites ++ two.sites⟩
      (placed ++ placed') := by
    refine traced_fork (length ▸ shape.bodyWithin.seen region) (shape.catchWithin.seen region') matched matched' shape.forks
      shape.bodyJoins shape.catchJoins ?_ ?_ ?_ (by omega) ?_
    · intro member
      rcases member with ⟨low,_⟩ | ⟨low,_⟩ <;> omega
    · intro member
      rcases member with ⟨_,below⟩ | ⟨_,below⟩ <;> omega
    · intro i here there
      obtain ⟨low,below⟩ := here
      obtain ⟨high,_⟩ := there
      omega
    · intro i member
      rcases member with rfl | rfl | ⟨low,below⟩ | ⟨low,below⟩
      · exact ⟨.inl rfl,by omega⟩
      · exact ⟨.inr (by omega),by omega⟩
      · exact ⟨.inr (by omega),by omega⟩
      · exact ⟨.inr (by omega),by omega⟩
  have entered := forked.enter inside (Nat.le_refl _) (by omega) (by omega) shape.enters
  exact entered.next third (by omega) (.inr (by omega)) shape.finallyGrown

theorem traced_through {goal source : Nat}
    (shape : ThroughGrown exit loops blocks cur span goal middle tail last source) (inside : cur < blocks.length)
    (first : Traced exit loops (enterFinally blocks cur span).length blocks.length middle tail live one placed)
    (second : Traced exit loops middle.length tail last source one.fallsThrough two placed') :
    Traced exit loops blocks.length cur last source live
      ⟨two.fallsThrough,one.jumps ++ two.jumps,one.sites ++ two.sites⟩ (placed ++ placed') := by
  have length := @enterFinally_length blocks cur span
  have longer := shape.copyGrown.longer
  have longer' := shape.restGrown.longer
  have fresh := shape.copyGrown.fresh
  have whole := first.next second (by omega) (by omega) shape.restGrown
  exact whole.enter inside (Nat.le_refl _) (by omega) (by omega) shape.enters

end traced

section outlines
variable {stack : List LoopSite} {pending : List (Cleanup LoopSite)} {live : Bool} {offset : Nat} {span : Span}
  {loopKind : LoopKind} {label : Option Text} {conditionEvents updateEvents body : List FlowEvent}

theorem flowAll_nil : flowAll stack pending live offset [] = ⟨live,[],[]⟩ := by rw [flowAll]

theorem flowEvent_loop : flowEvent stack pending live offset (.loop span loopKind label conditionEvents updateEvents body) =
    loopFlow loopKind live (fun live => flowAll stack pending live offset conditionEvents)
      (bodyFlow loopKind
        (fun live => flowAll (⟨label,pending.length,false⟩ :: stack) pending live
          (offset + leafCount conditionEvents + leafCount updateEvents) body)
        fun live => flowAll (⟨label,pending.length,false⟩ :: stack) pending live (offset + leafCount conditionEvents) updateEvents) := by
  rw [flowEvent, loopFlow, bodyFlow]
  by_cases post : loopKind = .doWhile
  · simp [post]
  · simp [post]

theorem flowEvent_loop_bare : flowEvent stack pending live offset (.loop span loopKind label conditionEvents [] body) =
    loopFlow loopKind live (fun live => flowAll stack pending live offset conditionEvents)
      fun live => flowAll (⟨label,pending.length,false⟩ :: stack) pending live (offset + leafCount conditionEvents) body := by
  rw [flowEvent_loop, loopFlow, loopFlow, bodyFlow]
  by_cases post : loopKind = .doWhile
  · simp [post,flowAll_nil,leafCount,leavesAll]
  · simp [post,flowAll_nil,leafCount,leavesAll]

theorem flowEvent_plain {event : FlowEvent} (simple : plain event = true) :
    flowEvent stack pending live offset event = ⟨live,[],[⟨offset,event,stack,live⟩]⟩ := by
  cases event with
  | call | assign | aggregateAssign | yield | await | lifecycle =>
    rw [flowEvent]
    · rfl
    all_goals
      intros
      contradiction
  | branch | loop | «return» | throw | «try» | «break» | «continue» | defer | «using» => cases simple

theorem flowPath_retained {outcome : Outcome} {depth : Nat} (retained : pending.length ≤ depth) :
    flowPath stack outcome depth live pending = ⟨live,if live then [outcome] else [],[]⟩ := by
  cases pending with
  | nil => rw [flowPath]
  | cons cleanup pending => rw [flowPath, if_pos (by rwa [List.length_cons, Nat.succ_le_iff] at retained)]

theorem terminator_transfer {event : FlowEvent} {terminator : Terminator} (abrupt : terminatorOf event = some terminator) :
    (terminator = .break ∨ terminator = .continue) ↔ leavesFunction event = false := by
  cases event with
  | «return» | throw | «break» | «continue» =>
    cases abrupt
    simp [leavesFunction]
  | call | assign | aggregateAssign | yield | await | lifecycle | branch | loop | «try» | defer | «using» => cases abrupt

end outlines

theorem Walked.traced {exit cur tail : Nat} {loops scope : List LoopTargets} {cleanups : List (Cleanup LoopTargets)} {task : Task}
    {blocks last : Blocks} {placed : List Placement}
    (walked : Walked exit loops scope cleanups task blocks cur last tail placed) :
    Ready exit loops blocks cur → task.Enters blocks → ∀ stack pending, Outlines loops scope stack →
      List.Forall₂ (CleanupOutlines loops) cleanups pending → ∀ live flow, TaskFlow exit loops stack pending live flow task →
      Traced exit loops blocks.length cur last tail live flow placed := by
  induction walked with
  | none =>
    intro ready _ stack pending _ _ live flow same
    rw [TaskFlow, flowAll_nil] at same
    exact same ▸ traced_none ready.leads
  | next first rest firstTraced restTraced =>
    intro ready _ stack pending outlines cleanups live flow same
    have grown := first.grown ready trivial
    have ready' := Ready.of grown.leads ready grown.steps
    rw [TaskFlow, flowAll] at same
    subst same
    exact (firstTraced ready trivial stack pending outlines cleanups live _ rfl).next
      (restTraced ready' trivial stack pending outlines cleanups _ _ rfl) grown.longer grown.fresh (rest.grown ready' trivial)
  | @plain loops scope cleanups offset event blocks cur simple =>
    intro ready _ stack pending outlines _ live flow same
    rw [TaskFlow, flowEvent_plain simple] at same
    subst same
    refine traced_plain outlines ?_
    rw [pushEvent_length, recordSpan_length]
    exact ready.leads.lt
  | @arrive loops scope cleanups offset event terminator blocks cur abrupt arrives =>
    intro ready _ stack pending outlines pendings live flow same
    have marked := ready.mark event terminator
    have length := @markAbrupt_length blocks cur event terminator
    rw [outlines.transfer, outlines.retained, pendings.length_eq] at arrives
    rw [TaskFlow, flowEvent_transfer abrupt] at same
    simp only [arrives, if_true] at same
    subst same
    cases stays : leavesFunction event with
    | false =>
      rw [if_pos ((terminator_transfer abrupt).mpr stays), outlines.transfer, Bool.not_false, Bool.and_true]
      have reached : Traced exit loops (markAbrupt blocks cur event terminator).length cur _ cur live _ [] :=
        traced_reached marked.leads (transferOf stack event)
      have linked := marked.leads.link (List.not_mem_nil (a := (destination exit loops (transferOf stack event)).1))
      rw [length] at reached
      have whole := traced_leave event offset outlines reached (fun falls j edge => ?_) (by simp)
      · rw [link_length, length] at whole
        exact whole
      · have enters : live = true := falls
        rw [landings_only]
        exact ⟨List.mem_singleton.mp (linked.edge_iff.mp edge),enters⟩
    | true =>
      have none : ¬(terminator = .break ∨ terminator = .continue) := by
        rw [terminator_transfer abrupt, stays]
        exact nofun
      rw [if_neg none, Bool.not_true, Bool.and_false]
      have stopped : Traced exit loops (markAbrupt blocks cur event terminator).length cur _ cur live _ [] := traced_none marked.leads
      rw [length] at stopped
      have whole := traced_leave event offset outlines stopped (fun _ j edge => ?_) (by rw [length])
      · rw [length] at whole
        exact whole
      · cases marked.leads.edge_iff.mp edge
  | @leave loops scope cleanups offset event terminator blocks cur last source placed abrupt leaves path pathTraced =>
    intro ready _ stack pending outlines pendings live flow same
    have marked := ready.mark event terminator
    have length := @markAbrupt_length blocks cur event terminator
    have entered := marked.entered.transfer event
    have grown := path.grown marked entered
    have traced := pathTraced marked entered stack pending outlines pendings live _
      ⟨transferOf stack event,outlines.transfer event,rfl⟩
    rw [TaskFlow, flowEvent_transfer abrupt] at same
    rw [outlines.transfer, outlines.retained] at traced leaves
    have left : ¬pending.length = retainedDepth stack (transferOf stack event) := by rwa [← pendings.length_eq]
    simp only [left, if_false] at same
    subst same
    rw [length] at traced
    refine traced_leave event offset outlines traced (fun falls j edge => ?_) (length ▸ grown.longer)
    have goal := List.mem_singleton.mp (grown.leads.edge_iff.mp edge)
    rw [goal, outlines.transfer]
    exact ⟨_,flowPath_arrives _ _ live pending falls,rfl⟩
  | branch first second firstTraced secondTraced =>
    intro ready _ stack pending outlines cleanups live flow same
    have shape := branchGrown ready (fun inside => first.grown inside trivial) fun inside => second.grown inside trivial
    rw [TaskFlow, flowEvent] at same
    subst same
    exact traced_branch shape ready.leads.lt
      (firstTraced shape.thenReady trivial stack pending outlines cleanups live _ rfl)
      (secondTraced shape.elseReady trivial stack pending outlines cleanups live _ rfl)
  | @loop loops scope cleanups offset span loopKind label conditionEvents body blocks cur tested conditionTail target last bodyTail
      _ _ test targetSame inner testTraced innerTraced =>
    intro ready _ stack pending outlines pendings live flow same
    subst targetSame
    have shape := loopGrown ready (loopEntered loopKind ready fun inside => test.grown inside trivial) rfl rfl
      fun inside => inner.grown inside trivial
    have nested := outlines.loop ⟨label,blocks.length + 2,blocks.length,cleanups.length⟩
    rw [TaskFlow, flowEvent_loop_bare] at same
    subst same
    have count := pendings.length_eq
    refine traced_loop shape ready.leads.lt rfl rfl
      (fun live => testTraced shape.entry.testReady trivial stack pending outlines pendings live _ rfl) fun live => ?_
    refine innerTraced shape.bodyReady trivial _ pending nested (pendings.imp fun _ _ same => same.loop _) live _ ?_
    rw [TaskFlow, count]
  | @update loops scope cleanups offset span loopKind label conditionEvents updateEvents body blocks cur tested conditionTail linked
      target middle bodyTail last updateTail _ _ _ _ test linkedSame targetSame inner update testTraced innerTraced updateTraced =>
    intro ready _ stack pending outlines pendings live flow same
    subst linkedSame targetSame
    have shape := updateGrown _ ready (loopEntered loopKind ready fun inside => test.grown inside trivial) rfl rfl
      (fun inside => inner.grown inside trivial) fun inside => update.grown inside trivial
    have nested := outlines.loop ⟨label,blocks.length + 2,if loopKind = .doWhile then blocks.length else
      (linkLoop tested cur conditionTail blocks.length loopKind).length,cleanups.length⟩
    rw [TaskFlow, flowEvent_loop] at same
    subst same
    have count := pendings.length_eq
    have around := pendings.imp fun _ _ same => same.loop ⟨label,blocks.length + 2,if loopKind = .doWhile then blocks.length else
      (linkLoop tested cur conditionTail blocks.length loopKind).length,cleanups.length⟩
    rw [List.append_assoc]
    refine traced_update shape ready.leads.lt rfl rfl (newBlock_length _ _)
      (fun live => testTraced shape.entry.testReady trivial stack pending outlines pendings live _ rfl) (fun live => ?_)
      fun live => ?_
    · exact innerTraced shape.bodyReady trivial _ pending nested around live _ (by rw [TaskFlow, count])
    · exact updateTraced shape.updateReady trivial _ pending nested around live _ (by rw [TaskFlow, count])
  | @«try» loops scope cleanups offset span body catchEvents finallyEvents catchParam catchTypes catchArms blocks cur middle bodyTail
      last final placed placed' caught first second firstTraced secondTraced =>
    intro ready _ stack pending outlines pendings live flow same
    have shape := tryGrown ready (fun inside => first.grown inside trivial) fun inside => second.grown inside trivial
    have inner := outlines.cleanup ⟨span,finallyEvents⟩ (offset + leafCount body + leafCount catchEvents)
    rw [TaskFlow, flowEvent] at same
    simp only [caught, Bool.false_eq_true, if_false, Bool.or_false, List.append_nil] at same
    subst same
    exact traced_try shape ready.leads.lt
      (firstTraced shape.bodyReady trivial stack _ outlines (.cons inner pendings) live _ rfl)
      (secondTraced shape.finallyReady trivial stack pending outlines pendings _ _ rfl)
  | @handle loops scope cleanups offset span body catchEvents finallyEvents catchParam catchTypes catchArms blocks cur middle bodyTail
      handled catchTail last final placed placed' placed'' caught first second third firstTraced secondTraced thirdTraced =>
    intro ready _ stack pending outlines pendings live flow same
    have shape := handleGrown ready (fun inside => first.grown inside trivial) (fun inside => second.grown inside trivial)
      fun inside => third.grown inside trivial
    have inner := outlines.cleanup ⟨span,finallyEvents⟩ (offset + leafCount body + leafCount catchEvents)
    rw [TaskFlow, flowEvent] at same
    simp only [caught, if_true] at same
    subst same
    exact traced_handle shape ready.leads.lt
      (firstTraced shape.bodyReady trivial stack _ outlines (.cons inner pendings) live _ rfl)
      (secondTraced shape.catchReady trivial stack _ outlines (.cons inner pendings) live _ rfl)
      (thirdTraced shape.finallyReady trivial stack pending outlines pendings _ _ rfl)
  | block either inner innerTraced =>
    intro ready _ stack pending outlines cleanups live flow same
    refine innerTraced ready trivial stack pending outlines cleanups live flow ?_
    obtain ⟨span,rfl | rfl⟩ := either
    · rwa [TaskFlow, flowEvent] at same
    · rwa [TaskFlow, flowEvent] at same
  | reached retained =>
    intro ready _ stack pending _ pendings live flow same
    obtain ⟨outcome,rfl,rfl⟩ := same
    rw [flowPath_retained (pendings.length_eq ▸ retained)]
    exact traced_reached ready.leads outcome
  | through left copy rest copyTraced restTraced =>
    intro ready entered stack pending outlines pendings live flow same
    obtain ⟨steps,opened,_⟩ := enterFinally_steps ready.leads
    have copyReady := Ready.of opened ready steps
    have grown := copy.grown copyReady trivial
    have entered' := (entered.later steps.keeps).later grown.steps.keeps
    have shape := throughGrown ready (fun _ => grown) fun inside => rest.grown inside entered'
    obtain ⟨outcome,rfl,rfl⟩ := same
    cases pendings with
    | @cons cleanup pending _ pendings first others =>
      rw [others.length_eq] at left
      rw [flowPath, if_neg (Nat.not_lt.mpr left)]
      refine traced_through shape ready.leads.lt
        (copyTraced copyReady trivial _ pendings (outlines.copy first) others live _ ?_)
        (restTraced shape.restReady entered' stack pendings outlines others _ _ ⟨outcome,rfl,rfl⟩)
      rw [TaskFlow, first.frame, first.offset]

end BonsaiNinja.Cfg
