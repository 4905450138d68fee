import BonsaiNinja.Cfg.WalkShapes

namespace BonsaiNinja.Cfg
open Library LangApi
variable {exit cur conditionTail bodyTail : Nat} {loops : List LoopTargets} {blocks middle last tested : Blocks} {span : Span}

structure Ready (exit : Nat) (loops : List LoopTargets) (blocks : Blocks) (cur : Nat) : Prop where
  leads : Leads blocks cur []
  entered : Entered exit loops blocks

-- What a walk leaves behind: only its own block and new ones changed, and the block
-- it ends on leads nowhere else yet.
structure Grown (before : Blocks) (cur : Nat) (after : Blocks) (tail : Nat) (successors : List Nat) : Prop where
  steps : Steps before after (· = cur)
  fresh : tail = cur ∨ before.length ≤ tail
  leads : Leads after tail successors

structure Within (before : Blocks) (start : Nat) (after : Blocks) (tail : Nat) (final : Blocks) : Prop where
  edges : ∀ source target, Edge after source target → Edge final source target
  closed : ∀ source < after.length, source = start ∨ before.length ≤ source → source ≠ tail →
    ∀ target, Edge final source target → Edge after source target

section growth
variable {exit cur tail final other : Nat} {loops : List LoopTargets} {blocks middle after last : Blocks}
  {successors : List Nat} {touched : Nat → Prop}

theorem Ready.of (leads : Leads after other []) (ready : Ready exit loops blocks cur) (steps : Steps blocks after touched) :
    Ready exit loops after other := ⟨leads,ready.entered.later steps.keeps⟩

theorem Grown.longer (grown : Grown blocks cur after tail successors) : blocks.length ≤ after.length := grown.steps.longer

theorem Grown.trans (first : Grown blocks cur middle tail []) (next : Grown middle tail last final successors) :
    Grown blocks cur last final successors where
  steps := (first.steps.trans next.steps).mono fun i inside changed => by
    have fresh := first.fresh
    rcases changed with here | there
    · exact here
    · omega
  fresh := by
    have longer := first.longer
    have fresh := first.fresh
    rcases next.fresh with same | later
    · omega
    · exact .inr (longer.trans later)
  leads := next.leads

theorem Grown.kept (grown : Grown blocks cur after tail successors) {found : List Nat} (leads : Leads blocks other found)
    (apart : other ≠ cur) : Leads after other found := leads.kept grown.steps apart

theorem edge_iff_view {source target : Nat} :
    Edge blocks source target ↔ ∃ node, viewOf blocks source = some node ∧ target ∈ node.successors := by
  constructor
  · intro edge
    obtain ⟨block,found,member⟩ := edge
    exact ⟨nodeOf block,by rw [viewOf, found]; rfl,member⟩
  · intro found
    obtain ⟨node,found,member⟩ := found
    obtain ⟨block,present,rfl⟩ := Option.map_eq_some_iff.mp found
    exact ⟨block,present,member⟩

theorem Leads.edge_iff {source target : Nat} (leads : Leads blocks source successors) :
    Edge blocks source target ↔ target ∈ successors := by
  obtain ⟨block,found,rfl⟩ := leads.found
  constructor
  · intro edge
    obtain ⟨other,found',member⟩ := edge
    cases found.symm.trans found'
    exact member
  · exact fun member => ⟨block,found,member⟩

theorem Steps.within {start : Nat} (steps : Steps middle after touched)
    (apart : ∀ i < middle.length, i = start ∨ blocks.length ≤ i → i ≠ tail → ¬touched i) :
    Within blocks start middle tail after where
  edges := steps.edges
  closed source inside region other target edge := by
    rw [edge_iff_view] at edge ⊢
    rwa [steps.touches.kept source inside (apart source inside region other)] at edge

theorem Within.later {start : Nat} (within : Within blocks start middle tail after) (steps : Steps after last touched)
    (longer : middle.length ≤ after.length)
    (apart : ∀ i < middle.length, i = start ∨ blocks.length ≤ i → i ≠ tail → ¬touched i) :
    Within blocks start middle tail last where
  edges source target edge := steps.edges source target (within.edges source target edge)
  closed source inside region other target edge := by
    refine within.closed source inside region other target ?_
    rw [edge_iff_view] at edge ⊢
    rwa [steps.touches.kept source (inside.trans_le longer) (apart source inside region other)] at edge

end growth

structure BranchGrown (exit : Nat) (loops : List LoopTargets) (blocks : Blocks) (cur : Nat) (span : Span) (middle : Blocks)
    (thenTail : Nat) (last : Blocks) (elseTail : Nat) : Prop where
  thenReady : Ready exit loops (forkBranch blocks cur span) (blocks.length + 1)
  thenGrown : Grown (forkBranch blocks cur span) (blocks.length + 1) middle thenTail []
  elseReady : Ready exit loops middle (blocks.length + 2)
  elseGrown : Grown middle (blocks.length + 2) last elseTail []
  grown : Grown blocks cur (link (link last thenTail blocks.length) elseTail blocks.length) blocks.length []
  thenWithin : Within (forkBranch blocks cur span) (blocks.length + 1) middle thenTail
    (link (link last thenTail blocks.length) elseTail blocks.length)
  elseWithin : Within middle (blocks.length + 2) last elseTail (link (link last thenTail blocks.length) elseTail blocks.length)
  forks : Leads (link (link last thenTail blocks.length) elseTail blocks.length) cur [blocks.length + 1,blocks.length + 2]
  thenLeads : Leads (link (link last thenTail blocks.length) elseTail blocks.length) thenTail [blocks.length]
  elseLeads : Leads (link (link last thenTail blocks.length) elseTail blocks.length) elseTail [blocks.length]

theorem branchGrown {thenTail elseTail : Nat}
    (ready : Ready exit loops blocks cur)
    (first : Ready exit loops (forkBranch blocks cur span) (blocks.length + 1) →
      Grown (forkBranch blocks cur span) (blocks.length + 1) middle thenTail [])
    (second : Ready exit loops middle (blocks.length + 2) → Grown middle (blocks.length + 2) last elseTail []) :
    BranchGrown exit loops blocks cur span middle thenTail last elseTail := by
  have inside := ready.leads.lt
  obtain ⟨steps,forks,opened⟩ := @forkBranch_steps cur blocks span ready.leads
  have length := @forkBranch_length blocks cur span
  have thenReady := Ready.of (opened (blocks.length + 1) (by omega) (by omega)).1 ready steps
  have thenGrown := first thenReady
  have elseOpen := thenGrown.kept (opened (blocks.length + 2) (by omega) (by omega)).1 (by omega)
  have elseReady := Ready.of elseOpen thenReady thenGrown.steps
  have elseGrown := second elseReady
  have longer := thenGrown.longer
  have longest := elseGrown.longer
  have thenFresh := thenGrown.fresh
  have elseFresh := elseGrown.fresh
  have thenLt := thenGrown.leads.lt
  -- The join is still open, and both tails lead nowhere else.
  obtain ⟨joinOpen,joinEntered⟩ := opened blocks.length (by omega) (by omega)
  have joinOpen' := elseGrown.kept (thenGrown.kept joinOpen (by omega)) (by omega)
  have joinEntered' := (joinEntered.later thenGrown.steps.keeps).later elseGrown.steps.keeps
  have thenLeads := elseGrown.kept thenGrown.leads (by omega)
  have one := steps_link thenLeads (Nat.zero_le 1) joinEntered'
  have thenLinked := thenLeads.link (List.not_mem_nil (a := blocks.length))
  have elseLeads := elseGrown.leads.kept one (by omega)
  have two := steps_link elseLeads (Nat.zero_le 1) (joinEntered'.later one.keeps)
  have elseLinked := elseLeads.link (List.not_mem_nil (a := blocks.length))
  have joins := one.trans two
  have joined := elseGrown.steps.trans joins
  exact
    { thenReady
      thenGrown
      elseReady
      elseGrown
      grown :=
        { steps := (steps.trans (thenGrown.steps.trans joined)).mono fun i inside changed => by omega
          fresh := .inr (Nat.le_refl _)
          leads := joinOpen'.kept joins (by omega) }
      thenWithin := joined.within fun i inside region apart changed => by omega
      elseWithin := joins.within fun i inside region apart changed => by omega
      forks := (elseGrown.kept (thenGrown.kept forks (by omega)) (by omega)).kept joins (by omega)
      thenLeads := thenLinked.kept two (by omega)
      elseLeads := elseLinked }

structure LoopEntered (exit : Nat) (loops : List LoopTargets) (blocks : Blocks) (cur : Nat) (span : Span) (loopKind : LoopKind)
    (tested : Blocks) (conditionTail : Nat) (linked : Blocks) : Prop where
  testReady : Ready exit loops (enterLoop blocks cur span) blocks.length
  testGrown : Grown (enterLoop blocks cur span) blocks.length tested conditionTail []
  testWithin : Within (enterLoop blocks cur span) blocks.length tested conditionTail linked
  steps : Steps blocks linked (· = cur)
  longer : blocks.length + 3 ≤ linked.length
  same : linked.length = tested.length
  fresh : conditionTail = blocks.length ∨ blocks.length + 3 ≤ conditionTail
  inside : conditionTail < linked.length
  enters : Leads linked cur [if loopKind = .doWhile then blocks.length + 1 else blocks.length]
  tests : Leads linked conditionTail
    (if loopKind = .loop then [blocks.length + 1] else [blocks.length + 1,blocks.length + 2])
  bodyOpen : Leads linked (blocks.length + 1) []
  afterOpen : Leads linked (blocks.length + 2) []
  entered : ∀ i, blocks.length ≤ i → i < blocks.length + 3 → Enterable linked i

theorem loopEntered
    (loopKind : LoopKind) (ready : Ready exit loops blocks cur)
    (first : Ready exit loops (enterLoop blocks cur span) blocks.length →
      Grown (enterLoop blocks cur span) blocks.length tested conditionTail []) :
    LoopEntered exit loops blocks cur span loopKind tested conditionTail
      (linkLoop tested cur conditionTail blocks.length loopKind) := by
  have inside := ready.leads.lt
  have adds : Adds blocks (enterLoop blocks cur span) 3 := enterLoop_adds
  have length := adds.length
  have testReady := Ready.of (adds.opened blocks.length (by omega) (by omega)).1 ready adds.steps
  have testGrown := first testReady
  have longer := testGrown.longer
  have fresh := testGrown.fresh
  have entered : ∀ i, blocks.length ≤ i → i < blocks.length + 3 → Enterable tested i := fun i lower upper =>
    (adds.opened i lower upper).2.later testGrown.steps.keeps
  have waiting := testGrown.kept (ready.leads.kept adds.steps id) (by omega)
  obtain ⟨links,enters,tests⟩ := linkLoop_steps loopKind waiting testGrown.leads (by omega) entered
  have opened : ∀ i, blocks.length < i → i < blocks.length + 3 → Leads (linkLoop tested cur conditionTail blocks.length loopKind)
      i [] := fun i lower upper =>
    (testGrown.kept (adds.opened i (by omega) upper).1 (by omega)).kept links (by omega)
  have same := @linkLoop_length tested cur conditionTail blocks.length loopKind
  have last := testGrown.leads.lt
  exact
    { testReady
      testGrown
      testWithin := links.within fun i below region apart changed => by omega
      steps := ((adds.steps.extend testGrown.steps).trans links).mono fun i below changed => by omega
      longer := by omega
      same
      fresh := by omega
      inside := by omega
      enters
      tests
      bodyOpen := opened _ (by omega) (by omega)
      afterOpen := opened _ (by omega) (by omega)
      entered := fun i lower upper => (entered i lower upper).later links.keeps }

structure LoopGrown (exit : Nat) (loops : List LoopTargets) (blocks : Blocks) (cur : Nat) (span : Span) (loopKind : LoopKind)
    (target : LoopTargets) (tested : Blocks) (conditionTail : Nat) (linked last : Blocks) (bodyTail : Nat) : Prop where
  entry : LoopEntered exit loops blocks cur span loopKind tested conditionTail linked
  bodyReady : Ready exit (target :: loops) linked (blocks.length + 1)
  bodyGrown : Grown linked (blocks.length + 1) last bodyTail []
  grown : Grown blocks cur (link last bodyTail blocks.length) (blocks.length + 2) []
  testWithin : Within (enterLoop blocks cur span) blocks.length tested conditionTail (link last bodyTail blocks.length)
  bodyWithin : Within linked (blocks.length + 1) last bodyTail (link last bodyTail blocks.length)
  enters : Leads (link last bodyTail blocks.length) cur [if loopKind = .doWhile then blocks.length + 1 else blocks.length]
  tests : Leads (link last bodyTail blocks.length) conditionTail
    (if loopKind = .loop then [blocks.length + 1] else [blocks.length + 1,blocks.length + 2])
  backs : Leads (link last bodyTail blocks.length) bodyTail [blocks.length]

theorem loopGrown {target : LoopTargets}
    {linked : Blocks} {loopKind : LoopKind} (ready : Ready exit loops blocks cur)
    (entry : LoopEntered exit loops blocks cur span loopKind tested conditionTail linked)
    (breaks : target.breakTo = blocks.length + 2) (continues : target.continueTo = blocks.length)
    (body : Ready exit (target :: loops) linked (blocks.length + 1) → Grown linked (blocks.length + 1) last bodyTail []) :
    LoopGrown exit loops blocks cur span loopKind target tested conditionTail linked last bodyTail := by
  have inside := ready.leads.lt
  have longer := entry.longer
  have fresh := entry.fresh
  have below := entry.inside
  have same := entry.same
  have header := entry.entered blocks.length (by omega) (by omega)
  have after := entry.entered (blocks.length + 2) (by omega) (by omega)
  have bodyReady : Ready exit (target :: loops) linked (blocks.length + 1) :=
    ⟨entry.bodyOpen,(ready.entered.later entry.steps.keeps).loop (by rwa [breaks]) (by rwa [continues])⟩
  have bodyGrown := body bodyReady
  have longest := bodyGrown.longer
  have bodyFresh := bodyGrown.fresh
  have back := steps_link bodyGrown.leads (Nat.zero_le 1) (header.later bodyGrown.steps.keeps)
  have rest := bodyGrown.steps.trans back
  exact
    { entry
      bodyReady
      bodyGrown
      grown :=
        { steps := (entry.steps.trans rest).mono fun i lower changed => by omega
          fresh := .inr (by omega)
          leads := entry.afterOpen.kept rest (by omega) }
      testWithin := entry.testWithin.later rest same.ge fun i lower region apart changed => by
        have start := @enterLoop_length blocks cur span
        omega
      bodyWithin := back.within fun i lower region apart changed => apart changed
      enters := entry.enters.kept rest (by omega)
      tests := entry.tests.kept rest (by omega)
      backs := bodyGrown.leads.link List.not_mem_nil }

structure UpdateGrown (exit : Nat) (loops : List LoopTargets) (blocks : Blocks) (cur : Nat) (span : Span) (loopKind : LoopKind)
    (target : LoopTargets) (tested : Blocks) (conditionTail : Nat) (linked added middle : Blocks) (bodyTail : Nat) (last : Blocks)
    (updateTail : Nat) : Prop where
  entry : LoopEntered exit loops blocks cur span loopKind tested conditionTail linked
  bodyReady : Ready exit (target :: loops) added (blocks.length + 1)
  bodyGrown : Grown added (blocks.length + 1) middle bodyTail []
  updateReady : Ready exit (target :: loops) (link middle bodyTail linked.length) linked.length
  updateGrown : Grown (link middle bodyTail linked.length) linked.length last updateTail []
  grown : Grown blocks cur (link last updateTail blocks.length) (blocks.length + 2) []
  testWithin : Within (enterLoop blocks cur span) blocks.length tested conditionTail (link last updateTail blocks.length)
  bodyWithin : Within added (blocks.length + 1) middle bodyTail (link last updateTail blocks.length)
  updateWithin : Within (link middle bodyTail linked.length) linked.length last updateTail (link last updateTail blocks.length)
  enters : Leads (link last updateTail blocks.length) cur [if loopKind = .doWhile then blocks.length + 1 else blocks.length]
  tests : Leads (link last updateTail blocks.length) conditionTail
    (if loopKind = .loop then [blocks.length + 1] else [blocks.length + 1,blocks.length + 2])
  backs : Leads (link last updateTail blocks.length) bodyTail [linked.length]
  returns : Leads (link last updateTail blocks.length) updateTail [blocks.length]

theorem updateGrown {updateTail : Nat} {target : LoopTargets}
    {linked : Blocks} {loopKind : LoopKind} (label : String)
    (ready : Ready exit loops blocks cur)
    (entry : LoopEntered exit loops blocks cur span loopKind tested conditionTail linked)
    (breaks : target.breakTo = blocks.length + 2)
    (continues : target.continueTo = if loopKind = .doWhile then blocks.length else linked.length)
    (body : Ready exit (target :: loops) (newBlock linked label .loopUpdate) (blocks.length + 1) →
      Grown (newBlock linked label .loopUpdate) (blocks.length + 1) middle bodyTail [])
    (update : Ready exit (target :: loops) (link middle bodyTail linked.length) linked.length →
      Grown (link middle bodyTail linked.length) linked.length last updateTail []) :
    UpdateGrown exit loops blocks cur span loopKind target tested conditionTail linked (newBlock linked label .loopUpdate) middle
      bodyTail last updateTail := by
  have inside := ready.leads.lt
  have longer := entry.longer
  have fresh := entry.fresh
  have below := entry.inside
  have same := entry.same
  have length : (newBlock linked label .loopUpdate).length = linked.length + 1 := newBlock_length label .loopUpdate
  have added := @steps_newBlock linked label .loopUpdate
  have updateOpen := @leads_newBlock linked label .loopUpdate
  have updateEntered := @enterable_newBlock linked label .loopUpdate nofun
  generalize newBlock linked label .loopUpdate = extended at length added updateOpen updateEntered body ⊢
  have header := (entry.entered blocks.length (by omega) (by omega)).later added.keeps
  have after := (entry.entered (blocks.length + 2) (by omega) (by omega)).later added.keeps
  have around : Entered exit (target :: loops) extended := by
    refine ((ready.entered.later entry.steps.keeps).later added.keeps).loop (by rwa [breaks]) ?_
    rw [continues]
    split
    · exact header
    · exact updateEntered
  have bodyReady : Ready exit (target :: loops) extended (blocks.length + 1) := ⟨entry.bodyOpen.kept added id,around⟩
  have bodyGrown := body bodyReady
  have longest := bodyGrown.longer
  have bodyFresh := bodyGrown.fresh
  have bodyLt := bodyGrown.leads.lt
  have joined := steps_link bodyGrown.leads (Nat.zero_le 1) (updateEntered.later bodyGrown.steps.keeps)
  have backs := bodyGrown.leads.link (List.not_mem_nil (a := linked.length))
  have joinedLength : (link middle bodyTail linked.length).length = middle.length := link_length
  have updateOpen' := (bodyGrown.kept updateOpen (by omega)).kept joined (by omega)
  have updateReady : Ready exit (target :: loops) (link middle bodyTail linked.length) linked.length :=
    ⟨updateOpen',(around.later bodyGrown.steps.keeps).later joined.keeps⟩
  have updateGrown := update updateReady
  have most := updateGrown.longer
  have updateFresh := updateGrown.fresh
  have back := steps_link updateGrown.leads (Nat.zero_le 1)
    (((header.later bodyGrown.steps.keeps).later joined.keeps).later updateGrown.steps.keeps)
  have ends := updateGrown.steps.trans back
  have rest := ((added.extend bodyGrown.steps).trans joined).trans ends
  exact
    { entry
      bodyReady
      bodyGrown
      updateReady
      updateGrown
      grown :=
        { steps := (entry.steps.trans rest).mono fun i lower changed => by omega
          fresh := .inr (by omega)
          leads := entry.afterOpen.kept rest (by omega) }
      testWithin := entry.testWithin.later rest same.ge fun i lower region apart changed => by
        have start := @enterLoop_length blocks cur span
        omega
      bodyWithin := (joined.trans ends).within fun i lower region apart changed => by omega
      updateWithin := back.within fun i lower region apart changed => apart changed
      enters := entry.enters.kept rest (by omega)
      tests := entry.tests.kept rest (by omega)
      backs := backs.kept ends (by omega)
      returns := updateGrown.leads.link List.not_mem_nil }

structure TryGrown (exit : Nat) (loops : List LoopTargets) (blocks : Blocks) (cur : Nat) (span : Span) (middle : Blocks)
    (bodyTail : Nat) (last : Blocks) (final : Nat) : Prop where
  bodyReady : Ready exit loops (enterTry blocks cur span) (blocks.length + 1)
  bodyGrown : Grown (enterTry blocks cur span) (blocks.length + 1) middle bodyTail []
  finallyReady : Ready exit loops (joinFinally middle bodyTail span) middle.length
  finallyGrown : Grown (joinFinally middle bodyTail span) middle.length last final []
  grown : Grown blocks cur last final []
  bodyWithin : Within (enterTry blocks cur span) (blocks.length + 1) middle bodyTail (joinFinally middle bodyTail span)
  enters : Leads (joinFinally middle bodyTail span) cur [blocks.length]
  forks : Leads (joinFinally middle bodyTail span) blocks.length [blocks.length + 1]
  joins : Leads (joinFinally middle bodyTail span) bodyTail [middle.length]

section
variable (ready : Ready exit loops blocks cur)
include ready

theorem tryGrown {final : Nat}
    (body : Ready exit loops (enterTry blocks cur span) (blocks.length + 1) →
      Grown (enterTry blocks cur span) (blocks.length + 1) middle bodyTail [])
    (cleanup : Ready exit loops (joinFinally middle bodyTail span) middle.length →
      Grown (joinFinally middle bodyTail span) middle.length last final []) :
    TryGrown exit loops blocks cur span middle bodyTail last final := by
  have inside := ready.leads.lt
  obtain ⟨steps,bodyOpen,_,forks,_,enters⟩ := @enterTry_steps cur blocks span ready.leads
  have length := @enterTry_length blocks cur span
  have bodyReady := Ready.of bodyOpen ready steps
  have bodyGrown := body bodyReady
  have longer := bodyGrown.longer
  have fresh := bodyGrown.fresh
  have below := bodyGrown.leads.lt
  obtain ⟨joined,finallyOpen,_,joins⟩ := @joinFinally_steps bodyTail middle span bodyGrown.leads
  have finallyReady := Ready.of finallyOpen (Ready.of bodyGrown.leads bodyReady bodyGrown.steps) joined
  have finallyGrown := cleanup finallyReady
  have rest := joined.trans finallyGrown.steps
  have finallyFresh := finallyGrown.fresh
  have joinedLength := @joinFinally_length middle bodyTail span
  exact
    { bodyReady
      bodyGrown
      finallyReady
      finallyGrown
      grown :=
        { steps := ((steps.trans bodyGrown.steps).trans rest).mono fun i lower changed => by omega
          fresh := .inr (by omega)
          leads := finallyGrown.leads }
      bodyWithin := joined.within fun i lower region apart changed => by omega
      enters := (bodyGrown.kept enters (by omega)).kept joined (by omega)
      forks := (bodyGrown.kept forks (by omega)).kept joined (by omega)
      joins }

structure HandleGrown (exit : Nat) (loops : List LoopTargets) (blocks : Blocks) (cur : Nat) (span : Span) (middle : Blocks)
    (bodyTail : Nat) (handled : Blocks) (catchTail : Nat) (last : Blocks) (final : Nat) : Prop where
  bodyReady : Ready exit loops (enterCatch (enterTry blocks cur span) span blocks.length) (blocks.length + 1)
  bodyGrown : Grown (enterCatch (enterTry blocks cur span) span blocks.length) (blocks.length + 1) middle bodyTail []
  catchReady : Ready exit loops middle (blocks.length + 2)
  catchGrown : Grown middle (blocks.length + 2) handled catchTail []
  finallyReady : Ready exit loops (link (joinFinally handled bodyTail span) catchTail handled.length) handled.length
  finallyGrown : Grown (link (joinFinally handled bodyTail span) catchTail handled.length) handled.length last final []
  grown : Grown blocks cur last final []
  bodyWithin : Within (enterCatch (enterTry blocks cur span) span blocks.length) (blocks.length + 1) middle bodyTail
    (link (joinFinally handled bodyTail span) catchTail handled.length)
  catchWithin : Within middle (blocks.length + 2) handled catchTail
    (link (joinFinally handled bodyTail span) catchTail handled.length)
  enters : Leads (link (joinFinally handled bodyTail span) catchTail handled.length) cur [blocks.length]
  forks : Leads (link (joinFinally handled bodyTail span) catchTail handled.length) blocks.length
    [blocks.length + 1,blocks.length + 2]
  bodyJoins : Leads (link (joinFinally handled bodyTail span) catchTail handled.length) bodyTail [handled.length]
  catchJoins : Leads (link (joinFinally handled bodyTail span) catchTail handled.length) catchTail [handled.length]

theorem handleGrown {catchTail final : Nat} {handled : Blocks}
    (body : Ready exit loops (enterCatch (enterTry blocks cur span) span blocks.length) (blocks.length + 1) →
      Grown (enterCatch (enterTry blocks cur span) span blocks.length) (blocks.length + 1) middle bodyTail [])
    (handler : Ready exit loops middle (blocks.length + 2) → Grown middle (blocks.length + 2) handled catchTail [])
    (cleanup : Ready exit loops (link (joinFinally handled bodyTail span) catchTail handled.length) handled.length →
      Grown (link (joinFinally handled bodyTail span) catchTail handled.length) handled.length last final []) :
    HandleGrown exit loops blocks cur span middle bodyTail handled catchTail last final := by
  have inside := ready.leads.lt
  obtain ⟨steps,bodyOpen,_,tries,_,enters⟩ := @enterTry_steps cur blocks span ready.leads
  have length := @enterTry_length blocks cur span
  obtain ⟨catches,catchOpen,_,forks⟩ := @enterCatch_steps _ span _ _ tries (by omega)
  have longer := @enterCatch_length (enterTry blocks cur span) span blocks.length
  rw [length] at catchOpen forks longer
  have bodyReady := Ready.of (bodyOpen.kept catches (by omega)) (Ready.of bodyOpen ready steps) catches
  have bodyGrown := body bodyReady
  have bodyLonger := bodyGrown.longer
  have bodyFresh := bodyGrown.fresh
  have bodyLt := bodyGrown.leads.lt
  have catchReady := Ready.of (bodyGrown.kept catchOpen (by omega)) bodyReady bodyGrown.steps
  have catchGrown := handler catchReady
  have catchLonger := catchGrown.longer
  have catchFresh := catchGrown.fresh
  have catchLt := catchGrown.leads.lt
  have bodyTailOpen := catchGrown.kept bodyGrown.leads (by omega)
  obtain ⟨joined,finallyOpen,finallyEntered,bodyJoins⟩ := @joinFinally_steps bodyTail handled span bodyTailOpen
  have catchTailOpen := catchGrown.leads.kept joined (by omega)
  have linked := steps_link catchTailOpen (Nat.zero_le 1) finallyEntered
  have catchJoins := catchTailOpen.link (List.not_mem_nil (a := handled.length))
  have joins := joined.trans linked
  have finallyReady := Ready.of (finallyOpen.kept linked (by omega))
    (Ready.of catchGrown.leads catchReady catchGrown.steps) joins
  have finallyGrown := cleanup finallyReady
  have finallyFresh := finallyGrown.fresh
  have joinedLength : (link (joinFinally handled bodyTail span) catchTail handled.length).length = handled.length + 1 := by simp
  have rest := joins.trans finallyGrown.steps
  exact
    { bodyReady
      bodyGrown
      catchReady
      catchGrown
      finallyReady
      finallyGrown
      grown :=
        { steps := ((((steps.trans catches).trans bodyGrown.steps).trans catchGrown.steps).trans rest).mono
            fun i lower changed => by omega
          fresh := .inr (by omega)
          leads := finallyGrown.leads }
      bodyWithin := (catchGrown.steps.trans joins).within fun i lower region apart changed => by omega
      catchWithin := joins.within fun i lower region apart changed => by omega
      enters := (((enters.kept catches (by omega)).kept bodyGrown.steps (by omega)).kept catchGrown.steps (by omega)).kept joins
        (by omega)
      forks := ((bodyGrown.kept forks (by omega)).kept catchGrown.steps (by omega)).kept joins (by omega)
      bodyJoins := bodyJoins.kept linked (by omega)
      catchJoins }

structure ThroughGrown (exit : Nat) (loops : List LoopTargets) (blocks : Blocks) (cur : Nat) (span : Span) (target : Nat)
    (middle : Blocks) (tail : Nat) (last : Blocks) (source : Nat) : Prop where
  copyReady : Ready exit loops (enterFinally blocks cur span) blocks.length
  copyGrown : Grown (enterFinally blocks cur span) blocks.length middle tail []
  restReady : Ready exit loops middle tail
  restGrown : Grown middle tail last source [target]
  grown : Grown blocks cur last source [target]
  copyWithin : Within (enterFinally blocks cur span) blocks.length middle tail last
  enters : Leads last cur [blocks.length]

theorem throughGrown {target tail source : Nat}
    (copy : Ready exit loops (enterFinally blocks cur span) blocks.length →
      Grown (enterFinally blocks cur span) blocks.length middle tail [])
    (rest : Ready exit loops middle tail → Grown middle tail last source [target]) :
    ThroughGrown exit loops blocks cur span target middle tail last source := by
  have inside := ready.leads.lt
  obtain ⟨steps,opened,_,enters⟩ := @enterFinally_steps cur blocks span ready.leads
  have length := @enterFinally_length blocks cur span
  have copyReady := Ready.of opened ready steps
  have copyGrown := copy copyReady
  have longer := copyGrown.longer
  have fresh := copyGrown.fresh
  have restReady := Ready.of copyGrown.leads copyReady copyGrown.steps
  have restGrown := rest restReady
  have restFresh := restGrown.fresh
  exact
    { copyReady
      copyGrown
      restReady
      restGrown
      grown :=
        { steps := ((steps.trans copyGrown.steps).trans restGrown.steps).mono fun i lower changed => by omega
          fresh := .inr (by omega)
          leads := restGrown.leads }
      copyWithin := restGrown.steps.within fun i lower region apart changed => apart changed
      enters := restGrown.kept (copyGrown.kept enters (by omega)) (by omega) }

end

-- Where the last block of a step leads: only a transfer has arrived.
def Task.links : Task → List Nat
  | .path target => [target.1]
  | _ => []

def Task.Enters (blocks : Blocks) : Task → Prop
  | .path target => Enterable blocks target.1
  | _ => True

section walks
variable {exit cur tail source : Nat} {loops scope : List LoopTargets} {cleanups : List (Cleanup LoopTargets)} {blocks last : Blocks}
  {event : FlowEvent} {terminator : Terminator} {placed : List Placement} {task : Task}

section
variable (ready : Ready exit loops blocks cur)
include ready

theorem Ready.mark (event : FlowEvent) (terminator : Terminator) :
    Ready exit loops (markAbrupt blocks cur event terminator) cur := by
  obtain ⟨steps,opened⟩ := markAbrupt_steps event terminator ready.leads
  exact .of opened ready steps

theorem grown_dead {successors : List Nat}
    (path : Grown (markAbrupt blocks cur event terminator) cur last source successors) :
    Grown blocks cur (addDead last) last.length [] where
  steps := by
    obtain ⟨steps,_⟩ := markAbrupt_steps event terminator ready.leads
    exact ((steps.trans path.steps).mono fun _ _ changed => changed.elim id id).grow addDead_steps.1
  fresh := by
    have longer := path.longer
    rw [markAbrupt_length] at longer
    exact .inr longer
  leads := addDead_steps.2

theorem Ready.arrives (target : Nat × Nat) (entered : Enterable blocks target.1) :
    Grown blocks cur (link blocks cur target.1) cur [target.1] where
  steps := steps_link ready.leads (Nat.zero_le 1) entered
  fresh := .inl rfl
  leads := ready.leads.link List.not_mem_nil

end

theorem Walked.grown (walked : Walked exit loops scope cleanups task blocks cur last tail placed) :
    Ready exit loops blocks cur → task.Enters blocks → Grown blocks cur last tail task.links := by
  induction walked with
  | none =>
    intro ready _
    exact ⟨.refl,.inl rfl,ready.leads⟩
  | next _ _ first rest =>
    intro ready _
    have one := first ready trivial
    exact one.trans (rest (Ready.of one.leads ready one.steps) trivial)
  | @plain loops scope cleanups offset event blocks cur _ =>
    intro ready _
    have marked := @steps_recordSpan blocks cur (eventSpan event)
    exact ⟨marked.extend (steps_pushEvent cur event),.inl rfl,(ready.leads.kept marked id).pushEvent event⟩
  | @arrive loops scope cleanups offset event terminator blocks cur _ _ =>
    intro ready _
    have marked := ready.mark event terminator
    have entered := marked.entered.transfer event
    split
    · have grown := grown_dead ready (marked.arrives _ entered)
      rw [link_length, markAbrupt_length] at grown
      exact grown
    · have grown := grown_dead ready ⟨.refl,.inl rfl,marked.leads⟩
      rw [markAbrupt_length] at grown
      exact grown
  | @leave loops scope cleanups offset event terminator blocks cur last source placed _ _ _ path =>
    intro ready _
    have marked := ready.mark event terminator
    exact grown_dead ready (path marked (marked.entered.transfer event))
  | branch _ _ first second =>
    intro ready _
    exact (branchGrown ready (fun inside => first inside trivial) fun inside => second inside trivial).grown
  | @loop loops scope cleanups offset span loopKind label conditionEvents body blocks cur tested conditionTail target last bodyTail
      _ _ _ same _ first second =>
    intro ready _
    subst same
    exact (loopGrown ready (loopEntered loopKind ready fun inside => first inside trivial) rfl rfl
      fun inside => second inside trivial).grown
  | @update loops scope cleanups offset span loopKind label conditionEvents updateEvents body blocks cur tested conditionTail linked
      target middle bodyTail last updateTail _ _ _ _ _ linkedSame same _ _ first second third =>
    intro ready _
    subst linkedSame same
    exact (updateGrown _ ready (loopEntered loopKind ready fun inside => first inside trivial) rfl rfl
      (fun inside => second inside trivial) fun inside => third inside trivial).grown
  | «try» _ _ _ first second =>
    intro ready _
    exact (tryGrown ready (fun inside => first inside trivial) fun inside => second inside trivial).grown
  | handle _ _ _ _ first second third =>
    intro ready _
    exact (handleGrown ready (fun inside => first inside trivial) (fun inside => second inside trivial)
      fun inside => third inside trivial).grown
  | block _ _ inner =>
    intro ready _
    exact inner ready trivial
  | reached _ =>
    intro ready entered
    exact ready.arrives _ entered
  | through _ _ _ copy rest =>
    intro ready entered
    obtain ⟨steps,opened,_⟩ := enterFinally_steps ready.leads
    have grown := copy (.of opened ready steps) trivial
    exact (throughGrown ready (fun _ => grown) fun inside =>
      rest inside ((entered.later steps.keeps).later grown.steps.keeps)).grown

end walks

end BonsaiNinja.Cfg
