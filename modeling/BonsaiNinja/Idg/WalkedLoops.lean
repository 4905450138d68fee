import BonsaiNinja.Idg.WalkedRegions

namespace BonsaiNinja.Idg
open LangApi (FlowEvent LoopControlTarget)
open Names (CharClass)
open Library.GenKill (Repeats run_append run_subset run_nonempty mem_run)
variable {departure : Departure}
variable {loop : LoopWalks}
variable {outer : Option LoopControlTarget}

variable {table : CharClass} {facts : TransferFacts} {sites : Set ThrowSite} {order : HashOrder}

def Collected (run : LoopRun) : Passage → Option (Text × FlowNode) → Prop
  | .onward, _ => False
  | .done, definition => run.hasLoopBreak = true ∧ Holds run.loopBreaks definition
  | .escapes departure, definition => Departs run.escaped departure definition

structure Collecting (sites : Set ThrowSite) (run : LoopRun) : Prop where
  still : run.escaped.fallthrough = none
  sited : Sited sites run.escaped.throws
  unbroken : run.hasLoopBreak = false → run.loopBreaks = ∅

def PhaseDeparts (loopLabel : Option Text) (exits : FlowExits) (exit : Passage) (definition : Option (Text × FlowNode)) : Prop :=
  ∃ departure, passage loopLabel departure = exit ∧ Departs exits departure definition

theorem passage_onward {loopLabel : Option Text} : passage loopLabel departure = .onward ↔
    departure = .falls ∨ ∃ target ∈ ownTargets loopLabel, departure = .continues target := by
  cases departure with
  | continues target => cases moved : outward loopLabel target <;> simp [passage,← outward_none,moved]
  | breaks target => cases moved : outward loopLabel target <;> simp [passage,moved]
  | _ => simp [passage]

theorem passage_done {loopLabel : Option Text} : passage loopLabel departure = .done ↔
    ∃ target ∈ ownTargets loopLabel, departure = .breaks target := by
  cases departure with
  | breaks target => cases moved : outward loopLabel target <;> simp [passage,← outward_none,moved]
  | continues target => cases moved : outward loopLabel target <;> simp [passage,moved]
  | _ => simp [passage]

theorem passage_breaks {loopLabel : Option Text} :
    passage loopLabel departure = .escapes (.breaks outer) ↔
      ∃ target, outward loopLabel target = some outer ∧ departure = .breaks target := by
  cases departure with
  | breaks target | continues target => cases moved : outward loopLabel target <;> simp [passage,moved]
  | _ => simp [passage]

theorem passage_continues {loopLabel : Option Text} :
    passage loopLabel departure = .escapes (.continues outer) ↔
      ∃ target, outward loopLabel target = some outer ∧ departure = .continues target := by
  cases departure with
  | breaks target | continues target => cases moved : outward loopLabel target <;> simp [passage,moved]
  | _ => simp [passage]

theorem passage_plain {loopLabel : Option Text} {exit : Departure} (plain : exit = .returns ∨ ∃ site, exit = .throws site) :
    passage loopLabel departure = .escapes exit ↔ departure = exit := by
  rcases plain with rfl | ⟨site,rfl⟩
  · cases departure with
    | breaks target | continues target => cases moved : outward loopLabel target <;> simp [passage,moved]
    | _ => simp [passage]
  · cases departure with
    | breaks target | continues target => cases moved : outward loopLabel target <;> simp [passage,moved]
    | _ => simp [passage]

theorem passage_falls {loopLabel : Option Text} : passage loopLabel departure ≠ .escapes .falls := by
  cases departure with
  | breaks target | continues target => cases moved : outward loopLabel target <;> simp [passage,moved]
  | _ => simp [passage]

section
variable {exits escaped : FlowExits} {loopLabel : Option Text} {loopBreaks : WriterState} {hasLoopBreak : Bool}
  {definition : Option (Text × FlowNode)}

theorem route_onward (apart : LevelsApart exits.continues) :
    Arrives (routeLoopPhaseExits order.levels exits loopLabel escaped loopBreaks hasLoopBreak).next definition ↔
      PhaseDeparts loopLabel exits .onward definition := by
  have next := route_next order.levels exits loopLabel definition
  rw [(takeLoopControlExit_apart apart order.levels loopLabel).consumed,ownState_arrives] at next
  refine next.trans ?_
  simp only [PhaseDeparts,passage_onward]
  constructor
  · intro either
    rcases either with falls | ⟨target,own,live⟩
    · exact ⟨.falls,.inl rfl,falls⟩
    · exact ⟨.continues target,.inr ⟨target,own,rfl⟩,live⟩
  · intro found
    obtain ⟨departure,rfl | ⟨target,own,rfl⟩,departs⟩ := found
    · exact .inl departs
    · exact .inr ⟨target,own,departs⟩

def PhaseRoute.collected (route : PhaseRoute) (ctx : TransferCtx) : LoopRun := ⟨route.escaped,route.loopBreaks,route.hasLoopBreak,ctx⟩

theorem route_done (apart : LevelsApart exits.breaks) (unbroken : hasLoopBreak = false → loopBreaks = ∅) (ctx : TransferCtx) :
    Collected ((routeLoopPhaseExits order.levels exits loopLabel escaped loopBreaks hasLoopBreak).collected ctx) .done definition ↔
      (hasLoopBreak = true ∧ Holds loopBreaks definition) ∨ PhaseDeparts loopLabel exits .done definition := by
  have consumed := (takeLoopControlExit_apart apart order.levels loopLabel).consumed
  have own := @ownState_arrives exits.breaks loopLabel definition
  have departs : PhaseDeparts loopLabel exits .done definition ↔ Arrives (ownState exits.breaks loopLabel) definition := by
    rw [own]
    simp only [PhaseDeparts,passage_done]
    constructor
    · intro found
      obtain ⟨_,⟨target,member,rfl⟩,live⟩ := found
      exact ⟨target,member,live⟩
    · intro found
      obtain ⟨target,member,live⟩ := found
      exact ⟨_,⟨target,member,rfl⟩,live⟩
  rw [departs,← consumed]
  simp only [Collected,PhaseRoute.collected,routeLoopPhaseExits]
  cases (takeLoopControlExit order.levels exits.breaks loopLabel).1 with
  | none => simp [not_arrives_none]
  | some state =>
    cases hasLoopBreak with
    | false => simp [arrives_some,unbroken rfl]
    | true => simp [arrives_some,holds_union]

theorem route_escapes_departs (told : sites.InjOn ThrowSite.throwNode) (breaks : LevelsApart exits.breaks)
    (continues : LevelsApart exits.continues) (sited : Sited sites escaped.throws) (known : Sited sites exits.throws) :
    Sited sites (routeLoopPhaseExits order.levels exits loopLabel escaped loopBreaks hasLoopBreak).escaped.throws ∧
      ∀ departure definition,
        Departs (routeLoopPhaseExits order.levels exits loopLabel escaped loopBreaks hasLoopBreak).escaped departure definition ↔
          Departs escaped departure definition ∨ PhaseDeparts loopLabel exits (.escapes departure) definition := by
  have outer := (takeLoopControlExit_apart breaks order.levels loopLabel).escaped
  have again := (takeLoopControlExit_apart continues order.levels loopLabel).escaped
  let control : FlowExits := {escaped with
    breaks := mergeControlExits escaped.breaks (takeLoopControlExit order.levels exits.breaks loopLabel).2
    continues := mergeControlExits escaped.continues (takeLoopControlExit order.levels exits.continues loopLabel).2}
  have throws : (control.addReturning exits.returns).throws = escaped.throws := by cases exits.returns <;> rfl
  obtain ⟨still,members⟩ := @addThrows_departs sites (control.addReturning exits.returns) exits.throws told (by rwa [throws]) known.told
  refine ⟨still,fun departure definition => (members departure definition).trans ?_⟩
  cases departure with
  | falls =>
    have same : (control.addReturning exits.returns).fallthrough = escaped.fallthrough := by cases exits.returns <;> rfl
    simp [Departs,same,PhaseDeparts,passage_falls]
  | returns =>
    simp only [Departs,arrives_addReturning,PhaseDeparts,passage_plain (.inl rfl),exists_eq_left]
    simp [control]
  | throws site =>
    simp only [Departs,throws,PhaseDeparts,passage_plain (.inr ⟨site,rfl⟩),exists_eq_left,Departure.throws.injEq]
    refine or_congr_right (exists_congr fun thrown => and_congr_right fun _ => ?_)
    rw [eq_comm]
  | breaks target =>
    have same : (control.addReturning exits.returns).breaks = control.breaks := by cases exits.returns <;> rfl
    have moved : Live (takeLoopControlExit order.levels exits.breaks loopLabel).2 target definition ↔
        PhaseDeparts loopLabel exits (.escapes (.breaks target)) definition := by
      rw [Live,outer,outerState_outward]
      simp only [PhaseDeparts,passage_breaks]
      constructor
      · intro found
        obtain ⟨inner,points,live⟩ := found
        exact ⟨.breaks inner,⟨inner,points,rfl⟩,live⟩
      · intro found
        obtain ⟨_,⟨inner,points,rfl⟩,live⟩ := found
        exact ⟨inner,points,live⟩
    simp only [Departs,same,← moved]
    simp [control,live_mergeControlExits]
  | continues target =>
    have same : (control.addReturning exits.returns).continues = control.continues := by cases exits.returns <;> rfl
    have moved : Live (takeLoopControlExit order.levels exits.continues loopLabel).2 target definition ↔
        PhaseDeparts loopLabel exits (.escapes (.continues target)) definition := by
      rw [Live,again,outerState_outward]
      simp only [PhaseDeparts,passage_continues]
      constructor
      · intro found
        obtain ⟨inner,points,live⟩ := found
        exact ⟨.continues inner,⟨inner,points,rfl⟩,live⟩
      · intro found
        obtain ⟨_,⟨inner,points,rfl⟩,live⟩ := found
        exact ⟨inner,points,live⟩
    simp only [Departs,same,← moved]
    simp [control,live_mergeControlExits]

theorem route_still : (routeLoopPhaseExits order.levels exits loopLabel escaped loopBreaks hasLoopBreak).escaped.fallthrough =
    escaped.fallthrough := by
  unfold routeLoopPhaseExits
  rw [addThrows_falls]
  cases exits.returns <;> rfl

end

theorem apart_levels {exits : ControlExitStates} {live : Option LoopControlTarget → Prop} (apart : TargetsApart live)
    (present : ∀ target, Live exits target none → live target) : LevelsApart exits := by
  intro levels deep here
  refine Option.not_isSome_iff_eq_none.mp fun above => ?_
  exact apart levels deep (present _ (live_isSome.mpr here)) (present _ (live_isSome.mpr above))

def Phases (table : CharClass) (facts : TransferFacts) (sites : Set ThrowSite)
    (walk : Option WriterState → LoopRun → Option (Option WriterState × LoopRun)) (region : Region Passage) : Prop :=
  region.steady → (∀ site, region.raises site → site ∈ sites) → ∀ input run, Collecting sites run →
    ∃ output after departs, walk (some input) run = some (output,after) ∧ Collecting sites after ∧
      (∀ exit, exit ≠ .onward → ∀ definition, Collected after exit definition ↔ Collected run exit definition ∨ departs exit definition) ∧
      (∀ definition, Arrives output definition ↔ departs .onward definition) ∧
      Follows table facts region {run.ctx with lastWriter := input} departs after.ctx

theorem Follows.phase {loopLabel : Option Text} {region : Region Departure} {ctx after : TransferCtx} {exits : FlowExits}
    (follows : Follows table facts region ctx (Departs exits) after) :
    Follows table facts (region.phase loopLabel) ctx (PhaseDeparts loopLabel exits) after where
  leaves exit := by
    refine (Tracks.any fun departure => Tracks.only fun _ : passage loopLabel departure = exit => follows.leaves departure).congr
      (fun ops => ?_) fun _ => Iff.rfl
    exact exists_congr fun departure => and_comm
  edges := follows.edges
  lowered := follows.lowered
  visited := follows.visited

theorem walkLoopPhase_spec (told : sites.InjOn ThrowSite.throwNode) {loopLabel : Option Text} {walk : TransferCtx → Walked}
    {region : Region Departure} (simulates : Simulates table facts sites walk region) :
    Phases table facts sites (walkLoopPhase order loopLabel walk) (region.phase loopLabel) := by
  intro steady raised input run collecting
  obtain ⟨exits,after,walked,sited,follows⟩ := simulates steady.1 raised {run.ctx with lastWriter := input}
  have breaks : LevelsApart exits.breaks := apart_levels steady.2.1 fun target live => (follows.leaves (.breaks target)).present live
  have continues : LevelsApart exits.continues := apart_levels steady.2.2 fun target live => (follows.leaves (.continues target)).present live
  let route := routeLoopPhaseExits order.levels exits loopLabel run.escaped run.loopBreaks run.hasLoopBreak
  obtain ⟨still,escapes⟩ := @route_escapes_departs sites order exits run.escaped loopLabel run.loopBreaks run.hasLoopBreak
    told breaks continues collecting.sited sited
  have quiet : route.escaped.fallthrough = none := route_still.trans collecting.still
  have onward : ∀ definition, Arrives route.next definition ↔ PhaseDeparts loopLabel exits .onward definition :=
    fun _ => route_onward continues
  refine ⟨route.next,route.collected after,PhaseDeparts loopLabel exits,?_,⟨quiet,still,?_⟩,?_,onward,follows.phase⟩
  · simp only [walkLoopPhase,walked,Option.bind_eq_bind,Option.bind_some]
    rfl
  · simp only [PhaseRoute.collected,route,routeLoopPhaseExits]
    cases (takeLoopControlExit order.levels exits.breaks loopLabel).1 with
    | none => simpa using collecting.unbroken
    | some state => simp
  · intro exit other definition
    cases exit with
    | onward => exact absurd rfl other
    | done => exact route_done breaks collecting.unbroken after
    | escapes departure => exact escapes departure definition

def walkPhases (order : HashOrder) (loopLabel : Option Text) : List (TransferCtx → Walked) → Option WriterState → LoopRun →
    Option (Option WriterState × LoopRun)
  | [], input, run => some (input,run)
  | walk :: walks, input, run => (walkLoopPhase order loopLabel walk input run).bind fun walked =>
      walkPhases order loopLabel walks walked.1 walked.2

theorem walkPhases_none {loopLabel : Option Text} (walks : List (TransferCtx → Walked)) (run : LoopRun) :
    walkPhases order loopLabel walks none run = some (none,run) := by
  induction walks with
  | nil => rfl
  | cons walk walks ih => exact ih

theorem walkPhases_spec (told : sites.InjOn ThrowSite.throwNode) {loopLabel : Option Text} {walks : List (TransferCtx → Walked)}
    {regions : List (Region Departure)} (each : List.Forall₂ (Simulates table facts sites) walks regions) :
    Phases table facts sites (walkPhases order loopLabel walks)
      ((regions.map (Region.phase loopLabel)).foldr (Region.followedBy .onward) (.through (· = []) .onward)) := by
  induction each with
  | nil =>
    intro _ _ input run collecting
    refine ⟨some input,run,_,rfl,collecting,fun exit other definition => ?_,fun definition => ?_,
      (Follows.through Passage.onward {run.ctx with lastWriter := input}).settle run.ctx.lastWriter⟩
    · simp [other]
    · simp [arrives_some]
  | @cons walk region walks regions first rest ih =>
    intro steady raised input run collecting
    obtain ⟨output,middle,departs,walked,still,collected,onward,follows⟩ :=
      walkLoopPhase_spec told first steady.1 (fun site raises => raised site (.inl raises)) input run collecting
    cases output with
    | none =>
      have closed : ∀ definition, ¬departs .onward definition := fun definition departing =>
        not_arrives_none ((onward definition).mpr departing)
      refine ⟨none,middle,_,?_,still,fun exit other definition => ?_,fun definition => ?_,follows.followedBy_closed closed⟩
      · rw [walkPhases,walked]
        exact walkPhases_none walks middle
      · rw [collected exit other,and_iff_left other]
      · exact iff_of_false not_arrives_none fun both => both.2 rfl
    | some state =>
      obtain ⟨output,after,later,rested,settled,added,back,continues⟩ :=
        ih steady.2 (fun site raises => raised site (.inr raises)) state middle still
      refine ⟨output,after,_,?_,settled,fun exit other definition => ?_,fun definition => ?_,
        follows.followedBy (fun definition => (onward definition).symm.trans arrives_some) continues⟩
      · rw [walkPhases,walked]
        exact rested
      · rw [added exit other,collected exit other,or_assoc,and_iff_left other]
      · rw [back]
        exact (or_iff_right fun both => both.2 rfl).symm

structure LoopSimulates (table : CharClass) (facts : TransferFacts) (sites : Set ThrowSite) (loop : LoopWalks) (regions : LoopRegions) :
    Prop where
  kind : loop.kind = regions.kind
  label : loop.label = regions.label
  test : Simulates table facts sites loop.test regions.test
  body : Simulates table facts sites loop.body regions.body
  update : Simulates table facts sites loop.update regions.update

def LoopWalks.phases (loop : LoopWalks) : List (TransferCtx → Walked) :=
  match loop.kind with
  | .doWhile => [loop.body,loop.update,loop.test]
  | .loop => [loop.body,loop.update]
  | _ => [loop.test,loop.body,loop.update]

def preTested (kind : LangApi.LoopKind) : Bool := kind != .doWhile && kind != .loop

theorem walkRound_phases {state : WriterState} {run : LoopRun} {backedge : Option WriterState} {after : LoopRun}
    (walked : walkPhases order loop.label loop.phases (some state) run = some (backedge,after)) :
    ∃ normalExit, walkRound order loop state run = some ⟨normalExit,backedge,after⟩ ∧
      (loop.kind = .doWhile → normalExit = backedge) ∧ (loop.kind = .loop → normalExit = none) ∧
      (preTested loop.kind = true → ∃ middle, walkLoopPhase order loop.label loop.test (some state) run = some (normalExit,middle)) := by
  have steps : ∀ {walk : TransferCtx → Walked} {walks : List (TransferCtx → Walked)} {input : Option WriterState} {run : LoopRun},
      walkPhases order loop.label (walk :: walks) input run = some (backedge,after) → ∃ output middle,
        walkLoopPhase order loop.label walk input run = some (output,middle) ∧
          walkPhases order loop.label walks output middle = some (backedge,after) := by
    intro walk walks input run walked
    obtain ⟨⟨output,middle⟩,one,rest⟩ := Option.bind_eq_some_iff.mp walked
    exact ⟨output,middle,one,rest⟩
  cases kind : loop.kind with
  | doWhile =>
    rw [LoopWalks.phases,kind] at walked
    obtain ⟨_,_,one,walked⟩ := steps walked
    obtain ⟨_,_,two,walked⟩ := steps walked
    obtain ⟨_,_,three,walked⟩ := steps walked
    cases walked
    refine ⟨backedge,?_,fun _ => rfl,nofun,nofun⟩
    simp [walkRound,kind,one,two,three]
  | loop =>
    rw [LoopWalks.phases,kind] at walked
    obtain ⟨_,_,one,walked⟩ := steps walked
    obtain ⟨_,_,two,walked⟩ := steps walked
    cases walked
    refine ⟨none,?_,nofun,fun _ => rfl,nofun⟩
    simp [walkRound,kind,one,two]
  | _ =>
    rw [LoopWalks.phases,kind] at walked
    obtain ⟨entry,_,one,walked⟩ := steps walked
    obtain ⟨_,_,two,walked⟩ := steps walked
    obtain ⟨_,_,three,walked⟩ := steps walked
    cases walked
    refine ⟨entry,?_,nofun,nofun,fun _ => ⟨_,one⟩⟩
    simp [walkRound,kind,one,two,three]

theorem LoopSimulates.each {regions : LoopRegions} (simulates : LoopSimulates table facts sites loop regions) :
    List.Forall₂ (Simulates table facts sites) loop.phases regions.phases := by
  unfold LoopWalks.phases LoopRegions.phases
  rw [simulates.kind]
  cases regions.kind <;> simp [simulates.test,simulates.body,simulates.update]

structure Turned (table : CharClass) (facts : TransferFacts) (sites : Set ThrowSite) (regions : LoopRegions) (state : WriterState)
    (run : LoopRun) (round : LoopRound) (departs : Passage → Option (Text × FlowNode) → Prop) : Prop where
  collecting : Collecting sites round.run
  collected : ∀ exit, exit ≠ .onward → ∀ definition, Collected round.run exit definition ↔ Collected run exit definition ∨ departs exit definition
  back : ∀ definition, Arrives round.backedge definition ↔ departs .onward definition
  follows : Follows table facts regions.round {run.ctx with lastWriter := state} departs round.run.ctx
  stops : Tracks table state regions.stops (Arrives round.normalExit)

theorem walkRound_spec (told : sites.InjOn ThrowSite.throwNode) {regions : LoopRegions}
    (simulates : LoopSimulates table facts sites loop regions) (steady : regions.round.steady)
    (raised : ∀ site, regions.round.raises site → site ∈ sites) (state : WriterState) {run : LoopRun} (collecting : Collecting sites run) :
    ∃ round departs, walkRound order loop state run = some round ∧ Turned table facts sites regions state run round departs := by
  have spec := @walkPhases_spec table facts sites order told regions.label _ _ simulates.each
  obtain ⟨backedge,after,departs,walked,still,collected,back,follows⟩ := spec steady raised state run collecting
  rw [← simulates.label] at walked
  obtain ⟨normalExit,found,doWhile,endless,tested⟩ := walkRound_phases walked
  refine ⟨⟨normalExit,backedge,after⟩,departs,found,⟨still,collected,back,follows,?_⟩⟩
  rw [simulates.kind] at doWhile endless tested
  unfold LoopRegions.stops
  cases kind : regions.kind with
  | doWhile =>
    rw [doWhile kind]
    exact (follows.leaves .onward).congr (fun _ => Iff.rfl) fun definition => (back definition).symm
  | loop =>
    rw [endless kind]
    exact .never (fun _ => id) fun _ => not_arrives_none
  | _ =>
    obtain ⟨middle,first⟩ := tested (by rw [kind]; rfl)
    have test : (regions.test.phase regions.label).steady ∧ ∀ site, regions.test.raises site → site ∈ sites := by
      unfold LoopRegions.round LoopRegions.along LoopRegions.phases at steady raised
      rw [kind] at steady raised
      exact ⟨steady.1,fun site raises => raised site (.inl raises)⟩
    obtain ⟨output,other,leaving,phase,_,_,onward,inner⟩ :=
      @walkLoopPhase_spec table facts sites order told regions.label _ _ simulates.test test.1 test.2 state run collecting
    rw [← simulates.label,first] at phase
    cases phase
    exact (inner.leaves .onward).congr (fun _ => Iff.rfl) fun definition => (onward definition).symm

def LoopRound.nextEntry (entry : WriterState) (round : LoopRound) : WriterState := round.backedge.elim entry (entry ∪ ·)

theorem mem_nextEntry {entry : WriterState} {round : LoopRound} {definition : Text × FlowNode} :
    definition ∈ round.nextEntry entry ↔ definition ∈ entry ∨ Arrives round.backedge (some definition) := by
  unfold LoopRound.nextEntry
  cases round.backedge with
  | none => exact (or_iff_left not_arrives_none).symm
  | some state => exact Finset.mem_union.trans (or_congr_right (@arrives_some state (some definition)).symm)

abbrev LoopRegions.trip (regions : LoopRegions) (ops : List WriteOp) : Prop := regions.round.leaves ops .onward

structure Turning (table : CharClass) (facts : TransferFacts) (sites : Set ThrowSite) (regions : LoopRegions) (ctx : TransferCtx)
    (state : WriterState) (run : LoopRun) : Prop where
  collecting : Collecting sites run
  entered : ctx.lastWriter ⊆ state
  comes : ctx.lastWriter.Nonempty → ∀ definition ∈ state, ∃ trips, Repeats regions.trip trips ∧
    definition ∈ runWrites table trips ctx.lastWriter
  present : ∀ exit, Collected run exit none → ∃ ops, regions.round.leaves ops exit
  collected : ctx.lastWriter.Nonempty → ∀ exit definition, Collected run exit definition → ∃ trips rest, Repeats regions.trip trips ∧
    regions.round.leaves rest exit ∧ Holds (runWrites table (trips ++ rest) ctx.lastWriter) definition
  edges : ctx.edges ⊆ run.ctx.edges
  lowered : ∀ span ∈ run.ctx.loweredCallSites, span ∈ ctx.loweredCallSites ∨ regions.round.lowers span
  visited : (state = ctx.lastWriter ∧ run = .start ctx) ∨
    ∀ site ops visit, (∀ span ∈ site, span ∉ ctx.loweredCallSites) → regions.round.visits site ops visit →
      Met table facts ctx.lastWriter site ops visit run.ctx.edges

theorem Turning.start (regions : LoopRegions) (ctx : TransferCtx) : Turning table facts sites regions ctx ctx.lastWriter (.start ctx) where
  collecting := ⟨rfl,sited_nil,fun _ => rfl⟩
  entered := Finset.Subset.refl _
  comes _ definition member := ⟨[],.none,member⟩
  present exit collected := by
    cases exit with
    | onward => exact collected.elim
    | done => exact nomatch collected.1
    | escapes departure => exact (not_departs_none collected).elim
  collected _ exit definition collected := by
    cases exit with
    | onward => exact collected.elim
    | done => exact nomatch collected.1
    | escapes departure => exact (not_departs_none collected).elim
  edges := Finset.Subset.refl _
  lowered _ member := .inl member
  visited := .inl ⟨rfl,rfl⟩

section
variable {regions : LoopRegions} {ctx : TransferCtx} {state : WriterState} {run : LoopRun} {round : LoopRound}
  {departs : Passage → Option (Text × FlowNode) → Prop}

section
variable (turning : Turning table facts sites regions ctx state run)
include turning

theorem Turning.leads_on (nonempty : ctx.lastWriter.Nonempty)
    {paths : List WriteOp → Prop} {arrives : Option (Text × FlowNode) → Prop} (tracks : Tracks table state paths arrives)
    {definition : Option (Text × FlowNode)} (arrived : arrives definition) : ∃ trips rest, Repeats regions.trip trips ∧ paths rest ∧
      Holds (runWrites table (trips ++ rest) ctx.lastWriter) definition := by
  have full : state.Nonempty := nonempty.mono turning.entered
  obtain ⟨rest,path,holds⟩ := tracks.exact full definition arrived
  obtain ⟨source,member,comes⟩ := holds_from_one full holds
  obtain ⟨trips,repeats,inside⟩ := turning.comes nonempty source member
  refine ⟨trips,rest,repeats,path,?_⟩
  rw [runWrites,run_append]
  exact holds_subset (run_subset (holds_singleton inside)) comes

section
variable (turned : Turned table facts sites regions state run round departs)
include turned

theorem Turning.first_visits
    {site : Option Span} {ops : List WriteOp} {visit : Visit}
    (fresh : ∀ span ∈ site, span ∉ ctx.loweredCallSites) (visits : regions.round.visits site ops visit) :
    Met table facts ctx.lastWriter site ops visit round.run.ctx.edges := by
  rcases turning.visited with ⟨same,begun⟩ | met
  · have first := turned.follows.visited site ops visit
    rw [begun,same] at first
    exact first fresh visits
  · exact (met site ops visit fresh visits).grow turned.follows.edges

theorem Turning.turn
    :
    Turning table facts sites regions ctx (round.nextEntry ctx.lastWriter) round.run where
  collecting := turned.collecting
  entered definition member := mem_nextEntry.mpr (.inl member)
  comes nonempty definition member := by
    rcases mem_nextEntry.mp member with here | arrived
    · exact ⟨[],.none,here⟩
    · obtain ⟨trips,rest,repeats,path,holds⟩ :=
        turning.leads_on nonempty (turned.follows.leaves .onward) ((turned.back (some definition)).mp arrived)
      exact ⟨trips ++ rest,.again repeats path,holds⟩
  present exit arrived := by
    by_cases onward : exit = .onward
    · rw [onward] at arrived
      exact arrived.elim
    · rcases (turned.collected exit onward none).mp arrived with before | here
      · exact turning.present exit before
      · exact (turned.follows.leaves exit).present here
  collected nonempty exit definition arrived := by
    by_cases onward : exit = .onward
    · rw [onward] at arrived
      exact arrived.elim
    · rcases (turned.collected exit onward definition).mp arrived with before | here
      · exact turning.collected nonempty exit definition before
      · exact turning.leads_on nonempty (turned.follows.leaves exit) here
  edges := turning.edges.trans turned.follows.edges
  lowered span member := (turned.follows.lowered span member).elim (turning.lowered span) .inr
  visited := .inr fun site ops visit fresh visits => turning.first_visits turned fresh visits

-- The header covers every trip once a trip changes it no more.
theorem Turning.covers
    (settled : round.nextEntry ctx.lastWriter = state)
    {trips : List WriteOp} (repeats : Repeats regions.trip trips) : runWrites table trips ctx.lastWriter ⊆ state := by
  induction repeats with
  | none => exact turning.entered
  | @again front back _ path ih =>
    intro definition member
    rw [runWrites,run_append] at member
    have inside := run_subset ih member
    rw [← settled]
    exact mem_nextEntry.mpr (.inr ((turned.back _).mpr ((turned.follows.leaves .onward).sound back path (some definition) inside)))

end

end

end

abbrev Trips (table : CharClass) (facts : TransferFacts) (sites : Set ThrowSite) (order : HashOrder) (loop : LoopWalks)
    (regions : LoopRegions) : Prop :=
  ∀ state run, Collecting sites run →
    ∃ round departs, walkRound order loop state run = some round ∧ Turned table facts sites regions state run round departs

section
variable {loop : LoopWalks} {regions : LoopRegions} {ctx : TransferCtx} {state : WriterState} {run : LoopRun} {last : LoopRound}
variable {entry : WriterState}
variable {rounds : Nat}

theorem iterateLoop_succ {round : LoopRound} (walked : walkRound order loop state run = some round) :
    iterateLoop order loop entry (rounds + 1) state run =
      if round.nextEntry entry = state then some round
      else iterateLoop order loop entry rounds (round.nextEntry entry) round.run := by
  rw [iterateLoop,walked]
  rfl

theorem iterateLoop_ends (trips : Trips table facts sites order loop regions)
    (turning : Turning table facts sites regions ctx state run) (ends : iterateLoop order loop ctx.lastWriter rounds state run = some last) :
    ∃ state run departs, Turning table facts sites regions ctx state run ∧ Turned table facts sites regions state run last departs ∧
      last.nextEntry ctx.lastWriter = state := by
  induction rounds generalizing state run with
  | zero => exact nomatch ends
  | succ rounds ih =>
    obtain ⟨round,departs,walked,turned⟩ := trips state run turning.collecting
    rw [iterateLoop_succ walked] at ends
    split at ends
    · next settled =>
      cases ends
      exact ⟨state,run,departs,turning,turned,settled⟩
    · exact ih (turning.turn turned) ends

def Settles (order : HashOrder) (loop : LoopWalks) (sites : Set ThrowSite) (entry : WriterState) (rounds : Nat) (state : WriterState) : Prop :=
  ∀ run, Collecting sites run → ∀ more, rounds ≤ more → ∃ last, iterateLoop order loop entry more state run = some last

theorem settles_next (trips : Trips table facts sites order loop regions)
    (each : ∀ run round departs, Turned table facts sites regions state run round departs →
      round.nextEntry entry = state ∨ Settles order loop sites entry rounds (round.nextEntry entry)) :
    Settles order loop sites entry (rounds + 1) state := by
  intro run collecting more enough
  obtain ⟨more,rfl⟩ := Nat.exists_eq_add_of_le' (Nat.le_trans (Nat.le_add_left 1 rounds) enough)
  obtain ⟨round,departs,walked,turned⟩ := trips state run collecting
  rw [iterateLoop_succ walked]
  split
  · exact ⟨round,rfl⟩
  · next moved =>
    rcases each run round departs turned with settled | settles
    · exact (moved settled).elim
    · exact settles round.run turned.collecting more (Nat.le_of_succ_le_succ enough)

theorem nextEntry_reached {round : LoopRound} {departs : Passage → Option (Text × FlowNode) → Prop}
    (turned : Turned table facts sites regions state run round departs) (nonempty : state.Nonempty) (definition : Text × FlowNode) :
    definition ∈ round.nextEntry entry ↔ definition ∈ entry ∨ (writeEffects table).Reached regions.trip state definition := by
  rw [mem_nextEntry,turned.back]
  refine or_congr_right ⟨(turned.follows.leaves .onward).exact nonempty (some definition),fun reached => ?_⟩
  obtain ⟨ops,path,member⟩ := reached
  exact (turned.follows.leaves .onward).sound ops path (some definition) member

-- Behind one trip from some definitions, the header does not change any more.
theorem nextEntry_settled {first second : LoopRound} {before after : Passage → Option (Text × FlowNode) → Prop}
    {again : LoopRun} (one : Turned table facts sites regions state run first before) (nonempty : state.Nonempty)
    (two : Turned table facts sites regions (first.nextEntry entry) again second after) :
    second.nextEntry entry = first.nextEntry entry := by
  have exact : ∀ definition, definition ∈ first.nextEntry entry ↔ _ := nextEntry_reached one nonempty
  rcases Finset.eq_empty_or_nonempty (first.nextEntry entry) with empty | full
  · have noTrip : ∀ ops, ¬regions.trip ops := by
      intro ops trip
      obtain ⟨definition,member⟩ := @run_nonempty _ _ (writeEffects table) ops _ nonempty
      have inside := (exact definition).mpr (.inr ⟨ops,trip,member⟩)
      rw [empty] at inside
      exact Finset.notMem_empty _ inside
    ext definition
    rw [mem_nextEntry,two.back,mem_nextEntry,one.back]
    refine or_congr_right (iff_of_false (fun back => ?_) fun back => ?_)
    · obtain ⟨found,same,_⟩ := (two.back (some definition)).mpr back
      obtain ⟨ops,trip⟩ := (two.follows.leaves .onward).present ((two.back none).mp ⟨found,same,trivial⟩)
      exact noTrip ops trip
    · obtain ⟨ops,trip,_⟩ := (one.follows.leaves .onward).exact nonempty (some definition) back
      exact noTrip ops trip
  · ext definition
    rw [nextEntry_reached two full]
    exact Library.GenKill.reached_closed exact

theorem settles_three (trips : Trips table facts sites order loop regions) (entry : WriterState) :
    Settles order loop sites entry 3 entry := by
  have two : ∀ state : WriterState, state.Nonempty → Settles order loop sites entry 2 state := by
    intro state nonempty
    refine settles_next trips fun run round departs turned => .inr ?_
    exact settles_next trips fun again second later next => .inl (nextEntry_settled turned nonempty next)
  refine settles_next trips fun run round departs turned => ?_
  rcases Finset.eq_empty_or_nonempty (round.nextEntry entry) with empty | full
  · refine .inl ?_
    have bare : entry = ∅ := Finset.subset_empty.mp fun definition member => by
      rw [← empty]
      exact mem_nextEntry.mpr (.inl member)
    rw [empty,bare]
  · exact .inr (two _ full)

section
variable {departs : Passage → Option (Text × FlowNode) → Prop} (turning : Turning table facts sites regions ctx state run)
    (turned : Turned table facts sites regions state run last departs) (settled : last.nextEntry ctx.lastWriter = state)
include turning turned settled

theorem Turning.behind_trips {paths : List WriteOp → Prop} {arrives : Option (Text × FlowNode) → Prop} (tracks : Tracks table state paths arrives) :
    Tracks table ctx.lastWriter (fun ops => ∃ trips rest, ops = trips ++ rest ∧ Repeats regions.trip trips ∧ paths rest) arrives where
  sound ops path definition holds := by
    obtain ⟨trips,rest,rfl,repeats,leads⟩ := path
    rw [runWrites,run_append] at holds
    exact tracks.sound rest leads definition (holds_subset (run_subset (turning.covers turned settled repeats)) holds)
  present arrived := by
    obtain ⟨rest,leads⟩ := tracks.present arrived
    exact ⟨rest,[],rest,rfl,.none,leads⟩
  exact nonempty definition arrived := by
    obtain ⟨trips,rest,repeats,leads,holds⟩ := turning.leads_on nonempty tracks arrived
    exact ⟨trips ++ rest,⟨trips,rest,rfl,repeats,leads⟩,holds⟩

theorem Turning.tracks_exit {exit : Passage} (other : exit ≠ .onward) :
    Tracks table ctx.lastWriter (fun ops => ∃ trips rest, ops = trips ++ rest ∧ Repeats regions.trip trips ∧ regions.round.leaves rest exit)
      (Collected last.run exit) where
  sound ops path definition holds :=
    (turned.collected exit other definition).mpr
      (.inr ((turning.behind_trips turned settled (turned.follows.leaves exit)).sound ops path definition holds))
  present arrived := by
    obtain ⟨rest,leads⟩ := (turning.turn turned).present exit arrived
    exact ⟨rest,[],rest,rfl,.none,leads⟩
  exact nonempty definition arrived := by
    obtain ⟨trips,rest,repeats,leads,holds⟩ := (turning.turn turned).collected nonempty exit definition arrived
    exact ⟨trips ++ rest,⟨trips,rest,rfl,repeats,leads⟩,holds⟩

end

theorem afterLoop_arrives {definition : Option (Text × FlowNode)} :
    Arrives (afterLoop last) definition ↔ Collected last.run .done definition ∨ Arrives last.normalExit definition := by
  unfold afterLoop
  split
  · next broken => simp [arrives_merged,Collected,broken,or_comm]
  · next unbroken => simp [Collected,unbroken]

theorem walkLoop_simulates (told : sites.InjOn ThrowSite.throwNode) (simulates : LoopSimulates table facts sites loop regions)
    (enough : 3 ≤ rounds) : Simulates table facts sites (walkLoop order rounds loop) regions.region := by
  intro steady raised ctx
  have trips : Trips table facts sites order loop regions := fun state run collecting =>
    walkRound_spec told simulates steady raised state collecting
  have begun : Turning table facts sites regions ctx ctx.lastWriter (.start ctx) := .start regions ctx
  obtain ⟨last,ends⟩ := settles_three trips ctx.lastWriter (.start ctx) begun.collecting rounds enough
  obtain ⟨state,run,departs,turning,turned,settled⟩ := iterateLoop_ends trips begun ends
  have final := turning.turn turned
  refine ⟨{last.run.escaped with fallthrough := afterLoop last},{last.run.ctx with lastWriter := (afterLoop last).getD ∅},?_,
    final.collecting.sited,fun departure => ?_,final.edges,final.lowered,fun site ops visit fresh visits => ?_⟩
  · rw [walkLoop,ends]
    rfl
  · have escapes := turning.tracks_exit turned settled (show Passage.escapes departure ≠ .onward from nofun)
    cases departure with
    | falls =>
      have broken := turning.tracks_exit turned settled (show Passage.done ≠ .onward from nofun)
      have shut : ∀ definition, ¬Collected last.run (.escapes .falls) definition := by
        intro definition collected
        rw [Collected,Departs,turned.collecting.still] at collected
        exact not_arrives_none collected
      refine (escapes.or (broken.or (turning.behind_trips turned settled turned.stops))).congr (fun ops => ?_) fun definition => ?_
      · simp only [LoopRegions.region,true_and,and_or_left,exists_or]
      · rw [or_iff_right (shut definition)]
        exact afterLoop_arrives.symm
    | _ =>
      refine escapes.congr (fun ops => ?_) fun definition => Iff.rfl
      simp [LoopRegions.region]
  · obtain ⟨trips,rest,rfl,repeats,rfl | clean,inside⟩ := visits
    · exact turning.first_visits turned fresh inside
    · have still : ∀ span ∈ site, span ∉ run.ctx.loweredCallSites := fun span member lowered =>
        (turning.lowered span lowered).elim (fresh span member) (clean span member)
      exact (turned.follows.visited site rest visit still inside).mono (turning.covers turned settled repeats) (Finset.Subset.refl _)

end

end BonsaiNinja.Idg
