import BonsaiNinja.Idg.FlowTracking

namespace BonsaiNinja.Idg
open LangApi (FlowEvent LoopControlTarget)
open Names (CharClass)
open Library.GenKill (run_append run_subset)

variable {table : CharClass} {facts : TransferFacts}

structure Moves (table : CharClass) (writes : List WriteOp) (site : Option Span) (ctx after : TransferCtx) : Prop where
  lastWriter : after.lastWriter = runWrites table writes ctx.lastWriter
  edges : ctx.edges ⊆ after.edges
  lowered : ∀ span ∈ after.loweredCallSites, span ∈ ctx.loweredCallSites ∨ site = some span

section
variable {writes more : List WriteOp} {site : Option Span} {ctx middle after : TransferCtx}

theorem Moves.stay : Moves table [] site ctx ctx := ⟨rfl,Finset.Subset.refl _,fun _ member => .inl member⟩

theorem Moves.trans (one : Moves table writes site ctx middle) (two : Moves table more site middle after) :
    Moves table (writes ++ more) site ctx after where
  lastWriter := by
    rw [two.lastWriter,one.lastWriter]
    exact run_append.symm
  edges := one.edges.trans two.edges
  lowered span member := (two.lowered span member).elim (one.lowered span) .inr

theorem runSource_moves (op : SourceOp) : Moves table [] site ctx (ctx.runSource table facts op) :=
  ⟨rfl,Finset.subset_union_left,fun _ member => .inl member⟩

theorem runSources_moves (ops : List SourceOp) : Moves table [] site ctx (ctx.runSources table facts ops) := by
  induction ops generalizing ctx with
  | nil => exact .stay
  | cons op ops ih => exact (runSource_moves op).trans ih

theorem runWrite_moves (op : WriteOp) : Moves table [op] site ctx (ctx.runWrite table op) :=
  ⟨rfl,Finset.Subset.refl _,fun _ member => .inl member⟩

theorem runLeaves_moves (ops : List LeafOp) : Moves table (writesIn ops) site ctx (ctx.runLeaves table facts ops) := by
  induction ops generalizing ctx with
  | nil => exact .stay
  | cons op ops ih =>
    cases op with
    | source op => exact (runSource_moves op).trans ih
    | write op => exact (runWrite_moves op).trans ih

theorem prebind_moves (target : Text) (hint : Option AssignCallSiteHint) :
    Moves table [] site ctx (prebind table facts target hint ctx) := by
  unfold prebind
  split
  · split
    · exact .stay
    · exact (runSource_moves _).trans ⟨rfl,Finset.Subset.refl _,fun _ member => .inl member⟩
  · exact .stay

theorem walkAssign_moves (event : FlowEvent) (hint : Option AssignCallSiteHint) :
    Moves table (assignWrites (facts.assign event)) site ctx (walkAssign table facts event hint ctx) := by
  cases found : (facts.assign event).outcome with
  | sourceCallback =>
    simp only [walkAssign,assignWrites,found]
    exact .stay
  | structural =>
    simp only [walkAssign,assignWrites,found,List.append_nil]
    split
    · exact .stay
    · exact runLeaves_moves _
  | literal =>
    simp only [walkAssign,assignWrites,found]
    split
    · exact .stay
    · exact (runLeaves_moves _).trans (runWrite_moves _)
  | value =>
    simp only [walkAssign,assignWrites,found]
    split
    · exact .stay
    · exact (runLeaves_moves _).trans ((runSources_moves _).trans ((prebind_moves _ _).trans ((runWrite_moves _).trans (runLeaves_moves _))))

theorem walkCall_moves (event : FlowEvent) (span : Span) (receiver : Option Text) (callKind : LangApi.CallKind) :
    Moves table (writesIn (facts.call event).arguments ++ writesIn (facts.call event).results) (some span) ctx
      (walkCall table facts event span receiver callKind ctx) := by
  unfold walkCall
  have lowers : Moves table [] (some span) ctx {ctx with loweredCallSites := insert span ctx.loweredCallSites} := by
    refine ⟨rfl,Finset.Subset.refl _,fun other member => ?_⟩
    exact (Finset.mem_insert.mp member).symm.imp_right fun same => by rw [same]
  have receives : ∀ ctx : TransferCtx, Moves table [] (some span) ctx
      (if callKind = .method then
        if span ∈ ctx.preboundReceivers then {ctx with preboundReceivers := ctx.preboundReceivers.erase span}
        else ctx.runSources table facts (receiverReads facts span receiver)
      else ctx) := by
    intro ctx
    split
    · split
      · exact ⟨rfl,Finset.Subset.refl _,fun _ member => .inl member⟩
      · exact runSources_moves _
    · exact .stay
  exact lowers.trans ((runLeaves_moves _).trans ((runSources_moves _).trans ((receives _).trans (runLeaves_moves _))))

theorem walkThrow_moves (span : Span) (valueName thrownType : Option Text) :
    Moves table [] site ctx (walkThrow table facts span valueName thrownType ctx) := runSources_moves _

theorem walkLeaf_moves (event : FlowEvent) (hint : Option AssignCallSiteHint) (ctx : TransferCtx) :
    Moves table (leafWrites facts event) (callSpan? event) ctx (walkLeaf table facts event hint ctx).2 ∧
      (walkLeaf table facts event hint ctx).1 = .only (leafDeparture facts event) (walkLeaf table facts event hint ctx).2.lastWriter := by
  cases event with
  | assign => exact ⟨walkAssign_moves _ _,rfl⟩
  | call span name receiver types kind args =>
    have moves := @walkCall_moves table facts ctx (.call span name receiver types kind args) span receiver kind
    unfold walkLeaf leafDeparture
    dsimp only
    split
    · exact ⟨(List.append_nil (leafWrites facts (.call span name receiver types kind args))) ▸ moves.trans (runSources_moves _),rfl⟩
    · exact ⟨moves,rfl⟩
  | throw => exact ⟨walkThrow_moves _ _ _,rfl⟩
  | «break» => exact ⟨.stay,rfl⟩
  | «continue» => exact ⟨.stay,rfl⟩
  | lifecycle => exact ⟨.stay,rfl⟩
  | «return» => exact ⟨runLeaves_moves _,rfl⟩
  | _ => exact ⟨runLeaves_moves _,rfl⟩

end

def Met (table : CharClass) (facts : TransferFacts) (state : WriterState) (site : Option Span) (ops : List WriteOp) (visit : Visit)
    (edges : FlowEdges) : Prop :=
  ∃ before : TransferCtx, runWrites table ops state ⊆ before.lastWriter ∧ (∀ span ∈ site, span ∉ before.loweredCallSites) ∧
    (walkLeaf table facts visit.event (siteHint facts visit.before visit.event visit.behind before) before).2.edges ⊆ edges

theorem Met.mono {small large : WriterState} {site : Option Span} {front back : List WriteOp} {visit : Visit} {edges more : FlowEdges}
    (met : Met table facts large site back visit edges) (inside : runWrites table front small ⊆ large) (grows : edges ⊆ more) :
    Met table facts small site (front ++ back) visit more := by
  obtain ⟨before,reaches,fresh,flows⟩ := met
  refine ⟨before,?_,fresh,flows.trans grows⟩
  rw [runWrites,run_append]
  exact (run_subset inside).trans reaches

theorem Met.grow {state : WriterState} {site : Option Span} {ops : List WriteOp} {visit : Visit} {edges more : FlowEdges}
    (met : Met table facts state site ops visit edges) (grows : edges ⊆ more) : Met table facts state site ops visit more := by
  obtain ⟨before,reaches,fresh,flows⟩ := met
  exact ⟨before,reaches,fresh,flows.trans grows⟩

section
variable {ε : Type}

structure Follows (table : CharClass) (facts : TransferFacts) (region : Region ε) (ctx : TransferCtx)
    (departs : ε → Option (Text × FlowNode) → Prop) (after : TransferCtx) : Prop where
  leaves : ∀ exit, Tracks table ctx.lastWriter (region.leaves · exit) (departs exit)
  edges : ctx.edges ⊆ after.edges
  lowered : ∀ span ∈ after.loweredCallSites, span ∈ ctx.loweredCallSites ∨ region.lowers span
  visited : ∀ site ops visit, (∀ span ∈ site, span ∉ ctx.loweredCallSites) → region.visits site ops visit →
    Met table facts ctx.lastWriter site ops visit after.edges

namespace Follows

variable {onward : ε} {first second : Region ε} {ctx middle after : TransferCtx} {departs later : ε → Option (Text × FlowNode) → Prop}
  {state : WriterState}

section
variable (follows : Follows table facts first ctx departs after)
include follows

theorem congr
    (same : ∀ exit definition, departs exit definition ↔ later exit definition) : Follows table facts first ctx later after :=
  ⟨fun exit => (follows.leaves exit).congr (fun _ => Iff.rfl) (same exit),follows.edges,follows.lowered,follows.visited⟩

theorem settle (state : WriterState) :
    Follows table facts first ctx departs {after with lastWriter := state} :=
  ⟨follows.leaves,follows.edges,follows.lowered,follows.visited⟩

theorem fresh_after {site : Option Span} (clean : first.clean site)
    (fresh : ∀ span ∈ site, span ∉ ctx.loweredCallSites) : ∀ span ∈ site, span ∉ after.loweredCallSites := by
  intro span member inside
  rcases follows.lowered span inside with before | here
  · exact fresh span member before
  · exact clean span member here

end

theorem both_lowered (one : Follows table facts first ctx departs middle)
    (two : Follows table facts second {middle with lastWriter := state} later after) :
    ∀ span ∈ after.loweredCallSites, span ∈ ctx.loweredCallSites ∨ first.lowers span ∨ second.lowers span := by
  intro span member
  rcases two.lowered span member with before | here
  · exact (one.lowered span before).imp_right .inl
  · exact .inr (.inr here)

theorem visited_mono (follows : Follows table facts first ctx departs middle) {site : Option Span} {ops : List WriteOp} {visit : Visit}
    (fresh : ∀ span ∈ site, span ∉ ctx.loweredCallSites) (visits : first.visits site ops visit) {edges : FlowEdges}
    (grows : middle.edges ⊆ edges) : Met table facts ctx.lastWriter site ops visit edges :=
  (follows.visited site ops visit fresh visits).grow grows

theorem followedBy_closed (one : Follows table facts first ctx departs after) (closed : ∀ definition, ¬departs onward definition) :
    Follows table facts (.followedBy onward first second) ctx (fun exit definition => departs exit definition ∧ exit ≠ onward) after where
  leaves exit := by
    have shut : ∀ ops, ¬first.leaves ops onward := fun ops leaves => closed none ((one.leaves onward).sound ops leaves none trivial)
    refine (Tracks.only fun _ => one.leaves exit).congr (fun ops => ?_) fun definition => and_comm
    refine and_comm.trans (or_iff_left ?_).symm
    rintro ⟨front,_,_,leaves,_⟩
    exact shut front leaves
  edges := one.edges
  lowered span member := (one.lowered span member).imp_right .inl
  visited site ops visit fresh visits := by
    rcases visits with here | ⟨_,front,_,_,leaves,_⟩
    · exact one.visited site ops visit fresh here
    · exact (closed none ((one.leaves onward).sound front leaves none trivial)).elim

theorem followedBy (one : Follows table facts first ctx departs middle)
    (falls : ∀ definition, departs onward definition ↔ Holds state definition)
    (two : Follows table facts second {middle with lastWriter := state} later after) :
    Follows table facts (.followedBy onward first second) ctx
      (fun exit definition => (departs exit definition ∧ exit ≠ onward) ∨ later exit definition) after where
  leaves exit := by
    have between := (one.leaves onward).congr (fun _ => Iff.rfl) falls
    refine ((Tracks.only fun _ : exit ≠ onward => one.leaves exit).or (between.follow (two.leaves exit))).congr (fun ops => ?_)
      fun definition => ?_
    · exact or_congr_left and_comm
    · exact or_congr_left and_comm
  edges := one.edges.trans two.edges
  lowered := both_lowered one two
  visited site ops visit fresh visits := by
    have between := (one.leaves onward).congr (fun _ => Iff.rfl) falls
    rcases visits with here | ⟨clean,front,back,rfl,leaves,behind⟩
    · exact one.visited_mono fresh here two.edges
    · exact (two.visited site back visit (one.fresh_after clean fresh) behind).mono (between.run_inside leaves) (Finset.Subset.refl _)

theorem either (one : Follows table facts first ctx departs middle)
    (two : Follows table facts second {middle with lastWriter := ctx.lastWriter} later after) :
    Follows table facts (first.either second) ctx (fun exit definition => departs exit definition ∨ later exit definition) after where
  leaves exit := (one.leaves exit).or (two.leaves exit)
  edges := one.edges.trans two.edges
  lowered := both_lowered one two
  visited site ops visit fresh visits := by
    rcases visits with here | ⟨clean,there⟩
    · exact one.visited_mono fresh here two.edges
    · exact two.visited site ops visit (one.fresh_after clean fresh) there

theorem through (onward : ε) (ctx : TransferCtx) :
    Follows table facts (.through (· = []) onward) ctx (fun exit definition => exit = onward ∧ Holds ctx.lastWriter definition) ctx where
  leaves exit := (Tracks.only fun _ => Tracks.start).congr (fun _ => and_comm) fun _ => Iff.rfl
  edges := Finset.Subset.refl _
  lowered _ member := .inl member
  visited _ _ _ _ absurd := absurd.elim

end Follows

end

def Simulates (table : CharClass) (facts : TransferFacts) (sites : Set ThrowSite) (walk : TransferCtx → Walked)
    (region : Region Departure) : Prop :=
  region.steady → (∀ site, region.raises site → site ∈ sites) →
    ∀ ctx, ∃ exits after, walk ctx = some (exits,after) ∧ Sited sites exits.throws ∧ Follows table facts region ctx (Departs exits) after

variable {sites : Set ThrowSite} {first second : Region Departure}

theorem leaf_known (visit : Visit) (raised : ∀ site, (leafRegion facts visit).raises site → site ∈ sites) :
    (leafDeparture facts visit.event).known sites := by
  cases departure : leafDeparture facts visit.event with
  | throws site => exact raised site departure
  | _ => trivial

theorem walkLeaf_simulates (told : sites.InjOn ThrowSite.throwNode) (visit : Visit) :
    Simulates table facts sites
      (fun ctx => some (walkLeaf table facts visit.event (siteHint facts visit.before visit.event visit.behind ctx) ctx))
      (leafRegion facts visit) := by
  intro _ raised ctx
  obtain ⟨moves,only⟩ := @walkLeaf_moves table facts visit.event (siteHint facts visit.before visit.event visit.behind ctx) ctx
  have departs := fun state => @departs_only state sites _ told (leaf_known visit raised)
  cases walked : walkLeaf table facts visit.event (siteHint facts visit.before visit.event visit.behind ctx) ctx with
  | mk exits after =>
    rw [walked] at moves only
    refine ⟨exits,after,congrArg some walked,?_,fun departure => ?_,moves.edges,moves.lowered,?_⟩
    · rw [show exits = _ from only]
      exact (departs _).1
    · rw [show exits = _ from only]
      refine (Tracks.only fun _ => Tracks.once (leafWrites facts visit.event)).congr (fun ops => and_comm) fun definition => ?_
      rw [← moves.lastWriter]
      exact ((departs _).2 departure definition).symm
    · intro site ops reached fresh visits
      obtain ⟨rfl,rfl⟩ := visits
      exact ⟨ctx,Finset.Subset.refl _,fresh,by rw [walked]⟩

theorem walkBranch_simulates (told : sites.InjOn ThrowSite.throwNode) {thenWalk elseWalk : TransferCtx → Walked}
    (one : Simulates table facts sites thenWalk first) (two : Simulates table facts sites elseWalk second) :
    Simulates table facts sites (walkBranch thenWalk elseWalk) (first.either second) := by
  intro steady raised ctx
  obtain ⟨thenExits,middle,thenWalked,thenSited,thenFollows⟩ := one steady.1 (fun site raises => raised site (.inl raises)) ctx
  obtain ⟨elseExits,after,elseWalked,elseSited,elseFollows⟩ :=
    two steady.2 (fun site raises => raised site (.inr raises)) {middle with lastWriter := ctx.lastWriter}
  obtain ⟨halfSited,half⟩ := @merge_departs _ .none thenExits told sited_nil thenSited.told
  obtain ⟨sited,departs⟩ := @merge_departs _ (FlowExits.none.merge thenExits) elseExits told halfSited elseSited.told
  refine ⟨_,_,?_,sited,
    ((thenFollows.either elseFollows).congr fun exit definition => ?_).settle
      (((FlowExits.none.merge thenExits).merge elseExits).fallthrough.getD ∅)⟩
  · simp only [walkBranch,thenWalked,elseWalked,Option.bind_eq_bind,Option.bind_some]
  · rw [departs,half,or_iff_right not_departs_none]

def SimulatesFrom (table : CharClass) (facts : TransferFacts) (sites : Set ThrowSite) (walk : FlowExits → TransferCtx → Walked)
    (region : Region Departure) : Prop :=
  region.steady → (∀ site, region.raises site → site ∈ sites) →
    ∀ escaped ctx, escaped.fallthrough = none → Sited sites escaped.throws →
      ∃ exits after departs, walk escaped ctx = some (exits,after) ∧ Sited sites exits.throws ∧
        (∀ exit definition, Departs exits exit definition ↔ Departs escaped exit definition ∨ departs exit definition) ∧
        Follows table facts region ctx departs after

theorem SimulatesFrom.whole {walk : FlowExits → TransferCtx → Walked} (simulates : SimulatesFrom table facts sites walk first) :
    Simulates table facts sites (walk .none) first := by
  intro steady raised ctx
  obtain ⟨exits,after,departs,walked,sited,members,follows⟩ := simulates steady raised .none ctx rfl sited_nil
  refine ⟨exits,after,walked,sited,follows.congr fun exit definition => ?_⟩
  rw [members,or_iff_right not_departs_none]

theorem endEvents_simulates : SimulatesFrom table facts sites endEvents (.through (· = []) Departure.falls) := by
  intro _ _ escaped ctx still sited
  refine ⟨_,ctx,_,rfl,sited,fun exit definition => ?_,Follows.through Departure.falls ctx⟩
  cases exit with
  | falls => simp [Departs,still,not_arrives_none,arrives_some]
  | _ => simp [Departs]

theorem falls_iff {exits : FlowExits} {definition : Option (Text × FlowNode)} {state : WriterState} (found : exits.fallthrough = some state) :
    Departs exits .falls definition ↔ Holds state definition := by
  rw [Departs,found]
  exact arrives_some

theorem merge_leaving_fallthrough {escaped exits : FlowExits} (still : escaped.fallthrough = none) :
    (escaped.merge exits.leaving).fallthrough = none := (merge_falls _ _ rfl).trans still

theorem continueWith_simulates (told : sites.InjOn ThrowSite.throwNode) {walk : TransferCtx → Walked}
    {rest : FlowExits → TransferCtx → Walked} (one : Simulates table facts sites walk first)
    (two : SimulatesFrom table facts sites rest second) :
    SimulatesFrom table facts sites (fun escaped ctx => (walk ctx).bind fun walked => continueWith escaped walked rest)
      (first.followedBy .falls second) := by
  intro steady raised escaped ctx still sited
  obtain ⟨exits,middle,walked,inner,follows⟩ := one steady.1 (fun site raises => raised site (.inl raises)) ctx
  obtain ⟨grown,merged⟩ := @merge_departs _ escaped exits.leaving told sited inner.told
  have quiet := @merge_leaving_fallthrough escaped exits still
  simp only [walked,Option.bind_some,continueWith]
  cases falls : exits.fallthrough with
  | none =>
    have closed : ∀ definition, ¬Departs exits .falls definition := fun definition departs => by
      rw [Departs,falls] at departs
      exact not_arrives_none departs
    refine ⟨_,_,_,rfl,grown,fun exit definition => ?_,(follows.followedBy_closed closed).settle _⟩
    rw [merged,departs_leaving,and_comm]
  | some state =>
    obtain ⟨final,after,departs,rested,outer,members,continues⟩ :=
      two steady.2 (fun site raises => raised site (.inr raises)) (escaped.merge exits.leaving) {middle with lastWriter := state} quiet grown
    refine ⟨final,after,_,rested,outer,fun exit definition => ?_,follows.followedBy (fun _ => falls_iff falls) continues⟩
    rw [members,merged,departs_leaving,or_assoc,@and_comm (exit ≠ _)]

end BonsaiNinja.Idg
