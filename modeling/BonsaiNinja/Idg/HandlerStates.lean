import BonsaiNinja.Idg.ReceiverReads

namespace BonsaiNinja.Idg
open LangApi (FlowEvent CatchArmFact)
open Names (CharClass)
open Library.GenKill (run_append mem_run)
variable {handler : HandlerRegion} {site : ThrowSite} {ops : List WriteOp} {visit : Visit} {regions : TryRegions}

variable {table : CharClass} {facts : TransferFacts}

def ReadsFirst (table : CharClass) (facts : TransferFacts) (visit : Visit) (name : Text) (consumer : FlowNode) : Prop :=
  ∀ before node, (name,node) ∈ before.lastWriter →
    (node,consumer) ∈ (walkLeaf table facts visit.event (siteHint facts visit.before visit.event visit.behind before) before).2.edges

section
variable {name : Text} {consumer : FlowNode}

theorem runLeaves_reads {ops : List LeafOp} (member : .source (.read name consumer) ∈ ops)
    (kept : ∀ op ∈ writesIn ops, ∀ node, op.keeps table (name,node) = true) {ctx : TransferCtx} {node : FlowNode}
    (live : (name,node) ∈ ctx.lastWriter) : (node,consumer) ∈ (ctx.runLeaves table facts ops).edges := by
  induction ops generalizing ctx with
  | nil => exact nomatch member
  | cons op ops ih =>
    rcases List.mem_cons.mp member with rfl | later
    · exact (@runLeaves_moves table facts none _ ops).edges (Finset.mem_union_right _ (bridgeRead_writers live))
    · cases op with
      | source op => exact ih later kept live
      | write op =>
        have first := kept op (List.mem_cons_self ..) node
        exact ih later (fun other inside => kept other (List.mem_cons_of_mem _ inside)) (mem_apply.mpr (.inr ⟨live,first⟩))

theorem argument_reads {visit : Visit} {span : Span} {callee : Text} {receiver : Option Text} {types : List Text} {kind : LangApi.CallKind}
    {args : List LangApi.CallArg} (event : visit.event = .call span callee receiver types kind args)
    (member : .source (.read name consumer) ∈ (facts.call visit.event).arguments)
    (kept : ∀ op ∈ writesIn (facts.call visit.event).arguments, ∀ node, op.keeps table (name,node) = true) :
    ReadsFirst table facts visit name consumer := by
  intro before node live
  rw [event] at member kept ⊢
  have read := @runLeaves_reads table facts name consumer _ member kept
    {before with loweredCallSites := insert span before.loweredCallSites} node live
  have call : (node,consumer) ∈ (walkCall table facts (.call span callee receiver types kind args) span receiver kind before).edges := by
    unfold walkCall
    refine (@runLeaves_moves table facts none _ _).edges ?_
    have sources := (@runSources_moves table facts none _ ((facts.call (.call span callee receiver types kind args)).projections
      (TransferCtx.runLeaves table facts {before with loweredCallSites := insert span before.loweredCallSites}
        (facts.call (.call span callee receiver types kind args)).arguments).catchReceivers)).edges read
    split
    · split
      · exact sources
      · exact (@runSources_moves table facts none _ _).edges sources
    · exact sources
  unfold walkLeaf
  dsimp only
  split
  · exact (@runSources_moves table facts none _ _).edges call
  · exact call

end

def CatchesExactly (handler : HandlerRegion) (site : ThrowSite) : Prop :=
  handler.types = [] ∨ ∃ type ∈ handler.types, type ≠ [] ∧ site.thrownType = some type

theorem definitelyCaught_iff :
    definitelyCaught handler.types site = true ↔ CatchesExactly handler site := by
  unfold definitelyCaught CatchesExactly
  rw [Bool.or_eq_true,List.isEmpty_iff]
  refine or_congr_right ?_
  cases site.thrownType with
  | none => simp
  | some thrown => simp [catchTypeIds,and_comm]

theorem mayCatch_of (enters : CatchesExactly handler site ∨ site.thrownType = none) :
    mayCatch handler.types site = true := by
  unfold mayCatch
  rcases enters with (all | ⟨type,member,named,typed⟩) | untyped
  · simp [all,catchTypeIds]
  · have listed : type ∈ catchTypeIds handler.types := List.mem_filter.mpr ⟨member,by simpa using named⟩
    simp [typed,listed]
  · simp [untyped]

def Departure.resuming (exit incoming : Departure) : Departure :=
  match exit with
  | .falls => incoming
  | exit => exit

def LeavesTry (regions : TryRegions) (ops : List WriteOp) (departure : Departure) : Prop :=
  ∃ front incoming, regions.combined.leaves front incoming ∧
    match regions.cleanup with
    | none => ops = front ∧ departure = incoming
    | some cleanup => ∃ back exit, cleanup.leaves back exit ∧ ops = front ++ back ∧ departure = exit.resuming incoming

theorem leavesTry_iff (regions : TryRegions) (ops : List WriteOp) (departure : Departure) :
    regions.region.leaves ops departure ↔ LeavesTry regions ops departure := by
  unfold TryRegions.region LeavesTry
  cases regions.cleanup with
  | none =>
    constructor
    · exact fun leaves => ⟨ops,departure,leaves,rfl,rfl⟩
    · intro found
      obtain ⟨front,incoming,leaves,rfl,rfl⟩ := found
      exact leaves
  | some cleanup =>
    constructor
    · intro found
      obtain ⟨front,back,incoming,rfl,leaves,⟨falls,rfl⟩ | ⟨exits,abrupt⟩⟩ := found
      · exact ⟨front,_,leaves,back,.falls,falls,rfl,rfl⟩
      · refine ⟨front,incoming,leaves,back,departure,exits,rfl,?_⟩
        cases departure with
        | falls => exact (abrupt rfl).elim
        | _ => rfl
    · intro found
      obtain ⟨front,incoming,leaves,back,exit,exits,rfl,rfl⟩ := found
      cases exit with
      | falls => exact ⟨front,back,incoming,rfl,leaves,.inl ⟨exits,rfl⟩⟩
      | _ => exact ⟨front,back,incoming,rfl,leaves,.inr ⟨exits,nofun⟩⟩

theorem among_visits {ε : Type} {regions : List (Region ε)} {region : Region ε} (member : region ∈ regions)
    (visits : region.visits none ops visit) : (Region.among regions).visits none ops visit := by
  induction regions with
  | nil => exact nomatch member
  | cons first rest ih =>
    rcases List.mem_cons.mp member with rfl | later
    · exact .inl visits
    · exact .inr ⟨by simp [Region.clean],ih later⟩

theorem handler_visits (member : handler ∈ regions.handlers) {thrown bound inner : List WriteOp}
    (enters : entersHandler regions.body handler.types thrown) (binds : handler.bound regions.body bound)
    (visits : handler.region.visits none inner visit) : regions.region.visits none (thrown ++ bound ++ inner) visit := by
  have arm : (handler.arm regions.body).visits none (thrown ++ bound ++ inner) visit :=
    .inr ⟨by simp [Region.clean],thrown ++ bound,inner,rfl,⟨⟨thrown,bound,rfl,enters,binds⟩,rfl⟩,visits⟩
  have combined : regions.combined.visits none (thrown ++ bound ++ inner) visit :=
    .inr ⟨by simp [Region.clean],among_visits (List.mem_map_of_mem member) arm⟩
  unfold TryRegions.region
  cases regions.cleanup with
  | none => exact combined
  | some cleanup => exact .inl combined

theorem body_inside (regions : TryRegions) : (regions.region.steady → regions.body.steady) ∧
    ∀ site, regions.body.raises site → regions.region.raises site := by
  unfold TryRegions.region
  cases regions.cleanup with
  | none => exact ⟨And.left,fun _ => .inl⟩
  | some cleanup => exact ⟨fun steady => steady.1.1,fun _ raises => .inl (.inl raises)⟩

theorem try_walked (table : CharClass) (facts : TransferFacts) (order : HashOrder) {rounds : Nat} (enough : 3 ≤ rounds) (span : Span)
    (body catchEvents finallyEvents : List FlowEvent) (catchParam : Option Text) (catchTypes : List Text) (catchArms : List CatchArmFact)
    (same : tryRegions facts span body catchEvents finallyEvents catchParam catchTypes catchArms = regions)
    (steady : regions.region.steady) (told : Set.InjOn ThrowSite.throwNode {site | regions.region.raises site})
    (hint : Option AssignCallSiteHint) (ctx : TransferCtx) :
    ∃ exits after, walkEvent order table facts rounds (.try span body catchEvents finallyEvents catchParam catchTypes catchArms) hint ctx =
        some (exits,after) ∧
      (∀ handler ∈ regions.handlers, ∀ site, regions.body.leads (.throws site) → Connects handler span site after.edges) ∧
      Follows table facts regions.region ctx (Departs exits) after := by
  have simulates := @tryWalks_simulate table facts _ order rounds span body catchEvents finallyEvents catchParam catchTypes catchArms
    (walkFrom_simulates told enough [] body).whole (walkFrom_simulates told enough [] catchEvents).whole
    (walkFrom_simulates told enough [] finallyEvents).whole (catchArms_simulate told enough catchArms catchEvents)
  rw [same] at simulates
  obtain ⟨exits,after,walked,_,linked,follows⟩ := walkTry_spec told simulates steady (fun _ raises => raises) ctx
  exact ⟨exits,after,walked,linked,follows⟩

-- What a body throws is linked to each handler that may catch it, its definitions reach the reads
-- there, and it leaves unless a handler is sure to catch it; every way out runs the cleanup once.
theorem throws_between_regions (table : CharClass) (facts : TransferFacts) (order : HashOrder) {rounds : Nat} (enough : 3 ≤ rounds) (span : Span)
    (body catchEvents finallyEvents : List FlowEvent) (catchParam : Option Text) (catchTypes : List Text) (catchArms : List CatchArmFact)
    {regions : TryRegions} (same : tryRegions facts span body catchEvents finallyEvents catchParam catchTypes catchArms = regions)
    (steady : regions.region.steady) (told : Set.InjOn ThrowSite.throwNode {site | regions.region.raises site})
    (hint : Option AssignCallSiteHint) (ctx : TransferCtx) :
    ∃ exits after, walkEvent order table facts rounds (.try span body catchEvents finallyEvents catchParam catchTypes catchArms) hint ctx =
        some (exits,after) ∧
      (∀ thrown site, regions.body.leaves thrown (.throws site) →
        (∀ handler ∈ regions.handlers, Connects handler span site after.edges ∧
          (CatchesExactly handler site ∨ site.thrownType = none → ∀ bound inner visit name node consumer, handler.bound regions.body bound →
            handler.region.visits none inner visit → ReadsFirst table facts visit name consumer →
            (name,node) ∈ runWrites table (thrown ++ bound ++ inner) ctx.lastWriter → (node,consumer) ∈ after.edges)) ∧
        ((∀ handler ∈ regions.handlers, ¬CatchesExactly handler site) → regions.combined.leaves thrown (.throws site))) ∧
      ∀ departure,
        (∀ ops, LeavesTry regions ops departure → ∀ definition, Holds (runWrites table ops ctx.lastWriter) definition →
          Departs exits departure definition) ∧
        (Departs exits departure none → ∃ ops, LeavesTry regions ops departure) ∧
        (ctx.lastWriter.Nonempty → ∀ definition, Departs exits departure definition →
          ∃ ops, LeavesTry regions ops departure ∧ Holds (runWrites table ops ctx.lastWriter) definition) := by
  obtain ⟨exits,after,walked,linked,follows⟩ := try_walked table facts order enough span body catchEvents finallyEvents catchParam catchTypes
    catchArms same steady told hint ctx
  refine ⟨exits,after,walked,fun thrown site leaves => ⟨fun handler member => ⟨linked handler member site ⟨thrown,leaves⟩,?_⟩,?_⟩,?_⟩
  · intro enters bound inner visit name node consumer binds visits reads live
    have enter : entersHandler regions.body handler.types thrown := .inl ⟨site,mayCatch_of enters,leaves⟩
    obtain ⟨before,inside,_,flows⟩ := follows.visited none _ visit (by simp) (handler_visits member enter binds visits)
    exact flows (reads before node (inside live))
  · intro uncaught
    refine .inl ⟨leaves,fun other equal handler member => ?_⟩
    cases equal
    exact Bool.eq_false_iff.mpr fun caught => uncaught handler member (definitelyCaught_iff.mp caught)
  · intro departure
    have tracks := (follows.leaves departure).congr (fun ops => leavesTry_iff regions ops departure) fun _ => Iff.rfl
    exact ⟨tracks.sound,tracks.present,tracks.exact⟩

-- An untyped throw, a handler whose only type name is empty, and a handler of all types.
def blankArms : List CatchArmFact := [⟨⟨0,10,19⟩,none,[[]]⟩,⟨⟨0,20,29⟩,none,[]⟩]

def blankHandlers : List FlowEvent := [.branch ⟨0,10,19⟩ none [] []]

def blankBody : List FlowEvent := [.throw ⟨0,2,6⟩ none none]

def blankTry : TryRegions := tryRegions (plainFacts []) ⟨0,0,30⟩ blankBody blankHandlers [] none [] blankArms

theorem blank_leaves {departure : Departure} :
    (regionFrom (plainFacts []) [] blankBody).leaves ops departure ↔ ops = [] ∧ departure = .throws (throwSite ⟨0,2,6⟩ none) := by
  simp [blankBody,regionFrom,eventRegion,Region.followedBy,leafRegion,leafDeparture,leafWrites]
  rintro rfl rfl
  simp

theorem blank_routed : ∃ exits after,
    walkEvent .given Names.asciiClass (plainFacts []) 3 (.try ⟨0,0,30⟩ blankBody blankHandlers [] none [] blankArms) none .start =
        some (exits,after) ∧
      (∀ thrown site, blankTry.body.leaves thrown (.throws site) →
        (∀ handler ∈ blankTry.handlers, Connects handler ⟨0,0,30⟩ site after.edges ∧
          (CatchesExactly handler site ∨ site.thrownType = none → ∀ bound inner visit name node consumer, handler.bound blankTry.body bound →
            handler.region.visits none inner visit → ReadsFirst Names.asciiClass (plainFacts []) visit name consumer →
            (name,node) ∈ runWrites Names.asciiClass (thrown ++ bound ++ inner) ∅ → (node,consumer) ∈ after.edges)) ∧
        ((∀ handler ∈ blankTry.handlers, ¬CatchesExactly handler site) → blankTry.combined.leaves thrown (.throws site))) ∧
      ∀ departure,
        (∀ ops, LeavesTry blankTry ops departure → ∀ definition, Holds (runWrites Names.asciiClass ops ∅) definition →
          Departs exits departure definition) ∧
        (Departs exits departure none → ∃ ops, LeavesTry blankTry ops departure) ∧
        ((∅ : WriterState).Nonempty → ∀ definition, Departs exits departure definition →
          ∃ ops, LeavesTry blankTry ops departure ∧ Holds (runWrites Names.asciiClass ops ∅) definition) := by
  refine throws_between_regions Names.asciiClass (plainFacts []) .given (Nat.le_refl 3) ⟨0,0,30⟩ blankBody blankHandlers [] none [] blankArms
    rfl ?_ ?_ none .start
  · simp [tryRegions,handlerRegionsOf,catchArmRegions,blankArms,blankHandlers,blankBody,armRegion,regionFrom,eventRegion,TryRegions.region,
      TryRegions.combined,Region.either,Region.uncaught,Region.among,Region.nowhere,HandlerRegion.arm,Region.followedBy,Region.through,leafRegion]
  · intro one first two second _
    simp [tryRegions,handlerRegionsOf,catchArmRegions,blankArms,blankHandlers,blankBody,armRegion,regionFrom,eventRegion,TryRegions.region,
      TryRegions.combined,Region.either,Region.uncaught,Region.among,Region.nowhere,HandlerRegion.arm,Region.followedBy,Region.through,leafRegion,
      leafDeparture] at first second
    exact first.trans second.symm

theorem blank_handler_unlinked : ¬∀ (table : CharClass) (facts : TransferFacts) (order : HashOrder) (rounds : Nat) (span : Span)
    (body catchEvents finallyEvents : List FlowEvent) (catchParam : Option Text) (catchTypes : List Text) (catchArms : List CatchArmFact)
    (exits : FlowExits) (after : TransferCtx),
    walkEvent order table facts rounds (.try span body catchEvents finallyEvents catchParam catchTypes catchArms) none .start = some (exits,after) →
    ∀ ops site, (regionFrom facts [] body).leaves ops (.throws site) →
      (∀ arm ∈ catchArms, (arm.types = [] ∨ site.thrownType = none ∨ ∃ type ∈ arm.types, site.thrownType = some type) →
        ∃ type, (site.throwNode,.catch type arm.span span) ∈ after.edges) ∨ ∃ thrown ∈ exits.throws, thrown.site = site := by
  intro linked
  have result : (walkEvent .given Names.asciiClass (plainFacts []) 3 (.try ⟨0,0,30⟩ blankBody blankHandlers [] none [] blankArms) none .start).map
      (fun walked => decide (walked.2.edges = {(.throw ['*'] ⟨0,2,6⟩,.catch ['*'] ⟨0,20,29⟩ ⟨0,0,30⟩)} ∧ walked.1.throws = [])) = some true := by
    decide
  obtain ⟨⟨exits,after⟩,walked,found⟩ := Option.map_eq_some_iff.mp result
  obtain ⟨edges,throws⟩ := of_decide_eq_true found
  rcases linked _ _ _ _ _ _ _ _ _ _ _ exits after walked [] _ (blank_leaves.mpr ⟨rfl,rfl⟩) with arms | ⟨thrown,member,_⟩
  · obtain ⟨type,edge⟩ := arms ⟨⟨0,10,19⟩,none,[[]]⟩ (List.mem_cons_self ..) (.inr (.inl rfl))
    rw [show after.edges = _ from edges] at edge
    simp at edge
  · rw [show exits.throws = [] from throws] at member
    exact nomatch member

-- A handler is walked from the definitions that reach an explicit throw of the body, whatever
-- reaches its calls.
theorem handler_sees_calls (table : CharClass) (facts : TransferFacts) (order : HashOrder) {rounds : Nat} (enough : 3 ≤ rounds) (span : Span)
    (body catchEvents finallyEvents : List FlowEvent) (catchParam : Option Text) (catchTypes : List Text) (catchArms : List CatchArmFact)
    {regions : TryRegions} (same : tryRegions facts span body catchEvents finallyEvents catchParam catchTypes catchArms = regions)
    (steady : regions.region.steady) (told : Set.InjOn ThrowSite.throwNode {site | regions.region.raises site})
    (hint : Option AssignCallSiteHint) (ctx : TransferCtx) :
    ∃ exits after, walkEvent order table facts rounds (.try span body catchEvents finallyEvents catchParam catchTypes catchArms) hint ctx =
        some (exits,after) ∧
      (∀ handler ∈ regions.handlers, ∀ reached call name node, regions.body.visits none reached call → (callSpan? call.event).isSome →
        (name,node) ∈ runWrites table reached ∅ →
        (∃ thrown, entersHandler regions.body handler.types thrown ∧ (name,node) ∈ runWrites table thrown ctx.lastWriter) →
        ∀ bound inner visit consumer, handler.bound regions.body bound → handler.region.visits none inner visit →
          ReadsFirst table facts visit name consumer → (∀ op ∈ bound ++ inner, op.keeps table (name,node) = true) →
          (node,consumer) ∈ after.edges) ∧
      ∃ bodyExits middle, walkEvents order table facts rounds body ctx = some (bodyExits,middle) ∧
        ∀ catchTypes, ctx.lastWriter.Nonempty → ∀ definition,
          definition ∈ catchEntryWriterState bodyExits.throws catchTypes ctx.lastWriter ↔
            ∃ thrown, entersHandler regions.body catchTypes thrown ∧ definition ∈ runWrites table thrown ctx.lastWriter := by
  obtain ⟨exits,after,walked,_,follows⟩ := try_walked table facts order enough span body catchEvents finallyEvents catchParam catchTypes
    catchArms same steady told hint ctx
  refine ⟨exits,after,walked,?_,?_⟩
  · intro handler member reached call name node _ _ _ live bound inner visit consumer binds visits reads kept
    obtain ⟨thrown,enters,live⟩ := live
    obtain ⟨before,inside,_,flows⟩ := follows.visited none _ visit (by simp) (handler_visits member enters binds visits)
    refine flows (reads before node (inside ?_))
    rw [List.append_assoc,runWrites,run_append]
    exact mem_run.mpr (.inr ⟨live,kept⟩)
  · obtain ⟨calm,raised⟩ := body_inside regions
    have simulates := (@walkFrom_simulates table facts {site | regions.region.raises site} order rounds told enough [] body).whole
    rw [← show regions.body = regionFrom facts [] body from same ▸ rfl] at simulates
    obtain ⟨bodyExits,middle,through,_,inner⟩ := simulates (calm steady) raised ctx
    refine ⟨bodyExits,middle,through,fun types full definition => ?_⟩
    have tracks := @catchEntry_tracks table regions.body ctx.lastWriter bodyExits types fun site => inner.leaves (.throws site)
    constructor
    · exact tracks.exact full (some definition)
    · intro found
      obtain ⟨thrown,enters,live⟩ := found
      exact tracks.sound thrown enters (some definition) live

def raisingBody : List FlowEvent :=
  [.assign ⟨0,10,15⟩ ['x'] none (some ['t']) [] [] false none,.call ⟨0,16,22⟩ ['c'] none [] .function []]

def raisingHandler : List FlowEvent := [.call ⟨0,30,37⟩ ['s'] none [] .function []]

def raisingFacts : TransferFacts :=
  {plainFacts [] with call := fun event =>
    ⟨if callSpan? event = some ⟨0,30,37⟩ then [.source (.read ['x'] (.callArg ⟨0,30,37⟩ 0))] else [],fun _ => [],[]⟩}

def raisingTry : TryRegions := tryRegions raisingFacts ⟨0,0,40⟩ raisingBody raisingHandler [] none [] []

theorem raising_steady : raisingTry.region.steady ∧ ∀ site, ¬raisingTry.region.raises site := by
  simp [raisingTry,tryRegions,handlerRegionsOf,catchArmRegions,raisingBody,raisingHandler,raisingFacts,plainFacts,regionFrom,eventRegion,
    TryRegions.region,TryRegions.combined,Region.either,Region.uncaught,Region.among,Region.nowhere,HandlerRegion.arm,Region.followedBy,
    Region.through,leafRegion,leafDeparture]

theorem raising_walked : ∃ exits after,
    walkEvent .given Names.asciiClass raisingFacts 3 (.try ⟨0,0,40⟩ raisingBody raisingHandler [] none [] []) none .start = some (exits,after) ∧
      (∀ handler ∈ raisingTry.handlers, ∀ reached call name node, raisingTry.body.visits none reached call → (callSpan? call.event).isSome →
        (name,node) ∈ runWrites Names.asciiClass reached ∅ →
        (∃ thrown, entersHandler raisingTry.body handler.types thrown ∧ (name,node) ∈ runWrites Names.asciiClass thrown ∅) →
        ∀ bound inner visit consumer, handler.bound raisingTry.body bound → handler.region.visits none inner visit →
          ReadsFirst Names.asciiClass raisingFacts visit name consumer → (∀ op ∈ bound ++ inner, op.keeps Names.asciiClass (name,node) = true) →
          (node,consumer) ∈ after.edges) ∧
      ∃ bodyExits middle, walkEvents .given Names.asciiClass raisingFacts 3 raisingBody .start = some (bodyExits,middle) ∧
        ∀ catchTypes, (∅ : WriterState).Nonempty → ∀ definition,
          definition ∈ catchEntryWriterState bodyExits.throws catchTypes ∅ ↔
            ∃ thrown, entersHandler raisingTry.body catchTypes thrown ∧ definition ∈ runWrites Names.asciiClass thrown ∅ := by
  refine handler_sees_calls Names.asciiClass raisingFacts .given (Nat.le_refl 3) ⟨0,0,40⟩ raisingBody raisingHandler [] none [] [] rfl
    raising_steady.1 ?_ none .start
  intro site raises
  exact (raising_steady.2 site raises).elim

theorem raising_call_unseen : ¬∀ (table : CharClass) (facts : TransferFacts) (order : HashOrder) (rounds : Nat) (span : Span)
    (body catchEvents finallyEvents : List FlowEvent) (catchParam : Option Text) (catchTypes : List Text) (catchArms : List CatchArmFact)
    (exits : FlowExits) (after : TransferCtx),
    walkEvent order table facts rounds (.try span body catchEvents finallyEvents catchParam catchTypes catchArms) none .start = some (exits,after) →
    ∀ handler ∈ (tryRegions facts span body catchEvents finallyEvents catchParam catchTypes catchArms).handlers, ∀ reached call name node,
      (regionFrom facts [] body).visits none reached call → (callSpan? call.event).isSome → (name,node) ∈ runWrites table reached ∅ →
      ∀ bound inner visit consumer, handler.bound (regionFrom facts [] body) bound → handler.region.visits none inner visit →
        ReadsFirst table facts visit name consumer → (∀ op ∈ bound ++ inner, op.keeps table (name,node) = true) → (node,consumer) ∈ after.edges := by
  intro sees
  have missing : (walkEvent .given Names.asciiClass raisingFacts 3 (.try ⟨0,0,40⟩ raisingBody raisingHandler [] none [] []) none .start).map
      (fun walked => decide ((FlowNode.write ['x'] ⟨0,10,15⟩,FlowNode.callArg ⟨0,30,37⟩ 0) ∈ walked.2.edges)) = some false := by decide
  obtain ⟨⟨exits,after⟩,walked,absent⟩ := Option.map_eq_some_iff.mp missing
  have reaches : ((['x'],.write ['x'] ⟨0,10,15⟩) : Text × FlowNode) ∈
      runWrites Names.asciiClass [.commit ['x'] (.write ['x'] ⟨0,10,15⟩)] ∅ := by decide
  have reads : ReadsFirst Names.asciiClass raisingFacts ⟨.call ⟨0,30,37⟩ ['s'] none [] .function [],[],[]⟩ ['x'] (.callArg ⟨0,30,37⟩ 0) :=
    argument_reads rfl (List.mem_cons_self ..) (by simp [raisingFacts,callSpan?,writesIn,LeafOp.write?])
  have quiet : ¬∃ site, (regionFrom raisingFacts [] raisingBody).leads (.throws site) := by
    simp [Region.leads,raisingBody,regionFrom,eventRegion,Region.followedBy,Region.through,leafRegion,leafDeparture,raisingFacts,plainFacts]
  have edge := sees _ _ _ _ _ _ _ _ _ _ _ exits after walked ⟨[],none,⟨0,0,40⟩,regionFrom raisingFacts [] raisingHandler⟩ (List.mem_cons_self ..)
    [.commit ['x'] (.write ['x'] ⟨0,10,15⟩)] ⟨.call ⟨0,16,22⟩ ['c'] none [] .function [],raisingBody.take 1,[]⟩ ['x'] _
    (.inr ⟨by simp [Region.clean],[_],[],rfl,⟨rfl,rfl⟩,.inl ⟨rfl,rfl⟩⟩) rfl reaches [] [] _ _ (.inr ⟨quiet,rfl⟩) (.inl ⟨rfl,rfl⟩) reads (by simp)
  exact of_decide_eq_false absent edge

end BonsaiNinja.Idg
