import BonsaiNinja.Idg.WalkedFlow

namespace BonsaiNinja.Idg
open LangApi (FlowEvent)
open Names (CharClass)
open Library.GenKill (mem_run)

variable {table : CharClass} {facts : TransferFacts}

structure ReceiverJoin (table : CharClass) (facts : TransferFacts) (visit : Visit) (target : Text) (site : Span) : Prop where
  value : (facts.assign visit.event).outcome = .value
  assigns : (facts.assign visit.event).target = target
  named : target.isEmpty = false
  kept : ∀ op ∈ writesIn (facts.assign visit.event).fields, ∀ node, op.keeps table (target,node) = true
  receiver : isNamespaceReceiver facts site = false
  joined : ∃ hint, assignCallSiteHint facts.assignmentValues facts.flowCallSites ∅ visit.before visit.event visit.behind = some hint ∧
    hint.siteSpan = site ∧ hint.prebindTargetReceiver = true

def JoinedByContainment (facts : TransferFacts) (visit : Visit) : Prop :=
  ∃ assign, AssignShape.of visit.event = some assign ∧ facts.assignmentValues.findSome? (factHint assign facts.flowCallSites ∅) = none

section
variable {assign : AssignShape} {flowCallSites : List Span} {lowered : Finset Span} {fact : AssignmentValueFact} {values : List AssignmentValueFact}

theorem factHint_lowered : factHint assign flowCallSites lowered fact = (factHint assign flowCallSites ∅ fact).map fun hint =>
    {hint with prebindTargetReceiver := !(decide (hint.siteSpan ∈ lowered)) && hint.prebindTargetReceiver} := by
  unfold factHint
  cases fact.directCallSpan <;> cases fact.directCallName <;> simp [Option.bind_eq_bind] <;> split_ifs <;> simp

theorem factHints_lowered : values.findSome? (factHint assign flowCallSites lowered) =
    (values.findSome? (factHint assign flowCallSites ∅)).map fun hint =>
      {hint with prebindTargetReceiver := !(decide (hint.siteSpan ∈ lowered)) && hint.prebindTargetReceiver} := by
  induction values with
  | nil => rfl
  | cons fact values ih =>
    rw [List.findSome?_cons,List.findSome?_cons,factHint_lowered,ih]
    cases factHint assign flowCallSites ∅ fact <;> rfl

end

-- Only a fact asks whether the call is lowered already.
theorem siteHint_prebinds {visit : Visit} {target : Text} {site : Span} (join : ReceiverJoin table facts visit target site) {before : TransferCtx}
    (either : JoinedByContainment facts visit ∨ site ∉ before.loweredCallSites) :
    ∃ hint, siteHint facts visit.before visit.event visit.behind before = some hint ∧ hint.siteSpan = site ∧
      hint.prebindTargetReceiver = true := by
  obtain ⟨hint,joined,same,prebinds⟩ := join.joined
  unfold assignCallSiteHint at joined
  obtain ⟨assign,shape,joined⟩ := Option.bind_eq_some_iff.mp joined
  simp only [siteHint,assignCallSiteHint,shape,Option.bind_eq_bind,Option.bind_some,@factHints_lowered _ _ before.loweredCallSites]
  cases found : facts.assignmentValues.findSome? (factHint assign facts.flowCallSites ∅) with
  | none =>
    rw [found,Option.none_or] at joined
    exact ⟨hint,by simpa using joined,same,prebinds⟩
  | some first =>
    rw [found] at joined
    cases joined
    rcases either with ⟨other,again,contained⟩ | fresh
    · rw [shape] at again
      cases again
      rw [found] at contained
      exact nomatch contained
    · refine ⟨_,rfl,same,?_⟩
      simp [same,fresh,prebinds]

theorem walkAssign_reads {visit : Visit} {target : Text} {site : Span} (join : ReceiverJoin table facts visit target site)
    {before : TransferCtx} {hint : AssignCallSiteHint} (same : hint.siteSpan = site) (prebinds : hint.prebindTargetReceiver = true)
    {node : FlowNode} (live : (target,node) ∈ before.lastWriter) :
    (node,.callArg site (2 ^ 32 - 1)) ∈ (walkAssign table facts visit.event (some hint) before).edges := by
  have untouched : (target,node) ∈ (before.runLeaves table facts (facts.assign visit.event).fields).lastWriter := by
    rw [(@runLeaves_moves table facts none before _).lastWriter]
    exact mem_run.mpr (.inr ⟨live,fun op member => join.kept op member node⟩)
  have read : ∀ ctx : TransferCtx, (target,node) ∈ ctx.lastWriter →
      (node,.callArg site (2 ^ 32 - 1)) ∈ (prebind table facts target (some hint) ctx).edges := by
    intro ctx live
    unfold prebind
    rw [Option.filter_some,if_pos prebinds]
    simp only [same,join.receiver,Bool.false_eq_true,if_false]
    exact Finset.mem_union_right _ (bridgeRead_writers live)
  simp only [walkAssign,join.value,join.assigns,join.named,Bool.false_eq_true,if_false]
  have sources := @runSources_moves table facts none (before.runLeaves table facts (facts.assign visit.event).fields)
    ((facts.assign visit.event).sources (some hint))
  have bound := read _ (by
    rw [sources.lastWriter]
    exact untouched)
  exact (@runLeaves_moves table facts none _ _).edges ((@runWrite_moves table none _ _).edges bound)

-- On a visit whose call is not lowered yet, or whose join does not ask, every definition that
-- reaches the assignment is read as the receiver before it is overwritten.
theorem receiver_reads_first (table : CharClass) (facts : TransferFacts) (order : HashOrder) {rounds : Nat} (enough : 3 ≤ rounds)
    {events : List FlowEvent} (steady : (regionFrom facts [] events).steady)
    (told : Set.InjOn ThrowSite.throwNode {site | (regionFrom facts [] events).raises site}) (ctx : TransferCtx) :
    ∃ exits after, walkEvents order table facts rounds events ctx = some (exits,after) ∧
      ∀ visit target site, ReceiverJoin table facts visit target site → ∀ ops node, (regionFrom facts [] events).visits none ops visit →
        (target,node) ∈ runWrites table ops ctx.lastWriter →
        (JoinedByContainment facts visit ∨ (site ∉ ctx.loweredCallSites ∧ ∃ first, (regionFrom facts [] events).visits (some site) first visit ∧
          (target,node) ∈ runWrites table first ctx.lastWriter)) →
        (node,.callArg site (2 ^ 32 - 1)) ∈ after.edges := by
  obtain ⟨exits,after,walked,_,follows⟩ := (walkFrom_simulates told enough [] events).whole steady (fun _ raises => raises) ctx
  refine ⟨exits,after,walked,fun visit target site join ops node visits reaches either => ?_⟩
  have leaf : ∀ {before : TransferCtx}, (target,node) ∈ before.lastWriter →
      (JoinedByContainment facts visit ∨ site ∉ before.loweredCallSites) →
      (walkLeaf table facts visit.event (siteHint facts visit.before visit.event visit.behind before) before).2.edges ⊆ after.edges →
      (node,.callArg site (2 ^ 32 - 1)) ∈ after.edges := by
    intro before live either flows
    obtain ⟨hint,found,same,prebinds⟩ := siteHint_prebinds join either
    obtain ⟨_,joined,_⟩ := join.joined
    obtain ⟨assign,shape,_⟩ := Option.bind_eq_some_iff.mp joined
    have edge := walkAssign_reads join same prebinds live
    rw [found] at flows
    cases event : visit.event with
    | assign =>
      rw [event] at flows edge
      exact flows edge
    | _ =>
      rw [event] at shape
      exact nomatch shape
  rcases either with contained | ⟨fresh,first,here,live⟩
  · obtain ⟨before,inside,_,flows⟩ := follows.visited none ops visit (by simp) visits
    exact leaf (inside reaches) (.inl contained) flows
  · obtain ⟨before,inside,unlowered,flows⟩ := follows.visited (some site) first visit (by simpa using fresh) here
    exact leaf (inside live) (.inr (unlowered site rfl)) flows

def HashOrder.given : HashOrder := ⟨.given,id,fun targets => List.Perm.refl targets⟩

def TransferCtx.start : TransferCtx := ⟨∅,∅,∅,∅,∅⟩

-- A loop that assigns the result of a method to its receiver, and then something else.
def replayedBody : List FlowEvent :=
  [.assign ⟨0,10,20⟩ ['x'] none (some ['x','.','m']) [] [] false none,.call ⟨0,14,19⟩ ['x','.','m'] (some ['x']) [] .method [],
    .assign ⟨0,30,40⟩ ['x'] none (some ['t']) [] [] false none]

def replayedLoop : List FlowEvent := [.loop ⟨0,0,50⟩ .while none [] [] replayedBody]

def plainAssign : FlowEvent → AssignLowering
  | .assign span target .. => ⟨.value,target,.write target span,[],fun _ => [],[]⟩
  | _ => ⟨.structural,[],.yield,[],fun _ => [],[]⟩

def plainFacts (assignmentValues : List AssignmentValueFact) : TransferFacts where
  assignmentValues := assignmentValues
  flowCallSites := [⟨0,14,19⟩]
  throwingCallSites := ∅
  receiverFact _ := none
  complete _ _ := ∅
  assign := plainAssign
  call _ := ⟨[],fun _ => [],[]⟩
  other _ := []
  compoundThrow _ _ := []

def directCallFact : AssignmentValueFact := ⟨⟨0,10,20⟩,some ['x'],some ⟨0,14,19⟩,some ['x','.','m'],some ['x']⟩

theorem replayed_steady (values : List AssignmentValueFact) : (regionFrom (plainFacts values) [] replayedLoop).steady := by
  simp [replayedLoop,replayedBody,regionFrom,eventRegion,LoopRegions.region,LoopRegions.round,LoopRegions.along,LoopRegions.phases,
    Region.followedBy,Region.through,Region.phase,Region.apart,TargetsApart,Region.leads,leafRegion,leafDeparture,plainFacts]

theorem replayed_raises (values : List AssignmentValueFact) (site : ThrowSite) :
    ¬(regionFrom (plainFacts values) [] replayedLoop).raises site := by
  simp [replayedLoop,replayedBody,regionFrom,eventRegion,LoopRegions.region,LoopRegions.round,LoopRegions.along,LoopRegions.phases,
    Region.followedBy,Region.through,Region.phase,leafRegion,leafDeparture,plainFacts]

theorem replayed_reads : ∃ exits after, walkEvents .given Names.asciiClass (plainFacts []) 3 replayedLoop .start = some (exits,after) ∧
    ∀ visit target site, ReceiverJoin Names.asciiClass (plainFacts []) visit target site → ∀ ops node,
      (regionFrom (plainFacts []) [] replayedLoop).visits none ops visit → (target,node) ∈ runWrites Names.asciiClass ops ∅ →
      (JoinedByContainment (plainFacts []) visit ∨ (site ∉ (∅ : Finset Span) ∧ ∃ first,
        (regionFrom (plainFacts []) [] replayedLoop).visits (some site) first visit ∧ (target,node) ∈ runWrites Names.asciiClass first ∅)) →
      (node,.callArg site (2 ^ 32 - 1)) ∈ after.edges := by
  refine receiver_reads_first Names.asciiClass (plainFacts []) .given (Nat.le_refl 3) (replayed_steady []) ?_ .start
  intro site raises
  exact (replayed_raises [] site raises).elim

def replayedVisit : Visit where
  event := .assign ⟨0,10,20⟩ ['x'] none (some ['x','.','m']) [] [] false none
  before := []
  behind := replayedBody.tail

theorem replayed_join : ReceiverJoin Names.asciiClass (plainFacts [directCallFact]) replayedVisit ['x'] ⟨0,14,19⟩ where
  value := rfl
  assigns := rfl
  named := rfl
  kept := nofun
  receiver := rfl
  joined := ⟨⟨⟨0,14,19⟩,true,true⟩,by decide,rfl,rfl⟩

def replayedTrip : List WriteOp := [.commit ['x'] (.write ['x'] ⟨0,10,20⟩),.commit ['x'] (.write ['x'] ⟨0,30,40⟩)]

theorem replayed_again : (regionFrom (plainFacts [directCallFact]) [] replayedLoop).visits none replayedTrip replayedVisit := by
  have body : (regionFrom (plainFacts [directCallFact]) [] replayedBody).leaves replayedTrip .falls := by
    refine .inr ⟨[_],[_],rfl,⟨rfl,rfl⟩,.inr ⟨[],[_],rfl,⟨rfl,rfl⟩,.inr ⟨[_],[],rfl,⟨rfl,rfl⟩,⟨rfl,rfl⟩⟩⟩⟩
  have trip : LoopRegions.trip ⟨.while,none,regionFrom (plainFacts [directCallFact]) [] [],
      regionFrom (plainFacts [directCallFact]) [] replayedBody,regionFrom (plainFacts [directCallFact]) [] []⟩ replayedTrip :=
    .inr ⟨[],replayedTrip,rfl,⟨.falls,⟨rfl,rfl⟩,rfl⟩,.inr ⟨replayedTrip,[],rfl,⟨.falls,body,rfl⟩,.inr ⟨[],[],rfl,⟨.falls,⟨rfl,rfl⟩,rfl⟩,⟨rfl,rfl⟩⟩⟩⟩
  refine .inl ⟨replayedTrip,[],rfl,.again .none trip,.inr (by simp [Region.clean]),?_⟩
  exact .inr ⟨by simp [Region.clean],[],[],rfl,⟨.falls,⟨rfl,rfl⟩,rfl⟩,.inl (.inl ⟨rfl,rfl⟩)⟩

-- The second trip reads the call's receiver behind the assignment, and misses the other definition.
theorem replayed_call_misses : ¬∀ (table : CharClass) (facts : TransferFacts) (order : HashOrder) (rounds : Nat) (events : List FlowEvent)
    (exits : FlowExits) (after : TransferCtx), walkEvents order table facts rounds events .start = some (exits,after) →
    ∀ visit target site ops node, ReceiverJoin table facts visit target site → (regionFrom facts [] events).visits none ops visit →
      (target,node) ∈ runWrites table ops ∅ → (node,.callArg site (2 ^ 32 - 1)) ∈ after.edges := by
  intro reads
  have missing : (walkEvents .given Names.asciiClass (plainFacts [directCallFact]) 3 replayedLoop .start).map
      (fun walked => decide ((FlowNode.write ['x'] ⟨0,30,40⟩,FlowNode.callArg ⟨0,14,19⟩ (2 ^ 32 - 1)) ∈ walked.2.edges)) = some false := by
    decide +kernel
  obtain ⟨⟨exits,after⟩,walked,absent⟩ := Option.map_eq_some_iff.mp missing
  have reaches : ((['x'],.write ['x'] ⟨0,30,40⟩) : Text × FlowNode) ∈ runWrites Names.asciiClass replayedTrip ∅ := by decide +kernel
  have edge := reads _ _ _ _ _ exits after walked replayedVisit ['x'] ⟨0,14,19⟩ replayedTrip _ replayed_join replayed_again reaches
  exact of_decide_eq_false absent edge

end BonsaiNinja.Idg
