import BonsaiNinja.Idg.LoopLevels
import BonsaiNinja.Idg.TransferFlow
import BonsaiNinja.Library.GenKill

namespace BonsaiNinja.Idg
open LangApi (FlowEvent LoopControlTarget LoopKind CatchArmFact)
open Names (CharClass)
open Library.GenKill (Repeats)

def writeEffects (table : CharClass) : Library.GenKill WriteOp (Text × FlowNode) where
  apply op state := op.apply table state
  adds op := op.adds table
  keeps op definition := op.keeps table definition = true
  mem_apply := mem_apply
  adds_nonempty := adds_nonempty

def LeafOp.write? : LeafOp → Option WriteOp
  | .write op => some op
  | .source _ => none

def writesIn (ops : List LeafOp) : List WriteOp := ops.filterMap LeafOp.write?

def assignWrites (lowering : AssignLowering) : List WriteOp :=
  match lowering.outcome with
  | .sourceCallback => []
  | outcome =>
    if lowering.target.isEmpty then []
    else writesIn lowering.fields ++
      match outcome with
      | .literal => [.commit lowering.target lowering.writeNode]
      | .value => .commit lowering.target lowering.writeNode :: writesIn lowering.receiverState
      | _ => []

structure Visit where
  event : FlowEvent
  before : List FlowEvent
  behind : List FlowEvent

-- What may happen in a region: the writes on the paths that leave it, and on the paths to its
-- visits. A visit with a site is one before which no walk of the region lowers the site.
structure Region (ε : Type) where
  leaves : List WriteOp → ε → Prop
  visits : Option Span → List WriteOp → Visit → Prop
  lowers : Span → Prop
  raises : ThrowSite → Prop
  steady : Prop

namespace Region

variable {ε : Type}

def clean (region : Region ε) (site : Option Span) : Prop := ∀ span ∈ site, ¬region.lowers span

def leads (region : Region ε) (exit : ε) : Prop := ∃ ops, region.leaves ops exit

def through (paths : List WriteOp → Prop) (onward : ε) : Region ε where
  leaves ops exit := paths ops ∧ exit = onward
  visits _ _ _ := False
  lowers _ := False
  raises _ := False
  steady := True

def nowhere : Region ε := ⟨fun _ _ => False,fun _ _ _ => False,fun _ => False,fun _ => False,True⟩

def followedBy (onward : ε) (first second : Region ε) : Region ε where
  leaves ops exit := (first.leaves ops exit ∧ exit ≠ onward) ∨
    ∃ front back, ops = front ++ back ∧ first.leaves front onward ∧ second.leaves back exit
  visits site ops visit := first.visits site ops visit ∨
    (first.clean site ∧ ∃ front back, ops = front ++ back ∧ first.leaves front onward ∧ second.visits site back visit)
  lowers span := first.lowers span ∨ second.lowers span
  raises site := first.raises site ∨ second.raises site
  steady := first.steady ∧ second.steady

def either (first second : Region ε) : Region ε where
  leaves ops exit := first.leaves ops exit ∨ second.leaves ops exit
  visits site ops visit := first.visits site ops visit ∨ (first.clean site ∧ second.visits site ops visit)
  lowers span := first.lowers span ∨ second.lowers span
  raises site := first.raises site ∨ second.raises site
  steady := first.steady ∧ second.steady

def among : List (Region ε) → Region ε := List.foldr either nowhere

end Region

inductive Passage where
  | onward
  | done
  | escapes (departure : Departure)

def passage (loopLabel : Option Text) : Departure → Passage
  | .falls => .onward
  | .returns => .escapes .returns
  | .breaks target => (outward loopLabel target).elim .done fun target => .escapes (.breaks target)
  | .continues target => (outward loopLabel target).elim .onward fun target => .escapes (.continues target)
  | .throws site => .escapes (.throws site)

def TargetsApart (live : Option LoopControlTarget → Prop) : Prop :=
  ∀ levels, 2 ≤ levels → live (some (.levels levels)) → ¬live (some (.levels (levels + 1)))

-- No two consecutive levels leave the region.
def Region.apart (region : Region Departure) : Prop :=
  TargetsApart (fun target => region.leads (.breaks target)) ∧ TargetsApart (fun target => region.leads (.continues target))

def Region.phase (loopLabel : Option Text) (region : Region Departure) : Region Passage where
  leaves ops exit := ∃ departure, region.leaves ops departure ∧ passage loopLabel departure = exit
  visits := region.visits
  lowers := region.lowers
  raises := region.raises
  steady := region.steady ∧ region.apart

structure LoopRegions where
  kind : LoopKind
  label : Option Text
  test : Region Departure
  body : Region Departure
  update : Region Departure

namespace LoopRegions

def phases (loop : LoopRegions) : List (Region Departure) :=
  match loop.kind with
  | .doWhile => [loop.body,loop.update,loop.test]
  | .loop => [loop.body,loop.update]
  | _ => [loop.test,loop.body,loop.update]

def along (loop : LoopRegions) (phases : List (Region Departure)) : Region Passage :=
  (phases.map (Region.phase loop.label)).foldr (Region.followedBy .onward) (.through (· = []) .onward)

def round (loop : LoopRegions) : Region Passage := loop.along loop.phases

-- The paths of a trip up to the place where the loop may stop.
def stops (loop : LoopRegions) (ops : List WriteOp) : Prop :=
  match loop.kind with
  | .doWhile => loop.round.leaves ops .onward
  | .loop => False
  | _ => (loop.test.phase loop.label).leaves ops .onward

def region (loop : LoopRegions) : Region Departure where
  leaves ops departure := ∃ trips rest, ops = trips ++ rest ∧ Repeats (loop.round.leaves · .onward) trips ∧
    (loop.round.leaves rest (.escapes departure) ∨ (departure = .falls ∧ (loop.round.leaves rest .done ∨ loop.stops rest)))
  visits site ops visit := ∃ trips rest, ops = trips ++ rest ∧ Repeats (loop.round.leaves · .onward) trips ∧
    (trips = [] ∨ loop.round.clean site) ∧ loop.round.visits site rest visit
  lowers := loop.round.lowers
  raises := loop.round.raises
  steady := loop.round.steady

end LoopRegions

-- A thrown exception enters the handlers that may catch it. Where no throw fits, a handler may be
-- entered from all of them, and where nothing is thrown, from the entry of the region.
def entersHandler (body : Region Departure) (catchTypes : List Text) (ops : List WriteOp) : Prop :=
  (∃ site, mayCatch catchTypes site = true ∧ body.leaves ops (.throws site)) ∨
  ((¬∃ site, mayCatch catchTypes site = true ∧ body.leads (.throws site)) ∧ ∃ site, body.leaves ops (.throws site)) ∨
  ((¬∃ site, body.leads (.throws site)) ∧ ops = [])

structure HandlerRegion where
  types : List Text
  parameter : Option Text
  span : Span
  region : Region Departure

def parameterWrites (parameter : Option Text) (armSpan : Span) : List WriteOp :=
  ((parameter.filter (!·.isEmpty)).map fun name => WriteOp.commit name (.write name armSpan)).toList

def HandlerRegion.bound (handler : HandlerRegion) (body : Region Departure) (ops : List WriteOp) : Prop :=
  if handler.types = [] then
    ((∃ site, body.leads (.throws site)) ∧ ops = parameterWrites handler.parameter handler.span) ∨
      ((¬∃ site, body.leads (.throws site)) ∧ ops = [])
  else ops = (catchTypeIds handler.types).flatMap fun _ => parameterWrites handler.parameter handler.span

def HandlerRegion.arm (handler : HandlerRegion) (body : Region Departure) : Region Departure :=
  .followedBy .falls
    (.through (fun ops => ∃ thrown bound, ops = thrown ++ bound ∧ entersHandler body handler.types thrown ∧ handler.bound body bound)
      .falls)
    handler.region

def Region.uncaught (body : Region Departure) (handlers : List HandlerRegion) : Region Departure where
  leaves ops departure := body.leaves ops departure ∧
    ∀ site, departure = .throws site → ∀ handler ∈ handlers, definitelyCaught handler.types site = false
  visits := body.visits
  lowers := body.lowers
  raises := body.raises
  steady := body.steady

def Region.first (region : Region Departure) : Departure → Prop
  | .falls => True
  | .returns => ¬region.leads .falls
  | .breaks target => ¬region.leads .falls ∧ ¬region.leads .returns ∧ ∀ other, region.leads (.breaks other) → other = target
  | .continues target => ¬region.leads .falls ∧ ¬region.leads .returns ∧ (∀ other, ¬region.leads (.breaks other)) ∧
      ∀ other, region.leads (.continues other) → other = target
  | .throws site => ¬region.leads .falls ∧ ¬region.leads .returns ∧ (∀ other, ¬region.leads (.breaks other)) ∧
      (∀ other, ¬region.leads (.continues other)) ∧ ∀ other, region.leads (.throws other) → other = site

-- Every way out leads through the cleanup once, and an abrupt cleanup replaces it.
def Region.cleanedUp (region cleanup : Region Departure) : Region Departure where
  leaves ops departure := ∃ front back incoming, ops = front ++ back ∧ region.leaves front incoming ∧
    ((cleanup.leaves back .falls ∧ departure = incoming) ∨ (cleanup.leaves back departure ∧ departure ≠ .falls))
  visits site ops visit := region.visits site ops visit ∨
    (region.clean site ∧ ∃ front back incoming, ops = front ++ back ∧ region.leaves front incoming ∧
      (cleanup.clean site ∨ region.first incoming) ∧ cleanup.visits site back visit)
  lowers span := region.lowers span ∨ cleanup.lowers span
  raises site := region.raises site ∨ cleanup.raises site
  steady := region.steady ∧ cleanup.steady

structure TryRegions where
  body : Region Departure
  handlers : List HandlerRegion
  cleanup : Option (Region Departure)

namespace TryRegions

def combined (regions : TryRegions) : Region Departure :=
  (regions.body.uncaught regions.handlers).either (.among (regions.handlers.map fun handler => handler.arm regions.body))

def region (regions : TryRegions) : Region Departure :=
  regions.cleanup.elim regions.combined regions.combined.cleanedUp

end TryRegions

def armRegion (arm : CatchArmFact) (region : Region Departure) : HandlerRegion := ⟨arm.types,arm.parameter,arm.span,region⟩

def handlerRegionsOf (arms : Option (List HandlerRegion)) (hasCatch : Bool) (merged : HandlerRegion) : List HandlerRegion :=
  if hasCatch then arms.getD [merged] else []

section
variable (facts : TransferFacts)

def leafWrites (event : FlowEvent) : List WriteOp :=
  match event with
  | .assign .. => assignWrites (facts.assign event)
  | .call .. => writesIn (facts.call event).arguments ++ writesIn (facts.call event).results
  | .throw .. => []
  | .break .. => []
  | .continue .. => []
  | .lifecycle .. => []
  | event => writesIn (facts.other event)

def leafDeparture : FlowEvent → Departure
  | .call span .. => if span ∈ facts.throwingCallSites then .throws (throwSite span none) else .falls
  | .return .. => .returns
  | .throw span _ thrownType => .throws (throwSite span thrownType)
  | .break _ target => .breaks target
  | .continue _ target => .continues target
  | _ => .falls

def callSpan? : FlowEvent → Option Span
  | .call span .. => some span
  | _ => none

def leafRegion (visit : Visit) : Region Departure where
  leaves ops departure := ops = leafWrites facts visit.event ∧ departure = leafDeparture facts visit.event
  visits _ ops reached := ops = [] ∧ reached = visit
  lowers span := callSpan? visit.event = some span
  raises site := leafDeparture facts visit.event = .throws site
  steady := True

mutual

def eventRegion : FlowEvent → List FlowEvent → List FlowEvent → Region Departure
  | .branch _ _ thenEvents elseEvents, _, _ => (regionFrom [] thenEvents).either (regionFrom [] elseEvents)
  | .loop _ kind label conditionEvents updateEvents body, _, _ =>
    LoopRegions.region ⟨kind,label,regionFrom [] conditionEvents,regionFrom [] body,regionFrom [] updateEvents⟩
  | .try span body catchEvents finallyEvents catchParam catchTypes catchArms, _, _ =>
    TryRegions.region
      { body := regionFrom [] body
        handlers := handlerRegionsOf (catchArmRegions catchArms catchEvents)
          (catchParam.isSome || !catchTypes.isEmpty || !catchArms.isEmpty || !catchEvents.isEmpty)
          ⟨catchTypes,catchParam,span,regionFrom [] catchEvents⟩
        cleanup := if finallyEvents.isEmpty then none else some (regionFrom [] finallyEvents) }
  | .defer _ body, _, _ => regionFrom [] body
  | .using _ body, _, _ => regionFrom [] body
  | event, before, behind => leafRegion facts ⟨event,before,behind⟩

def regionFrom (before : List FlowEvent) : List FlowEvent → Region Departure
  | [] => .through (· = []) .falls
  | event :: behind => (eventRegion event before behind).followedBy .falls (regionFrom (event :: before) behind)

def catchArmRegions : List CatchArmFact → List FlowEvent → Option (List HandlerRegion)
  | [], _ => none
  | arm :: arms, [] => if arms.isEmpty then some [armRegion arm (.through (· = []) .falls)] else none
  | arm :: arms, event :: behind =>
    if arms.isEmpty then some [armRegion arm ((eventRegion event [] behind).followedBy .falls (regionFrom [event] behind))]
    else match event, behind with
      | .branch span none thenEvents elseEvents, [] =>
        if span = arm.span then (catchArmRegions arms elseEvents).map (armRegion arm (regionFrom [] thenEvents) :: ·) else none
      | _, _ => none

end

def tryRegions (span : Span) (body catchEvents finallyEvents : List FlowEvent) (catchParam : Option Text) (catchTypes : List Text)
    (catchArms : List CatchArmFact) : TryRegions where
  body := regionFrom facts [] body
  handlers := handlerRegionsOf (catchArmRegions facts catchArms catchEvents)
    (catchParam.isSome || !catchTypes.isEmpty || !catchArms.isEmpty || !catchEvents.isEmpty)
    ⟨catchTypes,catchParam,span,regionFrom facts [] catchEvents⟩
  cleanup := if finallyEvents.isEmpty then none else some (regionFrom facts [] finallyEvents)

end

end BonsaiNinja.Idg
