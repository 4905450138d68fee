import BonsaiNinja.Idg.WalkedLoops
import BonsaiNinja.Idg.WalkedTries

namespace BonsaiNinja.Idg
open LangApi (FlowEvent CatchArmFact)
open Names (CharClass)

variable {table : CharClass} {facts : TransferFacts} {sites : Set ThrowSite} {order : HashOrder} {rounds : Nat}

abbrev ArmsSimulate (table : CharClass) (facts : TransferFacts) (sites : Set ThrowSite) :
    Option (List Handler) → Option (List HandlerRegion) → Prop :=
  Option.Rel (List.Forall₂ (HandlerSimulates table facts sites))

theorem armHandler_simulates (arm : CatchArmFact) {walk : TransferCtx → Walked} {region : Region Departure}
    (simulates : Simulates table facts sites walk region) : HandlerSimulates table facts sites (armHandler arm walk) (armRegion arm region) :=
  ⟨rfl,rfl,rfl,simulates⟩

theorem handlersOf_simulate {arms : Option (List Handler)} {regions : Option (List HandlerRegion)} {merged : Handler} {region : HandlerRegion}
    (simulate : ArmsSimulate table facts sites arms regions) (hasCatch : Bool) (one : HandlerSimulates table facts sites merged region) :
    List.Forall₂ (HandlerSimulates table facts sites) (handlersOf arms hasCatch merged) (handlerRegionsOf regions hasCatch region) := by
  unfold handlersOf handlerRegionsOf
  cases hasCatch with
  | false => exact .nil
  | true =>
    cases simulate with
    | some each => exact each
    | none => exact .cons one .nil

theorem arms_cons {handler : Handler} {region : HandlerRegion} {handlers : Option (List Handler)} {regions : Option (List HandlerRegion)}
    (first : HandlerSimulates table facts sites handler region) (rest : ArmsSimulate table facts sites handlers regions) :
    ArmsSimulate table facts sites (handlers.map (handler :: ·)) (regions.map (region :: ·)) := by
  cases rest with
  | some each => exact .some (.cons first each)
  | none => exact .none

def tryWalks (order : HashOrder) (table : CharClass) (facts : TransferFacts) (rounds : Nat) (span : Span)
    (body catchEvents finallyEvents : List FlowEvent) (catchParam : Option Text) (catchTypes : List Text) (catchArms : List CatchArmFact) :
    TryWalks where
  span := span
  bodyEvents := body
  body := walkFrom order table facts rounds [] body .none
  handlers := handlersOf (catchArmWalks order table facts rounds catchArms catchEvents)
    (catchParam.isSome || !catchTypes.isEmpty || !catchArms.isEmpty || !catchEvents.isEmpty)
    ⟨catchTypes,catchParam,span,walkFrom order table facts rounds [] catchEvents .none⟩
  cleanup := if finallyEvents.isEmpty then none else some (walkFrom order table facts rounds [] finallyEvents .none)

theorem tryWalks_simulate (span : Span) (body catchEvents finallyEvents : List FlowEvent) (catchParam : Option Text) (catchTypes : List Text)
    (catchArms : List CatchArmFact)
    (one : Simulates table facts sites (walkFrom order table facts rounds [] body .none) (regionFrom facts [] body))
    (two : Simulates table facts sites (walkFrom order table facts rounds [] catchEvents .none) (regionFrom facts [] catchEvents))
    (three : Simulates table facts sites (walkFrom order table facts rounds [] finallyEvents .none) (regionFrom facts [] finallyEvents))
    (arms : ArmsSimulate table facts sites (catchArmWalks order table facts rounds catchArms catchEvents)
      (catchArmRegions facts catchArms catchEvents)) :
    TrySimulates table facts sites (tryWalks order table facts rounds span body catchEvents finallyEvents catchParam catchTypes catchArms)
      (tryRegions facts span body catchEvents finallyEvents catchParam catchTypes catchArms) := by
  refine ⟨one,handlersOf_simulate arms _ ⟨rfl,rfl,rfl,two⟩,?_⟩
  unfold tryWalks tryRegions
  dsimp only
  split
  · exact .none
  · exact .some three

mutual

-- The walk of an event realises its region; by cases on the event, the inner lists first.
theorem walkEvent_simulates (told : sites.InjOn ThrowSite.throwNode) (enough : 3 ≤ rounds) (event : FlowEvent) (before behind : List FlowEvent) :
    Simulates table facts sites (fun ctx => walkEvent order table facts rounds event (siteHint facts before event behind ctx) ctx)
      (eventRegion facts event before behind) := by
  cases event with
  | branch span condition thenEvents elseEvents =>
    exact walkBranch_simulates told (walkFrom_simulates told enough [] thenEvents).whole (walkFrom_simulates told enough [] elseEvents).whole
  | loop span kind label conditionEvents updateEvents body =>
    exact walkLoop_simulates told
      ⟨rfl,rfl,(walkFrom_simulates told enough [] conditionEvents).whole,(walkFrom_simulates told enough [] body).whole,
        (walkFrom_simulates told enough [] updateEvents).whole⟩ enough
  | «try» span body catchEvents finallyEvents catchParam catchTypes catchArms =>
    exact walkTry_simulates told (tryWalks_simulate span body catchEvents finallyEvents catchParam catchTypes catchArms
      (walkFrom_simulates told enough [] body).whole (walkFrom_simulates told enough [] catchEvents).whole
      (walkFrom_simulates told enough [] finallyEvents).whole (catchArms_simulate told enough catchArms catchEvents))
  | defer span body | «using» span body => exact (walkFrom_simulates told enough [] body).whole
  | call span name receiver types kind args => exact walkLeaf_simulates told ⟨.call span name receiver types kind args,before,behind⟩
  | assign span target sourceName sourceCall sourceCallArgs sourceNames declares kind =>
    exact walkLeaf_simulates told ⟨.assign span target sourceName sourceCall sourceCallArgs sourceNames declares kind,before,behind⟩
  | aggregateAssign span target typeName => exact walkLeaf_simulates told ⟨.aggregateAssign span target typeName,before,behind⟩
  | «return» span kind text name => exact walkLeaf_simulates told ⟨.return span kind text name,before,behind⟩
  | throw span valueName thrownType => exact walkLeaf_simulates told ⟨.throw span valueName thrownType,before,behind⟩
  | «break» span target => exact walkLeaf_simulates told ⟨.break span target,before,behind⟩
  | «continue» span target => exact walkLeaf_simulates told ⟨.continue span target,before,behind⟩
  | yield span text => exact walkLeaf_simulates told ⟨.yield span text,before,behind⟩
  | await span name => exact walkLeaf_simulates told ⟨.await span name,before,behind⟩
  | lifecycle span name transition => exact walkLeaf_simulates told ⟨.lifecycle span name transition,before,behind⟩

theorem walkFrom_simulates (told : sites.InjOn ThrowSite.throwNode) (enough : 3 ≤ rounds) (before : List FlowEvent) (events : List FlowEvent) :
    SimulatesFrom table facts sites (walkFrom order table facts rounds before events) (regionFrom facts before events) := by
  cases events with
  | nil => exact endEvents_simulates
  | cons event behind =>
    exact continueWith_simulates told (walkEvent_simulates told enough event before behind)
      (walkFrom_simulates told enough (event :: before) behind)

theorem catchArms_simulate (told : sites.InjOn ThrowSite.throwNode) (enough : 3 ≤ rounds) (arms : List CatchArmFact) (events : List FlowEvent) :
    ArmsSimulate table facts sites (catchArmWalks order table facts rounds arms events) (catchArmRegions facts arms events) := by
  cases arms with
  | nil =>
    unfold catchArmWalks catchArmRegions
    exact .none
  | cons arm arms =>
    cases events with
    | nil =>
      unfold catchArmWalks catchArmRegions
      split
      · exact .some (.cons (armHandler_simulates arm endEvents_simulates.whole) .nil)
      · exact .none
    | cons event behind =>
      unfold catchArmWalks catchArmRegions
      split
      · exact .some (.cons (armHandler_simulates arm (continueWith_simulates told (walkEvent_simulates told enough event [] behind)
          (walkFrom_simulates told enough [event] behind)).whole) .nil)
      · cases event with
        | branch span condition thenEvents elseEvents =>
          cases condition with
          | some text => exact .none
          | none =>
            cases behind with
            | cons second behind => exact .none
            | nil =>
              dsimp only
              split
              · exact arms_cons (armHandler_simulates arm (walkFrom_simulates told enough [] thenEvents).whole)
                  (catchArms_simulate told enough arms elseEvents)
              · exact .none
        | _ => exact .none

end

end BonsaiNinja.Idg
