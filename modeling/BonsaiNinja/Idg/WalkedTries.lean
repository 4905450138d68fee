import BonsaiNinja.Idg.WalkedRegions

namespace BonsaiNinja.Idg
open LangApi (FlowEvent LoopControlTarget)
open Names (CharClass)
open Library.GenKill (run_append run_subset run_nonempty)
variable {order : HashOrder}
variable {walks : TryWalks}

variable {table : CharClass} {facts : TransferFacts} {sites : Set ThrowSite} {body : Region Departure}

theorem Follows.reads {ε : Type} {region : Region ε} {ctx middle after : TransferCtx} {departs : ε → Option (Text × FlowNode) → Prop}
    {writes : List WriteOp} (follows : Follows table facts region ctx departs middle) (moves : Moves table writes none middle after) :
    Follows table facts region ctx departs after where
  leaves := follows.leaves
  edges := follows.edges.trans moves.edges
  lowered span member := follows.lowered span ((moves.lowered span member).resolve_right nofun)
  visited site ops visit fresh visits := (follows.visited site ops visit fresh visits).grow moves.edges

theorem mem_thrownWriters {throws : List ThrowExit} {definition : Text × FlowNode} :
    definition ∈ thrownWriters throws ↔ ∃ thrown ∈ throws, definition ∈ thrown.writers := by
  have folded : ∀ (throws : List ThrowExit) (state : WriterState),
      definition ∈ throws.foldl (fun state thrown => state ∪ thrown.writers) state ↔
        definition ∈ state ∨ ∃ thrown ∈ throws, definition ∈ thrown.writers := by
    intro throws
    induction throws with
    | nil => simp
    | cons thrown throws ih =>
      intro state
      rw [List.foldl_cons,ih,Finset.mem_union,List.exists_mem_cons_iff,or_assoc]
  rw [thrownWriters,folded]
  exact or_iff_right (Finset.notMem_empty definition)

section
variable {entry : WriterState} {exits : FlowExits} {catchTypes : List Text}

section
variable (each : ∀ site, Tracks table entry (body.leaves · (.throws site)) (Departs exits (.throws site)))
include each

theorem leads_throw (site : ThrowSite) :
    body.leads (.throws site) ↔ ∃ thrown ∈ exits.throws, thrown.site = site := by
  constructor
  · intro leads
    obtain ⟨ops,leaves⟩ := leads
    obtain ⟨thrown,member,same,_⟩ := (each site).sound ops leaves none trivial
    exact ⟨thrown,member,same⟩
  · intro found
    obtain ⟨thrown,member,same⟩ := found
    exact (each site).present ⟨thrown,member,same,trivial⟩

theorem thrown_nonempty
    (full : entry.Nonempty) {site : ThrowSite} (leads : body.leads (.throws site)) :
    ∃ thrown ∈ exits.throws, thrown.site = site ∧ thrown.writers.Nonempty := by
  obtain ⟨ops,leaves⟩ := leads
  obtain ⟨definition,member⟩ := @run_nonempty _ _ (writeEffects table) ops _ full
  obtain ⟨thrown,inside,same,holds⟩ := (each site).sound ops leaves (some definition) member
  exact ⟨thrown,inside,same,definition,holds⟩

end

theorem mem_eligible {definition : Text × FlowNode} :
    definition ∈ thrownWriters (exits.throws.filter fun thrown => mayCatch catchTypes thrown.site) ↔
      ∃ thrown ∈ exits.throws, mayCatch catchTypes thrown.site = true ∧ definition ∈ thrown.writers := by
  rw [mem_thrownWriters]
  simp only [List.mem_filter,and_assoc]

section
variable (each : ∀ site, Tracks table entry (body.leaves · (.throws site)) (Departs exits (.throws site)))
include each

theorem no_eligible
    (unfit : ¬∃ site, mayCatch catchTypes site = true ∧ body.leads (.throws site)) :
    thrownWriters (exits.throws.filter fun thrown => mayCatch catchTypes thrown.site) = ∅ := by
  refine Finset.eq_empty_of_forall_notMem fun other eligible => unfit ?_
  obtain ⟨thrown,member,may,_⟩ := mem_eligible.mp eligible
  exact ⟨thrown.site,may,(leads_throw each _).mpr ⟨thrown,member,rfl⟩⟩

theorem no_throws :
    exits.throws = [] ↔ ¬∃ site, body.leads (.throws site) := by
  constructor
  · intro nothing leads
    obtain ⟨site,leads⟩ := leads
    obtain ⟨thrown,member,_⟩ := (leads_throw each site).mp leads
    rw [nothing] at member
    exact nomatch member
  · intro quiet
    exact List.eq_nil_iff_forall_not_mem.mpr fun thrown member => quiet ⟨thrown.site,(leads_throw each _).mpr ⟨thrown,member,rfl⟩⟩

theorem catchEntry_tracks :
    Tracks table entry (entersHandler body catchTypes) (Holds (catchEntryWriterState exits.throws catchTypes entry)) where
  sound ops path definition holds := by
    cases definition with
    | none => trivial
    | some definition =>
      change definition ∈ catchEntryWriterState exits.throws catchTypes entry
      rcases path with ⟨site,may,leaves⟩ | ⟨unfit,site,leaves⟩ | ⟨quiet,rfl⟩
      · obtain ⟨thrown,member,rfl,inside⟩ := (each site).sound ops leaves (some definition) holds
        have eligible := mem_eligible.mpr ⟨thrown,member,may,inside⟩
        simp only [catchEntryWriterState,if_neg (Finset.ne_empty_of_mem eligible)]
        exact eligible
      · obtain ⟨thrown,member,_,inside⟩ := (each site).sound ops leaves (some definition) holds
        have all := mem_thrownWriters.mpr ⟨thrown,member,inside⟩
        simp only [catchEntryWriterState,if_pos (no_eligible each unfit),if_neg (Finset.ne_empty_of_mem all)]
        exact all
      · rw [(no_throws each).mpr quiet]
        exact holds
  present _ := by
    by_cases fits : ∃ site, mayCatch catchTypes site = true ∧ body.leads (.throws site)
    · obtain ⟨site,may,ops,leaves⟩ := fits
      exact ⟨ops,.inl ⟨site,may,leaves⟩⟩
    · by_cases any : ∃ site, body.leads (.throws site)
      · obtain ⟨site,ops,leaves⟩ := any
        exact ⟨ops,.inr (.inl ⟨fits,site,leaves⟩)⟩
      · exact ⟨[],.inr (.inr ⟨any,rfl⟩)⟩
  exact full definition holds := by
    by_cases fits : ∃ site, mayCatch catchTypes site = true ∧ body.leads (.throws site)
    · have eligible : thrownWriters (exits.throws.filter fun thrown => mayCatch catchTypes thrown.site) ≠ ∅ := by
        obtain ⟨site,may,leads⟩ := fits
        obtain ⟨thrown,member,rfl,other,inside⟩ := thrown_nonempty each full leads
        exact Finset.ne_empty_of_mem (mem_eligible.mpr ⟨thrown,member,may,inside⟩)
      cases definition with
      | none =>
        obtain ⟨site,may,ops,leaves⟩ := fits
        exact ⟨ops,.inl ⟨site,may,leaves⟩,trivial⟩
      | some definition =>
        simp only [catchEntryWriterState,if_neg eligible] at holds
        obtain ⟨thrown,member,may,inside⟩ := mem_eligible.mp holds
        obtain ⟨ops,leaves,reaches⟩ := (each thrown.site).exact full (some definition) ⟨thrown,member,rfl,inside⟩
        exact ⟨ops,.inl ⟨thrown.site,may,leaves⟩,reaches⟩
    · by_cases any : ∃ site, body.leads (.throws site)
      · have all : thrownWriters exits.throws ≠ ∅ := by
          obtain ⟨site,leads⟩ := any
          obtain ⟨thrown,member,_,other,inside⟩ := thrown_nonempty each full leads
          exact Finset.ne_empty_of_mem (mem_thrownWriters.mpr ⟨thrown,member,inside⟩)
        cases definition with
        | none =>
          obtain ⟨site,ops,leaves⟩ := any
          exact ⟨ops,.inr (.inl ⟨fits,site,leaves⟩),trivial⟩
        | some definition =>
          simp only [catchEntryWriterState,if_pos (no_eligible each fits),if_neg all] at holds
          obtain ⟨thrown,member,inside⟩ := mem_thrownWriters.mp holds
          obtain ⟨ops,leaves,reaches⟩ := (each thrown.site).exact full (some definition) ⟨thrown,member,rfl,inside⟩
          exact ⟨ops,.inr (.inl ⟨fits,thrown.site,leaves⟩),reaches⟩
      · rw [(no_throws each).mpr any] at holds
        exact ⟨[],.inr (.inr ⟨any,rfl⟩),holds⟩

end

end

theorem writesIn_append (ops more : List LeafOp) : writesIn (ops ++ more) = writesIn ops ++ writesIn more := List.filterMap_append

theorem writesIn_edges {α : Type} (rows : List α) (edge : α → SourceOp) : writesIn (rows.map fun row => .source (edge row)) = [] := by
  induction rows with
  | nil => rfl
  | cons row rows ih => exact ih

theorem writesIn_bindParameter (parameter : Option Text) (armSpan : Span) (catchNode : FlowNode) :
    writesIn (bindParameter parameter armSpan catchNode) = parameterWrites parameter armSpan := by
  unfold bindParameter parameterWrites
  cases parameter.filter (!·.isEmpty) <;> rfl

theorem writesIn_bindCatchArm (throws : List ThrowSite) (catchTypes : List Text) (parameter : Option Text) (trySpan armSpan : Span) :
    writesIn (bindCatchArm throws catchTypes parameter trySpan armSpan) =
      (catchTypeIds catchTypes).flatMap (fun _ => parameterWrites parameter armSpan) ++
        if catchTypes.isEmpty && !throws.isEmpty then parameterWrites parameter armSpan else [] := by
  have each : ∀ types : List Text, writesIn (types.flatMap (bindCatchType throws parameter trySpan armSpan)) =
      types.flatMap fun _ => parameterWrites parameter armSpan := by
    intro types
    induction types with
    | nil => rfl
    | cons type types ih =>
      rw [List.flatMap_cons,List.flatMap_cons,writesIn_append,ih,bindCatchType,writesIn_append,writesIn_edges,writesIn_bindParameter]
      rfl
  rw [bindCatchArm,writesIn_append,each]
  congr 1
  split
  · rw [bindCatchAll,writesIn_append,writesIn_edges,writesIn_bindParameter]
    rfl
  · rfl

theorem bound_iff {handler : HandlerRegion} {throws : List ThrowSite} (quiet : throws = [] ↔ ¬∃ site, body.leads (.throws site))
    (trySpan : Span) (ops : List WriteOp) :
    handler.bound body ops ↔ ops = writesIn (bindCatchArm throws handler.types handler.parameter trySpan handler.span) := by
  rw [writesIn_bindCatchArm,HandlerRegion.bound]
  split
  · next all =>
    rw [all]
    by_cases none : throws = []
    · simp [none,quiet.mp none,catchTypeIds]
    · simp [none,not_not.mp (mt quiet.mpr none),catchTypeIds]
  · next typed => simp [typed]

-- The throw endpoint is linked to the handler's catch node for each type that may be thrown there,
-- and the catch node to the parameter.
def Connects (handler : HandlerRegion) (trySpan : Span) (site : ThrowSite) (edges : FlowEdges) : Prop :=
  ∀ type, (type ∈ handler.types ∧ type ≠ [] ∧ (site.thrownType = none ∨ site.thrownType = some type)) ∨
    (handler.types = [] ∧ type = ['*']) →
    (site.throwNode,.catch type handler.span trySpan) ∈ edges ∧
      ∀ name, handler.parameter = some name → name ≠ [] → (.catch type handler.span trySpan,.write name handler.span) ∈ edges

theorem Connects.grow {handler : HandlerRegion} {trySpan : Span} {site : ThrowSite} {edges more : FlowEdges}
    (connects : Connects handler trySpan site edges) (grows : edges ⊆ more) : Connects handler trySpan site more := by
  intro type fits
  obtain ⟨linked,bound⟩ := connects type fits
  exact ⟨grows linked,fun name named other => grows (bound name named other)⟩

theorem runLeaves_edge {ops : List LeafOp} {source target : FlowNode} (member : .source (.edge source target) ∈ ops) (ctx : TransferCtx) :
    (source,target) ∈ (ctx.runLeaves table facts ops).edges := by
  induction ops generalizing ctx with
  | nil => exact nomatch member
  | cons op ops ih =>
    rcases List.mem_cons.mp member with rfl | later
    · exact (@runLeaves_moves table facts none _ ops).edges (Finset.mem_union_right _ (Finset.mem_singleton_self _))
    · exact ih later _

theorem bindParameter_edge {parameter : Option Text} {name : Text} (named : parameter = some name) (other : name ≠ []) (armSpan : Span)
    (catchNode : FlowNode) : .source (.edge catchNode (.write name armSpan)) ∈ bindParameter parameter armSpan catchNode := by
  have filled : name.isEmpty = false := List.isEmpty_eq_false_iff.mpr other
  simp [bindParameter,named,Option.filter_some,filled]

theorem bindCatchArm_connects {throws : List ThrowSite} {handler : HandlerRegion} {site : ThrowSite} (thrown : site ∈ throws) (trySpan : Span)
    (ctx : TransferCtx) :
    Connects handler trySpan site
      (ctx.runLeaves table facts (bindCatchArm throws handler.types handler.parameter trySpan handler.span)).edges := by
  intro type fits
  rcases fits with ⟨member,named,reaches⟩ | ⟨all,rfl⟩
  · have listed : type ∈ catchTypeIds handler.types := List.mem_filter.mpr ⟨member,by simpa using named⟩
    have inside : ∀ op ∈ bindCatchType throws handler.parameter trySpan handler.span type,
        op ∈ bindCatchArm throws handler.types handler.parameter trySpan handler.span := fun op here =>
      List.mem_append_left _ (List.mem_flatMap.mpr ⟨type,listed,here⟩)
    have fits : thrownTypeReachesCatch type site = true := by
      rcases reaches with untyped | typed
      · simp [thrownTypeReachesCatch,untyped]
      · simp [thrownTypeReachesCatch,typed]
    refine ⟨runLeaves_edge (inside _ (List.mem_append_left _ ?_)) ctx,fun name given other => runLeaves_edge (inside _ (List.mem_append_right _ ?_)) ctx⟩
    · exact List.mem_map.mpr ⟨site,List.mem_filter.mpr ⟨thrown,fits⟩,rfl⟩
    · exact bindParameter_edge given other _ _
  · have some : throws.isEmpty = false := List.isEmpty_eq_false_iff.mpr (List.ne_nil_of_mem thrown)
    have inside : ∀ op ∈ bindCatchAll throws handler.parameter trySpan handler.span,
        op ∈ bindCatchArm throws handler.types handler.parameter trySpan handler.span := fun op here => by
      refine List.mem_append_right _ ?_
      simpa [all,some] using here
    refine ⟨runLeaves_edge (inside _ (List.mem_append_left _ ?_)) ctx,fun name given other => runLeaves_edge (inside _ (List.mem_append_right _ ?_)) ctx⟩
    · exact List.mem_map.mpr ⟨site,thrown,rfl⟩
    · exact bindParameter_edge given other _ _

structure HandlerSimulates (table : CharClass) (facts : TransferFacts) (sites : Set ThrowSite) (handler : Handler) (region : HandlerRegion) :
    Prop where
  types : handler.types = region.types
  parameter : handler.parameter = region.parameter
  span : handler.span = region.span
  walk : Simulates table facts sites handler.walk region.region

section
variable {entry : WriterState} {exits : FlowExits} {trySpan : Span}

theorem walkHandler_follows {handler : Handler} {region : HandlerRegion} (simulates : HandlerSimulates table facts sites handler region)
    (each : ∀ site, Tracks table entry (body.leaves · (.throws site)) (Departs exits (.throws site))) (steady : (region.arm body).steady)
    (raised : ∀ site, (region.arm body).raises site → site ∈ sites) (ctx : TransferCtx) :
    ∃ result after, walkHandler table facts exits.throws entry trySpan handler ctx = some (result,after) ∧ Sited sites result.throws ∧
      (∀ thrown ∈ exits.throws, Connects region trySpan thrown.site after.edges) ∧
      Follows table facts (region.arm body) {ctx with lastWriter := entry} (Departs result) after := by
  let entered : TransferCtx := {ctx with lastWriter := catchEntryWriterState exits.throws handler.types entry}
  let binding := bindCatchArm (exits.throws.map ThrowExit.site) handler.types handler.parameter trySpan handler.span
  have moves : Moves table (writesIn binding) none entered (entered.runLeaves table facts binding) := runLeaves_moves binding
  let bound := entered.runLeaves table facts binding
  obtain ⟨result,after,walked,sited,follows⟩ := simulates.walk steady.2 (fun site raises => raised site (.inr raises))
    {bound with catchReceivers := catching handler.parameter bound.catchReceivers}
  have bare : exits.throws.map ThrowExit.site = [] ↔ ¬∃ site, body.leads (.throws site) := List.map_eq_nil_iff.trans (no_throws each)
  have path : Tracks table entry (fun ops => ∃ thrown bound, ops = thrown ++ bound ∧ entersHandler body region.types thrown ∧
      region.bound body bound) (Holds bound.lastWriter) := by
    have start : Tracks table entry (entersHandler body region.types) (Holds entered.lastWriter) := by
      rw [← simulates.types]
      exact catchEntry_tracks each
    have writes : Tracks table entered.lastWriter (region.bound body) (Holds bound.lastWriter) := by
      rw [show bound.lastWriter = _ from moves.lastWriter]
      refine (Tracks.once (writesIn binding)).congr (fun ops => ?_) fun _ => Iff.rfl
      rw [bound_iff bare trySpan,← simulates.types,← simulates.parameter,← simulates.span]
    exact start.follow writes
  have enters : Follows table facts (.through (fun ops => ∃ thrown bound, ops = thrown ++ bound ∧ entersHandler body region.types thrown ∧
      region.bound body bound) Departure.falls) {ctx with lastWriter := entry}
      (fun exit definition => exit = .falls ∧ Holds bound.lastWriter definition)
      {bound with catchReceivers := catching handler.parameter bound.catchReceivers} := by
    refine ⟨fun exit => (Tracks.only fun _ => path).congr (fun _ => and_comm) fun _ => Iff.rfl,moves.edges,fun span member => ?_,?_⟩
    · exact .inl ((moves.lowered span member).resolve_right nofun)
    · intro _ _ _ _ absurd
      exact absurd.elim
  refine ⟨result,{after with catchReceivers := ctx.catchReceivers},?_,sited,fun thrown member => ?_,?_⟩
  · simp only [walkHandler,Option.bind_eq_bind]
    rw [show handler.walk _ = _ from walked]
    rfl
  · have linked := @bindCatchArm_connects table facts _ region thrown.site (List.mem_map_of_mem member) trySpan entered
    rw [← simulates.types,← simulates.parameter,← simulates.span] at linked
    exact linked.grow follows.edges
  · have falls : ∀ definition, (Departure.falls = .falls ∧ Holds bound.lastWriter definition) ↔ Holds bound.lastWriter definition :=
      fun definition => and_iff_right rfl
    have whole := enters.followedBy falls follows
    refine ⟨fun exit => ?_,whole.edges,whole.lowered,whole.visited⟩
    refine (whole.leaves exit).congr (fun _ => Iff.rfl) fun definition => or_iff_right fun both => both.2 both.1.1

theorem nowhere_follows (ctx : TransferCtx) : Follows table facts Region.nowhere ctx (fun (_ : Departure) _ => False) ctx :=
  ⟨fun _ => .never (fun _ => id) fun _ => id,Finset.Subset.refl _,fun _ member => .inl member,fun _ _ _ _ absurd => absurd.elim⟩

theorem walkHandlers_follow (told : sites.InjOn ThrowSite.throwNode) {handlers : List Handler} {regions : List HandlerRegion}
    (simulate : List.Forall₂ (HandlerSimulates table facts sites) handlers regions)
    (each : ∀ site, Tracks table entry (body.leaves · (.throws site)) (Departs exits (.throws site)))
    (steady : (Region.among (regions.map fun region => region.arm body)).steady)
    (raised : ∀ site, (Region.among (regions.map fun region => region.arm body)).raises site → site ∈ sites) (caught : FlowExits)
    (sited : Sited sites caught.throws) (ctx : TransferCtx) :
    ∃ result after departs, walkHandlers table facts exits.throws entry trySpan handlers caught ctx = some (result,after) ∧
      Sited sites result.throws ∧
      (∀ exit definition, Departs result exit definition ↔ Departs caught exit definition ∨ departs exit definition) ∧
      (∀ region ∈ regions, ∀ thrown ∈ exits.throws, Connects region trySpan thrown.site after.edges) ∧
      Follows table facts (Region.among (regions.map fun region => region.arm body)) {ctx with lastWriter := entry} departs after := by
  induction simulate generalizing caught ctx with
  | nil =>
    refine ⟨caught,ctx,_,rfl,sited,fun _ _ => (or_iff_left id).symm,nofun,?_⟩
    exact (nowhere_follows {ctx with lastWriter := entry}).settle ctx.lastWriter
  | @cons handler region handlers regions first rest ih =>
    obtain ⟨one,middle,walked,inner,linked,follows⟩ :=
      @walkHandler_follows table facts sites body entry exits trySpan handler region first each steady.1
        (fun site raises => raised site (.inl raises)) ctx
    obtain ⟨joined,merged⟩ := merge_departs told sited inner.told
    obtain ⟨result,after,departs,rested,outer,members,others,continues⟩ :=
      ih steady.2 (fun site raises => raised site (.inr raises)) (caught.merge one) joined middle
    refine ⟨result,after,_,?_,outer,fun exit definition => ?_,List.forall_mem_cons.mpr ⟨?_,others⟩,follows.either continues⟩
    · simp only [walkHandlers,walked,Option.bind_eq_bind,Option.bind_some]
      exact rested
    · rw [members,merged,or_assoc]
    · exact fun thrown member => (linked thrown member).grow continues.edges

-- What leaves the body for good: all but the throws that a handler is sure to catch.
def uncaughtThrows (handlers : List Handler) (throws : List ThrowExit) : List ThrowExit :=
  throws.filter fun thrown => !handlers.any fun handler => definitelyCaught handler.types thrown.site

theorem mem_uncaught {handlers : List Handler} {regions : List HandlerRegion} {throws : List ThrowExit} {thrown : ThrowExit}
    (simulate : List.Forall₂ (HandlerSimulates table facts sites) handlers regions) :
    thrown ∈ uncaughtThrows handlers throws ↔
      thrown ∈ throws ∧ ∀ region ∈ regions, definitelyCaught region.types thrown.site = false := by
  rw [uncaughtThrows,List.mem_filter]
  refine and_congr_right fun _ => ?_
  induction simulate with
  | nil => simp
  | @cons handler region handlers regions first rest ih =>
    rw [List.any_cons,Bool.not_or,Bool.and_eq_true,ih,List.forall_mem_cons,first.types,Bool.not_eq_true']

theorem departs_silent {departure : Departure} {definition : Option (Text × FlowNode)} :
    Departs {exits with throws := []} departure definition ↔
      (∀ site, departure ≠ .throws site) ∧ Departs exits departure definition := by
  cases departure with
  | throws site => simp [Departs]
  | _ => simp [Departs]

theorem uncaught_tracks {handlers : List Handler} {regions : List HandlerRegion} {state : WriterState}
    (simulate : List.Forall₂ (HandlerSimulates table facts sites) handlers regions)
    (each : ∀ departure, Tracks table state (body.leaves · departure) (Departs exits departure)) (departure : Departure) :
    Tracks table state ((body.uncaught regions).leaves · departure) (fun definition =>
      Departs {exits with throws := []} departure definition ∨
        ∃ thrown ∈ uncaughtThrows handlers exits.throws, departure = .throws thrown.site ∧ Holds thrown.writers definition) := by
  refine (Tracks.only fun _ : ∀ site, departure = .throws site → ∀ region ∈ regions, definitelyCaught region.types site = false =>
    each departure).congr (fun ops => and_comm) fun definition => ?_
  rw [departs_silent]
  simp only [mem_uncaught simulate]
  cases departure with
  | throws site =>
    simp only [Departure.throws.injEq,Departs,forall_eq',ne_eq]
    constructor
    · intro both
      obtain ⟨free,thrown,member,rfl,holds⟩ := both
      exact .inr ⟨thrown,⟨member,free⟩,rfl,holds⟩
    · intro either
      rcases either with ⟨absurd,_⟩ | ⟨thrown,⟨member,free⟩,rfl,holds⟩
      · exact absurd.elim
      · exact ⟨free,thrown,member,rfl,holds⟩
  | _ => simp

end

structure CleanupRow where
  incoming : Departure
  state : WriterState
  departs : Departure → Option (Text × FlowNode) → Prop

def CleanupRow.source (row : CleanupRow) : Departure × WriterState := (row.incoming,row.state)

def CleanupRow.resumed (row : CleanupRow) (exit : Departure) (definition : Option (Text × FlowNode)) : Prop :=
  (exit = row.incoming ∧ row.departs .falls definition) ∨ (row.departs exit definition ∧ exit ≠ .falls)

theorem resume_departs (told : sites.InjOn ThrowSite.throwNode) {routed cleanup : FlowExits} (sited : Sited sites routed.throws)
    {incoming : Departure} (known : incoming.known sites) (inner : Sited sites cleanup.throws) :
    Sited sites (resume routed incoming cleanup).throws ∧ ∀ exit definition, Departs (resume routed incoming cleanup) exit definition ↔
      Departs routed exit definition ∨ (exit = incoming ∧ Departs cleanup .falls definition) ∨ (Departs cleanup exit definition ∧ exit ≠ .falls) := by
  have shut : ∀ exits : FlowExits, Sited sites exits.throws → Sited sites (exits.merge cleanup.leaving).throws ∧
      ∀ exit definition, Departs (exits.merge cleanup.leaving) exit definition ↔
        Departs exits exit definition ∨ (Departs cleanup exit definition ∧ exit ≠ .falls) := by
    intro exits sited
    obtain ⟨still,merged⟩ := @merge_departs sites exits cleanup.leaving told sited inner.told
    refine ⟨still,fun exit definition => ?_⟩
    rw [merged,departs_leaving,and_comm]
  unfold resume
  cases falls : cleanup.fallthrough with
  | none =>
    obtain ⟨still,departs⟩ := shut routed sited
    refine ⟨still,fun exit definition => ?_⟩
    have closed : ¬Departs cleanup .falls definition := fun arrived => by
      rw [Departs,falls] at arrived
      exact not_arrives_none arrived
    rw [Option.elim_none,departs,or_iff_right fun both : exit = incoming ∧ Departs cleanup .falls definition => closed both.2]
  | some state =>
    obtain ⟨still,departs⟩ := shut (routed.add state incoming) (sited_add told sited known state)
    refine ⟨still,fun exit definition => ?_⟩
    rw [Option.elim_some,departs,departs_add told sited known,falls_iff falls,or_assoc]

structure Routed (table : CharClass) (facts : TransferFacts) (sites : Set ThrowSite) (cleanup : Region Departure)
    (departures : List (Departure × WriterState)) (routed : FlowExits) (ctx : TransferCtx) (rows : List CleanupRow) (exits : FlowExits)
    (after : TransferCtx) : Prop where
  sited : Sited sites exits.throws
  sources : rows.map CleanupRow.source = departures
  departs : ∀ exit definition, Departs exits exit definition ↔ Departs routed exit definition ∨ ∃ row ∈ rows, row.resumed exit definition
  tracks : ∀ row ∈ rows, ∀ exit, Tracks table row.state (cleanup.leaves · exit) (row.departs exit)
  edges : ctx.edges ⊆ after.edges
  lowered : ∀ span ∈ after.loweredCallSites, span ∈ ctx.loweredCallSites ∨ cleanup.lowers span
  visited : ∀ site ops visit, (∀ span ∈ site, span ∉ ctx.loweredCallSites) → cleanup.visits site ops visit → ∀ row ∈ rows,
    cleanup.clean site ∨ departures.head? = some row.source → Met table facts row.state site ops visit after.edges

theorem routeFinally_routes (told : sites.InjOn ThrowSite.throwNode) {walk : TransferCtx → Walked} {cleanup : Region Departure}
    (simulates : Simulates table facts sites walk cleanup) (steady : cleanup.steady) (raised : ∀ site, cleanup.raises site → site ∈ sites)
    {departures : List (Departure × WriterState)} (known : ∀ departure ∈ departures, departure.1.known sites) {routed : FlowExits}
    (sited : Sited sites routed.throws) (ctx : TransferCtx) :
    ∃ exits after rows, routeFinally walk departures routed ctx = some (exits,after) ∧
      Routed table facts sites cleanup departures routed ctx rows exits after := by
  induction departures generalizing routed ctx with
  | nil =>
    refine ⟨routed,ctx,[],rfl,sited,rfl,by simp,by simp,Finset.Subset.refl _,fun _ member => .inl member,by simp⟩
  | cons incoming departures ih =>
    obtain ⟨exits,middle,walked,inner,follows⟩ := simulates steady raised {ctx with lastWriter := incoming.2}
    obtain ⟨still,resumed⟩ := resume_departs told sited (known incoming (List.mem_cons_self ..)) inner
    obtain ⟨final,after,rows,rested,rest⟩ := ih (fun departure member => known departure (List.mem_cons_of_mem _ member)) still middle
    refine ⟨final,after,⟨incoming.1,incoming.2,Departs exits⟩ :: rows,?_,⟨rest.sited,?_,?_,?_,follows.edges.trans rest.edges,?_,?_⟩⟩
    · simp only [routeFinally,walked,Option.bind_eq_bind,Option.bind_some]
      exact rested
    · rw [List.map_cons,rest.sources]
      rfl
    · intro exit definition
      rw [rest.departs,resumed,List.exists_mem_cons_iff,or_assoc]
      rfl
    · intro row member exit
      rcases List.mem_cons.mp member with rfl | later
      · exact follows.leaves exit
      · exact rest.tracks row later exit
    · intro span member
      exact (rest.lowered span member).elim (follows.lowered span) .inr
    · intro site ops visit fresh visits row member either
      have first : incoming = row.source → Met table facts row.state site ops visit after.edges := by
        intro same
        rw [← show incoming.2 = row.state from congrArg Prod.snd same]
        exact (follows.visited site ops visit fresh visits).grow rest.edges
      rcases either with clean | head
      · rcases List.mem_cons.mp member with rfl | later
        · exact first rfl
        · exact rest.visited site ops visit (follows.fresh_after clean fresh) visits row later (.inl clean)
      · exact first (Option.some.inj head)

section
variable {exits : FlowExits} {order : HashOrder} {state : WriterState} {departure : Departure}
variable {states : ControlExitStates}
variable {target : Option LoopControlTarget}

def KeptFor (exits : FlowExits) (state : WriterState) : Departure → Prop
  | .falls => exits.fallthrough = some state
  | .returns => exits.returns = some state
  | .breaks target => exits.breaks.lookup target = some state
  | .continues target => exits.continues.lookup target = some state
  | .throws site => ∃ thrown ∈ exits.throws, thrown.site = site ∧ thrown.writers = state

theorem lookup_arranged :
    target ∈ order.arrange states.keys ∧ states.lookup target = some state ↔ states.lookup target = some state := by
  refine and_iff_right_of_imp fun found => ?_
  rw [(order.perm _).mem_iff,← AList.mem_keys,← AList.lookup_isSome,found]
  rfl

theorem mem_departures : (departure,state) ∈ exits.departures order ↔ KeptFor exits state departure := by
  cases departure with
  | falls => simp [FlowExits.departures,KeptFor]
  | returns => simp [FlowExits.departures,KeptFor]
  | breaks | continues => simp [FlowExits.departures,KeptFor,lookup_arranged]
  | throws site => simp [FlowExits.departures,KeptFor]

theorem departs_kept (sited : Sited sites exits.throws) (kept : KeptFor exits state departure) (definition : Option (Text × FlowNode)) :
    Departs exits departure definition ↔ Holds state definition := by
  cases departure with
  | falls => exact falls_iff kept
  | returns =>
    rw [Departs,show exits.returns = some state from kept]
    exact arrives_some
  | breaks target =>
    rw [Departs,Live,show exits.breaks.lookup target = some state from kept]
    exact arrives_some
  | continues target =>
    rw [Departs,Live,show exits.continues.lookup target = some state from kept]
    exact arrives_some
  | throws site =>
    obtain ⟨thrown,member,rfl,rfl⟩ := kept
    constructor
    · intro departs
      obtain ⟨other,inside,same,holds⟩ := departs
      rwa [← List.inj_on_of_nodup_map sited.once inside member (congrArg ThrowSite.throwNode same)]
    · intro holds
      exact ⟨thrown,member,rfl,holds⟩

theorem departs_keeps (departs : Departs exits departure none) : ∃ state, KeptFor exits state departure := by
  cases departure with
  | falls | returns | breaks | continues => exact departs.imp fun _ => And.left
  | throws site =>
    obtain ⟨thrown,member,same,_⟩ := departs
    exact ⟨thrown.writers,thrown,member,same,rfl⟩

theorem kept_departs (kept : KeptFor exits state departure) : Departs exits departure none := by
  cases departure with
  | throws site =>
    obtain ⟨thrown,member,same,_⟩ := kept
    exact ⟨thrown,member,same,trivial⟩
  | _ => exact ⟨state,kept,trivial⟩

theorem only_target (found : states.lookup target = some state)
    (only : ∀ other, Live states other none → other = target) : order.arrange states.keys = [target] := by
  have single : states.keys = [target] := by
    have inside : target ∈ states.keys := by
      rw [← AList.mem_keys,← AList.lookup_isSome,found]
      rfl
    have all : ∀ other ∈ states.keys, other = target := fun other member => only other (live_isSome.mpr (AList.lookup_isSome.mpr member))
    have once := states.keys_nodup
    match states.keys, inside, all, once with
    | [first], inside, _, _ => rw [List.mem_singleton.mp inside]
    | first :: second :: _, _, all, once =>
      have same := (all first (by simp)).trans (all second (by simp)).symm
      exact absurd (same ▸ List.mem_cons_self ..) (List.nodup_cons.mp once).1
  exact List.perm_singleton.mp (single ▸ order.perm states.keys)

theorem no_target (none : ∀ other, ¬Live states other none) : order.arrange states.keys = [] := by
  have empty : states.keys = [] := List.eq_nil_iff_forall_not_mem.mpr fun other member =>
    none other (live_isSome.mpr (AList.lookup_isSome.mpr member))
  exact List.perm_nil.mp (empty ▸ order.perm states.keys)

-- The first departure of a region is the one whose cleanup is walked first.
theorem departures_first {region : Region Departure} (sited : Sited sites exits.throws)
    (present : ∀ departure, Departs exits departure none → region.leads departure) (first : region.first departure)
    (kept : KeptFor exits state departure) : (exits.departures order).head? = some (departure,state) := by
  have absent : ∀ {departure}, ¬region.leads departure → ∀ state, ¬KeptFor exits state departure := fun closed _ kept =>
    closed (present _ (kept_departs kept))
  have noFalls : ¬region.leads .falls → exits.fallthrough = none := fun closed => Option.eq_none_iff_forall_ne_some.mpr (absent closed)
  have noReturn : ¬region.leads .returns → exits.returns = none := fun closed => Option.eq_none_iff_forall_ne_some.mpr (absent closed)
  have noBreak : (∀ target, ¬region.leads (.breaks target)) → order.arrange exits.breaks.keys = [] := fun closed =>
    no_target fun target live => closed target (present (.breaks target) live)
  have noContinue : (∀ target, ¬region.leads (.continues target)) → order.arrange exits.continues.keys = [] := fun closed =>
    no_target fun target live => closed target (present (.continues target) live)
  cases departure with
  | falls => simp [FlowExits.departures,show exits.fallthrough = some state from kept]
  | returns => simp [FlowExits.departures,noFalls first,show exits.returns = some state from kept]
  | breaks target =>
    obtain ⟨falls,returns,only⟩ := first
    have keys := @only_target order state exits.breaks target kept fun other live => only other (present (.breaks other) live)
    simp [FlowExits.departures,noFalls falls,noReturn returns,keys,show exits.breaks.lookup target = some state from kept]
  | continues target =>
    obtain ⟨falls,returns,breaks,only⟩ := first
    have keys := @only_target order state exits.continues target kept fun other live => only other (present (.continues other) live)
    simp [FlowExits.departures,noFalls falls,noReturn returns,noBreak breaks,keys,show exits.continues.lookup target = some state from kept]
  | throws site =>
    obtain ⟨falls,returns,breaks,continues,only⟩ := first
    obtain ⟨thrown,member,same,writers⟩ := kept
    have all : ∀ other ∈ exits.throws, other = thrown := by
      intro other inside
      have equal := only other.site (present (.throws other.site) ⟨other,inside,rfl,trivial⟩)
      exact List.inj_on_of_nodup_map sited.once inside member (congrArg ThrowSite.throwNode (equal.trans same.symm))
    have head : exits.throws.head? = some thrown := by
      cases found : exits.throws with
      | nil =>
        rw [found] at member
        exact nomatch member
      | cons other rest => rw [List.head?_cons,all other (by rw [found]; exact List.mem_cons_self ..)]
    simp [FlowExits.departures,noFalls falls,noReturn returns,noBreak breaks,noContinue continues,head,same,writers]

end

structure TrySimulates (table : CharClass) (facts : TransferFacts) (sites : Set ThrowSite) (walks : TryWalks) (regions : TryRegions) :
    Prop where
  body : Simulates table facts sites walks.body regions.body
  handlers : List.Forall₂ (HandlerSimulates table facts sites) walks.handlers regions.handlers
  cleanup : Option.Rel (Simulates table facts sites) walks.cleanup regions.cleanup

def combinedExits (walks : TryWalks) (bodyExits caught : FlowExits) : FlowExits :=
  (FlowExits.merge {bodyExits with throws := []} caught).addThrows (uncaughtThrows walks.handlers bodyExits.throws)

theorem combined_follows (told : sites.InjOn ThrowSite.throwNode) {regions : TryRegions}
    (simulates : TrySimulates table facts sites walks regions) (steady : regions.combined.steady)
    (raised : ∀ site, regions.combined.raises site → site ∈ sites) (ctx : TransferCtx) :
    ∃ bodyExits middle caught after, walks.body ctx = some (bodyExits,middle) ∧
      walkHandlers table facts bodyExits.throws ctx.lastWriter walks.span walks.handlers .none
        (middle.runSources table facts (facts.compoundThrow walks.bodyEvents (bodyExits.throws.map ThrowExit.site))) = some (caught,after) ∧
      Sited sites (combinedExits walks bodyExits caught).throws ∧
      (∀ handler ∈ regions.handlers, ∀ site, regions.body.leads (.throws site) → Connects handler walks.span site after.edges) ∧
      Follows table facts regions.combined ctx (Departs (combinedExits walks bodyExits caught)) after := by
  obtain ⟨bodyExits,middle,walked,sited,follows⟩ := simulates.body steady.1 (fun site raises => raised site (.inl raises)) ctx
  have body : Follows table facts (regions.body.uncaught regions.handlers) ctx _ middle :=
    ⟨uncaught_tracks simulates.handlers follows.leaves,follows.edges,follows.lowered,follows.visited⟩
  have reads := body.reads (@runSources_moves table facts none middle (facts.compoundThrow walks.bodyEvents (bodyExits.throws.map ThrowExit.site)))
  obtain ⟨caught,after,departs,handled,inner,members,linked,arms⟩ :=
    @walkHandlers_follow table facts sites regions.body ctx.lastWriter bodyExits walks.span told _ _ simulates.handlers
      (fun site => follows.leaves (.throws site)) steady.2 (fun site raises => raised site (.inr raises)) .none sited_nil
      (middle.runSources table facts (facts.compoundThrow walks.bodyEvents (bodyExits.throws.map ThrowExit.site)))
  obtain ⟨joined,merged⟩ := @merge_departs sites {bodyExits with throws := []} caught told sited_nil inner.told
  have known : ∀ thrown ∈ uncaughtThrows walks.handlers bodyExits.throws, thrown.site ∈ sites := fun thrown member =>
    sited.told thrown (List.mem_of_mem_filter member)
  obtain ⟨final,added⟩ := addThrows_departs told joined known
  refine ⟨bodyExits,middle,caught,after,walked,handled,final,fun handler member site leads => ?_,
    (reads.either arms).congr fun exit definition => ?_⟩
  · obtain ⟨thrown,inside,rfl⟩ := (leads_throw (fun site => follows.leaves (.throws site)) site).mp leads
    exact linked handler member thrown inside
  rw [combinedExits,added,merged,members,or_iff_right not_departs_none,or_right_comm]

theorem cleanedUp_tracks {region cleanup : Region Departure} {state : WriterState} {exits final : FlowExits}
    {rows : List CleanupRow} {ctx after : TransferCtx} (sited : Sited sites exits.throws)
    (each : ∀ departure, Tracks table state (region.leaves · departure) (Departs exits departure))
    (routed : Routed table facts sites cleanup (exits.departures order) .none ctx rows final after) (departure : Departure) :
    Tracks table state ((region.cleanedUp cleanup).leaves · departure) (Departs final departure) := by
  have keeps : ∀ row ∈ rows, KeptFor exits row.state row.incoming := fun row member => by
    refine (@mem_departures exits order row.state row.incoming).mp ?_
    rw [← routed.sources]
    exact List.mem_map_of_mem member
  have through : ∀ row ∈ rows, ∀ exit, Tracks table state (fun ops => ∃ front back, ops = front ++ back ∧ region.leaves front row.incoming ∧
      cleanup.leaves back exit) (row.departs exit) := fun row member exit =>
    ((each row.incoming).congr (fun _ => Iff.rfl) (departs_kept sited (keeps row member))).follow (routed.tracks row member exit)
  have resumes : ∀ row ∈ rows, Tracks table state (fun ops => ∃ front back, ops = front ++ back ∧ region.leaves front row.incoming ∧
      ((cleanup.leaves back .falls ∧ departure = row.incoming) ∨ (cleanup.leaves back departure ∧ departure ≠ .falls)))
      (row.resumed departure) := by
    intro row member
    refine ((Tracks.only fun _ : departure = row.incoming => through row member .falls).or
      (Tracks.only fun _ : departure ≠ .falls => through row member departure)).congr (fun ops => ?_) fun definition => or_congr_right and_comm
    constructor
    · intro either
      rcases either with ⟨same,front,back,rfl,leaves,falls⟩ | ⟨other,front,back,rfl,leaves,exits⟩
      · exact ⟨front,back,rfl,leaves,.inl ⟨falls,same⟩⟩
      · exact ⟨front,back,rfl,leaves,.inr ⟨exits,other⟩⟩
    · intro found
      obtain ⟨front,back,rfl,leaves,⟨falls,same⟩ | ⟨exits,other⟩⟩ := found
      · exact .inl ⟨same,front,back,rfl,leaves,falls⟩
      · exact .inr ⟨other,front,back,rfl,leaves,exits⟩
  refine (Tracks.any fun row : {row // row ∈ rows} => resumes row.1 row.2).congr (fun ops => ?_) fun definition => ?_
  · constructor
    · intro found
      obtain ⟨⟨row,_⟩,front,back,same,leaves,either⟩ := found
      exact ⟨front,back,row.incoming,same,leaves,either⟩
    · intro found
      obtain ⟨front,back,incoming,same,leaves,either⟩ := found
      obtain ⟨kept,keptFor⟩ := departs_keeps ((each incoming).sound front leaves none trivial)
      have member := (@mem_departures exits order kept incoming).mpr keptFor
      rw [← routed.sources] at member
      obtain ⟨row,inside,source⟩ := List.mem_map.mp member
      cases source
      exact ⟨⟨row,inside⟩,front,back,same,leaves,either⟩
  · rw [routed.departs,or_iff_right not_departs_none]
    simp

section
variable (told : sites.InjOn ThrowSite.throwNode)
include told

theorem cleanedUp_follows {region cleanup : Region Departure} {exits : FlowExits}
    {walk : TransferCtx → Walked} {ctx middle : TransferCtx} (sited : Sited sites exits.throws)
    (follows : Follows table facts region ctx (Departs exits) middle) (simulates : Simulates table facts sites walk cleanup)
    (steady : cleanup.steady) (raised : ∀ site, cleanup.raises site → site ∈ sites) :
    ∃ final after, applyFinallyToExits order exits (some walk) middle = some (final,after) ∧ Sited sites final.throws ∧
      middle.edges ⊆ after.edges ∧ Follows table facts (region.cleanedUp cleanup) ctx (Departs final) after := by
  have known : ∀ departure ∈ exits.departures order, departure.1.known sites := by
    intro departure member
    cases kind : departure.1 with
    | throws site =>
      have kept := (@mem_departures exits order departure.2 departure.1).mp member
      rw [kind] at kept
      obtain ⟨thrown,inside,same,_⟩ := kept
      exact same ▸ sited.told thrown inside
    | _ => trivial
  obtain ⟨final,after,rows,walked,routed⟩ := @routeFinally_routes table facts sites told walk cleanup simulates steady raised
    (exits.departures order) known .none sited_nil middle
  refine ⟨final,after,walked,routed.sited,routed.edges,⟨cleanedUp_tracks sited follows.leaves routed,follows.edges.trans routed.edges,?_,?_⟩⟩
  · intro span member
    rcases routed.lowered span member with before | here
    · exact (follows.lowered span before).imp_right .inl
    · exact .inr (.inr here)
  · intro site ops visit fresh visits
    rcases visits with here | ⟨clean,front,back,incoming,rfl,leaves,either,behind⟩
    · exact follows.visited_mono fresh here routed.edges
    · obtain ⟨kept,keptFor⟩ := departs_keeps ((follows.leaves incoming).sound front leaves none trivial)
      have member := (@mem_departures exits order kept incoming).mpr keptFor
      rw [← routed.sources] at member
      obtain ⟨row,inside,source⟩ := List.mem_map.mp member
      cases source
      have head : cleanup.clean site ∨ (exits.departures order).head? = some row.source := either.imp_right fun first =>
        departures_first sited (fun departure departs => (follows.leaves departure).present departs) first keptFor
      have between := (follows.leaves row.incoming).congr (fun _ => Iff.rfl) (departs_kept sited keptFor)
      exact (routed.visited site back visit (follows.fresh_after clean fresh) behind row inside head).mono
        (between.run_inside leaves) (Finset.Subset.refl _)

theorem walkTry_spec {regions : TryRegions}
    (simulates : TrySimulates table facts sites walks regions) (steady : regions.region.steady)
    (raised : ∀ site, regions.region.raises site → site ∈ sites) (ctx : TransferCtx) :
    ∃ exits after, walkTry order table facts walks ctx = some (exits,after) ∧ Sited sites exits.throws ∧
      (∀ handler ∈ regions.handlers, ∀ site, regions.body.leads (.throws site) → Connects handler walks.span site after.edges) ∧
      Follows table facts regions.region ctx (Departs exits) after := by
  have combined : regions.combined.steady ∧ ∀ site, regions.combined.raises site → site ∈ sites := by
    unfold TryRegions.region at steady raised
    cases found : regions.cleanup with
    | none =>
      rw [found] at steady raised
      exact ⟨steady,raised⟩
    | some cleanup =>
      rw [found] at steady raised
      exact ⟨steady.1,fun site raises => raised site (.inl raises)⟩
  obtain ⟨bodyExits,middle,caught,last,walked,handled,sited,linked,follows⟩ := combined_follows told simulates combined.1 combined.2 ctx
  have whole : ∃ final after, applyFinallyToExits order (combinedExits walks bodyExits caught) walks.cleanup last = some (final,after) ∧
      Sited sites final.throws ∧ last.edges ⊆ after.edges ∧ Follows table facts regions.region ctx (Departs final) after := by
    have cleanup := simulates.cleanup
    unfold TryRegions.region at steady raised ⊢
    cases found : walks.cleanup with
    | none =>
      rw [found] at cleanup
      cases kind : regions.cleanup with
      | none => exact ⟨_,last,rfl,sited,Finset.Subset.refl _,follows⟩
      | some region =>
        rw [kind] at cleanup
        exact nomatch cleanup
    | some walk =>
      rw [found] at cleanup
      cases kind : regions.cleanup with
      | none =>
        rw [kind] at cleanup
        exact nomatch cleanup
      | some region =>
        rw [kind] at cleanup steady raised
        cases cleanup with
        | some simulates =>
          exact cleanedUp_follows told sited follows simulates steady.2 fun site raises => raised site (.inr raises)
  obtain ⟨final,after,cleaned,outer,grows,follows⟩ := whole
  refine ⟨final,{after with lastWriter := final.fallthrough.getD ∅},?_,outer,fun handler member site leads => (linked handler member site leads).grow grows,
    follows.settle (final.fallthrough.getD ∅)⟩
  simp only [walkTry,walked,Option.bind_eq_bind,Option.bind_some]
  rw [handled]
  simp only [Option.bind_some]
  unfold combinedExits uncaughtThrows at cleaned
  rw [cleaned]
  rfl

theorem walkTry_simulates {regions : TryRegions}
    (simulates : TrySimulates table facts sites walks regions) :
    Simulates table facts sites (walkTry order table facts walks) regions.region := by
  intro steady raised ctx
  obtain ⟨exits,after,walked,sited,_,follows⟩ := walkTry_spec told simulates steady raised ctx
  exact ⟨exits,after,walked,sited,follows⟩

end

end BonsaiNinja.Idg
