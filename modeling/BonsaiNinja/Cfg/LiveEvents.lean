import BonsaiNinja.Cfg.PlacedEvents

namespace BonsaiNinja.Cfg
open Library LangApi

def placements (events : List FlowEvent) : List Placement :=
  placeAll 0 [] [] [] 0 (normalizeDeferredScopes events) startBlocks 1

def outline (events : List FlowEvent) : Flow := flowAll [] [] true 0 (normalizeDeferredScopes events)

def blockOf (functionSpan : Option Span) (events : List FlowEvent) (placement : Placement) : Nat :=
  remapId (walkerBlocks functionSpan events) 1 0 placement.block

-- A placement and its place in the outline: the graph reaches its block when control
-- gets to the place.
structure Placed (functionName : String) (functionSpan : Option Span) (events : List FlowEvent) (placement : Placement) (site : Site) :
    Prop where
  occurrence : placement.occurrence = site.occurrence
  event : placement.event = site.event
  outlines : Outlines placement.loops placement.scope site.stack
  kept : isKept (walkerBlocks functionSpan events) 1 0 placement.block = true
  reached : Reachable (buildCfgFromFlowInSpan functionName functionSpan events) (blockOf functionSpan events placement) ↔
    site.live = true

section live
variable (functionName : String) (functionSpan : Option Span) (events : List FlowEvent)

theorem landings_exit {exit j : Nat} {jumps : List Outcome} (member : j ∈ landings exit [] jumps) : j = exit := by
  obtain ⟨jump,_,rfl⟩ := member
  rw [destination_nil]

theorem walked_placements : Walked 0 [] [] [] (.all 0 (normalizeDeferredScopes events)) startBlocks 1
    (walkWithFinally 0 [] [] (normalizeDeferredScopes events) startBlocks 1).1
    (walkWithFinally 0 [] [] (normalizeDeferredScopes events) startBlocks 1).2 (placements events) :=
  walked_all [] [] [] 0 (normalizeDeferredScopes events) startBlocks 1

theorem walkedBlocks_exit (j : Nat) : ¬Edge (walkedBlocks events) 0 j := by
  have opened : Leads startBlocks 0 [] := ⟨0,false,startBlocks_exit⟩
  have kept := opened.kept (walkedBlocks_steps events) (nofun : ¬0 = 1)
  intro edge
  cases kept.edge_iff.mp edge

theorem walked_matches : List.Forall₂ (fun placement site => placement.occurrence = site.occurrence ∧ placement.event = site.event ∧
    Outlines placement.loops placement.scope site.stack ∧
    (Relation.ReflTransGen (Edge (walkedBlocks events)) 1 placement.block ↔ site.live = true))
    (placements events) (outline events).sites := by
  have walked := walked_placements events
  have grown := walked.grown startBlocks_ready trivial
  obtain ⟨alive,region,matched⟩ := walked.traced startBlocks_ready trivial [] [] ⟨rfl,rfl⟩ .nil true (outline events) rfl
  have exits := walkedBlocks_exit events
  revert exits
  unfold walkedBlocks
  dsimp only
  generalize walkWithFinally 0 [] [] (normalizeDeferredScopes events) startBlocks 1 = after at grown region matched ⊢
  intro exits
  have linked := grown.leads.link (List.not_mem_nil (a := 0))
  have entered := (startBlocks_ready.entered.later grown.steps.keeps).exit
  have steps := steps_link grown.leads (Nat.zero_le 1) entered
  have seen := region.transfer steps.edges fun i inside far j edge => by
    rw [edge_iff_view] at edge ⊢
    rwa [steps.touches.kept i inside.2 far] at edge
  rw [eq_true rfl] at seen
  refine matched.imp fun placement site same => ⟨same.occurrence,same.event,same.outlines,?_⟩
  refine Iff.trans ?_ same.live
  refine seen.reaches_iff exits (fun j edge => List.mem_singleton.mp (linked.edge_iff.mp edge)) (fun j => landings_exit) ?_
  have within := same.within.1
  have lower : startBlocks.length = 2 := rfl
  omega

theorem edge_fillSpans {blocks : Blocks} {id next : Nat} : Edge (fillSpans functionSpan blocks) id next ↔ Edge blocks id next := by
  constructor
  · intro edge
    obtain ⟨block,found,member⟩ := edge
    obtain ⟨earlier,present,_,_,same,_⟩ := getElem?_fillSpans functionSpan found
    exact ⟨earlier,present,same ▸ member⟩
  · intro edge
    obtain ⟨block,found,member⟩ := edge
    obtain ⟨later,filled,_,same,_⟩ := fillSpans_keeps functionSpan found
    exact ⟨later,filled,same ▸ member⟩

theorem walkerBlocks_events (id : Nat) : eventsOf (walkerBlocks functionSpan events) id = eventsAt (placements events) id := by
  have walked := (walked_placements events).events startBlocks_ready trivial id
  have none : eventsOf startBlocks id = [] := by
    rw [startBlocks, eventsOf_newBlock, eventsOf_newBlock]
    rfl
  rw [none, List.nil_append] at walked
  have linked : eventsOf (walkedBlocks events) id = eventsAt (placements events) id := by
    rw [walkedBlocks, eventsOf_link, walked]
  rw [← linked]
  obtain ⟨change,same,changed⟩ := @fillSpans_map (walkedBlocks events) functionSpan
  unfold eventsOf walkerBlocks
  rw [same, List.getElem?_map]
  cases (walkedBlocks events)[id]? with
  | none => rfl
  | some block => exact (changed block).2.2.2

theorem placement_kept {placement : Placement} (member : placement ∈ placements events) :
    isKept (walkerBlocks functionSpan events) 1 0 placement.block = true := by
  have held := walkerBlocks_events functionSpan events placement.block
  have among : placement.event ∈ eventsAt (placements events) placement.block :=
    List.mem_map_of_mem (List.mem_filter.mpr ⟨member,decide_eq_true rfl⟩)
  rw [← held] at among
  unfold eventsOf at among
  cases found : (walkerBlocks functionSpan events)[placement.block]? with
  | none =>
    rw [found] at among
    cases among
  | some block =>
    rw [found] at among
    by_contra lost
    have empty := ((built_compacted "" functionSpan events).dropped _ block found (Bool.eq_false_iff.mpr lost)).1
    rw [Option.elim_some, empty] at among
    cases among

theorem walkerBlocks_start : isKept (walkerBlocks functionSpan events) 1 0 1 = true := by
  obtain ⟨entry,found,_⟩ := walkerBlocks_entry functionSpan events
  exact kept_entry found

theorem placements_placed : List.Forall₂ (Placed functionName functionSpan events) (placements events) (outline events).sites := by
  have compact := built_compacted functionName functionSpan events
  have shaped := walkerBlocks_shaped functionSpan events
  have matched := List.forall₂_iff_get.mp (walked_matches events)
  refine List.forall₂_iff_get.mpr ⟨matched.1,fun i here there => ?_⟩
  obtain ⟨occurrence,event,outlines,reached⟩ := matched.2 i here there
  have kept := placement_kept functionSpan events ((placements events).get_mem ⟨i,here⟩)
  refine ⟨occurrence,event,outlines,kept,?_⟩
  refine (compact.reaches shaped (walkerBlocks_start functionSpan events) kept).trans (Iff.trans ?_ reached)
  have same : Edge (walkerBlocks functionSpan events) = Edge (walkedBlocks events) := by
    funext id next
    exact propext (edge_fillSpans functionSpan)
  rw [same]

theorem site_of {placement : Placement} (member : placement ∈ placements events) :
    ∃ site ∈ (outline events).sites, Placed functionName functionSpan events placement site := by
  obtain ⟨i,inside,rfl⟩ := List.getElem_of_mem member
  obtain ⟨same,placed⟩ := List.forall₂_iff_get.mp (placements_placed functionName functionSpan events)
  exact ⟨_,List.get_mem _ ⟨i,same ▸ inside⟩,placed i inside (same ▸ inside)⟩

theorem placement_of {site : Site} (member : site ∈ (outline events).sites) :
    ∃ placement ∈ placements events, Placed functionName functionSpan events placement site := by
  obtain ⟨i,inside,rfl⟩ := List.getElem_of_mem member
  obtain ⟨same,placed⟩ := List.forall₂_iff_get.mp (placements_placed functionName functionSpan events)
  exact ⟨_,List.get_mem _ ⟨i,same ▸ inside⟩,placed i (same ▸ inside) inside⟩

theorem graph_events {id : Nat} {block : BasicBlock}
    (found : (buildCfgFromFlowInSpan functionName functionSpan events).blocks[id]? = some block) :
    block.events = ((placements events).filter (blockOf functionSpan events · = id)).map (·.event) := by
  obtain ⟨old,earlier,present,kept,rfl,rfl⟩ := (built_compacted functionName functionSpan events).comes found
  have held := walkerBlocks_events functionSpan events old
  rw [eventsOf, present, Option.elim_some] at held
  change earlier.events = _
  rw [held, eventsAt]
  refine congrArg (List.map _) (List.filter_congr fun placement member => ?_)
  refine decide_eq_decide.mpr ⟨fun same => same ▸ rfl,fun same => ?_⟩
  exact remapId_inj (placement_kept functionSpan events member) kept same

theorem placement_occurrence {placement : Placement} (member : placement ∈ placements events) :
    (leavesAll (normalizeDeferredScopes events))[placement.occurrence]? = some placement.event := by
  have aligned : Aligned (leavesAll (normalizeDeferredScopes events)) 0 (leavesAll (normalizeDeferredScopes events)) := fun i _ => by
    rw [Nat.zero_add]
  exact (walked_placements events).occurrences aligned nofun placement member

end live

end BonsaiNinja.Cfg
