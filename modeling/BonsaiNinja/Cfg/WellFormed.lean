import BonsaiNinja.Cfg.BuilderTraces
import BonsaiNinja.Cfg.WalkGrowth

namespace BonsaiNinja.Cfg
open Library LangApi

def Reachable (graph : Graph) (id : BasicBlockId) : Prop := Relation.ReflTransGen (Edge graph.blocks) graph.entry id

structure WellFormed (graph : Graph) : Prop where
  ids : ∀ (id : Nat) (block : BasicBlock), graph.blocks[id]? = some block → block.id = id
  inRange : ∀ (id : Nat) (block : BasicBlock), graph.blocks[id]? = some block →
    ∀ next ∈ block.successors, next < graph.blocks.length
  nodup : ∀ (id : Nat) (block : BasicBlock), graph.blocks[id]? = some block → block.successors.Nodup
  few : ∀ (id : Nat) (block : BasicBlock), graph.blocks[id]? = some block → block.successors.length ≤ 2
  entry : ∃ block, graph.blocks[graph.entry]? = some block ∧ block.syntheticKind = some .entry
  exit : ∃ block, graph.blocks[graph.exit]? = some block ∧ block.syntheticKind = some .exit ∧ block.events = []
  live : ∀ (id : Nat) (block : BasicBlock), graph.blocks[id]? = some block → block.syntheticKind = some .unreachable →
    ¬Reachable graph id

-- A graph that keeps all blocks but empty placeholders that nothing enters: the kept
-- blocks are renumbered in order, and nothing else of them changes.
structure Compacted (blocks : Blocks) (entry exit : BasicBlockId) (graph : Graph) : Prop where
  entered : graph.entry = remapId blocks entry exit entry
  exited : graph.exit = remapId blocks entry exit exit
  dropped : ∀ (id : Nat) (block : BasicBlock), blocks[id]? = some block → isKept blocks entry exit id = false →
    block.events = [] ∧ block.syntheticKind = some .unreachable ∧ ∀ other, ¬Edge blocks other id
  ordered : ∀ id next, isKept blocks entry exit id = true → isKept blocks entry exit next = true → id < next →
    remapId blocks entry exit id < remapId blocks entry exit next
  onto : ∀ id < graph.blocks.length, ∃ old, isKept blocks entry exit old = true ∧ remapId blocks entry exit old = id
  moved : ∀ (id : Nat) (block : BasicBlock), blocks[id]? = some block → isKept blocks entry exit id = true →
    graph.blocks[remapId blocks entry exit id]? = some {block with
      id := remapId blocks entry exit id
      successors := block.successors.map (remapId blocks entry exit)}
  edges : ∀ id next, isKept blocks entry exit id = true → isKept blocks entry exit next = true →
    (Edge graph.blocks (remapId blocks entry exit id) (remapId blocks entry exit next) ↔ Edge blocks id next)

section compaction
variable {blocks : Blocks} {entry exit id next : Nat} {block : BasicBlock} {graph : Graph}

theorem kept_entry (found : blocks[entry]? = some block) : isKept blocks entry exit entry = true :=
  isKept_iff.mpr ⟨block,found,by simp [keepBlock]⟩

theorem kept_exit (found : blocks[exit]? = some block) : isKept blocks entry exit exit = true :=
  isKept_iff.mpr ⟨block,found,by simp [keepBlock]⟩

theorem kept_enterable (entered : Enterable blocks next) (edge : Edge blocks id next) : isKept blocks entry exit next = true := by
  obtain ⟨block,found,_⟩ := entered
  obtain ⟨source,present,member⟩ := edge
  refine isKept_iff.mpr ⟨block,found,?_⟩
  unfold keepBlock
  rw [Bool.or_eq_true]
  exact .inr (List.any_eq_true.mpr ⟨source,List.mem_of_getElem? present,decide_eq_true member⟩)

theorem getElem?_compactIds (shaped : Shaped blocks) (found : blocks[id]? = some block) (kept : isKept blocks entry exit id = true) :
    (compactIds blocks entry exit).2.2[remapId blocks entry exit id]? = some {block with
      id := remapId blocks entry exit id
      successors := block.successors.map (remapId blocks entry exit)} := by
  obtain ⟨other,present,keeps⟩ := isKept_iff.mp kept
  cases found.symm.trans present
  have row : blocks.zipIdx[id]? = some (block,id) := by
    rw [List.getElem?_zipIdx, found]
    simp
  have moved := getElem?_kept (fun row : BasicBlock × Nat => keepBlock blocks entry exit row.2 row.1)
    (fun row : BasicBlock × Nat => {row.1 with
      id := remapId blocks entry exit row.2
      successors := (row.1.successors.filter (isKept blocks entry exit)).map (remapId blocks entry exit)}) row keeps
  have all : block.successors.filter (isKept blocks entry exit) = block.successors :=
    List.filter_eq_self.mpr fun next member =>
      kept_enterable (shaped.enterable id block found next member) ⟨block,found,member⟩
  dsimp only at moved
  rw [all] at moved
  exact moved

theorem compactIds_onto (inside : id < (compactIds blocks entry exit).2.2.length) :
    ∃ old, isKept blocks entry exit old = true ∧ remapId blocks entry exit old = id := by
  obtain ⟨n,row,found,keeps,count,_⟩ := exists_kept (fun row : BasicBlock × Nat => keepBlock blocks entry exit row.2 row.1)
    (fun row : BasicBlock × Nat => {row.1 with
      id := remapId blocks entry exit row.2
      successors := (row.1.successors.filter (isKept blocks entry exit)).map (remapId blocks entry exit)})
    (List.getElem?_eq_getElem inside)
  rw [List.getElem?_zipIdx] at found
  obtain ⟨block,present,rfl⟩ := Option.map_eq_some_iff.mp found
  rw [Nat.zero_add] at keeps
  exact ⟨n,isKept_iff.mpr ⟨block,present,keeps⟩,count⟩

theorem dropped_of_not_kept (shaped : Shaped blocks) (found : blocks[id]? = some block) (lost : isKept blocks entry exit id = false) :
    block.events = [] ∧ block.syntheticKind = some .unreachable ∧ ∀ other, ¬Edge blocks other id := by
  rw [isKept, found, Option.any_some, keepBlock, Bool.or_eq_false_iff, Bool.or_eq_false_iff, Bool.or_eq_false_iff] at lost
  obtain ⟨⟨⟨_,empty⟩,kind⟩,apart⟩ := lost
  refine ⟨by simpa using empty,?_,fun other edge => ?_⟩
  · cases same : block.syntheticKind with
    | none => exact absurd same (shaped.kinds id block found)
    | some found => simpa [same] using kind
  · obtain ⟨source,present,member⟩ := edge
    have none := List.any_eq_false.mp apart source (List.mem_of_getElem? present)
    exact none (decide_eq_true member)

theorem compacted (shaped : Shaped blocks) (entry : Nat) (exit : Nat) (graph : Graph)
    (same : compactIds blocks entry exit = (graph.entry,graph.exit,graph.blocks)) : Compacted blocks entry exit graph := by
  have blocksSame : (compactIds blocks entry exit).2.2 = graph.blocks := by rw [same]
  have place : ∀ (id : Nat) (block : BasicBlock), blocks[id]? = some block → isKept blocks entry exit id = true →
      graph.blocks[remapId blocks entry exit id]? = some {block with
        id := remapId blocks entry exit id
        successors := block.successors.map (remapId blocks entry exit)} := fun id block found kept =>
    blocksSame ▸ getElem?_compactIds shaped found kept
  exact
    { entered := (congrArg Prod.fst same).symm
      exited := (congrArg (fun triple => triple.2.1) same).symm
      dropped := fun id block found lost => dropped_of_not_kept shaped found lost
      ordered := fun id next kept _ below => remapId_lt kept below
      onto := fun id inside => compactIds_onto (by rwa [blocksSame])
      moved := place
      edges := fun id next kept kept' => by
        obtain ⟨block,found,_⟩ := isKept_iff.mp kept
        constructor
        · intro edge
          obtain ⟨moved,present,member⟩ := edge
          cases (place id block found kept).symm.trans present
          obtain ⟨old,among,equal⟩ := List.mem_map.mp member
          have edge : Edge blocks id old := ⟨block,found,among⟩
          rwa [← remapId_inj (kept_enterable (shaped.enterable id block found old among) edge) kept' equal]
        · intro edge
          obtain ⟨other,present,member⟩ := edge
          cases found.symm.trans present
          exact ⟨_,place id block found kept,List.mem_map_of_mem member⟩ }

theorem Compacted.comes (compact : Compacted blocks entry exit graph) (found : graph.blocks[id]? = some block) :
    ∃ (old : Nat) (earlier : BasicBlock), blocks[old]? = some earlier ∧ isKept blocks entry exit old = true ∧
      remapId blocks entry exit old = id ∧ block = {earlier with
        id := id
        successors := earlier.successors.map (remapId blocks entry exit)} := by
  obtain ⟨old,kept,rfl⟩ := compact.onto id (List.getElem?_eq_some_iff.mp found).1
  obtain ⟨earlier,present,_⟩ := isKept_iff.mp kept
  exact ⟨old,earlier,present,kept,rfl,Option.some.inj (found.symm.trans (compact.moved old earlier present kept))⟩

theorem kept_target (shaped : Shaped blocks) (edge : Edge blocks id next) : isKept blocks entry exit next = true := by
  obtain ⟨block,found,member⟩ := edge
  exact kept_enterable (shaped.enterable id block found next member) ⟨block,found,member⟩

theorem Compacted.reaches (compact : Compacted blocks entry exit graph) (shaped : Shaped blocks)
    (start : isKept blocks entry exit entry = true) (kept : isKept blocks entry exit id = true) :
    Reachable graph (remapId blocks entry exit id) ↔ Relation.ReflTransGen (Edge blocks) entry id := by
  unfold Reachable
  rw [compact.entered]
  constructor
  · intro path
    have back : ∀ v, Relation.ReflTransGen (Edge graph.blocks) (remapId blocks entry exit entry) v →
        ∃ old, isKept blocks entry exit old = true ∧ remapId blocks entry exit old = v ∧
          Relation.ReflTransGen (Edge blocks) entry old := by
      intro v path
      induction path with
      | refl => exact ⟨entry,start,rfl,.refl⟩
      | tail _ edge ih =>
        obtain ⟨old,kept,rfl,before⟩ := ih
        obtain ⟨source,present,member⟩ := edge
        obtain ⟨other,earlier,found,_,same,rfl⟩ := compact.comes present
        obtain ⟨target,among,rfl⟩ := List.mem_map.mp member
        have step : Edge blocks other target := ⟨earlier,found,among⟩
        rw [remapId_inj ‹_› kept same] at step
        exact ⟨target,kept_target shaped step,rfl,before.tail step⟩
    obtain ⟨old,kept',same,before⟩ := back _ path
    rwa [← remapId_inj kept' kept same]
  · intro path
    clear kept
    induction path with
    | refl => exact .refl
    | @tail middle last before edge ih =>
      have kept : isKept blocks entry exit middle = true := by
        rcases before.cases_tail with same | ⟨_,_,step⟩
        · exact same ▸ start
        · exact kept_target shaped step
      exact ih.tail ((compact.edges _ _ kept (kept_target shaped edge)).mpr edge)

end compaction

section whole
variable {blocks : Blocks}

theorem startBlocks_shaped : Shaped startBlocks := by
  have bare : ∀ (id : Nat) (block : BasicBlock), ([] : Blocks)[id]? ≠ some block := by simp
  have none : Shaped [] := by
    constructor <;> exact fun id block found => absurd found (bare id block)
  exact (steps_newBlock "entry" .entry).shaped ((steps_newBlock "exit" .exit).shaped none)

theorem startBlocks_ready : Ready 0 [] startBlocks 1 := by
  have exit : Enterable startBlocks 0 := ⟨_,rfl,nofun⟩
  exact ⟨⟨0,false,startBlocks_entry⟩,exit,nofun⟩

theorem walked_grown (events : List FlowEvent) :
    Grown startBlocks 1 (walkWithFinally 0 [] [] (normalizeDeferredScopes events) startBlocks 1).1
      (walkWithFinally 0 [] [] (normalizeDeferredScopes events) startBlocks 1).2 [] :=
  (walked_all [] [] [] 0 (normalizeDeferredScopes events) startBlocks 1).grown startBlocks_ready trivial

theorem walkedBlocks_steps (events : List FlowEvent) : Steps startBlocks (walkedBlocks events) (· = 1) := by
  have grown := walked_grown events
  have fresh := grown.fresh
  have length : startBlocks.length = 2 := rfl
  have exit := (startBlocks_ready.entered.later grown.steps.keeps).exit
  exact (grown.steps.trans (steps_link grown.leads (Nat.zero_le 1) exit)).mono fun i inside changed => by omega

section
variable (functionSpan : Option Span)
include functionSpan

theorem fillSpans_map : ∃ change : BasicBlock → BasicBlock,
    fillSpans functionSpan blocks = blocks.map change ∧ ∀ block, (change block).id = block.id ∧
      (change block).syntheticKind = block.syntheticKind ∧ (change block).successors = block.successors ∧
      (change block).events = block.events := by
  unfold fillSpans
  split
  · refine ⟨_,rfl,fun block => ?_⟩
    split <;> exact ⟨rfl,rfl,rfl,rfl⟩
  · exact ⟨id,(List.map_id _).symm,fun _ => ⟨rfl,rfl,rfl,rfl⟩⟩

theorem getElem?_fillSpans {id : Nat} {block : BasicBlock}
    (found : (fillSpans functionSpan blocks)[id]? = some block) : ∃ earlier, blocks[id]? = some earlier ∧
      block.id = earlier.id ∧ block.syntheticKind = earlier.syntheticKind ∧ block.successors = earlier.successors ∧
      block.events = earlier.events := by
  obtain ⟨change,same,changed⟩ := @fillSpans_map blocks functionSpan
  rw [same, List.getElem?_map] at found
  obtain ⟨earlier,present,rfl⟩ := Option.map_eq_some_iff.mp found
  exact ⟨earlier,present,changed earlier⟩

theorem fillSpans_keeps {id : Nat} {block : BasicBlock} (found : blocks[id]? = some block) :
    ∃ later, (fillSpans functionSpan blocks)[id]? = some later ∧ later.syntheticKind = block.syntheticKind ∧
      later.successors = block.successors ∧ later.events = block.events := by
  obtain ⟨change,same,changed⟩ := @fillSpans_map blocks functionSpan
  rw [same, List.getElem?_map, found]
  exact ⟨_,rfl,(changed block).2⟩

theorem fillSpans_shaped (shaped : Shaped blocks) : Shaped (fillSpans functionSpan blocks) where
  ids id block found := by
    obtain ⟨earlier,present,same,_⟩ := getElem?_fillSpans functionSpan found
    rw [same]
    exact shaped.ids id earlier present
  kinds id block found := by
    obtain ⟨earlier,present,_,same,_⟩ := getElem?_fillSpans functionSpan found
    rw [same]
    exact shaped.kinds id earlier present
  nodup id block found := by
    obtain ⟨earlier,present,_,_,same,_⟩ := getElem?_fillSpans functionSpan found
    rw [same]
    exact shaped.nodup id earlier present
  few id block found := by
    obtain ⟨earlier,present,_,_,same,_⟩ := getElem?_fillSpans functionSpan found
    rw [same]
    exact shaped.few id earlier present
  enterable id block found next member := by
    obtain ⟨earlier,present,_,_,same,_⟩ := getElem?_fillSpans functionSpan found
    obtain ⟨target,found',live⟩ := shaped.enterable id earlier present next (same ▸ member)
    obtain ⟨later,filled,kind,_⟩ := fillSpans_keeps functionSpan found'
    exact ⟨later,filled,kind ▸ live⟩

end

end whole

def walkerBlocks (functionSpan : Option Span) (events : List FlowEvent) : Blocks :=
  fillSpans functionSpan (walkedBlocks events)

section graphs
variable (functionName : String) (functionSpan : Option Span) (events : List FlowEvent)

theorem walkerBlocks_shaped : Shaped (walkerBlocks functionSpan events) :=
  fillSpans_shaped functionSpan ((walkedBlocks_steps events).shaped startBlocks_shaped)

theorem walkerBlocks_entry : ∃ block, (walkerBlocks functionSpan events)[1]? = some block ∧ block.syntheticKind = some .entry := by
  obtain ⟨block,found,kind⟩ := (walkedBlocks_steps events).keeps 1 _ (rfl : startBlocks[1]? = some _)
  obtain ⟨later,filled,same,_⟩ := fillSpans_keeps functionSpan found
  exact ⟨later,filled,same.trans kind⟩

theorem walkerBlocks_exit : ∃ block, (walkerBlocks functionSpan events)[0]? = some block ∧ block.syntheticKind = some .exit ∧
    block.events = [] := by
  have steps := walkedBlocks_steps events
  obtain ⟨block,found,kind⟩ := steps.keeps 0 _ (rfl : startBlocks[0]? = some _)
  obtain ⟨node,shown,none,_⟩ := startBlocks_exit.kept steps.touches (nofun : ¬0 = 1)
  rw [viewOf, found] at shown
  cases shown
  obtain ⟨later,filled,same,_,events⟩ := fillSpans_keeps functionSpan found
  exact ⟨later,filled,same.trans kind,events.trans (List.eq_nil_of_length_eq_zero none)⟩

theorem built_compacted : Compacted (walkerBlocks functionSpan events) 1 0
    (buildCfgFromFlowInSpan functionName functionSpan events) :=
  compacted (walkerBlocks_shaped functionSpan events) 1 0 _ rfl

-- The built graph is well formed, and compaction loses nothing but empty placeholders.
theorem built_graph_well_formed : WellFormed (buildCfgFromFlowInSpan functionName functionSpan events) ∧
    Compacted (walkerBlocks functionSpan events) 1 0 (buildCfgFromFlowInSpan functionName functionSpan events) := by
  have shaped := walkerBlocks_shaped functionSpan events
  have compact := built_compacted functionName functionSpan events
  obtain ⟨entry,entryFound,entryKind⟩ := walkerBlocks_entry functionSpan events
  obtain ⟨exit,exitFound,exitKind,exitEmpty⟩ := walkerBlocks_exit functionSpan events
  generalize buildCfgFromFlowInSpan functionName functionSpan events = graph at compact ⊢
  generalize walkerBlocks functionSpan events = blocks at shaped compact entryFound exitFound ⊢
  refine ⟨?_,compact⟩
  exact
    { ids := fun id block found => by
        obtain ⟨_,_,_,_,_,rfl⟩ := compact.comes found
        rfl
      inRange := fun id block found next member => by
        obtain ⟨old,earlier,present,_,_,rfl⟩ := compact.comes found
        obtain ⟨target,among,rfl⟩ := List.mem_map.mp member
        have stays : isKept blocks 1 0 target = true := kept_target shaped ⟨earlier,present,among⟩
        obtain ⟨kept,present',_⟩ := isKept_iff.mp stays
        have moved := compact.moved target kept present' stays
        exact (List.getElem?_eq_some_iff.mp moved).1
      nodup := fun id block found => by
        obtain ⟨old,earlier,present,_,_,rfl⟩ := compact.comes found
        refine List.Nodup.map_on ?_ (shaped.nodup old earlier present)
        intro one among two among' same
        exact remapId_inj (kept_target shaped ⟨earlier,present,among⟩) (kept_target shaped ⟨earlier,present,among'⟩) same
      few := fun id block found => by
        obtain ⟨old,earlier,present,_,_,rfl⟩ := compact.comes found
        rw [List.length_map]
        exact shaped.few old earlier present
      entry := by
        rw [compact.entered]
        exact ⟨_,compact.moved 1 entry entryFound (kept_entry entryFound),entryKind⟩
      exit := by
        rw [compact.exited]
        exact ⟨_,compact.moved 0 exit exitFound (kept_exit exitFound),exitKind,exitEmpty⟩
      live := fun id block found kind reached => by
        obtain ⟨old,earlier,present,kept,same,rfl⟩ := compact.comes found
        rcases reached.cases_tail with start | ⟨before,_,edge⟩
        · rw [start, compact.entered] at same
          have here : old = 1 := remapId_inj kept (kept_entry entryFound) same
          rw [here] at present
          cases entryFound.symm.trans present
          rw [entryKind] at kind
          cases kind
        · obtain ⟨source,present',member⟩ := edge
          obtain ⟨old',earlier',found',kept',_,rfl⟩ := compact.comes present'
          obtain ⟨target,among,same'⟩ := List.mem_map.mp member
          have here : target = old := remapId_inj (kept_target shaped ⟨earlier',found',among⟩) kept (same'.trans same.symm)
          obtain ⟨other,present'',alive⟩ := shaped.enterable old' earlier' found' target among
          rw [here] at present''
          cases present.symm.trans present''
          exact alive kind }

end graphs

end BonsaiNinja.Cfg
