import BonsaiNinja.Cfg.BlockRanges
import BonsaiNinja.Library.Folds

namespace BonsaiNinja.Cfg
open Library LangApi

section compaction
variable {blocks : Blocks} {entry exit id next : Nat} {node : Node} {trace : List FlowEvent}

theorem isKept_iff : isKept blocks entry exit id = true ↔
    ∃ block, blocks[id]? = some block ∧ keepBlock blocks entry exit id block = true := by
  unfold isKept
  cases blocks[id]? with
  | none => simp
  | some block => simp

section
variable (kept : isKept blocks entry exit id = true)
include kept

theorem viewOf_compactIds :
    viewOf (compactIds blocks entry exit).2.2 (remapId blocks entry exit id) = (viewOf blocks id).map fun node =>
      {node with successors := (node.successors.filter (isKept blocks entry exit)).map (remapId blocks entry exit)} := by
  obtain ⟨block,found,keeps⟩ := isKept_iff.mp kept
  have row : blocks.zipIdx[id]? = some (block,id) := by
    rw [List.getElem?_zipIdx, found]
    simp
  have moved := getElem?_kept (fun row : BasicBlock × Nat => keepBlock blocks entry exit row.2 row.1)
    (fun row : BasicBlock × Nat => {row.1 with
      id := remapId blocks entry exit row.2
      successors := (row.1.successors.filter (isKept blocks entry exit)).map (remapId blocks entry exit)}) row keeps
  have placed : (compactIds blocks entry exit).2.2[remapId blocks entry exit id]? = some {block with
      id := remapId blocks entry exit id
      successors := (block.successors.filter (isKept blocks entry exit)).map (remapId blocks entry exit)} := moved
  rw [viewOf, placed, viewOf, found]
  rfl

theorem remapId_lt (below : id < next) :
    remapId blocks entry exit id < remapId blocks entry exit next := by
  obtain ⟨block,found,keeps⟩ := isKept_iff.mp kept
  have row : blocks.zipIdx[id]? = some (block,id) := by
    rw [List.getElem?_zipIdx, found]
    simp
  exact countP_take_lt (fun row : BasicBlock × Nat => keepBlock blocks entry exit row.2 row.1) row keeps below

theorem remapId_inj (kept' : isKept blocks entry exit next = true)
    (same : remapId blocks entry exit id = remapId blocks entry exit next) : id = next := by
  rcases Nat.lt_trichotomy id next with lower | equal | upper
  · exact absurd same (remapId_lt kept lower).ne
  · exact equal
  · exact absurd same (remapId_lt kept' upper).ne'

end

theorem isKept_successor (found : viewOf blocks id = some node) (member : next ∈ node.successors) (inside : next < blocks.length) :
    isKept blocks entry exit next = true := by
  obtain ⟨block,present,rfl⟩ := Option.map_eq_some_iff.mp found
  refine isKept_iff.mpr ⟨blocks[next],List.getElem?_eq_getElem inside,?_⟩
  unfold keepBlock
  rw [Bool.or_eq_true]
  refine .inr (List.any_eq_true.mpr ⟨block,List.mem_of_getElem? present,?_⟩)
  exact decide_eq_true member

theorem viewOf_compactIds_found (inRange : InRange blocks) (kept : isKept blocks entry exit id = true)
    (found : viewOf blocks id = some node) :
    viewOf (compactIds blocks entry exit).2.2 (remapId blocks entry exit id) =
      some {node with successors := node.successors.map (remapId blocks entry exit)} := by
  have all : node.successors.filter (isKept blocks entry exit) = node.successors :=
    List.filter_eq_self.mpr fun next member => isKept_successor found member (inRange id node found next member)
  rw [viewOf_compactIds kept, found, Option.map_some, all]

-- Only blocks that nothing enters are dropped, so no path is lost.
theorem compactIds_paths (inRange : InRange blocks) (exitKept : isKept blocks entry exit exit = true)
    (kept : isKept blocks entry exit id = true) :
    PathFrom (viewOf (compactIds blocks entry exit).2.2) (remapId blocks entry exit exit) (remapId blocks entry exit id) trace ↔
      PathFrom (viewOf blocks) exit id trace := by
  constructor
  · intro path
    generalize moved : remapId blocks entry exit id = start at path
    induction path generalizing id with
    | @finish start node found finish =>
      subst moved
      rw [viewOf_compactIds kept] at found
      obtain ⟨earlier,present,_⟩ := Option.map_eq_some_iff.mp found
      rw [← viewOf_compactIds kept, viewOf_compactIds_found inRange kept present] at found
      cases found
      have ends : Finishes exit id earlier := by
        rcases finish with last | ⟨none,returns⟩
        · exact .inl (remapId_inj kept exitKept last)
        · exact .inr ⟨List.map_eq_nil_iff.mp none,returns⟩
      have path := PathFrom.finish present ends
      exact path
    | @step start next node later found member _ ih =>
      subst moved
      rw [viewOf_compactIds kept] at found
      obtain ⟨earlier,present,_⟩ := Option.map_eq_some_iff.mp found
      rw [← viewOf_compactIds kept, viewOf_compactIds_found inRange kept present] at found
      cases found
      obtain ⟨old,among,rfl⟩ := List.mem_map.mp member
      have path := PathFrom.step present among (ih (isKept_successor present among (inRange id earlier present old among)) rfl)
      exact path
  · intro path
    induction path with
    | @finish id node found finish =>
      have placed := viewOf_compactIds_found inRange kept found
      have ends : Finishes (remapId blocks entry exit exit) (remapId blocks entry exit id)
          {node with successors := node.successors.map (remapId blocks entry exit)} := by
        rcases finish with last | ⟨none,returns⟩
        · exact .inl (by rw [last])
        · exact .inr ⟨List.map_eq_nil_iff.mpr none,returns⟩
      have path := PathFrom.finish placed ends
      exact path
    | @step id next node later found member _ ih =>
      have placed := viewOf_compactIds_found inRange kept found
      have nextKept := (isKept_successor found member (inRange id node found next member) : isKept blocks entry exit next = true)
      have path := PathFrom.step placed (List.mem_map_of_mem member) (ih nextKept)
      exact path

@[simp] theorem viewOf_fillSpans (functionSpan : Option Span) : viewOf (fillSpans functionSpan blocks) = viewOf blocks := by
  unfold fillSpans
  split
  · funext i
    rw [viewOf, viewOf, List.getElem?_map, Option.map_map]
    congr 1
    funext block
    dsimp only [Function.comp]
    split <;> rfl
  · rfl

@[simp] theorem fillSpans_length (functionSpan : Option Span) : (fillSpans functionSpan blocks).length = blocks.length := by
  unfold fillSpans
  split
  · exact List.length_map _
  · rfl

end compaction

def startBlocks : Blocks := newBlock (newBlock [] "exit" .exit) "entry" .entry

theorem startBlocks_exit : Holds (viewOf startBlocks) 0 0 [] false :=
  (holds_newBlock "exit" .exit).kept (touches_newBlock "entry" .entry) id

theorem startBlocks_entry : Holds (viewOf startBlocks) 1 0 [] false := holds_newBlock "entry" .entry

theorem startBlocks_inRange : InRange startBlocks := by
  refine ((ranges_newBlock "exit" .exit).trans (ranges_newBlock "entry" .entry)).inRange ?_
  intro id node found
  cases found

def walkedBlocks (events : List FlowEvent) : Blocks :=
  let walked := walkWithFinally 0 [] [] (normalizeDeferredScopes events) startBlocks 1
  link walked.1 walked.2 0

theorem destination_nil (exit : BasicBlockId) (outcome : Outcome) : destination exit [] outcome = (exit,0) := by
  cases outcome <;> rfl

theorem walkedBlocks_paths {events : List FlowEvent} (stay : cleanupsStayAll events = true) (trace : List FlowEvent) :
    PathFrom (viewOf (walkedBlocks events)) 0 1 trace ↔ structuredTraces events trace := by
  have around : Surroundings [] [] 0 := ⟨nofun,nofun⟩
  have builds := @walksAll 0 [] [] 0 around (normalizeDeferredScopes events) (normalize_cleanupsStayAll events stay)
    (addressesAll_scope [] _) startBlocks 1
  obtain ⟨walks,follows⟩ := builds startBlocks_entry.open (by decide) startBlocks_exit.lt
  unfold walkedBlocks
  dsimp only
  generalize walkWithFinally 0 [] [] (normalizeDeferredScopes events) startBlocks 1 = walked at walks follows ⊢
  have lower : startBlocks.length = 2 := rfl
  have fresh := walks.fresh
  have links := @touches_link walked.1 walked.2 0
  have exitHolds := (startBlocks_exit.kept walks.touches (by decide)).kept links (by omega)
  have empty : ExitEmpty (viewOf (link walked.1 walked.2 0)) 0 := by
    obtain ⟨node,found,none,last,_⟩ := exitHolds
    exact ⟨node,found,List.eq_nil_of_length_eq_zero none,last⟩
  have shows : Shows (viewOf (link walked.1 walked.2 0)) startBlocks 1 walked.1 walked.2 :=
    ⟨links.events,fun i inside _ other => links.kept i inside other⟩
  have path := follows _ empty shows
  rw [startBlocks_entry.stopOf] at path
  have ends : Ends (viewOf (link walked.1 walked.2 0)) 0 walked.2 (stopOf walked.1 walked.2) [0] :=
    (walks.opened.link List.not_mem_nil).ends (by omega) (List.cons_ne_nil _ _)
  rw [pathFrom_iff]
  constructor
  · intro found
    obtain ⟨steps,found⟩ := found
    obtain ⟨before,after,outcome,fewer,_,rfl,ran,continues⟩ := path.sound steps trace found
    have last : after = [] := by
      by_cases normal : outcome = .normal
      · subst normal
        obtain ⟨least,_,next,member,rest⟩ := ends.from_iff.mp (continues_normal.mp continues)
        cases List.mem_singleton.mp member
        exact empty.from_iff.mp rest
      · have lands := (continues_abrupt normal).mp continues
        rw [destination_nil] at lands
        rcases lands with ⟨_,none⟩ | ⟨least,_,rest⟩
        · exact none
        · exact empty.from_iff.mp rest
    rw [last, List.append_nil]
    exact ⟨outcome,ran⟩
  · intro ran
    obtain ⟨outcome,ran⟩ := ran
    have continues : Continues (viewOf (link walked.1 walked.2 0)) 0 [] [] 1 walked.2 (stopOf walked.1 walked.2) outcome [] := by
      by_cases normal : outcome = .normal
      · subst normal
        exact continues_normal.mpr (ends.from_iff.mpr ⟨0,rfl,0,List.mem_singleton_self _,empty.from_iff.mpr rfl⟩)
      · refine (continues_abrupt normal).mpr ?_
        rw [destination_nil]
        exact .inl ⟨rfl,rfl⟩
    obtain ⟨more,found⟩ := path.complete trace [] outcome 1 ran continues
    rw [List.append_nil] at found
    exact ⟨more,found⟩

theorem walkedBlocks_inRange (events : List FlowEvent) : InRange (walkedBlocks events) ∧ 2 ≤ (walkedBlocks events).length := by
  have bounded : Bounded 0 [] startBlocks := ⟨startBlocks_exit.lt,nofun⟩
  have walked := walkWithFinally_ranges [] [] (normalizeDeferredScopes events) startBlocks 1 bounded
  have whole : Ranges startBlocks (walkedBlocks events) := walked.trans (ranges_link _ _ (bounded.later walked).exit)
  exact ⟨whole.inRange startBlocks_inRange,whole.longer⟩

-- The graph has exactly the paths of the program.
theorem built_paths_are_structured_runs (functionName : String) (functionSpan : Option Span) (events : List FlowEvent)
    (stay : cleanupsStayAll events = true) (trace : List FlowEvent) :
    cfgTraces (buildCfgFromFlowInSpan functionName functionSpan events) trace ↔ structuredTraces events trace := by
  obtain ⟨inRange,length⟩ := walkedBlocks_inRange events
  have filled : InRange (fillSpans functionSpan (walkedBlocks events)) := by
    intro id node found next member
    rw [viewOf_fillSpans] at found
    rw [fillSpans_length]
    exact inRange id node found next member
  have kept : ∀ id : Nat, id = 1 ∨ id = 0 → isKept (fillSpans functionSpan (walkedBlocks events)) 1 0 id = true := by
    intro id either
    have inside : id < (fillSpans functionSpan (walkedBlocks events)).length := by
      rw [fillSpans_length]
      rcases either with rfl | rfl <;> omega
    refine isKept_iff.mpr ⟨_,List.getElem?_eq_getElem inside,?_⟩
    rcases either with rfl | rfl <;> simp [keepBlock]
  have compacted := @compactIds_paths _ 1 0 1 trace filled (kept 0 (.inr rfl)) (kept 1 (.inl rfl))
  rw [viewOf_fillSpans] at compacted
  exact compacted.trans (walkedBlocks_paths stay trace)

def earlyReturn : List FlowEvent :=
  [.loop ⟨1,0,60⟩ .while none [] [] [.try ⟨1,10,50⟩ [.return ⟨1,15,22⟩ none none none] [] [.lifecycle ⟨1,40,45⟩ [] []] none [] []]]

theorem built_paths_run_finally_first : cfgTraces (buildCfgFromFlowInSpan "early" none earlyReturn)
    [.return ⟨1,15,22⟩ none none none,.lifecycle ⟨1,40,45⟩ [] []] := by
  refine (built_paths_are_structured_runs "early" none earlyReturn (by decide) _).mpr ⟨.exit,?_⟩
  have abrupt : Outcome.exit ≠ .normal := nofun
  have body : runsAll [none] [.return ⟨1,15,22⟩ none none none] [.return ⟨1,15,22⟩ none none none] .exit :=
    .inl ⟨⟨rfl,rfl⟩,abrupt⟩
  have cleanup : runsAll [none] [.lifecycle ⟨1,40,45⟩ [] []] [.lifecycle ⟨1,40,45⟩ [] []] .normal :=
    .inr ⟨[.lifecycle ⟨1,40,45⟩ [] []],[],rfl,⟨rfl,rfl⟩,⟨rfl,rfl⟩⟩
  have tried : runsAll [none] (normalizeDeferredScopes [.try ⟨1,10,50⟩ [.return ⟨1,15,22⟩ none none none] []
      [.lifecycle ⟨1,40,45⟩ [] []] none [] []]) [.return ⟨1,15,22⟩ none none none,.lifecycle ⟨1,40,45⟩ [] []] .exit :=
    .inl ⟨⟨_,_,.exit,.normal,rfl,.inl body,cleanup,rfl⟩,abrupt⟩
  exact .inl ⟨@Looping.again _ _ .condition .body [] _ .normal .exit ⟨rfl,rfl⟩ rfl (.done tried rfl),abrupt⟩

end BonsaiNinja.Cfg
