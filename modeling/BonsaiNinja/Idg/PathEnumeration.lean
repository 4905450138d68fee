import BonsaiNinja.Idg.Reachability

namespace BonsaiNinja.Idg
open Library

inductive PathTruncation where
  | none
  | maxDepth
  | maxPaths
  | probeBudget
  deriving DecidableEq, Repr

-- The explicit call stack: the newest node stands first, and `pathNextEdges` holds the
-- next edge to look at for the node at the same place.
structure PathSearch where
  out : List (List NodeId)
  path : List NodeId
  pathNextEdges : List Nat
  visited : NodeBitSet
  truncation : PathTruncation

def selectEdge (usable : NodeId → Bool) : List NodeId → Nat → Option NodeId × Nat
  | [], nextEdge => (none,nextEdge)
  | target :: rest, nextEdge => if usable target then (some target,nextEdge + 1) else selectEdge usable rest (nextEdge + 1)

namespace PathSearch

def start (nodeCount : Nat) (src : NodeId) : PathSearch :=
  ⟨[],[src],[0],(NodeBitSet.zeros nodeCount).set src,.none⟩

def pop (search : PathSearch) (cur : NodeId) : PathSearch :=
  { search with
    visited := search.visited.clear cur
    path := search.path.tail
    pathNextEdges := search.pathNextEdges.tail }

def usable (search : PathSearch) (cut : NodeBitSet) (target : NodeId) : Bool :=
  cut.contains target && !search.visited.contains target

def turn (index : ReachabilityIndex) (cut : NodeBitSet) (sink : NodeId) (maxLen : Nat) (search : PathSearch) : PathSearch :=
  match search.path,search.pathNextEdges with
  | cur :: _,nextEdge :: deeper =>
    if cur = sink then { search.pop cur with out := search.out ++ [search.path.reverse] }
    else
      let neighbours := index.forwardNeighbours cur
      if maxLen ≤ search.path.length then
        let truncation := if search.truncation = .none ∧ neighbours.any (search.usable cut) = true then .maxDepth
          else search.truncation
        { search.pop cur with truncation }
      else
        match selectEdge (search.usable cut) (neighbours.drop nextEdge) nextEdge with
        | (some target,nextEdge) =>
          { search with
            visited := search.visited.set target
            path := target :: search.path
            pathNextEdges := 0 :: nextEdge :: deeper }
        | (none,_) => search.pop cur
  | _,_ => search

def stops (search : PathSearch) (maxPaths : Nat) : Bool := search.path.isEmpty || maxPaths ≤ search.out.length

def loop (index : ReachabilityIndex) (cut : NodeBitSet) (sink : NodeId) (maxPaths maxLen : Nat) :
    Nat → PathSearch → Option (List (List NodeId) × PathTruncation)
  | 0, search => if search.stops maxPaths then some (search.out,search.truncation) else none
  | fuel + 1, search =>
    if search.stops maxPaths then some (search.out,search.truncation)
    else loop index cut sink maxPaths maxLen fuel (search.turn index cut sink maxLen)

end PathSearch

namespace ReachabilityIndex

-- How many turns a search can take below a node when `room` more nodes fit on the path.
def searchFuel (index : ReachabilityIndex) : Nat → Nat
  | 0 => 1
  | room + 1 => 1 + index.pairs.length * (1 + index.searchFuel room)

def enumeratePaths (index : ReachabilityIndex) (cut : NodeBitSet) (src sink : NodeId) (maxPaths maxLen : Nat) :
    Option (List (List NodeId) × PathTruncation) :=
  PathSearch.loop index cut sink maxPaths maxLen (index.searchFuel (index.nodeCount + 1)) (.start index.nodeCount src)

def pathsInCutWithTruncation (index : ReachabilityIndex) (src sink : NodeId) (cut : NodeBitSet) (maxPaths maxLen : Nat) :
    Option (List (List NodeId) × PathTruncation) :=
  if !cut.contains src || !cut.contains sink then some ([],.none)
  else if maxPaths = 0 then some ([],.maxPaths)
  else if maxLen = 0 then some ([],.maxDepth)
  else do
    let (out,truncation) ← index.enumeratePaths cut src sink (maxPaths + 1) maxLen
    if maxPaths < out.length then return (out.take maxPaths,.maxPaths) else return (out,truncation)

end ReachabilityIndex

-- What a depth-first search without a path bound comes across, in order.
inductive SearchEvent where
  | found (path : List NodeId)
  | cutOff
  deriving DecidableEq

namespace PathSearch
variable (index : ReachabilityIndex) (cut : NodeBitSet) (sink : NodeId) (maxPaths maxLen : Nat)

def freshInCut (path : List NodeId) (target : NodeId) : Bool := cut.contains target && !path.contains target

def events : Nat → List NodeId → List SearchEvent
  | 0, _ => []
  | _ + 1, [] => []
  | room + 1, cur :: below =>
    if cur = sink then [.found (cur :: below).reverse]
    else if maxLen ≤ (cur :: below).length then
      if (index.forwardNeighbours cur).any (freshInCut cut (cur :: below)) then [.cutOff] else []
    else ((index.forwardNeighbours cur).filter (freshInCut cut (cur :: below))).flatMap fun target =>
      events room (target :: cur :: below)

-- A bounded search stops looking once it has found enough.
def observe (seen : List (List NodeId) × PathTruncation) : SearchEvent → List (List NodeId) × PathTruncation
  | .found path => if maxPaths ≤ seen.1.length then seen else (seen.1 ++ [path],seen.2)
  | .cutOff => if maxPaths ≤ seen.1.length then seen else (seen.1,if seen.2 = .none then .maxDepth else seen.2)

def after (search : PathSearch) (cur : NodeId) (seen : List (List NodeId) × PathTruncation) : PathSearch :=
  { search.pop cur with out := seen.1, truncation := seen.2 }

theorem simple_length {path : List NodeId} {count : Nat} (distinct : path.Nodup) (inside : ∀ node ∈ path.dropLast, node < count) :
    path.length ≤ count + 1 := by
  have listed : path.dropLast.Nodup := distinct.sublist (List.dropLast_sublist _)
  have fits := (List.subperm_of_subset listed fun node member => List.mem_range.mpr (inside node member)).length_le
  rw [List.length_dropLast,List.length_range] at fits
  omega

structure Follows (search : PathSearch) : Prop where
  sized : search.visited.len = index.nodeCount
  marks : ∀ node < index.nodeCount, search.visited.contains node = true ↔ node ∈ search.path
  distinct : search.path.Nodup
  inside : ∀ node ∈ search.path.dropLast, node < index.nodeCount

variable {index} {cut} {sink} {maxPaths} {maxLen} {search : PathSearch} {cur target : NodeId} {below : List NodeId}
  {deeper : List Nat} {nextEdge room : Nat}

theorem loop_stops (stopped : search.stops maxPaths = true) (fuel : Nat) :
    loop index cut sink maxPaths maxLen fuel search = some (search.out,search.truncation) := by
  cases fuel with
  | zero => rw [loop,if_pos stopped]
  | succ fuel => rw [loop,if_pos stopped]

theorem loop_turn (going : search.stops maxPaths = false) (fuel : Nat) :
    loop index cut sink maxPaths maxLen (1 + fuel) search =
      loop index cut sink maxPaths maxLen fuel (search.turn index cut sink maxLen) := by
  rw [Nat.add_comm,loop,going]
  rfl

theorem stops_iff (path : search.path = cur :: below) : search.stops maxPaths = decide (maxPaths ≤ search.out.length) := by
  rw [stops,path]
  rfl

theorem observe_full {seen : List (List NodeId) × PathTruncation} (full : maxPaths ≤ seen.1.length) (event : SearchEvent) :
    observe maxPaths seen event = seen := by
  cases event with
  | found path => exact if_pos full
  | cutOff => exact if_pos full

theorem observe_all_full {seen : List (List NodeId) × PathTruncation} (full : maxPaths ≤ seen.1.length)
    (events : List SearchEvent) : events.foldl (observe maxPaths) seen = seen := by
  induction events with
  | nil => rfl
  | cons event rest ih => rw [List.foldl_cons,observe_full full,ih]

-- Once enough has been found, stopping at once and stopping further up are the same.
theorem loop_full (full : maxPaths ≤ search.out.length) (fuel fuel' : Nat) (events : List SearchEvent) :
    loop index cut sink maxPaths maxLen fuel search = loop index cut sink maxPaths maxLen fuel'
      (search.after cur (events.foldl (observe maxPaths) (search.out,search.truncation))) := by
  have stopped : ∀ search : PathSearch, maxPaths ≤ search.out.length → search.stops maxPaths = true := by
    intro search full
    rw [stops,decide_eq_true full,Bool.or_true]
  rw [observe_all_full full,loop_stops (stopped _ full)]
  exact (loop_stops (stopped (search.after cur (search.out,search.truncation)) full) fuel').symm

theorem Follows.usable_eq (follows : Follows index search) (inside : target < index.nodeCount) :
    search.usable cut target = freshInCut cut search.path target := by
  have same : search.visited.contains target = search.path.contains target := by
    rw [Bool.eq_iff_iff,follows.marks target inside,List.contains_iff_mem]
  rw [usable,freshInCut,same]

theorem Follows.descend (follows : Follows index search) (path : search.path = cur :: below) (inside : target < index.nodeCount)
    (fresh : target ∉ search.path) (nexts : List Nat) : Follows index { search with
      visited := search.visited.set target, path := target :: search.path, pathNextEdges := nexts } where
  sized := (NodeBitSet.set_len _ _).trans follows.sized
  marks node within := by
    rw [NodeBitSet.set_contains,follows.marks node within,List.mem_cons,follows.sized]
    exact ⟨fun found => found.elim .inr fun new => .inl new.1,fun found => found.elim (fun same => .inr ⟨same,inside⟩) .inl⟩
  distinct := List.nodup_cons.mpr ⟨fresh,follows.distinct⟩
  inside node member := by
    have shown : node ∈ target :: search.path.dropLast := by
      rw [path] at member ⊢
      exact member
    cases List.mem_cons.mp shown with
    | inl same => exact same ▸ inside
    | inr below => exact follows.inside node below

theorem Follows.restore (follows : Follows index search) (inside : target < index.nodeCount) (fresh : target ∉ search.path) :
    (search.visited.set target).clear target = search.visited := by
  refine NodeBitSet.ext_contains (by simp) fun node => ?_
  rw [NodeBitSet.clear_contains,NodeBitSet.set_contains]
  constructor
  · intro found
    exact found.1.resolve_right fun same => found.2 same.1
  · intro found
    refine ⟨.inl found,fun same => fresh ?_⟩
    rw [same] at found
    exact (follows.marks target inside).mp found

theorem turn_found (path : search.path = cur :: below) (nexts : search.pathNextEdges = nextEdge :: deeper) (found : cur = sink) :
    search.turn index cut sink maxLen = { search.pop cur with out := search.out ++ [(cur :: below).reverse] } := by
  unfold turn
  rw [path,nexts]
  exact if_pos found

section
variable (path : search.path = cur :: below) (nexts : search.pathNextEdges = nextEdge :: deeper) (differs : cur ≠ sink)
  (short : ¬maxLen ≤ (cur :: below).length)
include path nexts differs short

theorem turn_row : search.turn index cut sink maxLen =
    match selectEdge (search.usable cut) ((index.forwardNeighbours cur).drop nextEdge) nextEdge with
    | (some target,nextEdge) =>
      { search with
        visited := search.visited.set target
        path := target :: search.path
        pathNextEdges := 0 :: nextEdge :: deeper }
    | (none,_) => search.pop cur := by
  unfold turn
  rw [path,nexts]
  dsimp only
  rw [if_neg differs,if_neg short]

theorem turn_done (remaining : (index.forwardNeighbours cur).drop nextEdge = []) :
    search.turn index cut sink maxLen = search.pop cur := by
  rw [turn_row path nexts differs short,remaining]
  rfl

theorem turn_push {rest : List NodeId} (remaining : (index.forwardNeighbours cur).drop nextEdge = target :: rest)
    (taken : search.usable cut target = true) : search.turn index cut sink maxLen = { search with
      visited := search.visited.set target, path := target :: search.path, pathNextEdges := 0 :: (nextEdge + 1) :: deeper } := by
  rw [turn_row path nexts differs short,remaining,selectEdge,if_pos taken]

theorem turn_skip {rest : List NodeId} (remaining : (index.forwardNeighbours cur).drop nextEdge = target :: rest)
    (refused : search.usable cut target = false) : search.turn index cut sink maxLen =
      ({ search with pathNextEdges := (nextEdge + 1) :: deeper } : PathSearch).turn index cut sink maxLen := by
  have later : (index.forwardNeighbours cur).drop (nextEdge + 1) = rest := by
    rw [← List.drop_drop,remaining]
    rfl
  have moved : ({ search with pathNextEdges := (nextEdge + 1) :: deeper } : PathSearch).turn index cut sink maxLen = _ :=
    turn_row path rfl differs short
  have popped : ({ search with pathNextEdges := (nextEdge + 1) :: deeper } : PathSearch).pop cur = search.pop cur := by
    rw [pop,pop,nexts]
    rfl
  rw [moved,turn_row path nexts differs short,remaining,later,selectEdge,refused,popped]
  rfl

end

section
variable (bounded : ∀ pair ∈ index.pairs, pair.2 < index.nodeCount)
include bounded

-- At the length limit an edge that could have been taken marks the answer as cut off.
theorem turn_cutOff (follows : Follows index search) (path : search.path = cur :: below)
    (nexts : search.pathNextEdges = nextEdge :: deeper) (differs : cur ≠ sink) (long : maxLen ≤ (cur :: below).length) :
    search.turn index cut sink maxLen = { search.pop cur with
      truncation := if search.truncation = .none ∧
        (index.forwardNeighbours cur).any (freshInCut cut (cur :: below)) = true then .maxDepth else search.truncation } := by
  have same : (index.forwardNeighbours cur).any (search.usable cut) =
      (index.forwardNeighbours cur).any (freshInCut cut (cur :: below)) := by
    refine Bool.eq_iff_iff.mpr ?_
    rw [List.any_eq_true,List.any_eq_true]
    refine exists_congr fun target => and_congr_right fun edge => ?_
    rw [follows.usable_eq (bounded _ (ReachabilityIndex.mem_forwardNeighbours.mp edge)),path]
  unfold turn
  rw [path,nexts]
  dsimp only
  rw [if_neg differs,if_pos long,same]

-- The rest of one row, from the edge cursor on: every usable target is searched in turn.
theorem loop_row (differs : cur ≠ sink) (short : ¬maxLen ≤ (cur :: below).length)
    (child : ∀ {search : PathSearch} {target : NodeId} {nexts : List Nat}, search.path = target :: cur :: below →
      search.pathNextEdges = 0 :: nexts → Follows index search → ∃ cost ≤ index.searchFuel room, ∀ fuel,
        loop index cut sink maxPaths maxLen (cost + fuel) search = loop index cut sink maxPaths maxLen fuel
          (search.after target ((events index cut sink maxLen room search.path).foldl (observe maxPaths)
            (search.out,search.truncation))))
    (rest : List NodeId) {nextEdge : Nat} {search : PathSearch} (path : search.path = cur :: below)
    (nexts : search.pathNextEdges = nextEdge :: deeper) (remaining : (index.forwardNeighbours cur).drop nextEdge = rest)
    (follows : Follows index search) :
    ∃ cost ≤ rest.length * (1 + index.searchFuel room), ∀ fuel,
      loop index cut sink maxPaths maxLen (1 + cost + fuel) search = loop index cut sink maxPaths maxLen fuel
        (search.after cur (((rest.filter (freshInCut cut (cur :: below))).flatMap fun target =>
          events index cut sink maxLen room (target :: cur :: below)).foldl (observe maxPaths) (search.out,search.truncation))) := by
  induction rest generalizing nextEdge search with
  | nil =>
    refine ⟨0,Nat.zero_le _,fun fuel => ?_⟩
    by_cases full : maxPaths ≤ search.out.length
    · exact loop_full full _ _ _
    rw [Nat.add_zero,loop_turn (by rw [stops_iff path,decide_eq_false full]),turn_done path nexts differs short remaining]
    rfl
  | cons target rest ih =>
    by_cases full : maxPaths ≤ search.out.length
    · exact ⟨0,Nat.zero_le _,fun fuel => loop_full full _ _ _⟩
    have going : search.stops maxPaths = false := by rw [stops_iff path,decide_eq_false full]
    have later : (index.forwardNeighbours cur).drop (nextEdge + 1) = rest := by
      rw [← List.drop_drop,remaining]
      rfl
    have edge : target ∈ index.forwardNeighbours cur := List.mem_of_mem_drop (remaining ▸ List.mem_cons_self)
    have inside : target < index.nodeCount := bounded _ (ReachabilityIndex.mem_forwardNeighbours.mp edge)
    have same : search.usable cut target = freshInCut cut (cur :: below) target := by
      rw [follows.usable_eq inside,path]
    cases taken : freshInCut cut (cur :: below) target with
    | false =>
      have stays : ({ search with pathNextEdges := (nextEdge + 1) :: deeper } : PathSearch).stops maxPaths = false := going
      obtain ⟨cost,bound,run⟩ := ih
        (show ({ search with pathNextEdges := (nextEdge + 1) :: deeper } : PathSearch).path = cur :: below from path) rfl later
        ⟨follows.sized,follows.marks,follows.distinct,follows.inside⟩
      refine ⟨cost,?_,fun fuel => ?_⟩
      · rw [List.length_cons,Nat.succ_mul]
        omega
      · have moved := run fuel
        rw [Nat.add_assoc,loop_turn stays] at moved
        rw [List.filter_cons_of_neg (by simp [taken]),Nat.add_assoc,loop_turn going,
          turn_skip path nexts differs short remaining (same.trans taken),moved,after,after,pop,pop,nexts]
        rfl
    | true =>
      have fresh : target ∉ search.path := by
        rw [freshInCut,Bool.and_eq_true,Bool.not_eq_true',← path] at taken
        intro member
        rw [List.contains_iff_mem.mpr member] at taken
        cases taken.2
      obtain ⟨down,small,descend⟩ := child (show ({ search with
        visited := search.visited.set target, path := target :: search.path,
        pathNextEdges := 0 :: (nextEdge + 1) :: deeper } : PathSearch).path = target :: cur :: below by rw [path]) rfl
        (follows.descend path inside fresh _)
      generalize found : (events index cut sink maxLen room (target :: search.path)).foldl (observe maxPaths)
        (search.out,search.truncation) = seen at descend
      -- Back at `cur`, with the cursor behind the edge.
      have back : ({ search with
          visited := search.visited.set target, path := target :: search.path,
          pathNextEdges := 0 :: (nextEdge + 1) :: deeper } : PathSearch).after target seen =
          { search with out := seen.1, truncation := seen.2, pathNextEdges := (nextEdge + 1) :: deeper } := by
        rw [after,pop]
        dsimp only
        rw [follows.restore inside fresh]
        rfl
      obtain ⟨cost,bound,run⟩ := ih (show ({ search with
        out := seen.1, truncation := seen.2, pathNextEdges := (nextEdge + 1) :: deeper } : PathSearch).path = cur :: below from path)
        rfl later ⟨follows.sized,follows.marks,follows.distinct,follows.inside⟩
      refine ⟨down + (1 + cost),?_,fun fuel => ?_⟩
      · rw [List.length_cons,Nat.succ_mul]
        omega
      · rw [Nat.add_assoc,loop_turn going,turn_push path nexts differs short remaining (same.trans taken),Nat.add_assoc,descend,
          back,run,List.filter_cons_of_pos taken,List.flatMap_cons,List.foldl_append,← path,found,after,after,pop,pop,nexts]
        rfl

theorem loop_events (room : Nat) {cur : NodeId} {below : List NodeId} {deeper : List Nat} {search : PathSearch}
    (path : search.path = cur :: below) (nexts : search.pathNextEdges = 0 :: deeper) (follows : Follows index search)
    (depth : room + search.path.length = index.nodeCount + 2) :
    ∃ cost ≤ index.searchFuel room, ∀ fuel, loop index cut sink maxPaths maxLen (cost + fuel) search =
      loop index cut sink maxPaths maxLen fuel (search.after cur
        ((events index cut sink maxLen room search.path).foldl (observe maxPaths) (search.out,search.truncation))) := by
  induction room generalizing cur below deeper search with
  | zero =>
    have bound := simple_length follows.distinct follows.inside
    omega
  | succ room ih =>
    by_cases full : maxPaths ≤ search.out.length
    · exact ⟨0,Nat.zero_le _,fun fuel => loop_full full _ _ _⟩
    have going : search.stops maxPaths = false := by rw [stops_iff path,decide_eq_false full]
    have lower : 1 ≤ index.searchFuel (room + 1) := Nat.le_add_right _ _
    by_cases found : cur = sink
    · refine ⟨1,lower,fun fuel => ?_⟩
      have seen : observe maxPaths (search.out,search.truncation) (.found (cur :: below).reverse) =
          (search.out ++ [(cur :: below).reverse],search.truncation) := if_neg full
      rw [loop_turn going,turn_found path nexts found,path,events,if_pos found,List.foldl_cons,seen]
      rfl
    by_cases short : maxLen ≤ (cur :: below).length
    · refine ⟨1,lower,fun fuel => ?_⟩
      rw [loop_turn going,turn_cutOff bounded follows path nexts found short,path,events,if_neg found,if_pos short]
      cases more : (index.forwardNeighbours cur).any (freshInCut cut (cur :: below)) with
      | false =>
        simp only [Bool.false_eq_true,and_false,if_false,List.foldl_nil]
        rfl
      | true =>
        have seen : observe maxPaths (search.out,search.truncation) .cutOff =
            (search.out,if search.truncation = .none then .maxDepth else search.truncation) := if_neg full
        simp only [and_true,if_true,List.foldl_cons,List.foldl_nil,seen]
        rfl
    obtain ⟨cost,bound,run⟩ := loop_row bounded found short (fun {deep _ _} path nexts follows => by
      refine ih path nexts follows ?_
      rw [path]
      rw [‹search.path = _›] at depth
      simp only [List.length_cons] at depth ⊢
      omega) (index.forwardNeighbours cur) path nexts rfl follows
    refine ⟨1 + cost,?_,fun fuel => ?_⟩
    · have row : (index.forwardNeighbours cur).length ≤ index.pairs.length := by
        rw [ReachabilityIndex.forwardNeighbours,List.length_map]
        exact List.length_filter_le _ _
      have whole := Nat.mul_le_mul_right (1 + index.searchFuel room) row
      rw [ReachabilityIndex.searchFuel]
      omega
    · rw [run,path,events,if_neg found,if_neg short]

end

theorem start_follows (index : ReachabilityIndex) (src : NodeId) : Follows index (start index.nodeCount src) where
  sized := (NodeBitSet.set_len _ _).trans (NodeBitSet.zeros_len _)
  marks node within := by
    rw [start,NodeBitSet.set_contains,NodeBitSet.zeros_contains,NodeBitSet.zeros_len,List.mem_singleton]
    constructor
    · intro found
      exact found.elim (fun never => by cases never) fun new => new.1
    · intro same
      exact .inr ⟨same,same ▸ within⟩
  distinct := List.nodup_singleton _
  inside node member := by cases member

end PathSearch

-- The loop always ends, with what the unbounded search sees until it has enough.
theorem ReachabilityIndex.enumeratePaths_eq {index : ReachabilityIndex} (bounded : ∀ pair ∈ index.pairs, pair.2 < index.nodeCount)
    (cut : NodeBitSet) (src sink : NodeId) (maxPaths maxLen : Nat) :
    index.enumeratePaths cut src sink maxPaths maxLen = some
      ((PathSearch.events index cut sink maxLen (index.nodeCount + 1) [src]).foldl (PathSearch.observe maxPaths) ([],.none)) := by
  obtain ⟨cost,bound,run⟩ : ∃ cost ≤ index.searchFuel (index.nodeCount + 1), ∀ fuel,
      PathSearch.loop index cut sink maxPaths maxLen (cost + fuel) (.start index.nodeCount src) =
        PathSearch.loop index cut sink maxPaths maxLen fuel ((PathSearch.start index.nodeCount src).after src
          ((PathSearch.events index cut sink maxLen (index.nodeCount + 1) [src]).foldl (PathSearch.observe maxPaths) ([],.none))) :=
    PathSearch.loop_events bounded _ rfl rfl (PathSearch.start_follows index src) rfl
  have enough := run (index.searchFuel (index.nodeCount + 1) - cost)
  rw [Nat.add_sub_cancel' bound] at enough
  rw [enumeratePaths,enough,PathSearch.loop_stops rfl]
  rfl

end BonsaiNinja.Idg
