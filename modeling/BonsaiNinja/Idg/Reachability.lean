import BonsaiNinja.Idg.NodeBitSet
import BonsaiNinja.Idg.Query
import BonsaiNinja.Library.Hops

namespace BonsaiNinja.Idg
open Library

theorem NodeBitSet.ext_contains {a b : NodeBitSet} (same : a.len = b.len)
    (members : ∀ node, a.contains node = true ↔ b.contains node = true) : a = b := by
  have bits : a.bits = b.bits := by
    refine List.ext_getElem (by rw [a.sized,b.sized,same]) fun word inside other => ?_
    refine BitVec.eq_of_getLsbD_eq fun bit below => ?_
    rw [← a.getElem_contains inside below,← b.getElem_contains other below]
    exact Bool.eq_iff_iff.mpr (members _)
  obtain ⟨_,_,_,_⟩ := a
  obtain ⟨_,_,_,_⟩ := b
  simp only at same bits
  subst same bits
  rfl

namespace Reachability
variable {neighbours : NodeId → List Nat} {allowed : NodeId → Bool} {work : Worklist} {s : Closure.Frontier NodeId} {a b : Nat}

-- The stack and the visited set of one query; the sparse forms also keep the
-- nodes in the order they were reached.
structure Worklist where
  reached : NodeBitSet
  reachedNodes : List NodeId
  pending : List NodeId

def Worklist.offer (allowed : NodeId → Bool) (work : Worklist) (target : NodeId) : Worklist :=
  if !allowed target || work.reached.contains target then work
  else ⟨work.reached.set target,work.reachedNodes ++ [target],target :: work.pending⟩

def Worklist.start (nodeCount : Nat) (allowed : NodeId → Bool) (seeds : List NodeId) : Worklist :=
  seeds.foldl (fun work seed => if nodeCount ≤ seed then work else work.offer allowed seed)
    ⟨NodeBitSet.zeros nodeCount,[],[]⟩

def Worklist.drain (neighbours : NodeId → List Nat) (allowed : NodeId → Bool) : Nat → Worklist → Option Worklist
  | fuel, work =>
    match work.pending, fuel with
    | [], _ => some work
    | _ :: _, 0 => none
    | src :: rest, fuel + 1 =>
      Worklist.drain neighbours allowed fuel ((neighbours src).foldl (Worklist.offer allowed) { work with pending := rest })

theorem Worklist.drain_idle
    (idle : work.pending = []) (fuel : Nat) : work.drain neighbours allowed fuel = some work := by
  unfold Worklist.drain
  simp only [idle]

theorem Worklist.drain_pop {src : NodeId}
    {rest : List NodeId} (waiting : work.pending = src :: rest) (fuel : Nat) :
    work.drain neighbours allowed (fuel + 1) =
      ((neighbours src).foldl (Worklist.offer allowed) { work with pending := rest }).drain neighbours allowed fuel := by
  conv_lhs => unfold Worklist.drain
  simp only [waiting]

def closureRun (neighbours : NodeId → List Nat) (nodeCount fuel : Nat) (seeds : List NodeId) (allowed : NodeId → Bool) :
    Option Worklist :=
  (Worklist.start nodeCount allowed seeds).drain neighbours allowed fuel

def bitvectorClosure (neighbours : NodeId → List Nat) (nodeCount fuel : Nat) (seeds : List NodeId) : Option NodeBitSet :=
  (closureRun neighbours nodeCount fuel seeds fun _ => true).map (·.reached)

def bitvectorClosureWithin (neighbours : NodeId → List Nat) (nodeCount fuel : Nat) (seeds : List NodeId)
    (allowed : NodeBitSet) : Option NodeBitSet :=
  (closureRun neighbours nodeCount fuel seeds allowed.contains).map (·.reached)

def sparseClosureNodes (neighbours : NodeId → List Nat) (nodeCount fuel : Nat) (seeds : List NodeId) :
    Option (List NodeId) :=
  (closureRun neighbours nodeCount fuel seeds fun _ => true).map (·.reachedNodes)

def sparseClosureNodesWithin (neighbours : NodeId → List Nat) (nodeCount fuel : Nat) (seeds : List NodeId)
    (allowed : NodeBitSet) : Option (List NodeId) :=
  (closureRun neighbours nodeCount fuel seeds allowed.contains).map (·.reachedNodes)

structure Levels (nodeCount : Nat) where
  reached : NodeBitSet
  frontier : NodeBitSet
  sized : reached.len = nodeCount

def targetsOf (neighbours : NodeId → List Nat) (nodeCount : Nat) (frontier : NodeBitSet) : NodeBitSet :=
  frontier.iter.foldl (fun next src => (neighbours src).foldl NodeBitSet.set next) (NodeBitSet.zeros nodeCount)

theorem targetsOf_len (neighbours : NodeId → List Nat) (nodeCount : Nat) (frontier : NodeBitSet) :
    (targetsOf neighbours nodeCount frontier).len = nodeCount := by
  unfold targetsOf
  suffices kept : ∀ (sources : List NodeId) (next : NodeBitSet),
      (sources.foldl (fun next src => (neighbours src).foldl NodeBitSet.set next) next).len = next.len from kept _ _
  intro sources
  induction sources with
  | nil => intro next; rfl
  | cons src rest ih => intro next; exact (ih _).trans (NodeBitSet.fold_set_len next (neighbours src))

theorem Levels.same_len (neighbours : NodeId → List Nat) (s : Levels nodeCount) :
    (targetsOf neighbours nodeCount s.frontier).len = s.reached.len :=
  (targetsOf_len neighbours nodeCount s.frontier).trans s.sized.symm

def Levels.advance (neighbours : NodeId → List Nat) (s : Levels nodeCount) : Levels nodeCount :=
  let next := targetsOf neighbours nodeCount s.frontier
  let newFrontier := next.difference s.reached (s.same_len neighbours)
  { reached := s.reached.unionInplace newFrontier (s.same_len neighbours).symm
    frontier := newFrontier
    sized := s.sized }

def Levels.run (neighbours : NodeId → List Nat) : Nat → Levels nodeCount → Levels nodeCount
  | 0, s => s
  | hops + 1, s => if s.frontier.isZero then s else Levels.run neighbours hops (s.advance neighbours)

def bitvectorBoundedClosure (neighbours : NodeId → List Nat) (nodeCount : Nat) (seeds : List NodeId) (kHops : Nat) :
    NodeBitSet :=
  let reached := NodeBitSet.fromSeed nodeCount seeds
  (Levels.run neighbours kHops ⟨reached,reached,NodeBitSet.fromSeed_len nodeCount seeds⟩).reached

variable (index : ReachabilityIndex)

def forwardClosure (fuel : Nat) (seeds : List NodeId) : Option NodeBitSet :=
  bitvectorClosure index.forwardNeighbours index.nodeCount fuel seeds

def forwardClosureNodes (fuel : Nat) (seeds : List NodeId) : Option (List NodeId) :=
  sparseClosureNodes index.forwardNeighbours index.nodeCount fuel seeds

def forwardClosureWithin (fuel : Nat) (seeds : List NodeId) (allowed : NodeBitSet) : Option NodeBitSet :=
  bitvectorClosureWithin index.forwardNeighbours index.nodeCount fuel seeds allowed

def forwardClosureNodesWithin (fuel : Nat) (seeds : List NodeId) (allowed : NodeBitSet) : Option (List NodeId) :=
  sparseClosureNodesWithin index.forwardNeighbours index.nodeCount fuel seeds allowed

def backwardClosure (fuel : Nat) (seeds : List NodeId) : Option NodeBitSet :=
  bitvectorClosure index.backwardNeighbours index.nodeCount fuel seeds

def cut (fuel : Nat) (sources sinks : List NodeId) : Option NodeBitSet := do
  let forward ← forwardClosure index fuel sources
  let backward ← backwardClosure index fuel sinks
  if same : forward.len = backward.len then return forward.intersect backward same else none

def forwardNeighbourhood (node : NodeId) (kHops : Nat) : NodeBitSet :=
  bitvectorBoundedClosure index.forwardNeighbours index.nodeCount [node] kHops

structure Worklist.Follows (nodeCount : Nat) (work : Worklist) (s : Closure.Frontier NodeId) : Prop where
  nodes : work.reachedNodes.reverse = s.reached
  pending : work.pending = s.pending
  sized : work.reached.len = nodeCount
  members : ∀ node, work.reached.contains node = true ↔ node ∈ s.reached

theorem offer_follows {nodeCount : Nat}
    (follows : work.Follows nodeCount s) {target : NodeId} (inside : target < nodeCount) (admitted : allowed target = true) :
    (work.offer allowed target).Follows nodeCount (s.visit target) := by
  unfold Worklist.offer Closure.Frontier.visit
  by_cases seen : target ∈ s.reached
  · rw [if_pos (by simp [(follows.members target).mpr seen]),if_pos seen]
    exact follows
  · have fresh : work.reached.contains target = false := by
      rw [Bool.eq_false_iff]
      exact fun found => seen ((follows.members target).mp found)
    rw [if_neg (by simp [admitted,fresh]),if_neg seen]
    refine ⟨by simp [follows.nodes],by simp [follows.pending],by simp [follows.sized],fun node => ?_⟩
    rw [NodeBitSet.set_contains,follows.members,follows.sized,List.mem_cons]
    constructor
    · intro found
      exact found.elim .inr fun new => .inl new.1
    · intro found
      exact found.elim (fun same => .inr ⟨same,inside⟩) .inl

theorem offerAll_follows (allowed : NodeId → Bool) {nodeCount : Nat} {targets : List NodeId}
    (inside : ∀ target ∈ targets, target < nodeCount)
    (follows : work.Follows nodeCount s) :
    (targets.foldl (Worklist.offer allowed) work).Follows nodeCount (s.visitAll (targets.filter allowed)) := by
  induction targets generalizing work s with
  | nil => exact follows
  | cons target rest ih =>
    have later : ∀ x ∈ rest, x < nodeCount := fun x member => inside x (List.mem_cons_of_mem _ member)
    rw [List.foldl_cons]
    cases admitted : allowed target with
    | true =>
      rw [List.filter_cons_of_pos admitted]
      exact ih later (offer_follows follows (inside target List.mem_cons_self) admitted)
    | false =>
      rw [List.filter_cons_of_neg (by simp [admitted]),show work.offer allowed target = work by simp [Worklist.offer,admitted]]
      exact ih later follows

theorem start_eq (nodeCount : Nat) (allowed : NodeId → Bool) (seeds : List NodeId) :
    Worklist.start nodeCount allowed seeds =
      (seeds.filter (· < nodeCount)).foldl (Worklist.offer allowed) ⟨NodeBitSet.zeros nodeCount,[],[]⟩ := by
  unfold Worklist.start
  rw [List.foldl_filter]
  congr
  funext work seed
  by_cases outside : nodeCount ≤ seed
  · rw [if_pos outside,if_neg (by simpa using outside)]
  · rw [if_neg outside,if_pos (by simpa using outside)]

-- Each pop spends one unit of fuel and every node is pushed once, so fuel for all
-- nodes empties the stack.
theorem drain_follows {nodeCount : Nat}
    (inside : ∀ x, ∀ y ∈ neighbours x, y < nodeCount) (fuel : Nat)
    (follows : work.Follows nodeCount s) (nodup : s.reached.Nodup) (within : ∀ x ∈ s.reached, x < nodeCount)
    (enough : nodeCount + s.pending.length ≤ fuel + s.reached.length) :
    ∃ final, work.drain neighbours allowed fuel = some final ∧ final.reached.len = nodeCount ∧
      final.reachedNodes.reverse = Closure.expand (fun x => (neighbours x).filter allowed) fuel s ∧
      ∀ node, final.reached.contains node = true ↔ node ∈ final.reachedNodes := by
  induction fuel generalizing work s with
  | zero =>
    have fits : s.reached.length ≤ nodeCount := by
      rw [← List.toFinset_card_of_nodup nodup,← Finset.card_range nodeCount]
      exact Finset.card_le_card fun x member => Finset.mem_range.mpr (within x (List.mem_toFinset.mp member))
    have empty : s.pending = [] := List.length_eq_zero_iff.mp (by omega)
    have stopped : work.pending = [] := follows.pending.trans empty
    refine ⟨work,Worklist.drain_idle stopped _,follows.sized,follows.nodes,fun node => ?_⟩
    rw [follows.members,← follows.nodes,List.mem_reverse]
  | succ fuel ih =>
    obtain ⟨reached,pending⟩ := s
    cases pending with
    | nil =>
      have stopped : work.pending = [] := follows.pending
      refine ⟨work,Worklist.drain_idle stopped _,follows.sized,follows.nodes,fun node => ?_⟩
      rw [follows.members,← follows.nodes,List.mem_reverse]
    | cons src rest =>
      have popped : work.pending = src :: rest := follows.pending
      have growth := Closure.visitAll_growth ⟨reached,rest⟩ ((neighbours src).filter allowed)
      simp only [List.length_cons] at enough growth
      have started : Worklist.Follows nodeCount { work with pending := rest } ⟨reached,rest⟩ :=
        ⟨follows.nodes,rfl,follows.sized,follows.members⟩
      have result := ih (offerAll_follows allowed (inside src) started) (Closure.visitAll_nodup nodup)
        (fun x found => ?_) (by omega)
      · rw [Worklist.drain_pop popped]
        exact result
      · rcases Closure.visitAll_reached.mp found with target | old
        · exact inside src x (List.mem_of_mem_filter target)
        · exact within x old

theorem closureRun_exact {nodeCount fuel : Nat} (enough : nodeCount ≤ fuel)
    (inside : ∀ x, ∀ y ∈ neighbours x, y < nodeCount) (seeds : List NodeId) (allowed : NodeId → Bool) :
    ∃ final, closureRun neighbours nodeCount fuel seeds allowed = some final ∧ final.reached.len = nodeCount ∧
      final.reachedNodes.Nodup ∧ (∀ node, final.reached.contains node = true ↔ node ∈ final.reachedNodes) ∧
      ∀ node, node ∈ final.reachedNodes ↔ ∃ seed ∈ seeds, seed < nodeCount ∧ allowed seed = true ∧
        Relation.ReflTransGen (fun a b => b ∈ neighbours a ∧ allowed b = true) seed node := by
  have kept : ∀ seed ∈ seeds.filter (· < nodeCount), seed < nodeCount :=
    fun seed member => of_decide_eq_true (List.mem_filter.mp member).2
  have empty : Worklist.Follows nodeCount ⟨NodeBitSet.zeros nodeCount,[],[]⟩ ⟨[],[]⟩ :=
    ⟨rfl,rfl,rfl,fun node => by simp⟩
  have started := offerAll_follows allowed kept empty
  have growth := Closure.visitAll_growth (⟨[],[]⟩ : Closure.Frontier NodeId) ((seeds.filter (· < nodeCount)).filter allowed)
  simp only [List.length_nil] at growth
  have within : ∀ x ∈ (Closure.Frontier.visitAll ⟨[],[]⟩ ((seeds.filter (· < nodeCount)).filter allowed)).reached,
      x < nodeCount := by
    intro x found
    rcases Closure.visitAll_reached.mp found with seed | none
    · exact kept x (List.mem_of_mem_filter seed)
    · exact absurd none List.not_mem_nil
  obtain ⟨final,run,sized,listed,members⟩ :=
    drain_follows inside fuel started (Closure.visitAll_nodup List.nodup_nil) within (by omega)
  refine ⟨final,by rw [closureRun,start_eq]; exact run,sized,?_,members,fun node => ?_⟩
  · rw [← List.nodup_reverse,listed]
    exact Closure.closure_nodup fuel _
  · rw [← List.mem_reverse,listed]
    refine (@Closure.mem_closure _ _ _ _ _ (Finset.range nodeCount) ?_ ?_ (by simpa using enough) node).trans ?_
    · intro x _ y edge
      exact Finset.mem_range.mpr (inside x y (List.mem_of_mem_filter edge))
    · intro x seed
      exact Finset.mem_range.mpr (kept x (List.mem_of_mem_filter seed))
    · simp only [Closure.Reachable,List.mem_filter,decide_eq_true_eq,and_assoc]

theorem targetsOf_contains {nodeCount : Nat} {frontier : NodeBitSet} {node : NodeId} :
    (targetsOf neighbours nodeCount frontier).contains node = true ↔
      node < nodeCount ∧ ∃ src, frontier.contains src = true ∧ node ∈ neighbours src := by
  suffices folded : ∀ (sources : List NodeId) (next : NodeBitSet), next.len = nodeCount →
      ((sources.foldl (fun next src => (neighbours src).foldl NodeBitSet.set next) next).contains node = true ↔
        next.contains node = true ∨ node < nodeCount ∧ ∃ src ∈ sources, node ∈ neighbours src) by
    have all := folded frontier.iter (NodeBitSet.zeros nodeCount) rfl
    simp only [NodeBitSet.zeros_contains,NodeBitSet.mem_iter,Bool.false_eq_true,false_or] at all
    exact all
  intro sources
  induction sources with
  | nil => intro next _; simp
  | cons src rest ih =>
    intro next sized
    rw [List.foldl_cons,ih _ ((NodeBitSet.fold_set_len next (neighbours src)).trans sized),NodeBitSet.fold_set_contains,sized]
    simp only [List.mem_cons,exists_eq_or_imp]
    tauto

-- After j rounds the set holds what lies within j hops, and the frontier what
-- the last round added.
structure Levels.At (edge : NodeId → NodeId → Prop) (start : NodeId) (j : Nat) (s : Levels nodeCount) : Prop where
  reached : ∀ node, s.reached.contains node = true ↔ start < nodeCount ∧ Hops.Within edge j start node
  frontier : ∀ node, s.frontier.contains node = true → s.reached.contains node = true
  expanded : ∀ a b, s.reached.contains a = true → s.frontier.contains a = false → edge a b →
    s.reached.contains b = true

theorem advance_at {edge : NodeId → NodeId → Prop} {start : NodeId}
    (edges : ∀ a b, b ∈ neighbours a ↔ edge a b) (inside : ∀ a b, edge a b → b < nodeCount) {s : Levels nodeCount}
    (now : s.At edge start j) : (s.advance neighbours).At edge start (j + 1) := by
  have fresh : ∀ node, (s.advance neighbours).frontier.contains node = true ↔
      (∃ src, s.frontier.contains src = true ∧ edge src node) ∧ s.reached.contains node = false := by
    intro node
    simp only [Levels.advance,NodeBitSet.difference_contains,Bool.and_eq_true,targetsOf_contains,Bool.not_eq_true',edges]
    constructor
    · rintro ⟨⟨_,more⟩,unseen⟩
      exact ⟨more,unseen⟩
    · rintro ⟨⟨src,member,step⟩,unseen⟩
      exact ⟨⟨inside src node step,src,member,step⟩,unseen⟩
  have grown : ∀ node, (s.advance neighbours).reached.contains node = true ↔
      s.reached.contains node = true ∨ (s.advance neighbours).frontier.contains node = true := by
    intro node
    have joined : (s.advance neighbours).reached.contains node =
        (s.reached.contains node || (s.advance neighbours).frontier.contains node) :=
      NodeBitSet.unionInplace_contains s.reached (s.advance neighbours).frontier (s.same_len neighbours).symm node
    rw [joined,Bool.or_eq_true]
  refine ⟨fun node => ?_,fun node member => (grown node).mpr (.inr member),?_⟩
  · rw [grown,fresh,Hops.within_succ,now.reached]
    constructor
    · rintro (near | ⟨⟨src,member,step⟩,_⟩)
      · exact ⟨near.1,.inl near.2⟩
      · have near := (now.reached src).mp (now.frontier src member)
        exact ⟨near.1,.inr ⟨src,near.2,step⟩⟩
    · rintro ⟨below,near | ⟨src,near,step⟩⟩
      · exact .inl ⟨below,near⟩
      · have known := (now.reached src).mpr ⟨below,near⟩
        cases seen : s.reached.contains node with
        | true => exact .inl ((now.reached node).mp seen)
        | false =>
          cases last : s.frontier.contains src with
          | true => exact .inr ⟨⟨src,last,step⟩,rfl⟩
          | false => exact absurd (now.expanded src node known last step) (by simp [seen])
  · intro a b member old step
    rw [grown] at member ⊢
    cases seen : s.reached.contains b with
    | true => exact .inl rfl
    | false =>
      right
      have known : s.reached.contains a = true := member.resolve_right (by simp [old])
      rw [fresh]
      cases last : s.frontier.contains a with
      | true => exact ⟨⟨a,last,step⟩,seen⟩
      | false => exact absurd (now.expanded a b known last step) (by simp [seen])

theorem run_at {edge : NodeId → NodeId → Prop} {start : NodeId}
    (edges : ∀ a b, b ∈ neighbours a ↔ edge a b) (inside : ∀ a b, edge a b → b < nodeCount) (k : Nat)
    {s : Levels nodeCount} (now : s.At edge start j) (node : NodeId) :
    (s.run neighbours k).reached.contains node = true ↔ start < nodeCount ∧ Hops.Within edge (j + k) start node := by
  induction k generalizing s j with
  | zero => exact now.reached node
  | succ k ih =>
    rw [Levels.run]
    cases stopped : s.frontier.isZero with
    | true =>
      have idle := (NodeBitSet.isZero_iff _).mp stopped
      rw [if_pos rfl,now.reached]
      refine and_congr_right fun below => ⟨Hops.within_mono (Nat.le_add_right _ _),fun ⟨_,_,walk⟩ => ?_⟩
      have settled : Hops.Settled edge start j := fun b c near step =>
        ((now.reached c).mp (now.expanded b c ((now.reached b).mpr ⟨below,near⟩) (idle b) step)).2
      exact settled.reaches walk.reaches
    | false =>
      rw [if_neg (by simp),ih (advance_at edges inside now),show j + 1 + k = j + (k + 1) by omega]

theorem bitvectorBoundedClosure_contains {edge : NodeId → NodeId → Prop} {nodeCount : Nat}
    (edges : ∀ a b, b ∈ neighbours a ↔ edge a b) (inside : ∀ a b, edge a b → b < nodeCount) (start : NodeId) (k : Nat)
    (node : NodeId) :
    (bitvectorBoundedClosure neighbours nodeCount [start] k).contains node = true ↔
      start < nodeCount ∧ Hops.Within edge k start node := by
  have seeded : ∀ node, (NodeBitSet.fromSeed nodeCount [start]).contains node = true ↔
      start < nodeCount ∧ Hops.Within edge 0 start node := by
    intro node
    rw [NodeBitSet.fromSeed_contains,Hops.within_zero,List.mem_singleton]
    constructor
    · rintro ⟨rfl,below⟩
      exact ⟨below,rfl⟩
    · rintro ⟨below,rfl⟩
      exact ⟨rfl,below⟩
  let initial : Levels nodeCount :=
    ⟨NodeBitSet.fromSeed nodeCount [start],NodeBitSet.fromSeed nodeCount [start],NodeBitSet.fromSeed_len nodeCount [start]⟩
  have first : initial.At edge start 0 :=
    ⟨seeded,fun _ member => member,fun _ _ member idle _ => absurd member (Bool.eq_false_iff.mp idle)⟩
  have result := run_at edges inside k first node
  rwa [Nat.zero_add] at result

abbrev EdgeOf (edges : List (Nat × Nat)) (nodeCount : Nat) (a b : Nat) : Prop :=
  (a,b) ∈ edges ∧ a < nodeCount ∧ b < nodeCount

def InducedPath (edges : List (Nat × Nat)) (nodeCount : Nat) (allowed : NodeBitSet) : Nat → Nat → Prop :=
  Relation.ReflTransGen fun a b =>
    EdgeOf edges nodeCount a b ∧ allowed.contains a = true ∧ allowed.contains b = true

variable {nodeCount fuel : Nat} (edges : List (Nat × Nat))

theorem forward_edges (a b : Nat) :
    b ∈ (ReachabilityIndex.fromPairs nodeCount edges).forwardNeighbours a ↔ EdgeOf edges nodeCount a b := by
  rw [ReachabilityIndex.mem_forwardNeighbours,ReachabilityIndex.mem_fromPairs]

theorem forward_inside (x : Nat) : ∀ y ∈ (ReachabilityIndex.fromPairs nodeCount edges).forwardNeighbours x, y < nodeCount :=
  fun y edge => ((forward_edges edges x y).mp edge).2.2

theorem forwardClosure_exact (enough : nodeCount ≤ fuel) (seeds : List NodeId) :
    ∃ reached, forwardClosure (ReachabilityIndex.fromPairs nodeCount edges) fuel seeds = some reached ∧
      reached.len = nodeCount ∧ ∀ node, reached.contains node = true ↔
        ∃ seed ∈ seeds, seed < nodeCount ∧ ReachabilityIndex.Path edges nodeCount seed node := by
  obtain ⟨final,run,sized,_,members,listed⟩ := closureRun_exact enough (forward_inside edges) seeds fun _ => true
  refine ⟨final.reached,?_,sized,fun node => ?_⟩
  · show (closureRun _ _ _ _ _).map _ = _
    exact congrArg (Option.map _) run
  · rw [members,listed]
    simp only [true_and,and_true,forward_edges]
    rfl

theorem forwardClosureNodes_exact (enough : nodeCount ≤ fuel) (seeds : List NodeId) :
    ∃ nodes, forwardClosureNodes (ReachabilityIndex.fromPairs nodeCount edges) fuel seeds = some nodes ∧
      nodes.Nodup ∧ ∀ node, node ∈ nodes ↔
        ∃ seed ∈ seeds, seed < nodeCount ∧ ReachabilityIndex.Path edges nodeCount seed node := by
  obtain ⟨final,run,_,nodup,_,listed⟩ := closureRun_exact enough (forward_inside edges) seeds fun _ => true
  refine ⟨final.reachedNodes,?_,nodup,fun node => ?_⟩
  · exact congrArg (Option.map _) run
  · rw [listed]
    simp only [true_and,and_true,forward_edges]
    rfl

theorem backwardNeighbours_reversed (nodeCount : Nat) (edges : List (Nat × Nat)) :
    (ReachabilityIndex.fromPairs nodeCount edges).backwardNeighbours =
      (ReachabilityIndex.fromPairs nodeCount (edges.map Prod.swap)).forwardNeighbours := by
  funext node
  simp only [ReachabilityIndex.backwardNeighbours,ReachabilityIndex.forwardNeighbours,ReachabilityIndex.fromPairs,
    List.filter_map,List.map_map]
  have ranged : ((fun edge : Nat × Nat => decide (edge.1 < nodeCount) && decide (edge.2 < nodeCount)) ∘ Prod.swap) =
      fun edge => decide (edge.1 < nodeCount) && decide (edge.2 < nodeCount) := by
    funext edge
    exact Bool.and_comm _ _
  rw [ranged]
  rfl

theorem backwardClosure_reversed (fuel : Nat) (seeds : List NodeId) :
    backwardClosure (ReachabilityIndex.fromPairs nodeCount edges) fuel seeds =
      forwardClosure (ReachabilityIndex.fromPairs nodeCount (edges.map Prod.swap)) fuel seeds := by
  unfold backwardClosure forwardClosure
  rw [backwardNeighbours_reversed]
  rfl

theorem path_reversed :
    ReachabilityIndex.Path (edges.map Prod.swap) nodeCount a b ↔ ReachabilityIndex.Path edges nodeCount b a := by
  unfold ReachabilityIndex.Path
  rw [← Relation.reflTransGen_swap]
  refine iff_of_eq (congrArg (fun r => Relation.ReflTransGen r b a) ?_)
  funext x y
  simp [Function.swap,and_comm]

-- A step of the restricted search starts at an allowed node, since the seed is one.
theorem induced_of_filtered {allowed : NodeBitSet} (start : allowed.contains a = true) :
    Relation.ReflTransGen (fun x y => EdgeOf edges nodeCount x y ∧ allowed.contains y = true) a b ↔
      InducedPath edges nodeCount allowed a b := by
  constructor
  · intro path
    suffices both : InducedPath edges nodeCount allowed a b ∧ allowed.contains b = true from both.1
    induction path with
    | refl => exact ⟨.refl,start⟩
    | tail _ step ih => exact ⟨ih.1.tail ⟨step.1,ih.2,step.2⟩,step.2⟩
  · intro path
    exact Relation.ReflTransGen.mono (fun _ _ step => ⟨step.1,step.2.2⟩) _ _ path

theorem closureWithin_exact (enough : nodeCount ≤ fuel) (seeds : List NodeId) (allowed : NodeBitSet) :
    ∃ reached nodes,
      forwardClosureWithin (ReachabilityIndex.fromPairs nodeCount edges) fuel seeds allowed = some reached ∧
      forwardClosureNodesWithin (ReachabilityIndex.fromPairs nodeCount edges) fuel seeds allowed = some nodes ∧
      reached.len = nodeCount ∧ nodes.Nodup ∧ (∀ node, reached.contains node = true ↔ node ∈ nodes) ∧
      ∀ node, reached.contains node = true ↔ ∃ seed ∈ seeds, seed < nodeCount ∧ allowed.contains seed = true ∧
        InducedPath edges nodeCount allowed seed node := by
  obtain ⟨final,run,sized,nodup,members,listed⟩ :=
    closureRun_exact enough (forward_inside edges) seeds allowed.contains
  refine ⟨final.reached,final.reachedNodes,congrArg (Option.map _) run,congrArg (Option.map _) run,sized,nodup,members,
    fun node => ?_⟩
  rw [members,listed]
  simp only [forward_edges]
  refine exists_congr fun seed => and_congr_right fun _ => and_congr_right fun _ => and_congr_right fun start => ?_
  exact induced_of_filtered edges start

-- Every node on a walk to a sink can reach the sink, so the walk never leaves
-- the sink's backward closure.
theorem induced_of_path {allowed : NodeBitSet} {target : Nat}
    (corridor : ∀ node, ReachabilityIndex.Path edges nodeCount node target → allowed.contains node = true)
    (path : ReachabilityIndex.Path edges nodeCount a b) (rest : ReachabilityIndex.Path edges nodeCount b target) :
    InducedPath edges nodeCount allowed a b := by
  induction path with
  | refl => exact .refl
  | tail earlier step ih =>
    have before : ReachabilityIndex.Path edges nodeCount _ target := Relation.ReflTransGen.head step rest
    exact (ih before).tail ⟨step,corridor _ before,corridor _ rest⟩

theorem cut_exact (enough : nodeCount ≤ fuel) (sources sinks : List NodeId) :
    ∃ corridor found,
      backwardClosure (ReachabilityIndex.fromPairs nodeCount edges) fuel sinks = some corridor ∧
      cut (ReachabilityIndex.fromPairs nodeCount edges) fuel sources sinks = some found ∧
      forwardClosureWithin (ReachabilityIndex.fromPairs nodeCount edges) fuel sources corridor = some found ∧
      ∀ node, found.contains node = true ↔ ∃ source ∈ sources, ∃ sink ∈ sinks, source < nodeCount ∧ sink < nodeCount ∧
        ReachabilityIndex.Path edges nodeCount source node ∧ ReachabilityIndex.Path edges nodeCount node sink := by
  obtain ⟨forward,ran,forwardLen,forwardIff⟩ := forwardClosure_exact edges enough sources
  obtain ⟨corridor,ranBack,corridorLen,reversedIff⟩ := forwardClosure_exact (edges.map Prod.swap) enough sinks
  rw [← backwardClosure_reversed] at ranBack
  have corridorIff : ∀ node, corridor.contains node = true ↔
      ∃ sink ∈ sinks, sink < nodeCount ∧ ReachabilityIndex.Path edges nodeCount node sink := by
    intro node
    rw [reversedIff]
    simp only [path_reversed]
  have same : forward.len = corridor.len := forwardLen.trans corridorLen.symm
  have found : cut (ReachabilityIndex.fromPairs nodeCount edges) fuel sources sinks =
      some (forward.intersect corridor same) := by
    simp only [cut,ran,ranBack,Option.bind_eq_bind,Option.bind_some,same,dite_true]
    rfl
  have onWalk : ∀ node, (forward.intersect corridor same).contains node = true ↔
      ∃ source ∈ sources, ∃ sink ∈ sinks, source < nodeCount ∧ sink < nodeCount ∧
        ReachabilityIndex.Path edges nodeCount source node ∧ ReachabilityIndex.Path edges nodeCount node sink := by
    intro node
    rw [NodeBitSet.intersect_contains,Bool.and_eq_true,forwardIff,corridorIff]
    constructor
    · rintro ⟨⟨source,member,below,path⟩,⟨sink,ends,inside,rest⟩⟩
      exact ⟨source,member,sink,ends,below,inside,path,rest⟩
    · rintro ⟨source,member,sink,ends,below,inside,path,rest⟩
      exact ⟨⟨source,member,below,path⟩,⟨sink,ends,inside,rest⟩⟩
  obtain ⟨within,_,ranWithin,_,withinLen,_,_,withinIff⟩ := closureWithin_exact edges enough sources corridor
  have equal : within = forward.intersect corridor same := by
    refine NodeBitSet.ext_contains (withinLen.trans forwardLen.symm) fun node => ?_
    rw [withinIff,onWalk]
    constructor
    · rintro ⟨source,member,below,allowed,path⟩
      have plain : ReachabilityIndex.Path edges nodeCount source node :=
        Relation.ReflTransGen.mono (fun _ _ step => step.1) _ _ path
      have kept : corridor.contains node = true := by
        cases Relation.ReflTransGen.cases_tail path with
        | inl start => exact start ▸ allowed
        | inr step => obtain ⟨_,_,last⟩ := step; exact last.2.2
      obtain ⟨sink,ends,inside,rest⟩ := (corridorIff node).mp kept
      exact ⟨source,member,sink,ends,below,inside,plain,rest⟩
    · rintro ⟨source,member,sink,ends,below,inside,path,rest⟩
      have covered : ∀ x, ReachabilityIndex.Path edges nodeCount x sink → corridor.contains x = true :=
        fun x reaches => (corridorIff x).mpr ⟨sink,ends,inside,reaches⟩
      exact ⟨source,member,below,covered source (Relation.ReflTransGen.trans path rest),induced_of_path edges covered path rest⟩
  exact ⟨corridor,_,ranBack,found,equal ▸ ranWithin,onWalk⟩

theorem neighbourhood_exact (start : NodeId) (k : Nat) (node : NodeId) :
    (forwardNeighbourhood (ReachabilityIndex.fromPairs nodeCount edges) start k).contains node = true ↔
      start < nodeCount ∧ Hops.Within (EdgeOf edges nodeCount) k start node :=
  bitvectorBoundedClosure_contains (forward_edges edges) (fun _ _ edge => edge.2.2) start k node

theorem neighbourhood_full (enough : nodeCount ≤ fuel) (start : NodeId) {k : Nat} (hops : nodeCount ≤ k) :
    forwardClosure (ReachabilityIndex.fromPairs nodeCount edges) fuel [start] =
      some (forwardNeighbourhood (ReachabilityIndex.fromPairs nodeCount edges) start k) := by
  obtain ⟨reached,ran,sized,exactly⟩ := forwardClosure_exact edges enough [start]
  rw [ran,Option.some.injEq]
  refine NodeBitSet.ext_contains (sized.trans (Levels.sized _).symm) fun node => ?_
  rw [exactly,neighbourhood_exact]
  simp only [List.mem_singleton,exists_eq_left]
  refine and_congr_right fun below => ?_
  exact (Hops.within_of_card (Finset.mem_range.mpr below) (fun _ _ edge => Finset.mem_range.mpr edge.2.2)
    (by simpa using hops)).symm

theorem reachability_queries_exact (nodeCount fuel : Nat) (edges : List (Nat × Nat)) (enough : nodeCount ≤ fuel)
    (seeds sources sinks : List NodeId) (allowed : NodeBitSet) :
    let index := ReachabilityIndex.fromPairs nodeCount edges
    let Reached := fun node => ∃ seed ∈ seeds, seed < nodeCount ∧ ReachabilityIndex.Path edges nodeCount seed node
    (∃ reached, forwardClosure index fuel seeds = some reached ∧ ∀ node, reached.contains node = true ↔ Reached node) ∧
    (∃ nodes, forwardClosureNodes index fuel seeds = some nodes ∧ nodes.Nodup ∧ ∀ node, node ∈ nodes ↔ Reached node) ∧
    (∃ reached, backwardClosure index fuel seeds = some reached ∧
      forwardClosure (ReachabilityIndex.fromPairs nodeCount (edges.map Prod.swap)) fuel seeds = some reached) ∧
    (∃ reached nodes, forwardClosureWithin index fuel seeds allowed = some reached ∧
      forwardClosureNodesWithin index fuel seeds allowed = some nodes ∧ nodes.Nodup ∧
      (∀ node, reached.contains node = true ↔ node ∈ nodes) ∧
      ∀ node, reached.contains node = true ↔ ∃ seed ∈ seeds, seed < nodeCount ∧ allowed.contains seed = true ∧
        InducedPath edges nodeCount allowed seed node) ∧
    (∃ corridor found, backwardClosure index fuel sinks = some corridor ∧ cut index fuel sources sinks = some found ∧
      forwardClosureWithin index fuel sources corridor = some found ∧
      ∀ node, found.contains node = true ↔ ∃ source ∈ sources, ∃ sink ∈ sinks, source < nodeCount ∧ sink < nodeCount ∧
        ReachabilityIndex.Path edges nodeCount source node ∧ ReachabilityIndex.Path edges nodeCount node sink) ∧
    ∀ start k, (∀ node, (forwardNeighbourhood index start k).contains node = true ↔
        start < nodeCount ∧ Hops.Within (EdgeOf edges nodeCount) k start node) ∧
      (nodeCount ≤ k → forwardClosure index fuel [start] = some (forwardNeighbourhood index start k)) := by
  intro index Reached
  refine ⟨?_,forwardClosureNodes_exact edges enough seeds,?_,?_,cut_exact edges enough sources sinks,?_⟩
  · obtain ⟨reached,ran,_,exactly⟩ := forwardClosure_exact edges enough seeds
    exact ⟨reached,ran,exactly⟩
  · obtain ⟨reached,ran,_⟩ := forwardClosure_exact (edges.map Prod.swap) enough seeds
    exact ⟨reached,(backwardClosure_reversed edges fuel seeds).trans ran,ran⟩
  · obtain ⟨reached,nodes,ran,ranNodes,_,nodup,members,exactly⟩ := closureWithin_exact edges enough seeds allowed
    exact ⟨reached,nodes,ran,ranNodes,nodup,members,exactly⟩
  · intro start k
    exact ⟨neighbourhood_exact edges start k,neighbourhood_full edges enough start⟩

-- A cycle with a branch, and a seed outside the address space.
theorem cyclic_queries_exact :
    ∃ reached, forwardClosure (ReachabilityIndex.fromPairs 4 [(0,1),(1,0),(1,2)]) 4 [0,0,9] = some reached ∧
      ∀ node, reached.contains node = true ↔
        ∃ seed ∈ [0,0,9], seed < 4 ∧ ReachabilityIndex.Path [(0,1),(1,0),(1,2)] 4 seed node :=
  (reachability_queries_exact 4 4 [(0,1),(1,0),(1,2)] (Nat.le_refl 4) [0,0,9] [0] [2] (NodeBitSet.zeros 4)).1

end Reachability

end BonsaiNinja.Idg
