import BonsaiNinja.Idg.Place
import BonsaiNinja.Library.Closure

namespace BonsaiNinja.Idg
open Library

-- Compact adjacency in both directions. Endpoints outside the address space are
-- dropped when the index is built.
structure ReachabilityIndex where
  nodeCount : Nat
  pairs : List (Nat × Nat)

namespace ReachabilityIndex

def fromPairs (nodeCount : Nat) (edges : List (Nat × Nat)) : ReachabilityIndex :=
  ⟨nodeCount,edges.filter fun edge => edge.1 < nodeCount && edge.2 < nodeCount⟩

def forwardNeighbours (index : ReachabilityIndex) (node : NodeId) : List Nat :=
  (index.pairs.filter (·.1 == node)).map (·.2)

def backwardNeighbours (index : ReachabilityIndex) (node : NodeId) : List Nat :=
  (index.pairs.filter (·.2 == node)).map (·.1)

-- Sparse stack expansion with one visited set; a seed outside the address space
-- is skipped.
def bitvectorClosure (neighbours : NodeId → List Nat) (nodeCount : Nat) (seeds : List NodeId) : List NodeId :=
  Closure.closure neighbours nodeCount (seeds.filter (· < nodeCount))

def forwardClosure (index : ReachabilityIndex) (seeds : List NodeId) : List NodeId :=
  bitvectorClosure index.forwardNeighbours index.nodeCount seeds

def backwardClosure (index : ReachabilityIndex) (seeds : List NodeId) : List NodeId :=
  bitvectorClosure index.backwardNeighbours index.nodeCount seeds

@[simp] theorem mem_fromPairs {nodeCount : Nat} {edges : List (Nat × Nat)} {a b : Nat} :
    (a,b) ∈ (fromPairs nodeCount edges).pairs ↔ (a,b) ∈ edges ∧ a < nodeCount ∧ b < nodeCount := by
  simp [fromPairs]

@[simp] theorem mem_forwardNeighbours {index : ReachabilityIndex} {a b : Nat} :
    b ∈ index.forwardNeighbours a ↔ (a,b) ∈ index.pairs := by
  simp [forwardNeighbours]

@[simp] theorem mem_backwardNeighbours {index : ReachabilityIndex} {a b : Nat} :
    a ∈ index.backwardNeighbours b ↔ (a,b) ∈ index.pairs := by
  simp [backwardNeighbours]

def Path (edges : List (Nat × Nat)) (nodeCount : Nat) : Nat → Nat → Prop :=
  Relation.ReflTransGen fun a b => (a,b) ∈ edges ∧ a < nodeCount ∧ b < nodeCount

theorem mem_bitvectorClosure {neighbours : NodeId → List Nat} {nodeCount : Nat} {seeds : List NodeId} {node : NodeId}
    (inside : ∀ x y, y ∈ neighbours x → y < nodeCount) :
    node ∈ bitvectorClosure neighbours nodeCount seeds ↔
      ∃ seed ∈ seeds, seed < nodeCount ∧ Closure.Reachable neighbours seed node := by
  unfold bitvectorClosure
  have bounded : ∀ x ∈ Finset.range nodeCount, ∀ y ∈ neighbours x, y ∈ Finset.range nodeCount :=
    fun x _ y edge => Finset.mem_range.mpr (inside x y edge)
  have seeded : ∀ x ∈ seeds.filter (· < nodeCount), x ∈ Finset.range nodeCount :=
    fun x seed => Finset.mem_range.mpr (of_decide_eq_true (List.mem_filter.mp seed).2)
  rw [Closure.mem_closure bounded seeded (by simp)]
  simp only [List.mem_filter, decide_eq_true_eq, and_assoc]

theorem mem_backwardClosure {nodeCount : Nat} {edges : List (Nat × Nat)} {target node : Nat} :
    node ∈ (fromPairs nodeCount edges).backwardClosure [target] ↔
      target < nodeCount ∧ Path edges nodeCount node target := by
  have inside : ∀ x y, y ∈ (fromPairs nodeCount edges).backwardNeighbours x → y < nodeCount := by
    intro x y edge
    simp only [mem_backwardNeighbours, mem_fromPairs] at edge
    exact edge.2.1
  have swapped : Closure.Reachable (fromPairs nodeCount edges).backwardNeighbours target node ↔
      Path edges nodeCount node target := by
    rw [Closure.Reachable, Path, ← Relation.reflTransGen_swap]
    refine iff_of_eq (congrArg (fun r => Relation.ReflTransGen r node target) ?_)
    funext a b
    simp [Function.swap]
  refine (mem_bitvectorClosure inside).trans ?_
  simp only [List.mem_singleton, exists_eq_left]
  exact and_congr_right fun _ => swapped

end ReachabilityIndex

end BonsaiNinja.Idg
