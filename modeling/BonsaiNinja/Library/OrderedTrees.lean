import Mathlib.Algebra.Order.Ring.Nat
import Mathlib.Data.List.Nodup

namespace BonsaiNinja.Library

inductive OrderedTree (α : Type u) where
  | node (label : α) (children : List (OrderedTree α))

namespace OrderedTree
variable {α : Type u}

def label : OrderedTree α → α
  | .node label _ => label

def children : OrderedTree α → List (OrderedTree α)
  | .node _ children => children

@[simp] theorem label_node (label : α) (children : List (OrderedTree α)) : (OrderedTree.node label children).label = label := rfl

@[simp] theorem children_node (label : α) (children : List (OrderedTree α)) : (OrderedTree.node label children).children = children := rfl

mutual

def nodes : OrderedTree α → List (OrderedTree α)
  | .node label children => .node label children :: nodesOf children

def nodesOf : List (OrderedTree α) → List (OrderedTree α)
  | [] => []
  | child :: rest => child.nodes ++ nodesOf rest

end

mutual

def size : OrderedTree α → Nat
  | .node _ children => sizeAll children + 1

def sizeAll : List (OrderedTree α) → Nat
  | [] => 0
  | child :: rest => child.size + sizeAll rest

end

theorem nodesOf_eq (trees : List (OrderedTree α)) : nodesOf trees = trees.flatMap nodes := by
  induction trees with
  | nil => rfl
  | cons child rest ih => rw [nodesOf,ih,List.flatMap_cons]

theorem nodes_eq (tree : OrderedTree α) : tree.nodes = tree :: tree.children.flatMap nodes := by
  cases tree with
  | node label children => rw [nodes,nodesOf_eq,children_node]

theorem self_mem_nodes (tree : OrderedTree α) : tree ∈ tree.nodes := by
  rw [nodes_eq]
  exact List.mem_cons_self

theorem child_mem_nodes {tree child below : OrderedTree α} (listed : child ∈ tree.children) (within : below ∈ child.nodes) :
    below ∈ tree.nodes := by
  rw [nodes_eq]
  exact List.mem_cons_of_mem _ (List.mem_flatMap_of_mem listed within)

def sizes (trees : List (OrderedTree α)) : Nat := (trees.map size).sum

theorem sizeAll_eq (trees : List (OrderedTree α)) : sizeAll trees = sizes trees := by
  induction trees with
  | nil => rfl
  | cons child rest ih => rw [sizeAll,ih,sizes,sizes,List.map_cons,List.sum_cons]

theorem size_eq (tree : OrderedTree α) : tree.size = sizes tree.children + 1 := by
  cases tree with
  | node label children => rw [size,sizeAll_eq,children_node]

theorem size_le_sizes {tree : OrderedTree α} {trees : List (OrderedTree α)} (listed : tree ∈ trees) : tree.size ≤ sizes trees := by
  induction trees with
  | nil => exact absurd listed List.not_mem_nil
  | cons head rest ih =>
    rw [sizes,List.map_cons,List.sum_cons]
    rcases List.mem_cons.mp listed with rfl | later
    · exact Nat.le_add_right _ _
    · exact Nat.le_trans (ih later) (Nat.le_add_left _ _)

theorem sizes_append (left right : List (OrderedTree α)) : sizes (left ++ right) = sizes left + sizes right := by
  rw [sizes,List.map_append,List.sum_append,sizes,sizes]

theorem sizes_cons (tree : OrderedTree α) (rest : List (OrderedTree α)) : sizes (tree :: rest) = tree.size + sizes rest := rfl

theorem sizes_reverse (trees : List (OrderedTree α)) : sizes trees.reverse = sizes trees := by
  rw [sizes,List.map_reverse,List.sum_reverse,sizes]

theorem sizes_filter_le (keep : OrderedTree α → Bool) (trees : List (OrderedTree α)) : sizes (trees.filter keep) ≤ sizes trees := by
  induction trees with
  | nil => exact Nat.le_refl _
  | cons tree rest ih =>
    rw [List.filter_cons]
    split
    · rw [sizes_cons,sizes_cons]
      omega
    · rw [sizes_cons]
      omega

-- Children on top of a stack weigh less than the tree they were under.
theorem pushed_lt (keep : OrderedTree α → Bool) (tree : OrderedTree α) (stack : List (OrderedTree α)) :
    sizes (tree.children.filter keep ++ stack) < sizes (tree :: stack) := by
  have smaller := sizes_filter_le keep tree.children
  rw [sizes_append,sizes_cons,size_eq]
  omega

theorem pushed_reverse_lt (keep : OrderedTree α → Bool) (tree : OrderedTree α) (stack : List (OrderedTree α)) :
    sizes ((tree.children.filter keep).reverse ++ stack) < sizes (tree :: stack) := by
  have smaller := pushed_lt keep tree stack
  rw [sizes_append] at smaller ⊢
  rwa [sizes_reverse]

theorem popped_lt (tree : OrderedTree α) (stack : List (OrderedTree α)) : sizes stack < sizes (tree :: stack) := by
  rw [sizes_cons,size_eq]
  omega

theorem induct {motive : OrderedTree α → Prop} (step : ∀ tree, (∀ child ∈ tree.children, motive child) → motive tree) (tree : OrderedTree α) :
    motive tree := by
  induction count : tree.size using Nat.strongRecOn generalizing tree with
  | _ count ih =>
    refine step tree fun child listed => ih child.size ?_ child rfl
    have part := size_le_sizes listed
    rw [← count,size_eq tree]
    omega

def All (property : OrderedTree α → Prop) (tree : OrderedTree α) : Prop := ∀ below ∈ tree.nodes, property below

theorem All.here {property : OrderedTree α → Prop} {tree : OrderedTree α} (all : tree.All property) : property tree := all tree tree.self_mem_nodes

theorem All.child {property : OrderedTree α → Prop} {tree child : OrderedTree α} (all : tree.All property) (listed : child ∈ tree.children) :
    child.All property := fun below within => all below (child_mem_nodes listed within)

end OrderedTree

end BonsaiNinja.Library
