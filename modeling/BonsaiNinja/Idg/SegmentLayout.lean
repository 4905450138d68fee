import BonsaiNinja.Idg.Unified

namespace BonsaiNinja.Idg
open Library
variable {segmentId localNode node : Nat} {segment : IdgSegment}

-- Every registered segment can be read.
def IdgWorkspace.Readable (workspace : IdgWorkspace) : Prop :=
  ∀ id < workspace.segmentCount, (workspace.segmentView id).isSome = true

variable {workspace : IdgWorkspace}

theorem segmentViews_at (readable : workspace.Readable) (id : Nat) : workspace.segmentViews[id]? =
    if id < workspace.segmentCount then (workspace.segmentView id).map fun segment => (id,segment) else none :=
  (getElem?_filterMap_range fun id inside => by rw [Option.isSome_map]; exact readable id inside).2 id

theorem segmentViews_length (readable : workspace.Readable) : workspace.segmentViews.length = workspace.segmentCount :=
  (getElem?_filterMap_range fun id inside => by rw [Option.isSome_map]; exact readable id inside).1

def nodeCounts (workspace : IdgWorkspace) : List Nat := workspace.segmentViews.map fun view => view.2.nodes.length

theorem segmentBases_at {id : Nat} : (segmentBasesOf workspace)[id]? =
    if id ≤ workspace.segmentViews.length then some ((nodeCounts workspace).take id).sum else none := by
  cases id with
  | zero => simp [segmentBasesOf]
  | succ id =>
    rw [segmentBasesOf, List.getElem?_cons_succ, getElem?_accumulate, Nat.zero_add, List.length_map]
    rfl

structure PlacedAt (workspace : IdgWorkspace) (segmentId : Nat) (segment : IdgSegment) (localNode node : Nat) :
    Prop where
  view : workspace.segmentViews[segmentId]? = some (segmentId,segment)
  inside : localNode < segment.nodes.length
  address : node = ((nodeCounts workspace).take segmentId).sum + localNode

theorem wsNode_placed (readable : workspace.Readable)
    (placed : wsNodeForSegmentBases (segmentBasesOf workspace) segmentId localNode = some node) :
    ∃ segment, PlacedAt workspace segmentId segment localNode node := by
  unfold wsNodeForSegmentBases at placed
  simp only [segmentBases_at] at placed
  by_cases last : segmentId + 1 ≤ workspace.segmentViews.length
  · rw [if_pos (by omega), if_pos last] at placed
    have view := segmentViews_at readable segmentId
    rw [segmentViews_length readable] at last
    rw [if_pos (by omega)] at view
    obtain ⟨segment,found⟩ := Option.isSome_iff_exists.mp (readable segmentId (by omega))
    rw [found, Option.map_some] at view
    have count : (nodeCounts workspace)[segmentId]? = some segment.nodes.length := by
      rw [nodeCounts, List.getElem?_map, view]
      rfl
    have next := List.sum_take_succ (nodeCounts workspace) segmentId (List.getElem?_eq_some_iff.mp count).1
    rw [(List.getElem?_eq_some_iff.mp count).2] at next
    dsimp only at placed
    split at placed
    · next inside =>
      rw [next, Nat.add_sub_cancel_left] at inside
      exact ⟨segment,view,inside,(Option.some.inj placed).symm⟩
    · cases placed
  · rw [if_neg last] at placed
    split at placed
    · next found => cases found
    · cases placed

theorem view_of_placed (readable : workspace.Readable) {id : SegmentId} {localNode node : NodeId}
    (read : workspace.segmentView id = some segment)
    (placed : (buildUnified workspace).wsNodeFor id localNode = some node) : (id,segment) ∈ workspace.segmentViews := by
  obtain ⟨other,placedAt⟩ := wsNode_placed readable placed
  have listed := List.mem_of_getElem? placedAt.view
  have same := (IdgWorkspace.mem_segmentViews.mp listed).2
  cases Option.some.inj (same.symm.trans read)
  exact listed

theorem counts_le {i j : Nat} (lower : i ≤ j) : ((nodeCounts workspace).take i).sum ≤ ((nodeCounts workspace).take j).sum := by
  have split := List.take_append_drop i ((nodeCounts workspace).take j)
  rw [List.take_take, Nat.min_eq_left lower] at split
  rw [← split, List.sum_append]
  exact Nat.le_add_right _ _

theorem segmentBases_le {base : Nat} (member : base ∈ segmentBasesOf workspace) : base ≤ (nodeFuncsOf workspace).length := by
  obtain ⟨id,found⟩ := List.getElem?_of_mem member
  rw [segmentBases_at] at found
  split at found
  · next inside =>
    have whole : (nodeFuncsOf workspace).length = ((nodeCounts workspace).take workspace.segmentViews.length).sum := by
      rw [nodeFuncsOf_length, segmentBasesOf, getLastD_accumulate, Nat.zero_add, List.take_of_length_le (by simp [nodeCounts])]
      rfl
    rw [whole, ← Option.some.inj found]
    exact counts_le inside
  · cases found

section
variable (placed : PlacedAt workspace segmentId segment localNode node)
include placed

theorem PlacedAt.stop
    :
    ((nodeCounts workspace).take segmentId).sum ≤ node ∧ node < ((nodeCounts workspace).take (segmentId + 1)).sum := by
  have count : (nodeCounts workspace)[segmentId]? = some segment.nodes.length := by
    rw [nodeCounts, List.getElem?_map, placed.view]
    rfl
  have next := List.sum_take_succ (nodeCounts workspace) segmentId (List.getElem?_eq_some_iff.mp count).1
  rw [(List.getElem?_eq_some_iff.mp count).2] at next
  have inside := placed.inside
  have address := placed.address
  omega

theorem PlacedAt.unique {segmentId' : Nat} {segment' : IdgSegment} {localNode' : Nat}
    (placed' : PlacedAt workspace segmentId' segment' localNode' node) :
    segmentId = segmentId' ∧ segment = segment' ∧ localNode = localNode' := by
  have same : segmentId = segmentId' := by
    have range := placed.stop
    have range' := placed'.stop
    rcases Nat.lt_trichotomy segmentId segmentId' with lower | same | upper
    · have order : ((nodeCounts workspace).take (segmentId + 1)).sum ≤ _ := counts_le (Nat.succ_le_of_lt lower)
      omega
    · exact same
    · have order : ((nodeCounts workspace).take (segmentId' + 1)).sum ≤ _ := counts_le (Nat.succ_le_of_lt upper)
      omega
  subst same
  have view := placed.view.symm.trans placed'.view
  have address := placed.address
  have address' := placed'.address
  refine ⟨rfl,?_,by omega⟩
  simpa using view

theorem PlacedAt.row
    (row : IdgSegment → IdgNode → α) :
    (workspace.segmentViews.flatMap fun view => view.2.nodes.map (row view.2))[node]? =
      segment.nodes[localNode]?.map (row segment) := by
  have rows : (workspace.segmentViews.map fun view => view.2.nodes.map (row view.2))[segmentId]? =
      some (segment.nodes.map (row segment)) := by
    rw [List.getElem?_map, placed.view]
    rfl
  have counts : (workspace.segmentViews.map fun view => view.2.nodes.map (row view.2)).map List.length =
      nodeCounts workspace := by
    simp [nodeCounts,Function.comp_def]
  have found := getElem?_flatten_sum rows (by rw [List.length_map]; exact placed.inside)
  rw [counts, ← placed.address, List.getElem?_map] at found
  exact found

theorem PlacedAt.func
    :
    (buildUnified workspace).wsNodeFunc node = segment.nodes[localNode]?.map (·.func) :=
  placed.row fun _ node => node.func

theorem PlacedAt.projected
    {source : IdgNode}
    (found : segment.nodes[localNode]? = some source) :
    (buildUnified workspace).isProjected node = projectedPlace segment (segment.placeOf source) := by
  have row : (buildUnified workspace).projectedStorage[node]? = _ :=
    placed.row fun segment node => projectedPlace segment (segment.placeOf node)
  rw [found] at row
  unfold UnifiedAddressSpace.isProjected
  rw [row]
  simp

end

end BonsaiNinja.Idg
