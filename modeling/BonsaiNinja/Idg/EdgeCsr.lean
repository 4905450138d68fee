import BonsaiNinja.Idg.Query
import BonsaiNinja.Library.SparseRows

namespace BonsaiNinja.Idg
open Library SparseRows

-- Compressed sparse rows: `offsets[from] .. offsets[from + 1]` are the targets of one
-- node.
structure EdgeCsr where
  offsets : List Nat
  targets : List Nat
  nodeCount : Nat
  deriving DecidableEq, Repr

namespace EdgeCsr

def build (nodeCount : Nat) (edges : List α) (extract : α → Nat × Nat) : EdgeCsr :=
  let validEdges := edges.filter fun edge => (extract edge).1 < nodeCount && (extract edge).2 < nodeCount
  let counts := validEdges.foldl (fun offsets edge => offsets.modify ((extract edge).1 + 1) (· + 1))
    (List.replicate (nodeCount + 1) 0)
  let offsets := accumulate 0 counts
  let targets := List.replicate (offsets.getLastD 0) 0
  let filled := validEdges.foldl (fun filling edge => filling.place (extract edge).1 (extract edge).2)
    (Filling.mk offsets targets)
  ⟨offsets,filled.table,nodeCount⟩

def buildPairs (nodeCount : Nat) (edges : List (Nat × Nat)) (extract : Nat × Nat → Nat × Nat) : EdgeCsr :=
  build nodeCount edges extract

def forward (nodeCount : Nat) (edges : List IdgEdge) : EdgeCsr :=
  build nodeCount edges fun edge => (edge.fromNode,edge.toNode)

def forwardPairs (nodeCount : Nat) (edges : List (Nat × Nat)) : EdgeCsr :=
  buildPairs nodeCount edges fun edge => (edge.1,edge.2)

def backward (nodeCount : Nat) (edges : List IdgEdge) : EdgeCsr :=
  build nodeCount edges fun edge => (edge.toNode,edge.fromNode)

def backwardPairs (nodeCount : Nat) (edges : List (Nat × Nat)) : EdgeCsr :=
  buildPairs nodeCount edges fun edge => (edge.2,edge.1)

def countVisited (nodeCount : Nat) (offsets : List Nat × List Nat) (pair : Nat × Nat) : List Nat × List Nat :=
  if nodeCount ≤ pair.1 ∨ nodeCount ≤ pair.2 then offsets
  else (offsets.1.modify pair.1 (· + 1),offsets.2.modify pair.2 (· + 1))

def fillVisited (nodeCount : Nat) (filling : Backfill × Backfill) (pair : Nat × Nat) : Backfill × Backfill :=
  if nodeCount ≤ pair.1 ∨ nodeCount ≤ pair.2 then filling
  else (filling.1.place pair.1 pair.2,filling.2.place pair.2 pair.1)

def bidirectionalFromPairVisitor (nodeCount : Nat) (pairs : List (Nat × Nat)) : EdgeCsr × EdgeCsr :=
  let zeros := List.replicate nodeCount 0
  let counts := pairs.foldl (countVisited nodeCount) (zeros,zeros)
  let forwardOffsets := accumulate 0 counts.1
  let backwardOffsets := accumulate 0 counts.2
  let forwardTotal := forwardOffsets.getLastD 0
  let backwardTotal := backwardOffsets.getLastD 0
  let filled := pairs.foldl (fillVisited nodeCount)
    (⟨forwardOffsets,List.replicate forwardTotal 0⟩,⟨backwardOffsets,List.replicate backwardTotal 0⟩)
  let forwardOffsets := filled.1.ends ++ [forwardTotal]
  let backwardOffsets := filled.2.ends ++ [backwardTotal]
  (⟨forwardOffsets,reverseRows forwardOffsets filled.1.table,nodeCount⟩,
    ⟨backwardOffsets,reverseRows backwardOffsets filled.2.table,nodeCount⟩)

def forwardFromPairVisitor (nodeCount : Nat) (pairs : List (Nat × Nat)) : EdgeCsr :=
  let counts := pairs.foldl (fun offsets pair =>
    if nodeCount ≤ pair.1 ∨ nodeCount ≤ pair.2 then offsets else offsets.modify pair.1 (· + 1)) (List.replicate nodeCount 0)
  let ends := accumulate 0 counts
  let total := ends.getLastD 0
  let filled := pairs.foldl (fun filling pair =>
    if nodeCount ≤ pair.1 ∨ nodeCount ≤ pair.2 then filling else filling.place pair.1 pair.2)
    (Backfill.mk ends (List.replicate total 0))
  let offsets := filled.ends ++ [total]
  ⟨offsets,reverseRows offsets filled.table,nodeCount⟩

def isValidFor (csr : EdgeCsr) (expectedNodes : Nat) : Bool :=
  csr.nodeCount == expectedNodes && csr.offsets.length == expectedNodes + 1 && csr.offsets.head? == some 0 &&
    (csr.offsets.zip csr.offsets.tail).all (fun pair => pair.1 ≤ pair.2) &&
    csr.offsets.getLast? == some csr.targets.length && csr.targets.all (· < expectedNodes)

def neighbours (csr : EdgeCsr) (node : NodeId) : List Nat :=
  if csr.nodeCount ≤ node then []
  else slice csr.targets (csr.offsets.getD node 0) (csr.offsets.getD (node + 1) 0)

def edges (csr : EdgeCsr) : List (Nat × Nat) := (List.range csr.nodeCount).flatMap fun node => (csr.neighbours node).map (node,·)

def admitted (nodeCount : Nat) (pairs : List (Nat × Nat)) : List (Nat × Nat) :=
  pairs.filter fun pair => pair.1 < nodeCount && pair.2 < nodeCount

def exact (nodeCount : Nat) (pairs : List (Nat × Nat)) : EdgeCsr :=
  ⟨SparseRows.offsets (admitted nodeCount pairs) nodeCount,flat (admitted nodeCount pairs) nodeCount,nodeCount⟩

variable {nodeCount : Nat} {pairs : List (Nat × Nat)}

theorem mem_admitted {pair : Nat × Nat} :
    pair ∈ admitted nodeCount pairs ↔ pair ∈ pairs ∧ pair.1 < nodeCount ∧ pair.2 < nodeCount := by
  rw [admitted,List.mem_filter,Bool.and_eq_true,decide_eq_true_eq,decide_eq_true_eq]

theorem admitted_bounded : ∀ pair ∈ admitted nodeCount pairs, pair.1 < nodeCount := fun _ member => (mem_admitted.mp member).2.1

theorem admitted_swap (nodeCount : Nat) (pairs : List (Nat × Nat)) :
    admitted nodeCount (pairs.map Prod.swap) = (admitted nodeCount pairs).map Prod.swap := by
  rw [admitted,admitted,List.filter_map]
  refine congrArg (List.map Prod.swap) (List.filter_congr fun pair _ => ?_)
  exact Bool.and_comm _ _

theorem valuesOf_sparse {key : Nat} (outside : nodeCount ≤ key) : valuesOf (admitted nodeCount pairs) key = [] := by
  rw [valuesOf,List.map_eq_nil_iff,List.filter_eq_nil_iff]
  intro pair member same
  have inside := admitted_bounded pair member
  exact absurd (of_decide_eq_true same) (Nat.ne_of_lt (inside.trans_le outside))

theorem offsets_getD (pairs : List (Nat × Nat)) {size node : Nat} (inside : node ≤ size) :
    (SparseRows.offsets pairs size).getD node 0 = firstOf pairs node := by
  rw [SparseRows.offsets,List.getD_eq_getElem?_getD,List.getElem?_map,List.getElem?_range (by omega)]
  rfl

theorem offsets_last (pairs : List (Nat × Nat)) (size : Nat) : (SparseRows.offsets pairs size).getLastD 0 = firstOf pairs size := by
  rw [SparseRows.offsets,List.range_succ,List.map_append]
  exact List.getLastD_concat ..

theorem buildPairs_laid (nodeCount : Nat) (pairs : List (Nat × Nat)) :
    (build nodeCount pairs id).offsets = SparseRows.offsets (admitted nodeCount pairs) nodeCount ∧
      Laid (admitted nodeCount pairs) (build nodeCount pairs id).targets := by
  have bounded : ∀ pair ∈ admitted nodeCount pairs, pair.1 < nodeCount := admitted_bounded
  have offsets : (build nodeCount pairs id).offsets = SparseRows.offsets (admitted nodeCount pairs) nodeCount := by
    change accumulate 0 ((admitted nodeCount pairs).foldl (fun offsets edge => offsets.modify (edge.1 + 1) (· + 1))
      (List.replicate (nodeCount + 1) 0)) = _
    rw [← List.foldl_map (f := Prod.fst) (g := fun (counts : List Nat) (key : Nat) => counts.modify (key + 1) (· + 1))]
    refine List.ext_getElem? fun i => (getElem?_countOffsets ?_).trans ?_
    · intro key member
      obtain ⟨pair,inside,rfl⟩ := List.mem_map.mp member
      exact Nat.succ_lt_succ (bounded pair inside)
    · rw [SparseRows.offsets,List.getElem?_map]
      split
      · next inside =>
        rw [List.getElem?_range inside]
        rfl
      · next outside =>
        rw [List.getElem?_eq_none (by rw [List.length_range]; omega)]
        rfl
  refine ⟨offsets,?_⟩
  have start : Front nodeCount (admitted nodeCount pairs) []
      ⟨(build nodeCount pairs id).offsets,List.replicate ((build nodeCount pairs id).offsets.getLastD 0) 0⟩ := by
    rw [offsets,offsets_last,firstOf_size bounded]
    refine ⟨List.length_replicate,fun key inside => ?_,fun key => ?_⟩
    · rw [SparseRows.offsets,List.getElem?_map,List.getElem?_range (by omega)]
      rfl
    · exact slice_empty _ _
  exact (start.placed (List.nil_append _).symm bounded).laid

theorem build_map (nodeCount : Nat) (edges : List α) (extract : α → Nat × Nat) :
    build nodeCount edges extract = build nodeCount (edges.map extract) id := by
  unfold build
  dsimp only
  rw [List.filter_map,List.foldl_map,List.foldl_map]
  rfl

theorem build_exact (nodeCount : Nat) (edges : List α) (extract : α → Nat × Nat) :
    build nodeCount edges extract = exact nodeCount (edges.map extract) := by
  rw [build_map]
  obtain ⟨offsets,laid⟩ := buildPairs_laid nodeCount (edges.map extract)
  exact congrArg₂ (EdgeCsr.mk · · nodeCount) offsets (laid.table_eq admitted_bounded)

theorem exact_laid (nodeCount : Nat) (pairs : List (Nat × Nat)) :
    Laid (admitted nodeCount pairs) (exact nodeCount pairs).targets := by
  have built := build_exact nodeCount pairs id
  rw [List.map_id] at built
  rw [← built]
  exact (buildPairs_laid nodeCount pairs).2

theorem foldl_admitted (step : σ → Nat × Nat → σ) (state : σ) :
    pairs.foldl (fun state pair => if nodeCount ≤ pair.1 ∨ nodeCount ≤ pair.2 then state else step state pair) state =
      (admitted nodeCount pairs).foldl step state := by
  rw [admitted,List.foldl_filter]
  refine congrArg (fun step => pairs.foldl step state) ?_
  funext state pair
  by_cases inside : pair.1 < nodeCount ∧ pair.2 < nodeCount
  · rw [if_neg (by omega),if_pos (by simpa using inside)]
  · rw [if_pos (by omega),if_neg (by simpa using inside)]

theorem ends_eq (nodeCount : Nat) (pairs : List (Nat × Nat)) :
    accumulate 0 ((admitted nodeCount pairs).foldl (fun offsets pair => offsets.modify pair.1 (· + 1))
      (List.replicate nodeCount 0)) = (List.range nodeCount).map fun node => firstOf (admitted nodeCount pairs) (node + 1) := by
  rw [← List.foldl_map (f := Prod.fst) (g := fun (counts : List Nat) (key : Nat) => counts.modify key (· + 1))]
  have counted := fun i => sum_take_tally ((admitted nodeCount pairs).map Prod.fst) (List.replicate nodeCount 0) (i + 1) (by
    intro key member
    obtain ⟨pair,inside,rfl⟩ := List.mem_map.mp member
    rw [List.length_replicate]
    exact admitted_bounded pair inside)
  refine List.ext_getElem? fun i => ?_
  rw [getElem?_accumulate,(counted i).1,(counted i).2,List.getElem?_map,List.length_replicate]
  split
  · next inside =>
    have zeros : ((List.replicate nodeCount 0).take (i + 1)).sum = 0 := by simp
    rw [List.getElem?_range inside,zeros,Nat.zero_add,Nat.zero_add]
    rfl
  · next outside =>
    rw [List.getElem?_eq_none (by rw [List.length_range]; omega)]
    rfl

theorem ends_last (pairs : List (Nat × Nat)) (size : Nat) :
    ((List.range size).map fun node => firstOf pairs (node + 1)).getLastD 0 = firstOf pairs size := by
  cases size with
  | zero => exact (firstOf_zero pairs).symm
  | succ size =>
    rw [List.range_succ,List.map_append]
    exact List.getLastD_concat ..

theorem forwardFromPairVisitor_exact (nodeCount : Nat) (pairs : List (Nat × Nat)) :
    forwardFromPairVisitor nodeCount pairs = exact nodeCount pairs := by
  have bounded : ∀ pair ∈ admitted nodeCount pairs, pair.1 < nodeCount := admitted_bounded
  unfold forwardFromPairVisitor
  dsimp only
  rw [foldl_admitted,foldl_admitted,ends_eq,ends_last,firstOf_size bounded]
  have start : Back nodeCount (admitted nodeCount pairs) []
      ⟨(List.range nodeCount).map fun node => firstOf (admitted nodeCount pairs) (node + 1),
        List.replicate (admitted nodeCount pairs).length 0⟩ := by
    refine ⟨List.length_replicate,by rw [List.length_map,List.length_range],fun key inside => ?_,fun key => ?_⟩
    · rw [List.getElem?_map,List.getElem?_range inside]
      rfl
    · exact slice_empty _ _
  have filled := start.placed (List.nil_append _).symm bounded
  obtain ⟨ends,rows⟩ := filled.finished
  have offsets : (List.range nodeCount).map (firstOf (admitted nodeCount pairs)) ++ [(admitted nodeCount pairs).length] =
      SparseRows.offsets (admitted nodeCount pairs) nodeCount := by
    rw [SparseRows.offsets,List.range_succ,List.map_append,List.map_singleton,firstOf_size bounded]
  rw [ends,offsets]
  exact congrArg (EdgeCsr.mk _ · nodeCount) ((reverseRows_laid filled.length bounded rows).table_eq bounded)

theorem foldl_both (skip : α → Prop) [DecidablePred skip] (left : σ → α → σ) (right : τ → α → τ) (visited : List α)
    (state : σ × τ) :
    visited.foldl (fun state x => if skip x then state else (left state.1 x,right state.2 x)) state =
      (visited.foldl (fun state x => if skip x then state else left state x) state.1,
        visited.foldl (fun state x => if skip x then state else right state x) state.2) := by
  induction visited generalizing state with
  | nil => rfl
  | cons x rest ih =>
    rw [List.foldl_cons,List.foldl_cons,List.foldl_cons,ih]
    by_cases skipped : skip x
    · rw [if_pos skipped,if_pos skipped,if_pos skipped]
    · rw [if_neg skipped,if_neg skipped,if_neg skipped]

theorem bidirectionalFromPairVisitor_eq (nodeCount : Nat) (pairs : List (Nat × Nat)) :
    bidirectionalFromPairVisitor nodeCount pairs =
      (forwardFromPairVisitor nodeCount pairs,forwardFromPairVisitor nodeCount (pairs.map Prod.swap)) := by
  unfold bidirectionalFromPairVisitor forwardFromPairVisitor countVisited fillVisited
  dsimp only
  rw [foldl_both (fun pair : Nat × Nat => nodeCount ≤ pair.1 ∨ nodeCount ≤ pair.2)
      (fun (offsets : List Nat) pair => offsets.modify pair.1 (· + 1)) (fun (offsets : List Nat) pair => offsets.modify pair.2 (· + 1)),
    foldl_both (fun pair : Nat × Nat => nodeCount ≤ pair.1 ∨ nodeCount ≤ pair.2)
      (fun (filling : Backfill) pair => filling.place pair.1 pair.2) (fun (filling : Backfill) pair => filling.place pair.2 pair.1)]
  simp only [List.foldl_map,Prod.fst_swap,Prod.snd_swap,or_comm]

theorem exact_neighbours (nodeCount : Nat) (pairs : List (Nat × Nat)) (node : NodeId) :
    (exact nodeCount pairs).neighbours node = valuesOf (admitted nodeCount pairs) node := by
  unfold neighbours
  split
  · next outside => exact (valuesOf_sparse outside).symm
  · next inside =>
    have bound : node < nodeCount := Nat.lt_of_not_le inside
    change slice _ ((SparseRows.offsets (admitted nodeCount pairs) nodeCount).getD node 0)
      ((SparseRows.offsets (admitted nodeCount pairs) nodeCount).getD (node + 1) 0) = _
    rw [offsets_getD _ (Nat.le_of_lt bound),offsets_getD _ bound]
    exact (exact_laid nodeCount pairs).row node

theorem exact_isValidFor (nodeCount : Nat) (pairs : List (Nat × Nat)) : (exact nodeCount pairs).isValidFor nodeCount = true := by
  have bounded : ∀ pair ∈ admitted nodeCount pairs, pair.1 < nodeCount := admitted_bounded
  have sized := (exact_laid nodeCount pairs).length
  unfold isValidFor
  simp only [Bool.and_eq_true,beq_iff_eq,List.all_eq_true,decide_eq_true_eq]
  refine ⟨⟨⟨⟨⟨rfl,?_⟩,?_⟩,?_⟩,?_⟩,?_⟩
  · change (SparseRows.offsets _ _).length = _
    rw [SparseRows.offsets,List.length_map,List.length_range]
  · change (SparseRows.offsets _ _).head? = _
    rw [SparseRows.offsets,List.range_succ_eq_map,List.map_cons,List.head?_cons,firstOf_zero]
  · change ∀ pair ∈ (SparseRows.offsets _ _).zip (SparseRows.offsets _ _).tail,_
    rw [SparseRows.offsets,windows_map]
    intro pair member
    obtain ⟨node,_,rfl⟩ := List.mem_map.mp member
    exact startOf_mono _ (Nat.le_succ node)
  · rw [sized,← firstOf_size bounded]
    change (SparseRows.offsets _ _).getLast? = _
    rw [SparseRows.offsets,List.range_succ,List.map_append]
    exact List.getLast?_concat ..
  · intro target member
    obtain ⟨node,_,found⟩ := List.mem_flatMap.mp member
    obtain ⟨pair,inside,rfl⟩ := List.mem_map.mp found
    exact (mem_admitted.mp (List.mem_filter.mp inside).1).2.2

theorem exact_edges (nodeCount : Nat) (pairs : List (Nat × Nat)) :
    (exact nodeCount pairs).edges.Perm (admitted nodeCount pairs) := by
  unfold edges
  simp only [exact_neighbours]
  exact pairs_perm admitted_bounded

-- All builders make the same matrix of the same pairs, in each direction. It is valid, a
-- row holds the targets of the edges that leave its node in the order they came in, and
-- the backward matrix is the transpose of the forward one.
theorem builders_agree (nodeCount : Nat) (edges : List IdgEdge) :
    let pairs := edges.map fun edge => (edge.fromNode,edge.toNode)
    let ahead := forwardPairs nodeCount pairs
    let behind := backwardPairs nodeCount pairs
    (forward nodeCount edges = ahead ∧ forwardFromPairVisitor nodeCount pairs = ahead ∧
        bidirectionalFromPairVisitor nodeCount pairs = (ahead,behind) ∧ backward nodeCount edges = behind) ∧
      (ahead.isValidFor nodeCount = true ∧ behind.isValidFor nodeCount = true) ∧
        (∀ node, ahead.neighbours node =
            (pairs.filter fun pair => pair.1 < nodeCount ∧ pair.2 < nodeCount ∧ pair.1 = node).map (·.2)) ∧
          (∀ node, behind.neighbours node =
              (pairs.filter fun pair => pair.1 < nodeCount ∧ pair.2 < nodeCount ∧ pair.2 = node).map (·.1)) ∧
            behind.edges.Perm (ahead.edges.map Prod.swap) ∧
              ahead.edges.Perm (pairs.filter fun pair => pair.1 < nodeCount ∧ pair.2 < nodeCount) := by
  intro pairs ahead behind
  have aheadExact : ahead = exact nodeCount pairs := by
    refine (build_exact nodeCount pairs _).trans ?_
    rw [List.map_id']
  have behindExact : behind = exact nodeCount (pairs.map Prod.swap) := build_exact nodeCount pairs _
  have inside : (pairs.filter fun pair => pair.1 < nodeCount ∧ pair.2 < nodeCount) = admitted nodeCount pairs :=
    List.filter_congr fun pair _ => Bool.decide_and ..
  refine ⟨⟨?_,?_,?_,?_⟩,⟨?_,?_⟩,fun node => ?_,fun node => ?_,?_,?_⟩
  · exact (build_exact nodeCount edges _).trans aheadExact.symm
  · exact (forwardFromPairVisitor_exact nodeCount pairs).trans aheadExact.symm
  · rw [bidirectionalFromPairVisitor_eq,forwardFromPairVisitor_exact,forwardFromPairVisitor_exact,aheadExact,behindExact]
  · refine (build_exact nodeCount edges _).trans ?_
    rw [behindExact,List.map_map]
    rfl
  · rw [aheadExact]
    exact exact_isValidFor nodeCount pairs
  · rw [behindExact]
    exact exact_isValidFor nodeCount _
  · rw [aheadExact,exact_neighbours,valuesOf,admitted,List.filter_filter]
    refine congrArg (List.map Prod.snd) (List.filter_congr fun pair _ => ?_)
    rw [← Bool.decide_and,← Bool.decide_and]
    exact decide_eq_decide.mpr (and_comm.trans and_assoc)
  · rw [behindExact,exact_neighbours,valuesOf,admitted_swap,List.filter_map,List.map_map,admitted,List.filter_filter]
    refine congrArg (List.map Prod.fst) (List.filter_congr fun pair _ => ?_)
    rw [← Bool.decide_and]
    change (decide (pair.2 = node) && decide _) = _
    rw [← Bool.decide_and]
    exact decide_eq_decide.mpr (and_comm.trans and_assoc)
  · rw [aheadExact,behindExact]
    refine (exact_edges nodeCount _).trans ?_
    rw [admitted_swap]
    exact ((exact_edges nodeCount pairs).map _).symm
  · rw [aheadExact,inside]
    exact exact_edges nodeCount pairs

example : (bidirectionalFromPairVisitor 3 [(0,2),(5,0),(0,1),(2,2),(0,2)]).1 = ⟨[0,3,3,4],[2,1,2,2],3⟩ := by decide

end EdgeCsr

end BonsaiNinja.Idg
