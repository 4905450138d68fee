import BonsaiNinja.Idg.ContextualRuntime
import BonsaiNinja.Idg.RealizablePaths

namespace BonsaiNinja.Idg
open Library

def paramNodesOf (unified : UnifiedAddressSpace) (func : FuncId) : List NodeId :=
  (sortDedup (((unified.nodesByFunc func).getD []).filterMap fun node =>
    (unified.params.lookup node).map fun idx => (idx,node))).map (·.2)

def returnNodeOf (workspace : IdgWorkspace) (unified : UnifiedAddressSpace) (func : FuncId) : Option NodeId := do
  let segmentId ← workspace.segmentForFunc func
  let segment ← workspace.segmentView segmentId
  let localNode ← (localNodesOf segment func).find? fun localNode =>
    (segment.nodes[localNode]?).any fun node => segment.placeOf node = some .return
  unified.wsNodeFor segmentId localNode

-- Parameters not yet known to return are tried together first: a negative union is
-- taken as the answer for each of them.
def summarizeReturning (reachesReturn : List NodeId → Bool) (returning : List Nat) (params : List NodeId) : List Nat :=
  if params.length ≤ returning.length then returning else
  let candidates := (params.zipIdx.filter fun param => !returning.contains param.2)
  if 1 < candidates.length && !reachesReturn (candidates.map (·.1)) then returning
  else sortDedup (returning ++ (candidates.filter fun param => reachesReturn [param.1]).map (·.2))

def summaryRuntimes (workspace : IdgWorkspace) (batch : ReturnSummaryBatch) (allowed : FuncScope) : QueryRuntimes :=
  { queryRuntimes workspace allowed with
    contextual := buildContextualSummaryRuntimeWithReverse (buildUnified workspace) workspace allowed batch.contextualEdges false }

def summarizeFunc (workspace : IdgWorkspace) (batch : ReturnSummaryBatch) (allowed : FuncScope) (func : FuncId) :
    List Nat :=
  let returning := (batch.indices.lookup func).getD []
  match returnNodeOf workspace (buildUnified workspace) func with
  | none => returning
  | some returnNode =>
    summarizeReturning (fun seeds => ((summaryRuntimes workspace batch allowed).contextualForwardClosureForSummary
      seeds func batch.symbolicCallees allowed).contains returnNode) returning (paramNodesOf (buildUnified workspace) func)

def compileReturnTaintParamIndices (workspace : IdgWorkspace) (funcs : List FuncId) (allowed : FuncScope) :
    IdMap (List Nat) :=
  let batch := returnTaintParamIndicesInScope workspace funcs allowed
  if workspace.hasSymbolicTransforms then
    (funcs.filter batch.symbolicSensitive.contains).foldl (fun indices func =>
      indices.insert func (summarizeFunc workspace batch allowed func)) batch.indices
  else batch.indices

namespace ClosureProgram
variable {program : ClosureProgram} {seeds seeds' : List NodeId} {w w' : SymbolicClosureWorklist}

theorem nodes_mono (included : w.atoms ⊆ w'.atoms) : w.nodes ⊆ w'.nodes := by
  intro node found
  obtain ⟨context,reached⟩ := SymbolicClosureWorklist.mem_nodes.mp found
  exact SymbolicClosureWorklist.mem_nodes.mpr ⟨context,included reached⟩

theorem nodes_congr (same : w.atoms = w'.atoms) : w.nodes = w'.nodes :=
  Sorted.ext (sortDedup_sorted _) (sortDedup_sorted _) fun _ => ⟨fun found => nodes_mono same.subset found,
    fun found => nodes_mono same.superset found⟩

-- Runs that never open a refused rule end in the least fixed point of the forward
-- rules: no rule is enabled, and neither the order of seeds nor the order of pops
-- matters.
theorem onTime_runs_fixed_point (run : program.OnTimeRuns (program.seedWorklist seeds) w) (drained : Drained w)
    (run' : program.OnTimeRuns (program.seedWorklist seeds') w') (drained' : Drained w') :
    (program.rules seeds).Closed w.atoms ∧ (seeds ⊆ seeds' → w.atoms ⊆ w'.atoms ∧ w.nodes ⊆ w'.nodes) ∧
      ((∀ seed, seed ∈ seeds ↔ seed ∈ seeds') → w.atoms = w'.atoms ∧ w.nodes = w'.nodes) := by
  have least := onTime_least run drained
  have least' := onTime_least run' drained'
  refine ⟨?_,fun included => ?_,fun same => ?_⟩
  · rw [least]
    exact Rules.least_closed
  · have more : w.atoms ⊆ w'.atoms := by
      rw [least, least']
      exact rules_mono included
    exact ⟨more,nodes_mono more⟩
  · have equal : w.atoms = w'.atoms := by
      rw [least, least']
      exact Set.Subset.antisymm (rules_mono fun seed => (same seed).mp) (rules_mono fun seed => (same seed).mpr)
    exact ⟨equal,nodes_congr equal⟩

theorem closureRun_onTime (unrooted : program.policy.summaryRoot = none) :
    program.OnTimeRuns (program.seedWorklist seeds) (program.closureRun seeds) := by
  refine Relation.ReflTransGen.mono (fun w w' step => ?_) _ _ closureRun_runs
  obtain ⟨item,pending,moved⟩ := step
  exact ⟨item,pending,onTime_unrooted unrooted,moved⟩

end ClosureProgram

theorem shared_helper_fixed_point : (QueryRuntimes.sharedHelper.unrestricted.closureRun [2]).nodes ⊆
    (QueryRuntimes.sharedHelper.unrestricted.closureRun [0,2]).nodes :=
  ((ClosureProgram.onTime_runs_fixed_point (ClosureProgram.closureRun_onTime rfl) ClosureProgram.closureRun_drained
    (ClosureProgram.closureRun_onTime rfl) ClosureProgram.closureRun_drained).2.1 (by decide)).2

def sampleEdge (source target : NodeId) (kind : IdgEdgeKind) (start : Nat) : IdgEdge :=
  ⟨source,target,⟨kind,.direct,⟨0,start,start + 4⟩⟩⟩

-- Function 0 stores both parameters in `obj.x` (node 2), passes the first on to 1,
-- which calls 2; 2 reads `obj.x` and writes `obj.z`, which 0 reads and returns. The
-- result of 0 depends on 1 and that of 1 on 2, but not directly on 2.
def lateActivation : IdgWorkspace where
  segments := [{
    places := [.param 0,.param 1,.write 0 [1] ⟨0,10,14⟩,.callArg ⟨⟨0,20,24⟩⟩ 0,.read 0 [2],.callRet ⟨⟨0,20,24⟩⟩,.return,
      .callArg ⟨⟨0,40,44⟩⟩ 0,.callRet ⟨⟨0,40,44⟩⟩,.read 0 [1],.write 0 [2] ⟨0,60,64⟩,.read 3 [1]]
    nodes := [⟨0,0⟩,⟨0,1⟩,⟨0,2⟩,⟨0,3⟩,⟨0,4⟩,⟨0,5⟩,⟨0,6⟩,⟨1,0⟩,⟨1,7⟩,⟨1,8⟩,⟨1,6⟩,⟨2,0⟩,⟨2,9⟩,⟨2,10⟩,⟨2,11⟩,⟨2,6⟩]
    edges := [sampleEdge 0 2 .intraAssign 10,sampleEdge 0 3 .intraRead 20,sampleEdge 1 2 .intraAssign 10,
      sampleEdge 4 6 .intraReturn 30,sampleEdge 5 6 .intraReturn 30,sampleEdge 7 8 .intraRead 40,
      sampleEdge 9 10 .intraReturn 45,sampleEdge 12 13 .intraAssign 60,sampleEdge 14 15 .intraReturn 65,
      sampleEdge 3 7 .interCallArg 20,sampleEdge 10 5 .interReturn 20,sampleEdge 8 11 .interCallArg 40,
      sampleEdge 15 9 .interReturn 40,sampleEdge 2 12 .interSharedFieldState 10,sampleEdge 13 4 .interSharedFieldState 60]
    funcs := [0,1,2]
    strings := [['o','b','j'],['x'],['z'],['q']] }]
  querySidecar := none
  segmentSpool := none
  residentSegments := []
  crossFileSpool := none
  symbolicTransformSpool := none
  byFunc := ((AList.singleton 0 0).insert 1 0).insert 2 0
  crossFile := []
  symbolicField := ⟨[['q'],['r']],[⟨0,2,0⟩,⟨0,2,1⟩],
    [⟨0,1,none,⟨0,62,64⟩,⟨0,62,64⟩,.direct,.copy,none,none,false⟩]⟩

def lateActivationProgram : ClosureProgram :=
  let batch := returnTaintParamIndicesInScope lateActivation [0] none
  let runtimes := summaryRuntimes lateActivation batch none
  runtimes.program (runtimes.summaryPolicy 0 batch.symbolicCallees none)

-- The first parameter alone reaches the result (node 6). Seeded with both, the heap
-- edge into 2 is refused before 2 is activated and never tried again, so the union
-- test denies both parameters and the run ends with an enabled rule unapplied.
theorem union_seed_misses_return :
    6 ∈ (lateActivationProgram.closureRun [0]).nodes ∧ 6 ∉ (lateActivationProgram.closureRun [0,1]).nodes ∧
      (compileReturnTaintParamIndices lateActivation [0] none).lookup 0 = some [] ∧
      ¬(lateActivationProgram.rules [0,1]).Closed (lateActivationProgram.closureRun [0,1]).atoms := by
  have alone : 6 ∈ (lateActivationProgram.closureRun [0]).nodes := by decide
  have union : 6 ∉ (lateActivationProgram.closureRun [0,1]).nodes := by decide
  refine ⟨alone,union,by decide,fun closed => union (ClosureProgram.nodes_mono ?_ alone)⟩
  have derived : (lateActivationProgram.closureRun [0]).atoms ⊆ (lateActivationProgram.rules [0]).least :=
    (ClosureProgram.runs_running ClosureProgram.seedWorklist_running ClosureProgram.closureRun_runs).derived
  exact (derived.trans (ClosureProgram.rules_mono (by simp))).trans (Rules.least_subset closed)

end BonsaiNinja.Idg
