import BonsaiNinja.Idg.ClosureFlow
import BonsaiNinja.Idg.ClosureOrder
import BonsaiNinja.Idg.FieldDemand
import BonsaiNinja.Idg.FlowSimulation
import BonsaiNinja.Idg.TargetInverses

namespace BonsaiNinja.Idg
open Library

section
variable {workspace : IdgWorkspace} {scope : FuncScope}

theorem baseId_inside {symbolic : SymbolicFieldGraph} {segment : SegmentId} {func : FuncId} {storage : Text} {base : Nat}
    (found : symbolic.baseId segment func storage = some base) : base < symbolic.bases.length := by
  have owner := baseId_owner found
  by_contra outside
  rw [List.getElem?_eq_none (Nat.le_of_not_lt outside)] at owner
  cases owner

theorem symbolicFact_inside {node : NodeId} {identity : SymbolicFactIdentity}
    (fact : identity ∈ (buildSymbolicRuntimeIndex workspace (buildUnified workspace) scope).symbolicFactsForNode
      (buildUnified workspace) node) : identity.base < workspace.symbolicField.bases.length := by
  obtain ⟨visited,_,_,template,row,rfl⟩ := symbolicFacts_source fact
  unfold pageFacts at row
  split at row
  · cases row
  · obtain ⟨path,_,made⟩ := List.mem_filterMap.mp row
    simp only [Option.bind_eq_bind, Option.bind_eq_some_iff, Option.pure_def, Option.some.injEq] at made
    obtain ⟨base,found,field,_,rfl⟩ := made
    exact baseId_inside found

theorem rebaseSpec_inside {symbolic : SymbolicFieldGraph} {spec : RebaseSpec} (member : spec ∈ rebaseSpecs symbolic) :
    spec.target < symbolic.bases.length := by
  simp only [rebaseSpecs, SortedRows.mem_ofList, List.mem_flatMap, Prod.exists] at member
  obtain ⟨nested,nestedId,entry,row⟩ := member
  unfold rebaseSpecsOf at row
  split at row
  · cases row
  · obtain ⟨split,_,row⟩ := List.mem_flatMap.mp row
    split at row
    · cases row
    · next ancestorId ancestor =>
      simp only [List.mem_cons, List.not_mem_nil, or_false] at row
      rcases row with rfl | rfl
      · exact baseId_inside ancestor
      · exact (List.getElem?_eq_some_iff.mp (List.mem_zipIdx_iff_getElem?.mp entry)).1

theorem rebase_inside {base : Nat} {rebase : SymbolicBaseRebase}
    (row : rebase ∈ (buildSymbolicRuntimeIndex workspace (buildUnified workspace) scope).baseRebases.get base) :
    rebase.target < workspace.symbolicField.bases.length := by
  obtain ⟨spec,member,_,_,target,_⟩ := mem_rebases.mp row
  rw [target]
  exact rebaseSpec_inside member

end

namespace ClosureProgram
variable (program : ClosureProgram) (seeds : List NodeId)
variable {transform : SymbolicFieldTransform}

-- The same closure without the filter: every interned base is demanded.
def unfiltered : ClosureProgram := { program with fieldDemand := List.range program.symbolic.bases.length }

def ScalarsProjected : Prop := ∀ transform ∈ program.runtime.transforms, transform.kind = .scalarReturn →
  ∀ field, program.scalarMatches transform field = true → (transform.source,field) ∈ program.runtime.projectedFactKeys

-- A fact takes a transform into the function another base belongs to, which records
-- the context it comes from and may activate the function.
structure Enters (known : Set ClosureAtom) (identity : SymbolicFactIdentity) (context : CallContext)
    (transform : SymbolicFieldTransform) : Prop where
  fact : .fact ⟨identity,context⟩ ∈ known
  row : transform ∈ program.runtime.outgoing identity.base
  ordered : program.writtenAfter transform identity = false
  relevant : program.factIsRelevant transform.target identity.field = true
  contextual : program.policy.contextual ≠ none
  boundary : ∃ key, symbolicTransformBoundary program.symbolic transform = some (key,true) ∧
    program.MayEnter known key.caller key.callee

def EntriesDemanded : Prop := ∀ identity context transform,
  program.unfiltered.Enters (program.unfiltered.rules seeds).least identity context transform →
    transform.target ∈ program.fieldDemand

variable {program} {seeds}

theorem unfiltered_frame : SameFrame program program.unfiltered := ⟨rfl,rfl,rfl,rfl⟩

theorem unfiltered_relevant {base field : Nat} (inside : base < program.symbolic.bases.length)
    (relevant : program.factIsRelevant base field = true) : program.unfiltered.factIsRelevant base field = true := by
  unfold factIsRelevant at relevant ⊢
  rw [Bool.and_eq_true] at relevant ⊢
  exact ⟨List.contains_iff_mem.mpr (List.mem_range.mpr inside),relevant.2⟩

theorem filtered_relevant {base field : Nat} (demanded : base ∈ program.fieldDemand)
    (relevant : program.unfiltered.factIsRelevant base field = true) : program.factIsRelevant base field = true := by
  unfold factIsRelevant at relevant ⊢
  rw [Bool.and_eq_true] at relevant ⊢
  exact ⟨List.contains_iff_mem.mpr demanded,relevant.2⟩

theorem targetActive_inside {known : Set ClosureAtom}
    (active : program.TargetActive known transform) : transform.target < program.symbolic.bases.length := by
  obtain ⟨base,found,_⟩ := active
  exact (List.getElem?_eq_some_iff.mp found).1

theorem boundary_inside {symbolic : SymbolicFieldGraph}
    {key : ContextBoundaryKey} {enters : Bool} (boundary : symbolicTransformBoundary symbolic transform = some (key,enters)) :
    transform.target < symbolic.bases.length := by
  unfold symbolicTransformBoundary at boundary
  simp only [Option.bind_eq_bind, Option.bind_eq_some_iff] at boundary
  obtain ⟨_,_,base,found,_⟩ := boundary
  exact (List.getElem?_eq_some_iff.mp found).1

theorem boundary_argument {symbolic : SymbolicFieldGraph}
    {key : ContextBoundaryKey} (boundary : symbolicTransformBoundary symbolic transform = some (key,true)) :
    transform.kind = .argument := by
  unfold symbolicTransformBoundary at boundary
  simp only [Option.bind_eq_bind, Option.bind_eq_some_iff] at boundary
  obtain ⟨_,_,_,_,found⟩ := boundary
  split at found
  · cases found
  · split at found <;> first | assumption | cases found

-- Of the relations a runtime is built from, those the filter relies on.
structure DemandClosed (program : ClosureProgram) : Prop where
  introduced : ∀ {node identity}, identity ∈ program.runtime.symbolicFactsForNode program.unified node →
    identity.base < program.symbolic.bases.length
  rebased : ∀ {base rebase}, rebase ∈ program.runtime.baseRebases.get base → rebase.target < program.symbolic.bases.length
  back : ∀ {base rebase}, rebase ∈ program.runtime.baseRebases.get base → rebase.target ∈ program.fieldDemand →
    base ∈ program.fieldDemand
  reads : ∀ {identity node}, node ∈ program.factConsumers identity → identity.base ∈ program.fieldDemand
  moved : ∀ {base transform}, transform ∈ program.runtime.outgoing base → transform.kind ≠ .scalarReturn →
    transform.target ∈ program.fieldDemand → base ∈ program.fieldDemand
  scalars : ∀ {base transform field}, transform ∈ program.runtime.outgoing base → transform.kind = .scalarReturn →
    program.scalarMatches transform field = true → base ∈ program.fieldDemand

section
variable (demand : DemandClosed program)
include demand

theorem filtered_simulates : FactAlgebra.Simulates program.factAlgebra program.unfiltered.factAlgebra program
    (fun i j => i = j ∧ i.base < program.symbolic.bases.length) (fun _ => True)
    (program.factAlgebra.rules program seeds).least (program.unfiltered.factAlgebra.rules program.unfiltered seeds).least where
  introduced {node i} introduced kept _ := by
    have inside := demand.introduced introduced
    exact ⟨i,⟨rfl,inside⟩,introduced,unfiltered_relevant inside kept⟩
  keeps related kept := by
    obtain ⟨rfl,inside⟩ := related
    exact unfiltered_relevant inside kept
  rebased _ matched rebased kept _ := by
    obtain ⟨j,⟨rfl,_⟩,member⟩ := matched trivial
    obtain ⟨rebase,row,field,found,rfl⟩ := rebased
    exact ⟨_,_,member,⟨rfl,demand.rebased row⟩,rebase,row,field,found,rfl⟩
  reads _ matched read := by
    obtain ⟨j,⟨rfl,_⟩,member⟩ := matched trivial
    exact ⟨_,member,read⟩
  scalar _ matched passes kind written := by
    obtain ⟨j,⟨rfl,_⟩,member⟩ := matched trivial
    obtain ⟨row,ordered,_⟩ := passes
    exact ⟨_,member,⟨row,ordered,fun other => absurd kind other⟩,written⟩
  carried _ matched passes kind target _ := by
    obtain ⟨j,⟨rfl,_⟩,member⟩ := matched trivial
    obtain ⟨row,ordered,relevant⟩ := passes
    have inside := targetActive_inside target
    exact ⟨_,member,⟨row,ordered,fun _ => unfiltered_relevant inside (relevant kind)⟩,rfl,inside⟩
  entered _ matched passes _ boundary _ := by
    obtain ⟨j,⟨rfl,_⟩,member⟩ := matched trivial
    obtain ⟨row,ordered,relevant⟩ := passes
    exact ⟨_,member,row,ordered,fun kind => unfiltered_relevant (boundary_inside boundary) (relevant kind)⟩

-- A fact at a base without demand is read by nothing and only becomes such facts.
theorem unfiltered_simulates (entries : program.EntriesDemanded seeds) :
    FactAlgebra.Simulates program.unfiltered.factAlgebra program.factAlgebra program.unfiltered
      (fun i j => i = j ∧ i.base ∈ program.fieldDemand) (fun i => i.base ∈ program.fieldDemand)
      (program.unfiltered.factAlgebra.rules program.unfiltered seeds).least (program.factAlgebra.rules program seeds).least where
  introduced {node i} introduced kept demanded := ⟨i,⟨rfl,demanded⟩,introduced,filtered_relevant demanded kept⟩
  keeps related kept := by
    obtain ⟨rfl,demanded⟩ := related
    exact filtered_relevant demanded kept
  rebased _ matched rebased kept demanded := by
    obtain ⟨rebase,row,field,found,rfl⟩ := rebased
    obtain ⟨j,⟨rfl,_⟩,member⟩ := matched (demand.back row demanded)
    exact ⟨_,_,member,⟨rfl,demanded⟩,rebase,row,field,found,rfl⟩
  reads _ matched read := by
    obtain ⟨j,⟨rfl,_⟩,member⟩ := matched (demand.reads read)
    exact ⟨_,member,read⟩
  scalar _ matched passes kind written := by
    obtain ⟨row,ordered,_⟩ := passes
    obtain ⟨j,⟨rfl,_⟩,member⟩ := matched (demand.scalars row kind written.1)
    exact ⟨_,member,⟨row,ordered,fun other => absurd kind other⟩,written⟩
  carried _ matched passes kind _ demanded := by
    obtain ⟨row,ordered,relevant⟩ := passes
    obtain ⟨j,⟨rfl,_⟩,member⟩ := matched (demand.moved row kind demanded)
    exact ⟨_,member,⟨row,ordered,fun _ => filtered_relevant demanded (relevant kind)⟩,rfl,demanded⟩
  entered {i context transform key} fact matched passes contextual boundary enter := by
    obtain ⟨row,ordered,relevant⟩ := passes
    have kind : transform.kind ≠ .scalarReturn := by
      rw [boundary_argument boundary]
      exact nofun
    have actives : FactAlgebra.actives (program.unfiltered.factAlgebra.rules program.unfiltered seeds).least ⊆
        (program.unfiltered.rules seeds).least := by
      intro atom found
      obtain ⟨func,rfl,active⟩ := found
      exact (derived_iff (a := .active func)).mpr active
    have demanded : transform.target ∈ program.fieldDemand :=
      entries i context transform ⟨(derived_iff (a := .fact i context)).mpr fact,row,ordered,relevant kind,contextual,key,
        boundary,enter.mono actives⟩
    obtain ⟨j,⟨rfl,_⟩,member⟩ := matched (demand.moved row kind demanded)
    exact ⟨_,member,row,ordered,fun _ => filtered_relevant demanded (relevant kind)⟩

theorem demand_reaches (entries : program.EntriesDemanded seeds) (node : NodeId) :
    program.factAlgebra.Reaches program seeds node ↔ program.unfiltered.factAlgebra.Reaches program.unfiltered seeds node :=
  ⟨(filtered_simulates demand).reaches unfiltered_frame,
    (unfiltered_simulates demand entries).reaches unfiltered_frame.symm⟩

end

end ClosureProgram

section
variable {workspace : IdgWorkspace} {globalContextual globalSymbolic : Bool} {allowed : FuncScope}
  {policy : SymbolicClosurePolicy}

theorem cachedRuntimes_demandClosed
    (scalars : ((cachedRuntimes workspace globalContextual globalSymbolic allowed).program policy).ScalarsProjected) :
    ClosureProgram.DemandClosed ((cachedRuntimes workspace globalContextual globalSymbolic allowed).program policy) where
  introduced fact := symbolicFact_inside fact
  rebased row := rebase_inside row
  back {base rebase} row demanded := by
    obtain ⟨back,other,same,_⟩ := rebase_back row
    refine SymbolicRuntimeIndex.fieldDemand_source demanded (List.mem_append_left _ ?_)
    exact List.mem_map.mpr ⟨back,other,same⟩
  reads {identity node} read := by
    refine SymbolicRuntimeIndex.fieldDemand_seed ?_
    rcases List.mem_append.mp read with exact' | aggregate
    · obtain ⟨⟨_,_,isRead⟩,row,same⟩ := List.mem_map.mp (SortedRows.mem_ofList.mp (GroupedRows.mem_get.mp exact'))
      cases same
      have key := SortedRows.mem_ofList.mpr (List.mem_map_of_mem (f := (·.1)) (List.mem_of_mem_filter row))
      exact List.mem_append_left _ (List.mem_map_of_mem key)
    · exact List.mem_append_right _ (List.mem_map.mpr ⟨_,GroupedRows.mem_get.mp aggregate,rfl⟩)
  moved {base transform} row kind demanded := by
    obtain ⟨member,source⟩ := List.mem_filter.mp row
    refine SymbolicRuntimeIndex.fieldDemand_source demanded (List.mem_append_right _ ?_)
    refine List.mem_map.mpr ⟨⟨transform.target,transform.source,transform.kind⟩,?_,of_decide_eq_true source⟩
    refine List.mem_filter.mpr ⟨SortedRows.mem_ofList.mpr (List.mem_map.mpr ⟨transform,?_,rfl⟩),decide_eq_true rfl⟩
    exact List.mem_filter.mpr ⟨member,decide_eq_true kind⟩
  scalars {base transform field} row kind same := by
    obtain ⟨member,source⟩ := List.mem_filter.mp row
    have key := scalars transform member kind field same
    refine SymbolicRuntimeIndex.fieldDemand_seed (List.mem_append_left _ (List.mem_map.mpr ⟨_,key,?_⟩))
    exact of_decide_eq_true source

end
-- Function 2 writes `obj.f` from its first parameter and calls 3 with `obj` and its
-- second parameter, which 3 returns. Functions 0 and 1 call 2, each with one of the two.
-- What 3 reads and returns of its own first parameter `o` is left open.
def helperFields (readers : List IdgNode) (returned : List SymbolicFieldTransform) : IdgWorkspace where
  segments := [{
    places := [.callArg ⟨⟨0,110,114⟩⟩ 1,.callRet ⟨⟨0,110,114⟩⟩,.callArg ⟨⟨0,120,124⟩⟩ 0,.callRet ⟨⟨0,120,124⟩⟩,.param 0,.param 1,
      .write 0 [1] ⟨0,10,14⟩,.read 0 [],.callArg ⟨⟨0,20,24⟩⟩ 0,.callArg ⟨⟨0,20,24⟩⟩ 1,.callRet ⟨⟨0,20,24⟩⟩,.return,.read 2 [1]]
    nodes := [⟨0,0⟩,⟨0,1⟩,⟨1,2⟩,⟨1,3⟩,⟨2,4⟩,⟨2,5⟩,⟨2,6⟩,⟨2,7⟩,⟨2,8⟩,⟨2,9⟩,⟨2,10⟩,⟨2,11⟩,⟨3,4⟩,⟨3,5⟩,⟨3,11⟩] ++ readers
    edges := [sampleEdge 4 6 .intraAssign 10,sampleEdge 7 8 .intraRead 20,sampleEdge 5 9 .intraRead 20,
      sampleEdge 10 11 .intraReturn 25,sampleEdge 13 14 .intraReturn 30,sampleEdge 0 5 .interCallArg 110,
      sampleEdge 2 4 .interCallArg 120,sampleEdge 8 12 .interCallArg 20,sampleEdge 9 13 .interCallArg 20,
      sampleEdge 14 10 .interReturn 20,sampleEdge 11 1 .interReturn 110,sampleEdge 11 3 .interReturn 120]
    funcs := [0,1,2,3]
    strings := [['o','b','j'],['f'],['o']] }]
  querySidecar := none
  segmentSpool := none
  residentSegments := []
  crossFileSpool := none
  symbolicTransformSpool := none
  byFunc := (((AList.singleton 0 0).insert 1 0).insert 2 0).insert 3 0
  crossFile := []
  symbolicField := ⟨[['o','b','j'],['o'],['f']],[⟨0,2,0⟩,⟨0,3,1⟩],
    ⟨0,1,none,⟨0,20,24⟩,⟨0,20,23⟩,.direct,.argument,some 0,some 0,false⟩ :: returned⟩

def helperProgram (readers : List IdgNode) (returned : List SymbolicFieldTransform) : ClosureProgram :=
  (cachedRuntimes (helperFields readers returned) true true none).program
    (cachedRuntimes (helperFields readers returned) true true none).unrestrictedPolicy

theorem entriesDemanded_of_targets {program : ClosureProgram} {seeds : List NodeId}
    (demanded : ∀ transform ∈ program.runtime.transforms, transform.kind = .argument → transform.target ∈ program.fieldDemand) :
    program.EntriesDemanded seeds := by
  intro identity context transform enters
  obtain ⟨key,boundary,_⟩ := enters.boundary
  exact demanded transform (List.mem_of_mem_filter enters.row) (ClosureProgram.boundary_argument boundary)

-- The same caller, with 3 reading `o.f` and returning it.
def readingProgram : ClosureProgram :=
  helperProgram [⟨3,12⟩] [⟨1,0,some 2,⟨0,20,24⟩,⟨0,16,24⟩,.direct,.scalarReturn,none,none,true⟩]

end BonsaiNinja.Idg
