import BonsaiNinja.Idg.SummaryFixedPoint
import BonsaiNinja.Idg.SummaryLowering

namespace BonsaiNinja.Idg
open Library

def ParamPort (workspace : IdgWorkspace) (func : FuncId) (p : Nat) : Prop :=
  ∃ id node idx, At workspace id node func p (some (.param idx))

def ReturnThrowPort (workspace : IdgWorkspace) (func : FuncId) (o : Nat) : Prop :=
  ∃ id node place, At workspace id node func o place ∧ ReturnThrowPlace place

def YieldPort (workspace : IdgWorkspace) (func : FuncId) (o : Nat) : Prop :=
  ∃ id node, At workspace id node func o (some .yield)

-- A path inside `func`: its own edges, and calls that enter a callee through an
-- input row and leave it through an output row of the same key, with a path of
-- the callee in between. `matched` says which callee ports a call may leave by.
inductive Realizable (workspace : IdgWorkspace) (matched : FuncId → Nat → Prop) : FuncId → Nat → Nat → Prop where
  | refl {func a} : Realizable workspace matched func a a
  | intra {func a b c} : Realizable workspace matched func a b → IntraEdge workspace func b c →
      Realizable workspace matched func a c
  | call {func a b i o c} {key : CallBoundaryKey} : Realizable workspace matched func a b → key.caller = func →
      InputRow workspace key b i → Realizable workspace matched key.callee i o → matched key.callee o →
      OutputRow workspace key o c → Realizable workspace matched func a c

theorem Realizable.mono {matched larger : FuncId → Nat → Prop} (wider : ∀ func o, matched func o → larger func o)
    (path : Realizable workspace matched func a b) : Realizable workspace larger func a b := by
  induction path with
  | refl => exact .refl
  | intra _ edge previous => exact .intra previous edge
  | call _ owner input _ port output previous inner => exact .call previous owner input inner (wider _ _ port) output

section
variable {workspace : IdgWorkspace}

-- Each function's nodes share one segment, so a compact index names one node.
theorem at_unique {id id' : SegmentId} (owned : workspace.Owned) (left : At workspace id node func compact place)
    (right : At workspace id' node' func compact place') : id = id' ∧ place = place' := by
  obtain ⟨segment,found,view,atNode,owner,index,rfl⟩ := left
  obtain ⟨segment',found',view',atNode',owner',index',rfl⟩ := right
  have same : id = id' := owned _ view _ view' found (List.mem_of_getElem? atNode) found' (List.mem_of_getElem? atNode')
    (owner.trans owner'.symm)
  subst same
  obtain rfl := views_unique view view'
  have first := funcNodes_compact atNode owner
  have second := funcNodes_compact atNode' owner'
  rw [← index] at first
  rw [← index'] at second
  exact ⟨rfl,congrArg _ (Option.some.inj (first.symm.trans second))⟩

theorem yield_not_returnThrow (owned : workspace.Owned) (yields : YieldPort workspace func o)
    (returns : ReturnThrowPort workspace func o) : False := by
  obtain ⟨id,node,at_yield⟩ := yields
  obtain ⟨id',node',place,at_return,port⟩ := returns
  rw [← (at_unique owned at_yield at_return).2] at port
  exact port

theorem output_port (output : OutputRow workspace key o c) :
    ReturnThrowPort workspace key.callee o ∨ YieldPort workspace key.callee o := by
  obtain ⟨edge,port,place,_,family,_,source,_⟩ := output
  rcases family with ⟨_,tag⟩ | ⟨_,tag⟩ | ⟨_,tag⟩
  · unfold boundaryTag at tag
    split at tag <;> simp at tag
    exact .inl ⟨_,_,_,source,trivial⟩
  · unfold boundaryTag at tag
    split at tag <;> simp at tag
    exact .inl ⟨_,_,_,source,trivial⟩
  · unfold boundaryTag at tag
    split at tag <;> simp at tag
    exact .inr ⟨_,_,source⟩

theorem input_param (input : InputRow workspace key a i) : ParamPort workspace key.callee i := by
  obtain ⟨edge,place,idx,_,_,_,_,target⟩ := input
  exact ⟨_,_,idx,target⟩

end

section
variable {workspace : IdgWorkspace} (owned : workspace.Owned)
variable {func : FuncId} {id : SegmentId} {a b : Nat}
include owned

theorem local_lowered : Lowered workspace (· < workspace.segmentCount)
    ((summarySegments workspace none).foldl (lowerInputs workspace none) ⟨∅,∅,∅,⟨[],[]⟩⟩) := by
  obtain ⟨nodup,members⟩ := summarySegments_all workspace
  have lowered := lowered_all owned _ nodup (fun id member => (members id).mp member) lowered_start fun _ _ => id
  have same : (fun id => id ∈ summarySegments workspace none ∨ False) = (· < workspace.segmentCount) := by
    funext id
    rw [or_false, members]
  rwa [same] at lowered

theorem program_layout {layout : FunctionLayout} :
    (summaryProgram workspace none).layouts.lookup func = some layout ↔ ∃ id segment,
      (id,segment) ∈ workspace.segmentViews ∧ funcNodes segment.nodes func ≠ [] ∧
        layout = (segmentLayout id segment func).sortPorts := by
  have lowered := local_lowered owned
  refine (iff_of_eq (congrArg (· = some layout) IdMap.lookup_mapValues)).trans (Option.map_eq_some_iff.trans ?_)
  constructor
  · rintro ⟨raw,known,rfl⟩
    obtain ⟨id,_,segment,view,some,rfl⟩ := (lowered.layouts func raw).mp known
    exact ⟨id,segment,view,some,rfl⟩
  · rintro ⟨id,segment,view,some,rfl⟩
    exact ⟨_,(lowered.layouts func _).mpr ⟨id,(IdgWorkspace.mem_segmentViews.mp view).1,segment,view,some,rfl⟩,rfl⟩

theorem program_edge {segment : IdgSegment} (view : (id,segment) ∈ workspace.segmentViews)
    : (a,b) ∈ (summaryProgram workspace none).basePages id func ↔ BaseEdge segment func a b := by
  obtain ⟨page,known,edges⟩ :=
    (local_lowered owned).basePages id (IdgWorkspace.mem_segmentViews.mp view).1 segment view
  have read : (summaryProgram workspace none).basePages id = page := by
    refine (congrArg (fun found => Option.getD found fun _ => ⊥) known : _)
  rw [read]
  exact edges func a b

theorem base_intra {segment : IdgSegment} (view : (id,segment) ∈ workspace.segmentViews)
    (some : funcNodes segment.nodes func ≠ []) :
    BaseEdge segment func a b ↔ IntraEdge workspace func a b := by
  refine ⟨fun edge => ⟨id,segment,view,edge⟩,?_⟩
  rintro ⟨other,otherSegment,otherView,edge⟩
  obtain ⟨node,member,owner⟩ := funcNodes_ne_nil.mp some
  have ⟨_,_,_,_,source,_,atSource,_,sourceOwner,_⟩ := edge
  have same : id = other :=
    owned _ view _ otherView node member source (List.mem_of_getElem? atSource) (owner.trans sourceOwner.symm)
  subst same
  obtain rfl := views_unique view otherView
  exact edge

theorem program_pairs (holds : CallBoundaryKey → Nat → Nat → Prop) :
    (∃ boundary ∈ (summaryProgram workspace none).boundaries.forCaller func, ∃ i o,
      (a,i) ∈ (summaryProgram workspace none).boundaries.inputsOf boundary ∧
      (o,b) ∈ (summaryProgram workspace none).boundaries.outputsOf boundary ∧ holds boundary.key i o) ↔
    ∃ key i o, key.caller = func ∧ InputRow workspace key a i ∧ OutputRow workspace key o b ∧ holds key i o := by
  refine (boundary_pairs (sortDedup_sorted _) (sortDedup_sorted _)).trans ?_
  refine exists_congr fun key => exists_congr fun i => exists_congr fun o => and_congr_right fun _ =>
    and_congr (mem_sortDedup.trans ?_) (and_congr_left fun _ => mem_sortDedup.trans ?_)
  · have collected := @crossFile_inputs workspace key a i _ (local_lowered owned)
    exact collected
  · have collected := @crossFile_outputs workspace key o b _ (local_lowered owned)
    exact collected

-- The layout of a function lists exactly its formal parameters and its return
-- and throw ports, and numbers all its nodes.
theorem layout_ports {layout : FunctionLayout}
    (known : (summaryProgram workspace none).layouts.lookup func = some layout) :
    (∀ p, (∃ idx, (idx,p) ∈ layout.params) ↔ ParamPort workspace func p) ∧
    (∀ o, o ∈ layout.outputs ↔ ReturnThrowPort workspace func o) ∧
    (∀ id node compact place, At workspace id node func compact place → compact < layout.nodeCount) ∧
    (∀ a b, (a,b) ∈ (summaryProgram workspace none).basePages layout.segment func ↔ IntraEdge workspace func a b) := by
  obtain ⟨id,segment,view,some,rfl⟩ := (program_layout owned).mp known
  obtain ⟨segmentEq,count,params,outputs⟩ :=
    portLayout_spec (.new id) ((funcNodes segment.nodes func).map segment.placeOf)
  have numbered (k : Nat) (place : Option Place) :
      ((funcNodes segment.nodes func).map segment.placeOf)[k]? = Option.some place ↔
        ∃ node, At workspace id node func k place := by
    rw [List.getElem?_map, Option.map_eq_some_iff]
    constructor
    · rintro ⟨node,found,rfl⟩
      obtain ⟨n,atNode,owner,index⟩ := funcNodes_pullback found
      exact ⟨n,segment,node,view,atNode,owner,index.symm,rfl⟩
    · rintro ⟨n,other,node,otherView,atNode,owner,rfl,rfl⟩
      obtain rfl := views_unique view otherView
      exact ⟨node,funcNodes_compact atNode owner,rfl⟩
  have home {other : SegmentId} {node : NodeId} {compact : Nat} {place : Option Place}
      (located : At workspace other node func compact place) : other = id := by
    obtain ⟨otherSegment,found,otherView,atNode,owner,_⟩ := located
    obtain ⟨node,member,nodeOwner⟩ := funcNodes_ne_nil.mp some
    exact (owned _ view _ otherView node member found (List.mem_of_getElem? atNode) (nodeOwner.trans owner.symm)).symm
  simp only [FunctionLayout.new, List.not_mem_nil, false_or, Nat.zero_add] at segmentEq count params outputs
  refine ⟨fun p => ?_,fun o => mem_sortDedup.trans ((outputs o).trans ?_),fun other node compact place located => ?_,
    fun a b => ?_⟩
  · constructor
    · rintro ⟨idx,listed⟩
      obtain ⟨k,found,rfl⟩ := (params idx p).mp (mem_sortDedup.mp listed)
      obtain ⟨node,located⟩ := (numbered _ _).mp found
      exact ⟨id,node,idx,located⟩
    · rintro ⟨other,node,idx,located⟩
      obtain rfl := home located
      exact ⟨idx,mem_sortDedup.mpr ((params idx p).mpr ⟨p,(numbered _ _).mpr ⟨node,located⟩,rfl⟩)⟩
  · constructor
    · rintro ⟨k,place,found,port,rfl⟩
      obtain ⟨node,located⟩ := (numbered _ _).mp found
      exact ⟨id,node,place,located,port⟩
    · rintro ⟨other,node,place,located,port⟩
      obtain rfl := home located
      exact ⟨o,place,(numbered _ _).mpr ⟨node,located⟩,port,rfl⟩
  · obtain rfl := home located
    have found := (numbered _ _).mpr ⟨node,located⟩
    obtain ⟨bound,_⟩ := List.getElem?_eq_some_iff.mp found
    exact bound.trans_eq count.symm
  · have segmentId : (segmentLayout id segment func).sortPorts.segment = id := segmentEq
    rw [segmentId, program_edge owned view]
    exact base_intra owned view some

theorem at_layout (located : At workspace id node func compact place) :
    ∃ layout, (summaryProgram workspace none).layouts.lookup func = some layout := by
  obtain ⟨segment,found,view,atNode,owner,_⟩ := located
  exact ⟨_,(program_layout owned).mpr ⟨id,segment,view,funcNodes_ne_nil.mpr ⟨found,List.mem_of_getElem? atNode,owner⟩,rfl⟩⟩

theorem param_layout (port : ParamPort workspace func p) :
    ∃ layout, (summaryProgram workspace none).layouts.lookup func = some layout := by
  obtain ⟨id,node,idx,located⟩ := port
  exact at_layout owned located

end

def PathStep (workspace : IdgWorkspace) (inner : FuncId → Nat → Nat → Prop) (func : FuncId) (a b : Nat) : Prop :=
  IntraEdge workspace func a b ∨ ∃ key i o, key.caller = func ∧ InputRow workspace key a i ∧ OutputRow workspace key o b ∧
    inner key.callee i o

theorem intra_located (edge : IntraEdge workspace func a b) :
    (∃ id node place, At workspace id node func a place) ∧ ∃ id node place, At workspace id node func b place := by
  obtain ⟨id,segment,view,edge,_,_,_,source,target,atSource,atTarget,sourceOwner,targetOwner,rfl,rfl⟩ := edge
  exact ⟨⟨id,edge.fromNode,_,segment,source,view,atSource,sourceOwner,rfl,rfl⟩,
    ⟨id,edge.toNode,_,segment,target,view,atTarget,targetOwner,rfl,rfl⟩⟩

theorem step_located {inner : FuncId → Nat → Nat → Prop} (step : PathStep workspace inner func a b) :
    (∃ id node place, At workspace id node func a place) ∧ ∃ id node place, At workspace id node func b place := by
  rcases step with edge | ⟨key,i,o,rfl,input,output,_⟩
  · exact intra_located edge
  · obtain ⟨_,_,_,_,_,_,source,_⟩ := input
    obtain ⟨_,_,_,_,_,_,_,target⟩ := output
    exact ⟨⟨_,_,_,source⟩,⟨_,_,_,target⟩⟩

theorem functionSummaries_least (workspace : IdgWorkspace) :
    (summaryProgram workspace none).LeastSolution (functionSummaries workspace none) :=
  SummaryProgram.loop_least (summaryProgram_wakes workspace none)

theorem solved_get {workspace : IdgWorkspace} {func : FuncId} {layout : FunctionLayout}
    (known : (summaryProgram workspace none).layouts.lookup func = some layout) :
    (functionSummaries workspace none).get func =
      ((summaryProgram workspace none).compile func layout (functionSummaries workspace none).get).summary := by
  have solved := (functionSummaries_least workspace).solves func layout known
  rw [Summaries.get, solved, Option.getD_some]

section
variable {workspace : IdgWorkspace} (owned : workspace.Owned)
include owned

theorem compile_paths {func : FuncId} {layout : FunctionLayout} {summaries : FuncId → SortedRows (Nat × Nat)}
    (known : (summaryProgram workspace none).layouts.lookup func = some layout) {p o : Nat} :
    (p,o) ∈ ((summaryProgram workspace none).compile func layout summaries).summary ↔
      ParamPort workspace func p ∧ ReturnThrowPort workspace func o ∧
        Relation.ReflTransGen (PathStep workspace (fun callee i o => (i,o) ∈ summaries callee) func) p o := by
  obtain ⟨params,outputs,bounded,base⟩ := layout_ports owned known
  have steps : ∀ a b, (StepEdge func ((summaryProgram workspace none).basePages layout.segment func)
      (summaryProgram workspace none).boundaries summaries a b ∧ a < layout.nodeCount ∧ b < layout.nodeCount) ↔
      PathStep workspace (fun callee i o => (i,o) ∈ summaries callee) func a b := by
    intro a b
    have same : StepEdge func ((summaryProgram workspace none).basePages layout.segment func)
        (summaryProgram workspace none).boundaries summaries a b ↔
        PathStep workspace (fun callee i o => (i,o) ∈ summaries callee) func a b :=
      or_congr (base a b) (program_pairs owned fun key i o => (i,o) ∈ summaries key.callee)
    rw [same]
    refine and_iff_left_of_imp fun step => ?_
    obtain ⟨⟨_,_,_,source⟩,_,_,_,target⟩ := step_located step
    exact ⟨bounded _ _ _ _ source,bounded _ _ _ _ target⟩
  have bound : o ∈ layout.outputs → o < layout.nodeCount := fun listed => by
    obtain ⟨_,_,_,located,_⟩ := (outputs o).mp listed
    exact bounded _ _ _ _ located
  rw [SummaryProgram.compile, mem_summary, params, outputs]
  simp only [steps]
  constructor
  · rintro ⟨param,output,_,path⟩
    exact ⟨param,output,path⟩
  · rintro ⟨param,output,path⟩
    exact ⟨param,output,bound ((outputs o).mpr output),path⟩

theorem summary_complete (path : Realizable workspace (ReturnThrowPort workspace) func a b) :
    Relation.ReflTransGen (PathStep workspace
      (fun callee i o => (i,o) ∈ (functionSummaries workspace none).get callee) func) a b := by
  induction path with
  | refl => exact .refl
  | intra _ edge previous => exact previous.tail (.inl edge)
  | @call func a b i o c key _ owner input _ port output previous inner =>
    refine previous.tail (.inr ⟨key,i,o,owner,input,output,?_⟩)
    obtain ⟨layout,known⟩ := param_layout owned (input_param input)
    rw [solved_get known]
    exact (compile_paths owned known).mpr ⟨input_param input,port,inner⟩

-- Soundness: the realizable pairs are closed under compilation, so the least
-- summaries hold no other pair.
theorem summary_sound (listed : (p,o) ∈ (functionSummaries workspace none).get func) :
    ReturnThrowPort workspace func o ∧ Realizable workspace (ReturnThrowPort workspace) func p o := by
  classical
  let pairs (func : FuncId) : List (Nat × Nat) := ((summaryProgram workspace none).layouts.lookup func).elim [] fun layout =>
    (layout.params.map (·.2)) ×ˢ layout.outputs
  let other (func : FuncId) : SortedRows (Nat × Nat) := .ofList ((pairs func).filter fun pair =>
    Realizable workspace (ReturnThrowPort workspace) func pair.1 pair.2)
  have inPairs {func : FuncId} {layout : FunctionLayout} {p o : Nat}
      (known : (summaryProgram workspace none).layouts.lookup func = some layout) :
      (p,o) ∈ pairs func ↔ ParamPort workspace func p ∧ ReturnThrowPort workspace func o := by
    obtain ⟨params,outputs,_⟩ := layout_ports owned known
    simp only [pairs, known, Option.elim_some, List.mem_product, List.mem_map, Prod.exists, exists_eq_right, params, outputs]
  have inOther {func : FuncId} {p o : Nat} (member : (p,o) ∈ other func) :
      (p,o) ∈ pairs func ∧ Realizable workspace (ReturnThrowPort workspace) func p o := by
    have kept := List.mem_filter.mp (SortedRows.mem_ofList.mp member)
    exact ⟨kept.1,of_decide_eq_true kept.2⟩
  have outputOf {func : FuncId} {p o : Nat} (member : (p,o) ∈ pairs func) : ReturnThrowPort workspace func o := by
    cases known : (summaryProgram workspace none).layouts.lookup func with
    | none => simp [pairs,known] at member
    | some layout => exact ((inPairs known).mp member).2
  have closed : ∀ func layout, (summaryProgram workspace none).layouts.lookup func = some layout →
      ((summaryProgram workspace none).compile func layout other).summary ≤ other func := by
    rintro func layout known ⟨p,o⟩ compiled
    obtain ⟨param,output,path⟩ := (compile_paths owned known).mp compiled
    refine SortedRows.mem_ofList.mpr (List.mem_filter.mpr ⟨(inPairs known).mpr ⟨param,output⟩,decide_eq_true ?_⟩)
    clear compiled output
    induction path with
    | refl => exact .refl
    | tail _ step previous =>
      rcases step with edge | ⟨key,i,o,owner,input,output,member⟩
      · exact .intra previous edge
      · obtain ⟨listed,inner⟩ := inOther member
        exact .call previous owner input inner (outputOf listed) output
  obtain ⟨member,path⟩ := inOther ((functionSummaries_least workspace).least other closed func _ listed)
  exact ⟨outputOf member,path⟩

-- The summaries hold exactly the parameter to return-or-throw pairs joined by a
-- path whose calls are matched through return and throw ports.
theorem summary_iff (param : ParamPort workspace func p) :
    (p,o) ∈ (functionSummaries workspace none).get func ↔
      ReturnThrowPort workspace func o ∧ Realizable workspace (ReturnThrowPort workspace) func p o := by
  refine ⟨summary_sound owned,fun ⟨output,path⟩ => ?_⟩
  obtain ⟨layout,known⟩ := param_layout owned param
  rw [solved_get known]
  exact (compile_paths owned known).mpr ⟨param,output,summary_complete owned path⟩

end

-- Without a yield port reached from a parameter, no call needs a yield match.
theorem realizable_without_yields (quiet : ¬∃ func p o, ParamPort workspace func p ∧ YieldPort workspace func o ∧
      Realizable workspace (ReturnThrowPort workspace) func p o)
    (path : Realizable workspace (fun _ _ => True) func a b) :
    Realizable workspace (ReturnThrowPort workspace) func a b := by
  induction path with
  | refl => exact .refl
  | intra _ edge previous => exact .intra previous edge
  | call _ owner input _ _ output previous inner =>
    rcases output_port output with port | port
    · exact .call previous owner input inner port output
    · exact absurd ⟨_,_,_,input_param input,port,inner⟩ quiet

-- Summaries equal matched call/return reachability exactly when no yield port is
-- reached from a parameter of its own function: yield ports are never outputs.
theorem summaries_matched_iff (workspace : OwnedWorkspace) :
    (∀ func p o, ParamPort workspace.toIdgWorkspace func p →
      (ReturnThrowPort workspace.toIdgWorkspace func o ∨ YieldPort workspace.toIdgWorkspace func o) →
        ((p,o) ∈ (functionSummaries workspace.toIdgWorkspace none).get func ↔
          Realizable workspace.toIdgWorkspace (fun _ _ => True) func p o)) ↔
    ¬∃ func p o, ParamPort workspace.toIdgWorkspace func p ∧ YieldPort workspace.toIdgWorkspace func o ∧
      Realizable workspace.toIdgWorkspace (ReturnThrowPort workspace.toIdgWorkspace) func p o := by
  have owned := workspace.owned
  constructor
  · rintro exact_ ⟨func,p,o,param,yields,path⟩
    have listed := (exact_ func p o param (.inr yields)).mpr (path.mono fun _ _ _ => trivial)
    exact yield_not_returnThrow owned yields ((summary_iff owned param).mp listed).1
  · intro quiet func p o param port
    rw [summary_iff owned param]
    constructor
    · rintro ⟨_,path⟩
      exact path.mono fun _ _ _ => trivial
    · intro path
      have matched := realizable_without_yields quiet path
      rcases port with returns | yields
      · exact ⟨returns,matched⟩
      · exact absurd ⟨func,p,o,param,yields,matched⟩ quiet

-- A generator that yields its parameter and returns nothing.
def yieldWorkspace : OwnedWorkspace where
  segments := [{
    places := [.param 0,.yield]
    nodes := [⟨0,0⟩,⟨0,1⟩]
    edges := [⟨0,1,⟨.intraYield,.direct,⟨0,8,12⟩⟩⟩]
    funcs := [0]
    strings := [] }]
  querySidecar := none
  segmentSpool := none
  residentSegments := []
  crossFileSpool := none
  symbolicTransformSpool := none
  byFunc := AList.singleton 0 0
  crossFile := []
  symbolicField := ⟨[],[],[]⟩
  owned := by decide

theorem yield_summary_missing :
    ¬∀ func p o, ParamPort yieldWorkspace.toIdgWorkspace func p →
      (ReturnThrowPort yieldWorkspace.toIdgWorkspace func o ∨ YieldPort yieldWorkspace.toIdgWorkspace func o) →
        ((p,o) ∈ (functionSummaries yieldWorkspace.toIdgWorkspace none).get func ↔
          Realizable yieldWorkspace.toIdgWorkspace (fun _ _ => True) func p o) := by
  intro claimed
  have view : (0,yieldWorkspace.segments[0]) ∈ yieldWorkspace.toIdgWorkspace.segmentViews :=
    IdgWorkspace.mem_segmentViews.mpr ⟨by decide,rfl⟩
  have param : ParamPort yieldWorkspace.toIdgWorkspace 0 0 := ⟨0,0,0,_,⟨0,0⟩,view,rfl,rfl,rfl,rfl⟩
  have yields : YieldPort yieldWorkspace.toIdgWorkspace 0 1 := ⟨0,1,_,⟨0,1⟩,view,rfl,rfl,rfl,rfl⟩
  have edge : IntraEdge yieldWorkspace.toIdgWorkspace 0 0 1 :=
    ⟨0,_,view,⟨0,1,⟨.intraYield,.direct,⟨0,8,12⟩⟩⟩,by decide,by decide,rfl,⟨0,0⟩,⟨0,1⟩,rfl,rfl,rfl,rfl,rfl,rfl⟩
  have absent : (functionSummaries yieldWorkspace.toIdgWorkspace none).get 0 = ⊥ := by decide
  have listed := (claimed 0 0 1 param (.inr yields)).mpr (.intra .refl edge)
  rw [absent] at listed
  exact SortedRows.not_mem_bot listed

end BonsaiNinja.Idg
