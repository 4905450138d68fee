import BonsaiNinja.Idg.FunctionSummary
import BonsaiNinja.Library.Folds

namespace BonsaiNinja.Idg
open Library
variable {nodes : List IdgNode} {func : FuncId} {layouts : IdMap FunctionLayout} {segment : IdgSegment}
variable {node : IdgNode}

def compactIndex (nodes : List IdgNode) (n : NodeId) (func : FuncId) : Nat := (nodes.take n).countP (·.func = func)

def funcNodes (nodes : List IdgNode) (func : FuncId) : List IdgNode := nodes.filter (·.func = func)

theorem funcNodes_compact {n : Nat} (found : nodes[n]? = some node)
    (owner : node.func = func) : (funcNodes nodes func)[compactIndex nodes n func]? = some node := by
  induction nodes generalizing n with
  | nil => simp at found
  | cons head rest ih =>
    cases n with
    | zero =>
      cases Option.some.inj found
      simp [funcNodes,compactIndex,owner]
    | succ n =>
      rw [List.getElem?_cons_succ] at found
      have previous := ih found
      by_cases same : head.func = func
      · simpa [funcNodes,compactIndex,same] using previous
      · simpa [funcNodes,compactIndex,same] using previous

theorem funcNodes_pullback {k : Nat}
    (found : (funcNodes nodes func)[k]? = some node) :
    ∃ n, nodes[n]? = some node ∧ node.func = func ∧ compactIndex nodes n func = k := by
  induction nodes generalizing k with
  | nil => simp [funcNodes] at found
  | cons head rest ih =>
    by_cases same : head.func = func
    · rw [funcNodes, List.filter_cons_of_pos (by simpa using same)] at found
      cases k with
      | zero =>
        cases Option.some.inj found
        exact ⟨0,rfl,same,rfl⟩
      | succ k =>
        obtain ⟨n,at_n,owner,index⟩ := ih found
        exact ⟨n + 1,at_n,owner,by simpa [compactIndex,same] using index⟩
    · rw [funcNodes, List.filter_cons_of_neg (by simpa using same)] at found
      obtain ⟨n,at_n,owner,index⟩ := ih found
      exact ⟨n + 1,at_n,owner,by simpa [compactIndex,same] using index⟩

def portLayout (layout : FunctionLayout) (places : List (Option Place)) : FunctionLayout :=
  places.foldl FunctionLayout.addNode layout

section
variable (layout : FunctionLayout)
include layout

@[simp] theorem addNode_nodeCount (place : Option Place) :
    (layout.addNode place).nodeCount = layout.nodeCount + 1 := by
  unfold FunctionLayout.addNode
  split <;> rfl

@[simp] theorem addNode_segment (place : Option Place) :
    (layout.addNode place).segment = layout.segment := by
  unfold FunctionLayout.addNode
  split <;> rfl

theorem addNode_params (place : Option Place) {idx p : Nat} :
    (idx,p) ∈ (layout.addNode place).params ↔
      (idx,p) ∈ layout.params ∨ (place = some (.param idx) ∧ p = layout.nodeCount) := by
  unfold FunctionLayout.addNode
  split
  · simp only [List.mem_append, List.mem_singleton, Prod.mk.injEq, Option.some.injEq, Place.param.injEq]
    rw [@eq_comm _ idx]
  all_goals simp_all

def ReturnThrowPlace : Option Place → Prop
  | some .return => True
  | some (.throw ..) => True
  | _ => False

theorem addNode_outputs (place : Option Place) {o : Nat} :
    o ∈ (layout.addNode place).outputs ↔ o ∈ layout.outputs ∨ (ReturnThrowPlace place ∧ o = layout.nodeCount) := by
  unfold FunctionLayout.addNode ReturnThrowPlace
  split <;> simp_all

theorem portLayout_spec (places : List (Option Place)) :
    (portLayout layout places).segment = layout.segment ∧
    (portLayout layout places).nodeCount = layout.nodeCount + places.length ∧
    (∀ idx p, (idx,p) ∈ (portLayout layout places).params ↔ (idx,p) ∈ layout.params ∨
      ∃ k, places[k]? = some (some (.param idx)) ∧ p = layout.nodeCount + k) ∧
    (∀ o, o ∈ (portLayout layout places).outputs ↔ o ∈ layout.outputs ∨
      ∃ k place, places[k]? = some place ∧ ReturnThrowPlace place ∧ o = layout.nodeCount + k) := by
  induction places generalizing layout with
  | nil => simp [portLayout]
  | cons place rest ih =>
    obtain ⟨segment,count,params,outputs⟩ := ih (layout.addNode place)
    rw [addNode_segment] at segment
    rw [addNode_nodeCount] at count
    refine ⟨segment,by rw [List.length_cons]; exact count.trans (by omega),fun idx p => ?_,fun o => ?_⟩
    · refine (params idx p).trans ?_
      rw [addNode_params, addNode_nodeCount, or_assoc]
      refine or_congr_right ⟨?_,?_⟩
      · rintro (⟨here,rfl⟩ | ⟨k,later,rfl⟩)
        · exact ⟨0,congrArg some here,rfl⟩
        · exact ⟨k + 1,later,by omega⟩
      · rintro ⟨k,found,rfl⟩
        cases k with
        | zero => exact .inl ⟨Option.some.inj found,rfl⟩
        | succ k => exact .inr ⟨k,found,by omega⟩
    · refine (outputs o).trans ?_
      rw [addNode_outputs, addNode_nodeCount, or_assoc]
      refine or_congr_right ⟨?_,?_⟩
      · rintro (⟨here,rfl⟩ | ⟨k,other,later,port,rfl⟩)
        · exact ⟨0,place,rfl,here,rfl⟩
        · exact ⟨k + 1,other,later,port,by omega⟩
      · rintro ⟨k,other,found,port,rfl⟩
        cases k with
        | zero => cases Option.some.inj found; exact .inl ⟨port,rfl⟩
        | succ k => exact .inr ⟨k,other,found,port,by omega⟩

end

section
variable (layouts : IdMap FunctionLayout) (id : SegmentId) (segment : IdgSegment)

theorem lowerNode_all (s : Lowering) (node : IdgNode) :
    lowerNode none id segment s node =
      ⟨s.layouts.insert node.func (((s.layouts.lookup node.func).getD (.new id)).addNode (segment.placeOf node)),
        s.addresses ++ [⟨node.func,((s.layouts.lookup node.func).getD (.new id)).nodeCount,
          boundaryTag (segment.placeOf node)⟩]⟩ := rfl

-- Lowering a list of nodes extends each function's layout by its own places and
-- appends one address for each node.
theorem lowerNodes_layouts (nodes : List IdgNode) (addresses : List CompactAddress) (func : FuncId) :
    (nodes.foldl (lowerNode none id segment) ⟨layouts,addresses⟩).layouts.lookup func =
      if funcNodes nodes func = [] then layouts.lookup func
      else some (portLayout ((layouts.lookup func).getD (.new id)) ((funcNodes nodes func).map segment.placeOf)) := by
  induction nodes generalizing layouts addresses with
  | nil => simp [funcNodes]
  | cons node rest ih =>
    rw [List.foldl_cons, lowerNode_all, ih]
    by_cases same : node.func = func
    · subst same
      have split : funcNodes (node :: rest) node.func = node :: funcNodes rest node.func := by simp [funcNodes]
      rw [AList.lookup_insert, split, if_neg (List.cons_ne_nil _ _)]
      split
      · next last => simp [last,portLayout]
      · simp [portLayout]
    · have split : funcNodes (node :: rest) func = funcNodes rest func := by simp [funcNodes,same]
      rw [AList.lookup_insert_ne (Ne.symm same), split]

theorem lowerNodes_addresses (nodes : List IdgNode) (addresses : List CompactAddress) :
    ∃ added, (nodes.foldl (lowerNode none id segment) ⟨layouts,addresses⟩).addresses = addresses ++ added ∧
      ∀ n : Nat, added[n]? = nodes[n]?.map fun node =>
        ⟨node.func,((layouts.lookup node.func).getD (.new id)).nodeCount + compactIndex nodes n node.func,
          boundaryTag (segment.placeOf node)⟩ := by
  induction nodes generalizing layouts addresses with
  | nil => exact ⟨[],by simp,by simp⟩
  | cons node rest ih =>
    rw [List.foldl_cons, lowerNode_all]
    obtain ⟨added,whole,each⟩ := ih (layouts.insert node.func
      (((layouts.lookup node.func).getD (.new id)).addNode (segment.placeOf node)))
      (addresses ++ [⟨node.func,((layouts.lookup node.func).getD (.new id)).nodeCount,boundaryTag (segment.placeOf node)⟩])
    refine ⟨_,whole.trans (List.append_assoc _ _ _),fun n => ?_⟩
    cases n with
    | zero => simp [compactIndex]
    | succ n =>
      rw [List.singleton_append, List.getElem?_cons_succ, each, List.getElem?_cons_succ]
      refine Option.map_congr fun other _ => ?_
      by_cases same : other.func = node.func
      · rw [same, AList.lookup_insert]
        simp only [Option.getD_some, addNode_nodeCount, compactIndex, List.take_succ_cons, decide_true,
          List.countP_cons_of_pos]
        rw [Nat.add_right_comm, Nat.add_assoc]
      · simp [AList.lookup_insert_ne same,compactIndex,Ne.symm same]

end

def AddressPage (segment : IdgSegment) (page : List CompactAddress) : Prop :=
  ∀ n : Nat, page[n]? = segment.nodes[n]?.map fun node =>
    ⟨node.func,compactIndex segment.nodes n node.func,boundaryTag (segment.placeOf node)⟩

theorem lowerSegment_page (id : SegmentId)
    (fresh : ∀ node ∈ segment.nodes, layouts.lookup node.func = none) :
    AddressPage segment (lowerSegment none layouts id segment).addresses := by
  obtain ⟨added,whole,each⟩ := lowerNodes_addresses layouts id segment segment.nodes []
  intro n
  rw [lowerSegment, whole, List.nil_append, each]
  refine Option.map_congr fun node found => ?_
  rw [fresh node (List.mem_of_getElem? found)]
  simp [FunctionLayout.new]

theorem baseAddresses_spec (nodes : List IdgNode) (next : IdMap Nat)
    (room : ∀ node ∈ nodes, ∃ layout, layouts.lookup node.func = some layout ∧
      (next.lookup node.func).getD 0 + (funcNodes nodes node.func).length ≤ layout.nodeCount) (n : Nat) :
    (baseAddresses layouts next nodes)[n]? = nodes[n]?.map fun node =>
      some (node.func,(next.lookup node.func).getD 0 + compactIndex nodes n node.func) := by
  induction nodes generalizing next n with
  | nil => simp [baseAddresses]
  | cons node rest ih =>
    obtain ⟨layout,known,space⟩ := room node (by simp)
    rw [baseAddresses]
    cases n with
    | zero =>
      have fits : (next.lookup node.func).getD 0 < layout.nodeCount := by
        have positive : 0 < (funcNodes (node :: rest) node.func).length := by simp [funcNodes]
        omega
      simp [known,fits,compactIndex]
    | succ n =>
      rw [List.getElem?_cons_succ, List.getElem?_cons_succ, ih]
      · refine Option.map_congr fun other _ => ?_
        by_cases same : other.func = node.func
        · rw [same, AList.lookup_insert]
          simp only [Option.getD_some, compactIndex, List.take_succ_cons, decide_true, List.countP_cons_of_pos]
          rw [Nat.add_right_comm, Nat.add_assoc]
        · simp [AList.lookup_insert_ne same,compactIndex,Ne.symm same]
      · intro other member
        obtain ⟨otherLayout,otherKnown,otherSpace⟩ := room other (List.mem_cons_of_mem _ member)
        refine ⟨otherLayout,otherKnown,?_⟩
        by_cases same : other.func = node.func
        · rw [same] at otherSpace ⊢
          simp only [funcNodes, decide_true, List.filter_cons_of_pos, List.length_cons] at otherSpace
          simp only [AList.lookup_insert, Option.getD_some, funcNodes]
          omega
        · have split : funcNodes (node :: rest) other.func = funcNodes rest other.func := by
            simp [funcNodes,Ne.symm same]
          rw [AList.lookup_insert_ne same, ← split]
          exact otherSpace

def RecordsInput (sources targets : List CompactAddress) (edge : IdgEdge) (row : BoundaryPairRow) : Prop :=
  ∃ source target, sources[edge.fromNode]? = some source ∧ targets[edge.toNode]? = some target ∧
    (edge.edgeMeta.kind = .interCallArg ∨ edge.edgeMeta.kind = .interSourceCallback) ∧ target.boundary = .param ∧
    row = ⟨⟨source.func,target.func,edge.edgeMeta.viaSpan⟩,(source.compact,target.compact)⟩

def ReturnFamily (kind : IdgEdgeKind) (boundary : Boundary) : Prop :=
  (kind = .interReturn ∧ boundary = .return) ∨ (kind = .interThrow ∧ boundary = .throw) ∨
    (kind = .interYield ∧ boundary = .yield)

def RecordsOutput (sources targets : List CompactAddress) (edge : IdgEdge) (row : BoundaryPairRow) : Prop :=
  ∃ source target, sources[edge.fromNode]? = some source ∧ targets[edge.toNode]? = some target ∧
    ReturnFamily edge.edgeMeta.kind source.boundary ∧
    row = ⟨⟨target.func,source.func,edge.edgeMeta.viaSpan⟩,(source.compact,target.compact)⟩

theorem recordCallBoundary_rows (spools : BoundarySpools) (sources targets : List CompactAddress) (edge : IdgEdge)
    (row : BoundaryPairRow) :
    (row ∈ (recordCallBoundary spools sources targets edge none).inputs ↔
      row ∈ spools.inputs ∨ RecordsInput sources targets edge row) ∧
    (row ∈ (recordCallBoundary spools sources targets edge none).outputs ↔
      row ∈ spools.outputs ∨ RecordsOutput sources targets edge row) := by
  unfold recordCallBoundary RecordsInput RecordsOutput ReturnFamily
  cases source : sources[edge.fromNode]? with
  | none => simp
  | some from_ =>
    cases target : targets[edge.toNode]? with
    | none => simp
    | some to_ =>
      cases kind : edge.edgeMeta.kind <;> simp [FuncScope.admits,structuralBoundary]
      case interCallArg | interSourceCallback => by_cases port : to_.boundary = .param <;> simp [port]
      case interReturn => by_cases port : from_.boundary = .return <;> simp [port]
      case interThrow => by_cases port : from_.boundary = .throw <;> simp [port]
      case interYield => by_cases port : from_.boundary = .yield <;> simp [port]

def SegmentRows (workspace : IdgWorkspace) (done : SegmentId → Prop)
    (records : List CompactAddress → List CompactAddress → IdgEdge → BoundaryPairRow → Prop) (row : BoundaryPairRow) : Prop :=
  ∃ id, done id ∧ ∃ segment page, (id,segment) ∈ workspace.segmentViews ∧ AddressPage segment page ∧
    ∃ edge ∈ segment.edges, records page page edge row

def BaseEdge (segment : IdgSegment) (func : FuncId) (a b : Nat) : Prop :=
  ∃ edge ∈ segment.edges, edge.edgeMeta.kind ≠ .intraAggregateConsume ∧ edge.edgeMeta.kind.isIntra = true ∧
    ∃ source target, segment.nodes[edge.fromNode]? = some source ∧ segment.nodes[edge.toNode]? = some target ∧
      source.func = func ∧ target.func = func ∧ a = compactIndex segment.nodes edge.fromNode func ∧
      b = compactIndex segment.nodes edge.toNode func

def segmentLayout (id : SegmentId) (segment : IdgSegment) (func : FuncId) : FunctionLayout :=
  portLayout (.new id) ((funcNodes segment.nodes func).map segment.placeOf)

structure Lowered (workspace : IdgWorkspace) (done : SegmentId → Prop) (s : LocalSummaryInputs) : Prop where
  layouts : ∀ func layout, s.layouts.lookup func = some layout ↔ ∃ id, done id ∧ ∃ segment,
    (id,segment) ∈ workspace.segmentViews ∧ funcNodes segment.nodes func ≠ [] ∧ layout = segmentLayout id segment func
  addresses : ∀ id page, s.addresses.lookup id = some page ↔ done id ∧ ∃ segment,
    (id,segment) ∈ workspace.segmentViews ∧ AddressPage segment page
  basePages : ∀ id, done id → ∀ segment, (id,segment) ∈ workspace.segmentViews → ∃ page, s.basePages.lookup id = some page ∧
    ∀ func a b, (a,b) ∈ page func ↔ BaseEdge segment func a b
  inputs : ∀ row, row ∈ s.spools.inputs ↔ SegmentRows workspace done RecordsInput row
  outputs : ∀ row, row ∈ s.spools.outputs ↔ SegmentRows workspace done RecordsOutput row

theorem segmentBaseEdges_spec
    (room : ∀ node ∈ segment.nodes, ∃ layout, layouts.lookup node.func = some layout ∧
      (funcNodes segment.nodes node.func).length ≤ layout.nodeCount) {a b : Nat} :
    (a,b) ∈ segmentBaseEdges segment layouts func ↔ BaseEdge segment func a b := by
  have addresses := @baseAddresses_spec layouts segment.nodes ∅ (by simpa using room)
  simp only [AList.lookup_empty, Option.getD_none, Nat.zero_add] at addresses
  unfold segmentBaseEdges BaseEdge
  simp only [SortedRows.mem_ofList, List.mem_filterMap, addresses]
  refine exists_congr fun edge => and_congr_right fun _ => ?_
  by_cases own : edge.edgeMeta.kind = .intraAggregateConsume ∨ edge.edgeMeta.kind.isIntra = false
  · have skipped : (decide (edge.edgeMeta.kind = .intraAggregateConsume) || !edge.edgeMeta.kind.isIntra) = true := by
      simpa using own
    rw [if_pos skipped]
    refine ⟨fun impossible => by simp at impossible,fun kept => ?_⟩
    obtain ⟨ordinary,intra,_⟩ := kept
    exact own.elim (fun same => absurd same ordinary) fun inter => by simp [inter] at intra
  · have kept : ¬(decide (edge.edgeMeta.kind = .intraAggregateConsume) || !edge.edgeMeta.kind.isIntra) = true := by
      simpa using own
    rw [not_or, Bool.not_eq_false] at own
    rw [if_neg kept]
    simp only [own, ne_eq, not_false_eq_true, true_and]
    cases source : segment.nodes[edge.fromNode]? with
    | none => simp
    | some from_ =>
      cases target : segment.nodes[edge.toNode]? with
      | none => simp
      | some to_ =>
        simp only [Option.map_some, Option.ite_none_right_eq_some, Bool.and_eq_true, decide_eq_true_eq,
          Option.some.injEq, Prod.mk.injEq]
        constructor
        · rintro ⟨⟨same,rfl⟩,rfl,rfl⟩
          exact ⟨from_,to_,rfl,rfl,rfl,same.symm,rfl,by rw [same]⟩
        · rintro ⟨_,_,rfl,rfl,rfl,same,rfl,rfl⟩
          exact ⟨⟨same.symm,rfl⟩,rfl,by rw [same]⟩

theorem addressPage_unique {left right : List CompactAddress} (first : AddressPage segment left)
    (second : AddressPage segment right) : left = right :=
  List.ext_getElem? fun n => (first n).trans (second n).symm

theorem funcNodes_ne_nil :
    funcNodes nodes func ≠ [] ↔ ∃ node ∈ nodes, node.func = func := by
  simp [funcNodes,List.filter_eq_nil_iff]

section
variable {workspace : IdgWorkspace} {done : SegmentId → Prop} {s : LocalSummaryInputs} {segmentId : SegmentId}
  {segment : IdgSegment}

theorem views_unique (left : (segmentId,segment) ∈ workspace.segmentViews)
    (right : (segmentId,other) ∈ workspace.segmentViews) : segment = other :=
  Option.some.inj ((IdgWorkspace.mem_segmentViews.mp left).2.symm.trans (IdgWorkspace.mem_segmentViews.mp right).2)

theorem lowered_fresh (owned : workspace.Owned) (lowered : Lowered workspace done s) (fresh : ¬done segmentId)
    (view : (segmentId,segment) ∈ workspace.segmentViews) (node : IdgNode) (member : node ∈ segment.nodes) :
    s.layouts.lookup node.func = none := by
  cases known : s.layouts.lookup node.func with
  | none => rfl
  | some layout =>
    obtain ⟨other,met,otherSegment,otherView,some,_⟩ := (lowered.layouts _ _).mp known
    obtain ⟨otherNode,otherMember,same⟩ := funcNodes_ne_nil.mp some
    have equal : segmentId = other := owned _ view _ otherView node member otherNode otherMember same.symm
    exact absurd (equal ▸ met) fresh

theorem lowered_skip (lowered : Lowered workspace done s)
    (absent : ∀ segment, (segmentId,segment) ∉ workspace.segmentViews) :
    Lowered workspace (fun other => other = segmentId ∨ done other) s := by
  have met {other : SegmentId} {segment : IdgSegment} (view : (other,segment) ∈ workspace.segmentViews) :
      (other = segmentId ∨ done other) ↔ done other :=
    ⟨fun which => which.resolve_left fun same => absent segment (same ▸ view),.inr⟩
  refine ⟨fun func layout => (lowered.layouts func layout).trans ?_,fun other page => (lowered.addresses other page).trans ?_,
    fun other which segment view => lowered.basePages other ((met view).mp which) segment view,
    fun row => (lowered.inputs row).trans ?_,fun row => (lowered.outputs row).trans ?_⟩
  · exact exists_congr fun other => ⟨fun ⟨old,segment,view,rest⟩ => ⟨.inr old,segment,view,rest⟩,
      fun ⟨which,segment,view,rest⟩ => ⟨(met view).mp which,segment,view,rest⟩⟩
  · exact ⟨fun ⟨old,segment,view,rest⟩ => ⟨.inr old,segment,view,rest⟩,
      fun ⟨which,segment,view,rest⟩ => ⟨(met view).mp which,segment,view,rest⟩⟩
  · exact exists_congr fun other => ⟨fun ⟨old,segment,page,view,rest⟩ => ⟨.inr old,segment,page,view,rest⟩,
      fun ⟨which,segment,page,view,rest⟩ => ⟨(met view).mp which,segment,page,view,rest⟩⟩
  · exact exists_congr fun other => ⟨fun ⟨old,segment,page,view,rest⟩ => ⟨.inr old,segment,page,view,rest⟩,
      fun ⟨which,segment,page,view,rest⟩ => ⟨(met view).mp which,segment,page,view,rest⟩⟩

theorem lowered_layouts (owned : workspace.Owned) (lowered : Lowered workspace done s) (fresh : ¬done segmentId)
    (view : (segmentId,segment) ∈ workspace.segmentViews) (func : FuncId) :
    (lowerSegment none s.layouts segmentId segment).layouts.lookup func =
      if funcNodes segment.nodes func = [] then s.layouts.lookup func else some (segmentLayout segmentId segment func) := by
  rw [lowerSegment, lowerNodes_layouts]
  split
  · rfl
  · next some =>
    obtain ⟨node,member,owner⟩ := funcNodes_ne_nil.mp some
    rw [← owner, lowered_fresh owned lowered fresh view node member]
    rfl

theorem lowered_room (owned : workspace.Owned) (lowered : Lowered workspace done s) (fresh : ¬done segmentId)
    (view : (segmentId,segment) ∈ workspace.segmentViews) (node : IdgNode) (member : node ∈ segment.nodes) :
    ∃ layout, (lowerSegment none s.layouts segmentId segment).layouts.lookup node.func = some layout ∧
      (funcNodes segment.nodes node.func).length ≤ layout.nodeCount := by
  refine ⟨segmentLayout segmentId segment node.func,?_,?_⟩
  · rw [lowered_layouts owned lowered fresh view, if_neg (funcNodes_ne_nil.mpr ⟨node,member,rfl⟩)]
  · have count := (portLayout_spec (.new segmentId) ((funcNodes segment.nodes node.func).map segment.placeOf)).2.1
    rw [List.length_map] at count
    exact (count.trans (Nat.zero_add _)).ge

theorem lowerInputs_some (found : workspace.segmentView segmentId = some segment) :
    lowerInputs workspace none s segmentId =
      ⟨(lowerSegment none s.layouts segmentId segment).layouts,
        s.addresses.insert segmentId (lowerSegment none s.layouts segmentId segment).addresses,
        s.basePages.insert segmentId
          (segmentBaseEdges segment (lowerSegment none s.layouts segmentId segment).layouts),
        segment.edges.foldl (fun spools edge => recordCallBoundary spools
          (lowerSegment none s.layouts segmentId segment).addresses
          (lowerSegment none s.layouts segmentId segment).addresses edge none) s.spools⟩ := by
  simp only [lowerInputs, found]

theorem segmentRows_insert {page : List CompactAddress} (view : (segmentId,segment) ∈ workspace.segmentViews)
    (addressed : AddressPage segment page)
    (records : List CompactAddress → List CompactAddress → IdgEdge → BoundaryPairRow → Prop) (row : BoundaryPairRow) :
    SegmentRows workspace (fun other => other = segmentId ∨ done other) records row ↔
      SegmentRows workspace done records row ∨ ∃ edge ∈ segment.edges, records page page edge row := by
  constructor
  · rintro ⟨other,rfl | old,otherSegment,otherPage,otherView,otherAddressed,edges⟩
    · rw [views_unique otherView view] at otherAddressed edges
      rw [addressPage_unique otherAddressed addressed] at edges
      exact .inr edges
    · exact .inl ⟨other,old,otherSegment,otherPage,otherView,otherAddressed,edges⟩
  · rintro (⟨other,old,rest⟩ | edges)
    · exact ⟨other,.inr old,rest⟩
    · exact ⟨segmentId,.inl rfl,segment,page,view,addressed,edges⟩

theorem lowerInputs_lowered (owned : workspace.Owned) (lowered : Lowered workspace done s) (fresh : ¬done segmentId)
    (bound : segmentId < workspace.segmentCount) :
    Lowered workspace (fun other => other = segmentId ∨ done other) (lowerInputs workspace none s segmentId) := by
  by_cases present : ∃ segment, (segmentId,segment) ∈ workspace.segmentViews
  · obtain ⟨segment,view⟩ := present
    have page := lowerSegment_page segmentId (lowered_fresh owned lowered fresh view)
    rw [lowerInputs_some (IdgWorkspace.mem_segmentViews.mp view).2]
    refine ⟨fun func layout => ?_,fun other found => ?_,fun other which otherSegment otherView => ?_,fun row => ?_,fun row => ?_⟩
    · dsimp only
      rw [lowered_layouts owned lowered fresh view]
      split
      · next none =>
        refine (lowered.layouts func layout).trans (exists_congr fun other => ⟨fun ⟨old,rest⟩ => ⟨.inr old,rest⟩,?_⟩)
        rintro ⟨rfl | old,otherSegment,otherView,some,rest⟩
        · exact absurd none (views_unique otherView view ▸ some)
        · exact ⟨old,otherSegment,otherView,some,rest⟩
      · next some =>
        constructor
        · intro same
          exact ⟨segmentId,.inl rfl,segment,view,some,(Option.some.inj same).symm⟩
        · rintro ⟨other,_,otherSegment,otherView,otherSome,rfl⟩
          obtain ⟨node,member,owner⟩ := funcNodes_ne_nil.mp some
          obtain ⟨otherNode,otherMember,otherOwner⟩ := funcNodes_ne_nil.mp otherSome
          have same : segmentId = other :=
            owned _ view _ otherView node member otherNode otherMember (owner.trans otherOwner.symm)
          subst same
          rw [views_unique view otherView]
    · by_cases same : other = segmentId
      · subst same
        rw [AList.lookup_insert]
        refine ⟨fun equal => ⟨.inl rfl,segment,view,Option.some.inj equal ▸ page⟩,?_⟩
        rintro ⟨_,otherSegment,otherView,otherPage⟩
        rw [views_unique otherView view] at otherPage
        rw [addressPage_unique page otherPage]
      · rw [AList.lookup_insert_ne same, lowered.addresses]
        simp [same]
    · by_cases same : other = segmentId
      · subst same
        refine ⟨_,AList.lookup_insert _,fun func a b => ?_⟩
        rw [views_unique otherView view]
        exact segmentBaseEdges_spec (lowered_room owned lowered fresh view)
      · rw [AList.lookup_insert_ne same]
        exact lowered.basePages other (which.resolve_left same) otherSegment otherView
    · rw [segmentRows_insert view page, ← lowered.inputs]
      exact foldl_collects (fun spools => row ∈ spools.inputs) (RecordsInput _ _ · row)
        (fun spools edge => (recordCallBoundary_rows spools _ _ edge row).1) s.spools segment.edges
    · rw [segmentRows_insert view page, ← lowered.outputs]
      exact foldl_collects (fun spools => row ∈ spools.outputs) (RecordsOutput _ _ · row)
        (fun spools edge => (recordCallBoundary_rows spools _ _ edge row).2) s.spools segment.edges
  · rw [not_exists] at present
    have unchanged : lowerInputs workspace none s segmentId = s := by
      cases found : workspace.segmentView segmentId with
      | none => simp only [lowerInputs, found]
      | some segment => exact absurd (IdgWorkspace.mem_segmentViews.mpr ⟨bound,found⟩) (present segment)
    rw [unchanged]
    exact lowered_skip lowered present

theorem lowered_start : Lowered workspace (fun _ => False) ⟨∅,∅,∅,⟨[],[]⟩⟩ := by
  refine ⟨?_,?_,?_,?_,?_⟩ <;> simp [SegmentRows]

theorem lowered_all (owned : workspace.Owned) (segments : List SegmentId) (nodup : segments.Nodup)
    (bounded : ∀ id ∈ segments, id < workspace.segmentCount) (lowered : Lowered workspace done s)
    (fresh : ∀ id ∈ segments, ¬done id) :
    Lowered workspace (fun id => id ∈ segments ∨ done id) (segments.foldl (lowerInputs workspace none) s) := by
  induction segments generalizing done s with
  | nil => simpa using lowered
  | cons id rest ih =>
    obtain ⟨once,restNodup⟩ := List.nodup_cons.mp nodup
    have first := lowerInputs_lowered owned lowered (fresh id (by simp)) (bounded id (by simp))
    have later := ih restNodup (fun other member => bounded other (List.mem_cons_of_mem _ member)) first
      fun other member which => which.elim (fun same => once (same ▸ member)) (fresh other (List.mem_cons_of_mem _ member))
    have same : (fun other => other ∈ id :: rest ∨ done other) = fun other => other ∈ rest ∨ other = id ∨ done other := by
      funext other
      rw [List.mem_cons, or_assoc, or_left_comm]
    rw [same, List.foldl_cons]
    exact later

end

theorem summarySegments_all (workspace : IdgWorkspace) :
    (summarySegments workspace none).Nodup ∧ ∀ id, id ∈ summarySegments workspace none ↔ id < workspace.segmentCount :=
  ⟨(sortDedup_sorted _).nodup,fun id => by simp [summarySegments]⟩

def At (workspace : IdgWorkspace) (id : SegmentId) (node : NodeId) (func : FuncId) (compact : Nat) (place : Option Place) :
    Prop :=
  ∃ segment found, (id,segment) ∈ workspace.segmentViews ∧ segment.nodes[node]? = some found ∧ found.func = func ∧
    compact = compactIndex segment.nodes node func ∧ place = segment.placeOf found

def WorkspaceEdge (workspace : IdgWorkspace) (edge : CrossFileEdge) : Prop :=
  (∃ segment, (edge.fromSegment,segment) ∈ workspace.segmentViews ∧ edge.toSegment = edge.fromSegment ∧
    edge.edge ∈ segment.edges) ∨ edge ∈ workspace.visitCrossFileEdges

-- A structural input row of the boundary `key`: a value of the caller enters the
-- callee through a formal parameter.
def InputRow (workspace : IdgWorkspace) (key : CallBoundaryKey) (a i : Nat) : Prop :=
  ∃ edge place idx, WorkspaceEdge workspace edge ∧
    (edge.edge.edgeMeta.kind = .interCallArg ∨ edge.edge.edgeMeta.kind = .interSourceCallback) ∧
    edge.edge.edgeMeta.viaSpan = key.span ∧ At workspace edge.fromSegment edge.edge.fromNode key.caller a place ∧
    At workspace edge.toSegment edge.edge.toNode key.callee i (some (.param idx))

-- A structural output row: a return, throw or yield port feeds a continuation of
-- the caller through the edge kind of its own family.
def OutputRow (workspace : IdgWorkspace) (key : CallBoundaryKey) (o c : Nat) : Prop :=
  ∃ edge port place, WorkspaceEdge workspace edge ∧ ReturnFamily edge.edge.edgeMeta.kind (boundaryTag port) ∧
    edge.edge.edgeMeta.viaSpan = key.span ∧ At workspace edge.fromSegment edge.edge.fromNode key.callee o port ∧
    At workspace edge.toSegment edge.edge.toNode key.caller c place

def IntraEdge (workspace : IdgWorkspace) (func : FuncId) (a b : Nat) : Prop :=
  ∃ id segment, (id,segment) ∈ workspace.segmentViews ∧ BaseEdge segment func a b

section
variable {workspace : IdgWorkspace}
variable {id : SegmentId} {key : CallBoundaryKey}
variable {place : Option Place} {page sources targets : List CompactAddress} {node : NodeId} {edge : CrossFileEdge}
  {sourceSegment targetSegment : IdgSegment} {a i o c : Nat}

theorem boundaryTag_param : boundaryTag place = .param ↔ ∃ idx, place = some (.param idx) := by
  unfold boundaryTag
  split <;> simp_all

theorem page_at {segment : IdgSegment}
    {address : CompactAddress} (view : (id,segment) ∈ workspace.segmentViews) (addressed : AddressPage segment page) :
    page[node]? = some address ↔
      ∃ place, At workspace id node address.func address.compact place ∧ address.boundary = boundaryTag place := by
  rw [addressed node]
  constructor
  · intro found
    obtain ⟨owner,at_node,rfl⟩ := Option.map_eq_some_iff.mp found
    exact ⟨segment.placeOf owner,⟨segment,owner,view,at_node,rfl,rfl,rfl⟩,rfl⟩
  · rintro ⟨place,⟨other,owner,otherView,at_node,func,compact,rfl⟩,tag⟩
    obtain rfl := views_unique otherView view
    rw [at_node, Option.map_some]
    obtain ⟨addressFunc,addressCompact,addressTag⟩ := address
    simp only at func compact tag
    subst func compact tag
    rfl

section
variable (sourceView : (edge.fromSegment,sourceSegment) ∈ workspace.segmentViews) (sourcePage : AddressPage sourceSegment sources)
    (targetView : (edge.toSegment,targetSegment) ∈ workspace.segmentViews) (targetPage : AddressPage targetSegment targets)
include sourceView sourcePage targetView targetPage

theorem records_input :
    RecordsInput sources targets edge.edge ⟨key,(a,i)⟩ ↔ ∃ place idx,
      (edge.edge.edgeMeta.kind = .interCallArg ∨ edge.edge.edgeMeta.kind = .interSourceCallback) ∧
      edge.edge.edgeMeta.viaSpan = key.span ∧ At workspace edge.fromSegment edge.edge.fromNode key.caller a place ∧
      At workspace edge.toSegment edge.edge.toNode key.callee i (some (.param idx)) := by
  constructor
  · rintro ⟨source,target,atSource,atTarget,kind,param,same⟩
    obtain ⟨place,sourceAt,_⟩ := (page_at sourceView sourcePage).mp atSource
    obtain ⟨formal,targetAt,tag⟩ := (page_at targetView targetPage).mp atTarget
    obtain ⟨idx,rfl⟩ := boundaryTag_param.mp (tag.symm.trans param)
    cases same
    exact ⟨place,idx,kind,rfl,sourceAt,targetAt⟩
  · rintro ⟨place,idx,kind,span,sourceAt,targetAt⟩
    refine ⟨⟨key.caller,a,boundaryTag place⟩,⟨key.callee,i,.param⟩,(page_at sourceView sourcePage).mpr ⟨place,sourceAt,rfl⟩,
      (page_at targetView targetPage).mpr ⟨_,targetAt,rfl⟩,kind,rfl,?_⟩
    rw [span]

theorem records_output :
    RecordsOutput sources targets edge.edge ⟨key,(o,c)⟩ ↔ ∃ port place,
      ReturnFamily edge.edge.edgeMeta.kind (boundaryTag port) ∧ edge.edge.edgeMeta.viaSpan = key.span ∧
      At workspace edge.fromSegment edge.edge.fromNode key.callee o port ∧
      At workspace edge.toSegment edge.edge.toNode key.caller c place := by
  constructor
  · rintro ⟨source,target,atSource,atTarget,family,same⟩
    obtain ⟨port,sourceAt,tag⟩ := (page_at sourceView sourcePage).mp atSource
    obtain ⟨place,targetAt,_⟩ := (page_at targetView targetPage).mp atTarget
    cases same
    exact ⟨port,place,tag ▸ family,rfl,sourceAt,targetAt⟩
  · rintro ⟨port,place,family,span,sourceAt,targetAt⟩
    refine ⟨⟨key.callee,o,boundaryTag port⟩,⟨key.caller,c,boundaryTag place⟩,
      (page_at sourceView sourcePage).mpr ⟨port,sourceAt,rfl⟩,(page_at targetView targetPage).mpr ⟨place,targetAt,rfl⟩,family,?_⟩
    rw [span]

end

theorem addressPage_exists (segment : IdgSegment) : ∃ page, AddressPage segment page :=
  ⟨segment.nodes.mapIdx fun n node =>
    ⟨node.func,compactIndex segment.nodes n node.func,boundaryTag (segment.placeOf node)⟩,fun _ => List.getElem?_mapIdx⟩

theorem at_view {func : FuncId} {compact : Nat}
    (located : At workspace id node func compact place) : ∃ segment, (id,segment) ∈ workspace.segmentViews :=
  located.imp fun _ ⟨_,view,_⟩ => view

variable {s : LocalSummaryInputs} (lowered : Lowered workspace (· < workspace.segmentCount) s)
include lowered

theorem lookup_page :
    s.addresses.lookup id = some page ↔ ∃ segment, (id,segment) ∈ workspace.segmentViews ∧ AddressPage segment page :=
  (lowered.addresses id page).trans
    ⟨And.right,fun found => ⟨(IdgWorkspace.mem_segmentViews.mp found.choose_spec.1).1,found⟩⟩

theorem segment_rows {records : List CompactAddress → List CompactAddress → IdgEdge → BoundaryPairRow → Prop}
    {row : BoundaryPairRow} {recorded : CrossFileEdge → Prop}
    (each : ∀ edge : CrossFileEdge, ∀ sourceSegment targetSegment sources targets,
      (edge.fromSegment,sourceSegment) ∈ workspace.segmentViews → AddressPage sourceSegment sources →
      (edge.toSegment,targetSegment) ∈ workspace.segmentViews → AddressPage targetSegment targets →
        (records sources targets edge.edge row ↔ recorded edge))
    (located : ∀ edge, recorded edge → (∃ segment, (edge.fromSegment,segment) ∈ workspace.segmentViews) ∧
      ∃ segment, (edge.toSegment,segment) ∈ workspace.segmentViews) :
    (SegmentRows workspace (· < workspace.segmentCount) records row ∨ ∃ edge ∈ workspace.visitCrossFileEdges,
      ∃ sources targets, s.addresses.lookup edge.fromSegment = some sources ∧
        s.addresses.lookup edge.toSegment = some targets ∧ records sources targets edge.edge row) ↔
    ∃ edge, WorkspaceEdge workspace edge ∧ recorded edge := by
  constructor
  · rintro (⟨id,_,segment,page,view,addressed,edge,member,records⟩ | ⟨edge,member,sources,targets,from_,to_,records⟩)
    · exact ⟨⟨id,id,edge⟩,.inl ⟨segment,view,rfl,member⟩,(each ⟨id,id,edge⟩ _ _ _ _ view addressed view addressed).mp records⟩
    · obtain ⟨sourceSegment,sourceView,sourcePage⟩ := (lookup_page lowered).mp from_
      obtain ⟨targetSegment,targetView,targetPage⟩ := (lookup_page lowered).mp to_
      exact ⟨edge,.inr member,(each edge _ _ _ _ sourceView sourcePage targetView targetPage).mp records⟩
  · rintro ⟨edge,⟨segment,view,same,member⟩ | member,holds⟩
    · obtain ⟨page,addressed⟩ := addressPage_exists segment
      refine .inl ⟨edge.fromSegment,(IdgWorkspace.mem_segmentViews.mp view).1,segment,page,view,addressed,edge.edge,member,?_⟩
      exact (each edge _ _ _ _ view addressed (same ▸ view) addressed).mpr holds
    · obtain ⟨⟨sourceSegment,sourceView⟩,targetSegment,targetView⟩ := located edge holds
      obtain ⟨sources,sourcePage⟩ := addressPage_exists sourceSegment
      obtain ⟨targets,targetPage⟩ := addressPage_exists targetSegment
      exact .inr ⟨edge,member,sources,targets,(lookup_page lowered).mpr ⟨_,sourceView,sourcePage⟩,
        (lookup_page lowered).mpr ⟨_,targetView,targetPage⟩,(each edge _ _ _ _ sourceView sourcePage targetView targetPage).mpr holds⟩

omit lowered in
theorem recordCrossFile_rows (addresses : IdMap (List CompactAddress)) (spools : BoundarySpools) (edge : CrossFileEdge)
    (row : BoundaryPairRow) :
    (row ∈ (recordCrossFile addresses none spools edge).inputs ↔ row ∈ spools.inputs ∨
      ∃ sources targets, addresses.lookup edge.fromSegment = some sources ∧
        addresses.lookup edge.toSegment = some targets ∧ RecordsInput sources targets edge.edge row) ∧
    (row ∈ (recordCrossFile addresses none spools edge).outputs ↔ row ∈ spools.outputs ∨
      ∃ sources targets, addresses.lookup edge.fromSegment = some sources ∧
        addresses.lookup edge.toSegment = some targets ∧ RecordsOutput sources targets edge.edge row) := by
  unfold recordCrossFile
  cases addresses.lookup edge.fromSegment with
  | none => simp
  | some sources =>
    cases addresses.lookup edge.toSegment with
    | none => simp
    | some targets => simpa using recordCallBoundary_rows spools sources targets edge.edge row

theorem crossFile_inputs :
    ⟨key,(a,i)⟩ ∈ (crossFileBoundaries workspace s none).inputs ↔ InputRow workspace key a i := by
  have collected := foldl_collects (fun spools => (⟨key,(a,i)⟩ : BoundaryPairRow) ∈ spools.inputs) _
    (fun spools edge => (recordCrossFile_rows s.addresses spools edge _).1) s.spools workspace.visitCrossFileEdges
  rw [lowered.inputs] at collected
  refine collected.trans ((segment_rows lowered (fun edge _ _ _ _ a b c d => records_input a b c d) ?_).trans ?_)
  · rintro edge ⟨place,idx,_,_,source,target⟩
    exact ⟨at_view source,at_view target⟩
  · exact ⟨fun ⟨edge,whole,place,idx,rest⟩ => ⟨edge,place,idx,whole,rest⟩,
      fun ⟨edge,place,idx,whole,rest⟩ => ⟨edge,whole,place,idx,rest⟩⟩

theorem crossFile_outputs :
    ⟨key,(o,c)⟩ ∈ (crossFileBoundaries workspace s none).outputs ↔ OutputRow workspace key o c := by
  have collected := foldl_collects (fun spools => (⟨key,(o,c)⟩ : BoundaryPairRow) ∈ spools.outputs) _
    (fun spools edge => (recordCrossFile_rows s.addresses spools edge _).2) s.spools workspace.visitCrossFileEdges
  rw [lowered.outputs] at collected
  refine collected.trans ((segment_rows lowered (fun edge _ _ _ _ a b c d => records_output a b c d) ?_).trans ?_)
  · rintro edge ⟨port,place,_,_,source,target⟩
    exact ⟨at_view source,at_view target⟩
  · exact ⟨fun ⟨edge,whole,port,place,rest⟩ => ⟨edge,port,place,whole,rest⟩,
      fun ⟨edge,port,place,whole,rest⟩ => ⟨edge,whole,port,place,rest⟩⟩

end

end BonsaiNinja.Idg
