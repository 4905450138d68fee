import BonsaiNinja.Idg.SpanBatches

namespace BonsaiNinja.Idg
open Library

def nodeAt (workspace : IdgWorkspace) (core : QueryCore) (node : NodeId) : Option IdgNode := do
  let (id,localNode) ← core.wsAddress node
  let segment ← workspace.segmentView id
  segment.nodes[localNode]?

def placeAt (workspace : IdgWorkspace) (core : QueryCore) (node : NodeId) : Option Place := do
  let (id,localNode) ← core.wsAddress node
  let segment ← workspace.segmentView id
  let source ← segment.nodes[localNode]?
  segment.placeOf source

def Before (workspace : IdgWorkspace) (core : QueryCore) (a b : NodeId) : Prop :=
  ∃ left right, nodeAt workspace core a = some left ∧ nodeAt workspace core b = some right ∧
    (left.place < right.place ∨ left.place = right.place ∧ a < b)

structure Directories (workspace : IdgWorkspace) (core : QueryCore) : Prop where
  placed : ∀ id localNode, ∃ found, core.wsNodeFor id localNode = .ok found ∧
    (found.isSome ↔ ∃ segment, (id,segment) ∈ workspace.segmentViews ∧ localNode < segment.nodes.length)
  addressed : ∀ node, (core.wsAddress node).isSome ↔ node < core.nodeCount
  inverse : ∀ id localNode node, core.wsNodeFor id localNode = .ok (some node) ↔ core.wsAddress node = some (id,localNode)
  listed : ∀ func, ∃ found, core.nodesByFunc.get func = .ok found ∧ (found.getD []).Pairwise (Before workspace core) ∧
    ∀ node, node ∈ found.getD [] ↔ (nodeAt workspace core node).map (·.func) = some func
  parted : ∀ node < core.nodeCount, ∃! func, ∃ nodes, core.nodesByFunc.get func = .ok (some nodes) ∧ node ∈ nodes
  localNodes : ∀ id func place, ∃ found, localNodeFor workspace core id func place = .ok found ∧ ∀ localNode,
    found = some localNode ↔ ∃ segment, (id,segment) ∈ workspace.segmentViews ∧ segment.nodes[localNode]? = some ⟨func,place⟩
  callArgs : ∀ node site argument, core.callArgs.get node = some (site,argument) ↔
    placeAt workspace core node = some (.callArg ⟨site⟩ argument)
  params : ∀ node argument, core.params.get node = some argument ↔ placeAt workspace core node = some (.param argument)

section identities
variable {rows : List β} {address : β → NodeId} {node : NodeId} {row : β}

theorem searched_row (ascending : (rows.map address).IsChain (· < ·)) :
    (binarySearch (rows.map address) node).bind (rows[·]?) = some row ↔ row ∈ rows ∧ address row = node := by
  have ordered := List.isChain_iff_pairwise.mp ascending
  rw [Option.bind_eq_some_iff]
  constructor
  · intro found
    obtain ⟨i,hit,held⟩ := found
    obtain ⟨inside,same,_⟩ := List.findIdx?_eq_some_iff_getElem.mp hit
    obtain ⟨bound,rfl⟩ := List.getElem?_eq_some_iff.mp held
    rw [List.getElem_map] at same
    exact ⟨List.getElem_mem bound,beq_iff_eq.mp same⟩
  · intro found
    obtain ⟨member,rfl⟩ := found
    obtain ⟨i,bound,hit⟩ := binarySearch_mem (List.mem_map_of_mem member)
    obtain ⟨j,held⟩ := List.getElem?_of_mem member
    obtain ⟨inside,same,_⟩ := List.findIdx?_eq_some_iff_getElem.mp hit
    have position : (rows.map address)[j]? = some (address row) := by rw [List.getElem?_map, held, Option.map_some]
    have once : i = j := by
      refine (List.getElem?_inj inside (ordered.imp Nat.ne_of_lt)).mp ?_
      rw [List.getElem?_eq_getElem inside, position, beq_iff_eq.mp same]
    exact ⟨i,hit,once ▸ held⟩

theorem paired_row {rows : List (NodeId × β)} {found : Option β} {value : β} (ascending : (rows.map (·.1)).IsChain (· < ·))
    (read : found = ((binarySearch (rows.map (·.1)) node).bind (rows[·]?)).map (·.2)) : found = some value ↔ (node,value) ∈ rows := by
  rw [read, Option.map_eq_some_iff]
  constructor
  · intro found
    obtain ⟨row,held,same⟩ := found
    obtain ⟨member,rfl⟩ := (searched_row ascending).mp held
    rw [← same]
    exact member
  · exact fun member => ⟨_,(searched_row ascending).mpr ⟨member,rfl⟩,rfl⟩

theorem callArgs_row {rows : List (NodeId × Span × Nat)} {site : Span} {argument : Nat}
    (ascending : (rows.map (·.1)).IsChain (· < ·)) :
    CallArgIdentityIndex.get ⟨rows.map (·.1),rows.map (·.2.1),rows.map (·.2.2)⟩ node = some (site,argument) ↔
      (node,site,argument) ∈ rows := by
  refine paired_row ascending ?_
  unfold CallArgIdentityIndex.get
  cases binarySearch (rows.map (·.1)) node with
  | none => rfl
  | some i => cases held : rows[i]? <;> simp [held]

theorem params_row {rows : List (NodeId × Nat)} {argument : Nat} (ascending : (rows.map (·.1)).IsChain (· < ·)) :
    ParamIdentityIndex.get ⟨rows.map (·.1),rows.map (·.2)⟩ node = some argument ↔ (node,argument) ∈ rows := by
  refine paired_row ascending ?_
  unfold ParamIdentityIndex.get
  cases binarySearch (rows.map (·.1)) node with
  | none => rfl
  | some i => cases held : rows[i]? <;> simp [held]

theorem mem_callArgsOf {places : List (Option Place)} {site : Span} {argument : Nat} :
    (node,site,argument) ∈ callArgsOf places ↔ places[node]? = some (some (.callArg ⟨site⟩ argument)) := by
  rw [callArgsOf, List.mem_filterMap]
  constructor
  · intro found
    obtain ⟨⟨place,node'⟩,among,picked⟩ := found
    have held := List.mem_zipIdx_iff_getElem?.mp among
    dsimp only at picked held
    split at picked
    · cases picked
      exact held
    · cases picked
  · exact fun held => ⟨(some (.callArg ⟨site⟩ argument),node),List.mem_zipIdx_iff_getElem?.mpr held,rfl⟩

theorem mem_paramsOf {places : List (Option Place)} {argument : Nat} :
    (node,argument) ∈ paramsOf places ↔ places[node]? = some (some (.param argument)) := by
  constructor
  · exact fun member => paramsOf_place member
  · exact fun held => List.mem_filterMap.mpr ⟨(some (.param argument),node),List.mem_zipIdx_iff_getElem?.mpr held,rfl⟩

end identities

variable {workspace : IdgWorkspace}

theorem placed_of_address (partitioned : workspace.Partitioned) (fits : workspace.FitsWords) {id : SegmentId}
    {localNode node : NodeId} (address : (buildQueryCore workspace).wsAddress node = some (id,localNode)) :
    ∃ segment, PlacedAt workspace id segment localNode node := by
  have owned : node < (nodeFuncsOf workspace).length := by
    unfold QueryCore.wsAddress at address
    obtain ⟨func,found,_⟩ := Option.bind_eq_some_iff.mp address
    exact (List.getElem?_eq_some_iff.mp found).1
  obtain ⟨id',segment,localNode',_,placed,_⟩ := placed_of_func partitioned fits (List.getElem?_eq_getElem owned)
  have known := address_of_placed partitioned fits placed
  rw [address] at known
  cases known
  exact ⟨segment,placed⟩

theorem placed_of_inside (partitioned : workspace.Partitioned) (fits : workspace.FitsWords) {node : NodeId}
    (inside : node < (buildQueryCore workspace).nodeCount) : ∃ id segment localNode source,
      PlacedAt workspace id segment localNode node ∧ segment.nodes[localNode]? = some source := by
  have owned : node < (nodeFuncsOf workspace).length := by
    rw [nodeFuncsOf_length]
    exact inside
  obtain ⟨id,segment,localNode,source,placed,found,_⟩ := placed_of_func partitioned fits (List.getElem?_eq_getElem owned)
  exact ⟨id,segment,localNode,source,placed,found⟩

section placed
variable {id : SegmentId} {segment : IdgSegment} {localNode node : NodeId}

theorem PlacedAt.inSpace (placed : PlacedAt workspace id segment localNode node) :
    node < (buildQueryCore workspace).nodeCount := by
  have row : (nodeFuncsOf workspace)[node]? = segment.nodes[localNode]?.map (·.func) := placed.func
  rw [List.getElem?_eq_getElem placed.inside] at row
  have bound := (List.getElem?_eq_some_iff.mp row).1
  rw [nodeFuncsOf_length] at bound
  exact bound

section
variable (partitioned : workspace.Partitioned)
include partitioned

theorem placed_of_listed (present : (id,segment) ∈ workspace.segmentViews)
    (inside : localNode < segment.nodes.length) :
    PlacedAt workspace id segment localNode (((nodeCounts workspace).take id).sum + localNode) := by
  obtain ⟨registered,read⟩ := IdgWorkspace.mem_segmentViews.mp present
  have view := segmentViews_at partitioned.readable id
  rw [if_pos registered, read, Option.map_some] at view
  exact ⟨view,inside,rfl⟩

theorem nodeAt_placed (fits : workspace.FitsWords)
    (placed : PlacedAt workspace id segment localNode node) :
    nodeAt workspace (buildQueryCore workspace) node = segment.nodes[localNode]? := by
  rw [nodeAt, address_of_placed partitioned fits placed]
  simp only [Option.bind_eq_bind, Option.bind_some]
  rw [(IdgWorkspace.mem_segmentViews.mp (List.mem_of_getElem? placed.view)).2, Option.bind_some]

theorem placeAt_placed (fits : workspace.FitsWords)
    (placed : PlacedAt workspace id segment localNode node) :
    placeAt workspace (buildQueryCore workspace) node = segment.nodes[localNode]?.bind segment.placeOf := by
  rw [placeAt, address_of_placed partitioned fits placed]
  simp only [Option.bind_eq_bind, Option.bind_some]
  rw [(IdgWorkspace.mem_segmentViews.mp (List.mem_of_getElem? placed.view)).2, Option.bind_some]

end

end placed

section proofs
variable (partitioned : workspace.Partitioned) (fits : workspace.FitsWords)
include partitioned fits

theorem nodePlaces_at (node : NodeId) (place : Place) :
    (nodePlaces workspace)[node]? = some (some place) ↔ placeAt workspace (buildQueryCore workspace) node = some place := by
  by_cases inside : node < (buildQueryCore workspace).nodeCount
  · obtain ⟨id,segment,localNode,source,placed,held⟩ := placed_of_inside partitioned fits inside
    have row : (nodePlaces workspace)[node]? = segment.nodes[localNode]?.map segment.placeOf := placed.row IdgSegment.placeOf
    rw [row, placeAt_placed partitioned fits placed, held]
    simp
  · have outside : (nodePlaces workspace)[node]? = none := by
      rw [List.getElem?_eq_none_iff, nodePlaces_length, nodeFuncsOf_length]
      exact Nat.le_of_not_lt inside
    rw [outside]
    refine ⟨nofun,fun held => ?_⟩
    unfold placeAt at held
    obtain ⟨⟨id,localNode⟩,address,_⟩ := Option.bind_eq_some_iff.mp held
    obtain ⟨segment,placed⟩ := placed_of_address partitioned fits address
    exact absurd placed.inSpace inside

theorem wsNodeFor_inverse (id : SegmentId) (localNode node : NodeId) :
    (buildQueryCore workspace).wsNodeFor id localNode = .ok (some node) ↔
      (buildQueryCore workspace).wsAddress node = some (id,localNode) := by
  rw [coreNodeFor partitioned fits]
  constructor
  · intro found
    obtain ⟨segment,placed⟩ := wsNode_placed partitioned.readable (Except.ok.inj found)
    exact address_of_placed partitioned fits placed
  · intro address
    obtain ⟨segment,placed⟩ := placed_of_address partitioned fits address
    obtain ⟨id',localNode',known,back⟩ := (buildQueryCore_lookups partitioned fits).wsAddress node placed.inSpace
    rw [address] at known
    cases known
    rw [← coreNodeFor partitioned fits]
    exact back

theorem wsNodeFor_placed (id : SegmentId) (localNode : NodeId) : ∃ found,
    (buildQueryCore workspace).wsNodeFor id localNode = .ok found ∧
      (found.isSome ↔ ∃ segment, (id,segment) ∈ workspace.segmentViews ∧ localNode < segment.nodes.length) := by
  refine ⟨_,coreNodeFor partitioned fits id localNode,?_⟩
  constructor
  · intro some
    obtain ⟨node,found⟩ := Option.isSome_iff_exists.mp some
    obtain ⟨segment,placed⟩ := wsNode_placed partitioned.readable found
    exact ⟨segment,List.mem_of_getElem? placed.view,placed.inside⟩
  · intro listed
    obtain ⟨segment,present,inside⟩ := listed
    have address := address_of_placed partitioned fits (placed_of_listed partitioned present inside)
    have found := (wsNodeFor_inverse partitioned fits id localNode _).mpr address
    rw [coreNodeFor partitioned fits] at found
    rw [Except.ok.inj found, Option.isSome_some]

theorem wsAddress_inside (node : NodeId) :
    ((buildQueryCore workspace).wsAddress node).isSome ↔ node < (buildQueryCore workspace).nodeCount := by
  constructor
  · intro some
    obtain ⟨⟨id,localNode⟩,address⟩ := Option.isSome_iff_exists.mp some
    obtain ⟨segment,placed⟩ := placed_of_address partitioned fits address
    exact placed.inSpace
  · intro inside
    obtain ⟨id,localNode,address,_⟩ := (buildQueryCore_lookups partitioned fits).wsAddress node inside
    rw [address, Option.isSome_some]

theorem nodeAt_func (node : NodeId) (func : FuncId) : (nodeFuncsOf workspace)[node]? = some func ↔
    (nodeAt workspace (buildQueryCore workspace) node).map (·.func) = some func := by
  constructor
  · intro owned
    obtain ⟨id,segment,localNode,source,placed,held,rfl⟩ := placed_of_func partitioned fits owned
    rw [nodeAt_placed partitioned fits placed, held, Option.map_some]
  · intro owned
    obtain ⟨source,found,rfl⟩ := Option.map_eq_some_iff.mp owned
    unfold nodeAt at found
    obtain ⟨⟨id,localNode⟩,address,_⟩ := Option.bind_eq_some_iff.mp found
    obtain ⟨segment,placed⟩ := placed_of_address partitioned fits address
    have row : (nodeFuncsOf workspace)[node]? = segment.nodes[localNode]?.map (·.func) := placed.func
    rw [row, ← nodeAt_placed partitioned fits placed]
    exact owned

theorem funcNodes_before {func : FuncId} {found : Option (List NodeId)}
    (answer : (buildQueryCore workspace).nodesByFunc.get func = .ok found)
    (owned : ∀ node ∈ found.getD [], (nodeFuncsOf workspace)[node]? = some func) (once : (found.getD []).Nodup) :
    (found.getD []).Pairwise (Before workspace (buildQueryCore workspace)) := by
  cases empty : found.getD [] with
  | nil => exact .nil
  | cons head rest =>
    rw [← empty]
    -- One segment holds every node of the function.
    obtain ⟨id,segment,localNode,source,placed,held,rfl⟩ :=
      placed_of_func partitioned fits (owned head (by rw [empty]; exact List.mem_cons_self))
    have present := List.mem_of_getElem? placed.view
    have listed := partitioned.listed _ present source (List.mem_of_getElem? held)
    have home := placed_listed partitioned fits present listed
    refine ((funcNodes_ordered partitioned present listed answer).and once).imp_of_mem fun {a b} first second both => ?_
    obtain ⟨i,left,placedLeft,heldLeft,_⟩ := home a (owned a first)
    obtain ⟨j,right,placedRight,heldRight,_⟩ := home b (owned b second)
    have order := placeOrder_iff.mp both.1
    dsimp only at order
    rw [placedLeft.offset, placedRight.offset, heldLeft, heldRight, Option.elim_some, Option.elim_some] at order
    refine ⟨left,right,?_,?_,order.imp_right fun same => ⟨same.1,Nat.lt_of_le_of_ne same.2 both.2⟩⟩
    · rw [nodeAt_placed partitioned fits placedLeft, heldLeft]
    · rw [nodeAt_placed partitioned fits placedRight, heldRight]

theorem nodesByFunc_listed (func : FuncId) : ∃ found, (buildQueryCore workspace).nodesByFunc.get func = .ok found ∧
    (found.getD []).Pairwise (Before workspace (buildQueryCore workspace)) ∧ ∀ node, node ∈ found.getD [] ↔
      (nodeAt workspace (buildQueryCore workspace) node).map (·.func) = some func := by
  obtain ⟨found,answer,perm⟩ := funcNodes_perm partitioned fits func
  have member : ∀ node, node ∈ found.getD [] ↔ (nodeFuncsOf workspace)[node]? = some func := by
    intro node
    rw [perm.mem_iff, List.mem_filter, decide_eq_true_eq, List.mem_range]
    exact ⟨And.right,fun owned => ⟨(List.getElem?_eq_some_iff.mp owned).1,owned⟩⟩
  refine ⟨found,answer,funcNodes_before partitioned fits answer (fun node => (member node).mp) ?_,fun node => ?_⟩
  · exact perm.nodup_iff.mpr (List.Nodup.filter _ List.nodup_range)
  · rw [member, nodeAt_func partitioned fits]

theorem nodesByFunc_parted (node : NodeId) (inside : node < (buildQueryCore workspace).nodeCount) :
    ∃! func, ∃ nodes, (buildQueryCore workspace).nodesByFunc.get func = .ok (some nodes) ∧ node ∈ nodes := by
  obtain ⟨id,segment,localNode,source,placed,held⟩ := placed_of_inside partitioned fits inside
  have own : nodeAt workspace (buildQueryCore workspace) node = some source := by
    rw [nodeAt_placed partitioned fits placed, held]
  refine ⟨source.func,?_,fun func again => ?_⟩
  · obtain ⟨found,answer,_,member⟩ := nodesByFunc_listed partitioned fits source.func
    have listed := (member node).mpr (by rw [own, Option.map_some])
    cases found with
    | none => exact absurd listed List.not_mem_nil
    | some nodes => exact ⟨nodes,answer,listed⟩
  · obtain ⟨nodes,answer,listed⟩ := again
    obtain ⟨found,answer',_,member⟩ := nodesByFunc_listed partitioned fits func
    rw [answer] at answer'
    cases answer'
    have owner := (member node).mp listed
    rw [own, Option.map_some] at owner
    exact (Option.some.inj owner).symm

theorem localNodeFor_unique (distinct : ∀ view ∈ workspace.segmentViews, view.2.nodes.Nodup) (id : SegmentId)
    (func : FuncId) (place : PlaceId) : ∃ found, localNodeFor workspace (buildQueryCore workspace) id func place = .ok found ∧
      ∀ localNode, found = some localNode ↔
        ∃ segment, (id,segment) ∈ workspace.segmentViews ∧ segment.nodes[localNode]? = some ⟨func,place⟩ := by
  obtain ⟨nodes,answer,perm⟩ := funcNodes_perm partitioned fits func
  have result := localNodeFor_among id place answer
  cases read : workspace.segmentView id with
  | none =>
    rw [read, Option.bind_none] at result
    refine ⟨none,result,fun localNode => ⟨nofun,fun found => ?_⟩⟩
    obtain ⟨segment,present,_⟩ := found
    have read' := (IdgWorkspace.mem_segmentViews.mp present).2
    rw [read] at read'
    cases read'
  | some segment =>
    have same : ∀ {segment'}, (id,segment') ∈ workspace.segmentViews → segment = segment' := by
      intro segment' present
      have read' := (IdgWorkspace.mem_segmentViews.mp present).2
      rw [read] at read'
      exact Option.some.inj read'
    by_cases home : (id,segment) ∈ workspace.segmentViews ∧ func ∈ segment.funcs
    · obtain ⟨found,result,held⟩ := localNodeFor_home partitioned fits (fun present => distinct (id,segment) present)
        (placed_listed partitioned fits home.1 home.2) read place
      refine ⟨found,result,fun localNode => (held localNode).trans ⟨fun held => ⟨segment,held⟩,fun held => ?_⟩⟩
      obtain ⟨segment',present,held⟩ := held
      cases same present
      exact ⟨present,held⟩
    · rw [read, Option.bind_some] at result
      -- A segment that holds a node of the function lists the function.
      have outside : ∀ {segment' : IdgSegment} {localNode : NodeId} {source : IdgNode}, (id,segment') ∈ workspace.segmentViews →
          segment'.nodes[localNode]? = some source → source.func ≠ func := by
        intro segment' localNode source present held own
        have listed := partitioned.listed _ present source (List.mem_of_getElem? held)
        rw [own] at listed
        cases same present
        exact home ⟨present,listed⟩
      refine ⟨_,result,fun localNode => ⟨fun found => ?_,fun found => ?_⟩⟩
      · obtain ⟨node,member,address⟩ := localNodeAmong_address found
        have owned := of_decide_eq_true (List.mem_filter.mp (perm.subset member)).2
        obtain ⟨segment',placed⟩ := placed_of_address partitioned fits address
        have row : (nodeFuncsOf workspace)[node]? = segment'.nodes[localNode]?.map (·.func) := placed.func
        rw [owned] at row
        obtain ⟨source,held,own⟩ := Option.map_eq_some_iff.mp row.symm
        exact absurd own (outside (List.mem_of_getElem? placed.view) held)
      · obtain ⟨segment',present,held⟩ := found
        exact absurd rfl (outside present held)

end proofs

theorem address_space_directories (partitioned : workspace.Partitioned) (fits : workspace.FitsWords)
    (distinct : ∀ view ∈ workspace.segmentViews, view.2.nodes.Nodup) : Directories workspace (buildQueryCore workspace) where
  placed := wsNodeFor_placed partitioned fits
  addressed := wsAddress_inside partitioned fits
  inverse := wsNodeFor_inverse partitioned fits
  listed := nodesByFunc_listed partitioned fits
  parted := nodesByFunc_parted partitioned fits
  localNodes := localNodeFor_unique partitioned fits distinct
  callArgs := fun node site argument => by
    rw [← nodePlaces_at partitioned fits, ← mem_callArgsOf]
    exact callArgs_row (callArgsOf_ordered _).1
  params := fun node argument => by
    rw [← nodePlaces_at partitioned fits, ← mem_paramsOf]
    exact params_row (paramsOf_ordered _).1

def argumentSegment : IdgSegment := ⟨[.callArg ⟨1,3,4⟩ 0,.param 0],[⟨7,1⟩,⟨7,0⟩],[],[7],[]⟩

def argumentFiles : IdgWorkspace := registerSegment (registerSegment spannedFile ⟨[],[],[],[5],[]⟩) argumentSegment

theorem argumentFiles_filed : argumentFiles.Filed :=
  registerSegment_filed (registerSegment_filed spannedFile_filed ⟨rfl,rfl⟩ nofun .nil (by decide)) ⟨rfl,rfl⟩
    (by decide) (by decide) (by decide)

theorem argumentFiles_fits : argumentFiles.FitsWords where
  segments := by decide
  nodes := by decide
  funcs := by decide
  sites := by decide
  arguments := by decide
  formals := by decide

theorem address_space_directories_argumentFiles : Directories argumentFiles (buildQueryCore argumentFiles) :=
  address_space_directories argumentFiles_filed.toPartitioned argumentFiles_fits argumentFiles_filed.distinct

end BonsaiNinja.Idg
