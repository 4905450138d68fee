import BonsaiNinja.Idg.QueryCore
import BonsaiNinja.Library.BinarySearch

namespace BonsaiNinja.Idg
open Library

def placeKey (core : QueryCore) (segment : IdgSegment) (wsNode : NodeId) : Nat :=
  match core.wsAddress wsNode with
  | none => u32Max
  | some (_,localNode) => segment.nodes[localNode]?.elim u32Max (·.place)

def localNodeAmong (core : QueryCore) (segment : IdgSegment) (segId : SegmentId) (nodes : List NodeId) (place : PlaceId) :
    Option NodeId := do
  let row ← binarySearchByKey nodes (placeKey core segment) place
  let wsNode ← nodes[row]?
  let (nodeSegment,localNode) ← core.wsAddress wsNode
  if nodeSegment = segId then some localNode else none

def localNodeFor (workspace : IdgWorkspace) (core : QueryCore) (segId : SegmentId) (func : FuncId) (place : PlaceId) :
    Except Halt (Option NodeId) := do
  match ← core.nodesByFunc.get func with
  | none => return none
  | some nodes =>
    return (workspace.segmentView segId).bind fun segment => localNodeAmong core segment segId nodes place

-- Registering a segment files its functions under it, and a node dictionary
-- holds each node once.
structure IdgWorkspace.Filed (workspace : IdgWorkspace) : Prop extends workspace.Partitioned where
  filed : ∀ view ∈ workspace.segmentViews, ∀ func ∈ view.2.funcs, workspace.segmentForFunc func = some view.1
  distinct : ∀ view ∈ workspace.segmentViews, view.2.nodes.Nodup

def registerSegment (workspace : IdgWorkspace) (segment : IdgSegment) : IdgWorkspace :=
  let id := workspace.segments.length
  {workspace with
    byFunc := segment.funcs.foldl (fun owners func => owners.insert func id) workspace.byFunc
    segments := workspace.segments ++ [segment]
    residentSegments := if workspace.segmentSpool.isSome then workspace.residentSegments ++ [true] else workspace.residentSegments}

section registration
variable {workspace : IdgWorkspace} {segment : IdgSegment}

theorem lookup_insertAll (funcs : List FuncId) (id : SegmentId) (owners : IdMap SegmentId) (func : FuncId) :
    (funcs.foldl (fun owners func => owners.insert func id) owners).lookup func =
      if func ∈ funcs then some id else owners.lookup func := by
  induction funcs generalizing owners with
  | nil => rfl
  | cons first funcs ih =>
    rw [List.foldl_cons, ih]
    by_cases later : func ∈ funcs
    · rw [if_pos later, if_pos (List.mem_cons_of_mem _ later)]
    · rw [if_neg later]
      by_cases same : func = first
      · rw [same, AList.lookup_insert, if_pos List.mem_cons_self]
      · rw [AList.lookup_insert_ne same, if_neg fun member => ?_]
        exact (List.mem_cons.mp member).elim same later

theorem registered_views (memory : workspace.querySidecar = none ∧ workspace.segmentSpool = none) :
    (registerSegment workspace segment).segmentViews = workspace.segmentViews ++ [(workspace.segments.length,segment)] := by
  have counted : workspace.segmentCount = workspace.segments.length := by rw [IdgWorkspace.segmentCount, memory.1]
  have counted' : (registerSegment workspace segment).segmentCount = workspace.segments.length + 1 := by
    rw [IdgWorkspace.segmentCount, show (registerSegment workspace segment).querySidecar = none from memory.1]
    exact List.length_append
  have read : ∀ id, workspace.segmentView id = workspace.segments[id]? := fun id => by
    rw [IdgWorkspace.segmentView, memory.1, memory.2]
  have read' : ∀ id, (registerSegment workspace segment).segmentView id = (workspace.segments ++ [segment])[id]? := fun id => by
    rw [IdgWorkspace.segmentView, show (registerSegment workspace segment).querySidecar = none from memory.1,
      show (registerSegment workspace segment).segmentSpool = none from memory.2]
    rfl
  rw [IdgWorkspace.segmentViews, IdgWorkspace.segmentViews, counted, counted', List.range_succ, List.filterMap_append]
  congr 1
  · refine List.filterMap_congr fun id member => ?_
    rw [read, read', List.getElem?_append_left (List.mem_range.mp member)]
  · rw [List.filterMap_cons_some (b := (workspace.segments.length,segment)) (by
      rw [read', List.getElem?_append_right (Nat.le_refl _), Nat.sub_self]
      rfl)]
    rfl

theorem registerSegment_filed (filed : workspace.Filed) (memory : workspace.querySidecar = none ∧ workspace.segmentSpool = none)
    (listed : ∀ node ∈ segment.nodes, node.func ∈ segment.funcs) (distinct : segment.nodes.Nodup)
    (fresh : ∀ func ∈ segment.funcs, workspace.segmentForFunc func = none) : (registerSegment workspace segment).Filed := by
  have views : (registerSegment workspace segment).segmentViews = _ := registered_views memory
  have owner : ∀ func, (registerSegment workspace segment).segmentForFunc func =
      if func ∈ segment.funcs then some workspace.segments.length else workspace.segmentForFunc func :=
    lookup_insertAll segment.funcs workspace.segments.length workspace.byFunc
  -- Functions of earlier segments are not among the new ones.
  have apart : ∀ view ∈ workspace.segmentViews, ∀ func ∈ view.2.funcs, func ∉ segment.funcs := by
    intro view present func own again
    have known := filed.filed view present func own
    rw [fresh func again] at known
    cases known
  have each : ∀ (p : SegmentId × IdgSegment → Prop), (∀ view ∈ workspace.segmentViews, p view) →
      p (workspace.segments.length,segment) → ∀ view ∈ (registerSegment workspace segment).segmentViews, p view := by
    intro p old new view present
    rw [views] at present
    rcases List.mem_append.mp present with earlier | last
    · exact old view earlier
    · rw [List.mem_singleton.mp last]
      exact new
  refine { readable := ?_, listed := each _ filed.listed listed, disjoint := ?_, filed := ?_, distinct := each _ filed.distinct distinct }
  · intro id inside
    rw [IdgWorkspace.segmentCount, show (registerSegment workspace segment).querySidecar = none from memory.1] at inside
    rw [IdgWorkspace.segmentView, show (registerSegment workspace segment).querySidecar = none from memory.1,
      show (registerSegment workspace segment).segmentSpool = none from memory.2]
    exact Option.isSome_iff_exists.mpr ⟨_,List.getElem?_eq_getElem inside⟩
  · refine each _ (fun left present => each _ (filed.disjoint left present) fun func own again => ?_) ?_
    · exact absurd again (apart left present func own)
    · refine each _ (fun right present func own again => ?_) fun _ _ _ => rfl
      exact absurd own (apart right present func again)
  · refine each _ (fun view present func own => ?_) fun func own => ?_
    · rw [owner, if_neg (apart view present func own)]
      exact filed.filed view present func own
    · rw [owner, if_pos own]

end registration

section order
variable {segment : IdgSegment} {base : Nat}

theorem placeOrder_iff {a b : NodeId} : placeOrder segment base a b = true ↔
    segment.nodes[a - base]?.elim u32Max (·.place) < segment.nodes[b - base]?.elim u32Max (·.place) ∨
      segment.nodes[a - base]?.elim u32Max (·.place) = segment.nodes[b - base]?.elim u32Max (·.place) ∧ a ≤ b := by
  simp [placeOrder]

theorem placeOrder_trans (a b c : NodeId) (first : placeOrder segment base a b = true)
    (second : placeOrder segment base b c = true) : placeOrder segment base a c = true := by
  rw [placeOrder_iff] at first second ⊢
  rcases first with lower | ⟨same,before⟩
  · rcases second with lower' | ⟨same',_⟩
    · exact .inl (lower.trans lower')
    · exact .inl (same' ▸ lower)
  · rw [same]
    exact second.imp_right fun later => ⟨later.1,Nat.le_trans before later.2⟩

theorem placeOrder_total (a b : NodeId) : (placeOrder segment base a b || placeOrder segment base b a) = true := by
  rw [Bool.or_eq_true, placeOrder_iff, placeOrder_iff]
  rcases Nat.lt_trichotomy (segment.nodes[a - base]?.elim u32Max (·.place)) (segment.nodes[b - base]?.elim u32Max (·.place)) with
    lower | same | upper
  · exact .inl (.inl lower)
  · exact (Nat.le_total a b).imp (fun before => .inr ⟨same,before⟩) fun before => .inr ⟨same.symm,before⟩
  · exact .inr (.inl upper)

end order

section filling
variable {workspace : IdgWorkspace} {keys : List Nat} {filling : Filling}
variable {le : Nat → Nat → Bool}

theorem placeNodes_inOrder {other : FuncId} (base start : Nat) {nodes : List IdgNode}
    (filled : Filling.Filled keys (base + start) filling)
    (rows : ∀ i node, nodes[i]? = some node → keys[base + start + i]? = some node.func)
    (elsewhere : ∀ node ∈ nodes, node.func ≠ other) (ordered : Filling.InOrder keys filling le other) :
    Filling.InOrder keys ((nodes.zipIdx start).foldl
      (fun filling (node,localNode) => filling.place node.func (base + localNode)) filling) le other := by
  induction nodes generalizing start filling with
  | nil => exact ordered
  | cons node nodes ih =>
    have next : keys[base + start]? = some node.func := rows 0 node rfl
    apply ih (start + 1) (filled.place next)
    · intro i other found
      have row := rows (i + 1) other (by rw [List.getElem?_cons_succ]; exact found)
      rw [show base + (start + 1) + i = base + start + (i + 1) by omega]
      exact row
    · exact fun other member => elsewhere other (List.mem_cons_of_mem _ member)
    · exact ordered.place filled next (elsewhere node List.mem_cons_self)

theorem inOrder_absent {func : FuncId} (absent : func ∉ keys) : Filling.InOrder keys filling le func := by
  rw [Filling.InOrder, startOf_succ, List.count_eq_zero.mpr absent, Nat.add_zero, slice, Nat.sub_self, List.take_zero]
  exact .nil

theorem absent_of_outside {func : FuncId} (outside : ¬func + 1 < keys.max?.elim 1 (· + 2)) : func ∉ keys :=
  fun member => outside (max_elim_lt member)

-- Sorting the listed functions keeps the order of one that is not among them, or
-- is sorted the same way again.
theorem sortFuncs_inOrder {count : Nat} {segment : IdgSegment} {base : Nat} {other : FuncId}
    (filled : Filling.Filled keys count filling)
    (complete : ∀ func ∈ segment.funcs, (keys.take count).count func = keys.count func)
    (same : other ∈ segment.funcs → le = placeOrder segment base)
    (ordered : other ∈ segment.funcs ∨ Filling.InOrder keys filling le other) :
    Filling.InOrder keys (sortFuncs segment base (funcOffsets keys) filling) le other := by
  unfold sortFuncs
  generalize segment.funcs = funcs at complete same ordered
  induction funcs generalizing filling with
  | nil => exact ordered.resolve_left List.not_mem_nil
  | cons func funcs ih =>
    rw [List.foldl_cons, funcOffsets_at, funcOffsets_at]
    have rest : ∀ func ∈ funcs, (keys.take count).count func = keys.count func :=
      fun other member => complete other (List.mem_cons_of_mem _ member)
    have own : other ∈ funcs → le = placeOrder segment base := fun later => same (List.mem_cons_of_mem _ later)
    by_cases inside : func + 1 < keys.max?.elim 1 (· + 2)
    · rw [if_pos (Nat.lt_of_succ_lt inside), if_pos inside]
      apply ih (filled.sortRows _ (complete func List.mem_cons_self)) rest own
      by_cases head : func = other
      · subst head
        rw [same List.mem_cons_self]
        exact .inr (filled.inOrder_sortRows placeOrder_trans placeOrder_total)
      · refine ordered.imp (fun member => ?_) fun kept => kept.sortRows filled head
        exact (List.mem_cons.mp member).resolve_left (Ne.symm head)
    · rw [if_neg inside]
      have kept : Filling.InOrder keys filling le other ∨ other ∈ funcs := by
        by_cases head : func = other
        · subst head
          exact .inl (inOrder_absent (absent_of_outside inside))
        · exact ordered.symm.imp_right fun member => (List.mem_cons.mp member).resolve_left (Ne.symm head)
      split
      · next found => cases found
      · exact ih filled rest own kept.symm

def PlacesOrdered (workspace : IdgWorkspace) (views : List (SegmentId × IdgSegment)) (filling : Filling) : Prop :=
  ∀ view ∈ views, ∀ func ∈ view.2.funcs, Filling.InOrder (nodeFuncsOf workspace) filling
    (placeOrder view.2 ((segmentBasesOf workspace).getD view.1 0)) func

theorem fillSegment_ordered (partitioned : workspace.Partitioned) {done rest : List (SegmentId × IdgSegment)}
    {view : SegmentId × IdgSegment} (views : workspace.segmentViews = done ++ view :: rest)
    (filled : Filling.Filled (nodeFuncsOf workspace) (funcsOfViews done).length filling)
    (ordered : PlacesOrdered workspace done filling) :
    PlacesOrdered workspace (done ++ [view]) (fillSegment workspace filling view) := by
  have position := view_position partitioned.readable views
  have present : view ∈ workspace.segmentViews := by rw [views]; simp
  have placed := placeSegment_filled partitioned.readable views filled
  intro other member func listed
  refine sortFuncs_inOrder placed (fun _ listed' => listed_complete partitioned views listed') ?_ ?_
  · intro again
    rcases List.mem_append.mp member with earlier | same
    · have known : other ∈ workspace.segmentViews := by rw [views]; exact List.mem_append_left _ earlier
      have equal := partitioned.disjoint other known view present func listed again
      have registered := (IdgWorkspace.mem_segmentViews.mp known).2
      rw [equal, (IdgWorkspace.mem_segmentViews.mp present).2] at registered
      rw [equal, Option.some.inj registered]
    · rw [List.mem_singleton.mp same]
  · rcases List.mem_append.mp member with earlier | same
    · by_cases again : func ∈ view.2.funcs
      · exact .inl again
      · refine .inr ?_
        rw [position.2]
        refine placeNodes_inOrder (funcsOfViews done).length 0 filled (fun i node found => nodeFuncs_row views found) ?_
          (ordered other earlier func listed)
        intro node inNodes same
        exact again (same ▸ partitioned.listed view present node inNodes)
    · rw [List.mem_singleton.mp same] at listed
      exact .inl listed

theorem fillFuncNodes_ordered (partitioned : workspace.Partitioned) :
    PlacesOrdered workspace workspace.segmentViews (fillFuncNodes workspace) := by
  have run : ∀ done rest filling, workspace.segmentViews = done ++ rest →
      Filling.Filled (nodeFuncsOf workspace) (funcsOfViews done).length filling → PlacesOrdered workspace done filling →
      PlacesOrdered workspace workspace.segmentViews (rest.foldl (fillSegment workspace) filling) := by
    intro done rest
    induction rest generalizing done with
    | nil =>
      intro filling views filled ordered
      rw [List.append_nil] at views
      rw [views]
      exact ordered
    | cons view rest ih =>
      intro filling views filled ordered
      exact ih (done ++ [view]) _ (by rw [views]; simp) (fillSegment_filled partitioned views filled)
        (fillSegment_ordered partitioned views filled ordered)
  exact run [] workspace.segmentViews _ rfl funcNodes_start fun _ member => absurd member List.not_mem_nil

end filling

section lookups
variable {workspace : IdgWorkspace}

section
variable (partitioned : workspace.Partitioned)
include partitioned

section
variable (fits : workspace.FitsWords)
include fits

theorem buildQueryCore_lookups :
    (buildQueryCore workspace).LookupsInBounds :=
  (buildQueryCore_consistent partitioned fits).lookups fits.segments fun _ member =>
    (segmentBases_le member).trans fits.nodes

theorem coreNodeFor (segId : SegmentId) (localNode : NodeId) :
    (buildQueryCore workspace).wsNodeFor segId localNode = .ok ((buildUnified workspace).wsNodeFor segId localNode) := by
  obtain ⟨found,answer,_⟩ := (buildQueryCore_lookups partitioned fits).wsNodeFor segId localNode
  rw [answer]
  congr 1
  have same : (buildQueryCore workspace).segmentBases = (buildUnified workspace).segmentBases := rfl
  rw [UnifiedAddressSpace.wsNodeFor, wsNodeForSegmentBases]
  rw [QueryCore.wsNodeFor, same] at answer
  cases first : (buildUnified workspace).segmentBases[segId]? with
  | none =>
    rw [first] at answer
    cases answer
    rfl
  | some start =>
    cases next : (buildUnified workspace).segmentBases[segId + 1]? with
    | none =>
      rw [first, next] at answer
      cases answer
      rfl
    | some stop =>
      rw [first, next] at answer
      dsimp only at answer ⊢
      by_cases inside : localNode < stop - start
      · rw [if_pos inside] at answer ⊢
        split at answer
        · exact (Except.ok.inj answer).symm
        · cases answer
      · rw [if_neg inside] at answer ⊢
        exact (Except.ok.inj answer).symm

theorem placed_of_func {node : NodeId} {func : FuncId}
    (owned : (nodeFuncsOf workspace)[node]? = some func) : ∃ id segment localNode source,
      PlacedAt workspace id segment localNode node ∧ segment.nodes[localNode]? = some source ∧ source.func = func := by
  have inside : node < (buildQueryCore workspace).nodeCount := by
    have bound := (List.getElem?_eq_some_iff.mp owned).1
    rw [nodeFuncsOf_length] at bound
    exact bound
  obtain ⟨id,localNode,_,back⟩ := (buildQueryCore_lookups partitioned fits).wsAddress node inside
  rw [coreNodeFor partitioned fits] at back
  obtain ⟨segment,placed⟩ := wsNode_placed partitioned.readable (Except.ok.inj back)
  have row : (nodeFuncsOf workspace)[node]? = segment.nodes[localNode]?.map (·.func) := placed.func
  rw [owned, List.getElem?_eq_getElem placed.inside] at row
  exact ⟨id,segment,localNode,_,placed,List.getElem?_eq_getElem placed.inside,(Option.some.inj row).symm⟩

theorem address_of_placed {id : SegmentId}
    {segment : IdgSegment} {localNode node : NodeId} (placed : PlacedAt workspace id segment localNode node) :
    (buildQueryCore workspace).wsAddress node = some (id,localNode) := by
  have row : (nodeFuncsOf workspace)[node]? = segment.nodes[localNode]?.map (·.func) := placed.func
  rw [List.getElem?_eq_getElem placed.inside] at row
  have inside : node < (buildQueryCore workspace).nodeCount := by
    have bound := (List.getElem?_eq_some_iff.mp row).1
    rw [nodeFuncsOf_length] at bound
    exact bound
  obtain ⟨id',localNode',address,back⟩ := (buildQueryCore_lookups partitioned fits).wsAddress node inside
  rw [coreNodeFor partitioned fits] at back
  obtain ⟨segment',placed'⟩ := wsNode_placed partitioned.readable (Except.ok.inj back)
  obtain ⟨rfl,_,rfl⟩ := placed.unique placed'
  exact address

theorem funcNodes_perm (func : FuncId) :
    ∃ found, (buildQueryCore workspace).nodesByFunc.get func = .ok found ∧ (found.getD []).Perm
      ((List.range (nodeFuncsOf workspace).length).filter fun node => (nodeFuncsOf workspace)[node]? = some func) := by
  obtain ⟨found,answer,_⟩ := (buildQueryCore_lookups partitioned fits).nodesByFunc func
  refine ⟨found,answer,?_⟩
  cases found with
  | some nodes => exact buildQueryCore_get partitioned answer
  | none =>
    have absent : func ∉ nodeFuncsOf workspace := by
      intro member
      have room := max_elim_lt member
      unfold NodesByFunc.get at answer
      have offsets : (buildQueryCore workspace).nodesByFunc.offsets = funcOffsets (nodeFuncsOf workspace) := rfl
      rw [offsets] at answer
      rw [funcOffsets_at, funcOffsets_at, if_pos room, if_pos (Nat.lt_of_succ_lt room)] at answer
      unfold subslice at answer
      dsimp only at answer
      split at answer <;> cases answer
    rw [Option.getD_none, List.filter_eq_nil_iff.mpr]
    intro node _ owned
    exact absent (List.mem_of_getElem? (of_decide_eq_true owned))

end

theorem funcNodes_ordered {view : SegmentId × IdgSegment}
    (present : view ∈ workspace.segmentViews) {func : FuncId} (listed : func ∈ view.2.funcs) {found : Option (List NodeId)}
    (answer : (buildQueryCore workspace).nodesByFunc.get func = .ok found) :
    (found.getD []).Pairwise fun a b => placeOrder view.2 ((segmentBasesOf workspace).getD view.1 0) a b = true := by
  cases found with
  | none => exact .nil
  | some nodes =>
    rw [Option.getD_some, buildQueryCore_slice answer]
    exact fillFuncNodes_ordered partitioned view present func listed

end

end lookups

section search
variable {workspace : IdgWorkspace} {func : FuncId} {id : SegmentId} {segment : IdgSegment}
variable {localNode : NodeId}

def Home (workspace : IdgWorkspace) (func : FuncId) (id : SegmentId) (segment : IdgSegment) : Prop :=
  ∀ node, (nodeFuncsOf workspace)[node]? = some func → ∃ localNode source, PlacedAt workspace id segment localNode node ∧
    segment.nodes[localNode]? = some source ∧ source.func = func ∧ func ∈ segment.funcs

theorem placed_filed (filed : workspace.Filed) (fits : workspace.FitsWords) (owner : workspace.segmentForFunc func = some id)
    (read : workspace.segmentView id = some segment) : Home workspace func id segment := by
  intro node owned
  obtain ⟨id',segment',localNode,source,placed,found,rfl⟩ := placed_of_func filed.toPartitioned fits owned
  have present := List.mem_of_getElem? placed.view
  have listed := filed.listed _ present source (List.mem_of_getElem? found)
  have same := filed.filed _ present source.func listed
  rw [owner] at same
  cases same
  have read' := (IdgWorkspace.mem_segmentViews.mp present).2
  rw [read] at read'
  cases read'
  exact ⟨localNode,source,placed,found,rfl,listed⟩

theorem placed_listed (partitioned : workspace.Partitioned) (fits : workspace.FitsWords)
    (present : (id,segment) ∈ workspace.segmentViews) (own : func ∈ segment.funcs) : Home workspace func id segment := by
  intro node owned
  obtain ⟨id',segment',localNode,source,placed,found,rfl⟩ := placed_of_func partitioned fits owned
  have present' := List.mem_of_getElem? placed.view
  have listed := partitioned.listed _ present' source (List.mem_of_getElem? found)
  have same : id' = id := partitioned.disjoint _ present' _ present source.func listed own
  subst same
  have read := (IdgWorkspace.mem_segmentViews.mp present').2
  rw [(IdgWorkspace.mem_segmentViews.mp present).2] at read
  cases read
  exact ⟨localNode,source,placed,found,rfl,listed⟩

theorem placeKey_placed (partitioned : workspace.Partitioned) (fits : workspace.FitsWords) {node : NodeId}
    {source : IdgNode} (placed : PlacedAt workspace id segment localNode node) (found : segment.nodes[localNode]? = some source) :
    placeKey (buildQueryCore workspace) segment node = source.place := by
  rw [placeKey, address_of_placed partitioned fits placed]
  dsimp only
  rw [found, Option.elim_some]

theorem PlacedAt.offset {node : NodeId} (placed : PlacedAt workspace id segment localNode node) :
    node - (segmentBasesOf workspace).getD id 0 = localNode := by
  have inside : id < workspace.segmentViews.length := (List.getElem?_eq_some_iff.mp placed.view).1
  rw [List.getD_eq_getElem?_getD, segmentBases_at, if_pos inside.le, Option.getD_some, placed.address, Nat.add_sub_cancel_left]

-- The dictionary holds a node once, so the places of a function's nodes ascend.
theorem funcPlaces_ascending (partitioned : workspace.Partitioned) (fits : workspace.FitsWords)
    (distinct : (id,segment) ∈ workspace.segmentViews → segment.nodes.Nodup)
    (home : Home workspace func id segment) {found : Option (List NodeId)}
    (answer : (buildQueryCore workspace).nodesByFunc.get func = .ok found)
    (perm : (found.getD []).Perm
      ((List.range (nodeFuncsOf workspace).length).filter fun node => (nodeFuncsOf workspace)[node]? = some func)) :
    ((found.getD []).map (placeKey (buildQueryCore workspace) segment)).Pairwise (· < ·) := by
  have owned : ∀ node ∈ found.getD [], (nodeFuncsOf workspace)[node]? = some func := fun node member =>
    of_decide_eq_true (List.mem_filter.mp (perm.subset member)).2
  have once : (found.getD []).Nodup := perm.nodup_iff.mpr (List.Nodup.filter _ List.nodup_range)
  cases empty : found.getD [] with
  | nil => exact .nil
  | cons head rest =>
    rw [← empty]
    obtain ⟨_,_,placed,_,_,listed⟩ := home head (owned head (by rw [empty]; exact List.mem_cons_self))
    have present := List.mem_of_getElem? placed.view
    have ordered := funcNodes_ordered partitioned present listed answer
    rw [List.pairwise_map]
    refine (ordered.and once).imp_of_mem fun {a b} first second both => ?_
    obtain ⟨i,left,placedLeft,foundLeft,ownLeft,_⟩ := home a (owned a first)
    obtain ⟨j,right,placedRight,foundRight,ownRight,_⟩ := home b (owned b second)
    rw [placeKey_placed partitioned fits placedLeft foundLeft,
      placeKey_placed partitioned fits placedRight foundRight]
    have order := placeOrder_iff.mp both.1
    dsimp only at order
    rw [placedLeft.offset, placedRight.offset, foundLeft, foundRight, Option.elim_some, Option.elim_some] at order
    rcases order with lower | ⟨same,_⟩
    · exact lower
    · have equal : left = right := by
        cases left
        cases right
        simp_all
      have row : segment.nodes[i]? = segment.nodes[j]? := by rw [foundLeft, foundRight, equal]
      have local_ := (List.getElem?_inj placedLeft.inside (distinct present)).mp row
      exact absurd (by rw [placedLeft.address, placedRight.address, local_]) both.2

theorem localNodeAmong_iff {core : QueryCore} {nodes : List NodeId} {place : PlaceId}
    (ascending : (nodes.map (placeKey core segment)).Pairwise (· < ·)) :
    localNodeAmong core segment id nodes place = some localNode ↔
      ∃ node ∈ nodes, core.wsAddress node = some (id,localNode) ∧ placeKey core segment node = place := by
  unfold localNodeAmong
  simp only [Option.bind_eq_bind, Option.bind_eq_some_iff]
  constructor
  · intro found
    obtain ⟨row,hit,node,held,⟨other,localNode'⟩,address,same⟩ := found
    rw [binarySearchByKey_iff ascending, List.getElem?_map, held] at hit
    split at same
    · next own =>
      cases same
      exact ⟨node,List.mem_of_getElem? held,own ▸ address,Option.some.inj hit⟩
    · cases same
  · intro found
    obtain ⟨node,member,address,rfl⟩ := found
    obtain ⟨row,held⟩ := List.getElem?_of_mem member
    refine ⟨row,?_,node,held,(id,localNode),address,if_pos rfl⟩
    rw [binarySearchByKey_iff ascending, List.getElem?_map, held]
    rfl

theorem localNodeAmong_address {core : QueryCore} {segment : IdgSegment} {id : SegmentId} {nodes : List NodeId}
    {place : PlaceId} (found : localNodeAmong core segment id nodes place = some localNode) :
    ∃ node ∈ nodes, core.wsAddress node = some (id,localNode) := by
  unfold localNodeAmong at found
  simp only [Option.bind_eq_bind, Option.bind_eq_some_iff] at found
  obtain ⟨row,_,node,held,⟨other,localNode'⟩,address,same⟩ := found
  split at same
  · next own =>
    cases same
    exact ⟨node,List.mem_of_getElem? held,own ▸ address⟩
  · cases same

theorem localNodeFor_among {found : Option (List NodeId)} (id : SegmentId) (place : PlaceId)
    (answer : (buildQueryCore workspace).nodesByFunc.get func = .ok found) :
    localNodeFor workspace (buildQueryCore workspace) id func place = .ok ((workspace.segmentView id).bind fun segment =>
      localNodeAmong (buildQueryCore workspace) segment id (found.getD []) place) := by
  rw [localNodeFor, answer]
  cases found with
  | some nodes => rfl
  | none => cases workspace.segmentView id <;> rfl

theorem localNodeFor_home (partitioned : workspace.Partitioned) (fits : workspace.FitsWords)
    (distinct : (id,segment) ∈ workspace.segmentViews → segment.nodes.Nodup) (home : Home workspace func id segment) (read : workspace.segmentView id = some segment) (place : PlaceId) :
    ∃ found, localNodeFor workspace (buildQueryCore workspace) id func place = .ok found ∧ ∀ localNode,
      found = some localNode ↔ (id,segment) ∈ workspace.segmentViews ∧ segment.nodes[localNode]? = some ⟨func,place⟩ := by
  obtain ⟨listed,answer,perm⟩ := funcNodes_perm partitioned fits func
  have ascending := funcPlaces_ascending partitioned fits distinct home answer perm
  refine ⟨localNodeAmong (buildQueryCore workspace) segment id (listed.getD []) place,?_,fun localNode => ?_⟩
  · rw [localNodeFor_among id place answer, read, Option.bind_some]
  · rw [localNodeAmong_iff ascending]
    constructor
    · intro found
      obtain ⟨node,member,address,rfl⟩ := found
      have owned : (nodeFuncsOf workspace)[node]? = some func :=
        of_decide_eq_true (List.mem_filter.mp (perm.subset member)).2
      obtain ⟨localNode',source,placed,held,rfl,_⟩ := home node owned
      rw [address_of_placed partitioned fits placed] at address
      cases address
      rw [placeKey_placed partitioned fits placed held]
      exact ⟨List.mem_of_getElem? placed.view,held⟩
    · intro found
      obtain ⟨present,held⟩ := found
      obtain ⟨registered,_⟩ := IdgWorkspace.mem_segmentViews.mp present
      have view := segmentViews_at partitioned.readable id
      rw [if_pos registered, read, Option.map_some] at view
      have placed : PlacedAt workspace id segment localNode (((nodeCounts workspace).take id).sum + localNode) :=
        ⟨view,(List.getElem?_eq_some_iff.mp held).1,rfl⟩
      have owned : (nodeFuncsOf workspace)[((nodeCounts workspace).take id).sum + localNode]? = some func := by
        have row : (nodeFuncsOf workspace)[_]? = segment.nodes[localNode]?.map (·.func) := placed.func
        rw [row, held]
        rfl
      refine ⟨_,perm.mem_iff.mpr (List.mem_filter.mpr ⟨?_,decide_eq_true owned⟩),
        address_of_placed partitioned fits placed,placeKey_placed partitioned fits placed held⟩
      exact List.mem_range.mpr (List.getElem?_eq_some_iff.mp owned).1

theorem localNodeFor_exact (filed : workspace.Filed) (fits : workspace.FitsWords) (owner : workspace.segmentForFunc func = some id)
    (read : workspace.segmentView id = some segment) (place : PlaceId) :
    ∃ found, localNodeFor workspace (buildQueryCore workspace) id func place = .ok found ∧ ∀ localNode,
      found = some localNode ↔ (id,segment) ∈ workspace.segmentViews ∧ segment.nodes[localNode]? = some ⟨func,place⟩ :=
  localNodeFor_home filed.toPartitioned fits (fun present => filed.distinct (id,segment) present) (placed_filed filed fits owner read) read place

end search
end BonsaiNinja.Idg
