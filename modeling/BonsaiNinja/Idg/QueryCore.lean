import BonsaiNinja.Idg.SegmentLayout
import BonsaiNinja.Library.CountingSort
import BonsaiNinja.Library.Decoding

namespace BonsaiNinja.Idg
open Library
variable {slots : List SegmentId}

-- The dense arrays of the unified address space, as the query accelerator
-- stores them. Every entry is a `u32`, the tags and flags are bytes.
def u32Max : Nat := 2 ^ 32 - 1

-- Indexing aborts outside the array.
def index (rows : List α) (i : Nat) : Except Halt α :=
  match rows[i]? with
  | some row => .ok row
  | none => .error .panic

def subslice (rows : List α) (start stop : Nat) : Except Halt (List α) :=
  if start ≤ stop ∧ stop ≤ rows.length then .ok (slice rows start stop) else .error .panic

structure NodesByFunc where
  offsets : List Nat
  nodes : List NodeId
  deriving DecidableEq, Repr

def NodesByFunc.get (directory : NodesByFunc) (func : FuncId) : Except Halt (Option (List NodeId)) :=
  match directory.offsets[func]?, directory.offsets[func + 1]? with
  | some start, some stop => do
    let nodes ← subslice directory.nodes start stop
    return some nodes
  | _, _ => .ok none

def binarySearch (rows : List Nat) (value : Nat) : Option Nat := rows.findIdx? (· == value)

structure CallArgIdentityIndex where
  nodes : List NodeId
  sites : List Span
  indices : List Nat
  deriving DecidableEq, Repr

def CallArgIdentityIndex.get (identities : CallArgIdentityIndex) (node : NodeId) : Option (Span × Nat) := do
  let row ← binarySearch identities.nodes node
  let site ← identities.sites[row]?
  let argument ← identities.indices[row]?
  return (site,argument)

def CallArgIdentityIndex.isValidFor (identities : CallArgIdentityIndex) (nodeCount : Nat) : Bool :=
  identities.nodes.length == identities.sites.length && identities.nodes.length == identities.indices.length &&
    decide (identities.nodes.IsChain (· < ·)) && identities.nodes.all (· < nodeCount)

structure ParamIdentityIndex where
  nodes : List NodeId
  indices : List Nat
  deriving DecidableEq, Repr

def ParamIdentityIndex.get (identities : ParamIdentityIndex) (node : NodeId) : Option Nat := do
  let row ← binarySearch identities.nodes node
  identities.indices[row]?

def ParamIdentityIndex.isValidFor (identities : ParamIdentityIndex) (nodeCount : Nat) : Bool :=
  identities.nodes.length == identities.indices.length && decide (identities.nodes.IsChain (· < ·)) &&
    identities.nodes.all (· < nodeCount)

def offsetsAreValid (offsets : List Nat) (valueCount : Nat) : Bool :=
  offsets.head? == some 0 && decide (offsets.IsChain (· ≤ ·)) && offsets.getLast? == some valueCount

structure QueryCore where
  segmentBases : List Nat
  funcSegments : List SegmentId
  nodeFuncs : List FuncId
  nodeBoundaries : List Nat
  projectedStorage : List Nat
  nodesByFunc : NodesByFunc
  callArgs : CallArgIdentityIndex
  params : ParamIdentityIndex
  deriving DecidableEq, Repr

namespace QueryCore

def nodeCount (core : QueryCore) : Nat := core.segmentBases.getLastD 0

-- The sum is a `u32`.
def wsNodeFor (core : QueryCore) (segmentId : SegmentId) (localNode : NodeId) : Except Halt (Option NodeId) :=
  match core.segmentBases[segmentId]?, core.segmentBases[segmentId + 1]? with
  | some start, some stop =>
    if localNode < stop - start then
      if start + localNode ≤ u32Max then .ok (some (start + localNode)) else .error .panic
    else .ok none
  | _, _ => .ok none

def wsAddress (core : QueryCore) (node : NodeId) : Option (SegmentId × NodeId) := do
  let func ← core.nodeFuncs[node]?
  let segmentId ← core.funcSegments[func]?
  if segmentId = u32Max then none
  else
    let start ← core.segmentBases[segmentId]?
    let stop ← core.segmentBases[segmentId + 1]?
    if start ≤ node ∧ node < stop then some (segmentId,node - start) else none

-- Every later read of the arrays succeeds: it neither leaves an array nor
-- overflows, and what it returns lies in the address space.
structure LookupsInBounds (core : QueryCore) : Prop where
  nodesByFunc : ∀ func, ∃ found, core.nodesByFunc.get func = .ok found ∧
    ∀ nodes, found = some nodes → ∀ node ∈ nodes, core.nodeFuncs[node]? = some func
  callArgs : ∀ node ∈ core.callArgs.nodes, node < core.nodeCount ∧ ∃ identity, core.callArgs.get node = some identity
  params : ∀ node ∈ core.params.nodes, node < core.nodeCount ∧ ∃ identity, core.params.get node = some identity
  wsAddress : ∀ node < core.nodeCount, ∃ segmentId localNode,
    core.wsAddress node = some (segmentId,localNode) ∧ core.wsNodeFor segmentId localNode = .ok (some node)
  wsNodeFor : ∀ segmentId localNode, ∃ found, core.wsNodeFor segmentId localNode = .ok found ∧
    ∀ node, found = some node → node < core.nodeFuncs.length

end QueryCore

-- What an accepted core satisfies: one address range for each segment, owners that
-- agree with it, and identity tables in address order.
structure QueryCore.Consistent (core : QueryCore) (segmentCount : Nat) : Prop where
  bases : core.segmentBases.length = segmentCount + 1
  first : core.segmentBases.head? = some 0
  sorted : core.segmentBases.IsChain (· ≤ ·)
  funcs : core.nodeFuncs.length = core.nodeCount
  boundaries : core.nodeBoundaries.length = core.nodeCount
  projected : core.projectedStorage.length = core.nodeCount
  segments : ∀ segmentId ∈ core.funcSegments, segmentId = u32Max ∨ segmentId < segmentCount
  owners : ∀ segmentId start stop, core.segmentBases[segmentId]? = some start → core.segmentBases[segmentId + 1]? = some stop →
    ∀ node, start ≤ node → node < stop → ∃ func boundary projected, core.nodeFuncs[node]? = some func ∧
      core.nodeBoundaries[node]? = some boundary ∧ boundary ≤ nodeBoundaryCallRet ∧
      core.projectedStorage[node]? = some projected ∧ projected ≤ 1 ∧ core.funcSegments[func]? = some segmentId
  directory : core.nodesByFunc.offsets.length = core.funcSegments.length + 1
  offsets : offsetsAreValid core.nodesByFunc.offsets core.nodesByFunc.nodes.length = true
  callArgs : core.callArgs.isValidFor core.nodeCount = true
  params : core.params.isValidFor core.nodeCount = true
  formals : ∀ node ∈ core.params.nodes, core.nodeBoundaries[node]? = some nodeBoundaryParam
  range : ∀ func < core.funcSegments.length, func ≤ u32Max
  listed : ∀ func < core.funcSegments.length, ∀ nodes, core.nodesByFunc.get func = .ok (some nodes) →
    ∀ node ∈ nodes, core.nodeFuncs[node]? = some func

theorem offsets_bounds {offsets : List Nat} {count i start stop : Nat} (valid : offsetsAreValid offsets count = true)
    (first : offsets[i]? = some start) (next : offsets[i + 1]? = some stop) : start ≤ stop ∧ stop ≤ count := by
  simp only [offsetsAreValid, Bool.and_eq_true, beq_iff_eq, decide_eq_true_eq] at valid
  obtain ⟨⟨_,chain⟩,last⟩ := valid
  have ordered := List.pairwise_iff_getElem.mp (List.isChain_iff_pairwise.mp chain)
  obtain ⟨low,rfl⟩ := List.getElem?_eq_some_iff.mp first
  obtain ⟨high,rfl⟩ := List.getElem?_eq_some_iff.mp next
  refine ⟨ordered i (i + 1) low high (Nat.lt_succ_self i),?_⟩
  rw [List.getLast?_eq_getElem?] at last
  obtain ⟨bound,same⟩ := List.getElem?_eq_some_iff.mp last
  rw [← same]
  rcases Nat.lt_or_ge (i + 1) (offsets.length - 1) with lower | upper
  · exact ordered _ _ high bound lower
  · have this : offsets.length - 1 = i + 1 := by omega
    simp only [this, Nat.le_refl]

theorem range_of {bases : List Nat} {node : Nat} (first : bases.head? = some 0) (inside : node < bases.getLastD 0) :
    ∃ i start stop : Nat, bases[i]? = some start ∧ bases[i + 1]? = some stop ∧ start ≤ node ∧ node < stop := by
  have search : ∀ (rows : List Nat) (low : Nat), low ≤ node → node < (low :: rows).getLastD 0 →
      ∃ i start stop : Nat, (low :: rows)[i]? = some start ∧ rows[i]? = some stop ∧ start ≤ node ∧ node < stop := by
    intro rows
    induction rows with
    | nil =>
      intro low lower upper
      simp only [List.getLastD_cons, List.getLastD_nil] at upper
      omega
    | cons next rows ih =>
      intro low lower upper
      rcases Nat.lt_or_ge node next with below | above
      · exact ⟨0,low,next,rfl,rfl,lower,below⟩
      · obtain ⟨i,start,stop,found,after,range⟩ := ih next above (by rw [List.getLastD_cons, List.getLastD_cons] at upper; rw [List.getLastD_cons]; exact upper)
        exact ⟨i + 1,start,stop,by rw [List.getElem?_cons_succ]; exact found,
          by rw [List.getElem?_cons_succ]; exact after,range⟩
  cases bases with
  | nil => cases first
  | cons low rows =>
    cases first
    obtain ⟨i,start,stop,found,after,range⟩ := search rows 0 (Nat.zero_le _) inside
    exact ⟨i,start,stop,found,by rw [List.getElem?_cons_succ]; exact after,range⟩

theorem binarySearch_mem {rows : List Nat} {value : Nat} (member : value ∈ rows) :
    ∃ row < rows.length, binarySearch rows value = some row := by
  unfold binarySearch
  cases found : rows.findIdx? (· == value) with
  | none =>
    rw [List.findIdx?_eq_none_iff] at found
    exact absurd (found value member) (by simp)
  | some row => exact ⟨row,(List.findIdx?_eq_some_iff_getElem.mp found).1,rfl⟩

theorem QueryCore.Consistent.lookups {core : QueryCore} {segmentCount : Nat} (consistent : core.Consistent segmentCount)
    (segments : segmentCount ≤ u32Max) (words : ∀ base ∈ core.segmentBases, base ≤ u32Max) : core.LookupsInBounds := by
  constructor
  · intro func
    unfold NodesByFunc.get
    cases first : core.nodesByFunc.offsets[func]? with
    | none => exact ⟨none,rfl,fun _ same => by cases same⟩
    | some start =>
      cases next : core.nodesByFunc.offsets[func + 1]? with
      | none => exact ⟨none,rfl,fun _ same => by cases same⟩
      | some stop =>
        have cut : subslice core.nodesByFunc.nodes start stop = .ok (slice core.nodesByFunc.nodes start stop) := by
          rw [subslice, if_pos (offsets_bounds consistent.offsets first next)]
        have inside : func < core.funcSegments.length := by
          have bound := (List.getElem?_eq_some_iff.mp next).1
          rw [consistent.directory] at bound
          exact Nat.lt_of_succ_lt_succ bound
        dsimp only
        rw [cut]
        refine ⟨_,rfl,fun nodes same node member => ?_⟩
        cases same
        refine consistent.listed func inside (slice core.nodesByFunc.nodes start stop) ?_ node member
        rw [NodesByFunc.get, first, next]
        dsimp only
        rw [cut]
        rfl
  · intro node member
    have valid := consistent.callArgs
    simp only [CallArgIdentityIndex.isValidFor, Bool.and_eq_true, beq_iff_eq, List.all_eq_true, decide_eq_true_eq] at valid
    obtain ⟨row,inside,found⟩ := binarySearch_mem member
    refine ⟨valid.2 node member,(core.callArgs.sites[row],core.callArgs.indices[row]),?_⟩
    rw [CallArgIdentityIndex.get, found]
    simp [List.getElem?_eq_getElem (valid.1.1.1 ▸ inside : row < core.callArgs.sites.length),
      List.getElem?_eq_getElem (valid.1.1.2 ▸ inside : row < core.callArgs.indices.length)]
  · intro node member
    have valid := consistent.params
    simp only [ParamIdentityIndex.isValidFor, Bool.and_eq_true, beq_iff_eq, List.all_eq_true, decide_eq_true_eq] at valid
    obtain ⟨row,inside,found⟩ := binarySearch_mem member
    refine ⟨valid.2 node member,core.params.indices[row],?_⟩
    rw [ParamIdentityIndex.get, found]
    simp [List.getElem?_eq_getElem (valid.1.1 ▸ inside : row < core.params.indices.length)]
  · intro (node : Nat) inside
    obtain ⟨segmentId,start,stop,first,next,lower,upper⟩ := range_of consistent.first inside
    obtain ⟨func,_,_,func_,_,_,_,_,segment_⟩ := consistent.owners segmentId start stop first next node lower upper
    have below : segmentId + 1 < core.segmentBases.length := (List.getElem?_eq_some_iff.mp next).1
    rw [consistent.bases] at below
    have address : core.wsAddress node = some (segmentId,node - start) := by
      have proper : segmentId ≠ u32Max := by omega
      simp [QueryCore.wsAddress,func_,segment_,proper,first,next,lower,upper]
    have word : node ≤ u32Max := by
      have bound := words stop (List.mem_of_getElem? next)
      omega
    refine ⟨segmentId,node - start,address,?_⟩
    rw [QueryCore.wsNodeFor, first, next]
    dsimp only
    rw [if_pos (Nat.sub_lt_sub_right lower upper), Nat.add_sub_cancel' lower, if_pos word]
  · intro (segmentId : Nat) (localNode : Nat)
    unfold QueryCore.wsNodeFor
    cases first : core.segmentBases[segmentId]? with
    | none => exact ⟨none,rfl,fun _ same => by cases same⟩
    | some start =>
      cases next : core.segmentBases[segmentId + 1]? with
      | none => exact ⟨none,rfl,fun _ same => by cases same⟩
      | some stop =>
        dsimp only
        split
        · next fits =>
          have word := words stop (List.mem_of_getElem? next)
          have below : start + localNode < stop := Nat.add_lt_of_lt_sub' fits
          rw [if_pos (below.le.trans word)]
          refine ⟨_,rfl,fun node same => ?_⟩
          cases same
          obtain ⟨_,_,_,func_,_⟩ := consistent.owners segmentId start stop first next (start + localNode)
            (Nat.le_add_right _ _) below
          exact (List.getElem?_eq_some_iff.mp func_).1
        · exact ⟨none,rfl,fun _ same => by cases same⟩

def funcOffsets (nodeFuncs : List FuncId) : List Nat :=
  countOffsets nodeFuncs (nodeFuncs.max?.elim 1 (· + 2))

def placeOrder (segment : IdgSegment) (base : Nat) (a b : NodeId) : Bool :=
  let place node := (segment.nodes[node - base]?.elim u32Max (·.place))
  place a < place b || place a == place b && a ≤ b

def placeNodes (segment : IdgSegment) (base : Nat) (filling : Filling) : Filling :=
  segment.nodes.zipIdx.foldl (fun filling (node,localNode) => filling.place node.func (base + localNode)) filling

def sortFuncs (segment : IdgSegment) (base : Nat) (offsets : List Nat) (filling : Filling) : Filling :=
  segment.funcs.foldl (fun filling func =>
    match offsets[func]?, offsets[func + 1]? with
    | some start, some stop => filling.sortRows (placeOrder segment base) start stop
    | _, _ => filling) filling

def fillSegment (workspace : IdgWorkspace) (filling : Filling) (view : SegmentId × IdgSegment) : Filling :=
  let base := (segmentBasesOf workspace).getD view.1 0
  sortFuncs view.2 base (funcOffsets (nodeFuncsOf workspace)) (placeNodes view.2 base filling)

def fillFuncNodes (workspace : IdgWorkspace) : Filling :=
  workspace.segmentViews.foldl (fillSegment workspace)
    ⟨(funcOffsets (nodeFuncsOf workspace)).dropLast,List.replicate (nodeFuncsOf workspace).length 0⟩

def fillFuncSegments (slots : List SegmentId) (pairs : List (FuncId × SegmentId)) : List SegmentId :=
  pairs.foldl (fun slots (func,segmentId) => slots.set func segmentId) slots

def funcSegmentPairs (workspace : IdgWorkspace) : List (FuncId × SegmentId) :=
  workspace.segmentViews.flatMap fun view => view.2.funcs.map fun func => (func,view.1)

def buildQueryCore (workspace : IdgWorkspace) : QueryCore :=
  let unified := buildUnified workspace
  let offsets := funcOffsets unified.nodeFuncs
  { segmentBases := unified.segmentBases
    funcSegments := fillFuncSegments (List.replicate (offsets.length - 1) u32Max) (funcSegmentPairs workspace)
    nodeFuncs := unified.nodeFuncs
    nodeBoundaries := unified.nodeBoundaries
    projectedStorage := unified.projectedStorage.map Bool.toNat
    nodesByFunc := ⟨offsets,(fillFuncNodes workspace).table⟩
    callArgs := ⟨unified.callArgs.map (·.1),unified.callArgs.map (·.2.1),unified.callArgs.map (·.2.2)⟩
    params := ⟨unified.params.map (·.1),unified.params.map (·.2)⟩ }

structure IdgWorkspace.Partitioned (workspace : IdgWorkspace) : Prop where
  readable : workspace.Readable
  listed : ∀ view ∈ workspace.segmentViews, ∀ node ∈ view.2.nodes, node.func ∈ view.2.funcs
  disjoint : ∀ left ∈ workspace.segmentViews, ∀ right ∈ workspace.segmentViews,
    ∀ func ∈ left.2.funcs, func ∈ right.2.funcs → left.1 = right.1

section directory
variable {funcs : List Nat}

theorem max_elim_lt {func : Nat} (member : func ∈ funcs) : func + 1 < funcs.max?.elim 1 (· + 2) := by
  cases found : funcs.max? with
  | none =>
    rw [List.max?_eq_none_iff] at found
    rw [found] at member
    cases member
  | some largest =>
    have upper := (List.max?_eq_some_iff.mp found).2 func member
    simp only [Option.elim_some]
    omega

theorem funcOffsets_at (funcs : List Nat) (i : Nat) : (funcOffsets funcs)[i]? =
    if i < funcs.max?.elim 1 (· + 2) then some (startOf funcs i) else none :=
  getElem?_countOffsets fun _ member => max_elim_lt member

theorem funcOffsets_length : (funcOffsets funcs).length = funcs.max?.elim 1 (· + 2) := by
  refine Nat.le_antisymm ?_ ?_
  · rw [← List.getElem?_eq_none_iff, funcOffsets_at, if_neg (Nat.lt_irrefl _)]
  · by_contra short
    have last := funcOffsets_at funcs (funcOffsets funcs).length
    rw [List.getElem?_eq_none (Nat.le_refl _), if_pos (by omega)] at last
    cases last

theorem funcOffsets_pos (funcs : List Nat) : 0 < (funcOffsets funcs).length := by
  rw [funcOffsets_length]
  cases funcs.max? with
  | none => exact Nat.one_pos
  | some largest => exact Nat.succ_pos _

theorem startOf_last : startOf funcs (funcs.max?.elim 1 (· + 2) - 1) = funcs.length := by
  refine List.countP_eq_length.mpr fun func member => ?_
  have room : func + 1 < funcs.max?.elim 1 (· + 2) := max_elim_lt member
  simp only [decide_eq_true_eq]
  omega

end directory

section filling
variable {workspace : IdgWorkspace} {keys : List Nat} {filling : Filling}
variable {done rest : List (SegmentId × IdgSegment)} {view : SegmentId × IdgSegment}

theorem placeNodes_filled (base start : Nat) {nodes : List IdgNode} (filled : Filling.Filled keys (base + start) filling)
    (rows : ∀ i node, nodes[i]? = some node → keys[base + start + i]? = some node.func) :
    Filling.Filled keys (base + start + nodes.length) ((nodes.zipIdx start).foldl
      (fun filling (node,localNode) => filling.place node.func (base + localNode)) filling) := by
  induction nodes generalizing start filling with
  | nil => exact filled
  | cons node nodes ih =>
    have placed : Filling.Filled keys (base + (start + 1)) (filling.place node.func (base + start)) :=
      filled.place (rows 0 node rfl)
    have later := ih (start + 1) placed fun i other found => by
      have row := rows (i + 1) other (by rw [List.getElem?_cons_succ]; exact found)
      rw [show base + (start + 1) + i = base + start + (i + 1) by omega]
      exact row
    rw [List.length_cons, show base + start + (nodes.length + 1) = base + (start + 1) + nodes.length by omega]
    exact later

theorem sortFuncs_filled {count : Nat} {segment : IdgSegment} (base : Nat) (filled : Filling.Filled keys count filling)
    (complete : ∀ func ∈ segment.funcs, (keys.take count).count func = keys.count func) :
    Filling.Filled keys count (sortFuncs segment base (funcOffsets keys) filling) := by
  unfold sortFuncs
  generalize segment.funcs = funcs at complete
  induction funcs generalizing filling with
  | nil => exact filled
  | cons func funcs ih =>
    rw [List.foldl_cons]
    refine ih ?_ fun other member => complete other (List.mem_cons_of_mem _ member)
    rw [funcOffsets_at, funcOffsets_at]
    by_cases inside : func + 1 < keys.max?.elim 1 (· + 2)
    · rw [if_pos (Nat.lt_of_succ_lt inside), if_pos inside]
      exact filled.sortRows _ (complete func List.mem_cons_self)
    · rw [if_neg inside]
      split
      · next found => cases found
      · exact filled

def funcsOfViews (views : List (SegmentId × IdgSegment)) : List FuncId := views.flatMap fun view => view.2.nodes.map (·.func)

theorem funcsOfViews_length (views : List (SegmentId × IdgSegment)) :
    (funcsOfViews views).length = (views.map fun view => view.2.nodes.length).sum := by
  rw [funcsOfViews, List.length_flatMap]
  simp

theorem view_position (readable : workspace.Readable)
    (views : workspace.segmentViews = done ++ view :: rest) : view.1 = done.length ∧
      (segmentBasesOf workspace).getD view.1 0 = (funcsOfViews done).length := by
  have position : workspace.segmentViews[done.length]? = some view := by
    rw [views, List.getElem?_append_right (Nat.le_refl _), Nat.sub_self, List.getElem?_cons_zero]
  have inside : done.length < workspace.segmentViews.length := (List.getElem?_eq_some_iff.mp position).1
  have id : view.1 = done.length := by
    have at_ := segmentViews_at readable done.length
    rw [segmentViews_length readable] at inside
    rw [if_pos inside, position] at at_
    obtain ⟨segment,found⟩ := Option.isSome_iff_exists.mp (readable _ inside)
    rw [found, Option.map_some, Option.some.injEq] at at_
    rw [at_]
  refine ⟨id,?_⟩
  rw [List.getD_eq_getElem?_getD, id, segmentBases_at, if_pos inside.le, Option.getD_some, funcsOfViews_length, nodeCounts,
    views, List.map_append, List.take_left' (List.length_map _)]

theorem nodeFuncs_split
    (views : workspace.segmentViews = done ++ view :: rest) :
    nodeFuncsOf workspace = funcsOfViews done ++ (view.2.nodes.map (·.func) ++ funcsOfViews rest) := by
  rw [nodeFuncsOf, views, List.flatMap_append, List.flatMap_cons]
  rfl

theorem nodeFuncs_row
    (views : workspace.segmentViews = done ++ view :: rest) {i : Nat} {node : IdgNode} (found : view.2.nodes[i]? = some node) :
    (nodeFuncsOf workspace)[(funcsOfViews done).length + 0 + i]? = some node.func := by
  rw [nodeFuncs_split views, Nat.add_zero, List.getElem?_append_right (Nat.le_add_right _ _), Nat.add_sub_cancel_left,
    List.getElem?_append_left (by rw [List.length_map]; exact (List.getElem?_eq_some_iff.mp found).1), List.getElem?_map,
    found, Option.map_some]

theorem placeSegment_filled (readable : workspace.Readable)
    (views : workspace.segmentViews = done ++ view :: rest)
    (filled : Filling.Filled (nodeFuncsOf workspace) (funcsOfViews done).length filling) :
    Filling.Filled (nodeFuncsOf workspace) (funcsOfViews (done ++ [view])).length
      (placeNodes view.2 ((segmentBasesOf workspace).getD view.1 0) filling) := by
  have total : (funcsOfViews (done ++ [view])).length = (funcsOfViews done).length + 0 + view.2.nodes.length := by
    simp [funcsOfViews]
  rw [(view_position readable views).2, total]
  exact placeNodes_filled (funcsOfViews done).length 0 filled fun i node found => nodeFuncs_row views found

theorem listed_complete (partitioned : workspace.Partitioned)
    (views : workspace.segmentViews = done ++ view :: rest) {func : FuncId}
    (listed : func ∈ view.2.funcs) :
    ((nodeFuncsOf workspace).take (funcsOfViews (done ++ [view])).length).count func = (nodeFuncsOf workspace).count func := by
  have id := (view_position partitioned.readable views).1
  have later : (funcsOfViews rest).count func = 0 := by
    refine List.count_eq_zero.mpr fun member => ?_
    obtain ⟨other,among,found⟩ := List.mem_flatMap.mp member
    obtain ⟨node,inNodes,same⟩ := List.mem_map.mp found
    have present : other ∈ workspace.segmentViews := by
      rw [views]
      exact List.mem_append_right _ (List.mem_cons_of_mem _ among)
    have own := partitioned.listed other present node inNodes
    rw [same] at own
    have equal := partitioned.disjoint view (by rw [views]; simp) other present func listed own
    obtain ⟨between,after,split⟩ := List.append_of_mem among
    have later : workspace.segmentViews = (done ++ view :: between) ++ other :: after := by
      rw [views, split, List.append_assoc, List.cons_append]
    have position := (view_position partitioned.readable later).1
    rw [List.length_append, List.length_cons] at position
    rw [id, position] at equal
    have apart : (done.length : Nat) = done.length + (between.length + 1) := equal
    omega
  have split : nodeFuncsOf workspace = funcsOfViews (done ++ [view]) ++ funcsOfViews rest := by
    rw [nodeFuncs_split views]
    simp [funcsOfViews]
  rw [split, List.take_left, List.count_append, later, Nat.add_zero]

theorem fillSegment_filled (partitioned : workspace.Partitioned)
    (views : workspace.segmentViews = done ++ view :: rest)
    (filled : Filling.Filled (nodeFuncsOf workspace) (funcsOfViews done).length filling) :
    Filling.Filled (nodeFuncsOf workspace) (funcsOfViews (done ++ [view])).length (fillSegment workspace filling view) :=
  sortFuncs_filled _ (placeSegment_filled partitioned.readable views filled) fun _ listed =>
    listed_complete partitioned views listed

theorem funcNodes_start {funcs : List FuncId} :
    Filling.Filled funcs 0 ⟨(funcOffsets funcs).dropLast,List.replicate funcs.length 0⟩ := by
  refine Filling.filled_start (fun func member => ?_) List.length_replicate
  have room := max_elim_lt member
  rw [List.getElem?_dropLast, funcOffsets_length, if_pos (by omega), funcOffsets_at, if_pos (by omega)]

theorem fillFuncNodes_filled (partitioned : workspace.Partitioned) :
    Filling.Filled (nodeFuncsOf workspace) (nodeFuncsOf workspace).length (fillFuncNodes workspace) := by
  have run : ∀ done rest filling, workspace.segmentViews = done ++ rest →
      Filling.Filled (nodeFuncsOf workspace) (funcsOfViews done).length filling →
      Filling.Filled (nodeFuncsOf workspace) (nodeFuncsOf workspace).length (rest.foldl (fillSegment workspace) filling) := by
    intro done rest
    induction rest generalizing done with
    | nil =>
      intro filling views filled
      rw [List.append_nil] at views
      have all : nodeFuncsOf workspace = funcsOfViews done := by rw [nodeFuncsOf, views]; rfl
      rw [← all] at filled
      exact filled
    | cons view rest ih =>
      intro filling views filled
      exact ih (done ++ [view]) _ (by rw [views]; simp) (fillSegment_filled partitioned views filled)
  exact run [] workspace.segmentViews _ rfl funcNodes_start

end filling

theorem fillFuncSegments_length (pairs : List (FuncId × SegmentId)) :
    (fillFuncSegments slots pairs).length = slots.length := by
  unfold fillFuncSegments
  induction pairs generalizing slots with
  | nil => rfl
  | cons pair pairs ih => rw [List.foldl_cons, ih, List.length_set]

theorem fillFuncSegments_mem {pairs : List (FuncId × SegmentId)} {segmentId : SegmentId}
    (member : segmentId ∈ fillFuncSegments slots pairs) : segmentId ∈ slots ∨ ∃ func, (func,segmentId) ∈ pairs := by
  unfold fillFuncSegments at member
  induction pairs generalizing slots with
  | nil => exact .inl member
  | cons pair pairs ih =>
    rcases ih member with old | ⟨func,later⟩
    · rcases List.mem_or_eq_of_mem_set old with kept | rfl
      · exact .inl kept
      · exact .inr ⟨pair.1,List.mem_cons_self⟩
    · exact .inr ⟨func,List.mem_cons_of_mem _ later⟩

theorem fillFuncSegments_at {pairs : List (FuncId × SegmentId)} {func : FuncId}
    {segmentId : SegmentId} (inside : func < slots.length) (agree : ∀ other, (func,other) ∈ pairs → other = segmentId)
    (given : (func,segmentId) ∈ pairs ∨ slots[func]? = some segmentId) :
    (fillFuncSegments slots pairs)[func]? = some segmentId := by
  unfold fillFuncSegments
  induction pairs generalizing slots with
  | nil => exact given.resolve_left List.not_mem_nil
  | cons pair pairs ih =>
    obtain ⟨key,value⟩ := pair
    refine ih (by rw [List.length_set]; exact inside) (fun other later => agree other (List.mem_cons_of_mem _ later)) ?_
    by_cases own : key = func
    · rw [own, agree value (by rw [own]; exact List.mem_cons_self), List.getElem?_set_self inside]
      exact .inr rfl
    · rw [List.getElem?_set_ne own]
      refine given.imp (fun member => ?_) id
      rcases List.mem_cons.mp member with same | later
      · cases same
        exact absurd rfl own
      · exact later

theorem addresses_sublist (rows : List α) {pick : α × Nat → Option β} {address : β → Nat}
    (keeps : ∀ row found, pick row = some found → address found = row.2) (start : Nat) :
    (((rows.zipIdx start).filterMap pick).map address).Sublist (List.range' start rows.length) := by
  induction rows generalizing start with
  | nil => exact List.Sublist.slnil
  | cons row rows ih =>
    rw [List.zipIdx_cons, List.length_cons, List.range'_succ]
    cases picked : pick (row,start) with
    | none =>
      rw [List.filterMap_cons_none picked]
      exact (ih (start + 1)).cons start
    | some found =>
      rw [List.filterMap_cons_some picked, List.map_cons, keeps _ _ picked]
      exact (ih (start + 1)).cons_cons start

theorem addresses_ordered {rows : List α} {pick : α × Nat → Option β} {address : β → Nat}
    (keeps : ∀ row found, pick row = some found → address found = row.2) :
    ((rows.zipIdx.filterMap pick).map address).IsChain (· < ·) ∧
      ∀ node ∈ (rows.zipIdx.filterMap pick).map address, node < rows.length := by
  have among := addresses_sublist rows keeps 0
  refine ⟨List.isChain_iff_pairwise.mpr (List.Pairwise.sublist among List.pairwise_lt_range'),fun node member => ?_⟩
  have bounds := List.mem_range'_1.mp (among.subset member)
  omega

theorem callArgsOf_ordered (places : List (Option Place)) : ((callArgsOf places).map (·.1)).IsChain (· < ·) ∧
    ∀ node ∈ (callArgsOf places).map (·.1), node < places.length := by
  refine addresses_ordered fun row found picked => ?_
  obtain ⟨place,node⟩ := row
  dsimp only at picked
  split at picked
  · cases picked
    rfl
  · cases picked

theorem paramsOf_ordered (places : List (Option Place)) : ((paramsOf places).map (·.1)).IsChain (· < ·) ∧
    ∀ node ∈ (paramsOf places).map (·.1), node < places.length := by
  refine addresses_ordered fun row found picked => ?_
  obtain ⟨place,node⟩ := row
  dsimp only at picked
  split at picked
  · cases picked
    rfl
  · cases picked

theorem paramsOf_place {places : List (Option Place)} {row : NodeId × Nat} (member : row ∈ paramsOf places) :
    places[row.1]? = some (some (.param row.2)) := by
  obtain ⟨⟨place,node⟩,among,picked⟩ := List.mem_filterMap.mp member
  have found := List.mem_zipIdx_iff_getElem?.mp among
  dsimp only at picked found
  split at picked
  · cases picked
    exact found
  · cases picked

theorem nodeBoundary_le (place : Option Place) : nodeBoundary place ≤ nodeBoundaryCallRet := by
  unfold nodeBoundary
  split <;> decide

structure IdgWorkspace.FitsWords (workspace : IdgWorkspace) : Prop where
  segments : workspace.segmentCount ≤ u32Max
  nodes : (nodeFuncsOf workspace).length ≤ u32Max
  funcs : ∀ func ∈ nodeFuncsOf workspace, func ≤ u32Max
  sites : ∀ row ∈ callArgsOf (nodePlaces workspace), row.2.1.file ≤ u32Max ∧ row.2.1.start < 2 ^ 64 ∧ row.2.1.stop < 2 ^ 64
  arguments : ∀ row ∈ callArgsOf (nodePlaces workspace), row.2.2 ≤ u32Max
  formals : ∀ row ∈ paramsOf (nodePlaces workspace), row.2 ≤ u32Max

section built
variable {workspace : IdgWorkspace}
variable {func : FuncId}

theorem nodePlaces_length : (nodePlaces workspace).length = (nodeFuncsOf workspace).length := by
  simp [nodePlaces,nodeFuncsOf,List.length_flatMap]

theorem funcSegmentPairs_agree (partitioned : workspace.Partitioned) {segmentId other : SegmentId}
    (first : (func,segmentId) ∈ funcSegmentPairs workspace) (second : (func,other) ∈ funcSegmentPairs workspace) :
    other = segmentId := by
  obtain ⟨left,inLeft,found⟩ := List.mem_flatMap.mp first
  obtain ⟨right,inRight,found'⟩ := List.mem_flatMap.mp second
  obtain ⟨func,listed,same⟩ := List.mem_map.mp found
  obtain ⟨func',listed',same'⟩ := List.mem_map.mp found'
  cases same
  cases same'
  exact (partitioned.disjoint left inLeft right inRight func listed listed').symm

theorem buildQueryCore_owners (partitioned : workspace.Partitioned) {segmentId start stop node : Nat}
    (first : (segmentBasesOf workspace)[segmentId]? = some start)
    (next : (segmentBasesOf workspace)[segmentId + 1]? = some stop) (lower : start ≤ node) (upper : node < stop) :
    ∃ func boundary projected, (buildQueryCore workspace).nodeFuncs[node]? = some func ∧
      (buildQueryCore workspace).nodeBoundaries[node]? = some boundary ∧ boundary ≤ nodeBoundaryCallRet ∧
      (buildQueryCore workspace).projectedStorage[node]? = some projected ∧ projected ≤ 1 ∧
      (buildQueryCore workspace).funcSegments[func]? = some segmentId := by
  have address : wsNodeForSegmentBases (segmentBasesOf workspace) segmentId (node - start) = some node := by
    rw [wsNodeForSegmentBases, first, next]
    dsimp only
    rw [if_pos (Nat.sub_lt_sub_right lower upper), Nat.add_sub_cancel' lower]
  obtain ⟨segment,placed⟩ := wsNode_placed partitioned.readable address
  obtain ⟨source,found⟩ : ∃ source, segment.nodes[node - start]? = some source :=
    ⟨_,List.getElem?_eq_getElem placed.inside⟩
  have among : (segmentId,segment) ∈ workspace.segmentViews := List.mem_of_getElem? placed.view
  have func_ : (nodeFuncsOf workspace)[node]? = some source.func := by
    rw [nodeFuncsOf, placed.row fun _ node => node.func, found]
    rfl
  have place_ : (nodePlaces workspace)[node]? = some (segment.placeOf source) := by
    rw [nodePlaces, placed.row fun segment node => segment.placeOf node, found]
    rfl
  have storage_ : (buildUnified workspace).projectedStorage[node]? = some (projectedPlace segment (segment.placeOf source)) := by
    rw [buildUnified]
    dsimp only
    rw [placed.row fun segment node => projectedPlace segment (segment.placeOf node), found]
    rfl
  have pair : (source.func,segmentId) ∈ funcSegmentPairs workspace :=
    List.mem_flatMap.mpr ⟨(segmentId,segment),among,
      List.mem_map.mpr ⟨source.func,partitioned.listed _ among source (List.mem_of_getElem? found),rfl⟩⟩
  refine ⟨source.func,nodeBoundary (segment.placeOf source),(projectedPlace segment (segment.placeOf source)).toNat,func_,?_,
    nodeBoundary_le _,?_,Bool.toNat_le _,?_⟩
  · change ((nodePlaces workspace).map nodeBoundary)[node]? = _
    rw [List.getElem?_map, place_, Option.map_some]
  · change ((buildUnified workspace).projectedStorage.map Bool.toNat)[node]? = _
    rw [List.getElem?_map, storage_, Option.map_some]
  · refine fillFuncSegments_at ?_ (fun other => funcSegmentPairs_agree partitioned pair) (.inl pair)
    have room : source.func + 1 < (nodeFuncsOf workspace).max?.elim 1 (· + 2) := max_elim_lt (List.mem_of_getElem? func_)
    rw [List.length_replicate]
    change source.func < (funcOffsets (nodeFuncsOf workspace)).length - 1
    rw [funcOffsets_length]
    exact Nat.lt_sub_of_add_lt room

theorem segmentBases_sorted : (segmentBasesOf workspace).IsChain (· ≤ ·) := by
  refine List.isChain_iff_pairwise.mpr (List.pairwise_iff_getElem.mpr fun i j first second lower => ?_)
  have left : (segmentBasesOf workspace)[i]? = _ := segmentBases_at
  have right : (segmentBasesOf workspace)[j]? = _ := segmentBases_at
  rw [List.getElem?_eq_getElem first] at left
  rw [List.getElem?_eq_getElem second] at right
  split at left
  · split at right
    · rw [Option.some.inj left, Option.some.inj right]
      exact counts_le lower.le
    · cases right
  · cases left

theorem funcOffsets_valid (funcs : List Nat) : offsetsAreValid (funcOffsets funcs) funcs.length = true := by
  simp only [offsetsAreValid, Bool.and_eq_true, beq_iff_eq, decide_eq_true_eq]
  refine ⟨⟨?_,?_⟩,?_⟩
  · rw [List.head?_eq_getElem?, funcOffsets_at, if_pos (by rw [← funcOffsets_length]; exact funcOffsets_pos funcs)]
    simp [startOf]
  · refine List.isChain_iff_pairwise.mpr (List.pairwise_iff_getElem.mpr fun i j first second lower => ?_)
    have left := funcOffsets_at funcs i
    have right := funcOffsets_at funcs j
    rw [List.getElem?_eq_getElem first, if_pos (by rw [← funcOffsets_length]; exact first)] at left
    rw [List.getElem?_eq_getElem second, if_pos (by rw [← funcOffsets_length]; exact second)] at right
    rw [Option.some.inj left, Option.some.inj right]
    exact startOf_mono funcs lower.le
  · have positive := funcOffsets_pos funcs
    rw [List.getLast?_eq_getElem?, funcOffsets_at, funcOffsets_length, startOf_last, if_pos]
    rw [funcOffsets_length] at positive
    omega

theorem buildQueryCore_slice {nodes : List NodeId}
    (found : (buildQueryCore workspace).nodesByFunc.get func = .ok (some nodes)) :
    nodes = slice (fillFuncNodes workspace).table (startOf (nodeFuncsOf workspace) func) (startOf (nodeFuncsOf workspace) (func + 1)) := by
  unfold NodesByFunc.get at found
  change (match (funcOffsets (nodeFuncsOf workspace))[func]?, (funcOffsets (nodeFuncsOf workspace))[func + 1]? with
    | some start, some stop => (do
      let nodes ← subslice (fillFuncNodes workspace).table start stop
      return some nodes)
    | _, _ => .ok none) = _ at found
  rw [funcOffsets_at, funcOffsets_at] at found
  split at found
  · next start stop first next =>
    split at first
    · split at next
      · cases first
        cases next
        unfold subslice at found
        split at found
        · cases found
          rfl
        · cases found
      · cases next
    · cases first
  · cases found

theorem buildQueryCore_get (partitioned : workspace.Partitioned) {nodes : List NodeId}
    (found : (buildQueryCore workspace).nodesByFunc.get func = .ok (some nodes)) :
    nodes.Perm ((List.range (nodeFuncsOf workspace).length).filter fun node => (nodeFuncsOf workspace)[node]? = some func) := by
  rw [buildQueryCore_slice found]
  exact (fillFuncNodes_filled partitioned).finish func

theorem buildQueryCore_consistent (partitioned : workspace.Partitioned) (fits : workspace.FitsWords) :
    (buildQueryCore workspace).Consistent workspace.segmentCount where
  bases := by
    change (accumulate 0 _).length + 1 = _
    rw [accumulate_length, List.length_map, segmentViews_length partitioned.readable]
  first := rfl
  sorted := segmentBases_sorted
  funcs := nodeFuncsOf_length workspace
  boundaries := by
    change ((nodePlaces workspace).map nodeBoundary).length = (segmentBasesOf workspace).getLastD 0
    rw [List.length_map, nodePlaces_length, nodeFuncsOf_length]
  projected := by
    change ((buildUnified workspace).projectedStorage.map Bool.toNat).length = (segmentBasesOf workspace).getLastD 0
    rw [List.length_map, ← nodeFuncsOf_length]
    simp [buildUnified,nodeFuncsOf,List.length_flatMap]
  segments := by
    intro segmentId member
    rcases fillFuncSegments_mem member with empty | ⟨func,pair⟩
    · exact .inl (List.eq_of_mem_replicate empty)
    · obtain ⟨view,among,found⟩ := List.mem_flatMap.mp pair
      obtain ⟨_,_,same⟩ := List.mem_map.mp found
      cases same
      exact .inr (IdgWorkspace.mem_segmentViews.mp among).1
  owners := fun _ _ _ first next _ lower upper => buildQueryCore_owners partitioned first next lower upper
  directory := by
    change (funcOffsets (nodeFuncsOf workspace)).length = (fillFuncSegments _ _).length + 1
    rw [fillFuncSegments_length, List.length_replicate]
    exact (Nat.sub_add_cancel (funcOffsets_pos _)).symm
  offsets := by
    change offsetsAreValid (funcOffsets (nodeFuncsOf workspace)) (fillFuncNodes workspace).table.length = true
    rw [(fillFuncNodes_filled partitioned).length]
    exact funcOffsets_valid _
  callArgs := by
    have ordered := callArgsOf_ordered (nodePlaces workspace)
    rw [nodePlaces_length, nodeFuncsOf_length] at ordered
    have rows : (buildQueryCore workspace).callArgs.nodes = (callArgsOf (nodePlaces workspace)).map (·.1) := rfl
    have sites : (buildQueryCore workspace).callArgs.sites = (callArgsOf (nodePlaces workspace)).map (·.2.1) := rfl
    have indices : (buildQueryCore workspace).callArgs.indices = (callArgsOf (nodePlaces workspace)).map (·.2.2) := rfl
    rw [CallArgIdentityIndex.isValidFor, rows, sites, indices]
    simp only [List.length_map, BEq.rfl, Bool.true_and, Bool.and_eq_true, decide_eq_true_eq, List.all_eq_true]
    exact ordered
  params := by
    have ordered := paramsOf_ordered (nodePlaces workspace)
    rw [nodePlaces_length, nodeFuncsOf_length] at ordered
    have rows : (buildQueryCore workspace).params.nodes = (paramsOf (nodePlaces workspace)).map (·.1) := rfl
    have indices : (buildQueryCore workspace).params.indices = (paramsOf (nodePlaces workspace)).map (·.2) := rfl
    rw [ParamIdentityIndex.isValidFor, rows, indices]
    simp only [List.length_map, BEq.rfl, Bool.true_and, Bool.and_eq_true, decide_eq_true_eq, List.all_eq_true]
    exact ordered
  formals := by
    intro node member
    obtain ⟨row,among,rfl⟩ := List.mem_map.mp member
    change ((nodePlaces workspace).map nodeBoundary)[row.1]? = _
    rw [List.getElem?_map, paramsOf_place among]
    rfl
  range := by
    intro func inside
    change func < (fillFuncSegments _ _).length at inside
    rw [fillFuncSegments_length, List.length_replicate] at inside
    change func < (funcOffsets (nodeFuncsOf workspace)).length - 1 at inside
    rw [funcOffsets_length] at inside
    cases found : (nodeFuncsOf workspace).max? with
    | none =>
      rw [found] at inside
      exact absurd inside (Nat.not_lt_zero func)
    | some largest =>
      rw [found] at inside
      have bound := fits.funcs largest (List.max?_mem found)
      exact (Nat.le_of_lt_succ inside).trans bound
  listed := by
    intro func _ nodes found node member
    have among := (buildQueryCore_get partitioned found).subset member
    exact of_decide_eq_true (List.mem_filter.mp among).2

end built

end BonsaiNinja.Idg
