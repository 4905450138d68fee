import BonsaiNinja.Idg.CoreDecoding

namespace BonsaiNinja.Idg
open Library Decoder

structure PartitionedWorkspace extends IdgWorkspace where
  partitioned : toIdgWorkspace.Partitioned
  fitsWords : toIdgWorkspace.FitsWords

section words
variable {workspace : IdgWorkspace}

theorem u32Max_lt {value : Nat} (bound : value ≤ u32Max) : value < 2 ^ 32 := Nat.lt_of_le_pred (by decide) bound

theorem funcNodes_lt (partitioned : workspace.Partitioned) {node : NodeId} (member : node ∈ (fillFuncNodes workspace).table) :
    node < (nodeFuncsOf workspace).length := by
  have filled := fillFuncNodes_filled partitioned
  obtain ⟨i,inside,found⟩ := List.getElem_of_mem member
  rw [filled.length] at inside
  have valid := funcOffsets_valid (nodeFuncsOf workspace)
  simp only [offsetsAreValid, Bool.and_eq_true, beq_iff_eq, decide_eq_true_eq] at valid
  have last : (funcOffsets (nodeFuncsOf workspace)).getLastD 0 = (nodeFuncsOf workspace).length := by
    rw [List.getLastD_eq_getLast?, valid.2, Option.getD_some]
  obtain ⟨func,start,stop,first,next,lower,upper⟩ := range_of valid.1.1 (by rw [last]; exact inside)
  rw [funcOffsets_at] at first next
  split at first
  · split at next
    · cases first
      cases next
      have among : node ∈ slice (fillFuncNodes workspace).table (startOf (nodeFuncsOf workspace) func)
          (startOf (nodeFuncsOf workspace) (func + 1)) := by
        have position : (slice (fillFuncNodes workspace).table (startOf (nodeFuncsOf workspace) func)
            (startOf (nodeFuncsOf workspace) (func + 1)))[i - startOf (nodeFuncsOf workspace) func]? = some node := by
          rw [getElem?_slice, if_pos (by omega), Nat.add_sub_cancel' lower, ← found]
          exact List.getElem?_eq_getElem _
        exact List.mem_of_getElem? position
      have listed := (filled.finish func).subset among
      exact List.mem_range.mp (List.mem_filter.mp listed).1
    · cases next
  · cases first

theorem funcOffsets_length_le (fits : workspace.FitsWords) : (funcOffsets (nodeFuncsOf workspace)).length ≤ 2 ^ 32 + 1 := by
  rw [funcOffsets_length]
  cases found : (nodeFuncsOf workspace).max? with
  | none => decide
  | some largest =>
    have bound : largest ≤ u32Max := fits.funcs largest (List.max?_mem found)
    exact (Nat.add_le_add_right bound 2).trans (by decide)

theorem buildQueryCore_fits (partitioned : workspace.Partitioned) (fits : workspace.FitsWords) :
    (buildQueryCore workspace).FitsWords := by
  have consistent := buildQueryCore_consistent partitioned fits
  have nodes := fits.nodes
  have count : (buildQueryCore workspace).nodeCount = (nodeFuncsOf workspace).length := (nodeFuncsOf_length workspace).symm
  have many : (nodeFuncsOf workspace).length ≤ 2 ^ 32 + 1 := nodes.trans (by decide)
  have arguments := callArgsOf_ordered (nodePlaces workspace)
  have formals := paramsOf_ordered (nodePlaces workspace)
  rw [nodePlaces_length] at arguments formals
  have fewer : (callArgsOf (nodePlaces workspace)).length ≤ 2 ^ 32 + 1 := by
    refine (List.length_filterMap_le _ _).trans ?_
    rw [List.length_zipIdx, nodePlaces_length]
    exact many
  have fewer' : (paramsOf (nodePlaces workspace)).length ≤ 2 ^ 32 + 1 := by
    refine (List.length_filterMap_le _ _).trans ?_
    rw [List.length_zipIdx, nodePlaces_length]
    exact many
  have segments : workspace.segmentCount ≤ u32Max := fits.segments
  refine ⟨⟨?_,?_⟩,⟨?_,?_⟩,⟨many,?_⟩,⟨?_,?_⟩,⟨?_,?_⟩,⟨funcOffsets_length_le fits,?_⟩,⟨?_,?_⟩,⟨?_,?_⟩,⟨?_,?_⟩,⟨?_,?_⟩,⟨?_,?_⟩,⟨?_,?_⟩⟩
  · rw [consistent.bases]
    unfold u32Max at segments
    omega
  · exact fun base member => u32Max_lt ((segmentBases_le member).trans nodes)
  · have directory := consistent.directory
    have bound : (buildQueryCore workspace).nodesByFunc.offsets.length ≤ 2 ^ 32 + 1 := funcOffsets_length_le fits
    omega
  · intro segmentId member
    rcases consistent.segments segmentId member with rfl | below
    · exact u32Max_lt (Nat.le_refl _)
    · exact u32Max_lt (below.le.trans segments)
  · exact fun func member => u32Max_lt (fits.funcs func member)
  · rw [consistent.boundaries, count]
    exact many
  · intro boundary member
    obtain ⟨place,_,rfl⟩ := List.mem_map.mp member
    exact (nodeBoundary_le place).trans_lt (by decide)
  · rw [consistent.projected, count]
    exact many
  · intro flag member
    obtain ⟨projected,_,rfl⟩ := List.mem_map.mp member
    exact (Bool.toNat_le projected).trans_lt (by decide)
  · intro offset member
    obtain ⟨i,inside,rfl⟩ := List.getElem_of_mem member
    have at_ := funcOffsets_at (nodeFuncsOf workspace) i
    have found := List.getElem?_eq_getElem inside
    change (funcOffsets (nodeFuncsOf workspace))[i]? = _ at found
    rw [found] at at_
    split at at_
    · rw [Option.some.inj at_]
      exact u32Max_lt ((startOf_le _ _).trans nodes)
    · cases at_
  · change (fillFuncNodes workspace).table.length ≤ _
    rw [(fillFuncNodes_filled partitioned).length]
    exact many
  · exact fun node member => u32Max_lt ((funcNodes_lt partitioned member).le.trans nodes)
  · change ((callArgsOf (nodePlaces workspace)).map _).length ≤ _
    rw [List.length_map]
    exact fewer
  · exact fun node member => u32Max_lt ((arguments.2 node member).le.trans nodes)
  · change ((callArgsOf (nodePlaces workspace)).map _).length ≤ _
    rw [List.length_map]
    exact fewer
  · intro site member
    obtain ⟨row,among,rfl⟩ := List.mem_map.mp member
    obtain ⟨file,start,stop⟩ := fits.sites row among
    exact ⟨u32Max_lt file,start,stop⟩
  · change ((callArgsOf (nodePlaces workspace)).map _).length ≤ _
    rw [List.length_map]
    exact fewer
  · intro argument member
    obtain ⟨row,among,rfl⟩ := List.mem_map.mp member
    exact u32Max_lt (fits.arguments row among)
  · change ((paramsOf (nodePlaces workspace)).map _).length ≤ _
    rw [List.length_map]
    exact fewer'
  · exact fun node member => u32Max_lt ((formals.2 node member).le.trans nodes)
  · change ((paramsOf (nodePlaces workspace)).map _).length ≤ _
    rw [List.length_map]
    exact fewer'
  · intro formal member
    obtain ⟨row,among,rfl⟩ := List.mem_map.mp member
    exact u32Max_lt (fits.formals row among)

end words

theorem encode_length (core : QueryCore) (version segmentCount : Nat) :
    (coreHeader version segmentCount (coreCounts core) ++ coreBody core).length =
      idgQueryCoreHeaderBytes + wireBytes (corePlan (countOf core)) := by
  have header : (coreHeader version segmentCount (coreCounts core)).length = idgQueryCoreHeaderBytes := by
    simp only [coreHeader, List.length_append, leBytes_length, flatMap_words_length]
    rfl
  have spans : ∀ sites : List Span, (sites.flatMap spanBytes).length = sites.length * 20 := by
    intro sites
    induction sites with
    | nil => rfl
    | cons site sites ih =>
      rw [List.flatMap_cons, List.length_append, ih, List.length_cons, spanBytes]
      simp only [List.length_append, leBytes_length]
      omega
  rw [List.length_append, header, coreBody]
  simp only [List.length_append, writeCoreU32Values_eq, flatMap_words_length, List.length_map, spans, wireBytes, corePlan,
    countOf, coreCounts, List.map_cons, List.map_nil, List.sum_cons, List.sum_nil, List.getD_cons_zero, List.getD_cons_succ]
  omega

theorem coreCounts_le {core : QueryCore} (fits : core.FitsWords) : ∀ count ∈ coreCounts core, count ≤ 2 ^ 32 + 1 := by
  simp only [coreCounts, List.forall_mem_cons]
  exact ⟨fits.segmentBases.length,fits.funcSegments.length,fits.nodeFuncs.length,fits.nodeBoundaries.length,
    fits.projectedStorage.length,fits.offsets.length,fits.nodes.length,fits.argumentNodes.length,fits.sites.length,
    fits.argumentIndices.length,fits.formalNodes.length,fits.formalIndices.length,List.forall_mem_nil _⟩

theorem wireBytes_lt {core : QueryCore} (fits : core.FitsWords) :
    idgQueryCoreHeaderBytes + wireBytes (corePlan (countOf core)) < 2 ^ 64 := by
  have counts := coreCounts_le fits
  simp only [coreCounts, List.forall_mem_cons] at counts
  simp only [wireBytes, corePlan, countOf, coreCounts, List.map_cons, List.map_nil, List.sum_cons, List.sum_nil,
    List.getD_cons_zero, List.getD_cons_succ, idgQueryCoreHeaderBytes, idgQueryCoreCountFields]
  omega

theorem decode_encode {core : QueryCore} {workspace : IdgWorkspace} (fits : core.FitsWords)
    (consistent : core.Consistent workspace.segmentCount) (segments : workspace.segmentCount < 2 ^ 32) :
    (PersistedQueryAccelerator.decode (encodeQueryAcceleratorCore core workspace.segmentCount).length workspace
      ⟨encodeQueryAcceleratorCore core workspace.segmentCount,0⟩).1 =
    .ok {core with version := idgQueryAcceleratorVersion, segmentCount := workspace.segmentCount} := by
  have shape : encodeQueryAcceleratorCore core workspace.segmentCount =
    coreHeader idgQueryAcceleratorVersion workspace.segmentCount (coreCounts core) ++ coreBody core := rfl
  have small := wireBytes_lt fits
  have form : HeaderOf (encodeQueryAcceleratorCore core workspace.segmentCount).length
      (idgQueryAcceleratorVersion,workspace.segmentCount,coreCounts core)
      (coreHeader idgQueryAcceleratorVersion workspace.segmentCount (coreCounts core)) := by
    refine ⟨rfl,show idgQueryAcceleratorVersion < 2 ^ 32 by decide,segments,rfl,fun count member => ?_,?_⟩
    · exact (coreCounts_le fits count member).trans_lt (by norm_num)
    · rw [expectedBytes_eq (coreCounts core) rfl, shape, encode_length]
      exact if_pos small
  have header := reads_header form (coreBody core) 0
  have arrays := reads_arrays fits [] 0
  rw [← shape] at header
  rw [List.append_nil] at arrays
  have accepted := (validate_decides {core with version := idgQueryAcceleratorVersion, segmentCount := workspace.segmentCount}
    workspace).accepts.mpr ⟨rfl,rfl,consistent⟩
  have done : PersistedQueryAccelerator.decode (encodeQueryAcceleratorCore core workspace.segmentCount).length workspace
      ⟨encodeQueryAcceleratorCore core workspace.segmentCount,0⟩ = _ := (bind_ok header).trans (bind_ok arrays)
  rw [done, accepted]
  rfl

def emptyWorkspace : IdgWorkspace where
  segments := []
  querySidecar := none
  segmentSpool := none
  residentSegments := []
  crossFileSpool := none
  symbolicTransformSpool := none
  byFunc := ∅
  crossFile := []
  symbolicField := ⟨[],[],[]⟩

end BonsaiNinja.Idg
