import BonsaiNinja.Idg.SpanLookups

namespace BonsaiNinja.Idg
open Library

section anchors
variable (workspace : IdgWorkspace) (id : SegmentId) (segment : IdgSegment) (func : FuncId) (span : Span) (node : NodeId)

def AtPlace : Prop := ∃ localNode source place own, segment.nodes[localNode]? = some source ∧ source.func = func ∧
  segment.placeOf source = some place ∧ placeSpan place = some own ∧ spansOverlap own span = true ∧
  (buildUnified workspace).wsNodeFor id localNode = some node

def AtEdge : Prop := ∃ edge ∈ segment.edges, ∃ source, segment.nodes[edge.toNode]? = some source ∧ source.func = func ∧
  spansOverlap edge.edgeMeta.viaSpan span = true ∧ (buildUnified workspace).wsNodeFor id edge.toNode = some node

-- What a span resolves to: its places or, where it has none, its edges.
def Anchored : Prop := ∃ id segment, workspace.segmentForFunc func = some id ∧ workspace.segmentView id = some segment ∧
  (AtPlace workspace id segment func span node ∨
    (∀ other, ¬AtPlace workspace id segment func span other) ∧ AtEdge workspace id segment func span node)

end anchors

variable {workspace : IdgWorkspace} {id : SegmentId} {segment : IdgSegment} {func : FuncId} {span : Span}

theorem anchored_iff (owner : workspace.segmentForFunc func = some id) (read : workspace.segmentView id = some segment)
    {node : NodeId} : Anchored workspace func span node ↔ AtPlace workspace id segment func span node ∨
      (∀ other, ¬AtPlace workspace id segment func span other) ∧ AtEdge workspace id segment func span node := by
  constructor
  · intro found
    obtain ⟨id',segment',owner',read',found⟩ := found
    rw [owner] at owner'
    cases owner'
    rw [read] at read'
    cases read'
    exact found
  · exact fun found => ⟨id,segment,owner,read,found⟩

section scalar

theorem nodesAtPlaces_exact (filed : workspace.Filed) (fits : workspace.FitsWords) (owner : workspace.segmentForFunc func = some id)
    (read : workspace.segmentView id = some segment) (span : Span) :
    ∃ found, nodesAtPlaces workspace (buildQueryCore workspace) id segment func span = .ok found ∧
      ∀ node, node ∈ found ↔ AtPlace workspace id segment func span node := by
  choose answer looked exact_ using localNodeFor_exact filed fits owner read
  have turns : nodesAtPlaces workspace (buildQueryCore workspace) id segment func span =
      .ok (segment.places.zipIdx.flatMap fun row => (placeSpan row.1).elim [] fun own => if spansOverlap own span then
            ((answer row.2).bind ((buildUnified workspace).wsNodeFor id)).toList else []) := by
    refine collectM_ok fun row _ => ?_
    obtain ⟨place,pid⟩ := row
    dsimp only
    cases placeSpan place with
    | none => rfl
    | some own =>
      dsimp only [Option.elim]
      split
      · rw [looked]
        cases answer pid with
        | none => rfl
        | some localNode =>
          show (do
            let wsNode ← (buildQueryCore workspace).wsNodeFor id localNode
            return wsNode.toList) = _
          rw [coreNodeFor filed.toPartitioned fits]
          rfl
      · rfl
  refine ⟨_,turns,fun node => ?_⟩
  rw [List.mem_flatMap]
  constructor
  · intro found
    obtain ⟨⟨place,pid⟩,listed,held⟩ := found
    have row := List.mem_zipIdx_iff_getElem?.mp listed
    dsimp only at row held
    cases own : placeSpan place with
    | none =>
      rw [own] at held
      cases held
    | some own' =>
      rw [own] at held
      dsimp only [Option.elim] at held
      split at held
      · next overlap =>
        obtain ⟨localNode,local_,placed⟩ := Option.bind_eq_some_iff.mp (Option.mem_toList.mp held)
        have source := ((exact_ pid localNode).mp local_).2
        exact ⟨localNode,_,place,own',source,rfl,row,own,overlap,placed⟩
      · cases held
  · intro found
    obtain ⟨localNode,source,place,own,held,rfl,row,anchor,overlap,placed⟩ := found
    have view := view_of_placed filed.readable read placed
    refine ⟨(place,source.place),List.mem_zipIdx_iff_getElem?.mpr row,?_⟩
    dsimp only
    rw [anchor]
    dsimp only [Option.elim]
    rw [if_pos overlap, (exact_ source.place localNode).mpr ⟨view,held⟩]
    exact Option.mem_toList.mpr placed

theorem nodesAtEdges_exact (filed : workspace.Filed) (fits : workspace.FitsWords) (id : SegmentId) (segment : IdgSegment)
    (func : FuncId) (span : Span) : ∃ found, nodesAtEdges (buildQueryCore workspace) id segment func span = .ok found ∧
      ∀ node, node ∈ found ↔ AtEdge workspace id segment func span node := by
  have turns : nodesAtEdges (buildQueryCore workspace) id segment func span =
      .ok (segment.edges.flatMap fun edge => if spansOverlap edge.edgeMeta.viaSpan span then
        if (segment.nodes[edge.toNode]?).all (·.func ≠ func) then []
        else ((buildUnified workspace).wsNodeFor id edge.toNode).toList else []) := by
    refine collectM_ok fun edge _ => ?_
    split
    · split
      · rfl
      · rw [coreNodeFor filed.toPartitioned fits]
        rfl
    · rfl
  refine ⟨_,turns,fun node => ?_⟩
  rw [List.mem_flatMap]
  constructor
  · intro found
    obtain ⟨edge,listed,held⟩ := found
    split at held
    · next overlap =>
      split at held
      · cases held
      · next owned =>
        cases target : segment.nodes[edge.toNode]? with
        | none =>
          rw [target] at owned
          exact absurd rfl owned
        | some source =>
          rw [target, Option.all_some] at owned
          exact ⟨edge,listed,source,target,by simpa using owned,overlap,Option.mem_toList.mp held⟩
    · cases held
  · intro found
    obtain ⟨edge,listed,source,target,rfl,overlap,placed⟩ := found
    refine ⟨edge,listed,?_⟩
    rw [if_pos overlap, if_neg (by rw [target]; simp)]
    exact Option.mem_toList.mpr placed

theorem nodesAtSpan_anchored (filed : workspace.Filed) (fits : workspace.FitsWords) (func : FuncId) (span : Span) :
    ∃ nodes, nodesAtSpan workspace func span = .ok nodes ∧ Sorted nodes ∧
      ∀ node, node ∈ nodes ↔ Anchored workspace func span node := by
  unfold nodesAtSpan
  cases owner : workspace.segmentForFunc func with
  | none =>
    refine ⟨[],rfl,.nil,fun node => ⟨fun impossible => (by cases impossible),fun found => ?_⟩⟩
    obtain ⟨id,_,owner',_⟩ := found
    rw [owner] at owner'
    cases owner'
  | some id =>
    cases read : workspace.segmentView id with
    | none =>
      refine ⟨[],by dsimp only; rw [read],.nil,fun node => ⟨fun impossible => (by cases impossible),fun found => ?_⟩⟩
      obtain ⟨id',_,owner',read',_⟩ := found
      rw [owner] at owner'
      cases owner'
      rw [read] at read'
      cases read'
    | some segment =>
      obtain ⟨direct,places,placed⟩ := nodesAtPlaces_exact filed fits owner read span
      obtain ⟨viaEdges,edges,entered⟩ := nodesAtEdges_exact filed fits id segment func span
      refine ⟨sortDedup (if direct.isEmpty then viaEdges else direct),?_,sortDedup_sorted _,fun node => ?_⟩
      · dsimp only
        rw [read]
        dsimp only
        rw [places]
        show (do
          let out ← if direct.isEmpty then nodesAtEdges (buildQueryCore workspace) id segment func span else .ok direct
          return sortDedup out) = _
        split
        · rw [edges]
          rfl
        · rfl
      · rw [mem_sortDedup, anchored_iff owner read, ← placed]
        have empty : direct.isEmpty = true ↔ ∀ other, ¬AtPlace workspace id segment func span other := by
          rw [List.isEmpty_iff, List.eq_nil_iff_forall_not_mem]
          exact forall_congr' fun other => not_congr (placed other)
        split
        · next none_ =>
          rw [List.isEmpty_iff.mp none_, entered]
          exact ⟨fun found => .inr ⟨empty.mp none_,found⟩,fun found => (found.resolve_left List.not_mem_nil).2⟩
        · next some_ =>
          exact ⟨.inl,fun found => found.resolve_right fun fallback => some_ (empty.mpr fallback.1)⟩

end scalar

section hits
variable {asked : IdMap (List Span)}

theorem hitAt_exact (filed : workspace.Filed) (fits : workspace.FitsWords) (localNode : NodeId) (target : SpanTarget) :
    hitAt (buildQueryCore workspace) id localNode target =
      .ok (((buildUnified workspace).wsNodeFor id localNode).toList.map fun node => ⟨target,node⟩) := by
  rw [hitAt, coreNodeFor filed.toPartitioned fits]
  rfl

theorem mem_hits {localNode : NodeId} {target : SpanTarget} {hit : SpanHit} :
    hit ∈ (((buildUnified workspace).wsNodeFor id localNode).toList.map fun node => (⟨target,node⟩ : SpanHit)) ↔
      hit.target = target ∧ (buildUnified workspace).wsNodeFor id localNode = some hit.node := by
  rw [List.mem_map]
  constructor
  · intro found
    obtain ⟨node,held,rfl⟩ := found
    exact ⟨rfl,Option.mem_toList.mp held⟩
  · intro found
    obtain ⟨rfl,held⟩ := found
    exact ⟨hit.node,Option.mem_toList.mpr held,rfl⟩

theorem placeHits_exact (filed : workspace.Filed) (fits : workspace.FitsWords) (id : SegmentId) (segment : IdgSegment)
    (asked : IdMap (List Span)) : ∃ hits, placeHits (buildQueryCore workspace) id segment asked = .ok hits ∧
      ∀ hit, hit ∈ hits ↔ hit.target.2 ∈ (asked.lookup hit.target.1).getD [] ∧
        AtPlace workspace id segment hit.target.1 hit.target.2 hit.node := by
  have turns : placeHits (buildQueryCore workspace) id segment asked = .ok (segment.nodes.zipIdx.flatMap fun row =>
      ((segment.placeOf row.1).bind placeSpan).elim [] fun own => ((asked.lookup row.1.func).getD []).flatMap fun matchSpan => if spansOverlap own matchSpan then
          ((buildUnified workspace).wsNodeFor id row.2).toList.map fun node => ⟨(row.1.func,matchSpan),node⟩ else []) := by
    refine collectM_ok fun row _ => ?_
    obtain ⟨source,localIndex⟩ := row
    dsimp only
    cases asked.lookup source.func with
    | none => cases (segment.placeOf source).bind placeSpan <;> rfl
    | some matchSpans =>
      cases (segment.placeOf source).bind placeSpan with
      | none => rfl
      | some own =>
        refine collectM_ok fun matchSpan _ => ?_
        split
        · exact hitAt_exact filed fits localIndex _
        · rfl
  refine ⟨_,turns,fun hit => ?_⟩
  rw [List.mem_flatMap]
  constructor
  · intro found
    obtain ⟨⟨source,localIndex⟩,listed,held⟩ := found
    have row := List.mem_zipIdx_iff_getElem?.mp listed
    dsimp only at row held
    cases anchor : (segment.placeOf source).bind placeSpan with
    | none =>
      rw [anchor] at held
      cases held
    | some own =>
      rw [anchor] at held
      obtain ⟨matchSpan,wanted,held⟩ := List.mem_flatMap.mp held
      obtain ⟨place,known,own'⟩ := Option.bind_eq_some_iff.mp anchor
      split at held
      · next overlap =>
        obtain ⟨same,placed⟩ := mem_hits.mp held
        rw [same]
        exact ⟨wanted,localIndex,source,place,own,row,rfl,known,own',overlap,placed⟩
      · cases held
  · intro found
    obtain ⟨wanted,localNode,source,place,own,held,same,known,anchor,overlap,placed⟩ := found
    refine ⟨(source,localNode),List.mem_zipIdx_iff_getElem?.mpr held,?_⟩
    have anchored : (segment.placeOf source).bind placeSpan = some own := by rw [known, Option.bind_some, anchor]
    dsimp only
    rw [anchored]
    refine List.mem_flatMap.mpr ⟨hit.target.2,by rw [same]; exact wanted,?_⟩
    rw [if_pos overlap]
    exact mem_hits.mpr ⟨by rw [same],placed⟩

theorem edgeHits_exact (filed : workspace.Filed) (fits : workspace.FitsWords) (id : SegmentId) (segment : IdgSegment)
    (asked : IdMap (List Span)) (resolved : List SpanTarget) :
    ∃ hits, edgeHits (buildQueryCore workspace) id segment asked resolved = .ok hits ∧
      ∀ hit, hit ∈ hits ↔ hit.target.2 ∈ (asked.lookup hit.target.1).getD [] ∧ hit.target ∉ resolved ∧
        AtEdge workspace id segment hit.target.1 hit.target.2 hit.node := by
  have turns : edgeHits (buildQueryCore workspace) id segment asked resolved = .ok (segment.edges.flatMap fun edge =>
      segment.nodes[edge.toNode]?.elim [] fun source => ((asked.lookup source.func).getD []).flatMap fun matchSpan =>
          if resolved.contains (source.func,matchSpan) || !spansOverlap edge.edgeMeta.viaSpan matchSpan then [] else
            ((buildUnified workspace).wsNodeFor id edge.toNode).toList.map fun node => ⟨(source.func,matchSpan),node⟩) := by
    refine collectM_ok fun edge _ => ?_
    cases segment.nodes[edge.toNode]? with
    | none => rfl
    | some source =>
      dsimp only [Option.elim]
      cases asked.lookup source.func with
      | none => rfl
      | some matchSpans =>
        refine collectM_ok fun matchSpan _ => ?_
        split
        · rfl
        · exact hitAt_exact filed fits edge.toNode _
  refine ⟨_,turns,fun hit => ?_⟩
  rw [List.mem_flatMap]
  constructor
  · intro found
    obtain ⟨edge,listed,held⟩ := found
    cases target : segment.nodes[edge.toNode]? with
    | none =>
      rw [target] at held
      cases held
    | some source =>
      rw [target] at held
      obtain ⟨matchSpan,wanted,held⟩ := List.mem_flatMap.mp held
      split at held
      · cases held
      · next missed =>
        obtain ⟨same,placed⟩ := mem_hits.mp held
        simp only [Bool.or_eq_true, List.contains_iff_mem, Bool.not_eq_true', not_or, Bool.not_eq_false] at missed
        rw [same]
        exact ⟨wanted,missed.1,edge,listed,source,target,rfl,missed.2,placed⟩
  · intro found
    obtain ⟨wanted,missed,edge,listed,source,target,same,overlap,placed⟩ := found
    refine ⟨edge,listed,?_⟩
    rw [target]
    refine List.mem_flatMap.mpr ⟨hit.target.2,by rw [same]; exact wanted,?_⟩
    have key : hit.target = (source.func,hit.target.2) := by rw [same]
    rw [if_neg]
    · exact mem_hits.mpr ⟨key,placed⟩
    · rw [← key]
      simp [missed,overlap]

end hits

section batches
variable {start : SpanBatch} {byFunc : IdMap (List Span)}

structure Resolves (workspace : IdgWorkspace) (asked : FuncId → Span → Prop) (start batch : SpanBatch) : Prop where
  nodes : ∀ func node, node ∈ (batch.nodes.lookup func).getD [] ↔
    node ∈ (start.nodes.lookup func).getD [] ∨ ∃ span, asked func span ∧ Anchored workspace func span node
  unresolved : ∀ func, func ∈ batch.unresolvedFuncs ↔
    func ∈ start.unresolvedFuncs ∨ ∃ span, asked func span ∧ ∀ node, ¬Anchored workspace func span node
  filled : (∀ func, start.nodes.lookup func ≠ some []) → ∀ func, batch.nodes.lookup func ≠ some []

theorem resolves_nothing {batch : SpanBatch} : Resolves workspace (fun _ _ => False) batch batch where
  nodes func node := by simp
  unresolved func := by simp
  filled := id

theorem Resolves.trans {first second : FuncId → Span → Prop} {middle batch : SpanBatch}
    (left : Resolves workspace first start middle) (right : Resolves workspace second middle batch) :
    Resolves workspace (fun func span => first func span ∨ second func span) start batch where
  nodes func node := by
    rw [right.nodes, left.nodes, or_assoc, ← exists_or]
    simp only [or_and_right]
  unresolved func := by
    rw [right.unresolved, left.unresolved, or_assoc, ← exists_or]
    simp only [or_and_right]
  filled start := right.filled (left.filled start)

theorem resolveSegment_unread {core : QueryCore}
    (read : workspace.segmentView id = none) : resolveSegment workspace core start ⟨id,byFunc⟩ =
      .ok {start with unresolvedFuncs := start.unresolvedFuncs ∪ byFunc.keys.toFinset} := by
  unfold resolveSegment
  dsimp only
  rw [read]

theorem resolveSegment_read {core : QueryCore} {direct viaEdges : List SpanHit}
    (read : workspace.segmentView id = some segment) (places : placeHits core id segment byFunc = .ok direct)
    (edges : edgeHits core id segment byFunc (direct.map (·.target)) = .ok viaEdges) :
    resolveSegment workspace core start ⟨id,byFunc⟩ =
      .ok ⟨pushAll ((direct ++ viaEdges).map fun hit => (hit.target.1,hit.node)) start.nodes,
        start.unresolvedFuncs ∪ (missedFuncs byFunc ((direct ++ viaEdges).map (·.target))).toFinset⟩ := by
  unfold resolveSegment
  dsimp only
  rw [read]
  dsimp only
  rw [places]
  show (edgeHits core id segment byFunc (direct.map (·.target)) >>= _) = _
  rw [edges]
  rfl

theorem mem_missedFuncs {resolved : List SpanTarget} {func : FuncId} :
    func ∈ missedFuncs byFunc resolved ↔ ∃ span ∈ (byFunc.lookup func).getD [], (func,span) ∉ resolved := by
  unfold missedFuncs
  rw [List.mem_map]
  constructor
  · intro found
    obtain ⟨⟨func',spans⟩,listed,rfl⟩ := found
    obtain ⟨entry,some_⟩ := List.mem_filter.mp listed
    obtain ⟨span,among,missed⟩ := List.any_eq_true.mp some_
    rw [Bool.not_eq_true', ← Bool.not_eq_true, List.contains_iff_mem] at missed
    exact ⟨span,by rw [AList.mem_lookup_iff.mpr entry]; exact among,missed⟩
  · intro found
    obtain ⟨span,wanted,missed⟩ := found
    cases entry : byFunc.lookup func with
    | none =>
      rw [entry] at wanted
      cases wanted
    | some spans =>
      rw [entry] at wanted
      refine ⟨⟨func,spans⟩,List.mem_filter.mpr ⟨AList.mem_lookup_iff.mp entry,List.any_eq_true.mpr ⟨span,wanted,?_⟩⟩,rfl⟩
      rw [Bool.not_eq_true', ← Bool.not_eq_true, List.contains_iff_mem]
      exact missed

theorem not_mem_targets {hits : List SpanHit} {target : SpanTarget} :
    target ∉ hits.map (·.target) ↔ ∀ node, ⟨target,node⟩ ∉ hits := by
  rw [List.mem_map, not_exists]
  constructor
  · intro missed node listed
    exact missed ⟨target,node⟩ ⟨listed,rfl⟩
  · intro missed hit found
    obtain ⟨listed,same⟩ := found
    cases same
    exact missed hit.node listed

theorem mem_keys_iff (asked : byFunc.lookup func ≠ some []) :
    func ∈ byFunc.keys ↔ ∃ span, span ∈ (byFunc.lookup func).getD [] := by
  rw [← AList.mem_keys, ← AList.lookup_isSome]
  cases entry : byFunc.lookup func with
  | none => simp
  | some spans =>
    cases spans with
    | nil => exact absurd entry asked
    | cons span spans => simp

section segments
variable {byFunc : IdMap (List Span)} (owners : ∀ func span, span ∈ (byFunc.lookup func).getD [] → workspace.segmentForFunc func = some id)
include owners

theorem resolveSegment_missing (start : SpanBatch) (read : workspace.segmentView id = none)
    (asked : ∀ func, byFunc.lookup func ≠ some []) :
    Resolves workspace (fun func span => span ∈ (byFunc.lookup func).getD []) start
      {start with unresolvedFuncs := start.unresolvedFuncs ∪ byFunc.keys.toFinset} := by
  have nowhere : ∀ func span, span ∈ (byFunc.lookup func).getD [] → ∀ node, ¬Anchored workspace func span node := by
    intro func span wanted node found
    obtain ⟨id',_,owner,read',_⟩ := found
    rw [owners func span wanted] at owner
    cases owner
    rw [read] at read'
    cases read'
  refine ⟨fun func node => ?_,fun func => ?_,fun filled => filled⟩
  · refine ⟨.inl,fun found => found.resolve_right fun anchored => ?_⟩
    obtain ⟨span,wanted,anchored⟩ := anchored
    exact nowhere func span wanted node anchored
  · rw [Finset.mem_union, List.mem_toFinset, mem_keys_iff (asked func)]
    exact or_congr_right (exists_congr fun span => ⟨fun wanted => ⟨wanted,nowhere func span wanted⟩,And.left⟩)

-- A segment that is read is hit exactly where its targets are anchored: the
-- edges are asked only for the targets that no place resolves.
theorem segmentHits_exact (filed : workspace.Filed) (fits : workspace.FitsWords) (read : workspace.segmentView id = some segment) :
    ∃ direct viaEdges, placeHits (buildQueryCore workspace) id segment byFunc = .ok direct ∧
      edgeHits (buildQueryCore workspace) id segment byFunc (direct.map (·.target)) = .ok viaEdges ∧
      ∀ hit, hit ∈ direct ++ viaEdges ↔ hit.target.2 ∈ (byFunc.lookup hit.target.1).getD [] ∧
        Anchored workspace hit.target.1 hit.target.2 hit.node := by
  obtain ⟨direct,places,placed⟩ := placeHits_exact filed fits id segment byFunc
  obtain ⟨viaEdges,edges,entered⟩ := edgeHits_exact filed fits id segment byFunc (direct.map (·.target))
  refine ⟨direct,viaEdges,places,edges,fun hit => ?_⟩
  rw [List.mem_append, placed, entered, ← and_or_left]
  refine and_congr_right fun wanted => ?_
  rw [anchored_iff (owners _ _ wanted) read, not_mem_targets]
  refine or_congr_right (and_congr_left fun _ => forall_congr' fun other => not_congr ?_)
  rw [placed]
  exact and_iff_right wanted

theorem resolveSegment_exact (filed : workspace.Filed) (fits : workspace.FitsWords) (start : SpanBatch)
    (asked : ∀ func, byFunc.lookup func ≠ some []) :
    ∃ batch, resolveSegment workspace (buildQueryCore workspace) start ⟨id,byFunc⟩ = .ok batch ∧
      Resolves workspace (fun func span => span ∈ (byFunc.lookup func).getD []) start batch := by
  cases read : workspace.segmentView id with
  | none => exact ⟨_,resolveSegment_unread read,resolveSegment_missing owners start read asked⟩
  | some segment =>
    obtain ⟨direct,viaEdges,places,edges,hits⟩ := segmentHits_exact owners filed fits read
    refine ⟨_,resolveSegment_read read places edges,⟨fun func node => ?_,fun func => ?_,fun filled => pushAll_nonempty filled⟩⟩
    · rw [mem_pushAll, List.mem_map]
      refine or_congr_right ⟨fun found => ?_,fun found => ?_⟩
      · obtain ⟨hit,listed,same⟩ := found
        obtain ⟨wanted,anchored⟩ := (hits hit).mp listed
        cases same
        exact ⟨hit.target.2,wanted,anchored⟩
      · obtain ⟨span,wanted,anchored⟩ := found
        exact ⟨⟨(func,span),node⟩,(hits _).mpr ⟨wanted,anchored⟩,rfl⟩
    · rw [Finset.mem_union, List.mem_toFinset, mem_missedFuncs]
      refine or_congr_right (exists_congr fun span => and_congr_right fun wanted => ?_)
      rw [not_mem_targets]
      refine forall_congr' fun node => not_congr ?_
      rw [hits]
      exact and_iff_right wanted

end segments

theorem resolveSegments_exact (filed : workspace.Filed) (fits : workspace.FitsWords) (start : SpanBatch)
    {groups : List ((_ : SegmentId) × IdMap (List Span))}
    (owners : ∀ group ∈ groups, ∀ func span, span ∈ (group.2.lookup func).getD [] → workspace.segmentForFunc func = some group.1)
    (asked : ∀ group ∈ groups, ∀ func, group.2.lookup func ≠ some []) :
    ∃ batch, groups.foldlM (resolveSegment workspace (buildQueryCore workspace)) start = .ok batch ∧
      Resolves workspace (fun func span => ∃ group ∈ groups, span ∈ (group.2.lookup func).getD []) start batch := by
  induction groups generalizing start with
  | nil =>
    refine ⟨start,rfl,?_⟩
    simpa using resolves_nothing
  | cons group groups ih =>
    obtain ⟨middle,first,left⟩ := resolveSegment_exact (owners group List.mem_cons_self) filed fits start
      (asked group List.mem_cons_self)
    obtain ⟨batch,later,right⟩ := ih middle (fun other member => owners other (List.mem_cons_of_mem _ member))
      fun other member => asked other (List.mem_cons_of_mem _ member)
    refine ⟨batch,?_,?_⟩
    · rw [List.foldlM_cons, first]
      exact later
    · have both := left.trans right
      simpa only [List.mem_cons, exists_eq_or_imp] using both

end batches

section targets

def spansAt (groups : IdMap (IdMap (List Span))) (id : SegmentId) (func : FuncId) : List Span :=
  ((groups.lookup id).bind (·.lookup func)).getD []

theorem lookup_entered {groups : IdMap (IdMap (List Span))} {id id' : SegmentId} {func func' : FuncId} {span : Span} :
    ((upsert ∅ (upsert [] (· ++ [span]) func) id groups).lookup id').bind (·.lookup func') =
      if id' = id ∧ func' = func then some (spansAt groups id func ++ [span]) else (groups.lookup id').bind (·.lookup func') := by
  have held : ((groups.lookup id).getD ∅).lookup func' = (groups.lookup id).bind (·.lookup func') := by
    cases groups.lookup id <;> rfl
  rw [lookup_upsert]
  by_cases same : id' = id
  · subst same
    rw [if_pos rfl, Option.bind_some, lookup_upsert]
    by_cases same' : func' = func
    · subst same'
      rw [if_pos rfl, if_pos ⟨rfl,rfl⟩, held]
      rfl
    · rw [if_neg same', if_neg fun both => same' both.2]
      exact held
  · rw [if_neg same, if_neg fun both => same both.1]

theorem spansAt_entered {groups : IdMap (IdMap (List Span))} {id id' : SegmentId} {func func' : FuncId} {span span' : Span} :
    span' ∈ spansAt (upsert ∅ (upsert [] (· ++ [span]) func) id groups) id' func' ↔
      span' ∈ spansAt groups id' func' ∨ (func',span') = (func,span) ∧ id' = id := by
  rw [spansAt, lookup_entered]
  split
  · next same =>
    obtain ⟨rfl,rfl⟩ := same
    rw [Option.getD_some, List.mem_append, List.mem_singleton]
    refine or_congr_right ⟨fun equal => ⟨by rw [equal],rfl⟩,fun equal => ?_⟩
    exact (Prod.mk.inj equal.1).2
  · next differs =>
    refine ⟨.inl,fun found => found.resolve_right fun equal => differs ⟨equal.2,?_⟩⟩
    exact (Prod.mk.inj equal.1).1

theorem targetsBySegment_spans {targets : List SpanTarget} :
    span ∈ spansAt (targetsBySegment workspace targets).1 id func ↔
      (func,span) ∈ targets ∧ workspace.segmentForFunc func = some id := by
  unfold targetsBySegment
  rw [foldl_collects (fun state : IdMap (IdMap (List Span)) × Finset FuncId => span ∈ spansAt state.1 id func)
    (fun target => (func,span) = target ∧ workspace.segmentForFunc func = some id)]
  · constructor
    · intro found
      rcases found with nothing | ⟨target,listed,rfl,owner⟩
      · cases nothing
      · exact ⟨listed,owner⟩
    · exact fun found => .inr ⟨(func,span),found.1,rfl,found.2⟩
  · intro state target
    obtain ⟨func',span'⟩ := target
    dsimp only
    cases owner : workspace.segmentForFunc func' with
    | none =>
      refine ⟨.inl,fun found => found.resolve_right fun other => ?_⟩
      obtain ⟨same,owner'⟩ := other
      cases same
      rw [owner] at owner'
      cases owner'
    | some segment =>
      dsimp only
      rw [spansAt_entered]
      refine or_congr_right (and_congr_right fun same => ?_)
      cases same
      rw [owner, Option.some.injEq, eq_comm]

theorem targetsBySegment_unresolved {targets : List SpanTarget} : func ∈ (targetsBySegment workspace targets).2 ↔
    ∃ span, (func,span) ∈ targets ∧ workspace.segmentForFunc func = none := by
  unfold targetsBySegment
  rw [foldl_collects (fun state : IdMap (IdMap (List Span)) × Finset FuncId => func ∈ state.2)
    (fun target => func = target.1 ∧ workspace.segmentForFunc func = none)]
  · constructor
    · intro found
      rcases found with nothing | ⟨⟨_,span⟩,listed,rfl,owner⟩
      · exact absurd nothing (Finset.notMem_empty _)
      · exact ⟨span,listed,owner⟩
    · intro found
      obtain ⟨span,listed,owner⟩ := found
      exact .inr ⟨(func,span),listed,rfl,owner⟩
  · intro state target
    obtain ⟨func',span'⟩ := target
    dsimp only
    cases owner : workspace.segmentForFunc func' with
    | none =>
      dsimp only
      rw [Finset.mem_insert, or_comm]
      refine or_congr_right ⟨fun same => ⟨same,by rw [same]; exact owner⟩,fun both => both.1⟩
    | some segment =>
      refine ⟨.inl,fun found => found.resolve_right fun other => ?_⟩
      obtain ⟨rfl,owner'⟩ := other
      rw [owner] at owner'
      cases owner'

theorem targetsBySegment_asked (targets : List SpanTarget) (id : SegmentId) (func : FuncId) :
    ((targetsBySegment workspace targets).1.lookup id).bind (·.lookup func) ≠ some [] := by
  unfold targetsBySegment
  refine List.foldlRecOn (motive := fun state : IdMap (IdMap (List Span)) × Finset FuncId =>
    (state.1.lookup id).bind (·.lookup func) ≠ some []) targets _ (by simp) fun state held target _ => ?_
  obtain ⟨func',span⟩ := target
  dsimp only
  cases workspace.segmentForFunc func' with
  | none => exact held
  | some segment =>
    dsimp only
    rw [lookup_entered]
    split
    · simp
    · exact held

end targets

-- The batch as a whole, against what each span resolves to.
section groups
variable {targets : List SpanTarget} {group : (_ : SegmentId) × IdMap (List Span)}

section
variable (member : group ∈ (targetsBySegment workspace targets).1.entries)
include member

theorem group_spans (func : FuncId) :
    (group.2.lookup func).getD [] = spansAt (targetsBySegment workspace targets).1 group.1 func := by
  rw [spansAt, AList.mem_lookup_iff.mpr member, Option.bind_some]

theorem group_asked (func : FuncId) :
    group.2.lookup func ≠ some [] := by
  have asked : ((targetsBySegment workspace targets).1.lookup group.1).bind (·.lookup func) ≠ some [] :=
    targetsBySegment_asked targets group.1 func
  rw [AList.mem_lookup_iff.mpr member, Option.bind_some] at asked
  exact asked

theorem group_owner
    (wanted : span ∈ (group.2.lookup func).getD []) : workspace.segmentForFunc func = some group.1 := by
  rw [group_spans member] at wanted
  exact (targetsBySegment_spans.mp wanted).2

end

theorem mem_groups : (∃ group ∈ (targetsBySegment workspace targets).1.entries, span ∈ (group.2.lookup func).getD []) ↔
    (func,span) ∈ targets ∧ ∃ id, workspace.segmentForFunc func = some id := by
  constructor
  · intro found
    obtain ⟨group,member,wanted⟩ := found
    rw [group_spans member, targetsBySegment_spans] at wanted
    exact ⟨wanted.1,group.1,wanted.2⟩
  · intro found
    obtain ⟨listed,id,owner⟩ := found
    have wanted := targetsBySegment_spans.mpr ⟨listed,owner⟩
    cases held : (targetsBySegment workspace targets).1.lookup id with
    | none =>
      rw [spansAt, held] at wanted
      cases wanted
    | some byFunc =>
      rw [spansAt, held, Option.bind_some] at wanted
      exact ⟨⟨id,byFunc⟩,AList.mem_lookup_iff.mp held,wanted⟩

end groups

section nodes
variable {nodes : IdMap (List NodeId)}

theorem lookup_sorted {sorted : List NodeId} (found : (nodes.mapValues sortDedup).lookup func = some sorted) :
    ∃ listed, nodes.lookup func = some listed ∧ sorted = sortDedup listed := by
  rw [IdMap.lookup_mapValues, Option.map_eq_some_iff] at found
  obtain ⟨listed,held,same⟩ := found
  exact ⟨listed,held,same.symm⟩

theorem mem_sorted {node : NodeId} :
    node ∈ ((nodes.mapValues sortDedup).lookup func).getD [] ↔ node ∈ (nodes.lookup func).getD [] := by
  rw [IdMap.lookup_mapValues]
  cases nodes.lookup func with
  | none => rfl
  | some listed => exact mem_sortDedup

theorem sorted_filled (filled : nodes.lookup func ≠ some []) : (nodes.mapValues sortDedup).lookup func ≠ some [] := by
  intro empty
  obtain ⟨listed,held,same⟩ := lookup_sorted empty
  cases listed with
  | nil => exact filled held
  | cons node rest =>
    have member : node ∈ sortDedup (node :: rest) := mem_sortDedup.mpr List.mem_cons_self
    rw [← same] at member
    cases member

end nodes

theorem batch_anchored (filed : workspace.Filed) (fits : workspace.FitsWords) (targets : List SpanTarget) :
    ∃ batch, nodesByFuncAndUnresolvedAtSpans workspace targets = .ok batch ∧
      (∀ func, batch.nodes.lookup func ≠ some []) ∧ (∀ func nodes, batch.nodes.lookup func = some nodes → Sorted nodes) ∧
      (∀ func node, node ∈ (batch.nodes.lookup func).getD [] ↔ ∃ span, (func,span) ∈ targets ∧ Anchored workspace func span node) ∧
      ∀ func, func ∈ batch.unresolvedFuncs ↔ ∃ span, (func,span) ∈ targets ∧ ∀ node, ¬Anchored workspace func span node := by
  obtain ⟨batch,run,resolves⟩ := resolveSegments_exact filed fits ⟨∅,(targetsBySegment workspace (sortDedup targets)).2⟩
    (fun _ member _ _ wanted => group_owner member wanted) fun _ member func => group_asked member func
  have wanted : ∀ func span, (∃ group ∈ (targetsBySegment workspace (sortDedup targets)).1.entries,
      span ∈ (group.2.lookup func).getD []) ↔ (func,span) ∈ targets ∧ ∃ id, workspace.segmentForFunc func = some id := by
    intro func span
    rw [mem_groups, mem_sortDedup]
  refine ⟨{batch with nodes := batch.nodes.mapValues sortDedup},?_,fun func => ?_,fun func nodes found => ?_,
    fun func node => ?_,fun func => ?_⟩
  · unfold nodesByFuncAndUnresolvedAtSpans
    show (List.foldlM (resolveSegment workspace (buildQueryCore workspace))
      ⟨∅,(targetsBySegment workspace (sortDedup targets)).2⟩ (targetsBySegment workspace (sortDedup targets)).1.entries >>= _) = _
    rw [run]
    rfl
  · exact sorted_filled (resolves.filled (fun _ => by simp) func)
  · obtain ⟨listed,_,rfl⟩ := lookup_sorted found
    exact sortDedup_sorted listed
  · dsimp only
    rw [mem_sorted, resolves.nodes]
    constructor
    · intro found
      obtain ⟨span,among,anchored⟩ := found.resolve_left (by simp)
      exact ⟨span,((wanted func span).mp among).1,anchored⟩
    · intro found
      obtain ⟨span,listed,anchored⟩ := found
      have ⟨id,_,owner,_⟩ := anchored
      exact .inr ⟨span,(wanted func span).mpr ⟨listed,id,owner⟩,anchored⟩
  · dsimp only
    rw [resolves.unresolved, targetsBySegment_unresolved]
    constructor
    · intro found
      rcases found with ⟨span,listed,nowhere⟩ | ⟨span,among,missed⟩
      · refine ⟨span,mem_sortDedup.mp listed,fun node anchored => ?_⟩
        obtain ⟨_,_,owner,_⟩ := anchored
        rw [nowhere] at owner
        cases owner
      · exact ⟨span,((wanted func span).mp among).1,missed⟩
    · intro found
      obtain ⟨span,listed,missed⟩ := found
      cases owner : workspace.segmentForFunc func with
      | none => exact .inl ⟨span,mem_sortDedup.mpr listed,rfl⟩
      | some id => exact .inr ⟨span,(wanted func span).mpr ⟨listed,id,owner⟩,missed⟩

-- A batch keeps for every function the union of its scalar lookups, and reports
-- the functions that some lookup finds nothing for.
def UnionOfScalars (workspace : IdgWorkspace) (targets : List SpanTarget) : Prop :=
  ∃ (scalar : FuncId → Span → List NodeId) (batch : SpanBatch),
    (∀ func span, nodesAtSpan workspace func span = .ok (scalar func span)) ∧
    nodesByFuncAndUnresolvedAtSpans workspace targets = .ok batch ∧ ∀ func,
      let spans := (targets.filter (·.1 = func)).map (·.2)
      batch.nodes.lookup func = (if spans.all (scalar func · = []) then none else some (sortDedup (spans.flatMap (scalar func)))) ∧
      (func ∈ batch.unresolvedFuncs ↔ ∃ span ∈ spans, scalar func span = [])

theorem span_batch_exact (filed : workspace.Filed) (fits : workspace.FitsWords) (targets : List SpanTarget) :
    UnionOfScalars workspace targets := by
  choose scalar looked ordered anchored using nodesAtSpan_anchored filed fits
  obtain ⟨batch,run,filled,sorted,nodes,unresolved⟩ := batch_anchored filed fits targets
  refine ⟨scalar,batch,looked,run,fun func => ?_⟩
  have wanted : ∀ span, span ∈ (targets.filter (·.1 = func)).map (·.2) ↔ (func,span) ∈ targets := by
    intro span
    rw [List.mem_map]
    constructor
    · intro found
      obtain ⟨⟨func',span'⟩,listed,rfl⟩ := found
      obtain ⟨member,same⟩ := List.mem_filter.mp listed
      rw [← of_decide_eq_true same]
      exact member
    · exact fun member => ⟨(func,span),List.mem_filter.mpr ⟨member,decide_eq_true rfl⟩,rfl⟩
  have union : ∀ node, node ∈ (batch.nodes.lookup func).getD [] ↔
      node ∈ ((targets.filter (·.1 = func)).map (·.2)).flatMap (scalar func) := by
    intro node
    rw [nodes, List.mem_flatMap]
    exact exists_congr fun span => and_congr (wanted span).symm (anchored func span node).symm
  constructor
  · split
    · next empty =>
      cases held : batch.nodes.lookup func with
      | none => rfl
      | some found =>
        cases found with
        | nil => exact absurd held (filled func)
        | cons node rest =>
          have member := (union node).mp (by rw [held]; exact List.mem_cons_self)
          obtain ⟨span,listed,found⟩ := List.mem_flatMap.mp member
          have none_ := of_decide_eq_true (List.all_eq_true.mp empty span listed)
          rw [none_] at found
          cases found
    · next some_ =>
      cases held : batch.nodes.lookup func with
      | none =>
        refine absurd (List.all_eq_true.mpr fun span listed => decide_eq_true ?_) some_
        refine List.eq_nil_iff_forall_not_mem.mpr fun node found => ?_
        have member := (union node).mpr (List.mem_flatMap.mpr ⟨span,listed,found⟩)
        rw [held] at member
        cases member
      | some found =>
        congr 1
        refine Sorted.ext (sorted func found held) (sortDedup_sorted _) fun node => ?_
        rw [mem_sortDedup, ← union, held, Option.getD_some]
  · rw [unresolved]
    refine exists_congr fun span => and_congr (wanted span).symm ?_
    rw [List.eq_nil_iff_forall_not_mem]
    exact forall_congr' fun node => not_congr (anchored func span node).symm

-- Two functions of one file: the first writes at one span and is entered by an
-- edge at another, the second has no node at all.
def spannedSegment : IdgSegment :=
  ⟨[.write 0 [] ⟨0,4,9⟩,.return],[⟨1,0⟩,⟨1,1⟩],[⟨0,1,.intraReturn,.direct,⟨0,20,30⟩⟩],[1,2],[['x']]⟩

def freshWorkspace : IdgWorkspace := ⟨[],none,none,[],none,none,∅,[],⟨[],[],[]⟩⟩

def spannedFile : IdgWorkspace := registerSegment freshWorkspace spannedSegment

theorem freshWorkspace_filed : freshWorkspace.Filed where
  readable id inside := absurd inside (Nat.not_lt_zero id)
  listed _ present := absurd present List.not_mem_nil
  disjoint _ present := absurd present List.not_mem_nil
  filed _ present := absurd present List.not_mem_nil
  distinct _ present := absurd present List.not_mem_nil

theorem spannedFile_filed : spannedFile.Filed :=
  registerSegment_filed freshWorkspace_filed ⟨rfl,rfl⟩ (by decide) (by decide) fun _ _ => rfl

theorem spannedFile_fits : spannedFile.FitsWords where
  segments := by decide
  nodes := by decide
  funcs := by decide
  sites := by decide
  arguments := by decide
  formals := by decide

theorem span_batch_spannedFile : UnionOfScalars spannedFile [(1,⟨0,5,6⟩),(1,⟨0,25,26⟩),(2,⟨0,5,6⟩),(3,⟨0,5,6⟩)] :=
  span_batch_exact spannedFile_filed spannedFile_fits _

end BonsaiNinja.Idg
