import BonsaiNinja.Idg.SegmentLayout
import BonsaiNinja.Idg.TargetFlows

namespace BonsaiNinja.Idg
open Library

section
variable {workspace : IdgWorkspace} {scope : FuncScope}
variable {base : Nat}
variable {identity : SymbolicFactIdentity}
variable {node : NodeId}
variable {runtime : SymbolicRuntimeIndex}
variable {visited : ScopedNode}

theorem mem_scopedViews {id : SegmentId} {segment : IdgSegment} : (id,segment) ∈ scopedViews workspace scope ↔
    id ∈ symbolicSegments workspace scope ∧ workspace.segmentView id = some segment := by
  simp [scopedViews,and_left_comm,and_comm]

theorem mem_scopedNodes : visited ∈ scopedNodes workspace scope ↔
    (visited.segmentId,visited.segment) ∈ scopedViews workspace scope ∧
      visited.segment.nodes[visited.localNode]? = some visited.node ∧ scope.admits visited.node.func = true := by
  simp only [scopedNodes, List.mem_flatMap, viewNodes, List.mem_filter, List.mem_map, Prod.exists]
  constructor
  · intro found
    obtain ⟨id,segment,view,⟨node,localNode,entry,rfl⟩,admitted⟩ := found
    exact ⟨view,List.mem_zipIdx_iff_getElem?.mp entry,admitted⟩
  · intro found
    obtain ⟨view,entry,admitted⟩ := found
    exact ⟨_,_,view,⟨_,_,List.mem_zipIdx_iff_getElem?.mpr entry,rfl⟩,admitted⟩

theorem foldl_insert_lookup {views : List (Nat × α)} {page : Nat × α → β} {start : IdMap β} {id : Nat} :
    (views.foldl (fun pages view => pages.insert view.1 (page view)) start).lookup id = start.lookup id ∧
        (∀ view ∈ views, view.1 ≠ id) ∨
      ∃ view ∈ views, view.1 = id ∧
        (views.foldl (fun pages view => pages.insert view.1 (page view)) start).lookup id = some (page view) := by
  induction views generalizing start with
  | nil => exact .inl ⟨rfl,fun _ member => absurd member List.not_mem_nil⟩
  | cons view rest ih =>
    rw [List.foldl_cons]
    rcases @ih (start.insert view.1 (page view)) with ⟨same,absent⟩ | ⟨later,member,key,found⟩
    · by_cases key : view.1 = id
      · subst key
        exact .inr ⟨view,List.mem_cons_self,rfl,same.trans (AList.lookup_insert start)⟩
      · refine .inl ⟨same.trans (AList.lookup_insert_ne (Ne.symm key)),fun other member => ?_⟩
        rcases List.mem_cons.mp member with rfl | later
        · exact key
        · exact absent other later
    · exact .inr ⟨later,List.mem_cons_of_mem _ member,key,found⟩

theorem factPages_lookup {id : SegmentId} {page : List (List SymbolicFactTemplate)} :
    (factPages workspace scope).lookup id = some page ↔
      ∃ segment, (id,segment) ∈ scopedViews workspace scope ∧ page = buildSymbolicFactPage workspace scope (id,segment) := by
  rcases @foldl_insert_lookup _ _ (scopedViews workspace scope) (buildSymbolicFactPage workspace scope) ∅ id with
    ⟨same,absent⟩ | ⟨⟨_,segment⟩,member,rfl,found⟩
  · change (factPages workspace scope).lookup id = _ at same
    rw [same, AList.lookup_empty]
    refine ⟨fun found => (by cases found),fun found => ?_⟩
    obtain ⟨segment,view,_⟩ := found
    exact absurd rfl (absent _ view)
  · change (factPages workspace scope).lookup _ = _ at found
    rw [found]
    constructor
    · intro same
      exact ⟨segment,member,(Option.some.inj same).symm⟩
    · intro other
      obtain ⟨segment',view,rfl⟩ := other
      have same : segment = segment' :=
        Option.some.inj ((mem_scopedViews.mp member).2.symm.trans (mem_scopedViews.mp view).2)
      rw [same]

section
variable (readable : workspace.Readable)
include readable

section
variable (member : visited ∈ scopedNodes workspace scope)
include member

section
variable (placed : wsNodeForSegmentBases (segmentBasesOf workspace) visited.segmentId visited.localNode = some node)
include placed

theorem visited_placed
    :
    PlacedAt workspace visited.segmentId visited.segment visited.localNode node := by
  obtain ⟨segment,at'⟩ := wsNode_placed readable placed
  have view := (mem_scopedViews.mp (mem_scopedNodes.mp member).1).2
  have same := (IdgWorkspace.mem_segmentViews.mp (List.mem_of_getElem? at'.view)).2
  rw [view] at same
  rw [Option.some.inj same]
  exact at'

theorem visited_func
    :
    (buildUnified workspace).wsNodeFunc node = some visited.node.func := by
  rw [(visited_placed readable member placed).func, (mem_scopedNodes.mp member).2.1]
  rfl

end

theorem visited_unique {visited' : ScopedNode}
    (member' : visited' ∈ scopedNodes workspace scope)
    (placed : wsNodeForSegmentBases (segmentBasesOf workspace) visited.segmentId visited.localNode = some node)
    (placed' : wsNodeForSegmentBases (segmentBasesOf workspace) visited'.segmentId visited'.localNode = some node) :
    visited = visited' := by
  obtain ⟨id,segment,localNode⟩ := (visited_placed readable member placed).unique (visited_placed readable member' placed')
  have entry := (mem_scopedNodes.mp member).2.1
  have entry' := (mem_scopedNodes.mp member').2.1
  rw [segment, localNode, entry'] at entry
  cases visited
  cases visited'
  simp_all

theorem wsAddress_of_placed
    (placed : wsNodeForSegmentBases (segmentBasesOf workspace) visited.segmentId visited.localNode = some node) :
    (buildUnified workspace).wsAddress node = none ∨
      (buildUnified workspace).wsAddress node = some (visited.segmentId,visited.localNode) := by
  cases address : (buildUnified workspace).wsAddress node with
  | none => exact .inl rfl
  | some found =>
    obtain ⟨id,localNode⟩ := found
    obtain ⟨segment,at'⟩ := wsNode_placed readable (UnifiedAddressSpace.wsNodeFor_wsAddress address)
    obtain ⟨rfl,_,rfl⟩ := at'.unique (visited_placed readable member placed)
    exact .inr rfl

end

end

theorem baseId_owner {symbolic : SymbolicFieldGraph} {segment : SegmentId} {func : FuncId} {storage : Text}
    (found : symbolic.baseId segment func storage = some base) : (symbolic.bases[base]?).map (·.func) = some func := by
  unfold SymbolicFieldGraph.baseId at found
  split at found
  · cases found
  · dsimp only at found
    split at found
    · next inside =>
      cases found
      rw [List.getElem?_eq_getElem inside, Option.map_some]
      have same := List.findIdx_getElem (w := inside)
      rw [eq_of_beq same]
    · cases found

theorem symbolicFacts_visited (member : visited ∈ scopedNodes workspace scope)
    (address : (buildUnified workspace).wsAddress node = some (visited.segmentId,visited.localNode)) :
    (buildSymbolicRuntimeIndex workspace (buildUnified workspace) scope).symbolicFactsForNode (buildUnified workspace) node =
      (pageFacts workspace scope visited).map SymbolicFactTemplate.identity := by
  obtain ⟨view,entry,admitted⟩ := mem_scopedNodes.mp member
  have page := factPages_lookup.mpr ⟨visited.segment,view,rfl⟩
  unfold SymbolicRuntimeIndex.symbolicFactsForNode
  rw [address]
  dsimp only
  rw [show (buildSymbolicRuntimeIndex workspace (buildUnified workspace) scope).factPages.lookup visited.segmentId = _ from page]
  dsimp only
  rw [buildSymbolicFactPage, List.getD_eq_getElem?_getD, List.getElem?_map, List.getElem?_zipIdx, entry]
  simp only [Option.map_some, Nat.zero_add, Option.getD_some, admitted, if_true]

section
variable (fact : identity ∈ (buildSymbolicRuntimeIndex workspace (buildUnified workspace) scope).symbolicFactsForNode (buildUnified workspace) node)
include fact

theorem symbolicFacts_addressed
    :
    ∃ visited ∈ scopedNodes workspace scope,
      (buildUnified workspace).wsAddress node = some (visited.segmentId,visited.localNode) ∧
        ∃ template ∈ pageFacts workspace scope visited, template.identity = identity := by
  unfold SymbolicRuntimeIndex.symbolicFactsForNode at fact
  split at fact
  · cases fact
  · next id localNode address =>
    split at fact
    · cases fact
    · next page found =>
      obtain ⟨segment,view,rfl⟩ := factPages_lookup.mp found
      obtain ⟨template,row,rfl⟩ := List.mem_map.mp fact
      rw [buildSymbolicFactPage, List.getD_eq_getElem?_getD, List.getElem?_map, List.getElem?_zipIdx] at row
      cases entry : segment.nodes[localNode]? with
      | none => simp [entry] at row
      | some node' =>
        simp only [entry, Option.map_some, Nat.zero_add, Option.getD_some] at row
        split at row
        · next admitted =>
          exact ⟨⟨id,segment,localNode,node'⟩,mem_scopedNodes.mpr ⟨view,entry,admitted⟩,address,template,row,rfl⟩
        · cases row

theorem symbolicFacts_source
    :
    ∃ visited ∈ scopedNodes workspace scope,
      wsNodeForSegmentBases (segmentBasesOf workspace) visited.segmentId visited.localNode = some node ∧
        ∃ template ∈ pageFacts workspace scope visited, template.identity = identity := by
  obtain ⟨visited,member,address,introduced⟩ := symbolicFacts_addressed fact
  exact ⟨visited,member,UnifiedAddressSpace.wsNodeFor_wsAddress address,introduced⟩

end

theorem mem_projectedFacts {key : Nat × Nat} {isRead : Bool} :
    (key,node,isRead) ∈ projectedFacts workspace (segmentBasesOf workspace) scope ↔
      ∃ visited ∈ scopedNodes workspace scope,
        wsNodeForSegmentBases (segmentBasesOf workspace) visited.segmentId visited.localNode = some node ∧
          (∃ template ∈ pageFacts workspace scope visited, (template.base,template.field) = key) ∧
            (visited.place.any fun place => place matches .read _ _) = isRead := by
  simp only [projectedFacts, List.mem_flatMap]
  refine exists_congr fun visited => and_congr_right fun _ => ?_
  cases wsNodeForSegmentBases (segmentBasesOf workspace) visited.segmentId visited.localNode with
  | none => simp
  | some placed =>
    simp only [List.mem_map, Prod.mk.injEq, Option.some.injEq]
    constructor
    · intro found
      obtain ⟨template,row,same,rfl,rfl⟩ := found
      exact ⟨rfl,⟨template,row,same⟩,rfl⟩
    · intro found
      obtain ⟨rfl,⟨template,row,same⟩,rfl⟩ := found
      exact ⟨template,row,same,rfl,rfl⟩

-- A node with an access-path fact is projected storage.
theorem pageFacts_projected {template : SymbolicFactTemplate}
    (row : template ∈ pageFacts workspace scope visited) : projectedPlace visited.segment visited.place = true := by
  unfold pageFacts ScopedNode.storage at row
  unfold projectedPlace
  cases storage : visited.place.bind (structuredStorageParts visited.segment) with
  | none => simp [storage] at row
  | some found =>
    obtain ⟨parts,span,isRead⟩ := found
    rw [storage] at row
    obtain ⟨path,member,_⟩ := List.mem_filterMap.mp row
    obtain ⟨split,inside,_⟩ := List.mem_map.mp member
    have long := List.length_pos_of_mem inside
    rw [List.length_drop, List.length_range] at long
    exact decide_eq_true (by omega)

theorem idxOf_iff {rows : SortedRows Text} {name : Text} {i : Nat} : rows.rows.idxOf? name = some i ↔ rows.rows[i]? = some name := by
  constructor
  · intro found
    obtain ⟨inside,same,_⟩ := List.findIdx?_eq_some_iff_getElem.mp found
    rw [List.getElem?_eq_getElem inside, eq_of_beq same]
  · intro found
    obtain ⟨inside,same⟩ := List.getElem?_eq_some_iff.mp found
    refine List.findIdx?_eq_some_iff_getElem.mpr ⟨inside,by simp [same],fun j lower => ?_⟩
    intro equal
    have order := List.pairwise_iff_getElem.mp rows.sorted.nodup j i (by omega) inside lower
    exact order (by rw [same]; exact eq_of_beq equal)

theorem fieldId_iff {name : Text} {field : Nat} :
    runtime.fieldId name = some field ↔ runtime.field field = some name := idxOf_iff

def SymbolicBaseRebaseKind.back : SymbolicBaseRebaseKind → SymbolicBaseRebaseKind
  | .prependPrefix => .stripPrefix
  | .stripPrefix => .prependPrefix

-- The two names of one access path: `s` at a base whose path has `prefix` more than
-- the other's is `prefix.s` there.
def SymbolicBaseRebaseKind.Renames (kind : SymbolicBaseRebaseKind) (lead name renamed : Text) : Prop :=
  match kind with
  | .prependPrefix => lead ≠ [] ∧ name ≠ [] ∧ renamed = lead ++ '.' :: name
  | .stripPrefix => renamed ≠ [] ∧ name = lead ++ '.' :: renamed

theorem rebasedField_iff {rebase : SymbolicBaseRebase} {field field' : Nat} :
    runtime.rebasedField rebase field = some field' ↔ ∃ lead name renamed, runtime.field rebase.prefixId = some lead ∧
      runtime.field field = some name ∧ runtime.field field' = some renamed ∧ rebase.kind.Renames lead name renamed := by
  unfold SymbolicRuntimeIndex.rebasedField
  simp only [Option.bind_eq_bind, Option.bind_eq_some_iff]
  refine exists_congr fun lead => ?_
  constructor
  · intro known
    obtain ⟨named,name,found,known⟩ := known
    cases kind : rebase.kind with
    | prependPrefix =>
      simp only [kind] at known
      split at known
      · cases known
      · next both =>
        exact ⟨name,_,named,found,fieldId_iff.mp known,(not_or.mp both).1,(not_or.mp both).2,rfl⟩
    | stripPrefix =>
      simp only [kind] at known
      split at known
      · next both =>
        refine ⟨name,_,named,found,fieldId_iff.mp known,both.2,?_⟩
        obtain ⟨rest,rfl⟩ := List.isPrefixOf_iff_prefix.mp both.1
        simp [List.drop_append]
      · cases known
  · intro known
    obtain ⟨name,renamed,named,found,found',renames⟩ := known
    refine ⟨named,name,found,?_⟩
    cases kind : rebase.kind with
    | prependPrefix =>
      rw [kind] at renames
      obtain ⟨lead',name',rfl⟩ := renames
      exact (if_neg (not_or.mpr ⟨lead',name'⟩)).trans (fieldId_iff.mpr found')
    | stripPrefix =>
      rw [kind] at renames
      obtain ⟨nonempty,rfl⟩ := renames
      have short : (lead ++ '.' :: renamed).drop (lead.length + 1) = renamed := by simp [List.drop_append]
      have leads : (lead ++ ['.']).isPrefixOf (lead ++ '.' :: renamed) = true := by
        rw [List.isPrefixOf_iff_prefix]
        exact ⟨renamed,by simp⟩
      simp only [leads, short, true_and]
      rw [if_pos nonempty]
      exact fieldId_iff.mpr found'

theorem SymbolicBaseRebaseKind.Renames.back {kind : SymbolicBaseRebaseKind} {lead name renamed : Text} (nonempty : lead ≠ [])
    (renames : kind.Renames lead name renamed) : kind.back.Renames lead renamed name := by
  cases kind with
  | prependPrefix => exact ⟨renames.2.1,renames.2.2⟩
  | stripPrefix => exact ⟨nonempty,renames.1,renames.2⟩

-- Prepending a prefix and stripping it undo each other.
theorem rebasedField_back {rebase back : SymbolicBaseRebase} {lead : Text}
    (named : runtime.field rebase.prefixId = some lead) (nonempty : lead ≠ []) (sameName : back.prefixId = rebase.prefixId)
    (sameKind : back.kind = rebase.kind.back) {field field' : Nat}
    (known : runtime.rebasedField rebase field = some field') : runtime.rebasedField back field' = some field := by
  obtain ⟨lead',name,renamed,named',found,found',renames⟩ := rebasedField_iff.mp known
  rw [named] at named'
  cases named'
  refine rebasedField_iff.mpr ⟨lead,renamed,name,sameName ▸ named,found',found,?_⟩
  rw [sameKind]
  exact renames.back nonempty

def RebaseSpec.back (spec : RebaseSpec) : RebaseSpec := ⟨spec.target,spec.source,spec.prefixText,spec.kind.back⟩

theorem joinDots_nonempty {parts : List Text} (some' : parts ≠ []) (named : ∀ part ∈ parts, part ≠ []) : joinDots parts ≠ [] := by
  cases parts with
  | nil => exact absurd rfl some'
  | cons part rest =>
    cases rest with
    | nil => simpa [joinDots,List.intercalate] using named part List.mem_cons_self
    | cons next rest => simp [joinDots,List.intercalate,named part List.mem_cons_self]

theorem rebaseSpecs_back {symbolic : SymbolicFieldGraph} {spec : RebaseSpec} (member : spec ∈ rebaseSpecs symbolic) :
    spec.back ∈ rebaseSpecs symbolic ∧ spec.prefixText ≠ [] := by
  simp only [rebaseSpecs, SortedRows.mem_ofList, List.mem_flatMap, Prod.exists] at member ⊢
  obtain ⟨nested,nestedId,entry,row⟩ := member
  unfold rebaseSpecsOf at row
  cases text : symbolic.string nested.storage with
  | none => simp [text] at row
  | some storage =>
    simp only [text, List.mem_flatMap] at row
    obtain ⟨split,inside,row⟩ := row
    have bound : 0 < split ∧ split < (splitDots storage).length := by
      simp only [List.mem_iff_getElem, List.length_drop, List.length_range, List.getElem_drop, List.getElem_range] at inside
      obtain ⟨i,lower,rfl⟩ := inside
      omega
    have named : joinDots ((splitDots storage).drop split) ≠ [] := by
      refine joinDots_nonempty (fun empty => ?_) fun part member => ?_
      · have := congrArg List.length empty
        simp only [List.length_drop, List.length_nil] at this
        omega
      · exact of_decide_eq_true (List.mem_filter.mp (List.mem_of_mem_drop member)).2
    cases ancestor : symbolic.baseId nested.segment nested.func (joinDots ((splitDots storage).take split)) with
    | none => simp [ancestor] at row
    | some ancestorId =>
      rw [ancestor] at row
      simp only [List.mem_cons, List.not_mem_nil, or_false] at row
      have both : ∀ spec, spec = ⟨nestedId,ancestorId,joinDots ((splitDots storage).drop split),.prependPrefix⟩ ∨
          spec = ⟨ancestorId,nestedId,joinDots ((splitDots storage).drop split),.stripPrefix⟩ →
            spec ∈ rebaseSpecsOf symbolic nestedId nested := by
        intro spec made
        simp only [rebaseSpecsOf, text, List.mem_flatMap]
        refine ⟨split,inside,?_⟩
        rw [ancestor]
        simpa using made
      rcases row with rfl | rfl
      · exact ⟨⟨nested,nestedId,entry,both _ (.inr rfl)⟩,named⟩
      · exact ⟨⟨nested,nestedId,entry,both _ (.inl rfl)⟩,named⟩

theorem mem_rebases {specs : SortedRows RebaseSpec} {fields : SortedRows Text} {rebase : SymbolicBaseRebase} :
    rebase ∈ (rebasesFromSpecs specs fields).get base ↔ ∃ spec ∈ specs, spec.source = base ∧
      fields.rows[rebase.prefixId]? = some spec.prefixText ∧ rebase.target = spec.target ∧ rebase.kind = spec.kind := by
  simp only [GroupedRows.mem_get, rebasesFromSpecs, SortedRows.mem_ofList, List.mem_filterMap, Option.map_eq_some_iff,
    Prod.mk.injEq, idxOf_iff, SortedRows.mem_rows]
  refine exists_congr fun spec => and_congr_right fun _ => ?_
  constructor
  · intro found
    obtain ⟨prefixId,named,same,rfl⟩ := found
    exact ⟨same,named,rfl,rfl⟩
  · intro found
    obtain ⟨same,named,target,kind⟩ := found
    refine ⟨rebase.prefixId,named,same,?_⟩
    rw [← target, ← kind]

theorem rebase_back {rebase : SymbolicBaseRebase}
    (row : rebase ∈ (buildSymbolicRuntimeIndex workspace (buildUnified workspace) scope).baseRebases.get base) :
    ∃ back ∈ (buildSymbolicRuntimeIndex workspace (buildUnified workspace) scope).baseRebases.get rebase.target,
      back.target = base ∧ ∀ field field',
        (buildSymbolicRuntimeIndex workspace (buildUnified workspace) scope).rebasedField rebase field = some field' →
          (buildSymbolicRuntimeIndex workspace (buildUnified workspace) scope).rebasedField back field' = some field := by
  obtain ⟨spec,member,rfl,named,target,kind⟩ := mem_rebases.mp row
  obtain ⟨back,nonempty⟩ := rebaseSpecs_back member
  refine ⟨⟨spec.source,rebase.prefixId,rebase.kind.back⟩,mem_rebases.mpr ⟨spec.back,back,target.symm,named,rfl,?_⟩,rfl,?_⟩
  · rw [kind]
    rfl
  · have lead : (buildSymbolicRuntimeIndex workspace (buildUnified workspace) scope).field rebase.prefixId =
        some spec.prefixText := named
    intro field field' known
    exact @rebasedField_back _ rebase ⟨spec.source,rebase.prefixId,rebase.kind.back⟩ _ lead nonempty rfl rfl _ _ known

theorem mem_scalarWriteRows {span : Span} :
    ((base,span),node) ∈ scalarWriteRows workspace (segmentBasesOf workspace) scope ↔
      ∃ visited ∈ scopedNodes workspace scope, ∃ isRead,
        storageBase workspace (segmentBasesOf workspace) visited = some (node,base,some span,isRead) := by
  simp only [scalarWriteRows, List.mem_filterMap]
  refine exists_congr fun visited => and_congr_right fun _ => ?_
  rcases storageBase workspace (segmentBasesOf workspace) visited with _ | ⟨node',base',_ | span',isRead⟩
  · simp
  · simp
  · simp only [Option.some.injEq, Prod.mk.injEq]
    constructor
    · intro same
      obtain ⟨⟨rfl,rfl⟩,rfl⟩ := same
      exact ⟨isRead,rfl,rfl,rfl,rfl⟩
    · intro same
      obtain ⟨_,rfl,rfl,rfl,_⟩ := same
      exact ⟨⟨rfl,rfl⟩,rfl⟩

theorem mem_bareReadRows :
    (base,node) ∈ bareReadRows workspace (segmentBasesOf workspace) scope ↔
      ∃ visited ∈ scopedNodes workspace scope, ∃ span,
        storageBase workspace (segmentBasesOf workspace) visited = some (node,base,span,true) := by
  simp only [bareReadRows, List.mem_filterMap]
  refine exists_congr fun visited => and_congr_right fun _ => ?_
  rcases storageBase workspace (segmentBasesOf workspace) visited with _ | ⟨node',base',span',_ | _⟩
  · simp
  · simp
  · simp only [Option.some.injEq, Prod.mk.injEq]
    constructor
    · intro same
      obtain ⟨rfl,rfl⟩ := same
      exact ⟨span',rfl,rfl,rfl,trivial⟩
    · intro same
      obtain ⟨_,rfl,rfl,_⟩ := same
      exact ⟨rfl,rfl⟩

theorem storageBase_parts {span : Option Span} {isRead : Bool}
    (found : storageBase workspace (segmentBasesOf workspace) visited = some (node,base,span,isRead)) :
    wsNodeForSegmentBases (segmentBasesOf workspace) visited.segmentId visited.localNode = some node ∧
      (∃ parts, visited.storage = some (parts,span,isRead)) ∧
        (workspace.symbolicField.bases[base]?).map (·.func) = some visited.node.func := by
  unfold storageBase at found
  simp only [Option.bind_eq_bind, Option.bind_eq_some_iff, Option.pure_def, Option.some.injEq, Prod.mk.injEq] at found
  obtain ⟨⟨parts,span',isRead'⟩,storage,node',placed,base',known,rfl,rfl,rfl,rfl⟩ := found
  exact ⟨placed,⟨parts,storage⟩,baseId_owner known⟩

end

section
variable {workspace : IdgWorkspace} {allowed : FuncScope} {globalContextual globalSymbolic : Bool}
variable {base : Nat}
variable {node : NodeId}

theorem cached_lacksInverse (readable : workspace.Readable) {visited : ScopedNode}
    (member : visited ∈ scopedNodes workspace (cachedScope globalSymbolic allowed))
    (placed : wsNodeForSegmentBases (segmentBasesOf workspace) visited.segmentId visited.localNode = some node)
    (projected : projectedPlace visited.segment visited.place = true)
    (unaddressed : (buildUnified workspace).wsAddress node = none) :
    (cachedRuntimes workspace globalContextual globalSymbolic allowed).lacksInverse node = true := by
  have noFacts : (cachedRuntimes workspace globalContextual globalSymbolic allowed).runtime.symbolicFactsForNode
      (buildUnified workspace) node = [] := by
    unfold SymbolicRuntimeIndex.symbolicFactsForNode
    rw [unaddressed]
  have isProjected := (visited_placed readable member placed).projected (mem_scopedNodes.mp member).2.1
  unfold QueryRuntimes.lacksInverse
  change (((cachedRuntimes workspace globalContextual globalSymbolic allowed).runtime.symbolicFactsForNode
    (buildUnified workspace) node).isEmpty && (buildUnified workspace).isProjected node) = true
  rw [noFacts, isProjected]
  exact projected

theorem cached_exactRead (readable : workspace.Readable) {field : Nat}
    (read : node ∈ (cachedRuntimes workspace globalContextual globalSymbolic allowed).runtime.exactReads.get (base,field)) :
    (cachedRuntimes workspace globalContextual globalSymbolic allowed).lacksInverse node = true ∨
      ∃ identity ∈ (cachedRuntimes workspace globalContextual globalSymbolic allowed).runtime.symbolicFactsForNode
        (buildUnified workspace) node, identity.base = base ∧ identity.field = field := by
  obtain ⟨⟨_,_,isRead⟩,row,same⟩ := List.mem_map.mp (SortedRows.mem_ofList.mp (GroupedRows.mem_get.mp read))
  cases same
  obtain ⟨visited,member,placed,⟨template,fact,same⟩,_⟩ := mem_projectedFacts.mp (List.mem_of_mem_filter row)
  cases same
  rcases wsAddress_of_placed readable member placed with unaddressed | address
  · exact .inl (cached_lacksInverse readable member placed (pageFacts_projected fact) unaddressed)
  · refine .inr ⟨template.identity,?_,rfl,rfl⟩
    have facts := symbolicFacts_visited member address
    exact facts ▸ List.mem_map_of_mem fact

theorem cached_introduced {identity : SymbolicFactIdentity}
    (fact : identity ∈ (cachedRuntimes workspace globalContextual globalSymbolic allowed).runtime.symbolicFactsForNode
      (buildUnified workspace) node) :
    node ∈ (cachedRuntimes workspace globalContextual globalSymbolic allowed).runtime.factSources.get
      (identity.base,identity.field) := by
  obtain ⟨visited,member,placed,template,row,rfl⟩ := symbolicFacts_source fact
  have projected := mem_projectedFacts.mpr ⟨visited,member,placed,⟨template,row,rfl⟩,rfl⟩
  exact GroupedRows.mem_get.mpr (SortedRows.mem_ofList.mpr (List.mem_map.mpr ⟨_,projected,rfl⟩))

section
variable (readable : workspace.Readable)
include readable

theorem cached_aggregateRead
    (read : node ∈ (cachedRuntimes workspace globalContextual globalSymbolic allowed).runtime.aggregateReads.get base)
    (insideBase : ((cachedRuntimes workspace globalContextual globalSymbolic allowed).baseFunc base).any allowed.admits = true)
    (insideNode : ((buildUnified workspace).wsNodeFunc node).any allowed.admits = true) :
    ∃ source ∈ (cachedRuntimes workspace globalContextual globalSymbolic allowed).runtime.aggregateInputs.get node,
      (cachedRuntimes workspace globalContextual globalSymbolic allowed).runtime.storageReadBase source = some base ∧
        (buildUnified workspace).wsNodeFunc source =
          (cachedRuntimes workspace globalContextual globalSymbolic allowed).baseFunc base := by
  have row := List.mem_of_mem_filter (SortedRows.mem_ofList.mp (GroupedRows.mem_get.mp read))
  obtain ⟨⟨source,target⟩,edge,made⟩ := List.mem_filterMap.mp row
  obtain ⟨base',bare,same⟩ := Option.map_eq_some_iff.mp made
  cases same
  obtain ⟨⟨_,_⟩,listed,same⟩ := List.mem_map.mp (mem_of_lookup bare)
  cases same
  obtain ⟨visited,member,span,found⟩ := mem_bareReadRows.mp listed
  obtain ⟨placed,_,owner⟩ := storageBase_parts found
  have owned : (buildUnified workspace).wsNodeFunc source = (workspace.symbolicField.bases[base]?).map (·.func) :=
    (visited_func readable member placed).trans owner.symm
  refine ⟨source,GroupedRows.mem_get.mpr (SortedRows.mem_ofList.mpr (List.mem_map.mpr ⟨(source,node),?_,rfl⟩)),bare,owned⟩
  refine List.mem_filter.mpr ⟨edge,?_⟩
  have inScope : ∀ place : NodeId, ((buildUnified workspace).wsNodeFunc place).any allowed.admits = true →
      nodeOwnedByAllowed (some (buildUnified workspace)) (cachedScope globalSymbolic allowed) place = true := by
    intro place inside
    cases globalSymbolic with
    | true => rfl
    | false =>
      cases allowed with
      | none => rfl
      | some funcs => exact inside
  rw [Bool.and_eq_true]
  refine ⟨inScope source ?_,inScope node insideNode⟩
  rw [owned]
  exact insideBase

theorem cached_scalarWrite {span : Span}
    (written : node ∈ (cachedRuntimes workspace globalContextual globalSymbolic allowed).runtime.scalarWrites.get (base,span)) :
    ∃ spanId, (cachedRuntimes workspace globalContextual globalSymbolic allowed).runtime.storageWriteIdentity node =
        some (base,spanId) ∧
      (cachedRuntimes workspace globalContextual globalSymbolic allowed).runtime.span spanId = some span := by
  have row := SortedRows.mem_ofList.mp (GroupedRows.mem_get.mp written)
  obtain ⟨visited,member,isRead,found⟩ := mem_scalarWriteRows.mp row
  obtain ⟨placed,⟨parts,storage⟩,_⟩ := storageBase_parts found
  have listed : span ∈ (symbolicSpans workspace (cachedScope globalSymbolic allowed)).rows := by
    refine SortedRows.mem_ofList.mpr (List.mem_append_left _ (List.mem_filterMap.mpr ⟨(parts,some span,isRead),?_,rfl⟩))
    exact List.mem_filterMap.mpr ⟨visited,member,storage⟩
  obtain ⟨spanId,known⟩ := Option.isSome_iff_exists.mp (List.isSome_idxOf?.mpr listed)
  have spanKnown : (symbolicSpans workspace (cachedScope globalSymbolic allowed)).rows[spanId]? = some span := by
    obtain ⟨inside,same,_⟩ := List.findIdx?_eq_some_iff_getElem.mp known
    rw [List.getElem?_eq_getElem inside, eq_of_beq same]
  refine ⟨spanId,?_,spanKnown⟩
  have unique : ∀ target spanId', (node,target,spanId') ∈
      (cachedRuntimes workspace globalContextual globalSymbolic allowed).runtime.storageWrites →
        (target,spanId') = (base,spanId) := by
    intro target spanId' listed'
    obtain ⟨⟨⟨_,span'⟩,_⟩,row',made⟩ := List.mem_filterMap.mp listed'
    obtain ⟨_,known',same⟩ := Option.map_eq_some_iff.mp made
    cases same
    obtain ⟨visited',member',_,found'⟩ := mem_scalarWriteRows.mp row'
    have same := visited_unique readable member' member (storageBase_parts found').1 placed
    subst same
    rw [found] at found'
    cases found'
    rw [known] at known'
    cases known'
    rfl
  have present : (node,base,spanId) ∈ (cachedRuntimes workspace globalContextual globalSymbolic allowed).runtime.storageWrites :=
    List.mem_filterMap.mpr ⟨((base,span),node),row,Option.map_eq_some_iff.mpr ⟨spanId,known,rfl⟩⟩
  cases lookup : (cachedRuntimes workspace globalContextual globalSymbolic allowed).runtime.storageWrites.lookup node with
  | none =>
    have absent := List.lookup_eq_none_iff.mp lookup _ present
    simp at absent
  | some identity =>
    have same := unique identity.1 identity.2 (mem_of_lookup lookup)
    exact lookup.trans (congrArg some same)

theorem cached_scalarReturn {field : Nat}
    {transform : SymbolicFieldTransform}
    (row : transform ∈ (cachedRuntimes workspace globalContextual globalSymbolic allowed).runtime.outgoing base)
    (scalar : transform.kind = .scalarReturn)
    (same : ((cachedRuntimes workspace globalContextual globalSymbolic allowed).program
      (cachedRuntimes workspace globalContextual globalSymbolic allowed).unrestrictedPolicy).scalarMatches transform field = true)
    (written : node ∈ (cachedRuntimes workspace globalContextual globalSymbolic allowed).runtime.scalarWrites.get
      (transform.target,transform.writeSpan)) :
    ⟨.fact base field,.provides ((cachedRuntimes workspace globalContextual globalSymbolic allowed).baseFunc base)⟩ ∈
      (cachedRuntimes workspace globalContextual globalSymbolic allowed).scalarDemands node := by
  obtain ⟨spanId,identity,span⟩ := cached_scalarWrite readable written
  obtain ⟨admitted,source⟩ := List.mem_filter.mp row
  unfold QueryRuntimes.scalarDemands
  rw [identity]
  dsimp only
  rw [span]
  refine List.mem_filterMap.mpr ⟨⟨transform.target,transform.writeSpan,base,transform.exactField⟩,?_,?_⟩
  · refine List.mem_filter.mpr ⟨SortedRows.mem_ofList.mpr (List.mem_map.mpr ⟨transform,?_,?_⟩),by simp⟩
    · exact List.mem_filter.mpr ⟨admitted,decide_eq_true scalar⟩
    · rw [of_decide_eq_true source]
  · unfold ClosureProgram.scalarMatches at same
    split at same
    · next expected actual text known =>
      have equal : expected = actual := of_decide_eq_true same
      subst equal
      have named : (cachedRuntimes workspace globalContextual globalSymbolic allowed).runtime.fieldId expected = some field :=
        fieldId_iff.mpr known
      have exact' : transform.exactField.bind
          (cachedRuntimes workspace globalContextual globalSymbolic allowed).symbolic.string = some expected := text
      simp only [exact', Option.bind_some, named, Option.map_some]
    · cases same

theorem cachedRuntimes_invertible :
    (cachedRuntimes workspace globalContextual globalSymbolic allowed).Invertible allowed where
  reach edge := GroupedRows.mem_get.mpr (SortedRows.mem_ofList.mpr
    (List.mem_map.mpr ⟨(_,_),SortedRows.mem_ofList.mp (GroupedRows.mem_get.mp edge),rfl⟩))
  heap edge := GroupedRows.mem_get.mpr (SortedRows.mem_ofList.mpr
    (List.mem_map.mpr ⟨(_,_),SortedRows.mem_ofList.mp (GroupedRows.mem_get.mp edge),rfl⟩))
  calls edge := GroupedRows.mem_get.mpr (SortedRows.mem_ofList.mpr (List.mem_map.mpr ⟨(_,_),
    List.mem_map.mpr ⟨(_,⟨_,_⟩),SortedRows.mem_ofList.mp (GroupedRows.mem_get.mp edge),rfl⟩,rfl⟩))
  returns edge := GroupedRows.mem_get.mpr (SortedRows.mem_ofList.mpr (List.mem_map.mpr ⟨(_,_),
    List.mem_map.mpr ⟨(_,⟨_,_⟩),SortedRows.mem_ofList.mp (GroupedRows.mem_get.mp edge),rfl⟩,rfl⟩))
  aggregate edge := GroupedRows.mem_get.mpr (SortedRows.mem_ofList.mpr
    (List.mem_map.mpr ⟨(_,_),SortedRows.mem_ofList.mp (GroupedRows.mem_get.mp edge),rfl⟩))
  introduced fact := cached_introduced fact
  exactRead read := cached_exactRead readable read
  aggregateRead read insideBase insideNode := cached_aggregateRead readable read insideBase insideNode
  rebase row := rebase_back row
  transform row whole := by
    obtain ⟨admitted,source⟩ := List.mem_filter.mp row
    refine List.mem_filter.mpr ⟨SortedRows.mem_ofList.mpr (List.mem_map.mpr ⟨_,List.mem_filter.mpr ⟨admitted,?_⟩,?_⟩),by simp⟩
    · exact decide_eq_true whole
    · rw [of_decide_eq_true source]
  scalarReturn row scalar same written := cached_scalarReturn readable row scalar same written

end

end

end BonsaiNinja.Idg
