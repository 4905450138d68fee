import BonsaiNinja.Idg.DemandPruning

namespace BonsaiNinja.Idg
open Library

def spannedFacts (workspace : IdgWorkspace) (allowed : FuncScope) (visited : ScopedNode) : List SymbolicFactTemplate :=
  match visited.storage with
  | none => []
  | some (parts,writeSpan,_) =>
    (accessPaths parts).filterMap fun (baseText,fieldText) => do
      let base ← workspace.symbolicField.baseId visited.segmentId visited.node.func baseText
      let field ← (symbolicFields workspace allowed).rows.idxOf? fieldText
      pure ⟨base,field,writeSpan.bind (symbolicSpans workspace allowed).rows.idxOf?⟩

def spannedPage (workspace : IdgWorkspace) (allowed : FuncScope) (view : SegmentId × IdgSegment) :
    List (List SymbolicFactTemplate) :=
  view.2.nodes.zipIdx.map fun (node,localNode) =>
    if allowed.admits node.func then spannedFacts workspace allowed ⟨view.1,view.2,localNode,node⟩ else []

def spannedPages (workspace : IdgWorkspace) (allowed : FuncScope) : IdMap (List (List SymbolicFactTemplate)) :=
  (scopedViews workspace allowed).foldl (fun pages view => pages.insert view.1 (spannedPage workspace allowed view)) ∅

-- The index with every base ordering-sensitive. Only the provenance of facts reads
-- which bases are.
def SymbolicRuntimeIndex.keepingSpans (runtime : SymbolicRuntimeIndex) (baseCount : Nat)
    (pages : IdMap (List (List SymbolicFactTemplate))) : SymbolicRuntimeIndex :=
  { runtime with orderingSensitiveBases := List.range baseCount, factPages := pages }

def ClosureProgram.keepingSpans (program : ClosureProgram) (pages : IdMap (List (List SymbolicFactTemplate))) : ClosureProgram :=
  { program with runtime := program.runtime.keepingSpans program.symbolic.bases.length pages }

def spannedRuntimes (workspace : IdgWorkspace) (globalContextual globalSymbolic : Bool) (allowed : FuncScope) : QueryRuntimes :=
  { cachedRuntimes workspace globalContextual globalSymbolic allowed with
    runtime := (cachedRuntimes workspace globalContextual globalSymbolic allowed).runtime.keepingSpans
      workspace.symbolicField.bases.length (spannedPages workspace (cachedScope globalSymbolic allowed)) }

def SymbolicRuntimeIndex.forget (runtime : SymbolicRuntimeIndex) (identity : SymbolicFactIdentity) : SymbolicFactIdentity :=
  if runtime.retainsLocalProvenance identity.base then identity else ⟨identity.base,identity.field,.unordered⟩

section
variable {workspace : IdgWorkspace} {scope : FuncScope}

def forgetTemplate (workspace : IdgWorkspace) (scope : FuncScope) (template : SymbolicFactTemplate) : SymbolicFactTemplate :=
  ⟨template.base,template.field,if (orderingSensitive workspace scope).contains template.base then template.span else none⟩

theorem forgetTemplate_identity (template : SymbolicFactTemplate) : (forgetTemplate workspace scope template).identity =
    (buildSymbolicRuntimeIndex workspace (buildUnified workspace) scope).forget template.identity := by
  unfold forgetTemplate SymbolicRuntimeIndex.forget SymbolicFactTemplate.identity
  change _ = if (orderingSensitive workspace scope).contains template.base = true then _ else _
  by_cases sensitive : (orderingSensitive workspace scope).contains template.base = true
  · simp only [sensitive, if_true]
  · simp only [sensitive, Bool.false_eq_true, if_false]
    rfl

theorem pageFacts_forget (visited : ScopedNode) : pageFacts workspace scope visited =
    (spannedFacts workspace scope visited).map (forgetTemplate workspace scope) := by
  unfold pageFacts spannedFacts
  cases visited.storage with
  | none => rfl
  | some storage =>
    obtain ⟨parts,writeSpan,isRead⟩ := storage
    simp only [List.map_filterMap]
    refine List.filterMap_congr fun path _ => ?_
    obtain ⟨baseText,fieldText⟩ := path
    dsimp only
    cases workspace.symbolicField.baseId visited.segmentId visited.node.func baseText with
    | none => rfl
    | some base =>
      cases (symbolicFields workspace scope).rows.idxOf? fieldText with
      | none => rfl
      | some field =>
        simp only [Option.bind_eq_bind, Option.bind_some, Option.pure_def, Option.map_some, forgetTemplate]
        by_cases sensitive : (orderingSensitive workspace scope).contains base = true
        · simp only [sensitive, if_true]
        · simp only [sensitive, Bool.false_eq_true, if_false]
          cases writeSpan <;> rfl

theorem page_forget (view : SegmentId × IdgSegment) : buildSymbolicFactPage workspace scope view =
    (spannedPage workspace scope view).map (List.map (forgetTemplate workspace scope)) := by
  unfold buildSymbolicFactPage spannedPage
  rw [List.map_map]
  refine List.map_congr_left fun entry _ => ?_
  simp only [Function.comp_apply]
  split
  · exact pageFacts_forget _
  · rfl

theorem foldl_insert_map {views : List (Nat × α)} {page : Nat × α → β} {f : β → γ} {mapped : Nat × α → γ}
    (same : ∀ view, mapped view = f (page view)) {start : IdMap β} {start' : IdMap γ}
    (before : ∀ id, start'.lookup id = (start.lookup id).map f) (id : Nat) :
    (views.foldl (fun pages view => pages.insert view.1 (mapped view)) start').lookup id =
      ((views.foldl (fun pages view => pages.insert view.1 (page view)) start).lookup id).map f := by
  induction views generalizing start start' with
  | nil => exact before id
  | cons view rest ih =>
    refine ih fun other => ?_
    by_cases key : other = view.1
    · rw [key, AList.lookup_insert, AList.lookup_insert, Option.map_some, same]
    · rw [AList.lookup_insert_ne key, AList.lookup_insert_ne key, before]

theorem pages_forget (id : SegmentId) : (factPages workspace scope).lookup id =
    ((spannedPages workspace scope).lookup id).map (List.map (List.map (forgetTemplate workspace scope))) :=
  foldl_insert_map page_forget (fun _ => rfl) id

theorem symbolicFacts_forget (node : NodeId) :
    (buildSymbolicRuntimeIndex workspace (buildUnified workspace) scope).symbolicFactsForNode (buildUnified workspace) node =
      (((buildSymbolicRuntimeIndex workspace (buildUnified workspace) scope).keepingSpans
        workspace.symbolicField.bases.length (spannedPages workspace scope)).symbolicFactsForNode (buildUnified workspace)
          node).map (buildSymbolicRuntimeIndex workspace (buildUnified workspace) scope).forget := by
  unfold SymbolicRuntimeIndex.symbolicFactsForNode
  cases (buildUnified workspace).wsAddress node with
  | none => rfl
  | some address =>
    obtain ⟨segmentId,localNode⟩ := address
    dsimp only
    rw [show (buildSymbolicRuntimeIndex workspace (buildUnified workspace) scope).factPages.lookup segmentId = _ from
      pages_forget segmentId]
    dsimp only [SymbolicRuntimeIndex.keepingSpans]
    cases (spannedPages workspace scope).lookup segmentId with
    | none => rfl
    | some page =>
      simp only [Option.map_some, List.getD_eq_getElem?_getD, List.getElem?_map, List.map_map]
      cases page[localNode]? with
      | none => rfl
      | some templates =>
        simp only [Option.map_some, Option.getD_some, List.map_map]
        exact List.map_congr_left fun template _ => forgetTemplate_identity template

end

namespace ClosureProgram
variable (program : ClosureProgram) (pages : IdMap (List (List SymbolicFactTemplate))) (seeds : List NodeId)
variable {transform : SymbolicFieldTransform}

def Drifts : SymbolicFactIdentity → SymbolicFactIdentity → Prop :=
  Relation.ReflTransGen fun i j => program.factAlgebra.rebases i j ∧ program.factAlgebra.keeps j

-- No fact whose base drops its span is rebased to a base that a transform of an
-- earlier site leaves.
def OrderKept : Prop := ∀ origin context moved transform,
  .fact ⟨origin,context⟩ ∈ ((program.keepingSpans pages).rules seeds).least →
    program.runtime.retainsLocalProvenance origin.base = false → program.Drifts origin moved →
      transform ∈ program.runtime.outgoing moved.base → program.writtenAfter transform moved = false

variable {program} {pages} {seeds}

theorem keepingSpans_frame : SameFrame program (program.keepingSpans pages) := ⟨rfl,rfl,rfl,rfl⟩

theorem writtenAfter_unordered {base field : Nat} :
    program.writtenAfter transform ⟨base,field,.unordered⟩ = false := by
  unfold writtenAfter
  simp [SymbolicProvenance.spanId]

theorem writtenAfter_provenance {i j : SymbolicFactIdentity}
    (same : i.provenance = j.provenance) : program.writtenAfter transform i = program.writtenAfter transform j := by
  unfold writtenAfter
  rw [same]

theorem keepingSpans_retains {base : Nat} (inside : base < program.symbolic.bases.length) :
    (program.keepingSpans pages).runtime.retainsLocalProvenance base = true :=
  List.contains_iff_mem.mpr (List.mem_range.mpr inside)

theorem transformedIdentity_forget {field : Nat}
    (inside : transform.target < program.symbolic.bases.length) :
    (program.transformedIdentity transform field).provenance =
        ((program.keepingSpans pages).transformedIdentity transform field).provenance ∨
      (program.transformedIdentity transform field).provenance = .unordered ∧
        program.runtime.retainsLocalProvenance transform.target = false := by
  unfold transformedIdentity
  dsimp only
  by_cases copied : transform.kind = .copy
  · unfold SymbolicRuntimeIndex.localProvenanceId
    rw [if_pos (keepingSpans_retains inside)]
    by_cases retains : program.runtime.retainsLocalProvenance transform.target = true
    · rw [if_pos retains]
      exact .inl rfl
    · rw [if_neg retains]
      refine .inr ⟨?_,Bool.eq_false_iff.mpr retains⟩
      simp [copied,SymbolicProvenance.of]
  · left
    simp [copied,SymbolicProvenance.of]

def IntroducesForgotten (program : ClosureProgram) (pages : IdMap (List (List SymbolicFactTemplate))) : Prop := ∀ node,
  program.runtime.symbolicFactsForNode program.unified node =
    ((program.keepingSpans pages).runtime.symbolicFactsForNode program.unified node).map program.runtime.forget

theorem forget_provenance (runtime : SymbolicRuntimeIndex) (identity : SymbolicFactIdentity) :
    (runtime.forget identity).base = identity.base ∧ (runtime.forget identity).field = identity.field ∧
      ((runtime.forget identity).provenance = identity.provenance ∨
        (runtime.forget identity).provenance = .unordered ∧ runtime.retainsLocalProvenance identity.base = false) := by
  unfold SymbolicRuntimeIndex.forget
  split
  · exact ⟨rfl,rfl,.inl rfl⟩
  · next dropped => exact ⟨rfl,rfl,.inr ⟨rfl,Bool.eq_false_iff.mpr dropped⟩⟩

theorem drifts_derived {i j : SymbolicFactIdentity} {context : CallContext}
    (fact : .fact ⟨i,context⟩ ∈ ((program.keepingSpans pages).rules seeds).least) (drifts : program.Drifts i j) :
    .fact ⟨j,context⟩ ∈ ((program.keepingSpans pages).rules seeds).least := by
  induction drifts with
  | refl => exact fact
  | tail _ step previous =>
    refine (derived_iff (a := .fact _ context)).mpr (Rules.least_closed _ (.rebase ?_ step.1 step.2))
    exact (derived_iff (a := .fact _ context)).mp previous

-- It is enough that no derived fact meets a transform of an earlier site.
theorem orderKept_of_derived
    (early : ∀ i context, .fact ⟨i,context⟩ ∈ ((program.keepingSpans pages).rules seeds).least →
      ∀ transform ∈ program.runtime.outgoing i.base, program.writtenAfter transform i = false) :
    program.OrderKept pages seeds := by
  intro origin context moved transform fact _ drifts row
  exact early moved context (drifts_derived fact drifts) transform row

structure Forgets (i j : SymbolicFactIdentity) : Prop where
  base : i.base = j.base
  field : i.field = j.field
  provenance : i.provenance = j.provenance ∨ i.provenance = .unordered

theorem Forgets.passes {i j : SymbolicFactIdentity} (forgets : Forgets i j)
    (passes : (program.keepingSpans pages).factAlgebra.passes j transform) : program.factAlgebra.passes i transform := by
  obtain ⟨row,ordered,relevant⟩ := passes
  obtain ⟨base,field,provenance⟩ := forgets
  refine ⟨base ▸ row,?_,fun kind => field ▸ relevant kind⟩
  rcases provenance with same | none
  · exact (writtenAfter_provenance same).trans ordered
  · exact (writtenAfter_provenance (j := ⟨0,0,.unordered⟩) none).trans writtenAfter_unordered

theorem Forgets.rebases {i j j' : SymbolicFactIdentity} (forgets : Forgets i j) (rebased : program.factAlgebra.rebases j j') :
    program.factAlgebra.rebases i ⟨j'.base,j'.field,i.provenance⟩ := by
  obtain ⟨rebase,row,field,found,rfl⟩ := rebased
  exact ⟨rebase,forgets.base ▸ row,field,forgets.field ▸ found,rfl⟩

theorem Forgets.reads {i j : SymbolicFactIdentity} {node : NodeId} (forgets : Forgets i j) :
    program.factAlgebra.reads i node ↔ program.factAlgebra.reads j node := by
  obtain ⟨base,field,provenance⟩ := i
  obtain ⟨base',field',provenance'⟩ := j
  obtain ⟨rfl,rfl,_⟩ := forgets
  exact Iff.rfl

inductive Unsettled (program : ClosureProgram) (pages : IdMap (List (List SymbolicFactTemplate))) (seeds : List NodeId)
    (j : SymbolicFactIdentity) : Prop
  | here (dropped : program.runtime.retainsLocalProvenance j.base = false) : Unsettled program pages seeds j
  | before (fact : .fact ⟨origin,context⟩ ∈ ((program.keepingSpans pages).rules seeds).least)
      (dropped : program.runtime.retainsLocalProvenance origin.base = false) (drifts : program.Drifts origin j) :
      Unsettled program pages seeds j

theorem Unsettled.rebased {j j' : SymbolicFactIdentity} {context : CallContext} (unsettled : Unsettled program pages seeds j)
    (fact : .fact ⟨j,context⟩ ∈ ((program.keepingSpans pages).rules seeds).least) (rebased : program.factAlgebra.rebases j j')
    (kept : program.factAlgebra.keeps j') : Unsettled program pages seeds j' := by
  cases unsettled with
  | here dropped => exact .before fact dropped (.single ⟨rebased,kept⟩)
  | before fact dropped drifts => exact .before fact dropped (drifts.tail ⟨rebased,kept⟩)

theorem unsettled_passes (ordered' : program.OrderKept pages seeds) {i j : SymbolicFactIdentity} {context : CallContext}
    (fact : .fact ⟨j,context⟩ ∈ ((program.keepingSpans pages).rules seeds).least)
    (forgets : Forgets i j) (settled : i.provenance = j.provenance ∨ Unsettled program pages seeds j)
    (passes : program.factAlgebra.passes i transform) : (program.keepingSpans pages).factAlgebra.passes j transform := by
  obtain ⟨row,ordered,relevant⟩ := passes
  have row' : transform ∈ program.runtime.outgoing j.base := forgets.base ▸ row
  refine ⟨row',?_,fun kind => forgets.field ▸ relevant kind⟩
  rcases settled with same | lost
  · exact (writtenAfter_provenance same).symm.trans ordered
  · cases lost with
    | here dropped => exact ordered' j context j transform fact dropped .refl row'
    | before fact dropped drifts => exact ordered' _ _ j transform fact dropped drifts row'

section
variable (facts : IntroducesForgotten program pages)
include facts

theorem spanned_simulates : FactAlgebra.Simulates (program.keepingSpans pages).factAlgebra program.factAlgebra
    (program.keepingSpans pages) (fun j i => Forgets i j) (fun _ => True)
    ((program.keepingSpans pages).factAlgebra.rules (program.keepingSpans pages) seeds).least
    (program.factAlgebra.rules program seeds).least where
  introduced {node j} introduced kept _ := by
    obtain ⟨base,field,provenance⟩ := forget_provenance program.runtime j
    refine ⟨program.runtime.forget j,⟨base,field,provenance.imp_right (·.1)⟩,?_,?_⟩
    · change _ ∈ program.runtime.symbolicFactsForNode program.unified node
      rw [facts node]
      exact List.mem_map_of_mem introduced
    · change program.factIsRelevant _ _ = true
      rw [base, field]
      exact kept
  keeps {j i} forgets kept := by
    change program.factIsRelevant i.base i.field = true
    rw [forgets.base, forgets.field]
    exact kept
  rebased {j context j'} _ matched rebased kept _ := by
    obtain ⟨i,forgets,member⟩ := matched trivial
    have moved : program.factAlgebra.rebases j j' := rebased
    refine ⟨i,⟨j'.base,j'.field,i.provenance⟩,member,⟨rfl,rfl,?_⟩,forgets.rebases moved⟩
    obtain ⟨rebase,row,field,found,rfl⟩ := moved
    exact forgets.provenance
  reads _ matched read := by
    obtain ⟨i,forgets,member⟩ := matched trivial
    exact ⟨i,member,forgets.reads.mpr read⟩
  scalar _ matched passes kind written := by
    obtain ⟨i,forgets,member⟩ := matched trivial
    refine ⟨i,member,forgets.passes passes,?_⟩
    change program.scalarMatches _ i.field = true ∧ _
    rw [forgets.field]
    exact written
  carried {j context transform} _ matched passes kind target _ := by
    obtain ⟨i,forgets,member⟩ := matched trivial
    have inside : transform.target < program.symbolic.bases.length := targetActive_inside target
    have provenance : _ = ((program.keepingSpans pages).transformedIdentity transform j.field).provenance ∨ _ :=
      transformedIdentity_forget inside
    refine ⟨i,member,forgets.passes passes,rfl,forgets.field,?_⟩
    change (program.transformedIdentity transform i.field).provenance = _ ∨ _
    rw [forgets.field]
    exact provenance.imp_right (·.1)
  entered _ matched passes _ _ _ := by
    obtain ⟨i,forgets,member⟩ := matched trivial
    exact ⟨i,member,forgets.passes passes⟩

theorem unspanned_simulates (ordered' : program.OrderKept pages seeds) :
    FactAlgebra.Simulates program.factAlgebra (program.keepingSpans pages).factAlgebra program
      (fun i j => Forgets i j ∧ (i.provenance = j.provenance ∨ program.Unsettled pages seeds j)) (fun _ => True)
      (program.factAlgebra.rules program seeds).least
      ((program.keepingSpans pages).factAlgebra.rules (program.keepingSpans pages) seeds).least where
  introduced {node i} introduced kept _ := by
    change i ∈ program.runtime.symbolicFactsForNode program.unified node at introduced
    rw [facts node] at introduced
    obtain ⟨j,written,rfl⟩ := List.mem_map.mp introduced
    obtain ⟨base,field,provenance⟩ := forget_provenance program.runtime j
    refine ⟨j,⟨⟨base,field,provenance.imp_right (·.1)⟩,provenance.imp_right fun dropped => .here dropped.2⟩,written,?_⟩
    change program.factIsRelevant j.base j.field = true
    change program.factIsRelevant _ _ = true at kept
    rwa [base, field] at kept
  keeps {i j} related kept := by
    change program.factIsRelevant j.base j.field = true
    rw [← related.1.base, ← related.1.field]
    exact kept
  rebased {i context i'} _ matched rebased kept _ := by
    obtain ⟨j,⟨forgets,settled⟩,member⟩ := matched trivial
    obtain ⟨rebase,row,field,found,rfl⟩ := rebased
    have moved : program.factAlgebra.rebases j ⟨rebase.target,field,j.provenance⟩ :=
      ⟨rebase,forgets.base ▸ row,field,forgets.field ▸ found,rfl⟩
    refine ⟨j,⟨rebase.target,field,j.provenance⟩,member,⟨⟨rfl,rfl,forgets.provenance⟩,settled.imp_right fun lost => ?_⟩,moved⟩
    exact lost.rebased ((derived_iff (a := .fact j context)).mpr member) moved kept
  reads _ matched read := by
    obtain ⟨j,⟨forgets,_⟩,member⟩ := matched trivial
    exact ⟨j,member,forgets.reads.mp read⟩
  scalar {i context transform node} _ matched passes kind written := by
    obtain ⟨j,⟨forgets,settled⟩,member⟩ := matched trivial
    refine ⟨j,member,unsettled_passes ordered' ((derived_iff (a := .fact j context)).mpr member) forgets settled passes,?_⟩
    change program.scalarMatches transform j.field = true ∧ _
    rw [← forgets.field]
    exact written
  carried {i context transform} _ matched passes kind target _ := by
    obtain ⟨j,⟨forgets,settled⟩,member⟩ := matched trivial
    have inside : transform.target < program.symbolic.bases.length := targetActive_inside target
    have provenance : (program.transformedIdentity transform i.field).provenance =
        ((program.keepingSpans pages).transformedIdentity transform i.field).provenance ∨ _ := transformedIdentity_forget inside
    refine ⟨j,member,unsettled_passes ordered' ((derived_iff (a := .fact j context)).mpr member) forgets settled passes,?_⟩
    change Forgets (program.transformedIdentity transform i.field)
      ((program.keepingSpans pages).transformedIdentity transform j.field) ∧ _
    rw [← forgets.field]
    exact ⟨⟨rfl,rfl,provenance.imp_right (·.1)⟩,provenance.imp_right fun dropped => .here dropped.2⟩
  entered {i context transform key} _ matched passes _ _ _ := by
    obtain ⟨j,⟨forgets,settled⟩,member⟩ := matched trivial
    exact ⟨j,member,unsettled_passes ordered' ((derived_iff (a := .fact j context)).mpr member) forgets settled passes⟩

theorem spans_reaches (ordered' : program.OrderKept pages seeds) (node : NodeId) : program.factAlgebra.Reaches program seeds node ↔
    (program.keepingSpans pages).factAlgebra.Reaches (program.keepingSpans pages) seeds node :=
  ⟨(unspanned_simulates facts ordered').reaches keepingSpans_frame,
    (spanned_simulates facts).reaches keepingSpans_frame.symm⟩

end

end ClosureProgram

theorem QueryRuntimes.forwardClosure_nodes (runtimes : QueryRuntimes) (seeds : List NodeId) : runtimes.forwardClosure seeds =
    ((runtimes.program runtimes.unrestrictedPolicy).closureRun seeds).nodes := by
  unfold QueryRuntimes.forwardClosure QueryRuntimes.symbolicForwardClosureNodes
  simp [SymbolicClosurePolicy.isOrdinary,QueryRuntimes.unrestrictedPolicy]

section
variable {workspace : IdgWorkspace} {globalContextual globalSymbolic : Bool} {allowed : FuncScope} {seeds : List NodeId}

theorem cachedRuntimes_forgets {policy : SymbolicClosurePolicy} :
    ClosureProgram.IntroducesForgotten ((cachedRuntimes workspace globalContextual globalSymbolic allowed).program policy)
      (spannedPages workspace (cachedScope globalSymbolic allowed)) := fun node => symbolicFacts_forget node

end

-- `z = a; a.b = q; a.b.c = p; sink(z.b.c)`, with the write of `a.b.c` at a chosen place.
def nestedWrite (start : Nat) : IdgWorkspace where
  segments := [{
    places := [.param 0,.read 0 [],.write 3 [] ⟨0,20,24⟩,.read 4 [],.write 0 [1] ⟨0,30,34⟩,.write 0 [1,2] ⟨0,start,start + 4⟩,
      .read 3 [1,2],.callArg ⟨⟨0,60,64⟩⟩ 0]
    nodes := [⟨0,0⟩,⟨0,1⟩,⟨0,2⟩,⟨0,3⟩,⟨0,4⟩,⟨0,5⟩,⟨0,6⟩,⟨0,7⟩]
    edges := [sampleEdge 1 2 .intraAssign 20,sampleEdge 3 4 .intraAssign 30,sampleEdge 0 5 .intraAssign start,
      sampleEdge 6 7 .intraRead 60]
    funcs := [0]
    strings := [['a'],['b'],['c'],['z'],['q']] }]
  querySidecar := none
  segmentSpool := none
  residentSegments := []
  crossFileSpool := none
  symbolicTransformSpool := none
  byFunc := AList.singleton 0 0
  crossFile := []
  symbolicField := ⟨[['a'],['a','.','b'],['z'],['q']],[⟨0,0,0⟩,⟨0,0,1⟩,⟨0,0,2⟩,⟨0,0,3⟩],
    [⟨0,2,none,⟨0,20,24⟩,⟨0,20,24⟩,.direct,.copy,none,none,false⟩,⟨3,1,none,⟨0,30,34⟩,⟨0,30,34⟩,.direct,.copy,none,none,false⟩]⟩

end BonsaiNinja.Idg
