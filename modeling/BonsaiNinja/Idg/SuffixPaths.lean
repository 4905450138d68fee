import BonsaiNinja.Idg.WriteProvenance

namespace BonsaiNinja.Idg
open Library

-- An access path `base.suffix` with its suffix spelled out.
structure PathFact where
  base : Nat
  suffix : Text
  provenance : SymbolicProvenance

def SplitAt (workspace : IdgWorkspace) (visited : ScopedNode) (span : Option Span) (isRead : Bool) (base : Nat) (suffix : Text) :
    Prop :=
  ∃ parts, visited.storage = some (parts,span,isRead) ∧ ∃ baseText, (baseText,suffix) ∈ accessPaths parts ∧
    workspace.symbolicField.baseId visited.segmentId visited.node.func baseText = some base

-- The rules of a closure over suffixes instead of their numbers. A rebase may be
-- confined to some suffixes.
def pathAlgebra (workspace : IdgWorkspace) (scope : FuncScope) (program : ClosureProgram) (spoken : Text → Prop) :
    FactAlgebra PathFact where
  keeps fact := fact.base ∈ program.fieldDemand
  introduces node fact := ∃ visited ∈ scopedNodes workspace scope,
    program.unified.wsAddress node = some (visited.segmentId,visited.localNode) ∧ ∃ span isRead,
      SplitAt workspace visited span isRead fact.base fact.suffix ∧
        fact.provenance = .of (span.bind (program.runtime.localProvenanceId fact.base)) false
  rebases fact next := ∃ spec ∈ rebaseSpecs program.symbolic, spec.source = fact.base ∧ spec.target = next.base ∧
    spec.kind.Renames spec.prefixText fact.suffix next.suffix ∧ spoken next.suffix ∧ next.provenance = fact.provenance
  reads fact node := (∃ visited ∈ scopedNodes workspace scope,
      wsNodeForSegmentBases program.unified.segmentBases visited.segmentId visited.localNode = some node ∧
        ∃ span, SplitAt workspace visited span true fact.base fact.suffix) ∨
    node ∈ program.runtime.aggregateReads.get fact.base
  passes fact transform := transform ∈ program.runtime.outgoing fact.base ∧
    program.writtenAfter transform ⟨fact.base,0,fact.provenance⟩ = false ∧
      (transform.kind ≠ .scalarReturn → transform.target ∈ program.fieldDemand)
  carried fact transform := ⟨transform.target,fact.suffix,(program.transformedIdentity transform 0).provenance⟩
  scalar fact transform node := transform.exactField.bind program.symbolic.string = some fact.suffix ∧
    node ∈ program.runtime.scalarWrites.get (transform.target,transform.writeSpan)

structure Denotes (runtime : SymbolicRuntimeIndex) (identity : SymbolicFactIdentity) (fact : PathFact) : Prop where
  base : identity.base = fact.base
  field : runtime.field identity.field = some fact.suffix
  provenance : identity.provenance = fact.provenance

section
variable {workspace : IdgWorkspace} {scope : FuncScope}
variable {visited : ScopedNode}

theorem mem_pageFacts {template : SymbolicFactTemplate} : template ∈ pageFacts workspace scope visited ↔
    ∃ span isRead suffix, SplitAt workspace visited span isRead template.base suffix ∧
      (symbolicFields workspace scope).rows[template.field]? = some suffix ∧
        template.span = span.bind ((buildSymbolicRuntimeIndex workspace (buildUnified workspace) scope).localProvenanceId
          template.base) := by
  unfold pageFacts SplitAt
  cases visited.storage with
  | none => simp
  | some storage =>
    obtain ⟨parts,writeSpan,isRead⟩ := storage
    simp only [List.mem_filterMap, Prod.exists, Option.bind_eq_bind, Option.bind_eq_some_iff, Option.pure_def,
      Option.some.injEq, Prod.mk.injEq]
    constructor
    · intro found
      obtain ⟨baseText,fieldText,path,base,based,field,named,rfl⟩ := found
      exact ⟨writeSpan,isRead,fieldText,⟨parts,⟨rfl,rfl,rfl⟩,baseText,path,based⟩,idxOf_iff.mp named,rfl⟩
    · intro found
      obtain ⟨span,isRead',suffix,⟨_,⟨rfl,rfl,rfl⟩,baseText,path,based⟩,named,spanned⟩ := found
      refine ⟨baseText,suffix,path,template.base,based,template.field,idxOf_iff.mpr named,?_⟩
      obtain ⟨base,field,templateSpan⟩ := template
      rw [show templateSpan = _ from spanned]
      rfl

theorem splitAt_interned (member : visited ∈ scopedNodes workspace scope) {span : Option Span}
    {isRead : Bool} {base : Nat} {suffix : Text} (at' : SplitAt workspace visited span isRead base suffix) :
    suffix ∈ symbolicFields workspace scope := by
  obtain ⟨parts,storage,baseText,path,_⟩ := at'
  refine SortedRows.mem_ofList.mpr (List.mem_append_left _ (List.mem_flatMap.mpr ⟨_,List.mem_filterMap.mpr ⟨visited,member,storage⟩,?_⟩))
  exact List.mem_map.mpr ⟨_,path,rfl⟩

theorem storage_isRead {parts : List Text} {span : Option Span} {isRead : Bool}
    (storage : visited.storage = some (parts,span,isRead)) :
    (visited.place.any fun place => place matches .read _ _) = isRead := by
  unfold ScopedNode.storage at storage
  obtain ⟨place,found,stored⟩ := Option.bind_eq_some_iff.mp storage
  rw [found]
  unfold structuredStorageParts at stored
  split at stored
  · simp only [Option.bind_eq_bind, Option.bind_eq_some_iff, Option.pure_def, Option.some.injEq, Prod.mk.injEq] at stored
    obtain ⟨_,_,_,_,_,_,rfl⟩ := stored
    rfl
  · simp only [Option.bind_eq_bind, Option.bind_eq_some_iff, Option.pure_def, Option.some.injEq, Prod.mk.injEq] at stored
    obtain ⟨_,_,_,_,_,_,rfl⟩ := stored
    rfl
  · cases stored

theorem denoted {runtime : SymbolicRuntimeIndex} {fact : PathFact} (interned : fact.suffix ∈ runtime.fields) :
    ∃ identity, Denotes runtime identity fact := by
  obtain ⟨field,inside,named⟩ := List.mem_iff_getElem.mp interned
  exact ⟨⟨fact.base,field,fact.provenance⟩,rfl,(List.getElem?_eq_getElem inside).trans (congrArg some named),rfl⟩

end

section
variable {workspace : IdgWorkspace} {scope : FuncScope} {policy : SymbolicClosurePolicy}
variable {node : NodeId} {identity : SymbolicFactIdentity} {fact : PathFact}

def Interned (workspace : IdgWorkspace) (scope : FuncScope) (suffix : Text) : Prop := suffix ∈ symbolicFields workspace scope

theorem demanded_iff {program : ClosureProgram} (unpruned : program.policy.targetRelevance = none) {base field : Nat} :
    program.factIsRelevant base field = true ↔ base ∈ program.fieldDemand := by
  unfold ClosureProgram.factIsRelevant
  rw [unpruned, Bool.and_true, List.contains_iff_mem]

theorem denotes_introduced
    (introduced : ((queryRuntimes workspace scope).program policy).factAlgebra.introduces node identity) :
    ∃ fact, Denotes (queryRuntimes workspace scope).runtime identity fact ∧ (pathAlgebra workspace scope
      ((queryRuntimes workspace scope).program policy) (Interned workspace scope)).introduces node fact := by
  obtain ⟨visited,member,address,template,row,rfl⟩ := symbolicFacts_addressed introduced
  obtain ⟨span,isRead,suffix,at',named,spanned⟩ := mem_pageFacts.mp row
  refine ⟨⟨template.base,suffix,.of template.span false⟩,⟨rfl,named,rfl⟩,visited,member,address,span,isRead,at',?_⟩
  rw [spanned]
  rfl

theorem introduced_denotes (introduced : (pathAlgebra workspace scope
      ((queryRuntimes workspace scope).program policy) (Interned workspace scope)).introduces node fact) :
    ∃ identity, Denotes (queryRuntimes workspace scope).runtime identity fact ∧
      ((queryRuntimes workspace scope).program policy).factAlgebra.introduces node identity := by
  obtain ⟨visited,member,address,span,isRead,at',provenance⟩ := introduced
  have interned : fact.suffix ∈ (queryRuntimes workspace scope).runtime.fields := splitAt_interned member at'
  obtain ⟨identity,base,field,same⟩ := denoted interned
  refine ⟨identity,⟨base,field,same⟩,?_⟩
  have row : (⟨identity.base,identity.field,span.bind ((queryRuntimes workspace scope).runtime.localProvenanceId
      identity.base)⟩ : SymbolicFactTemplate) ∈ pageFacts workspace scope visited :=
    mem_pageFacts.mpr ⟨span,isRead,fact.suffix,base ▸ at',field,rfl⟩
  have facts := symbolicFacts_visited member address
  change identity ∈ (buildSymbolicRuntimeIndex workspace (buildUnified workspace) scope).symbolicFactsForNode
    (buildUnified workspace) node
  rw [facts]
  refine List.mem_map.mpr ⟨_,row,?_⟩
  obtain ⟨base',field',provenance'⟩ := identity
  simp only [SymbolicFactTemplate.identity, SymbolicFactIdentity.mk.injEq, true_and]
  rw [show provenance' = _ from same, provenance, show base' = _ from base]
  rfl

theorem denotes_rebased {next : SymbolicFactIdentity}
    (denotes : Denotes (queryRuntimes workspace scope).runtime identity fact)
    (rebased : ((queryRuntimes workspace scope).program policy).factAlgebra.rebases identity next) :
    ∃ other, Denotes (queryRuntimes workspace scope).runtime next other ∧ (pathAlgebra workspace scope
      ((queryRuntimes workspace scope).program policy) (Interned workspace scope)).rebases fact other := by
  obtain ⟨base,field,provenance⟩ := denotes
  obtain ⟨rebase,row,field',found,rfl⟩ := rebased
  obtain ⟨spec,member,source,named,target,kind⟩ := mem_rebases.mp row
  obtain ⟨lead,name,renamed,named',known,known',renames⟩ := rebasedField_iff.mp found
  have sameLead : lead = spec.prefixText := Option.some.inj (named'.symm.trans named)
  have sameName : name = fact.suffix := Option.some.inj (known.symm.trans field)
  refine ⟨⟨rebase.target,renamed,fact.provenance⟩,⟨rfl,known',provenance⟩,spec,member,source.trans base,target.symm,?_,
    List.mem_of_getElem? known',rfl⟩
  rw [← sameLead, ← sameName, ← kind]
  exact renames

theorem rebased_denotes {other : PathFact}
    (denotes : Denotes (queryRuntimes workspace scope).runtime identity fact)
    (rebased : (pathAlgebra workspace scope ((queryRuntimes workspace scope).program policy)
      (Interned workspace scope)).rebases fact other) :
    ∃ next, Denotes (queryRuntimes workspace scope).runtime next other ∧
      ((queryRuntimes workspace scope).program policy).factAlgebra.rebases identity next := by
  obtain ⟨base,field,provenance⟩ := denotes
  obtain ⟨spec,member,source,target,renames,interned,same⟩ := rebased
  have numbered : ∃ next, Denotes (queryRuntimes workspace scope).runtime next other := denoted interned
  obtain ⟨next,base',field',provenance'⟩ := numbered
  have prefixed : spec.prefixText ∈ symbolicFields workspace scope :=
    SortedRows.mem_ofList.mpr (List.mem_append_right _ (List.mem_map_of_mem member))
  obtain ⟨prefixId,inside,named⟩ := List.mem_iff_getElem.mp prefixed
  have lead : (symbolicFields workspace scope).rows[prefixId]? = some spec.prefixText :=
    (List.getElem?_eq_getElem inside).trans (congrArg some named)
  refine ⟨next,⟨base',field',provenance'⟩,⟨spec.target,prefixId,spec.kind⟩,
    mem_rebases.mpr ⟨spec,member,source.trans base.symm,lead,rfl,rfl⟩,next.field,
    rebasedField_iff.mpr ⟨_,_,_,lead,field,field',renames⟩,?_⟩
  obtain ⟨nextBase,nextField,nextProvenance⟩ := next
  rw [SymbolicFactIdentity.mk.injEq]
  exact ⟨base'.trans target.symm,rfl,provenance'.trans (same.trans provenance.symm)⟩

theorem denotes_reads
    (denotes : Denotes (queryRuntimes workspace scope).runtime identity fact) :
    ((queryRuntimes workspace scope).program policy).factAlgebra.reads identity node ↔ (pathAlgebra workspace scope
      ((queryRuntimes workspace scope).program policy) (Interned workspace scope)).reads fact node := by
  obtain ⟨base,field,_⟩ := denotes
  refine List.mem_append.trans (or_congr ?_ (base ▸ Iff.rfl))
  rw [GroupedRows.mem_get]
  constructor
  · intro read
    obtain ⟨⟨_,_,isRead⟩,row,same⟩ := List.mem_map.mp (SortedRows.mem_ofList.mp read)
    cases same
    obtain ⟨projected,reads⟩ := List.mem_filter.mp row
    obtain ⟨visited,member,placed,⟨template,fact',key⟩,flag⟩ := mem_projectedFacts.mp projected
    obtain ⟨span,isRead',suffix,at',named,_⟩ := mem_pageFacts.mp fact'
    obtain ⟨sameBase,sameField⟩ := Prod.mk.inj key
    rw [sameField] at named
    have sameSuffix : suffix = fact.suffix := Option.some.inj (named.symm.trans field)
    obtain ⟨parts,storage,path⟩ := at'
    have sameFlag : isRead' = true := (storage_isRead storage).symm.trans (flag.trans reads)
    refine ⟨visited,member,placed,span,parts,sameFlag ▸ storage,?_⟩
    rw [← sameSuffix, ← base, ← sameBase]
    exact path
  · intro read
    obtain ⟨visited,member,placed,span,parts,storage,path⟩ := read
    have row : (⟨identity.base,identity.field,span.bind ((queryRuntimes workspace scope).runtime.localProvenanceId
        identity.base)⟩ : SymbolicFactTemplate) ∈ pageFacts workspace scope visited :=
      mem_pageFacts.mpr ⟨span,true,fact.suffix,⟨parts,storage,base ▸ path⟩,field,rfl⟩
    have projected := mem_projectedFacts.mpr ⟨visited,member,placed,⟨_,row,rfl⟩,storage_isRead storage⟩
    exact SortedRows.mem_ofList.mpr (List.mem_map.mpr ⟨_,List.mem_filter.mpr ⟨projected,rfl⟩,rfl⟩)

theorem denotes_passes (unpruned : policy.targetRelevance = none)
    (denotes : Denotes (queryRuntimes workspace scope).runtime identity fact) {transform : SymbolicFieldTransform} :
    ((queryRuntimes workspace scope).program policy).factAlgebra.passes identity transform ↔ (pathAlgebra workspace scope
      ((queryRuntimes workspace scope).program policy) (Interned workspace scope)).passes fact transform := by
  obtain ⟨base,_,provenance⟩ := denotes
  obtain ⟨base',field',provenance'⟩ := identity
  cases show base' = fact.base from base
  cases show provenance' = fact.provenance from provenance
  refine and_congr_right fun _ => and_congr_right fun _ => imp_congr_right fun _ => ?_
  exact demanded_iff unpruned

theorem scalarMatches_iff {program : ClosureProgram} {transform : SymbolicFieldTransform} {field : Nat} {suffix : Text}
    (named : program.runtime.field field = some suffix) : program.scalarMatches transform field = true ↔
      transform.exactField.bind program.symbolic.string = some suffix := by
  unfold ClosureProgram.scalarMatches
  rw [named]
  cases transform.exactField.bind program.symbolic.string with
  | none => simp
  | some expected => simp

theorem queryRuntimes_corresponds (unpruned : policy.targetRelevance = none) :
    FactAlgebra.Corresponds ((queryRuntimes workspace scope).program policy).factAlgebra (pathAlgebra workspace scope
      ((queryRuntimes workspace scope).program policy) (Interned workspace scope))
        (Denotes (queryRuntimes workspace scope).runtime) where
  introduced := denotes_introduced
  introducedBack := introduced_denotes
  keeps denotes := (demanded_iff unpruned).trans (denotes.base ▸ Iff.rfl)
  rebased := denotes_rebased
  rebasedBack := rebased_denotes
  reads denotes := denotes_reads denotes
  passes denotes := denotes_passes unpruned denotes
  carried denotes := ⟨rfl,denotes.field,rfl⟩
  scalar denotes := and_congr_left fun _ => scalarMatches_iff denotes.field

-- The closure over numbered suffixes is the closure over spelled suffixes in which a
-- rebase only leads to suffixes that have a number.
theorem interned_suffixes_exact {seeds : List NodeId} {node : NodeId} :
    node ∈ (queryRuntimes workspace scope).forwardClosure seeds ↔ (pathAlgebra workspace scope
      ((queryRuntimes workspace scope).program (queryRuntimes workspace scope).unrestrictedPolicy)
        (Interned workspace scope)).Reaches
          ((queryRuntimes workspace scope).program (queryRuntimes workspace scope).unrestrictedPolicy) seeds node := by
  rw [QueryRuntimes.forwardClosure_nodes, ClosureProgram.mem_onTime_nodes (ClosureProgram.closureRun_onTime rfl)]
  exact (queryRuntimes_corresponds rfl).reaches

end

-- `i.s = p; a.b = i; z = a; w = z.b; sink(w.s)`: no place spells `b.s`.
def carriedObject : IdgWorkspace where
  segments := [{
    places := [.param 0,.write 0 [1] ⟨0,10,14⟩,.read 0 [],.write 2 [3] ⟨0,20,24⟩,.read 2 [],.write 4 [] ⟨0,30,34⟩,.read 4 [3],
      .write 5 [] ⟨0,40,44⟩,.read 5 [1],.callArg ⟨⟨0,50,54⟩⟩ 0]
    nodes := [⟨0,0⟩,⟨0,1⟩,⟨0,2⟩,⟨0,3⟩,⟨0,4⟩,⟨0,5⟩,⟨0,6⟩,⟨0,7⟩,⟨0,8⟩,⟨0,9⟩]
    edges := [sampleEdge 0 1 .intraAssign 10,sampleEdge 2 3 .intraAssign 20,sampleEdge 4 5 .intraAssign 30,
      sampleEdge 6 7 .intraAssign 40,sampleEdge 8 9 .intraRead 50]
    funcs := [0]
    strings := [['i'],['s'],['a'],['b'],['z'],['w']] }]
  querySidecar := none
  segmentSpool := none
  residentSegments := []
  crossFileSpool := none
  symbolicTransformSpool := none
  byFunc := AList.singleton 0 0
  crossFile := []
  symbolicField := ⟨[['i'],['a','.','b'],['a'],['z'],['z','.','b'],['w']],
    [⟨0,0,0⟩,⟨0,0,1⟩,⟨0,0,2⟩,⟨0,0,3⟩,⟨0,0,4⟩,⟨0,0,5⟩],
    [⟨0,1,none,⟨0,20,24⟩,⟨0,20,24⟩,.direct,.copy,none,none,false⟩,⟨2,3,none,⟨0,30,34⟩,⟨0,30,34⟩,.direct,.copy,none,none,false⟩,
      ⟨4,5,none,⟨0,40,44⟩,⟨0,40,44⟩,.direct,.copy,none,none,false⟩]⟩

def carriedProgram : ClosureProgram :=
  (queryRuntimes carriedObject none).program (queryRuntimes carriedObject none).unrestrictedPolicy

def carriedFlows : Set (FlowAtom PathFact) :=
  ((pathAlgebra carriedObject none carriedProgram fun _ => True).rules carriedProgram [0]).least

theorem carried_active {known : Set ClosureAtom} : carriedProgram.IsActive known 0 := ⟨rfl,.inl rfl⟩

theorem carried_copy {base : Nat} {suffix : Text} {provenance next : SymbolicProvenance} (transform : SymbolicFieldTransform)
    (derived : .fact ⟨base,suffix,provenance⟩ none ∈ carriedFlows)
    (passes : transform ∈ carriedProgram.runtime.outgoing base ∧
      carriedProgram.writtenAfter transform ⟨base,0,provenance⟩ = false ∧ transform.target ∈ carriedProgram.fieldDemand)
    (local' : transform.kind = .copy ∧ (carriedProgram.symbolic.bases[transform.target]?).map (·.func) = some 0 ∧
      symbolicTransformBoundary carriedProgram.symbolic transform = none)
    (left : (carriedProgram.transformedIdentity transform 0).provenance = next) :
    .fact ⟨transform.target,suffix,next⟩ none ∈ carriedFlows := by
  obtain ⟨row,ordered,kept⟩ := passes
  obtain ⟨copies,owner,boundary⟩ := local'
  obtain ⟨target,found,func⟩ := Option.map_eq_some_iff.mp owner
  subst left
  refine Rules.least_closed _ (.transform derived ⟨row,ordered,fun _ => kept⟩ (.ordinary (.inr boundary)) ?_ ⟨target,found,.inl ?_⟩
    (.next kept))
  · rw [copies]
    exact nofun
  · rw [func]
    exact carried_active

theorem carried_rebase {base : Nat} {suffix renamed : Text} {provenance : SymbolicProvenance} (spec : RebaseSpec)
    (derived : .fact ⟨base,suffix,provenance⟩ none ∈ carriedFlows)
    (rebases : spec ∈ (rebaseSpecs carriedProgram.symbolic).rows ∧ spec.source = base ∧ spec.target ∈ carriedProgram.fieldDemand)
    (renames : spec.kind.Renames spec.prefixText suffix renamed) :
    .fact ⟨spec.target,renamed,provenance⟩ none ∈ carriedFlows := by
  obtain ⟨member,source,kept⟩ := rebases
  exact Rules.least_closed _ (.rebase derived ⟨spec,member,source,rfl,renames,trivial,rfl⟩ kept)

theorem carried_step {source target : NodeId} {atom : FlowAtom PathFact} (reached : .reached ⟨source,none⟩ ∈ carriedFlows)
    (edge : target ∈ carriedProgram.reach.get source ∧ carriedProgram.unified.wsNodeFunc source = some 0 ∧
      carriedProgram.unified.wsNodeFunc target = some 0)
    (sourced : (pathAlgebra carriedObject none carriedProgram fun _ => True).Sourced carriedProgram ⟨target,none⟩ atom) :
    atom ∈ carriedFlows :=
  Rules.least_closed _ (.transition reached (.ordinary edge.1) rfl edge.2.1 edge.2.2 (.inl carried_active) sourced)

-- The path of `s` through `a.b` is lost: its name at `a` is `b.s`, which has no number.
theorem carried_object_lost : 9 ∉ (queryRuntimes carriedObject none).forwardClosure [0] ∧
    (pathAlgebra carriedObject none carriedProgram fun _ => True).Reaches carriedProgram [0] 9 := by
  refine ⟨by decide,none,?_⟩
  have seeded : .reached ⟨0,none⟩ ∈ carriedFlows :=
    Rules.least_closed _ (.seed List.mem_cons_self ⟨rfl,0,by decide,carried_active⟩ (.node (by decide +kernel)))
  have kept : 0 ∈ carriedProgram.fieldDemand := by decide
  have written : .fact ⟨0,['s'],.span 0⟩ none ∈ carriedFlows := by
    have edge : 1 ∈ carriedProgram.reach.get 0 ∧ carriedProgram.unified.wsNodeFunc 0 = some 0 ∧
        carriedProgram.unified.wsNodeFunc 1 = some 0 := by decide
    refine carried_step seeded edge (.fact ?_ kept)
    refine ⟨_,List.mem_of_getElem? (i := 1) rfl,by decide,some ⟨0,10,14⟩,false,⟨[['i'],['s']],rfl,['i'],?_,?_⟩,?_⟩
    · decide
    · decide
    · decide
  have nested : .fact ⟨1,['s'],.unordered⟩ none ∈ carriedFlows :=
    carried_copy ⟨0,1,none,⟨0,20,24⟩,⟨0,20,24⟩,.direct,.copy,none,none,false⟩ written (by decide) (by decide +kernel)
      (by decide)
  have whole : .fact ⟨2,['b','.','s'],.unordered⟩ none ∈ carriedFlows :=
    carried_rebase ⟨1,2,['b'],.prependPrefix⟩ nested (by decide) ⟨nofun,nofun,rfl⟩
  have copied : .fact ⟨3,['b','.','s'],.unordered⟩ none ∈ carriedFlows :=
    carried_copy ⟨2,3,none,⟨0,30,34⟩,⟨0,30,34⟩,.direct,.copy,none,none,false⟩ whole (by decide) (by decide +kernel)
      (by decide)
  have stripped : .fact ⟨4,['s'],.unordered⟩ none ∈ carriedFlows :=
    carried_rebase ⟨3,4,['b'],.stripPrefix⟩ copied (by decide) ⟨nofun,rfl⟩
  have read : .fact ⟨5,['s'],.unordered⟩ none ∈ carriedFlows :=
    carried_copy ⟨4,5,none,⟨0,40,44⟩,⟨0,40,44⟩,.direct,.copy,none,none,false⟩ stripped (by decide) (by decide +kernel)
      (by decide)
  have consumed : .reached ⟨8,none⟩ ∈ carriedFlows := by
    refine Rules.least_closed _ (.read read (.inl ?_) ⟨rfl,0,by decide,carried_active⟩)
    refine ⟨_,List.mem_of_getElem? (i := 8) rfl,by decide,none,[['w'],['s']],rfl,['w'],?_,?_⟩
    · decide
    · decide
  exact carried_step consumed (by decide) (.node (by decide +kernel))

end BonsaiNinja.Idg
