import BonsaiNinja.Callgraph.CallResolution
import BonsaiNinja.Library.Folds

namespace BonsaiNinja.Callgraph
open Library LangApi

instance : RowOrder CallGraphLocalBinding := .lift (fun b => (b.caller,b.name,b.target)) fun a b same => by
  cases a; cases b; simp_all

instance : RowOrder CallGraphCallableArgument := .lift (fun a => (a.caller,a.span,a.target)) fun a b same => by
  cases a; cases b; simp_all

instance : RowOrder UnresolvedWorkspaceCallSite := .lift (fun s => (s.caller,s.span)) fun a b same => by
  cases a; cases b; simp_all

def addEdge (edges : List CallEdge) (edge : CallEdge) : List CallEdge :=
  if edges.any fun existing => existing.sameToken edge then edges else edges ++ [edge]

structure FileBody where
  defs : List Decl
  callArgumentValues : List CallArgumentValueFact

structure GlobalIndex where
  files : List FileId
  entries : FuncId → Option (FileId × Nat)
  bodies : FileId → FileBody
  listed : ∀ file, (bodies file).defs ≠ [] → file ∈ files
  bound : ∀ file place decl, (bodies file).defs[place]? = some decl → entries decl.symbol = some (file,place)

def GlobalIndex.declaringFile (global : GlobalIndex) (symbol : FuncId) : Option FileId := (global.entries symbol).map (·.1)

-- Several declarations on one callback span are ambiguous and bind nothing.
def inlineCandidates (defs : List Decl) (callback : Span) : List FuncId :=
  sortDedup ((defs.filter fun decl => decl.span == callback && decl.kind.callable).map (·.symbol))

def inlineBinding (defs : List Decl) (fact : CallArgumentValueFact) : Option (Span × FuncId) :=
  match fact.inlineCallbackSpan.map (inlineCandidates defs) with
  | some [func] => some (fact.argumentSpan,func)
  | _ => none

def inlineCallableTargetsByArgumentSpan (defs : List Decl) (facts : List CallArgumentValueFact) (argument : Span) :
    Option (List FuncId) :=
  let bound := gather (facts.filterMap (inlineBinding defs)) argument
  if bound.isEmpty then none else some (sortDedup bound)

def callableReferenceArgumentSpans (facts : List CallArgumentValueFact) : List Span :=
  (facts.filter fun fact => fact.valueKind == some .callableReference).map (·.argumentSpan)

structure FileCallgraphResolution where
  edges : List CallEdge
  localBindings : List CallGraphLocalBinding
  callableArguments : List CallGraphCallableArgument
  unresolvedWorkspaceSites : List UnresolvedWorkspaceCallSite
  deriving DecidableEq

def callerContext (resolvers : Resolvers) (info : FileCallgraphInfo) (decl : Decl) : CallerContext :=
  let aliasTargets := resolvers.resolveAliasTargets info decl
  ⟨info,decl,aliasTargets,resolvers.collectLocalCallableBindings info decl aliasTargets⟩

def declBindings (resolvers : Resolvers) (info : FileCallgraphInfo) (decl : Decl) : List CallGraphLocalBinding :=
  (callerContext resolvers info decl).localBindings.map fun (name,target) => ⟨decl.symbol,name,target⟩

def declResolution (resolvers : Resolvers) (info : FileCallgraphInfo) (inlineTargets : Span → Option (List FuncId))
    (references : List Span) (decl : Decl) : Lookup ResolutionRows :=
  resolvers.addResolvedCallEdges (callerContext resolvers info decl) inlineTargets references decl.flowEvents

def resolveDecls (program : Decl → Lookup ResolutionRows) : List Decl → Memo.Table CacheKey.Answer → ResolutionRows
  | [], _ => ∅
  | decl :: rest, table =>
    let (rows,table) := (program decl).run table
    rows ++ resolveDecls program rest table

def callers (body : FileBody) : List Decl := body.defs.filter (·.kind.callable)

def resolveFileCallEdges (resolvers : Resolvers) (info : FileCallgraphInfo) (body : FileBody) : FileCallgraphResolution :=
  let inlineTargets := inlineCallableTargetsByArgumentSpan body.defs body.callArgumentValues
  let references := callableReferenceArgumentSpans body.callArgumentValues
  let rows := resolveDecls (declResolution resolvers info inlineTargets references) (callers body) Memo.empty
  { edges := rows.edges.foldl addEdge []
    localBindings := (callers body).flatMap (declBindings resolvers info)
    callableArguments := sortDedup rows.callableArguments
    unresolvedWorkspaceSites := sortDedup rows.unresolvedWorkspaceSites }

-- The files' direct results in file order; the execution edges of callbacks come
-- after these.
def collectResolvedFileEdges (results : List FileCallgraphResolution) : FileCallgraphResolution where
  edges := results.flatMap (·.edges)
  localBindings := sortDedup (results.flatMap (·.localBindings))
  callableArguments := sortDedup (results.flatMap (·.callableArguments))
  unresolvedWorkspaceSites := sortDedup (results.flatMap (·.unresolvedWorkspaceSites))

def buildScoped (resolvers : Resolvers) (infoForFile : FileId → FileCallgraphInfo) (files : List FileId)
    (symbols : Option (List FuncId)) (bodyForFile : FileId → Option FileBody) : FileCallgraphResolution :=
  collectResolvedFileEdges ((sortDedup files).map fun file =>
    match bodyForFile file with
    | none => ⟨[],[],[],[]⟩
    | some body =>
      let defs := match symbols with
        | some included => body.defs.filter fun decl => included.contains decl.symbol
        | none => body.defs
      resolveFileCallEdges resolvers (infoForFile file) { body with defs := defs })

def buildForFuncsStreaming (global : GlobalIndex) (resolvers : Resolvers) (infoForFile : FileId → FileCallgraphInfo)
    (includedFuncs : List FuncId) (bodyForFile : FileId → Option FileBody) : FileCallgraphResolution :=
  buildScoped resolvers infoForFile (includedFuncs.filterMap global.declaringFile) (some includedFuncs) bodyForFile

def buildForFilesStreaming (resolvers : Resolvers) (infoForFile : FileId → FileCallgraphInfo) (includedFiles : List FileId)
    (bodyForFile : FileId → Option FileBody) : FileCallgraphResolution :=
  buildScoped resolvers infoForFile includedFiles none bodyForFile

def buildResident (global : GlobalIndex) (resolvers : Resolvers) (infoForFile : FileId → FileCallgraphInfo) :
    FileCallgraphResolution :=
  collectResolvedFileEdges ((sortDedup global.files).map fun file =>
    resolveFileCallEdges resolvers (infoForFile file) (global.bodies file))

def FileCallgraphResolution.ofCaller (resolution : FileCallgraphResolution) (caller : FuncId) : FileCallgraphResolution where
  edges := resolution.edges.filter (·.fromFunc = caller)
  localBindings := resolution.localBindings.filter (·.caller = caller)
  callableArguments := resolution.callableArguments.filter (·.caller = caller)
  unresolvedWorkspaceSites := resolution.unresolvedWorkspaceSites.filter (·.caller = caller)

end BonsaiNinja.Callgraph

namespace BonsaiNinja.Callgraph
open Library LangApi
variable {resolvers : Resolvers}

mutual

def argumentSpans : List FlowEvent → List Span
  | [] => []
  | event :: rest => eventArgumentSpans event ++ argumentSpans rest

def eventArgumentSpans : FlowEvent → List Span
  | .call _ _ _ _ callKind args => if callKind == .operator || callKind == .indexWrite then [] else args.map (·.span)
  | .branch _ _ thenEvents elseEvents => argumentSpans thenEvents ++ argumentSpans elseEvents
  | .loop _ _ _ conditionEvents updateEvents body =>
    argumentSpans conditionEvents ++ argumentSpans body ++ argumentSpans updateEvents
  | .try _ body catchEvents finallyEvents _ _ _ =>
    argumentSpans body ++ argumentSpans catchEvents ++ argumentSpans finallyEvents
  | .defer _ body => argumentSpans body
  | .using _ body => argumentSpans body
  | _ => []

end

section
variable {resolvers : Resolvers} {context : CallerContext} {left right : Span → Option (List FuncId)} {references : List Span}

theorem addCallbackArgEdges_congr {args : List CallArg} (same : ∀ arg ∈ args, left arg.span = right arg.span) :
    resolvers.addCallbackArgEdges context left references args = resolvers.addCallbackArgEdges context right references args := by
  induction args with
  | nil => rfl
  | cons arg rest ih =>
    have first : resolvers.addCallbackArg context left references arg = resolvers.addCallbackArg context right references arg := by
      simp only [Resolvers.addCallbackArg, Resolvers.callbackArgTargets, same arg List.mem_cons_self]
    simp only [Resolvers.addCallbackArgEdges, first, ih fun other member => same other (List.mem_cons_of_mem _ member)]

mutual

-- The walk reads the inline callbacks at the argument spans only.
theorem addResolvedCallEdges_congr : ∀ events : List FlowEvent, (∀ span ∈ argumentSpans events, left span = right span) →
    resolvers.addResolvedCallEdges context left references events =
      resolvers.addResolvedCallEdges context right references events
  | [], _ => rfl
  | event :: rest, same => by
    have first := addEventEdges_congr event fun span member => same span (List.mem_append_left _ member)
    have later := addResolvedCallEdges_congr rest fun span member => same span (List.mem_append_right _ member)
    simp only [Resolvers.addResolvedCallEdges, first, later]

theorem addEventEdges_congr : ∀ event : FlowEvent, (∀ span ∈ eventArgumentSpans event, left span = right span) →
    resolvers.addEventEdges context left references event = resolvers.addEventEdges context right references event
  | .call span name receiver receiverTypes callKind args, same => by
    simp only [Resolvers.addEventEdges, Resolvers.addCallEventEdges]
    by_cases skipped : (callKind == .operator || callKind == .indexWrite) = true
    · rw [if_pos skipped, if_pos skipped]
    · simp only [eventArgumentSpans, if_neg skipped, List.mem_map, forall_exists_index, and_imp,
        forall_apply_eq_imp_iff₂] at same
      rw [if_neg skipped, if_neg skipped, addCallbackArgEdges_congr same]
  | .branch _ _ thenEvents elseEvents, same => by
    simp only [eventArgumentSpans, List.forall_mem_append] at same
    simp only [Resolvers.addEventEdges, addResolvedCallEdges_congr thenEvents same.1, addResolvedCallEdges_congr elseEvents same.2]
  | .loop _ _ _ conditionEvents updateEvents body, same => by
    simp only [eventArgumentSpans, List.forall_mem_append] at same
    simp only [Resolvers.addEventEdges, addResolvedCallEdges_congr conditionEvents same.1.1,
      addResolvedCallEdges_congr body same.1.2, addResolvedCallEdges_congr updateEvents same.2]
  | .try _ body catchEvents finallyEvents _ _ _, same => by
    simp only [eventArgumentSpans, List.forall_mem_append] at same
    simp only [Resolvers.addEventEdges, addResolvedCallEdges_congr body same.1.1,
      addResolvedCallEdges_congr catchEvents same.1.2, addResolvedCallEdges_congr finallyEvents same.2]
  | .defer _ body, same => by
    simp only [eventArgumentSpans] at same
    simp only [Resolvers.addEventEdges, addResolvedCallEdges_congr body same]
  | .using _ body, same => by
    simp only [eventArgumentSpans] at same
    simp only [Resolvers.addEventEdges, addResolvedCallEdges_congr body same]
  | .assign _ _ _ sourceCall _ _ _ _, _ => by cases sourceCall <;> simp only [Resolvers.addEventEdges]
  | .aggregateAssign _ _ _, _ => by simp only [Resolvers.addEventEdges]
  | .return _ _ _ _, _ => by simp only [Resolvers.addEventEdges]
  | .throw _ _ _, _ => by simp only [Resolvers.addEventEdges]
  | .break _ _, _ => by simp only [Resolvers.addEventEdges]
  | .continue _ _, _ => by simp only [Resolvers.addEventEdges]
  | .yield _ _, _ => by simp only [Resolvers.addEventEdges]
  | .await _ _, _ => by simp only [Resolvers.addEventEdges]
  | .lifecycle _ _ _, _ => by simp only [Resolvers.addEventEdges]

end

end

structure ResolutionRows.OwnedBy (rows : ResolutionRows) (caller : FuncId) : Prop where
  edges : ∀ edge ∈ rows.edges, edge.fromFunc = caller
  callableArguments : ∀ argument ∈ rows.callableArguments, argument.caller = caller
  unresolvedWorkspaceSites : ∀ site ∈ rows.unresolvedWorkspaceSites, site.caller = caller

namespace ResolutionRows
variable {caller : FuncId}

theorem empty_owned : (∅ : ResolutionRows).OwnedBy caller :=
  ⟨(fun _ member => by cases member),(fun _ member => by cases member),(fun _ member => by cases member)⟩

theorem OwnedBy.append {first later : ResolutionRows} (one : first.OwnedBy caller) (other : later.OwnedBy caller) :
    (first ++ later).OwnedBy caller :=
  ⟨List.forall_mem_append.mpr ⟨one.edges,other.edges⟩,List.forall_mem_append.mpr ⟨one.callableArguments,other.callableArguments⟩,
    List.forall_mem_append.mpr ⟨one.unresolvedWorkspaceSites,other.unresolvedWorkspaceSites⟩⟩

end ResolutionRows

section
variable {resolvers : Resolvers} {context : CallerContext} {inlineTargets : Span → Option (List FuncId)} {references : List Span}

theorem emitCandidateEdges_owned (span : Span) (candidates : List FuncId) (shape : Option (EdgeKind × EdgeProvenance)) :
    (Resolvers.emitCandidateEdges context span candidates shape).OwnedBy context.decl.symbol := by
  unfold Resolvers.emitCandidateEdges
  split
  · exact ResolutionRows.empty_owned
  · split
    · exact ⟨(fun _ member => by cases member),(fun _ member => by cases member),by simp⟩
    · exact ⟨by simp,(fun _ member => by cases member),(fun _ member => by cases member)⟩

theorem callbackArgRows_owned (span : Span) (targets : List FuncId) :
    (resolvers.callbackArgRows context span targets).OwnedBy context.decl.symbol := by
  unfold Resolvers.callbackArgRows
  split
  · exact ResolutionRows.empty_owned
  · split
    · exact ⟨(fun _ member => by cases member),by simp,(fun _ member => by cases member)⟩
    · exact ResolutionRows.empty_owned
  · exact ⟨(fun _ member => by cases member),(fun _ member => by cases member),by simp⟩

theorem addCallbackArg_owned (arg : CallArg) :
    (resolvers.addCallbackArg context inlineTargets references arg).Yields (·.OwnedBy context.decl.symbol) :=
  Memo.yields_bind (Memo.yields_any _) fun _ _ => Memo.yields_pure (callbackArgRows_owned _ _)

theorem yields_append {first later : Lookup ResolutionRows} {caller : FuncId} (one : first.Yields (·.OwnedBy caller))
    (other : later.Yields (·.OwnedBy caller)) :
    (do
      let first ← first
      let later ← later
      return first ++ later : Lookup ResolutionRows).Yields (·.OwnedBy caller) :=
  Memo.yields_bind one fun _ first => Memo.yields_bind other fun _ later => Memo.yields_pure (first.append later)

theorem yields_append_append {first next later : Lookup ResolutionRows} {caller : FuncId}
    (one : first.Yields (·.OwnedBy caller)) (two : next.Yields (·.OwnedBy caller)) (other : later.Yields (·.OwnedBy caller)) :
    (do
      let first ← first
      let next ← next
      let later ← later
      return first ++ next ++ later : Lookup ResolutionRows).Yields (·.OwnedBy caller) :=
  Memo.yields_bind one fun _ first => Memo.yields_bind two fun _ next => Memo.yields_bind other fun _ later =>
    Memo.yields_pure ((first.append next).append later)

theorem addCallbackArgEdges_owned (args : List CallArg) :
    (resolvers.addCallbackArgEdges context inlineTargets references args).Yields (·.OwnedBy context.decl.symbol) := by
  induction args with
  | nil => exact Memo.yields_pure ResolutionRows.empty_owned
  | cons arg rest ih => exact yields_append (addCallbackArg_owned arg) ih

theorem resolveAndEmitCallSite_owned (facts : CallSiteFacts) :
    (resolvers.resolveAndEmitCallSite context facts).Yields (·.OwnedBy context.decl.symbol) := by
  apply Memo.yields_bind (Memo.yields_any _)
  intro discovered _
  cases discovered with
  | none => exact Memo.yields_pure ResolutionRows.empty_owned
  | some candidates => exact Memo.yields_bind (Memo.yields_any _) fun _ _ => Memo.yields_pure (emitCandidateEdges_owned _ _ _)

theorem addAssignmentCallEdges_owned (name : Text) (args : List Text) (span : Span) (valueKind : Option AssignValueKind) :
    (resolvers.addAssignmentCallEdges context name args span valueKind).Yields (·.OwnedBy context.decl.symbol) := by
  unfold Resolvers.addAssignmentCallEdges
  split
  · exact Memo.yields_pure ResolutionRows.empty_owned
  · apply Memo.yields_bind (Memo.yields_any _)
    intro candidates _
    exact Memo.yields_bind (Memo.yields_any _) fun _ _ => Memo.yields_pure (emitCandidateEdges_owned _ _ _)

theorem addCallEventEdges_owned (span : Span) (name : Text) (receiver : Option Text) (receiverTypes : List Text)
    (callKind : CallKind) (args : List CallArg) :
    (resolvers.addCallEventEdges context inlineTargets references span name receiver receiverTypes callKind args).Yields
      (·.OwnedBy context.decl.symbol) := by
  unfold Resolvers.addCallEventEdges
  split
  · exact Memo.yields_pure ResolutionRows.empty_owned
  · exact yields_append (addCallbackArgEdges_owned args) (resolveAndEmitCallSite_owned _)

mutual

theorem addResolvedCallEdges_owned : ∀ events : List FlowEvent,
    (resolvers.addResolvedCallEdges context inlineTargets references events).Yields (·.OwnedBy context.decl.symbol)
  | [] => by
    rw [Resolvers.addResolvedCallEdges]
    exact Memo.yields_pure ResolutionRows.empty_owned
  | event :: rest => by
    rw [Resolvers.addResolvedCallEdges]
    exact yields_append (addEventEdges_owned event) (addResolvedCallEdges_owned rest)

theorem addEventEdges_owned : ∀ event : FlowEvent,
    (resolvers.addEventEdges context inlineTargets references event).Yields (·.OwnedBy context.decl.symbol)
  | .call span name receiver receiverTypes callKind args => by
    rw [Resolvers.addEventEdges]
    exact addCallEventEdges_owned span name receiver receiverTypes callKind args
  | .assign span _ _ (some name) args _ _ valueKind => by
    rw [Resolvers.addEventEdges]
    exact addAssignmentCallEdges_owned name args span valueKind
  | .branch _ _ thenEvents elseEvents => by
    rw [Resolvers.addEventEdges]
    exact yields_append (addResolvedCallEdges_owned thenEvents) (addResolvedCallEdges_owned elseEvents)
  | .loop _ _ _ conditionEvents updateEvents body => by
    rw [Resolvers.addEventEdges]
    exact yields_append_append (addResolvedCallEdges_owned conditionEvents) (addResolvedCallEdges_owned body)
      (addResolvedCallEdges_owned updateEvents)
  | .try _ body catchEvents finallyEvents _ _ _ => by
    rw [Resolvers.addEventEdges]
    exact yields_append_append (addResolvedCallEdges_owned body) (addResolvedCallEdges_owned catchEvents)
      (addResolvedCallEdges_owned finallyEvents)
  | .defer _ body => by
    rw [Resolvers.addEventEdges]
    exact addResolvedCallEdges_owned body
  | .using _ body => by
    rw [Resolvers.addEventEdges]
    exact addResolvedCallEdges_owned body
  | .assign _ _ _ none _ _ _ _ => Memo.yields_pure ResolutionRows.empty_owned
  | .aggregateAssign _ _ _ => Memo.yields_pure ResolutionRows.empty_owned
  | .return _ _ _ _ => Memo.yields_pure ResolutionRows.empty_owned
  | .throw _ _ _ => Memo.yields_pure ResolutionRows.empty_owned
  | .break _ _ => Memo.yields_pure ResolutionRows.empty_owned
  | .continue _ _ => Memo.yields_pure ResolutionRows.empty_owned
  | .yield _ _ => Memo.yields_pure ResolutionRows.empty_owned
  | .await _ _ => Memo.yields_pure ResolutionRows.empty_owned
  | .lifecycle _ _ _ => Memo.yields_pure ResolutionRows.empty_owned

end

end

-- A build is taken caller by caller: the edges merge within one caller only.
theorem addEdge_ofCaller (caller : FuncId) (edges : List CallEdge) (edge : CallEdge) :
    (addEdge edges edge).filter (·.fromFunc = caller) =
      if edge.fromFunc = caller then addEdge (edges.filter (·.fromFunc = caller)) edge
      else edges.filter (·.fromFunc = caller) := by
  by_cases own : edge.fromFunc = caller
  · have same : (edges.filter (·.fromFunc = caller)).any (·.sameToken edge) = edges.any (·.sameToken edge) := by
      rw [Bool.eq_iff_iff]
      simp only [List.any_eq_true, List.mem_filter, decide_eq_true_eq]
      constructor
      · rintro ⟨existing,⟨member,_⟩,token⟩
        exact ⟨existing,member,token⟩
      · rintro ⟨existing,member,token⟩
        refine ⟨existing,⟨member,?_⟩,token⟩
        simp only [CallEdge.sameToken, Bool.and_eq_true, beq_iff_eq] at token
        exact token.1.1.1.1.trans own
    rw [if_pos own]
    unfold addEdge
    rw [same]
    split
    · rfl
    · simp [List.filter_append, own]
  · rw [if_neg own]
    unfold addEdge
    split
    · rfl
    · simp [List.filter_append, own]

theorem foldl_addEdge_ofCaller (caller : FuncId) (rows edges : List CallEdge) :
    (rows.foldl addEdge edges).filter (·.fromFunc = caller) =
      (rows.filter (·.fromFunc = caller)).foldl addEdge (edges.filter (·.fromFunc = caller)) := by
  induction rows generalizing edges with
  | nil => rfl
  | cons row rest ih =>
    rw [List.foldl_cons, ih, addEdge_ofCaller]
    by_cases own : row.fromFunc = caller
    · rw [if_pos own, List.filter_cons_of_pos (by simpa using own), List.foldl_cons]
    · rw [if_neg own, List.filter_cons_of_neg (by simpa using own)]

theorem sortDedup_filter [RowOrder α] [DecidableEq α] (rows : List α) (keep : α → Bool) :
    (sortDedup rows).filter keep = sortDedup (rows.filter keep) := by
  apply Sorted.ext ((sortDedup_sorted rows).filter keep) (sortDedup_sorted _)
  intro x
  simp only [List.mem_filter, mem_sortDedup]

theorem sortDedup_same [RowOrder α] [DecidableEq α] {left right : List α} (same : ∀ x, x ∈ left ↔ x ∈ right) :
    sortDedup left = sortDedup right := by
  apply Sorted.ext (sortDedup_sorted _) (sortDedup_sorted _)
  intro x
  simp only [mem_sortDedup, same]

theorem sortDedup_idem [RowOrder α] [DecidableEq α] (rows : List α) : sortDedup (sortDedup rows) = sortDedup rows :=
  sortDedup_same fun _ => mem_sortDedup

theorem flatMap_single [DecidableEq σ] {sources : List σ} {source : σ} {rows : σ → List β} (distinct : sources.Nodup)
    (others : ∀ other ∈ sources, other ≠ source → rows other = []) :
    sources.flatMap rows = if source ∈ sources then rows source else [] := by
  induction sources with
  | nil => rfl
  | cons first rest ih =>
    obtain ⟨fresh,distinct⟩ := List.nodup_cons.mp distinct
    have later := ih distinct fun other member => others other (List.mem_cons_of_mem _ member)
    rw [List.flatMap_cons, later]
    by_cases here : first = source
    · rw [← here, if_neg fresh, if_pos List.mem_cons_self, List.append_nil]
    · rw [others first List.mem_cons_self here, List.nil_append]
      simp only [List.mem_cons, Ne.symm here, false_or]

def scratchRows (program : Decl → Lookup ResolutionRows) (decls : List Decl) : ResolutionRows where
  edges := decls.flatMap fun decl => (program decl).plain.edges
  callableArguments := decls.flatMap fun decl => (program decl).plain.callableArguments
  unresolvedWorkspaceSites := decls.flatMap fun decl => (program decl).plain.unresolvedWorkspaceSites

-- Two declarations that ask a cache for one key have one answer for it, each in
-- its own context.
def Agree (program : Decl → Lookup ResolutionRows) (decls : List Decl) : Prop :=
  ∀ decl ∈ decls, ∀ other ∈ decls, ∀ key left right, (program decl).Asks key left → (program other).Asks key right → left = right

theorem resolveDecls_scratch {program : Decl → Lookup ResolutionRows} {decls : List Decl} (agree : Agree program decls) :
    resolveDecls program decls Memo.empty = scratchRows program decls := by
  have general : ∀ rest, (∀ decl ∈ rest, decl ∈ decls) → ∀ table,
      Memo.Within table (fun key answer => ∃ decl ∈ decls, (program decl).Asks key answer) →
      resolveDecls program rest table = scratchRows program rest := by
    intro rest
    induction rest with
    | nil => exact fun _ _ _ => rfl
    | cons decl rest ih =>
      intro inside table within
      have member := inside decl List.mem_cons_self
      have coherent : ∀ key left right, (∃ decl ∈ decls, (program decl).Asks key left) →
          (∃ decl ∈ decls, (program decl).Asks key right) → left = right := by
        rintro key left right ⟨one,oneMember,oneAsks⟩ ⟨other,otherMember,otherAsks⟩
        exact agree one oneMember other otherMember key left right oneAsks otherAsks
      obtain ⟨same,kept⟩ := Memo.run_plain coherent (program decl) table (fun _ _ asks => ⟨decl,member,asks⟩) within
      have later := ih (fun other member => inside other (List.mem_cons_of_mem _ member)) _ kept
      simp only [resolveDecls, later, same]
      rfl
  exact general decls (fun _ member => member) Memo.empty Memo.empty_within

section
variable {resolvers : Resolvers} {info : FileCallgraphInfo} {inlineTargets : Span → Option (List FuncId)}
  {references : List Span} {caller : FuncId}

theorem declResolution_owned (resolvers : Resolvers) (info : FileCallgraphInfo) (inlineTargets : Span → Option (List FuncId))
    (references : List Span) (decl : Decl) :
    (declResolution resolvers info inlineTargets references decl).Yields (·.OwnedBy decl.symbol) := by
  have owned := @addResolvedCallEdges_owned resolvers (callerContext resolvers info decl) inlineTargets references decl.flowEvents
  exact owned

theorem resolveDecls_owned {decls : List Decl} (table : Memo.Table CacheKey.Answer)
    (elsewhere : ∀ decl ∈ decls, decl.symbol ≠ caller) :
    let rows := resolveDecls (declResolution resolvers info inlineTargets references) decls table
    (∀ edge ∈ rows.edges, edge.fromFunc ≠ caller) ∧ (∀ argument ∈ rows.callableArguments, argument.caller ≠ caller) ∧
      ∀ site ∈ rows.unresolvedWorkspaceSites, site.caller ≠ caller := by
  induction decls generalizing table with
  | nil => exact ⟨(fun _ member => by cases member),(fun _ member => by cases member),(fun _ member => by cases member)⟩
  | cons decl rest ih =>
    have owned := (declResolution_owned resolvers info inlineTargets references decl).run table
    have away := elsewhere decl List.mem_cons_self
    obtain ⟨edges,arguments,sites⟩ := ih _ fun other member => elsewhere other (List.mem_cons_of_mem _ member)
    refine ⟨List.forall_mem_append.mpr ⟨?_,edges⟩,List.forall_mem_append.mpr ⟨?_,arguments⟩,List.forall_mem_append.mpr ⟨?_,sites⟩⟩
    · exact fun edge member same => away ((owned.edges edge member).symm.trans same)
    · exact fun argument member same => away ((owned.callableArguments argument member).symm.trans same)
    · exact fun site member same => away ((owned.unresolvedWorkspaceSites site member).symm.trans same)

theorem flatMap_ofCaller (caller : FuncId) (decls : List Decl) {rows : Decl → List β} {callerOf : β → FuncId}
    (owned : ∀ decl, ∀ row ∈ rows decl, callerOf row = decl.symbol) :
    (decls.flatMap rows).filter (callerOf · = caller) = (decls.filter (·.symbol = caller)).flatMap rows := by
  induction decls with
  | nil => rfl
  | cons decl rest ih =>
    rw [List.flatMap_cons, List.filter_append, ih]
    by_cases own : decl.symbol = caller
    · have all : (rows decl).filter (callerOf · = caller) = rows decl :=
        List.filter_eq_self.mpr fun row member => by simpa using (owned decl row member).trans own
      rw [all, List.filter_cons_of_pos (by simpa using own), List.flatMap_cons]
    · have none : (rows decl).filter (callerOf · = caller) = [] :=
        List.filter_eq_nil_iff.mpr fun row member same => own ((owned decl row member).symm.trans (by simpa using same))
      rw [none, List.filter_cons_of_neg (by simpa using own), List.nil_append]

end

def fileProgram (resolvers : Resolvers) (info : FileCallgraphInfo) (body : FileBody) : Decl → Lookup ResolutionRows :=
  declResolution resolvers info (inlineCallableTargetsByArgumentSpan body.defs body.callArgumentValues)
    (callableReferenceArgumentSpans body.callArgumentValues)

def scratchResolution (resolvers : Resolvers) (info : FileCallgraphInfo) (body : FileBody) (caller : FuncId) :
    FileCallgraphResolution :=
  let own := (callers body).filter (·.symbol = caller)
  let rows := scratchRows (fileProgram resolvers info body) own
  { edges := rows.edges.foldl addEdge []
    localBindings := sortDedup (own.flatMap (declBindings resolvers info))
    callableArguments := sortDedup rows.callableArguments
    unresolvedWorkspaceSites := sortDedup rows.unresolvedWorkspaceSites }

def fileOfCaller (resolution : FileCallgraphResolution) (caller : FuncId) : FileCallgraphResolution :=
  (collectResolvedFileEdges [resolution]).ofCaller caller

theorem declBindings_owned (resolvers : Resolvers) (info : FileCallgraphInfo) (decl : Decl) :
    ∀ row ∈ declBindings resolvers info decl, row.caller = decl.symbol := by
  intro row member
  obtain ⟨⟨_,_⟩,_,rfl⟩ := List.mem_map.mp member
  rfl

theorem resolveFile_scratch {info : FileCallgraphInfo} {body : FileBody}
    (agree : Agree (fileProgram resolvers info body) (callers body)) (caller : FuncId) :
    fileOfCaller (resolveFileCallEdges resolvers info body) caller = scratchResolution resolvers info body caller := by
  have scratch := resolveDecls_scratch agree
  have owned := fun decl => (declResolution_owned resolvers info
    (inlineCallableTargetsByArgumentSpan body.defs body.callArgumentValues)
    (callableReferenceArgumentSpans body.callArgumentValues) decl).plain
  have edges := flatMap_ofCaller caller (callers body) fun decl => (owned decl).edges
  have arguments := flatMap_ofCaller caller (callers body) fun decl => (owned decl).callableArguments
  have sites := flatMap_ofCaller caller (callers body) fun decl => (owned decl).unresolvedWorkspaceSites
  have bindings := flatMap_ofCaller caller (callers body) (declBindings_owned resolvers info)
  unfold fileOfCaller scratchResolution collectResolvedFileEdges FileCallgraphResolution.ofCaller resolveFileCallEdges
  simp only [List.flatMap_singleton]
  have same : resolveDecls (declResolution resolvers info
      (inlineCallableTargetsByArgumentSpan body.defs body.callArgumentValues)
      (callableReferenceArgumentSpans body.callArgumentValues)) (callers body) Memo.empty = _ := scratch
  rw [same]
  simp only [FileCallgraphResolution.mk.injEq, sortDedup_filter, foldl_addEdge_ofCaller, List.filter_nil, sortDedup_idem]
  refine ⟨congrArg (List.foldl addEdge []) edges,?_,?_,?_⟩
  · exact congrArg sortDedup bindings
  · exact congrArg sortDedup arguments
  · exact congrArg sortDedup sites

def emptyResolution : FileCallgraphResolution := ⟨[],[],[],[]⟩

structure FileCallgraphResolution.Absent (resolution : FileCallgraphResolution) (caller : FuncId) : Prop where
  edges : resolution.edges.filter (·.fromFunc = caller) = []
  localBindings : resolution.localBindings.filter (·.caller = caller) = []
  callableArguments : resolution.callableArguments.filter (·.caller = caller) = []
  unresolvedWorkspaceSites : resolution.unresolvedWorkspaceSites.filter (·.caller = caller) = []

theorem emptyResolution_absent (caller : FuncId) : emptyResolution.Absent caller := ⟨rfl,rfl,rfl,rfl⟩

theorem resolveFile_absent {info : FileCallgraphInfo} {body : FileBody} {caller : FuncId}
    (elsewhere : ∀ decl ∈ callers body, decl.symbol ≠ caller) : (resolveFileCallEdges resolvers info body).Absent caller := by
  obtain ⟨edges,arguments,sites⟩ := @resolveDecls_owned resolvers info
    (inlineCallableTargetsByArgumentSpan body.defs body.callArgumentValues)
    (callableReferenceArgumentSpans body.callArgumentValues) caller (callers body) Memo.empty elsewhere
  refine ⟨?_,?_,?_,?_⟩
  · unfold resolveFileCallEdges
    rw [foldl_addEdge_ofCaller, List.filter_eq_nil_iff.mpr fun edge member same => edges edge member (by simpa using same)]
    rfl
  · apply List.filter_eq_nil_iff.mpr
    intro row member same
    obtain ⟨decl,declared,inside⟩ := List.mem_flatMap.mp member
    exact elsewhere decl declared ((declBindings_owned resolvers info decl row inside).symm.trans (by simpa using same))
  · apply List.filter_eq_nil_iff.mpr
    intro row member same
    exact arguments row (mem_sortDedup.mp member) (by simpa using same)
  · apply List.filter_eq_nil_iff.mpr
    intro row member same
    exact sites row (mem_sortDedup.mp member) (by simpa using same)

section
variable {files : List FileId} {results : FileId → FileCallgraphResolution} {caller : FuncId}

theorem collect_absent (absent : ∀ file ∈ files, (results file).Absent caller) :
    (collectResolvedFileEdges (files.map results)).ofCaller caller = emptyResolution := by
  have none : ∀ {β : Type} (rows : FileCallgraphResolution → List β) (callerOf : β → FuncId),
      (∀ file ∈ files, (rows (results file)).filter (callerOf · = caller) = []) →
      ((files.map results).flatMap rows).filter (callerOf · = caller) = [] := by
    intro β rows callerOf empty
    rw [List.filter_flatMap, List.flatMap_map]
    exact List.flatMap_eq_nil_iff.mpr empty
  unfold FileCallgraphResolution.ofCaller collectResolvedFileEdges
  simp only [sortDedup_filter]
  rw [none _ CallEdge.fromFunc fun file member => (absent file member).edges,
    none _ CallGraphLocalBinding.caller fun file member => (absent file member).localBindings,
    none _ CallGraphCallableArgument.caller fun file member => (absent file member).callableArguments,
    none _ UnresolvedWorkspaceCallSite.caller fun file member => (absent file member).unresolvedWorkspaceSites]
  rfl

theorem collect_ofCaller {file : FileId} (distinct : files.Nodup) (member : file ∈ files)
    (others : ∀ other ∈ files, other ≠ file → (results other).Absent caller) :
    (collectResolvedFileEdges (files.map results)).ofCaller caller = fileOfCaller (results file) caller := by
  have single : ∀ {β : Type} (rows : FileCallgraphResolution → List β) (callerOf : β → FuncId),
      (∀ other ∈ files, other ≠ file → (rows (results other)).filter (callerOf · = caller) = []) →
      ((files.map results).flatMap rows).filter (callerOf · = caller) = (rows (results file)).filter (callerOf · = caller) := by
    intro β rows callerOf empty
    rw [List.filter_flatMap, List.flatMap_map, flatMap_single distinct empty, if_pos member]
  unfold fileOfCaller FileCallgraphResolution.ofCaller collectResolvedFileEdges
  simp only [sortDedup_filter, List.flatMap_singleton]
  rw [single _ CallEdge.fromFunc fun other inside differs => (others other inside differs).edges,
    single _ CallGraphLocalBinding.caller fun other inside differs => (others other inside differs).localBindings,
    single _ CallGraphCallableArgument.caller fun other inside differs => (others other inside differs).callableArguments,
    single _ UnresolvedWorkspaceCallSite.caller fun other inside differs => (others other inside differs).unresolvedWorkspaceSites]

end

theorem inlineTargets_perm {left right : List Decl} (perm : left.Perm right) (facts : List CallArgumentValueFact) :
    inlineCallableTargetsByArgumentSpan left facts = inlineCallableTargetsByArgumentSpan right facts := by
  have same : inlineCandidates left = inlineCandidates right := by
    funext callback
    exact sortDedup_same fun func => ((perm.filter _).map _).mem_iff
  unfold inlineCallableTargetsByArgumentSpan inlineBinding
  rw [same]

-- A symbol names one place, so no file declares it twice.
theorem GlobalIndex.symbols_nodup (global : GlobalIndex) (file : FileId) :
    ((global.bodies file).defs.map (·.symbol)).Nodup := by
  rw [List.nodup_iff_injective_getElem]
  intro ⟨i,low⟩ ⟨j,high⟩ same
  simp only [List.getElem_map] at same
  simp only [List.length_map] at low high
  have one := global.bound file i _ (List.getElem?_eq_getElem low)
  have other := global.bound file j _ (List.getElem?_eq_getElem high)
  rw [same, other] at one
  cases one
  rfl

theorem perm_ofSymbol (caller : FuncId) {left right : List Decl} (perm : left.Perm right)
    (distinct : (right.map (·.symbol)).Nodup) (own : ∀ decl ∈ right, decl.symbol = caller) : left = right := by
  match right, perm, distinct, own with
  | [], perm, _, _ => exact perm.eq_nil
  | [decl], perm, _, _ => exact List.perm_singleton.mp perm
  | decl :: other :: rest, _, distinct, own =>
    have same := (own decl (by simp)).trans (own other (by simp)).symm
    simp [same] at distinct

-- Two declarations of a file with one cache key agree on its answer.
def CachesAgree (resolvers : Resolvers) (info : FileCallgraphInfo) (body : FileBody) : Prop :=
  Agree (fileProgram resolvers info body) (callers body)

def selectDefs (included : List FuncId) (body : FileBody) : FileBody :=
  { body with defs := body.defs.filter fun decl => included.contains decl.symbol }

-- The arguments of the selected bodies bind the same inline callbacks in the
-- selection as in the whole file.
def InlineSelected (included : List FuncId) (body : FileBody) : Prop :=
  ∀ decl ∈ callers body, decl.symbol ∈ included → ∀ span ∈ argumentSpans decl.flowEvents,
    inlineCallableTargetsByArgumentSpan (selectDefs included body).defs body.callArgumentValues span =
      inlineCallableTargetsByArgumentSpan body.defs body.callArgumentValues span

structure SameBody (streamed body : FileBody) : Prop where
  defs : streamed.defs.Perm body.defs
  callArgumentValues : streamed.callArgumentValues = body.callArgumentValues

def Streams (global : GlobalIndex) (bodyForFile : FileId → Option FileBody) : Prop :=
  ∀ file, match bodyForFile file with
    | some streamed => SameBody streamed (global.bodies file)
    | none => (global.bodies file).defs = []

section
variable {resolvers : Resolvers} {info : FileCallgraphInfo} {streamed body : FileBody} {caller : FuncId}
variable {included : List FuncId}

section
variable (same : SameBody streamed body)
include same

theorem SameBody.callers : (callers streamed).Perm (callers body) := same.defs.filter _

theorem SameBody.program : fileProgram resolvers info streamed = fileProgram resolvers info body := by
  unfold fileProgram
  rw [same.callArgumentValues, inlineTargets_perm same.defs]

theorem SameBody.agree (agree : CachesAgree resolvers info body) :
    CachesAgree resolvers info streamed := by
  unfold CachesAgree
  rw [same.program]
  intro decl member other member'
  exact agree decl (same.callers.mem_iff.mp member) other (same.callers.mem_iff.mp member')

theorem SameBody.own (distinct : (body.defs.map (·.symbol)).Nodup) :
    (Callgraph.callers streamed).filter (·.symbol = caller) = (Callgraph.callers body).filter (·.symbol = caller) := by
  apply perm_ofSymbol caller (same.callers.filter _)
  · exact distinct.sublist (((List.filter_sublist).trans List.filter_sublist).map _)
  · intro decl member
    simpa using (List.mem_filter.mp member).2

theorem SameBody.scratch (distinct : (body.defs.map (·.symbol)).Nodup) :
    scratchResolution resolvers info streamed caller = scratchResolution resolvers info body caller := by
  unfold scratchResolution
  rw [same.own distinct, same.program]

theorem SameBody.select :
    SameBody (selectDefs included streamed) (selectDefs included body) :=
  ⟨same.defs.filter _,same.callArgumentValues⟩

end

theorem callers_select :
    callers (selectDefs included body) = (callers body).filter fun decl => included.contains decl.symbol := by
  unfold callers selectDefs
  rw [List.filter_filter, List.filter_filter]
  congr 1
  funext decl
  exact Bool.and_comm _ _

section
variable (inline : InlineSelected included body)
include inline

theorem select_program {decl : Decl} (member : decl ∈ callers body)
    (chosen : decl.symbol ∈ included) :
    fileProgram resolvers info (selectDefs included body) decl = fileProgram resolvers info body decl :=
  addResolvedCallEdges_congr decl.flowEvents (inline decl member chosen)

theorem select_agree (agree : CachesAgree resolvers info body) :
    CachesAgree resolvers info (selectDefs included body) := by
  intro decl member other member' key left right
  rw [callers_select] at member member'
  obtain ⟨inside,chosen⟩ := List.mem_filter.mp member
  obtain ⟨inside',chosen'⟩ := List.mem_filter.mp member'
  rw [select_program inline inside (by simpa using chosen), select_program inline inside' (by simpa using chosen')]
  exact agree decl inside other inside' key left right

theorem select_scratch (chosen : caller ∈ included) :
    scratchResolution resolvers info (selectDefs included body) caller = scratchResolution resolvers info body caller := by
  have own : (callers (selectDefs included body)).filter (·.symbol = caller) = (callers body).filter (·.symbol = caller) := by
    rw [callers_select, List.filter_filter]
    apply List.filter_congr
    intro decl _
    by_cases here : decl.symbol = caller
    · simp [here, chosen]
    · simp [here]
  have programs : ∀ {β : Type} (rows : ResolutionRows → List β),
      ((callers body).filter (·.symbol = caller)).flatMap (fun decl => rows (fileProgram resolvers info (selectDefs included body) decl).plain) =
        ((callers body).filter (·.symbol = caller)).flatMap fun decl => rows (fileProgram resolvers info body decl).plain := by
    intro β rows
    apply List.flatMap_congr
    intro decl member
    obtain ⟨inside,here⟩ := List.mem_filter.mp member
    have equal : decl.symbol = caller := by simpa using here
    rw [select_program inline inside (equal ▸ chosen)]
  unfold scratchResolution scratchRows
  rw [own]
  simp only [programs ResolutionRows.edges, programs ResolutionRows.callableArguments, programs ResolutionRows.unresolvedWorkspaceSites]

end

end

section
variable {global : GlobalIndex} {resolvers : Resolvers} {infoForFile : FileId → FileCallgraphInfo}
  {bodyForFile : FileId → Option FileBody} {caller : FuncId}
variable {file : FileId} {view : FileBody → FileBody}

theorem declaringFile_of_mem {decl : Decl} (member : decl ∈ callers (global.bodies file)) :
    global.declaringFile decl.symbol = some file := by
  obtain ⟨place,found⟩ := List.mem_iff_getElem?.mp (List.mem_filter.mp member).1
  unfold GlobalIndex.declaringFile
  rw [global.bound file place decl found]
  rfl

def streamedResult (resolvers : Resolvers) (infoForFile : FileId → FileCallgraphInfo) (bodyForFile : FileId → Option FileBody)
    (view : FileBody → FileBody) (file : FileId) : FileCallgraphResolution :=
  match bodyForFile file with
  | none => emptyResolution
  | some body => resolveFileCallEdges resolvers (infoForFile file) (view body)

theorem buildForFuncsStreaming_streamed (global : GlobalIndex) (resolvers : Resolvers)
    (infoForFile : FileId → FileCallgraphInfo) (included : List FuncId) (bodyForFile : FileId → Option FileBody) :
    buildForFuncsStreaming global resolvers infoForFile included bodyForFile = collectResolvedFileEdges
      ((sortDedup (included.filterMap global.declaringFile)).map
        (streamedResult resolvers infoForFile bodyForFile (selectDefs included))) := rfl

theorem buildForFilesStreaming_streamed (resolvers : Resolvers) (infoForFile : FileId → FileCallgraphInfo)
    (files : List FileId) (bodyForFile : FileId → Option FileBody) :
    buildForFilesStreaming resolvers infoForFile files bodyForFile = collectResolvedFileEdges
      ((sortDedup files).map (streamedResult resolvers infoForFile bodyForFile id)) := rfl

theorem buildResident_streamed (global : GlobalIndex) (resolvers : Resolvers) (infoForFile : FileId → FileCallgraphInfo) :
    buildResident global resolvers infoForFile = collectResolvedFileEdges
      ((sortDedup global.files).map (streamedResult resolvers infoForFile (fun file => some (global.bodies file)) id)) := rfl

theorem streamedResult_absent (streams : Streams global bodyForFile)
    (narrows : ∀ body, ∀ decl ∈ callers (view body), decl ∈ callers body) (elsewhere : global.declaringFile caller ≠ some file) :
    (streamedResult resolvers infoForFile bodyForFile view file).Absent caller := by
  have same := streams file
  unfold streamedResult
  cases streamed : bodyForFile file with
  | none => exact emptyResolution_absent caller
  | some body =>
    rw [streamed] at same
    apply resolveFile_absent
    intro decl member here
    have inside := same.callers.mem_iff.mp (narrows body decl member)
    exact elsewhere (here ▸ declaringFile_of_mem inside)

theorem scratch_of_empty {info : FileCallgraphInfo} {body : FileBody} (empty : body.defs = []) :
    scratchResolution resolvers info body caller = emptyResolution := by
  unfold scratchResolution callers
  rw [empty]
  rfl

theorem fileOfCaller_absent {resolution : FileCallgraphResolution} (absent : resolution.Absent caller) :
    fileOfCaller resolution caller = emptyResolution := by
  exact @collect_absent [0] (fun _ => resolution) caller fun _ _ => absent

-- A build over files that has the caller's own file shows what the caller resolves
-- to on its own.
theorem streamedBuild_ofCaller {files : List FileId}
    (streams : Streams global bodyForFile) (narrows : ∀ body, ∀ decl ∈ callers (view body), decl ∈ callers body)
    (declared : global.declaringFile caller = some file) (member : file ∈ files)
    (own : ∀ streamed, SameBody streamed (global.bodies file) →
      fileOfCaller (resolveFileCallEdges resolvers (infoForFile file) (view streamed)) caller =
        scratchResolution resolvers (infoForFile file) (global.bodies file) caller) :
    (collectResolvedFileEdges ((sortDedup files).map (streamedResult resolvers infoForFile bodyForFile view))).ofCaller caller =
      scratchResolution resolvers (infoForFile file) (global.bodies file) caller := by
  rw [collect_ofCaller (sortDedup_sorted files).nodup (mem_sortDedup.mpr member)]
  · have same := streams file
    unfold streamedResult
    cases streamed : bodyForFile file with
    | none =>
      rw [streamed] at same
      rw [scratch_of_empty same]
      exact fileOfCaller_absent (emptyResolution_absent caller)
    | some body =>
      rw [streamed] at same
      exact own body same
  · intro other _ differs
    apply streamedResult_absent streams narrows
    rw [declared]
    exact fun equal => differs (Option.some.inj equal).symm

theorem streamedBuild_absent {files : List FileId} (streams : Streams global bodyForFile)
    (narrows : ∀ body, ∀ decl ∈ callers (view body), decl ∈ callers body) (undeclared : global.declaringFile caller = none) :
    (collectResolvedFileEdges ((sortDedup files).map (streamedResult resolvers infoForFile bodyForFile view))).ofCaller caller =
      emptyResolution := by
  apply collect_absent
  intro file _
  apply streamedResult_absent streams narrows
  rw [undeclared]
  exact fun equal => by cases equal

end

theorem resident_streams (global : GlobalIndex) : Streams global fun file => some (global.bodies file) :=
  fun file => ⟨List.Perm.refl (global.bodies file).defs,rfl⟩

theorem resident_ofCaller {global : GlobalIndex} {infoForFile : FileId → FileCallgraphInfo}
    {caller : FuncId} {file : FileId} (declared : global.declaringFile caller = some file)
    (agree : CachesAgree resolvers (infoForFile file) (global.bodies file)) :
    (buildResident global resolvers infoForFile).ofCaller caller =
      scratchResolution resolvers (infoForFile file) (global.bodies file) caller := by
  have streams := resident_streams global
  have whole : ∀ body, ∀ decl ∈ callers (id body), decl ∈ callers body := fun _ _ member => member
  rw [buildResident_streamed]
  by_cases listed : file ∈ global.files
  · apply streamedBuild_ofCaller streams whole declared listed
    intro streamed same
    exact (resolveFile_scratch (same.agree agree) caller).trans (same.scratch (global.symbols_nodup file))
  · have empty : (global.bodies file).defs = [] := by
      by_contra some
      exact listed (global.listed file some)
    rw [scratch_of_empty empty]
    apply collect_absent
    intro other member
    refine streamedResult_absent streams whole ?_
    rw [declared]
    intro equal
    cases equal
    exact listed (mem_sortDedup.mp member)

def splitDot : Text → Text × Text
  | [] => ([],[])
  | '.' :: rest => ([],rest)
  | c :: rest => (c :: (splitDot rest).1,(splitDot rest).2)

def typedResolvers (functions : List (Text × FuncId)) (files : FuncId → Option FileId) : Resolvers where
  declaringFile := files
  trim := id
  shortCallee name := (splitDot name).2
  qualifiedNameOwner name := if (splitDot name).2.isEmpty then none else some (splitDot name).1
  receiverNameFromCallName _ := none
  fastLocalCallableReferenceName _ := false
  assignSourceCallMemberLike _ := false
  resolveAliasTargets _ decl := decl.typeAliases.map fun (name,type) => (name,.type type)
  collectLocalCallableBindings _ _ _ := []
  resolveCallableWithContext context name :=
    match context.aliasTargets.lookup (splitDot name).1 with
    | some (.type type) => (functions.lookup (type ++ '.' :: (splitDot name).2)).toList
    | _ => (functions.lookup name).toList
  implicitReceiverMethodTargets _ _ := pure []
  workspaceModuleTargets _ _ _ _ := []
  localCallableBindingTargets _ _ _ _ := []
  nestedLocalCallableTargets _ _ _ := []
  declaredAncestorConstructorTargets _ := []
  constructorTargetsForClassCall _ _ _ _ _ := []
  implicitEnclosingConstructor _ _ := false
  receiverMethodTargets _ _ := pure []
  typeQualifiedMethodTargets _ _ := pure []
  dynamicParamReceiverMethodTarget _ _ _ := []
  namespaceAliasTargetTail _ _ := none
  qualifiedAliasTargetEntryTail _ _ := none
  qualifiedAliasTargetTail _ _ := none
  qualifiedWorkspaceTargetTail _ := none
  buildTargetLinkedCallableTargets _ _ := []
  qualifiedOwnerInWorkspace _ _ := true
  qualifiedModuleAliasCall _ _ := false
  callSiteFacts _ span name receiver receiverTypes callKind args :=
    ⟨name,receiver,receiverTypes,callKind,span,args,receiver,false,true,false⟩
  narrowCandidates _ _ candidates := pure candidates.values
  edgeShape _ _ _ _ := none
  callableReferenceVariants _ arg _ := if arg.valueText.contains '>' then [] else [arg.valueText]
  aliasTargetQualifiedName context name := (context.aliasTargets.lookup (splitDot name).1).isSome
  valueBindingShadowsCallable _ _ _ := false
  callInvokesParameter _ _ := false
  funcLanguageMatches _ _ := true
  assignmentHasExplicitCall _ _ _ := false
  narrowAssigned _ _ _ _ _ candidates := pure candidates
  assignedEdgeShape _ _ _ _ := none

def spanAt (start stop : Nat) : Span := ⟨0,start,stop⟩

-- `def name(svc: type): emit(argument)`
def emitter (symbol : FuncId) (start : Nat) (type argument : String) : Decl where
  symbol := symbol
  kind := .function
  name := []
  qualifiedName := none
  modulePath := []
  span := spanAt start (start + 50)
  nameSpan := spanAt start (start + 4)
  parent := none
  flowEvents := [.call (spanAt (start + 20) (start + 40)) "emit".toList none [] .function
    [⟨spanAt (start + 25) (start + 39),.value,none,argument.toList,none,[]⟩]]
  params := ["svc".toList]
  implicitReceiverNames := []
  typeAliases := [("svc".toList,type.toList)]

def emittersBody (firstType secondType : String) : FileBody :=
  ⟨[emitter 0 100 firstType "svc.run",emitter 1 200 secondType "svc.run"],[]⟩

def emittersIndex (firstType secondType : String) : GlobalIndex where
  files := [0]
  entries symbol := if symbol < 2 then some (0,symbol) else none
  bodies file := if file = 0 then emittersBody firstType secondType else ⟨[],[]⟩
  listed file some := by
    by_cases here : file = 0
    · simp [here]
    · simp [here] at some
  bound file place decl found := by
    by_cases here : file = 0
    · rw [if_pos here] at found
      match place, found with
      | 0, found =>
        cases found
        rw [here]
        rfl
      | 1, found =>
        cases found
        rw [here]
        rfl
    · simp [here] at found

def runMethods : Resolvers := typedResolvers [("A.run".toList,2),("B.run".toList,3)] fun symbol => if symbol < 2 then some 0 else none

def plainInfo (file : FileId) : FileCallgraphInfo := ⟨file,[],[],none,⟨false,false,[]⟩⟩

theorem emitters_agree : CachesAgree runMethods (plainInfo 0) (emittersBody "A" "A") := by
  have asked : ∀ decl ∈ callers (emittersBody "A" "A"),
      (fileProgram runMethods (plainInfo 0) (emittersBody "A" "A") decl).asked =
        [⟨.callable "svc.run".toList 0 [],[2]⟩] := by
    intro decl member
    rcases List.mem_cons.mp member with rfl | later
    · rfl
    · rw [List.mem_singleton.mp later]
      rfl
  intro decl member other member' key left right asks asks'
  have one := asks.mem_asked
  have two := asks'.mem_asked
  rw [asked decl member, List.mem_singleton] at one
  rw [asked other member', List.mem_singleton] at two
  cases one
  cases two
  rfl

-- `emit(x => x)` with the callback declared as a function of its own: the selection of
-- the host alone loses the argument.
def callbackBody : FileBody :=
  ⟨[emitter 0 100 "A" "x => x",{ emitter 1 200 "A" "" with span := spanAt 125 139, flowEvents := [] }],
    [⟨spanAt 120 140,0,spanAt 125 139,none,some (spanAt 125 139)⟩]⟩

example : (resolveFileCallEdges runMethods (plainInfo 0) callbackBody).callableArguments = [⟨0,spanAt 125 139,1⟩] ∧
    (resolveFileCallEdges runMethods (plainInfo 0) (selectDefs [0] callbackBody)).callableArguments = [] := by
  decide

end BonsaiNinja.Callgraph
