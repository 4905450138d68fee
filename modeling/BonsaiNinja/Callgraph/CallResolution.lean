import BonsaiNinja.Callgraph.CallEdges
import BonsaiNinja.LangApi.FlowEvents
import BonsaiNinja.Library.Memo

namespace BonsaiNinja.Callgraph
open Library LangApi

inductive CacheKey where
  | callable (name : Text) (callerFile : FileId) (callerModule : ModulePath)
  | methodCandidates (classSym : FuncId) (methodName : Text) (callerFile : FileId) (callerModule : ModulePath)
  | workspaceModule (aliasTarget aliasTail : Text) (callerFile : FileId) (callerModule : ModulePath)
    (allowTerminalTrailer : Bool)
  | assignedTypeNames (caller : FuncId) (callSpan : Span) (receiver : Text)
  | callReturnTypeNames (caller : FuncId) (callSpan : Span)
  deriving DecidableEq

abbrev CacheKey.Answer : CacheKey → Type
  | .callable _ _ _ => List FuncId
  | .methodCandidates _ _ _ _ => List FuncId
  | .workspaceModule _ _ _ _ _ => List FuncId
  | .assignedTypeNames _ _ _ => List Text
  | .callReturnTypeNames _ _ => List Text

abbrev Lookup := Memo CacheKey.Answer

def cached (key : CacheKey) (miss : Lookup key.Answer) : Lookup key.Answer := Memo.lookup key miss

structure LanguageCapabilities where
  buildTargetLinkage : Bool
  bareCallConstructorSyntax : Bool
  moduleDefaultExportNames : List Text

structure FileCallgraphInfo where
  file : FileId
  aliases : List (Text × Text)
  aliasTargets : AliasTargets
  language : Option Text
  capabilities : LanguageCapabilities

-- What a resolver helper may read of the calling declaration.
structure CallerContext where
  info : FileCallgraphInfo
  decl : Decl
  aliasTargets : AliasTargets
  localBindings : List (Text × FuncId)

structure CallSiteFacts where
  name : Text
  receiver : Option Text
  receiverTypes : List Text
  callKind : CallKind
  span : Span
  args : List CallArg
  semanticReceiver : Option Text
  aliasQualified : Bool
  lexicalValueShadow : Bool
  explicitAncestorConstructor : Bool

structure CallCandidateSet where
  values : List FuncId
  fromCallableBinding : Bool
  fromDynamicParamReceiver : Bool

-- The resolver helpers over one global index and build context, as arbitrary
-- functions of the complete caller context. Those that have a cache at hand are
-- computations that may ask it.
structure Resolvers where
  declaringFile : FuncId → Option FileId
  trim : Text → Text
  shortCallee : Text → Text
  qualifiedNameOwner : Text → Option Text
  receiverNameFromCallName : Text → Option Text
  fastLocalCallableReferenceName : Text → Bool
  assignSourceCallMemberLike : Text → Bool
  resolveAliasTargets : FileCallgraphInfo → Decl → AliasTargets
  collectLocalCallableBindings : FileCallgraphInfo → Decl → AliasTargets → List (Text × FuncId)
  resolveCallableWithContext : CallerContext → Text → List FuncId
  implicitReceiverMethodTargets : CallerContext → Text → Lookup (List FuncId)
  workspaceModuleTargets : CallerContext → Text → Text → Bool → List FuncId
  localCallableBindingTargets : CallerContext → Text → Option Text → Bool → List FuncId
  nestedLocalCallableTargets : CallerContext → Text → Span → List FuncId
  declaredAncestorConstructorTargets : CallerContext → List FuncId
  constructorTargetsForClassCall : CallerContext → Text → Option Text → List Text → Bool → List FuncId
  implicitEnclosingConstructor : CallerContext → Text → Bool
  receiverMethodTargets : CallerContext → CallSiteFacts → Lookup (List FuncId)
  typeQualifiedMethodTargets : CallerContext → Text → Lookup (List FuncId)
  dynamicParamReceiverMethodTarget : CallerContext → Option Text → Text → List FuncId
  namespaceAliasTargetTail : CallerContext → Text → Option (Text × Text)
  qualifiedAliasTargetEntryTail : CallerContext → Text → Option (AliasTarget × Text)
  qualifiedAliasTargetTail : CallerContext → Text → Option (Text × Text)
  qualifiedWorkspaceTargetTail : Text → Option (Text × Text)
  buildTargetLinkedCallableTargets : CallerContext → Text → List FuncId
  qualifiedOwnerInWorkspace : CallerContext → Text → Bool
  qualifiedModuleAliasCall : CallerContext → Text → Bool
  callSiteFacts : CallerContext → Span → Text → Option Text → List Text → CallKind → List CallArg → CallSiteFacts
  narrowCandidates : CallerContext → CallSiteFacts → CallCandidateSet → Lookup (List FuncId)
  edgeShape : CallerContext → CallSiteFacts → Bool → List FuncId → Option (EdgeKind × EdgeProvenance)
  callableReferenceVariants : CallerContext → CallArg → Bool → List Text
  aliasTargetQualifiedName : CallerContext → Text → Bool
  valueBindingShadowsCallable : CallerContext → Text → Span → Bool
  callInvokesParameter : CallerContext → Text → Bool
  funcLanguageMatches : CallerContext → FuncId → Bool
  assignmentHasExplicitCall : CallerContext → Text → Span → Bool
  narrowAssigned : CallerContext → Text → List Text → Span → Bool → List FuncId → Lookup (List FuncId)
  assignedEdgeShape : CallerContext → Text → Bool → List FuncId → Option (EdgeKind × EdgeProvenance)

-- What one declaration adds to its file, in the order it is pushed.
structure ResolutionRows where
  edges : List CallEdge
  callableArguments : List CallGraphCallableArgument
  unresolvedWorkspaceSites : List UnresolvedWorkspaceCallSite

instance : EmptyCollection ResolutionRows := ⟨⟨[],[],[]⟩⟩

instance : Append ResolutionRows where
  append a b := ⟨a.edges ++ b.edges,a.callableArguments ++ b.callableArguments,
    a.unresolvedWorkspaceSites ++ b.unresolvedWorkspaceSites⟩

def orElse (values : List FuncId) (admitted : Bool) (stage : Lookup (List FuncId)) : Lookup (List FuncId) :=
  if values.isEmpty && admitted then stage else pure values

namespace Resolvers
variable (resolvers : Resolvers)

def collectCallableTargets (context : CallerContext) (name : Text) : Lookup (List FuncId) := do
  let targets ← resolvers.implicitReceiverMethodTargets context name
  if !targets.isEmpty then return targets
  match resolvers.declaringFile context.decl.symbol with
  | none => return []
  | some callerFile =>
    cached (.callable name callerFile context.decl.modulePath) (pure (resolvers.resolveCallableWithContext context name))

def collectWorkspaceModuleTargets (context : CallerContext) (aliasTarget aliasTail : Text) (allowTerminalTrailer : Bool) :
    Lookup (List FuncId) :=
  if aliasTarget.isEmpty || aliasTail.isEmpty then pure []
  else
    match resolvers.declaringFile context.decl.symbol with
    | none => pure []
    | some callerFile =>
      cached (.workspaceModule aliasTarget aliasTail callerFile context.decl.modulePath allowTerminalTrailer)
        (pure (resolvers.workspaceModuleTargets context aliasTarget aliasTail allowTerminalTrailer))

def collectWorkspaceTargetsForAliasEntry (context : CallerContext) (aliasTail : Text) : AliasTarget → Lookup (List FuncId)
  | .nameSpace module => resolvers.collectWorkspaceModuleTargets context module aliasTail true
  | .member module member => do
    let targets ← resolvers.collectWorkspaceModuleTargets context module aliasTail true
    orElse targets true (resolvers.collectWorkspaceModuleTargets context member aliasTail true)
  | .type _ => pure []

def collectAliasTails (context : CallerContext) (target : AliasTarget) : List Text → Lookup (List FuncId)
  | [] => pure []
  | tail :: rest => do
    let first ← resolvers.collectWorkspaceTargetsForAliasEntry context tail target
    let later ← collectAliasTails context target rest
    return first ++ later

def aliasTails (context : CallerContext) : AliasTarget → List Text
  | .nameSpace _ => context.info.capabilities.moduleDefaultExportNames
  | .member _ member => [member]
  | .type _ => []

def collectTail (context : CallerContext) (allowTerminalTrailer : Bool) : Option (Text × Text) → Lookup (List FuncId)
  | some (target,tail) => resolvers.collectWorkspaceModuleTargets context target tail allowTerminalTrailer
  | none => pure []

def collectQualifiedWorkspaceTargets (context : CallerContext) (name : Text) : Lookup (List FuncId) := do
  let values ← match context.aliasTargets.lookup name with
    | some target => do
      let candidates ← resolvers.collectAliasTails context target (aliasTails context target)
      pure candidates.dedup
    | none => pure []
  let values ← orElse values true (resolvers.collectTail context true (resolvers.namespaceAliasTargetTail context name))
  let values ← orElse values true
    (match resolvers.qualifiedAliasTargetEntryTail context name with
      | some (target,tail) => resolvers.collectWorkspaceTargetsForAliasEntry context tail target
      | none => pure [])
  let values ← orElse values true (resolvers.collectTail context true (resolvers.qualifiedAliasTargetTail context name))
  orElse values true (resolvers.collectTail context false (resolvers.qualifiedWorkspaceTargetTail name))

def collectAstBoundCallCandidates (context : CallerContext) (facts : CallSiteFacts) : Lookup CallCandidateSet := do
  let bound := resolvers.localCallableBindingTargets context facts.name facts.semanticReceiver facts.aliasQualified
  let bare := facts.semanticReceiver.isNone && !facts.aliasQualified && !facts.lexicalValueShadow
  let values ← orElse bound bare (pure (resolvers.nestedLocalCallableTargets context facts.name facts.span))
  let values ← orElse values (bare && facts.callKind == .function && (resolvers.qualifiedNameOwner facts.name).isSome)
    (pure (resolvers.resolveCallableWithContext context facts.name))
  let values ← orElse values facts.explicitAncestorConstructor (pure (resolvers.declaredAncestorConstructorTargets context))
  let values ← orElse values (facts.callKind == .constructor)
    (pure (resolvers.constructorTargetsForClassCall context facts.name facts.receiver facts.receiverTypes
      (resolvers.implicitEnclosingConstructor context facts.name)))
  let values ← orElse values true (resolvers.receiverMethodTargets context facts)
  let values ← orElse values facts.semanticReceiver.isNone (resolvers.typeQualifiedMethodTargets context facts.name)
  if values.isEmpty then
    let dynamic := resolvers.dynamicParamReceiverMethodTarget context facts.semanticReceiver facts.name
    return ⟨dynamic,!bound.isEmpty,!dynamic.isEmpty⟩
  else return ⟨values,!bound.isEmpty,false⟩

def collectWorkspaceCallCandidates (context : CallerContext) (facts : CallSiteFacts) (values : List FuncId) :
    Lookup (List FuncId × Bool) := do
  let values ← orElse values
    (facts.semanticReceiver.isNone && !facts.lexicalValueShadow && resolvers.fastLocalCallableReferenceName facts.name)
    (resolvers.collectCallableTargets context facts.name)
  let typedReceiverMethod := facts.semanticReceiver.isSome && !facts.receiverTypes.isEmpty
  let values ← orElse values (!typedReceiverMethod && !facts.lexicalValueShadow)
    (resolvers.collectQualifiedWorkspaceTargets context facts.name)
  let unresolvedMethodReceiver :=
    values.isEmpty && facts.callKind == .method && facts.semanticReceiver.isSome && !facts.aliasQualified
  let values ← orElse values
    (!unresolvedMethodReceiver && !facts.lexicalValueShadow && (resolvers.qualifiedNameOwner facts.name).isNone)
    (resolvers.collectCallableTargets context facts.name)
  let values ← orElse values
    (context.info.capabilities.buildTargetLinkage && facts.semanticReceiver.isNone && !facts.lexicalValueShadow)
    (pure (resolvers.buildTargetLinkedCallableTargets context facts.name))
  let values ← orElse values (!unresolvedMethodReceiver && !facts.lexicalValueShadow)
    (resolvers.collectTail context true (resolvers.qualifiedAliasTargetTail context facts.name))
  return (values,unresolvedMethodReceiver)

def collectQualifiedCallFallback (context : CallerContext) (facts : CallSiteFacts) : Lookup (Option (List FuncId)) :=
  if facts.aliasQualified || facts.lexicalValueShadow then pure none
  else do
    let short := resolvers.shortCallee facts.name
    let resolvedName := (context.info.aliases.lookup short).getD short
    let values ← orElse [] (resolvers.qualifiedOwnerInWorkspace context facts.name && resolvedName != facts.name)
      (resolvers.collectCallableTargets context resolvedName)
    if values.isEmpty &&
        ((resolvers.qualifiedNameOwner facts.name).isSome || resolvers.qualifiedModuleAliasCall context facts.name) then
      return none
    else return some values

def discoverCallSiteCandidates (context : CallerContext) (facts : CallSiteFacts) : Lookup (Option CallCandidateSet) := do
  let bound ← resolvers.collectAstBoundCallCandidates context facts
  let (values,unresolvedMethodReceiver) ← resolvers.collectWorkspaceCallCandidates context facts bound.values
  let fallback ← if values.isEmpty && !unresolvedMethodReceiver then resolvers.collectQualifiedCallFallback context facts
    else pure (some values)
  match fallback with
  | none => return none
  | some values => do
    let values ← orElse values
      (context.info.capabilities.bareCallConstructorSyntax && facts.callKind == .function && facts.semanticReceiver.isNone)
      (pure (resolvers.constructorTargetsForClassCall context facts.name none [] false))
    return some { bound with values := values }

def emitCandidateEdges (context : CallerContext) (span : Span) (candidates : List FuncId)
    (shape : Option (EdgeKind × EdgeProvenance)) : ResolutionRows :=
  if candidates.isEmpty then ∅
  else
    match shape with
    | none => ⟨[],[],[⟨context.decl.symbol,span⟩]⟩
    | some (kind,provenance) => ⟨candidates.map fun target => ⟨context.decl.symbol,target,span,kind,provenance⟩,[],[]⟩

def resolveAndEmitCallSite (context : CallerContext) (facts : CallSiteFacts) : Lookup ResolutionRows := do
  match ← resolvers.discoverCallSiteCandidates context facts with
  | none => return ∅
  | some candidates => do
    let narrowed ← resolvers.narrowCandidates context facts candidates
    return emitCandidateEdges context facts.span narrowed
      (resolvers.edgeShape context facts candidates.fromCallableBinding narrowed)

-- The references an argument may name, each with its own shadowing.
def resolveVariants (context : CallerContext) (arg : CallArg) (compilerCallableReference originalAliasQualified : Bool) :
    List Text → Lookup (List FuncId)
  | [] => pure []
  | trimmed :: rest =>
    let aliasQualified := resolvers.aliasTargetQualifiedName context trimmed
    let next := resolveVariants context arg compilerCallableReference originalAliasQualified rest
    let bound :=
      resolvers.localCallableBindingTargets context trimmed (resolvers.receiverNameFromCallName trimmed) aliasQualified
    if trimmed.isEmpty || originalAliasQualified && !aliasQualified then next
    else if !bound.isEmpty then pure bound
    else if !aliasQualified &&
        (context.decl.params.contains trimmed || resolvers.valueBindingShadowsCallable context trimmed arg.span) then next
    else do
      let short := resolvers.shortCallee trimmed
      let targets ← resolvers.collectCallableTargets context trimmed
      let targets ← orElse targets (compilerCallableReference && short != trimmed && !aliasQualified)
        (resolvers.collectCallableTargets context short)
      if targets.isEmpty then next else return targets

def resolveCallableArg (context : CallerContext) (arg : CallArg) (compilerCallableReference : Bool) : Lookup (List FuncId) :=
  let variants := resolvers.callableReferenceVariants context arg compilerCallableReference
  resolvers.resolveVariants context arg compilerCallableReference
    (variants.any (resolvers.aliasTargetQualifiedName context)) variants

def callbackArgTargets (context : CallerContext) (inlineTargets : Span → Option (List FuncId)) (references : List Span)
    (arg : CallArg) : Lookup (List FuncId) :=
  match inlineTargets arg.span with
  | some targets => pure targets
  | none => resolvers.resolveCallableArg context arg (references.contains arg.span)

-- Callable arguments are relations of their own and never call edges.
def callbackArgRows (context : CallerContext) (span : Span) : List FuncId → ResolutionRows
  | [] => ∅
  | [target] => if resolvers.funcLanguageMatches context target then ⟨[],[⟨context.decl.symbol,span,target⟩],[]⟩ else ∅
  | _ => ⟨[],[],[⟨context.decl.symbol,span⟩]⟩

def addCallbackArg (context : CallerContext) (inlineTargets : Span → Option (List FuncId)) (references : List Span)
    (arg : CallArg) : Lookup ResolutionRows := do
  let targets ← resolvers.callbackArgTargets context inlineTargets references arg
  return resolvers.callbackArgRows context arg.span targets

def addCallbackArgEdges (context : CallerContext) (inlineTargets : Span → Option (List FuncId)) (references : List Span) :
    List CallArg → Lookup ResolutionRows
  | [] => pure ∅
  | arg :: rest => do
    let first ← resolvers.addCallbackArg context inlineTargets references arg
    let later ← addCallbackArgEdges context inlineTargets references rest
    return first ++ later

def collectAssignSourceCallTargets (context : CallerContext) (sourceCall : Text) (span : Span) : Lookup (List FuncId) :=
  let name := resolvers.trim sourceCall
  if name.isEmpty then pure []
  else do
    let memberLike := resolvers.assignSourceCallMemberLike name
    let shadowed := !memberLike &&
      (resolvers.callInvokesParameter context name || resolvers.valueBindingShadowsCallable context name span)
    let short := resolvers.shortCallee name
    let bound := resolvers.localCallableBindingTargets context name (resolvers.receiverNameFromCallName name) false
    let values ← orElse bound (!memberLike && !shadowed) (pure (resolvers.nestedLocalCallableTargets context name span))
    let values ← orElse values (!shadowed) (resolvers.collectCallableTargets context name)
    let values ← orElse values (!shadowed)
      (resolvers.collectTail context true (resolvers.namespaceAliasTargetTail context name))
    orElse values (!memberLike && !shadowed && short != name) (resolvers.collectCallableTargets context short)

def addAssignmentCallEdges (context : CallerContext) (name : Text) (args : List Text) (span : Span)
    (valueKind : Option AssignValueKind) : Lookup ResolutionRows :=
  if valueKind == some .yieldResult || resolvers.assignmentHasExplicitCall context name span then pure ∅
  else do
    let fromBinding :=
      !(resolvers.localCallableBindingTargets context name (resolvers.receiverNameFromCallName name) false).isEmpty
    let candidates ← resolvers.collectAssignSourceCallTargets context name span
    let narrowed ← resolvers.narrowAssigned context name args span fromBinding candidates
    return emitCandidateEdges context span narrowed (resolvers.assignedEdgeShape context name fromBinding narrowed)

def addCallEventEdges (context : CallerContext) (inlineTargets : Span → Option (List FuncId)) (references : List Span)
    (span : Span) (name : Text) (receiver : Option Text) (receiverTypes : List Text) (callKind : CallKind)
    (args : List CallArg) : Lookup ResolutionRows :=
  if callKind == .operator || callKind == .indexWrite then pure ∅
  else do
    let callbacks ← resolvers.addCallbackArgEdges context inlineTargets references args
    let called ← resolvers.resolveAndEmitCallSite context
      (resolvers.callSiteFacts context span name receiver receiverTypes callKind args)
    return callbacks ++ called

mutual

def addResolvedCallEdges (context : CallerContext) (inlineTargets : Span → Option (List FuncId)) (references : List Span) :
    List FlowEvent → Lookup ResolutionRows
  | [] => pure ∅
  | event :: rest => do
    let first ← addEventEdges context inlineTargets references event
    let later ← addResolvedCallEdges context inlineTargets references rest
    return first ++ later

def addEventEdges (context : CallerContext) (inlineTargets : Span → Option (List FuncId)) (references : List Span) :
    FlowEvent → Lookup ResolutionRows
  | .call span name receiver receiverTypes callKind args =>
    resolvers.addCallEventEdges context inlineTargets references span name receiver receiverTypes callKind args
  | .assign span _ _ (some name) args _ _ valueKind => resolvers.addAssignmentCallEdges context name args span valueKind
  | .branch _ _ thenEvents elseEvents => do
    let taken ← addResolvedCallEdges context inlineTargets references thenEvents
    let other ← addResolvedCallEdges context inlineTargets references elseEvents
    return taken ++ other
  | .loop _ _ _ conditionEvents updateEvents body => do
    let checked ← addResolvedCallEdges context inlineTargets references conditionEvents
    let iterated ← addResolvedCallEdges context inlineTargets references body
    let updated ← addResolvedCallEdges context inlineTargets references updateEvents
    return checked ++ iterated ++ updated
  | .try _ body catchEvents finallyEvents _ _ _ => do
    let tried ← addResolvedCallEdges context inlineTargets references body
    let caught ← addResolvedCallEdges context inlineTargets references catchEvents
    let cleaned ← addResolvedCallEdges context inlineTargets references finallyEvents
    return tried ++ caught ++ cleaned
  | .defer _ body => addResolvedCallEdges context inlineTargets references body
  | .using _ body => addResolvedCallEdges context inlineTargets references body
  | _ => pure ∅

end

end Resolvers
end BonsaiNinja.Callgraph
