import BonsaiNinja.Idg.FunctionSummary
import BonsaiNinja.Idg.Unified

namespace BonsaiNinja.Idg
open Library

-- A call boundary is the context its callee runs in; `none` is the empty context.
abbrev ContextBoundaryKey := CallBoundaryKey
abbrev CallContext := Option ContextBoundaryKey

inductive SymbolicBaseRebaseKind where
  | prependPrefix | stripPrefix
  deriving DecidableEq, Repr

def SymbolicBaseRebaseKind.rank : SymbolicBaseRebaseKind → Nat
  | .prependPrefix => 0
  | .stripPrefix => 1

structure SymbolicBaseRebase where
  target : Nat
  prefixId : Nat
  kind : SymbolicBaseRebaseKind
  deriving DecidableEq, Repr

instance : RowOrder SymbolicBaseRebase := .lift (fun r => (r.target,r.prefixId,r.kind.rank)) fun a b same => by
  obtain ⟨target,prefixId,kind⟩ := a
  obtain ⟨target',prefixId',kind'⟩ := b
  cases kind <;> cases kind' <;> simp_all [SymbolicBaseRebaseKind.rank]

structure RebaseSpec where
  source : Nat
  target : Nat
  prefixText : Text
  kind : SymbolicBaseRebaseKind
  deriving DecidableEq, Repr

instance : RowOrder RebaseSpec := .lift (fun r => (r.source,r.target,r.prefixText,r.kind.rank)) fun a b same => by
  obtain ⟨source,target,prefixText,kind⟩ := a
  obtain ⟨source',target',prefixText',kind'⟩ := b
  cases kind <;> cases kind' <;> simp_all [SymbolicBaseRebaseKind.rank]

-- Where a local fact was written, or that it crossed a call boundary and has no
-- local order.
inductive SymbolicProvenance where
  | unordered
  | span (id : Nat)
  | interprocedural
  deriving DecidableEq, Repr

namespace SymbolicProvenance

def of (span : Option Nat) (interprocedural : Bool) : SymbolicProvenance :=
  if interprocedural then .interprocedural
  else match span with
    | some id => .span id
    | none => .unordered

def spanId : SymbolicProvenance → Option Nat
  | .span id => some id
  | _ => none

def isInterprocedural : SymbolicProvenance → Bool
  | .interprocedural => true
  | _ => false

-- The packed word: a one-based span id under the interprocedural bit.
def code : SymbolicProvenance → Nat × Nat
  | .unordered => (0,0)
  | .span id => (0,id + 1)
  | .interprocedural => (1,0)

end SymbolicProvenance

structure SymbolicFactIdentity where
  base : Nat
  field : Nat
  provenance : SymbolicProvenance
  deriving DecidableEq, Repr

instance : RowOrder SymbolicFactIdentity := .lift (fun f => (f.provenance.code,f.field,f.base)) fun a b same => by
  obtain ⟨base,field,provenance⟩ := a
  obtain ⟨base',field',provenance'⟩ := b
  cases provenance <;> cases provenance' <;> simp_all [SymbolicProvenance.code]

structure SymbolicNodeFact where
  identity : SymbolicFactIdentity
  context : CallContext
  deriving DecidableEq, Repr

structure SymbolicFactTemplate where
  base : Nat
  field : Nat
  span : Option Nat
  deriving DecidableEq, Repr

def SymbolicFactTemplate.identity (template : SymbolicFactTemplate) : SymbolicFactIdentity :=
  ⟨template.base,template.field,.of template.span false⟩

def SymbolicFieldTransformKind.rank : SymbolicFieldTransformKind → Nat
  | .argument => 0
  | .return => 1
  | .scalarReturn => 2
  | .constructorReturn => 3
  | .receiverMutation => 4
  | .copy => 5

structure ReverseSymbolicTransform where
  target : Nat
  source : Nat
  kind : SymbolicFieldTransformKind
  deriving DecidableEq, Repr

instance : RowOrder ReverseSymbolicTransform := .lift (fun r => (r.target,r.source,r.kind.rank)) fun a b same => by
  obtain ⟨target,source,kind⟩ := a
  obtain ⟨target',source',kind'⟩ := b
  cases kind <;> cases kind' <;> simp_all [SymbolicFieldTransformKind.rank]

structure ReverseScalarTransform where
  target : Nat
  writeSpan : Span
  source : Nat
  exactField : Option StrId
  deriving DecidableEq, Repr

-- The missing operand is the largest word.
instance : RowOrder ReverseScalarTransform :=
  .lift (fun r => (r.target,r.writeSpan,r.source,r.exactField.isNone,r.exactField.getD 0)) fun a b same => by
    obtain ⟨target,writeSpan,source,exactField⟩ := a
    obtain ⟨target',writeSpan',source',exactField'⟩ := b
    cases exactField <;> cases exactField' <;> simp_all

structure SymbolicRuntimeIndex where
  fields : SortedRows Text
  spans : SortedRows Span
  orderingSensitiveBases : List Nat
  baseRebases : GroupedRows Nat SymbolicBaseRebase
  exactReads : GroupedRows (Nat × Nat) NodeId
  projectedFactKeys : SortedRows (Nat × Nat)
  aggregateReads : GroupedRows Nat NodeId
  scalarWrites : GroupedRows (Nat × Span) NodeId
  storageReads : List (NodeId × Nat)
  storageWrites : List (NodeId × Nat × Nat)
  factSources : GroupedRows (Nat × Nat) NodeId
  aggregateInputs : GroupedRows NodeId NodeId
  aggregateOutputs : GroupedRows NodeId NodeId
  resolvedCallArgs : SortedRows NodeId
  reverseTransforms : SortedRows ReverseSymbolicTransform
  reverseScalarTransforms : SortedRows ReverseScalarTransform
  factPages : IdMap (List (List SymbolicFactTemplate))
  transforms : List SymbolicFieldTransform
  deriving DecidableEq

namespace SymbolicRuntimeIndex

def field (runtime : SymbolicRuntimeIndex) (fieldId : Nat) : Option Text := runtime.fields.rows[fieldId]?

def fieldId (runtime : SymbolicRuntimeIndex) (name : Text) : Option Nat := runtime.fields.rows.idxOf? name

-- `(base, field)` read through an alternate decomposition of the same access
-- path.
def rebasedField (runtime : SymbolicRuntimeIndex) (rebase : SymbolicBaseRebase) (fieldId : Nat) : Option Nat := do
  let lead ← runtime.field rebase.prefixId
  let name ← runtime.field fieldId
  match rebase.kind with
  | .prependPrefix => if lead = [] ∨ name = [] then none else runtime.fieldId (lead ++ '.' :: name)
  | .stripPrefix =>
    if (lead ++ ['.']).isPrefixOf name ∧ name.drop (lead.length + 1) ≠ [] then
      runtime.fieldId (name.drop (lead.length + 1))
    else none

def span (runtime : SymbolicRuntimeIndex) (spanId : Nat) : Option Span := runtime.spans.rows[spanId]?

def spanId (runtime : SymbolicRuntimeIndex) (span : Span) : Option Nat := runtime.spans.rows.idxOf? span

def retainsLocalProvenance (runtime : SymbolicRuntimeIndex) (base : Nat) : Bool :=
  runtime.orderingSensitiveBases.contains base

def localProvenanceId (runtime : SymbolicRuntimeIndex) (base : Nat) (span : Span) : Option Nat :=
  if runtime.retainsLocalProvenance base then runtime.spanId span else none

def outgoing (runtime : SymbolicRuntimeIndex) (base : Nat) : List SymbolicFieldTransform :=
  runtime.transforms.filter fun transform => transform.source = base

def incoming (runtime : SymbolicRuntimeIndex) (base : Nat) : List ReverseSymbolicTransform :=
  runtime.reverseTransforms.rows.filter fun row => row.target = base

def incomingScalar (runtime : SymbolicRuntimeIndex) (base : Nat) (writeSpan : Span) : List ReverseScalarTransform :=
  runtime.reverseScalarTransforms.rows.filter fun row => row.target = base ∧ row.writeSpan = writeSpan

def storageReadBase (runtime : SymbolicRuntimeIndex) (node : NodeId) : Option Nat := runtime.storageReads.lookup node

def storageWriteIdentity (runtime : SymbolicRuntimeIndex) (node : NodeId) : Option (Nat × Nat) :=
  runtime.storageWrites.lookup node

-- The access-path facts a node introduces when it is reached, before they are
-- placed in a context.
def symbolicFactsForNode (runtime : SymbolicRuntimeIndex) (unified : UnifiedAddressSpace) (node : NodeId) :
    List SymbolicFactIdentity :=
  match unified.wsAddress node with
  | none => []
  | some (segmentId,localNode) =>
    match runtime.factPages.lookup segmentId with
    | none => []
    | some page => (page.getD localNode []).map SymbolicFactTemplate.identity

-- Bases from which a projected place or an aggregate read can be reached: rebases
-- and transforms are followed backwards from the bases the syntax mentions.
def demandSeeds (runtime : SymbolicRuntimeIndex) : List Nat :=
  runtime.projectedFactKeys.rows.map (·.1) ++ runtime.aggregateReads.rows.map (·.1)

def demandSources (runtime : SymbolicRuntimeIndex) (base : Nat) : List Nat :=
  (runtime.baseRebases.get base).map (·.target) ++ (runtime.incoming base).map (·.source)

def demandCapacity (runtime : SymbolicRuntimeIndex) : Nat :=
  runtime.demandSeeds.length + runtime.baseRebases.rows.length + runtime.reverseTransforms.rows.length

def fieldDemand (runtime : SymbolicRuntimeIndex) : List Nat :=
  Closure.closure runtime.demandSources runtime.demandCapacity runtime.demandSeeds

end SymbolicRuntimeIndex

end BonsaiNinja.Idg
