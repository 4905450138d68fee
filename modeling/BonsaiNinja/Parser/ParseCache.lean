import BonsaiNinja.Hash.ShortIds
import BonsaiNinja.Parser.PreprocessorContext

namespace BonsaiNinja.Parser
open Idg (FileId Text)
open Hash (Bytes utf8Bytes)

inductive ParseRecoveryAction where
  | mask
  | uppercaseAscii
  | replaceAscii (replacement : Bytes)
  deriving DecidableEq, Repr

structure ParseRecoveryEdit where
  startByte : Nat
  endByte : Nat
  action : ParseRecoveryAction
  damagedDescendantOwner : Option (Nat × Nat)
  deriving DecidableEq, Repr

def isCharBoundary (original : Bytes) (index : Nat) : Bool :=
  index == original.length || (original[index]?).any fun byte => byte &&& 0xC0 != 0x80

def isLineBreak (byte : UInt8) : Bool := byte == 10 || byte == 13

-- A same-length normalization of a parser buffer, and whether it changed it.
def ParseRecoveryEdit.applyTo (edit : ParseRecoveryEdit) (original recovered : Bytes) : Bytes × Bool :=
  if edit.endByte ≤ edit.startByte || recovered.length < edit.endByte || recovered.length != original.length ||
      !isCharBoundary original edit.startByte || !isCharBoundary original edit.endByte then (recovered,false)
  else
    let before := recovered.take edit.startByte
    let target := (recovered.take edit.endByte).drop edit.startByte
    let after := recovered.drop edit.endByte
    match edit.action with
    | .mask =>
      let masked := target.map fun byte => if isLineBreak byte then byte else 32
      (before ++ masked ++ after,masked != target)
    | .uppercaseAscii =>
      match target with
      | byte :: rest => if 97 ≤ byte && byte ≤ 122 then (before ++ (byte - 32) :: rest ++ after,true) else (recovered,false)
      | [] => (recovered,false)
    | .replaceAscii replacement =>
      if replacement.isEmpty || target.length < replacement.length || replacement.any (128 ≤ ·) || target.any isLineBreak then
        (recovered,false)
      else
        let replaced := replacement ++ List.replicate (target.length - replacement.length) 32
        (before ++ replaced ++ after,replaced != target)

def applyRecoveryEdits (original recovered : Bytes) (edits : List ParseRecoveryEdit) : Bytes × Bool :=
  edits.foldl (fun (recovered,changed) edit =>
    let (next,applied) := edit.applyTo original recovered
    (next,changed || applied)) (recovered,false)

-- A language frontend over tree-sitter's trees. What its hooks read of the VFS is
-- the context its fingerprint absorbs; an incremental parse with a correctly
-- edited tree equals a fresh one.
structure Adapter (θ : Type u) (κ : Type v) (φ : Type w) where
  grammarNameForPath : SourcePath → Text
  context : FileSnapshot → Vfs → κ
  fingerprint : κ → φ
  fingerprint_injective : Function.Injective fingerprint
  parseNormalizationEdits : FileSnapshot → κ → List ParseRecoveryEdit
  parseRecoveryEditBatches : FileSnapshot → κ → θ → List (List ParseRecoveryEdit)
  preservesCleanNodes : SourcePath → θ → θ → List ParseRecoveryEdit → Bool
  parse : SourcePath → Bytes → θ
  edit : θ → Bytes → Bytes → θ
  reparse : SourcePath → θ → Bytes → θ
  reparse_exact : ∀ path old new, reparse path (if old = new then parse path old else edit (parse path old) old new) new = parse path new
  hasError : θ → Bool
  syntaxDamageScore : θ → Nat × Nat

-- Concrete errors first, uncovered bytes break ties.
def recoveryOrderingKey (score : Nat × Nat) : Nat × Nat := (score.2,score.1)

def keyBefore (a b : Nat × Nat) : Bool := Library.before a b

structure ParsedFile (θ : Type u) (φ : Type w) where
  file : FileId
  version : Nat
  tree : θ
  adapterId : Text
  grammarName : Text
  source : SharedText
  usedRecovery : Bool
  contextFingerprint : φ
  contextRevision : Nat

def parsedMatchesSnapshot [DecidableEq φ] (parsed : ParsedFile θ φ) (snapshot : FileSnapshot) (contextFingerprint : φ) : Bool :=
  parsed.version == snapshot.version && parsed.source == snapshot.text && parsed.contextFingerprint == contextFingerprint

-- Where the parse of one call stands: before its first parse, at the head of the
-- recovery loop, or done.
inductive ParsePhase (θ : Type u) where
  | start
  | recovering (source : Bytes) (tree : θ) (usedRecovery : Bool)
  | finished (tree : θ) (usedRecovery : Bool)

namespace Adapter
variable {θ : Type u} {κ : Type v} {φ : Type w} (adapter : Adapter θ κ φ)

def incrementalTree (parsed : ParsedFile θ φ) (newSource : Text) : Option θ :=
  if parsed.usedRecovery then none
  else
    let old := utf8Bytes parsed.source.text
    let new := utf8Bytes newSource
    some (if old = new then parsed.tree else adapter.edit parsed.tree old new)

def firstTree (snapshot : FileSnapshot) (hint : Option θ) (edits : List ParseRecoveryEdit) : Bytes × θ × Bool :=
  let original := utf8Bytes snapshot.text.text
  let (candidate,changed) := applyRecoveryEdits original original edits
  if changed then (candidate,adapter.parse snapshot.path candidate,true)
  else
    match hint with
    | some old => (original,adapter.reparse snapshot.path old original,false)
    | none => (original,adapter.parse snapshot.path original,false)

def bestCandidate (snapshot : FileSnapshot) (source : Bytes) (tree : θ) (batches : List (List ParseRecoveryEdit)) :
    Option (Bytes × θ) :=
  batches.foldl (fun best edits =>
    let (candidateSource,changed) := applyRecoveryEdits (utf8Bytes snapshot.text.text) source edits
    if changed then
      let candidate := adapter.parse snapshot.path candidateSource
      let key := recoveryOrderingKey (adapter.syntaxDamageScore candidate)
      if !keyBefore key (recoveryOrderingKey (adapter.syntaxDamageScore tree)) ||
          !adapter.preservesCleanNodes snapshot.path tree candidate edits ||
          best.any fun (_,other) => !keyBefore key (recoveryOrderingKey (adapter.syntaxDamageScore other)) then best
      else some (candidateSource,candidate)
    else best) none

def parseStep (snapshot : FileSnapshot) (context : κ) (hint : Option θ) : ParsePhase θ → Option (ParsePhase θ)
  | .start =>
    let (source,tree,normalized) := adapter.firstTree snapshot hint (adapter.parseNormalizationEdits snapshot context)
    if adapter.hasError tree then some (.recovering source tree normalized) else some (.finished tree normalized)
  | .recovering source tree usedRecovery =>
    match adapter.bestCandidate snapshot source tree (adapter.parseRecoveryEditBatches snapshot context tree) with
    | some (source,tree) => some (.recovering source tree true)
    | none => some (.finished tree usedRecovery)
  | .finished _ _ => none

end Adapter

structure ParseKey where
  file : FileId
  languageId : Text
  grammarName : Text
  deriving DecidableEq, Repr

inductive CallPhase (θ : Type u) (φ : Type w) where
  | entered
  | fingerprinted (fingerprint : φ)
  | looking (fingerprint : φ) (revision : Nat)
  | checkedOut (fingerprint : φ) (revision : Nat)
  | hinting (fingerprint : φ) (revision : Nat)
  | parsing (fingerprint : φ) (revision : Nat) (old : Option (ParsedFile θ φ)) (phase : ParsePhase θ)
  | returned (parsed : ParsedFile θ φ)

structure ParseCall (θ : Type u) (φ : Type w) where
  languageId : Text
  snapshot : FileSnapshot
  phase : CallPhase θ φ

structure CacheState (θ : Type u) (φ : Type w) where
  vfs : Vfs
  cache : ParseKey → Option (ParsedFile θ φ)
  calls : List (ParseCall θ φ)

inductive CacheAction where
  | write (path : SourcePath) (text : Text)
  | call (languageId : Text) (file : FileId)
  | advance (call : Nat)
  | release (languageId : Text) (file : FileId)
  | invalidate (file : FileId)
  deriving DecidableEq, Repr

section
variable {θ : Type u} {κ : Type v} {φ : Type w} [DecidableEq φ] (adapters : Text → Adapter θ κ φ)

def ParseCall.key (adapters : Text → Adapter θ κ φ) (call : ParseCall θ φ) : ParseKey :=
  ⟨call.snapshot.fileId,call.languageId,(adapters call.languageId).grammarNameForPath call.snapshot.path⟩

def parsedFile (call : ParseCall θ φ) (fingerprint : φ) (revision : Nat) (tree : θ) (usedRecovery : Bool) : ParsedFile θ φ where
  file := call.snapshot.fileId
  version := call.snapshot.version
  tree := tree
  adapterId := call.languageId
  grammarName := (adapters call.languageId).grammarNameForPath call.snapshot.path
  source := call.snapshot.text
  usedRecovery := usedRecovery
  contextFingerprint := fingerprint
  contextRevision := revision

-- The cache keeps the newest version, the caller gets the tree of its snapshot.
def publish (cache : ParseKey → Option (ParsedFile θ φ)) (call : ParseCall θ φ) (parsed : ParsedFile θ φ) :
    ParsedFile θ φ × (ParseKey → Option (ParsedFile θ φ)) :=
  match cache (call.key adapters) with
  | some existing =>
    if parsedMatchesSnapshot existing call.snapshot parsed.contextFingerprint then (existing,cache)
    else if parsed.version < existing.version ∨
        existing.version = parsed.version ∧ parsed.contextRevision < existing.contextRevision then (parsed,cache)
    else (parsed,Function.update cache (call.key adapters) (some parsed))
  | none => (parsed,Function.update cache (call.key adapters) (some parsed))

def cacheHit (cache : ParseKey → Option (ParsedFile θ φ)) (call : ParseCall θ φ) (fingerprint : φ) : Option (ParsedFile θ φ) :=
  (cache (call.key adapters)).filter fun entry => parsedMatchesSnapshot entry call.snapshot fingerprint

def advanceCall (s : CacheState θ φ) (call : ParseCall θ φ) :
    Option (CallPhase θ φ × (ParseKey → Option (ParsedFile θ φ))) :=
  let adapter := adapters call.languageId
  match call.phase with
  | .entered => some (.fingerprinted (adapter.fingerprint (adapter.context call.snapshot s.vfs)),s.cache)
  | .fingerprinted fingerprint => some (.looking fingerprint s.vfs.revision,s.cache)
  | .looking fingerprint revision =>
    match cacheHit adapters s.cache call fingerprint with
    | some entry => some (.returned entry,s.cache)
    | none => some (.checkedOut fingerprint revision,s.cache)
  | .checkedOut fingerprint revision =>
    match cacheHit adapters s.cache call fingerprint with
    | some entry => some (.returned entry,s.cache)
    | none => some (.hinting fingerprint revision,s.cache)
  | .hinting fingerprint revision => some (.parsing fingerprint revision (s.cache (call.key adapters)) .start,s.cache)
  | .parsing fingerprint revision _ (.finished tree usedRecovery) =>
    let (parsed,cache) := publish adapters s.cache call (parsedFile adapters call fingerprint revision tree usedRecovery)
    some (.returned parsed,cache)
  | .parsing fingerprint revision old phase =>
    let hint := (old.filter fun parsed => parsed.contextFingerprint == fingerprint).bind fun parsed =>
      adapter.incrementalTree parsed call.snapshot.text.text
    (adapter.parseStep call.snapshot (adapter.context call.snapshot s.vfs) hint phase).map fun next =>
      (.parsing fingerprint revision old next,s.cache)
  | .returned _ => none

def cacheStep (s : CacheState θ φ) : CacheAction → Option (CacheState θ φ)
  | .write path text => some { s with vfs := s.vfs.write path text }
  | .call languageId file =>
    (s.vfs.snapshot file).map fun snapshot => { s with calls := s.calls ++ [⟨languageId,snapshot,.entered⟩] }
  | .advance index =>
    match s.calls[index]? with
    | some call =>
      (advanceCall adapters s call).map fun (phase,cache) =>
        { s with cache := cache, calls := s.calls.set index { call with phase := phase } }
    | none => none
  | .release languageId file =>
    (s.vfs.snapshot file).map fun snapshot => { s with
      cache := Function.update s.cache ⟨file,languageId,(adapters languageId).grammarNameForPath snapshot.path⟩ none }
  | .invalidate file => some { s with cache := fun key => if key.file = file then none else s.cache key }

def cacheRun (s : CacheState θ φ) (actions : List CacheAction) : Option (CacheState θ φ) := actions.foldlM (cacheStep adapters) s

end

-- The C-family frontends: their context is the include graph below the source,
-- and recovery sees the macros it defines.
def cFamilyAdapter {θ : Type u} {φ : Type w} (base : Adapter θ Unit Unit) (fingerprint : List ContextFile → φ)
    (injective : Function.Injective fingerprint)
    (batches : FileSnapshot → List Text → θ → List (List ParseRecoveryEdit)) : Adapter θ (List ContextFile) φ where
  grammarNameForPath := base.grammarNameForPath
  context snapshot vfs := (reachablePreprocessorContext snapshot vfs).2
  fingerprint := fingerprint
  fingerprint_injective := injective
  parseNormalizationEdits _ _ := []
  parseRecoveryEditBatches snapshot context := batches snapshot (contextMacros context)
  preservesCleanNodes := base.preservesCleanNodes
  parse := base.parse
  edit := base.edit
  reparse := base.reparse
  reparse_exact := base.reparse_exact
  hasError := base.hasError
  syntaxDamageScore := base.syntaxDamageScore

end BonsaiNinja.Parser
