import BonsaiNinja.Hash.ShortIds
import BonsaiNinja.Vfs.Snapshots

namespace BonsaiNinja.Db
open Idg (FileId Text)
open Hash (Bytes utf8Bytes fnv1aBytes64)

structure SourceIdentity (δ : Type u) where
  len : Nat
  hash : UInt64
  digest : δ
  deriving DecidableEq, Repr

structure SourceDescriptor (δ : Type u) where
  file : FileId
  path : SourcePath
  language : Option Text
  identity : SourceIdentity δ
  version : Nat
  deriving DecidableEq, Repr

structure CompiledFileObject (δ : Type u) (α β ε : Type v) where
  file : FileId
  path : SourcePath
  language : Option Text
  sourceDigest : δ
  declarations : Option α
  imports : Option β
  diagnostics : List ε
  deriving DecidableEq, Repr

structure ObjectParts (α : Type u) where
  object : α
  header : α
  attribution : α
  browse : α
  declarations : α
  lines : α
  deriving DecidableEq, Repr

def ObjectParts.map (f : α → β) (parts : ObjectParts α) : ObjectParts β :=
  ⟨f parts.object,f parts.header,f parts.attribution,f parts.browse,f parts.declarations,f parts.lines⟩

-- The compiler as this module sees it: frontends are functions of the text they
-- read, encoders functions of the indexes. The digest identifies the text.
structure Compiler (δ : Type u) (α β ε : Type v) where
  digestBytes : Bytes → δ
  digest_injective : Function.Injective digestBytes
  adapterFor : SourcePath → Option Text
  parse : FileId → Text → List ε
  buildDeclIndex : FileId → Text → Option α × List ε
  buildImportIndex : FileId → Text → Option β × List ε
  markNamespaceCallReceivers : α → β → α
  encodeObject : CompiledFileObject δ α β ε → Bytes
  encodeHeader : Option α → Option β → Bytes
  encodeAttribution : FileId → Option α → Bytes
  encodeBrowse : Option α → Option β → Bytes
  encodeDeclarations : FileId → Option α → Bytes
  encodeLineStarts : List Nat → Bytes

structure CompilerObjectFileMetadata (δ : Type u) where
  file : FileId
  path : SourcePath
  language : Option Text
  sourceDigest : δ
  sourceHash : UInt64
  payloadDigests : ObjectParts δ
  payloadLens : ObjectParts Nat
  deriving DecidableEq, Repr

structure StoredObject (δ : Type u) where
  metadata : CompilerObjectFileMetadata δ
  parts : ObjectParts Bytes
  deriving DecidableEq, Repr

structure CompilerObjectStore (δ : Type u) where
  files : List (StoredObject δ)
  deriving DecidableEq, Repr

def lineStarts (offset : Nat) : Text → List Nat
  | [] => []
  | char :: rest =>
    let next := offset + char.utf8Size
    if char = '\n' then next :: lineStarts next rest else lineStarts next rest

def lineStartsOf (text : Text) : List Nat := 0 :: lineStarts 0 text

namespace Compiler
variable {δ : Type u} {α β ε : Type v} (compiler : Compiler δ α β ε)

def identityOf (text : Text) : SourceIdentity δ :=
  ⟨(utf8Bytes text).length,fnv1aBytes64 (utf8Bytes text),compiler.digestBytes (utf8Bytes text)⟩

-- The object put together from what parsing, the declaration index and the
-- import index gave; each of them read the text for itself.
def assembleObject (d : SourceDescriptor δ) (parsed : List ε) (declarations : Option α × List ε)
    (imports : Option β × List ε) : CompiledFileObject δ α β ε where
  file := d.file
  path := d.path
  language := d.language
  sourceDigest := d.identity.digest
  declarations :=
    match declarations.1, imports.1 with
    | some decls, some imports => some (compiler.markNamespaceCallReceivers decls imports)
    | decls, _ => decls
  imports := imports.1
  diagnostics := parsed ++ (declarations.2 ++ imports.2)

def unsupportedObject (d : SourceDescriptor δ) : CompiledFileObject δ α β ε :=
  ⟨d.file,d.path,d.language,d.identity.digest,none,none,[]⟩

def encodeParts (d : SourceDescriptor δ) (object : CompiledFileObject δ α β ε) (lineStarts : List Nat) : ObjectParts Bytes where
  object := compiler.encodeObject object
  header := compiler.encodeHeader object.declarations object.imports
  attribution := compiler.encodeAttribution d.file object.declarations
  browse := compiler.encodeBrowse object.declarations object.imports
  declarations := compiler.encodeDeclarations d.file object.declarations
  lines := compiler.encodeLineStarts lineStarts

def storedMetadata (d : SourceDescriptor δ) (parts : ObjectParts Bytes) : CompilerObjectFileMetadata δ where
  file := d.file
  path := d.path
  language := d.language
  sourceDigest := d.identity.digest
  sourceHash := d.identity.hash
  payloadDigests := parts.map compiler.digestBytes
  payloadLens := parts.map List.length

end Compiler

namespace CompilerObjectStore
variable {δ : Type u} [DecidableEq δ] {α β ε : Type v}

def metadataFor (store : CompilerObjectStore δ) (d : SourceDescriptor δ) : Option (StoredObject δ) :=
  match store.files.find? fun stored => stored.metadata.file == d.file with
  | some stored =>
    if stored.metadata.path = d.path ∧ stored.metadata.language = d.language ∧
        stored.metadata.sourceDigest = d.identity.digest ∧ stored.metadata.sourceHash = d.identity.hash then some stored
    else none
  | none => none

def compressedPayload (compiler : Compiler δ α β ε) (store : CompilerObjectStore δ) (d : SourceDescriptor δ) :
    Option (ObjectParts Bytes) :=
  match store.metadataFor d with
  | some stored =>
    if stored.parts.map compiler.digestBytes = stored.metadata.payloadDigests ∧
        stored.parts.map List.length = stored.metadata.payloadLens then some stored.parts
    else none
  | none => none

end CompilerObjectStore

-- Where the preparation of one file stands. Each stage ends with one read of the
-- VFS or of the store.
inductive PrepareStage (δ : Type u) (α β ε : Type v) where
  | waiting
  | versioned (path : SourcePath) (version : Nat)
  | described (d : SourceDescriptor δ)
  | checked (d : SourceDescriptor δ)
  | reusing (d : SourceDescriptor δ) (parts : ObjectParts Bytes)
  | parsed (d : SourceDescriptor δ) (diagnostics : List ε)
  | declared (d : SourceDescriptor δ) (diagnostics : List ε) (declarations : Option α × List ε)
  | compiled (d : SourceDescriptor δ) (object : CompiledFileObject δ α β ε)
  | verified (d : SourceDescriptor δ) (object : CompiledFileObject δ α β ε)
  | prepared (d : SourceDescriptor δ) (parts : ObjectParts Bytes)
  | appended (stored : StoredObject δ)

-- `identity` is the lazy identity a running `ensure_source_version` has read; its
-- version is the next read.
structure FileProgress (δ : Type u) (α β ε : Type v) where
  stage : PrepareStage δ α β ε
  identity : Option (SourceIdentity δ)

namespace PrepareStage
variable {δ : Type u} {α β ε : Type v}

-- The descriptor a running `ensure_source_version` compares with, and the stage
-- its success leads to.
def ensuring : PrepareStage δ α β ε → Option (SourceDescriptor δ × PrepareStage δ α β ε)
  | .described d => some (d,.checked d)
  | .reusing d parts => some (d,.prepared d parts)
  | .compiled d object => some (d,.verified d object)
  | _ => none

def isDescribed : PrepareStage δ α β ε → Bool
  | .waiting => false
  | .versioned _ _ => false
  | _ => true

def stored? : PrepareStage δ α β ε → Option (StoredObject δ)
  | .appended stored => some stored
  | _ => none

def only (stage : PrepareStage δ α β ε) : FileProgress δ α β ε := ⟨stage,none⟩

end PrepareStage

structure GenerationBuild (δ : Type u) (α β ε : Type v) where
  targets : List FileId
  progress : FileId → FileProgress δ α β ε

def GenerationBuild.set (build : GenerationBuild δ α β ε) (file : FileId) (progress : FileProgress δ α β ε) :
    GenerationBuild δ α β ε := { build with progress := Function.update build.progress file progress }

inductive PrepareRead where
  | version | source | identity | ensure | reuse | parse | declarations | imports | lines | append
  deriving DecidableEq, Repr

-- The two reads of `source_descriptor`; every other read belongs to the
-- preparation, which starts when all files have their descriptor.
def PrepareRead.describes : PrepareRead → Bool
  | .version => true
  | .source => true
  | _ => false

inductive PrepareOutcome (δ : Type u) (α β ε : Type v) where
  | idle
  | moved (progress : FileProgress δ α β ε)
  | sourceChanged

structure DbState (δ : Type u) (α β ε : Type v) where
  vfs : Vfs
  store : Option (CompilerObjectStore δ)
  build : Option (GenerationBuild δ α β ε)

inductive DbAction where
  | write (path : SourcePath) (text : Text)
  | start (targets : List FileId)
  | prepare (file : FileId) (read : PrepareRead)
  | fail
  | publish
  deriving DecidableEq, Repr

namespace Compiler
variable {δ : Type u} [DecidableEq δ] {α β ε : Type v} (compiler : Compiler δ α β ε)

-- The version is compared with the descriptor's, and so are the length and digest
-- of the text the check has seen.
def sourceUnchanged (vfs : Vfs) (d : SourceDescriptor δ) (identity : Option (SourceIdentity δ)) : Bool :=
  match vfs.snapshot d.file with
  | some snapshot =>
    let seen := identity.getD (compiler.identityOf snapshot.text.text)
    snapshot.version == d.version && seen.len == d.identity.len && seen.digest == d.identity.digest
  | none => false

-- One read in the preparation of one file. A payload that cannot be read back is
-- rebuilt, so `parse` may follow the first check whatever the store holds.
def prepareStep (vfs : Vfs) (store : Option (CompilerObjectStore δ)) (file : FileId) (progress : FileProgress δ α β ε) :
    PrepareRead → PrepareOutcome δ α β ε
  | .version =>
    match progress.stage, vfs.snapshot file with
    | .waiting, some snapshot => .moved (PrepareStage.only (.versioned snapshot.path snapshot.version))
    | _, _ => .idle
  | .source =>
    match progress.stage, vfs.snapshot file with
    | .versioned path version, some snapshot => .moved (PrepareStage.only
        (.described ⟨file,path,compiler.adapterFor path,compiler.identityOf snapshot.text.text,version⟩))
    | _, _ => .idle
  | .identity =>
    match progress.stage.ensuring, progress.identity, vfs.snapshot file with
    | some _, none, some snapshot => .moved { progress with identity := some (compiler.identityOf snapshot.text.text) }
    | _, _, _ => .idle
  | .ensure =>
    match progress.stage.ensuring with
    | some (d,next) =>
      if compiler.sourceUnchanged vfs d progress.identity then .moved (PrepareStage.only next) else .sourceChanged
    | none => .idle
  | .reuse =>
    match progress.stage, store with
    | .checked d, some store =>
      match store.compressedPayload compiler d with
      | some parts => .moved (PrepareStage.only (.reusing d parts))
      | none => .idle
    | _, _ => .idle
  | .parse =>
    match progress.stage, vfs.snapshot file with
    | .checked d, some snapshot =>
      if d.language.isSome then .moved (PrepareStage.only (.parsed d (compiler.parse file snapshot.text.text)))
      else .moved (PrepareStage.only (.compiled d (unsupportedObject d)))
    | _, _ => .idle
  | .declarations =>
    match progress.stage, vfs.snapshot file with
    | .parsed d diagnostics, some snapshot =>
      .moved (PrepareStage.only (.declared d diagnostics (compiler.buildDeclIndex file snapshot.text.text)))
    | _, _ => .idle
  | .imports =>
    match progress.stage, vfs.snapshot file with
    | .declared d diagnostics declarations, some snapshot => .moved (PrepareStage.only
        (.compiled d (compiler.assembleObject d diagnostics declarations (compiler.buildImportIndex file snapshot.text.text))))
    | _, _ => .idle
  | .lines =>
    match progress.stage with
    | .verified d object => .moved (PrepareStage.only (.prepared d (compiler.encodeParts d object
        (((vfs.snapshot file).map fun snapshot => lineStartsOf snapshot.text.text).getD []))))
    | _ => .idle
  | .append =>
    match progress.stage with
    | .prepared d parts => .moved (PrepareStage.only (.appended ⟨compiler.storedMetadata d parts,parts⟩))
    | _ => .idle

-- One generation is built at a time. `fail` is any other error of the build.
def step (s : DbState δ α β ε) : DbAction → Option (DbState δ α β ε)
  | .write path text => some { s with vfs := s.vfs.write path text }
  | .start targets =>
    match s.build with
    | none => some { s with build := some ⟨Library.sortDedup targets,fun _ => PrepareStage.only .waiting⟩ }
    | some _ => none
  | .prepare file read =>
    match s.build with
    | some build =>
      if file ∈ build.targets ∧ (read.describes = true ∨ ∀ target ∈ build.targets, (build.progress target).stage.isDescribed = true) then
        match compiler.prepareStep s.vfs s.store file (build.progress file) read with
        | .idle => none
        | .moved progress => some { s with build := some (build.set file progress) }
        | .sourceChanged => some { s with build := none }
      else none
    | none => none
  | .fail =>
    match s.build with
    | some _ => some { s with build := none }
    | none => none
  | .publish =>
    match s.build with
    | some build =>
      if ∀ target ∈ build.targets, (build.progress target).stage.stored?.isSome then
        some { s with
          store := some ⟨build.targets.filterMap fun target => (build.progress target).stage.stored?⟩
          build := none }
      else none
    | none => none

def run (s : DbState δ α β ε) (actions : List DbAction) : Option (DbState δ α β ε) := actions.foldlM compiler.step s

end Compiler

end BonsaiNinja.Db
