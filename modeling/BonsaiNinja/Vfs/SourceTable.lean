import BonsaiNinja.Idg.Place

namespace BonsaiNinja.VirtualFiles
open Idg (FileId Text)

inductive PathComponent
  | rootDir
  | curDir
  | parentDir
  | normal (name : Text)
  deriving DecidableEq, Repr

abbrev FilePath := List PathComponent

def fileName (path : FilePath) : Option Text :=
  match path.getLast? with
  | some (.normal name) => some name
  | _ => none

structure TextEdit where
  fileId : FileId
  oldStartByte : Nat
  oldEndByte : Nat
  newEndByte : Nat
  deriving DecidableEq, Repr

structure SourceIdentity where
  len : Nat
  hash : UInt64
  digest : List UInt8
  deriving DecidableEq, Repr

-- Versions are plain numbers: no run writes one file 2^64 times.
structure FileSnapshot where
  fileId : FileId
  path : FilePath
  text : Text
  version : Nat
  deriving DecidableEq, Repr

inductive VfsError
  | unknownFile (file : FileId)
  | mixedEditFiles (expected actual : FileId)
  | lazyLoad (path : FilePath) (error : Text)
  | missingLazyLoader (path : FilePath)
  deriving DecidableEq, Repr

def invalidFile : FileId := 2 ^ 32 - 1

abbrev LazySourceLoader := FilePath → SourceIdentity → Except Text Text

-- Hash maps are only looked up, so they are their lookup functions.
structure Inner where
  byPath : FilePath → Option FileId
  byBasename : FilePath → Option (List FileId)
  files : List (Option FileSnapshot)
  retiredFiles : List FileId
  lazy : List (Option SourceIdentity)
  loader : Option LazySourceLoader
  editsSince : List (List TextEdit)
  revision : UInt64

def resizeWith (rows : List α) (length : Nat) (fresh : α) : List α :=
  rows.take length ++ List.replicate (length - rows.length) fresh

def onlyMatch : List α → Option α
  | [first] => some first
  | _ => none

namespace Inner

def new : Inner := ⟨fun _ => none,fun _ => none,[],[],[],none,[],0⟩

def live (inner : Inner) (file : FileId) : Option FileSnapshot := inner.files[file]?.join

def pending (inner : Inner) (file : FileId) : Option SourceIdentity := inner.lazy[file]?.join

def edits (inner : Inner) (file : FileId) : List TextEdit := inner.editsSince[file]?.getD []

def replace (inner : Inner) (id : FileId) (old : FileSnapshot) (text : Text) (identity : Option SourceIdentity) : Inner :=
  { inner with
    files := inner.files.set id (some ⟨id,old.path,text,old.version + 1⟩)
    lazy := inner.lazy.set id identity
    revision := inner.revision + 1 }

end Inner

section
variable (canonicalPathKey : FilePath → FilePath)

def canonicalBasenameKey (path : FilePath) : FilePath :=
  match fileName path with
  | some name => canonicalPathKey [.normal name]
  | none => []

def insertBasenameCandidate (byBasename : FilePath → Option (List FileId)) (path : FilePath) (file : FileId) :
    FilePath → Option (List FileId) :=
  let key := canonicalBasenameKey canonicalPathKey path
  let candidates := (byBasename key).getD []
  Function.update byBasename key (some (if file ∈ candidates then candidates else candidates ++ [file]))

namespace Inner

-- What both kinds of write do; no result stands for a panic.
def writeEntry (inner : Inner) (path : FilePath) (text : Text) (identity : Option SourceIdentity) :
    Option (FileId × Inner) :=
  match inner.byPath (canonicalPathKey path) with
  | some id =>
    match inner.live id with
    | none => none
    | some old => some (id,inner.replace id old text identity)
  | none =>
    if inner.files.length < 2 ^ 32 then
      let id := inner.files.length
      some (id,{ inner with
        files := inner.files ++ [some ⟨id,path,text,0⟩]
        editsSince := inner.editsSince ++ [[]]
        lazy := inner.lazy ++ [identity]
        byPath := Function.update inner.byPath (canonicalPathKey path) (some id)
        byBasename := insertBasenameCandidate canonicalPathKey inner.byBasename path id
        revision := inner.revision + 1 })
    else none

-- Slots below a fixed id may stay free.
def reserve (inner : Inner) (index : Nat) : Inner :=
  if inner.files.length ≤ index then
    { inner with
      files := resizeWith inner.files (index + 1) none
      editsSince := resizeWith inner.editsSince (index + 1) []
      lazy := resizeWith inner.lazy (index + 1) none }
  else inner

def writeEntryWithId (inner : Inner) (fileId : FileId) (path : FilePath) (text : Text) (identity : Option SourceIdentity) :
    Option (FileId × Inner) :=
  match inner.byPath (canonicalPathKey path) with
  | some existing =>
    if existing = fileId then
      match inner.live fileId with
      | none => none
      | some old => some (fileId,inner.replace fileId old text identity)
    else none
  | none =>
    if fileId ∈ inner.retiredFiles then none
    else
      let inner := inner.reserve fileId
      if (inner.live fileId).isSome then none
      else
        some (fileId,{ inner with
          files := inner.files.set fileId (some ⟨fileId,path,text,0⟩)
          lazy := inner.lazy.set fileId identity
          byPath := Function.update inner.byPath (canonicalPathKey path) (some fileId)
          byBasename := insertBasenameCandidate canonicalPathKey inner.byBasename path fileId
          revision := inner.revision + 1 })

def write (inner : Inner) (path : FilePath) (text : Text) : Option (FileId × Inner) :=
  inner.writeEntry canonicalPathKey path text none

def writeWithId (inner : Inner) (fileId : FileId) (path : FilePath) (text : Text) : Option (FileId × Inner) :=
  inner.writeEntryWithId canonicalPathKey fileId path text none

-- A lazily interned file holds an empty placeholder until its first use.
def writeLazy (inner : Inner) (path : FilePath) (identity : SourceIdentity) : Option (FileId × Inner) :=
  inner.writeEntry canonicalPathKey path [] (some identity)

def writeLazyWithId (inner : Inner) (fileId : FileId) (path : FilePath) (identity : SourceIdentity) :
    Option (FileId × Inner) :=
  inner.writeEntryWithId canonicalPathKey fileId path [] (some identity)

def removeBasename (inner : Inner) (id : FileId) : FilePath → Option (List FileId) :=
  match inner.live id with
  | none => inner.byBasename
  | some snapshot =>
    let basename := canonicalBasenameKey canonicalPathKey snapshot.path
    match inner.byBasename basename with
    | none => inner.byBasename
    | some candidates =>
      let kept := candidates.filter (· ≠ id)
      Function.update inner.byBasename basename (if kept.isEmpty then none else some kept)

def remove (inner : Inner) (path : FilePath) : Option FileId × Inner :=
  let key := canonicalPathKey path
  match inner.byPath key with
  | none => (none,inner)
  | some id =>
    (some id,{ inner with
      byPath := Function.update inner.byPath key none
      retiredFiles := if id ∈ inner.retiredFiles then inner.retiredFiles else inner.retiredFiles ++ [id]
      byBasename := inner.removeBasename canonicalPathKey id
      files := inner.files.set id none
      lazy := inner.lazy.set id none
      editsSince := inner.editsSince.set id []
      revision := inner.revision + 1 })

def lookup (inner : Inner) (path : FilePath) : Option FileId := inner.byPath (canonicalPathKey path)

def uniqueFileEndingWith (inner : Inner) (suffix : FilePath) : Option (FileId × FilePath) := do
  let candidates ← inner.byBasename (canonicalBasenameKey canonicalPathKey suffix)
  onlyMatch (candidates.filterMap fun file => do
    let snapshot ← inner.live file
    if (canonicalPathKey suffix).isSuffixOf (canonicalPathKey snapshot.path) then some (file,snapshot.path) else none)

end Inner

end

inductive Reading
  | done (result : Except VfsError FileSnapshot)
  | load (snapshot : FileSnapshot) (identity : SourceIdentity) (loader : LazySourceLoader)

inductive Publication
  | done (result : Except VfsError FileSnapshot) (inner : Inner)
  | retry

namespace Inner

def read (inner : Inner) (file : FileId) : Reading :=
  match inner.live file with
  | none => .done (.error (.unknownFile file))
  | some snapshot =>
    match inner.pending file with
    | none => .done (.ok snapshot)
    | some identity =>
      match inner.loader with
      | none => .done (.error (.missingLazyLoader snapshot.path))
      | some loader => .load snapshot identity loader

def publish (inner : Inner) (file : FileId) (snapshot : FileSnapshot) (identity : SourceIdentity)
    (loaded : Except Text Text) : Publication :=
  match inner.live file with
  | none => .done (.error (.unknownFile file)) inner
  | some entry =>
    match inner.pending file with
    | none => .done (.ok entry) inner
    | some current =>
      if entry.version ≠ snapshot.version ∨ entry.path ≠ snapshot.path ∨ current ≠ identity then .retry
      else
        match loaded with
        | .error error => .done (.error (.lazyLoad snapshot.path error)) inner
        | .ok text =>
          .done (.ok { entry with text := text })
            { inner with
              files := inner.files.set file (some { entry with text := text })
              lazy := inner.lazy.set file none }

-- A call that nothing interrupts; out of turns it has no result.
def snapshotLoop : Nat → Inner → FileId → Option (Except VfsError FileSnapshot × Inner)
  | 0, _, _ => none
  | turns + 1, inner, file =>
    match inner.read file with
    | .done result => some (result,inner)
    | .load snapshot identity loader =>
      match inner.publish file snapshot identity (loader snapshot.path identity) with
      | .done result next => some (result,next)
      | .retry => snapshotLoop turns inner file

def snapshot (inner : Inner) (file : FileId) : Option (Except VfsError FileSnapshot × Inner) := snapshotLoop 1 inner file

def installEdits (inner : Inner) (file : FileId) (edits : List TextEdit) (newText : Text) :
    Except VfsError FileId × Inner :=
  match edits.find? fun edit => edit.fileId ≠ file with
  | some edit => (.error (.mixedEditFiles file edit.fileId),inner)
  | none =>
    match inner.live file with
    | none => (.error (.unknownFile file),inner)
    | some prev =>
      (.ok file,{ inner.replace file prev newText none with
        editsSince := inner.editsSince.set file (inner.edits file ++ edits) })

def applyEdits (inner : Inner) (edits : List TextEdit) (newText : Text) : Option (Except VfsError FileId × Inner) :=
  match edits.head? with
  | none => some (.error (.unknownFile invalidFile),inner)
  | some first =>
    match inner.snapshot first.fileId with
    | none => none
    | some (.error error,inner) => some (.error error,inner)
    | some (.ok _,inner) => some (inner.installEdits first.fileId edits newText)

def takeEdits (inner : Inner) (file : FileId) : Except VfsError (List TextEdit) × Inner :=
  match inner.live file with
  | none => (.error (.unknownFile file),inner)
  | some _ => (.ok (inner.edits file),{ inner with editsSince := inner.editsSince.set file [] })

def setLazyLoader (inner : Inner) (loader : LazySourceLoader) : Inner := { inner with loader := some loader }

end Inner

end BonsaiNinja.VirtualFiles
