import BonsaiNinja.Vfs.IdentityRuns

namespace BonsaiNinja.VirtualFiles
open Idg (FileId Text)
open VirtualFiles.Inner

inductive Source
  | eager (text : Text)
  | lazy (identity : SourceIdentity)
  deriving DecidableEq

def Source.of (identity : Option SourceIdentity) (text : Text) : Source :=
  match identity with
  | some identity => .lazy identity
  | none => .eager text

-- Where a snapshot call stands between its locks.
inductive Progress
  | reading
  | loading (snapshot : FileSnapshot) (identity : SourceIdentity) (loader : LazySourceLoader)
  | publishing (snapshot : FileSnapshot) (identity : SourceIdentity) (loaded : Except Text Text)

structure Ongoing where
  file : FileId
  began : Nat
  progress : Progress

structure Return where
  file : FileId
  began : Nat
  ended : Nat
  result : Except VfsError FileSnapshot

-- The shared tables with what has happened so far: every state they were in,
-- every version installed, every loader set and every result returned.
structure World where
  inner : Inner
  calls : Nat → Option Ongoing
  moments : List Inner
  installs : List (FileId × Nat × Source)
  loaders : List LazySourceLoader
  returns : List Return

inductive Event
  | call (caller : Nat) (file : FileId)
  | read (caller : Nat)
  | load (caller : Nat)
  | publish (caller : Nat)
  | write (path : FilePath) (text : Text)
  | writeWithId (fileId : FileId) (path : FilePath) (text : Text)
  | writeLazy (path : FilePath) (identity : SourceIdentity)
  | writeLazyWithId (fileId : FileId) (path : FilePath) (identity : SourceIdentity)
  | installEdits (file : FileId) (edits : List TextEdit) (newText : Text)
  | remove (path : FilePath)
  | setLazyLoader (loader : LazySourceLoader)

namespace World

def start : World := ⟨.new,fun _ => none,[.new],[],[],[]⟩

def move (world : World) (next : Inner) : World := { world with inner := next, moments := world.moments ++ [next] }

def install (world : World) (file : FileId) (next : Inner) (source : Source) : World :=
  { world.move next with
    installs := world.installs ++ [(file,((next.live file).map (·.version)).getD 0,source)] }

def progress (world : World) (caller : Nat) (call : Ongoing) (progress : Progress) : World :=
  { world.move world.inner with calls := Function.update world.calls caller (some { call with progress := progress }) }

def finish (world : World) (caller : Nat) (call : Ongoing) (next : Inner) (result : Except VfsError FileSnapshot) : World :=
  { world.move next with
    calls := Function.update world.calls caller none
    returns := world.returns ++ [⟨call.file,call.began,world.moments.length,result⟩] }

def advance (canonicalPathKey : FilePath → FilePath) (world : World) : Event → Option World
  | .call caller file =>
    match world.calls caller with
    | some _ => none
    | none =>
      some { world with calls := Function.update world.calls caller (some ⟨file,world.moments.length - 1,.reading⟩) }
  | .read caller =>
    match world.calls caller with
    | some ⟨file,began,.reading⟩ =>
      match world.inner.read file with
      | .done result => some (world.finish caller ⟨file,began,.reading⟩ world.inner result)
      | .load snapshot identity loader => some (world.progress caller ⟨file,began,.reading⟩ (.loading snapshot identity loader))
    | _ => none
  | .load caller =>
    match world.calls caller with
    | some ⟨file,began,.loading snapshot identity loader⟩ =>
      some (world.progress caller ⟨file,began,.reading⟩ (.publishing snapshot identity (loader snapshot.path identity)))
    | _ => none
  | .publish caller =>
    match world.calls caller with
    | some ⟨file,began,.publishing snapshot identity loaded⟩ =>
      match world.inner.publish file snapshot identity loaded with
      | .done result next => some (world.finish caller ⟨file,began,.reading⟩ next result)
      | .retry => some (world.progress caller ⟨file,began,.reading⟩ .reading)
    | _ => none
  | .write path text =>
    (world.inner.write canonicalPathKey path text).map fun (file,next) => world.install file next (.eager text)
  | .writeWithId fileId path text =>
    (world.inner.writeWithId canonicalPathKey fileId path text).map fun (file,next) => world.install file next (.eager text)
  | .writeLazy path identity =>
    (world.inner.writeLazy canonicalPathKey path identity).map fun (file,next) => world.install file next (.lazy identity)
  | .writeLazyWithId fileId path identity =>
    (world.inner.writeLazyWithId canonicalPathKey fileId path identity).map fun (file,next) =>
      world.install file next (.lazy identity)
  | .installEdits file edits newText =>
    match world.inner.installEdits file edits newText with
    | (.ok file,next) => some (world.install file next (.eager newText))
    | (.error _,next) => some (world.move next)
  | .remove path => some (world.move (world.inner.remove canonicalPathKey path).2)
  | .setLazyLoader loader =>
    some { world.move (world.inner.setLazyLoader loader) with loaders := world.loaders ++ [loader] }

def runs (canonicalPathKey : FilePath → FilePath) (world : World) : List Event → Option World
  | [] => some world
  | event :: rest => do
    let world ← world.advance canonicalPathKey event
    world.runs canonicalPathKey rest

end World

def Gives (loaders : List LazySourceLoader) (path : FilePath) (text : Text) : Source → Prop
  | .eager written => text = written
  | .lazy identity => ∃ loader ∈ loaders, loader path identity = .ok text

-- A waiting entry holds a placeholder, any other one its text.
def Explains (loaders : List LazySourceLoader) (pending : Option SourceIdentity) (snapshot : FileSnapshot)
    (source : Source) : Prop :=
  match pending with
  | some identity => source = .lazy identity
  | none => Gives loaders snapshot.path snapshot.text source

-- What a result must come from. A text belongs to the version it is returned
-- with, and that version was current, and no placeholder, while the call ran; a
-- failed load was of an identity still current when it was reported.
def World.Honest (world : World) (done : Return) : Prop :=
  match done.result with
  | .ok snapshot => ∃ moment then' source, done.began ≤ moment ∧ moment ≤ done.ended ∧ world.moments[moment]? = some then' ∧
      then'.live done.file = some snapshot ∧ then'.pending done.file = none ∧
      (done.file,snapshot.version,source) ∈ world.installs ∧ Gives world.loaders snapshot.path snapshot.text source
  | .error (.lazyLoad path error) => ∃ then' entry identity, world.moments[done.ended]? = some then' ∧
      then'.live done.file = some entry ∧ entry.path = path ∧ then'.pending done.file = some identity ∧
      (done.file,entry.version,.lazy identity) ∈ world.installs ∧
      ∃ loader ∈ world.loaders, loader path identity = .error error
  | .error _ => True

structure Traced (canonicalPathKey : FilePath → FilePath) (inner : Inner) (installs : List (FileId × Nat × Source))
    (loaders : List LazySourceLoader) : Prop where
  consistent : inner.Consistent canonicalPathKey
  unique : ∀ file version source other, (file,version,source) ∈ installs → (file,version,other) ∈ installs → source = other
  known : ∀ file version source, (file,version,source) ∈ installs →
    file ∈ inner.retiredFiles ∨ ∃ snapshot, inner.live file = some snapshot ∧ version ≤ snapshot.version
  entries : ∀ file snapshot, inner.live file = some snapshot → ∃ source, (file,snapshot.version,source) ∈ installs ∧
    Explains loaders (inner.pending file) snapshot source
  loader : ∀ loader, inner.loader = some loader → loader ∈ loaders

def Progress.Sound (loaders : List LazySourceLoader) : Progress → Prop
  | .reading => True
  | .loading _ _ loader => loader ∈ loaders
  | .publishing snapshot identity loaded => ∃ loader ∈ loaders, loader snapshot.path identity = loaded

structure World.Valid (canonicalPathKey : FilePath → FilePath) (world : World) : Prop where
  traced : Traced canonicalPathKey world.inner world.installs world.loaders
  now : world.moments[world.moments.length - 1]? = some world.inner
  calls : ∀ caller call, world.calls caller = some call →
    call.began < world.moments.length ∧ call.progress.Sound world.loaders
  returns : ∀ done ∈ world.returns, world.Honest done

end BonsaiNinja.VirtualFiles
