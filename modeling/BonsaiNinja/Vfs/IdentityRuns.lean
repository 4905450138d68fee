import BonsaiNinja.Vfs.TableInvariant

namespace BonsaiNinja.VirtualFiles
open Idg (FileId Text)

inductive Call
  | write (path : FilePath) (text : Text)
  | writeWithId (fileId : FileId) (path : FilePath) (text : Text)
  | writeLazy (path : FilePath) (identity : SourceIdentity)
  | writeLazyWithId (fileId : FileId) (path : FilePath) (identity : SourceIdentity)
  | applyEdits (edits : List TextEdit) (newText : Text)
  | remove (path : FilePath)
  | snapshot (file : FileId)
  | takeEdits (file : FileId)
  | setLazyLoader (loader : LazySourceLoader)

inductive Outcome
  | file (id : FileId)
  | removed (id : Option FileId)
  | edited (result : Except VfsError FileId)
  | snapshot (result : Except VfsError FileSnapshot)
  | edits (result : Except VfsError (List TextEdit))
  | done

def Outcome.written : Outcome → Option FileId
  | .file id => some id
  | .edited (.ok id) => some id
  | _ => none

def Outcome.mutates : Outcome → Bool
  | .removed id => id.isSome
  | outcome => outcome.written.isSome

def Outcome.failed : Outcome → Bool
  | .edited (.error _) => true
  | .snapshot (.error _) => true
  | .edits (.error _) => true
  | _ => false

section
variable (canonicalPathKey : FilePath → FilePath)

-- No result stands for a panic.
def step (inner : Inner) : Call → Option (Outcome × Inner)
  | .write path text => (inner.write canonicalPathKey path text).map fun (id,inner) => (.file id,inner)
  | .writeWithId fileId path text =>
    (inner.writeWithId canonicalPathKey fileId path text).map fun (id,inner) => (.file id,inner)
  | .writeLazy path identity => (inner.writeLazy canonicalPathKey path identity).map fun (id,inner) => (.file id,inner)
  | .writeLazyWithId fileId path identity =>
    (inner.writeLazyWithId canonicalPathKey fileId path identity).map fun (id,inner) => (.file id,inner)
  | .applyEdits edits newText => (inner.applyEdits edits newText).map fun (result,inner) => (.edited result,inner)
  | .remove path => some (.removed (inner.remove canonicalPathKey path).1,(inner.remove canonicalPathKey path).2)
  | .snapshot file => (inner.snapshot file).map fun (result,inner) => (.snapshot result,inner)
  | .takeEdits file => some (.edits (inner.takeEdits file).1,(inner.takeEdits file).2)
  | .setLazyLoader loader => some (.done,inner.setLazyLoader loader)

def serve (inner : Inner) : List Call → Option Inner
  | [] => some inner
  | call :: rest => do
    let (_,inner) ← step canonicalPathKey inner call
    serve inner rest

end

namespace Inner
variable {file id : FileId} {old : FileSnapshot}

def Kept (inner next : Inner) (file : FileId) : Prop :=
  next.live file = inner.live file ∧ next.pending file = inner.pending file

def LoadedAt (inner next : Inner) (file : FileId) : Prop :=
  ∃ entry identity loader text, inner.live file = some entry ∧ inner.pending file = some identity ∧
    inner.loader = some loader ∧ loader entry.path identity = .ok text ∧
    next.live file = some { entry with text := text } ∧ next.pending file = none

structure SameButLoaded (inner next : Inner) : Prop where
  files : ∀ file, Kept inner next file ∨ LoadedAt inner next file
  byPath : next.byPath = inner.byPath
  byBasename : next.byBasename = inner.byBasename
  retired : next.retiredFiles = inner.retiredFiles
  edits : next.editsSince = inner.editsSince
  revision : next.revision = inner.revision
  lengths : SameLengths inner → SameLengths next
  size : next.files.length = inner.files.length

theorem SameButLoaded.refl (inner : Inner) : SameButLoaded inner inner :=
  ⟨fun _ => .inl ⟨rfl,rfl⟩,rfl,rfl,rfl,rfl,rfl,id,rfl⟩

variable {canonicalPathKey : FilePath → FilePath} {inner next : Inner}

theorem publish_same (lengths : SameLengths inner) {snapshot : FileSnapshot} {identity : SourceIdentity}
    {loader : LazySourceLoader} (live : inner.live file = some snapshot) (pending : inner.pending file = some identity)
    (installed : inner.loader = some loader) :
    ∃ result next, inner.publish file snapshot identity (loader snapshot.path identity) = .done result next ∧
      SameButLoaded inner next ∧ ∀ error, result = .error error → next = inner := by
  unfold publish
  simp only [live,pending,ne_eq,not_true_eq_false,or_self,if_false]
  cases loaded : loader snapshot.path identity with
  | error error => exact ⟨_,inner,rfl,.refl inner,fun _ _ => rfl⟩
  | ok text =>
    have inside := live_inside live
    refine ⟨_,_,rfl,⟨fun other => ?_,rfl,rfl,rfl,rfl,rfl,fun lengths => ?_,?_⟩,fun error failed => nomatch failed⟩
    · by_cases same : other = file
      · subst same
        refine .inr ⟨snapshot,identity,loader,text,live,pending,installed,loaded,?_,?_⟩
        · exact (slot_set _ _ _ _).trans (if_pos ⟨rfl,inside⟩)
        · exact (slot_set _ _ _ _).trans (if_pos ⟨rfl,by rwa [lengths.lazy]⟩)
      · refine .inl ⟨?_,?_⟩
        · exact (slot_set _ _ _ _).trans (if_neg fun both => same both.1)
        · exact (slot_set _ _ _ _).trans (if_neg fun both => same both.1)
    · exact ⟨by simp [lengths.edits],by simp [lengths.lazy]⟩
    · simp

-- Alone, a snapshot call never has to start again.
theorem snapshotLoop_settles (lengths : SameLengths inner) (turns : Nat) (file : FileId) :
    ∃ result next, snapshotLoop (turns + 1) inner file = some (result,next) ∧ SameButLoaded inner next ∧
      ∀ error, result = .error error → next = inner := by
  rw [snapshotLoop]
  unfold read
  cases live : inner.live file with
  | none => exact ⟨_,inner,rfl,.refl inner,fun _ _ => rfl⟩
  | some snapshot =>
    cases pending : inner.pending file with
    | none => exact ⟨_,inner,rfl,.refl inner,fun _ _ => rfl⟩
    | some identity =>
      cases installed : inner.loader with
      | none => exact ⟨_,inner,rfl,.refl inner,fun _ _ => rfl⟩
      | some loader =>
        obtain ⟨result,next,published,same,failed⟩ := publish_same lengths live pending installed
        exact ⟨result,next,by simp only [published],same,failed⟩

theorem snapshot_same (lengths : SameLengths inner) {result : Except VfsError FileSnapshot}
    (ran : inner.snapshot file = some (result,next)) : SameButLoaded inner next := by
  obtain ⟨_,_,settled,same,_⟩ := snapshotLoop_settles lengths 0 file
  rw [Inner.snapshot,settled] at ran
  obtain ⟨rfl,rfl⟩ := Prod.mk.inj (Option.some.inj ran)
  exact same

theorem consistent_of_texts (consistent : inner.Consistent canonicalPathKey) (lengths : SameLengths next)
    (size : next.files.length = inner.files.length) (byPath : next.byPath = inner.byPath)
    (byBasename : next.byBasename = inner.byBasename) (retired : next.retiredFiles = inner.retiredFiles)
    (texts : ∀ file, next.live file = inner.live file ∨
      ∃ entry text, inner.live file = some entry ∧ next.live file = some { entry with text := text }) :
    next.Consistent canonicalPathKey := by
  have paths : ∀ file (holds : FilePath → Prop), (∃ snapshot, next.live file = some snapshot ∧ holds snapshot.path) ↔
      ∃ snapshot, inner.live file = some snapshot ∧ holds snapshot.path := by
    intro file holds
    cases texts file with
    | inl kept => rw [kept]
    | inr changed =>
      obtain ⟨entry,text,live,after⟩ := changed
      simp [live,after]
  refine ⟨lengths,fun id snapshot live => ?_,fun key id => ?_,fun id gone => ?_,fun key id => ?_,fun key => ?_⟩
  · cases texts id with
    | inl kept => exact consistent.ids id snapshot (kept ▸ live)
    | inr changed =>
      obtain ⟨entry,text,before,after⟩ := changed
      rw [after] at live
      cases live
      exact consistent.ids id entry before
  · rw [byPath,consistent.table,paths id fun path => canonicalPathKey path = key]
  · rw [retired] at gone
    have dead := consistent.retired id gone
    refine ⟨?_,by rw [size]; exact dead.2⟩
    cases texts id with
    | inl kept => rw [kept,dead.1]
    | inr changed =>
      obtain ⟨_,_,before,_⟩ := changed
      rw [dead.1] at before
      cases before
  · rw [byBasename,consistent.basenames,paths id fun path => canonicalBasenameKey canonicalPathKey path = key]
  · rw [byBasename]
    exact consistent.distinct key

theorem SameButLoaded.consistent (same : SameButLoaded inner next) (consistent : inner.Consistent canonicalPathKey) :
    next.Consistent canonicalPathKey := by
  refine consistent_of_texts consistent (same.lengths consistent.lengths) same.size same.byPath same.byBasename same.retired
    fun file => ?_
  cases same.files file with
  | inl kept => exact .inl kept.1
  | inr loaded =>
    obtain ⟨entry,_,_,text,live,_,_,_,after,_⟩ := loaded
    exact .inr ⟨entry,text,live,after⟩

inductive Fate (inner next : Inner) (outcome : Outcome) (id : FileId) (old : FileSnapshot) : Prop
  | retired (removed : outcome = .removed (some id)) (gone : next.live id = none) (listed : id ∈ next.retiredFiles)
  | written (by' : outcome.written = some id) {new : FileSnapshot} (live : next.live id = some new)
      (path : new.path = old.path) (version : new.version = old.version + 1)
  | untouched (other : outcome.written ≠ some id) (kept : outcome ≠ .removed (some id))
      (same : Kept inner next id ∨ LoadedAt inner next id)

structure StepFacts (inner next : Inner) (outcome : Outcome) : Prop where
  fates : ∀ id old, inner.live id = some old → Fate inner next outcome id old
  removed : ∀ id, outcome = .removed (some id) → ∃ old, inner.live id = some old
  written : ∀ id, outcome.written = some id → ∃ new, next.live id = some new
  retired : ∀ id ∈ inner.retiredFiles, id ∈ next.retiredFiles
  revised : next.revision ≠ inner.revision ↔ outcome.mutates = true
  failed : outcome.failed = true → SameButLoaded inner next

theorem SameButLoaded.facts (same : SameButLoaded inner next) {outcome : Outcome} (unwritten : outcome.written = none)
    (still : outcome.mutates = false) : StepFacts inner next outcome where
  fates id _ _ := by
    refine .untouched (by rw [unwritten]; exact nofun) (fun removed => ?_) (same.files id)
    rw [removed] at still
    cases still
  removed id removed := by rw [removed] at still; cases still
  written id wrote := by rw [unwritten] at wrote; cases wrote
  retired id member := by rw [same.retired]; exact member
  revised := by simp [same.revision,still]
  failed _ := same

theorem SameButLoaded.version (same : SameButLoaded inner next) {new : FileSnapshot}
    (before : inner.live id = some old) (after : next.live id = some new) : new.path = old.path ∧ new.version = old.version := by
  cases same.files id with
  | inl kept =>
    rw [kept.1,before] at after
    cases after
    exact ⟨rfl,rfl⟩
  | inr loaded =>
    obtain ⟨entry,_,_,_,here,_,_,_,there,_⟩ := loaded
    rw [before] at here
    rw [after] at there
    cases here
    cases there
    exact ⟨rfl,rfl⟩

theorem Replaced.facts {middle : Inner} (before : SameButLoaded inner middle) {text : Text}
    {identity : Option SourceIdentity} (replaced : Replaced middle next id old text identity) {outcome : Outcome}
    (wrote : outcome.written = some id) (mutates : outcome.mutates = true) (succeeded : outcome.failed = false) :
    StepFacts inner next outcome where
  fates other first live := by
    have unremoved : ∀ file, outcome ≠ .removed file := by
      intro file removed
      rw [removed] at wrote
      cases wrote
    by_cases same : other = id
    · subst same
      obtain ⟨path,version⟩ := before.version live replaced.known
      have live' := replaced.live other
      rw [if_pos rfl] at live'
      exact .written wrote live' path (congrArg (· + 1) version)
    · refine .untouched (by rw [wrote]; exact fun eq => same (Option.some.inj eq).symm) (unremoved _) ?_
      have live' := replaced.live other
      have pending' := replaced.pending other
      rw [if_neg same] at live' pending'
      cases before.files other with
      | inl kept => exact .inl ⟨live'.trans kept.1,pending'.trans kept.2⟩
      | inr loaded =>
        obtain ⟨entry,identity,loader,text,here,waiting,installed,ran,after,settled⟩ := loaded
        exact .inr ⟨entry,identity,loader,text,here,waiting,installed,ran,live'.trans after,pending'.trans settled⟩
  removed other removed := by rw [removed] at wrote; cases wrote
  written other wrote' := by
    rw [wrote] at wrote'
    exact ⟨_,by rw [replaced.live,if_pos (Option.some.inj wrote').symm]⟩
  retired other member := by rw [replaced.retired,before.retired]; exact member
  revised := by simp [replaced.revision,before.revision,mutates]
  failed impossible := by rw [succeeded] at impossible; cases impossible

theorem Admitted.facts {path : FilePath} {text : Text} {identity : Option SourceIdentity}
    (admitted : Admitted canonicalPathKey inner next id path text identity) : StepFacts inner next (.file id) where
  fates other old live := by
    have apart : other ≠ id := by
      intro same
      rw [same,admitted.free] at live
      cases live
    refine .untouched (fun eq => apart (Option.some.inj eq).symm) nofun (.inl ⟨?_,?_⟩)
    · rw [admitted.live,if_neg apart]
    · rw [admitted.pending,if_neg apart]
  removed other removed := nomatch removed
  written other wrote := ⟨_,by rw [admitted.live,if_pos (Option.some.inj wrote).symm]⟩
  retired other member := by rw [admitted.retired]; exact member
  revised := by simp [admitted.revision,Outcome.mutates,Outcome.written]
  failed impossible := nomatch impossible

theorem Removed.facts {key : FilePath}
    (removed : Removed canonicalPathKey inner next id old key) :
    StepFacts inner next (.removed (some id)) where
  fates other first live := by
    by_cases same : other = id
    · subst same
      exact .retired rfl (by rw [removed.live,if_pos rfl]) ((removed.retired other).mpr (.inr rfl))
    · refine .untouched nofun (fun eq => same ?_) (.inl ⟨?_,?_⟩)
      · cases eq
        rfl
      · rw [removed.live,if_neg same]
      · rw [removed.pending,if_neg same]
  removed other same := by
    cases same
    exact ⟨old,removed.known⟩
  written other wrote := nomatch wrote
  retired other member := (removed.retired other).mpr (.inl member)
  revised := by simp [removed.revision,Outcome.mutates]
  failed impossible := nomatch impossible

theorem installEdits_cases (lengths : SameLengths inner) {edits : List TextEdit} {newText : Text}
    {result : Except VfsError FileId} (ran : inner.installEdits file edits newText = (result,next)) :
    (∃ error, result = .error error) ∧ next = inner ∨
      result = .ok file ∧ ∃ old, Replaced inner next file old newText none := by
  unfold installEdits at ran
  split at ran
  · obtain ⟨rfl,rfl⟩ := Prod.mk.inj ran
    exact .inl ⟨⟨_,rfl⟩,rfl⟩
  · split at ran
    · obtain ⟨rfl,rfl⟩ := Prod.mk.inj ran
      exact .inl ⟨⟨_,rfl⟩,rfl⟩
    · next prev known =>
      obtain ⟨rfl,rfl⟩ := Prod.mk.inj ran
      have replaced := replace_replaced lengths known newText none
      exact .inr ⟨rfl,prev,{ replaced with
        lengths := ⟨by rw [List.length_set]; exact replaced.lengths.edits,replaced.lengths.lazy⟩ }⟩

theorem takeEdits_same (inner : Inner) (file : FileId) :
    (∃ error, inner.takeEdits file = (.error error,inner)) ∨
      ∃ edits, inner.takeEdits file = (.ok edits,{ inner with editsSince := inner.editsSince.set file [] }) := by
  unfold takeEdits
  split
  · exact .inl ⟨_,rfl⟩
  · exact .inr ⟨_,rfl⟩

end Inner

open VirtualFiles.Inner

variable {canonicalPathKey : FilePath → FilePath} {inner next : Inner}

section
variable (consistent : inner.Consistent canonicalPathKey)
include consistent

theorem wrote_facts {id : FileId} {path : FilePath} {text : Text}
    {identity : Option SourceIdentity}
    (cases' : (∃ old, Replaced inner next id old text identity) ∨ Admitted canonicalPathKey inner next id path text identity) :
    next.Consistent canonicalPathKey ∧ StepFacts inner next (.file id) := by
  cases cases' with
  | inl replaced =>
    obtain ⟨old,replaced⟩ := replaced
    exact ⟨replaced.consistent consistent,replaced.facts (.refl inner) rfl rfl rfl⟩
  | inr admitted => exact ⟨admitted.consistent consistent,admitted.facts⟩

theorem edited_facts {edits : List TextEdit} {newText : Text}
    {result : Except VfsError FileId} (ran : inner.applyEdits edits newText = some (result,next)) :
    next.Consistent canonicalPathKey ∧ StepFacts inner next (.edited result) := by
  unfold applyEdits at ran
  split at ran
  · obtain ⟨rfl,rfl⟩ := Prod.mk.inj (Option.some.inj ran)
    exact ⟨consistent,(SameButLoaded.refl inner).facts rfl rfl⟩
  · next first _ =>
    split at ran
    · cases ran
    · next error middle read =>
      obtain ⟨rfl,rfl⟩ := Prod.mk.inj (Option.some.inj ran)
      have same := snapshot_same consistent.lengths read
      exact ⟨same.consistent consistent,same.facts rfl rfl⟩
    · next loaded middle read =>
      have same := snapshot_same consistent.lengths read
      have middleConsistent := same.consistent consistent
      cases installEdits_cases middleConsistent.lengths (Option.some.inj ran) with
      | inl failed =>
        obtain ⟨⟨error,rfl⟩,rfl⟩ := failed
        exact ⟨middleConsistent,same.facts rfl rfl⟩
      | inr installed =>
        obtain ⟨rfl,old,replaced⟩ := installed
        exact ⟨replaced.consistent middleConsistent,replaced.facts same rfl rfl rfl⟩

theorem step_facts {call : Call} {outcome : Outcome}
    (ran : step canonicalPathKey inner call = some (outcome,next)) :
    next.Consistent canonicalPathKey ∧ StepFacts inner next outcome := by
  cases call with
  | write path text =>
    obtain ⟨⟨id,after⟩,wrote,same⟩ := Option.map_eq_some_iff.mp ran
    obtain ⟨rfl,rfl⟩ := Prod.mk.inj same
    exact wrote_facts consistent (writeEntry_cases consistent wrote)
  | writeWithId fileId path text =>
    obtain ⟨⟨id,after⟩,wrote,same⟩ := Option.map_eq_some_iff.mp ran
    obtain ⟨rfl,rfl⟩ := Prod.mk.inj same
    exact wrote_facts consistent (writeEntryWithId_cases consistent wrote)
  | writeLazy path identity =>
    obtain ⟨⟨id,after⟩,wrote,same⟩ := Option.map_eq_some_iff.mp ran
    obtain ⟨rfl,rfl⟩ := Prod.mk.inj same
    exact wrote_facts consistent (writeEntry_cases consistent wrote)
  | writeLazyWithId fileId path identity =>
    obtain ⟨⟨id,after⟩,wrote,same⟩ := Option.map_eq_some_iff.mp ran
    obtain ⟨rfl,rfl⟩ := Prod.mk.inj same
    exact wrote_facts consistent (writeEntryWithId_cases consistent wrote)
  | applyEdits edits newText =>
    obtain ⟨⟨result,after⟩,edited,same⟩ := Option.map_eq_some_iff.mp ran
    obtain ⟨rfl,rfl⟩ := Prod.mk.inj same
    exact edited_facts consistent edited
  | remove path =>
    obtain ⟨rfl,rfl⟩ := Prod.mk.inj (Option.some.inj ran)
    cases ended : inner.remove canonicalPathKey path with
    | mk result after =>
      cases remove_cases consistent ended with
      | inl missing =>
        rw [missing.1,missing.2.1]
        exact ⟨consistent,(SameButLoaded.refl inner).facts rfl rfl⟩
      | inr found =>
        obtain ⟨id,old,same,known,removed⟩ := found
        rw [same]
        exact ⟨removed.consistent consistent known,removed.facts⟩
  | snapshot file =>
    obtain ⟨⟨result,after⟩,read,same⟩ := Option.map_eq_some_iff.mp ran
    obtain ⟨rfl,rfl⟩ := Prod.mk.inj same
    have same := snapshot_same consistent.lengths read
    exact ⟨same.consistent consistent,same.facts rfl rfl⟩
  | takeEdits file =>
    obtain ⟨rfl,rfl⟩ := Prod.mk.inj (Option.some.inj ran)
    cases takeEdits_same inner file with
    | inl failed =>
      obtain ⟨error,failed⟩ := failed
      rw [failed]
      exact ⟨consistent,(SameButLoaded.refl inner).facts rfl rfl⟩
    | inr taken =>
      obtain ⟨edits,taken⟩ := taken
      rw [taken]
      refine ⟨{ consistent with lengths := ⟨?_,consistent.lengths.lazy⟩ },⟨fun id old live => ?_,nofun,nofun,fun _ => id,?_,nofun⟩⟩
      · rw [List.length_set]
        exact consistent.lengths.edits
      · exact .untouched nofun nofun (.inl ⟨rfl,rfl⟩)
      · simp [Outcome.mutates,Outcome.written]
  | setLazyLoader loader =>
    obtain ⟨rfl,rfl⟩ := Prod.mk.inj (Option.some.inj ran)
    refine ⟨⟨⟨consistent.lengths.edits,consistent.lengths.lazy⟩,consistent.ids,consistent.table,consistent.retired,
      consistent.basenames,consistent.distinct⟩,⟨fun id old live => ?_,nofun,nofun,fun _ => id,?_,nofun⟩⟩
    · exact .untouched nofun nofun (.inl ⟨rfl,rfl⟩)
    · simp [Outcome.mutates,Outcome.written,setLazyLoader]

end

-- What a file system is to an earlier one: a file that lives on has kept its
-- path, and an id that was given up stays so.
structure Later (inner next : Inner) : Prop where
  kept : ∀ id old, inner.live id = some old →
    id ∈ next.retiredFiles ∨ ∃ new, next.live id = some new ∧ new.path = old.path ∧ old.version ≤ new.version
  retired : ∀ id ∈ inner.retiredFiles, id ∈ next.retiredFiles

theorem Later.refl (inner : Inner) : Later inner inner :=
  ⟨fun _ old live => .inr ⟨old,live,rfl,Nat.le_refl _⟩,fun _ => id⟩

theorem Later.trans {first second third : Inner} (early : Later first second) (late : Later second third) :
    Later first third := by
  refine ⟨fun id old live => ?_,fun id member => late.retired id (early.retired id member)⟩
  cases early.kept id old live with
  | inl gone => exact .inl (late.retired id gone)
  | inr kept =>
    obtain ⟨new,live,path,version⟩ := kept
    refine (late.kept id new live).imp (fun gone => gone) fun kept => ?_
    obtain ⟨last,live,path',version'⟩ := kept
    exact ⟨last,live,path'.trans path,Nat.le_trans version version'⟩

theorem Inner.StepFacts.later {outcome : Outcome} (facts : StepFacts inner next outcome) : Later inner next := by
  refine ⟨fun id old live => ?_,facts.retired⟩
  cases facts.fates id old live with
  | retired _ _ listed => exact .inl listed
  | written _ live path version => exact .inr ⟨_,live,path,by omega⟩
  | untouched _ _ same =>
    cases same with
    | inl kept => exact .inr ⟨old,kept.1.trans live,rfl,Nat.le_refl _⟩
    | inr loaded =>
      obtain ⟨entry,_,_,_,here,_,_,_,there,_⟩ := loaded
      rw [live] at here
      cases here
      exact .inr ⟨_,there,rfl,Nat.le_refl _⟩

theorem serve_later {calls : List Call} (consistent : inner.Consistent canonicalPathKey)
    (ran : serve canonicalPathKey inner calls = some next) : next.Consistent canonicalPathKey ∧ Later inner next := by
  induction calls generalizing inner with
  | nil =>
    cases ran
    exact ⟨consistent,.refl _⟩
  | cons call rest ih =>
    obtain ⟨⟨outcome,middle⟩,stepped,served⟩ := Option.bind_eq_some_iff.mp ran
    obtain ⟨middleConsistent,facts⟩ := step_facts consistent stepped
    obtain ⟨nextConsistent,later⟩ := ih middleConsistent served
    exact ⟨nextConsistent,facts.later.trans later⟩

theorem new_consistent (canonicalPathKey : FilePath → FilePath) : Inner.new.Consistent canonicalPathKey :=
  ⟨⟨rfl,rfl⟩,by simp [Inner.live,Inner.new],by simp [Inner.live,Inner.new],by simp [Inner.new],by simp [Inner.live,Inner.new],
    by simp [Inner.new]⟩

end BonsaiNinja.VirtualFiles
