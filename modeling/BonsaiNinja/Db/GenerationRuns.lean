import BonsaiNinja.Db.CompilerObjects

namespace BonsaiNinja.Db
open Idg (FileId Text)
open Hash (Bytes utf8Bytes utf8Bytes_injective)

namespace Compiler
variable {δ : Type u} {α β ε : Type v} (compiler : Compiler δ α β ε)
variable {vfs vfs' : Vfs} {file : FileId}

-- What a compiler that read one text throughout would have put together.
def objectFrom (d : SourceDescriptor δ) (text : Text) : CompiledFileObject δ α β ε :=
  if d.language.isSome then
    compiler.assembleObject d (compiler.parse d.file text) (compiler.buildDeclIndex d.file text)
      (compiler.buildImportIndex d.file text)
  else unsupportedObject d

def partsFrom (d : SourceDescriptor δ) (text : Text) : ObjectParts Bytes :=
  compiler.encodeParts d (compiler.objectFrom d text) (lineStartsOf text)

-- The payloads of one source: all six come from the text the descriptor
-- identifies. The digest determines that text.
def Derived (d : SourceDescriptor δ) (parts : ObjectParts Bytes) : Prop :=
  ∃ text, compiler.digestBytes (utf8Bytes text) = d.identity.digest ∧ parts = compiler.partsFrom d text

def StoredExact (stored : StoredObject δ) : Prop :=
  ∃ d : SourceDescriptor δ, d.file = stored.metadata.file ∧ d.path = stored.metadata.path ∧
    d.language = stored.metadata.language ∧ d.identity.digest = stored.metadata.sourceDigest ∧ compiler.Derived d stored.parts

def StoreExact (s : DbState δ α β ε) : Prop :=
  ∀ store, s.store = some store → ∀ stored ∈ store.files, compiler.StoredExact stored

variable {compiler}

-- Payloads depend on the descriptor through what the metadata records of it.
theorem partsFrom_eq {d e : SourceDescriptor δ} {text : Text} (file : d.file = e.file) (path : d.path = e.path)
    (language : d.language = e.language) (digest : d.identity.digest = e.identity.digest) :
    compiler.partsFrom d text = compiler.partsFrom e text := by
  simp only [partsFrom, encodeParts, objectFrom, assembleObject, unsupportedObject, file, path, language, digest]

theorem Derived.transfer {d e : SourceDescriptor δ} {parts : ObjectParts Bytes} (derived : compiler.Derived d parts)
    (file : d.file = e.file) (path : d.path = e.path) (language : d.language = e.language)
    (digest : d.identity.digest = e.identity.digest) : compiler.Derived e parts := by
  obtain ⟨text,source,same⟩ := derived
  exact ⟨text,source.trans digest,same.trans (partsFrom_eq file path language digest)⟩

-- A fact about the text of the described version: it speaks of the current text
-- as long as the file has not been written.
def OfVersion (vfs : Vfs) (d : SourceDescriptor δ) (holds : Text → Prop) : Prop :=
  ∀ snapshot, vfs.snapshot d.file = some snapshot → snapshot.version = d.version → holds snapshot.text.text

structure Known (compiler : Compiler δ α β ε) (vfs : Vfs) (file : FileId) (d : SourceDescriptor δ) : Prop where
  file : d.file = file
  present : ∃ snapshot, vfs.snapshot d.file = some snapshot ∧ d.version ≤ snapshot.version
  identity : OfVersion vfs d fun text => d.identity = compiler.identityOf text

theorem OfVersion.later {d : SourceDescriptor δ} {holds : Text → Prop} (fact : OfVersion vfs d holds)
    (present : ∃ snapshot, vfs.snapshot d.file = some snapshot ∧ d.version ≤ snapshot.version) (later : Vfs.Later vfs vfs') :
    OfVersion vfs' d holds := by
  obtain ⟨old,found,below⟩ := present
  obtain ⟨new,found',_,risen,same⟩ := later.kept d.file old found
  intro snapshot current version
  rw [found'] at current
  cases current
  have level : new.version = old.version := by omega
  rw [same level] at version ⊢
  exact fact old found version

theorem Known.later {d : SourceDescriptor δ} (known : Known compiler vfs file d)
    (later : Vfs.Later vfs vfs') : Known compiler vfs' file d := by
  refine ⟨known.file,?_,known.identity.later known.present later⟩
  obtain ⟨old,found,below⟩ := known.present
  obtain ⟨new,found',_,risen,_⟩ := later.kept d.file old found
  exact ⟨new,found',below.trans risen⟩

def StageHolds (compiler : Compiler δ α β ε) (vfs : Vfs) (file : FileId) : PrepareStage δ α β ε → Prop
  | .waiting => True
  | .versioned _ version => ∃ snapshot, vfs.snapshot file = some snapshot ∧ version ≤ snapshot.version
  | .described d => Known compiler vfs file d
  | .checked d => Known compiler vfs file d
  | .reusing d parts => Known compiler vfs file d ∧ compiler.Derived d parts
  | .parsed d diagnostics => Known compiler vfs file d ∧ d.language.isSome ∧
      OfVersion vfs d fun text => diagnostics = compiler.parse d.file text
  | .declared d diagnostics declarations => Known compiler vfs file d ∧ d.language.isSome ∧
      OfVersion vfs d fun text =>
        diagnostics = compiler.parse d.file text ∧ declarations = compiler.buildDeclIndex d.file text
  | .compiled d object => Known compiler vfs file d ∧ OfVersion vfs d fun text => object = compiler.objectFrom d text
  | .verified d object => Known compiler vfs file d ∧ ∃ snapshot, vfs.snapshot file = some snapshot ∧
      snapshot.version = d.version ∧ object = compiler.objectFrom d snapshot.text.text
  | .prepared d parts => compiler.Derived d parts
  | .appended stored => compiler.StoredExact stored

theorem StageHolds.later {stage : PrepareStage δ α β ε} (holds : StageHolds compiler vfs file stage)
    (later : Vfs.Later vfs vfs')
    (punctual : ∀ d object, stage = .verified d object → vfs'.snapshot file = vfs.snapshot file) :
    StageHolds compiler vfs' file stage := by
  cases stage with
  | waiting => trivial
  | versioned path version =>
    obtain ⟨old,found,below⟩ := holds
    obtain ⟨new,found',_,risen,_⟩ := later.kept file old found
    exact ⟨new,found',below.trans risen⟩
  | described d => exact Known.later holds later
  | checked d => exact Known.later holds later
  | reusing d parts => exact ⟨holds.1.later later,holds.2⟩
  | parsed | declared => exact ⟨holds.1.later later,holds.2.1,holds.2.2.later holds.1.present later⟩
  | compiled d object => exact ⟨holds.1.later later,holds.2.later holds.1.present later⟩
  | verified d object =>
    refine ⟨holds.1.later later,?_⟩
    rw [punctual d object rfl]
    exact holds.2
  | prepared d parts => exact holds
  | appended stored => exact holds

theorem stored_exact {stage : PrepareStage δ α β ε} {stored : StoredObject δ}
    (holds : StageHolds compiler vfs file stage) (done : stage.stored? = some stored) : compiler.StoredExact stored := by
  cases stage with
  | appended other =>
    cases done
    exact holds
  | waiting | versioned | described | checked | reusing | parsed | declared | compiled | verified | prepared => cases done

-- The version a file's preparation has committed to and not yet verified for the
-- last time.
def openVersion (file : FileId) : PrepareStage δ α β ε → Option Nat
  | .versioned _ version => some version
  | .described d => if d.file = file then some d.version else none
  | .checked d => if d.file = file then some d.version else none
  | .reusing d _ => if d.file = file then some d.version else none
  | .parsed d _ => if d.file = file then some d.version else none
  | .declared d _ _ => if d.file = file then some d.version else none
  | .compiled d _ => if d.file = file then some d.version else none
  | _ => none

theorem ensuring_opened {stage next : PrepareStage δ α β ε} {d : SourceDescriptor δ} {version : Nat}
    (ensuring : stage.ensuring = some (d,next)) (opened : openVersion file stage = some version) :
    d.file = file ∧ d.version = version := by
  cases stage with
  | described e | reusing e parts | compiled e object =>
    cases ensuring
    simpa [openVersion] using opened
  | waiting | versioned | checked | parsed | declared | verified | prepared | appended => cases ensuring

theorem openVersion_stored {stage : PrepareStage δ α β ε} {version : Nat}
    (opened : openVersion file stage = some version) : stage.stored? = none := by
  cases stage with
  | appended stored => cases opened
  | waiting | versioned | described | checked | reusing | parsed | declared | compiled | verified | prepared => rfl

section
variable [DecidableEq δ]
variable {vfs : Vfs} {file : FileId}

theorem compressedPayload_derived {store : CompilerObjectStore δ} (exact : ∀ stored ∈ store.files, compiler.StoredExact stored)
    {d : SourceDescriptor δ} {parts : ObjectParts Bytes} (found : store.compressedPayload compiler d = some parts) :
    compiler.Derived d parts := by
  simp only [CompilerObjectStore.compressedPayload, CompilerObjectStore.metadataFor] at found
  cases listed : store.files.find? fun stored => stored.metadata.file == d.file with
  | none => simp [listed] at found
  | some stored =>
    simp only [listed] at found
    split at found
    · next other matched =>
      obtain ⟨⟨path,language,digest,_⟩,same⟩ := Option.ite_none_right_eq_some.mp matched
      cases same
      obtain ⟨_,same⟩ := Option.ite_none_right_eq_some.mp found
      cases same
      obtain ⟨e,file,path',language',digest',derived⟩ := exact stored (List.mem_of_find?_eq_some listed)
      have file' : stored.metadata.file = d.file := by simpa using List.find?_some listed
      exact derived.transfer (file.trans file') (path'.trans path) (language'.trans language) (digest'.trans digest)
    · simp at found

theorem sourceUnchanged_version {d : SourceDescriptor δ} {identity : Option (SourceIdentity δ)}
    (same : compiler.sourceUnchanged vfs d identity = true) :
    ∃ snapshot, vfs.snapshot d.file = some snapshot ∧ snapshot.version = d.version := by
  unfold sourceUnchanged at same
  split at same
  · next snapshot found =>
    simp only [Bool.and_eq_true, beq_iff_eq] at same
    exact ⟨snapshot,found,same.1.1⟩
  · simp at same

-- A successful check leads from what was read before to the stage that relies
-- on it.
theorem ensured_holds {stage next : PrepareStage δ α β ε} {d : SourceDescriptor δ}
    {identity : Option (SourceIdentity δ)} (holds : StageHolds compiler vfs file stage)
    (ensuring : stage.ensuring = some (d,next)) (same : compiler.sourceUnchanged vfs d identity = true) :
    StageHolds compiler vfs file next := by
  obtain ⟨snapshot,found,version⟩ := sourceUnchanged_version same
  cases stage with
  | described e =>
    cases ensuring
    exact holds
  | reusing e parts =>
    cases ensuring
    exact holds.2
  | compiled e object =>
    cases ensuring
    exact ⟨holds.1,snapshot,holds.1.file ▸ found,version,holds.2 snapshot found version⟩
  | waiting | versioned | checked | parsed | declared | verified | prepared | appended => cases ensuring

theorem prepareStep_holds {store : Option (CompilerObjectStore δ)}
    {progress next : FileProgress δ α β ε} {read : PrepareRead}
    (exact : ∀ s, store = some s → ∀ stored ∈ s.files, compiler.StoredExact stored)
    (holds : StageHolds compiler vfs file progress.stage)
    (moved : compiler.prepareStep vfs store file progress read = .moved next) : StageHolds compiler vfs file next.stage := by
  obtain ⟨stage,identity⟩ := progress
  cases read with
  | version =>
    simp only [prepareStep] at moved
    split at moved
    · next snapshot found =>
      cases moved
      exact ⟨snapshot,found,Nat.le_refl _⟩
    · cases moved
  | source =>
    simp only [prepareStep] at moved
    split at moved
    · next path version snapshot found =>
      cases moved
      obtain ⟨current,found',below⟩ := holds
      have same : current = snapshot := Option.some.inj (found'.symm.trans found)
      subst same
      refine ⟨rfl,⟨current,found,below⟩,?_⟩
      intro other found'' _
      have same : other = current := Option.some.inj (found''.symm.trans found)
      rw [same]
    · cases moved
  | identity =>
    simp only [prepareStep] at moved
    split at moved
    · cases moved
      exact holds
    · cases moved
  | ensure =>
    simp only [prepareStep] at moved
    split at moved
    · next d after ensuring =>
      split at moved
      · next same =>
        cases moved
        exact ensured_holds holds ensuring same
      · cases moved
    · cases moved
  | reuse =>
    simp only [prepareStep] at moved
    split at moved
    · next d present =>
      split at moved
      · next parts found =>
        cases moved
        exact ⟨holds,compressedPayload_derived (exact _ rfl) found⟩
      · cases moved
    · cases moved
  | parse =>
    simp only [prepareStep] at moved
    split at moved
    · next d snapshot found =>
      split at moved
      · next supported =>
        cases moved
        refine ⟨holds,supported,?_⟩
        intro other found' _
        have same : other = snapshot := Option.some.inj (found'.symm.trans (holds.file.symm ▸ found))
        rw [same, holds.file]
      · next unsupported =>
        cases moved
        refine ⟨holds,?_⟩
        intro other _ _
        rw [objectFrom, if_neg unsupported]
    · cases moved
  | declarations =>
    simp only [prepareStep] at moved
    split at moved
    · next d diagnostics snapshot found =>
      cases moved
      obtain ⟨known,supported,parsed⟩ := holds
      refine ⟨known,supported,?_⟩
      intro other found' version
      have same : other = snapshot := Option.some.inj (found'.symm.trans (known.file.symm ▸ found))
      refine ⟨parsed other found' version,?_⟩
      rw [same, known.file]
    · cases moved
  | imports =>
    simp only [prepareStep] at moved
    split at moved
    · next d diagnostics declarations snapshot found =>
      cases moved
      obtain ⟨known,supported,read⟩ := holds
      refine ⟨known,?_⟩
      intro other found' version
      have same : other = snapshot := Option.some.inj (found'.symm.trans (known.file.symm ▸ found))
      obtain ⟨parsed,declared⟩ := read other found' version
      rw [objectFrom, if_pos supported, ← parsed, ← declared, same, known.file]
    · cases moved
  | lines =>
    simp only [prepareStep] at moved
    split at moved
    · next d object =>
      cases moved
      obtain ⟨known,snapshot,found,version,same⟩ := holds
      refine ⟨snapshot.text.text,?_,?_⟩
      · have identity := known.identity snapshot (known.file.symm ▸ found) version
        rw [identity]
        rfl
      · simp only [found, same, partsFrom, Option.map_some, Option.getD_some]
    · cases moved
  | append =>
    simp only [prepareStep] at moved
    split at moved
    · next d parts =>
      cases moved
      exact ⟨d,rfl,rfl,rfl,rfl,holds⟩
    · cases moved

structure Valid (compiler : Compiler δ α β ε) (s : DbState δ α β ε) : Prop where
  store : compiler.StoreExact s
  build : ∀ build, s.build = some build → ∀ file, StageHolds compiler s.vfs file (build.progress file).stage

-- A write that reaches a file between its second check and the snapshot its line
-- table is taken from.
def LateWrite (s : DbState δ α β ε) : DbAction → Prop
  | .write path _ => ∃ file build d object, s.vfs.lookup path = some file ∧ s.build = some build ∧
      (build.progress file).stage = .verified d object
  | _ => False

def PunctualStep (compiler : Compiler δ α β ε) (s s' : DbState δ α β ε) : Prop :=
  ∃ action, ¬LateWrite s action ∧ compiler.step s action = some s'

abbrev PunctualRuns (compiler : Compiler δ α β ε) : DbState δ α β ε → DbState δ α β ε → Prop :=
  Relation.ReflTransGen compiler.PunctualStep

-- What a step can do, the error exits of a build being one case.
inductive Outcome (compiler : Compiler δ α β ε) (s : DbState δ α β ε) : DbAction → DbState δ α β ε → Prop where
  | written {path text} : Outcome compiler s (.write path text) { s with vfs := s.vfs.write path text }
  | started {targets listed} : s.build = none →
      Outcome compiler s (.start targets) { s with build := some ⟨listed,fun _ => PrepareStage.only .waiting⟩ }
  | moved {build file read progress} : s.build = some build → file ∈ build.targets →
      compiler.prepareStep s.vfs s.store file (build.progress file) read = .moved progress →
      Outcome compiler s (.prepare file read) { s with build := some (build.set file progress) }
  | changed {build file read} : s.build = some build → Outcome compiler s (.prepare file read) { s with build := none }
  | failed {build} : s.build = some build → Outcome compiler s .fail { s with build := none }
  | published {build} : s.build = some build →
      (∀ target ∈ build.targets, ((build.progress target).stage.stored?).isSome) →
      Outcome compiler s .publish { s with
        store := some ⟨build.targets.filterMap fun target => (build.progress target).stage.stored?⟩
        build := none }

theorem step_outcome {s s' : DbState δ α β ε} {action : DbAction} (step : compiler.step s action = some s') :
    Outcome compiler s action s' := by
  cases action with
  | write path text =>
    cases step
    exact .written
  | start targets =>
    simp only [Compiler.step] at step
    split at step
    · next idle =>
      cases step
      exact .started idle
    · cases step
  | prepare file read =>
    simp only [Compiler.step] at step
    split at step
    · next build running =>
      split at step
      · next admitted =>
        split at step
        · cases step
        · next progress moved =>
          cases step
          exact .moved running admitted.1 moved
        · cases step
          exact .changed running
      · cases step
    · cases step
  | fail =>
    simp only [Compiler.step] at step
    split at step
    · next build running =>
      cases step
      exact .failed running
    · cases step
  | publish =>
    simp only [Compiler.step] at step
    split at step
    · next build running =>
      split at step
      · next complete =>
        cases step
        exact .published running complete
      · cases step
    · cases step

theorem step_valid {s s' : DbState δ α β ε} (valid : Valid compiler s) (step : compiler.PunctualStep s s') : Valid compiler s' := by
  obtain ⟨action,punctual,step⟩ := step
  cases step_outcome step with
  | @written path text =>
    refine ⟨valid.store,?_⟩
    intro build running file
    apply StageHolds.later (valid.build build running file) (Vfs.write_later _ _ _)
    intro d object verified
    have holds := valid.build build running file
    rw [verified] at holds
    obtain ⟨_,snapshot,found,_⟩ := holds
    have other : s.vfs.lookup path ≠ some file := fun same => punctual ⟨file,build,d,object,same,running,verified⟩
    exact (Vfs.write_other other found).trans found.symm
  | started idle =>
    refine ⟨valid.store,?_⟩
    intro build running file
    cases running
    trivial
  | @moved build file read progress running inside moved =>
    refine ⟨valid.store,?_⟩
    intro other same target
    cases same
    by_cases here : target = file
    · subst here
      simp only [GenerationBuild.set, Function.update_self]
      exact prepareStep_holds valid.store (valid.build build running target) moved
    · simp only [GenerationBuild.set, Function.update_of_ne here]
      exact valid.build build running target
  | changed | failed => exact ⟨valid.store,fun _ same => by cases same⟩
  | @published build running complete =>
    refine ⟨?_,fun _ same => by cases same⟩
    intro store same stored member
    cases same
    obtain ⟨target,_,done⟩ := List.mem_filterMap.mp member
    exact stored_exact (valid.build build running target) done

theorem runs_valid {s s' : DbState δ α β ε} (valid : Valid compiler s) (run : compiler.PunctualRuns s s') : Valid compiler s' := by
  induction run with
  | refl => exact valid
  | tail _ step previous => exact step_valid previous step

def Outdated (s : DbState δ α β ε) (file : FileId) : Prop :=
  ∃ build version snapshot, s.build = some build ∧ file ∈ build.targets ∧
    openVersion file (build.progress file).stage = some version ∧ s.vfs.snapshot file = some snapshot ∧ version < snapshot.version

-- No check of an outdated file succeeds, so its preparation stays open.
theorem openVersion_moved {store : Option (CompilerObjectStore δ)}
    {progress next : FileProgress δ α β ε} {read : PrepareRead} {version : Nat} {snapshot : FileSnapshot}
    (opened : openVersion file progress.stage = some version) (found : vfs.snapshot file = some snapshot)
    (older : version < snapshot.version) (moved : compiler.prepareStep vfs store file progress read = .moved next) :
    openVersion file next.stage = some version := by
  obtain ⟨stage,identity⟩ := progress
  cases read with
  | version =>
    simp only [prepareStep] at moved
    split at moved
    · cases opened
    · cases moved
  | source =>
    simp only [prepareStep] at moved
    split at moved
    · cases moved
      simpa [openVersion,PrepareStage.only] using opened
    · cases moved
  | identity =>
    simp only [prepareStep] at moved
    split at moved
    · cases moved
      exact opened
    · cases moved
  | ensure =>
    simp only [prepareStep] at moved
    split at moved
    · next d after ensuring =>
      split at moved
      · next same =>
        obtain ⟨file',version'⟩ := ensuring_opened ensuring opened
        obtain ⟨current,found',level⟩ := sourceUnchanged_version same
        rw [file', found] at found'
        cases found'
        omega
      · cases moved
    · cases moved
  | reuse =>
    simp only [prepareStep] at moved
    split at moved
    · split at moved
      · cases moved
        exact opened
      · cases moved
    · cases moved
  | parse =>
    simp only [prepareStep] at moved
    split at moved
    · split at moved
      · cases moved
        exact opened
      · cases moved
        exact opened
    · cases moved
  | declarations | imports =>
    simp only [prepareStep] at moved
    split at moved
    · cases moved
      exact opened
    · cases moved
  | lines | append =>
    simp only [prepareStep] at moved
    split at moved
    · cases opened
    · cases moved

theorem outdated_step {s s' : DbState δ α β ε} {action : DbAction} (outdated : Outdated s file)
    (step : compiler.step s action = some s') : s'.store = s.store ∧ (Outdated s' file ∨ s'.build = none) := by
  obtain ⟨build,version,snapshot,running,target,opened,found,older⟩ := outdated
  cases step_outcome step with
  | @written path text =>
    obtain ⟨new,found',_,risen,_⟩ := (Vfs.write_later s.vfs path text).kept file snapshot found
    exact ⟨rfl,.inl ⟨build,version,new,running,target,opened,found',by omega⟩⟩
  | started idle =>
    rw [running] at idle
    cases idle
  | @moved other moving read progress same inside moved =>
    rw [running] at same
    cases same
    refine ⟨rfl,.inl ⟨_,version,snapshot,rfl,target,?_,found,older⟩⟩
    by_cases here : file = moving
    · subst here
      simp only [GenerationBuild.set, Function.update_self]
      exact openVersion_moved opened found older moved
    · simp only [GenerationBuild.set, Function.update_of_ne here]
      exact opened
  | changed _ => exact ⟨rfl,.inr rfl⟩
  | failed _ => exact ⟨rfl,.inr rfl⟩
  | @published other same complete =>
    rw [running] at same
    cases same
    have done := complete file target
    rw [openVersion_stored opened] at done
    cases done

def BuildStep (compiler : Compiler δ α β ε) (s s' : DbState δ α β ε) : Prop :=
  ∃ action, (∀ targets, action ≠ .start targets) ∧ compiler.step s action = some s'

abbrev BuildRuns (compiler : Compiler δ α β ε) : DbState δ α β ε → DbState δ α β ε → Prop :=
  Relation.ReflTransGen compiler.BuildStep

theorem idle_step {s s' : DbState δ α β ε} (idle : s.build = none) (step : compiler.BuildStep s s') :
    s'.store = s.store ∧ s'.build = none := by
  obtain ⟨action,continues,step⟩ := step
  cases step_outcome step with
  | written => exact ⟨rfl,idle⟩
  | started _ => exact absurd rfl (continues _)
  | moved running _ _ | changed running | failed running | published running _ => rw [idle] at running; cases running

theorem outdated_runs {s s' : DbState δ α β ε} (outdated : Outdated s file)
    (run : compiler.BuildRuns s s') : s'.store = s.store ∧ (Outdated s' file ∨ s'.build = none) := by
  induction run with
  | refl => exact ⟨rfl,.inl outdated⟩
  | tail _ step previous =>
    obtain ⟨store,outdated | idle⟩ := previous
    · obtain ⟨action,_,step⟩ := step
      obtain ⟨store',next⟩ := outdated_step outdated step
      exact ⟨store'.trans store,next⟩
    · obtain ⟨store',idle'⟩ := idle_step idle step
      exact ⟨store'.trans store,.inr idle'⟩

-- When no file is written between its second check and its line table, every
-- published generation is exact, and one whose file was written before that check
-- is never published.
theorem generation_exact {start s : DbState δ α β ε} (idle : start.build = none) (exact : compiler.StoreExact start)
    (run : compiler.PunctualRuns start s) :
    compiler.StoreExact s ∧ ∀ file, Outdated s file → ∀ s', compiler.BuildRuns s s' →
      s'.store = s.store ∧ (Outdated s' file ∨ s'.build = none) := by
  have initial : Valid compiler start := ⟨exact,fun _ running => by rw [idle] at running; cases running⟩
  exact ⟨(runs_valid initial run).store,fun _ outdated _ later => outdated_runs outdated later⟩

theorem punctual_of_run {actions : List DbAction} {s s' : DbState δ α β ε} (run : compiler.run s actions = some s')
    (quiet : ∀ action ∈ actions, ∀ path text, action ≠ .write path text) : compiler.PunctualRuns s s' := by
  induction actions generalizing s with
  | nil =>
    cases run
    exact .refl
  | cons action rest ih =>
    simp only [Compiler.run, List.foldlM_cons] at run
    obtain ⟨next,step,later⟩ := Option.bind_eq_some_iff.mp run
    refine .head ⟨action,?_,step⟩ (ih later fun action member => quiet action (List.mem_cons_of_mem _ member))
    intro late
    cases action with
    | write path text => exact quiet _ List.mem_cons_self path text rfl
    | start | prepare | fail | publish => exact late

end

end Compiler

def plainCompiler : Compiler Bytes Text Unit Unit where
  digestBytes := id
  digest_injective _ _ := id
  adapterFor _ := some []
  parse _ _ := []
  buildDeclIndex _ text := (some text,[])
  buildImportIndex _ _ := (none,[])
  markNamespaceCallReceivers declarations _ := declarations
  encodeObject object := utf8Bytes (object.declarations.getD [])
  encodeHeader declarations _ := utf8Bytes (declarations.getD [])
  encodeAttribution _ declarations := utf8Bytes (declarations.getD [])
  encodeBrowse declarations _ := utf8Bytes (declarations.getD [])
  encodeDeclarations _ declarations := utf8Bytes (declarations.getD [])
  encodeLineStarts starts := starts.map UInt8.ofNat

def sourceVfs : Vfs := Vfs.empty.write [] ['a']

def beforeSecondCheck : List DbAction :=
  [.start [0],.prepare 0 .version,.prepare 0 .source,.prepare 0 .ensure,.prepare 0 .parse,.prepare 0 .declarations,
    .prepare 0 .imports,.prepare 0 .ensure]

def afterSecondCheck : List DbAction := [.prepare 0 .lines,.prepare 0 .append,.publish]

def unbuilt : DbState Bytes Text Unit Unit := ⟨sourceVfs,none,none⟩

theorem generation_exact_published :
    ∃ s, plainCompiler.run unbuilt (beforeSecondCheck ++ afterSecondCheck) = some s ∧ s.store.isSome ∧ plainCompiler.StoreExact s := by
  have published : (plainCompiler.run unbuilt (beforeSecondCheck ++ afterSecondCheck)).map (·.store.isSome) = some true := by
    decide
  obtain ⟨s,run,stored⟩ := Option.map_eq_some_iff.mp published
  have punctual : plainCompiler.PunctualRuns unbuilt s := Compiler.punctual_of_run run (by simp [beforeSecondCheck,afterSecondCheck])
  have empty : plainCompiler.StoreExact unbuilt := by
    intro store absent
    cases absent
  exact ⟨s,run,stored,(Compiler.generation_exact rfl empty punctual).1⟩

def lateStored : StoredObject Bytes :=
  ⟨plainCompiler.storedMetadata ⟨0,[],some [],plainCompiler.identityOf ['a'],0⟩ ⟨[97],[97],[97],[97],[97],[0,1]⟩,
    ⟨[97],[97],[97],[97],[97],[0,1]⟩⟩

theorem lateStored_mixed : ¬plainCompiler.StoredExact lateStored := by
  rintro ⟨d,_,_,_,digest,text,source,same⟩
  have read : utf8Bytes text = utf8Bytes ['a'] := source.trans digest
  rw [utf8Bytes_injective read] at same
  have lines : [(0 : UInt8),1] = [0] := congrArg ObjectParts.lines same
  cases lines

-- The file becomes a single line break after the second check: the line table is
-- that of the new text, everything else is of the text the metadata names.
theorem late_line_table :
    ∃ s, plainCompiler.run unbuilt (beforeSecondCheck ++ .write [] ['\n'] :: afterSecondCheck) = some s ∧
      ¬plainCompiler.StoreExact s := by
  have published : (plainCompiler.run unbuilt (beforeSecondCheck ++ .write [] ['\n'] :: afterSecondCheck)).map (·.store) =
      some (some ⟨[lateStored]⟩) := by decide
  obtain ⟨s,run,stored⟩ := Option.map_eq_some_iff.mp published
  exact ⟨s,run,fun exact => lateStored_mixed (exact _ stored _ List.mem_cons_self)⟩

end BonsaiNinja.Db
