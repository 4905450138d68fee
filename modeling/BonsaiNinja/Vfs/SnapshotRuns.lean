import BonsaiNinja.Vfs.SnapshotRaces

namespace BonsaiNinja.VirtualFiles
open Idg (FileId Text)
open VirtualFiles.Inner
variable {source : Source} {snapshot : FileSnapshot} {file : FileId}
variable {identity : Option SourceIdentity}
variable {result : Except VfsError FileSnapshot}

variable {canonicalPathKey : FilePath → FilePath} {inner next : Inner} {installs : List (FileId × Nat × Source)}
  {loaders : List LazySourceLoader}

theorem Gives.mono {more : List LazySourceLoader} (grows : ∀ loader ∈ loaders, loader ∈ more) {path : FilePath} {text : Text}
    (gives : Gives loaders path text source) : Gives more path text source := by
  cases source with
  | eager written => exact gives
  | lazy identity =>
    obtain ⟨loader,member,ran⟩ := gives
    exact ⟨loader,grows loader member,ran⟩

theorem Explains.mono {more : List LazySourceLoader} (grows : ∀ loader ∈ loaders, loader ∈ more)
    {pending : Option SourceIdentity}
    (explains : Explains loaders pending snapshot source) : Explains more pending snapshot source := by
  cases pending with
  | some identity => exact explains
  | none => exact Gives.mono grows explains

section
variable (traced : Traced canonicalPathKey inner installs loaders)
include traced

-- A new version of a file never had an install before.
theorem Traced.install
    (wrote : Wrote inner next file snapshot identity)
    (consistent : next.Consistent canonicalPathKey) (newer : ∀ old, inner.live file = some old → old.version < snapshot.version)
    (unretired : file ∉ inner.retiredFiles)
    (holds : source = .of identity snapshot.text) :
    Traced canonicalPathKey next (installs ++ [(file,snapshot.version,source)]) loaders := by
  have fresh : ∀ other, (file,snapshot.version,other) ∉ installs := by
    intro other member
    cases traced.known _ _ _ member with
    | inl retired => exact unretired retired
    | inr live =>
      obtain ⟨old,live,version⟩ := live
      have lower := newer old live
      omega
  refine ⟨consistent,fun id version a b first second => ?_,fun id version a member => ?_,fun id current live => ?_,
    fun loader installed => traced.loader loader (wrote.loader ▸ installed)⟩
  · rw [List.mem_append,List.mem_singleton] at first second
    cases first with
    | inl first =>
      cases second with
      | inl second => exact traced.unique id version a b first second
      | inr second =>
        cases second
        exact absurd first (fresh a)
    | inr first =>
      cases first
      cases second with
      | inl second => exact absurd second (fresh b)
      | inr second =>
        cases second
        rfl
  · rw [List.mem_append,List.mem_singleton] at member
    rw [wrote.retired,wrote.live]
    cases member with
    | inl member =>
      refine (traced.known id version a member).imp (fun retired => retired) fun known => ?_
      obtain ⟨old,live,below⟩ := known
      split
      · next same =>
        rw [same] at live
        have lower := newer old live
        exact ⟨snapshot,rfl,by omega⟩
      · exact ⟨old,live,below⟩
    | inr same =>
      cases same
      exact .inr ⟨snapshot,if_pos rfl,Nat.le_refl _⟩
  · rw [wrote.live] at live
    rw [wrote.pending]
    split at live
    · next same =>
      cases live
      refine ⟨source,List.mem_append.mpr (.inr (by rw [same]; exact List.mem_singleton.mpr rfl)),?_⟩
      rw [if_pos same,holds]
      cases identity with
      | some identity => exact (rfl : Source.lazy identity = .lazy identity)
      | none => exact (rfl : snapshot.text = snapshot.text)
    · next other =>
      rw [if_neg other]
      obtain ⟨old,member,current'⟩ := traced.entries id current live
      exact ⟨old,List.mem_append.mpr (.inl member),current'⟩

theorem Traced.wrote {path : FilePath} {text : Text}
    (holds : source = .of identity text)
    (written : (∃ old, Replaced inner next file old text identity) ∨ Admitted canonicalPathKey inner next file path text identity) :
    Traced canonicalPathKey next (installs ++ [(file,((next.live file).map (·.version)).getD 0,source)]) loaders := by
  cases written with
  | inl replaced =>
    obtain ⟨old,replaced⟩ := replaced
    have live : next.live file = some ⟨file,old.path,text,old.version + 1⟩ := by rw [replaced.live,if_pos rfl]
    rw [live]
    refine traced.install replaced.toWrote (replaced.consistent traced.consistent) (fun other known => ?_) (fun retired => ?_) holds
    · rw [replaced.known] at known
      cases known
      exact Nat.lt_succ_self _
    · have gone := (traced.consistent.retired file retired).1
      rw [replaced.known] at gone
      cases gone
  | inr admitted =>
    have live : next.live file = some ⟨file,path,text,0⟩ := by rw [admitted.live,if_pos rfl]
    rw [live]
    refine traced.install admitted.toWrote (admitted.consistent traced.consistent) (fun old known => ?_) admitted.fresh holds
    rw [admitted.free] at known
    cases known

theorem Traced.remove (path : FilePath) :
    Traced canonicalPathKey (inner.remove canonicalPathKey path).2 installs loaders := by
  cases ended : inner.remove canonicalPathKey path with
  | mk result after =>
    cases remove_cases traced.consistent ended with
    | inl missing =>
      rw [missing.2.1]
      exact traced
    | inr found =>
      obtain ⟨id,old,_,known,removed⟩ := found
      refine ⟨removed.consistent traced.consistent known,traced.unique,fun file version source member => ?_,
        fun file snapshot live => ?_,fun loader installed => traced.loader loader (removed.loader ▸ installed)⟩
      · rw [removed.retired,removed.live]
        by_cases same : file = id
        · exact .inl (.inr same)
        · rw [if_neg same]
          exact (traced.known file version source member).imp .inl fun live => live
      · have live' := removed.live file
        have pending := removed.pending file
        rw [live] at live'
        split at live'
        · cases live'
        · next other =>
          rw [pending,if_neg other]
          exact traced.entries file snapshot live'.symm

theorem Traced.setLazyLoader (loader : LazySourceLoader) :
    Traced canonicalPathKey (inner.setLazyLoader loader) installs (loaders ++ [loader]) := by
  refine ⟨(step_facts traced.consistent (rfl : step canonicalPathKey inner (.setLazyLoader loader) = some (.done,_))).1,
    traced.unique,traced.known,fun file snapshot live => ?_,fun other installed => ?_⟩
  · obtain ⟨source,member,current⟩ := traced.entries file snapshot live
    exact ⟨source,member,current.mono fun other => List.mem_append_left _⟩
  · cases installed
    exact List.mem_append_right _ (List.mem_singleton.mpr rfl)

end

inductive Published (inner next : Inner) (file : FileId) (snapshot : FileSnapshot) (identity : SourceIdentity)
    (loaded : Except Text Text) (result : Except VfsError FileSnapshot) : Prop
  | missing (same : next = inner) (failed : result = .error (.unknownFile file))
  | present {entry : FileSnapshot} (same : next = inner) (returned : result = .ok entry) (live : inner.live file = some entry)
      (settled : inner.pending file = none)
  | failed {entry : FileSnapshot} {error : Text} (same : next = inner) (returned : result = .error (.lazyLoad snapshot.path error))
      (live : inner.live file = some entry) (path : entry.path = snapshot.path) (waiting : inner.pending file = some identity)
      (ran : loaded = .error error)
  | loaded {entry : FileSnapshot} {text : Text} (returned : result = .ok { entry with text := text })
      (live : inner.live file = some entry) (path : entry.path = snapshot.path) (waiting : inner.pending file = some identity)
      (ran : loaded = .ok text)
      (after : next = { inner with
        files := inner.files.set file (some { entry with text := text })
        lazy := inner.lazy.set file none })

theorem publish_cases {identity : SourceIdentity} {loaded : Except Text Text}
    (ran : inner.publish file snapshot identity loaded = .done result next) :
    Published inner next file snapshot identity loaded result := by
  unfold publish at ran
  split at ran
  · cases ran
    exact .missing rfl rfl
  · next entry live =>
    split at ran
    · next settled =>
      cases ran
      exact .present rfl rfl live settled
    · next current waiting =>
      split at ran
      · cases ran
      · next matching =>
        simp only [not_or,ne_eq,Decidable.not_not] at matching
        obtain ⟨_,path,same⟩ := matching
        subst same
        split at ran
        · cases ran
          exact .failed rfl rfl live path waiting rfl
        · cases ran
          exact .loaded rfl live path waiting rfl rfl

theorem Traced.publish (traced : Traced canonicalPathKey inner installs loaders)
    {identity : SourceIdentity} {loaded : Except Text Text}
    (ran : ∃ loader ∈ loaders, loader snapshot.path identity = loaded)
    (published : Published inner next file snapshot identity loaded result) :
    Traced canonicalPathKey next installs loaders := by
  cases published with
  | missing same _ | present same _ _ _ | failed same _ _ _ _ _ => exact same ▸ traced
  | @loaded entry text _ live path waiting ok after =>
    have inside := live_inside live
    have live' : ∀ other, next.live other = if other = file then some { entry with text := text } else inner.live other := by
      intro other
      rw [after]
      refine (slot_set _ _ _ other).trans ?_
      simp only [inside,and_true]
      rfl
    have pending' : ∀ other, next.pending other = if other = file then none else inner.pending other := by
      intro other
      rw [after]
      refine (slot_set _ _ _ other).trans ?_
      simp only [traced.consistent.lengths.lazy,inside,and_true]
      rfl
    have tables : next.byPath = inner.byPath ∧ next.byBasename = inner.byBasename ∧ next.retiredFiles = inner.retiredFiles ∧
        next.loader = inner.loader ∧ next.files.length = inner.files.length ∧ SameLengths next := by
      rw [after]
      exact ⟨rfl,rfl,rfl,rfl,by simp,by simp [traced.consistent.lengths.edits],by simp [traced.consistent.lengths.lazy]⟩
    obtain ⟨byPath,byBasename,retired,loader,size,lengths⟩ := tables
    refine ⟨consistent_of_texts traced.consistent lengths size byPath byBasename retired fun other => ?_,traced.unique,
      fun other version source member => ?_,fun other current found => ?_,fun set installed => traced.loader set (loader ▸ installed)⟩
    · rw [live']
      split
      · next same => exact .inr ⟨entry,text,same ▸ live,rfl⟩
      · exact .inl rfl
    · rw [retired,live']
      refine (traced.known other version source member).imp (fun gone => gone) fun known => ?_
      obtain ⟨old,known,below⟩ := known
      split
      · next same =>
        rw [same,live] at known
        cases known
        exact ⟨_,rfl,below⟩
      · exact ⟨old,known,below⟩
    · rw [live'] at found
      rw [pending']
      split at found
      · next same =>
        cases found
        rw [if_pos same]
        obtain ⟨source,member,current⟩ := traced.entries file entry live
        rw [waiting] at current
        obtain ⟨loader,installed,returned⟩ := ran
        refine ⟨source,same ▸ member,?_⟩
        rw [show source = .lazy identity from current]
        refine ⟨loader,installed,?_⟩
        show loader entry.path identity = _
        rw [path,returned,ok]
      · next other' =>
        rw [if_neg other']
        exact traced.entries other current found

namespace World
variable {world : World}
variable {file : FileId} {caller : Nat} {call : Ongoing} {result : Except VfsError FileSnapshot} {snapshot : FileSnapshot}
variable {identity : SourceIdentity}

structure Grows (world next : World) : Prop where
  installs : ∀ row ∈ world.installs, row ∈ next.installs
  loaders : ∀ loader ∈ world.loaders, loader ∈ next.loaders
  moments : world.moments <+: next.moments

theorem Honest.mono {next : World} (grows : Grows world next) {done : Return} (honest : world.Honest done) :
    next.Honest done := by
  obtain ⟨later,split⟩ := grows.moments
  have kept : ∀ {i : Nat} {moment : Inner}, world.moments[i]? = some moment → next.moments[i]? = some moment := by
    intro i moment found
    rw [← split,List.getElem?_append_left (List.getElem?_eq_some_iff.mp found).1]
    exact found
  obtain ⟨file,began,ended,result⟩ := done
  cases result with
  | ok snapshot =>
    obtain ⟨moment,state,source,after,before,found,live,settled,member,gives⟩ := honest
    exact ⟨moment,state,source,after,before,kept found,live,settled,grows.installs _ member,gives.mono grows.loaders⟩
  | error error =>
    cases error with
    | lazyLoad path error =>
      obtain ⟨state,entry,identity,found,live,same,waiting,member,loader,installed,failed⟩ := honest
      exact ⟨state,entry,identity,kept found,live,same,waiting,grows.installs _ member,loader,grows.loaders _ installed,failed⟩
    | unknownFile => trivial
    | mixedEditFiles => trivial
    | missingLazyLoader => trivial

theorem Sound.mono {more : List LazySourceLoader} (grows : ∀ loader ∈ loaders, loader ∈ more) {progress : Progress}
    (sound : progress.Sound loaders) : progress.Sound more := by
  cases progress with
  | reading => trivial
  | loading snapshot identity loader => exact grows _ sound
  | publishing snapshot identity loaded =>
    obtain ⟨loader,installed,ran⟩ := sound
    exact ⟨loader,grows _ installed,ran⟩

section
variable (valid : world.Valid canonicalPathKey)
include valid

-- A new state of the tables joins the moments; calls and results either stay or
-- are new and sound.
theorem Valid.extend {next : World} (grows : Grows world next)
    (moments : next.moments = world.moments ++ [next.inner])
    (traced : Traced canonicalPathKey next.inner next.installs next.loaders)
    (calls : ∀ caller call, next.calls caller = some call →
      world.calls caller = some call ∨ call.began < next.moments.length ∧ call.progress.Sound next.loaders)
    (returns : ∀ done ∈ next.returns, done ∈ world.returns ∨ next.Honest done) : next.Valid canonicalPathKey := by
  have size : next.moments.length = world.moments.length + 1 := by rw [moments,List.length_append]; rfl
  refine ⟨traced,?_,fun caller call found => ?_,fun done member => ?_⟩
  · rw [size,moments,Nat.add_sub_cancel,List.getElem?_concat_length]
  · cases calls caller call found with
    | inl old =>
      have before := valid.calls caller call old
      exact ⟨by omega,Sound.mono grows.loaders before.2⟩
    | inr new => exact new
  · cases returns done member with
    | inl old => exact (valid.returns done old).mono grows
    | inr new => exact new

theorem Valid.move {next : Inner}
    (traced : Traced canonicalPathKey next world.installs world.loaders) : (world.move next).Valid canonicalPathKey :=
  valid.extend ⟨fun _ => id,fun _ => id,List.prefix_append _ _⟩ rfl traced (fun _ _ found => .inl found) fun _ member => .inl member

theorem Valid.install {next : Inner} {source : Source}
    (traced : Traced canonicalPathKey next (world.installs ++ [(file,((next.live file).map (·.version)).getD 0,source)])
      world.loaders) : (world.install file next source).Valid canonicalPathKey :=
  valid.extend ⟨fun _ member => List.mem_append_left _ member,fun _ => id,List.prefix_append _ _⟩ rfl traced
    (fun _ _ found => .inl found) fun _ member => .inl member

theorem Valid.progress
    (old : call.began < world.moments.length) {progress : Progress} (sound : progress.Sound world.loaders) :
    (world.progress caller call progress).Valid canonicalPathKey := by
  refine valid.extend ⟨fun _ => id,fun _ => id,List.prefix_append _ _⟩ rfl valid.traced (fun other ongoing found => ?_)
    fun _ member => .inl member
  simp only [World.progress,World.move,Function.update_apply] at found
  split at found
  · cases found
    refine .inr ⟨?_,sound⟩
    simp only [World.progress,World.move,List.length_append]
    omega
  · exact .inl found

theorem Valid.finish
    {next : Inner} (traced : Traced canonicalPathKey next world.installs world.loaders)
    (honest : (world.finish caller call next result).Honest ⟨call.file,call.began,world.moments.length,result⟩) :
    (world.finish caller call next result).Valid canonicalPathKey := by
  refine valid.extend ⟨fun _ => id,fun _ => id,List.prefix_append _ _⟩ rfl traced (fun other ongoing found => ?_)
    fun done member => ?_
  · simp only [World.finish,World.move,Function.update_apply] at found
    split at found
    · cases found
    · exact .inl found
  · refine (List.mem_append.mp member).imp (fun old => old) fun new => ?_
    rw [List.mem_singleton.mp new]
    exact honest

end

-- A settled entry may be returned at any moment it is current.
theorem honest_ok {next : Inner}
    (old : call.began < world.moments.length) (traced : Traced canonicalPathKey next world.installs world.loaders)
    (live : next.live call.file = some snapshot) (settled : next.pending call.file = none) :
    (world.finish caller call next (.ok snapshot)).Honest ⟨call.file,call.began,world.moments.length,.ok snapshot⟩ := by
  obtain ⟨source,member,explains⟩ := traced.entries call.file snapshot live
  rw [settled] at explains
  refine ⟨world.moments.length,next,source,Nat.le_of_lt old,Nat.le_refl _,?_,live,settled,member,explains⟩
  exact List.getElem?_concat_length

theorem read_done (ran : inner.read file = .done result) :
    (∃ snapshot, result = .ok snapshot ∧ inner.live file = some snapshot ∧ inner.pending file = none) ∨
      result = .error (.unknownFile file) ∨ ∃ path, result = .error (.missingLazyLoader path) := by
  unfold Inner.read at ran
  split at ran
  · cases ran
    exact .inr (.inl rfl)
  · next snapshot live =>
    split at ran
    · next settled =>
      cases ran
      exact .inl ⟨snapshot,rfl,live,settled⟩
    · split at ran
      · cases ran
        exact .inr (.inr ⟨_,rfl⟩)
      · cases ran

theorem read_load {loader : LazySourceLoader}
    (ran : inner.read file = .load snapshot identity loader) : inner.loader = some loader := by
  unfold Inner.read at ran
  split at ran
  · cases ran
  · split at ran
    · cases ran
    · split at ran
      · cases ran
      · next installed =>
        cases ran
        exact installed

section
variable (valid : world.Valid canonicalPathKey)
include valid

theorem Valid.read
    (old : call.began < world.moments.length) (ran : world.inner.read call.file = .done result) :
    (world.finish caller call world.inner result).Valid canonicalPathKey := by
  refine valid.finish valid.traced ?_
  cases read_done ran with
  | inl settled =>
    obtain ⟨snapshot,rfl,live,settled⟩ := settled
    exact honest_ok old valid.traced live settled
  | inr failed =>
    cases failed with
    | inl unknown =>
      rw [unknown]
      trivial
    | inr unloaded =>
      obtain ⟨path,rfl⟩ := unloaded
      trivial

theorem Valid.publish
    {loaded : Except Text Text} (old : call.began < world.moments.length)
    (ran : ∃ loader ∈ world.loaders, loader snapshot.path identity = loaded) {next : Inner}
    (ended : world.inner.publish call.file snapshot identity loaded = .done result next) :
    (world.finish caller call next result).Valid canonicalPathKey := by
  have published := publish_cases ended
  have traced := valid.traced.publish ran published
  refine valid.finish traced ?_
  cases published with
  | missing _ failed =>
    rw [failed]
    trivial
  | present same returned live settled =>
    rw [returned]
    exact honest_ok old traced (same ▸ live) (same ▸ settled)
  | failed same returned live path waiting failed =>
    rw [returned]
    obtain ⟨source,member,explains⟩ := valid.traced.entries _ _ live
    rw [waiting] at explains
    have lazy : source = .lazy identity := explains
    obtain ⟨loader,installed,answered⟩ := ran
    refine ⟨world.inner,_,identity,?_,live,path,waiting,lazy ▸ member,loader,installed,answered.trans failed⟩
    rw [same]
    exact List.getElem?_concat_length
  | @loaded entry text returned live _ _ _ after =>
    rw [returned]
    have inside := live_inside live
    refine honest_ok old traced ?_ ?_
    · rw [after]
      exact (slot_set _ _ _ _).trans (if_pos ⟨rfl,inside⟩)
    · rw [after]
      exact (slot_set _ _ _ _).trans (if_pos ⟨rfl,by rwa [valid.traced.consistent.lengths.lazy]⟩)

theorem Valid.editInstall {edits : List TextEdit} {newText : Text}
    {done : FileId} {next : Inner} (ran : world.inner.installEdits file edits newText = (.ok done,next)) :
    (world.install done next (.eager newText)).Valid canonicalPathKey := by
  cases installEdits_cases valid.traced.consistent.lengths ran with
  | inl failed =>
    obtain ⟨⟨error,impossible⟩,_⟩ := failed
    cases impossible
  | inr installed =>
    obtain ⟨same,old,replaced⟩ := installed
    cases same
    have written : (∃ old, Replaced world.inner next file old newText none) ∨
        Admitted canonicalPathKey world.inner next file [] newText none := .inl ⟨old,replaced⟩
    exact valid.install (valid.traced.wrote rfl written)

theorem advance_valid {event : Event} {after : World}
    (ran : world.advance canonicalPathKey event = some after) : after.Valid canonicalPathKey := by
  unfold advance at ran
  cases event with
  | call caller file =>
    dsimp only at ran
    split at ran
    · cases ran
    · cases ran
      have inside := (List.getElem?_eq_some_iff.mp valid.now).1
      refine ⟨valid.traced,valid.now,fun other ongoing found => ?_,valid.returns⟩
      simp only [Function.update_apply] at found
      split at found
      · cases found
        exact ⟨inside,trivial⟩
      · exact valid.calls other ongoing found
  | read caller =>
    dsimp only at ran
    split at ran
    · next file began ongoing =>
      have old := (valid.calls caller _ ongoing).1
      split at ran
      · next result ended =>
        cases ran
        exact valid.read old ended
      · next snapshot identity loader waits =>
        cases ran
        exact valid.progress old (valid.traced.loader loader (read_load waits))
    · cases ran
  | load caller =>
    dsimp only at ran
    split at ran
    · next file began snapshot identity loader ongoing =>
      cases ran
      obtain ⟨old,installed⟩ := valid.calls caller _ ongoing
      exact valid.progress old ⟨loader,installed,rfl⟩
    · cases ran
  | publish caller =>
    dsimp only at ran
    split at ran
    · next file began snapshot identity loaded ongoing =>
      obtain ⟨old,sound⟩ := valid.calls caller _ ongoing
      split at ran
      · next result next ended =>
        cases ran
        exact valid.publish old sound ended
      · cases ran
        exact valid.progress old trivial
    · cases ran
  | write path text =>
    obtain ⟨⟨file,next⟩,wrote,rfl⟩ := Option.map_eq_some_iff.mp ran
    exact valid.install (valid.traced.wrote rfl (writeEntry_cases valid.traced.consistent wrote))
  | writeWithId fileId path text =>
    obtain ⟨⟨file,next⟩,wrote,rfl⟩ := Option.map_eq_some_iff.mp ran
    exact valid.install (valid.traced.wrote rfl (writeEntryWithId_cases valid.traced.consistent wrote))
  | writeLazy path identity =>
    obtain ⟨⟨file,next⟩,wrote,rfl⟩ := Option.map_eq_some_iff.mp ran
    exact valid.install (valid.traced.wrote rfl (writeEntry_cases valid.traced.consistent wrote))
  | writeLazyWithId fileId path identity =>
    obtain ⟨⟨file,next⟩,wrote,rfl⟩ := Option.map_eq_some_iff.mp ran
    exact valid.install (valid.traced.wrote rfl (writeEntryWithId_cases valid.traced.consistent wrote))
  | installEdits file edits newText =>
    dsimp only at ran
    split at ran
    · next done next installed =>
      cases ran
      exact valid.editInstall installed
    · next error next failed =>
      cases ran
      cases installEdits_cases valid.traced.consistent.lengths failed with
      | inl same =>
        rw [same.2]
        exact valid.move valid.traced
      | inr impossible => cases impossible.1
  | remove path =>
    cases ran
    exact valid.move (valid.traced.remove path)
  | setLazyLoader loader =>
    cases ran
    exact valid.extend ⟨fun _ => id,fun _ member => List.mem_append_left _ member,List.prefix_append _ _⟩ rfl
      (valid.traced.setLazyLoader loader) (fun _ _ found => .inl found) fun _ member => .inl member

theorem runs_valid {events : List Event} {after : World}
    (ran : world.runs canonicalPathKey events = some after) : after.Valid canonicalPathKey := by
  induction events generalizing world with
  | nil =>
    cases ran
    exact valid
  | cons event rest ih =>
    obtain ⟨middle,stepped,served⟩ := Option.bind_eq_some_iff.mp ran
    exact ih (advance_valid valid stepped) served

end

theorem start_valid (canonicalPathKey : FilePath → FilePath) : start.Valid canonicalPathKey := by
  refine ⟨⟨new_consistent canonicalPathKey,nofun,nofun,fun file snapshot live => ?_,nofun⟩,rfl,nofun,nofun⟩
  cases live

end World

-- In every interleaving a returned text belongs to the version it is returned
-- with, and a version has one source only.
theorem snapshots_are_current (canonicalPathKey : FilePath → FilePath) (events : List Event) {world : World}
    (ran : World.start.runs canonicalPathKey events = some world) :
    (∀ done ∈ world.returns, world.Honest done) ∧
      ∀ file version source other, (file,version,source) ∈ world.installs → (file,version,other) ∈ world.installs →
        source = other := by
  have valid := World.runs_valid (World.start_valid canonicalPathKey) ran
  exact ⟨valid.returns,valid.traced.unique⟩

def overtakenLoad : List Event :=
  [.setLazyLoader fun _ identity => if identity.len = 1 then .ok "a".toList else .ok "b".toList,
    .writeLazy [.normal "x".toList] ⟨1,0,[]⟩,.call 0 0,.read 0,.writeLazy [.normal "x".toList] ⟨2,0,[]⟩,.load 0,.publish 0,
    .read 0,.load 0,.publish 0]

theorem overtaken_load_retries : ∃ world, World.start.runs id overtakenLoad = some world ∧
    (∀ done ∈ world.returns, world.Honest done) ∧
      ∀ file version source other, (file,version,source) ∈ world.installs → (file,version,other) ∈ world.installs →
        source = other :=
  ⟨_,rfl,snapshots_are_current id overtakenLoad rfl⟩

end BonsaiNinja.VirtualFiles
