import BonsaiNinja.Hash.ShortIds
import BonsaiNinja.Library.Replacements
import BonsaiNinja.Vfs.IdentityRuns

namespace BonsaiNinja.VirtualFiles
open Idg (FileId Text)
open Hash (utf8Bytes)
open Library

def TextEdit.replacement (edit : TextEdit) : Replacement := ⟨edit.oldStartByte,edit.oldEndByte,edit.newEndByte⟩

def replacements (edits : List TextEdit) : List Replacement := edits.map TextEdit.replacement

namespace Inner

def loadText (inner : Inner) (path : FilePath) (identity : SourceIdentity) : Option Text :=
  match inner.loader with
  | none => none
  | some loader => (loader path identity).toOption

def textOf (inner : Inner) (file : FileId) : Option Text :=
  match inner.live file with
  | none => none
  | some entry =>
    match inner.pending file with
    | none => some entry.text
    | some identity => inner.loadText entry.path identity

variable {canonicalPathKey : FilePath → FilePath} {inner next : Inner} {file : FileId}

def writtenText (inner : Inner) (path : FilePath) (text : Text) (identity : Option SourceIdentity) : Option Text :=
  match identity with
  | none => some text
  | some identity => inner.loadText path identity

theorem textOf_replace (lengths : SameLengths inner) {old : FileSnapshot} (known : inner.live file = some old) (text : Text)
    (identity : Option SourceIdentity) :
    (inner.replace file old text identity).textOf file = inner.writtenText old.path text identity := by
  have replaced := replace_replaced lengths known text identity
  have live := replaced.live file
  have pending := replaced.pending file
  rw [if_pos rfl] at live pending
  unfold textOf
  rw [live,pending]
  cases identity with
  | none => rfl
  | some identity =>
    unfold writtenText loadText
    rw [replaced.loader]

theorem writeEntry_known {path : FilePath} {old : FileSnapshot} (known : inner.byPath (canonicalPathKey path) = some file)
    (live : inner.live file = some old) (text : Text) (identity : Option SourceIdentity) :
    inner.writeEntry canonicalPathKey path text identity = some (file,inner.replace file old text identity) := by
  unfold writeEntry
  simp only [known,live]

theorem snapshot_text {entry : FileSnapshot} (ran : inner.snapshot file = some (.ok entry,next)) :
    inner.textOf file = some entry.text ∧ next.live file = some entry := by
  unfold snapshot snapshotLoop read at ran
  unfold textOf
  cases live : inner.live file with
  | none =>
    rw [live] at ran
    cases ran
  | some held =>
    cases pending : inner.pending file with
    | none =>
      simp only [live,pending] at ran
      cases ran
      exact ⟨rfl,live⟩
    | some identity =>
      unfold loadText
      cases installed : inner.loader with
      | none =>
        simp only [live,pending,installed] at ran
        cases ran
      | some loader =>
        simp only [live,pending,installed] at ran
        unfold publish at ran
        simp only [live,pending,ne_eq,not_true_eq_false,or_self,if_false] at ran
        cases loaded : loader held.path identity with
        | error error =>
          simp only [loaded] at ran
          cases ran
        | ok text =>
          simp only [loaded] at ran
          cases ran
          refine ⟨by simp only [loaded]; rfl,?_⟩
          exact (slot_set _ _ _ _).trans (if_pos ⟨rfl,live_inside live⟩)

inductive Edited (inner next : Inner) (file : FileId) (edits : List TextEdit) (newText : Text) : Prop
  | refused (text : next.textOf file = inner.textOf file) (log : next.edits file = inner.edits file)
  | installed (old : Text) (before : inner.textOf file = some old) (after : next.textOf file = some newText)
      (log : next.edits file = inner.edits file ++ edits)

theorem snapshot_fails (lengths : SameLengths inner) {error : VfsError} (ran : inner.snapshot file = some (.error error,next)) :
    next = inner := by
  obtain ⟨result,settled,loop,_,failed⟩ := snapshotLoop_settles lengths 0 file
  rw [snapshot,loop] at ran
  obtain ⟨rfl,rfl⟩ := Prod.mk.inj (Option.some.inj ran)
  exact failed error rfl

theorem applyEdits_edited (consistent : inner.Consistent canonicalPathKey) {edits : List TextEdit} {newText : Text}
    (own : ∀ edit ∈ edits, edit.fileId = file) {result : Except VfsError FileId}
    (ran : inner.applyEdits edits newText = some (result,next)) : Edited inner next file edits newText := by
  unfold applyEdits at ran
  cases edits with
  | nil =>
    cases ran
    exact .refused rfl rfl
  | cons first rest =>
    have same : first.fileId = file := own first List.mem_cons_self
    simp only [List.head?_cons,same] at ran
    cases read : inner.snapshot file with
    | none =>
      rw [read] at ran
      cases ran
    | some reading =>
      obtain ⟨answer,middle⟩ := reading
      rw [read] at ran
      cases answer with
      | error error =>
        cases ran
        have unchanged := snapshot_fails consistent.lengths read
        subst unchanged
        exact .refused rfl rfl
      | ok entry =>
        obtain ⟨text,live⟩ := snapshot_text read
        have loaded := snapshot_same consistent.lengths read
        have lengths := loaded.lengths consistent.lengths
        have single : (first :: rest).find? (fun edit => edit.fileId ≠ file) = none :=
          List.find?_eq_none.mpr fun edit member => by simp [own edit member]
        simp only [installEdits,single,live,Option.some.injEq,Prod.mk.injEq] at ran
        obtain ⟨_,rfl⟩ := ran
        have log : middle.edits file = inner.edits file := by
          rw [Inner.edits,loaded.edits]
          rfl
        refine .installed entry.text text ?_ ?_
        · exact textOf_replace lengths live newText none
        · have inside : file < middle.editsSince.length := by
            rw [lengths.edits]
            exact live_inside live
          rw [← log]
          show ((middle.editsSince.set file (middle.edits file ++ first :: rest))[file]?).getD [] = _
          rw [List.getElem?_set_self inside]
          rfl

theorem applyEdits_paths (consistent : inner.Consistent canonicalPathKey) {edits : List TextEdit} {newText : Text}
    {result : Except VfsError FileId} (ran : inner.applyEdits edits newText = some (result,next)) : next.byPath = inner.byPath := by
  unfold applyEdits at ran
  split at ran
  · cases ran
    rfl
  · split at ran
    · cases ran
    · next read =>
      cases ran
      exact (snapshot_same consistent.lengths read).byPath
    · next read =>
      have loaded := snapshot_same consistent.lengths read
      cases installEdits_cases (loaded.lengths consistent.lengths) (Option.some.inj ran) with
      | inl failed => exact failed.2 ▸ loaded.byPath
      | inr installed =>
        obtain ⟨_,_,replaced⟩ := installed
        exact replaced.byPath.trans loaded.byPath

end Inner

open Inner

section
variable (canonicalPathKey : FilePath → FilePath) (key : FilePath) (file : FileId)

def Concerns : Call → Prop
  | .write path _ => canonicalPathKey path = key
  | .writeLazy path _ => canonicalPathKey path = key
  | .applyEdits edits _ => ∀ edit ∈ edits, edit.fileId = file
  | .takeEdits other => other = file
  | _ => False

def Describes (inner : Inner) : Call → Prop
  | .applyEdits edits newText => ∀ text, inner.textOf file = some text → Replays (replacements edits) (utf8Bytes text) (utf8Bytes newText)
  | _ => True

def sinceText (inner : Inner) (base : Option Text) : Call → Option Text
  | .takeEdits _ => inner.textOf file
  | _ => base

inductive EditRun (allowed : Inner → Option Text → Call → Prop) : Inner → Option Text → List Call → Inner → Option Text → Prop
  | done (inner : Inner) (base : Option Text) : EditRun allowed inner base [] inner base
  | call {inner next final : Inner} {base finalBase : Option Text} {call : Call} {calls : List Call} {outcome : Outcome}
      (concerns : Concerns canonicalPathKey key file call) (describes : Describes file inner call)
      (permitted : allowed inner base call) (ran : step canonicalPathKey inner call = some (outcome,next))
      (rest : EditRun allowed next (sinceText file inner base call) calls final finalBase) :
      EditRun allowed inner base (call :: calls) final finalBase

-- The log leads from the text at the last take to the current one: outside the regions
-- of its edits, carried through the sequence, the two agree.
structure Accounted (inner : Inner) (base : Option Text) : Prop where
  replayed : ∃ old new, base = some old ∧ inner.textOf file = some new ∧
    Replays (replacements (inner.edits file)) (utf8Bytes old) (utf8Bytes new)

-- A whole-file write changes the text past the log, and edits do not reach back over one.
def Separate (inner : Inner) (base : Option Text) : Call → Prop
  | .write _ text => inner.edits file = [] ∨ inner.textOf file = some text
  | .writeLazy _ identity =>
    inner.edits file = [] ∨ ∀ entry, inner.live file = some entry → inner.textOf file = inner.loadText entry.path identity
  | .applyEdits _ _ => inner.edits file ≠ [] ∨ inner.textOf file = base
  | _ => True

structure Tracked (inner : Inner) (base : Option Text) : Prop where
  consistent : inner.Consistent canonicalPathKey
  known : inner.byPath key = some file
  log : inner.edits file = [] ∨ Accounted file inner base

end

variable {canonicalPathKey : FilePath → FilePath} {key : FilePath} {file : FileId} {inner next : Inner} {base : Option Text}

theorem Tracked.live (tracked : Tracked canonicalPathKey key file inner base) :
    ∃ entry, inner.live file = some entry := by
  obtain ⟨entry,live,_⟩ := (tracked.consistent.table key file).mp tracked.known
  exact ⟨entry,live⟩

theorem Accounted.congr (accounted : Accounted file inner base) (text : next.textOf file = inner.textOf file)
    (log : next.edits file = inner.edits file) : Accounted file next base := by
  obtain ⟨old,new,start,current,replays⟩ := accounted.replayed
  exact ⟨old,new,start,text.trans current,log ▸ replays⟩

section
variable (tracked : Tracked canonicalPathKey key file inner base)
include tracked

-- A write either finds an empty log or leaves the text as it was.
theorem Tracked.written {path : FilePath} {text : Text}
    {identity : Option SourceIdentity} (named : canonicalPathKey path = key) {id : FileId}
    (ran : inner.writeEntry canonicalPathKey path text identity = some (id,next))
    (separate : inner.edits file = [] ∨
      ∀ entry, inner.live file = some entry → inner.textOf file = inner.writtenText entry.path text identity) :
    next.byPath key = some file ∧ (next.edits file = [] ∨ Accounted file next base) := by
  obtain ⟨entry,live⟩ := tracked.live
  rw [writeEntry_known (named ▸ tracked.known) live] at ran
  cases ran
  refine ⟨tracked.known,?_⟩
  cases separate with
  | inl empty => exact .inl empty
  | inr same =>
    have text := (textOf_replace tracked.consistent.lengths live text identity).trans (same entry live).symm
    exact tracked.log.imp (fun empty => empty) fun accounted => accounted.congr text rfl

theorem Tracked.edited {edits : List TextEdit} {newText : Text}
    (describes : Describes file inner (.applyEdits edits newText)) (separate : inner.edits file ≠ [] ∨ inner.textOf file = base)
    (edited : Edited inner next file edits newText) : next.edits file = [] ∨ Accounted file next base := by
  cases edited with
  | refused text log =>
    rw [log]
    exact tracked.log.imp (fun empty => empty) fun accounted => accounted.congr text log
  | installed current before after log =>
    have last := describes current before
    refine .inr ⟨?_⟩
    rw [log,replacements,List.map_append]
    cases tracked.log with
    | inl empty =>
      have start : base = some current := by
        cases separate with
        | inl more => exact absurd empty more
        | inr same => exact same ▸ before
      rw [empty]
      exact ⟨current,newText,start,after,last⟩
    | inr accounted =>
      obtain ⟨old,new,start,held,replays⟩ := accounted.replayed
      have same : new = current := Option.some.inj (held.symm.trans before)
      exact ⟨old,newText,start,after,replays.append (same ▸ last)⟩

theorem tracked_step {call : Call} {outcome : Outcome}
    (concerns : Concerns canonicalPathKey key file call) (describes : Describes file inner call)
    (separate : Separate file inner base call) (ran : step canonicalPathKey inner call = some (outcome,next)) :
    Tracked canonicalPathKey key file next (sinceText file inner base call) := by
  have consistent := (step_facts tracked.consistent ran).1
  cases call with
  | write path text =>
    obtain ⟨⟨id,after⟩,wrote,same⟩ := Option.map_eq_some_iff.mp ran
    obtain ⟨rfl,rfl⟩ := Prod.mk.inj same
    have parts := tracked.written concerns wrote (separate.imp (fun empty => empty) fun same entry _ => same)
    exact ⟨consistent,parts.1,parts.2⟩
  | writeLazy path identity =>
    obtain ⟨⟨id,after⟩,wrote,same⟩ := Option.map_eq_some_iff.mp ran
    obtain ⟨rfl,rfl⟩ := Prod.mk.inj same
    have parts := tracked.written concerns wrote separate
    exact ⟨consistent,parts.1,parts.2⟩
  | applyEdits edits newText =>
    obtain ⟨⟨result,after⟩,edited,same⟩ := Option.map_eq_some_iff.mp ran
    obtain ⟨rfl,rfl⟩ := Prod.mk.inj same
    have outcome := applyEdits_edited tracked.consistent concerns edited
    exact ⟨consistent,(congrFun (applyEdits_paths tracked.consistent edited) key).trans tracked.known,tracked.edited describes separate outcome⟩
  | takeEdits other =>
    obtain rfl : other = file := concerns
    obtain ⟨rfl,rfl⟩ := Prod.mk.inj (Option.some.inj ran)
    obtain ⟨entry,live⟩ := tracked.live
    have taken : inner.takeEdits other = (.ok (inner.edits other),{ inner with editsSince := inner.editsSince.set other [] }) := by
      unfold takeEdits
      rw [live]
    rw [taken] at consistent ⊢
    refine ⟨consistent,tracked.known,.inl ?_⟩
    show ((inner.editsSince.set other [])[other]?).getD [] = []
    rw [List.getElem?_set]
    split
    · split <;> rfl
    · next apart => exact absurd rfl apart
  | _ => exact absurd concerns id

theorem tracked_run {calls : List Call} {final : Inner} {finalBase : Option Text}
    (run : EditRun canonicalPathKey key file (Separate file) inner base calls final finalBase) :
    Tracked canonicalPathKey key file final finalBase := by
  induction run with
  | done inner base => exact tracked
  | call concerns describes separate ran _ ih => exact ih (tracked_step tracked concerns describes separate ran)

theorem taken_log :
    (inner.takeEdits file).1 = .ok (inner.edits file) := by
  obtain ⟨entry,live⟩ := tracked.live
  unfold takeEdits
  rw [live]

end

-- The claim of one run: what a take returns accounts for the texts on both sides, seen as a
-- whole and byte by byte.
def TakesAccount (canonicalPathKey : FilePath → FilePath) (key : FilePath) (file : FileId) (allowed : Inner → Option Text → Call → Prop) : Prop :=
  ∀ inner final calls base, inner.Consistent canonicalPathKey → inner.byPath key = some file → inner.edits file = [] →
    EditRun canonicalPathKey key file allowed inner (inner.textOf file) calls final base →
      ∃ log, (final.takeEdits file).1 = .ok log ∧ (log ≠ [] →
        ∃ old new, base = some old ∧ final.textOf file = some new ∧
          Replays (replacements log) (utf8Bytes old) (utf8Bytes new) ∧
            (∀ position moved, transport (replacements log) position = some moved →
              (utf8Bytes new)[moved]? = (utf8Bytes old)[position]?) ∧
              ∀ position moved, transport ((replacements log).reverse.map Replacement.reverse) position = some moved →
                (utf8Bytes old)[moved]? = (utf8Bytes new)[position]?)

theorem takes_account_separately (canonicalPathKey : FilePath → FilePath) (key : FilePath) (file : FileId) :
    TakesAccount canonicalPathKey key file (Separate file) := by
  intro inner final calls base consistent known fresh run
  have tracked : Tracked canonicalPathKey key file final base := tracked_run ⟨consistent,known,.inl fresh⟩ run
  refine ⟨final.edits file,taken_log tracked,fun more => ?_⟩
  cases tracked.log with
  | inl empty => exact absurd empty more
  | inr accounted =>
    obtain ⟨old,new,start,current,replays⟩ := accounted.replayed
    exact ⟨old,new,start,current,replays,fun _ _ => replays.carried,fun _ _ => replays.reverse.carried⟩

section
def demoPath : FilePath := [.normal ['f']]

def demoFile : Inner := ((Inner.new.write id demoPath ['a','b']).map (·.2)).getD .new

theorem demoFile_consistent : demoFile.Consistent id :=
  by
  have ran : step id .new (.write demoPath ['a','b']) = some (.file 0,demoFile) := rfl
  exact (step_facts (new_consistent id) ran).1

def demoEdit : TextEdit := ⟨0,0,1,1⟩

theorem demoEdit_describes : Describes 0 demoFile (.applyEdits [demoEdit] ['x','b']) := by
  intro text current
  cases current
  exact Replays.singleton_iff.mpr ⟨by decide,by decide,rfl,rfl⟩

theorem one_edit_accounted : ∃ final base, EditRun id demoPath 0 (Separate 0) demoFile (demoFile.textOf 0)
    [.applyEdits [demoEdit] ['x','b']] final base ∧ ∃ log, (final.takeEdits 0).1 = .ok log ∧ log = [demoEdit] ∧
      ∃ old new, base = some old ∧ final.textOf 0 = some new ∧ Replays (replacements log) (utf8Bytes old) (utf8Bytes new) := by
  have run : EditRun id demoPath 0 (Separate 0) demoFile (demoFile.textOf 0) [.applyEdits [demoEdit] ['x','b']] _ _ :=
    .call (by simp [Concerns,demoEdit]) demoEdit_describes (.inr rfl) rfl (.done _ _)
  obtain ⟨log,took,accounted⟩ := takes_account_separately id demoPath 0 _ _ _ _ demoFile_consistent rfl rfl run
  cases took
  obtain ⟨old,new,start,current,replays,_⟩ := accounted (List.cons_ne_nil _ _)
  exact ⟨_,_,run,_,rfl,rfl,old,new,start,current,replays⟩

-- A whole-file write leaves the edits of an older text behind.
theorem stale_edits_returned : ¬TakesAccount id demoPath 0 fun _ _ _ => True := by
  intro claim
  have run : EditRun id demoPath 0 (fun _ _ _ => True) demoFile (demoFile.textOf 0)
      [.applyEdits [demoEdit] ['x','b'],.write demoPath ['y','y']] _ _ :=
    .call (by simp [Concerns,demoEdit]) demoEdit_describes trivial rfl (.call rfl trivial trivial rfl (.done _ _))
  obtain ⟨log,took,accounted⟩ := claim _ _ _ _ demoFile_consistent rfl rfl run
  cases took
  obtain ⟨old,new,start,current,replays,_⟩ := accounted (List.cons_ne_nil _ _)
  cases start
  cases current
  have turns := Replays.singleton_iff.mp replays
  exact absurd turns.back (by decide)

end

end BonsaiNinja.VirtualFiles
