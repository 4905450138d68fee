import BonsaiNinja.Vfs.SourceTable

namespace BonsaiNinja.VirtualFiles
open Idg (FileId Text)
variable {n : Nat}

theorem slot_set (rows : List (Option α)) (i : Nat) (x : Option α) (j : Nat) :
    (rows.set i x)[j]?.join = if j = i ∧ i < rows.length then x else rows[j]?.join := by
  rw [List.getElem?_set]
  by_cases same : i = j
  · subst same
    by_cases inside : i < rows.length <;> simp [inside]
  · simp [same,Ne.symm same]

theorem slot_push (rows : List (Option α)) (x : Option α) (j : Nat) :
    (rows ++ [x])[j]?.join = if j = rows.length then x else rows[j]?.join := by
  rw [List.getElem?_append]
  split
  · next inside => rw [if_neg (Nat.ne_of_lt inside)]
  · next outside =>
    have missing : rows[j]? = none := List.getElem?_eq_none (Nat.le_of_not_lt outside)
    by_cases last : j = rows.length
    · simp [last]
    · have behind : ([x] : List (Option α))[j - rows.length]? = none := List.getElem?_eq_none (by simp; omega)
      rw [behind,if_neg last,missing]

theorem resizeWith_length {rows : List α} (short : rows.length ≤ n) (fresh : α) :
    (resizeWith rows n fresh).length = n := by
  rw [resizeWith,List.length_append,List.length_take,List.length_replicate]
  omega

theorem getElem?_resizeWith {rows : List α} (short : rows.length ≤ n) (fresh : α) (j : Nat) :
    (resizeWith rows n fresh)[j]? = if j < rows.length then rows[j]? else if j < n then some fresh else none := by
  rw [resizeWith,List.take_of_length_le short,List.getElem?_append]
  split
  · rfl
  · rw [List.getElem?_replicate]
    split
    · rw [if_pos (by omega)]
    · rw [if_neg (by omega)]

theorem slot_resize {rows : List (Option α)} (short : rows.length ≤ n) (j : Nat) :
    (resizeWith rows n none)[j]?.join = rows[j]?.join := by
  rw [getElem?_resizeWith short]
  split
  · rfl
  · next outside =>
    rw [List.getElem?_eq_none (Nat.le_of_not_lt outside)]
    split <;> rfl

namespace Inner
variable {id : FileId} {old : FileSnapshot} {path : FilePath} {text : Text} {identity : Option SourceIdentity}

structure SameLengths (inner : Inner) : Prop where
  edits : inner.editsSince.length = inner.files.length
  lazy : inner.lazy.length = inner.files.length

theorem live_inside {inner : Inner} {snapshot : FileSnapshot} (live : inner.live id = some snapshot) :
    id < inner.files.length := by
  by_contra outside
  rw [Inner.live,List.getElem?_eq_none (Nat.le_of_not_lt outside)] at live
  cases live

section
variable (canonicalPathKey : FilePath → FilePath)

-- The tables agree: the path table is the inverse of the live files' folded
-- paths, and the basename directory lists each live file once.
structure Consistent (inner : Inner) : Prop where
  lengths : SameLengths inner
  ids : ∀ id snapshot, inner.live id = some snapshot → snapshot.fileId = id
  table : ∀ key id, inner.byPath key = some id ↔ ∃ snapshot, inner.live id = some snapshot ∧ canonicalPathKey snapshot.path = key
  retired : ∀ id ∈ inner.retiredFiles, inner.live id = none ∧ id < inner.files.length
  basenames : ∀ key id, id ∈ (inner.byBasename key).getD [] ↔
    ∃ snapshot, inner.live id = some snapshot ∧ canonicalBasenameKey canonicalPathKey snapshot.path = key
  distinct : ∀ key, ((inner.byBasename key).getD []).Nodup

end

structure Wrote (inner next : Inner) (id : FileId) (snapshot : FileSnapshot) (identity : Option SourceIdentity) : Prop where
  live : ∀ file, next.live file = if file = id then some snapshot else inner.live file
  pending : ∀ file, next.pending file = if file = id then identity else inner.pending file
  retired : next.retiredFiles = inner.retiredFiles
  loader : next.loader = inner.loader
  revision : next.revision = inner.revision + 1
  lengths : SameLengths next
  grows : inner.files.length ≤ next.files.length

structure Replaced (inner next : Inner) (id : FileId) (old : FileSnapshot) (text : Text) (identity : Option SourceIdentity) : Prop
    extends Wrote inner next id ⟨id,old.path,text,old.version + 1⟩ identity where
  known : inner.live id = some old
  byPath : next.byPath = inner.byPath
  byBasename : next.byBasename = inner.byBasename

structure Admitted (canonicalPathKey : FilePath → FilePath) (inner next : Inner) (id : FileId) (path : FilePath) (text : Text)
    (identity : Option SourceIdentity) : Prop extends Wrote inner next id ⟨id,path,text,0⟩ identity where
  free : inner.live id = none
  fresh : id ∉ inner.retiredFiles
  unknown : inner.byPath (canonicalPathKey path) = none
  byPath : next.byPath = Function.update inner.byPath (canonicalPathKey path) (some id)
  byBasename : next.byBasename = insertBasenameCandidate canonicalPathKey inner.byBasename path id

theorem replace_replaced {inner : Inner} (lengths : SameLengths inner)
    (known : inner.live id = some old) (text : Text) (identity : Option SourceIdentity) :
    Replaced inner (inner.replace id old text identity) id old text identity := by
  have inside := live_inside known
  refine { known := known, byPath := rfl, byBasename := rfl, retired := rfl, loader := rfl, revision := rfl
           live := fun file => ?_, pending := fun file => ?_, lengths := ?_, grows := ?_ }
  · refine (slot_set _ _ _ file).trans ?_
    simp only [inside,and_true]
    rfl
  · refine (slot_set _ _ _ file).trans ?_
    simp only [lengths.lazy,inside,and_true]
    rfl
  · exact ⟨by simp [replace,lengths.edits],by simp [replace,lengths.lazy]⟩
  · simp [replace]

variable {canonicalPathKey : FilePath → FilePath} {inner next : Inner}

theorem writeEntry_cases (consistent : inner.Consistent canonicalPathKey)
    (ran : inner.writeEntry canonicalPathKey path text identity = some (id,next)) :
    (∃ old, Replaced inner next id old text identity) ∨ Admitted canonicalPathKey inner next id path text identity := by
  unfold writeEntry at ran
  split at ran
  · split at ran
    · cases ran
    · next old known =>
      obtain ⟨rfl,rfl⟩ := Prod.mk.inj (Option.some.inj ran)
      exact .inl ⟨old,replace_replaced consistent.lengths known text identity⟩
  · next unknown =>
    split at ran
    · obtain ⟨rfl,rfl⟩ := Prod.mk.inj (Option.some.inj ran)
      refine .inr { unknown := unknown, byPath := rfl, byBasename := rfl, retired := rfl, loader := rfl, revision := rfl
                    live := fun file => ?_, pending := fun file => ?_, lengths := ?_, grows := ?_
                    free := ?_, fresh := fun retired => ?_ }
      · exact slot_push inner.files _ file
      · exact (slot_push inner.lazy _ file).trans (by rw [consistent.lengths.lazy]; rfl)
      · exact ⟨by simp [consistent.lengths.edits],by simp [consistent.lengths.lazy]⟩
      · simp
      · rw [live,List.getElem?_eq_none (Nat.le_refl _)]
        rfl
      · exact absurd (consistent.retired _ retired).2 (Nat.lt_irrefl _)
    · cases ran

theorem reserve_live (inner : Inner) (index : Nat) (file : FileId) : (inner.reserve index).live file = inner.live file := by
  unfold reserve
  split
  · next short => exact slot_resize (by omega) file
  · rfl

theorem reserve_pending (lengths : SameLengths inner) (index : Nat) (file : FileId) :
    (inner.reserve index).pending file = inner.pending file := by
  unfold reserve
  split
  · next short => exact slot_resize (by rw [lengths.lazy]; omega) file
  · rfl

theorem reserve_lengths (lengths : SameLengths inner) (index : Nat) : SameLengths (inner.reserve index) := by
  unfold reserve
  split
  · next short =>
    have files := resizeWith_length (show inner.files.length ≤ index + 1 by omega) none
    refine ⟨?_,?_⟩
    · exact (resizeWith_length (by rw [lengths.edits]; omega) []).trans files.symm
    · exact (resizeWith_length (by rw [lengths.lazy]; omega) none).trans files.symm
  · exact lengths

theorem reserve_inside (inner : Inner) (index : Nat) :
    index < (inner.reserve index).files.length ∧ inner.files.length ≤ (inner.reserve index).files.length := by
  unfold reserve
  split
  · next short =>
    have files := resizeWith_length (show inner.files.length ≤ index + 1 by omega) none
    dsimp only
    omega
  · next long => omega

theorem reserve_tables (inner : Inner) (index : Nat) :
    (inner.reserve index).byPath = inner.byPath ∧ (inner.reserve index).byBasename = inner.byBasename ∧
      (inner.reserve index).retiredFiles = inner.retiredFiles ∧ (inner.reserve index).loader = inner.loader ∧
      (inner.reserve index).revision = inner.revision := by
  unfold reserve
  split
  · exact ⟨rfl,rfl,rfl,rfl,rfl⟩
  · exact ⟨rfl,rfl,rfl,rfl,rfl⟩

theorem writeEntryWithId_cases (consistent : inner.Consistent canonicalPathKey) {fileId : FileId}
    (ran : inner.writeEntryWithId canonicalPathKey fileId path text identity = some (id,next)) :
    (∃ old, Replaced inner next id old text identity) ∨ Admitted canonicalPathKey inner next id path text identity := by
  unfold writeEntryWithId at ran
  split at ran
  · split at ran
    · split at ran
      · cases ran
      · next old known =>
        obtain ⟨rfl,rfl⟩ := Prod.mk.inj (Option.some.inj ran)
        exact .inl ⟨old,replace_replaced consistent.lengths known text identity⟩
    · cases ran
  · next unknown =>
    split at ran
    · cases ran
    · next fresh =>
      dsimp only at ran
      split at ran
      · cases ran
      · next free =>
        obtain ⟨rfl,rfl⟩ := Prod.mk.inj (Option.some.inj ran)
        obtain ⟨paths,basenames,retired,loader,revision⟩ := reserve_tables inner fileId
        obtain ⟨inside,grown⟩ := reserve_inside inner fileId
        have lengths := reserve_lengths consistent.lengths fileId
        refine .inr { unknown := unknown, byPath := by rw [paths], byBasename := by rw [basenames], retired := retired
                      loader := loader, revision := by rw [revision], fresh := fresh, live := fun file => ?_
                      pending := fun file => ?_, lengths := ?_, grows := ?_, free := ?_ }
        · refine (slot_set _ _ _ file).trans ?_
          simp only [inside,and_true]
          split
          · rfl
          · exact reserve_live inner fileId file
        · refine (slot_set _ _ _ file).trans ?_
          simp only [lengths.lazy,inside,and_true]
          split
          · rfl
          · exact reserve_pending consistent.lengths fileId file
        · exact ⟨by simp [lengths.edits],by simp [lengths.lazy]⟩
        · simpa using grown
        · rw [← reserve_live inner fileId]
          simpa using free

theorem Replaced.consistent (consistent : inner.Consistent canonicalPathKey)
    (replaced : Replaced inner next id old text identity) :
    next.Consistent canonicalPathKey := by
  -- The live files keep their paths.
  have paths : ∀ file (holds : FilePath → Prop), (∃ snapshot, next.live file = some snapshot ∧ holds snapshot.path) ↔
      ∃ snapshot, inner.live file = some snapshot ∧ holds snapshot.path := by
    intro file holds
    rw [replaced.live]
    split
    · next same =>
      rw [same,replaced.known]
      simp
    · rfl
  refine ⟨replaced.lengths,fun file snapshot live => ?_,fun key file => ?_,fun file retired => ?_,fun key file => ?_,fun key => ?_⟩
  · rw [replaced.live] at live
    split at live
    · next same =>
      cases live
      exact same.symm
    · exact consistent.ids file snapshot live
  · rw [replaced.byPath,consistent.table,paths file fun path => canonicalPathKey path = key]
  · rw [replaced.retired] at retired
    have gone := consistent.retired file retired
    refine ⟨?_,Nat.lt_of_lt_of_le gone.2 replaced.grows⟩
    rw [replaced.live,if_neg]
    · exact gone.1
    · intro same
      rw [same,replaced.known] at gone
      cases gone.1
  · rw [replaced.byBasename,consistent.basenames,paths file fun path => canonicalBasenameKey canonicalPathKey path = key]
  · rw [replaced.byBasename]
    exact consistent.distinct key

theorem insertBasenameCandidate_exact (byBasename : FilePath → Option (List FileId)) (path : FilePath) (file : FileId) (key : FilePath) :
    (∀ other, other ∈ (insertBasenameCandidate canonicalPathKey byBasename path file key).getD [] ↔
      other ∈ (byBasename key).getD [] ∨ other = file ∧ canonicalBasenameKey canonicalPathKey path = key) ∧
    (((byBasename key).getD []).Nodup → ((insertBasenameCandidate canonicalPathKey byBasename path file key).getD []).Nodup) := by
  unfold insertBasenameCandidate
  by_cases same : key = canonicalBasenameKey canonicalPathKey path
  · subst same
    simp only [Function.update_self,Option.getD_some,and_true]
    split
    · next listed => exact ⟨fun other => ⟨.inl,fun found => found.elim id fun eq => eq ▸ listed⟩,id⟩
    · next absent =>
      refine ⟨fun other => by rw [List.mem_append,List.mem_singleton],fun distinct => ?_⟩
      exact List.nodup_append.mpr ⟨distinct,List.nodup_singleton file,fun a member b single eq => absent
        (List.mem_singleton.mp single ▸ eq ▸ member)⟩
  · simp only [Function.update_of_ne same,Ne.symm same,and_false,or_false]
    exact ⟨fun _ => trivial,id⟩

theorem Admitted.consistent (consistent : inner.Consistent canonicalPathKey)
    (admitted : Admitted canonicalPathKey inner next id path text identity) :
    next.Consistent canonicalPathKey := by
  have paths : ∀ file (holds : FilePath → Prop), (∃ snapshot, next.live file = some snapshot ∧ holds snapshot.path) ↔
      (∃ snapshot, inner.live file = some snapshot ∧ holds snapshot.path) ∨ file = id ∧ holds path := by
    intro file holds
    rw [admitted.live]
    split
    · next same =>
      rw [same,admitted.free]
      simp
    · next other => simp [other]
  refine ⟨admitted.lengths,fun file snapshot live => ?_,fun key file => ?_,fun file retired => ?_,fun key file => ?_,fun key => ?_⟩
  · rw [admitted.live] at live
    split at live
    · next same =>
      cases live
      exact same.symm
    · exact consistent.ids file snapshot live
  · rw [paths file fun path => canonicalPathKey path = key,admitted.byPath]
    by_cases same : key = canonicalPathKey path
    · subst same
      rw [Function.update_self]
      constructor
      · intro found
        exact .inr ⟨(Option.some.inj found).symm,rfl⟩
      · intro found
        cases found with
        | inl old =>
          rw [← consistent.table,admitted.unknown] at old
          cases old
        | inr new => rw [new.1]
    · rw [Function.update_of_ne same,consistent.table]
      exact ⟨.inl,fun found => found.resolve_right fun new => same new.2.symm⟩
  · rw [admitted.retired] at retired
    have gone := consistent.retired file retired
    refine ⟨?_,Nat.lt_of_lt_of_le gone.2 admitted.grows⟩
    rw [admitted.live,if_neg fun (same : file = id) => admitted.fresh (same ▸ retired)]
    exact gone.1
  · rw [paths file fun path => canonicalBasenameKey canonicalPathKey path = key,admitted.byBasename,
      (insertBasenameCandidate_exact inner.byBasename path id key).1,consistent.basenames]
  · rw [admitted.byBasename]
    exact (insertBasenameCandidate_exact inner.byBasename path id key).2 (consistent.distinct key)

structure Removed (canonicalPathKey : FilePath → FilePath) (inner next : Inner) (id : FileId) (old : FileSnapshot) (key : FilePath) : Prop where
  known : inner.live id = some old
  live : ∀ file, next.live file = if file = id then none else inner.live file
  pending : ∀ file, next.pending file = if file = id then none else inner.pending file
  retired : ∀ file, file ∈ next.retiredFiles ↔ file ∈ inner.retiredFiles ∨ file = id
  loader : next.loader = inner.loader
  revision : next.revision = inner.revision + 1
  lengths : SameLengths next
  size : next.files.length = inner.files.length
  byPath : next.byPath = Function.update inner.byPath key none
  byBasename : next.byBasename = inner.removeBasename canonicalPathKey id

theorem remove_cases (consistent : inner.Consistent canonicalPathKey) {removed : Option FileId}
    (ran : inner.remove canonicalPathKey path = (removed,next)) :
    removed = none ∧ next = inner ∧ inner.byPath (canonicalPathKey path) = none ∨
    ∃ id old, removed = some id ∧ inner.byPath (canonicalPathKey path) = some id ∧
      Removed canonicalPathKey inner next id old (canonicalPathKey path) := by
  unfold remove at ran
  dsimp only at ran
  split at ran
  · next unknown =>
    obtain ⟨rfl,rfl⟩ := Prod.mk.inj ran
    exact .inl ⟨rfl,rfl,unknown⟩
  · next id found =>
    obtain ⟨rfl,rfl⟩ := Prod.mk.inj ran
    obtain ⟨old,known,_⟩ := (consistent.table _ _).mp found
    have inside := live_inside known
    refine .inr ⟨id,old,rfl,found,{ known := known, loader := rfl, revision := rfl, byPath := rfl, byBasename := rfl
                                    live := fun file => ?_, pending := fun file => ?_, retired := fun file => ?_
                                    lengths := ?_, size := ?_ }⟩
    · refine (slot_set _ _ _ file).trans ?_
      simp only [inside,and_true]
      rfl
    · refine (slot_set _ _ _ file).trans ?_
      simp only [consistent.lengths.lazy,inside,and_true]
      rfl
    · dsimp only
      split
      · next listed => exact ⟨.inl,fun member => member.elim (fun old => old) fun same => same ▸ listed⟩
      · rw [List.mem_append,List.mem_singleton]
    · exact ⟨by simp [consistent.lengths.edits],by simp [consistent.lengths.lazy]⟩
    · simp

theorem removeBasename_exact (consistent : inner.Consistent canonicalPathKey)
    (known : inner.live id = some old) (key : FilePath) :
    (∀ other, other ∈ (inner.removeBasename canonicalPathKey id key).getD [] ↔ other ∈ (inner.byBasename key).getD [] ∧ other ≠ id) ∧
      ((inner.removeBasename canonicalPathKey id key).getD []).Nodup := by
  have elsewhere : key ≠ canonicalBasenameKey canonicalPathKey old.path → id ∉ (inner.byBasename key).getD [] := by
    intro other listed
    obtain ⟨snapshot,live,same⟩ := (consistent.basenames key id).mp listed
    rw [known] at live
    cases live
    exact other same.symm
  have distinct := consistent.distinct key
  unfold removeBasename
  simp only [known]
  by_cases same : key = canonicalBasenameKey canonicalPathKey old.path
  · subst same
    cases listed : inner.byBasename (canonicalBasenameKey canonicalPathKey old.path) with
    | none => simp [listed]
    | some candidates =>
      rw [listed] at distinct
      dsimp only
      rw [Function.update_self]
      have kept : ((if (candidates.filter (· ≠ id)).isEmpty then none else some (candidates.filter (· ≠ id)) :
          Option (List FileId)).getD []) = candidates.filter (· ≠ id) := by
        split
        · next empty => rw [List.isEmpty_iff.mp empty]; rfl
        · rfl
      rw [kept]
      refine ⟨fun other => ?_,List.Nodup.filter _ distinct⟩
      rw [List.mem_filter,decide_eq_true_eq]
      rfl
  · have unchanged : (∀ other, other ∈ (inner.byBasename key).getD [] ↔ other ∈ (inner.byBasename key).getD [] ∧ other ≠ id) ∧
        ((inner.byBasename key).getD []).Nodup :=
      ⟨fun other => ⟨fun listed => ⟨listed,fun eq => elsewhere same (eq ▸ listed)⟩,fun found => found.1⟩,distinct⟩
    cases listed : inner.byBasename (canonicalBasenameKey canonicalPathKey old.path) with
    | none => exact unchanged
    | some candidates =>
      dsimp only
      rw [Function.update_of_ne same]
      exact unchanged

theorem Removed.consistent (consistent : inner.Consistent canonicalPathKey) {key : FilePath}
    (found : inner.byPath key = some id) (removed : Removed canonicalPathKey inner next id old key) :
    next.Consistent canonicalPathKey := by
  have folded : canonicalPathKey old.path = key := by
    obtain ⟨snapshot,live,same⟩ := (consistent.table _ _).mp found
    rw [removed.known] at live
    cases live
    exact same
  have paths : ∀ file (holds : FilePath → Prop), (∃ snapshot, next.live file = some snapshot ∧ holds snapshot.path) ↔
      (∃ snapshot, inner.live file = some snapshot ∧ holds snapshot.path) ∧ file ≠ id := by
    intro file holds
    rw [removed.live]
    split
    · next same => simp [same]
    · next other => simp [other]
  refine ⟨removed.lengths,fun file snapshot live => ?_,fun other file => ?_,fun file retired => ?_,fun other file => ?_,fun other => ?_⟩
  · rw [removed.live] at live
    split at live
    · cases live
    · exact consistent.ids file snapshot live
  · rw [paths file fun path => canonicalPathKey path = other,removed.byPath,← consistent.table]
    by_cases same : other = key
    · subst same
      rw [Function.update_self,found]
      simp [eq_comm]
    · rw [Function.update_of_ne same]
      refine ⟨fun present => ⟨present,fun eq => same ?_⟩,fun present => present.1⟩
      obtain ⟨snapshot,live,here⟩ := (consistent.table _ _).mp present
      rw [eq,removed.known] at live
      cases live
      exact here.symm.trans folded
  · rw [removed.size]
    cases (removed.retired file).mp retired with
    | inl before =>
      have gone := consistent.retired file before
      refine ⟨?_,gone.2⟩
      rw [removed.live]
      split
      · rfl
      · exact gone.1
    | inr same => exact ⟨by rw [removed.live,if_pos same],same ▸ live_inside removed.known⟩
  · rw [paths file fun path => canonicalBasenameKey canonicalPathKey path = other,removed.byBasename,
      (removeBasename_exact consistent removed.known other).1,consistent.basenames]
  · rw [removed.byBasename]
    exact (removeBasename_exact consistent removed.known other).2

end Inner

end BonsaiNinja.VirtualFiles
