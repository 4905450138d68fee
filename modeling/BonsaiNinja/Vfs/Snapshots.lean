import BonsaiNinja.Idg.Place

namespace BonsaiNinja
open Idg (FileId Text)

abbrev SourcePath := List Text

-- The text an `Arc<str>` points to; one allocation holds one text.
structure SharedText where
  address : Nat
  text : Text
  deriving DecidableEq, Repr

structure FileSnapshot where
  fileId : FileId
  path : SourcePath
  text : SharedText
  version : Nat
  deriving DecidableEq, Repr

-- Files by id. A lazily interned file is its text already: its identity is that
-- of the text the loader returns.
structure Vfs where
  files : List FileSnapshot
  revision : Nat
  allocated : Nat
  ids : ∀ (file : Nat) (snapshot : FileSnapshot), files[file]? = some snapshot → snapshot.fileId = file

namespace Vfs

def empty : Vfs := ⟨[],0,0,by simp⟩

def snapshot (vfs : Vfs) (file : FileId) : Option FileSnapshot := vfs.files[file]?

def lookup (vfs : Vfs) (path : SourcePath) : Option FileId := vfs.files.findIdx? fun file => file.path = path

def replaceText (vfs : Vfs) (file : FileId) (text : Text) : Vfs where
  files := vfs.files.modify file fun old => { old with text := ⟨vfs.allocated,text⟩, version := old.version + 1 }
  revision := vfs.revision + 1
  allocated := vfs.allocated + 1
  ids := by
    intro other snapshot found
    obtain ⟨old,present,rfl⟩ := Option.map_eq_some_iff.mp (List.getElem?_modify .. ▸ found)
    have same := vfs.ids other old present
    split <;> exact same

def intern (vfs : Vfs) (path : SourcePath) (text : Text) : Vfs where
  files := vfs.files ++ [⟨vfs.files.length,path,⟨vfs.allocated,text⟩,0⟩]
  revision := vfs.revision + 1
  allocated := vfs.allocated + 1
  ids := by
    intro other snapshot found
    rcases Nat.lt_or_ge other vfs.files.length with inside | outside
    · rw [List.getElem?_append_left inside] at found
      exact vfs.ids other snapshot found
    · rw [List.getElem?_append_right outside, List.getElem?_singleton] at found
      obtain ⟨last,same⟩ := Option.ite_none_right_eq_some.mp found
      cases same
      exact (Nat.sub_eq_zero_iff_le.mp last).antisymm' outside

-- Sets or replaces the contents of a path.
def write (vfs : Vfs) (path : SourcePath) (text : Text) : Vfs :=
  match vfs.lookup path with
  | some file => vfs.replaceText file text
  | none => vfs.intern path text

def uniqueFileEndingWith (vfs : Vfs) (suffix : SourcePath) : Option (FileId × SourcePath) :=
  match vfs.files.filter fun file => suffix.isSuffixOf file.path with
  | [file] => some (file.fileId,file.path)
  | _ => none

-- What may have happened to a file system since an earlier moment: a version
-- that is still the current one still has its text.
structure Later (earlier later : Vfs) : Prop where
  kept : ∀ file old, earlier.snapshot file = some old → ∃ new, later.snapshot file = some new ∧
    new.path = old.path ∧ old.version ≤ new.version ∧ (new.version = old.version → new = old)

theorem Later.refl (vfs : Vfs) : Later vfs vfs := ⟨fun _ old found => ⟨old,found,rfl,Nat.le_refl _,fun _ => rfl⟩⟩

theorem write_later (vfs : Vfs) (path : SourcePath) (text : Text) : Later vfs (vfs.write path text) := by
  refine ⟨fun file old found => ?_⟩
  unfold write
  split
  · next written _ =>
    by_cases same : written = file
    · subst same
      refine ⟨{ old with text := ⟨vfs.allocated,text⟩, version := old.version + 1 },?_,rfl,Nat.le_succ _,?_⟩
      · have present : vfs.files[written]? = some old := found
        simp [snapshot,replaceText,present]
      · intro equal
        exact absurd equal (Nat.succ_ne_self _)
    · refine ⟨old,?_,rfl,Nat.le_refl _,fun _ => rfl⟩
      have present : vfs.files[file]? = some old := found
      simp [snapshot,replaceText,same,present]
  · refine ⟨old,?_,rfl,Nat.le_refl _,fun _ => rfl⟩
    have present : vfs.files[file]? = some old := found
    have inside : file < vfs.files.length := (List.getElem?_eq_some_iff.mp present).1
    simp only [snapshot, intern]
    rw [List.getElem?_append_left inside, present]

theorem write_other {vfs : Vfs} {path : SourcePath} {text : Text} {file : FileId} {old : FileSnapshot}
    (other : vfs.lookup path ≠ some file) (found : vfs.snapshot file = some old) :
    (vfs.write path text).snapshot file = some old := by
  have present : vfs.files[file]? = some old := found
  unfold write
  split
  · next written same =>
    have differs : written ≠ file := fun equal => other (equal ▸ same)
    simp [snapshot,replaceText,differs,present]
  · have inside : file < vfs.files.length := (List.getElem?_eq_some_iff.mp present).1
    simp only [snapshot, intern]
    rw [List.getElem?_append_left inside, present]

end Vfs

end BonsaiNinja
