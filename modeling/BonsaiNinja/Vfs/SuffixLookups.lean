import BonsaiNinja.Vfs.IdentityRuns
import Mathlib.Data.List.Infix

namespace BonsaiNinja.VirtualFiles
open Idg (FileId Text)

theorem onlyMatch_iff {α : Type u} {β : Type v} {rows : List (α × β)} (distinct : (rows.map Prod.fst).Nodup) (row : α × β) :
    onlyMatch rows = some row ↔ row ∈ rows ∧ ∀ other ∈ rows, other.1 = row.1 := by
  unfold onlyMatch
  split
  · next first =>
    simp only [Option.some.injEq,List.mem_singleton,forall_eq]
    exact ⟨fun same => ⟨same.symm,by rw [same]⟩,fun both => both.1.symm⟩
  · next several =>
    refine ⟨fun impossible => (nomatch impossible),fun both => ?_⟩
    cases rows with
    | nil => exact absurd both.1 List.not_mem_nil
    | cons first rest =>
      cases rest with
      | nil => exact absurd rfl (several first)
      | cons second rest =>
        refine absurd ?_ (List.nodup_cons.mp distinct).1
        rw [both.2 first List.mem_cons_self,← both.2 second (List.mem_cons_of_mem _ List.mem_cons_self)]
        exact List.mem_cons_self

theorem fst_sublist {α : Type u} {β : Type v} {f : α → Option (α × β)} (own : ∀ a row, f a = some row → row.1 = a)
    (rows : List α) : ((rows.filterMap f).map Prod.fst).Sublist rows := by
  induction rows with
  | nil => exact .slnil
  | cons a rest ih =>
    rw [List.filterMap_cons]
    cases kept : f a with
    | none => exact ih.cons a
    | some row =>
      rw [List.map_cons,own a row kept]
      exact ih.cons_cons a

namespace Inner
variable {canonicalPathKey : FilePath → FilePath} {inner : Inner}

def EndsWith (canonicalPathKey : FilePath → FilePath) (suffix path : FilePath) : Prop :=
  canonicalBasenameKey canonicalPathKey path = canonicalBasenameKey canonicalPathKey suffix ∧
    canonicalPathKey suffix <:+ canonicalPathKey path

theorem uniqueFileEndingWith_exact (consistent : inner.Consistent canonicalPathKey) (suffix : FilePath) (id : FileId)
    (path : FilePath) : inner.uniqueFileEndingWith canonicalPathKey suffix = some (id,path) ↔
      (∃ snapshot, inner.live id = some snapshot ∧ snapshot.path = path ∧ EndsWith canonicalPathKey suffix snapshot.path) ∧
        ∀ other snapshot, inner.live other = some snapshot → EndsWith canonicalPathKey suffix snapshot.path → other = id := by
  have listed := consistent.basenames (canonicalBasenameKey canonicalPathKey suffix)
  have distinct := consistent.distinct (canonicalBasenameKey canonicalPathKey suffix)
  unfold uniqueFileEndingWith
  cases offered : inner.byBasename (canonicalBasenameKey canonicalPathKey suffix) with
  | none =>
    rw [offered] at listed
    simp only [Option.bind_eq_bind,Option.bind_none,reduceCtorEq,false_iff,not_and]
    intro found
    obtain ⟨snapshot,live,_,same,_⟩ := found
    exact absurd ((listed id).mpr ⟨snapshot,live,same⟩) List.not_mem_nil
  | some candidates =>
    rw [offered] at listed distinct
    simp only [Option.bind_eq_bind,Option.bind_some]
    generalize gathered : (candidates.filterMap fun file => (inner.live file).bind fun snapshot =>
      if (canonicalPathKey suffix).isSuffixOf (canonicalPathKey snapshot.path) then some (file,snapshot.path) else none) = found
    have members : ∀ row : FileId × FilePath, row ∈ found ↔ ∃ snapshot, inner.live row.1 = some snapshot ∧ snapshot.path = row.2 ∧
        EndsWith canonicalPathKey suffix snapshot.path := by
      intro row
      rw [← gathered,List.mem_filterMap]
      constructor
      · intro kept
        obtain ⟨file,candidate,kept⟩ := kept
        obtain ⟨snapshot,live,kept⟩ := Option.bind_eq_some_iff.mp kept
        obtain ⟨ends,same'⟩ := Option.ite_none_right_eq_some.mp kept
        obtain rfl := Option.some.inj same'
        obtain ⟨other,live',same⟩ := (listed file).mp candidate
        rw [live] at live'
        cases live'
        exact ⟨snapshot,live,rfl,same,List.isSuffixOf_iff_suffix.mp ends⟩
      · intro matching
        obtain ⟨snapshot,live,path,same,ends⟩ := matching
        refine ⟨row.1,(listed row.1).mpr ⟨snapshot,live,same⟩,?_⟩
        rw [live,Option.bind_some,if_pos (List.isSuffixOf_iff_suffix.mpr ends),path]
    have ids : (found.map Prod.fst).Nodup := by
      rw [← gathered]
      refine distinct.sublist (fst_sublist (fun file row kept => ?_) candidates)
      obtain ⟨snapshot,_,kept⟩ := Option.bind_eq_some_iff.mp kept
      obtain ⟨_,same⟩ := Option.ite_none_right_eq_some.mp kept
      rw [← Option.some.inj same]
    rw [onlyMatch_iff ids,members]
    constructor
    · intro both
      refine ⟨both.1,fun other snapshot live ends => ?_⟩
      exact both.2 (other,snapshot.path) ((members _).mpr ⟨snapshot,live,rfl,ends⟩)
    · intro both
      refine ⟨both.1,fun row member => ?_⟩
      obtain ⟨snapshot,live,_,ends⟩ := (members row).mp member
      exact both.2 row.1 snapshot live ends

end Inner

def foldComponent (f : Text → Text) : PathComponent → PathComponent
  | .normal name => .normal (f name)
  | component => component

theorem fileName_eq {path : FilePath} {name : Text} : fileName path = some name ↔ path.getLast? = some (.normal name) := by
  unfold fileName
  split
  · next last => simp [last]
  · next other =>
    refine ⟨fun impossible => (nomatch impossible),fun last => absurd last (other name)⟩

-- Such a folding makes the basename directory complete: a path that ends with a
-- named suffix has its basename.
theorem basename_of_suffix {canonicalPathKey : FilePath → FilePath} {f : Text → Text}
    (componentwise : ∀ path, canonicalPathKey path = path.map (foldComponent f)) {suffix path : FilePath}
    (named : (fileName suffix).isSome) (ends : canonicalPathKey suffix <:+ canonicalPathKey path) :
    canonicalBasenameKey canonicalPathKey path = canonicalBasenameKey canonicalPathKey suffix := by
  obtain ⟨name,named⟩ := Option.isSome_iff_exists.mp named
  have last : (path.map (foldComponent f)).getLast? = some (.normal (f name)) := by
    obtain ⟨front,whole⟩ := ends
    rw [componentwise,componentwise] at whole
    rw [← whole,List.getLast?_append,List.getLast?_map,fileName_eq.mp named]
    rfl
  rw [List.getLast?_map] at last
  obtain ⟨component,final,folded⟩ := Option.map_eq_some_iff.mp last
  cases component with
  | rootDir => cases folded
  | curDir => cases folded
  | parentDir => cases folded
  | normal other =>
    have same : f other = f name := PathComponent.normal.inj folded
    unfold canonicalBasenameKey
    rw [named,fileName_eq.mpr final]
    simp only [componentwise,List.map_cons,List.map_nil,foldComponent,same]

def OnlyEnding (canonicalPathKey : FilePath → FilePath) (inner : Inner) (suffix : FilePath) (id : FileId) (path : FilePath) : Prop :=
  (∃ snapshot, inner.live id = some snapshot ∧ snapshot.path = path ∧ canonicalPathKey suffix <:+ canonicalPathKey snapshot.path) ∧
    ∀ other snapshot, inner.live other = some snapshot → canonicalPathKey suffix <:+ canonicalPathKey snapshot.path → other = id

-- What every moment of a run owes: the tables agree, one call changes what it
-- should, and over later calls no id or version comes to mean something else.
structure IdentityKept (canonicalPathKey : FilePath → FilePath) (inner : Inner) : Prop where
  consistent : inner.Consistent canonicalPathKey
  steps : ∀ call outcome next, step canonicalPathKey inner call = some (outcome,next) → inner.StepFacts next outcome
  retired : ∀ later next, serve canonicalPathKey inner later = some next → ∀ id ∈ inner.retiredFiles, next.live id = none
  lasting : ∀ later next, serve canonicalPathKey inner later = some next → ∀ id old new,
    inner.live id = some old → next.live id = some new → new.path = old.path ∧ old.version ≤ new.version
  suffixes : ∀ suffix id path, inner.uniqueFileEndingWith canonicalPathKey suffix = some (id,path) ↔
    (∃ snapshot, inner.live id = some snapshot ∧ snapshot.path = path ∧ Inner.EndsWith canonicalPathKey suffix snapshot.path) ∧
      ∀ other snapshot, inner.live other = some snapshot → Inner.EndsWith canonicalPathKey suffix snapshot.path → other = id
  named : ∀ f, (∀ path, canonicalPathKey path = path.map (foldComponent f)) → ∀ suffix, (fileName suffix).isSome →
    ∀ id path, inner.uniqueFileEndingWith canonicalPathKey suffix = some (id,path) ↔
      OnlyEnding canonicalPathKey inner suffix id path

theorem vfs_identity_over_runs (canonicalPathKey : FilePath → FilePath) (calls : List Call) {inner : Inner}
    (ran : serve canonicalPathKey .new calls = some inner) : IdentityKept canonicalPathKey inner := by
  have consistent := (serve_later (new_consistent canonicalPathKey) ran).1
  refine ⟨consistent,fun call outcome next stepped => (step_facts consistent stepped).2,fun later next served id gone => ?_,
    fun later next served id old new live live' => ?_,Inner.uniqueFileEndingWith_exact consistent,
    fun f componentwise suffix named id path => ?_⟩
  · obtain ⟨nextConsistent,kept⟩ := serve_later consistent served
    exact (nextConsistent.retired id (kept.retired id gone)).1
  · obtain ⟨nextConsistent,kept⟩ := serve_later consistent served
    cases kept.kept id old live with
    | inl gone =>
      rw [(nextConsistent.retired id gone).1] at live'
      cases live'
    | inr found =>
      obtain ⟨same,live'',facts⟩ := found
      rw [live'] at live''
      cases live''
      exact facts
  · have both : ∀ path, Inner.EndsWith canonicalPathKey suffix path ↔ canonicalPathKey suffix <:+ canonicalPathKey path :=
      fun path => ⟨fun ends => ends.2,fun ends => ⟨basename_of_suffix componentwise named ends,ends⟩⟩
    rw [Inner.uniqueFileEndingWith_exact consistent]
    simp only [both]
    rfl

def sourcePath : FilePath := [.rootDir,.normal "main.c".toList]

def rewrites : List Call :=
  [.write sourcePath "a".toList,.write sourcePath "b".toList,.remove sourcePath,.write sourcePath "c".toList]

theorem rewritten_file_identity : ∃ inner, serve id .new rewrites = some inner ∧ IdentityKept id inner :=
  ⟨_,rfl,vfs_identity_over_runs id rewrites rfl⟩

-- The empty suffix ends every path but has no basename to look under.
theorem empty_suffix_finds_nothing : ¬ ∀ (canonicalPathKey : FilePath → FilePath) (calls : List Call) (inner : Inner),
    serve canonicalPathKey .new calls = some inner → ∀ suffix id path,
      (inner.uniqueFileEndingWith canonicalPathKey suffix = some (id,path) ↔ OnlyEnding canonicalPathKey inner suffix id path) := by
  intro claimed
  have answer := (claimed id [.write sourcePath []] _ rfl [] 0 sourcePath).mpr
    ⟨⟨⟨0,sourcePath,[],0⟩,rfl,rfl,List.nil_suffix⟩,fun other snapshot live _ => ?_⟩
  · cases answer
  · cases other with
    | zero => rfl
    | succ other => cases live

end BonsaiNinja.VirtualFiles
