import BonsaiNinja.Vfs.Snapshots
import Mathlib.Algebra.BigOperators.Fin
import Mathlib.Algebra.Order.BigOperators.Group.Finset

namespace BonsaiNinja.Parser
open Idg (FileId Text)
variable {snapshot : FileSnapshot} {vfs : Vfs}

def isWhitespace (char : Char) : Bool :=
  let code := char.toNat
  (9 ≤ code && code ≤ 13) || code == 0x20 || code == 0x85 || code == 0xA0 || code == 0x1680 ||
    (0x2000 ≤ code && code ≤ 0x200A) || code == 0x2028 || code == 0x2029 || code == 0x202F || code == 0x205F || code == 0x3000

def isAsciiWhitespace (char : Char) : Bool := char == ' ' || char == '\t' || char == '\n' || char == '\x0C' || char == '\r'

def trimStart (text : Text) : Text := text.dropWhile isWhitespace

def stripPrefix : Text → Text → Option Text
  | [], text => some text
  | _ :: _, [] => none
  | char :: lead, other :: text => if char = other then stripPrefix lead text else none

def splitOnce (separator : Char) : Text → Option (Text × Text)
  | [] => none
  | char :: rest =>
    if char = separator then some ([],rest)
    else (splitOnce separator rest).map fun (before,after) => (char :: before,after)

-- `str::lines`: a final line break ends the last line, and a carriage return
-- before a line break belongs to it.
def sourceLines (text : Text) : List Text :=
  let pieces := text.splitOn '\n'
  let lines := if pieces.getLast? = some [] then pieces.dropLast else pieces
  lines.map fun line => if line.getLast? = some '\r' then line.dropLast else line

def isIdentifierStart (char : Char) : Bool := char == '_' || ('a' ≤ char && char ≤ 'z') || ('A' ≤ char && char ≤ 'Z')

def isIdentifierContinue (char : Char) : Bool := isIdentifierStart char || ('0' ≤ char && char ≤ '9')

def directiveArgument (line directive : Text) : Option Text :=
  match stripPrefix directive line with
  | some rest => if rest.head?.any isAsciiWhitespace then some (trimStart rest) else none
  | none => none

-- The components of a path as it is written: a root counts as one, repeated
-- separators do not.
def pathComponents (path : Text) : SourcePath :=
  let parts := (path.splitOn '/').filter fun part => !part.isEmpty
  if path.head? = some '/' then ['/'] :: parts else parts

structure PreprocessorDirectives where
  objectMacros : List Text
  includes : List SourcePath
  deriving DecidableEq, Repr

def definedMacro (definition : Text) : Option Text :=
  let name := definition.takeWhile isIdentifierContinue
  if name.head?.any isIdentifierStart then
    -- No blank before the parenthesis: a function-like macro.
    if definition[name.length]? = some '(' then none else some name
  else none

def includedPath (argument : Text) : Option SourcePath :=
  let argument := trimStart argument
  let path : Option Text :=
    match stripPrefix ['"'] argument, stripPrefix ['<'] argument with
    | some quoted, _ => (splitOnce '"' quoted).map (·.1)
    | none, some angled => (splitOnce '>' angled).map (·.1)
    | none, none => none
  (path.filter fun path => !path.isEmpty).map pathComponents

def lineDirective (facts : PreprocessorDirectives) (line : Text) : PreprocessorDirectives :=
  match stripPrefix ['#'] (trimStart line) with
  | none => facts
  | some rest =>
    let rest := trimStart rest
    match directiveArgument rest "define".toList with
    | some definition => { facts with objectMacros := facts.objectMacros ++ (definedMacro definition).toList }
    | none =>
      match directiveArgument rest "include".toList with
      | some argument => { facts with includes := facts.includes ++ (includedPath argument).toList }
      | none => facts

def preprocessorDirectives (source : Text) : PreprocessorDirectives := (sourceLines source).foldl lineDirective ⟨[],[]⟩

def resolveInclude (vfs : Vfs) (includingPath included : SourcePath) : Option (FileId × SourcePath) :=
  let beside :=
    if includingPath.isEmpty then none
    else
      let candidate := if included.head? = some ['/'] then included else includingPath.dropLast ++ included.filter (· ≠ ['.'])
      (vfs.lookup candidate).map fun file => (file,candidate)
  beside.orElse fun _ => vfs.uniqueFileEndingWith included

-- What the fingerprint absorbs of one file.
structure ContextFile where
  path : SourcePath
  version : Nat
  text : Text
  deriving DecidableEq, Repr

structure ContextWalk where
  macros : List Text
  visited : List FileId
  pending : List (FileId × SourcePath)
  context : List ContextFile
  deriving DecidableEq, Repr

-- The caller's own file is read from the caller's snapshot.
def contextSnapshot (snapshot : FileSnapshot) (vfs : Vfs) (file : FileId) : Option FileSnapshot :=
  if file = snapshot.fileId then some snapshot else vfs.snapshot file

-- One popped file; the top of the stack is the head of the list.
def visitContext (snapshot : FileSnapshot) (vfs : Vfs) (walk : ContextWalk) (file : FileId) (path : SourcePath) : ContextWalk :=
  if file ∈ walk.visited then walk
  else
    let visited := { walk with visited := file :: walk.visited }
    match contextSnapshot snapshot vfs file with
    | none => visited
    | some current =>
      let directives := preprocessorDirectives current.text.text
      { visited with
        context := walk.context ++ [⟨path,current.version,current.text.text⟩]
        macros := walk.macros ++ directives.objectMacros
        pending := (directives.includes.filterMap (resolveInclude vfs path)).reverse ++ walk.pending }

def walkContext (snapshot : FileSnapshot) (vfs : Vfs) : Nat → ContextWalk → ContextWalk
  | 0, walk => walk
  | fuel + 1, walk =>
    match walk.pending with
    | [] => walk
    | (file,path) :: rest => walkContext snapshot vfs fuel (visitContext snapshot vfs { walk with pending := rest } file path)

def includeCount (text : Text) : Nat := (preprocessorDirectives text).includes.length

-- Every file pushes its includes once.
def contextFuel (snapshot : FileSnapshot) (vfs : Vfs) : Nat :=
  1 + includeCount snapshot.text.text + (vfs.files.map fun file => includeCount file.text.text).sum

def sortContext (context : List ContextFile) : List ContextFile :=
  context.insertionSort fun a b => Library.before b.path a.path = false

-- The object macros the includes of a source can reach, and everything the
-- fingerprint absorbs of them.
def reachablePreprocessorContext (snapshot : FileSnapshot) (vfs : Vfs) : List Text × List ContextFile :=
  let walk := walkContext snapshot vfs (contextFuel snapshot vfs) ⟨[],[],[(snapshot.fileId,snapshot.path)],[]⟩
  (walk.macros,sortContext walk.context)

-- The macros are a function of what the fingerprint absorbs.
def contextMacros (context : List ContextFile) : List Text :=
  context.flatMap fun file => (preprocessorDirectives file.text).objectMacros

section
variable {snapshot : FileSnapshot} {vfs : Vfs}

def pushCount (snapshot : FileSnapshot) (vfs : Vfs) (file : FileId) : Nat :=
  ((contextSnapshot snapshot vfs file).map fun current => includeCount current.text.text).getD 0

def walkRoom (snapshot : FileSnapshot) (vfs : Vfs) (walk : ContextWalk) : Nat :=
  walk.pending.length +
    ∑ file ∈ insert snapshot.fileId (Finset.range vfs.files.length) \ walk.visited.toFinset, pushCount snapshot vfs file

theorem visitContext_room {walk : ContextWalk} {file : FileId} {path : SourcePath} {rest : List (FileId × SourcePath)}
    (top : walk.pending = (file,path) :: rest) :
    walkRoom snapshot vfs (visitContext snapshot vfs { walk with pending := rest } file path) < walkRoom snapshot vfs walk := by
  unfold visitContext
  split
  · simp only [walkRoom, top, List.length_cons]
    omega
  · next fresh =>
    have fewer : ∑ other ∈ insert snapshot.fileId (Finset.range vfs.files.length) \ (file :: walk.visited).toFinset,
          pushCount snapshot vfs other + pushCount snapshot vfs file ≤
        ∑ other ∈ insert snapshot.fileId (Finset.range vfs.files.length) \ walk.visited.toFinset,
          pushCount snapshot vfs other := by
      by_cases inside : file ∈ insert snapshot.fileId (Finset.range vfs.files.length)
      · have erased : insert snapshot.fileId (Finset.range vfs.files.length) \ (file :: walk.visited).toFinset =
            (insert snapshot.fileId (Finset.range vfs.files.length) \ walk.visited.toFinset).erase file := by
          ext other
          simp only [List.toFinset_cons, Finset.mem_sdiff, Finset.mem_insert, Finset.mem_erase, List.mem_toFinset]
          tauto
        rw [erased, Finset.sum_erase_add]
        exact Finset.mem_sdiff.mpr ⟨inside,by simpa using fresh⟩
      · have silent : pushCount snapshot vfs file = 0 := by
          simp only [Finset.mem_insert, Finset.mem_range, not_or, not_lt] at inside
          have absent : vfs.files[file]? = none := List.getElem?_eq_none inside.2
          simp [pushCount,contextSnapshot,inside.1,Vfs.snapshot,absent]
        rw [silent, Nat.add_zero]
        apply Finset.sum_le_sum_of_subset
        intro other member
        simp only [List.toFinset_cons, Finset.mem_sdiff, Finset.mem_insert, List.mem_toFinset, not_or] at member ⊢
        exact ⟨member.1,member.2.2⟩
    split
    · simp only [walkRoom, top, List.length_cons]
      omega
    · next current found =>
      have pushes : ((preprocessorDirectives current.text.text).includes.filterMap (resolveInclude vfs path)).length ≤
          pushCount snapshot vfs file := by
        rw [pushCount, found]
        exact List.length_filterMap_le _ _
      simp only [walkRoom, top, List.length_append, List.length_reverse, List.length_cons]
      omega

theorem walkContext_drained (fuel : Nat) {walk : ContextWalk} (enough : walkRoom snapshot vfs walk ≤ fuel) :
    (walkContext snapshot vfs fuel walk).pending = [] := by
  induction fuel generalizing walk with
  | zero =>
    apply List.eq_nil_of_length_eq_zero
    unfold walkRoom at enough
    simp only [walkContext]
    omega
  | succ fuel ih =>
    unfold walkContext
    split
    · assumption
    · next file path rest top =>
      apply ih
      have smaller := @visitContext_room snapshot vfs _ _ _ _ top
      omega

theorem sum_getElem? (rows : List α) (count : α → Nat) :
    ∑ i ∈ Finset.range rows.length, (rows[i]?.map count).getD 0 = (rows.map count).sum := by
  induction rows with
  | nil => rfl
  | cons row rest ih => simp [Finset.sum_range_succ',ih,Nat.add_comm]

theorem reachable_drained :
    (walkContext snapshot vfs (contextFuel snapshot vfs) ⟨[],[],[(snapshot.fileId,snapshot.path)],[]⟩).pending = [] := by
  apply walkContext_drained
  have own : pushCount snapshot vfs snapshot.fileId = includeCount snapshot.text.text := by
    simp [pushCount,contextSnapshot]
  have others : ∑ file ∈ (Finset.range vfs.files.length).erase snapshot.fileId, pushCount snapshot vfs file ≤
      (vfs.files.map fun file => includeCount file.text.text).sum := by
    rw [← sum_getElem? vfs.files]
    refine le_trans (Finset.sum_le_sum fun file member => ?_) (Finset.sum_le_sum_of_subset (Finset.erase_subset _ _))
    have foreign : file ≠ snapshot.fileId := Finset.ne_of_mem_erase member
    simp [pushCount,contextSnapshot,foreign,Vfs.snapshot]
  have split : ∑ file ∈ insert snapshot.fileId (Finset.range vfs.files.length), pushCount snapshot vfs file =
      pushCount snapshot vfs snapshot.fileId +
        ∑ file ∈ (Finset.range vfs.files.length).erase snapshot.fileId, pushCount snapshot vfs file := by
    have same : insert snapshot.fileId (Finset.range vfs.files.length) =
        insert snapshot.fileId ((Finset.range vfs.files.length).erase snapshot.fileId) := by
      ext other
      simp only [Finset.mem_insert, Finset.mem_erase]
      tauto
    rw [same, Finset.sum_insert (Finset.notMem_erase _ _)]
  simp only [walkRoom, contextFuel, List.toFinset_nil, Finset.sdiff_empty, List.length_singleton, split, own]
  omega

def IncludesFile (snapshot : FileSnapshot) (vfs : Vfs) (file included : FileId) : Prop :=
  ∃ current, contextSnapshot snapshot vfs file = some current ∧
    ∃ written ∈ (preprocessorDirectives current.text.text).includes, ∃ path, resolveInclude vfs current.path written = some (included,path)

def contextRow (snapshot : FileSnapshot) (vfs : Vfs) (file : FileId) : Option ContextFile :=
  (contextSnapshot snapshot vfs file).map fun current => ⟨current.path,current.version,current.text.text⟩

structure Walked (snapshot : FileSnapshot) (vfs : Vfs) (walk : ContextWalk) : Prop where
  distinct : walk.visited.Nodup
  rows : walk.context.map some = walk.visited.reverse.map (contextRow snapshot vfs)
  macros : walk.macros = contextMacros walk.context
  reached : ∀ file, file ∈ walk.visited ++ walk.pending.map (·.1) → Relation.ReflTransGen (IncludesFile snapshot vfs) snapshot.fileId file
  closed : ∀ file ∈ walk.visited, ∀ included, IncludesFile snapshot vfs file included → included ∈ walk.visited ++ walk.pending.map (·.1)
  paths : ∀ pair ∈ walk.pending, pair.1 ∉ walk.visited → ∃ current, contextSnapshot snapshot vfs pair.1 = some current ∧ current.path = pair.2
  own : snapshot.fileId ∈ walk.visited ∨ walk.pending = [(snapshot.fileId,snapshot.path)]

-- An include resolves to a file under the path that the file system has for it.
theorem resolveInclude_found {including written path : SourcePath} {file : FileId}
    (found : resolveInclude vfs including written = some (file,path)) (foreign : file ≠ snapshot.fileId) :
    ∃ current, contextSnapshot snapshot vfs file = some current ∧ current.path = path := by
  rw [contextSnapshot,if_neg foreign]
  unfold resolveInclude at found
  dsimp only at found
  rw [Option.orElse_eq_or,Option.or_eq_some_iff] at found
  rcases found with beside | ⟨_,elsewhere⟩
  · split at beside
    · cases beside
    · obtain ⟨file,located,same⟩ := Option.map_eq_some_iff.mp beside
      cases same
      obtain ⟨inside,at_path,_⟩ := List.findIdx?_eq_some_iff_getElem.mp located
      exact ⟨_,List.getElem?_eq_getElem inside,of_decide_eq_true at_path⟩
  · unfold Vfs.uniqueFileEndingWith at elsewhere
    split at elsewhere
    · next current only =>
      cases elsewhere
      have listed : current ∈ vfs.files := (List.mem_filter.mp (only ▸ List.mem_singleton_self _)).1
      obtain ⟨place,inside⟩ := List.mem_iff_getElem?.mp listed
      exact ⟨current,by rw [vfs.ids place current inside]; exact inside,rfl⟩
    · cases elsewhere

theorem Walked.visit {walk : ContextWalk} {file : FileId} {path : SourcePath} {rest : List (FileId × SourcePath)}
    (walked : Walked snapshot vfs walk) (top : walk.pending = (file,path) :: rest) :
    Walked snapshot vfs (visitContext snapshot vfs { walk with pending := rest } file path) := by
  obtain ⟨distinct,rows,macros,reached,closed,paths,own⟩ := walked
  rw [top] at reached closed paths own
  unfold visitContext
  dsimp only
  split
  · next again =>
    refine ⟨distinct,rows,macros,fun other inside => reached other ?_,fun other visited included link => ?_,?_,.inl ?_⟩
    · simp only [List.map_cons,List.mem_append,List.mem_cons] at inside ⊢
      tauto
    · have inside := closed other visited included link
      simp only [List.map_cons,List.mem_append,List.mem_cons] at inside ⊢
      rcases inside with inside | rfl | inside
      · exact .inl inside
      · exact .inl again
      · exact .inr inside
    · exact fun pair listed => paths pair (List.mem_cons_of_mem _ listed)
    · rcases own with own | first
      · exact own
      · cases first
        exact again
  · next fresh =>
    have root : snapshot.fileId ∈ file :: walk.visited := by
      rcases own with own | first
      · exact List.mem_cons_of_mem _ own
      · exact List.mem_cons.mpr (.inl (congrArg Prod.fst (List.cons.inj first).1).symm)
    obtain ⟨current,found,rfl⟩ := paths (file,path) List.mem_cons_self fresh
    have start := reached file (by simp)
    rw [found]
    dsimp only
    have pushed (included : FileId) : included ∈ ((preprocessorDirectives current.text.text).includes.filterMap
          (resolveInclude vfs current.path)).map (·.1) ↔ IncludesFile snapshot vfs file included := by
      constructor
      · intro listed
        obtain ⟨⟨_,path⟩,held,rfl⟩ := List.mem_map.mp listed
        obtain ⟨written,inside,resolved⟩ := List.mem_filterMap.mp held
        exact ⟨current,found,written,inside,path,resolved⟩
      · rintro ⟨_,same,written,inside,path,resolved⟩
        cases found.symm.trans same
        exact List.mem_map.mpr ⟨_,List.mem_filterMap.mpr ⟨written,inside,resolved⟩,rfl⟩
    refine ⟨List.nodup_cons.mpr ⟨fresh,distinct⟩,?_,?_,fun other inside => ?_,fun other visited included link => ?_,
      fun pair listed unvisited => ?_,.inl root⟩
    · simp [rows,contextRow,found]
    · simp [macros,contextMacros]
    · simp only [List.map_append,List.map_reverse,List.mem_append,List.mem_reverse,List.mem_cons,pushed] at inside
      rcases inside with (rfl | visited) | link | waiting
      · exact start
      · exact reached other (by simp [visited])
      · exact start.tail link
      · exact reached other (List.mem_append_right _ (List.mem_cons_of_mem _ waiting))
    · simp only [List.map_append,List.map_reverse,List.mem_append,List.mem_reverse,List.mem_cons,pushed]
      rcases List.mem_cons.mp visited with rfl | visited
      · exact .inr (.inl link)
      · have inside := closed other visited included link
        simp only [List.map_cons,List.mem_append,List.mem_cons] at inside
        tauto
    · rcases List.mem_append.mp listed with fresh | waiting
      · obtain ⟨written,_,resolved⟩ := List.mem_filterMap.mp (List.mem_reverse.mp fresh)
        refine resolveInclude_found resolved ?_
        rintro own
        exact unvisited (own ▸ root)
      · exact paths pair (List.mem_cons_of_mem _ waiting) fun visited => unvisited (List.mem_cons_of_mem _ visited)

theorem walkContext_walked (fuel : Nat) {walk : ContextWalk} (walked : Walked snapshot vfs walk) :
    Walked snapshot vfs (walkContext snapshot vfs fuel walk) := by
  induction fuel generalizing walk with
  | zero => exact walked
  | succ fuel ih =>
    unfold walkContext
    split
    · exact walked
    · next top => exact ih (walked.visit top)

end

end BonsaiNinja.Parser
