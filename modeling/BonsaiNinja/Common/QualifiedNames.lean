import BonsaiNinja.Idg.Place
import BonsaiNinja.Library.Occurrences

namespace BonsaiNinja.Names
open Idg Library

structure CharClass where
  isAlphanumeric : Char → Bool
  ascii : ∀ c : Char, c.toNat < 128 → isAlphanumeric c = c.isAlphanum
  spaced : ∀ c, isWhiteSpace c = true → isAlphanumeric c = false

section
variable (table : CharClass)

def isNameSegmentChar (c : Char) : Bool := c == '_' || table.isAlphanumeric c

def stripSuffix (suffix text : Text) : Option Text :=
  if suffix <:+ text then some (text.take (text.length - suffix.length)) else none

def startsAtBoundary (before : Text) : Bool := before.isEmpty || before.getLast?.any fun c => !isNameSegmentChar table c

def endsAtBoundary (behind : Text) : Bool := behind.isEmpty || behind.head?.any fun c => !isNameSegmentChar table c

def boundedSuffix (declName qualifiedName : Text) (start : Nat) : Option Text :=
  if startsAtBoundary table (qualifiedName.take start) && endsAtBoundary table (qualifiedName.drop (start + declName.length))
  then some (qualifiedName.drop start) else none

def searchedSuffix (declName qualifiedName : Text) : Option Text :=
  ((matchIndices declName qualifiedName).filterMap (boundedSuffix table declName qualifiedName)).getLast?

def finalSegment (declName qualifiedName : Text) : Option Text := do
  let front ← stripSuffix declName qualifiedName
  if startsAtBoundary table front then some (qualifiedName.drop front.length) else none

def declarationQualifiedSuffix (declName qualifiedName : Text) : Option Text :=
  let declName := trim declName
  let qualifiedName := trim qualifiedName
  if declName.isEmpty || qualifiedName.isEmpty then none
  else (finalSegment table declName qualifiedName).or (searchedSuffix table declName qualifiedName)

-- The function without its shortcut.
def generalQualifiedSuffix (declName qualifiedName : Text) : Option Text :=
  let declName := trim declName
  let qualifiedName := trim qualifiedName
  if declName.isEmpty || qualifiedName.isEmpty then none else searchedSuffix table declName qualifiedName

structure BoundedOccurrence (declName qualifiedName : Text) (start : Nat) : Prop where
  named : declName ≠ []
  found : start ∈ matchIndices declName qualifiedName
  before : startsAtBoundary table (qualifiedName.take start) = true
  behind : endsAtBoundary table (qualifiedName.drop (start + declName.length)) = true

def LastBounded (declName qualifiedName : Text) : Option Text → Prop
  | some suffix => ∃ start, BoundedOccurrence table declName qualifiedName start ∧ suffix = qualifiedName.drop start ∧
      ∀ other, BoundedOccurrence table declName qualifiedName other → other ≤ start
  | none => ∀ start, ¬BoundedOccurrence table declName qualifiedName start

end

variable {table : CharClass}

theorem boundedSuffix_some {declName qualifiedName suffix : Text} {start : Nat} :
    boundedSuffix table declName qualifiedName start = some suffix ↔
      startsAtBoundary table (qualifiedName.take start) = true ∧
        endsAtBoundary table (qualifiedName.drop (start + declName.length)) = true ∧ qualifiedName.drop start = suffix := by
  unfold boundedSuffix
  split
  · next bounded =>
    obtain ⟨before,behind⟩ := Bool.and_eq_true_iff.mp bounded
    constructor
    · intro same
      exact ⟨before,behind,Option.some.inj same⟩
    · intro parts
      exact congrArg some parts.2.2
  · next unbounded =>
    refine ⟨fun same => (nomatch same),fun parts => ?_⟩
    exact absurd (Bool.and_eq_true_iff.mpr ⟨parts.1,parts.2.1⟩) unbounded

theorem boundedSuffix_none {declName qualifiedName : Text} {start : Nat} (named : declName ≠ [])
    (found : start ∈ matchIndices declName qualifiedName) :
    boundedSuffix table declName qualifiedName start = none ↔ ¬BoundedOccurrence table declName qualifiedName start := by
  constructor
  · intro none occurrence
    have some := boundedSuffix_some.mpr ⟨occurrence.before,occurrence.behind,rfl⟩
    rw [none] at some
    exact nomatch some
  · intro unbounded
    refine Option.eq_none_iff_forall_ne_some.mpr fun suffix same => ?_
    obtain ⟨before,behind,_⟩ := boundedSuffix_some.mp same
    exact unbounded ⟨named,found,before,behind⟩

theorem searchedSuffix_answers {declName qualifiedName : Text} (named : declName ≠ []) :
    LastBounded table declName qualifiedName (searchedSuffix table declName qualifiedName) := by
  have sorted : (matchIndices declName qualifiedName).Pairwise (· < ·) := matchIndices_sorted named
  unfold searchedSuffix
  cases last : ((matchIndices declName qualifiedName).filterMap (boundedSuffix table declName qualifiedName)).getLast? with
  | none =>
    intro start occurrence
    have empty := List.getLast?_eq_none_iff.mp last
    have absent := List.filterMap_eq_nil_iff.mp empty start occurrence.found
    exact (boundedSuffix_none named occurrence.found).mp absent occurrence
  | some suffix =>
    obtain ⟨front,split⟩ := List.getLast?_eq_some_iff.mp last
    obtain ⟨before,behind,both,_,final⟩ := List.filterMap_eq_append_iff.mp split
    obtain ⟨skipped,start,rest,parts,_,bounded,after⟩ := List.filterMap_eq_cons_iff.mp final
    have none := List.filterMap_eq_nil_iff.mp after
    obtain ⟨left,right,suffixed⟩ := boundedSuffix_some.mp bounded
    have here : start ∈ matchIndices declName qualifiedName := by
      rw [both,parts]
      simp
    refine ⟨start,⟨named,here,left,right⟩,suffixed.symm,fun other occurrence => ?_⟩
    have member := occurrence.found
    rw [both,parts,← List.append_assoc] at member sorted
    rcases List.mem_append.mp member with early | late
    · exact Nat.le_of_lt ((List.pairwise_append.mp sorted).2.2 other early start (List.mem_cons_self ..))
    · rcases List.mem_cons.mp late with same | later
      · exact Nat.le_of_eq same
      · have absent := none other later
        exact absurd occurrence ((boundedSuffix_none named occurrence.found).mp absent)

theorem LastBounded.unique {declName qualifiedName : Text} {left right : Option Text}
    (one : LastBounded table declName qualifiedName left) (two : LastBounded table declName qualifiedName right) : left = right := by
  cases left with
  | none =>
    cases right with
    | none => rfl
    | some suffix =>
      obtain ⟨start,occurrence,_⟩ := two
      exact absurd occurrence (one start)
  | some suffix =>
    obtain ⟨start,occurrence,rfl,final⟩ := one
    cases right with
    | none => exact absurd occurrence (two start)
    | some other =>
      obtain ⟨stop,elsewhere,rfl,latest⟩ := two
      rw [Nat.le_antisymm (latest start occurrence) (final stop elsewhere)]

theorem stripSuffix_some {suffix text front : Text} : stripSuffix suffix text = some front ↔ text = front ++ suffix := by
  unfold stripSuffix
  split
  · next ends =>
    obtain ⟨before,rfl⟩ := ends
    rw [List.length_append,Nat.add_sub_cancel,List.take_left]
    constructor
    · intro same
      rw [Option.some.inj same]
    · intro same
      rw [List.append_cancel_right same]
  · next none =>
    refine ⟨fun same => (nomatch same),fun same => ?_⟩
    exact absurd (same ▸ List.suffix_append front suffix) none

-- The shortcut answers with the name itself when it ends the qualified name behind a boundary.
theorem finalSegment_some {declName qualifiedName suffix : Text} :
    finalSegment table declName qualifiedName = some suffix ↔
      suffix = declName ∧ ∃ front, qualifiedName = front ++ declName ∧ startsAtBoundary table front = true := by
  unfold finalSegment
  simp only [Option.bind_eq_bind,Option.bind_eq_some_iff]
  constructor
  · intro answered
    obtain ⟨front,stripped,bounded⟩ := answered
    have split := stripSuffix_some.mp stripped
    by_cases boundary : startsAtBoundary table front = true
    · rw [if_pos boundary,split,List.drop_left] at bounded
      exact ⟨(Option.some.inj bounded).symm,front,split,boundary⟩
    · rw [if_neg boundary] at bounded
      exact nomatch bounded
  · intro parts
    obtain ⟨rfl,front,split,boundary⟩ := parts
    refine ⟨front,stripSuffix_some.mpr split,?_⟩
    rw [if_pos boundary,split,List.drop_left]

-- A name at the end is the last bounded occurrence when the scan from the left finds it there.
theorem final_is_last {declName front : Text} (named : declName ≠ []) (boundary : startsAtBoundary table front = true)
    (turns : EndsInTurn declName (front ++ declName)) :
    LastBounded table declName (front ++ declName) (some declName) := by
  have found := (last_occurrence_found named (by simp)).mpr turns
  rw [List.length_append,Nat.add_sub_cancel] at found
  refine ⟨front.length,⟨named,found,?_,?_⟩,List.drop_left.symm,fun other occurrence => ?_⟩
  · rw [List.take_left]
    exact boundary
  · rw [List.drop_eq_nil_of_le (by simp)]
    rfl
  · have long := (matchIndices_occurs named occurrence.found).length_le
    have positive := List.length_pos_of_ne_nil named
    rw [List.length_drop,List.length_append] at long
    omega

theorem final_agrees {declName front : Text} (named : declName ≠ []) (boundary : startsAtBoundary table front = true) :
    searchedSuffix table declName (front ++ declName) = some declName ↔ EndsInTurn declName (front ++ declName) := by
  have answers : LastBounded table declName (front ++ declName) (searchedSuffix table declName (front ++ declName)) :=
    searchedSuffix_answers named
  constructor
  · intro same
    rw [same] at answers
    obtain ⟨start,occurrence,suffix,_⟩ := answers
    have lengths := congrArg List.length suffix
    have positive := List.length_pos_of_ne_nil named
    rw [List.length_drop,List.length_append] at lengths
    have here : start = (front ++ declName).length - declName.length := by
      rw [List.length_append]
      omega
    exact (last_occurrence_found named (by simp)).mp (here ▸ occurrence.found)
  · intro turns
    exact answers.unique (final_is_last named boundary turns)

theorem shortcut_agrees {declName qualifiedName : Text} (named : declName ≠ []) :
    (finalSegment table declName qualifiedName).or (searchedSuffix table declName qualifiedName) =
        searchedSuffix table declName qualifiedName ↔
      ∀ front, qualifiedName = front ++ declName → startsAtBoundary table front = true → EndsInTurn declName qualifiedName := by
  cases shortcut : finalSegment table declName qualifiedName with
  | none =>
    refine iff_of_true Option.none_or fun front split boundary => ?_
    have some := finalSegment_some.mpr ⟨rfl,front,split,boundary⟩
    rw [shortcut] at some
    exact nomatch some
  | some suffix =>
    obtain ⟨rfl,front,rfl,boundary⟩ := finalSegment_some.mp shortcut
    rw [Option.some_or,eq_comm,final_agrees named boundary]
    exact ⟨fun turns _ _ _ => turns,fun turns => turns front rfl boundary⟩

theorem generalQualifiedSuffix_answers (table : CharClass) (declName qualifiedName : Text) :
    LastBounded table (trim declName) (trim qualifiedName) (generalQualifiedSuffix table declName qualifiedName) := by
  unfold generalQualifiedSuffix
  by_cases blank : trim declName = []
  · rw [blank]
    exact fun start occurrence => occurrence.named rfl
  · by_cases missing : trim qualifiedName = []
    · rw [missing]
      simp only [List.isEmpty_nil,Bool.or_true,if_true]
      exact fun start occurrence => absurd occurrence.found List.not_mem_nil
    · have answers : LastBounded table (trim declName) (trim qualifiedName)
          (searchedSuffix table (trim declName) (trim qualifiedName)) := searchedSuffix_answers blank
      simpa [blank,missing] using answers

-- The shortcut is the search exactly where the name at the end is an occurrence of the scan.
theorem declarationQualifiedSuffix_exact (table : CharClass) (declName qualifiedName : Text) :
    (declarationQualifiedSuffix table declName qualifiedName = generalQualifiedSuffix table declName qualifiedName ∧
        LastBounded table (trim declName) (trim qualifiedName) (declarationQualifiedSuffix table declName qualifiedName)) ↔
      ∀ front, trim declName ≠ [] → trim qualifiedName = front ++ trim declName → startsAtBoundary table front = true →
        EndsInTurn (trim declName) (trim qualifiedName) := by
  have answers := generalQualifiedSuffix_answers table declName qualifiedName
  have agrees : declarationQualifiedSuffix table declName qualifiedName = generalQualifiedSuffix table declName qualifiedName ↔
      ∀ front, trim declName ≠ [] → trim qualifiedName = front ++ trim declName → startsAtBoundary table front = true →
        EndsInTurn (trim declName) (trim qualifiedName) := by
    unfold declarationQualifiedSuffix generalQualifiedSuffix
    by_cases blank : trim declName = []
    · simp [blank]
    · by_cases missing : trim qualifiedName = []
      · simp [missing,blank]
      · simpa [blank,missing] using @shortcut_agrees table (trim declName) (trim qualifiedName) blank
  rw [← agrees]
  exact ⟨fun both => both.1,fun same => ⟨same,same.symm ▸ answers⟩⟩

def asciiClass : CharClass where
  isAlphanumeric c := c.toNat < 128 && c.isAlphanum
  ascii c low := by simp [low]
  spaced c space := by
    refine Bool.and_eq_false_imp.mpr fun low => ?_
    have below := of_decide_eq_true low
    simp only [isWhiteSpace,Bool.or_eq_true,Bool.and_eq_true,decide_eq_true_eq,beq_iff_eq] at space
    have shape : c.isAlphanum = ((decide (65 ≤ c.val ∧ c.val ≤ 90) || 97 ≤ c.val && c.val ≤ 122) || 48 ≤ c.val && c.val ≤ 57) := rfl
    simp only [shape,Bool.or_eq_false_iff,Bool.and_eq_false_iff,decide_eq_false_iff_not,not_and_or,UInt32.le_iff_toNat_le]
    have value : c.val.toNat = c.toNat := rfl
    simp [value]
    omega

-- A name that overlaps itself.
theorem overlapping_name_misses : ¬∀ declName qualifiedName : Text,
    declarationQualifiedSuffix asciiClass declName qualifiedName = generalQualifiedSuffix asciiClass declName qualifiedName := by
  intro agrees
  exact absurd (agrees ['a','.','a'] ['a','.','a','.','a']) (by decide)

end BonsaiNinja.Names
