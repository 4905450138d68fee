import BonsaiNinja.Common.NameBoundary

namespace BonsaiNinja.Names
open Idg Library
variable {text lead trail front run tail : Text} {segments prefixes : List Text}

theorem trim_parts (text : Text) : ∃ lead trail, text = lead ++ trim text ++ trail ∧
    (∀ c ∈ lead, isWhiteSpace c = true) ∧ ∀ c ∈ trail, isWhiteSpace c = true := by
  refine ⟨text.takeWhile isWhiteSpace,((text.dropWhile isWhiteSpace).reverse.takeWhile isWhiteSpace).reverse,?_,?_,?_⟩
  · rw [trim,List.append_assoc,← List.reverse_append,List.takeWhile_append_dropWhile,List.reverse_reverse,
      List.takeWhile_append_dropWhile]
  · intro c member
    exact List.mem_takeWhile_imp member
  · intro c member
    exact List.mem_takeWhile_imp (List.mem_reverse.mp member)

theorem trim_within (text : Text) : trim text <:+: text := by
  obtain ⟨lead,trail,parts,_⟩ := trim_parts text
  exact ⟨lead,trail,parts.symm⟩

section
variable (table : CharClass)

-- In the views none is a slice inside a character.
def shortQualifiedTail (name : Text) : Option Text := do
  match ← qualifiedBoundary table name with
  | none => some name
  | some (_,tailStart) => (splitAtByte name tailStart).map Prod.snd

def nonBlank (owner : Text) : Option Text := if owner.isEmpty then none else some owner

def qualifiedNameOwner (name : Text) : Option (Option Text) := do
  match ← qualifiedBoundary table name with
  | none => some none
  | some (separatorStart,_) => some ((splitAtByte name separatorStart).bind fun halves => nonBlank (trim halves.1))

def pushNonEmpty (segment : Text) (segments : List Text) : List Text := if segment.isEmpty then segments else segment :: segments

theorem owner_shorter {remaining front back : Text} {index : Nat} (split : splitAtByte remaining index = some (front,back))
    (other : trim front ≠ remaining) : (trim front).length < remaining.length := by
  have parts := splitAtByte_halves split
  have inside : trim front <:+: remaining := (trim_within front).trans (parts ▸ (List.prefix_append front back).isInfix)
  exact Nat.lt_of_le_of_ne inside.length_le fun same => other (inside.eq_of_length same)

def segmentsFrom (remaining : Text) (segments : List Text) : Option (List Text) :=
  match qualifiedBoundary table remaining with
  | none => none
  | some none => some (pushNonEmpty remaining segments)
  | some (some (separatorStart,tailStart)) =>
    match splitAtByte remaining tailStart, split : splitAtByte remaining separatorStart with
    | some (_,tail), some (front,_) =>
      let segments := pushNonEmpty (trim tail) segments
      if stop : trim front = [] ∨ trim front = remaining then some (pushNonEmpty remaining segments)
      else segmentsFrom (trim front) segments
    | _, _ => none
termination_by remaining.length
decreasing_by exact owner_shorter split fun same => stop (.inr same)

def qualifiedNameSegments (name : Text) : Option (List Text) := segmentsFrom table (trim name) []

def prefixesFrom (remaining : Text) (prefixes : List Text) : Option (List Text) :=
  match qualifiedBoundary table remaining with
  | none => none
  | some none => some prefixes
  | some (some (separatorStart,_)) =>
    match split : splitAtByte remaining separatorStart with
    | some (front,_) =>
      if stop : trim front = [] ∨ trim front = remaining then some prefixes
      else prefixesFrom (trim front) (trim front :: prefixes)
    | none => none
termination_by remaining.length
decreasing_by exact owner_shorter split fun same => stop (.inr same)

def qualifiedNamePrefixes (name : Text) : Option (List Text) :=
  let remaining := trim name
  if remaining.isEmpty then some [] else prefixesFrom table remaining [remaining]

def normalizeQualifiedName (name : Text) : Option Text := do
  let segments ← qualifiedNameSegments table name
  if segments.length ≤ 1 then some (trim name) else some (List.intercalate ['.'] segments)

end

structure Trimmed (text : Text) : Prop where
  first : ∀ c rest, text = c :: rest → isWhiteSpace c = false
  last : ∀ front c, text = front ++ [c] → isWhiteSpace c = false

theorem dropWhile_trimmed (first : ∀ c rest, text = c :: rest → isWhiteSpace c = false) (behind : Text)
    (nonempty : text ≠ []) : (text ++ behind).dropWhile isWhiteSpace = text ++ behind := by
  obtain ⟨c,rest,rfl⟩ := List.exists_cons_of_ne_nil nonempty
  rw [List.cons_append,List.dropWhile_cons_of_neg (Bool.eq_false_iff.mp (first c rest rfl))]

theorem trim_surrounded (leads : ∀ c ∈ lead, isWhiteSpace c = true) (trimmed : Trimmed text)
    (trails : ∀ c ∈ trail, isWhiteSpace c = true) : trim (lead ++ text ++ trail) = text := by
  by_cases empty : text = []
  · subst empty
    have white : ∀ c ∈ lead ++ [] ++ trail, isWhiteSpace c = true := by
      intro c member
      rw [List.append_nil] at member
      exact (List.mem_append.mp member).elim (leads c) (trails c)
    rw [trim,List.dropWhile_eq_nil_iff.mpr white]
    rfl
  · have back : (trail.reverse ++ text.reverse).dropWhile isWhiteSpace = text.reverse := by
      rw [List.dropWhile_append_of_pos fun c member => trails c (List.mem_reverse.mp member)]
      have first : ∀ c rest, text.reverse = c :: rest → isWhiteSpace c = false := by
        intro c rest same
        refine trimmed.last rest.reverse c ?_
        rw [← List.reverse_reverse text,same,List.reverse_cons]
      have kept := dropWhile_trimmed first [] (fun none => empty (List.reverse_eq_nil_iff.mp none))
      rwa [List.append_nil] at kept
    rw [trim,List.append_assoc,List.dropWhile_append_of_pos leads,dropWhile_trimmed trimmed.first trail empty,List.reverse_append,back,
      List.reverse_reverse]

theorem trim_trimmed (trimmed : Trimmed text) : trim text = text := by
  have none : ∀ c ∈ ([] : Text), isWhiteSpace c = true := fun _ member => absurd member List.not_mem_nil
  have alone := trim_surrounded none trimmed none
  rwa [List.nil_append,List.append_nil] at alone

theorem trimmed_trim (text : Text) : Trimmed (trim text) := by
  have first : ∀ {text : Text} {c : Char} {rest : Text}, text.dropWhile isWhiteSpace = c :: rest → isWhiteSpace c = false := by
    intro text c rest same
    have head := List.head?_dropWhile_not isWhiteSpace text
    rw [same] at head
    exact head
  constructor
  · intro c rest same
    obtain ⟨trail,parts⟩ : ∃ trail, text.dropWhile isWhiteSpace = trim text ++ trail := by
      refine ⟨((text.dropWhile isWhiteSpace).reverse.takeWhile isWhiteSpace).reverse,?_⟩
      rw [trim,← List.reverse_append,List.takeWhile_append_dropWhile,List.reverse_reverse]
    rw [same,List.cons_append] at parts
    exact first parts
  · intro front c same
    have reversed := congrArg List.reverse same
    rw [trim,List.reverse_reverse,List.reverse_append,List.reverse_singleton,List.singleton_append] at reversed
    exact first reversed

theorem Trimmed.between {middle back : Text} (before : Trimmed front) (nonempty : front ≠ []) (behind : Trimmed back)
    (ends : back ≠ []) : Trimmed (front ++ middle ++ back) := by
  constructor
  · intro c rest same
    obtain ⟨d,start,rfl⟩ := List.exists_cons_of_ne_nil nonempty
    rw [List.cons_append,List.cons_append] at same
    exact before.first c start (congrArg (· :: start) (List.cons.inj same).1)
  · intro start c same
    obtain ⟨init,d,rfl⟩ : ∃ init d, back = init ++ [d] := ⟨_,_,(List.dropLast_concat_getLast ends).symm⟩
    rw [← List.append_assoc] at same
    have last := List.append_inj_right' same rfl
    exact behind.last init c (by rw [last])

variable {table : CharClass}

theorem white_kind {c : Char} (white : isWhiteSpace c = true) : charKind table c = .punctuation := by
  have unnamed : isNameSegmentChar table c = false := by
    have other : c ≠ '_' := by
      intro same
      rw [same] at white
      exact absurd white (by decide)
    simp [isNameSegmentChar,other,table.spaced c white]
  have plain : opensBracket c = false ∧ closesBracket c = false := by
    constructor <;> refine Bool.eq_false_iff.mpr fun bracket => ?_
    · simp only [opensBracket,Bool.or_eq_true,beq_iff_eq] at bracket
      rcases bracket with ((rfl | rfl) | rfl) | rfl <;> exact absurd white (by decide)
    · simp only [closesBracket,Bool.or_eq_true,beq_iff_eq] at bracket
      rcases bracket with ((rfl | rfl) | rfl) | rfl <;> exact absurd white (by decide)
  simp [charKind,plain.1,plain.2,unnamed]

theorem run_white (white : ∀ c ∈ lead, isWhiteSpace c = true) : Mode.run table .start lead = .start := by
  induction lead with
  | nil => rfl
  | cons c lead ih =>
    rw [run_cons,white_kind (white c (List.mem_cons_self ..))]
    exact ih fun d member => white d (List.mem_cons_of_mem _ member)

theorem quiet_white {mode : Mode} (white : ∀ c ∈ trail, isWhiteSpace c = true) : Quiet table mode trail := by
  induction trail generalizing mode with
  | nil => trivial
  | cons c trail ih =>
    have kind : charKind table c = .punctuation := white_kind (white c (List.mem_cons_self ..))
    refine ⟨fun joins => ?_,ih fun d member => white d (List.mem_cons_of_mem _ member)⟩
    rw [kind] at joins
    exact nomatch joins.2

theorem quiet_surrounded (leads : ∀ c ∈ lead, isWhiteSpace c = true) (quiet : Quiet table .start text)
    (trails : ∀ c ∈ trail, isWhiteSpace c = true) : Quiet table .start (lead ++ text ++ trail) := by
  rw [quiet_append,quiet_append,run_white leads]
  exact ⟨⟨quiet_white leads,quiet⟩,quiet_white trails⟩

theorem LastSplit.surrounded (leads : ∀ c ∈ lead, isWhiteSpace c = true)
    (split : LastSplit table text front run tail) (trails : ∀ c ∈ trail, isWhiteSpace c = true) :
    LastSplit table (lead ++ text ++ trail) (lead ++ front) run (tail ++ trail) := by
  obtain ⟨rfl,owner,nonempty,plain,c,rest,rfl,name,quiet⟩ := split
  refine ⟨by simp,?_,nonempty,plain,c,rest ++ trail,rfl,name,quiet_append.mpr ⟨quiet,quiet_white trails⟩⟩
  rw [run_append,run_white leads,owner]

theorem named_ends {c : Char} (named : Mode.run table .start (front ++ [c]) = .named) : isWhiteSpace c = false := by
  refine Bool.eq_false_iff.mpr fun white => ?_
  rw [run_append] at named
  change (Mode.run table .start front).step (charKind table c) = .named at named
  rw [white_kind white] at named
  cases mode : Mode.run table .start front <;> rw [mode] at named <;> exact nomatch named

section
variable (split : LastSplit table text front run tail)
include split

theorem LastSplit.owner_nonempty : front ≠ [] := by
  intro empty
  have named := split.owner
  rw [empty] at named
  exact nomatch named

theorem LastSplit.tail_nonempty : tail ≠ [] := by
  obtain ⟨c,rest,rfl,_⟩ := split.segment
  exact List.cons_ne_nil _ _

theorem LastSplit.owner_trimmed (trimmed : Trimmed text) :
    Trimmed front := by
  constructor
  · intro c rest same
    refine trimmed.first c (rest ++ run ++ tail) ?_
    rw [split.parts,same,List.cons_append,List.cons_append]
  · intro start c same
    have named := split.owner
    rw [same] at named
    exact named_ends named

theorem LastSplit.tail_trimmed (trimmed : Trimmed text) :
    Trimmed tail := by
  constructor
  · intro c rest same
    obtain ⟨d,_,begins,name,_⟩ := split.segment
    rw [begins] at same
    rw [← (List.cons.inj same).1]
    refine Bool.eq_false_iff.mpr fun white => ?_
    rw [white_kind white] at name
    exact nomatch name
  · intro start c same
    refine trimmed.last (front ++ run ++ start) c ?_
    rw [split.parts,same]
    simp only [List.append_assoc]

theorem LastSplit.owner_shorter :
    front.length < text.length := by
  have ends := List.length_pos_of_ne_nil split.nonempty
  rw [split.parts,List.length_append,List.length_append]
  omega

end

-- A name taken apart at its boundaries, with its segments and its prefixes from the outermost on.
inductive Segmented (table : CharClass) : Text → List Text → List Text → Prop where
  | single {text : Text} (nonempty : text ≠ []) (quiet : Quiet table .start text) : Segmented table text [text] [text]
  | more {text front run tail : Text} {segments prefixes : List Text} (split : LastSplit table text front run tail)
      (owner : Segmented table front segments prefixes) : Segmented table text (segments ++ [tail]) (prefixes ++ [text])

theorem exists_segmented (table : CharClass) (text : Text) (nonempty : text ≠ []) :
    ∃ segments prefixes, Segmented table text segments prefixes := by
  obtain quiet | ⟨front,run,tail,split⟩ := @quiet_or_split table text
  · exact ⟨_,_,.single nonempty quiet⟩
  · obtain ⟨segments,prefixes,owner⟩ := exists_segmented table front split.owner_nonempty
    exact ⟨_,_,.more split owner⟩
termination_by text.length
decreasing_by exact split.owner_shorter

theorem pushNonEmpty_some {segment : Text} (nonempty : segment ≠ []) (segments : List Text) :
    pushNonEmpty segment segments = segment :: segments := by
  obtain ⟨c,rest,rfl⟩ := List.exists_cons_of_ne_nil nonempty
  rfl

section
variable (split : LastSplit table text front run tail)
include split

theorem LastSplit.at_separator :
    splitAtByte text (utf8 front).length = some (front,run ++ tail) := by
  rw [split.parts,List.append_assoc]
  exact splitAtByte_append front (run ++ tail)

theorem LastSplit.at_tail :
    splitAtByte text (utf8 (front ++ run)).length = some (front ++ run,tail) := by
  rw [split.parts]
  exact splitAtByte_append (front ++ run) tail

theorem LastSplit.owner_stays (trimmed : Trimmed text) :
    ¬(trim front = [] ∨ trim front = text) := by
  rw [trim_trimmed (split.owner_trimmed trimmed)]
  intro stop
  rcases stop with empty | same
  · exact split.owner_nonempty empty
  · exact absurd split.owner_shorter (by rw [same]; exact Nat.lt_irrefl _)

end

theorem segmentsFrom_owner (last : LastSplit table text front run tail)
    (goes : ¬(trim front = [] ∨ trim front = text)) (segments : List Text) :
    segmentsFrom table text segments = segmentsFrom table (trim front) (pushNonEmpty (trim tail) segments) := by
  conv_lhs => rw [segmentsFrom,qualifiedBoundary_split last]
  simp only [last.at_tail]
  split
  · next found same before =>
    rw [last.at_separator] at before
    cases before
    cases same
    rw [dif_neg goes]
  · next other =>
    exact absurd last.at_separator (other _ _ _ _ rfl)

theorem prefixesFrom_owner (last : LastSplit table text front run tail)
    (goes : ¬(trim front = [] ∨ trim front = text)) (prefixes : List Text) :
    prefixesFrom table text prefixes = prefixesFrom table (trim front) (trim front :: prefixes) := by
  conv_lhs => rw [prefixesFrom,qualifiedBoundary_split last]
  simp only
  split
  · next before =>
    rw [last.at_separator] at before
    cases before
    rw [dif_neg goes]
  · next none =>
    rw [last.at_separator] at none
    exact nomatch none

section
variable (parts : Segmented table text segments prefixes)
include parts

theorem Segmented.segmentsFrom
    (trimmed : Trimmed text) (later : List Text) : segmentsFrom table text later = some (segments ++ later) := by
  induction parts generalizing later with
  | @single text nonempty quiet =>
    rw [Names.segmentsFrom,qualifiedBoundary_quiet quiet]
    exact congrArg some (pushNonEmpty_some nonempty later)
  | @more text front run tail segments prefixes split owner ih =>
    have inner := ih (split.owner_trimmed trimmed) (tail :: later)
    rw [segmentsFrom_owner split (split.owner_stays trimmed),trim_trimmed (split.owner_trimmed trimmed),trim_trimmed (split.tail_trimmed trimmed),
      pushNonEmpty_some split.tail_nonempty,inner,List.append_assoc]
    rfl

theorem Segmented.prefixesFrom
    (trimmed : Trimmed text) (later : List Text) : prefixesFrom table text (text :: later) = some (prefixes ++ later) := by
  induction parts generalizing later with
  | @single text nonempty quiet =>
    rw [Names.prefixesFrom,qualifiedBoundary_quiet quiet]
    rfl
  | @more text front run tail segments prefixes split owner ih =>
    have inner := ih (split.owner_trimmed trimmed) (text :: later)
    rw [prefixesFrom_owner split (split.owner_stays trimmed),trim_trimmed (split.owner_trimmed trimmed),inner,List.append_assoc]
    rfl

theorem Segmented.lengths :
    segments.length = prefixes.length := by
  induction parts with
  | single => rfl
  | more split owner ih => rw [List.length_append,List.length_append,ih,List.length_singleton,List.length_singleton]

theorem Segmented.prefixes_end :
    ∃ before, prefixes = before ++ [text] := by
  cases parts with
  | single => exact ⟨[],rfl⟩
  | @more _ front run tail segments before split owner => exact ⟨before,rfl⟩

end

def Grows (short long : Text) : Prop := short <+: long ∧ short.length < long.length

theorem Grows.trans {first second third : Text} (one : Grows first second) (two : Grows second third) : Grows first third :=
  ⟨one.1.trans two.1,Nat.lt_trans one.2 two.2⟩

theorem LastSplit.grows (split : LastSplit table text front run tail) : Grows front text := by
  refine ⟨⟨run ++ tail,?_⟩,split.owner_shorter⟩
  rw [split.parts,List.append_assoc]

section
variable (parts : Segmented table text segments prefixes)
include parts

theorem Segmented.grows :
    prefixes.Pairwise Grows ∧ ∀ owner ∈ prefixes, owner = text ∨ Grows owner text := by
  induction parts with
  | single => exact ⟨List.pairwise_singleton _ _,fun owner member => .inl (List.mem_singleton.mp member)⟩
  | more split owner ih =>
    obtain ⟨pairs,inside⟩ := ih
    have below := fun before member => (inside before member).elim (fun same => same ▸ split.grows) fun grows => grows.trans split.grows
    refine ⟨List.pairwise_append.mpr ⟨pairs,List.pairwise_singleton _ _,?_⟩,?_⟩
    · intro before member last same
      rw [List.mem_singleton.mp same]
      exact below before member
    · intro before member
      rcases List.mem_append.mp member with inner | last
      · exact .inr (below before inner)
      · exact .inl (List.mem_singleton.mp last)

theorem Segmented.prefix_segments
    (trimmed : Trimmed text) {index : Nat} {owner : Text} (here : prefixes[index]? = some owner) :
    Trimmed owner ∧ ∃ shorter, Segmented table owner (segments.take (index + 1)) shorter := by
  induction parts with
  | @single text nonempty quiet =>
    cases index with
    | zero =>
      cases here
      exact ⟨trimmed,_,.single nonempty quiet⟩
    | succ index => exact nomatch here
  | @more text front run tail segments prefixes split inner ih =>
    rcases Nat.lt_or_ge index prefixes.length with below | beyond
    · rw [List.getElem?_append_left below] at here
      obtain ⟨clean,shorter,parts⟩ := ih (split.owner_trimmed trimmed) here
      rw [List.take_append_of_le_length (by rw [inner.lengths]; exact below)]
      exact ⟨clean,shorter,parts⟩
    · obtain ⟨rfl⟩ : index = prefixes.length := by
        have inside := (List.getElem?_eq_some_iff.mp here).1
        rw [List.length_append,List.length_singleton] at inside
        omega
      rw [List.getElem?_concat_length] at here
      cases here
      rw [List.take_of_length_le (by rw [List.length_append,List.length_singleton,inner.lengths])]
      exact ⟨trimmed,_,.more split inner⟩

theorem Segmented.tail_view
    (trimmed : Trimmed text) : ∃ tail, shortQualifiedTail table text = some tail ∧ segments.getLast? = some (trim tail) := by
  unfold shortQualifiedTail
  cases parts with
  | single nonempty quiet =>
    rw [qualifiedBoundary_quiet quiet]
    exact ⟨text,rfl,by rw [trim_trimmed trimmed]; rfl⟩
  | @more _ front run tail segments prefixes split owner =>
    rw [qualifiedBoundary_split split]
    refine ⟨tail,?_,?_⟩
    · change (splitAtByte text (utf8 (front ++ run)).length).map Prod.snd = some tail
      rw [split.at_tail]
      rfl
    · rw [trim_trimmed (split.tail_trimmed trimmed),List.getLast?_concat]

-- The owner view sees the second prefix from the end, with white space around the name or without.
theorem Segmented.owner_view
    (trimmed : Trimmed text) (leads : ∀ c ∈ lead, isWhiteSpace c = true)
    (trails : ∀ c ∈ trail, isWhiteSpace c = true) :
    qualifiedNameOwner table (lead ++ text ++ trail) = some prefixes.dropLast.getLast? := by
  unfold qualifiedNameOwner
  cases parts with
  | single nonempty quiet =>
    rw [qualifiedBoundary_quiet (quiet_surrounded leads quiet trails)]
    rfl
  | @more _ front run tail segments prefixes split owner =>
    have moved := split.surrounded leads trails
    have none : ∀ c ∈ ([] : Text), isWhiteSpace c = true := fun _ member => absurd member List.not_mem_nil
    have clean := trim_surrounded leads (split.owner_trimmed trimmed) none
    obtain ⟨before,ends⟩ := owner.prefixes_end
    obtain ⟨c,rest,begins⟩ := List.exists_cons_of_ne_nil split.owner_nonempty
    rw [List.append_nil] at clean
    rw [qualifiedBoundary_split moved,List.dropLast_concat,ends,List.getLast?_concat]
    change some ((splitAtByte _ (utf8 (lead ++ front)).length).bind fun halves => nonBlank (trim halves.1)) = _
    rw [moved.at_separator,Option.bind_some,clean,begins]
    rfl

theorem Segmented.nonempty :
    segments ≠ [] := by
  cases parts with
  | single => exact List.cons_ne_nil _ _
  | more split owner => exact List.append_ne_nil_of_right_ne_nil _ (List.cons_ne_nil _ _)

end

theorem intercalate_concat (nonempty : segments ≠ []) (separator tail : Text) :
    List.intercalate separator (segments ++ [tail]) = List.intercalate separator segments ++ separator ++ tail := by
  induction segments with
  | nil => exact absurd rfl nonempty
  | cons segment segments ih =>
    cases segments with
    | nil => simp
    | cons second segments =>
      have inner := ih (List.cons_ne_nil _ _)
      rw [List.cons_append,List.intercalate_cons_of_ne_nil (by simp),inner,List.intercalate_cons_cons]
      simp only [List.append_assoc]

theorem dot_kind : charKind table '.' = .punctuation := by
  have unnamed : isNameSegmentChar table '.' = false :=
    (congrArg _ (table.ascii '.' (by decide))).trans (by decide)
  rw [charKind,unnamed]
  rfl

theorem Segmented.joined (parts : Segmented table text segments prefixes)
    (trimmed : Trimmed text) : ∃ others, Segmented table (List.intercalate ['.'] segments) segments others ∧
      Trimmed (List.intercalate ['.'] segments) ∧
      Mode.run table .start (List.intercalate ['.'] segments) = Mode.run table .start text := by
  induction parts with
  | @single text nonempty quiet =>
    rw [List.intercalate_singleton]
    exact ⟨_,.single nonempty quiet,trimmed,rfl⟩
  | @more text front run tail segments prefixes split owner ih =>
    obtain ⟨others,inner,clean,mode⟩ := ih (split.owner_trimmed trimmed)
    have gap := split.at_gap
    have same : LastSplit table (List.intercalate ['.'] segments ++ ['.'] ++ tail) (List.intercalate ['.'] segments) ['.'] tail := by
      refine ⟨rfl,mode.trans split.owner,List.cons_ne_nil _ _,fun c member => ?_,split.segment⟩
      rw [List.mem_singleton.mp member]
      exact .inl dot_kind
    rw [intercalate_concat owner.nonempty]
    refine ⟨_,.more same inner,clean.between same.owner_nonempty (split.tail_trimmed trimmed) split.tail_nonempty,?_⟩
    rw [run_append,same.at_gap,split.parts,run_append,gap]

theorem segments_trim (table : CharClass) (name : Text) :
    qualifiedNameSegments table (trim name) = qualifiedNameSegments table name := by
  rw [qualifiedNameSegments,qualifiedNameSegments,trim_trimmed (trimmed_trim name)]

theorem Segmented.views (parts : Segmented table text segments prefixes)
    (trimmed : Trimmed text) :
    qualifiedNameSegments table text = some segments ∧ qualifiedNamePrefixes table text = some prefixes := by
  obtain ⟨before,ends⟩ := parts.prefixes_end
  have nonempty : text.isEmpty = false := by
    have first := parts
    cases text with
    | cons => rfl
    | nil =>
      cases first with
      | single nonempty => exact absurd rfl nonempty
      | more split owner => exact absurd split.owner_shorter (Nat.not_lt_zero _)
  constructor
  · rw [qualifiedNameSegments,trim_trimmed trimmed,parts.segmentsFrom trimmed,List.append_nil]
  · simp only [qualifiedNamePrefixes,trim_trimmed trimmed,nonempty,Bool.false_eq_true,if_false]
    rw [parts.prefixesFrom trimmed,List.append_nil]

-- What the views of a name that is not blank say about each other.
structure CoherentViews (table : CharClass) (name : Text) (segments prefixes : List Text) : Prop where
  lengths : segments.length = prefixes.length
  grows : prefixes.Pairwise Grows
  whole : prefixes.getLast? = some (trim name)
  shorter : ∀ (index : Nat) (owner : Text), prefixes[index]? = some owner →
    qualifiedNameSegments table owner = some (segments.take (index + 1))
  tail : ∃ tail, shortQualifiedTail table (trim name) = some tail ∧ segments.getLast? = some (trim tail)
  owner : qualifiedNameOwner table name = some prefixes.dropLast.getLast?
  trimmedOwner : qualifiedNameOwner table (trim name) = some prefixes.dropLast.getLast?

theorem Segmented.coherent {name : Text} (parts : Segmented table (trim name) segments prefixes) :
    CoherentViews table name segments prefixes := by
  have trimmed := trimmed_trim name
  have none : ∀ c ∈ ([] : Text), isWhiteSpace c = true := fun _ member => absurd member List.not_mem_nil
  obtain ⟨lead,trail,surrounded,leads,trails⟩ := trim_parts name
  refine ⟨parts.lengths,parts.grows.1,?_,?_,parts.tail_view trimmed,?_,?_⟩
  · obtain ⟨before,ends⟩ := parts.prefixes_end
    rw [ends,List.getLast?_concat]
  · intro index owner here
    obtain ⟨clean,_,inner⟩ := parts.prefix_segments trimmed here
    exact (inner.views clean).1
  · have view := parts.owner_view trimmed leads trails
    rwa [← surrounded] at view
  · have view := parts.owner_view trimmed none none
    rwa [List.nil_append,List.append_nil] at view

theorem normalizeQualifiedName_of {name : Text} (found : qualifiedNameSegments table name = some segments) :
    normalizeQualifiedName table name =
      some (if segments.length ≤ 1 then trim name else List.intercalate ['.'] segments) := by
  rw [normalizeQualifiedName,found]
  change (if segments.length ≤ 1 then some (trim name) else some (List.intercalate ['.'] segments)) = _
  split <;> rfl

theorem normal_keeps (table : CharClass) (name : Text) : ∃ segments normal, qualifiedNameSegments table name = some segments ∧
    normalizeQualifiedName table name = some normal ∧ qualifiedNameSegments table normal = some segments ∧
    normalizeQualifiedName table normal = some normal := by
  by_cases blank : trim name = []
  · have none : qualifiedNameSegments table name = some [] := by
      have quiet : Quiet table .start [] := trivial
      rw [qualifiedNameSegments,blank,segmentsFrom,qualifiedBoundary_quiet quiet]
      rfl
    have again : qualifiedNameSegments table (trim name) = some [] := (segments_trim table name).trans none
    refine ⟨[],trim name,none,normalizeQualifiedName_of none,again,?_⟩
    rw [normalizeQualifiedName_of again,trim_trimmed (trimmed_trim name)]
    rfl
  · obtain ⟨segments,prefixes,parts⟩ := exists_segmented table (trim name) blank
    have trimmed := trimmed_trim name
    have found : qualifiedNameSegments table name = some segments := (segments_trim table name).symm.trans (parts.views trimmed).1
    rcases Nat.lt_or_ge 1 segments.length with several | few
    · obtain ⟨others,inner,clean,_⟩ := parts.joined trimmed
      have again := (inner.views clean).1
      refine ⟨segments,List.intercalate ['.'] segments,found,?_,again,?_⟩
      · rw [normalizeQualifiedName_of found,if_neg (Nat.not_le.mpr several)]
      · rw [normalizeQualifiedName_of again,if_neg (Nat.not_le.mpr several)]
    · have again := (parts.views trimmed).1
      refine ⟨segments,trim name,found,?_,again,?_⟩
      · rw [normalizeQualifiedName_of found,if_pos few]
      · rw [normalizeQualifiedName_of again,if_pos few,trim_trimmed trimmed]

theorem qualified_views_coherent (table : CharClass) (name : Text) : ∃ segments prefixes normal,
    qualifiedNameSegments table name = some segments ∧ qualifiedNamePrefixes table name = some prefixes ∧
    normalizeQualifiedName table name = some normal ∧
    (trim name ≠ [] → CoherentViews table name segments prefixes) ∧
    qualifiedNameSegments table normal = some segments ∧ normalizeQualifiedName table normal = some normal := by
  obtain ⟨segments,normal,found,normalized,same,again⟩ := normal_keeps table name
  by_cases blank : trim name = []
  · have none : qualifiedNamePrefixes table name = some [] := by
      rw [qualifiedNamePrefixes,blank]
      rfl
    exact ⟨segments,[],normal,found,none,normalized,fun named => absurd blank named,same,again⟩
  · obtain ⟨others,prefixes,parts⟩ := exists_segmented table (trim name) blank
    have trimmed := trimmed_trim name
    have equal : others = segments :=
      Option.some.inj ((parts.views trimmed).1.symm.trans ((segments_trim table name).trans found))
    have owners : qualifiedNamePrefixes table name = some prefixes := by
      have view := (parts.views trimmed).2
      rwa [qualifiedNamePrefixes,trim_trimmed trimmed] at view
    exact ⟨segments,prefixes,normal,found,owners,normalized,fun _ => equal ▸ parts.coherent,same,again⟩

end BonsaiNinja.Names
