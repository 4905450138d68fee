import BonsaiNinja.Common.NameViews

namespace BonsaiNinja.Callgraph
open Idg Library Names
variable {text : Text}

def bracketed (text : Text) : Bool := text.head? == some '(' && text.getLast? == some ')' && 1 < (utf8 text).length

theorem trim_length_le (text : Text) : (trim text).length ≤ text.length := (trim_within text).length_le

-- Both brackets are one byte wide, so the slice between them is what stands between them.
def peel (text : Text) : Text :=
  if bracketed text then peel (trim text.tail.dropLast) else text
termination_by text.length
decreasing_by
  next outer =>
    have shorter := trim_length_le text.tail.dropLast
    cases text with
    | nil => exact nomatch outer
    | cons c text =>
      rw [List.tail_cons,List.length_dropLast] at shorter
      rw [List.length_cons,List.tail_cons]
      omega

def trimDots (text : Text) : Text := ((text.dropWhile (· == '.')).reverse.dropWhile (· == '.')).reverse

section
variable (table : CharClass)

def isNamePunctuation (c : Char) : Bool := !isNameSegmentChar table c

-- No result stands for a slice inside a character.
def normalizeReceiverAliasText (receiver : Text) : Option Text := do
  let text := peel (trim receiver)
  let normal ← normalizeQualifiedName table (text.dropWhile (isNamePunctuation table))
  return trimDots (trim normal)

def normalizedReceiverAliasMatches (candidate expected : Text) : Option Bool := do
  let text := peel (trim candidate)
  let normalized := trimDots (trim (text.dropWhile (isNamePunctuation table)))
  if normalized = expected then return true
  else
    let normal ← normalizeQualifiedName table normalized
    return normal == expected

end

variable {table : CharClass}

theorem peel_trimmed (trimmed : Trimmed text) : Trimmed (peel text) := by
  fun_induction peel text with
  | case1 text _ ih => exact ih (trimmed_trim _)
  | case2 text _ => exact trimmed

theorem peel_bare (bare : text.head? ≠ some '(') : peel text = text := by
  have open_ : bracketed text = false := by
    rw [bracketed,beq_eq_false_iff_ne.mpr bare,Bool.false_and,Bool.false_and]
  rw [peel,open_]
  rfl

theorem trimmed_of_ends {other : Text} (trimmed : Trimmed other) (first : text.head? = other.head?)
    (last : text.getLast? = other.getLast?) : Trimmed text := by
  constructor
  · intro c rest same
    rw [same,List.head?_cons] at first
    cases other with
    | nil => exact nomatch first
    | cons d others =>
      cases Option.some.inj first
      exact trimmed.first c others rfl
  · intro front c same
    rw [same,List.getLast?_concat] at last
    obtain ⟨before,rfl⟩ := List.getLast?_eq_some_iff.mp last.symm
    exact trimmed.last before c rfl

theorem dots_dropped {dots : Text} (ends : text.getLast? ≠ some '.') (dotted : ∀ c ∈ dots, c = '.') :
    (text ++ dots).reverse.dropWhile (· == '.') = text.reverse := by
  rw [List.reverse_append,List.dropWhile_append_of_pos fun d member => beq_iff_eq.mpr (dotted d (List.mem_reverse.mp member))]
  cases split : text.reverse with
  | nil => rfl
  | cons d before =>
    have last : text.getLast? = some d := by
      rw [← List.head?_reverse,split,List.head?_cons]
    refine List.dropWhile_cons_of_neg fun same => ends ?_
    rw [last,beq_iff_eq.mp same]

theorem trimDots_of {dots : Text} (bare : text.head? ≠ some '.') (ends : text.getLast? ≠ some '.')
    (dotted : ∀ c ∈ dots, c = '.') (nonempty : text ≠ []) : trimDots (text ++ dots) = text := by
  obtain ⟨c,rest,rfl⟩ := List.exists_cons_of_ne_nil nonempty
  have first : ¬(c == '.') = true := fun same => bare (congrArg some (beq_iff_eq.mp same))
  have front : (c :: (rest ++ dots)).dropWhile (· == '.') = c :: (rest ++ dots) := List.dropWhile_cons_of_neg first
  rw [trimDots,List.cons_append,front,← List.cons_append,dots_dropped ends dotted,List.reverse_reverse]

theorem dots_parts (text : Text) : ∃ front dots, text = front ++ dots ∧ front.getLast? ≠ some '.' ∧ ∀ c ∈ dots, c = '.' := by
  refine ⟨(text.reverse.dropWhile (· == '.')).reverse,(text.reverse.takeWhile (· == '.')).reverse,?_,?_,?_⟩
  · rw [← List.reverse_append,List.takeWhile_append_dropWhile,List.reverse_reverse]
  · rw [List.getLast?_reverse]
    intro dot
    have head := List.head?_dropWhile_not (· == '.') text.reverse
    rw [dot] at head
    exact absurd head (by decide)
  · intro c member
    have dot := List.mem_takeWhile_imp (List.mem_reverse.mp member)
    exact beq_iff_eq.mp dot

theorem dot_not_name : isNameSegmentChar table '.' = false := (congrArg _ (table.ascii '.' (by decide))).trans (by decide)

theorem paren_not_name : isNameSegmentChar table '(' = false := bracket_not_name table (.inl rfl)

theorem white_not_name {c : Char} (named : isNameSegmentChar table c = true) : isWhiteSpace c = false := by
  cases white : isWhiteSpace c with
  | false => rfl
  | true =>
    have kind := charKind_name.mpr named
    rw [white_kind white] at kind
    exact nomatch kind

theorem dropWhile_named (text : Text) : text.dropWhile (isNamePunctuation table) = [] ∨
    ∃ c rest, text.dropWhile (isNamePunctuation table) = c :: rest ∧ isNameSegmentChar table c = true := by
  cases left : text.dropWhile (isNamePunctuation table) with
  | nil => exact .inl rfl
  | cons c rest =>
    have head := List.head?_dropWhile_not (isNamePunctuation table) text
    rw [left] at head
    refine .inr ⟨c,rest,rfl,?_⟩
    simpa [isNamePunctuation] using head

-- A candidate below its brackets and leading punctuation: a name, blanks behind it and dots behind those.
structure Core (table : CharClass) (text name blanks dots : Text) : Prop where
  whole : text = name ++ blanks ++ dots
  named : ∃ c rest, name = c :: rest ∧ isNameSegmentChar table c = true
  trimmed : Trimmed name
  white : ∀ c ∈ blanks, isWhiteSpace c = true
  dotted : ∀ c ∈ dots, c = '.'
  bare : (name ++ blanks).getLast? ≠ some '.'
  closed : Trimmed text

theorem exists_core (trimmed : Trimmed text) (named : ∃ c rest, text = c :: rest ∧ isNameSegmentChar table c = true) :
    ∃ name blanks dots, Core table text name blanks dots := by
  obtain ⟨c,rest,rfl,first⟩ := named
  obtain ⟨front,dots,parts,bare,dotted⟩ := dots_parts (c :: rest)
  obtain ⟨lead,trail,surrounded,leads,trails⟩ := trim_parts front
  cases front with
  | nil =>
    have same : c = '.' := dotted c (by rw [List.nil_append] at parts; exact parts ▸ List.mem_cons_self)
    rw [same,dot_not_name] at first
    exact absurd first Bool.false_ne_true
  | cons d front =>
    cases (List.cons.inj parts).1
    have blank := white_not_name first
    have none : lead = [] := by
      cases lead with
      | nil => rfl
      | cons e lead =>
        cases (List.cons.inj surrounded).1
        exact absurd (leads c List.mem_cons_self) (by rw [blank]; exact Bool.false_ne_true)
    subst none
    rw [List.nil_append] at surrounded
    refine ⟨trim (c :: front),trail,dots,by rw [← surrounded]; exact parts,?_,trimmed_trim _,trails,dotted,by rwa [← surrounded],trimmed⟩
    cases held : trim (c :: front) with
    | nil =>
      rw [held,List.nil_append] at surrounded
      exact absurd (trails c (surrounded ▸ List.mem_cons_self)) (by rw [blank]; exact Bool.false_ne_true)
    | cons e others =>
      rw [held] at surrounded
      cases (List.cons.inj surrounded).1
      exact ⟨c,others,rfl,first⟩

theorem normalizeQualifiedName_joined {name : Text} {segments prefixes : List Text} (parts : Segmented table (trim name) segments prefixes) :
    normalizeQualifiedName table name = some (List.intercalate ['.'] segments) := by
  have found : qualifiedNameSegments table name = some segments :=
    (segments_trim table name).symm.trans (parts.views (trimmed_trim name)).1
  rw [normalizeQualifiedName_of found]
  split
  · next few =>
    cases parts with
    | single => rw [List.intercalate_singleton]
    | @more _ _ _ tail segments _ _ owner =>
      have some := List.length_pos_of_ne_nil owner.nonempty
      rw [List.length_append,List.length_singleton] at few
      omega
  · rfl

theorem joined_ends {segments prefixes : List Text} (parts : Segmented table text segments prefixes) :
    (List.intercalate ['.'] segments).head? = text.head? ∧ (List.intercalate ['.'] segments).getLast? = text.getLast? ∧
      (List.intercalate ['.'] segments).length ≤ text.length := by
  induction parts with
  | single =>
    rw [List.intercalate_singleton]
    exact ⟨rfl,rfl,Nat.le_refl _⟩
  | @more text front run tail segments prefixes split owner ih =>
    obtain ⟨first,_,shorter⟩ := ih
    obtain ⟨c,rest,rfl⟩ := List.exists_cons_of_ne_nil split.owner_nonempty
    have wide := List.length_pos_of_ne_nil split.nonempty
    rw [intercalate_concat owner.nonempty,split.parts]
    refine ⟨?_,?_,?_⟩
    · rw [List.append_assoc,List.head?_append,first]
      rfl
    · rw [List.getLast?_append_of_ne_nil _ split.tail_nonempty,List.getLast?_append_of_ne_nil _ split.tail_nonempty]
    · simp only [List.length_append,List.length_singleton] at shorter ⊢
      omega

theorem quiet_plain {mode : Mode} {trail : Text} (plain : ∀ c ∈ trail, charKind table c = .punctuation) : Quiet table mode trail := by
  induction trail generalizing mode with
  | nil => trivial
  | cons c trail ih =>
    refine ⟨fun both => ?_,ih fun d member => plain d (List.mem_cons_of_mem _ member)⟩
    rw [plain c List.mem_cons_self] at both
    exact nomatch both.2

theorem segmented_trailed {trail : Text} {segments prefixes : List Text} (parts : Segmented table text segments prefixes)
    (plain : ∀ c ∈ trail, charKind table c = .punctuation) : ∃ others views, Segmented table (text ++ trail) others views ∧
      List.intercalate ['.'] others = List.intercalate ['.'] segments ++ trail := by
  cases parts with
  | single nonempty quiet =>
    refine ⟨_,_,.single (List.append_ne_nil_of_left_ne_nil nonempty _) (quiet_append.mpr ⟨quiet,quiet_plain plain⟩),?_⟩
    rw [List.intercalate_singleton,List.intercalate_singleton]
  | @more _ front run tail segments prefixes split owner =>
    obtain ⟨c,rest,rfl,named,quiet⟩ := split.segment
    have longer : LastSplit table (text ++ trail) front run (c :: (rest ++ trail)) := by
      refine ⟨by rw [split.parts]; simp,split.owner,split.nonempty,split.plain,⟨c,rest ++ trail,rfl,named,?_⟩⟩
      exact quiet_append.mpr ⟨quiet,quiet_plain plain⟩
    refine ⟨_,_,.more longer owner,?_⟩
    rw [intercalate_concat owner.nonempty,intercalate_concat owner.nonempty]
    simp only [List.append_assoc,List.cons_append]

namespace Core
variable {text name blanks dots : Text}

section
variable (core : Core table text name blanks dots)
include core

theorem head_name (behind : Text) : (name ++ behind).head? = name.head? := by
  obtain ⟨c,rest,rfl,_⟩ := core.named
  rfl

theorem nonempty : name ≠ [] := by
  obtain ⟨c,rest,rfl,_⟩ := core.named
  exact List.cons_ne_nil _ _

theorem plain : ∀ c ∈ blanks ++ dots, charKind table c = .punctuation := by
  intro c member
  rcases List.mem_append.mp member with blank | dot
  · exact white_kind (core.white c blank)
  · rw [core.dotted c dot]
    exact dot_kind

theorem head_ne {c : Char} (other : isNameSegmentChar table c = false) : name.head? ≠ some c := by
  obtain ⟨d,rest,rfl,first⟩ := core.named
  intro same
  cases Option.some.inj same
  exact Bool.false_ne_true (other.symm.trans first)

theorem trim_front : trim (name ++ blanks) = name := by
  have kept := trim_surrounded (fun c member => absurd member List.not_mem_nil) core.trimmed core.white
  rwa [List.nil_append] at kept

theorem borrowed : trimDots (trim text) = name ++ blanks := by
  rw [trim_trimmed core.closed,core.whole]
  refine trimDots_of ?_ core.bare core.dotted (List.append_ne_nil_of_left_ne_nil core.nonempty _)
  rw [core.head_name]
  exact core.head_ne dot_not_name

theorem normal_name : ∃ segments prefixes, Segmented table name segments prefixes ∧
    normalizeQualifiedName table (name ++ blanks) = some (List.intercalate ['.'] segments) ∧
    normalizeQualifiedName table text = some (List.intercalate ['.'] segments ++ (blanks ++ dots)) := by
  obtain ⟨segments,prefixes,parts⟩ := exists_segmented table name core.nonempty
  obtain ⟨others,views,longer,joined⟩ := segmented_trailed parts core.plain
  refine ⟨segments,prefixes,parts,normalizeQualifiedName_joined (by rwa [core.trim_front]),?_⟩
  rw [← joined]
  refine @normalizeQualifiedName_joined table text others views ?_
  rw [trim_trimmed core.closed,core.whole,List.append_assoc]
  exact longer

-- The normalizer keeps the blanks that stood before the dots.
theorem normalized {segments prefixes : List Text} (parts : Segmented table name segments prefixes)
    (normal : normalizeQualifiedName table text = some (List.intercalate ['.'] segments ++ (blanks ++ dots))) :
    (normalizeQualifiedName table text).map (fun normal => trimDots (trim normal)) = some (List.intercalate ['.'] segments ++ blanks) := by
  obtain ⟨first,last,_⟩ := joined_ends parts
  have nonempty : List.intercalate ['.'] segments ≠ [] := by
    intro none
    rw [none,List.head?_nil] at first
    exact core.nonempty (List.head?_eq_none_iff.mp first.symm)
  have leads : ∀ behind : Text, (List.intercalate ['.'] segments ++ behind).head? = name.head? := by
    intro behind
    obtain ⟨c,rest,split⟩ := List.exists_cons_of_ne_nil nonempty
    rw [← first,split]
    rfl
  have closes : ∀ behind : Text, (List.intercalate ['.'] segments ++ behind).getLast? = (name ++ behind).getLast? := by
    intro behind
    rw [List.getLast?_append,List.getLast?_append,last]
  have closed : Trimmed (List.intercalate ['.'] segments ++ (blanks ++ dots)) := by
    refine trimmed_of_ends core.closed ?_ ?_
    · rw [leads,core.whole,List.append_assoc,core.head_name]
    · rw [closes,core.whole,List.append_assoc]
  rw [normal,Option.map_some,trim_trimmed closed,← List.append_assoc]
  refine congrArg some (trimDots_of ?_ ?_ core.dotted (List.append_ne_nil_of_left_ne_nil nonempty _))
  · rw [leads]
    exact core.head_ne dot_not_name
  · rw [closes]
    exact core.bare

end

end Core

inductive Read (table : CharClass) (candidate : Text) : Prop where
  | blank (empty : (peel (trim candidate)).dropWhile (isNamePunctuation table) = [])
      (normal : normalizeReceiverAliasText table candidate = some [])
      (matching : ∀ expected, normalizedReceiverAliasMatches table candidate expected = some (decide (expected = [])))
  | named {name blanks dots : Text} {segments prefixes : List Text}
      (core : Core table ((peel (trim candidate)).dropWhile (isNamePunctuation table)) name blanks dots)
      (parts : Segmented table name segments prefixes)
      (normal : normalizeReceiverAliasText table candidate = some (List.intercalate ['.'] segments ++ blanks))
      (matching : ∀ expected, normalizedReceiverAliasMatches table candidate expected =
        some (decide (name ++ blanks = expected) || decide (List.intercalate ['.'] segments = expected)))

theorem normalizeQualifiedName_nil : normalizeQualifiedName table [] = some [] := by
  obtain ⟨segments,normal,found,normalized,_⟩ := normal_keeps table []
  have none : qualifiedNameSegments table [] = some [] := by
    have quiet : Quiet table .start [] := trivial
    rw [qualifiedNameSegments]
    change segmentsFrom table [] [] = _
    rw [segmentsFrom,qualifiedBoundary_quiet quiet]
    rfl
  rw [normalizeQualifiedName_of none]
  rfl

theorem read (table : CharClass) (candidate : Text) : Read table candidate := by
  rcases dropWhile_named (peel (trim candidate)) with empty | named
  · refine .blank empty ?_ fun expected => ?_
    · rw [normalizeReceiverAliasText,empty,normalizeQualifiedName_nil]
      rfl
    · rw [normalizedReceiverAliasMatches,empty]
      change (if ([] : Text) = expected then some true else _) = _
      split
      · next same => exact congrArg some (decide_eq_true same.symm).symm
      · next differs =>
        rw [show trimDots (trim ([] : Text)) = [] from rfl,normalizeQualifiedName_nil]
        refine congrArg some ?_
        rw [beq_eq_false_iff_ne.mpr differs,decide_eq_false (Ne.symm differs)]
  · have closed : Trimmed ((peel (trim candidate)).dropWhile (isNamePunctuation table)) := by
      have whole := peel_trimmed (trimmed_trim candidate)
      obtain ⟨c,rest,held,first⟩ := named
      constructor
      · intro d others same
        cases (List.cons.inj (held.symm.trans same)).1
        exact white_not_name first
      · intro front d same
        have tail := List.dropWhile_suffix (isNamePunctuation table) (l := peel (trim candidate))
        obtain ⟨lead,parts⟩ := tail
        rw [same,← List.append_assoc] at parts
        exact whole.last _ d parts.symm
    obtain ⟨name,blanks,dots,core⟩ := exists_core closed named
    obtain ⟨segments,prefixes,parts,borrowedNormal,normal⟩ := core.normal_name
    refine .named core parts ?_ fun expected => ?_
    · have result := core.normalized parts normal
      rw [normal,Option.map_some] at result
      rw [normalizeReceiverAliasText,normal]
      exact result
    · rw [normalizedReceiverAliasMatches,core.borrowed]
      change (if name ++ blanks = expected then some true else _) = _
      split
      · next same => rw [decide_eq_true same,Bool.true_or]
      · next differs =>
        rw [borrowedNormal,decide_eq_false differs,Bool.false_or]
        exact congrArg some (beq_eq_decide _ _)

def Agrees (table : CharClass) (candidate : Text) : Prop :=
  (∀ expected, (∃ receiver, normalizeReceiverAliasText table receiver = some expected) →
    (normalizedReceiverAliasMatches table candidate expected = some true ↔ normalizeReceiverAliasText table candidate = some expected)) ∧
  ∃ normal, normalizeReceiverAliasText table candidate = some normal ∧ normalizeReceiverAliasText table normal = some normal

def BlankBeforeDots (text : Text) : Prop :=
  ∃ front blank dots, text = front ++ blank :: dots ∧ isWhiteSpace blank = true ∧ dots ≠ [] ∧ ∀ c ∈ dots, c = '.'

theorem peel_of_name (trimmed : Trimmed text) (named : ∃ c rest, text = c :: rest ∧ isNameSegmentChar table c = true) :
    (peel (trim text)).dropWhile (isNamePunctuation table) = text := by
  obtain ⟨c,rest,rfl,first⟩ := named
  have bare : (c :: rest).head? ≠ some '(' := by
    intro same
    cases Option.some.inj same
    exact Bool.false_ne_true (paren_not_name.symm.trans first)
  rw [trim_trimmed trimmed,peel_bare bare]
  refine List.dropWhile_cons_of_neg ?_
  rw [isNamePunctuation,first]
  exact Bool.false_ne_true

theorem normal_of_joined {name dots : Text} {segments prefixes : List Text} (core : Core table text name [] dots)
    (parts : Segmented table name segments prefixes) :
    normalizeReceiverAliasText table (List.intercalate ['.'] segments) = some (List.intercalate ['.'] segments) ∧
      normalizeQualifiedName table (List.intercalate ['.'] segments) = some (List.intercalate ['.'] segments) := by
  obtain ⟨first,last,_⟩ := joined_ends parts
  have trimmed : Trimmed (List.intercalate ['.'] segments) := trimmed_of_ends core.trimmed first last
  have named : ∃ c rest, List.intercalate ['.'] segments = c :: rest ∧ isNameSegmentChar table c = true := by
    obtain ⟨c,rest,rfl,starts⟩ := core.named
    obtain ⟨others,split⟩ := List.head?_eq_some_iff.mp first
    exact ⟨c,others,split,starts⟩
  have again : normalizeQualifiedName table (List.intercalate ['.'] segments) = some (List.intercalate ['.'] segments) := by
    obtain ⟨others,inner,clean,_⟩ := parts.joined core.trimmed
    exact @normalizeQualifiedName_joined _ _ _ others (by rwa [trim_trimmed clean])
  refine ⟨?_,again⟩
  have bare := core.bare
  rw [List.append_nil] at bare
  have kept := trimDots_of (fun same => core.head_ne dot_not_name (first ▸ same)) (fun same => bare (last ▸ same))
    (fun c member => absurd member List.not_mem_nil) (fun none => by obtain ⟨c,rest,split,_⟩ := named; exact nomatch split.symm.trans none)
  rw [List.append_nil] at kept
  rw [normalizeReceiverAliasText,peel_of_name trimmed named,again]
  change some (trimDots (trim _)) = _
  rw [trim_trimmed trimmed,kept]

theorem normal_shrinks {normal : Text} (result : normalizeReceiverAliasText table text = some normal) :
    normal.length ≤ (trim text).length := by
  have peeled : ∀ other : Text, (peel other).length ≤ other.length := by
    intro other
    fun_induction peel other with
    | case1 other _ ih =>
      have shorter := trim_length_le other.tail.dropLast
      rw [List.length_dropLast,List.length_tail] at shorter
      omega
    | case2 other _ => exact Nat.le_refl _
  cases read table text with
  | blank _ same =>
    cases result.symm.trans same
    exact Nat.zero_le _
  | @named name blanks dots segments prefixes core parts same =>
    cases result.symm.trans same
    have shorter := (joined_ends parts).2.2
    have held := (List.dropWhile_suffix (l := peel (trim text)) (isNamePunctuation table)).length_le
    have whole := congrArg List.length core.whole
    have down := peeled (trim text)
    simp only [List.length_append] at whole ⊢
    omega

theorem blanks_iff {name blanks dots : Text} (core : Core table (text.dropWhile (isNamePunctuation table)) name blanks dots) :
    blanks ≠ [] ↔ BlankBeforeDots text := by
  obtain ⟨lead,parts⟩ := List.dropWhile_suffix (l := text) (isNamePunctuation table)
  have whole : text = (lead ++ (name ++ blanks)) ++ dots := by
    rw [← parts,core.whole]
    simp only [List.append_assoc]
  constructor
  · intro some
    obtain ⟨before,blank,rfl⟩ := (List.eq_nil_or_concat' blanks).resolve_left some
    have white := core.white blank (List.mem_append_right _ List.mem_cons_self)
    refine ⟨lead ++ (name ++ before),blank,dots,by rw [whole]; simp,white,fun none => ?_,core.dotted⟩
    have closed := core.closed.last (name ++ before) blank (by rw [core.whole,none]; simp)
    exact Bool.false_ne_true (closed.symm.trans white)
  · intro found none
    obtain ⟨front,blank,others,split,white,_,dotted⟩ := found
    subst none
    rw [List.append_nil] at whole
    have bare := core.bare
    rw [List.append_nil] at bare
    have left : (lead ++ name).getLast? ≠ some '.' := by
      rw [List.getLast?_append_of_ne_nil _ core.nonempty]
      exact bare
    have right : (front ++ [blank]).getLast? ≠ some '.' := by
      rw [List.getLast?_concat]
      intro same
      cases Option.some.inj same
      exact absurd white (by decide)
    have same : lead ++ name = front ++ [blank] := by
      have first := dots_dropped left core.dotted
      have second := dots_dropped right dotted
      rw [← whole,split,List.append_cons] at first
      exact List.reverse_injective (first.symm.trans second)
    obtain ⟨before,last,rfl⟩ := (List.eq_nil_or_concat' name).resolve_left core.nonempty
    rw [← List.append_assoc] at same
    cases List.singleton_inj.mp (List.append_inj' same rfl).2
    exact Bool.false_ne_true ((core.trimmed.last before blank rfl).symm.trans white)

theorem named_iff : text.dropWhile (isNamePunctuation table) ≠ [] ↔ ∃ c ∈ text, isNameSegmentChar table c = true := by
  rw [Ne,List.dropWhile_eq_nil_iff]
  simp only [isNamePunctuation,not_forall,Bool.not_eq_true',Bool.not_eq_false,exists_prop]

theorem image_keeps {receiver name : Text} (trimmed : Trimmed name) (nonempty : name ≠ [])
    (made : normalizeReceiverAliasText table receiver = some name) : normalizeQualifiedName table name = some name := by
  cases read table receiver with
  | blank _ normal =>
    cases made.symm.trans normal
    exact absurd rfl nonempty
  | @named other blanks dots segments prefixes core parts normal =>
    cases made.symm.trans normal
    rcases List.eq_nil_or_concat' blanks with none | ⟨before,blank,rfl⟩
    · subst none
      rw [List.append_nil]
      exact (normal_of_joined core parts).2
    · have white := core.white blank (List.mem_append_right _ List.mem_cons_self)
      have bare := trimmed.last (List.intercalate ['.'] segments ++ before) blank (by simp)
      exact absurd (bare.symm.trans white) Bool.false_ne_true

-- The comparison is the normalizer's, and the normalizer is idempotent, on exactly the candidates whose last dots no blank stands before.
theorem receiver_aliases_agree (table : CharClass) (candidate : Text) : Agrees table candidate ↔
    ¬((∃ c ∈ peel (trim candidate), isNameSegmentChar table c = true) ∧ BlankBeforeDots (peel (trim candidate))) := by
  rw [← named_iff]
  cases read table candidate with
  | blank empty normal matching =>
    refine iff_of_true ⟨fun expected _ => ?_,[],normal,?_⟩ fun both => both.1 empty
    · rw [matching,normal,Option.some.injEq,decide_eq_true_eq,Option.some.injEq]
      exact eq_comm
    · rw [normalizeReceiverAliasText]
      change (normalizeQualifiedName table ((peel []).dropWhile (isNamePunctuation table))).bind _ = _
      rw [peel_bare (by simp)]
      change (normalizeQualifiedName table []).bind _ = _
      rw [normalizeQualifiedName_nil]
      rfl
  | @named name blanks dots segments prefixes core parts normal matching =>
    rw [← blanks_iff core]
    constructor
    · intro agrees both
      obtain ⟨_,result,first,again⟩ := agrees
      cases first.symm.trans normal
      have shorter := normal_shrinks again
      obtain ⟨starts,last,_⟩ := joined_ends parts
      have trimmed : Trimmed (List.intercalate ['.'] segments) := trimmed_of_ends core.trimmed starts last
      have cut := trim_surrounded (fun c member => absurd member List.not_mem_nil) trimmed core.white
      rw [List.nil_append] at cut
      rw [cut,List.length_append] at shorter
      have wide := List.length_pos_of_ne_nil both.2
      omega
    · intro clean
      have none : blanks = [] := by
        refine not_not.mp fun some => clean ⟨fun empty => ?_,some⟩
        exact core.nonempty (List.append_eq_nil_iff.mp (List.append_eq_nil_iff.mp (core.whole.symm.trans empty)).1).1
      subst none
      rw [List.append_nil] at normal
      have joined := normal_of_joined core parts
      refine ⟨fun expected image => ?_,_,normal,joined.1⟩
      rw [matching,normal,Option.some.injEq,Option.some.injEq,Bool.or_eq_true,decide_eq_true_eq,decide_eq_true_eq,List.append_nil]
      refine ⟨fun either => either.elim (fun same => ?_) id,.inr⟩
      subst same
      obtain ⟨receiver,made⟩ := image
      have kept := image_keeps core.trimmed core.nonempty made
      have here : normalizeQualifiedName table name = some (List.intercalate ['.'] segments) :=
        normalizeQualifiedName_joined (by rwa [trim_trimmed core.trimmed])
      exact Option.some.inj (here.symm.trans kept)

-- `a .` is normalized to `a` with a blank behind it, which is normalized to `a`; the comparison takes `a .` for `a`.
theorem spaced_dot_differs : ¬Agrees asciiClass ['a',' ','.'] ∧
    normalizedReceiverAliasMatches asciiClass ['a',' ','.'] ['a'] = some true ∧
    normalizeReceiverAliasText asciiClass ['a',' ','.'] = some ['a',' '] ∧
    normalizeReceiverAliasText asciiClass ['a'] = some ['a'] ∧ normalizeReceiverAliasText asciiClass ['a',' '] = some ['a'] := by
  have matching : normalizedReceiverAliasMatches asciiClass ['a',' ','.'] ['a'] = some true := by decide +kernel
  have spaced : normalizeReceiverAliasText asciiClass ['a',' ','.'] = some ['a',' '] := by decide +kernel
  have single : normalizeReceiverAliasText asciiClass ['a'] = some ['a'] := by decide +kernel
  have again : normalizeReceiverAliasText asciiClass ['a',' '] = some ['a'] := by decide +kernel
  refine ⟨fun agrees => ?_,matching,spaced,single,again⟩
  have same := (agrees.1 ['a'] ⟨['a'],single⟩).mp matching
  rw [spaced] at same
  exact absurd same (by decide)

end BonsaiNinja.Callgraph
