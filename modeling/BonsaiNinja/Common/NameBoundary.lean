import BonsaiNinja.Common.QualifiedNames
import BonsaiNinja.Library.CharBoundaries

namespace BonsaiNinja.Names
open Idg Library
variable {c : Char}
variable {mode : Mode}
variable {scan : BoundaryScan}

section
variable (table : CharClass)

def charIndices : Text → Nat → List (Nat × Char)
  | [], _ => []
  | c :: text, index => (index,c) :: charIndices text (index + (String.utf8EncodeChar c).length)

structure BoundaryScan where
  depth : Nat
  punctuationStart : Option Nat
  lastBoundary : Option (Nat × Nat)
  previousWasName : Bool
  deriving DecidableEq

def opensBracket (c : Char) : Bool := c == '(' || c == '[' || c == '{' || c == '<'

def closesBracket (c : Char) : Bool := c == ')' || c == ']' || c == '}' || c == '>'

def deeper (depth : Nat) : Nat := min (depth + 1) (2 ^ 32 - 1)

def nameBefore (name : Text) (start : Nat) : Option Bool :=
  (splitAtByte name start).map fun halves => halves.1.getLast?.any (isNameSegmentChar table)

def BoundaryScan.step (name : Text) (scan : BoundaryScan) (entry : Nat × Char) : Option BoundaryScan :=
  let (index,c) := entry
  if opensBracket c then
    some {scan with depth := deeper scan.depth, punctuationStart := none, previousWasName := false}
  else if closesBracket c && 0 < scan.depth then
    some {scan with depth := scan.depth - 1, punctuationStart := none, previousWasName := scan.depth - 1 == 0}
  else if scan.depth == 0 && isNameSegmentChar table c then
    match scan.punctuationStart with
    | none => some {scan with previousWasName := true}
    | some start => do
      let named ← if scan.previousWasName then some true else nameBefore table name start
      some {scan with
        punctuationStart := none, previousWasName := true,
        lastBoundary := if named then some (start,index) else scan.lastBoundary}
  else if scan.depth == 0 then
    some {scan with punctuationStart := some (scan.punctuationStart.getD index)}
  else some scan

def BoundaryScan.initial : BoundaryScan := ⟨0,none,none,false⟩

def qualifiedBoundary (name : Text) : Option (Option (Nat × Nat)) :=
  ((charIndices name 0).foldlM (BoundaryScan.step table name) .initial).map BoundaryScan.lastBoundary

inductive CharKind where
  | opening | closing | name | punctuation
  deriving DecidableEq

def charKind (c : Char) : CharKind :=
  if opensBracket c then .opening else if closesBracket c then .closing else if isNameSegmentChar table c then .name else .punctuation

-- Where a scan stands: before the first name, in brackets, behind a name, or behind the
-- punctuation that follows one.
inductive Mode where
  | start
  | within (depth : Nat)
  | named
  | gap
  deriving DecidableEq

def Mode.step : Mode → CharKind → Mode
  | .within depth, .opening => .within (deeper depth)
  | .within depth, .closing => if depth - 1 = 0 then .named else .within (depth - 1)
  | .within depth, _ => .within depth
  | _, .opening => .within 1
  | _, .name => .named
  | .start, _ => .start
  | _, _ => .gap

def Mode.run (mode : Mode) (text : Text) : Mode := text.foldl (fun mode c => mode.step (charKind table c)) mode

def Quiet : Mode → Text → Prop
  | _, [] => True
  | mode, c :: text => ¬(mode = .gap ∧ charKind table c = .name) ∧ Quiet (mode.step (charKind table c)) text

structure LastSplit (text front run tail : Text) : Prop where
  parts : text = front ++ run ++ tail
  owner : Mode.run table .start front = .named
  nonempty : run ≠ []
  plain : ∀ c ∈ run, charKind table c = .punctuation ∨ charKind table c = .closing
  segment : ∃ c rest, tail = c :: rest ∧ charKind table c = .name ∧ Quiet table .named rest

end

variable {table : CharClass}

theorem run_append (mode : Mode) (front back : Text) :
    mode.run table (front ++ back) = (mode.run table front).run table back := List.foldl_append

theorem run_cons (mode : Mode) (c : Char) (text : Text) :
    mode.run table (c :: text) = (mode.step (charKind table c)).run table text := rfl

theorem quiet_append {front back : Text} :
    Quiet table mode (front ++ back) ↔ Quiet table mode front ∧ Quiet table (mode.run table front) back := by
  induction front generalizing mode with
  | nil => exact ⟨fun quiet => ⟨trivial,quiet⟩,fun both => both.2⟩
  | cons c front ih =>
    rw [List.cons_append,Quiet,Quiet,ih,run_cons,and_assoc]

theorem run_plain {run : Text} (behind : mode = .named ∨ mode = .gap) (nonempty : run ≠ [])
    (plain : ∀ c ∈ run, charKind table c = .punctuation ∨ charKind table c = .closing) : mode.run table run = .gap := by
  have steps : ∀ {mode : Mode} {kind : CharKind}, mode = .named ∨ mode = .gap → kind = .punctuation ∨ kind = .closing →
      mode.step kind = .gap := by
    intro mode kind at_ is
    rcases at_ with rfl | rfl <;> rcases is with rfl | rfl <;> rfl
  induction run generalizing mode with
  | nil => exact absurd rfl nonempty
  | cons c run ih =>
    have here := steps behind (plain c (List.mem_cons_self ..))
    rw [run_cons,here]
    cases run with
    | nil => rfl
    | cons d run => exact ih (.inr rfl) (List.cons_ne_nil _ _) fun e member => plain e (List.mem_cons_of_mem _ member)

theorem LastSplit.at_gap {text front run tail : Text} (split : LastSplit table text front run tail) :
    Mode.run table .start (front ++ run) = .gap := by
  rw [run_append,split.owner]
  exact run_plain (.inl rfl) split.nonempty split.plain

theorem gap_parts {text : Text} (gap : Mode.run table .start text = .gap) :
    ∃ front run, text = front ++ run ∧ Mode.run table .start front = .named ∧ run ≠ [] ∧
      ∀ c ∈ run, charKind table c = .punctuation ∨ charKind table c = .closing := by
  induction text using List.reverseRecOn with
  | nil => exact nomatch gap
  | append_singleton text c ih =>
    have single : ∀ kind, charKind table c = kind → (kind = .punctuation ∨ kind = .closing) →
        ∀ d ∈ [c], charKind table d = .punctuation ∨ charKind table d = .closing := by
      intro kind same is d member
      rw [List.mem_singleton.mp member,same]
      exact is
    rw [run_append] at gap
    change (Mode.run table .start text).step (charKind table c) = .gap at gap
    have kinds : charKind table c = .punctuation ∨ charKind table c = .closing := by
      cases kind : charKind table c with
      | opening | name => cases mode : Mode.run table .start text <;> rw [mode,kind] at gap <;> exact nomatch gap
      | closing => exact .inr rfl
      | punctuation => exact .inl rfl
    cases mode : Mode.run table .start text with
    | start => rcases kinds with kind | kind <;> rw [mode,kind] at gap <;> exact nomatch gap
    | within depth =>
      rw [mode] at gap
      rcases kinds with kind | kind <;> rw [kind] at gap <;> simp only [Mode.step] at gap
      · exact nomatch gap
      · split at gap <;> exact nomatch gap
    | named => exact ⟨text,[c],rfl,mode,List.cons_ne_nil _ _,single _ rfl kinds⟩
    | gap =>
      obtain ⟨front,run,rfl,owner,_,plain⟩ := ih mode
      refine ⟨front,run ++ [c],List.append_assoc ..,owner,by simp,?_⟩
      intro d member
      rcases List.mem_append.mp member with old | last
      · exact plain d old
      · exact single _ rfl kinds d last

theorem quiet_or_split (text : Text) : Quiet table .start text ∨ ∃ front run tail, LastSplit table text front run tail := by
  induction text using List.reverseRecOn with
  | nil => exact .inl trivial
  | append_singleton text c ih =>
    by_cases joins : Mode.run table .start text = .gap ∧ charKind table c = .name
    · obtain ⟨front,run,rfl,owner,nonempty,plain⟩ := gap_parts joins.1
      exact .inr ⟨front,run,[c],rfl,owner,nonempty,plain,c,[],rfl,joins.2,trivial⟩
    · cases ih with
      | inl quiet => exact .inl (quiet_append.mpr ⟨quiet,joins,trivial⟩)
      | inr found =>
        obtain ⟨front,run,tail,split⟩ := found
        have gap := split.at_gap
        obtain ⟨parts,owner,nonempty,plain,d,rest,rfl,name,quiet⟩ := split
        refine .inr ⟨front,run,d :: rest ++ [c],by rw [parts,List.append_assoc],owner,nonempty,plain,d,rest ++ [c],rfl,name,?_⟩
        have mode : Mode.run table .start text = Mode.named.run table rest := by
          rw [parts,run_append,gap,run_cons,name]
          rfl
        rw [mode] at joins
        exact quiet_append.mpr ⟨quiet,joins,trivial⟩

theorem bracket_not_name (table : CharClass) (bracket : opensBracket c = true ∨ closesBracket c = true) :
    isNameSegmentChar table c = false := by
  have cases : c = '(' ∨ c = '[' ∨ c = '{' ∨ c = '<' ∨ c = ')' ∨ c = ']' ∨ c = '}' ∨ c = '>' := by
    simp only [opensBracket,closesBracket,Bool.or_eq_true,beq_iff_eq] at bracket
    tauto
  rcases cases with rfl | rfl | rfl | rfl | rfl | rfl | rfl | rfl <;>
    exact (congrArg _ (table.ascii _ (by decide))).trans (by decide)

theorem charKind_opening : charKind table c = .opening ↔ opensBracket c = true := by
  cases bracket : opensBracket c <;> cases close : closesBracket c <;> cases name : isNameSegmentChar table c <;>
    simp [charKind,bracket,close,name]

theorem charKind_closing : charKind table c = .closing ↔ opensBracket c = false ∧ closesBracket c = true := by
  cases bracket : opensBracket c <;> cases close : closesBracket c <;> cases name : isNameSegmentChar table c <;>
    simp [charKind,bracket,close,name]

theorem charKind_name : charKind table c = .name ↔ isNameSegmentChar table c = true := by
  cases bracket : opensBracket c with
  | true => simp [charKind,bracket,bracket_not_name table (.inl bracket)]
  | false =>
    cases close : closesBracket c with
    | true => simp [charKind,bracket,close,bracket_not_name table (.inr close)]
    | false => cases name : isNameSegmentChar table c <;> simp [charKind,bracket,close,name]

theorem bare_of_kind (kind : charKind table c ≠ .opening) : opensBracket c = false :=
  Bool.eq_false_iff.mpr (mt charKind_opening.mpr kind)

theorem bare_of_name (kind : charKind table c = .name) : opensBracket c = false :=
  bare_of_kind (kind.trans_ne nofun)

def BoundaryScan.Stands (scan : BoundaryScan) (index : Nat) : Mode → Prop
  | .start => scan.depth = 0 ∧ scan.previousWasName = false ∧
      (scan.punctuationStart = none ∧ index = 0 ∨ scan.punctuationStart = some 0)
  | .within depth => scan.depth = depth ∧ 0 < depth ∧ scan.punctuationStart = none
  | .named => scan.depth = 0 ∧ scan.previousWasName = true ∧ scan.punctuationStart = none
  | .gap => scan.depth = 0 ∧ scan.previousWasName = true ∧ scan.punctuationStart.isSome

section
variable {name : Text} {scan : BoundaryScan} {index : Nat} {c : Char}

theorem step_opening (kind : charKind table c = .opening) : scan.step table name (index,c) =
    some {scan with depth := deeper scan.depth, punctuationStart := none, previousWasName := false} := by
  rw [BoundaryScan.step,if_pos (charKind_opening.mp kind)]

theorem step_closing (kind : charKind table c = .closing) (deep : 0 < scan.depth) : scan.step table name (index,c) =
    some {scan with depth := scan.depth - 1, punctuationStart := none, previousWasName := scan.depth - 1 == 0} := by
  obtain ⟨bare,closes⟩ := charKind_closing.mp kind
  simp [BoundaryScan.step,bare,closes,deep]

theorem step_inside (kind : charKind table c = .name ∨ charKind table c = .punctuation) (deep : 0 < scan.depth) :
    scan.step table name (index,c) = some scan := by
  have bare : opensBracket c = false := bare_of_kind fun (opening : charKind table c = .opening) => by simp [opening] at kind
  have unclosed : closesBracket c = false := by
    refine Bool.eq_false_iff.mpr fun closes => ?_
    have closing : charKind table c = .closing := charKind_closing.mpr ⟨bare,closes⟩
    simp [closing] at kind
  simp [BoundaryScan.step,bare,unclosed,Nat.ne_of_gt deep]

theorem step_plain (kind : charKind table c = .punctuation ∨ charKind table c = .closing) (flat : scan.depth = 0) :
    scan.step table name (index,c) = some {scan with punctuationStart := some (scan.punctuationStart.getD index)} := by
  have bare : opensBracket c = false := bare_of_kind fun (opening : charKind table c = .opening) => by simp [opening] at kind
  have unnamed : isNameSegmentChar table c = false := by
    refine Bool.eq_false_iff.mpr fun named => ?_
    have same : charKind table c = .name := charKind_name.mpr named
    simp [same] at kind
  simp [BoundaryScan.step,bare,unnamed,flat]

theorem step_name_closed (kind : charKind table c = .name) (flat : scan.depth = 0) (closed : scan.punctuationStart = none) :
    scan.step table name (index,c) = some {scan with previousWasName := true} := by
  simp [BoundaryScan.step,bare_of_name kind,charKind_name.mp kind,flat,closed]

theorem step_name_joins {start : Nat} (kind : charKind table c = .name) (flat : scan.depth = 0)
    (opened : scan.punctuationStart = some start) (behind : scan.previousWasName = true) : scan.step table name (index,c) =
      some {scan with punctuationStart := none, previousWasName := true, lastBoundary := some (start,index)} := by
  simp [BoundaryScan.step,bare_of_name kind,charKind_name.mp kind,flat,opened,behind]

-- The first name behind punctuation looks at what stands before position 0.
theorem step_name_first (kind : charKind table c = .name) (flat : scan.depth = 0)
    (opened : scan.punctuationStart = some 0) (first : scan.previousWasName = false) : scan.step table name (index,c) =
      some {scan with punctuationStart := none, previousWasName := true} := by
  simp [BoundaryScan.step,bare_of_name kind,charKind_name.mp kind,flat,opened,first,nameBefore,splitAtByte_zero]

end

structure Stepped (table : CharClass) (scan next : BoundaryScan) (index : Nat) (c : Char) (mode : Mode) : Prop where
  stands : next.Stands (index + (String.utf8EncodeChar c).length) (mode.step (charKind table c))
  keeps : ¬(mode = .gap ∧ charKind table c = .name) → next.lastBoundary = scan.lastBoundary

theorem step_stands (table : CharClass) (name : Text) {index : Nat} (stands : scan.Stands index mode) (c : Char) :
    ∃ next, scan.step table name (index,c) = some next ∧ Stepped table scan next index c mode := by
  have deep : 0 < deeper 0 := by decide
  cases kind : charKind table c with
  | opening =>
    refine ⟨_,step_opening kind,?_,fun _ => rfl⟩
    rw [kind]
    cases mode with
    | within depth => exact ⟨congrArg deeper stands.1,by unfold deeper; omega,rfl⟩
    | start | named | gap => exact ⟨congrArg deeper stands.1,deep,rfl⟩
  | closing =>
    cases mode with
    | within depth =>
      obtain ⟨rfl,positive,_⟩ := stands
      refine ⟨_,step_closing kind positive,?_,fun _ => rfl⟩
      rw [kind,Mode.step]
      split
      · next last => exact ⟨last,by simp [last],rfl⟩
      · next inner => exact ⟨rfl,Nat.pos_of_ne_zero inner,rfl⟩
    | start =>
      obtain ⟨flat,first,opened⟩ := stands
      refine ⟨_,step_plain (.inr kind) flat,?_,fun _ => rfl⟩
      rw [kind]
      refine ⟨flat,first,.inr ?_⟩
      rcases opened with ⟨closed,rfl⟩ | opened
      · simp [closed]
      · simp [opened]
    | named | gap => exact ⟨_,step_plain (.inr kind) stands.1,kind ▸ ⟨stands.1,stands.2.1,rfl⟩,fun _ => rfl⟩
  | punctuation =>
    cases mode with
    | within depth =>
      obtain ⟨rfl,positive,closed⟩ := stands
      exact ⟨_,step_inside (.inr kind) positive,kind ▸ ⟨rfl,positive,closed⟩,fun _ => rfl⟩
    | start =>
      obtain ⟨flat,first,opened⟩ := stands
      refine ⟨_,step_plain (.inl kind) flat,?_,fun _ => rfl⟩
      rw [kind]
      refine ⟨flat,first,.inr ?_⟩
      rcases opened with ⟨closed,rfl⟩ | opened
      · simp [closed]
      · simp [opened]
    | named | gap => exact ⟨_,step_plain (.inl kind) stands.1,kind ▸ ⟨stands.1,stands.2.1,rfl⟩,fun _ => rfl⟩
  | name =>
    cases mode with
    | within depth =>
      obtain ⟨rfl,positive,closed⟩ := stands
      exact ⟨_,step_inside (.inl kind) positive,kind ▸ ⟨rfl,positive,closed⟩,fun _ => rfl⟩
    | start =>
      obtain ⟨flat,first,opened⟩ := stands
      rcases opened with ⟨closed,_⟩ | opened
      · exact ⟨_,step_name_closed kind flat closed,kind ▸ ⟨flat,rfl,closed⟩,fun _ => rfl⟩
      · exact ⟨_,step_name_first kind flat opened first,kind ▸ ⟨flat,rfl,rfl⟩,fun _ => rfl⟩
    | named => exact ⟨_,step_name_closed kind stands.1 stands.2.2,kind ▸ ⟨stands.1,rfl,stands.2.2⟩,fun _ => rfl⟩
    | gap =>
      obtain ⟨flat,behind,opened⟩ := stands
      obtain ⟨start,opened⟩ := Option.isSome_iff_exists.mp opened
      exact ⟨_,step_name_joins kind flat opened behind,kind ▸ ⟨flat,rfl,rfl⟩,fun quiet => absurd ⟨rfl,kind⟩ quiet⟩

theorem charIndices_append (front back : Text) (index : Nat) :
    charIndices (front ++ back) index = charIndices front index ++ charIndices back (index + (utf8 front).length) := by
  induction front generalizing index with
  | nil => rfl
  | cons c front ih => rw [List.cons_append,charIndices,ih,charIndices,List.cons_append,utf8_cons,List.length_append,Nat.add_assoc]

def scanFrom (table : CharClass) (name : Text) (scan : BoundaryScan) (text : Text) (index : Nat) : Option BoundaryScan :=
  (charIndices text index).foldlM (BoundaryScan.step table name) scan

theorem scanFrom_append (name : Text) (scan : BoundaryScan) (front back : Text) (index : Nat) :
    scanFrom table name scan (front ++ back) index =
      (scanFrom table name scan front index).bind fun next => scanFrom table name next back (index + (utf8 front).length) := by
  rw [scanFrom,charIndices_append,List.foldlM_append]
  rfl

theorem scanFrom_stands (table : CharClass) (name : Text) {index : Nat} (stands : scan.Stands index mode)
    (text : Text) : ∃ after, scanFrom table name scan text index = some after ∧
      after.Stands (index + (utf8 text).length) (mode.run table text) ∧
      (Quiet table mode text → after.lastBoundary = scan.lastBoundary) := by
  induction text generalizing scan index mode with
  | nil => exact ⟨scan,rfl,stands,fun _ => rfl⟩
  | cons c text ih =>
    obtain ⟨middle,stepped,step⟩ := step_stands table name stands c
    obtain ⟨after,scanned,final,keeps⟩ := ih step.stands
    refine ⟨after,?_,?_,fun quiet => (keeps quiet.2).trans (step.keeps quiet.1)⟩
    · rw [scanFrom,charIndices,List.foldlM_cons,stepped]
      exact scanned
    · rw [utf8_cons,List.length_append,← Nat.add_assoc]
      exact final

theorem scanFrom_run (name : Text) {index : Nat} (stands : scan.Stands index .named) {run : Text}
    (nonempty : run ≠ []) (plain : ∀ c ∈ run, charKind table c = .punctuation ∨ charKind table c = .closing) :
    scanFrom table name scan run index = some {scan with punctuationStart := some index} := by
  have later : ∀ (run : Text) (place : Nat), (∀ c ∈ run, charKind table c = .punctuation ∨ charKind table c = .closing) →
      scanFrom table name {scan with punctuationStart := some index} run place = some {scan with punctuationStart := some index} := by
    intro run
    induction run with
    | nil => exact fun _ _ => rfl
    | cons c run ih =>
      intro place plain
      have stepped : BoundaryScan.step table name {scan with punctuationStart := some index} (place,c) =
          some {scan with punctuationStart := some index} := step_plain (plain c (List.mem_cons_self ..)) stands.1
      rw [scanFrom,charIndices,List.foldlM_cons,stepped]
      exact ih _ fun d member => plain d (List.mem_cons_of_mem _ member)
  cases run with
  | nil => exact absurd rfl nonempty
  | cons c run =>
    rw [scanFrom,charIndices,List.foldlM_cons,step_plain (plain c (List.mem_cons_self ..)) stands.1,stands.2.2]
    exact later run _ fun d member => plain d (List.mem_cons_of_mem _ member)

theorem initial_stands : BoundaryScan.initial.Stands 0 .start := ⟨rfl,rfl,.inl ⟨rfl,rfl⟩⟩

theorem qualifiedBoundary_eq (name : Text) :
    qualifiedBoundary table name = (scanFrom table name .initial name 0).map BoundaryScan.lastBoundary := rfl

theorem qualifiedBoundary_quiet {name : Text} (quiet : Quiet table .start name) : qualifiedBoundary table name = some none := by
  obtain ⟨after,scanned,_,keeps⟩ := scanFrom_stands table name initial_stands name
  rw [qualifiedBoundary_eq,scanned]
  exact congrArg some (keeps quiet)

theorem scanFrom_split (name : Text) {text front run tail : Text} (split : LastSplit table text front run tail) :
    (scanFrom table name .initial text 0).map BoundaryScan.lastBoundary =
      some (some ((utf8 front).length,(utf8 (front ++ run)).length)) := by
  obtain ⟨rfl,owner,nonempty,plain,c,rest,rfl,named,quiet⟩ := split
  obtain ⟨behind,scanned,stands,_⟩ := scanFrom_stands table name initial_stands front
  rw [owner,Nat.zero_add] at stands
  have opened := scanFrom_run name stands nonempty plain
  have joins : BoundaryScan.step table name {behind with punctuationStart := some (utf8 front).length} ((utf8 (front ++ run)).length,c) =
      some {behind with
        punctuationStart := none, previousWasName := true,
        lastBoundary := some ((utf8 front).length,(utf8 (front ++ run)).length)} :=
    step_name_joins named stands.1 rfl stands.2.1
  have again : BoundaryScan.Stands {behind with
      punctuationStart := none, previousWasName := true, lastBoundary := some ((utf8 front).length,(utf8 (front ++ run)).length)}
      ((utf8 (front ++ run)).length + (String.utf8EncodeChar c).length) .named := ⟨stands.1,rfl,rfl⟩
  obtain ⟨after,finished,_,keeps⟩ := scanFrom_stands table name again rest
  have whole : scanFrom table name .initial (front ++ run ++ c :: rest) 0 = some after := by
    rw [scanFrom_append,scanFrom_append,scanned,Option.bind_some,Nat.zero_add,opened,Option.bind_some,Nat.zero_add,scanFrom,charIndices,
      List.foldlM_cons,joins]
    exact finished
  rw [whole]
  exact congrArg some (keeps quiet)

theorem qualifiedBoundary_split {name front run tail : Text} (split : LastSplit table name front run tail) :
    qualifiedBoundary table name = some (some ((utf8 front).length,(utf8 (front ++ run)).length)) := scanFrom_split name split

end BonsaiNinja.Names
