import BonsaiNinja.Parser.RecoveryEdits

namespace BonsaiNinja.LangC
open Idg (Text)
open BonsaiNinja.Parser (lineFeed carriageReturn sliceRange)
variable {source : List UInt8} {cursor past : Nat}

structure ByteRange where
  start : Nat
  stop : Nat
deriving DecidableEq

inductive ConditionalDirectiveKind where
  | ifDirective
  | ifdef
  | ifndef
  | elif
  | elifdef
  | elifndef
  | elseDirective
  | endif
deriving DecidableEq

namespace ConditionalDirectiveKind

def directiveNames : List (Text × ConditionalDirectiveKind) :=
  [(['i','f'],.ifDirective),(['i','f','d','e','f'],.ifdef),(['i','f','n','d','e','f'],.ifndef),(['e','l','i','f'],.elif),
    (['e','l','i','f','d','e','f'],.elifdef),(['e','l','i','f','n','d','e','f'],.elifndef),(['e','l','s','e'],.elseDirective),
    (['e','n','d','i','f'],.endif)]

def fromName (name : Text) : Option ConditionalDirectiveKind := directiveNames.lookup name

def requiresArgument : ConditionalDirectiveKind → Bool
  | .elseDirective | .endif => false
  | _ => true

def requiresIdentifierArgument : ConditionalDirectiveKind → Bool
  | .ifdef | .ifndef | .elifdef | .elifndef => true
  | _ => false

def isOpening : ConditionalDirectiveKind → Bool
  | .ifDirective | .ifdef | .ifndef => true
  | _ => false

def isAlternative : ConditionalDirectiveKind → Bool
  | .elif | .elifdef | .elifndef | .elseDirective => true
  | _ => false

end ConditionalDirectiveKind

inductive DirectiveStatus where
  | valid
  | missingArgument
  | unexpectedArgument
  | unmatchedAlternative
  | unmatchedClose
  | duplicateElse
  | elifAfterElse
deriving DecidableEq

inductive LexicalState where
  | code
  | lineComment
  | blockComment
  | string
  | character
deriving DecidableEq

structure ParsedDirective where
  kind : ConditionalDirectiveKind
  nameSpan : ByteRange
  argumentSpan : Option ByteRange
  syntaxStatus : DirectiveStatus

def backslash : UInt8 := 92
def slash : UInt8 := 47
def star : UInt8 := 42
def doubleQuote : UInt8 := 34
def singleQuote : UInt8 := 39
def hash : UInt8 := 35

def isAsciiWhitespace (byte : UInt8) : Bool := byte == 32 || byte == 9 || byte == 10 || byte == 12 || byte == 13

def isIdentifierStart (byte : UInt8) : Bool :=
  byte == 95 || (97 ≤ byte.toNat && byte.toNat ≤ 122) || (65 ≤ byte.toNat && byte.toNat ≤ 90)

def isIdentifierContinue (byte : UInt8) : Bool := isIdentifierStart byte || (48 ≤ byte.toNat && byte.toNat ≤ 57)

def newlineEnd (source : List UInt8) (cursor : Nat) : Option Nat :=
  match source[cursor]? with
  | none => none
  | some byte =>
    if byte = lineFeed then some (cursor+1)
    else if byte = carriageReturn then
      if source[cursor+1]? = some lineFeed then some (cursor+2) else some (cursor+1)
    else none

def escapedNewlineEnd (source : List UInt8) (cursor : Nat) : Option Nat :=
  if source[cursor]? = some backslash then newlineEnd source (cursor+1) else none

def pairAt (source : List UInt8) (cursor : Nat) (first second : UInt8) : Bool :=
  source[cursor]? == some first && source[cursor+1]? == some second

structure LexicalScan where
  state : LexicalState
  directiveStart : Option Nat
  onlyTrivia : Bool
  cursor : Nat
  ranges : List ByteRange

namespace LexicalScan

def initial : LexicalScan := ⟨.code,none,true,0,[]⟩

def literalStep (source : List UInt8) (scan : LexicalScan) (byte quote : UInt8) : LexicalScan :=
  if byte = backslash then { scan with cursor := min (scan.cursor+2) source.length }
  else if byte = quote then { scan with state := .code, cursor := scan.cursor+1 }
  else { scan with cursor := scan.cursor+1 }

def byteStep (source : List UInt8) (scan : LexicalScan) (byte : UInt8) : LexicalScan :=
  match scan.state with
  | .code =>
    if pairAt source scan.cursor slash slash then { scan with state := .lineComment, cursor := scan.cursor+2 }
    else if pairAt source scan.cursor slash star then { scan with state := .blockComment, cursor := scan.cursor+2 }
    else if byte = doubleQuote then { scan with state := .string, onlyTrivia := false, cursor := scan.cursor+1 }
    else if byte = singleQuote then { scan with state := .character, onlyTrivia := false, cursor := scan.cursor+1 }
    else if byte = hash ∧ scan.onlyTrivia ∧ scan.directiveStart.isNone then
      { scan with directiveStart := some scan.cursor, onlyTrivia := false, cursor := scan.cursor+1 }
    else { scan with onlyTrivia := scan.onlyTrivia && isAsciiWhitespace byte, cursor := scan.cursor+1 }
  | .lineComment => { scan with cursor := scan.cursor+1 }
  | .blockComment =>
    if pairAt source scan.cursor star slash then { scan with state := .code, cursor := scan.cursor+2 }
    else { scan with cursor := scan.cursor+1 }
  | .string => literalStep source scan byte doubleQuote
  | .character => literalStep source scan byte singleQuote

def newlineStep (scan : LexicalScan) (newlineEnd : Nat) : LexicalScan where
  state := if scan.state = .lineComment then .code else scan.state
  directiveStart := none
  onlyTrivia := true
  cursor := newlineEnd
  ranges := scan.ranges ++ (scan.directiveStart.map fun start => ⟨start,newlineEnd⟩).toList

def step (source : List UInt8) (scan : LexicalScan) (byte : UInt8) : LexicalScan :=
  match escapedNewlineEnd source scan.cursor with
  | some past => { scan with cursor := past }
  | none =>
    match newlineEnd source scan.cursor with
    | some past => scan.newlineStep past
    | none => scan.byteStep source byte

end LexicalScan

theorem newlineEnd_bounds (found : newlineEnd source cursor = some past) :
    cursor < past ∧ past ≤ source.length := by
  unfold newlineEnd at found
  split at found
  · exact nomatch found
  · rename_i byte held
    have inside := List.getElem?_eq_some_iff.mp held
    split at found
    · cases found
      exact ⟨Nat.lt_succ_self _,inside.1⟩
    · split at found
      · split at found
        · rename_i following
          have later := List.getElem?_eq_some_iff.mp following
          cases found
          exact ⟨by omega,later.1⟩
        · cases found
          exact ⟨Nat.lt_succ_self _,inside.1⟩
      · exact nomatch found

theorem escapedNewlineEnd_bounds (found : escapedNewlineEnd source cursor = some past) :
    cursor < past ∧ past ≤ source.length := by
  unfold escapedNewlineEnd at found
  split at found
  · have bounds := newlineEnd_bounds found
    omega
  · exact nomatch found

theorem pairAt_inside {first second : UInt8} (pair : pairAt source cursor first second = true) :
    cursor + 1 < source.length := by
  simp only [pairAt,Bool.and_eq_true,beq_iff_eq] at pair
  exact (List.getElem?_eq_some_iff.mp pair.2).1

namespace LexicalScan
variable {source : List UInt8} {scan : LexicalScan} {byte : UInt8}

theorem literalStep_advances (quote : UInt8) (inside : scan.cursor < source.length) :
    scan.cursor < (literalStep source scan byte quote).cursor ∧ (literalStep source scan byte quote).cursor ≤ source.length := by
  unfold literalStep
  split
  · change _ < min _ _ ∧ min _ _ ≤ _
    omega
  · split
    · exact ⟨Nat.lt_succ_self _,inside⟩
    · exact ⟨Nat.lt_succ_self _,inside⟩

theorem byteStep_advances (inside : scan.cursor < source.length) :
    scan.cursor < (byteStep source scan byte).cursor ∧ (byteStep source scan byte).cursor ≤ source.length := by
  have one : scan.cursor < scan.cursor+1 ∧ scan.cursor+1 ≤ source.length := ⟨Nat.lt_succ_self _,inside⟩
  unfold byteStep
  cases scan.state with
  | code =>
    dsimp only
    split
    · rename_i pair
      exact ⟨by change scan.cursor < scan.cursor+2; omega,pairAt_inside pair⟩
    · split
      · rename_i pair
        exact ⟨by change scan.cursor < scan.cursor+2; omega,pairAt_inside pair⟩
      · split
        · exact one
        · split
          · exact one
          · split
            · exact one
            · exact one
  | lineComment => exact one
  | blockComment =>
    dsimp only
    split
    · rename_i pair
      exact ⟨by change scan.cursor < scan.cursor+2; omega,pairAt_inside pair⟩
    · exact one
  | string => exact literalStep_advances doubleQuote inside
  | character => exact literalStep_advances singleQuote inside

theorem step_advances (inside : scan.cursor < source.length) :
    scan.cursor < (step source scan byte).cursor ∧ (step source scan byte).cursor ≤ source.length := by
  unfold step
  split
  · rename_i past found
    exact escapedNewlineEnd_bounds found
  · split
    · rename_i past found
      exact newlineEnd_bounds found
    · exact byteStep_advances inside

end LexicalScan

def scanDirectives (source : List UInt8) (scan : LexicalScan) : LexicalScan :=
  if inside : scan.cursor < source.length then scanDirectives source (scan.step source (source.get ⟨scan.cursor,inside⟩))
  else scan
termination_by source.length - scan.cursor
decreasing_by
  have advances : scan.cursor < (scan.step source (source.get ⟨scan.cursor,inside⟩)).cursor ∧ _ := LexicalScan.step_advances inside
  omega

def directiveLogicalRanges (source : List UInt8) : List ByteRange :=
  let scan := scanDirectives source .initial
  scan.ranges ++ (scan.directiveStart.map fun start => ⟨start,source.length⟩).toList

def commentClose : List UInt8 → Option Nat
  | first :: second :: rest =>
    if first = star ∧ second = slash then some 0 else (commentClose (second :: rest)).map (· + 1)
  | _ => none

def blockCommentEnd (source : List UInt8) (stop cursor : Nat) : Option Nat :=
  match sliceRange source (cursor+2) stop with
  | none => none
  | some bytes =>
    match commentClose bytes with
    | some relative => some (cursor+relative+4)
    | none => some stop

theorem commentClose_bound {bytes : List UInt8} {relative : Nat} (found : commentClose bytes = some relative) :
    relative + 2 ≤ bytes.length := by
  fun_induction commentClose bytes generalizing relative with
  | case1 first second rest closes =>
    cases found
    simp
  | case2 first second rest closes ih =>
    obtain ⟨later,held,rfl⟩ := Option.map_eq_some_iff.mp found
    have bound := ih held
    simp only [List.length_cons] at bound ⊢
    omega
  | case3 => exact nomatch found

theorem blockCommentEnd_bounds {stop : Nat} (found : blockCommentEnd source stop cursor = some past) :
    cursor < past ∧ past ≤ stop := by
  unfold blockCommentEnd at found
  split at found
  · cases found
  · rename_i bytes sliced
    unfold sliceRange at sliced
    split at sliced
    · rename_i range
      cases sliced
      split at found
      · rename_i relative closed
        cases found
        have bound := commentClose_bound closed
        simp only [List.length_take,List.length_drop] at bound
        omega
      · cases found
        omega
    · cases sliced

structure LogicalCursor where
  source : List UInt8
  cursor : Nat
  stop : Nat

namespace LogicalCursor

-- The loops read the cursor's bytes with a checked index.
def skipTriviaFrom (source : List UInt8) (stop cursor : Nat) : Option Nat :=
  if inside : cursor < stop then
    match escaped : escapedNewlineEnd source cursor with
    | some past => skipTriviaFrom source stop (min past stop)
    | none =>
      match source[cursor]? with
      | none => none
      | some byte =>
        if isAsciiWhitespace byte then skipTriviaFrom source stop (cursor+1)
        else if pairAt source cursor slash star then
          match comment : blockCommentEnd source stop cursor with
          | none => none
          | some past => skipTriviaFrom source stop past
        else if pairAt source cursor slash slash then some stop
        else some cursor
  else some cursor
termination_by stop - cursor
decreasing_by
  · have bounds := escapedNewlineEnd_bounds escaped
    omega
  · omega
  · have bounds := blockCommentEnd_bounds comment
    omega

def skipTrivia (reader : LogicalCursor) : Option LogicalCursor :=
  (skipTriviaFrom reader.source reader.stop reader.cursor).map fun cursor => { reader with cursor := cursor }

def identifierFrom (source : List UInt8) (stop cursor lastEnd : Nat) (value : Text) : Option (Text × Nat × Nat) :=
  if inside : cursor < stop then
    match escaped : escapedNewlineEnd source cursor with
    | some past => identifierFrom source stop (min past stop) lastEnd value
    | none =>
      match source[cursor]? with
      | none => none
      | some byte =>
        if isIdentifierContinue byte then identifierFrom source stop (cursor+1) (cursor+1) (value ++ [Char.ofNat byte.toNat])
        else some (value,lastEnd,cursor)
  else some (value,lastEnd,cursor)
termination_by stop - cursor
decreasing_by
  · have bounds := escapedNewlineEnd_bounds escaped
    omega
  · omega

-- The outer option is the checked index, the inner one the answer.
def identifier (reader : LogicalCursor) : Option (Option (Text × ByteRange × LogicalCursor)) :=
  if reader.stop ≤ reader.cursor then some none
  else do
    let byte ← reader.source[reader.cursor]?
    if isIdentifierStart byte then
      let (value,lastEnd,cursor) ← identifierFrom reader.source reader.stop reader.cursor reader.cursor []
      return some (value,⟨reader.cursor,lastEnd⟩,{ reader with cursor := cursor })
    else return none

def lastTokenEnd (source : List UInt8) (stop cursor : Nat) (last : Option Nat) : Option (Option Nat) :=
  if inside : cursor < stop then
    match escaped : escapedNewlineEnd source cursor with
    | some past => lastTokenEnd source stop (min past stop) last
    | none =>
      match source[cursor]? with
      | none => none
      | some byte =>
        if isAsciiWhitespace byte then lastTokenEnd source stop (cursor+1) last
        else if pairAt source cursor slash slash then some last
        else if pairAt source cursor slash star then
          match comment : blockCommentEnd source stop cursor with
          | none => none
          | some past => lastTokenEnd source stop past last
        else lastTokenEnd source stop (cursor+1) (some (cursor+1))
  else some last
termination_by stop - cursor
decreasing_by
  · have bounds := escapedNewlineEnd_bounds escaped
    omega
  · omega
  · have bounds := blockCommentEnd_bounds comment
    omega
  · omega

def remainingTokenSpan (reader : LogicalCursor) : Option (Option ByteRange) := do
  let reader ← reader.skipTrivia
  if reader.stop ≤ reader.cursor then return none
  let last ← lastTokenEnd reader.source reader.stop reader.cursor none
  return last.map fun stop => ⟨reader.cursor,stop⟩

end LogicalCursor

def logicalRangeIsSingleIdentifier (source : List UInt8) (span : ByteRange) : Option Bool := do
  let reader ← LogicalCursor.skipTrivia ⟨source,span.start,span.stop⟩
  match ← reader.identifier with
  | none => return false
  | some (_,_,reader) =>
    let reader ← reader.skipTrivia
    return reader.cursor == span.stop

def argumentFits (source : List UInt8) (kind : ConditionalDirectiveKind) (argumentSpan : Option ByteRange) : Option Bool :=
  if kind.requiresIdentifierArgument then
    match argumentSpan with
    | none => some false
    | some argument => logicalRangeIsSingleIdentifier source argument
  else some true

def syntaxStatus (source : List UInt8) (kind : ConditionalDirectiveKind) (argumentSpan : Option ByteRange) : Option DirectiveStatus :=
  if kind.requiresArgument && argumentSpan.isNone then some .missingArgument
  else do
    let fits ← argumentFits source kind argumentSpan
    if !fits then return .unexpectedArgument
    else if kind.requiresArgument then return .valid
    else if argumentSpan.isSome then return .unexpectedArgument
    else return .valid

def parseConditionalDirective (source : List UInt8) (span : ByteRange) : Option (Option ParsedDirective) := do
  let reader ← LogicalCursor.skipTrivia ⟨source,span.start+1,span.stop⟩
  match ← reader.identifier with
  | none => return none
  | some (name,nameSpan,reader) =>
    match ConditionalDirectiveKind.fromName name with
    | none => return none
    | some kind =>
      let reader ← reader.skipTrivia
      let argumentSpan ← reader.remainingTokenSpan
      let status ← syntaxStatus source kind argumentSpan
      return some ⟨kind,nameSpan,argumentSpan,status⟩

def physicalLineSpansFrom (source : List UInt8) (stop start cursor : Nat) : List ByteRange :=
  if inside : cursor < stop then
    match found : newlineEnd source cursor with
    | some past => ⟨start,past⟩ :: physicalLineSpansFrom source stop past past
    | none => physicalLineSpansFrom source stop start (cursor+1)
  else if start < stop then [⟨start,stop⟩] else []
termination_by stop - cursor
decreasing_by
  · have bounds := newlineEnd_bounds found
    omega
  · omega

def physicalLineSpans (source : List UInt8) (logical : ByteRange) : List ByteRange :=
  physicalLineSpansFrom source logical.stop logical.start logical.start

-- No block comment opens across the end of the range.
def WholeEnd (source : List UInt8) (stop : Nat) : Prop := stop ≤ source.length ∧ pairAt source (stop-1) slash star = false

theorem wholeEnd_length (source : List UInt8) : WholeEnd source source.length := by
  refine ⟨Nat.le_refl _,Bool.eq_false_iff.mpr fun pair => ?_⟩
  have inside := pairAt_inside pair
  omega

theorem newlineEnd_breaks (found : newlineEnd source cursor = some past) :
    source[past-1]? = some lineFeed ∨ source[past-1]? = some carriageReturn := by
  unfold newlineEnd at found
  split at found
  · exact nomatch found
  · rename_i byte held
    split at found
    · rename_i feed
      cases found
      exact .inl (by rw [Nat.add_sub_cancel,held,feed])
    · split at found
      · rename_i carriage
        split at found
        · rename_i following
          cases found
          exact .inl following
        · cases found
          exact .inr (by rw [Nat.add_sub_cancel,held,carriage])
      · exact nomatch found

theorem newlineEnd_whole (found : newlineEnd source cursor = some past) :
    WholeEnd source past := by
  refine ⟨(newlineEnd_bounds found).2,?_⟩
  cases newlineEnd_breaks found with
  | inl feed => simp [pairAt,feed,lineFeed,slash]
  | inr carriage => simp [pairAt,carriage,carriageReturn,slash]

section
variable {source : List UInt8} {stop : Nat} (whole : WholeEnd source stop)
include whole

theorem blockCommentEnd_total {cursor : Nat} (inside : cursor < stop) (opens : pairAt source cursor slash star = true) :
    ∃ past, blockCommentEnd source stop cursor = some past := by
  have apart : cursor ≠ stop-1 := fun same => Bool.false_ne_true (whole.2.symm.trans (same ▸ opens))
  have fits : cursor+2 ≤ stop ∧ stop ≤ source.length := ⟨by omega,whole.1⟩
  unfold blockCommentEnd sliceRange
  rw [if_pos fits]
  dsimp only
  split
  · exact ⟨_,rfl⟩
  · exact ⟨_,rfl⟩

namespace LogicalCursor

theorem skipTriviaFrom_total (cursor : Nat) (inside : cursor ≤ stop) :
    ∃ past, skipTriviaFrom source stop cursor = some past ∧ cursor ≤ past ∧ past ≤ stop := by
  induction left : stop - cursor using Nat.strongRecOn generalizing cursor with
  | ind left ih =>
    subst left
    -- Each turn moves the cursor on, and what the rest of the loop finds lies behind it.
    have turn (past : Nat) (later : cursor < past) (bounded : past ≤ stop) :
        ∃ final, skipTriviaFrom source stop past = some final ∧ cursor ≤ final ∧ final ≤ stop := by
      obtain ⟨final,found,after,within⟩ := ih (stop-past) (by omega) past bounded rfl
      exact ⟨final,found,by omega,within⟩
    rw [skipTriviaFrom]
    split
    · rename_i before
      split
      · rename_i past escaped
        have bounds := escapedNewlineEnd_bounds escaped
        exact turn _ (by omega) (Nat.min_le_right _ _)
      · rw [List.getElem?_eq_getElem (Nat.lt_of_lt_of_le before whole.1)]
        dsimp only
        split
        · exact turn _ (Nat.lt_succ_self _) before
        · split
          · rename_i opens
            obtain ⟨past,found⟩ := blockCommentEnd_total whole before opens
            have bounds := blockCommentEnd_bounds found
            rw [found]
            exact turn _ bounds.1 bounds.2
          · split
            · exact ⟨stop,rfl,inside,Nat.le_refl _⟩
            · exact ⟨cursor,rfl,Nat.le_refl _,inside⟩
    · exact ⟨cursor,rfl,Nat.le_refl _,inside⟩

theorem skipTrivia_total (cursor : Nat) (inside : cursor ≤ stop) :
    ∃ past, skipTrivia ⟨source,cursor,stop⟩ = some ⟨source,past,stop⟩ ∧ cursor ≤ past ∧ past ≤ stop := by
  obtain ⟨past,found,bounds⟩ := skipTriviaFrom_total whole cursor inside
  refine ⟨past,?_,bounds⟩
  unfold skipTrivia
  dsimp only
  rw [found]
  rfl

theorem identifierFrom_total (cursor lastEnd : Nat) (value : Text) (inside : cursor ≤ stop) :
    ∃ text final past, identifierFrom source stop cursor lastEnd value = some (text,final,past) ∧ cursor ≤ past ∧ past ≤ stop := by
  induction left : stop - cursor using Nat.strongRecOn generalizing cursor lastEnd value with
  | ind left ih =>
    subst left
    have turn (past lastEnd : Nat) (value : Text) (later : cursor < past) (bounded : past ≤ stop) :
        ∃ text final stood, identifierFrom source stop past lastEnd value = some (text,final,stood) ∧ cursor ≤ stood ∧ stood ≤ stop := by
      obtain ⟨text,final,stood,found,after,within⟩ := ih (stop-past) (by omega) past lastEnd value bounded rfl
      exact ⟨text,final,stood,found,by omega,within⟩
    rw [identifierFrom]
    split
    · rename_i before
      split
      · rename_i past escaped
        have bounds := escapedNewlineEnd_bounds escaped
        exact turn _ _ _ (by omega) (Nat.min_le_right _ _)
      · rw [List.getElem?_eq_getElem (Nat.lt_of_lt_of_le before whole.1)]
        dsimp only
        split
        · exact turn _ _ _ (Nat.lt_succ_self _) before
        · exact ⟨_,_,_,rfl,Nat.le_refl _,inside⟩
    · exact ⟨_,_,_,rfl,Nat.le_refl _,inside⟩

theorem identifier_total (cursor : Nat) (inside : cursor ≤ stop) :
    ∃ answer, identifier ⟨source,cursor,stop⟩ = some answer ∧
      ∀ value span reader, answer = some (value,span,reader) → ∃ past, reader = ⟨source,past,stop⟩ ∧ cursor ≤ past ∧ past ≤ stop := by
  unfold identifier
  dsimp only
  split
  · exact ⟨none,rfl,fun _ _ _ => nofun⟩
  · rename_i before
    have held := List.getElem?_eq_getElem (show cursor < source.length from Nat.lt_of_lt_of_le (by omega) whole.1)
    rw [held]
    simp only [Option.bind_eq_bind,Option.bind_some]
    split
    · obtain ⟨text,final,past,found,bounds⟩ := identifierFrom_total whole cursor cursor [] inside
      rw [found]
      refine ⟨_,rfl,fun value span reader same => ?_⟩
      cases same
      exact ⟨past,rfl,bounds⟩
    · exact ⟨none,rfl,fun _ _ _ => nofun⟩

theorem lastTokenEnd_total (cursor : Nat) (last : Option Nat) (inside : cursor ≤ stop) :
    ∃ final, lastTokenEnd source stop cursor last = some final ∧
      (final = last ∨ ∃ past, final = some past ∧ cursor < past ∧ past ≤ stop ∧ WholeEnd source past) := by
  induction left : stop - cursor using Nat.strongRecOn generalizing cursor last with
  | ind left ih =>
    subst left
    have turn (past : Nat) (later : cursor < past) (bounded : past ≤ stop) :
        ∃ final, lastTokenEnd source stop past last = some final ∧
          (final = last ∨ ∃ past, final = some past ∧ cursor < past ∧ past ≤ stop ∧ WholeEnd source past) := by
      obtain ⟨final,found,unchanged | ⟨token,same,after,within⟩⟩ := ih (stop-past) (by omega) past last bounded rfl
      · exact ⟨final,found,.inl unchanged⟩
      · exact ⟨final,found,.inr ⟨token,same,by omega,within⟩⟩
    rw [lastTokenEnd]
    split
    · rename_i before
      split
      · rename_i past escaped
        have bounds := escapedNewlineEnd_bounds escaped
        exact turn _ (by omega) (Nat.min_le_right _ _)
      · rw [List.getElem?_eq_getElem (Nat.lt_of_lt_of_le before whole.1)]
        dsimp only
        split
        · exact turn _ (Nat.lt_succ_self _) before
        · split
          · exact ⟨last,rfl,.inl rfl⟩
          · split
            · rename_i opens
              obtain ⟨past,found⟩ := blockCommentEnd_total whole before opens
              have bounds := blockCommentEnd_bounds found
              rw [found]
              exact turn _ bounds.1 bounds.2
            · rename_i unopened
              have token : WholeEnd source (cursor+1) := ⟨Nat.le_trans before whole.1,by simpa using unopened⟩
              obtain ⟨final,found,unchanged | ⟨past,same,after,within⟩⟩ :=
                ih (stop-(cursor+1)) (by omega) (cursor+1) (some (cursor+1)) before rfl
              · exact ⟨final,found,.inr ⟨cursor+1,unchanged,Nat.lt_succ_self _,before,token⟩⟩
              · exact ⟨final,found,.inr ⟨past,same,by omega,within⟩⟩
    · exact ⟨last,rfl,.inl rfl⟩

theorem remainingTokenSpan_total (cursor : Nat) (inside : cursor ≤ stop) :
    ∃ span, remainingTokenSpan ⟨source,cursor,stop⟩ = some span ∧
      ∀ token, span = some token → cursor ≤ token.start ∧ token.start < token.stop ∧ token.stop ≤ stop ∧ WholeEnd source token.stop := by
  obtain ⟨start,skipped,after,within⟩ := skipTrivia_total whole cursor inside
  unfold remainingTokenSpan
  rw [skipped]
  simp only [Option.bind_eq_bind,Option.bind_some]
  split
  · exact ⟨none,rfl,fun _ => nofun⟩
  · obtain ⟨final,found,unchanged | ⟨past,same,later,bounded,closes⟩⟩ := lastTokenEnd_total whole start none within
    · rw [found,unchanged]
      exact ⟨none,rfl,fun _ => nofun⟩
    · rw [found,same]
      refine ⟨_,rfl,fun token held => ?_⟩
      cases held
      exact ⟨after,later,bounded,closes⟩

end LogicalCursor

end

theorem logicalRangeIsSingleIdentifier_total {span : ByteRange} (whole : WholeEnd source span.stop)
    (ordered : span.start ≤ span.stop) : ∃ single, logicalRangeIsSingleIdentifier source span = some single := by
  obtain ⟨start,skipped,_,within⟩ := LogicalCursor.skipTrivia_total whole span.start ordered
  obtain ⟨answer,read,named⟩ := LogicalCursor.identifier_total whole start within
  unfold logicalRangeIsSingleIdentifier
  rw [skipped]
  simp only [Option.bind_eq_bind,Option.bind_some]
  rw [read]
  simp only [Option.bind_some]
  cases answer with
  | none => exact ⟨false,rfl⟩
  | some found =>
    obtain ⟨value,name,reader⟩ := found
    obtain ⟨past,rfl,_,bounded⟩ := named value name reader rfl
    obtain ⟨final,left,_⟩ := LogicalCursor.skipTrivia_total whole past bounded
    dsimp only
    rw [left]
    exact ⟨_,rfl⟩

theorem syntaxStatus_total (kind : ConditionalDirectiveKind) {argumentSpan : Option ByteRange}
    (whole : ∀ token, argumentSpan = some token → token.start ≤ token.stop ∧ WholeEnd source token.stop) :
    ∃ status, syntaxStatus source kind argumentSpan = some status := by
  have checked : ∃ fits, argumentFits source kind argumentSpan = some fits := by
    unfold argumentFits
    split
    · cases argumentSpan with
      | none => exact ⟨false,rfl⟩
      | some argument =>
        have bounds := whole argument rfl
        exact logicalRangeIsSingleIdentifier_total bounds.2 bounds.1
    · exact ⟨true,rfl⟩
  obtain ⟨fits,found⟩ := checked
  unfold syntaxStatus
  rw [found]
  simp only [Option.bind_eq_bind,Option.bind_some]
  split
  · exact ⟨_,rfl⟩
  · split
    · exact ⟨_,rfl⟩
    · split
      · exact ⟨_,rfl⟩
      · split
        · exact ⟨_,rfl⟩
        · exact ⟨_,rfl⟩

theorem parseConditionalDirective_total {span : ByteRange} (whole : WholeEnd source span.stop)
    (ordered : span.start < span.stop) : ∃ parsed, parseConditionalDirective source span = some parsed := by
  obtain ⟨start,skipped,_,within⟩ := LogicalCursor.skipTrivia_total whole (span.start+1) ordered
  obtain ⟨answer,read,named⟩ := LogicalCursor.identifier_total whole start within
  unfold parseConditionalDirective
  rw [skipped]
  simp only [Option.bind_eq_bind,Option.bind_some]
  rw [read]
  simp only [Option.bind_some]
  cases answer with
  | none => exact ⟨none,rfl⟩
  | some found =>
    obtain ⟨name,nameSpan,reader⟩ := found
    obtain ⟨past,rfl,_,bounded⟩ := named name nameSpan reader rfl
    dsimp only
    split
    · exact ⟨none,rfl⟩
    · rename_i kind _
      obtain ⟨final,left,_,inside⟩ := LogicalCursor.skipTrivia_total whole past bounded
      obtain ⟨argumentSpan,remaining,token⟩ := LogicalCursor.remainingTokenSpan_total whole final inside
      have closes (argument : ByteRange) (held : argumentSpan = some argument) :
          argument.start ≤ argument.stop ∧ WholeEnd source argument.stop :=
        ⟨(token argument held).2.1.le,(token argument held).2.2.2⟩
      obtain ⟨status,checked⟩ := syntaxStatus_total kind closes
      rw [left]
      simp only [Option.bind_some]
      rw [remaining]
      simp only [Option.bind_some]
      rw [checked]
      exact ⟨_,rfl⟩

structure Scanned (source : List UInt8) (scan : LexicalScan) : Prop where
  inside : scan.cursor ≤ source.length
  begun : ∀ start, scan.directiveStart = some start →
    start < scan.cursor ∧ source[start]? = some hash ∧ ∀ range ∈ scan.ranges, range.stop ≤ start
  apart : scan.ranges.Pairwise fun first second => first.stop ≤ second.start
  whole : ∀ range ∈ scan.ranges, source[range.start]? = some hash ∧ range.start < range.stop ∧ range.stop ≤ scan.cursor ∧
    WholeEnd source range.stop

namespace Scanned
variable {source : List UInt8} {scan : LexicalScan} {byte : UInt8}

theorem initial : Scanned source .initial where
  inside := Nat.zero_le _
  begun := nofun
  apart := .nil
  whole := nofun

section
variable (scanned : Scanned source scan)
include scanned

theorem moves {next : LexicalScan} (start : next.directiveStart = scan.directiveStart)
    (ranges : next.ranges = scan.ranges) (later : scan.cursor ≤ next.cursor) (inside : next.cursor ≤ source.length) :
    Scanned source next where
  inside := inside
  begun first held := by
    obtain ⟨before,marked,ended⟩ := scanned.begun first (start ▸ held)
    exact ⟨Nat.lt_of_lt_of_le before later,marked,by rw [ranges]; exact ended⟩
  apart := by
    rw [ranges]
    exact scanned.apart
  whole range listed := by
    obtain ⟨marked,filled,bounded,closes⟩ := scanned.whole range (ranges ▸ listed)
    exact ⟨marked,filled,Nat.le_trans bounded later,closes⟩

theorem ends {stop : Nat} (later : scan.cursor ≤ stop) (whole : WholeEnd source stop) :
    (scan.ranges ++ (scan.directiveStart.map fun start => (⟨start,stop⟩ : ByteRange)).toList).Pairwise
        (fun first second => first.stop ≤ second.start) ∧
      ∀ range ∈ scan.ranges ++ (scan.directiveStart.map fun start => (⟨start,stop⟩ : ByteRange)).toList,
        source[range.start]? = some hash ∧ range.start < range.stop ∧ range.stop ≤ stop ∧ WholeEnd source range.stop := by
  have old (range : ByteRange) (listed : range ∈ scan.ranges) :
      source[range.start]? = some hash ∧ range.start < range.stop ∧ range.stop ≤ stop ∧ WholeEnd source range.stop := by
    obtain ⟨marked,filled,bounded,closes⟩ := scanned.whole range listed
    exact ⟨marked,filled,Nat.le_trans bounded later,closes⟩
  cases held : scan.directiveStart with
  | none =>
    simp only [Option.map_none,Option.toList_none,List.append_nil]
    exact ⟨scanned.apart,old⟩
  | some start =>
    obtain ⟨before,marked,ended⟩ := scanned.begun start held
    simp only [Option.map_some,Option.toList_some]
    refine ⟨List.pairwise_append.mpr ⟨scanned.apart,List.pairwise_singleton _ _,?_⟩,?_⟩
    · intro range listed last same
      rw [List.mem_singleton.mp same]
      exact ended range listed
    · intro range listed
      cases List.mem_append.mp listed with
      | inl earlier => exact old range earlier
      | inr same =>
        rw [List.mem_singleton.mp same]
        exact ⟨marked,Nat.lt_of_lt_of_le before later,Nat.le_refl _,whole⟩

theorem literalStep (inside : scan.cursor < source.length) (quote : UInt8) :
    Scanned source (LexicalScan.literalStep source scan byte quote) := by
  have advances : scan.cursor < (LexicalScan.literalStep source scan byte quote).cursor ∧
      (LexicalScan.literalStep source scan byte quote).cursor ≤ source.length := LexicalScan.literalStep_advances quote inside
  refine scanned.moves ?_ ?_ advances.1.le advances.2
  · unfold LexicalScan.literalStep
    split
    · rfl
    · split
      · rfl
      · rfl
  · unfold LexicalScan.literalStep
    split
    · rfl
    · split
      · rfl
      · rfl

theorem byteStep (held : source[scan.cursor]? = some byte) :
    Scanned source (scan.byteStep source byte) := by
  have inside := (List.getElem?_eq_some_iff.mp held).1
  have one : scan.cursor ≤ scan.cursor+1 := Nat.le_succ _
  unfold LexicalScan.byteStep
  cases scan.state with
  | code =>
    dsimp only
    split
    · rename_i pair
      exact scanned.moves rfl rfl (Nat.le_add_right _ 2) (pairAt_inside pair)
    · split
      · rename_i pair
        exact scanned.moves rfl rfl (Nat.le_add_right _ 2) (pairAt_inside pair)
      · split
        · exact scanned.moves rfl rfl one inside
        · split
          · exact scanned.moves rfl rfl one inside
          · split
            · rename_i opens
              refine ⟨inside,fun start same => ?_,scanned.apart,fun range listed => ?_⟩
              · cases same
                exact ⟨Nat.lt_succ_self _,opens.1 ▸ held,fun range listed => (scanned.whole range listed).2.2.1⟩
              · obtain ⟨marked,filled,bounded,closes⟩ := scanned.whole range listed
                exact ⟨marked,filled,Nat.le_succ_of_le bounded,closes⟩
            · exact scanned.moves rfl rfl one inside
  | lineComment => exact scanned.moves rfl rfl one inside
  | blockComment =>
    dsimp only
    split
    · rename_i pair
      exact scanned.moves rfl rfl (Nat.le_add_right _ 2) (pairAt_inside pair)
    · exact scanned.moves rfl rfl one inside
  | string => exact scanned.literalStep inside doubleQuote
  | character => exact scanned.literalStep inside singleQuote

theorem step (held : source[scan.cursor]? = some byte) : Scanned source (scan.step source byte) := by
  unfold LexicalScan.step
  split
  · rename_i past escaped
    have bounds := escapedNewlineEnd_bounds escaped
    exact scanned.moves rfl rfl bounds.1.le bounds.2
  · split
    · rename_i past found
      have bounds := newlineEnd_bounds found
      obtain ⟨apart,whole⟩ := scanned.ends bounds.1.le (newlineEnd_whole found)
      exact ⟨bounds.2,nofun,apart,whole⟩
    · exact scanned.byteStep held

end

end Scanned

theorem scanDirectives_keeps {kept : LexicalScan → Prop}
    (step : ∀ scan byte, source[scan.cursor]? = some byte → kept scan → kept (scan.step source byte)) (scan : LexicalScan)
    (begun : kept scan) : kept (scanDirectives source scan) ∧ source.length ≤ (scanDirectives source scan).cursor := by
  induction left : source.length - scan.cursor using Nat.strongRecOn generalizing scan with
  | ind left ih =>
    subst left
    rw [scanDirectives]
    split
    · rename_i inside
      have held : source[scan.cursor]? = some (source.get ⟨scan.cursor,inside⟩) := List.getElem?_eq_getElem inside
      have advances : scan.cursor < (scan.step source (source.get ⟨scan.cursor,inside⟩)).cursor ∧ _ := LexicalScan.step_advances inside
      exact ih _ (by omega) _ (step scan _ held begun) rfl
    · rename_i ended
      exact ⟨begun,Nat.le_of_not_lt ended⟩

structure DirectiveRanges (source : List UInt8) (ranges : List ByteRange) : Prop where
  apart : ranges.Pairwise fun first second => first.stop ≤ second.start
  whole : ∀ range ∈ ranges, source[range.start]? = some hash ∧ range.start < range.stop ∧ WholeEnd source range.stop

theorem directiveLogicalRanges_whole (source : List UInt8) : DirectiveRanges source (directiveLogicalRanges source) := by
  have step (scan : LexicalScan) (byte : UInt8) (held : source[scan.cursor]? = some byte) (scanned : Scanned source scan) :
      Scanned source (scan.step source byte) := scanned.step held
  have scanned := (scanDirectives_keeps step .initial .initial).1
  obtain ⟨apart,whole⟩ := scanned.ends scanned.inside (wholeEnd_length source)
  refine ⟨apart,fun range listed => ?_⟩
  obtain ⟨marked,filled,_,closes⟩ := whole range listed
  exact ⟨marked,filled,closes⟩

end BonsaiNinja.LangC
