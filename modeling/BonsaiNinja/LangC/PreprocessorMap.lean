import BonsaiNinja.LangC.Directives

namespace BonsaiNinja.LangC

structure DirectiveFact where
  kind : ConditionalDirectiveKind
  logicalSpan : ByteRange
  physicalLineSpans : List ByteRange
  nameSpan : ByteRange
  argumentSpan : Option ByteRange
  status : DirectiveStatus
  group : Option Nat
  branch : Option Nat

structure ConditionalBranch where
  directive : Nat
  conditionSpan : Option ByteRange
  bodySpan : ByteRange

structure ConditionalGroup where
  openingDirective : Nat
  closingDirective : Option Nat
  parentGroup : Option Nat
  parentBranch : Option Nat
  branches : List ConditionalBranch
  span : Option ByteRange

inductive PreprocessorDiagnosticKind where
  | missingArgument
  | unexpectedArgument
  | unmatchedAlternative
  | unmatchedClose
  | duplicateElse
  | elifAfterElse
  | unclosedConditional
deriving DecidableEq

structure PreprocessorDiagnostic where
  kind : PreprocessorDiagnosticKind
  span : ByteRange
  directive : Nat

structure PreprocessorMap where
  directives : List DirectiveFact
  groups : List ConditionalGroup
  diagnostics : List PreprocessorDiagnostic

structure OpenGroup where
  group : Nat
  sawElse : Bool

def DirectiveStatus.diagnosticKind : DirectiveStatus → Option PreprocessorDiagnosticKind
  | .valid => none
  | .missingArgument => some .missingArgument
  | .unexpectedArgument => some .unexpectedArgument
  | .unmatchedAlternative => some .unmatchedAlternative
  | .unmatchedClose => some .unmatchedClose
  | .duplicateElse => some .duplicateElse
  | .elifAfterElse => some .elifAfterElse

namespace PreprocessorMap

def empty : PreprocessorMap := ⟨[],[],[]⟩

-- Nothing stands for an index out of range, here and below.
def pushStatusDiagnostic (map : PreprocessorMap) (directive : Nat) (status : DirectiveStatus) : Option PreprocessorMap :=
  match status.diagnosticKind with
  | none => some map
  | some kind => (map.directives[directive]?).map fun fact =>
    { map with diagnostics := map.diagnostics ++ [⟨kind,fact.logicalSpan,directive⟩] }

def setStatus (map : PreprocessorMap) (directive : Nat) (status : DirectiveStatus) : Option PreprocessorMap :=
  pushStatusDiagnostic { map with directives := map.directives.modify directive fun fact => { fact with status := status } } directive status

def setGroup (map : PreprocessorMap) (directive group : Nat) (branch : Option Nat) : PreprocessorMap :=
  { map with directives := map.directives.modify directive fun fact => { fact with group := some group, branch := branch } }

end PreprocessorMap

def ConditionalBranch.endsAt (branch : ConditionalBranch) (stop : Nat) : ConditionalBranch :=
  { branch with bodySpan := { branch.bodySpan with stop := stop } }

def endLastBody (branches : List ConditionalBranch) (stop : Nat) : List ConditionalBranch :=
  branches.modify (branches.length-1) fun branch => branch.endsAt stop

structure ParseState where
  map : PreprocessorMap
  stack : List OpenGroup

namespace ParseState

def checkedPred (count : Nat) : Option Nat := if count = 0 then none else some (count-1)

def newBranch (length directive : Nat) (fact : DirectiveFact) : ConditionalBranch where
  directive := directive
  conditionSpan := fact.argumentSpan
  bodySpan := ⟨fact.logicalSpan.stop,length⟩

def openGroup (length : Nat) (state : ParseState) (directive : Nat) (fact : DirectiveFact) : ParseState :=
  let group := state.map.groups.length
  let opened : ConditionalGroup :=
    { openingDirective := directive
      closingDirective := none
      parentGroup := state.stack.head?.map (·.group)
      parentBranch := state.stack.head?.bind fun top => (state.map.groups[top.group]?).bind fun parent => checkedPred parent.branches.length
      branches := [newBranch length directive fact]
      span := none }
  { map := { state.map with groups := state.map.groups ++ [opened] }.setGroup directive group (some 0)
    stack := ⟨group,false⟩ :: state.stack }

def addBranch (length : Nat) (state : ParseState) (directive : Nat) (fact : DirectiveFact) : Option ParseState :=
  match state.stack with
  | [] => (state.map.setStatus directive .unmatchedAlternative).map fun map => { state with map := map }
  | top :: rest =>
    if top.sawElse then
      let status := if fact.kind = .elseDirective then .duplicateElse else .elifAfterElse
      ((state.map.setGroup directive top.group none).setStatus directive status).map fun map => { state with map := map }
    else do
      let group ← state.map.groups[top.group]?
      let extended := { group with branches := endLastBody group.branches fact.logicalSpan.start ++ [newBranch length directive fact] }
      return {
        map := { state.map with groups := state.map.groups.set top.group extended }.setGroup directive top.group
          (some group.branches.length)
        stack := { top with sawElse := fact.kind = .elseDirective } :: rest }

def closeGroup (state : ParseState) (directive : Nat) (fact : DirectiveFact) : Option ParseState :=
  match state.stack with
  | [] => (state.map.setStatus directive .unmatchedClose).map fun map => { state with map := map }
  | top :: rest => do
    let group ← state.map.groups[top.group]?
    let opening ← state.map.directives[group.openingDirective]?
    let closed := { group with
      branches := endLastBody group.branches fact.logicalSpan.start
      closingDirective := some directive
      span := some ⟨opening.logicalSpan.start,fact.logicalSpan.stop⟩ }
    return {
      map := { state.map with groups := state.map.groups.set top.group closed }.setGroup directive top.group none
      stack := rest }

def placeDirective (length : Nat) (state : ParseState) (fact : DirectiveFact) : Option ParseState :=
  let directive := state.map.directives.length
  let pushed := { state with map := { state.map with directives := state.map.directives ++ [fact] } }
  if fact.status ≠ .valid then (pushed.map.pushStatusDiagnostic directive fact.status).map fun map => { pushed with map := map }
  else if fact.kind.isOpening then some (pushed.openGroup length directive fact)
  else if fact.kind.isAlternative then pushed.addBranch length directive fact
  else pushed.closeGroup directive fact

def parsedFact (source : List UInt8) (logicalSpan : ByteRange) (parsed : ParsedDirective) : DirectiveFact where
  kind := parsed.kind
  logicalSpan := logicalSpan
  physicalLineSpans := physicalLineSpans source logicalSpan
  nameSpan := parsed.nameSpan
  argumentSpan := parsed.argumentSpan
  status := parsed.syntaxStatus
  group := none
  branch := none

def parseRange (source : List UInt8) (state : ParseState) (logicalSpan : ByteRange) : Option ParseState := do
  match ← parseConditionalDirective source logicalSpan with
  | none => return state
  | some parsed => state.placeDirective source.length (parsedFact source logicalSpan parsed)

def unclosedDiagnostic (map : PreprocessorMap) (opened : OpenGroup) : Option PreprocessorDiagnostic := do
  let group ← map.groups[opened.group]?
  let opening ← map.directives[group.openingDirective]?
  return ⟨.unclosedConditional,opening.logicalSpan,group.openingDirective⟩

end ParseState

def PreprocessorMap.parse (source : List UInt8) : Option PreprocessorMap := do
  let state ← (directiveLogicalRanges source).foldlM (ParseState.parseRange source) ⟨.empty,[]⟩
  let unclosed ← state.stack.reverse.mapM (ParseState.unclosedDiagnostic state.map)
  return { state.map with diagnostics := state.map.diagnostics ++ unclosed }

theorem modify_last {α : Type u} (front : List α) (last : α) (change : α → α) :
    (front ++ [last]).modify front.length change = front ++ [change last] := by
  induction front with
  | nil => rfl
  | cons first rest ih => simp [List.modify_succ_cons,ih]

namespace PreprocessorMap
variable {directives : List DirectiveFact} {groups : List ConditionalGroup} {diagnostics : List PreprocessorDiagnostic} {fact : DirectiveFact}

theorem setGroup_last (group : Nat) (branch : Option Nat) :
    setGroup ⟨directives ++ [fact],groups,diagnostics⟩ directives.length group branch =
      ⟨directives ++ [{ fact with group := some group, branch := branch }],groups,diagnostics⟩ := by
  unfold setGroup
  dsimp only
  rw [modify_last]

theorem pushStatusDiagnostic_last {status : DirectiveStatus} {kind : PreprocessorDiagnosticKind} (same : status.diagnosticKind = some kind) :
    pushStatusDiagnostic ⟨directives ++ [fact],groups,diagnostics⟩ directives.length status =
      some ⟨directives ++ [fact],groups,diagnostics ++ [⟨kind,fact.logicalSpan,directives.length⟩]⟩ := by
  unfold pushStatusDiagnostic
  rw [same]
  simp

theorem setStatus_last {status : DirectiveStatus} {kind : PreprocessorDiagnosticKind} (same : status.diagnosticKind = some kind) :
    setStatus ⟨directives ++ [fact],groups,diagnostics⟩ directives.length status =
      some ⟨directives ++ [{ fact with status := status }],groups,diagnostics ++ [⟨kind,fact.logicalSpan,directives.length⟩]⟩ := by
  unfold setStatus
  dsimp only
  rw [modify_last,pushStatusDiagnostic_last same]

end PreprocessorMap

theorem diagnosticKind_of_invalid {status : DirectiveStatus} (invalid : status ≠ .valid) :
    ∃ kind, status.diagnosticKind = some kind := by
  cases status with
  | valid => exact absurd rfl invalid
  | missingArgument | unexpectedArgument | unmatchedAlternative | unmatchedClose | duplicateElse | elifAfterElse => exact ⟨_,rfl⟩

namespace ParseState

def openedGroup (length : Nat) (state : ParseState) (fact : DirectiveFact) : ConditionalGroup where
  openingDirective := state.map.directives.length
  closingDirective := none
  parentGroup := state.stack.head?.map (·.group)
  parentBranch := state.stack.head?.bind fun top => (state.map.groups[top.group]?).bind fun parent => checkedPred parent.branches.length
  branches := [newBranch length state.map.directives.length fact]
  span := none

def extendedGroup (length : Nat) (state : ParseState) (fact : DirectiveFact) (group : ConditionalGroup) : ConditionalGroup :=
  { group with
    branches := endLastBody group.branches fact.logicalSpan.start ++ [newBranch length state.map.directives.length fact] }

def closedGroup (state : ParseState) (fact opening : DirectiveFact) (group : ConditionalGroup) : ConditionalGroup :=
  { group with
    branches := endLastBody group.branches fact.logicalSpan.start
    closingDirective := some state.map.directives.length
    span := some ⟨opening.logicalSpan.start,fact.logicalSpan.stop⟩ }

inductive Placed (length : Nat) (state : ParseState) (fact : DirectiveFact) : ParseState → Prop
  | diagnosed (marked : DirectiveFact) (kind : PreprocessorDiagnosticKind) (span : marked.logicalSpan = fact.logicalSpan)
      (status : marked.status.diagnosticKind = some kind) :
      Placed length state fact ⟨⟨state.map.directives ++ [marked],state.map.groups,
        state.map.diagnostics ++ [⟨kind,fact.logicalSpan,state.map.directives.length⟩]⟩,state.stack⟩
  | opened (valid : fact.status = .valid) :
      Placed length state fact ⟨⟨state.map.directives ++ [{ fact with group := some state.map.groups.length, branch := some 0 }],
        state.map.groups ++ [openedGroup length state fact],state.map.diagnostics⟩,⟨state.map.groups.length,false⟩ :: state.stack⟩
  | extended (top : OpenGroup) (rest : List OpenGroup) (group : ConditionalGroup) (sawElse : Bool) (valid : fact.status = .valid)
      (stack : state.stack = top :: rest) (held : state.map.groups[top.group]? = some group) :
      Placed length state fact ⟨⟨state.map.directives ++ [{ fact with group := some top.group, branch := some group.branches.length }],
        state.map.groups.set top.group (extendedGroup length state fact group),state.map.diagnostics⟩,{ top with sawElse := sawElse } :: rest⟩
  | closed (top : OpenGroup) (rest : List OpenGroup) (group : ConditionalGroup) (opening : DirectiveFact) (valid : fact.status = .valid)
      (stack : state.stack = top :: rest) (held : state.map.groups[top.group]? = some group)
      (begun : state.map.directives[group.openingDirective]? = some opening) :
      Placed length state fact ⟨⟨state.map.directives ++ [{ fact with group := some top.group, branch := none }],
        state.map.groups.set top.group (closedGroup state fact opening group),state.map.diagnostics⟩,rest⟩

def Grounded (state : ParseState) : Prop :=
  ∀ top ∈ state.stack, ∃ group opening, state.map.groups[top.group]? = some group ∧
    state.map.directives[group.openingDirective]? = some opening

theorem placeDirective_total {state : ParseState} (length : Nat) (fact : DirectiveFact) (grounded : state.Grounded) :
    ∃ later, state.placeDirective length fact = some later ∧ Placed length state fact later := by
  unfold placeDirective
  dsimp only
  split
  · rename_i invalid
    obtain ⟨kind,same⟩ := diagnosticKind_of_invalid invalid
    rw [PreprocessorMap.pushStatusDiagnostic_last same]
    exact ⟨_,rfl,.diagnosed fact kind rfl same⟩
  · rename_i wellFormed
    have valid : fact.status = .valid := not_not.mp wellFormed
    split
    · unfold openGroup
      dsimp only
      rw [PreprocessorMap.setGroup_last]
      exact ⟨_,rfl,.opened valid⟩
    · split
      · unfold addBranch
        dsimp only
        split
        · rw [PreprocessorMap.setStatus_last rfl]
          exact ⟨_,rfl,.diagnosed { fact with status := .unmatchedAlternative } _ rfl rfl⟩
        · rename_i top rest stack
          split
          · rw [PreprocessorMap.setGroup_last]
            split
            · rw [PreprocessorMap.setStatus_last rfl]
              exact ⟨_,rfl,.diagnosed { fact with group := some top.group, branch := none, status := .duplicateElse } _ rfl rfl⟩
            · rw [PreprocessorMap.setStatus_last rfl]
              exact ⟨_,rfl,.diagnosed { fact with group := some top.group, branch := none, status := .elifAfterElse } _ rfl rfl⟩
          · obtain ⟨group,opening,held,_⟩ := grounded top (by rw [stack]; exact List.mem_cons_self)
            rw [held]
            simp only [Option.bind_eq_bind,Option.bind_some]
            rw [PreprocessorMap.setGroup_last]
            exact ⟨_,rfl,.extended top rest group _ valid stack held⟩
      · unfold closeGroup
        dsimp only
        split
        · rw [PreprocessorMap.setStatus_last rfl]
          exact ⟨_,rfl,.diagnosed { fact with status := .unmatchedClose } _ rfl rfl⟩
        · rename_i top rest stack
          obtain ⟨group,opening,held,begun⟩ := grounded top (by rw [stack]; exact List.mem_cons_self)
          have later : (state.map.directives ++ [fact])[group.openingDirective]? = some opening := by
            rw [List.getElem?_append_left (List.getElem?_eq_some_iff.mp begun).1,begun]
          rw [held]
          simp only [Option.bind_eq_bind,Option.bind_some]
          rw [later]
          simp only [Option.bind_some]
          rw [PreprocessorMap.setGroup_last]
          exact ⟨_,rfl,.closed top rest group opening valid stack held begun⟩

end ParseState

-- The directive that ends a branch's body, unless the source does.
def ConditionalGroup.nextDirective (group : ConditionalGroup) (branch : Nat) : Option Nat :=
  match group.branches[branch+1]? with
  | some later => some later.directive
  | none => group.closingDirective

structure ConditionalGroup.Below (count : Nat) (group : ConditionalGroup) : Prop where
  opening : group.openingDirective < count
  branches : ∀ branch ∈ group.branches, branch.directive < count
  closing : ∀ closing, group.closingDirective = some closing → closing < count

def ConditionalGroup.KeptBy (old fresh : ConditionalGroup) : Prop :=
  ∀ (i : Nat) (before : ConditionalBranch), old.branches[i]? = some before →
    ∃ after, fresh.branches[i]? = some after ∧ after.directive = before.directive

theorem ConditionalGroup.KeptBy.next {old fresh : ConditionalGroup} (kept : old.KeptBy fresh) {i : Nat} {following : ConditionalBranch}
    (held : old.branches[i+1]? = some following) : fresh.nextDirective i = old.nextDirective i := by
  obtain ⟨after,moved,same⟩ := kept (i+1) following held
  unfold nextDirective
  rw [moved,held]
  exact congrArg some same

-- The child's group is over before the directive is reached.
def ConditionalGroup.ClosedBefore (group : ConditionalGroup) (directive : Nat) : Prop :=
  ∃ closing, group.closingDirective = some closing ∧ closing < directive

def Follows (first second : ConditionalGroup) : Prop :=
  first.openingDirective < second.openingDirective ∧
    (first.ClosedBefore second.openingDirective ∨ ∀ closing, first.closingDirective = some closing → second.ClosedBefore closing)

def Under (groups : List ConditionalGroup) (number : Nat) (child : ConditionalGroup) : Prop :=
  ∃ parent branch group held, child.parentGroup = some parent ∧ child.parentBranch = some branch ∧ parent < number ∧
    groups[parent]? = some group ∧ group.branches[branch]? = some held ∧ held.directive < child.openingDirective ∧
    ∀ later, group.nextDirective branch = some later → child.ClosedBefore later

structure Nesting (groups : List ConditionalGroup) (stack : List Nat) : Prop where
  ordered : ∀ (g h : Nat) (first second : ConditionalGroup), g < h → groups[g]? = some first → groups[h]? = some second → Follows first second
  rooted : ∀ h child, groups[h]? = some child → (child.parentGroup = none ∧ child.parentBranch = none) ∨ Under groups h child
  descending : stack.Pairwise (· > ·)
  unclosed : ∀ g, g ∈ stack ↔ ∃ group, groups[g]? = some group ∧ group.closingDirective = none

theorem ConditionalGroup.ClosedBefore.of_below {group : ConditionalGroup} {count : Nat} (below : group.Below count)
    (closed : group.closingDirective ≠ none) : group.ClosedBefore count := by
  obtain ⟨closing,same⟩ := Option.ne_none_iff_exists'.mp closed
  exact ⟨closing,same,below.closing closing same⟩

theorem set_cases {α : Type u} {list : List α} {place index : Nat} {fresh found : α} (read : (list.set place fresh)[index]? = some found) :
    (index = place ∧ found = fresh) ∨ (index ≠ place ∧ list[index]? = some found) := by
  rw [List.getElem?_set] at read
  split at read
  · rename_i same
    split at read
    · exact .inl ⟨same.symm,(Option.some.inj read).symm⟩
    · exact nomatch read
  · rename_i apart
    exact .inr ⟨Ne.symm apart,read⟩

theorem append_cases {α : Type u} {list : List α} {index : Nat} {last found : α} (read : (list ++ [last])[index]? = some found) :
    list[index]? = some found ∨ (index = list.length ∧ found = last) := by
  rcases Nat.lt_trichotomy index list.length with inside | same | outside
  · rw [List.getElem?_append_left inside] at read
    exact .inl read
  · subst same
    rw [List.getElem?_concat_length] at read
    exact .inr ⟨rfl,(Option.some.inj read).symm⟩
  · rw [List.getElem?_eq_none (by simp; omega)] at read
    cases read

namespace Nesting
variable {groups : List ConditionalGroup} {stack : List Nat} {count : Nat}
variable {top : Nat} {old fresh : ConditionalGroup}

theorem empty : Nesting [] [] where
  ordered := nofun
  rooted := nofun
  descending := .nil
  unclosed _ := ⟨nofun,nofun⟩

section
variable (nesting : Nesting groups (top :: stack))
include nesting

theorem first_is_open :
    ∃ group, groups[top]? = some group ∧ group.closingDirective = none := (nesting.unclosed top).mp List.mem_cons_self

theorem later_closed {h : Nat} {group : ConditionalGroup} (later : top < h)
    (held : groups[h]? = some group) : group.closingDirective ≠ none := by
  intro unclosed
  cases List.mem_cons.mp ((nesting.unclosed h).mpr ⟨group,held,unclosed⟩) with
  | inl same => omega
  | inr below =>
    have smaller := List.rel_of_pairwise_cons nesting.descending below
    omega

theorem top_open (held : groups[top]? = some old) : old.closingDirective = none := by
  obtain ⟨group,found,unclosed⟩ := nesting.first_is_open
  cases held.symm.trans found
  exact unclosed

section
variable (below : ∀ group ∈ groups, group.Below count) (held : groups[top]? = some old)
    (opening : fresh.openingDirective = old.openingDirective) (parent : fresh.parentGroup = old.parentGroup)
    (branch : fresh.parentBranch = old.parentBranch) (kept : old.KeptBy fresh)
include below held opening parent branch kept

-- The innermost open group takes a branch or its end at the newest directive.
theorem replace
    (ends : ∀ (i : Nat) (before : ConditionalBranch) (later : Nat), old.branches[i]? = some before → fresh.nextDirective i = some later →
      old.nextDirective i = some later ∨ later = count)
    (closing : ∀ last, fresh.closingDirective = some last → last = count) :
    (∀ (g h : Nat) (first second : ConditionalGroup), g < h → (groups.set top fresh)[g]? = some first → (groups.set top fresh)[h]? = some second →
      Follows first second) ∧
    ∀ h child, (groups.set top fresh)[h]? = some child →
      (child.parentGroup = none ∧ child.parentBranch = none) ∨ Under (groups.set top fresh) h child := by
  have unclosed := nesting.top_open held
  have closedBefore (h : Nat) (group : ConditionalGroup) (later : top < h) (found : groups[h]? = some group) : group.ClosedBefore count :=
    .of_below (below group (List.mem_of_getElem? found)) (nesting.later_closed later found)
  refine ⟨fun g h first second before readFirst readSecond => ?_,fun h child read => ?_⟩
  · rcases set_cases readFirst with ⟨rfl,rfl⟩ | ⟨_,found⟩
    · rcases set_cases readSecond with ⟨rfl,_⟩ | ⟨_,later⟩
      · exact absurd before (Nat.lt_irrefl _)
      · obtain ⟨order,_⟩ := nesting.ordered g h old second before held later
        refine ⟨opening ▸ order,.inr fun last same => ?_⟩
        rw [closing last same]
        exact closedBefore h second before later
    · rcases set_cases readSecond with ⟨rfl,rfl⟩ | ⟨_,later⟩
      · obtain ⟨order,disjoint | inside⟩ := nesting.ordered g h first old before found held
        · exact ⟨by rw [opening]; exact order,.inl (by rw [opening]; exact disjoint)⟩
        · refine ⟨by rw [opening]; exact order,.inr fun last same => ?_⟩
          obtain ⟨within,absurdly,_⟩ := inside last same
          exact nomatch unclosed.symm.trans absurdly
      · exact nesting.ordered g h first second before found later
  · rcases set_cases read with ⟨rfl,rfl⟩ | ⟨apart,found⟩
    · rcases nesting.rooted h old held with root | ⟨p,b,group,joined,isParent,isBranch,smaller,parentHeld,branchHeld,after,closes⟩
      · exact .inl ⟨parent.trans root.1,branch.trans root.2⟩
      · refine .inr ⟨p,b,group,joined,parent.trans isParent,branch.trans isBranch,smaller,?_,branchHeld,opening ▸ after,fun later same => ?_⟩
        · rw [List.getElem?_set_ne (by omega)]
          exact parentHeld
        · obtain ⟨last,absurdly,_⟩ := closes later same
          exact nomatch unclosed.symm.trans absurdly
    · rcases nesting.rooted h child found with root | ⟨p,b,group,joined,isParent,isBranch,smaller,parentHeld,branchHeld,after,closes⟩
      · exact .inl root
      · by_cases same : p = top
        · subst same
          cases held.symm.trans parentHeld
          obtain ⟨moved,movedHeld,sameDirective⟩ := kept b joined branchHeld
          refine .inr ⟨p,b,fresh,moved,isParent,isBranch,smaller,?_,movedHeld,sameDirective ▸ after,fun later next => ?_⟩
          · rw [List.getElem?_set_self (List.getElem?_eq_some_iff.mp held).1]
          · cases ends b joined later branchHeld next with
            | inl before => exact closes later before
            | inr newest =>
              rw [newest]
              exact closedBefore h child smaller found
        · refine .inr ⟨p,b,group,joined,isParent,isBranch,smaller,?_,branchHeld,after,closes⟩
          rw [List.getElem?_set_ne (Ne.symm same)]
          exact parentHeld

theorem extended (closing : fresh.closingDirective = none)
    (newest : ∃ last, fresh.branches[old.branches.length]? = some last ∧ last.directive = count) :
    Nesting (groups.set top fresh) (top :: stack) := by
  have unclosed := nesting.top_open held
  have ends (i : Nat) (before : ConditionalBranch) (later : Nat) (inside : old.branches[i]? = some before)
      (next : fresh.nextDirective i = some later) : old.nextDirective i = some later ∨ later = count := by
    have bound := (List.getElem?_eq_some_iff.mp inside).1
    cases following : old.branches[i+1]? with
    | some behind => exact .inl ((kept.next following).symm.trans next)
    | none =>
      unfold ConditionalGroup.nextDirective at next
      have last : i+1 = old.branches.length := by
        have := List.getElem?_eq_none_iff.mp following
        omega
      obtain ⟨final,found,same⟩ := newest
      rw [last,found] at next
      exact .inr ((Option.some.inj next).symm.trans same)
  obtain ⟨ordered,rooted⟩ := nesting.replace below held opening parent branch kept ends fun last absurdly =>
    nomatch closing.symm.trans absurdly
  refine ⟨ordered,rooted,nesting.descending,fun g => ?_⟩
  rw [nesting.unclosed]
  constructor
  · rintro ⟨group,found,closes⟩
    by_cases same : g = top
    · subst same
      exact ⟨fresh,List.getElem?_set_self (List.getElem?_eq_some_iff.mp held).1,closing⟩
    · exact ⟨group,by rw [List.getElem?_set_ne (Ne.symm same)]; exact found,closes⟩
  · rintro ⟨group,read,closes⟩
    rcases set_cases read with ⟨rfl,_⟩ | ⟨_,found⟩
    · exact ⟨old,held,unclosed⟩
    · exact ⟨group,found,closes⟩

theorem closed (closing : fresh.closingDirective = some count)
    (length : fresh.branches.length = old.branches.length) :
    Nesting (groups.set top fresh) stack := by
  have ends (i : Nat) (before : ConditionalBranch) (later : Nat) (inside : old.branches[i]? = some before)
      (next : fresh.nextDirective i = some later) : old.nextDirective i = some later ∨ later = count := by
    cases following : old.branches[i+1]? with
    | some behind => exact .inl ((kept.next following).symm.trans next)
    | none =>
      unfold ConditionalGroup.nextDirective at next
      rw [List.getElem?_eq_none (by rw [length]; exact List.getElem?_eq_none_iff.mp following),closing] at next
      exact .inr (Option.some.inj next).symm
  obtain ⟨ordered,rooted⟩ := nesting.replace below held opening parent branch kept ends fun last same =>
    (Option.some.inj (closing.symm.trans same)).symm
  obtain ⟨above,descending⟩ := List.pairwise_cons.mp nesting.descending
  refine ⟨ordered,rooted,descending,fun g => ?_⟩
  constructor
  · intro listed
    obtain ⟨group,found,closes⟩ := (nesting.unclosed g).mp (List.mem_cons_of_mem _ listed)
    have smaller := above g listed
    exact ⟨group,by rw [List.getElem?_set_ne (by omega)]; exact found,closes⟩
  · rintro ⟨group,read,closes⟩
    rcases set_cases read with ⟨_,rfl⟩ | ⟨apart,found⟩
    · exact nomatch closing.symm.trans closes
    · cases List.mem_cons.mp ((nesting.unclosed g).mpr ⟨group,found,closes⟩) with
      | inl same => exact absurd same apart
      | inr listed => exact listed

end

end

theorem opened (nesting : Nesting groups stack) (below : ∀ group ∈ groups, group.Below count)
    (filled : ∀ group ∈ groups, group.branches ≠ []) (opening : fresh.openingDirective = count) (unclosed : fresh.closingDirective = none)
    (root : stack = [] → fresh.parentGroup = none ∧ fresh.parentBranch = none)
    (inner : ∀ top rest group, stack = top :: rest → groups[top]? = some group →
      fresh.parentGroup = some top ∧ fresh.parentBranch = some (group.branches.length-1)) :
    Nesting (groups ++ [fresh]) (groups.length :: stack) where
  ordered g h first second before readFirst readSecond := by
    rcases append_cases readSecond with later | ⟨rfl,rfl⟩
    · have inside := (List.getElem?_eq_some_iff.mp later).1
      rw [List.getElem?_append_left (by omega)] at readFirst
      exact nesting.ordered g h first second before readFirst later
    · rw [List.getElem?_append_left before] at readFirst
      have earlier := below first (List.mem_of_getElem? readFirst)
      refine ⟨opening ▸ earlier.opening,?_⟩
      cases ends : first.closingDirective with
      | none => exact .inr nofun
      | some closing => exact .inl ⟨closing,ends,opening ▸ earlier.closing closing ends⟩
  rooted h child read := by
    rcases append_cases read with found | ⟨rfl,rfl⟩
    · rcases nesting.rooted h child found with root | ⟨p,b,group,joined,isParent,isBranch,smaller,parentHeld,rest⟩
      · exact .inl root
      · refine .inr ⟨p,b,group,joined,isParent,isBranch,smaller,?_,rest⟩
        rw [List.getElem?_append_left (List.getElem?_eq_some_iff.mp parentHeld).1]
        exact parentHeld
    · cases outer : stack with
      | nil => exact .inl (root outer)
      | cons top rest =>
        obtain ⟨group,held,still⟩ := (nesting.unclosed top).mp (by rw [outer]; exact List.mem_cons_self)
        obtain ⟨isParent,isBranch⟩ := inner top rest group outer held
        have listed := List.mem_of_getElem? held
        have inside := (List.getElem?_eq_some_iff.mp held).1
        have positive := List.length_pos_iff.mpr (filled group listed)
        have last : group.branches.length-1 < group.branches.length := by omega
        refine .inr ⟨top,_,group,group.branches[group.branches.length-1],isParent,isBranch,inside,?_,
          List.getElem?_eq_getElem last,?_,fun later next => ?_⟩
        · rw [List.getElem?_append_left inside]
          exact held
        · rw [opening]
          exact (below group listed).branches _ (List.getElem_mem last)
        · rw [ConditionalGroup.nextDirective,List.getElem?_eq_none (by omega)] at next
          exact nomatch still.symm.trans next
  descending := by
    refine List.pairwise_cons.mpr ⟨fun g listed => ?_,nesting.descending⟩
    obtain ⟨group,held,_⟩ := (nesting.unclosed g).mp listed
    exact (List.getElem?_eq_some_iff.mp held).1
  unclosed g := by
    rw [List.mem_cons,nesting.unclosed]
    constructor
    · rintro (rfl | ⟨group,held,closes⟩)
      · exact ⟨fresh,List.getElem?_concat_length,unclosed⟩
      · refine ⟨group,?_,closes⟩
        rw [List.getElem?_append_left (List.getElem?_eq_some_iff.mp held).1]
        exact held
    · rintro ⟨group,read,closes⟩
      rcases append_cases read with held | ⟨rfl,_⟩
      · exact .inr ⟨group,held,closes⟩
      · exact .inl rfl

end Nesting

theorem length_endLastBody (branches : List ConditionalBranch) (stop : Nat) : (endLastBody branches stop).length = branches.length :=
  List.length_modify _ _ _

theorem endLastBody_getElem? (branches : List ConditionalBranch) (stop i : Nat) :
    (endLastBody branches stop)[i]? = (branches[i]?).map fun branch => if i+1 = branches.length then branch.endsAt stop else branch := by
  unfold endLastBody
  rw [List.getElem?_modify]
  cases held : branches[i]? with
  | none => rfl
  | some branch =>
    have inside := (List.getElem?_eq_some_iff.mp held).1
    by_cases last : i+1 = branches.length
    · have same : branches.length-1 = i := by omega
      simp [last,same]
    · have apart : branches.length-1 ≠ i := by omega
      simp [last,apart]

theorem endLastBody_keeps {branches : List ConditionalBranch} (stop : Nat) {i : Nat} {before : ConditionalBranch}
    (held : branches[i]? = some before) : ∃ after, (endLastBody branches stop)[i]? = some after ∧ after.directive = before.directive := by
  rw [endLastBody_getElem?,held]
  refine ⟨_,rfl,?_⟩
  dsimp only
  split
  · rfl
  · rfl

theorem kept_extended {group fresh : ConditionalGroup} {stop : Nat} {newest : ConditionalBranch}
    (grown : fresh.branches = endLastBody group.branches stop ++ [newest]) : group.KeptBy fresh := by
  intro i before held
  obtain ⟨after,moved,same⟩ := endLastBody_keeps stop held
  exact ⟨after,by rw [grown,List.getElem?_append_left (List.getElem?_eq_some_iff.mp moved).1]; exact moved,same⟩

def stopBefore (length : Nat) (directives : List DirectiveFact) : Option Nat → Nat
  | none => length
  | some later => ((directives[later]?).map fun fact => fact.logicalSpan.start).getD length

structure BranchLinks (length : Nat) (directives : List DirectiveFact) (number : Nat) (group : ConditionalGroup) (i : Nat)
    (branch : ConditionalBranch) : Prop where
  listed : ∃ fact, directives[branch.directive]? = some fact ∧ fact.status = .valid ∧ fact.group = some number ∧ fact.branch = some i ∧
    branch.conditionSpan = fact.argumentSpan ∧ branch.bodySpan.start = fact.logicalSpan.stop
  stop : branch.bodySpan.stop = stopBefore length directives (group.nextDirective i)
  later : ∀ following, group.nextDirective i = some following → branch.directive < following

def closedSpan (directives : List DirectiveFact) (group : ConditionalGroup) : Option ByteRange := do
  let closing ← group.closingDirective
  let first ← directives[group.openingDirective]?
  let last ← directives[closing]?
  return ⟨first.logicalSpan.start,last.logicalSpan.stop⟩

structure GroupLinks (length : Nat) (directives : List DirectiveFact) (number : Nat) (group : ConditionalGroup) : Prop where
  opening : group.branches.head?.map (·.directive) = some group.openingDirective
  branches : ∀ i branch, group.branches[i]? = some branch → BranchLinks length directives number group i branch
  closing : ∀ closing, group.closingDirective = some closing →
    ∃ fact, directives[closing]? = some fact ∧ fact.status = .valid ∧ fact.group = some number ∧ fact.branch = none
  span : group.span = closedSpan directives group

namespace GroupLinks
variable {length number : Nat} {directives : List DirectiveFact} {group : ConditionalGroup}
variable {i : Nat} {fact : DirectiveFact} {fresh : ConditionalGroup}

theorem filled (links : GroupLinks length directives number group) :
    ∃ first, group.branches[0]? = some first ∧ first.directive = group.openingDirective := by
  have opening := links.opening
  rw [List.head?_eq_getElem?] at opening
  exact Option.map_eq_some_iff.mp opening

theorem below (links : GroupLinks length directives number group) : group.Below directives.length := by
  have branches (branch : ConditionalBranch) (listed : branch ∈ group.branches) : branch.directive < directives.length := by
    obtain ⟨i,held⟩ := List.getElem?_of_mem listed
    obtain ⟨fact,found,_⟩ := (links.branches i branch held).listed
    exact (List.getElem?_eq_some_iff.mp found).1
  refine ⟨?_,branches,fun closing same => ?_⟩
  · obtain ⟨first,held,same⟩ := links.filled
    exact same ▸ branches first (List.mem_of_getElem? held)
  · obtain ⟨fact,found,_⟩ := links.closing closing same
    exact (List.getElem?_eq_some_iff.mp found).1

theorem next_below (below : group.Below directives.length) {following : Nat} (next : group.nextDirective i = some following) :
    following < directives.length := by
  unfold ConditionalGroup.nextDirective at next
  split at next
  · rename_i later held
    cases next
    exact below.branches later (List.mem_of_getElem? held)
  · exact below.closing following next

theorem listed_later {place : Nat} (added : DirectiveFact) (found : directives[place]? = some fact) :
    (directives ++ [added])[place]? = some fact := by
  rw [List.getElem?_append_left (List.getElem?_eq_some_iff.mp found).1]
  exact found

theorem stopBefore_later (added : DirectiveFact) {next : Option Nat} (below : ∀ following, next = some following → following < directives.length) :
    stopBefore length (directives ++ [added]) next = stopBefore length directives next := by
  cases next with
  | none => rfl
  | some following =>
    unfold stopBefore
    dsimp only
    rw [List.getElem?_append_left (below following rfl)]

theorem branch_later {branch : ConditionalBranch} (added : DirectiveFact) (below : group.Below directives.length)
    (links : BranchLinks length directives number group i branch) : BranchLinks length (directives ++ [added]) number group i branch := by
  obtain ⟨fact,found,rest⟩ := links.listed
  refine ⟨⟨fact,listed_later added found,rest⟩,?_,links.later⟩
  rw [stopBefore_later added fun following next => next_below below next]
  exact links.stop

theorem closedSpan_later (added : DirectiveFact) (below : group.Below directives.length) :
    closedSpan (directives ++ [added]) group = closedSpan directives group := by
  unfold closedSpan
  rw [List.getElem?_append_left below.opening]
  cases closes : group.closingDirective with
  | none => rfl
  | some closing => rw [Option.bind_eq_bind,Option.bind_some,List.getElem?_append_left (below.closing closing closes)]; rfl

theorem later (links : GroupLinks length directives number group) (added : DirectiveFact) :
    GroupLinks length (directives ++ [added]) number group where
  opening := links.opening
  branches i branch held := branch_later added links.below (links.branches i branch held)
  closing closing same := by
    obtain ⟨fact,found,rest⟩ := links.closing closing same
    exact ⟨fact,listed_later added found,rest⟩
  span := links.span.trans (closedSpan_later added links.below).symm

theorem branch_ends {before branch : ConditionalBranch} {marked : DirectiveFact}
    (below : group.Below directives.length) (links : BranchLinks length directives number group i before)
    (held : group.branches[i]? = some before)
    (moved : branch = if i+1 = group.branches.length then before.endsAt marked.logicalSpan.start else before)
    (inner : i+1 ≠ group.branches.length → fresh.nextDirective i = group.nextDirective i)
    (last : i+1 = group.branches.length → fresh.nextDirective i = some directives.length) :
    BranchLinks length (directives ++ [marked]) number fresh i branch := by
  by_cases final : i+1 = group.branches.length
  · rw [if_pos final] at moved
    subst moved
    obtain ⟨fact,found,valid,back,place,condition,start⟩ := links.listed
    refine ⟨⟨fact,listed_later marked found,valid,back,place,condition,start⟩,?_,fun following next => ?_⟩
    · rw [last final]
      unfold stopBefore
      dsimp only
      rw [List.getElem?_concat_length]
      rfl
    · rw [last final] at next
      cases next
      exact below.branches before (List.mem_of_getElem? held)
  · rw [if_neg final] at moved
    subst moved
    have kept := branch_later marked below links
    refine ⟨kept.listed,?_,fun following next => ?_⟩
    · rw [inner final]
      exact kept.stop
    · rw [inner final] at next
      exact kept.later following next

theorem head_kept (links : GroupLinks length directives number group)
    (kept : group.KeptBy fresh)
    (opening : fresh.openingDirective = group.openingDirective) :
    fresh.branches.head?.map (·.directive) = some fresh.openingDirective := by
  obtain ⟨first,held,same⟩ := links.filled
  obtain ⟨after,moved,directive⟩ := kept 0 first held
  rw [List.head?_eq_getElem?,moved,opening,← same]
  exact congrArg some directive

theorem extended (links : GroupLinks length directives number group) (valid : fact.status = .valid)
    (unclosed : group.closingDirective = none) :
    GroupLinks length (directives ++ [{ fact with group := some number, branch := some group.branches.length }]) number
      { group with branches := endLastBody group.branches fact.logicalSpan.start ++ [ParseState.newBranch length directives.length fact] } := by
  have newest : (endLastBody group.branches fact.logicalSpan.start ++ [ParseState.newBranch length directives.length fact])[group.branches.length]? =
      some (ParseState.newBranch length directives.length fact) := by
    rw [← length_endLastBody group.branches fact.logicalSpan.start]
    exact List.getElem?_concat_length
  refine ⟨links.head_kept (kept_extended rfl) rfl,fun i branch read => ?_,fun closing same => (nomatch unclosed.symm.trans same),?_⟩
  · rcases append_cases read with earlier | ⟨place,rfl⟩
    · rw [endLastBody_getElem?] at earlier
      obtain ⟨before,held,moved⟩ := Option.map_eq_some_iff.mp earlier
      have bound := (List.getElem?_eq_some_iff.mp held).1
      refine branch_ends links.below (links.branches i before held) held moved.symm (fun inner => (kept_extended rfl).next (List.getElem?_eq_getElem (show i+1 < _ by omega))) fun last => ?_
      unfold ConditionalGroup.nextDirective
      dsimp only
      rw [last,newest]
      rfl
    · rw [length_endLastBody] at place
      subst place
      have last : ConditionalGroup.nextDirective { group with
          branches := endLastBody group.branches fact.logicalSpan.start ++ [ParseState.newBranch length directives.length fact] }
          group.branches.length = none := by
        unfold ConditionalGroup.nextDirective
        dsimp only
        rw [List.getElem?_eq_none (by simp [length_endLastBody])]
        exact unclosed
      refine ⟨⟨_,List.getElem?_concat_length,valid,rfl,rfl,rfl,rfl⟩,?_,fun following next => nomatch last.symm.trans next⟩
      rw [last]
      rfl
  · change group.span = _
    rw [links.span]
    unfold closedSpan
    dsimp only
    rw [unclosed]
    rfl

theorem closed {opening : DirectiveFact} (links : GroupLinks length directives number group) (valid : fact.status = .valid)
    (begun : directives[group.openingDirective]? = some opening) :
    GroupLinks length (directives ++ [{ fact with group := some number, branch := none }]) number
      { group with
        branches := endLastBody group.branches fact.logicalSpan.start
        closingDirective := some directives.length
        span := some ⟨opening.logicalSpan.start,fact.logicalSpan.stop⟩ } := by
  refine ⟨links.head_kept (fun _ _ => endLastBody_keeps _) rfl,fun i branch read => ?_,fun closing same => ?_,?_⟩
  · dsimp only at read
    rw [endLastBody_getElem?] at read
    obtain ⟨before,held,moved⟩ := Option.map_eq_some_iff.mp read
    have bound := (List.getElem?_eq_some_iff.mp held).1
    refine branch_ends links.below (links.branches i before held) held moved.symm (fun inner => ConditionalGroup.KeptBy.next (fun _ _ => endLastBody_keeps _) (List.getElem?_eq_getElem (show i+1 < _ by omega))) fun last => ?_
    unfold ConditionalGroup.nextDirective
    dsimp only
    rw [List.getElem?_eq_none (by rw [length_endLastBody]; omega)]
  · cases same
    exact ⟨_,List.getElem?_concat_length,valid,rfl,rfl⟩
  · unfold closedSpan
    simp only [Option.bind_eq_bind,Option.bind_some]
    rw [listed_later _ begun,List.getElem?_concat_length]
    rfl

theorem opened (valid : fact.status = .valid) (group : ConditionalGroup)
    (opening : group.openingDirective = directives.length) (closing : group.closingDirective = none) (span : group.span = none)
    (branches : group.branches = [ParseState.newBranch length directives.length fact]) :
    GroupLinks length (directives ++ [{ fact with group := some number, branch := some 0 }]) number group where
  opening := by
    rw [branches,opening]
    rfl
  branches i branch held := by
    rw [branches] at held
    have place : i = 0 := by
      have inside := (List.getElem?_eq_some_iff.mp held).1
      simpa using inside
    subst place
    cases held
    have last : group.nextDirective 0 = none := by
      unfold ConditionalGroup.nextDirective
      rw [branches]
      exact closing
    refine ⟨⟨_,List.getElem?_concat_length,valid,rfl,rfl,rfl,rfl⟩,?_,fun following next => nomatch last.symm.trans next⟩
    rw [last]
    rfl
  closing last same := nomatch closing.symm.trans same
  span := by
    unfold closedSpan
    rw [span,closing]
    rfl

end GroupLinks

def statusDiagnostics (directives : List DirectiveFact) : List PreprocessorDiagnostic :=
  directives.zipIdx.filterMap fun (fact,directive) => fact.status.diagnosticKind.map fun kind => ⟨kind,fact.logicalSpan,directive⟩

theorem statusDiagnostics_append (directives : List DirectiveFact) (fact : DirectiveFact) :
    statusDiagnostics (directives ++ [fact]) = statusDiagnostics directives ++
      (fact.status.diagnosticKind.map fun kind => (⟨kind,fact.logicalSpan,directives.length⟩ : PreprocessorDiagnostic)).toList := by
  unfold statusDiagnostics
  rw [List.zipIdx_append,List.filterMap_append]
  congr 1
  cases same : fact.status.diagnosticKind with
  | none => simp [same]
  | some kind => simp [same]

structure Mapped (length : Nat) (state : ParseState) : Prop where
  links : ∀ number group, state.map.groups[number]? = some group → GroupLinks length state.map.directives number group
  nesting : Nesting state.map.groups (state.stack.map (·.group))
  diagnostics : state.map.diagnostics = statusDiagnostics state.map.directives

namespace Mapped
variable {length : Nat} {state next : ParseState} {fact : DirectiveFact}

theorem empty : Mapped length ⟨.empty,[]⟩ where
  links := nofun
  nesting := .empty
  diagnostics := rfl

theorem below (mapped : Mapped length state) : ∀ group ∈ state.map.groups, group.Below state.map.directives.length := by
  intro group listed
  obtain ⟨number,held⟩ := List.getElem?_of_mem listed
  exact (mapped.links number group held).below

theorem filled (mapped : Mapped length state) : ∀ group ∈ state.map.groups, group.branches ≠ [] := by
  intro group listed nothing
  obtain ⟨number,held⟩ := List.getElem?_of_mem listed
  obtain ⟨first,read,_⟩ := (mapped.links number group held).filled
  rw [nothing] at read
  exact nomatch read

theorem grounded (mapped : Mapped length state) : state.Grounded := by
  intro top listed
  obtain ⟨group,held,_⟩ := (mapped.nesting.unclosed top.group).mp (List.mem_map_of_mem listed)
  exact ⟨group,_,held,List.getElem?_eq_getElem (mapped.links top.group group held).below.opening⟩

theorem innermost {top : OpenGroup} {rest : List OpenGroup} {group : ConditionalGroup} (mapped : Mapped length state)
    (stack : state.stack = top :: rest) (held : state.map.groups[top.group]? = some group) :
    Nesting state.map.groups (top.group :: rest.map (·.group)) ∧ group.closingDirective = none := by
  have nesting := mapped.nesting
  rw [stack,List.map_cons] at nesting
  obtain ⟨found,same,unclosed⟩ := nesting.first_is_open
  cases held.symm.trans same
  exact ⟨nesting,unclosed⟩

theorem links_set {top : Nat} {fresh : ConditionalGroup} {marked : DirectiveFact} (mapped : Mapped length state)
    (links : GroupLinks length (state.map.directives ++ [marked]) top fresh) (number : Nat) (group : ConditionalGroup)
    (read : (state.map.groups.set top fresh)[number]? = some group) :
    GroupLinks length (state.map.directives ++ [marked]) number group := by
  rcases set_cases read with ⟨rfl,rfl⟩ | ⟨_,held⟩
  · exact links
  · exact (mapped.links number group held).later marked

theorem quiet {marked : DirectiveFact} (mapped : Mapped length state) (valid : marked.status = .valid) :
    state.map.diagnostics = statusDiagnostics (state.map.directives ++ [marked]) := by
  rw [statusDiagnostics_append,valid,mapped.diagnostics]
  exact (List.append_nil _).symm

theorem placed (mapped : Mapped length state) (step : ParseState.Placed length state fact next) : Mapped length next := by
  cases step with
  | diagnosed marked kind span status =>
    refine ⟨fun number group held => (mapped.links number group held).later marked,mapped.nesting,?_⟩
    dsimp only
    rw [statusDiagnostics_append,status,mapped.diagnostics,span]
    rfl
  | opened valid =>
    refine ⟨fun number group read => ?_,?_,mapped.quiet (by exact valid)⟩
    · rcases append_cases read with held | ⟨rfl,rfl⟩
      · exact (mapped.links number group held).later _
      · exact GroupLinks.opened valid _ rfl rfl rfl rfl
    · refine mapped.nesting.opened mapped.below mapped.filled rfl rfl ?_ ?_
      · intro nothing
        have bare := List.map_eq_nil_iff.mp nothing
        unfold ParseState.openedGroup
        rw [bare]
        exact ⟨rfl,rfl⟩
      · intro top rest group outer held
        obtain ⟨first,others,stack,rfl,rfl⟩ := List.map_eq_cons_iff.mp outer
        have positive := List.length_pos_iff.mpr (mapped.filled group (List.mem_of_getElem? held))
        unfold ParseState.openedGroup
        rw [stack]
        refine ⟨rfl,?_⟩
        dsimp only
        rw [List.head?_cons,Option.bind_some,held,Option.bind_some,ParseState.checkedPred,if_neg (by omega)]
  | extended top rest group sawElse valid stack held =>
    obtain ⟨nesting,unclosed⟩ := mapped.innermost stack held
    have links := (mapped.links top.group group held).extended valid unclosed
    refine ⟨mapped.links_set links,?_,mapped.quiet (by exact valid)⟩
    refine nesting.extended mapped.below held rfl rfl rfl (kept_extended rfl) unclosed
      ⟨ParseState.newBranch length state.map.directives.length fact,?_,rfl⟩
    unfold ParseState.extendedGroup
    dsimp only
    rw [← length_endLastBody group.branches fact.logicalSpan.start]
    exact List.getElem?_concat_length
  | closed top rest group opening valid stack held begun =>
    obtain ⟨nesting,unclosed⟩ := mapped.innermost stack held
    have links := (mapped.links top.group group held).closed valid begun
    refine ⟨mapped.links_set links,?_,mapped.quiet (by exact valid)⟩
    exact nesting.closed mapped.below held rfl rfl rfl (fun i before inside => endLastBody_keeps fact.logicalSpan.start inside) rfl
      (length_endLastBody _ _)

theorem placed_spans (step : ParseState.Placed length state fact next) :
    next.map.directives.map (·.logicalSpan) = state.map.directives.map (·.logicalSpan) ++ [fact.logicalSpan] := by
  cases step with
  | diagnosed marked kind span status => simp [span]
  | opened | extended | closed => simp

end Mapped

theorem parseRanges_total {source : List UInt8} (ranges : List ByteRange)
    (whole : ∀ range ∈ ranges, range.start < range.stop ∧ WholeEnd source range.stop) (state : ParseState)
    (mapped : Mapped source.length state) :
    ∃ final, ranges.foldlM (ParseState.parseRange source) state = some final ∧ Mapped source.length final ∧
      ∃ spans, spans.Sublist ranges ∧ final.map.directives.map (·.logicalSpan) = state.map.directives.map (·.logicalSpan) ++ spans := by
  induction ranges generalizing state with
  | nil => exact ⟨state,rfl,mapped,[],List.Sublist.refl _,(List.append_nil _).symm⟩
  | cons range ranges ih =>
    obtain ⟨filled,closes⟩ := whole range List.mem_cons_self
    have rest (other : ByteRange) (listed : other ∈ ranges) := whole other (List.mem_cons_of_mem _ listed)
    obtain ⟨parsed,read⟩ := parseConditionalDirective_total closes filled
    rw [List.foldlM_cons]
    cases parsed with
    | none =>
      have same : ParseState.parseRange source state range = some state := by
        unfold ParseState.parseRange
        rw [read]
        rfl
      obtain ⟨final,run,ends,spans,sublist,listed⟩ := ih rest state mapped
      rw [same]
      exact ⟨final,run,ends,spans,sublist.cons _,listed⟩
    | some directive =>
      obtain ⟨next,placed,step⟩ :=
        ParseState.placeDirective_total source.length (ParseState.parsedFact source range directive) mapped.grounded
      have same : ParseState.parseRange source state range = some next := by
        unfold ParseState.parseRange
        rw [read]
        exact placed
      obtain ⟨final,run,ends,spans,sublist,listed⟩ := ih rest next (mapped.placed step)
      rw [same]
      refine ⟨final,run,ends,range :: spans,sublist.cons_cons _,?_⟩
      rw [listed,Mapped.placed_spans step,List.append_assoc]
      rfl

structure Spread (length : Nat) (directives : List DirectiveFact) : Prop where
  apart : (directives.map (·.logicalSpan)).Pairwise fun first second => first.stop ≤ second.start
  whole : ∀ fact ∈ directives, fact.logicalSpan.start < fact.logicalSpan.stop ∧ fact.logicalSpan.stop ≤ length

def Apart (first second : ByteRange) : Prop := first.stop ≤ second.start ∨ second.stop ≤ first.start

def StrictlyInside (inner outer : ByteRange) : Prop := outer.start < inner.start ∧ inner.stop < outer.stop

def ConditionalGroup.stop (length : Nat) (group : ConditionalGroup) : Nat := (group.span.map (·.stop)).getD length

structure BranchChain (length : Nat) (directives : List DirectiveFact) (group : ConditionalGroup) : Prop where
  first : ∃ branch opening, group.branches[0]? = some branch ∧ directives[group.openingDirective]? = some opening ∧
    branch.directive = group.openingDirective ∧ branch.bodySpan.start = opening.logicalSpan.stop
  filled : ∀ branch ∈ group.branches, branch.bodySpan.start ≤ branch.bodySpan.stop ∧ branch.bodySpan.stop ≤ length
  consecutive : ∀ i branch later, group.branches[i]? = some branch → group.branches[i+1]? = some later →
    ∃ fact, directives[later.directive]? = some fact ∧ branch.bodySpan.stop = fact.logicalSpan.start ∧
      later.bodySpan.start = fact.logicalSpan.stop ∧ branch.bodySpan.stop < later.bodySpan.start
  closed : ∀ i branch closing, group.branches[i]? = some branch → i+1 = group.branches.length → group.closingDirective = some closing →
    ∃ fact, directives[closing]? = some fact ∧ branch.bodySpan.stop = fact.logicalSpan.start
  unclosed : ∀ i branch, group.branches[i]? = some branch → i+1 = group.branches.length → group.closingDirective = none →
    branch.bodySpan.stop = length

def InsideParent (length : Nat) (map : PreprocessorMap) (number : Nat) (child : ConditionalGroup) : Prop :=
  ∃ parent branch group held opening, child.parentGroup = some parent ∧ child.parentBranch = some branch ∧ parent < number ∧
    map.groups[parent]? = some group ∧ group.branches[branch]? = some held ∧
    map.directives[child.openingDirective]? = some opening ∧ held.bodySpan.start ≤ opening.logicalSpan.start ∧
    child.stop length ≤ held.bodySpan.stop

def ParentOf (groups : List ConditionalGroup) (parent number : Nat) : Prop :=
  ∃ child, groups[number]? = some child ∧ child.parentGroup = some parent

def Unclosed (groups : List ConditionalGroup) (number : Nat) : Prop :=
  ∃ group, groups[number]? = some group ∧ group.closingDirective = none

structure PointsBack (directives : List DirectiveFact) (number : Nat) (group : ConditionalGroup) : Prop where
  branches : ∀ (i : Nat) (branch : ConditionalBranch), group.branches[i]? = some branch →
    ∃ fact, directives[branch.directive]? = some fact ∧ fact.status = .valid ∧ fact.group = some number ∧ fact.branch = some i
  closing : ∀ closing, group.closingDirective = some closing →
    ∃ fact, directives[closing]? = some fact ∧ fact.status = .valid ∧ fact.group = some number ∧ fact.branch = none

def unclosedDiagnostics (map : PreprocessorMap) : List PreprocessorDiagnostic :=
  (map.groups.filter fun group => group.closingDirective.isNone).filterMap fun group =>
    (map.directives[group.openingDirective]?).map fun opening => ⟨.unclosedConditional,opening.logicalSpan,group.openingDirective⟩

structure Forest (length : Nat) (map : PreprocessorMap) : Prop where
  spread : Spread length map.directives
  spans : ∀ group ∈ map.groups, group.span = closedSpan map.directives group
  nested : ∀ (g h : Nat) first second a b, g ≠ h → map.groups[g]? = some first → map.groups[h]? = some second →
    first.span = some a → second.span = some b → Apart a b ∨ StrictlyInside a b ∨ StrictlyInside b a
  branches : ∀ group ∈ map.groups, BranchChain length map.directives group
  parents : ∀ number child, map.groups[number]? = some child →
    (child.parentGroup = none ∧ child.parentBranch = none) ∨ InsideParent length map number child
  unclosed : ∀ ancestor number, Relation.TransGen (ParentOf map.groups) ancestor number → Unclosed map.groups number →
    Unclosed map.groups ancestor
  pointing : ∀ number group, map.groups[number]? = some group → PointsBack map.directives number group
  diagnosed : map.diagnostics = statusDiagnostics map.directives ++ unclosedDiagnostics map

namespace Spread
variable {length : Nat} {directives : List DirectiveFact}

theorem before (spread : Spread length directives) {i j : Nat} {first second : DirectiveFact} (smaller : i < j)
    (held : directives[i]? = some first) (later : directives[j]? = some second) : first.logicalSpan.stop ≤ second.logicalSpan.start := by
  obtain ⟨inside,rfl⟩ := List.getElem?_eq_some_iff.mp held
  obtain ⟨behind,rfl⟩ := List.getElem?_eq_some_iff.mp later
  have apart := List.pairwise_iff_getElem.mp spread.apart i j (by simpa using inside) (by simpa using behind) smaller
  simpa using apart

theorem listed (spread : Spread length directives) {i : Nat} {fact : DirectiveFact} (held : directives[i]? = some fact) :
    fact.logicalSpan.start < fact.logicalSpan.stop ∧ fact.logicalSpan.stop ≤ length := spread.whole fact (List.mem_of_getElem? held)

end Spread

section
variable {length : Nat} {map : PreprocessorMap} {stack : List Nat}
  (links : ∀ number group, map.groups[number]? = some group → GroupLinks length map.directives number group)
variable {number : Nat} {group : ConditionalGroup}
include links

section
variable (held : map.groups[number]? = some group)
include held

theorem closedSpan_some {closing : Nat}
    (closes : group.closingDirective = some closing) : ∃ first last, map.directives[group.openingDirective]? = some first ∧
      map.directives[closing]? = some last ∧ group.span = some ⟨first.logicalSpan.start,last.logicalSpan.stop⟩ := by
  have below := (links number group held).below
  have opening := List.getElem?_eq_getElem below.opening
  have ending := List.getElem?_eq_getElem (below.closing closing closes)
  refine ⟨_,_,opening,ending,?_⟩
  rw [(links number group held).span,closedSpan,closes]
  simp only [Option.bind_eq_bind,Option.bind_some]
  rw [opening]
  simp only [Option.bind_some]
  rw [ending]
  rfl

theorem closing_of_span {span : ByteRange}
    (spanned : group.span = some span) : ∃ closing first last, group.closingDirective = some closing ∧
      map.directives[group.openingDirective]? = some first ∧ map.directives[closing]? = some last ∧
      span = ⟨first.logicalSpan.start,last.logicalSpan.stop⟩ := by
  cases closes : group.closingDirective with
  | none =>
    rw [(links number group held).span,closedSpan,closes] at spanned
    exact nomatch spanned
  | some closing =>
    obtain ⟨first,last,opening,ending,same⟩ := closedSpan_some links held closes
    exact ⟨closing,first,last,rfl,opening,ending,Option.some.inj (spanned.symm.trans same)⟩

theorem points_back :
    PointsBack map.directives number group := by
  refine ⟨fun i branch read => ?_,(links number group held).closing⟩
  obtain ⟨fact,found,valid,back,place,_⟩ := ((links number group held).branches i branch read).listed
  exact ⟨fact,found,valid,back,place⟩

end

variable (spread : Spread length map.directives)
include spread

theorem branch_chain (held : map.groups[number]? = some group) :
    BranchChain length map.directives group := by
  have groupLinks := links number group held
  have below := groupLinks.below
  have next (i : Nat) (later : ConditionalBranch) (following : group.branches[i+1]? = some later) :
      group.nextDirective i = some later.directive := by rw [ConditionalGroup.nextDirective,following]
  have last (i : Nat) (final : i+1 = group.branches.length) : group.nextDirective i = group.closingDirective := by
    rw [ConditionalGroup.nextDirective,List.getElem?_eq_none (by omega)]
  have stops (i following : Nat) (branch : ConditionalBranch) (read : group.branches[i]? = some branch)
      (next : group.nextDirective i = some following) :
      ∃ fact, map.directives[following]? = some fact ∧ branch.bodySpan.stop = fact.logicalSpan.start := by
    have listed := List.getElem?_eq_getElem (GroupLinks.next_below below next)
    refine ⟨_,listed,?_⟩
    rw [(groupLinks.branches i branch read).stop,next,stopBefore,listed]
    rfl
  refine ⟨?_,fun branch listed => ?_,fun i branch later read following => ?_,fun i branch closing read final closes => ?_,
    fun i branch read final unclosed => ?_⟩
  · obtain ⟨branch,read,same⟩ := groupLinks.filled
    obtain ⟨fact,listed,_,_,_,_,start⟩ := (groupLinks.branches 0 branch read).listed
    exact ⟨branch,fact,read,same ▸ listed,same,start⟩
  · obtain ⟨i,read⟩ := List.getElem?_of_mem listed
    have link := groupLinks.branches i branch read
    obtain ⟨fact,found,_,_,_,_,start⟩ := link.listed
    rw [start]
    cases following : group.nextDirective i with
    | none =>
      rw [link.stop,following]
      exact ⟨(spread.listed found).2,Nat.le_refl _⟩
    | some later =>
      obtain ⟨ending,behind,stop⟩ := stops i later branch read following
      rw [stop]
      have bounds := spread.listed behind
      exact ⟨spread.before (link.later later following) found behind,by omega⟩
  · obtain ⟨ending,behind,stop⟩ := stops i _ branch read (next i later following)
    obtain ⟨fact,found,_,_,_,_,start⟩ := (groupLinks.branches (i+1) later following).listed
    cases behind.symm.trans found
    refine ⟨ending,behind,stop,start,?_⟩
    rw [stop,start]
    exact (spread.listed behind).1
  · exact stops i closing branch read ((last i final).trans closes)
  · rw [(groupLinks.branches i branch read).stop,last i final,unclosed]
    rfl

theorem inside_parent {child : ConditionalGroup} (held : map.groups[number]? = some child)
    (under : Under map.groups number child) : InsideParent length map number child := by
  obtain ⟨p,b,group,joined,isParent,isBranch,smaller,parentHeld,branchHeld,order,closes⟩ := under
  have below := (links number child held).below
  have opening := List.getElem?_eq_getElem below.opening
  have link := (links p group parentHeld).branches b joined branchHeld
  obtain ⟨fact,listed,_,_,_,_,start⟩ := link.listed
  refine ⟨p,b,group,joined,_,isParent,isBranch,smaller,parentHeld,branchHeld,opening,?_,?_⟩
  · rw [start]
    exact spread.before order listed opening
  · rw [link.stop]
    unfold ConditionalGroup.stop
    cases next : group.nextDirective b with
    | none =>
      cases spanned : child.span with
      | none => exact Nat.le_refl _
      | some span =>
        obtain ⟨closing,first,last,_,_,ending,rfl⟩ := closing_of_span links held spanned
        exact (spread.listed ending).2
    | some later =>
      obtain ⟨closing,same,earlier⟩ := closes later next
      obtain ⟨first,last,_,ending,spanned⟩ := closedSpan_some links held same
      have following := List.getElem?_eq_getElem (GroupLinks.next_below (links p group parentHeld).below next)
      rw [spanned,stopBefore,following]
      exact spread.before earlier ending following

variable (nesting : Nesting map.groups stack)
include nesting

theorem nested_spans {g h : Nat} {first second : ConditionalGroup} {a b : ByteRange} (before : g < h)
    (held : map.groups[g]? = some first) (later : map.groups[h]? = some second) (outer : first.span = some a)
    (inner : second.span = some b) : Apart a b ∨ StrictlyInside b a := by
  obtain ⟨closing,opens,ends,closes,opening,ending,rfl⟩ := closing_of_span links held outer
  obtain ⟨last,begins,stops,ended,begun,stopped,rfl⟩ := closing_of_span links later inner
  obtain ⟨order,⟨overAt,same,earlier⟩ | inside⟩ := nesting.ordered g h first second before held later
  · cases closes.symm.trans same
    exact .inl (.inl (spread.before earlier ending begun))
  · obtain ⟨closesAt,same,earlier⟩ := inside closing closes
    cases ended.symm.trans same
    have front := spread.before order opening begun
    have back := spread.before earlier stopped ending
    have wide := spread.listed opening
    have long := spread.listed ending
    exact .inr ⟨by dsimp only; omega,by dsimp only; omega⟩

end

section
variable {map : PreprocessorMap} {stack : List Nat} (nesting : Nesting map.groups stack)
include nesting

-- The parent's branch never ended, so neither did the parent.
theorem parent_unclosed {p number : Nat} (parent : ParentOf map.groups p number) (unclosed : Unclosed map.groups number) :
    Unclosed map.groups p := by
  obtain ⟨child,held,isParent⟩ := parent
  obtain ⟨same,found,still⟩ := unclosed
  cases held.symm.trans found
  rcases nesting.rooted number child held with ⟨root,_⟩ | ⟨q,b,group,joined,sameParent,_,_,parentHeld,branchHeld,_,closes⟩
  · exact nomatch root.symm.trans isParent
  · cases isParent.symm.trans sameParent
    refine ⟨group,parentHeld,?_⟩
    have neverEnds (later : Nat) (next : group.nextDirective b = some later) : False := by
      obtain ⟨closing,ended,_⟩ := closes later next
      exact nomatch still.symm.trans ended
    have last : group.branches[b+1]? = none := by
      cases following : group.branches[b+1]? with
      | none => rfl
      | some later =>
        refine (neverEnds later.directive ?_).elim
        rw [ConditionalGroup.nextDirective,following]
    cases closing : group.closingDirective with
    | none => rfl
    | some ended =>
      refine (neverEnds ended ?_).elim
      rw [ConditionalGroup.nextDirective,last]
      exact closing

theorem ancestors_unclosed {ancestor number : Nat} (above : Relation.TransGen (ParentOf map.groups) ancestor number)
    (unclosed : Unclosed map.groups number) : Unclosed map.groups ancestor := by
  induction above with
  | single parent => exact parent_unclosed nesting parent unclosed
  | tail _ parent ih => exact ih (parent_unclosed nesting parent unclosed)

end

theorem filter_numbers {α : Type u} (list : List α) (wanted : α → Bool) :
    ((List.range list.length).filter fun i => (list[i]?).any wanted).filterMap (fun i => list[i]?) = list.filter wanted := by
  induction list using List.reverseRecOn with
  | nil => rfl
  | append_singleton front last ih =>
    have inside (i : Nat) (listed : i ∈ List.range front.length) : (front ++ [last])[i]? = front[i]? :=
      List.getElem?_append_left (List.mem_range.mp listed)
    have same : (List.range front.length).filter (fun i => ((front ++ [last])[i]?).any wanted) =
        (List.range front.length).filter fun i => (front[i]?).any wanted :=
      List.filter_congr fun i listed => by rw [inside i listed]
    have read : ((List.range front.length).filter fun i => (front[i]?).any wanted).filterMap (fun i => (front ++ [last])[i]?) =
        front.filter wanted := by
      rw [← ih]
      exact List.filterMap_congr fun i listed => inside i (List.mem_filter.mp listed).1
    rw [List.length_append,List.length_singleton,List.range_succ,List.filter_append,List.filterMap_append,same,read,List.filter_append]
    congr 1
    by_cases kept : wanted last = true
    · simp [kept]
    · simp [kept]

theorem same_ascending {first second : List Nat} (one : first.Pairwise (· < ·)) (two : second.Pairwise (· < ·))
    (same : ∀ i, i ∈ first ↔ i ∈ second) : first = second := by
  have distinct {list : List Nat} (ascending : list.Pairwise (· < ·)) : list.Nodup := ascending.imp Nat.ne_of_lt
  have permuted := (List.perm_ext_iff_of_nodup (distinct one) (distinct two)).mpr same
  exact permuted.eq_of_pairwise (fun a b _ _ before after => absurd before (Nat.lt_asymm after)) one two

theorem mapM_total {α : Type u} {β : Type v} {read : α → Option β} (list : List α) (total : ∀ a ∈ list, (read a).isSome) :
    list.mapM read = some (list.filterMap read) := by
  induction list with
  | nil => rfl
  | cons first rest ih =>
    obtain ⟨value,same⟩ := Option.isSome_iff_exists.mp (total first List.mem_cons_self)
    rw [List.mapM_cons,same,ih fun a listed => total a (List.mem_cons_of_mem _ listed),List.filterMap_cons_some same]
    rfl

-- The stack from its bottom up is the list of the unclosed groups.
theorem unclosed_diagnosed {length : Nat} {state : ParseState} (mapped : Mapped length state) :
    state.stack.reverse.mapM (ParseState.unclosedDiagnostic state.map) = some (unclosedDiagnostics state.map) := by
  let diagnostic (number : Nat) : Option PreprocessorDiagnostic := ParseState.unclosedDiagnostic state.map ⟨number,false⟩
  have reads (opened : OpenGroup) : ParseState.unclosedDiagnostic state.map opened = diagnostic opened.group := rfl
  have total (opened : OpenGroup) (listed : opened ∈ state.stack.reverse) : (ParseState.unclosedDiagnostic state.map opened).isSome := by
    obtain ⟨group,opening,held,begun⟩ := mapped.grounded opened (List.mem_reverse.mp listed)
    unfold ParseState.unclosedDiagnostic
    rw [held]
    simp only [Option.bind_eq_bind,Option.bind_some]
    rw [begun]
    rfl
  rw [mapM_total _ total]
  congr 1
  have numbers : (state.stack.map (·.group)).reverse =
      (List.range state.map.groups.length).filter fun i => (state.map.groups[i]?).any fun group => group.closingDirective.isNone := by
    refine same_ascending (List.pairwise_reverse.mpr mapped.nesting.descending) (List.pairwise_lt_range.filter _) fun i => ?_
    rw [List.mem_reverse,mapped.nesting.unclosed,List.mem_filter,List.mem_range]
    constructor
    · intro ⟨group,held,unclosed⟩
      exact ⟨(List.getElem?_eq_some_iff.mp held).1,by rw [held,Option.any_some,unclosed]; rfl⟩
    · intro ⟨inside,still⟩
      rw [List.getElem?_eq_getElem inside,Option.any_some,Option.isNone_iff_eq_none] at still
      exact ⟨_,List.getElem?_eq_getElem inside,still⟩
  have byNumber : state.stack.reverse.filterMap (ParseState.unclosedDiagnostic state.map) =
      (state.stack.map (·.group)).reverse.filterMap diagnostic := by
    rw [← List.map_reverse,List.filterMap_map]
    rfl
  rw [byNumber,unclosedDiagnostics,← filter_numbers,← numbers,List.filterMap_filterMap]
  refine List.filterMap_congr fun number _ => ?_
  cases held : state.map.groups[number]? with
  | none =>
    change ParseState.unclosedDiagnostic _ _ = none
    unfold ParseState.unclosedDiagnostic
    rw [held]
    rfl
  | some group =>
    change ParseState.unclosedDiagnostic _ _ = _
    unfold ParseState.unclosedDiagnostic
    rw [held]
    simp only [Option.bind_eq_bind,Option.bind_some]
    cases state.map.directives[group.openingDirective]? with
    | none => rfl
    | some opening => rfl

theorem parse_forest (source : List UInt8) : ∃ map, PreprocessorMap.parse source = some map ∧ Forest source.length map := by
  have ranges := directiveLogicalRanges_whole source
  have filled (range : ByteRange) (listed : range ∈ directiveLogicalRanges source) :
      range.start < range.stop ∧ WholeEnd source range.stop := (ranges.whole range listed).2
  obtain ⟨state,run,mapped,spans,sublist,listed⟩ := parseRanges_total _ filled ⟨.empty,[]⟩ .empty
  have kept : state.map.directives.map (·.logicalSpan) = spans := listed
  have spread : Spread source.length state.map.directives := by
    refine ⟨?_,fun fact inside => ?_⟩
    · rw [kept]
      exact ranges.apart.sublist sublist
    · have placed : fact.logicalSpan ∈ spans := kept ▸ List.mem_map_of_mem inside
      obtain ⟨wide,closes⟩ := filled _ (sublist.subset placed)
      exact ⟨wide,closes.1⟩
  refine ⟨{ state.map with diagnostics := state.map.diagnostics ++ unclosedDiagnostics state.map },?_,?_⟩
  · unfold PreprocessorMap.parse
    rw [run]
    simp only [Option.bind_eq_bind,Option.bind_some]
    rw [unclosed_diagnosed mapped]
    rfl
  · have links := mapped.links
    have nesting := mapped.nesting
    refine ⟨spread,fun group inside => ?_,fun g h first second a b apart held later outer inner => ?_,fun group inside => ?_,
      fun number child held => ?_,fun ancestor number above unclosed => ?_,fun number group held => points_back links held,?_⟩
    · obtain ⟨number,held⟩ := List.getElem?_of_mem inside
      exact (links number group held).span
    · rcases Nat.lt_or_gt_of_ne apart with before | after
      · cases nested_spans links spread nesting before held later outer inner with
        | inl disjoint => exact .inl disjoint
        | inr inside => exact .inr (.inr inside)
      · cases nested_spans links spread nesting after later held inner outer with
        | inl disjoint => exact .inl disjoint.symm
        | inr inside => exact .inr (.inl inside)
    · obtain ⟨number,held⟩ := List.getElem?_of_mem inside
      exact branch_chain links spread held
    · cases nesting.rooted number child held with
      | inl root => exact .inl root
      | inr under => exact .inr (inside_parent links spread held under)
    · exact ancestors_unclosed nesting above unclosed
    · exact congrArg (· ++ unclosedDiagnostics state.map) mapped.diagnostics

end BonsaiNinja.LangC
