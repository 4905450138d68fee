import BonsaiNinja.Hash.ShortIds

namespace BonsaiNinja.Cli
open Idg (Text)
open Hash Library

inductive PageArg
  | first
  | number (n : Nat)
  | cursor (id : Text)
  | next
  deriving DecidableEq

inductive FormatClass
  | text
  | programmatic
  deriving DecidableEq

structure PagingConfig where
  context : Option Nat
  page : PageArg
  pageSize : Option Nat
  all : Bool
  formatClass : FormatClass

structure PageInfo where
  pageNumber : Nat
  totalPages : Nat
  pageSize : Nat
  shownRows : Nat
  totalRows : Nat
  budget : Option Nat
  tokensUsed : Nat
  cursor : Text
  nextCursor : Option Text
  isLast : Bool
  startOffset : Nat
  totalTokensUncapped : Nat
  deriving DecidableEq

def defaultContextText : Nat := 32768

def bytesPerToken : Nat := 4

def PagingConfig.effectiveBudget (cfg : PagingConfig) : Option Nat :=
  if cfg.all then none
  else
    match cfg.context, cfg.formatClass with
    | some budget, _ => some budget
    | none, .text => some defaultContextText
    | none, .programmatic => some defaultContextText

-- Secondary filters take part in the id only while they are active.
def cursorPrefix (command : Text) (filtersHash : UInt64) (secondary : Option UInt64) : UInt64 :=
  let digest := absorb (absorb fnvOffsetBasis (utf8Bytes command)) [0]
  let digest := absorb (absorb digest (leBytes 8 filtersHash.toNat)) [0]
  match secondary with
  | none => digest
  | some signature => absorb (absorb digest (leBytes 8 signature.toNat)) [0]

def cursorId (command : Text) (filtersHash : UInt64) (secondary : Option UInt64) (offset : Nat) : Text :=
  "P:".toList ++ hex08 (fnv1aLow32 (absorb (cursorPrefix command filtersHash secondary) (leBytes 8 offset)))

def bytesToTokens (bytes : Nat) : Nat :=
  if bytes = 0 then 0 else max ((bytes + (bytesPerToken - 1)) / bytesPerToken) 1

-- The rows one page takes. A page takes its first row whatever it costs.
def takeRows (cap budget : Option Nat) : List Nat → Nat → Nat → Nat
  | [], taken, _ => taken
  | cost :: rest, taken, tokens =>
    if cap.any fun cap => cap ≤ taken then taken
    else if budget.any fun budget => decide (0 < taken) && decide (budget < tokens + cost) then taken
    else takeRows cap budget rest (taken + 1) (tokens + cost)

def buildPages (cap budget : Option Nat) (perRow : List Nat) : Nat → Nat → List (Nat × Nat)
  | 0, _ => []
  | turns + 1, offset =>
    if offset < perRow.length then
      let taken := takeRows cap budget (perRow.drop offset) 0 0
      let taken := if taken = 0 then 1 else taken
      (offset,taken) :: buildPages cap budget perRow turns (offset + taken)
    else []

def pageBounds (cap budget : Option Nat) (perRow : List Nat) : List (Nat × Nat) :=
  match buildPages cap budget perRow perRow.length 0 with
  | [] => [(0,0)]
  | page :: rest => page :: rest

def decimal (n : Nat) : Text := Nat.toDigits 10 n

def invalidCursorError (cursor : Text) : Text :=
  "page cursor `".toList ++ cursor ++
    "` does not belong to this command result; rerun without `--page` and use the cursor printed in its footer".toList

def outOfRangeError (requested totalPages : Nat) (command : Text) : Text :=
  "page ".toList ++ decimal requested ++ " is out of range for ".toList ++ command ++ "; available pages: 1..=".toList ++
    decimal (max totalPages 1)

def validatePageNumber (requested totalPages : Nat) (command : Text) : Except Text Unit :=
  if max totalPages 1 < requested then .error (outOfRangeError requested totalPages command) else .ok ()

def PageArg.validate (page : PageArg) (totalPages : Nat) (command : Text) : Except Text Unit :=
  match page with
  | .number requested => validatePageNumber requested totalPages command
  | _ => .ok ()

def PageArg.target (pages : List (Nat × Nat)) (id : Nat → Text) (lastCursor : Option Text) : PageArg → Except Text Nat
  | .first => .ok 0
  | .number n => .ok (n - 1)
  | .cursor token =>
    match pages.findIdx? fun page => id page.1 = token with
    | some index => .ok index
    | none => .error (invalidCursorError token)
  | .next => .ok ((lastCursor.bind fun token => (pages.findIdx? fun page => id page.1 = token).map (· + 1)).getD 0)

def pageAt {T : Type} (rows : List T) (perRow : List Nat) (budget : Option Nat) (pages : List (Nat × Nat)) (id : Nat → Text)
    (index : Nat) : List T × PageInfo :=
  let page := pages.getD index (0,0)
  let isLast := decide (pages.length ≤ index + 1)
  ((rows.drop page.1).take page.2,
    { pageNumber := index + 1
      totalPages := pages.length
      pageSize := page.2
      shownRows := page.2
      totalRows := rows.length
      budget := budget
      tokensUsed := ((perRow.drop page.1).take page.2).sum
      cursor := id page.1
      nextCursor := if isLast then none else some (id (pages.getD (index + 1) (0,0)).1)
      isLast := isLast
      startOffset := page.1
      totalTokensUncapped := perRow.sum })

-- The part of the budget that headers and footers take is a parameter. Token
-- sums are plain numbers: the total of a listing fits its counter.
def perPageBudget (reserve : Nat → Nat) (budget : Nat) : Nat := max (budget - reserve budget) 1

def paginate {T : Type} (reserve : Nat → Nat) (secondary : Option UInt64) (lastCursor : Option Text) (rows : List T)
    (cfg : PagingConfig) (command : Text) (filtersHash : UInt64) (rowCostBytes : T → Nat) :
    Except Text (List T × PageInfo) := do
  let perRow := rows.map fun row => bytesToTokens (rowCostBytes row)
  let id := cursorId command filtersHash secondary
  if cfg.all then
    return (rows,
      { pageNumber := 1
        totalPages := 1
        pageSize := max rows.length 1
        shownRows := rows.length
        totalRows := rows.length
        budget := none
        tokensUsed := perRow.sum
        cursor := id 0
        nextCursor := none
        isLast := true
        startOffset := 0
        totalTokensUncapped := perRow.sum })
  else
    let pages := pageBounds cfg.pageSize (cfg.effectiveBudget.map (perPageBudget reserve)) perRow
    let target ← cfg.page.target pages id lastCursor
    cfg.page.validate pages.length command
    return pageAt rows perRow cfg.effectiveBudget pages id (min target (pages.length - 1))

def walkPages {T : Type} (call : PageArg → Except Text (List T × PageInfo)) :
    Nat → PageArg → Option (List (List T × PageInfo))
  | 0, _ => none
  | turns + 1, arg =>
    match call arg with
    | .error _ => none
    | .ok page =>
      match page.2.nextCursor with
      | none => some [page]
      | some cursor => (walkPages call turns (.cursor cursor)).map (page :: ·)

end BonsaiNinja.Cli
