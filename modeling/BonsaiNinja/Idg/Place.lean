import BonsaiNinja.Library.Rows
import Mathlib.Algebra.Order.Ring.Nat

namespace BonsaiNinja.Idg
open Library

-- Numeric identities of the IDG. All are `u32` in memory and are only compared,
-- ordered and used as indices.
abbrev FileId := Nat
abbrev FuncId := Nat
abbrev SegmentId := Nat
abbrev PlaceId := Nat
abbrev NodeId := Nat
abbrev StrId := Nat

-- A string is its sequence of Unicode scalars; their order is the byte order of
-- the UTF-8 encoding.
abbrev Text := List Char

instance : LawfulBEq Text := inferInstance

-- The code points with the Unicode property White_Space.
def isWhiteSpace (c : Char) : Bool :=
  let n := c.toNat
  (9 ≤ n && n ≤ 13) || n == 0x20 || n == 0x85 || n == 0xA0 || n == 0x1680 || (0x2000 ≤ n && n ≤ 0x200A) || n == 0x2028 ||
    n == 0x2029 || n == 0x202F || n == 0x205F || n == 0x3000

def trim (text : Text) : Text := ((text.dropWhile isWhiteSpace).reverse.dropWhile isWhiteSpace).reverse

structure Span where
  file : FileId
  start : Nat
  stop : Nat
  deriving DecidableEq, Repr

instance : RowOrder Span := .lift (fun s => (s.file,s.start,s.stop)) fun a b same => by
  cases a; cases b; simp_all

structure CallSiteId where
  span : Span
  deriving DecidableEq, Repr

inductive Place where
  | param (idx : Nat)
  | return
  | read (name : StrId) (path : List StrId)
  | write (name : StrId) (path : List StrId) (span : Span)
  | callArg (site : CallSiteId) (idx : Nat)
  | callRet (site : CallSiteId)
  | throw (ty : StrId) (site : Span)
  | catch (ty : StrId) (site : Span) (trySpan : Span)
  | yield
  | await
  deriving DecidableEq, Repr

inductive CallEdgeKind where
  | direct | virtual | indirect | unknown
  deriving DecidableEq, Repr

inductive IdgEdgeKind where
  | intraAssign | intraRead | intraReturn | intraThrow
  | interCallArg | interReturn | interThrow
  | intraFieldRead | intraFieldWrite | intraYield | intraAwait
  | interFieldCallArg | interFieldReturn
  | intraAggregateConsume
  | interYield | interSourceCallback | interSharedFieldState
  deriving DecidableEq, Repr

def IdgEdgeKind.isInter : IdgEdgeKind → Bool
  | .interCallArg | .interReturn | .interThrow | .interFieldCallArg | .interFieldReturn | .interYield
  | .interSourceCallback | .interSharedFieldState => true
  | _ => false

def IdgEdgeKind.isIntra (kind : IdgEdgeKind) : Bool := !kind.isInter

structure EdgeMeta where
  kind : IdgEdgeKind
  callKind : CallEdgeKind
  viaSpan : Span
  deriving DecidableEq, Repr

structure IdgEdge where
  fromNode : NodeId
  toNode : NodeId
  edgeMeta : EdgeMeta
  deriving DecidableEq, Repr

structure IdgNode where
  func : FuncId
  place : PlaceId
  deriving DecidableEq, Repr

end BonsaiNinja.Idg
