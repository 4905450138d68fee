import BonsaiNinja.Library.CharBoundaries
import Mathlib.Data.List.Induction

namespace BonsaiNinja.Parser
open Library

structure Point where
  row : Nat
  column : Nat
  deriving DecidableEq, Repr

structure InputEdit where
  startByte : Nat
  oldEndByte : Nat
  newEndByte : Nat
  startPosition : Point
  oldEndPosition : Point
  newEndPosition : Point
  deriving DecidableEq, Repr

def checkedSub (a b : Nat) : Option Nat := if b ≤ a then some (a - b) else none

def sliceTo (bytes : List UInt8) (stop : Nat) : Option (List UInt8) := if stop ≤ bytes.length then some (bytes.take stop) else none

def sliceFrom (bytes : List UInt8) (start : Nat) : Option (List UInt8) := if start ≤ bytes.length then some (bytes.drop start) else none

def newline : UInt8 := 10

def countLine (position : Nat × Nat) (indexed : UInt8 × Nat) : Nat × Nat :=
  if indexed.1 = newline then (position.1 + 1,indexed.2 + 1) else position

-- No point stands for a failed assertion, slice or subtraction.
def pointAtByte (text : List UInt8) (byte : Nat) : Option Point :=
  if byte ≤ text.length ∧ Library.isCharBoundary text byte then do
    let front ← sliceTo text byte
    let (row,lineStart) := front.zipIdx.foldl countLine (0,0)
    let column ← checkedSub byte lineStart
    return ⟨row,column⟩
  else none

def matching (old new : List UInt8) : Nat := ((old.zip new).takeWhile fun pair => pair.1 == pair.2).length

-- A match is cut back one byte at a time while its end splits a character.
def retreat (fits : Nat → Option Bool) : Nat → Option Nat
  | 0 => some 0
  | length + 1 => do
    match ← fits (length + 1) with
    | true => return length + 1
    | false => retreat fits length

def prefixFits (old new : List UInt8) (length : Nat) : Option Bool :=
  some (Library.isCharBoundary old length && Library.isCharBoundary new length)

def suffixFits (old new : List UInt8) (length : Nat) : Option Bool := do
  let oldEnd ← checkedSub old.length length
  let newEnd ← checkedSub new.length length
  return Library.isCharBoundary old oldEnd && Library.isCharBoundary new newEnd

def suffixLength (old new : List UInt8) (prefixLength : Nat) : Option Nat := do
  let maxSuffix := min (old.length - prefixLength) (new.length - prefixLength)
  let oldTail ← sliceFrom old (← checkedSub old.length maxSuffix)
  let newTail ← sliceFrom new (← checkedSub new.length maxSuffix)
  retreat (suffixFits old new) (matching oldTail.reverse newTail.reverse)

def replacementBytes (old new : List UInt8) : Option InputEdit := do
  let prefixLength ← retreat (prefixFits old new) (matching old new)
  let suffix ← suffixLength old new prefixLength
  let oldEnd ← checkedSub old.length suffix
  let newEnd ← checkedSub new.length suffix
  return {
    startByte := prefixLength
    oldEndByte := oldEnd
    newEndByte := newEnd
    startPosition := ← pointAtByte old prefixLength
    oldEndPosition := ← pointAtByte old oldEnd
    newEndPosition := ← pointAtByte new newEnd }

def singleReplacementEdit (old new : List Char) : Option InputEdit := replacementBytes (utf8 old) (utf8 new)

theorem checkedSub_eq {a b : Nat} (le : b ≤ a) : checkedSub a b = some (a - b) := if_pos le

theorem sliceTo_eq {bytes : List UInt8} {stop : Nat} (inside : stop ≤ bytes.length) : sliceTo bytes stop = some (bytes.take stop) :=
  if_pos inside

theorem sliceFrom_eq {bytes : List UInt8} {start : Nat} (inside : start ≤ bytes.length) :
    sliceFrom bytes start = some (bytes.drop start) := if_pos inside

def pointOf (bytes : List UInt8) (byte : Nat) : Point :=
  ⟨(bytes.take byte).count newline,((bytes.take byte).reverse.takeWhile (· != newline)).length⟩

theorem countLine_run (front : List UInt8) :
    front.zipIdx.foldl countLine (0,0) =
      (front.count newline,front.length - (front.reverse.takeWhile (· != newline)).length) := by
  induction front using List.reverseRecOn with
  | nil => rfl
  | append_singleton front byte ih =>
    rw [List.zipIdx_append,List.foldl_append,ih,List.count_append,List.reverse_concat]
    by_cases ends : byte = newline
    · subst ends
      simp [countLine]
    · simp [countLine,ends]

theorem pointAtByte_exact {text : List Char} {byte : Nat} (boundary : Boundary text byte) :
    pointAtByte (utf8 text) byte = some (pointOf (utf8 text) byte) := by
  have passed : (((utf8 text).take byte).reverse.takeWhile (· != newline)).length ≤ byte := by
    refine (List.takeWhile_prefix _).length_le.trans ?_
    rw [List.length_reverse]
    exact List.length_take_le _ _
  have length : ((utf8 text).take byte).length = byte := List.length_take_of_le boundary.inside
  unfold pointAtByte
  rw [if_pos ⟨boundary.inside,boundary.char_boundary⟩,sliceTo_eq boundary.inside]
  simp only [Option.bind_eq_bind,Option.bind_some,countLine_run,length]
  rw [checkedSub_eq (Nat.sub_le _ _),Nat.sub_sub_self passed]
  rfl

theorem matching_le (old new : List UInt8) : matching old new ≤ old.length ∧ matching old new ≤ new.length := by
  have bound := (List.takeWhile_prefix (fun pair : UInt8 × UInt8 => pair.1 == pair.2) (l := old.zip new)).length_le
  rw [List.length_zip] at bound
  exact Nat.le_min.mp bound

theorem take_matching (old new : List UInt8) : old.take (matching old new) = new.take (matching old new) := by
  induction old generalizing new with
  | nil =>
    have none : matching [] new = 0 := rfl
    rw [none,List.take_zero,List.take_zero]
  | cons byte old ih =>
    cases new with
    | nil => rfl
    | cons other new =>
      by_cases same : byte = other
      · subst same
        have longer : matching (byte :: old) (byte :: new) = matching old new + 1 := by
          simp [matching]
        rw [longer,List.take_succ_cons,List.take_succ_cons,ih]
      · have none : matching (byte :: old) (other :: new) = 0 := by
          simp [matching,same]
        rw [none,List.take_zero,List.take_zero]

theorem matching_self (bytes : List UInt8) : matching bytes bytes = bytes.length := by
  induction bytes with
  | nil => rfl
  | cons byte bytes ih =>
    have longer : matching (byte :: bytes) (byte :: bytes) = matching bytes bytes + 1 := by
      simp [matching]
    rw [longer,ih,List.length_cons]

theorem take_agrees {old new : List UInt8} {length : Nat} (within : length ≤ matching old new) : old.take length = new.take length := by
  have agree := congrArg (List.take length) (take_matching old new)
  rwa [List.take_take,List.take_take,Nat.min_eq_left within] at agree

theorem retreat_exact {fits : Nat → Option Bool} {good : Nat → Bool} (length : Nat)
    (test : ∀ n ≤ length, fits n = some (good n)) :
    ∃ kept, retreat fits length = some kept ∧ kept ≤ length ∧ (kept = 0 ∨ good kept = true) ∧
      (good length = true → kept = length) := by
  induction length with
  | zero => exact ⟨0,rfl,Nat.le_refl _,.inl rfl,fun _ => rfl⟩
  | succ length ih =>
    have here := test (length + 1) (Nat.le_refl _)
    cases holds : good (length + 1) with
    | true =>
      refine ⟨length + 1,?_,Nat.le_refl _,.inr holds,fun _ => rfl⟩
      rw [retreat,here,holds]
      rfl
    | false =>
      obtain ⟨kept,ran,below,ends,_⟩ := ih fun n le => test n (Nat.le_succ_of_le le)
      refine ⟨kept,?_,Nat.le_succ_of_le below,ends,fun fit => absurd fit (by decide)⟩
      rw [retreat,here,holds]
      exact ran

section
variable (old new : List Char)

theorem prefix_exact : ∃ kept, retreat (prefixFits (utf8 old) (utf8 new)) (matching (utf8 old) (utf8 new)) = some kept ∧
    kept ≤ (utf8 old).length ∧ kept ≤ (utf8 new).length ∧ (utf8 old).take kept = (utf8 new).take kept ∧
      Boundary old kept ∧ Boundary new kept ∧ (old = new → kept = (utf8 old).length) := by
  obtain ⟨kept,ran,below,ends,whole⟩ := @retreat_exact _ (fun n => Library.isCharBoundary (utf8 old) n && Library.isCharBoundary (utf8 new) n)
    (matching (utf8 old) (utf8 new)) fun n _ => rfl
  have bounds := matching_le (utf8 old) (utf8 new)
  have boundaries : Boundary old kept ∧ Boundary new kept := by
    cases ends with
    | inl zero =>
      subst zero
      exact ⟨boundary_zero _,boundary_zero _⟩
    | inr fit =>
      obtain ⟨first,second⟩ := Bool.and_eq_true_iff.mp fit
      exact ⟨isCharBoundary_iff.mp first,isCharBoundary_iff.mp second⟩
  refine ⟨kept,ran,below.trans bounds.1,below.trans bounds.2,take_agrees below,boundaries.1,boundaries.2,fun same => ?_⟩
  subst same
  rw [matching_self] at whole
  refine whole ?_
  rw [(boundary_end old).char_boundary]
  rfl

theorem drop_agrees {old new : List UInt8} {most length : Nat} (inOld : most ≤ old.length) (inNew : most ≤ new.length)
    (within : length ≤ matching (old.drop (old.length - most)).reverse (new.drop (new.length - most)).reverse) :
    length ≤ most ∧ old.drop (old.length - length) = new.drop (new.length - length) := by
  have bounds := matching_le (old.drop (old.length - most)).reverse (new.drop (new.length - most)).reverse
  rw [List.length_reverse,List.length_drop,Nat.sub_sub_self inOld] at bounds
  have short : length ≤ most := within.trans bounds.1
  have agree := congrArg List.reverse (take_agrees within)
  rw [List.reverse_take,List.reverse_take,List.reverse_reverse,List.reverse_reverse,List.length_reverse,List.length_reverse,
    List.length_drop,List.length_drop,Nat.sub_sub_self inOld,Nat.sub_sub_self inNew,List.drop_drop,List.drop_drop] at agree
  refine ⟨short,?_⟩
  have first : old.length - most + (most - length) = old.length - length := by omega
  have second : new.length - most + (most - length) = new.length - length := by omega
  rwa [first,second] at agree

theorem suffix_exact {prefixLength : Nat} (inOld : prefixLength ≤ (utf8 old).length) (inNew : prefixLength ≤ (utf8 new).length) :
    ∃ suffix, suffixLength (utf8 old) (utf8 new) prefixLength = some suffix ∧
      prefixLength + suffix ≤ (utf8 old).length ∧ prefixLength + suffix ≤ (utf8 new).length ∧
        (utf8 old).drop ((utf8 old).length - suffix) = (utf8 new).drop ((utf8 new).length - suffix) ∧
          Boundary old ((utf8 old).length - suffix) ∧ Boundary new ((utf8 new).length - suffix) := by
  obtain ⟨most,chosen⟩ : ∃ most, most = min ((utf8 old).length - prefixLength) ((utf8 new).length - prefixLength) := ⟨_,rfl⟩
  have mostOld : most ≤ (utf8 old).length := by omega
  have mostNew : most ≤ (utf8 new).length := by omega
  have bounds := matching_le ((utf8 old).drop ((utf8 old).length - most)).reverse ((utf8 new).drop ((utf8 new).length - most)).reverse
  rw [List.length_reverse,List.length_drop,Nat.sub_sub_self mostOld] at bounds
  obtain ⟨suffix,ran,below,ends,_⟩ := @retreat_exact (suffixFits (utf8 old) (utf8 new))
    (fun n => Library.isCharBoundary (utf8 old) ((utf8 old).length - n) && Library.isCharBoundary (utf8 new) ((utf8 new).length - n))
    (matching ((utf8 old).drop ((utf8 old).length - most)).reverse ((utf8 new).drop ((utf8 new).length - most)).reverse) (by
      intro n le
      have short := le.trans bounds.1
      rw [suffixFits,checkedSub_eq (short.trans mostOld),checkedSub_eq (short.trans mostNew)]
      rfl)
  obtain ⟨short,agree⟩ := drop_agrees mostOld mostNew below
  refine ⟨suffix,?_,by omega,by omega,agree,?_⟩
  · unfold suffixLength
    simp only [← chosen]
    rw [checkedSub_eq mostOld,checkedSub_eq mostNew]
    simp only [Option.bind_eq_bind,Option.bind_some]
    rw [sliceFrom_eq (Nat.sub_le _ _),sliceFrom_eq (Nat.sub_le _ _)]
    exact ran
  · cases ends with
    | inl zero =>
      subst zero
      exact ⟨boundary_end _,boundary_end _⟩
    | inr fit =>
      obtain ⟨first,second⟩ := Bool.and_eq_true_iff.mp fit
      exact ⟨isCharBoundary_iff.mp first,isCharBoundary_iff.mp second⟩

structure Describes (edit : InputEdit) : Prop where
  oldOrdered : edit.startByte ≤ edit.oldEndByte ∧ edit.oldEndByte ≤ (utf8 old).length
  newOrdered : edit.startByte ≤ edit.newEndByte ∧ edit.newEndByte ≤ (utf8 new).length
  front : (utf8 old).take edit.startByte = (utf8 new).take edit.startByte
  back : (utf8 old).drop edit.oldEndByte = (utf8 new).drop edit.newEndByte
  startBoundary : Boundary old edit.startByte ∧ Boundary new edit.startByte
  endBoundary : Boundary old edit.oldEndByte ∧ Boundary new edit.newEndByte
  startPoint : edit.startPosition = pointOf (utf8 old) edit.startByte
  oldEndPoint : edit.oldEndPosition = pointOf (utf8 old) edit.oldEndByte
  newEndPoint : edit.newEndPosition = pointOf (utf8 new) edit.newEndByte
  unchanged : old = new → edit.startByte = edit.oldEndByte ∧ edit.oldEndByte = edit.newEndByte

theorem single_replacement_exact : ∃ edit, singleReplacementEdit old new = some edit ∧ Describes old new edit := by
  obtain ⟨kept,first,keptOld,keptNew,front,startOld,startNew,whole⟩ := prefix_exact old new
  obtain ⟨suffix,second,roomOld,roomNew,back,endOld,endNew⟩ := suffix_exact old new keptOld keptNew
  refine ⟨⟨kept,(utf8 old).length - suffix,(utf8 new).length - suffix,pointOf (utf8 old) kept,
    pointOf (utf8 old) ((utf8 old).length - suffix),pointOf (utf8 new) ((utf8 new).length - suffix)⟩,?_,?_⟩
  · unfold singleReplacementEdit replacementBytes
    rw [first]
    simp only [Option.bind_eq_bind,Option.bind_some,second]
    rw [checkedSub_eq (by omega),checkedSub_eq (by omega)]
    simp only [Option.bind_some]
    rw [pointAtByte_exact startOld,pointAtByte_exact endOld,pointAtByte_exact endNew]
    rfl
  · refine ⟨⟨Nat.le_sub_of_add_le roomOld,Nat.sub_le _ _⟩,⟨Nat.le_sub_of_add_le roomNew,Nat.sub_le _ _⟩,front,back,⟨startOld,startNew⟩,⟨endOld,endNew⟩,rfl,rfl,rfl,?_⟩
    intro same
    have all := whole same
    have sizes : (utf8 old).length = (utf8 new).length := congrArg (fun text => (utf8 text).length) same
    have none : suffix = 0 := by omega
    subst none
    exact ⟨all,sizes⟩

end

end BonsaiNinja.Parser
