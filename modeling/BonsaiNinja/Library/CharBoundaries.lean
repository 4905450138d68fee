import Mathlib.Data.List.TakeWhile
import Mathlib.Tactic.Common

namespace BonsaiNinja.Library
variable {text : List Char} {index : Nat}

def utf8 (text : List Char) : List UInt8 := text.flatMap String.utf8EncodeChar

@[simp] theorem utf8_nil : utf8 [] = [] := rfl

theorem utf8_cons (c : Char) (text : List Char) : utf8 (c :: text) = String.utf8EncodeChar c ++ utf8 text := List.flatMap_cons

theorem utf8_append (front back : List Char) : utf8 (front ++ back) = utf8 front ++ utf8 back := List.flatMap_append

def continues (byte : UInt8) : Bool := 0x80 ≤ byte.toNat && byte.toNat < 0xC0

theorem encoded_shape (c : Char) : ∃ lead tail, String.utf8EncodeChar c = lead :: tail ∧ continues lead = false ∧
    ∀ byte ∈ tail, continues byte = true := by
  have follows : ∀ n : Nat, continues (UInt8.ofNat (n % 64 + 128)) = true := by
    intro n
    have below := Nat.mod_lt n (show 0 < 64 by decide)
    simp only [continues,UInt8.toNat_ofNat',Bool.and_eq_true,decide_eq_true_eq]
    omega
  have leads : ∀ n : Nat, n < 256 → (n < 128 ∨ 192 ≤ n) → continues (UInt8.ofNat n) = false := by
    intro n small apart
    simp only [continues,UInt8.toNat_ofNat',Bool.and_eq_false_iff,decide_eq_false_iff_not]
    omega
  fun_cases String.utf8EncodeChar c
  · next low => exact ⟨_,_,rfl,leads _ (by omega) (.inl (by omega)),fun _ none => absurd none List.not_mem_nil⟩
  · have below := Nat.mod_lt (c.val.toNat / 64) (show 0 < 32 by decide)
    refine ⟨_,_,rfl,leads _ (by omega) (.inr (by omega)),?_⟩
    simp only [List.mem_singleton,forall_eq]
    exact follows _
  · have below := Nat.mod_lt (c.val.toNat / 4096) (show 0 < 16 by decide)
    refine ⟨_,_,rfl,leads _ (by omega) (.inr (by omega)),?_⟩
    simp only [List.mem_cons,List.not_mem_nil,or_false,forall_eq_or_imp,forall_eq]
    exact ⟨follows _,follows _⟩
  · have below := Nat.mod_lt (c.val.toNat / 262144) (show 0 < 8 by decide)
    refine ⟨_,_,rfl,leads _ (by omega) (.inr (by omega)),?_⟩
    simp only [List.mem_cons,List.not_mem_nil,or_false,forall_eq_or_imp,forall_eq]
    exact ⟨follows _,follows _,follows _⟩

def isCharBoundary (bytes : List UInt8) (index : Nat) : Bool :=
  if index = 0 then true
  else
    match bytes[index]? with
    | some byte => !continues byte
    | none => index == bytes.length

def Boundary (text : List Char) (index : Nat) : Prop := ∃ front back, text = front ++ back ∧ (utf8 front).length = index

theorem boundary_zero (text : List Char) : Boundary text 0 := ⟨[],text,rfl,rfl⟩

theorem boundary_end (text : List Char) : Boundary text (utf8 text).length := ⟨text,[],(List.append_nil _).symm,rfl⟩

theorem Boundary.inside (boundary : Boundary text index) : index ≤ (utf8 text).length := by
  obtain ⟨front,back,rfl,rfl⟩ := boundary
  rw [utf8_append,List.length_append]
  exact Nat.le_add_right _ _

theorem boundary_cons {c : Char} :
    Boundary (c :: text) ((String.utf8EncodeChar c).length + index) ↔ Boundary text index := by
  have wide : 0 < (String.utf8EncodeChar c).length := by
    obtain ⟨lead,tail,bytes,_⟩ := encoded_shape c
    rw [bytes]
    exact Nat.zero_lt_succ _
  constructor
  · intro boundary
    obtain ⟨front,back,split,length⟩ := boundary
    cases front with
    | nil =>
      have none : (utf8 ([] : List Char)).length = 0 := rfl
      omega
    | cons first front =>
      obtain ⟨rfl,rfl⟩ := List.cons.inj split
      rw [utf8_cons,List.length_append] at length
      exact ⟨front,back,rfl,by omega⟩
  · intro boundary
    obtain ⟨front,back,rfl,rfl⟩ := boundary
    exact ⟨c :: front,back,rfl,by rw [utf8_cons,List.length_append]⟩

theorem not_boundary_inside {c : Char} (positive : 0 < index)
    (below : index < (String.utf8EncodeChar c).length) : ¬Boundary (c :: text) index := by
  intro boundary
  obtain ⟨front,back,split,length⟩ := boundary
  cases front with
  | nil =>
    have none : (utf8 ([] : List Char)).length = 0 := rfl
    omega
  | cons first front =>
    obtain ⟨rfl,rfl⟩ := List.cons.inj split
    rw [utf8_cons,List.length_append] at length
    omega

theorem isCharBoundary_iff : isCharBoundary (utf8 text) index = true ↔ Boundary text index := by
  induction text generalizing index with
  | nil =>
    cases index with
    | zero => exact iff_of_true rfl (boundary_zero _)
    | succ index =>
      refine iff_of_false (by simp [isCharBoundary]) fun boundary => ?_
      exact absurd boundary.inside (Nat.not_succ_le_zero index)
  | cons c text ih =>
    obtain ⟨lead,tail,bytes,starts,follow⟩ := encoded_shape c
    rcases Nat.lt_or_ge index (String.utf8EncodeChar c).length with below | beyond
    · rcases Nat.eq_zero_or_pos index with zero | positive
      · subst zero
        exact iff_of_true rfl (boundary_zero _)
      · refine iff_of_false ?_ (not_boundary_inside positive below)
        obtain ⟨before,rfl⟩ := Nat.exists_eq_succ_of_ne_zero (Nat.ne_of_gt positive)
        rw [bytes,List.length_cons,Nat.succ_eq_add_one] at below
        have inner := Nat.lt_of_succ_lt_succ below
        have byte : (utf8 (c :: text))[before + 1]? = some tail[before] := by
          rw [utf8_cons,bytes,List.cons_append,List.getElem?_cons_succ,List.getElem?_append_left inner]
          exact List.getElem?_eq_getElem inner
        simp [isCharBoundary,byte,follow _ (List.getElem_mem inner)]
    · obtain ⟨rest,rfl⟩ := Nat.exists_eq_add_of_le beyond
      rw [boundary_cons,← ih,utf8_cons]
      have nonzero : (String.utf8EncodeChar c).length + rest ≠ 0 := by
        rw [bytes,List.length_cons]
        omega
      unfold isCharBoundary
      rw [if_neg nonzero,List.getElem?_append_right beyond,Nat.add_sub_cancel_left,List.length_append]
      rcases Nat.eq_zero_or_pos rest with zero | positive
      · subst zero
        cases text with
        | nil => simp
        | cons d text =>
          obtain ⟨lead',tail',bytes',starts',_⟩ := encoded_shape d
          simp [utf8_cons,bytes',starts']
      · rw [if_neg (Nat.ne_of_gt positive)]
        cases (utf8 text)[rest]? with
        | none => simp
        | some byte => rfl

theorem Boundary.char_boundary (boundary : Boundary text index) :
    isCharBoundary (utf8 text) index = true := isCharBoundary_iff.mpr boundary

-- The two slices at a byte position; there are none inside a character.
def splitAtByte : List Char → Nat → Option (List Char × List Char)
  | text, 0 => some ([],text)
  | [], _ + 1 => none
  | c :: text, index + 1 =>
    let width := (String.utf8EncodeChar c).length
    if width ≤ index + 1 then (splitAtByte text (index + 1 - width)).map fun halves => (c :: halves.1,halves.2) else none

theorem splitAtByte_zero (text : List Char) : splitAtByte text 0 = some ([],text) := by cases text <;> rfl

theorem splitAtByte_append (front back : List Char) : splitAtByte (front ++ back) (utf8 front).length = some (front,back) := by
  induction front with
  | nil => exact splitAtByte_zero back
  | cons c front ih =>
    obtain ⟨lead,tail,bytes,_⟩ := encoded_shape c
    obtain ⟨index,next⟩ := Nat.exists_eq_add_of_le' (show 1 ≤ (utf8 (c :: front)).length by rw [utf8_cons,bytes]; simp)
    have moved : index + 1 - (String.utf8EncodeChar c).length = (utf8 front).length := by
      rw [← next,utf8_cons,List.length_append,Nat.add_sub_cancel_left]
    have covered : (String.utf8EncodeChar c).length ≤ index + 1 := by
      rw [← next,utf8_cons,List.length_append]
      exact Nat.le_add_right _ _
    rw [next,List.cons_append,splitAtByte,if_pos covered,moved,ih]
    rfl

theorem splitAtByte_halves {front back : List Char} (split : splitAtByte text index = some (front,back)) :
    text = front ++ back := by
  induction text generalizing index front back with
  | nil =>
    cases index with
    | zero =>
      cases split
      rfl
    | succ index => exact nomatch split
  | cons c text ih =>
    cases index with
    | zero =>
      cases split
      rfl
    | succ index =>
      rw [splitAtByte] at split
      split at split
      · obtain ⟨halves,inner,same⟩ := Option.map_eq_some_iff.mp split
        cases same
        rw [ih inner,List.cons_append]
      · exact nomatch split

end BonsaiNinja.Library
