import BonsaiNinja.Library.CharBoundaries

namespace BonsaiNinja.Library
variable {bytes : List UInt8}
variable {fresh : List UInt8}
variable {start : Nat}

def isAscii (byte : UInt8) : Bool := byte.toNat < 128

theorem encoded_ascii {byte : UInt8} (plain : isAscii byte = true) : String.utf8EncodeChar (Char.ofNat byte.toNat) = [byte] := by
  have small : byte.toNat < 128 := of_decide_eq_true plain
  have scalar : byte.toNat.isValidChar := .inl (by omega)
  have value : (Char.ofNat byte.toNat).val.toNat = byte.toNat := by
    unfold Char.ofNat
    rw [dif_pos scalar]
    exact BitVec.toNat_ofNatLT _ _
  unfold String.utf8EncodeChar
  rw [value]
  simp only [show byte.toNat ≤ 0x7f by omega,if_true]
  exact congrArg (fun b => [b]) UInt8.ofNat_toNat

theorem encoded_of_ascii {c : Char} {byte : UInt8} {tail : List UInt8} (bytes : String.utf8EncodeChar c = byte :: tail)
    (plain : isAscii byte = true) : tail = [] := by
  have small : byte.toNat < 128 := of_decide_eq_true plain
  revert bytes
  fun_cases String.utf8EncodeChar c
  · intro bytes
    exact (List.cons.inj bytes).2.symm
  all_goals
    intro bytes
    have lead := congrArg UInt8.toNat (List.cons.inj bytes).1
    simp only [UInt8.toNat_ofNat'] at lead
    omega

theorem ascii_decodes (plain : ∀ byte ∈ bytes, isAscii byte = true) : ∃ text, utf8 text = bytes := by
  induction bytes with
  | nil => exact ⟨[],rfl⟩
  | cons byte bytes ih =>
    obtain ⟨text,encoded⟩ := ih fun other listed => plain other (List.mem_cons_of_mem _ listed)
    refine ⟨Char.ofNat byte.toNat :: text,?_⟩
    rw [utf8_cons,encoded_ascii (plain byte List.mem_cons_self),encoded]
    rfl

theorem Boundary.between {text : List Char} {stop : Nat} (opens : Boundary text start) (closes : Boundary text stop)
    (ordered : start ≤ stop) : ∃ front middle back, text = front ++ (middle ++ back) ∧ (utf8 front).length = start ∧
      (utf8 front).length + (utf8 middle).length = stop := by
  obtain ⟨front,rest,split,length⟩ := opens
  obtain ⟨upto,back,split',length'⟩ := closes
  have starts : front <+: text := ⟨rest,split.symm⟩
  have reaches : upto <+: text := ⟨back,split'.symm⟩
  rcases List.prefix_or_prefix_of_prefix starts reaches with inner | outer
  · obtain ⟨middle,rfl⟩ := inner
    refine ⟨front,middle,back,by rw [split',List.append_assoc],length,?_⟩
    rw [← length',utf8_append,List.length_append]
  · obtain ⟨spare,rfl⟩ := outer
    have empty : (utf8 spare).length = 0 := by
      rw [utf8_append,List.length_append] at length
      omega
    refine ⟨upto ++ spare,[],rest,by rw [List.nil_append,← split],length,?_⟩
    rw [utf8_append,List.length_append] at length ⊢
    simp only [utf8_nil,List.length_nil]
    omega

theorem isCharBoundary_of_ascii {index : Nat} {byte : UInt8} (held : bytes[index]? = some byte)
    (plain : isAscii byte = true) : isCharBoundary bytes index = true := by
  have small : byte.toNat < 128 := of_decide_eq_true plain
  unfold isCharBoundary
  split
  · rfl
  · rw [held]
    simp only [continues,Bool.not_eq_true',Bool.and_eq_false_iff,decide_eq_false_iff_not]
    left
    omega

def overwrite (bytes : List UInt8) (start : Nat) (fresh : List UInt8) : List UInt8 :=
  bytes.take start ++ (fresh ++ bytes.drop (start + fresh.length))

section
variable (inside : start + fresh.length ≤ bytes.length)
include inside

theorem overwrite_length :
    (overwrite bytes start fresh).length = bytes.length := by
  simp only [overwrite,List.length_append,List.length_take,List.length_drop]
  omega

theorem overwrite_outside {index : Nat}
    (outside : index < start ∨ start + fresh.length ≤ index) : (overwrite bytes start fresh)[index]? = bytes[index]? := by
  have width : (bytes.take start).length = start := List.length_take_of_le (by omega)
  unfold overwrite
  rcases outside with before | behind
  · rw [List.getElem?_append_left (by omega),List.getElem?_take_of_lt before]
  · rw [List.getElem?_append_right (by omega),width,List.getElem?_append_right (by omega),List.getElem?_drop]
    congr 1
    omega

theorem overwrite_inside {index : Nat}
    (below : index < fresh.length) : (overwrite bytes start fresh)[start + index]? = fresh[index]? := by
  have width : (bytes.take start).length = start := List.length_take_of_le (by omega)
  unfold overwrite
  rw [List.getElem?_append_right (by omega),width,Nat.add_sub_cancel_left,List.getElem?_append_left below]

end

theorem overwrite_eq_iff :
    overwrite bytes start fresh = bytes ↔ (bytes.drop start).take fresh.length = fresh := by
  have parts : bytes = bytes.take start ++ ((bytes.drop start).take fresh.length ++ bytes.drop (start + fresh.length)) := by
    rw [← List.drop_drop,List.take_append_drop,List.take_append_drop]
  constructor
  · intro same
    rw [overwrite] at same
    nth_rewrite 3 [parts] at same
    have rest := List.append_cancel_left same
    exact (List.append_cancel_right rest).symm
  · intro same
    rw [overwrite]
    nth_rewrite 3 [parts]
    rw [same]

-- Plain bytes in the place of whole characters leave a text, with every boundary it had.
theorem Boundary.overwritten {text : List Char} {stop : Nat} (opens : Boundary text start)
    (closes : Boundary text stop) (width : start + fresh.length = stop) (plain : ∀ byte ∈ fresh, isAscii byte = true) :
    ∃ held, utf8 held = overwrite (utf8 text) start fresh ∧ ∀ index, Boundary text index → Boundary held index := by
  have ordered : start ≤ stop := width ▸ Nat.le_add_right _ _
  have inside : start + fresh.length ≤ (utf8 text).length := width ▸ closes.inside
  obtain ⟨front,middle,back,rfl,length,length'⟩ := opens.between closes ordered
  obtain ⟨written,encoded⟩ := ascii_decodes plain
  have bytes : utf8 (front ++ (written ++ back)) = overwrite (utf8 (front ++ (middle ++ back))) start fresh := by
    have covered : start + fresh.length = (utf8 front).length + (utf8 middle).length := by omega
    rw [overwrite,covered,← length]
    simp only [utf8_append,encoded,List.take_left']
    rw [List.drop_append]
    simp
  refine ⟨_,bytes,fun index boundary => ?_⟩
  rw [← isCharBoundary_iff,bytes]
  have kept := boundary.char_boundary
  rcases Nat.lt_or_ge index start with before | beyond
  · unfold isCharBoundary at kept ⊢
    rwa [overwrite_outside inside (.inl before),overwrite_length inside]
  · rcases Nat.lt_or_ge index stop with within | behind
    · obtain ⟨offset,rfl⟩ := Nat.exists_eq_add_of_le beyond
      have below : offset < fresh.length := by omega
      refine @isCharBoundary_of_ascii _ _ fresh[offset] ?_ (plain _ (List.getElem_mem below))
      rw [overwrite_inside inside below,List.getElem?_eq_getElem below]
    · unfold isCharBoundary at kept ⊢
      rwa [overwrite_outside inside (.inr (by omega)),overwrite_length inside]

end BonsaiNinja.Library
