import BonsaiNinja.Library.AsciiStretches
import BonsaiNinja.Parser.ParseCache

namespace BonsaiNinja.Parser
open Library

def lineFeed : UInt8 := 10
def carriageReturn : UInt8 := 13
def blank : UInt8 := 32

def isAsciiLowercase (byte : UInt8) : Bool := 97 ≤ byte.toNat && byte.toNat ≤ 122

def makeAsciiUppercase (byte : UInt8) : UInt8 := if isAsciiLowercase byte then UInt8.ofNat (byte.toNat - 32) else byte

def sliceRange (bytes : List UInt8) (start stop : Nat) : Option (List UInt8) :=
  if start ≤ stop ∧ stop ≤ bytes.length then some ((bytes.drop start).take (stop - start)) else none

def maskBytes : List UInt8 → Bool × List UInt8
  | [] => (false,[])
  | byte :: rest =>
    let later := maskBytes rest
    if byte ≠ lineFeed ∧ byte ≠ carriageReturn then (byte != blank || later.1,blank :: later.2) else (later.1,byte :: later.2)

def padded (replacement target : List UInt8) : Option (List UInt8) :=
  if replacement.length ≤ target.length then some (replacement ++ List.replicate (target.length - replacement.length) blank) else none

namespace ParseRecoveryEdit

def invalid (edit : ParseRecoveryEdit) (original recovered : List UInt8) : Bool :=
  edit.endByte ≤ edit.startByte || recovered.length < edit.endByte || recovered.length != original.length ||
    !Library.isCharBoundary original edit.startByte || !Library.isCharBoundary original edit.endByte

-- The same edit with each of its slices and indices checked: nothing stands for a panic.
def checkedApplyTo (edit : ParseRecoveryEdit) (original recovered : List UInt8) : Option (Bool × List UInt8) :=
  if edit.invalid original recovered then some (false,recovered)
  else
    match edit.action with
    | .mask => do
      let target ← sliceRange recovered edit.startByte edit.endByte
      let (changed,masked) := maskBytes target
      return (changed,overwrite recovered edit.startByte masked)
    | .uppercaseAscii => do
      let byte ← recovered[edit.startByte]?
      if !isAsciiLowercase byte then return (false,recovered)
      return (true,overwrite recovered edit.startByte [makeAsciiUppercase byte])
    | .replaceAscii replacement => do
      let target ← sliceRange recovered edit.startByte edit.endByte
      if replacement.isEmpty || target.length < replacement.length || !replacement.all isAscii || target.any isLineBreak then
        return (false,recovered)
      let written ← padded replacement target
      return (written != target,overwrite recovered edit.startByte written)

end ParseRecoveryEdit

def checkedRecoveryEdits (source : List UInt8) : List ParseRecoveryEdit → List UInt8 → Option (Bool × List UInt8)
  | [], recovered => some (false,recovered)
  | edit :: edits, recovered => do
    let (changed,recovered) ← edit.checkedApplyTo source recovered
    let (later,recovered) ← checkedRecoveryEdits source edits recovered
    return (changed || later,recovered)

theorem maskBytes_length (bytes : List UInt8) : (maskBytes bytes).2.length = bytes.length := by
  induction bytes with
  | nil => rfl
  | cons byte bytes ih =>
    rw [maskBytes]
    split <;> simp [ih]

theorem maskBytes_ascii {bytes : List UInt8} {byte : UInt8} (masked : byte ∈ (maskBytes bytes).2) : isAscii byte = true := by
  induction bytes with
  | nil => exact absurd masked List.not_mem_nil
  | cons head bytes ih =>
    rw [maskBytes] at masked
    split at masked
    · rcases List.mem_cons.mp masked with rfl | inner
      · rfl
      · exact ih inner
    · next breaks =>
      rcases List.mem_cons.mp masked with rfl | inner
      · by_cases feed : byte = lineFeed
        · exact feed ▸ rfl
        · have other : byte = carriageReturn := not_not.mp fun plain => breaks ⟨feed,plain⟩
          exact other ▸ rfl
      · exact ih inner

theorem maskBytes_changed (bytes : List UInt8) : (maskBytes bytes).1 = true ↔ (maskBytes bytes).2 ≠ bytes := by
  induction bytes with
  | nil => exact iff_of_false nofun fun moved => moved rfl
  | cons byte bytes ih =>
    rw [maskBytes]
    split
    · simp only [Bool.or_eq_true,bne_iff_ne,ih,ne_eq,List.cons.injEq,not_and_or]
      exact or_congr_left ⟨fun differs same => differs same.symm,fun differs same => differs same.symm⟩
    · simpa using ih

theorem maskBytes_break {mark : UInt8} (breaks : isLineBreak mark = true) (bytes : List UInt8) (index : Nat) :
    (maskBytes bytes).2[index]? = some mark ↔ bytes[index]? = some mark := by
  have notBlank : blank ≠ mark := by
    intro same
    subst same
    exact nomatch breaks
  induction bytes generalizing index with
  | nil => exact Iff.rfl
  | cons byte bytes ih =>
    rw [maskBytes]
    split
    · next plain =>
      cases index with
      | zero =>
        refine iff_of_false (fun found => notBlank (Option.some.inj found)) fun found => ?_
        have same : byte = mark := Option.some.inj found
        subst same
        simp only [isLineBreak,Bool.or_eq_true,beq_iff_eq] at breaks
        exact breaks.elim plain.1 plain.2
      | succ index => exact ih index
    · cases index with
      | zero => exact Iff.rfl
      | succ index => exact ih index

theorem uppercase_facts {byte : UInt8} (lower : isAsciiLowercase byte = true) : isAscii (makeAsciiUppercase byte) = true ∧
    isLineBreak (makeAsciiUppercase byte) = false ∧ makeAsciiUppercase byte ≠ byte ∧ isAscii byte = true ∧ isLineBreak byte = false := by
  revert lower
  cases byte using UInt8.rec with
  | ofBitVec bits =>
    revert bits
    decide

namespace ParseRecoveryEdit
variable {edit : ParseRecoveryEdit} {original recovered : List UInt8}

def unbroken (edit : ParseRecoveryEdit) : Bool :=
  match edit.action with
  | .replaceAscii replacement => !replacement.any isLineBreak
  | _ => true

structure Writes (edit : ParseRecoveryEdit) (recovered : List UInt8) (changed : Bool) (fresh : List UInt8) : Prop where
  inside : edit.startByte + fresh.length ≤ recovered.length
  plain : ∀ byte ∈ fresh, isAscii byte = true
  breaks : edit.unbroken = true → ∀ mark, isLineBreak mark = true → ∀ index, index < fresh.length →
    (fresh[index]? = some mark ↔ recovered[edit.startByte + index]? = some mark)
  changes : changed = true ↔ overwrite recovered edit.startByte fresh ≠ recovered
  closes : ∀ held, utf8 held = recovered → Boundary held edit.startByte → Boundary held edit.endByte →
    Boundary held (edit.startByte + fresh.length)

theorem nothing_written (inside : edit.startByte ≤ recovered.length) :
    overwrite recovered edit.startByte [] = recovered ∧ edit.Writes recovered false [] := by
  have same : overwrite recovered edit.startByte [] = recovered := by simp [overwrite]
  refine ⟨same,⟨inside,List.forall_mem_nil _,fun _ _ _ _ below => absurd below (Nat.not_lt_zero _),
    iff_of_false Bool.false_ne_true fun moved => moved same,?_⟩⟩
  intro held _ opens _
  exact opens

theorem valid_range (valid : edit.invalid original recovered = false) : edit.startByte < edit.endByte ∧
    edit.endByte ≤ recovered.length ∧ recovered.length = original.length ∧ Library.isCharBoundary original edit.startByte = true ∧
    Library.isCharBoundary original edit.endByte = true := by
  simp only [invalid,Bool.or_eq_false_iff,decide_eq_false_iff_not,bne_eq_false_iff_eq,Bool.not_eq_false',Nat.not_le,Nat.not_lt] at valid
  obtain ⟨⟨⟨⟨ordered,inside⟩,width⟩,opens⟩,closes⟩ := valid
  exact ⟨ordered,inside,width,opens,closes⟩

theorem sliceRange_eq {start stop : Nat} (ordered : start ≤ stop) (inside : stop ≤ recovered.length) :
    sliceRange recovered start stop = some ((recovered.drop start).take (stop - start)) := if_pos ⟨ordered,inside⟩

theorem slice_length {start stop : Nat} (inside : stop ≤ recovered.length) :
    ((recovered.drop start).take (stop - start)).length = stop - start := by
  rw [List.length_take,List.length_drop]
  omega

theorem slice_get {start stop index : Nat} (below : index < stop - start) :
    ((recovered.drop start).take (stop - start))[index]? = recovered[start + index]? := by
  rw [List.getElem?_take_of_lt below,List.getElem?_drop]

theorem writes_slice {changed : Bool} {fresh : List UInt8} (ordered : edit.startByte ≤ edit.endByte)
    (inside : edit.endByte ≤ recovered.length) (width : fresh.length = edit.endByte - edit.startByte)
    (plain : ∀ byte ∈ fresh, isAscii byte = true)
    (changes : changed = true ↔ fresh ≠ (recovered.drop edit.startByte).take (edit.endByte - edit.startByte))
    (breaks : edit.unbroken = true → ∀ mark, isLineBreak mark = true → ∀ index : Nat,
      (fresh[index]? = some mark ↔ ((recovered.drop edit.startByte).take (edit.endByte - edit.startByte))[index]? = some mark)) :
    edit.Writes recovered changed fresh := by
  have reach : edit.startByte + fresh.length = edit.endByte := by omega
  refine ⟨reach ▸ inside,plain,?_,?_,?_⟩
  · intro word mark breaking index below
    rw [breaks word mark breaking index,slice_get (width ▸ below)]
  · rw [changes,ne_eq,ne_eq,overwrite_eq_iff,width]
    exact not_congr eq_comm
  · intro held _ _ closes
    rwa [reach]

theorem mask_writes (ordered : edit.startByte ≤ edit.endByte) (inside : edit.endByte ≤ recovered.length) :
    edit.Writes recovered (maskBytes ((recovered.drop edit.startByte).take (edit.endByte - edit.startByte))).1
      (maskBytes ((recovered.drop edit.startByte).take (edit.endByte - edit.startByte))).2 := by
  refine writes_slice ordered inside ?_ ?_ (maskBytes_changed _) fun _ mark breaking index => maskBytes_break breaking _ index
  · rw [maskBytes_length,slice_length inside]
  · intro byte masked
    exact maskBytes_ascii masked

theorem uppercase_writes {byte : UInt8} (held : recovered[edit.startByte]? = some byte) (lower : isAsciiLowercase byte = true) :
    edit.Writes recovered true [makeAsciiUppercase byte] := by
  obtain ⟨plain,unbroken,differs,ascii,whole⟩ := uppercase_facts lower
  obtain ⟨inside,same⟩ := List.getElem?_eq_some_iff.mp held
  refine ⟨inside,?_,?_,?_,?_⟩
  · intro other listed
    cases List.mem_singleton.mp listed
    exact plain
  · intro _ mark breaking index below
    cases Nat.lt_one_iff.mp below
    rw [Nat.add_zero,held]
    refine iff_of_false ?_ ?_
    · intro found
      cases found
      exact absurd breaking (unbroken ▸ Bool.false_ne_true)
    · intro found
      cases found
      exact absurd breaking (whole ▸ Bool.false_ne_true)
  · refine iff_of_true rfl fun same => ?_
    have first := overwrite_inside inside (by exact Nat.one_pos : 0 < [makeAsciiUppercase byte].length)
    rw [same,Nat.add_zero,held] at first
    exact differs (Option.some.inj first).symm
  · intro text encoded opens _
    obtain ⟨front,back,rfl,length⟩ := opens
    rw [← encoded,utf8_append,List.getElem?_append_right length.le,length,Nat.sub_self] at held
    cases back with
    | nil => exact nomatch held
    | cons c back =>
      obtain ⟨lead,tail,bytes,_⟩ := encoded_shape c
      rw [utf8_cons,bytes,List.cons_append,List.getElem?_cons_zero] at held
      cases held
      have single := encoded_of_ascii bytes ascii
      subst single
      refine ⟨front ++ [c],back,by rw [List.append_assoc,List.singleton_append],?_⟩
      rw [utf8_append,List.length_append,length]
      simp [utf8,bytes]

theorem padded_eq {replacement target : List UInt8} (fits : replacement.length ≤ target.length) :
    padded replacement target = some (replacement ++ List.replicate (target.length - replacement.length) blank) := if_pos fits

theorem replace_writes {replacement target : List UInt8} (ordered : edit.startByte ≤ edit.endByte)
    (inside : edit.endByte ≤ recovered.length) (action : edit.action = .replaceAscii replacement)
    (whole : target = (recovered.drop edit.startByte).take (edit.endByte - edit.startByte))
    (fits : replacement.length ≤ target.length) (ascii : replacement.all isAscii = true) (line : target.any isLineBreak = false) :
    edit.Writes recovered (replacement ++ List.replicate (target.length - replacement.length) blank != target)
      (replacement ++ List.replicate (target.length - replacement.length) blank) := by
  have width : target.length = edit.endByte - edit.startByte := whole ▸ slice_length inside
  refine writes_slice ordered inside ?_ ?_ ?_ ?_
  · rw [List.length_append,List.length_replicate]
    omega
  · intro byte listed
    rcases List.mem_append.mp listed with written | spare
    · exact List.all_eq_true.mp ascii byte written
    · rw [(List.mem_replicate.mp spare).2]
      rfl
  · rw [bne_iff_ne,whole]
  · intro word mark breaking index
    rw [← whole]
    refine iff_of_false ?_ ?_
    · intro found
      rcases List.mem_append.mp (List.mem_of_getElem? found) with written | spare
      · simp only [unbroken,action,Bool.not_eq_true'] at word
        exact absurd breaking (by simpa using List.any_eq_false.mp word mark written)
      · rw [(List.mem_replicate.mp spare).2] at breaking
        exact nomatch breaking
    · intro found
      exact absurd breaking (by simpa using List.any_eq_false.mp line mark (List.mem_of_getElem? found))

theorem checkedApplyTo_writes (valid : edit.invalid original recovered = false) : ∃ changed fresh,
    edit.checkedApplyTo original recovered = some (changed,overwrite recovered edit.startByte fresh) ∧ edit.Writes recovered changed fresh := by
  obtain ⟨ordered,inside,_,_,_⟩ := valid_range valid
  obtain ⟨same,nothing⟩ := nothing_written (by omega : edit.startByte ≤ recovered.length)
  unfold checkedApplyTo
  rw [if_neg (by rw [valid]; exact Bool.false_ne_true)]
  cases action : edit.action with
  | mask =>
    refine ⟨_,_,?_,mask_writes ordered.le inside⟩
    simp only [sliceRange_eq ordered.le inside]
    rfl
  | uppercaseAscii =>
    have held : recovered[edit.startByte]? = some recovered[edit.startByte] := List.getElem?_eq_getElem (by omega)
    simp only [held]
    by_cases lower : isAsciiLowercase recovered[edit.startByte] = true
    · refine ⟨_,_,?_,uppercase_writes held lower⟩
      simp [lower]
    · refine ⟨_,_,?_,nothing⟩
      rw [same]
      simp [lower]
  | replaceAscii replacement =>
    simp only [sliceRange_eq ordered.le inside]
    by_cases refused : (replacement.isEmpty || ((recovered.drop edit.startByte).take (edit.endByte - edit.startByte)).length < replacement.length ||
        !replacement.all isAscii || ((recovered.drop edit.startByte).take (edit.endByte - edit.startByte)).any isLineBreak) = true
    · refine ⟨_,_,?_,nothing⟩
      rw [same]
      simp only [Option.bind_eq_bind,Option.bind_some,refused]
      rfl
    · have parts := refused
      simp only [Bool.or_eq_true,not_or,decide_eq_true_eq,Nat.not_lt,Bool.not_eq_true,Bool.not_eq_true',Bool.not_eq_false] at parts
      obtain ⟨⟨⟨_,fits⟩,ascii⟩,line⟩ := parts
      refine ⟨_,_,?_,replace_writes ordered.le inside action rfl fits ascii line⟩
      simp only [Option.bind_eq_bind,Option.bind_some,refused,padded_eq fits]
      rfl

-- No edit ever fails, and its flag tells whether the buffer is another one.
theorem checkedApplyTo_total (edit : ParseRecoveryEdit) (original recovered : List UInt8) : ∃ changed after,
    edit.checkedApplyTo original recovered = some (changed,after) ∧ (changed = true ↔ after ≠ recovered) := by
  cases valid : edit.invalid original recovered with
  | true => exact ⟨false,recovered,by simp [checkedApplyTo,valid],by simp⟩
  | false =>
    obtain ⟨changed,fresh,applied,writes⟩ := checkedApplyTo_writes valid
    exact ⟨changed,_,applied,writes.changes⟩

end ParseRecoveryEdit

theorem maskBytes_map (bytes : List UInt8) : (maskBytes bytes).2 = bytes.map fun byte => if isLineBreak byte then byte else 32 := by
  induction bytes with
  | nil => rfl
  | cons byte bytes ih =>
    rw [maskBytes,List.map_cons,← ih]
    by_cases breaks : isLineBreak byte = true
    · have kept : ¬(byte ≠ lineFeed ∧ byte ≠ carriageReturn) := by
        simp only [isLineBreak,Bool.or_eq_true,beq_iff_eq] at breaks
        exact fun plain => breaks.elim plain.1 plain.2
      rw [if_neg kept,if_pos breaks]
    · have masked : byte ≠ lineFeed ∧ byte ≠ carriageReturn :=
        ⟨fun feed => breaks (feed ▸ rfl),fun other => breaks (other ▸ rfl)⟩
      rw [if_pos masked,if_neg breaks]
      rfl

theorem continues_masked (byte : UInt8) : (byte &&& 0xC0 != 0x80) = !continues byte := by
  cases byte using UInt8.rec with
  | ofBitVec bits =>
    revert bits
    decide

theorem isCharBoundary_utf8 (text : List Char) (index : Nat) : isCharBoundary (utf8 text) index = Library.isCharBoundary (utf8 text) index := by
  unfold isCharBoundary Library.isCharBoundary
  split
  · next zero =>
    subst zero
    cases text with
    | nil => rfl
    | cons c text =>
      obtain ⟨lead,tail,bytes,starts,_⟩ := encoded_shape c
      simp [utf8_cons,bytes,continues_masked,starts]
  · cases held : (utf8 text)[index]? with
    | none => simp
    | some byte =>
      have below := (List.getElem?_eq_some_iff.mp held).1
      simp [continues_masked,Nat.ne_of_lt below]

theorem uppercase_eq {byte : UInt8} (lower : isAsciiLowercase byte = true) : makeAsciiUppercase byte = byte - 32 := by
  revert lower
  cases byte using UInt8.rec with
  | ofBitVec bits =>
    revert bits
    decide

-- The checks never fail: on a text the checked edit is the edit.
theorem checkedApplyTo_eq (edit : ParseRecoveryEdit) (text : List Char) (recovered : List UInt8) :
    edit.checkedApplyTo (utf8 text) recovered =
      some ((edit.applyTo (utf8 text) recovered).2,(edit.applyTo (utf8 text) recovered).1) := by
  have same : edit.invalid (utf8 text) recovered = (edit.endByte ≤ edit.startByte || recovered.length < edit.endByte ||
      recovered.length != (utf8 text).length || !isCharBoundary (utf8 text) edit.startByte ||
      !isCharBoundary (utf8 text) edit.endByte : Bool) := by
    simp only [ParseRecoveryEdit.invalid,isCharBoundary_utf8]
  cases valid : edit.invalid (utf8 text) recovered with
  | true => simp [ParseRecoveryEdit.checkedApplyTo,ParseRecoveryEdit.applyTo,valid,← same]
  | false =>
    obtain ⟨ordered,inside,_,_,_⟩ := ParseRecoveryEdit.valid_range valid
    have cut : (recovered.take edit.endByte).drop edit.startByte = (recovered.drop edit.startByte).take (edit.endByte - edit.startByte) :=
      List.drop_take
    have width : ((recovered.drop edit.startByte).take (edit.endByte - edit.startByte)).length = edit.endByte - edit.startByte :=
      ParseRecoveryEdit.slice_length inside
    have written : ∀ {fresh : List UInt8}, fresh.length = edit.endByte - edit.startByte →
        overwrite recovered edit.startByte fresh = recovered.take edit.startByte ++ fresh ++ recovered.drop edit.endByte := by
      intro fresh length
      rw [overwrite,length,Nat.add_sub_cancel' ordered.le,List.append_assoc]
    unfold ParseRecoveryEdit.checkedApplyTo ParseRecoveryEdit.applyTo
    rw [← same,valid]
    simp only [Bool.false_eq_true,if_false,cut]
    cases action : edit.action with
    | mask =>
      simp only [ParseRecoveryEdit.sliceRange_eq ordered.le inside,Option.bind_eq_bind,Option.bind_some,Option.pure_def]
      generalize (recovered.drop edit.startByte).take (edit.endByte - edit.startByte) = target at width
      rw [written (by rw [maskBytes_length,width]),← maskBytes_map]
      congr 2
      rw [Bool.eq_iff_iff,maskBytes_changed,bne_iff_ne]
    | uppercaseAscii =>
      have held : recovered[edit.startByte]? = some recovered[edit.startByte] := List.getElem?_eq_getElem (by omega)
      have target : (recovered.drop edit.startByte).take (edit.endByte - edit.startByte) =
          recovered[edit.startByte] :: (recovered.drop (edit.startByte + 1)).take (edit.endByte - edit.startByte - 1) := by
        obtain ⟨more,same⟩ := Nat.exists_eq_add_of_lt ordered
        have count : edit.endByte - edit.startByte = more + 1 := by omega
        rw [List.drop_eq_getElem_cons (by omega),count,List.take_succ_cons,Nat.add_sub_cancel]
      simp only [held,target,Option.bind_eq_bind,Option.bind_some,Option.pure_def]
      by_cases lower : isAsciiLowercase recovered[edit.startByte] = true
      · have test : (97 ≤ recovered[edit.startByte] && recovered[edit.startByte] ≤ 122 : Bool) = true := lower
        rw [if_pos test,if_neg (by simp [lower]),uppercase_eq lower,overwrite]
        have rest : (recovered.drop (edit.startByte + 1)).take (edit.endByte - edit.startByte - 1) ++ recovered.drop edit.endByte =
            recovered.drop (edit.startByte + 1) := by
          have tail : recovered.drop edit.endByte = (recovered.drop (edit.startByte + 1)).drop (edit.endByte - edit.startByte - 1) := by
            rw [List.drop_drop]
            congr 1
            omega
          rw [tail,List.take_append_drop]
        simp [rest]
      · have test : ¬(97 ≤ recovered[edit.startByte] && recovered[edit.startByte] ≤ 122 : Bool) = true := lower
        rw [if_neg test,if_pos (by simp [lower])]
    | replaceAscii replacement =>
      simp only [ParseRecoveryEdit.sliceRange_eq ordered.le inside,Option.bind_eq_bind,Option.bind_some,Option.pure_def]
      generalize (recovered.drop edit.startByte).take (edit.endByte - edit.startByte) = target at width
      have ascii : (!replacement.all isAscii) = replacement.any (128 ≤ ·) := by
        rw [List.not_all_eq_any_not]
        congr 1
        funext byte
        rw [isAscii,← decide_not]
        exact decide_eq_decide.mpr (by rw [Nat.not_lt]; rfl)
      rw [ascii]
      split
      · rfl
      · next accepted =>
        simp only [Bool.or_eq_true,not_or,decide_eq_true_eq,Nat.not_lt] at accepted
        have fits := accepted.1.1.2
        rw [ParseRecoveryEdit.padded_eq fits,Option.bind_some,written (by rw [List.length_append,List.length_replicate]; omega)]
        rfl

structure Coordinates (text : List Char) (recovered : List UInt8) : Prop where
  decoded : ∃ held, utf8 held = recovered ∧ ∀ index, Boundary text index → Boundary held index
  width : recovered.length = (utf8 text).length
  breaks : ∀ mark, isLineBreak mark = true → ∀ index : Nat, (recovered[index]? = some mark ↔ (utf8 text)[index]? = some mark)

namespace Coordinates
variable {text : List Char} {recovered after : List UInt8} {edit : ParseRecoveryEdit} {edits : List ParseRecoveryEdit} {changed : Bool}

theorem start (text : List Char) : Coordinates text (utf8 text) := ⟨⟨text,rfl,fun _ boundary => boundary⟩,rfl,fun _ _ _ => Iff.rfl⟩

section
variable (coordinates : Coordinates text recovered)
include coordinates

theorem written {fresh : List UInt8} (word : edit.unbroken = true)
    (valid : edit.invalid (utf8 text) recovered = false) (writes : edit.Writes recovered changed fresh) :
    Coordinates text (overwrite recovered edit.startByte fresh) := by
  obtain ⟨held,rfl,boundaries⟩ := coordinates.decoded
  obtain ⟨_,_,_,opens,closes⟩ := ParseRecoveryEdit.valid_range valid
  have start := boundaries _ (isCharBoundary_iff.mp opens)
  have stop := writes.closes held rfl start (boundaries _ (isCharBoundary_iff.mp closes))
  obtain ⟨fresher,encoded,kept⟩ := start.overwritten stop rfl writes.plain
  refine ⟨⟨fresher,encoded,fun index boundary => kept index (boundaries index boundary)⟩,?_,?_⟩
  · rw [overwrite_length writes.inside,coordinates.width]
  · intro mark breaking index
    rw [← coordinates.breaks mark breaking index]
    rcases Nat.lt_or_ge index edit.startByte with before | beyond
    · rw [overwrite_outside writes.inside (.inl before)]
    · obtain ⟨offset,rfl⟩ := Nat.exists_eq_add_of_le beyond
      rcases Nat.lt_or_ge offset fresh.length with within | behind
      · rw [overwrite_inside writes.inside within,writes.breaks word mark breaking offset within]
      · rw [overwrite_outside writes.inside (.inr (by omega))]

theorem applied (word : edit.unbroken = true)
    (step : edit.checkedApplyTo (utf8 text) recovered = some (changed,after)) : Coordinates text after := by
  cases valid : edit.invalid (utf8 text) recovered with
  | true =>
    simp only [ParseRecoveryEdit.checkedApplyTo,valid,if_true,Option.some.injEq,Prod.mk.injEq] at step
    exact step.2 ▸ coordinates
  | false =>
    obtain ⟨flag,fresh,result,writes⟩ := ParseRecoveryEdit.checkedApplyTo_writes valid
    cases step.symm.trans result
    exact coordinates.written word valid writes

theorem run (words : ∀ edit ∈ edits, edit.unbroken = true)
    (step : checkedRecoveryEdits (utf8 text) edits recovered = some (changed,after)) : Coordinates text after := by
  induction edits generalizing recovered changed with
  | nil =>
    cases step
    exact coordinates
  | cons edit edits ih =>
    obtain ⟨first,middle,applied,_⟩ := edit.checkedApplyTo_total (utf8 text) recovered
    simp only [checkedRecoveryEdits,applied,Option.bind_eq_bind,Option.bind_some] at step
    obtain ⟨⟨later,final⟩,rest,result⟩ := Option.bind_eq_some_iff.mp step
    cases result
    have kept := coordinates.applied (words edit List.mem_cons_self) applied
    exact ih kept (fun other listed => words other (List.mem_cons_of_mem _ listed)) rest

end

end Coordinates

inductive Edited (source : List UInt8) : List ParseRecoveryEdit → List UInt8 → List Bool → List UInt8 → Prop
  | done (recovered : List UInt8) : Edited source [] recovered [] recovered
  | turn {edit : ParseRecoveryEdit} {edits : List ParseRecoveryEdit} {recovered middle after : List UInt8} {changed : Bool}
      {flags : List Bool} (applied : edit.checkedApplyTo source recovered = some (changed,middle))
      (exact : changed = true ↔ middle ≠ recovered) (rest : Edited source edits middle flags after) :
      Edited source (edit :: edits) recovered (changed :: flags) after

theorem checkedRecoveryEdits_edited (source : List UInt8) (edits : List ParseRecoveryEdit) (recovered : List UInt8) :
    ∃ changed flags after, checkedRecoveryEdits source edits recovered = some (changed,after) ∧
      Edited source edits recovered flags after ∧ (changed = false ↔ ∀ flag ∈ flags, flag = false) := by
  induction edits generalizing recovered with
  | nil => exact ⟨false,[],recovered,rfl,.done recovered,iff_of_true rfl nofun⟩
  | cons edit edits ih =>
    obtain ⟨changed,middle,applied,exactly⟩ := edit.checkedApplyTo_total source recovered
    obtain ⟨later,flags,after,rest,edited,all⟩ := ih middle
    refine ⟨changed || later,changed :: flags,after,?_,.turn applied exactly edited,?_⟩
    · simp only [checkedRecoveryEdits,applied,rest,Option.bind_eq_bind,Option.bind_some]
      rfl
    · rw [Bool.or_eq_false_iff,all,List.forall_mem_cons]

theorem Edited.untouched {source recovered after : List UInt8} {edits : List ParseRecoveryEdit} {flags : List Bool}
    (edited : Edited source edits recovered flags after) (quiet : ∀ flag ∈ flags, flag = false) : after = recovered := by
  induction edited with
  | done recovered => rfl
  | turn applied exactly _ ih =>
    obtain ⟨first,rest⟩ := List.forall_mem_cons.mp quiet
    have same := not_not.mp (mt exactly.mpr (first ▸ Bool.false_ne_true))
    rw [ih rest,same]

-- Any edits in any order: the copy of the source stays a text that breaks its lines where the source does and has a boundary
-- wherever the source has one, and the flags tell exactly which edits wrote something.
theorem recovery_edits_keep_coordinates (text : List Char) (edits : List ParseRecoveryEdit)
    (words : ∀ edit ∈ edits, edit.unbroken = true) : ∃ changed flags held,
    checkedRecoveryEdits (utf8 text) edits (utf8 text) = some (changed,utf8 held) ∧
    Edited (utf8 text) edits (utf8 text) flags (utf8 held) ∧
    (utf8 held).length = (utf8 text).length ∧
    (∀ index, Boundary text index → Boundary held index) ∧
    (∀ index : Nat, (utf8 held)[index]? = some lineFeed ↔ (utf8 text)[index]? = some lineFeed) ∧
    (∀ index : Nat, (utf8 held)[index]? = some carriageReturn ↔ (utf8 text)[index]? = some carriageReturn) ∧
    (changed = false ↔ ∀ flag ∈ flags, flag = false) ∧ (changed = false → utf8 held = utf8 text) := by
  obtain ⟨changed,flags,after,result,edited,all⟩ := checkedRecoveryEdits_edited (utf8 text) edits (utf8 text)
  have coordinates := (Coordinates.start text).run words result
  obtain ⟨held,rfl,boundaries⟩ := coordinates.decoded
  refine ⟨changed,flags,held,result,edited,coordinates.width,boundaries,coordinates.breaks lineFeed rfl,
    coordinates.breaks carriageReturn rfl,all,?_⟩
  intro quiet
  exact edited.untouched (all.mp quiet)

def markedSource : List Char := ['A','é','\n','v','a','r']

def markedEdits : List ParseRecoveryEdit :=
  [⟨0,3,.mask,none⟩,⟨2,4,.mask,none⟩,⟨4,5,.uppercaseAscii,none⟩,⟨4,7,.replaceAscii [102,110],none⟩,⟨0,9,.mask,none⟩]

theorem marked_edits : ∃ changed flags held,
    checkedRecoveryEdits (utf8 markedSource) markedEdits (utf8 markedSource) = some (changed,utf8 held) ∧
    Edited (utf8 markedSource) markedEdits (utf8 markedSource) flags (utf8 held) ∧
    (utf8 held).length = (utf8 markedSource).length ∧
    (∀ index, Boundary markedSource index → Boundary held index) ∧
    (∀ index : Nat, (utf8 held)[index]? = some lineFeed ↔ (utf8 markedSource)[index]? = some lineFeed) ∧
    (∀ index : Nat, (utf8 held)[index]? = some carriageReturn ↔ (utf8 markedSource)[index]? = some carriageReturn) ∧
    (changed = false ↔ ∀ flag ∈ flags, flag = false) ∧ (changed = false → utf8 held = utf8 markedSource) :=
  recovery_edits_keep_coordinates markedSource markedEdits (by decide)

end BonsaiNinja.Parser
