import Mathlib.Data.Nat.Digits.Defs

namespace BonsaiNinja.Library

def leBytes : Nat → Nat → List UInt8
  | 0, _ => []
  | width + 1, value => UInt8.ofNat value :: leBytes width (value / 256)

def leValue (bytes : List UInt8) : Nat := Nat.ofDigits 256 (bytes.map UInt8.toNat)

@[simp] theorem leBytes_length (width value : Nat) : (leBytes width value).length = width := by
  induction width generalizing value with
  | zero => rfl
  | succ width ih => rw [leBytes, List.length_cons, ih]

theorem leValue_cons (byte : UInt8) (bytes : List UInt8) : leValue (byte :: bytes) = byte.toNat + 256 * leValue bytes := by
  rw [leValue, List.map_cons, Nat.ofDigits_cons]
  rfl

theorem leValue_leBytes {width value : Nat} (fits : value < 256 ^ width) : leValue (leBytes width value) = value := by
  induction width generalizing value with
  | zero =>
    have zero : value = 0 := by simpa using fits
    rw [zero]
    rfl
  | succ width ih =>
    have high : value / 256 < 256 ^ width := by
      rw [Nat.div_lt_iff_lt_mul (by decide), ← Nat.pow_succ]
      exact fits
    rw [leBytes, leValue_cons, ih high, UInt8.toNat_ofNat']
    exact Nat.mod_add_div value 256

theorem leBytes_leValue (bytes : List UInt8) : leBytes bytes.length (leValue bytes) = bytes := by
  induction bytes with
  | nil => rfl
  | cons byte bytes ih =>
    have low : byte.toNat < 256 := byte.toNat_lt
    have quotient : (byte.toNat + 256 * leValue bytes) / 256 = leValue bytes := by omega
    have first : UInt8.ofNat (byte.toNat + 256 * leValue bytes) = byte := by
      rw [← UInt8.toNat_inj, UInt8.toNat_ofNat']
      omega
    rw [leValue_cons, List.length_cons, leBytes, quotient, ih, first]

theorem leValue_lt (bytes : List UInt8) : leValue bytes < 256 ^ bytes.length := by
  rw [← List.length_map UInt8.toNat]
  refine Nat.ofDigits_lt_base_pow_length (by decide) fun digit member => ?_
  obtain ⟨byte,_,rfl⟩ := List.mem_map.mp member
  exact byte.toNat_lt

-- How a reader stops without a value: it rejects its input, the input ends, or a
-- runtime check aborts.
inductive Halt where
  | invalid (message : String)
  | endOfInput
  | panic
  deriving DecidableEq, Repr

-- The bytes still to come and the bytes of rows that room was made for so far.
structure Reading where
  rest : List UInt8
  reserved : Nat

def Decoder (α : Type) := Reading → Except Halt α × Reading

namespace Decoder

def bind (first : Decoder α) (next : α → Decoder β) : Decoder β := fun reading =>
  match first reading with
  | (.ok value,reading) => next value reading
  | (.error halt,reading) => (.error halt,reading)

instance : Monad Decoder where
  pure value := fun reading => (.ok value,reading)
  bind := bind

def halt (reason : Halt) : Decoder α := fun reading => (.error reason,reading)

def lift (result : Except Halt α) : Decoder α := fun reading => (result,reading)

def readExact (count : Nat) : Decoder (List UInt8) := fun reading =>
  if count ≤ reading.rest.length then
    (.ok (reading.rest.take count),{reading with rest := reading.rest.drop count})
  else (.error .endOfInput,reading)

-- Room for rows of a given size in memory and in the input; a single allocation
-- holds at most `limit` bytes.
def reserve (limit memory wire : Nat) : Decoder Unit := fun reading =>
  if limit < memory then (.error .panic,reading)
  else (.ok (),{reading with reserved := reading.reserved + wire})

def readTimes (read : Decoder α) : Nat → Decoder (List α)
  | 0 => pure []
  | count + 1 => do
    let first ← read
    let later ← readTimes read count
    return first :: later

theorem pure_apply (value : α) (reading : Reading) : (pure value : Decoder α) reading = (.ok value,reading) := rfl

theorem bind_apply (first : Decoder α) (next : α → Decoder β) (reading : Reading) : (first >>= next) reading =
    match first reading with
    | (.ok value,reading) => next value reading
    | (.error halt,reading) => (.error halt,reading) := rfl

theorem bind_ok {first : Decoder α} {next : α → Decoder β} {reading reading' : Reading} {value : α}
    (ran : first reading = (.ok value,reading')) : (first >>= next) reading = next value reading' := by
  rw [bind_apply, ran]

theorem bind_error {first : Decoder α} {next : α → Decoder β} {reading reading' : Reading} {halt : Halt}
    (ran : first reading = (.error halt,reading')) : (first >>= next) reading = (.error halt,reading') := by
  rw [bind_apply, ran]

def Reads (decoder : Decoder α) (bytes : List UInt8) (wire : Nat) (value : α) : Prop :=
  ∀ rest reserved, decoder ⟨bytes ++ rest,reserved⟩ = (.ok value,⟨rest,reserved + wire⟩)

theorem reads_pure (value : α) : Reads (pure value) [] 0 value := fun _ _ => rfl

theorem reads_readExact (bytes : List UInt8) : Reads (readExact bytes.length) bytes 0 bytes := by
  intro rest reserved
  simp [readExact]

theorem reads_reserve {limit memory wire : Nat} (fits : memory ≤ limit) : Reads (reserve limit memory wire) [] wire () := by
  intro rest reserved
  rw [reserve, if_neg (by omega)]
  rfl

theorem reads_readTimes {read : Decoder α} {bytes : α → List UInt8} {values : List α}
    (each : ∀ value ∈ values, Reads read (bytes value) 0 value) :
    Reads (readTimes read values.length) (values.flatMap bytes) 0 values := by
  induction values with
  | nil => exact reads_pure []
  | cons value values ih =>
    have later := ih fun other member => each other (List.mem_cons_of_mem _ member)
    intro rest reserved
    rw [List.flatMap_cons, List.append_assoc, List.length_cons, readTimes, bind_ok (each value List.mem_cons_self _ _),
      bind_ok (later _ _)]
    rfl

-- A reader that reserves nothing and does not abort; `form` relates its value to
-- the bytes it took.
structure Parses (decoder : Decoder α) (form : α → List UInt8 → Prop) : Prop where
  quiet : ∀ reading, (decoder reading).1 ≠ .error .panic
  reserved : ∀ reading, (decoder reading).2.reserved = reading.reserved
  returns : ∀ reading value reading', decoder reading = (.ok value,reading') →
    ∃ bytes, reading.rest = bytes ++ reading'.rest ∧ form value bytes

theorem parses_pure (value : α) : Parses (pure value) fun found bytes => found = value ∧ bytes = [] where
  quiet _ := nofun
  reserved _ := rfl
  returns reading _ _ ran := by
    cases ran
    exact ⟨[],rfl,rfl,rfl⟩

theorem parses_halt {message : String} (form : α → List UInt8 → Prop) : Parses (halt (.invalid message)) form where
  quiet _ := nofun
  reserved _ := rfl
  returns _ _ _ ran := by cases ran

theorem parses_readExact (count : Nat) :
    Parses (readExact count) fun value bytes => value = bytes ∧ bytes.length = count where
  quiet reading := by
    unfold readExact
    split <;> exact nofun
  reserved reading := by
    unfold readExact
    split <;> rfl
  returns reading value reading' ran := by
    unfold readExact at ran
    split at ran
    · cases ran
      exact ⟨_,(List.take_append_drop _ _).symm,rfl,List.length_take_of_le (by assumption)⟩
    · cases ran

theorem Parses.bind {first : Decoder α} {next : α → Decoder β} {form : α → List UInt8 → Prop}
    {form' : α → β → List UInt8 → Prop} (start : Parses first form) (more : ∀ value, Parses (next value) (form' value)) :
    Parses (first >>= next) fun result bytes =>
      ∃ value before after, bytes = before ++ after ∧ form value before ∧ form' value result after where
  quiet reading := by
    have early := start.quiet reading
    cases ran : first reading with
    | mk result reading' =>
      rw [ran] at early
      cases result with
      | ok value =>
        rw [bind_ok ran]
        exact (more value).quiet reading'
      | error halt =>
        rw [bind_error ran]
        intro same
        cases same
        exact early rfl
  reserved reading := by
    have early := start.reserved reading
    cases ran : first reading with
    | mk result reading' =>
      rw [ran] at early
      cases result with
      | ok value => rw [bind_ok ran, (more value).reserved reading', early]
      | error halt => rw [bind_error ran, early]
  returns reading value reading' done := by
    cases ran : first reading with
    | mk result middle =>
      cases result with
      | ok given =>
        rw [bind_ok ran] at done
        obtain ⟨before,taken,first_⟩ := start.returns _ _ _ ran
        obtain ⟨after,taken',next_⟩ := (more given).returns _ _ _ done
        exact ⟨before ++ after,by rw [taken, taken', List.append_assoc],given,before,after,rfl,first_,next_⟩
      | error halt =>
        rw [bind_error ran] at done
        cases done

theorem Parses.unless {decoder : Decoder α} {form : α → List UInt8 → Prop} {condition : Prop} [Decidable condition]
    (message : String) (parses : Parses decoder form) :
    Parses (if condition then halt (.invalid message) else decoder) fun value bytes => ¬condition ∧ form value bytes := by
  by_cases holds : condition
  · rw [if_pos holds]
    exact parses_halt _
  · rw [if_neg holds]
    exact ⟨parses.quiet,parses.reserved,fun reading value reading' ran =>
      (parses.returns reading value reading' ran).imp fun _ found => ⟨found.1,holds,found.2⟩⟩

theorem Parses.mono {decoder : Decoder α} {form form' : α → List UInt8 → Prop} (parses : Parses decoder form)
    (weaker : ∀ value bytes, form value bytes → form' value bytes) : Parses decoder form' where
  quiet := parses.quiet
  reserved := parses.reserved
  returns reading value reading' ran := by
    obtain ⟨bytes,taken,held⟩ := parses.returns reading value reading' ran
    exact ⟨bytes,taken,weaker value bytes held⟩

theorem parses_readTimes {read : Decoder α} {form : α → List UInt8 → Prop} (each : Parses read form) (count : Nat) :
    Parses (readTimes read count) fun values bytes => values.length = count ∧
      ∃ parts : List (List UInt8), bytes = parts.flatten ∧ List.Forall₂ form values parts := by
  induction count with
  | zero =>
    refine (parses_pure []).mono fun values bytes same => ?_
    obtain ⟨rfl,rfl⟩ := same
    exact ⟨rfl,[],rfl,.nil⟩
  | succ count ih =>
    refine (each.bind fun first => ih.bind fun later => parses_pure (first :: later)).mono fun values bytes found => ?_
    obtain ⟨first,before,after,rfl,head,later,middle,last,rfl,⟨length,parts,rfl,tail⟩,rfl,rfl⟩ := found
    exact ⟨by rw [List.length_cons, length],before :: parts,by simp,.cons head tail⟩

structure FixedWidth (decoder : Decoder α) (width : Nat) (good : α → Prop) : Prop where
  short : ∀ reading : Reading, reading.rest.length < width →
    ∃ reading', decoder reading = (.error .endOfInput,reading') ∧ reading'.reserved = reading.reserved
  long : ∀ reading : Reading, width ≤ reading.rest.length →
    ∃ value, decoder reading = (.ok value,{reading with rest := reading.rest.drop width}) ∧ good value

theorem fixedWidth_pure {good : α → Prop} {value : α} (holds : good value) : FixedWidth (pure value) 0 good where
  short _ below := absurd below (Nat.not_lt_zero _)
  long _ _ := ⟨value,rfl,holds⟩

theorem fixedWidth_readExact (count : Nat) : FixedWidth (readExact count) count fun bytes => bytes.length = count where
  short reading below := ⟨reading,by rw [readExact, if_neg (by omega)],rfl⟩
  long reading room := ⟨reading.rest.take count,by rw [readExact, if_pos room],List.length_take_of_le room⟩

theorem FixedWidth.bind {first : Decoder α} {next : α → Decoder β} {width width' : Nat} {given : α → Prop}
    {good : β → Prop} (start : FixedWidth first width given) (more : ∀ value, given value → FixedWidth (next value) width' good) :
    FixedWidth (first >>= next) (width + width') good where
  short reading below := by
    rcases Nat.lt_or_ge reading.rest.length width with early | room
    · obtain ⟨reading',ran,kept⟩ := start.short reading early
      exact ⟨reading',bind_error ran,kept⟩
    · obtain ⟨value,ran,held⟩ := start.long reading room
      obtain ⟨reading',stopped,kept⟩ := (more value held).short {reading with rest := reading.rest.drop width}
        (by rw [List.length_drop]; omega)
      exact ⟨reading',by rw [bind_ok ran, stopped],kept⟩
  long reading room := by
    obtain ⟨value,ran,held⟩ := start.long reading (by omega)
    obtain ⟨result,done,good⟩ := (more value held).long {reading with rest := reading.rest.drop width}
      (by rw [List.length_drop]; omega)
    exact ⟨result,by rw [bind_ok ran, done, List.drop_drop],good⟩

theorem fixedWidth_readTimes {read : Decoder α} {width : Nat} (each : FixedWidth read width fun _ => True) (count : Nat) :
    FixedWidth (readTimes read count) (count * width) fun _ => True := by
  induction count with
  | zero =>
    rw [Nat.zero_mul]
    exact fixedWidth_pure trivial
  | succ count ih =>
    have last : ∀ first later, FixedWidth (pure (first :: later) : Decoder (List α)) 0 fun _ => True :=
      fun _ _ => fixedWidth_pure trivial
    rw [Nat.succ_mul, Nat.add_comm (count * width)]
    exact each.bind fun first _ => ih.bind fun later _ => last first later

-- Rows reserved one after the other, each with its bytes in memory and in the
-- input, ask for too much once the input holds all the rows before them.
def Overflows (limit : Nat) : List (Nat × Nat) → Nat → Prop
  | [], _ => False
  | (memory,wire) :: plan, available => limit < memory ∨ wire ≤ available ∧ Overflows limit plan (available - wire)

def wireBytes (plan : List (Nat × Nat)) : Nat := (plan.map Prod.snd).sum

theorem overflows_append {limit : Nat} {plan plan' : List (Nat × Nat)} {available : Nat} :
    Overflows limit (plan ++ plan') available ↔
      Overflows limit plan available ∨ wireBytes plan ≤ available ∧ Overflows limit plan' (available - wireBytes plan) := by
  induction plan generalizing available with
  | nil => simp [Overflows,wireBytes]
  | cons row plan ih =>
    have total : wireBytes (row :: plan) = row.2 + wireBytes plan := by simp [wireBytes]
    rw [List.cons_append, Overflows, Overflows, ih, total, Nat.sub_add_eq]
    constructor
    · intro asked
      rcases asked with large | ⟨room,early | ⟨rest,late⟩⟩
      · exact .inl (.inl large)
      · exact .inl (.inr ⟨room,early⟩)
      · exact .inr ⟨by omega,late⟩
    · intro asked
      rcases asked with (large | ⟨room,early⟩) | ⟨rest,late⟩
      · exact .inl large
      · exact .inr ⟨room,.inl early⟩
      · exact .inr ⟨by omega,.inr ⟨by omega,late⟩⟩

-- The decoder reads the sections of a plan: it aborts exactly where a
-- reservation asks for too much, and fails otherwise only where the input ends.
structure Sectioned (limit : Nat) (decoder : Decoder α) (plan : List (Nat × Nat)) (good : α → Prop) : Prop where
  panics : ∀ reading, (decoder reading).1 = .error .panic ↔ Overflows limit plan reading.rest.length
  reserved : ∀ reading, (decoder reading).2.reserved ≤ reading.reserved + wireBytes plan
  returns : ∀ reading value reading', decoder reading = (.ok value,reading') →
    reading.rest.length = wireBytes plan + reading'.rest.length ∧ good value
  completes : ∀ reading, ¬Overflows limit plan reading.rest.length → wireBytes plan ≤ reading.rest.length →
    ∃ value reading', decoder reading = (.ok value,reading')

theorem sectioned_pure {limit : Nat} {good : α → Prop} {value : α} (holds : good value) :
    Sectioned limit (pure value) [] good where
  panics reading := by simp [pure_apply,Overflows]
  reserved reading := Nat.le_add_right _ _
  returns reading other reading' ran := by
    cases ran
    exact ⟨by simp [wireBytes],holds⟩
  completes reading _ _ := ⟨value,reading,rfl⟩

theorem Sectioned.bind {limit : Nat} {first : Decoder α} {next : α → Decoder β} {plan plan' : List (Nat × Nat)}
    {given : α → Prop} {good : β → Prop} (start : Sectioned limit first plan given)
    (more : ∀ value, given value → Sectioned limit (next value) plan' good) :
    Sectioned limit (first >>= next) (plan ++ plan') good where
  panics reading := by
    rw [overflows_append]
    cases ran : first reading with
    | mk result reading' =>
      cases result with
      | ok value =>
        obtain ⟨length,held⟩ := start.returns _ _ _ ran
        have early : ¬Overflows limit plan reading.rest.length := fun asked => by
          have stopped := (start.panics reading).mpr asked
          rw [ran] at stopped
          cases stopped
        have later : reading.rest.length - wireBytes plan = reading'.rest.length := by omega
        rw [bind_ok ran, (more value held).panics, later]
        exact ⟨fun asked => .inr ⟨by omega,asked⟩,fun asked => (asked.resolve_left early).2⟩
      | error halt =>
        have same : halt = .panic ↔ Overflows limit plan reading.rest.length := by
          rw [← start.panics reading, ran, Except.error.injEq]
        rw [bind_error ran, Except.error.injEq, same]
        refine ⟨.inl,fun asked => ?_⟩
        -- A first part that is present and small enough returns a value.
        by_contra early
        obtain ⟨value,after,done⟩ := start.completes reading early (asked.resolve_left early).1
        rw [ran] at done
        cases done
  reserved reading := by
    have total : wireBytes (plan ++ plan') = wireBytes plan + wireBytes plan' := by simp [wireBytes]
    have before := start.reserved reading
    cases ran : first reading with
    | mk result reading' =>
      rw [ran] at before
      cases result with
      | ok value =>
        have after := (more value (start.returns _ _ _ ran).2).reserved reading'
        rw [bind_ok ran, total]
        dsimp only at before
        omega
      | error halt =>
        rw [bind_error ran, total]
        dsimp only at before ⊢
        omega
  returns reading value reading' done := by
    have total : wireBytes (plan ++ plan') = wireBytes plan + wireBytes plan' := by simp [wireBytes]
    cases ran : first reading with
    | mk result middle =>
      cases result with
      | ok given =>
        rw [bind_ok ran] at done
        obtain ⟨length,held⟩ := start.returns _ _ _ ran
        obtain ⟨length',good⟩ := (more given held).returns _ _ _ done
        exact ⟨by omega,good⟩
      | error halt =>
        rw [bind_error ran] at done
        cases done
  completes reading early room := by
    have total : wireBytes (plan ++ plan') = wireBytes plan + wireBytes plan' := by simp [wireBytes]
    rw [overflows_append, not_or] at early
    obtain ⟨value,middle,ran⟩ := start.completes reading early.1 (by omega)
    obtain ⟨length,held⟩ := start.returns _ _ _ ran
    have later : reading.rest.length - wireBytes plan = middle.rest.length := by omega
    have quiet : ¬Overflows limit plan' middle.rest.length := fun asked => early.2 ⟨by omega,by rw [later]; exact asked⟩
    obtain ⟨result,last,done⟩ := (more value held).completes middle quiet (by omega)
    exact ⟨result,last,by rw [bind_ok ran, done]⟩

theorem sectioned_rows {limit memory wire : Nat} {rows : Decoder α} {good : α → Prop} (fixed : FixedWidth rows wire good) :
    Sectioned limit (do reserve limit memory wire; rows) [(memory,wire)] good := by
  have shape : ∀ reading : Reading, (limit < memory ∧
        (reserve limit memory wire >>= fun _ => rows) reading = (.error .panic,reading)) ∨
      (memory ≤ limit ∧ reading.rest.length < wire ∧ ∃ reading',
        (reserve limit memory wire >>= fun _ => rows) reading = (.error .endOfInput,reading') ∧
          reading'.reserved = reading.reserved + wire) ∨
      (memory ≤ limit ∧ wire ≤ reading.rest.length ∧ ∃ value,
        (reserve limit memory wire >>= fun _ => rows) reading =
          (.ok value,⟨reading.rest.drop wire,reading.reserved + wire⟩) ∧ good value) := by
    intro reading
    by_cases large : limit < memory
    · exact .inl ⟨large,by rw [bind_apply, reserve, if_pos large]⟩
    · have made : reserve limit memory wire reading = (.ok (),{reading with reserved := reading.reserved + wire}) := by
        rw [reserve, if_neg large]
      by_cases room : wire ≤ reading.rest.length
      · obtain ⟨value,ran,held⟩ := fixed.long {reading with reserved := reading.reserved + wire} room
        exact .inr (.inr ⟨by omega,room,value,by rw [bind_ok made, ran],held⟩)
      · obtain ⟨reading',ran,kept⟩ := fixed.short {reading with reserved := reading.reserved + wire} (by simpa using room)
        exact .inr (.inl ⟨by omega,by omega,reading',by rw [bind_ok made, ran],kept⟩)
  have total : wireBytes [(memory,wire)] = wire := by simp [wireBytes]
  constructor
  · intro reading
    simp only [Overflows, and_false, or_false]
    rcases shape reading with ⟨large,ran⟩ | ⟨small,_,reading',ran,_⟩ | ⟨small,_,value,ran,_⟩
    · rw [ran]
      exact ⟨fun _ => large,fun _ => rfl⟩
    · rw [ran]
      exact iff_of_false (fun same => by cases same) (by omega)
    · rw [ran]
      exact iff_of_false (fun same => by cases same) (by omega)
  · intro reading
    rcases shape reading with ⟨_,ran⟩ | ⟨_,_,reading',ran,kept⟩ | ⟨_,_,value,ran,_⟩
    · rw [ran]
      exact Nat.le_add_right _ _
    · rw [ran, total]
      exact kept.le
    · rw [ran, total]
  · intro reading other after done
    rcases shape reading with ⟨_,ran⟩ | ⟨_,_,reading',ran,_⟩ | ⟨_,room,value,ran,held⟩
    · rw [ran] at done
      cases done
    · rw [ran] at done
      cases done
    · rw [ran] at done
      cases done
      refine ⟨?_,held⟩
      rw [total, List.length_drop]
      omega
  · intro reading early room
    simp only [Overflows, and_false, or_false] at early
    rw [total] at room
    rcases shape reading with ⟨large,_⟩ | ⟨_,short,_⟩ | ⟨_,_,value,ran,_⟩
    · exact absurd large early
    · omega
    · exact ⟨value,_,ran⟩

end Decoder

-- The check accepts exactly where the condition holds and rejects otherwise; no
-- runtime check inside it aborts.
def Decides (check : Except Halt Unit) (condition : Prop) : Prop :=
  (check = .ok () ∧ condition) ∨ (¬condition ∧ ∃ message, check = .error (.invalid message))

section checks
variable {check check' : Except Halt Unit} {condition condition' : Prop}

theorem Decides.accepts (decides : Decides check condition) : check = .ok () ↔ condition := by
  rcases decides with ⟨accepted,holds⟩ | ⟨fails,message,rejected⟩
  · exact iff_of_true accepted holds
  · rw [rejected]
    exact iff_of_false nofun fails

theorem Decides.congr (decides : Decides check condition) (same : condition ↔ condition') : Decides check condition' :=
  propext same ▸ decides

theorem decides_unless [Decidable condition] (message : String) :
    Decides (if condition then .error (.invalid message) else .ok ()) (¬condition) := by
  by_cases holds : condition
  · rw [if_pos holds]
    exact .inr ⟨not_not_intro holds,message,rfl⟩
  · rw [if_neg holds]
    exact .inl ⟨rfl,holds⟩

-- A rejection stops before the checks behind it, which may rely on it.
theorem Decides.unless [Decidable condition] (message : String) (more : ¬condition → Decides check condition') :
    Decides (if condition then .error (.invalid message) else check) (¬condition ∧ condition') := by
  by_cases holds : condition
  · rw [if_pos holds]
    exact .inr ⟨fun both => both.1 holds,message,rfl⟩
  · rw [if_neg holds]
    exact (more holds).congr ⟨fun later => ⟨holds,later⟩,fun both => both.2⟩

theorem Decides.andThen (first : Decides check condition) (more : condition → Decides check' condition') :
    Decides (check >>= fun _ => check') (condition ∧ condition') := by
  rcases first with ⟨accepted,holds⟩ | ⟨fails,message,rejected⟩
  · rw [accepted]
    exact (more holds).congr ⟨fun later => ⟨holds,later⟩,fun both => both.2⟩
  · rw [rejected]
    exact .inr ⟨fun both => fails both.1,message,rfl⟩

theorem decides_forM {rows : List α} {check : α → Except Halt Unit} {condition : α → Prop}
    (each : ∀ row ∈ rows, Decides (check row) (condition row)) : Decides (forM rows check) (∀ row ∈ rows, condition row) := by
  induction rows with
  | nil => exact .inl ⟨rfl,nofun⟩
  | cons row rows ih =>
    rw [List.forM_cons]
    have later := ih fun other member => each other (List.mem_cons_of_mem _ member)
    exact ((each row List.mem_cons_self).andThen fun _ => later).congr List.forall_mem_cons.symm

end checks

end BonsaiNinja.Library
