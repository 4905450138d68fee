import BonsaiNinja.Library.RecordFile

namespace BonsaiNinja.Library

-- How a computation stops without a value: with an error of its own, or by an
-- overflow, a slice outside its bounds or an allocation of impossible size.
inductive Fault (ε : Type) where
  | error (reason : ε)
  | panic
  deriving DecidableEq, Repr

structure Access (ε α : Type) where
  result : Except (Fault ε) α
  reads : List (Nat × Nat)

-- File sizes and offsets are signed 64-bit numbers to the operating system.
structure StoredFile where
  bytes : List UInt8
  sized : bytes.length < 2 ^ 63

variable {ε α β σ : Type}

namespace Access

def bind (first : Access ε α) (next : α → Access ε β) : Access ε β :=
  match first.result with
  | .ok value => ⟨(next value).result,first.reads ++ (next value).reads⟩
  | .error fault => ⟨.error fault,first.reads⟩

instance : Monad (Access ε) where
  pure value := ⟨.ok value,[]⟩
  bind := bind

def fail (reason : ε) : Access ε α := ⟨.error (.error reason),[]⟩

def panic : Access ε α := ⟨.error .panic,[]⟩

def attempt (access : Access ε α) : Access ε (Except ε α) :=
  match access.result with
  | .ok value => ⟨.ok (.ok value),access.reads⟩
  | .error (.error reason) => ⟨.ok (.error reason),access.reads⟩
  | .error .panic => ⟨.error .panic,access.reads⟩

def orFail (reason : ε) : Option α → Access ε α
  | some value => pure value
  | none => fail reason

-- Sums and products of machine words, checked as a debug build checks them.
def add (a b : Nat) : Access ε Nat := if a + b < 2 ^ 64 then pure (a + b) else panic

def mul (a b : Nat) : Access ε Nat := if a * b < 2 ^ 64 then pure (a * b) else panic

def subslice (bytes : List UInt8) (start stop : Nat) : Access ε (List UInt8) :=
  if start ≤ stop ∧ stop ≤ bytes.length then pure (slice bytes start stop) else panic

def allocate (count : Nat) : Access ε Unit := if count < 2 ^ 63 then pure () else panic

-- A positioned read of `count` bytes into a buffer of that size; an empty buffer
-- is filled without asking the file.
def readExact (shortRead : ε) (file : StoredFile) (offset count : Nat) : Access ε (List UInt8) :=
  if count = 0 then pure []
  else match readAt file.bytes offset count with
    | some bytes => ⟨.ok bytes,[(offset,count)]⟩
    | none => ⟨.error (.error shortRead),[(offset,count)]⟩

def forRange (step : σ → Nat → Access ε σ) (start : σ) : Nat → Access ε σ
  | 0 => pure start
  | count + 1 => bind (forRange step start count) fun state => step state count

def forEach (check : α → Access ε Unit) : List α → Access ε Unit
  | [] => pure ()
  | first :: rest => bind (check first) fun _ => forEach check rest

end Access

def saturatingAdd (a b : Nat) : Nat := min (a + b) (2 ^ 64 - 1)

def saturatingMul (a b : Nat) : Nat := min (a * b) (2 ^ 64 - 1)

def checkedAdd (a b : Nat) : Option Nat := if a + b < 2 ^ 64 then some (a + b) else none

def checkedMul (a b : Nat) : Option Nat := if a * b < 2 ^ 64 then some (a * b) else none

theorem saturated_add_le_iff {x y bound limit : Nat} (small : bound < limit) : min x limit + y ≤ bound ↔ x + y ≤ bound := by
  omega

theorem add_saturated_le_iff {x y bound limit : Nat} (small : bound < limit) : x + min y limit ≤ bound ↔ x + y ≤ bound := by
  omega

theorem add_saturated_mul_le_iff {x y factor bound limit : Nat} (small : bound < limit) (positive : 0 < factor) :
    x + min (min y limit * factor) limit ≤ bound ↔ x + y * factor ≤ bound := by
  rw [add_saturated_le_iff small]
  rcases Nat.le_total y limit with below | above
  · rw [Nat.min_eq_left below]
  · have large : limit ≤ limit * factor := Nat.le_mul_of_pos_right limit positive
    have larger : limit * factor ≤ y * factor := Nat.mul_le_mul_right factor above
    rw [Nat.min_eq_right above]
    omega

-- What a computation does, exactly: it never panics, reads allowed ranges only,
-- and returns a value if and only if the value is as described.
structure Exact (access : Access ε α) (allowed : Nat → Nat → Prop) (described : α → Prop) : Prop where
  quiet : access.result ≠ .error .panic
  inside : ∀ range ∈ access.reads, allowed range.1 range.2
  returns : ∀ value, access.result = .ok value ↔ described value

section
variable {allowed : Nat → Nat → Prop} {described : α → Prop}

theorem exact_pure (value : α) : Exact (pure value : Access ε α) allowed (· = value) where
  quiet := nofun
  inside _ member := absurd member List.not_mem_nil
  returns other := by
    constructor
    · intro same
      cases same
      rfl
    · intro same
      rw [same]
      rfl

theorem exact_fail (reason : ε) : Exact (Access.fail reason : Access ε α) allowed fun _ => False where
  quiet := nofun
  inside _ member := absurd member List.not_mem_nil
  returns _ := ⟨nofun,False.elim⟩

theorem Exact.congr {access : Access ε α} {described' : α → Prop} (exactly : Exact access allowed described)
    (same : ∀ value, described value ↔ described' value) : Exact access allowed described' where
  quiet := exactly.quiet
  inside := exactly.inside
  returns value := (exactly.returns value).trans (same value)

theorem Exact.refused {access : Access ε α} (exactly : Exact access allowed described) (none : ∀ value, ¬described value) :
    ∃ reason, access.result = .error (.error reason) := by
  cases ran : access.result with
  | ok value => exact absurd ((exactly.returns value).mp ran) (none value)
  | error fault =>
    cases fault with
    | error reason => exact ⟨reason,rfl⟩
    | panic => exact absurd ran exactly.quiet

theorem Exact.bind {first : Access ε α} {next : α → Access ε β} {described' : α → β → Prop}
    (start : Exact first allowed described) (more : ∀ value, described value → Exact (next value) allowed (described' value)) :
    Exact (first >>= next) allowed fun result => ∃ value, described value ∧ described' value result := by
  change Exact (Access.bind first next) allowed _
  unfold Access.bind
  cases ran : first.result with
  | ok value =>
    have held := (start.returns value).mp ran
    have later := more value held
    refine ⟨later.quiet,fun range member => ?_,fun result => ?_⟩
    · rcases List.mem_append.mp member with early | late
      · exact start.inside range early
      · exact later.inside range late
    · rw [later.returns]
      constructor
      · intro found
        exact ⟨value,held,found⟩
      · intro found
        obtain ⟨other,given,found⟩ := found
        have same := (start.returns other).mpr given
        rw [ran] at same
        cases same
        exact found
  | error fault =>
    refine ⟨fun same => start.quiet ?_,start.inside,fun result => ⟨nofun,fun found => ?_⟩⟩
    · cases same
      exact ran
    · obtain ⟨other,given,_⟩ := found
      have same := (start.returns other).mpr given
      rw [ran] at same
      cases same

theorem Exact.step {first : Access ε α} {next : α → Access ε β} {value : α} {described' : β → Prop}
    (start : Exact first allowed (· = value)) (more : Exact (next value) allowed described') :
    Exact (first >>= next) allowed described' :=
  have sequenced : Exact (first >>= next) allowed fun result => ∃ found, found = value ∧ described' result :=
    start.bind fun _ same => same ▸ more
  sequenced.congr fun _ => ⟨fun found => found.choose_spec.2,fun found => ⟨value,rfl,found⟩⟩

theorem Exact.given {first : Access ε α} {next : α → Access ε β} {condition : Prop} {value : α} {described' : β → Prop}
    (start : Exact first allowed fun found => condition ∧ found = value)
    (more : condition → Exact (next value) allowed described') :
    Exact (first >>= next) allowed fun result => condition ∧ described' result :=
  have sequenced : Exact (first >>= next) allowed fun result => ∃ found, (condition ∧ found = value) ∧ described' result :=
    start.bind fun _ found => found.2 ▸ more found.1
  sequenced.congr fun _ =>
    ⟨fun found => ⟨found.choose_spec.1.1,found.choose_spec.2⟩,fun found => ⟨value,⟨found.1,rfl⟩,found.2⟩⟩

theorem Exact.unless {access : Access ε α} {condition : Prop} [Decidable condition] (reason : ε)
    (exactly : ¬condition → Exact access allowed described) :
    Exact (if condition then Access.fail reason else access) allowed fun value => ¬condition ∧ described value := by
  by_cases holds : condition
  · rw [if_pos holds]
    exact (exact_fail reason).congr fun _ => ⟨False.elim,fun found => found.1 holds⟩
  · rw [if_neg holds]
    exact (exactly holds).congr fun _ => ⟨fun found => ⟨holds,found⟩,And.right⟩

theorem exact_orFail (reason : ε) (option : Option α) :
    Exact (Access.orFail reason option) allowed fun value => option = some value := by
  cases option with
  | none => exact (exact_fail reason).congr fun _ => ⟨False.elim,nofun⟩
  | some value => exact (exact_pure value).congr fun _ => ⟨fun same => by rw [same],fun same => (Option.some.inj same).symm⟩

theorem exact_add {a b : Nat} (fits : a + b < 2 ^ 64) : Exact (Access.add a b : Access ε Nat) allowed (· = a + b) := by
  rw [Access.add,if_pos fits]
  exact exact_pure _

theorem exact_mul {a b : Nat} (fits : a * b < 2 ^ 64) : Exact (Access.mul a b : Access ε Nat) allowed (· = a * b) := by
  rw [Access.mul,if_pos fits]
  exact exact_pure _

theorem exact_subslice {bytes : List UInt8} {start stop : Nat} (ordered : start ≤ stop) (inside : stop ≤ bytes.length) :
    Exact (Access.subslice bytes start stop : Access ε (List UInt8)) allowed (· = slice bytes start stop) := by
  rw [Access.subslice,if_pos ⟨ordered,inside⟩]
  exact exact_pure _

theorem exact_allocate {count : Nat} (fits : count < 2 ^ 63) : Exact (Access.allocate count : Access ε Unit) allowed (· = ()) := by
  rw [Access.allocate,if_pos fits]
  exact exact_pure _

theorem exact_readExact {file : StoredFile} {offset count : Nat} (shortRead : ε) (inside : offset + count ≤ file.bytes.length)
    (asked : allowed offset count) :
    Exact (Access.readExact shortRead file offset count) allowed (· = slice file.bytes offset (offset + count)) := by
  unfold Access.readExact
  by_cases empty : count = 0
  · rw [if_pos empty,empty,Nat.add_zero,slice,Nat.sub_self,List.take_zero]
    exact exact_pure _
  · rw [if_neg empty,readAt,if_pos inside]
    refine ⟨(by intro same; cases same),fun range member => ?_,fun value => ?_⟩
    · cases List.mem_singleton.mp member
      exact asked
    · exact ⟨fun same => by cases same; rfl,fun same => by rw [same]⟩

theorem exact_forRange {step : σ → Nat → Access ε σ} (state : Nat → σ) {good : Nat → Prop} {count : Nat}
    (turn : ∀ i < count, Exact (step (state i) i) allowed fun next => good i ∧ next = state (i + 1)) :
    Exact (Access.forRange step (state 0) count) allowed fun final => (∀ i < count, good i) ∧ final = state count := by
  induction count with
  | zero => exact (exact_pure (state 0)).congr fun _ => ⟨fun same => ⟨nofun,same⟩,And.right⟩
  | succ count ih =>
    have earlier := ih fun i below => turn i (Nat.lt_succ_of_lt below)
    have sequenced : Exact (Access.forRange step (state 0) count >>= fun next => step next count) allowed fun final =>
        ((∀ i < count, good i) ∧ (good count ∧ final = state (count + 1))) :=
      earlier.given fun _ => turn count (Nat.lt_succ_self count)
    refine sequenced.congr fun final => ?_
    constructor
    · intro found
      obtain ⟨before,last,same⟩ := found
      refine ⟨fun i below => ?_,same⟩
      rcases Nat.lt_succ_iff_lt_or_eq.mp below with lower | rfl
      · exact before i lower
      · exact last
    · intro found
      exact ⟨fun i below => found.1 i (Nat.lt_succ_of_lt below),found.1 count (Nat.lt_succ_self count),found.2⟩

theorem exact_forEach {check : α → Access ε Unit} {good : α → Prop} {items : List α}
    (each : ∀ item ∈ items, Exact (check item) allowed fun _ => good item) :
    Exact (Access.forEach check items) allowed fun _ => ∀ item ∈ items, good item := by
  induction items with
  | nil => exact (exact_pure ()).congr fun _ => ⟨fun _ => nofun,fun _ => rfl⟩
  | cons first rest ih =>
    have later := ih fun item member => each item (List.mem_cons_of_mem _ member)
    refine ((each first List.mem_cons_self).bind fun _ _ => later).congr fun _ => ?_
    rw [List.forall_mem_cons]
    exact ⟨fun found => found.choose_spec,fun found => ⟨(),found⟩⟩

theorem Exact.attempt {access : Access ε α} {value : α} (exactly : Exact access allowed (· = value)) :
    Exact access.attempt allowed (· = .ok value) := by
  have ran := (exactly.returns value).mpr rfl
  unfold Access.attempt
  rw [ran]
  exact ⟨nofun,exactly.inside,fun other => ⟨fun same => by cases same; rfl,fun same => by rw [same]⟩⟩

end

end BonsaiNinja.Library
