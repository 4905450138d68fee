import BonsaiNinja.Library.FileAccess
import Mathlib.Data.List.Nodup
import Mathlib.Logic.Function.Basic

namespace BonsaiNinja.ExactBodies
open Library

abbrev ExactBodyCell := Nat

structure ExactBodyEntry where
  cell : ExactBodyCell
  estimatedBytes : Nat

structure ExactBodyFlight where
  cell : ExactBodyCell
  retentionGeneration : Nat

-- The entries stand in the order of their last use, the one to go first in front.
structure ExactBodyCacheState (κ : Type) where
  entries : List (κ × ExactBodyEntry)
  inFlight : κ → Option ExactBodyFlight
  estimatedBytes : Nat
  retentionGeneration : Nat

def largestWord : Nat := 2 ^ 64 - 1

def defaultBudgetBytes : Nat := 128 * 1024 * 1024
def maxBudgetBytes : Nat := 512 * 1024 * 1024

def budgetBytes (memoryLimit : Option Nat) : Nat :=
  max 1 ((memoryLimit.map fun limit => max 1 (min (limit / 32) maxBudgetBytes)).getD defaultBudgetBytes)

def estimatedExactBodyBytes (sourceBytes : Nat) : Nat := saturatingAdd (256 * 1024) (saturatingMul sourceBytes 16)

def totalBytes (entries : List (κ × ExactBodyEntry)) : Nat := (entries.map (·.2.estimatedBytes)).sum

namespace ExactBodyCacheState
variable {κ β : Type} [DecidableEq κ] (state : ExactBodyCacheState κ)

def empty : ExactBodyCacheState κ := ⟨[],fun _ => none,0,0⟩

def without (key : κ) : List (κ × ExactBodyEntry) := state.entries.filter (·.1 ≠ key)

-- The first section under the lock: the cell to wait on, and the generation of its flight.
-- Only a key without an entry and without a flight takes the fresh cell.
def probe (fresh : ExactBodyCell) (key : κ) : ExactBodyCacheState κ × ExactBodyCell × Option Nat :=
  match state.entries.find? (·.1 = key) with
  | some found => ({ state with entries := state.without key ++ [found] },found.2.cell,none)
  | none =>
    match state.inFlight key with
    | some flight => (state,flight.cell,some flight.retentionGeneration)
    | none => ({ state with inFlight := Function.update state.inFlight key (some ⟨fresh,state.retentionGeneration⟩) },fresh,
        some state.retentionGeneration)

def evict (budget : Nat) : List (κ × ExactBodyEntry) → Nat → List (κ × ExactBodyEntry) × Nat
  | [], bytes => ([],bytes)
  | oldest :: rest, bytes =>
    if budget < bytes then evict budget rest (bytes - oldest.2.estimatedBytes) else (oldest :: rest,bytes)

def retain (budget : Nat) (key : κ) (entry : ExactBodyEntry) : ExactBodyCacheState κ :=
  let replaced := (state.entries.find? (·.1 = key)).map (·.2.estimatedBytes)
  let kept := evict budget (state.without key ++ [(key,entry)])
    (saturatingAdd state.estimatedBytes entry.estimatedBytes - replaced.getD 0)
  { state with entries := kept.1, estimatedBytes := kept.2 }

-- The last section under the lock. Whoever comes first closes the flight.
def publish (budget : Nat) (key : κ) (cell : ExactBodyCell) (flightGeneration : Option Nat) (estimatedBytes : Nat)
    (result : Option β) : ExactBodyCacheState κ :=
  if (state.inFlight key).any (·.cell = cell) then
    let closed := { state with inFlight := Function.update state.inFlight key none }
    if result.isSome && estimatedBytes ≤ budget && flightGeneration = some state.retentionGeneration then
      closed.retain budget key ⟨cell,estimatedBytes⟩
    else closed
  else state

-- The last generation is kept: the call panics there, with the table empty.
def clear : ExactBodyCacheState κ :=
  { state with
    entries := []
    estimatedBytes := 0
    retentionGeneration := if state.retentionGeneration = largestWord then largestWord else state.retentionGeneration + 1 }

end ExactBodyCacheState

structure Request (κ : Type) where
  key : κ
  cell : ExactBodyCell
  flightGeneration : Option Nat
  estimatedBytes : Nat

-- A call of `get_or_insert_with`, between its sections under the lock.
inductive Call (κ β : Type) where
  | waiting (request : Request κ)
  | building (request : Request κ)
  | holding (request : Request κ) (result : Option β)
  | returned (key : κ) (result : Option β)
  | panicked

inductive CellState (β : Type) where
  | unset
  | building (call : Nat)
  | ready (result : Option β)

structure Machine (κ β : Type) where
  cache : ExactBodyCacheState κ
  cells : ExactBodyCell → CellState β
  allocated : Nat
  calls : Nat → Option (Call κ β)

-- One section of one call. A build finds the body of its key, or nothing.
inductive Action (κ : Type) where
  | probe (call : Nat) (key : κ) (sourceBytes : Nat)
  | getOrInit (call : Nat)
  | built (call : Nat) (found : Bool)
  | panics (call : Nat)
  | publish (call : Nat)
  | clear

namespace Machine
variable {κ β : Type} [DecidableEq κ] (budget : Nat) (bodies : κ → β)

def start : Machine κ β := ⟨.empty,fun _ => .unset,0,fun _ => none⟩

variable (m : Machine κ β)

def setCall (call : Nat) (next : Call κ β) : Nat → Option (Call κ β) := Function.update m.calls call (some next)

-- An action that is not possible yet changes nothing.
def step : Action κ → Machine κ β
  | .probe call key sourceBytes =>
    match m.calls call with
    | none =>
      let probed := m.cache.probe m.allocated key
      { m with
        cache := probed.1
        allocated := m.allocated + 1
        calls := m.setCall call (.waiting ⟨key,probed.2.1,probed.2.2,estimatedExactBodyBytes sourceBytes⟩) }
    | some _ => m
  | .getOrInit call =>
    match m.calls call with
    | some (.waiting request) =>
      match m.cells request.cell with
      | .unset => { m with
          cells := Function.update m.cells request.cell (.building call), calls := m.setCall call (.building request) }
      | .ready result => { m with calls := m.setCall call (.holding request result) }
      | .building _ => m
    | _ => m
  | .built call found =>
    match m.calls call with
    | some (.building request) =>
      let result := if found then some (bodies request.key) else none
      { m with
        cells := Function.update m.cells request.cell (.ready result), calls := m.setCall call (.holding request result) }
    | _ => m
  | .panics call =>
    match m.calls call with
    | some (.building request) => { m with cells := Function.update m.cells request.cell .unset, calls := m.setCall call .panicked }
    | _ => m
  | .publish call =>
    match m.calls call with
    | some (.holding request result) => { m with
        cache := m.cache.publish budget request.key request.cell request.flightGeneration request.estimatedBytes result
        calls := m.setCall call (.returned request.key result) }
    | _ => m
  | .clear => { m with cache := m.cache.clear }

def run (actions : List (Action κ)) : Machine κ β := actions.foldl (step budget bodies) start

end Machine

variable {κ β : Type} {budget : Nat} {bodies : κ → β}

namespace Machine

def Served (m : Machine κ β) (request : Request κ) : Prop :=
  (∃ result, m.cells request.cell = .ready result) ∨
    ∃ flight, m.cache.inFlight request.key = some flight ∧ flight.cell = request.cell

def Owned (m : Machine κ β) (owner : ExactBodyCell → Option κ) (request : Request κ) : Prop :=
  owner request.cell = some request.key ∧ request.cell < m.allocated

def Stands (bodies : κ → β) (m : Machine κ β) (owner : ExactBodyCell → Option κ) (call : Nat) : Call κ β → Prop
  | .waiting request => m.Owned owner request ∧ m.Served request
  | .building request => m.Owned owner request ∧ m.Served request ∧ m.cells request.cell = .building call
  | .holding request result => m.Owned owner request ∧ m.cells request.cell = .ready result
  | .returned key result => ∀ body ∈ result, body = bodies key
  | .panicked => True

structure Coherent (bodies : κ → β) (m : Machine κ β) (owner : ExactBodyCell → Option κ) : Prop where
  calls : ∀ call state, m.calls call = some state → m.Stands bodies owner call state
  flights : ∀ key flight, m.cache.inFlight key = some flight → owner flight.cell = some key ∧ flight.cell < m.allocated
  ready : ∀ cell result, m.cells cell = .ready result → ∀ body ∈ result, some body = (owner cell).map bodies
  builders : ∀ cell call, m.cells cell = .building call → ∃ request, m.calls call = some (.building request) ∧ request.cell = cell
  unset : ∀ cell, m.allocated ≤ cell → m.cells cell = .unset

def Resident (bodies : κ → β) (m : Machine κ β) (owner : ExactBodyCell → Option κ) (row : κ × ExactBodyEntry) : Prop :=
  m.cache.inFlight row.1 = none ∧ (owner row.2.cell = some row.1 ∧ row.2.cell < m.allocated) ∧
    m.cells row.2.cell = .ready (some (bodies row.1))

structure Tabled (budget : Nat) (bodies : κ → β) (m : Machine κ β) (owner : ExactBodyCell → Option κ) : Prop where
  distinct : (m.cache.entries.map (·.1)).Nodup
  rows : ∀ row ∈ m.cache.entries, m.Resident bodies owner row
  accounted : m.cache.estimatedBytes = totalBytes m.cache.entries
  bounded : m.cache.estimatedBytes ≤ budget

variable {m m' : Machine κ β} {owner owner' : ExactBodyCell → Option κ} {call : Nat} {state next : Call κ β} {request : Request κ}

theorem setCall_cases {other : Nat} (found : m.setCall call next other = some state) :
    other = call ∧ state = next ∨ other ≠ call ∧ m.calls other = some state := by
  unfold setCall at found
  by_cases same : other = call
  · subst same
    rw [Function.update_self] at found
    exact .inl ⟨rfl,(Option.some.inj found).symm⟩
  · rw [Function.update_of_ne same] at found
    exact .inr ⟨same,found⟩

theorem Stands.later (stands : m.Stands bodies owner call state) (owners : ∀ cell < m.allocated, owner' cell = owner cell)
    (longer : m.allocated ≤ m'.allocated) (served : ∀ request, m.Served request → m'.Served request)
    (steady : ∀ cell, m.cells cell = .building call ∨ (∃ result, m.cells cell = .ready result) → m'.cells cell = m.cells cell) :
    m'.Stands bodies owner' call state := by
  have owned {request : Request κ} (before : m.Owned owner request) : m'.Owned owner' request :=
    ⟨(owners _ before.2).trans before.1,before.2.trans_le longer⟩
  cases state with
  | waiting request => exact ⟨owned stands.1,served _ stands.2⟩
  | building request => exact ⟨owned stands.1,served _ stands.2.1,(steady _ (.inl stands.2.2)).trans stands.2.2⟩
  | holding request result => exact ⟨owned stands.1,(steady _ (.inr ⟨result,stands.2⟩)).trans stands.2⟩
  | returned => exact stands
  | panicked => trivial

-- The call that a cell waits for decides its state.
theorem Coherent.setCell (coherent : m.Coherent bodies owner) {value : CellState β} (owned : m.Owned owner request)
    (idle : m.cells request.cell = .unset ∨ m.cells request.cell = .building call)
    (only : ∀ other, m.calls call = some (.building other) → other = request)
    (genuine : ∀ result, value = .ready result → ∀ body ∈ result, body = bodies request.key)
    (builds : ∀ other, value = .building other → other = call ∧ next = .building request)
    (own : Stands bodies { m with cells := Function.update m.cells request.cell value, calls := m.setCall call next } owner call next) :
    Coherent bodies { m with cells := Function.update m.cells request.cell value, calls := m.setCall call next } owner where
  calls other state found := by
    rcases setCall_cases found with ⟨rfl,rfl⟩ | ⟨apart,found⟩
    · exact own
    · have away (cell : ExactBodyCell) (busy : m.cells cell = .building other ∨ ∃ result, m.cells cell = .ready result) :
          cell ≠ request.cell := by
        rintro rfl
        rcases idle with idle | idle <;> rcases busy with busy | ⟨result,busy⟩ <;> cases idle.symm.trans busy
        exact apart rfl
      refine (coherent.calls other state found).later (fun _ _ => rfl) (Nat.le_refl _) (fun waiting served => ?_) fun cell busy =>
        Function.update_of_ne (away cell busy) _ _
      rcases served with ⟨result,set⟩ | flight
      · exact .inl ⟨result,(Function.update_of_ne (away _ (.inr ⟨result,set⟩)) _ _).trans set⟩
      · exact .inr flight
  flights := coherent.flights
  ready cell result set := by
    by_cases same : cell = request.cell
    · subst same
      rw [owned.1]
      intro body built
      exact congrArg some (genuine result ((Function.update_self request.cell value m.cells).symm.trans set) body built)
    · exact coherent.ready cell result ((Function.update_of_ne same _ _).symm.trans set)
  builders cell other set := by
    by_cases same : cell = request.cell
    · subst same
      obtain ⟨rfl,rfl⟩ := builds other ((Function.update_self request.cell value m.cells).symm.trans set)
      exact ⟨request,Function.update_self _ _ _,rfl⟩
    · obtain ⟨building,found,cells⟩ := coherent.builders cell other ((Function.update_of_ne same _ _).symm.trans set)
      refine ⟨building,?_,cells⟩
      have apart : other ≠ call := by
        rintro rfl
        exact same (by rw [← cells,only building found])
      exact (Function.update_of_ne apart _ _).trans found
  unset cell outside :=
    (Function.update_of_ne (Nat.ne_of_gt (owned.2.trans_le outside)) _ _).trans (coherent.unset cell outside)

-- A set cell is none that a call still has to set, so the entries stay as they are.
theorem Tabled.setCell (tabled : m.Tabled budget bodies owner) {value : CellState β}
    (idle : m.cells request.cell = .unset ∨ m.cells request.cell = .building call) :
    Tabled budget bodies { m with cells := Function.update m.cells request.cell value, calls := m.setCall call next } owner :=
  { tabled with
    rows := fun row listed => by
      obtain ⟨apart,owned,ready⟩ := tabled.rows row listed
      refine ⟨apart,owned,(Function.update_of_ne ?_ _ _).trans ready⟩
      intro same
      rcases idle with idle | idle <;> rw [← same,ready] at idle <;> cases idle }

theorem Coherent.setCall (coherent : m.Coherent bodies owner) (cache : ExactBodyCacheState κ)
    (served : ∀ request, m.Served request → Served { m with cache := cache } request)
    (flights : ∀ key flight, cache.inFlight key = some flight → owner flight.cell = some key ∧ flight.cell < m.allocated)
    (idle : ∀ request, m.calls call ≠ some (.building request))
    (own : Stands bodies { m with cache := cache, calls := m.setCall call next } owner call next) :
    Coherent bodies { m with cache := cache, calls := m.setCall call next } owner where
  calls other state found := by
    rcases setCall_cases found with ⟨rfl,rfl⟩ | ⟨_,found⟩
    · exact own
    · exact (coherent.calls other state found).later (fun _ _ => rfl) (Nat.le_refl _) served fun _ _ => rfl
  flights := flights
  ready := coherent.ready
  builders cell other set := by
    obtain ⟨building,found,cells⟩ := coherent.builders cell other set
    have apart : other ≠ call := by
      rintro rfl
      exact idle building found
    exact ⟨building,(Function.update_of_ne apart _ _).trans found,cells⟩
  unset := coherent.unset

end Machine

namespace ExactBodyCacheState
variable {state : ExactBodyCacheState κ} {entries : List (κ × ExactBodyEntry)} {key : κ} {entry : ExactBodyEntry}

theorem evict_exact (budget : Nat) (entries : List (κ × ExactBodyEntry)) :
    (evict budget entries (totalBytes entries)).1 <:+ entries ∧
      (evict budget entries (totalBytes entries)).2 = totalBytes (evict budget entries (totalBytes entries)).1 ∧
      (evict budget entries (totalBytes entries)).2 ≤ budget := by
  induction entries with
  | nil => exact ⟨List.suffix_refl _,rfl,Nat.zero_le _⟩
  | cons oldest rest ih =>
    have left : totalBytes (oldest :: rest) - oldest.2.estimatedBytes = totalBytes rest := by simp [totalBytes]
    unfold evict
    split
    · rw [left]
      exact ⟨ih.1.trans (List.suffix_cons _ _),ih.2⟩
    · next within => exact ⟨List.suffix_refl _,rfl,Nat.le_of_not_lt within⟩

variable [DecidableEq κ]

theorem without_perm (distinct : (entries.map (·.1)).Nodup) (listed : (key,entry) ∈ entries) :
    entries.Perm (entries.filter (·.1 ≠ key) ++ [(key,entry)]) := by
  have unique (row : κ × ExactBodyEntry) (other : row ∈ entries) (same : row.1 = key) : row = (key,entry) :=
    List.inj_on_of_nodup_map distinct other listed same
  have once : (entries.filter (·.1 ≠ key) ++ [(key,entry)]).Nodup := by
    refine List.Nodup.append (distinct.of_map.filter _) (List.nodup_singleton _) ?_
    intro row kept new
    cases List.mem_singleton.mp new
    simp at kept
  refine (List.perm_ext_iff_of_nodup distinct.of_map once).mpr fun row => ?_
  rw [List.mem_append,List.mem_filter,List.mem_singleton,decide_eq_true_iff]
  constructor
  · intro inside
    by_cases same : row.1 = key
    · exact .inr (unique row inside same)
    · exact .inl ⟨inside,same⟩
  · rintro (kept | rfl)
    · exact kept.1
    · exact listed

theorem probe_cases (state : ExactBodyCacheState κ) (fresh : ExactBodyCell) (key : κ) :
    (∃ entry, (key,entry) ∈ state.entries ∧
      state.probe fresh key = ({ state with entries := state.without key ++ [(key,entry)] },entry.cell,none)) ∨
    (∃ flight, state.inFlight key = some flight ∧ state.probe fresh key = (state,flight.cell,some flight.retentionGeneration)) ∨
    (∀ row ∈ state.entries, row.1 ≠ key) ∧ state.inFlight key = none ∧ state.probe fresh key =
      ({ state with inFlight := Function.update state.inFlight key (some ⟨fresh,state.retentionGeneration⟩) },fresh,
        some state.retentionGeneration) := by
  unfold probe
  cases found : state.entries.find? (·.1 = key) with
  | some row =>
    obtain ⟨other,entry⟩ := row
    have same : other = key := by simpa using List.find?_some found
    subst same
    exact .inl ⟨entry,List.mem_of_find?_eq_some found,rfl⟩
  | none =>
    cases flown : state.inFlight key with
    | some flight => exact .inr (.inl ⟨flight,rfl,rfl⟩)
    | none => exact .inr (.inr ⟨fun row listed => by simpa using List.find?_eq_none.mp found row listed,rfl,rfl⟩)

theorem retain_fresh (state : ExactBodyCacheState κ) (entry : ExactBodyEntry) (budget : Nat) (absent : ∀ row ∈ state.entries, row.1 ≠ key) (accounted : state.estimatedBytes = totalBytes state.entries)
    (fits : state.estimatedBytes + entry.estimatedBytes < 2 ^ 64) : state.retain budget key entry = { state with
      entries := (evict budget (state.entries ++ [(key,entry)]) (totalBytes (state.entries ++ [(key,entry)]))).1
      estimatedBytes := (evict budget (state.entries ++ [(key,entry)]) (totalBytes (state.entries ++ [(key,entry)]))).2 } := by
  have none : state.entries.find? (·.1 = key) = none := List.find?_eq_none.mpr fun row listed => by simpa using absent row listed
  have same : state.without key = state.entries := List.filter_eq_self.mpr fun row listed => by simpa using absent row listed
  have total : saturatingAdd state.estimatedBytes entry.estimatedBytes = totalBytes (state.entries ++ [(key,entry)]) := by
    rw [saturatingAdd,Nat.min_eq_left (by omega),accounted]
    simp [totalBytes]
  unfold retain
  rw [none,same,total]
  rfl

theorem publish_cases (state : ExactBodyCacheState κ) (budget : Nat) (key : κ) (cell : ExactBodyCell) (generation : Option Nat)
    (bytes : Nat) (result : Option β) : state.publish budget key cell generation bytes result = state ∨
    ∃ flight, state.inFlight key = some flight ∧ flight.cell = cell ∧
      (state.publish budget key cell generation bytes result = { state with inFlight := Function.update state.inFlight key none } ∨
        result.isSome = true ∧ bytes ≤ budget ∧ generation = some state.retentionGeneration ∧
          state.publish budget key cell generation bytes result =
            retain { state with inFlight := Function.update state.inFlight key none } budget key ⟨cell,bytes⟩) := by
  unfold publish
  split
  · next closes =>
    obtain ⟨flight,flown,same⟩ := (Option.any_eq_true _ _).mp closes
    refine .inr ⟨flight,flown,by simpa using same,?_⟩
    split
    · next kept =>
      simp only [Bool.and_eq_true,decide_eq_true_eq] at kept
      exact .inr ⟨kept.1.1,kept.1.2,kept.2,rfl⟩
    · exact .inl rfl
  · exact .inl rfl

end ExactBodyCacheState

namespace Machine
variable {m : Machine κ β} {owner : ExactBodyCell → Option κ}

theorem Coherent.grown (coherent : m.Coherent bodies owner) (key : κ) :
    Coherent bodies { m with allocated := m.allocated + 1 } (Function.update owner m.allocated (some key)) := by
  have old {cell : ExactBodyCell} (inside : cell < m.allocated) : Function.update owner m.allocated (some key) cell = owner cell :=
    Function.update_of_ne (Nat.ne_of_lt inside) _ _
  refine ⟨fun call state found => ?_,fun key flight found => ?_,fun cell result set => ?_,coherent.builders,fun cell outside => ?_⟩
  · exact (coherent.calls call state found).later (fun _ inside => old inside) (Nat.le_succ _) (fun _ => id) fun _ _ => rfl
  · obtain ⟨owned,inside⟩ := coherent.flights key flight found
    exact ⟨(old inside).trans owned,inside.trans (Nat.lt_succ_self _)⟩
  · have inside : cell < m.allocated := by
      by_contra outside
      cases (coherent.unset cell (Nat.le_of_not_lt outside)).symm.trans set
    rw [old inside]
    exact coherent.ready cell result set
  · exact coherent.unset cell (Nat.le_of_lt outside)

theorem Tabled.grown (tabled : m.Tabled budget bodies owner) (key : κ) :
    Tabled budget bodies { m with allocated := m.allocated + 1 } (Function.update owner m.allocated (some key)) :=
  { tabled with
    rows := fun row listed => by
      obtain ⟨apart,owned,ready⟩ := tabled.rows row listed
      exact ⟨apart,⟨(Function.update_of_ne (Nat.ne_of_lt owned.2) _ _).trans owned.1,owned.2.trans (Nat.lt_succ_self _)⟩,ready⟩ }

theorem start_coherent : ∃ owner, Coherent bodies start owner ∧ Tabled budget bodies start owner := by
  refine ⟨fun _ => none,⟨?_,?_,?_,?_,fun _ _ => rfl⟩,List.nodup_nil,?_,rfl,Nat.zero_le _⟩
  · intro call state found
    cases found
  · intro key flight found
    cases found
  · intro cell result set
    cases set
  · intro cell call set
    cases set
  · intro row listed
    cases listed

variable [DecidableEq κ]

theorem probe_sound (coherent : m.Coherent bodies owner) (tabled : m.Tabled budget bodies owner) {fresh : ExactBodyCell} {key : κ}
    {call bytes : Nat} (own : owner fresh = some key ∧ fresh < m.allocated) (idle : m.calls call = none) :
    let probed := m.cache.probe fresh key
    let after := { m with cache := probed.1, calls := m.setCall call (.waiting ⟨key,probed.2.1,probed.2.2,bytes⟩) }
    Coherent bodies after owner ∧ Tabled budget bodies after owner := by
  have still (request : Request κ) : m.calls call ≠ some (.building request) := by simp [idle]
  rcases m.cache.probe_cases fresh key with ⟨entry,listed,probed⟩ | ⟨flight,flown,probed⟩ | ⟨absent,free,probed⟩ <;> rw [probed]
  · obtain ⟨_,owned,ready⟩ := tabled.rows _ listed
    have moved := ExactBodyCacheState.without_perm tabled.distinct listed
    refine ⟨coherent.setCall _ (fun _ => id) coherent.flights still ⟨owned,.inl ⟨_,ready⟩⟩,?_,?_,?_,tabled.bounded⟩
    · exact (moved.map _).nodup_iff.mp tabled.distinct
    · exact fun row inside => tabled.rows row (moved.mem_iff.mpr inside)
    · exact tabled.accounted.trans (moved.map _).sum_eq
  · exact ⟨coherent.setCall _ (fun _ => id) coherent.flights still ⟨coherent.flights key flight flown,.inr ⟨flight,flown,rfl⟩⟩,
      { tabled with rows := tabled.rows }⟩
  · refine ⟨coherent.setCall _ (fun request served => ?_) (fun other flight found => ?_) still ⟨own,.inr ⟨_,Function.update_self _ _ _,rfl⟩⟩,
      { tabled with rows := fun row inside => ?_ }⟩
    · rcases served with ready | ⟨flight,flown,same⟩
      · exact .inl ready
      · refine .inr ⟨flight,(Function.update_of_ne ?_ _ _).trans flown,same⟩
        rintro other
        rw [other,free] at flown
        cases flown
    · by_cases same : other = key
      · subst same
        obtain rfl := Option.some.inj ((Function.update_self other _ m.cache.inFlight).symm.trans found)
        exact own
      · exact coherent.flights other flight ((Function.update_of_ne same _ _).symm.trans found)
    · obtain ⟨apart,owned,ready⟩ := tabled.rows row inside
      exact ⟨(Function.update_of_ne (absent row inside) _ _).trans apart,owned,ready⟩

-- The flight that a call closes ran on the call's own cell, which is set by then.
theorem publish_sound (small : budget < 2 ^ 63) (coherent : m.Coherent bodies owner) (tabled : m.Tabled budget bodies owner)
    {call : Nat} {request : Request κ} {result : Option β} (holding : m.calls call = some (.holding request result)) :
    let cache := m.cache.publish budget request.key request.cell request.flightGeneration request.estimatedBytes result
    let after := { m with cache := cache, calls := m.setCall call (.returned request.key result) }
    Coherent bodies after owner ∧ Tabled budget bodies after owner := by
  obtain ⟨owned,set⟩ := coherent.calls call _ holding
  have genuine (body : β) (built : body ∈ result) : body = bodies request.key := by
    have shared := coherent.ready _ _ set body built
    rw [owned.1] at shared
    exact Option.some.inj shared
  have still (other : Request κ) : m.calls call ≠ some (.building other) := by simp [holding]
  have freed {other : κ} (flown : m.cache.inFlight other = none) :
      Function.update m.cache.inFlight request.key none other = none := by
    by_cases same : other = request.key
    · subst same
      exact Function.update_self _ _ _
    · exact (Function.update_of_ne same _ _).trans flown
  have settled (cache : ExactBodyCacheState κ) (flights : cache.inFlight = Function.update m.cache.inFlight request.key none)
      (closes : ∃ flight, m.cache.inFlight request.key = some flight ∧ flight.cell = request.cell) :
      Coherent bodies { m with cache := cache, calls := m.setCall call (.returned request.key result) } owner := by
    refine coherent.setCall cache (fun other served => ?_) (fun other flight found => ?_) still genuine
    · rcases served with ready | ⟨flight,flown,same⟩
      · exact .inl ready
      · by_cases own : other.key = request.key
        · obtain ⟨closed,running,ran⟩ := closes
          obtain rfl := Option.some.inj ((own ▸ flown).symm.trans running)
          exact .inl ⟨result,by rw [← same,ran]; exact set⟩
        · exact .inr ⟨flight,by rw [flights]; exact (Function.update_of_ne own _ _).trans flown,same⟩
    · rw [flights] at found
      by_cases own : other = request.key
      · subst own
        cases (Function.update_self _ _ m.cache.inFlight).symm.trans found
      · exact coherent.flights other flight ((Function.update_of_ne own _ _).symm.trans found)
  rcases m.cache.publish_cases budget request.key request.cell request.flightGeneration request.estimatedBytes result with
    same | ⟨flight,flown,ran,same | ⟨found,fits,_,same⟩⟩ <;> rw [same]
  · exact ⟨coherent.setCall _ (fun _ => id) coherent.flights still genuine,{ tabled with rows := tabled.rows }⟩
  · exact ⟨settled _ rfl ⟨flight,flown,ran⟩,{ tabled with
      rows := fun row listed => by
        obtain ⟨apart,owned,ready⟩ := tabled.rows row listed
        exact ⟨freed apart,owned,ready⟩ }⟩
  · have absent (row : κ × ExactBodyEntry) (listed : row ∈ m.cache.entries) : row.1 ≠ request.key := by
      rintro other
      have free := (tabled.rows row listed).1
      rw [other,flown] at free
      cases free
    have bounded := tabled.bounded
    have fresh := ExactBodyCacheState.retain_fresh { m.cache with inFlight := Function.update m.cache.inFlight request.key none }
      ⟨request.cell,request.estimatedBytes⟩ budget absent tabled.accounted
      (show m.cache.estimatedBytes + request.estimatedBytes < 2 ^ 64 by omega)
    rw [fresh]
    obtain ⟨kept,accounted,within⟩ := ExactBodyCacheState.evict_exact budget
      (m.cache.entries ++ [(request.key,⟨request.cell,request.estimatedBytes⟩)])
    refine ⟨settled _ rfl ⟨flight,flown,ran⟩,?_,fun row listed => ?_,accounted,within⟩
    · refine List.Nodup.sublist (kept.sublist.map _) ?_
      rw [List.map_append]
      refine List.Nodup.append tabled.distinct (List.nodup_singleton _) ?_
      intro key old new
      obtain ⟨row,listed,rfl⟩ := List.mem_map.mp old
      exact absent row listed (List.mem_singleton.mp new)
    · rcases List.mem_append.mp (kept.subset listed) with old | new
      · obtain ⟨apart,owned,ready⟩ := tabled.rows row old
        exact ⟨freed apart,owned,ready⟩
      · rw [List.mem_singleton.mp new]
        obtain ⟨body,rfl⟩ := Option.isSome_iff_exists.mp found
        refine ⟨Function.update_self _ _ _,owned,?_⟩
        rw [set,genuine body rfl]

theorem step_sound (small : budget < 2 ^ 63) (coherent : m.Coherent bodies owner) (tabled : m.Tabled budget bodies owner)
    (action : Action κ) : ∃ owner', (m.step budget bodies action).Coherent bodies owner' ∧
      (m.step budget bodies action).Tabled budget bodies owner' := by
  cases action with
  | probe call key sourceBytes =>
    unfold step
    dsimp only
    split
    · next idle =>
      exact ⟨_,probe_sound (coherent.grown key) (tabled.grown key) ⟨Function.update_self _ _ _,Nat.lt_succ_self _⟩ idle⟩
    · exact ⟨owner,coherent,tabled⟩
  | getOrInit call =>
    unfold step
    dsimp only
    split
    · next request waiting =>
      obtain ⟨owned,served⟩ := coherent.calls call _ waiting
      split
      · next unset =>
        refine ⟨owner,coherent.setCell owned (.inl unset) ?_ ?_ ?_ ⟨owned,?_,Function.update_self _ _ _⟩,tabled.setCell (.inl unset)⟩
        · simp [waiting]
        · simp
        · simp [eq_comm]
        · rcases served with ⟨result,set⟩ | flight
          · cases unset.symm.trans set
          · exact .inr flight
      · next result set =>
        exact ⟨owner,coherent.setCall _ (fun _ => id) coherent.flights (by simp [waiting]) ⟨owned,set⟩,
          { tabled with rows := tabled.rows }⟩
      · exact ⟨owner,coherent,tabled⟩
    · exact ⟨owner,coherent,tabled⟩
  | built call found =>
    unfold step
    dsimp only
    split
    · next request building =>
      obtain ⟨owned,_,busy⟩ := coherent.calls call _ building
      refine ⟨owner,coherent.setCell owned (.inr busy) ?_ ?_ ?_ ⟨owned,Function.update_self _ _ _⟩,tabled.setCell (.inr busy)⟩
      · intro other same
        cases building.symm.trans same
        rfl
      · intro result same body built
        cases same
        cases found <;> simp_all
      · simp
    · exact ⟨owner,coherent,tabled⟩
  | panics call =>
    unfold step
    dsimp only
    split
    · next request building =>
      obtain ⟨owned,_,busy⟩ := coherent.calls call _ building
      refine ⟨owner,coherent.setCell owned (.inr busy) ?_ ?_ ?_ trivial,tabled.setCell (.inr busy)⟩
      · intro other same
        cases building.symm.trans same
        rfl
      · simp
      · simp
    · exact ⟨owner,coherent,tabled⟩
  | publish call =>
    unfold step
    dsimp only
    split
    · next request result holding => exact ⟨owner,publish_sound small coherent tabled holding⟩
    · exact ⟨owner,coherent,tabled⟩
  | clear =>
    refine ⟨owner,⟨coherent.calls,coherent.flights,coherent.ready,coherent.builders,coherent.unset⟩,List.nodup_nil,?_,rfl,Nat.zero_le _⟩
    intro row listed
    cases listed

theorem run_coherent (small : budget < 2 ^ 63) (actions : List (Action κ)) :
    ∃ owner, (run budget bodies actions).Coherent bodies owner ∧ (run budget bodies actions).Tabled budget bodies owner := by
  unfold run
  rw [← actions.reverse_reverse]
  induction actions.reverse with
  | nil => exact start_coherent
  | cons action before ih =>
    obtain ⟨owner,coherent,tabled⟩ := ih
    rw [List.reverse_cons,List.foldl_concat]
    exact step_sound small coherent tabled action

structure Sound (budget : Nat) (bodies : κ → β) (m : Machine κ β) : Prop where
  exact : ∀ call key result, m.calls call = some (.returned key result) → ∀ body ∈ result, body = bodies key
  single : ∀ call other request second, m.calls call = some (.building request) → m.calls other = some (.building second) →
    request.key = second.key → call = other
  advances : ∀ call request, m.calls call = some (.waiting request) → m.cells request.cell = .unset ∨
    (∃ result, m.cells request.cell = .ready result) ∨
      ∃ builder working, m.calls builder = some (.building working) ∧ working.key = request.key ∧ working.cell = request.cell
  resident : ∀ row ∈ m.cache.entries, m.cells row.2.cell = .ready (some (bodies row.1))
  distinct : (m.cache.entries.map (·.1)).Nodup
  bounded : m.cache.estimatedBytes = totalBytes m.cache.entries ∧ totalBytes m.cache.entries ≤ budget

theorem getOrInsertWith_sound (memoryLimit : Option Nat) (bodies : κ → β) (actions : List (Action κ)) :
    Sound (budgetBytes memoryLimit) bodies (run (budgetBytes memoryLimit) bodies actions) := by
  have small : budgetBytes memoryLimit < 2 ^ 63 := by
    cases memoryLimit <;> simp only [budgetBytes,maxBudgetBytes,defaultBudgetBytes,Option.map,Option.getD] <;> omega
  obtain ⟨owner,coherent,tabled⟩ := run_coherent small actions
  refine ⟨fun call key result => coherent.calls call _,?_,?_,fun row listed => (tabled.rows row listed).2.2,tabled.distinct,
    tabled.accounted,tabled.accounted ▸ tabled.bounded⟩
  · intro call other request second building rebuilding same
    obtain ⟨_,served,busy⟩ := coherent.calls call _ building
    obtain ⟨_,reserved,rebusy⟩ := coherent.calls other _ rebuilding
    rcases served with ⟨_,set⟩ | ⟨flight,flown,cell⟩
    · cases busy.symm.trans set
    rcases reserved with ⟨_,set⟩ | ⟨again,reflown,recell⟩
    · cases rebusy.symm.trans set
    obtain rfl := Option.some.inj ((same ▸ flown).symm.trans reflown)
    cases (cell.symm.trans recell ▸ busy).symm.trans rebusy
    rfl
  · intro call request waiting
    obtain ⟨owned,_⟩ := coherent.calls call _ waiting
    cases state : (run _ bodies actions).cells request.cell with
    | unset => exact .inl rfl
    | ready result => exact .inr (.inl ⟨result,rfl⟩)
    | building builder =>
      obtain ⟨working,building,same⟩ := coherent.builders _ _ state
      have working_owned := (coherent.calls builder _ building).1
      exact .inr (.inr ⟨builder,working,building,Option.some.inj (by rw [← working_owned.1,same,owned.1]),same⟩)

end Machine

end BonsaiNinja.ExactBodies
