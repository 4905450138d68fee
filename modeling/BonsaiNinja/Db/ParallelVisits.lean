import Mathlib.Data.List.Nodup
import Mathlib.Data.List.Perm.Basic
import Mathlib.Data.List.Range

namespace BonsaiNinja.Db.ParallelVisit

inductive ParallelVisitOrder where
  | completion
  | input
  deriving DecidableEq

structure Bounds where
  items : Nat
  workers : Nat
  window : Nat
  order : ParallelVisitOrder

def boundsOf (items workerCount maxInFlight : Nat) (order : ParallelVisitOrder) : Bounds :=
  let workers := min (max workerCount 1) items
  ⟨items,workers,min (max maxInFlight workers) items,order⟩

-- A work's or a visit's own error (a panic is one too), or one that the loop makes itself.
inductive VisitError (ε : Type u) where
  | raised (error : ε)
  | stale
  | disconnected

inductive WorkerPhase (ρ : Type u) (ε : Type v) where
  | idle
  | waiting
  | receiving
  | taken (index : Nat)
  | working (index : Nat)
  | delivering (index : Nat) (result : Except (VisitError ε) ρ)
  | exited

inductive MainPhase (ρ : Type u) (ε : Type v) where
  | seeding
  | receiving
  | publishing
  | visiting (index : Nat) (value : ρ)
  | scheduling
  | stopping (outcome : Except (VisitError ε) Unit)
  | closing (outcome : Except (VisitError ε) Unit)
  | dropping (outcome : Except (VisitError ε) Unit)
  | joining (outcome : Except (VisitError ε) Unit)
  | returned (outcome : Except (VisitError ε) Unit)

inductive Event (ρ : Type u) (ε : Type v) where
  | quiet
  | worked (index : Nat) (result : Except (VisitError ε) ρ)
  | received (index : Nat) (result : Except (VisitError ε) ρ)
  | visited (index : Nat) (result : Except (VisitError ε) Unit)

-- The receiver's lock is held by the worker that is receiving; `visited` is the list of the visits so far.
structure PoolState (ρ : Type u) (ε : Type v) where
  main : MainPhase ρ ε
  scheduled : Nat
  queue : List Nat
  workers : List (WorkerPhase ρ ε)
  results : List (Nat × Except (VisitError ε) ρ)
  completed : List Nat
  reorder : List (Nat × ρ)
  published : Nat
  cancelled : Bool
  workOpen : Bool
  resultsOpen : Bool
  visited : List Nat

section
variable {ρ : Type u} {ε : Type v}

def PoolState.initial (bounds : Bounds) : PoolState ρ ε :=
  ⟨if bounds.items = 0 then .returned (.ok ()) else .seeding,0,[],[],[],[],[],0,false,true,true,[]⟩

def Except.isError : Except (VisitError ε) Unit → Bool
  | .error _ => true
  | .ok _ => false

def Bounds.resumed (bounds : Bounds) : MainPhase ρ ε :=
  match bounds.order with
  | .completion => .receiving
  | .input => .publishing

inductive WorkerStep (bounds : Bounds) (s : PoolState ρ ε) :
    WorkerPhase ρ ε → Event ρ ε → WorkerPhase ρ ε → List Nat → List (Nat × Except (VisitError ε) ρ) → Prop
  | check (going : s.cancelled = false) : WorkerStep bounds s .idle .quiet .waiting s.queue s.results
  | leave (stopped : s.cancelled = true) : WorkerStep bounds s .idle .quiet .exited s.queue s.results
  | lock (free : .receiving ∉ s.workers) : WorkerStep bounds s .waiting .quiet .receiving s.queue s.results
  | take (index : Nat) (rest : List Nat) (first : s.queue = index :: rest) :
      WorkerStep bounds s .receiving .quiet (.taken index) rest s.results
  | hangUp (nothing : s.queue = []) (closed : s.workOpen = false) : WorkerStep bounds s .receiving .quiet .exited s.queue s.results
  | begin (index : Nat) (going : s.cancelled = false) : WorkerStep bounds s (.taken index) .quiet (.working index) s.queue s.results
  | abandon (index : Nat) (stopped : s.cancelled = true) : WorkerStep bounds s (.taken index) .quiet .exited s.queue s.results
  | work (index : Nat) (result : Except (VisitError ε) ρ) :
      WorkerStep bounds s (.working index) (.worked index result) (.delivering index result) s.queue s.results
  | deliver (index : Nat) (result : Except (VisitError ε) ρ) (listening : s.resultsOpen = true) (room : s.results.length < bounds.workers) :
      WorkerStep bounds s (.delivering index result) .quiet .idle s.queue (s.results ++ [(index,result)])
  | refuse (index : Nat) (result : Except (VisitError ε) ρ) (deaf : s.resultsOpen = false) :
      WorkerStep bounds s (.delivering index result) .quiet .exited s.queue s.results

inductive Step (bounds : Bounds) : PoolState ρ ε → Event ρ ε → PoolState ρ ε → Prop
  | seed {s} (phase : s.main = .seeding) (left : s.scheduled < bounds.window) (room : s.queue.length < bounds.window) :
      Step bounds s .quiet { s with queue := s.queue ++ [s.scheduled], scheduled := s.scheduled+1 }
  | start {s} (phase : s.main = .seeding) (full : ¬s.scheduled < bounds.window) :
      Step bounds s .quiet { s with workers := List.replicate bounds.workers .idle, main := .receiving }
  | finish {s} (phase : s.main = .receiving) (all : ¬s.published < bounds.items) : Step bounds s .quiet { s with main := .stopping (.ok ()) }
  | disconnect {s} (phase : s.main = .receiving) (left : s.published < bounds.items) (nothing : s.results = [])
      (gone : ∀ worker ∈ s.workers, worker = .exited) : Step bounds s .quiet { s with main := .stopping (.error .disconnected) }
  | stale {s} (index : Nat) (result : Except (VisitError ε) ρ) (rest : List (Nat × Except (VisitError ε) ρ)) (phase : s.main = .receiving)
      (left : s.published < bounds.items) (first : s.results = (index,result) :: rest) (known : bounds.items ≤ index ∨ index ∈ s.completed) :
      Step bounds s (.received index result) { s with results := rest, main := .stopping (.error .stale) }
  | fail {s} (index : Nat) (error : VisitError ε) (rest : List (Nat × Except (VisitError ε) ρ)) (phase : s.main = .receiving)
      (left : s.published < bounds.items) (first : s.results = (index,.error error) :: rest)
      (fresh : ¬(bounds.items ≤ index ∨ index ∈ s.completed)) : Step bounds s (.received index (.error error))
        { s with results := rest, completed := index :: s.completed, main := .stopping (.error error) }
  | accept {s} (index : Nat) (value : ρ) (rest : List (Nat × Except (VisitError ε) ρ)) (phase : s.main = .receiving)
      (left : s.published < bounds.items) (first : s.results = (index,.ok value) :: rest)
      (fresh : ¬(bounds.items ≤ index ∨ index ∈ s.completed)) (order : bounds.order = .completion) :
      Step bounds s (.received index (.ok value))
        { s with results := rest, completed := index :: s.completed, main := .visiting index value }
  | hold {s} (index : Nat) (value : ρ) (rest : List (Nat × Except (VisitError ε) ρ)) (phase : s.main = .receiving)
      (left : s.published < bounds.items) (first : s.results = (index,.ok value) :: rest)
      (fresh : ¬(bounds.items ≤ index ∨ index ∈ s.completed)) (order : bounds.order = .input) (absent : index ∉ s.reorder.map Prod.fst) :
      Step bounds s (.received index (.ok value))
        { s with results := rest, completed := index :: s.completed, reorder := (index,value) :: s.reorder, main := .publishing }
  | repeated {s} (index : Nat) (value : ρ) (rest : List (Nat × Except (VisitError ε) ρ)) (phase : s.main = .receiving)
      (left : s.published < bounds.items) (first : s.results = (index,.ok value) :: rest)
      (fresh : ¬(bounds.items ≤ index ∨ index ∈ s.completed)) (order : bounds.order = .input) (present : index ∈ s.reorder.map Prod.fst) :
      Step bounds s (.received index (.ok value))
        { s with results := rest, completed := index :: s.completed, main := .stopping (.error .stale) }
  | publish {s} (value : ρ) (front back : List (Nat × ρ)) (phase : s.main = .publishing)
      (head : s.reorder = front ++ (s.published,value) :: back) :
      Step bounds s .quiet { s with reorder := front ++ back, main := .visiting s.published value }
  | await {s} (phase : s.main = .publishing) (absent : s.published ∉ s.reorder.map Prod.fst) :
      Step bounds s .quiet { s with main := .receiving }
  | visit {s} (index : Nat) (value : ρ) (phase : s.main = .visiting index value) : Step bounds s (.visited index (.ok ()))
      { s with visited := s.visited ++ [index], published := s.published+1, main := .scheduling }
  | refuse {s} (index : Nat) (value : ρ) (error : VisitError ε) (phase : s.main = .visiting index value) :
      Step bounds s (.visited index (.error error)) { s with visited := s.visited ++ [index], main := .stopping (.error error) }
  | schedule {s} (phase : s.main = .scheduling) (left : s.scheduled < bounds.items) (room : s.queue.length < bounds.window) :
      Step bounds s .quiet { s with queue := s.queue ++ [s.scheduled], scheduled := s.scheduled+1, main := bounds.resumed }
  | exhausted {s} (phase : s.main = .scheduling) (none : ¬s.scheduled < bounds.items) : Step bounds s .quiet { s with main := bounds.resumed }
  | cancel {s} (outcome : Except (VisitError ε) Unit) (phase : s.main = .stopping outcome) :
      Step bounds s .quiet { s with cancelled := s.cancelled || Except.isError outcome, main := .closing outcome }
  | closeWork {s} (outcome : Except (VisitError ε) Unit) (phase : s.main = .closing outcome) :
      Step bounds s .quiet { s with workOpen := false, main := .dropping outcome }
  | closeResults {s} (outcome : Except (VisitError ε) Unit) (phase : s.main = .dropping outcome) :
      Step bounds s .quiet { s with resultsOpen := false, main := .joining outcome }
  | join {s} (outcome : Except (VisitError ε) Unit) (phase : s.main = .joining outcome) (gone : ∀ worker ∈ s.workers, worker = .exited) :
      Step bounds s .quiet { s with main := .returned outcome }
  | worker {s} (front back : List (WorkerPhase ρ ε)) (old fresh : WorkerPhase ρ ε) (event : Event ρ ε) (queue : List Nat)
      (results : List (Nat × Except (VisitError ε) ρ)) (place : s.workers = front ++ old :: back)
      (step : WorkerStep bounds s old event fresh queue results) :
      Step bounds s event { s with workers := front ++ fresh :: back, queue := queue, results := results }

inductive Run (bounds : Bounds) : PoolState ρ ε → List (Event ρ ε) → PoolState ρ ε → Prop
  | nil (s : PoolState ρ ε) : Run bounds s [] s
  | snoc {s middle last : PoolState ρ ε} {events : List (Event ρ ε)} {event : Event ρ ε} (run : Run bounds s events middle)
      (step : Step bounds middle event last) : Run bounds s (events ++ [event]) last

def WorkerPhase.held : WorkerPhase ρ ε → List Nat
  | .taken index | .working index | .delivering index _ => [index]
  | _ => []

def MainPhase.held : MainPhase ρ ε → List Nat
  | .visiting index _ => [index]
  | _ => []

def MainPhase.outcome : MainPhase ρ ε → Option (Except (VisitError ε) Unit)
  | .stopping outcome | .closing outcome | .dropping outcome | .joining outcome | .returned outcome => some outcome
  | _ => none

def PoolState.inventory (s : PoolState ρ ε) : List Nat :=
  s.queue ++ s.workers.flatMap WorkerPhase.held ++ s.results.map Prod.fst ++ s.reorder.map Prod.fst ++ s.main.held ++ s.visited

def Filled (bounds : Bounds) (s : PoolState ρ ε) : Prop :=
  match s.main with
  | .seeding => s.workers = [] ∧ s.results = [] ∧ s.reorder = [] ∧ s.visited = [] ∧ s.scheduled ≤ bounds.window
  | .scheduling => s.scheduled+1 = min (bounds.items+1) (s.published+bounds.window) ∧ s.workers.length = bounds.workers
  | _ => s.scheduled = min bounds.items (s.published+bounds.window) ∧ s.workers.length = bounds.workers

structure Running (bounds : Bounds) (s : PoolState ρ ε) : Prop where
  counted : ∀ index, s.inventory.count index = if index < s.scheduled then 1 else 0
  bounded : s.scheduled ≤ bounds.items
  published : s.published = s.visited.length
  filled : Filled bounds s
  plain : bounds.order = .completion → s.reorder = []
  inOrder : bounds.order = .input → s.visited = List.range s.published ∧ ∀ index ∈ s.main.held, index = s.published
  headless : s.main = .receiving → s.published ∉ s.reorder.map Prod.fst
  completed : ∀ index ∈ s.completed, index ∈ s.reorder.map Prod.fst ++ s.main.held ++ s.visited
  going : s.cancelled = false ∧ s.workOpen = true ∧ s.resultsOpen = true
  present : .exited ∉ s.workers

structure Bounds.Sound (bounds : Bounds) : Prop where
  worker : 0 < bounds.workers
  window : 0 < bounds.window
  fits : bounds.window ≤ bounds.items

theorem boundsOf_sound {items : Nat} (workerCount maxInFlight : Nat) (order : ParallelVisitOrder) (filled : items ≠ 0) :
    (boundsOf items workerCount maxInFlight order).Sound := by
  have positive := Nat.pos_of_ne_zero filled
  constructor
  · change 0 < min (max workerCount 1) items
    omega
  · change 0 < min (max maxInFlight (min (max workerCount 1) items)) items
    omega
  · exact Nat.min_le_right _ _

variable {bounds : Bounds} {s s' : PoolState ρ ε} {event : Event ρ ε}

theorem Running.once (running : Running bounds s) (index : Nat) : s.inventory.count index ≤ 1 := by
  rw [running.counted index]
  split
  · exact Nat.le_refl _
  · exact Nat.zero_le _

theorem Running.visited_once (running : Running bounds s) : s.visited.Nodup := by
  refine List.nodup_iff_count_le_one.mpr fun index => ?_
  have once := running.once index
  rw [PoolState.inventory,List.count_append] at once
  omega

-- A result is fresh: it is of a scheduled item, and of none that was received before.
theorem Running.fresh (running : Running bounds s) {index : Nat} {result : Except (VisitError ε) ρ}
    {rest : List (Nat × Except (VisitError ε) ρ)} (first : s.results = (index,result) :: rest) :
    ¬(bounds.items ≤ index ∨ index ∈ s.completed) := by
  have counted := running.counted index
  simp only [PoolState.inventory,List.count_append,first,List.map_cons,List.count_cons_self] at counted
  rintro (outside | known)
  · have bounded := running.bounded
    rw [if_neg (by omega)] at counted
    omega
  · have seen := running.completed index known
    rw [← List.count_pos_iff,List.count_append,List.count_append] at seen
    split at counted
    · omega
    · omega

theorem initial_running {items workerCount maxInFlight : Nat} {order : ParallelVisitOrder} (filled : items ≠ 0) :
    Running (boundsOf items workerCount maxInFlight order) (PoolState.initial (boundsOf items workerCount maxInFlight order) : PoolState ρ ε) := by
  have phase : (PoolState.initial (boundsOf items workerCount maxInFlight order) : PoolState ρ ε).main = .seeding := if_neg filled
  refine ⟨fun index => ?_,Nat.zero_le _,rfl,?_,fun _ => rfl,fun _ => ⟨rfl,?_⟩,?_,nofun,⟨rfl,rfl,rfl⟩,List.not_mem_nil⟩
  · rw [PoolState.inventory,phase]
    rfl
  · rw [Filled,phase]
    exact ⟨rfl,rfl,rfl,rfl,Nat.zero_le _⟩
  · rw [phase]
    nofun
  · rw [phase]
    nofun

theorem WorkerStep.moves {old fresh : WorkerPhase ρ ε} {queue : List Nat} {results : List (Nat × Except (VisitError ε) ρ)}
    (step : WorkerStep bounds s old event fresh queue results) (going : s.cancelled = false ∧ s.workOpen = true ∧ s.resultsOpen = true) :
    (∀ index, (queue ++ fresh.held ++ results.map Prod.fst).count index = (s.queue ++ old.held ++ s.results.map Prod.fst).count index) ∧
      fresh ≠ .exited := by
  obtain ⟨running,working,listening⟩ := going
  cases step with
  | check going => exact ⟨fun index => rfl,nofun⟩
  | leave stopped => exact nomatch running.symm.trans stopped
  | lock free => exact ⟨fun index => rfl,nofun⟩
  | take index rest first =>
    refine ⟨fun other => ?_,nofun⟩
    simp only [first,WorkerPhase.held,List.count_append,List.count_cons,List.count_nil]
    omega
  | hangUp nothing closed => exact nomatch working.symm.trans closed
  | begin index going => exact ⟨fun other => rfl,nofun⟩
  | abandon index stopped => exact nomatch running.symm.trans stopped
  | work index result => exact ⟨fun other => rfl,nofun⟩
  | deliver index result listening room =>
    refine ⟨fun other => ?_,nofun⟩
    simp only [WorkerPhase.held,List.count_append,List.map_append,List.map_cons,List.map_nil,List.count_cons,List.count_nil]
    omega
  | refuse index result deaf => exact nomatch listening.symm.trans deaf

theorem Running.resumed (running : Running bounds s) (phase : s.main = .scheduling) {queue : List Nat} {scheduled : Nat}
    (counts : ∀ index, queue.count index + (if index < s.scheduled then 1 else 0) =
      s.queue.count index + if index < scheduled then 1 else 0)
    (full : scheduled = min bounds.items (s.published+bounds.window)) :
    Running bounds { s with queue := queue, scheduled := scheduled, main := bounds.resumed } := by
  obtain ⟨counted,bounded,published,filled,plain,inOrder,headless,completed,going,present⟩ := running
  have holds : (bounds.resumed : MainPhase ρ ε).held = [] := by
    unfold Bounds.resumed
    cases bounds.order <;> rfl
  simp only [Filled,phase] at filled
  refine ⟨fun other => ?_,by dsimp only; omega,published,?_,plain,fun input => ⟨(inOrder input).1,?_⟩,fun receiving => ?_,?_,going,present⟩
  · have before := counted other
    have change := counts other
    simp only [PoolState.inventory,phase,MainPhase.held,List.count_append] at before
    simp only [PoolState.inventory,holds,List.count_append]
    omega
  · unfold Filled Bounds.resumed
    cases bounds.order <;> exact ⟨full,filled.2⟩
  · rw [holds]
    nofun
  · unfold Bounds.resumed at receiving
    cases order : bounds.order with
    | completion =>
      rw [plain order]
      exact List.not_mem_nil
    | input =>
      rw [order] at receiving
      exact nomatch receiving
  · rw [phase] at completed
    rw [holds]
    exact completed

theorem Running.step (sound : bounds.Sound) (running : Running bounds s) (step : Step bounds s event s')
    (inside : s'.main.outcome = none) : Running bounds s' := by
  obtain ⟨counted,bounded,published,filled,plain,inOrder,headless,completed,going,present⟩ := running
  have room := sound.fits
  have wide := sound.window
  cases step with
  | seed phase left free =>
    simp only [Filled,phase] at filled
    refine ⟨fun index => ?_,by dsimp only; omega,published,?_,plain,inOrder,headless,completed,going,present⟩
    · have before := counted index
      simp only [PoolState.inventory,List.count_append,List.count_cons,List.count_nil] at before ⊢
      grind
    · simp only [Filled,phase]
      grind
  | start phase full =>
    simp only [Filled,phase] at filled
    obtain ⟨nobody,nothing,bare,unseen,upTo⟩ := filled
    refine ⟨fun index => ?_,bounded,published,?_,plain,fun order => ⟨(inOrder order).1,nofun⟩,fun _ => ?_,?_,going,fun gone => ?_⟩
    · have before := counted index
      simp only [PoolState.inventory,phase,nobody,List.count_append] at before ⊢
      have idle : (List.replicate bounds.workers (.idle : WorkerPhase ρ ε)).flatMap WorkerPhase.held = [] :=
        List.flatMap_eq_nil_iff.mpr fun worker listed => List.eq_of_mem_replicate listed ▸ rfl
      rw [idle]
      exact before
    · have none : s.visited.length = 0 := by rw [unseen]; rfl
      refine ⟨?_,List.length_replicate⟩
      change s.scheduled = min bounds.items (s.published+bounds.window)
      omega
    · rw [bare]
      exact List.not_mem_nil
    · rw [phase] at completed
      exact completed
    · exact nomatch List.eq_of_mem_replicate gone
  | finish | disconnect | stale | fail => exact nomatch inside
  | accept index value rest phase left first fresh order =>
    simp only [Filled,phase] at filled
    refine ⟨fun other => ?_,bounded,published,filled,plain,fun input => (nomatch order.symm.trans input),nofun,fun other known => ?_,going,present⟩
    · have before := counted other
      simp only [PoolState.inventory,phase,first,MainPhase.held,List.map_cons,List.count_append,List.count_cons,List.count_nil] at before ⊢
      omega
    · have seen := completed other
      simp only [phase,MainPhase.held] at seen ⊢
      grind
  | hold index value rest phase left first fresh order absent =>
    simp only [Filled,phase] at filled
    refine ⟨fun other => ?_,bounded,published,filled,fun completion => (nomatch order.symm.trans completion),
      fun input => ⟨(inOrder input).1,nofun⟩,nofun,fun other known => ?_,going,present⟩
    · have before := counted other
      simp only [PoolState.inventory,phase,first,MainPhase.held,List.map_cons,List.count_append,List.count_cons,List.count_nil] at before ⊢
      omega
    · have seen := completed other
      simp only [phase,MainPhase.held] at seen ⊢
      grind
  | repeated index value rest phase left first fresh order present => exact nomatch inside
  | publish value front back phase head =>
    simp only [Filled,phase] at filled
    refine ⟨fun other => ?_,bounded,published,filled,fun completion => ?_,fun input => ⟨(inOrder input).1,fun other same => ?_⟩,nofun,
      fun other known => ?_,going,present⟩
    · have before := counted other
      simp only [PoolState.inventory,phase,head,MainPhase.held,List.map_append,List.map_cons,List.count_append,List.count_cons,List.count_nil] at before ⊢
      omega
    · have nothing := plain completion
      rw [head] at nothing
      exact absurd nothing (by simp)
    · exact List.mem_singleton.mp same
    · have seen := completed other known
      simp only [phase,head,MainPhase.held] at seen ⊢
      grind
  | await phase absent =>
    simp only [Filled,phase] at filled
    refine ⟨fun other => ?_,bounded,published,filled,plain,fun input => ⟨(inOrder input).1,nofun⟩,fun _ => absent,?_,going,present⟩
    · have before := counted other
      simp only [PoolState.inventory,phase] at before
      exact before
    · rw [phase] at completed
      exact completed
  | visit index value phase =>
    simp only [Filled,phase] at filled
    refine ⟨fun other => ?_,bounded,?_,?_,plain,fun input => ⟨?_,nofun⟩,nofun,fun other known => ?_,going,present⟩
    · have before := counted other
      simp only [PoolState.inventory,phase,MainPhase.held,List.count_append,List.count_cons,List.count_nil] at before ⊢
      omega
    · simp [published]
    · simp only [Filled]
      omega
    · obtain ⟨sorted,head⟩ := inOrder input
      rw [phase] at head
      dsimp only
      rw [sorted,head index (List.mem_singleton_self _),List.range_succ]
    · have seen := completed other known
      simp only [phase,MainPhase.held] at seen ⊢
      grind
  | refuse index value error phase => exact nomatch inside
  | schedule phase left free =>
    refine Running.resumed ⟨counted,bounded,published,filled,plain,inOrder,headless,completed,going,present⟩ phase (fun other => ?_) ?_
    · simp only [List.count_append,List.count_cons,List.count_nil]
      grind
    · simp only [Filled,phase] at filled
      omega
  | exhausted phase none =>
    refine Running.resumed ⟨counted,bounded,published,filled,plain,inOrder,headless,completed,going,present⟩ phase (fun other => rfl) ?_
    simp only [Filled,phase] at filled
    omega
  | cancel | closeWork | closeResults | join => exact nomatch inside
  | worker front back old fresh event queue results place step =>
    obtain ⟨moved,staying⟩ := step.moves going
    refine ⟨fun other => ?_,bounded,published,?_,plain,inOrder,headless,completed,going,fun gone => ?_⟩
    · have before := counted other
      have balance := moved other
      simp only [PoolState.inventory,place,List.flatMap_append,List.flatMap_cons,List.count_append] at before balance ⊢
      omega
    · unfold Filled at filled ⊢
      have some : s.workers ≠ [] := by rw [place]; simp
      rw [place] at filled
      simp only [List.length_append,List.length_cons] at filled ⊢
      split at filled <;> simp_all
    · have absent := present
      rw [place] at absent
      grind

def Event.fault : Event ρ ε → Option (VisitError ε)
  | .received _ (.error error) | .visited _ (.error error) => some error
  | _ => none

def Event.visit? : Event ρ ε → Option Nat
  | .visited index _ => some index
  | _ => none

def visits (events : List (Event ρ ε)) : List Nat := events.filterMap Event.visit?

theorem Step.visited (step : Step bounds s event s') : s'.visited = s.visited ++ event.visit?.toList := by
  cases step with
  | visit => rfl
  | refuse => rfl
  | worker _ _ _ _ _ _ _ _ step => cases step <;> exact (List.append_nil _).symm
  | _ => exact (List.append_nil _).symm

theorem Step.leaves (sound : bounds.Sound) (running : Running bounds s) (inside : s.main.outcome = none) (step : Step bounds s event s') :
    (event.fault = none ∧ ∀ error, s'.main.outcome ≠ some (.error error)) ∨
      ∃ error, event.fault = some error ∧ s'.main.outcome = some (.error error) := by
  have left : (∃ outcome, s.main.outcome = some outcome) → False := fun ⟨_,same⟩ => nomatch inside.symm.trans same
  cases step with
  | disconnect phase unfinished nothing gone =>
    have filled := running.filled
    simp only [Filled,phase] at filled
    have crew : 0 < s.workers.length := filled.2 ▸ sound.worker
    obtain ⟨worker,listed⟩ := List.exists_mem_of_length_pos crew
    exact absurd (gone worker listed ▸ listed) running.present
  | stale index result rest phase unfinished first known => exact absurd known (running.fresh first)
  | repeated index value rest phase unfinished first fresh order present =>
    have counted := running.once index
    rw [← List.count_pos_iff] at present
    simp only [PoolState.inventory,first,List.map_cons,List.count_append,List.count_cons_self] at counted
    omega
  | fail index error rest phase unfinished first fresh | refuse index value error phase => exact .inr ⟨error,rfl,rfl⟩
  | cancel outcome phase | closeWork outcome phase | closeResults outcome phase | join outcome phase gone =>
    exact (left ⟨outcome,by rw [phase]; rfl⟩).elim
  | worker front back old fresh event queue results place step =>
    refine .inl ⟨?_,fun error same => nomatch inside.symm.trans same⟩
    cases step <;> rfl
  | schedule phase unscheduled free | exhausted phase none =>
    refine .inl ⟨rfl,?_⟩
    unfold Bounds.resumed
    cases bounds.order <;> nofun
  | seed phase => exact .inl ⟨rfl,by rw [phase]; nofun⟩
  | _ => exact .inl ⟨rfl,nofun⟩

theorem Step.left {outcome : Except (VisitError ε) Unit} (outside : s.main.outcome = some outcome) (step : Step bounds s event s') :
    s'.main.outcome = some outcome ∧ event.fault = none ∧ event.visit? = none ∧ s'.scheduled = s.scheduled := by
  cases step with
  | cancel other phase | closeWork other phase | closeResults other phase | join other phase gone =>
    rw [phase] at outside
    exact ⟨outside,rfl,rfl,rfl⟩
  | worker front back old fresh event queue results place step => exact ⟨outside,by cases step <;> rfl,by cases step <;> rfl,rfl⟩
  | seed phase | start phase | finish phase | disconnect phase | publish _ _ _ phase | await phase | schedule phase | exhausted phase =>
    rw [phase] at outside
    exact nomatch outside
  | stale _ _ _ phase | fail _ _ _ phase | accept _ _ _ phase | hold _ _ _ phase | repeated _ _ _ phase =>
    rw [phase] at outside
    exact nomatch outside
  | visit _ _ phase | refuse _ _ _ phase =>
    rw [phase] at outside
    exact nomatch outside

section
variable (running : Running bounds s)
include running

theorem Running.inventory_perm : s.inventory.Perm (List.range s.scheduled) := by
  refine List.perm_iff_count.mpr fun index => ?_
  rw [running.counted index,List.nodup_range.count]
  simp only [List.mem_range]

-- What is scheduled is in one place each, so the queue has room for the next item.
theorem Running.inventory_length : s.inventory.length = s.scheduled :=
  running.inventory_perm.length_eq.trans List.length_range

theorem Running.sends
    (sending : (s.main = .seeding ∧ s.scheduled < bounds.window) ∨ (s.main = .scheduling ∧ s.scheduled < bounds.items)) :
    s.queue.length < bounds.window := by
  have whole := running.inventory_length
  simp only [PoolState.inventory,List.length_append] at whole
  rcases sending with ⟨phase,left⟩ | ⟨phase,left⟩
  · omega
  · have filled := running.filled
    simp only [Filled,phase] at filled
    have counted := running.published
    omega

structure Holds (bounds : Bounds) (s : PoolState ρ ε) : Prop where
  running : s.main.outcome = none → Running bounds s
  once : s.visited.Nodup
  known : ∀ index ∈ s.visited, index < bounds.items
  ascending : bounds.order = .input → s.visited = List.range s.visited.length
  inFlight : s.scheduled ≤ s.visited.length+bounds.window
  complete : s.main.outcome = some (.ok ()) → bounds.items ≤ s.visited.length
  workClosed : ∀ outcome, s.main = .dropping outcome ∨ s.main = .joining outcome → s.workOpen = false
  resultsClosed : ∀ outcome, s.main = .joining outcome → s.resultsOpen = false

theorem Running.holds (inside : s.main.outcome = none) : Holds bounds s := by
  refine ⟨fun _ => running,running.visited_once,fun index seen => ?_,fun input => ?_,?_,fun done => (nomatch inside.symm.trans done),
    fun outcome closed => ?_,fun outcome closed => ?_⟩
  · have listed : index ∈ s.inventory := List.mem_append_right _ seen
    exact (List.mem_range.mp (running.inventory_perm.mem_iff.mp listed)).trans_le running.bounded
  · rw [← running.published]
    exact (running.inOrder input).1
  · have filled := running.filled
    have counted := running.published
    unfold Filled at filled
    split at filled <;> omega
  · rcases closed with phase | phase
    · exact nomatch inside.symm.trans (congrArg MainPhase.outcome phase)
    · exact nomatch inside.symm.trans (congrArg MainPhase.outcome phase)
  · exact nomatch inside.symm.trans (congrArg MainPhase.outcome closed)

end

theorem Holds.kept (holds : Holds bounds s) {outcome : Except (VisitError ε) Unit} (outside : s'.main.outcome = some outcome)
    (visited : s'.visited = s.visited) (scheduled : s'.scheduled = s.scheduled) (complete : outcome = .ok () → bounds.items ≤ s.visited.length)
    (workClosed : ∀ outcome, s'.main = .dropping outcome ∨ s'.main = .joining outcome → s'.workOpen = false)
    (resultsClosed : ∀ outcome, s'.main = .joining outcome → s'.resultsOpen = false) : Holds bounds s' := by
  obtain ⟨_,once,known,ascending,inFlight,_,_,_⟩ := holds
  rw [← visited] at once known ascending inFlight complete
  refine ⟨fun inside => (nomatch outside.symm.trans inside),once,known,ascending,scheduled ▸ inFlight,fun done => ?_,workClosed,resultsClosed⟩
  exact complete (Option.some.inj (outside.symm.trans done))

theorem Holds.step (sound : bounds.Sound) (holds : Holds bounds s) (step : Step bounds s event s') : Holds bounds s' := by
  have inner : s.main.outcome = none → s'.main.outcome = none → Holds bounds s' := fun before after =>
    ((holds.running before).step sound step after).holds after
  cases step with
  | finish phase all =>
    have running := holds.running (congrArg MainPhase.outcome phase)
    refine holds.kept rfl rfl rfl (fun _ => ?_) (fun _ closed => ?_) (fun _ closed => ?_)
    · have counted := running.published
      omega
    · rcases closed with same | same <;> exact nomatch same
    · exact nomatch closed
  | disconnect | stale | fail | repeated =>
    refine holds.kept rfl rfl rfl nofun (fun _ closed => ?_) (fun _ closed => ?_)
    · rcases closed with same | same <;> exact nomatch same
    · exact nomatch closed
  | refuse index value error phase =>
    -- The failed visit is one more visit: the state has the facts of the one a good visit leads to.
    have running := holds.running (congrArg MainPhase.outcome phase)
    have visited := (running.step sound (Step.visit index value phase) rfl).holds rfl
    refine visited.kept rfl rfl rfl nofun (fun _ closed => ?_) (fun _ closed => ?_)
    · rcases closed with same | same <;> exact nomatch same
    · exact nomatch closed
  | cancel outcome phase | join outcome phase =>
    refine holds.kept rfl rfl rfl (fun done => holds.complete (by rw [phase,done]; rfl)) (fun _ closed => ?_) (fun _ closed => ?_)
    · rcases closed with same | same <;> exact nomatch same
    · exact nomatch closed
  | closeWork outcome phase =>
    refine holds.kept rfl rfl rfl (fun done => holds.complete (by rw [phase,done]; rfl)) (fun _ _ => rfl) (fun _ closed => ?_)
    exact nomatch closed
  | closeResults outcome phase =>
    refine holds.kept rfl rfl rfl (fun done => holds.complete (by rw [phase,done]; rfl)) (fun _ _ => ?_) (fun _ _ => rfl)
    exact holds.workClosed outcome (.inl phase)
  | worker front back old fresh event queue results place step =>
    cases phase : s.main.outcome with
    | none => exact inner phase phase
    | some outcome =>
      exact holds.kept phase rfl rfl (fun done => holds.complete (done ▸ phase)) holds.workClosed holds.resultsClosed
  | seed phase => exact inner (congrArg MainPhase.outcome phase) (congrArg MainPhase.outcome phase)
  | start phase | publish _ _ _ phase | await phase | visit _ _ phase => exact inner (congrArg MainPhase.outcome phase) rfl
  | accept _ _ _ phase | hold _ _ _ phase => exact inner (congrArg MainPhase.outcome phase) rfl
  | schedule phase | exhausted phase =>
    refine inner (congrArg MainPhase.outcome phase) ?_
    unfold Bounds.resumed
    cases bounds.order <;> rfl

theorem Step.ofWorker {worker fresh : WorkerPhase ρ ε} {queue : List Nat} {results : List (Nat × Except (VisitError ε) ρ)}
    (listed : worker ∈ s.workers) (step : WorkerStep bounds s worker event fresh queue results) : ∃ event s', Step bounds s event s' := by
  obtain ⟨front,back,place⟩ := List.append_of_mem listed
  exact ⟨event,_,Step.worker front back worker fresh event queue results place step⟩

theorem holding_moves {worker : WorkerPhase ρ ε} (listed : worker ∈ s.workers) (holding : worker.held ≠ [])
    (answered : s.resultsOpen = false ∨ s.results.length < bounds.workers) : ∃ event s', Step bounds s event s' := by
  cases worker with
  | taken index =>
    cases flag : s.cancelled with
    | false => exact Step.ofWorker listed (.begin index flag)
    | true => exact Step.ofWorker listed (.abandon index flag)
  | working index => exact Step.ofWorker listed (.work index (.error .stale))
  | delivering index result =>
    cases listening : s.resultsOpen with
    | false => exact Step.ofWorker listed (.refuse index result listening)
    | true =>
      have room := answered.resolve_left (by rw [listening]; nofun)
      exact Step.ofWorker listed (.deliver index result listening room)
  | idle | waiting | receiving | exited => exact absurd rfl holding

theorem receiving_moves (listed : .receiving ∈ s.workers) (answered : s.queue ≠ [] ∨ s.workOpen = false) :
    ∃ event s', Step bounds s event s' := by
  cases queued : s.queue with
  | nil => exact Step.ofWorker listed (.hangUp queued (answered.resolve_left fun some => some queued))
  | cons index rest => exact Step.ofWorker listed (.take index rest queued)

theorem alive_moves {worker : WorkerPhase ρ ε} (listed : worker ∈ s.workers) (alive : worker ≠ .exited)
    (supplied : s.queue ≠ [] ∨ s.workOpen = false) (answered : s.resultsOpen = false ∨ s.results.length < bounds.workers) :
    ∃ event s', Step bounds s event s' := by
  cases worker with
  | idle =>
    cases flag : s.cancelled with
    | false => exact Step.ofWorker listed (.check flag)
    | true => exact Step.ofWorker listed (.leave flag)
  | waiting =>
    by_cases busy : .receiving ∈ s.workers
    · exact receiving_moves busy supplied
    · exact Step.ofWorker listed (.lock busy)
  | receiving => exact receiving_moves listed supplied
  | taken index | working index | delivering index result => exact holding_moves listed nofun answered
  | exited => exact absurd rfl alive

-- While the loop waits on empty queues, the item that it lacks is in a worker's hands.
theorem Running.heldSomewhere (running : Running bounds s) (phase : s.main = .receiving) (left : s.published < bounds.items)
    (positive : 0 < bounds.window) (nothing : s.results = []) (drained : s.queue = []) : ∃ worker ∈ s.workers, worker.held ≠ [] := by
  by_contra idle
  have hands : s.workers.flatMap WorkerPhase.held = [] := by
    refine List.flatMap_eq_nil_iff.mpr fun worker listed => ?_
    by_contra holding
    exact idle ⟨worker,listed,holding⟩
  have filled := running.filled
  simp only [Filled,phase] at filled
  have scheduled : s.published < s.scheduled := by omega
  have counted := running.counted s.published
  have whole := running.inventory_length
  rw [if_pos scheduled] at counted
  simp only [PoolState.inventory,phase,MainPhase.held,nothing,drained,hands,List.map_nil,List.nil_append,List.append_nil] at counted whole
  cases order : bounds.order with
  | completion =>
    rw [running.plain order,List.map_nil,List.nil_append,← running.published] at whole
    omega
  | input =>
    have absent := List.count_eq_zero_of_not_mem (running.headless phase)
    rw [List.count_append,absent,(running.inOrder order).1,List.nodup_range.count] at counted
    simp at counted

theorem Running.receives (sound : bounds.Sound) (running : Running bounds s) (phase : s.main = .receiving) :
    ∃ event s', Step bounds s event s' := by
  by_cases left : s.published < bounds.items
  · cases received : s.results with
    | nil =>
      have answered : s.resultsOpen = false ∨ s.results.length < bounds.workers := .inr (by rw [received]; exact sound.worker)
      by_cases drained : s.queue = []
      · obtain ⟨worker,listed,holding⟩ := running.heldSomewhere phase left sound.window received drained
        exact holding_moves listed holding answered
      · have filled := running.filled
        simp only [Filled,phase] at filled
        have crew : 0 < s.workers.length := filled.2 ▸ sound.worker
        obtain ⟨worker,listed⟩ := List.exists_mem_of_length_pos crew
        exact alive_moves listed (fun gone => running.present (gone ▸ listed)) (.inl drained) answered
    | cons result rest =>
      obtain ⟨index,result⟩ := result
      have fresh := running.fresh received
      cases result with
      | error error => exact ⟨_,_,Step.fail index error rest phase left received fresh⟩
      | ok value =>
        cases order : bounds.order with
        | completion => exact ⟨_,_,Step.accept index value rest phase left received fresh order⟩
        | input =>
          by_cases present : index ∈ s.reorder.map Prod.fst
          · exact ⟨_,_,Step.repeated index value rest phase left received fresh order present⟩
          · exact ⟨_,_,Step.hold index value rest phase left received fresh order present⟩
  · exact ⟨_,_,Step.finish phase left⟩

theorem Holds.progress (sound : bounds.Sound) (holds : Holds bounds s) :
    (∃ outcome, s.main = .returned outcome) ∨ ∃ event s', Step bounds s event s' := by
  cases phase : s.main with
  | seeding =>
    have running := holds.running (congrArg MainPhase.outcome phase)
    by_cases left : s.scheduled < bounds.window
    · exact .inr ⟨_,_,Step.seed phase left (running.sends (.inl ⟨phase,left⟩))⟩
    · exact .inr ⟨_,_,Step.start phase left⟩
  | receiving => exact .inr ((holds.running (congrArg MainPhase.outcome phase)).receives sound phase)
  | publishing =>
    by_cases present : s.published ∈ s.reorder.map Prod.fst
    · obtain ⟨⟨index,value⟩,listed,same⟩ := List.mem_map.mp present
      cases same
      obtain ⟨front,back,head⟩ := List.append_of_mem listed
      exact .inr ⟨_,_,Step.publish value front back phase head⟩
    · exact .inr ⟨_,_,Step.await phase present⟩
  | visiting index value => exact .inr ⟨_,_,Step.visit index value phase⟩
  | scheduling =>
    have running := holds.running (congrArg MainPhase.outcome phase)
    by_cases left : s.scheduled < bounds.items
    · exact .inr ⟨_,_,Step.schedule phase left (running.sends (.inr ⟨phase,left⟩))⟩
    · exact .inr ⟨_,_,Step.exhausted phase left⟩
  | stopping outcome => exact .inr ⟨_,_,Step.cancel outcome phase⟩
  | closing outcome => exact .inr ⟨_,_,Step.closeWork outcome phase⟩
  | dropping outcome => exact .inr ⟨_,_,Step.closeResults outcome phase⟩
  | joining outcome =>
    by_cases gone : ∀ worker ∈ s.workers, worker = .exited
    · exact .inr ⟨_,_,Step.join outcome phase gone⟩
    · -- With both queues closed no worker can wait for the loop.
      obtain ⟨worker,remaining⟩ := not_forall.mp gone
      obtain ⟨listed,alive⟩ := Classical.not_imp.mp remaining
      exact .inr (alive_moves listed alive (.inr (holds.workClosed outcome (.inr phase))) (.inl (holds.resultsClosed outcome phase)))
  | returned outcome => exact .inl ⟨outcome,rfl⟩

theorem Run.visited {events : List (Event ρ ε)} (run : Run bounds s events s') : s'.visited = s.visited ++ visits events := by
  induction run with
  | nil => exact (List.append_nil _).symm
  | snoc run step ih =>
    rw [step.visited,ih,visits,visits,List.filterMap_append,List.append_assoc]
    congr 1

theorem Run.holds (sound : bounds.Sound) {events : List (Event ρ ε)} (run : Run bounds s events s') (holds : Holds bounds s) :
    Holds bounds s' := by
  induction run with
  | nil => exact holds
  | snoc run step ih => exact ih.step sound step

theorem split_snoc {before after events : List α} {middle last : α} (whole : events ++ [last] = before ++ middle :: after) :
    (middle = last ∧ after = []) ∨ ∃ rest, after = rest ++ [last] ∧ events = before ++ middle :: rest := by
  rcases List.eq_nil_or_concat' after with rfl | ⟨rest,final,rfl⟩
  · cases (List.append_inj' whole rfl).2
    exact .inl ⟨rfl,rfl⟩
  · rw [← List.cons_append,← List.append_assoc] at whole
    obtain ⟨front,back⟩ := List.append_inj' whole rfl
    cases back
    exact .inr ⟨rest,rfl,front⟩

structure Faults (events : List (Event ρ ε)) (s : PoolState ρ ε) : Prop where
  stops : ∀ error before event after, events = before ++ event :: after → event.fault = some error →
    visits after = [] ∧ s.main.outcome = some (.error error)
  raised : ∀ error, s.main.outcome = some (.error error) → ∃ event ∈ events, event.fault = some error

theorem Faults.step (sound : bounds.Sound) {events : List (Event ρ ε)} (faults : Faults events s) (holds : Holds bounds s)
    (step : Step bounds s event s') : Faults (events ++ [event]) s' := by
  cases phase : s.main.outcome with
  | none =>
    have clean : ∀ error before other after, events = before ++ other :: after → other.fault ≠ some error :=
      fun error before other after split fault => nomatch phase.symm.trans (faults.stops error before other after split fault).2
    rcases step.leaves sound (holds.running phase) phase with ⟨faultless,kept⟩ | ⟨error,fault,left⟩
    · refine ⟨fun error before other after split fault => ?_,fun error same => absurd same (kept error)⟩
      rcases split_snoc split with ⟨rfl,_⟩ | ⟨rest,_,earlier⟩
      · exact nomatch faultless.symm.trans fault
      · exact absurd fault (clean error before other rest earlier)
    · refine ⟨fun raised before other after split same => ?_,fun raised same => ?_⟩
      · rcases split_snoc split with ⟨rfl,rfl⟩ | ⟨rest,_,earlier⟩
        · cases Option.some.inj (fault.symm.trans same)
          exact ⟨rfl,left⟩
        · exact absurd same (clean raised before other rest earlier)
      · cases left.symm.trans same
        exact ⟨event,List.mem_append_right _ (List.mem_singleton_self _),fault⟩
  | some outcome =>
    obtain ⟨same,faultless,unvisited,_⟩ := step.left phase
    refine ⟨fun error before other after split fault => ?_,fun error left => ?_⟩
    · rcases split_snoc split with ⟨rfl,_⟩ | ⟨rest,rfl,earlier⟩
      · exact nomatch faultless.symm.trans fault
      · obtain ⟨quiet,left⟩ := faults.stops error before other rest earlier fault
        refine ⟨?_,same.trans (phase.symm.trans left)⟩
        rw [visits,List.filterMap_append]
        change visits rest ++ _ = []
        rw [quiet,List.filterMap_cons,unvisited]
        rfl
    · obtain ⟨raised,listed,fault⟩ := faults.raised error (phase.trans (same.symm.trans left))
      exact ⟨raised,List.mem_append_left _ listed,fault⟩

theorem Run.faults (sound : bounds.Sound) {events : List (Event ρ ε)} (run : Run bounds s events s') (holds : Holds bounds s)
    (inside : s.main.outcome = none) : Faults events s' := by
  induction run with
  | nil => exact ⟨fun error before event after split => absurd split (by simp),fun error same => (nomatch inside.symm.trans same)⟩
  | snoc run step ih => exact ih.step sound (run.holds sound holds) step

structure ParallelVisits (items workerCount maxInFlight : Nat) (order : ParallelVisitOrder) (events : List (Event ρ ε))
    (s : PoolState ρ ε) : Prop where
  inFlight : s.scheduled ≤ (visits events).length+max maxInFlight (min (max workerCount 1) items)
  once : (visits events).Nodup
  known : ∀ index ∈ visits events, index < items
  ascending : order = .input → visits events = List.range (visits events).length
  complete : s.main = .returned (.ok ()) → (visits events).Perm (List.range items)
  faults : Faults events s
  sends : (s.main = .seeding ∧ s.scheduled < (boundsOf items workerCount maxInFlight order).window) ∨
    (s.main = .scheduling ∧ s.scheduled < items) → s.queue.length < (boundsOf items workerCount maxInFlight order).window
  progress : (∃ outcome, s.main = .returned outcome) ∨ ∃ event s', Step (boundsOf items workerCount maxInFlight order) s event s'

theorem Run.nothing {workerCount maxInFlight : Nat} {order : ParallelVisitOrder} {events : List (Event ρ ε)}
    (run : Run (boundsOf 0 workerCount maxInFlight order) (PoolState.initial (boundsOf 0 workerCount maxInFlight order)) events s) :
    events = [] ∧ s = PoolState.initial (boundsOf 0 workerCount maxInFlight order) := by
  induction run with
  | nil => exact ⟨rfl,rfl⟩
  | snoc run step ih =>
    obtain ⟨_,same⟩ := ih
    subst same
    cases step with
    | worker front back old fresh event queue results place step => exact absurd place (by simp [PoolState.initial])
    | seed phase | start phase | finish phase | disconnect phase | publish _ _ _ phase | await phase | schedule phase | exhausted phase =>
      exact nomatch phase
    | stale _ _ _ phase | fail _ _ _ phase | accept _ _ _ phase | hold _ _ _ phase | repeated _ _ _ phase => exact nomatch phase
    | visit _ _ phase | refuse _ _ _ phase | cancel _ phase | closeWork _ phase | closeResults _ phase | join _ phase => exact nomatch phase

theorem parallel_visits {items workerCount maxInFlight : Nat} {order : ParallelVisitOrder} {events : List (Event ρ ε)}
    (run : Run (boundsOf items workerCount maxInFlight order) (PoolState.initial (boundsOf items workerCount maxInFlight order)) events s) :
    ParallelVisits items workerCount maxInFlight order events s := by
  by_cases filled : items = 0
  · subst filled
    obtain ⟨rfl,rfl⟩ := run.nothing
    refine ⟨Nat.zero_le _,List.nodup_nil,nofun,fun _ => rfl,fun _ => List.Perm.refl _,⟨?_,nofun⟩,fun sending => ?_,.inl ⟨_,rfl⟩⟩
    · exact fun error before event after split => absurd split (by simp)
    · rcases sending with ⟨phase,_⟩ | ⟨phase,_⟩ <;> exact nomatch phase
  · have sound := boundsOf_sound workerCount maxInFlight order filled
    have phase : (PoolState.initial (boundsOf items workerCount maxInFlight order) : PoolState ρ ε).main = .seeding := if_neg filled
    have inside := congrArg MainPhase.outcome phase
    have started := (initial_running filled).holds inside
    have holds := run.holds sound started
    have seen : s.visited = visits events := run.visited
    have window : (boundsOf items workerCount maxInFlight order).window ≤ max maxInFlight (min (max workerCount 1) items) :=
      Nat.min_le_left _ _
    refine ⟨?_,seen ▸ holds.once,seen ▸ holds.known,seen ▸ holds.ascending,fun done => ?_,run.faults sound started inside,
      fun sending => ?_,holds.progress sound⟩
    · have inFlight := holds.inFlight
      rw [seen] at inFlight
      omega
    · have whole := holds.complete (by rw [done]; rfl)
      have subset : List.Subperm s.visited (List.range items) :=
        List.subperm_of_subset holds.once fun index visited => List.mem_range.mpr (holds.known index visited)
      rw [← seen]
      exact subset.perm_of_length_le (List.length_range.trans_le whole)
    · refine (holds.running ?_).sends sending
      rcases sending with ⟨phase,_⟩ | ⟨phase,_⟩ <;> exact congrArg MainPhase.outcome phase

end

-- One worker, two items: the second work has failed while the first result still waits for the loop.
def lateEvents : List (Event Unit Unit) :=
  [.quiet,.quiet,.quiet,.quiet,.quiet,.quiet,.quiet,.worked 0 (.ok ()),.quiet,.quiet,.quiet,.quiet,.quiet,
    .worked 1 (.error (.raised ())),.received 0 (.ok ()),.visited 0 (.ok ())]

theorem late_run : ∃ s : PoolState Unit Unit, Run (boundsOf 2 1 2 .completion) (PoolState.initial (boundsOf 2 1 2 .completion)) lateEvents s := by
  have unlocked : (.receiving : WorkerPhase Unit Unit) ∉ [.waiting] := fun listed => nomatch List.mem_singleton.mp listed
  have begun : Run (boundsOf 2 1 2 .completion) (PoolState.initial (boundsOf 2 1 2 .completion)) [] (PoolState.initial (boundsOf 2 1 2 .completion)) :=
    .nil (PoolState.initial (boundsOf 2 1 2 .completion) : PoolState Unit Unit)
  have seeded := (begun.snoc (.seed rfl (by decide) (by decide))).snoc (.seed rfl (by decide) (by decide))
  have started := seeded.snoc (.start rfl (by decide))
  have taken := ((started.snoc (.worker [] [] .idle .waiting .quiet _ _ rfl (.check rfl))).snoc
    (.worker [] [] .waiting .receiving .quiet _ _ rfl (.lock unlocked))).snoc
    (.worker [] [] .receiving (.taken 0) .quiet _ _ rfl (.take 0 [1] rfl))
  have worked := (taken.snoc (.worker [] [] (.taken 0) (.working 0) .quiet _ _ rfl (.begin 0 rfl))).snoc
    (.worker [] [] (.working 0) (.delivering 0 (.ok ())) (.worked 0 (.ok ())) _ _ rfl (.work 0 (.ok ())))
  have delivered := worked.snoc (.worker [] [] (.delivering 0 (.ok ())) .idle .quiet _ _ rfl (.deliver 0 (.ok ()) rfl (by decide)))
  have again := ((delivered.snoc (.worker [] [] .idle .waiting .quiet _ _ rfl (.check rfl))).snoc
    (.worker [] [] .waiting .receiving .quiet _ _ rfl (.lock unlocked))).snoc
    (.worker [] [] .receiving (.taken 1) .quiet _ _ rfl (.take 1 [] rfl))
  have failed := (again.snoc (.worker [] [] (.taken 1) (.working 1) .quiet _ _ rfl (.begin 1 rfl))).snoc
    (.worker [] [] (.working 1) (.delivering 1 (.error (.raised ()))) (.worked 1 (.error (.raised ()))) _ _ rfl (.work 1 (.error (.raised ()))))
  have received := failed.snoc (.accept 0 () [] rfl (by decide) rfl (by rintro (outside | known) <;> contradiction) rfl)
  exact ⟨_,received.snoc (.visit 0 () rfl)⟩

theorem parallel_visits_late : ∃ s : PoolState Unit Unit, ParallelVisits 2 1 2 .completion lateEvents s := by
  obtain ⟨s,run⟩ := late_run
  exact ⟨s,parallel_visits run⟩

-- A work's error counts when the loop receives it: until then the results before it are visited.
theorem visit_after_work_error : ¬∀ (items workerCount maxInFlight : Nat) (order : ParallelVisitOrder) (events : List (Event Unit Unit))
    (s : PoolState Unit Unit),
    Run (boundsOf items workerCount maxInFlight order) (PoolState.initial (boundsOf items workerCount maxInFlight order)) events s →
      ∀ (before after : List (Event Unit Unit)) (index : Nat) (error : VisitError Unit),
        events = before ++ .worked index (.error error) :: after → visits after = [] := by
  intro quiet
  obtain ⟨s,run⟩ := late_run
  have stopped := quiet 2 1 2 .completion lateEvents s run (lateEvents.take 13) (lateEvents.drop 14) 1 (.raised ()) rfl
  exact absurd stopped (by decide)

end BonsaiNinja.Db.ParallelVisit
