import Mathlib.Data.Finset.Card

namespace BonsaiNinja.Library.Closure
variable {ν : Type u} [DecidableEq ν] {next : ν → List ν}

-- A stack worklist with one visited set: each node is pushed once, when it is
-- first reached.
structure Frontier (ν : Type u) where
  reached : List ν
  pending : List ν

def Frontier.visit (s : Frontier ν) (target : ν) : Frontier ν :=
  if target ∈ s.reached then s else ⟨target :: s.reached,target :: s.pending⟩

def Frontier.visitAll (s : Frontier ν) (targets : List ν) : Frontier ν := targets.foldl Frontier.visit s

def expand (next : ν → List ν) : Nat → Frontier ν → List ν
  | 0, s => s.reached
  | fuel + 1, s =>
    match s.pending with
    | [] => s.reached
    | src :: rest => expand next fuel (Frontier.visitAll ⟨s.reached,rest⟩ (next src))

def closure (next : ν → List ν) (fuel : Nat) (seeds : List ν) : List ν :=
  expand next fuel (Frontier.visitAll ⟨[],[]⟩ seeds)

abbrev Reachable (next : ν → List ν) : ν → ν → Prop := Relation.ReflTransGen fun a b => b ∈ next a

@[simp] theorem visit_reached {s : Frontier ν} {x : ν} : x ∈ (s.visit target).reached ↔ x = target ∨ x ∈ s.reached := by
  unfold Frontier.visit
  split
  · next seen => exact ⟨.inr,fun found => found.elim (fun same => same ▸ seen) id⟩
  · exact List.mem_cons

@[simp] theorem visitAll_reached {s : Frontier ν} {x : ν} :
    x ∈ (s.visitAll targets).reached ↔ x ∈ targets ∨ x ∈ s.reached := by
  induction targets generalizing s with
  | nil => simp [Frontier.visitAll]
  | cons target rest ih =>
    rw [Frontier.visitAll, List.foldl_cons, ← Frontier.visitAll, ih, visit_reached, List.mem_cons]
    tauto

-- What one pop leaves behind: every reached node is either still on the stack
-- or has all its targets reached.
structure Invariant (next : ν → List ν) (s : Frontier ν) : Prop where
  nodup : s.reached.Nodup
  expanded : ∀ x ∈ s.reached, x ∉ s.pending → ∀ y ∈ next x, y ∈ s.reached

theorem visit_growth (s : Frontier ν) (target : ν) :
    (s.visit target).pending.length + s.reached.length = (s.visit target).reached.length + s.pending.length := by
  unfold Frontier.visit
  split
  · exact Nat.add_comm _ _
  · simp only [List.length_cons]; omega

theorem visitAll_growth (s : Frontier ν) (targets : List ν) :
    (s.visitAll targets).pending.length + s.reached.length =
      (s.visitAll targets).reached.length + s.pending.length := by
  induction targets generalizing s with
  | nil => simp only [Frontier.visitAll, List.foldl_nil]; omega
  | cons target rest ih =>
    have first := visit_growth s target
    have later := ih (s.visit target)
    simp only [Frontier.visitAll, List.foldl_cons] at later ⊢
    omega

theorem visit_nodup {s : Frontier ν} (nodup : s.reached.Nodup) : (s.visit target).reached.Nodup := by
  unfold Frontier.visit
  split
  · exact nodup
  · next fresh => exact List.nodup_cons.mpr ⟨fresh,nodup⟩

theorem visitAll_nodup {s : Frontier ν} (nodup : s.reached.Nodup) : (s.visitAll targets).reached.Nodup := by
  induction targets generalizing s with
  | nil => exact nodup
  | cons target rest ih => exact ih (visit_nodup nodup)

theorem visit_pending {s : Frontier ν} {x : ν} :
    x ∈ (s.visit target).pending ↔ x ∈ s.pending ∨ (x = target ∧ target ∉ s.reached) := by
  unfold Frontier.visit
  split
  · next seen => simp [seen]
  · next fresh => simp only [List.mem_cons]; tauto

theorem visitAll_pending {s : Frontier ν} {x : ν} :
    x ∈ (s.visitAll targets).pending ↔ x ∈ s.pending ∨ (x ∈ targets ∧ x ∉ s.reached) := by
  induction targets generalizing s with
  | nil => simp [Frontier.visitAll]
  | cons target rest ih =>
    rw [Frontier.visitAll, List.foldl_cons, ← Frontier.visitAll, ih, visit_pending, visit_reached, List.mem_cons]
    by_cases same : x = target
    · subst same; tauto
    · tauto

theorem seeds_invariant (seeds : List ν) : Invariant next (Frontier.visitAll ⟨[],[]⟩ seeds) where
  nodup := visitAll_nodup List.nodup_nil
  expanded x reached idle := by
    rw [visitAll_reached] at reached
    rw [visitAll_pending] at idle
    exact absurd (by simpa using reached) (by simpa using idle)

theorem pop_invariant {reached rest : List ν} (valid : Invariant next ⟨reached,src :: rest⟩) :
    Invariant next (Frontier.visitAll ⟨reached,rest⟩ (next src)) where
  nodup := visitAll_nodup valid.nodup
  expanded x found idle y edge := by
    rw [visitAll_reached] at found ⊢
    rw [visitAll_pending] at idle
    push Not at idle
    have already : x ∈ reached := found.elim (fun target => idle.2 target) id
    by_cases same : x = src
    · subst same; exact .inl edge
    · exact .inr (valid.expanded x already (fun waiting => (List.mem_cons.mp waiting).elim same idle.1) y edge)

structure Held (holds : ν → Prop) (s : Frontier ν) : Prop where
  reached : ∀ x ∈ s.reached, holds x
  stacked : ∀ x ∈ s.pending, x ∈ s.reached

section
variable {holds : ν → Prop} {s : Frontier ν} {reached rest targets seeds : List ν}

theorem visitAll_held (before : ∀ x ∈ reached, holds x) (stacked : ∀ x ∈ rest, x ∈ reached) (found : ∀ x ∈ targets, holds x) :
    Held holds (Frontier.visitAll ⟨reached,rest⟩ targets) := by
  refine ⟨fun x member => ?_,fun x waiting => ?_⟩
  · exact (visitAll_reached.mp member).elim (found x) (before x)
  · rw [visitAll_reached]
    rcases visitAll_pending.mp waiting with old | ⟨target,_⟩
    · exact .inr (stacked x old)
    · exact .inl target

theorem start_held (seeded : ∀ x ∈ seeds, holds x) : Held holds (Frontier.visitAll ⟨[],[]⟩ seeds) := visitAll_held nofun nofun seeded

theorem pop_held (closed : ∀ x, holds x → ∀ y ∈ next x, holds y) (held : Held holds ⟨reached,src :: rest⟩) :
    Held holds (Frontier.visitAll ⟨reached,rest⟩ (next src)) :=
  visitAll_held held.reached (fun x old => held.stacked x (List.mem_cons_of_mem _ old))
    (closed src (held.reached src (held.stacked src List.mem_cons_self)))

theorem level_held (closed : ∀ x, holds x → ∀ y ∈ next x, holds y) (held : Held holds s) :
    Held holds (Frontier.visitAll ⟨s.reached,[]⟩ (s.pending.reverse.flatMap next)) := by
  refine visitAll_held held.reached nofun fun x target => ?_
  obtain ⟨src,member,edge⟩ := List.mem_flatMap.mp target
  exact closed src (held.reached src (held.stacked src (List.mem_reverse.mp member))) x edge

end

theorem length_le_card {reached : List ν} {reachable : Finset ν} (nodup : reached.Nodup) (within : ∀ x ∈ reached, x ∈ reachable) :
    reached.length ≤ reachable.card := by
  rw [← List.toFinset_card_of_nodup nodup]
  exact Finset.card_le_card fun x member => within x (List.mem_toFinset.mp member)

-- With room for every node still to be pushed, the loop stops by emptying the
-- stack, so its result is closed under `next`.
theorem expand_closed (fuel : Nat) {reachable : Finset ν} (inside : ∀ x ∈ reachable, ∀ y ∈ next x, y ∈ reachable)
    {s : Frontier ν} (valid : Invariant next s) (held : Held (· ∈ reachable) s)
    (enough : reachable.card + s.pending.length ≤ fuel + s.reached.length) :
    (∀ x ∈ s.reached, x ∈ expand next fuel s) ∧ ∀ x ∈ expand next fuel s, ∀ y ∈ next x, y ∈ expand next fuel s := by
  induction fuel generalizing s with
  | zero =>
    have fits := length_le_card valid.nodup held.reached
    have empty : s.pending = [] := List.length_eq_zero_iff.mp (by omega)
    exact ⟨fun x member => member,fun x member => valid.expanded x member (by simp [empty])⟩
  | succ fuel ih =>
    obtain ⟨reached,pending⟩ := s
    cases pending with
    | nil => exact ⟨fun x member => member,fun x member => valid.expanded x member List.not_mem_nil⟩
    | cons src rest =>
      have growth := visitAll_growth ⟨reached,rest⟩ (next src)
      simp only [List.length_cons] at enough growth
      have result := ih (pop_invariant valid) (pop_held inside held) (by omega)
      exact ⟨fun x member => result.1 x (visitAll_reached.mpr (.inr member)),result.2⟩

theorem expand_sound {holds : ν → Prop} (closed : ∀ x, holds x → ∀ y ∈ next x, holds y) {s : Frontier ν} (held : Held holds s) :
    ∀ x ∈ expand next fuel s, holds x := by
  induction fuel generalizing s with
  | zero => exact held.reached
  | succ fuel ih =>
    obtain ⟨seen,pending⟩ := s
    cases pending with
    | nil => exact held.reached
    | cons src rest => exact ih (pop_held closed held)

theorem expand_nodup (fuel : Nat) {s : Frontier ν} (nodup : s.reached.Nodup) : (expand next fuel s).Nodup := by
  induction fuel generalizing s with
  | zero => exact nodup
  | succ fuel ih =>
    obtain ⟨reached,pending⟩ := s
    cases pending with
    | nil => exact nodup
    | cons src rest => exact ih (visitAll_nodup nodup)

theorem closure_nodup (fuel : Nat) (seeds : List ν) : (closure next fuel seeds).Nodup :=
  expand_nodup fuel (visitAll_nodup List.nodup_nil)

omit [DecidableEq ν] in
theorem mem_iff_reachable {seeds result : List ν} (seeded : ∀ x ∈ seeds, x ∈ result) (closed : ∀ x ∈ result, ∀ y ∈ next x, y ∈ result)
    (sound : ∀ holds : ν → Prop, (∀ x, holds x → ∀ y ∈ next x, holds y) → (∀ x ∈ seeds, holds x) → ∀ x ∈ result, holds x) {x : ν} :
    x ∈ result ↔ ∃ seed ∈ seeds, Reachable next seed x := by
  constructor
  · refine sound (fun x => ∃ seed ∈ seeds, Reachable next seed x) ?_ (fun x member => ⟨x,member,.refl⟩) x
    intro x found y edge
    obtain ⟨seed,member,path⟩ := found
    exact ⟨seed,member,path.tail edge⟩
  · intro found
    obtain ⟨seed,member,path⟩ := found
    induction path with
    | refl => exact seeded seed member
    | tail _ edge previous => exact closed _ previous _ edge

theorem mem_closure {reachable : Finset ν} (inside : ∀ x ∈ reachable, ∀ y ∈ next x, y ∈ reachable)
    (seeded : ∀ x ∈ seeds, x ∈ reachable) (enough : reachable.card ≤ fuel) {x : ν} :
    x ∈ closure next fuel seeds ↔ ∃ seed ∈ seeds, Reachable next seed x := by
  have growth := visitAll_growth (⟨[],[]⟩ : Frontier ν) seeds
  simp only [List.length_nil] at growth
  obtain ⟨kept,closed⟩ := expand_closed fuel inside (seeds_invariant seeds) (start_held seeded) (by omega)
  exact mem_iff_reachable (fun x member => kept x (visitAll_reached.mpr (.inl member))) closed
    fun holds closed seeded => expand_sound closed (start_held seeded)

-- The same loop with its fuel watched: no result stands for nodes left on the stack.
def drain (next : ν → List ν) (fuel : Nat) (s : Frontier ν) : Option (List ν) :=
  match s.pending with
  | [] => some s.reached
  | src :: rest =>
    match fuel with
    | 0 => none
    | fuel + 1 => drain next fuel (Frontier.visitAll ⟨s.reached,rest⟩ (next src))

theorem drain_expand (fuel : Nat) {reachable : Finset ν} (inside : ∀ x ∈ reachable, ∀ y ∈ next x, y ∈ reachable)
    {s : Frontier ν} (nodup : s.reached.Nodup) (held : Held (· ∈ reachable) s)
    (enough : reachable.card + s.pending.length ≤ fuel + s.reached.length) : drain next fuel s = some (expand next fuel s) := by
  induction fuel generalizing s with
  | zero =>
    have fits := length_le_card nodup held.reached
    have empty : s.pending = [] := List.length_eq_zero_iff.mp (by omega)
    rw [drain,empty,expand]
  | succ fuel ih =>
    obtain ⟨reached,pending⟩ := s
    cases pending with
    | nil => rfl
    | cons src rest =>
      have growth := visitAll_growth ⟨reached,rest⟩ (next src)
      simp only [List.length_cons] at enough growth
      change drain next fuel (Frontier.visitAll ⟨reached,rest⟩ (next src)) =
        some (expand next fuel (Frontier.visitAll ⟨reached,rest⟩ (next src)))
      exact ih (visitAll_nodup nodup) (pop_held inside held) (by omega)

theorem drain_closure {fuel : Nat} {seeds : List ν} {reachable : Finset ν} (inside : ∀ x ∈ reachable, ∀ y ∈ next x, y ∈ reachable)
    (seeded : ∀ x ∈ seeds, x ∈ reachable) (enough : reachable.card ≤ fuel) :
    ∃ reached, drain next fuel (Frontier.visitAll ⟨[],[]⟩ seeds) = some reached ∧
      ∀ x, x ∈ reached ↔ ∃ seed ∈ seeds, Reachable next seed x := by
  have growth := visitAll_growth (⟨[],[]⟩ : Frontier ν) seeds
  simp only [List.length_nil] at growth
  exact ⟨closure next fuel seeds,drain_expand fuel inside (visitAll_nodup List.nodup_nil) (start_held seeded) (by omega),
    fun x => mem_closure inside seeded enough⟩

-- Level by level: the whole frontier is expanded, oldest first, before what it
-- discovers.
def levels (next : ν → List ν) : Nat → Frontier ν → List ν
  | 0, s => s.reached
  | fuel + 1, s =>
    if s.pending.isEmpty then s.reached
    else levels next fuel (Frontier.visitAll ⟨s.reached,[]⟩ (s.pending.reverse.flatMap next))

theorem level_invariant {s : Frontier ν} (valid : Invariant next s) :
    Invariant next (Frontier.visitAll ⟨s.reached,[]⟩ (s.pending.reverse.flatMap next)) where
  nodup := visitAll_nodup valid.nodup
  expanded x found idle y edge := by
    rw [visitAll_reached] at found ⊢
    rw [visitAll_pending] at idle
    push Not at idle
    have already : x ∈ s.reached := found.elim (fun target => idle.2 target) id
    by_cases waiting : x ∈ s.pending
    · exact .inl (List.mem_flatMap.mpr ⟨x,List.mem_reverse.mpr waiting,edge⟩)
    · exact .inr (valid.expanded x already waiting y edge)

-- Every level but the last discovers something.
theorem levels_closed (fuel : Nat) {reachable : Finset ν} (inside : ∀ x ∈ reachable, ∀ y ∈ next x, y ∈ reachable)
    {s : Frontier ν} (valid : Invariant next s) (held : Held (· ∈ reachable) s)
    (enough : s.pending ≠ [] → reachable.card < fuel + s.reached.length) :
    (∀ x ∈ s.reached, x ∈ levels next fuel s) ∧ ∀ x ∈ levels next fuel s, ∀ y ∈ next x, y ∈ levels next fuel s := by
  induction fuel generalizing s with
  | zero =>
    have fits := length_le_card valid.nodup held.reached
    have empty : s.pending = [] := by
      by_contra waiting
      have short := enough waiting
      omega
    exact ⟨fun x member => member,fun x member => valid.expanded x member (by simp [empty])⟩
  | succ fuel ih =>
    rw [levels]
    split
    · next empty =>
      rw [List.isEmpty_iff] at empty
      exact ⟨fun x member => member,fun x member => valid.expanded x member (by simp [empty])⟩
    · next waiting =>
      rw [List.isEmpty_iff] at waiting
      have growth := visitAll_growth ⟨s.reached,[]⟩ (s.pending.reverse.flatMap next)
      have room := enough waiting
      simp only [List.length_nil, Nat.add_zero] at growth
      have result := ih (level_invariant valid) (level_held inside held) fun more => by
        have discovered := List.length_pos_iff.mpr more
        omega
      exact ⟨fun x member => result.1 x (visitAll_reached.mpr (.inr member)),result.2⟩

theorem levels_sound {holds : ν → Prop} (closed : ∀ x, holds x → ∀ y ∈ next x, holds y) {s : Frontier ν} (held : Held holds s) :
    ∀ x ∈ levels next fuel s, holds x := by
  induction fuel generalizing s with
  | zero => exact held.reached
  | succ fuel ih =>
    rw [levels]
    split
    · exact held.reached
    · exact ih (level_held closed held)

theorem mem_levels {reachable : Finset ν} (inside : ∀ x ∈ reachable, ∀ y ∈ next x, y ∈ reachable)
    (seeded : ∀ x ∈ seeds, x ∈ reachable) (enough : reachable.card < fuel) {x : ν} :
    x ∈ levels next fuel (Frontier.visitAll ⟨[],[]⟩ seeds) ↔ ∃ seed ∈ seeds, Reachable next seed x := by
  obtain ⟨kept,closed⟩ := levels_closed fuel inside (seeds_invariant seeds) (start_held seeded) fun _ => by omega
  exact mem_iff_reachable (fun x member => kept x (visitAll_reached.mpr (.inl member))) closed
    fun holds closed seeded => levels_sound closed (start_held seeded)

-- Depth-first, a node marked when it is popped: the order lists what was visited.
def depthFirst (next : ν → List ν) : Nat → List ν → List ν → Option (List ν)
  | _,[],order => some order
  | 0,_ :: _,_ => none
  | fuel + 1,x :: stack,order =>
    if x ∈ order then depthFirst next fuel stack order else depthFirst next fuel (next x ++ stack) (order ++ [x])

-- Each root, then what hangs under it, then the later roots; what was met before is passed over.
inductive Traversal (next : ν → List ν) : List ν → List ν → List ν → Prop
  | done : Traversal next order [] order
  | pass (met : x ∈ order) (rest : Traversal next order roots result) : Traversal next order (x :: roots) result
  | enter (fresh : x ∉ order) (under : Traversal next (order ++ [x]) (next x) middle) (rest : Traversal next middle roots result) :
      Traversal next order (x :: roots) result

namespace Traversal
variable {roots later order result : List ν}
omit [DecidableEq ν]

theorem split (walk : Traversal next order (roots ++ later) result) :
    ∃ middle, Traversal next order roots middle ∧ Traversal next middle later result := by
  induction roots generalizing order with
  | nil => exact ⟨order,.done,walk⟩
  | cons x roots ih =>
    cases walk with
    | pass met rest =>
      obtain ⟨middle,first,last⟩ := ih rest
      exact ⟨middle,.pass met first,last⟩
    | enter fresh under rest =>
      obtain ⟨middle,first,last⟩ := ih rest
      exact ⟨middle,.enter fresh under first,last⟩

theorem closes (walk : Traversal next order roots result) :
    order ⊆ result ∧ roots ⊆ result ∧ (order.Nodup → result.Nodup) ∧ ∀ x ∈ result, x ∈ order ∨ next x ⊆ result := by
  induction walk with
  | done => exact ⟨fun _ member => member,List.nil_subset _,id,fun _ => .inl⟩
  | pass => grind
  | @enter order x =>
    have apart : order.Nodup → x ∉ order → (order ++ [x]).Nodup := by grind
    grind

theorem sound {holds : ν → Prop} (walk : Traversal next order roots result) (closed : ∀ x, holds x → ∀ y ∈ next x, holds y)
    (seeded : ∀ x ∈ order ++ roots, holds x) : ∀ x ∈ result, holds x := by
  induction walk with
  | done => simpa using seeded
  | pass => grind
  | enter => grind

theorem exactly (walk : Traversal next [] roots result) :
    result.Nodup ∧ ∀ x, x ∈ result ↔ ∃ root ∈ roots, Reachable next root x := by
  obtain ⟨_,rooted,apart,closed⟩ := walk.closes
  exact ⟨apart .nil,fun x => mem_iff_reachable rooted (fun x member => (closed x member).resolve_left List.not_mem_nil)
    fun _ => walk.sound⟩

end Traversal

theorem depthFirst_traversal (ran : depthFirst next fuel roots order = some result) : Traversal next order roots result := by
  fun_induction depthFirst next fuel roots order with
  | case1 => exact Option.some.inj ran ▸ .done
  | case2 => cases ran
  | case3 fuel x stack order met ih => exact .pass met (ih ran)
  | case4 fuel x stack order fresh ih =>
    obtain ⟨middle,under,rest⟩ := (ih ran).split
    exact .enter fresh under rest

end BonsaiNinja.Library.Closure
