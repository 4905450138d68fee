import BonsaiNinja.Idg.TargetRelevance

namespace BonsaiNinja.Idg
open Library

namespace TargetRelevanceWorklist

def held (w : TargetRelevanceWorklist) : List DemandItem :=
  w.relevance.nodes.map .node ++ (w.relevance.facts.map (fun key => .fact key.1 key.2) ++
    w.relevance.wildcardBases.map .wildcard)

def waiting (w : TargetRelevanceWorklist) : List DemandItem :=
  w.pendingNodes.map .node ++ (w.pendingFacts.map (fun key => .fact key.1 key.2) ++
    w.pendingWildcardBases.map .wildcard)

def Admits (w : TargetRelevanceWorklist) (item : DemandItem) : Prop :=
  item ∈ w.held ∨ ∃ base field, item = .fact base field ∧ .wildcard base ∈ w.held

def popped (w : TargetRelevanceWorklist) : DemandItem → TargetRelevanceWorklist
  | .node node => { w with pendingNodes := w.pendingNodes.erase node }
  | .fact base field => { w with pendingFacts := w.pendingFacts.erase (base,field) }
  | .wildcard base => { w with pendingWildcardBases := w.pendingWildcardBases.erase base }

@[simp] theorem node_held {w : TargetRelevanceWorklist} {node : NodeId} : .node node ∈ w.held ↔ node ∈ w.relevance.nodes := by
  simp [held]

@[simp] theorem fact_held {w : TargetRelevanceWorklist} {base field : Nat} :
    .fact base field ∈ w.held ↔ (base,field) ∈ w.relevance.facts := by
  simp [held]

@[simp] theorem wildcard_held {w : TargetRelevanceWorklist} {base : Nat} :
    .wildcard base ∈ w.held ↔ base ∈ w.relevance.wildcardBases := by
  simp [held]

@[simp] theorem node_waiting {w : TargetRelevanceWorklist} {node : NodeId} : .node node ∈ w.waiting ↔ node ∈ w.pendingNodes := by
  simp [waiting]

@[simp] theorem fact_waiting {w : TargetRelevanceWorklist} {base field : Nat} :
    .fact base field ∈ w.waiting ↔ (base,field) ∈ w.pendingFacts := by
  simp [waiting]

@[simp] theorem wildcard_waiting {w : TargetRelevanceWorklist} {base : Nat} :
    .wildcard base ∈ w.waiting ↔ base ∈ w.pendingWildcardBases := by
  simp [waiting]

theorem containsNode_iff {relevance : IdgTargetRelevance} {node : NodeId} :
    relevance.containsNode node = true ↔ relevance.pruningComplete = false ∨ node ∈ relevance.nodes := by
  simp [IdgTargetRelevance.containsNode]

theorem containsFact_iff {relevance : IdgTargetRelevance} {base field : Nat} :
    relevance.containsFact base field = true ↔
      relevance.pruningComplete = false ∨ base ∈ relevance.wildcardBases ∨ (base,field) ∈ relevance.facts := by
  simp [IdgTargetRelevance.containsFact,or_assoc]

variable {w w' w'' : TargetRelevanceWorklist} {item other : DemandItem}

@[simp] theorem popped_held : (w.popped item).held = w.held := by cases item <;> rfl

theorem popped_waiting (pending : item ∈ w.waiting) : w.waiting.Perm (item :: (w.popped item).waiting) := by
  cases item with
  | node node =>
    have row := List.perm_cons_erase (node_waiting.mp pending)
    exact (row.map DemandItem.node).append_right _
  | fact base field =>
    have row := List.perm_cons_erase (fact_waiting.mp pending)
    have rows := (row.map fun key : Nat × Nat => DemandItem.fact key.1 key.2).append_right
      (w.pendingWildcardBases.map DemandItem.wildcard)
    exact (rows.append_left (w.pendingNodes.map DemandItem.node)).trans List.perm_middle
  | wildcard base =>
    have row := List.perm_cons_erase (wildcard_waiting.mp pending)
    have rows := ((row.map DemandItem.wildcard).append_left
      (w.pendingFacts.map fun key : Nat × Nat => DemandItem.fact key.1 key.2)).trans List.perm_middle
    exact (rows.append_left (w.pendingNodes.map DemandItem.node)).trans List.perm_middle

theorem enqueue_cases (w : TargetRelevanceWorklist) (item : DemandItem) :
    w.enqueue item = w ∧ w.Admits item ∨
      item ∉ w.held ∧ (w.enqueue item).held.Perm (item :: w.held) ∧ (w.enqueue item).waiting.Perm (item :: w.waiting) := by
  cases item with
  | node node =>
    simp only [enqueue, enqueueNode]
    split
    · next seen => exact .inl ⟨rfl,.inl (node_held.mpr seen)⟩
    · next fresh => exact .inr ⟨fresh ∘ node_held.mp,List.Perm.refl _,List.Perm.refl _⟩
  | fact base field =>
    simp only [enqueue, enqueueFact]
    split
    · next seen => exact .inl ⟨rfl,seen.elim (fun whole => .inr ⟨base,field,rfl,wildcard_held.mpr whole⟩)
        (.inl ∘ fact_held.mpr)⟩
    · next fresh => exact .inr ⟨fun seen => fresh (.inr (fact_held.mp seen)),List.perm_middle,List.perm_middle⟩
  | wildcard base =>
    simp only [enqueue, enqueueWildcardBase]
    split
    · next seen => exact .inl ⟨rfl,.inl (wildcard_held.mpr seen)⟩
    · next fresh =>
      refine .inr ⟨fresh ∘ wildcard_held.mp,?_,?_⟩
      · exact (List.perm_middle.append_left _).trans List.perm_middle
      · exact (List.perm_middle.append_left _).trans List.perm_middle

theorem enqueue_flags (w : TargetRelevanceWorklist) (item : DemandItem) :
    (w.enqueue item).relevance.pruningComplete = w.relevance.pruningComplete ∧ (w.enqueue item).activeFuncs = w.activeFuncs := by
  cases item <;> simp only [enqueue, enqueueNode, enqueueFact, enqueueWildcardBase] <;> split <;> exact ⟨rfl,rfl⟩

structure Grows (w w' : TargetRelevanceWorklist) : Prop where
  complete : w'.relevance.pruningComplete = w.relevance.pruningComplete
  held : w.held ⊆ w'.held
  waiting : w.waiting ⊆ w'.waiting
  queued : ∀ item ∈ w'.held, item ∈ w.held ∨ item ∈ w'.waiting
  known : ∀ item ∈ w'.waiting, item ∈ w.waiting ∨ item ∈ w'.held
  active : ∀ func, w.activeFuncs.admits func = true → w'.activeFuncs.admits func = true
  rootless : w.activeFuncs = none → w'.activeFuncs = none
  distinct : w.held.Nodup → w'.held.Nodup
  balance : w'.held.length + w.waiting.length = w.held.length + w'.waiting.length

theorem Grows.refl (w : TargetRelevanceWorklist) : Grows w w :=
  ⟨rfl,List.Subset.refl _,List.Subset.refl _,fun _ => .inl,fun _ => .inl,fun _ => id,id,id,rfl⟩

theorem Grows.trans (first : Grows w w') (second : Grows w' w'') : Grows w w'' where
  complete := second.complete.trans first.complete
  held := List.Subset.trans first.held second.held
  waiting := List.Subset.trans first.waiting second.waiting
  queued item held := (second.queued item held).elim (fun early => (first.queued item early).imp id (second.waiting ·)) .inr
  known item waits := (second.known item waits).elim (fun early => (first.known item early).imp id (second.held ·)) .inr
  active func := second.active func ∘ first.active func
  rootless := second.rootless ∘ first.rootless
  distinct := second.distinct ∘ first.distinct
  balance := by have := first.balance; have := second.balance; omega

theorem Grows.admits (grows : Grows w w') (admitted : w.Admits item) : w'.Admits item := by
  rcases admitted with held | ⟨base,field,same,whole⟩
  · exact .inl (grows.held held)
  · exact .inr ⟨base,field,same,grows.held whole⟩

theorem enqueue_grows (w : TargetRelevanceWorklist) (item : DemandItem) : Grows w (w.enqueue item) := by
  have flags := enqueue_flags w item
  rcases enqueue_cases w item with ⟨same,_⟩ | ⟨fresh,held,waiting⟩
  · rw [same]
    exact .refl w
  · exact {
      complete := flags.1
      held := fun x member => held.symm.subset (List.mem_cons_of_mem _ member)
      waiting := fun x member => waiting.symm.subset (List.mem_cons_of_mem _ member)
      queued := fun x member => by
        rcases List.mem_cons.mp (held.subset member) with rfl | early
        · exact .inr (waiting.symm.subset List.mem_cons_self)
        · exact .inl early
      known := fun x member => by
        rcases List.mem_cons.mp (waiting.subset member) with rfl | early
        · exact .inr (held.symm.subset List.mem_cons_self)
        · exact .inl early
      active := fun func active => flags.2 ▸ active
      rootless := fun rootless => flags.2.trans rootless
      distinct := fun distinct => held.nodup_iff.mpr (List.nodup_cons.mpr ⟨fresh,distinct⟩)
      balance := by
        have := held.length_eq
        have := waiting.length_eq
        simp only [List.length_cons] at *
        omega }

theorem enqueue_admits (w : TargetRelevanceWorklist) (item : DemandItem) : (w.enqueue item).Admits item := by
  rcases enqueue_cases w item with ⟨same,admitted⟩ | ⟨_,held,_⟩
  · rw [same]
    exact admitted
  · exact .inl (held.symm.subset List.mem_cons_self)

theorem activate_grows (w : TargetRelevanceWorklist) (func : FuncId) : Grows w (w.activate func) where
  complete := rfl
  held := List.Subset.refl _
  waiting := List.Subset.refl _
  queued _ := .inl
  known _ := .inl
  active other active := by
    cases funcs : w.activeFuncs with
    | none => simp [activate,funcs,FuncScope.admits]
    | some known =>
      simp only [funcs, FuncScope.admits, List.contains_iff_mem] at active
      simp [activate,funcs,FuncScope.admits,List.mem_insert_iff,active]
  rootless rootless := by simp [activate,rootless]
  distinct := id
  balance := rfl

theorem hasPending_iff : w.hasPending = true ↔ w.waiting ≠ [] := by
  simp only [hasPending, waiting, Bool.or_eq_true, Bool.not_eq_true', List.isEmpty_eq_false_iff, ne_eq, List.append_eq_nil_iff,
    List.map_eq_nil_iff, not_and_or, or_assoc]

end TargetRelevanceWorklist

namespace QueryRuntimes
open TargetRelevanceWorklist
variable {runtimes : QueryRuntimes} {allowed : FuncScope} {w w' start : TargetRelevanceWorklist} {item other : DemandItem}
  {spared : DemandItem → Prop}

def Passes (allowed : FuncScope) (demand : Demand) : Prop :=
  match demand.gate with
  | .always => True
  | .inside func | .provides func => func.any allowed.admits = true

-- The demand is refused only because its function is not active yet.
def TurnsAway (allowed : FuncScope) (w : TargetRelevanceWorklist) (demand : Demand) : Prop :=
  ∃ func, demand.gate = .inside (some func) ∧ allowed.admits func = true ∧ w.activeFuncs.admits func = false ∧
    ¬w.Admits demand.item

theorem visitDemand_grows (allowed : FuncScope) (w : TargetRelevanceWorklist) (demand : Demand) : Grows w (visitDemand allowed w demand) := by
  unfold visitDemand
  split
  · exact enqueue_grows w demand.item
  · split
    · exact enqueue_grows w demand.item
    · exact .refl w
  · exact .refl w
  · split
    · exact (activate_grows w _).trans (enqueue_grows _ demand.item)
    · exact .refl w

theorem visitDemand_admits {demand : Demand} (passes : Passes allowed demand) (kept : ¬TurnsAway allowed w demand) :
    (visitDemand allowed w demand).Admits demand.item := by
  unfold Passes at passes
  unfold visitDemand
  cases gate : demand.gate with
  | always => exact enqueue_admits w demand.item
  | inside func =>
    rw [gate] at passes
    obtain ⟨func,rfl,admits⟩ := (Option.any_eq_true ..).mp passes
    simp only [Option.any_some, admits, Bool.true_and]
    cases active : w.activeFuncs.admits func with
    | true => exact enqueue_admits w demand.item
    | false =>
      by_contra refused
      exact kept ⟨func,gate,admits,active,refused⟩
  | provides func =>
    rw [gate] at passes
    obtain ⟨func,rfl,admits⟩ := (Option.any_eq_true ..).mp passes
    simp only [admits, if_true]
    exact enqueue_admits (w.activate func) demand.item

theorem visitDemands_grows (allowed : FuncScope) (demands : List Demand) (w : TargetRelevanceWorklist) :
    Grows w (demands.foldl (visitDemand allowed) w) := by
  induction demands generalizing w with
  | nil => exact .refl w
  | cons demand rest ih => exact (visitDemand_grows allowed w demand).trans (ih _)

def NoneTurnedAway (allowed : FuncScope) (spared : DemandItem → Prop) : TargetRelevanceWorklist → List Demand → Prop
  | _, [] => True
  | w, demand :: rest => (spared demand.item → ¬TurnsAway allowed w demand) ∧
      NoneTurnedAway allowed spared (visitDemand allowed w demand) rest

theorem visitDemands_admits {demands : List Demand} (kept : NoneTurnedAway allowed spared w demands)
    {demand : Demand} (member : demand ∈ demands) (passes : Passes allowed demand) (spare : spared demand.item) :
    (demands.foldl (visitDemand allowed) w).Admits demand.item := by
  induction demands generalizing w with
  | nil => cases member
  | cons first rest ih =>
    rcases List.mem_cons.mp member with rfl | later
    · exact (visitDemands_grows allowed rest _).admits (visitDemand_admits passes (kept.1 spare))
    · exact ih kept.2 later

-- Without a source root nothing is ever turned away.
theorem noneTurnedAway_unrooted (rootless : w.activeFuncs = none) (spared : DemandItem → Prop) (demands : List Demand) :
    NoneTurnedAway allowed spared w demands := by
  induction demands generalizing w with
  | nil => trivial
  | cons demand rest ih =>
    refine ⟨fun _ turned => ?_,ih ((visitDemand_grows allowed w demand).rootless rootless)⟩
    obtain ⟨func,_,_,inactive,_⟩ := turned
    rw [rootless] at inactive
    cases inactive

def popDemand (runtimes : QueryRuntimes) (allowed : FuncScope) (item : DemandItem) (w : TargetRelevanceWorklist) :
    TargetRelevanceWorklist :=
  runtimes.expandDemand allowed (w.popped item) item

def visitDemands (runtimes : QueryRuntimes) (allowed : FuncScope) (item : DemandItem) (w : TargetRelevanceWorklist) :
    TargetRelevanceWorklist :=
  (runtimes.demandsOf item).foldl (visitDemand allowed) w

theorem expandDemand_eq (runtimes : QueryRuntimes) (allowed : FuncScope) (w : TargetRelevanceWorklist) (item : DemandItem) :
    runtimes.expandDemand allowed w item = runtimes.visitDemands allowed item w ∨
      runtimes.expandDemand allowed w item = (runtimes.visitDemands allowed item w).giveUp := by
  cases item with
  | node node =>
    simp only [expandDemand]
    split
    · exact .inr rfl
    · exact .inl rfl
  | fact base field => exact .inl rfl
  | wildcard base => exact .inl rfl

theorem popDemand_lists (runtimes : QueryRuntimes) (allowed : FuncScope) (w : TargetRelevanceWorklist) (item : DemandItem) :
    (runtimes.popDemand allowed item w).held = (runtimes.visitDemands allowed item (w.popped item)).held ∧
      (runtimes.popDemand allowed item w).waiting = (runtimes.visitDemands allowed item (w.popped item)).waiting := by
  rw [popDemand]
  rcases expandDemand_eq runtimes allowed (w.popped item) item with same | same
  · rw [same]
    exact ⟨rfl,rfl⟩
  · rw [same]
    exact ⟨rfl,rfl⟩

theorem expandDemand_gaveUp {node : NodeId} (lacks : runtimes.lacksInverse node = true) :
    (runtimes.expandDemand allowed w (.node node)).relevance.pruningComplete = false := by
  simp only [expandDemand, lacks, if_true]
  rfl

def DemandStep (runtimes : QueryRuntimes) (allowed : FuncScope) (spared : DemandItem → Prop) (w w' : TargetRelevanceWorklist) :
    Prop :=
  w.relevance.pruningComplete = true ∧ ∃ item ∈ w.waiting,
    NoneTurnedAway allowed spared (w.popped item) (runtimes.demandsOf item) ∧ w' = runtimes.popDemand allowed item w

abbrev DemandRuns (runtimes : QueryRuntimes) (allowed : FuncScope) (spared : DemandItem → Prop) :
    TargetRelevanceWorklist → TargetRelevanceWorklist → Prop :=
  Relation.ReflTransGen (runtimes.DemandStep allowed spared)

structure Settled (runtimes : QueryRuntimes) (allowed : FuncScope) (spared : DemandItem → Prop)
    (w : TargetRelevanceWorklist) : Prop where
  pending : w.waiting ⊆ w.held
  demanded : ∀ item ∈ w.held, item ∉ w.waiting → ∀ demand ∈ runtimes.demandsOf item, Passes allowed demand →
    spared demand.item → w.Admits demand.item
  inverted : w.relevance.pruningComplete = true → ∀ node, .node node ∈ w.held → .node node ∉ w.waiting →
    runtimes.lacksInverse node = false

theorem visited_done (pending : item ∈ w.waiting)
    (held : other ∈ (runtimes.visitDemands allowed item (w.popped item)).held)
    (idle : other ∉ (runtimes.visitDemands allowed item (w.popped item)).waiting) :
    other = item ∨ other ∈ w.held ∧ other ∉ w.waiting := by
  have grows : Grows (w.popped item) (runtimes.visitDemands allowed item (w.popped item)) := visitDemands_grows allowed _ _
  have early : other ∈ w.held := by
    rcases grows.queued other held with early | waits
    · rwa [popped_held] at early
    · exact absurd waits idle
  by_cases same : other = item
  · exact .inl same
  · refine .inr ⟨early,fun waits => idle (grows.waiting ?_)⟩
    exact (List.mem_cons.mp ((popped_waiting pending).subset waits)).resolve_left same

theorem visited_demanded (settled : runtimes.Settled allowed spared w)
    (kept : NoneTurnedAway allowed spared (w.popped item) (runtimes.demandsOf item))
    (done : other = item ∨ other ∈ w.held ∧ other ∉ w.waiting) {demand : Demand} (member : demand ∈ runtimes.demandsOf other)
    (passes : Passes allowed demand) (spare : spared demand.item) :
    (runtimes.visitDemands allowed item (w.popped item)).Admits demand.item := by
  rcases done with rfl | ⟨early,idle⟩
  · exact visitDemands_admits kept member passes spare
  · refine (visitDemands_grows allowed _ _).admits ?_
    have admitted := settled.demanded other early idle demand member passes spare
    unfold Admits at admitted ⊢
    rwa [popped_held]

theorem popDemand_settled (settled : runtimes.Settled allowed spared w)
    (complete : w.relevance.pruningComplete = true) (pending : item ∈ w.waiting)
    (kept : NoneTurnedAway allowed spared (w.popped item) (runtimes.demandsOf item)) :
    runtimes.Settled allowed spared (runtimes.popDemand allowed item w) := by
  obtain ⟨sameHeld,sameWaiting⟩ := popDemand_lists runtimes allowed w item
  have grows : Grows (w.popped item) (runtimes.visitDemands allowed item (w.popped item)) := visitDemands_grows allowed _ _
  refine ⟨?_,?_,?_⟩
  · rw [sameHeld, sameWaiting]
    intro other waits
    rcases grows.known other waits with early | held
    · have earlier : other ∈ w.held := settled.pending ((popped_waiting pending).symm.subset (List.mem_cons_of_mem _ early))
      exact grows.held (by rwa [popped_held])
    · exact held
  · intro other held idle demand member passes spare
    rw [sameHeld] at held
    rw [sameWaiting] at idle
    have admitted := visited_demanded settled kept (visited_done pending held idle) member passes spare
    unfold Admits at admitted ⊢
    rwa [sameHeld]
  · intro stillComplete node held idle
    rw [sameHeld] at held
    rw [sameWaiting] at idle
    rcases visited_done pending held idle with rfl | ⟨early,done⟩
    · rw [Bool.eq_false_iff]
      intro lacks
      rw [popDemand, expandDemand_gaveUp lacks] at stillComplete
      cases stillComplete
    · exact settled.inverted complete node early done

theorem runs_settled (run : runtimes.DemandRuns allowed spared start w)
    (settled : runtimes.Settled allowed spared start) : runtimes.Settled allowed spared w := by
  induction run with
  | refl => exact settled
  | tail _ step previous =>
    obtain ⟨complete,item,pending,kept,rfl⟩ := step
    exact popDemand_settled previous complete pending kept

end QueryRuntimes

end BonsaiNinja.Idg
