import BonsaiNinja.Idg.TargetRuns

namespace BonsaiNinja.Idg
open Library

namespace QueryRuntimes
open TargetRelevanceWorklist
variable {runtimes : QueryRuntimes} {allowed : FuncScope} {w w' : TargetRelevanceWorklist} {item other : DemandItem}
  {spared : DemandItem → Prop}
variable {node : NodeId} {base : Nat} {demand : Demand} {targetNodes : List NodeId} {targetFuncs : List FuncId}
  {sourceRoot : Option FuncId}

def demandable (runtimes : QueryRuntimes) : List DemandItem :=
  runtimes.demandableNodes.map .node ++
    ((runtimes.demandableBases ×ˢ runtimes.demandableFields).map (fun key => .fact key.1 key.2) ++
      runtimes.demandableBases.map .wildcard)

theorem demandable_length : runtimes.demandable.length = runtimes.relevanceFuel := by
  simp only [demandable, relevanceFuel, List.length_append, List.length_map, List.length_product]
  omega

@[simp] theorem node_demandable {node : NodeId} : .node node ∈ runtimes.demandable ↔ node < runtimes.unified.nodeCount := by
  simp [demandable,demandableNodes]

@[simp] theorem fact_demandable {base field : Nat} : .fact base field ∈ runtimes.demandable ↔
    base ∈ runtimes.demandableBases ∧ field ∈ runtimes.demandableFields := by
  simp [demandable]

@[simp] theorem wildcard_demandable {base : Nat} : .wildcard base ∈ runtimes.demandable ↔ base ∈ runtimes.demandableBases := by
  simp [demandable]

theorem passes_owned {gate : DemandGate}
    (owner : gate = .inside (runtimes.unified.wsNodeFunc node) ∨ gate = .provides (runtimes.unified.wsNodeFunc node))
    (passes : Passes allowed ⟨.node node,gate⟩) : .node node ∈ runtimes.demandable := by
  refine node_demandable.mpr (UnifiedAddressSpace.wsNodeFunc_isSome.mp ?_)
  rcases owner with rfl | rfl
  · exact ((Option.any_eq_true ..).mp passes).imp fun _ found => found.1
  · exact ((Option.any_eq_true ..).mp passes).imp fun _ found => found.1

theorem insideNode_demandable (passes : Passes allowed (runtimes.insideNode node)) :
    (runtimes.insideNode node).item ∈ runtimes.demandable := passes_owned (.inl rfl) passes

theorem providingNode_demandable (passes : Passes allowed (runtimes.providingNode node)) :
    (runtimes.providingNode node).item ∈ runtimes.demandable := passes_owned (.inr rfl) passes

theorem rebase_demandable {rebase : SymbolicBaseRebase} (row : rebase ∈ runtimes.runtime.baseRebases.get base) :
    rebase.target ∈ runtimes.demandableBases := by
  simp only [demandableBases, List.mem_append, List.mem_map]
  exact .inl (.inl (.inl (.inl ⟨(base,rebase),GroupedRows.mem_get.mp row,rfl⟩)))

theorem field_demandable {name : Text} {field : Nat} (known : runtimes.runtime.fieldId name = some field) :
    field ∈ runtimes.demandableFields := by
  obtain ⟨inside,_⟩ := List.findIdx?_eq_some_iff_getElem.mp known
  exact List.mem_append_left _ (List.mem_range.mpr inside)

theorem rebased_demandable {rebase : SymbolicBaseRebase} {field field' : Nat}
    (known : runtimes.runtime.rebasedField rebase field = some field') : field' ∈ runtimes.demandableFields := by
  simp only [SymbolicRuntimeIndex.rebasedField, Option.bind_eq_bind, Option.bind_eq_some_iff] at known
  obtain ⟨lead,_,name,_,found⟩ := known
  cases kind : rebase.kind with
  | prependPrefix =>
    simp only [kind] at found
    split at found
    · cases found
    · exact field_demandable found
  | stripPrefix =>
    simp only [kind] at found
    split at found
    · exact field_demandable found
    · cases found

theorem transform_demandable {row : ReverseSymbolicTransform} (incoming : row ∈ runtimes.runtime.incoming base) :
    row.source ∈ runtimes.demandableBases := by
  simp only [demandableBases, List.mem_append, List.mem_map]
  exact .inl (.inr ⟨row,List.mem_of_mem_filter incoming,rfl⟩)

theorem template_demandable {fact : SymbolicFactIdentity}
    (introduced : fact ∈ runtimes.runtime.symbolicFactsForNode runtimes.unified node) :
    fact.base ∈ runtimes.demandableBases ∧ fact.field ∈ runtimes.demandableFields := by
  unfold SymbolicRuntimeIndex.symbolicFactsForNode at introduced
  split at introduced
  · cases introduced
  · next segmentId localNode _ =>
    split at introduced
    · cases introduced
    · next page found =>
      obtain ⟨template,member,rfl⟩ := List.mem_map.mp introduced
      have inPage : template ∈ page.flatten := by
        have row : template ∈ page[localNode]?.getD [] := by rwa [← List.getD_eq_getElem?_getD]
        cases entry : page[localNode]? with
        | none => simp [entry] at row
        | some templates =>
          rw [entry] at row
          exact List.mem_flatten.mpr ⟨templates,List.mem_of_getElem? entry,row⟩
      have entry := AList.mem_lookup_iff.mp found
      refine ⟨?_,List.mem_append_right _ (List.mem_flatMap.mpr ⟨_,entry,List.mem_map.mpr ⟨template,inPage,rfl⟩⟩)⟩
      simp only [demandableBases, List.mem_append]
      exact .inl (.inl (.inl (.inr (List.mem_flatMap.mpr ⟨_,entry,List.mem_map.mpr ⟨template,inPage,rfl⟩⟩))))

theorem storageRead_demandable (read : runtimes.runtime.storageReadBase node = some base) :
    base ∈ runtimes.demandableBases := by
  have row : (node,base) ∈ runtimes.runtime.storageReads := mem_of_lookup read
  simp only [demandableBases, List.mem_append, List.mem_map]
  exact .inl (.inl (.inr ⟨_,row,rfl⟩))

theorem scalarDemand_demandable (member : demand ∈ runtimes.scalarDemands node) :
    demand.item ∈ runtimes.demandable := by
  unfold scalarDemands at member
  split at member
  · cases member
  · split at member
    · cases member
    · obtain ⟨row,incoming,made⟩ := List.mem_filterMap.mp member
      simp only [Option.map_eq_some_iff, Option.bind_eq_some_iff] at made
      obtain ⟨field,⟨name,_,known⟩,rfl⟩ := made
      refine fact_demandable.mpr ⟨?_,field_demandable known⟩
      exact List.mem_append_right _ (List.mem_map.mpr ⟨row,List.mem_of_mem_filter incoming,rfl⟩)

theorem demandsOf_demandable (inside : item ∈ runtimes.demandable) (member : demand ∈ runtimes.demandsOf item)
    (passes : Passes allowed demand) : demand.item ∈ runtimes.demandable := by
  cases item with
  | node node =>
    simp only [demandsOf, nodeDemands, List.mem_append, List.mem_map] at member
    rcases member with ((((((⟨_,_,rfl⟩ | ⟨_,_,rfl⟩) | ⟨_,_,rfl⟩) | ⟨_,_,rfl⟩) | ⟨_,_,rfl⟩) | ⟨fact,introduced,rfl⟩) |
      ⟨base,read,rfl⟩) | scalar
    · exact insideNode_demandable passes
    · exact providingNode_demandable passes
    · exact insideNode_demandable passes
    · exact providingNode_demandable passes
    · exact insideNode_demandable passes
    · exact fact_demandable.mpr (template_demandable introduced)
    · exact wildcard_demandable.mpr (storageRead_demandable (Option.mem_toList.mp read))
    · exact scalarDemand_demandable scalar
  | fact base field =>
    simp only [demandsOf, factDemands, List.mem_append, List.mem_map, List.mem_filterMap, Option.map_eq_some_iff] at member
    rcases member with (⟨rebase,row,_,known,rfl⟩ | ⟨_,_,rfl⟩) | ⟨row,incoming,rfl⟩
    · exact fact_demandable.mpr ⟨rebase_demandable row,rebased_demandable known⟩
    · exact insideNode_demandable passes
    · exact fact_demandable.mpr ⟨transform_demandable incoming,(fact_demandable.mp inside).2⟩
  | wildcard base =>
    simp only [demandsOf, wildcardDemands, List.mem_append, List.mem_map] at member
    rcases member with (⟨rebase,row,rfl⟩ | ⟨_,_,rfl⟩) | ⟨row,incoming,rfl⟩
    · exact wildcard_demandable.mpr (rebase_demandable row)
    · exact insideNode_demandable passes
    · exact wildcard_demandable.mpr (transform_demandable incoming)

theorem visitDemand_held (member : other ∈ (visitDemand allowed w demand).held) :
    other ∈ w.held ∨ other = demand.item ∧ Passes allowed demand := by
  have enqueued : ∀ v : TargetRelevanceWorklist, v.held = w.held → other ∈ (v.enqueue demand.item).held →
      other ∈ w.held ∨ other = demand.item := by
    intro v same member
    rcases enqueue_cases v demand.item with ⟨unchanged,_⟩ | ⟨_,added,_⟩
    · exact .inl (same ▸ unchanged ▸ member)
    · exact (List.mem_cons.mp (added.subset member)).symm.imp (same ▸ ·) id
  unfold visitDemand at member
  unfold Passes
  split at member
  · next gate => rw [gate]; exact (enqueued w rfl member).imp id fun same => ⟨same,trivial⟩
  · next func gate =>
    rw [gate]
    split at member
    · next active =>
      obtain ⟨func,rfl,both⟩ := (Option.any_eq_true ..).mp active
      simp only [Bool.and_eq_true] at both
      exact (enqueued w rfl member).imp id fun same => ⟨same,both.1⟩
    · exact .inl member
  · exact .inl member
  · next func gate =>
    rw [gate]
    split at member
    · next allows => exact (enqueued (w.activate func) rfl member).imp id fun same => ⟨same,allows⟩
    · exact .inl member

theorem visitDemands_held {demands : List Demand} (member : other ∈ (demands.foldl (visitDemand allowed) w).held) :
    other ∈ w.held ∨ ∃ demand ∈ demands, other = demand.item ∧ Passes allowed demand := by
  induction demands generalizing w with
  | nil => exact .inl member
  | cons demand rest ih =>
    rcases ih member with early | ⟨later,inRest,made⟩
    · rcases visitDemand_held early with earlier | made
      · exact .inl earlier
      · exact .inr ⟨demand,List.mem_cons_self,made⟩
    · exact .inr ⟨later,List.mem_cons_of_mem _ inRest,made⟩

structure Demanding (runtimes : QueryRuntimes) (w : TargetRelevanceWorklist) : Prop where
  pending : w.waiting ⊆ w.held
  inside : w.held ⊆ runtimes.demandable
  distinct : w.held.Nodup

theorem Demanding.size (valid : runtimes.Demanding w) : w.held.length ≤ runtimes.relevanceFuel := by
  rw [← demandable_length]
  exact (valid.distinct.subperm valid.inside).length_le

def demandsLeft (runtimes : QueryRuntimes) (w : TargetRelevanceWorklist) : Nat :=
  runtimes.relevanceFuel - w.held.length + w.waiting.length

theorem popDemand_demanding (allowed : FuncScope) (valid : runtimes.Demanding w) (waits : item ∈ w.waiting) :
    runtimes.Demanding (runtimes.popDemand allowed item w) ∧
      runtimes.demandsLeft (runtimes.popDemand allowed item w) < runtimes.demandsLeft w := by
  obtain ⟨sameHeld,sameWaiting⟩ := popDemand_lists runtimes allowed w item
  have grows : Grows (w.popped item) (runtimes.visitDemands allowed item (w.popped item)) := visitDemands_grows allowed _ _
  have left := popped_waiting waits
  have next : runtimes.Demanding (runtimes.popDemand allowed item w) := by
    refine ⟨?_,?_,?_⟩
    · rw [sameHeld, sameWaiting]
      intro other pending
      rcases grows.known other pending with early | held
      · have earlier : other ∈ w.held := valid.pending (left.symm.subset (List.mem_cons_of_mem _ early))
        exact grows.held (by rwa [popped_held])
      · exact held
    · rw [sameHeld]
      intro other held
      rcases visitDemands_held held with early | ⟨demand,member,rfl,passes⟩
      · exact valid.inside (by rwa [popped_held] at early)
      · exact demandsOf_demandable (valid.inside (valid.pending waits)) member passes
    · rw [sameHeld]
      exact grows.distinct (by rw [popped_held]; exact valid.distinct)
  refine ⟨next,?_⟩
  have later := next.size
  have now := valid.size
  have balance := grows.balance
  have shorter := left.length_eq
  rw [popped_held] at balance
  rw [sameHeld] at later
  simp only [demandsLeft, sameHeld, sameWaiting, List.length_cons] at *
  omega

theorem seedRelevance_demanding :
    runtimes.Demanding (runtimes.seedRelevance allowed targetNodes targetFuncs sourceRoot) := by
  have grows : Grows (.new sourceRoot) (runtimes.seedRelevance allowed targetNodes targetFuncs sourceRoot) :=
    visitDemands_grows allowed _ _
  refine ⟨fun item waits => ?_,fun item held => ?_,grows.distinct List.nodup_nil⟩
  · exact (grows.known item waits).elim (fun early => absurd early List.not_mem_nil) id
  · rcases visitDemands_held held with early | ⟨demand,member,rfl,passes⟩
    · exact absurd early List.not_mem_nil
    · simp only [targetDemands, List.mem_append, List.mem_map, List.mem_flatMap] at member
      rcases member with ⟨node,_,rfl⟩ | ⟨func,_,node,owned,rfl⟩
      · exact insideNode_demandable passes
      · unfold UnifiedAddressSpace.nodesByFunc at owned
        split at owned
        · simp only [Option.getD_some, List.mem_filter, List.mem_range] at owned
          rw [node_demandable, UnifiedAddressSpace.nodeCount, ← runtimes.unified.sized]
          exact owned.1
        · cases owned

theorem seedRelevance_settled :
    runtimes.Settled allowed spared (runtimes.seedRelevance allowed targetNodes targetFuncs sourceRoot) := by
  have grows : Grows (.new sourceRoot) (runtimes.seedRelevance allowed targetNodes targetFuncs sourceRoot) :=
    visitDemands_grows allowed _ _
  have queued : ∀ item ∈ (runtimes.seedRelevance allowed targetNodes targetFuncs sourceRoot).held,
      item ∈ (runtimes.seedRelevance allowed targetNodes targetFuncs sourceRoot).waiting := fun item held =>
    (grows.queued item held).elim (fun early => absurd early List.not_mem_nil) id
  exact ⟨seedRelevance_demanding.pending,fun item held idle => absurd (queued item held) idle,
    fun _ node held idle => absurd (queued _ held) idle⟩

def Finished (w : TargetRelevanceWorklist) : Prop := w.relevance.pruningComplete = false ∨ w.waiting = []

abbrev AnyRuns (runtimes : QueryRuntimes) (allowed : FuncScope) : TargetRelevanceWorklist → TargetRelevanceWorklist → Prop :=
  runtimes.DemandRuns allowed fun _ => False

theorem noneTurnedAway_none (w : TargetRelevanceWorklist) (demands : List Demand) :
    NoneTurnedAway allowed (fun _ => False) w demands := by
  induction demands generalizing w with
  | nil => trivial
  | cons demand rest ih => exact ⟨False.elim,ih _⟩

theorem any_step (complete : w.relevance.pruningComplete = true) (waits : item ∈ w.waiting) :
    runtimes.AnyRuns allowed w (runtimes.popDemand allowed item w) :=
  .single ⟨complete,item,waits,noneTurnedAway_none _ _,rfl⟩

def PopsOne (runtimes : QueryRuntimes) (allowed : FuncScope) (w w' : TargetRelevanceWorklist) : Prop :=
  w' = w ∨ ∃ item ∈ w.waiting, w' = runtimes.popDemand allowed item w

theorem PopsOne.demanding (pops : runtimes.PopsOne allowed w w') (valid : runtimes.Demanding w) :
    runtimes.Demanding w' ∧ runtimes.demandsLeft w' ≤ runtimes.demandsLeft w := by
  rcases pops with rfl | ⟨item,waits,rfl⟩
  · exact ⟨valid,Nat.le_refl _⟩
  · have next := popDemand_demanding allowed valid waits
    exact ⟨next.1,Nat.le_of_lt next.2⟩

section
variable (runtimes : QueryRuntimes) (allowed : FuncScope) (w : TargetRelevanceWorklist)

theorem nextDemandNode_cases :
    runtimes.nextDemandNode allowed w = w ∧ w.pendingNodes = [] ∨
      ∃ item ∈ w.waiting, runtimes.nextDemandNode allowed w = runtimes.popDemand allowed item w := by
  cases queue : w.pendingNodes with
  | nil => exact .inl ⟨by simp only [nextDemandNode, queue],rfl⟩
  | cons node rest =>
    refine .inr ⟨.node node,node_waiting.mpr (by simp [queue]),?_⟩
    simp only [nextDemandNode, queue, popDemand, popped, List.erase_cons_head]

theorem nextDemandFact_cases :
    runtimes.nextDemandFact allowed w = w ∧ w.pendingFacts = [] ∨
      ∃ item ∈ w.waiting, runtimes.nextDemandFact allowed w = runtimes.popDemand allowed item w := by
  cases queue : w.pendingFacts with
  | nil => exact .inl ⟨by simp only [nextDemandFact, queue],rfl⟩
  | cons key rest =>
    refine .inr ⟨.fact key.1 key.2,fact_waiting.mpr (by simp [queue]),?_⟩
    simp only [nextDemandFact, queue, popDemand, popped, List.erase_cons_head]

theorem nextDemandBase_cases :
    runtimes.nextDemandBase allowed w = w ∧ w.pendingWildcardBases = [] ∨
      ∃ item ∈ w.waiting, runtimes.nextDemandBase allowed w = runtimes.popDemand allowed item w := by
  cases queue : w.pendingWildcardBases with
  | nil => exact .inl ⟨by simp only [nextDemandBase, queue],rfl⟩
  | cons base rest =>
    refine .inr ⟨.wildcard base,wildcard_waiting.mpr (by simp [queue]),?_⟩
    simp only [nextDemandBase, queue, popDemand, popped, List.erase_cons_head]

theorem nextDemandNode_pops :
    runtimes.PopsOne allowed w (runtimes.nextDemandNode allowed w) :=
  (nextDemandNode_cases runtimes allowed w).imp And.left id

theorem nextDemandFact_pops :
    runtimes.PopsOne allowed w (runtimes.nextDemandFact allowed w) :=
  (nextDemandFact_cases runtimes allowed w).imp And.left id

theorem nextDemandBase_pops :
    runtimes.PopsOne allowed w (runtimes.nextDemandBase allowed w) :=
  (nextDemandBase_cases runtimes allowed w).imp And.left id

end

def relevanceRound (runtimes : QueryRuntimes) (allowed : FuncScope) (w : TargetRelevanceWorklist) : TargetRelevanceWorklist :=
  runtimes.nextDemandBase allowed (runtimes.nextDemandFact allowed (runtimes.nextDemandNode allowed w))

-- A round with something pending uses up a demand.
theorem round_demandsLeft (allowed : FuncScope) (valid : runtimes.Demanding w) (busy : w.hasPending = true) :
    runtimes.Demanding (runtimes.relevanceRound allowed w) ∧
      runtimes.demandsLeft (runtimes.relevanceRound allowed w) < runtimes.demandsLeft w := by
  have first := (nextDemandNode_pops runtimes allowed w).demanding valid
  have second := (nextDemandFact_pops runtimes allowed (runtimes.nextDemandNode allowed w)).demanding first.1
  have third := (nextDemandBase_pops runtimes allowed
    (runtimes.nextDemandFact allowed (runtimes.nextDemandNode allowed w))).demanding second.1
  refine ⟨third.1,?_⟩
  unfold relevanceRound
  rcases nextDemandNode_cases runtimes allowed w with ⟨same,noNodes⟩ | ⟨item,waits,pops⟩
  · rw [same] at second third ⊢
    rcases nextDemandFact_cases runtimes allowed w with ⟨same,noFacts⟩ | ⟨item,waits,pops⟩
    · rw [same] at third ⊢
      rcases nextDemandBase_cases runtimes allowed w with ⟨_,noBases⟩ | ⟨item,waits,pops⟩
      · simp [hasPending,noNodes,noFacts,noBases] at busy
      · rw [pops]
        exact (popDemand_demanding allowed valid waits).2
    · have shorter := (popDemand_demanding allowed valid waits).2
      rw [← pops] at shorter
      exact Nat.lt_of_le_of_lt third.2 shorter
  · have shorter := (popDemand_demanding allowed valid waits).2
    rw [← pops] at shorter
    exact Nat.lt_of_le_of_lt (Nat.le_trans third.2 second.2) shorter

theorem nextDemandFact_complete (runtimes : QueryRuntimes) (allowed : FuncScope) (w : TargetRelevanceWorklist) :
    (runtimes.nextDemandFact allowed w).relevance.pruningComplete = w.relevance.pruningComplete := by
  cases queue : w.pendingFacts with
  | nil => simp only [nextDemandFact, queue]
  | cons key rest =>
    simp only [nextDemandFact, queue, expandDemand]
    exact (visitDemands_grows allowed _ _).complete

theorem pops_run (pops : runtimes.PopsOne allowed w w') (complete : w.relevance.pruningComplete = true) :
    runtimes.AnyRuns allowed w w' := by
  rcases pops with rfl | ⟨item,waits,rfl⟩
  · exact .refl
  · exact any_step complete waits

theorem relevanceLoop_runs (complete : w.relevance.pruningComplete = true) (fuel : Nat) :
    runtimes.AnyRuns allowed w (runtimes.relevanceLoop allowed fuel w) := by
  induction fuel generalizing w with
  | zero => exact .refl
  | succ fuel ih =>
    rw [relevanceLoop]
    dsimp only
    split
    · have first := pops_run (nextDemandNode_pops runtimes allowed w) complete
      split
      · next still =>
        have second := pops_run (nextDemandFact_pops runtimes allowed _) still
        have third := pops_run (nextDemandBase_pops runtimes allowed (runtimes.nextDemandFact allowed _))
          ((nextDemandFact_complete runtimes allowed _).trans still)
        refine ((first.trans second).trans third).trans (ih ?_)
        cases queue : (runtimes.nextDemandFact allowed (runtimes.nextDemandNode allowed w)).pendingWildcardBases with
        | nil => simpa only [nextDemandBase, queue] using (nextDemandFact_complete runtimes allowed _).trans still
        | cons base rest =>
          simp only [nextDemandBase, queue, expandDemand]
          exact (visitDemands_grows allowed _ _).complete.trans ((nextDemandFact_complete runtimes allowed _).trans still)
      · exact first
    · exact .refl

theorem relevanceLoop_finished (valid : runtimes.Demanding w) {fuel : Nat} (enough : runtimes.demandsLeft w ≤ fuel) :
    Finished (runtimes.relevanceLoop allowed fuel w) := by
  induction fuel generalizing w with
  | zero =>
    have empty : w.waiting.length = 0 := by
      simp only [demandsLeft] at enough
      omega
    exact .inr (List.length_eq_zero_iff.mp empty)
  | succ fuel ih =>
    rw [relevanceLoop]
    dsimp only
    split
    · next busy =>
      split
      · have round := round_demandsLeft allowed valid busy
        have left := round.2
        exact ih round.1 (by unfold relevanceRound at left; omega)
      · next gaveUp => exact .inl (Bool.eq_false_iff.mpr gaveUp)
    · next idle =>
      exact .inr (by_contra fun waits => idle (hasPending_iff.mpr waits))

def relevanceRun (runtimes : QueryRuntimes) (allowed : FuncScope) (targetNodes : List NodeId) (targetFuncs : List FuncId)
    (sourceRoot : Option FuncId) : TargetRelevanceWorklist :=
  runtimes.relevanceLoop allowed runtimes.relevanceFuel (runtimes.seedRelevance allowed targetNodes targetFuncs sourceRoot)

theorem seedRelevance_complete :
    (runtimes.seedRelevance allowed targetNodes targetFuncs sourceRoot).relevance.pruningComplete = true :=
  (visitDemands_grows allowed _ _).complete

theorem relevanceRun_runs :
    runtimes.AnyRuns allowed (runtimes.seedRelevance allowed targetNodes targetFuncs sourceRoot)
      (runtimes.relevanceRun allowed targetNodes targetFuncs sourceRoot) :=
  relevanceLoop_runs seedRelevance_complete _

theorem relevanceRun_finished :
    Finished (runtimes.relevanceRun allowed targetNodes targetFuncs sourceRoot) := by
  refine relevanceLoop_finished seedRelevance_demanding ?_
  have grows : Grows (.new sourceRoot) (runtimes.seedRelevance allowed targetNodes targetFuncs sourceRoot) :=
    visitDemands_grows allowed _ _
  have balance := grows.balance
  have size := (seedRelevance_demanding : runtimes.Demanding (runtimes.seedRelevance allowed targetNodes targetFuncs sourceRoot)).size
  have empty : (TargetRelevanceWorklist.new sourceRoot).held.length = 0 ∧
      (TargetRelevanceWorklist.new sourceRoot).waiting.length = 0 := ⟨rfl,rfl⟩
  simp only [demandsLeft]
  omega

-- Without a source root any run is one in which nothing is turned away.
theorem rootless_runs (rootless : w.activeFuncs = none) (run : runtimes.AnyRuns allowed w w') :
    runtimes.DemandRuns allowed spared w w' ∧ w'.activeFuncs = none := by
  induction run with
  | refl => exact ⟨.refl,rootless⟩
  | tail _ step previous =>
    obtain ⟨complete,item,waits,_,rfl⟩ := step
    have popped : ∀ v : TargetRelevanceWorklist, v.activeFuncs = none → (v.popped item).activeFuncs = none := by
      intro v same
      cases item <;> exact same
    refine ⟨previous.1.tail ⟨complete,item,waits,noneTurnedAway_unrooted (popped _ previous.2) _ _,rfl⟩,?_⟩
    have visited := (visitDemands_grows allowed (runtimes.demandsOf item) _).rootless (popped _ previous.2)
    rcases expandDemand_eq runtimes allowed (TargetRelevanceWorklist.popped _ item) item with same | same
    · rw [popDemand, same]
      exact visited
    · rw [popDemand, same]
      exact visited

end QueryRuntimes

end BonsaiNinja.Idg
