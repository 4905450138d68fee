import BonsaiNinja.Callgraph.CallbackFixedPoint

namespace BonsaiNinja.Callgraph
open Library
variable {facts more : CallbackExecutionFacts} {host target : FuncId} {span : Span}

def CallbackExecutionFacts.append (facts more : CallbackExecutionFacts) : CallbackExecutionFacts :=
  ⟨facts.invocations ++ more.invocations,facts.bindings ++ more.bindings,facts.forwards ++ more.forwards⟩

structure CallbackExecutionFacts.Included (facts more : CallbackExecutionFacts) : Prop where
  invocations : ∀ invocation ∈ facts.invocations, invocation ∈ more.invocations
  bindings : ∀ binding ∈ facts.bindings, binding ∈ more.bindings
  forwards : ∀ forward ∈ facts.forwards, forward ∈ more.forwards

theorem CallbackExecutionFacts.Included.executes (included : facts.Included more)
    (executes : Executes facts host target span) : Executes more host target span := by
  obtain ⟨param,invoked,held⟩ := executes
  exact ⟨param,included.invocations _ invoked,held.mono included.bindings included.forwards⟩

theorem CallbackExecutionFacts.included_append_left (facts more : CallbackExecutionFacts) :
    facts.Included (facts.append more) :=
  ⟨fun _ => List.mem_append_left _,fun _ => List.mem_append_left _,fun _ => List.mem_append_left _⟩

theorem CallbackExecutionFacts.included_append_right (facts more : CallbackExecutionFacts) :
    more.Included (facts.append more) :=
  ⟨fun _ => List.mem_append_right _,fun _ => List.mem_append_right _,fun _ => List.mem_append_right _⟩

structure CallbackExecutionFacts.Same (facts more : CallbackExecutionFacts) : Prop where
  invocations : ∀ invocation, invocation ∈ facts.invocations ↔ invocation ∈ more.invocations
  bindings : ∀ binding, binding ∈ facts.bindings ↔ binding ∈ more.bindings
  forwards : ∀ forward, forward ∈ facts.forwards ↔ forward ∈ more.forwards

theorem CallbackExecutionFacts.Same.executes (same : facts.Same more)
    : Executes facts host target span ↔ Executes more host target span := by
  have forth : facts.Included more :=
    ⟨fun _ => (same.invocations _).mp,fun _ => (same.bindings _).mp,fun _ => (same.forwards _).mp⟩
  have back : more.Included facts :=
    ⟨fun _ => (same.invocations _).mpr,fun _ => (same.bindings _).mpr,fun _ => (same.forwards _).mpr⟩
  exact ⟨forth.executes,back.executes⟩

namespace CallbackExtension
variable {order : SetOrder} {start : List (FuncId × FuncId × Span)} {facts : CallbackExecutionFacts} {s : CallbackExtension}
  {key : CallbackFormalKey} {target : FuncId} {rest : List (CallbackFormalKey × FuncId)} {keys : Finset CallbackFormalKey}
  {held : Finset FuncId}

structure Steady (start : List (FuncId × FuncId × Span)) (facts : CallbackExecutionFacts) (s : CallbackExtension) : Prop where
  joins : s.Joins
  issues : s.Issues start
  sees : s.accumulator.admitted.Same facts

section
variable (steady : s.Steady start facts)
include steady

theorem admitInvocation_steady
    (invocation : CallbackFormalInvocation) :
    (s.admitInvocation order invocation).Steady start { facts with invocations := facts.invocations ++ [invocation] } := by
  have joins : (s.admitInvocation order invocation).Joins := admitInvocation_joins steady.joins
  rcases admitInvocation_cases order s invocation with ⟨seen,same⟩ | ⟨rows,_,same⟩
  · rw [same]
    refine ⟨steady.joins,steady.issues,?_,steady.sees.bindings,steady.sees.forwards⟩
    intro other
    rw [steady.sees.invocations, List.mem_append, List.mem_singleton]
    exact ⟨.inl,fun either => either.elim id fun equal => equal ▸ (steady.sees.invocations _).mp seen⟩
  · refine ⟨joins,?_,?_⟩
    · rw [same]
      exact pushRows_issues rows ⟨steady.issues.once,steady.issues.since,steady.issues.shape⟩
    · obtain ⟨emitted,proven,frame⟩ := pushRows_frame rows
        { s with
          accumulator := { s.accumulator with
            seenInvocations := invocation :: s.accumulator.seenInvocations
            invocations := s.accumulator.invocations ++ [(invocation.key,invocation.span)] } }
      rw [same, frame]
      refine ⟨?_,steady.sees.bindings,steady.sees.forwards⟩
      intro other
      rw [List.mem_append, List.mem_singleton, ← steady.sees.invocations]
      exact List.mem_cons.trans or_comm

theorem admitForward_steady
    (forward : CallbackFormalForward) :
    (s.admitForward order forward).Steady start { facts with forwards := facts.forwards ++ [forward] } := by
  refine ⟨admitForward_joins steady.joins,?_,?_⟩
  · unfold admitForward
    split
    · exact steady.issues
    · exact ⟨steady.issues.once,steady.issues.since,steady.issues.shape⟩
  · unfold admitForward
    split
    · next seen =>
      refine ⟨steady.sees.invocations,steady.sees.bindings,?_⟩
      intro other
      rw [steady.sees.forwards, List.mem_append, List.mem_singleton]
      exact ⟨.inl,fun either => either.elim id fun equal => equal ▸ (steady.sees.forwards _).mp seen⟩
    · refine ⟨steady.sees.invocations,steady.sees.bindings,?_⟩
      intro other
      rw [List.mem_append, List.mem_singleton, ← steady.sees.forwards]
      exact List.mem_cons.trans or_comm

theorem admitBinding_steady
    (binding : CallbackFormalBinding) :
    (s.admitBinding binding).Steady start { facts with bindings := facts.bindings ++ [binding] } := by
  refine ⟨admitBinding_joins steady.joins,?_,?_⟩
  · unfold admitBinding
    split
    · exact steady.issues
    · exact ⟨steady.issues.once,steady.issues.since,steady.issues.shape⟩
  · unfold admitBinding
    split
    · next seen =>
      refine ⟨steady.sees.invocations,?_,steady.sees.forwards⟩
      intro other
      rw [steady.sees.bindings, List.mem_append, List.mem_singleton]
      exact ⟨.inl,fun either => either.elim id fun equal => equal ▸ (steady.sees.bindings _).mp seen⟩
    · refine ⟨steady.sees.invocations,?_,steady.sees.forwards⟩
      intro other
      rw [List.mem_append, List.mem_singleton, ← steady.sees.bindings]
      exact List.mem_cons.trans or_comm

theorem admitTarget_steady
    (top : s.pending = (key,target) :: rest) :
    ({ s with pending := rest }.admitTarget key target).Steady start facts := by
  refine ⟨admitTarget_joins (top ▸ steady.joins),?_,?_⟩
  · unfold admitTarget
    split
    · exact ⟨steady.issues.once,steady.issues.since,steady.issues.shape⟩
    · simp only [spans_pushed]
      have kept : CallbackExtension.Issues start { s with
          pending := rest, accumulator := { s.accumulator with targets := (key,target) :: s.accumulator.targets } } :=
        ⟨steady.issues.once,steady.issues.since,steady.issues.shape⟩
      have pushed := pushRows_issues ((gather s.accumulator.invocations key).map (key.1,target,·)) kept
      exact ⟨pushed.once,pushed.since,pushed.shape⟩
  · unfold admitTarget
    split
    · exact steady.sees
    · simp only [spans_pushed]
      obtain ⟨emitted,proven,frame⟩ := pushRows_frame ((gather s.accumulator.invocations key).map (key.1,target,·))
        { s with pending := rest, accumulator := { s.accumulator with targets := (key,target) :: s.accumulator.targets } }
      rw [frame]
      exact steady.sees

end

-- The pairs a call can still record: every formal that is pending or fed by a
-- forward, with every pending target.
structure Within (keys : Finset CallbackFormalKey) (held : Finset FuncId) (s : CallbackExtension) : Prop where
  pending : ∀ key target, (key,target) ∈ s.pending → key ∈ keys ∧ target ∈ held
  forwards : ∀ source destination, (source,destination) ∈ s.accumulator.forwards → destination ∈ keys

def room (keys : Finset CallbackFormalKey) (held : Finset FuncId) (s : CallbackExtension) : Nat :=
  ((keys ×ˢ held) \ s.accumulator.targets.toFinset).card * s.accumulator.forwards.length + s.pending.length

theorem gather_length (rows : List (CallbackFormalKey × CallbackFormalKey)) (key : CallbackFormalKey) :
    (gather rows key).length ≤ rows.length := List.length_filterMap_le _ _

theorem admitTarget_within
    (within : s.Within keys held) (top : s.pending = (key,target) :: rest) :
    ({ s with pending := rest }.admitTarget key target).Within keys held ∧
      ({ s with pending := rest }.admitTarget key target).room keys held < s.room keys held := by
  have member := within.pending key target (top ▸ List.mem_cons_self)
  have later : ∀ key target, (key,target) ∈ rest → key ∈ keys ∧ target ∈ held :=
    fun key target waiting => within.pending key target (top ▸ List.mem_cons_of_mem _ waiting)
  unfold admitTarget
  split
  · refine ⟨⟨later,within.forwards⟩,?_⟩
    unfold room
    rw [top, List.length_cons]
    exact Nat.lt_succ_self _
  · next fresh =>
    simp only [spans_pushed]
    obtain ⟨emitted,proven,frame⟩ := pushRows_frame ((gather s.accumulator.invocations key).map (key.1,target,·))
      { s with pending := rest, accumulator := { s.accumulator with targets := (key,target) :: s.accumulator.targets } }
    rw [frame]
    refine ⟨⟨?_,within.forwards⟩,?_⟩
    · intro other value waiting
      rcases List.mem_append.mp waiting with pushed | earlier
      · obtain ⟨destination,row,same⟩ := List.mem_map.mp (List.mem_reverse.mp pushed)
        cases same
        exact ⟨within.forwards _ _ (mem_gather.mp row),member.2⟩
      · exact later other value earlier
    · have fewer : ((keys ×ˢ held) \ ((key,target) :: s.accumulator.targets).toFinset).card <
          ((keys ×ˢ held) \ s.accumulator.targets.toFinset).card := by
        apply Finset.card_lt_card
        refine ⟨?_,?_⟩
        · exact Finset.sdiff_subset_sdiff (Finset.Subset.refl _) (by simp [Finset.subset_insert])
        · intro included
          have left := included (Finset.mem_sdiff.mpr ⟨Finset.mem_product.mpr member,by simpa using fresh⟩)
          simp at left
      have pushes := gather_length s.accumulator.forwards key
      have shrinks := Nat.mul_le_mul_right s.accumulator.forwards.length (Nat.succ_le_of_lt fewer)
      rw [Nat.succ_mul] at shrinks
      unfold room
      rw [top]
      simp only [List.length_append, List.length_reverse, List.length_map, List.length_cons]
      omega

theorem drain_steady
    (fuel : Nat)
    (steady : s.Steady start facts) (within : s.Within keys held) (enough : s.room keys held ≤ fuel) :
    ∃ s', s.drain fuel = some s' ∧ s'.Steady start facts ∧ s'.pending = [] := by
  induction fuel generalizing s with
  | zero =>
    have empty : s.pending = [] := List.eq_nil_of_length_eq_zero (by unfold room at enough; omega)
    exact ⟨s,by simp [drain,empty],steady,empty⟩
  | succ fuel ih =>
    cases top : s.pending with
    | nil => exact ⟨s,by simp [drain,top],steady,top⟩
    | cons pair rest =>
      obtain ⟨key,target⟩ := pair
      obtain ⟨inside,smaller⟩ := admitTarget_within within top
      obtain ⟨s',run,rest⟩ := ih (admitTarget_steady steady top) inside (by omega)
      exact ⟨s',by rw [drain, top]; exact run,rest⟩

theorem room_le_popBound (s : CallbackExtension) : ∃ keys held, s.Within keys held ∧ s.room keys held ≤ s.popBound := by
  refine ⟨(s.pending.map (·.1) ++ s.accumulator.forwards.map (·.2)).toFinset,(s.pending.map (·.2)).toFinset,⟨?_,?_⟩,?_⟩
  · intro key target waiting
    simp only [List.mem_toFinset, List.mem_append, List.mem_map]
    exact ⟨.inl ⟨_,waiting,rfl⟩,_,waiting,rfl⟩
  · intro source destination row
    simp only [List.mem_toFinset, List.mem_append, List.mem_map]
    exact .inr ⟨_,row,rfl⟩
  · have keys := List.toFinset_card_le (s.pending.map (·.1) ++ s.accumulator.forwards.map (·.2))
    have held := List.toFinset_card_le (s.pending.map (·.2))
    rw [List.length_append, List.length_map, List.length_map] at keys
    rw [List.length_map] at held
    have pairs : (((s.pending.map (·.1) ++ s.accumulator.forwards.map (·.2)).toFinset ×ˢ (s.pending.map (·.2)).toFinset) \
        s.accumulator.targets.toFinset).card ≤ (s.pending.length + s.accumulator.forwards.length) * s.pending.length :=
      calc _ ≤ _ := Finset.card_le_card Finset.sdiff_subset
        _ = _ := Finset.card_product _ _
        _ ≤ _ := Nat.mul_le_mul keys held
    have scaled := Nat.mul_le_mul_right s.accumulator.forwards.length pairs
    unfold room popBound
    omega

end CallbackExtension

namespace CallbackExecutionAccumulator
variable {accumulator : CallbackExecutionAccumulator} {facts : CallbackExecutionFacts}

-- What holds between two calls: the accumulator is exact for all facts it was
-- given.
structure Settled (accumulator : CallbackExecutionAccumulator) (facts : CallbackExecutionFacts) : Prop where
  joins : accumulator.Joins []
  once : accumulator.emitted.Nodup
  sees : accumulator.admitted.Same facts

theorem Settled.executes
    (settled : accumulator.Settled facts) {host target : FuncId} {span : Span} :
    (host,target,span) ∈ accumulator.emitted ↔ Executes facts host target span :=
  settled.joins.executes.trans settled.sees.executes

theorem settled_empty : Settled {} ⟨[],[],[]⟩ :=
  ⟨.empty,List.nodup_nil,⟨fun _ => Iff.rfl,fun _ => Iff.rfl,fun _ => Iff.rfl⟩⟩

theorem mem_sortEdges {edges : List CallEdge} {edge : CallEdge} : edge ∈ sortEdges edges ↔ edge ∈ edges :=
  (List.perm_insertionSort _ edges).mem_iff

-- One call ends, whatever was there before, and returns the edges that are new.
theorem extendParts_settled
    (settled : accumulator.Settled facts) (order : SetOrder) (more : CallbackExecutionFacts) :
    ∃ next proven, accumulator.extendParts order more = some (next,proven) ∧ next.Settled (facts.append more) ∧
      (proven.map CallEdge.triple ++ accumulator.emitted).Perm next.emitted ∧
      ∀ edge ∈ proven, edge = executionEdge edge.fromFunc edge.toFunc edge.span := by
  have initial : CallbackExtension.Steady accumulator.emitted facts ⟨accumulator,[],[]⟩ :=
    ⟨settled.joins,⟨settled.once,rfl,by simp⟩,settled.sees⟩
  have invoked := foldl_consumes
    (fun consumed s => CallbackExtension.Steady accumulator.emitted { facts with invocations := consumed } s)
    (fun _ _ invocation steady => @CallbackExtension.admitInvocation_steady order _ _ _ steady invocation)
    initial more.invocations
  have forwarded := foldl_consumes
    (fun consumed s => CallbackExtension.Steady accumulator.emitted
      ⟨facts.invocations ++ more.invocations,facts.bindings,consumed⟩ s)
    (fun _ _ forward steady => @CallbackExtension.admitForward_steady order _ _ _ steady forward)
    invoked more.forwards
  have bound := foldl_consumes
    (fun consumed s => CallbackExtension.Steady accumulator.emitted
      ⟨facts.invocations ++ more.invocations,consumed,facts.forwards ++ more.forwards⟩ s)
    (fun _ _ binding steady => CallbackExtension.admitBinding_steady steady binding)
    forwarded more.bindings
  obtain ⟨keys,held,within,enough⟩ := CallbackExtension.room_le_popBound
    (more.bindings.foldl CallbackExtension.admitBinding (more.forwards.foldl (CallbackExtension.admitForward order)
      (more.invocations.foldl (CallbackExtension.admitInvocation order) ⟨accumulator,[],[]⟩)))
  obtain ⟨s,run,steady,empty⟩ := CallbackExtension.drain_steady _ bound within enough
  refine ⟨s.accumulator,sortEdges s.newlyProven,by rw [extendParts, run]; rfl,
    ⟨empty ▸ steady.joins,steady.issues.once,steady.sees⟩,?_,?_⟩
  · rw [steady.issues.since]
    refine List.Perm.append_right _ (List.Perm.trans ?_ (List.reverse_perm _).symm)
    exact (List.perm_insertionSort _ _).map _
  · intro edge member
    exact steady.issues.shape edge (mem_sortEdges.mp member)

end CallbackExecutionAccumulator

-- One resolved partition of a streaming build: what its files resolved to, its
-- callback facts, and the iteration orders of the hash sets met on the way.
structure CallbackBatch where
  edges : List CallEdge
  facts : CallbackExecutionFacts
  resolverOrder : SetOrder
  order : SetOrder

def joinedFacts (batches : List CallbackBatch) : CallbackExecutionFacts :=
  ⟨batches.flatMap (·.facts.invocations),batches.flatMap (·.facts.bindings),batches.flatMap (·.facts.forwards)⟩

namespace CallbackExecutionAccumulator
variable {accumulator : CallbackExecutionAccumulator} {facts : CallbackExecutionFacts}

def extendBatches : CallbackExecutionAccumulator → List CallbackBatch → Option (CallbackExecutionAccumulator × List CallEdge)
  | accumulator, [] => some (accumulator,[])
  | accumulator, batch :: rest => do
    let (next,proven) ← accumulator.extendParts batch.order batch.facts
    let (last,more) ← extendBatches next rest
    return (last,proven ++ more)

-- The owner of a streaming build appends each partition's graph and the edges
-- `extend` returns for it.
def streamBatches : CallbackExecutionAccumulator → List CallbackBatch → Option (CallbackExecutionAccumulator × List CallEdge)
  | accumulator, [] => some (accumulator,[])
  | accumulator, batch :: rest => do
    let graph ← materializedGraph batch.resolverOrder batch.edges batch.facts
    let (next,cross) ← accumulator.extend batch.order graph
    let (last,more) ← streamBatches next rest
    return (last,graph.edges ++ cross ++ more)

theorem append_joined (facts : CallbackExecutionFacts) (batch : CallbackBatch) (rest : List CallbackBatch) :
    facts.append (joinedFacts (batch :: rest)) = (facts.append batch.facts).append (joinedFacts rest) := by
  simp [joinedFacts,CallbackExecutionFacts.append]

theorem extendBatches_settled (batches : List CallbackBatch)
    (settled : accumulator.Settled facts) :
    ∃ last proven, accumulator.extendBatches batches = some (last,proven) ∧ last.Settled (facts.append (joinedFacts batches)) ∧
      (proven.map CallEdge.triple ++ accumulator.emitted).Perm last.emitted ∧
      ∀ edge ∈ proven, edge = executionEdge edge.fromFunc edge.toFunc edge.span := by
  induction batches generalizing accumulator facts with
  | nil =>
    refine ⟨accumulator,[],rfl,?_,by simp,by simp⟩
    simpa [joinedFacts,CallbackExecutionFacts.append] using settled
  | cons batch rest ih =>
    obtain ⟨next,proven,call,settled',issued,shape⟩ := extendParts_settled settled batch.order batch.facts
    obtain ⟨last,more,run,final,issued',shape'⟩ := ih settled'
    refine ⟨last,proven ++ more,by simp [extendBatches,call,run],append_joined facts batch rest ▸ final,?_,?_⟩
    · refine List.Perm.trans ?_ issued'
      rw [List.map_append, List.append_assoc]
      exact (List.perm_append_comm_assoc _ _ _).trans (List.Perm.append_left _ issued)
    · intro edge member
      exact (List.mem_append.mp member).elim (shape edge) (shape' edge)

-- A batch graph holds the edges its files resolved to and its own execution
-- edges, all of which the joined facts justify.
theorem materializedGraph_edges (batch : CallbackBatch) :
    ∃ proven, materializedGraph batch.resolverOrder batch.edges batch.facts = some ⟨batch.edges ++ proven,batch.facts⟩ ∧
      (∀ edge ∈ proven, edge = executionEdge edge.fromFunc edge.toFunc edge.span) ∧
      ∀ host target span, (host,target,span) ∈ proven.map CallEdge.triple ↔ Executes batch.facts host target span := by
  obtain ⟨next,proven,call,settled,issued,shape⟩ := extendParts_settled settled_empty batch.resolverOrder batch.facts
  refine ⟨proven,by simp [materializedGraph,materializeCallbackExecutionEdges,call],shape,?_⟩
  intro host target span
  rw [List.append_nil] at issued
  exact issued.mem_iff.trans settled.executes

theorem executionEdge_of_mem {proven : List CallEdge}
    (shape : ∀ edge ∈ proven, edge = executionEdge edge.fromFunc edge.toFunc edge.span) {host target : FuncId} {span : Span} :
    (host,target,span) ∈ proven.map CallEdge.triple ↔ executionEdge host target span ∈ proven := by
  constructor
  · intro member
    obtain ⟨edge,listed,same⟩ := List.mem_map.mp member
    cases same
    exact shape edge listed ▸ listed
  · exact fun listed => List.mem_map.mpr ⟨_,listed,rfl⟩

-- Nothing unjustified is appended, and each justified edge is appended or an edge
-- with the same source token is.
theorem streamBatches_settled (batches : List CallbackBatch)
    (settled : accumulator.Settled facts) :
    ∃ last streamed, accumulator.streamBatches batches = some (last,streamed) ∧
      last.Settled (facts.append (joinedFacts batches)) ∧
      (∀ edge ∈ streamed, edge ∈ batches.flatMap (·.edges) ∨ ∃ host target span,
        edge = executionEdge host target span ∧ Executes (facts.append (joinedFacts batches)) host target span) ∧
      (∀ edge ∈ batches.flatMap (·.edges), edge ∈ streamed) ∧
      ∀ host target span, (host,target,span) ∈ last.emitted → (host,target,span) ∈ accumulator.emitted ∨
        ∃ kept ∈ streamed, kept.sameToken (executionEdge host target span) = true := by
  induction batches generalizing accumulator facts with
  | nil =>
    refine ⟨accumulator,[],rfl,?_,by simp,by simp,fun _ _ _ known => .inl known⟩
    simpa [joinedFacts,CallbackExecutionFacts.append] using settled
  | cons batch rest ih =>
    obtain ⟨own,graph,ownShape,ownEdges⟩ := materializedGraph_edges batch
    obtain ⟨next,proven,call,settled',issued,shape⟩ := extendParts_settled settled batch.order batch.facts
    obtain ⟨last,more,run,final,justified,direct,covered⟩ := ih settled'
    have cross : accumulator.extend batch.order ⟨batch.edges ++ own,batch.facts⟩ = some (next,
        proven.filter fun candidate => !(batch.edges ++ own).any fun existing => existing.sameToken candidate) := by
      simp only [extend, call, Option.map_some]
    refine ⟨last,_,by simp only [streamBatches, graph, cross, run, Option.bind_eq_bind, Option.bind_some]; rfl,
      append_joined facts batch rest ▸ final,?_,?_,?_⟩
    · have later := CallbackExecutionFacts.included_append_left (facts.append batch.facts) (joinedFacts rest)
      have justify : ∀ {host target span}, Executes (facts.append batch.facts) host target span →
          Executes (facts.append (joinedFacts (batch :: rest))) host target span := by
        intro host target span executes
        rw [append_joined]
        exact later.executes executes
      intro edge member
      rcases List.mem_append.mp member with front | tail
      · rcases List.mem_append.mp front with local' | crossing
        · rcases List.mem_append.mp local' with resolved | owned
          · exact .inl (List.mem_flatMap.mpr ⟨batch,List.mem_cons_self,resolved⟩)
          · have same := ownShape edge owned
            rw [same] at owned ⊢
            have executes := (ownEdges _ _ _).mp ((executionEdge_of_mem ownShape).mpr owned)
            exact .inr ⟨_,_,_,rfl,justify ((CallbackExecutionFacts.included_append_right _ _).executes executes)⟩
        · have fresh := (List.mem_filter.mp crossing).1
          have same := shape edge fresh
          rw [same] at fresh ⊢
          have emitted := issued.mem_iff.mp (List.mem_append_left _ ((executionEdge_of_mem shape).mpr fresh))
          exact .inr ⟨_,_,_,rfl,justify (settled'.executes.mp emitted)⟩
      · rcases justified edge tail with resolved | executes
        · rw [List.flatMap_cons]
          exact .inl (List.mem_append_right _ resolved)
        · rw [append_joined]
          exact .inr executes
    · intro edge member
      rw [List.flatMap_cons] at member
      rcases List.mem_append.mp member with resolved | later
      · exact List.mem_append_left _ (List.mem_append_left _ (List.mem_append_left _ resolved))
      · exact List.mem_append_right _ (direct edge later)
    · intro host target span emitted
      rcases covered host target span emitted with known | ⟨kept,listed,same⟩
      · rcases List.mem_append.mp (issued.mem_iff.mpr known) with fresh | earlier
        · right
          have listed := (executionEdge_of_mem shape).mp fresh
          -- Either `extend` keeps the edge or the partition's graph already has
          -- one at the same token.
          by_cases taken : (batch.edges ++ own).any fun existing => existing.sameToken (executionEdge host target span)
          · obtain ⟨existing,present,same⟩ := List.any_eq_true.mp taken
            exact ⟨existing,List.mem_append_left _ (List.mem_append_left _ present),same⟩
          · refine ⟨executionEdge host target span,?_,CallEdge.sameToken_refl _⟩
            exact List.mem_append_left _ (List.mem_append_right _ (List.mem_filter.mpr ⟨listed,by simpa using taken⟩))
        · exact .inl earlier
      · exact .inr ⟨kept,List.mem_append_right _ listed,same⟩

end CallbackExecutionAccumulator

-- Any split into batches proves each execution edge once, and exactly those of
-- the least relation; appending them to the partitions' graphs gives the edges of
-- the build over all facts, one source token counting as one edge.
theorem callbackBatches_exact (facts : CallbackExecutionFacts) (batches : List CallbackBatch) (order : SetOrder)
    (split : (joinedFacts batches).Same facts) :
    (∃ last proven, CallbackExecutionAccumulator.extendBatches {} batches = some (last,proven) ∧
      (proven.map CallEdge.triple).Nodup ∧
      (∀ host target span, (host,target,span) ∈ proven.map CallEdge.triple ↔ Executes facts host target span) ∧
      ∀ edge ∈ proven, edge = executionEdge edge.fromFunc edge.toFunc edge.span) ∧
    ∃ last streamed full, CallbackExecutionAccumulator.streamBatches {} batches = some (last,streamed) ∧
      materializeCallbackExecutionEdges order (batches.flatMap (·.edges)) facts = some full ∧
      (∀ edge ∈ streamed, edge ∈ full) ∧ ∀ edge ∈ full, ∃ kept ∈ streamed, kept.sameToken edge = true := by
  have joined : (CallbackExecutionFacts.append ⟨[],[],[]⟩ (joinedFacts batches)).Same facts := split
  constructor
  · obtain ⟨last,proven,run,settled,issued,shape⟩ :=
      CallbackExecutionAccumulator.extendBatches_settled batches CallbackExecutionAccumulator.settled_empty
    rw [List.append_nil] at issued
    refine ⟨last,proven,run,issued.nodup_iff.mpr settled.once,?_,shape⟩
    intro host target span
    exact issued.mem_iff.trans (settled.executes.trans joined.executes)
  · obtain ⟨last,streamed,run,settled,justified,direct,covered⟩ :=
      CallbackExecutionAccumulator.streamBatches_settled batches CallbackExecutionAccumulator.settled_empty
    obtain ⟨next,proven,call,complete,issued,shape⟩ :=
      CallbackExecutionAccumulator.extendParts_settled CallbackExecutionAccumulator.settled_empty order facts
    have exact : ∀ {host target span}, executionEdge host target span ∈ proven ↔ Executes facts host target span := by
      intro host target span
      rw [List.append_nil] at issued
      exact (CallbackExecutionAccumulator.executionEdge_of_mem shape).symm.trans (issued.mem_iff.trans complete.executes)
    refine ⟨last,streamed,batches.flatMap (·.edges) ++ proven,run,
      by simp [materializeCallbackExecutionEdges,call],?_,?_⟩
    · intro edge member
      rcases justified edge member with resolved | ⟨host,target,span,rfl,executes⟩
      · exact List.mem_append_left _ resolved
      · exact List.mem_append_right _ (exact.mpr (joined.executes.mp executes))
    · intro edge member
      rcases List.mem_append.mp member with resolved | proves
      · exact ⟨edge,direct edge resolved,CallEdge.sameToken_refl edge⟩
      · have same := shape edge proves
        rw [same] at proves ⊢
        have emitted := settled.executes.mpr (joined.executes.mpr (exact.mp proves))
        exact (covered _ _ _ emitted).resolve_left List.not_mem_nil

def insertionOrder : SetOrder := ⟨id,List.Perm.refl⟩

-- `host(f)` hands its formal on to itself; the callable bound in the first batch
-- meets the invocation of the second.
def recursiveHost : List CallbackBatch :=
  [⟨[],⟨[],[⟨1,0,2⟩],[⟨1,0,1,1⟩]⟩,insertionOrder,insertionOrder⟩,
    ⟨[],⟨[⟨1,1,⟨0,30,34⟩⟩],[],[⟨1,1,1,0⟩]⟩,insertionOrder,insertionOrder⟩]

theorem callbackBatches_exact_recursive :
    ∃ last proven, CallbackExecutionAccumulator.extendBatches {} recursiveHost = some (last,proven) ∧
      ((1,2,⟨0,30,34⟩) : FuncId × FuncId × Span) ∈ proven.map CallEdge.triple := by
  obtain ⟨⟨last,proven,run,_,exact,_⟩,_⟩ := callbackBatches_exact (joinedFacts recursiveHost) recursiveHost insertionOrder
    ⟨fun _ => Iff.rfl,fun _ => Iff.rfl,fun _ => Iff.rfl⟩
  refine ⟨last,proven,run,(exact _ _ _).mpr ⟨1,by decide,?_⟩⟩
  have bound : (⟨1,0,2⟩ : CallbackFormalBinding) ∈ (joinedFacts recursiveHost).bindings := by decide
  have forwarded : (⟨1,0,1,1⟩ : CallbackFormalForward) ∈ (joinedFacts recursiveHost).forwards := by decide
  exact .forwarded forwarded (.bound bound)

-- Two invocations at one start: the partition's own edge for the shorter one
-- stands for the longer one, which the build over all facts also has.
def lateCallable : List CallbackBatch :=
  [⟨[],⟨[],[⟨1,0,2⟩],[]⟩,insertionOrder,insertionOrder⟩,
    ⟨[],⟨[⟨1,0,⟨0,30,39⟩⟩,⟨1,1,⟨0,30,34⟩⟩],[⟨1,1,2⟩],[]⟩,insertionOrder,insertionOrder⟩]

theorem callback_token_taken :
    ∃ last streamed full, CallbackExecutionAccumulator.streamBatches {} lateCallable = some (last,streamed) ∧
      materializeCallbackExecutionEdges insertionOrder [] (joinedFacts lateCallable) = some full ∧
      executionEdge 1 2 ⟨0,30,39⟩ ∈ full ∧ executionEdge 1 2 ⟨0,30,39⟩ ∉ streamed := by
  have runs : ((CallbackExecutionAccumulator.streamBatches {} lateCallable).bind fun taken =>
      (materializeCallbackExecutionEdges insertionOrder [] (joinedFacts lateCallable)).map fun full =>
        decide (executionEdge 1 2 ⟨0,30,39⟩ ∈ full ∧ executionEdge 1 2 ⟨0,30,39⟩ ∉ taken.2)) = some true := by decide
  obtain ⟨⟨last,streamed⟩,taken,rest⟩ := Option.bind_eq_some_iff.mp runs
  obtain ⟨full,built,found⟩ := Option.map_eq_some_iff.mp rest
  exact ⟨last,streamed,full,taken,built,of_decide_eq_true found⟩

end BonsaiNinja.Callgraph
