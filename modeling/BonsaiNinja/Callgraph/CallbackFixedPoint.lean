import BonsaiNinja.Callgraph.CallbackExecution
import Mathlib.Data.Finset.Prod

namespace BonsaiNinja.Callgraph
open Library

-- The callables a formal may hold: the least relation that contains the bindings
-- and is closed under the forwards.
inductive MayHold (facts : CallbackExecutionFacts) : CallbackFormalKey → FuncId → Prop where
  | bound {binding} : binding ∈ facts.bindings → MayHold facts binding.key binding.target
  | forwarded {forward target} : forward ∈ facts.forwards → MayHold facts forward.source target →
      MayHold facts forward.destination target

theorem MayHold.mono {facts more : CallbackExecutionFacts} (holds : MayHold facts key target)
    (bindings : ∀ b ∈ facts.bindings, b ∈ more.bindings) (forwards : ∀ f ∈ facts.forwards, f ∈ more.forwards) :
    MayHold more key target := by
  induction holds with
  | bound member => exact .bound (bindings _ member)
  | forwarded member _ ih => exact .forwarded (forwards _ member) ih

def Executes (facts : CallbackExecutionFacts) (host target : FuncId) (span : Span) : Prop :=
  ∃ param, ⟨host,param,span⟩ ∈ facts.invocations ∧ MayHold facts (host,param) target

def CallEdge.triple (edge : CallEdge) : FuncId × FuncId × Span := (edge.fromFunc,edge.toFunc,edge.span)

namespace CallbackExecutionAccumulator

def admitted (accumulator : CallbackExecutionAccumulator) : CallbackExecutionFacts :=
  ⟨accumulator.seenInvocations,accumulator.seenBindings,accumulator.seenForwards⟩

-- What holds between two steps of a call: the maps hold the admitted facts, and
-- every consequence of a recorded target is recorded or still pending.
structure Joins (accumulator : CallbackExecutionAccumulator) (pending : List (CallbackFormalKey × FuncId)) : Prop where
  invocations : ∀ key span, (key,span) ∈ accumulator.invocations ↔ ⟨key.1,key.2,span⟩ ∈ accumulator.seenInvocations
  forwards : ∀ source destination, (source,destination) ∈ accumulator.forwards ↔
    ⟨source.1,source.2,destination.1,destination.2⟩ ∈ accumulator.seenForwards
  sound : ∀ key target, (key,target) ∈ accumulator.targets ∨ (key,target) ∈ pending → MayHold accumulator.admitted key target
  bound : ∀ binding ∈ accumulator.seenBindings,
    (binding.key,binding.target) ∈ accumulator.targets ∨ (binding.key,binding.target) ∈ pending
  forwarded : ∀ source destination target, (source,destination) ∈ accumulator.forwards → (source,target) ∈ accumulator.targets →
    (destination,target) ∈ accumulator.targets ∨ (destination,target) ∈ pending
  emitted : ∀ host target span, (host,target,span) ∈ accumulator.emitted ↔
    ∃ param, ((host,param),span) ∈ accumulator.invocations ∧ ((host,param),target) ∈ accumulator.targets

theorem Joins.empty : Joins {} [] where
  invocations := by simp
  forwards := by simp
  sound := by simp
  bound := by simp
  forwarded := by simp
  emitted := by simp

theorem Joins.holds {accumulator : CallbackExecutionAccumulator} (joins : accumulator.Joins []) {key : CallbackFormalKey}
    {target : FuncId} : (key,target) ∈ accumulator.targets ↔ MayHold accumulator.admitted key target := by
  constructor
  · exact fun recorded => joins.sound key target (.inl recorded)
  · intro holds
    induction holds with
    | bound member => exact (joins.bound _ member).resolve_right List.not_mem_nil
    | @forwarded forward target member _ ih =>
      have row : (forward.source,forward.destination) ∈ accumulator.forwards := (joins.forwards _ _).mpr member
      exact (joins.forwarded _ _ _ row ih).resolve_right List.not_mem_nil

theorem Joins.executes {accumulator : CallbackExecutionAccumulator} (joins : accumulator.Joins []) {host target : FuncId}
    {span : Span} : (host,target,span) ∈ accumulator.emitted ↔ Executes accumulator.admitted host target span := by
  rw [joins.emitted]
  constructor
  · rintro ⟨param,invoked,held⟩
    exact ⟨param,(joins.invocations _ _).mp invoked,joins.holds.mp held⟩
  · rintro ⟨param,invoked,held⟩
    exact ⟨param,(joins.invocations _ _).mpr invoked,joins.holds.mpr held⟩

end CallbackExecutionAccumulator

namespace CallbackExtension
open CallbackExecutionAccumulator
variable {s : CallbackExtension}

abbrev Joins (s : CallbackExtension) : Prop := s.accumulator.Joins s.pending

structure Issues (start : List (FuncId × FuncId × Span)) (s : CallbackExtension) : Prop where
  once : s.accumulator.emitted.Nodup
  since : s.accumulator.emitted = (s.newlyProven.map CallEdge.triple).reverse ++ start
  shape : ∀ edge ∈ s.newlyProven, edge = executionEdge edge.fromFunc edge.toFunc edge.span

def pushRow (s : CallbackExtension) (row : FuncId × FuncId × Span) : CallbackExtension :=
  s.pushExecutionEdge row.1 row.2.1 row.2.2

theorem pushRow_cases (s : CallbackExtension) (row : FuncId × FuncId × Span) :
    row ∈ s.accumulator.emitted ∧ s.pushRow row = s ∨
    row ∉ s.accumulator.emitted ∧ s.pushRow row =
      { s with
        accumulator := { s.accumulator with emitted := row :: s.accumulator.emitted }
        newlyProven := s.newlyProven ++ [executionEdge row.1 row.2.1 row.2.2] } := by
  by_cases known : row ∈ s.accumulator.emitted
  · exact .inl ⟨known,if_pos known⟩
  · exact .inr ⟨known,if_neg known⟩

section
variable (rows : List (FuncId × FuncId × Span))
include rows

theorem pushRows_frame (s : CallbackExtension) :
    ∃ emitted proven, rows.foldl pushRow s =
      { s with accumulator := { s.accumulator with emitted := emitted }, newlyProven := proven } := by
  induction rows generalizing s with
  | nil => exact ⟨_,_,rfl⟩
  | cons row rest ih =>
    obtain ⟨emitted,proven,later⟩ := ih (s.pushRow row)
    rw [List.foldl_cons, later]
    rcases pushRow_cases s row with ⟨_,same⟩ | ⟨_,same⟩ <;> rw [same] <;> exact ⟨_,_,rfl⟩

theorem pushRows_emitted (s : CallbackExtension) (row : FuncId × FuncId × Span) :
    row ∈ (rows.foldl pushRow s).accumulator.emitted ↔ row ∈ s.accumulator.emitted ∨ row ∈ rows := by
  have each : ∀ (s : CallbackExtension) (x : FuncId × FuncId × Span),
      row ∈ (s.pushRow x).accumulator.emitted ↔ row ∈ s.accumulator.emitted ∨ row = x := by
    intro s x
    rcases pushRow_cases s x with ⟨known,same⟩ | ⟨_,same⟩
    · rw [same]
      exact ⟨.inl,fun either => either.elim id fun equal => equal ▸ known⟩
    · rw [same, List.mem_cons, or_comm]
  rw [foldl_collects (fun s : CallbackExtension => row ∈ s.accumulator.emitted) (fun x => row = x) each s rows]
  simp

theorem pushRows_issues {start : List (FuncId × FuncId × Span)}
    (issues : s.Issues start) : (rows.foldl pushRow s).Issues start := by
  induction rows generalizing s with
  | nil => exact issues
  | cons row rest ih =>
    apply ih
    rcases pushRow_cases s row with ⟨_,same⟩ | ⟨fresh,same⟩
    · rw [same]
      exact issues
    · rw [same]
      refine ⟨List.nodup_cons.mpr ⟨fresh,issues.once⟩,?_,?_⟩
      · simp [issues.since,CallEdge.triple,executionEdge]
      · intro edge member
        rcases List.mem_append.mp member with earlier | last
        · exact issues.shape edge earlier
        · rw [List.mem_singleton.mp last]
          rfl

end

theorem admitInvocation_cases (order : SetOrder) (s : CallbackExtension) (invocation : CallbackFormalInvocation) :
    invocation ∈ s.accumulator.seenInvocations ∧ s.admitInvocation order invocation = s ∨
    ∃ rows : List (FuncId × FuncId × Span), (∀ row, row ∈ rows ↔ ∃ target, (invocation.key,target) ∈ s.accumulator.targets ∧
        row = (invocation.host,target,invocation.span)) ∧
      s.admitInvocation order invocation = rows.foldl pushRow
        { s with
          accumulator := { s.accumulator with
            seenInvocations := invocation :: s.accumulator.seenInvocations
            invocations := s.accumulator.invocations ++ [(invocation.key,invocation.span)] } } := by
  by_cases seen : invocation ∈ s.accumulator.seenInvocations
  · exact .inl ⟨seen,if_pos seen⟩
  · refine .inr ⟨(order.visit (gather s.accumulator.targets invocation.key)).map (invocation.host,·,invocation.span),?_,?_⟩
    · intro row
      simp only [List.mem_map, (order.perm _).mem_iff, mem_gather, eq_comm]
    · rw [admitInvocation, if_neg seen, List.foldl_map]
      rfl

theorem admitInvocation_joins {order : SetOrder} {invocation : CallbackFormalInvocation}
    (joins : s.Joins) : (s.admitInvocation order invocation).Joins := by
  rcases admitInvocation_cases order s invocation with ⟨_,same⟩ | ⟨rows,listed,same⟩
  · rw [same]
    exact joins
  · obtain ⟨emitted,proven,frame⟩ := pushRows_frame rows
      { s with
        accumulator := { s.accumulator with
          seenInvocations := invocation :: s.accumulator.seenInvocations
          invocations := s.accumulator.invocations ++ [(invocation.key,invocation.span)] } }
    have pushed := pushRows_emitted rows
      { s with
        accumulator := { s.accumulator with
          seenInvocations := invocation :: s.accumulator.seenInvocations
          invocations := s.accumulator.invocations ++ [(invocation.key,invocation.span)] } }
    rw [same]
    rw [frame] at pushed ⊢
    refine ⟨?_,joins.forwards,?_,joins.bound,joins.forwarded,?_⟩
    · intro key span
      obtain ⟨host,param,called⟩ := invocation
      simp only [List.mem_append, List.mem_cons, joins.invocations, CallbackFormalInvocation.key,
        CallbackFormalInvocation.mk.injEq, Prod.ext_iff]
      tauto
    · intro key target recorded
      exact (joins.sound key target recorded).mono (fun _ => id) fun _ => id
    · intro host target span
      rw [pushed (host,target,span), listed, joins.emitted]
      simp only [List.mem_append, List.mem_singleton, Prod.mk.injEq]
      constructor
      · rintro (⟨param,invoked,held⟩ | ⟨other,held,rfl,rfl,rfl⟩)
        · exact ⟨param,.inl invoked,held⟩
        · exact ⟨invocation.paramIndex,.inr ⟨rfl,rfl⟩,held⟩
      · rintro ⟨param,invoked | ⟨same,rfl⟩,held⟩
        · exact .inl ⟨param,invoked,held⟩
        · have key : invocation.key = (host,param) := same.symm
          exact .inr ⟨target,key ▸ held,congrArg Prod.fst same,rfl,rfl⟩

theorem admitForward_joins {order : SetOrder} {forward : CallbackFormalForward}
    (joins : s.Joins) : (s.admitForward order forward).Joins := by
  unfold admitForward
  split
  · exact joins
  · have pushed : ∀ key target, (key,target) ∈
        ((order.visit (gather s.accumulator.targets forward.source)).map (forward.destination,·)).reverse ++ s.pending ↔
          key = forward.destination ∧ (forward.source,target) ∈ s.accumulator.targets ∨ (key,target) ∈ s.pending := by
      intro key target
      simp only [List.mem_append, List.mem_reverse, List.mem_map, (order.perm _).mem_iff, mem_gather, Prod.mk.injEq]
      constructor
      · rintro (⟨_,held,rfl,rfl⟩ | waiting)
        · exact .inl ⟨rfl,held⟩
        · exact .inr waiting
      · rintro (⟨rfl,held⟩ | waiting)
        · exact .inl ⟨target,held,rfl,rfl⟩
        · exact .inr waiting
    refine ⟨joins.invocations,?_,?_,?_,?_,joins.emitted⟩
    · intro source destination
      obtain ⟨caller,callerParam,host,hostParam⟩ := forward
      simp only [List.mem_append, List.mem_cons, joins.forwards, CallbackFormalForward.source,
        CallbackFormalForward.destination, CallbackFormalForward.mk.injEq, Prod.ext_iff]
      tauto
    · intro key target recorded
      have more : ∀ {key target}, MayHold s.accumulator.admitted key target →
          MayHold ⟨s.accumulator.seenInvocations,s.accumulator.seenBindings,forward :: s.accumulator.seenForwards⟩ key target :=
        fun holds => holds.mono (fun _ => id) fun _ => List.mem_cons_of_mem _
      rcases recorded with known | waiting
      · exact more (joins.sound key target (.inl known))
      · rcases (pushed key target).mp waiting with ⟨rfl,held⟩ | earlier
        · exact .forwarded List.mem_cons_self (more (joins.sound _ _ (.inl held)))
        · exact more (joins.sound key target (.inr earlier))
    · intro binding member
      exact (joins.bound binding member).imp_right fun waiting => (pushed _ _).mpr (.inr waiting)
    · intro source destination target row held
      rcases List.mem_append.mp row with known | fresh
      · exact (joins.forwarded source destination target known held).imp_right fun waiting => (pushed _ _).mpr (.inr waiting)
      · cases List.mem_singleton.mp fresh
        exact .inr ((pushed _ _).mpr (.inl ⟨rfl,held⟩))

theorem admitBinding_joins {binding : CallbackFormalBinding} (joins : s.Joins) :
    (s.admitBinding binding).Joins := by
  unfold admitBinding
  split
  · exact joins
  · refine ⟨joins.invocations,joins.forwards,?_,?_,?_,joins.emitted⟩
    · intro key target recorded
      have more : ∀ {key target}, MayHold s.accumulator.admitted key target →
          MayHold ⟨s.accumulator.seenInvocations,binding :: s.accumulator.seenBindings,s.accumulator.seenForwards⟩ key target :=
        fun holds => holds.mono (fun _ => List.mem_cons_of_mem _) fun _ => id
      rcases recorded with known | waiting
      · exact more (joins.sound key target (.inl known))
      · rcases List.mem_cons.mp waiting with same | earlier
        · cases same
          exact .bound List.mem_cons_self
        · exact more (joins.sound key target (.inr earlier))
    · intro other member
      rcases List.mem_cons.mp member with rfl | earlier
      · exact .inr List.mem_cons_self
      · exact (joins.bound other earlier).imp_right (List.mem_cons_of_mem _)
    · intro source destination target row held
      exact (joins.forwarded source destination target row held).imp_right (List.mem_cons_of_mem _)

theorem spans_pushed (spans : List Span) (host target : FuncId) (s : CallbackExtension) :
    spans.foldl (fun s span => s.pushExecutionEdge host target span) s = (spans.map (host,target,·)).foldl pushRow s := by
  rw [List.foldl_map]
  rfl

theorem admitTarget_joins {key : CallbackFormalKey} {target : FuncId}
    {rest : List (CallbackFormalKey × FuncId)} (joins : s.accumulator.Joins ((key,target) :: rest)) :
    ({ s with pending := rest }.admitTarget key target).Joins := by
  unfold admitTarget
  split
  · next known =>
    have settled : ∀ pair, pair ∈ s.accumulator.targets ∨ pair ∈ (key,target) :: rest →
        pair ∈ s.accumulator.targets ∨ pair ∈ rest := by
      intro pair either
      rcases either with recorded | waiting
      · exact .inl recorded
      · rcases List.mem_cons.mp waiting with rfl | later
        · exact .inl known
        · exact .inr later
    refine ⟨joins.invocations,joins.forwards,?_,?_,?_,joins.emitted⟩
    · exact fun key target recorded => joins.sound key target (recorded.imp_right (List.mem_cons_of_mem _))
    · exact fun binding member => settled _ (joins.bound binding member)
    · exact fun source destination target row held => settled _ (joins.forwarded source destination target row held)
  · simp only [spans_pushed]
    obtain ⟨emitted,proven,frame⟩ := pushRows_frame ((gather s.accumulator.invocations key).map (key.1,target,·))
      { s with pending := rest, accumulator := { s.accumulator with targets := (key,target) :: s.accumulator.targets } }
    have pushed := pushRows_emitted ((gather s.accumulator.invocations key).map (key.1,target,·))
      { s with pending := rest, accumulator := { s.accumulator with targets := (key,target) :: s.accumulator.targets } }
    rw [frame] at pushed ⊢
    have waits : ∀ other held, (other,held) ∈ ((gather s.accumulator.forwards key).map (·,target)).reverse ++ rest ↔
        (key,other) ∈ s.accumulator.forwards ∧ held = target ∨ (other,held) ∈ rest := by
      intro other held
      simp only [List.mem_append, List.mem_reverse, List.mem_map, mem_gather, Prod.mk.injEq]
      constructor
      · rintro (⟨_,row,rfl,rfl⟩ | waiting)
        · exact .inl ⟨row,rfl⟩
        · exact .inr waiting
      · rintro (⟨row,rfl⟩ | waiting)
        · exact .inl ⟨other,row,rfl,rfl⟩
        · exact .inr waiting
    have holds : MayHold s.accumulator.admitted key target := joins.sound key target (.inr List.mem_cons_self)
    refine ⟨joins.invocations,joins.forwards,?_,?_,?_,?_⟩
    · intro other held recorded
      rcases recorded with known | waiting
      · rcases List.mem_cons.mp known with same | earlier
        · cases same
          exact holds
        · exact joins.sound other held (.inl earlier)
      · rcases (waits _ _).mp waiting with ⟨row,rfl⟩ | earlier
        · have known : ⟨key.1,key.2,other.1,other.2⟩ ∈ s.accumulator.admitted.forwards := (joins.forwards _ _).mp row
          exact .forwarded known holds
        · exact joins.sound other held (.inr (List.mem_cons_of_mem _ earlier))
    · intro binding member
      rcases joins.bound binding member with known | waiting
      · exact .inl (List.mem_cons_of_mem _ known)
      · rcases List.mem_cons.mp waiting with same | earlier
        · exact .inl (same ▸ List.mem_cons_self)
        · exact .inr ((waits _ _).mpr (.inr earlier))
    · intro source destination held row recorded
      rcases List.mem_cons.mp recorded with same | earlier
      · cases same
        exact .inr ((waits _ _).mpr (.inl ⟨row,rfl⟩))
      · rcases joins.forwarded source destination held row earlier with known | waiting
        · exact .inl (List.mem_cons_of_mem _ known)
        · rcases List.mem_cons.mp waiting with same | later
          · exact .inl (same ▸ List.mem_cons_self)
          · exact .inr ((waits _ _).mpr (.inr later))
    · intro host held span
      have row : (host,held,span) ∈ (gather s.accumulator.invocations key).map (key.1,target,·) ↔
          (key,span) ∈ s.accumulator.invocations ∧ host = key.1 ∧ held = target := by
        simp only [List.mem_map, mem_gather, Prod.mk.injEq]
        constructor
        · rintro ⟨_,invoked,rfl,rfl,rfl⟩
          exact ⟨invoked,rfl,rfl⟩
        · rintro ⟨invoked,rfl,rfl⟩
          exact ⟨span,invoked,rfl,rfl,rfl⟩
      rw [pushed (host,held,span), row, joins.emitted]
      simp only [List.mem_cons, Prod.mk.injEq]
      constructor
      · rintro (⟨param,invoked,known⟩ | ⟨invoked,rfl,rfl⟩)
        · exact ⟨param,invoked,.inr known⟩
        · exact ⟨key.2,invoked,.inl ⟨rfl,rfl⟩⟩
      · rintro ⟨param,invoked,⟨same,rfl⟩ | known⟩
        · subst same
          exact .inr ⟨invoked,rfl,rfl⟩
        · exact .inl ⟨param,invoked,known⟩

end CallbackExtension

end BonsaiNinja.Callgraph
