import BonsaiNinja.Idg.FlowRules

namespace BonsaiNinja.Idg
open Library

structure SameFrame (P Q : ClosureProgram) : Prop where
  unified : P.unified = Q.unified
  reach : P.reach = Q.reach
  symbolic : P.symbolic = Q.symbolic
  policy : P.policy = Q.policy

namespace SameFrame
variable {P Q : ClosureProgram} {known : Set ClosureAtom} (same : SameFrame P Q)
include same

theorem symm : SameFrame Q P := ⟨same.unified.symm,same.reach.symm,same.symbolic.symm,same.policy.symm⟩

theorem nodeIsRelevant (node : NodeId) : Q.nodeIsRelevant node = P.nodeIsRelevant node := by
  unfold ClosureProgram.nodeIsRelevant
  rw [same.policy]

theorem isActive {func : FuncId} (active : P.IsActive known func) : Q.IsActive known func := by
  unfold ClosureProgram.IsActive ClosureProgram.funcIsAllowed at active ⊢
  rwa [← same.policy]

theorem nodeAllowed {node : NodeId} (allowed : P.NodeAllowed known node) : Q.NodeAllowed known node := by
  obtain ⟨relevant,func,own,active⟩ := allowed
  exact ⟨(same.nodeIsRelevant node).trans relevant,func,same.unified ▸ own,same.isActive active⟩

theorem mayEnter {caller callee : FuncId} (enter : P.MayEnter known caller callee) : Q.MayEnter known caller callee := by
  obtain ⟨active,permitted,allowed⟩ := enter
  refine ⟨same.isActive active,?_,?_⟩
  · unfold ClosureProgram.summaryDependencyIsPermitted at permitted ⊢
    rwa [← same.policy]
  · unfold ClosureProgram.funcIsAllowed at allowed ⊢
    rwa [← same.policy]

theorem moves {state next : ClosureNodeState} (moves : P.Moves state next) : Q.Moves state next := by
  cases moves with
  | ordinary edge => exact .ordinary (same.reach ▸ edge)
  | heap policy edge => exact .heap (same.policy ▸ policy) edge

theorem delivers {transform : SymbolicFieldTransform} {context : CallContext} {contexts : TransformContexts}
    (delivers : P.Delivers known transform context contexts) : Q.Delivers known transform context contexts := by
  cases delivers with
  | ordinary local' => exact .ordinary (same.policy ▸ same.symbolic ▸ local')
  | enters contextual boundary enter =>
    exact .enters (same.policy ▸ contextual) (same.symbolic ▸ boundary) (same.mayEnter enter)
  | matched contextual boundary inside => exact .matched (same.policy ▸ contextual) (same.symbolic ▸ boundary) inside
  | seedCaller contextual boundary seeded empty =>
    exact .seedCaller (same.policy ▸ contextual) (same.symbolic ▸ boundary) (same.policy ▸ seeded) empty

theorem targetActive {transform : SymbolicFieldTransform} (active : P.TargetActive known transform) :
    Q.TargetActive known transform := by
  obtain ⟨base,found,own | ⟨contextual,key,boundary,enter⟩⟩ := active
  · exact ⟨base,same.symbolic ▸ found,.inl (same.isActive own)⟩
  · exact ⟨base,same.symbolic ▸ found,.inr ⟨same.policy ▸ contextual,key,same.symbolic ▸ boundary,same.mayEnter enter⟩⟩

theorem started : P.startWorklist.atoms = Q.startWorklist.atoms := by
  unfold ClosureProgram.startWorklist
  rw [same.policy]

end SameFrame

namespace FactAlgebra
variable {ι κ : Type}

def Matched (rel : ι → κ → Prop) (live : ι → Prop) (more : Set (FlowAtom κ)) (i : ι) (context : CallContext) : Prop :=
  live i → ∃ j, rel i j ∧ .fact j context ∈ more

-- Matched facts do in the second algebra what they do in the first. A fact that is
-- not live does nothing there, and becomes nothing live.
structure Simulates (A : FactAlgebra ι) (B : FactAlgebra κ) (program : ClosureProgram) (rel : ι → κ → Prop) (live : ι → Prop)
    (known : Set (FlowAtom ι)) (more : Set (FlowAtom κ)) : Prop where
  introduced : A.introduces node i → A.keeps i → live i → ∃ j, rel i j ∧ B.introduces node j ∧ B.keeps j
  keeps : rel i j → A.keeps i → B.keeps j
  rebased : .fact i context ∈ known → Matched rel live more i context → A.rebases i i' → A.keeps i' → live i' →
    ∃ j j', .fact j context ∈ more ∧ rel i' j' ∧ B.rebases j j'
  reads : .fact i context ∈ known → Matched rel live more i context → A.reads i node →
    ∃ j, .fact j context ∈ more ∧ B.reads j node
  scalar : .fact i context ∈ known → Matched rel live more i context → A.passes i transform →
    transform.kind = .scalarReturn → A.scalar i transform node →
      ∃ j, .fact j context ∈ more ∧ B.passes j transform ∧ B.scalar j transform node
  carried : .fact i context ∈ known → Matched rel live more i context → A.passes i transform →
    transform.kind ≠ .scalarReturn → program.TargetActive (actives known) transform → live (A.carried i transform) →
      ∃ j, .fact j context ∈ more ∧ B.passes j transform ∧ rel (A.carried i transform) (B.carried j transform)
  entered : .fact i context ∈ known → Matched rel live more i context → A.passes i transform →
    program.policy.contextual ≠ none → symbolicTransformBoundary program.symbolic transform = some (key,true) →
      program.MayEnter (actives known) key.caller key.callee → ∃ j, .fact j context ∈ more ∧ B.passes j transform

def Mirrored (rel : ι → κ → Prop) (live : ι → Prop) (more : Set (FlowAtom κ)) : FlowAtom ι → Prop
  | .reached state => .reached state ∈ more
  | .fact i context => Matched rel live more i context
  | .caller boundary context => .caller boundary context ∈ more
  | .returnedNode boundary node => .returnedNode boundary node ∈ more
  | .returnedFact boundary i => live i → ∃ j, rel i j ∧ .returnedFact boundary j ∈ more
  | .active func => .active func ∈ more

section
variable {A : FactAlgebra ι} {B : FactAlgebra κ} {P Q : ClosureProgram} {rel : ι → κ → Prop} {live : ι → Prop}
  {seeds : List NodeId} {known : Set (FlowAtom ι)} {more : Set (FlowAtom κ)}

theorem actives_mirrored : actives ({a | Mirrored rel live more a} ∩ known) ⊆ actives more := by
  intro atom found
  obtain ⟨func,same,active,_⟩ := found
  exact ⟨func,same,active⟩

section
variable (simulates : Simulates A B P rel live known more)
include simulates

theorem mirrored_carried (closed : (B.rules Q seeds).Closed more) {i : ι} {context : CallContext}
    {transform : SymbolicFieldTransform} {contexts : TransformContexts} (fact : .fact i context ∈ known)
    (matched : Matched rel live more i context) (passes : A.passes i transform)
    (delivers : Q.Delivers (actives more) transform context contexts) (kind : transform.kind ≠ .scalarReturn)
    (target : P.TargetActive (actives known) transform) (target' : Q.TargetActive (actives more) transform)
    (alive : live (A.carried i transform)) :
    ∃ j, rel (A.carried i transform) j ∧ ∀ b, B.FactDelivery j contexts b → b ∈ more := by
  obtain ⟨j,member,passes,related⟩ := simulates.carried fact matched passes kind target alive
  exact ⟨_,related,fun b delivered => closed b (.transform member passes delivers kind target' delivered)⟩

variable (same : SameFrame P Q)
include same

theorem mirrored_sourced {state : ClosureNodeState} {a : FlowAtom ι} (sourced : A.Sourced P state a)
    (all : ∀ b, B.Sourced Q state b → b ∈ more) : Mirrored rel live more a := by
  cases sourced with
  | node inside =>
    refine all (.reached state) (.node ?_)
    rwa [← same.unified]
  | fact introduced kept =>
    intro alive
    obtain ⟨j,related,introduced,kept⟩ := simulates.introduced introduced kept alive
    exact ⟨j,related,all _ (.fact introduced kept)⟩

theorem mirrored_closed (closed : (B.rules Q seeds).Closed more) (sound : (A.rules P seeds).Closed known) :
    (A.rules P seeds).Closed ({a | Mirrored rel live more a} ∩ known) := by
  intro a follows
  refine ⟨?_,sound a (Follows.mono Set.inter_subset_right follows)⟩
  have wider : actives ({a | Mirrored rel live more a} ∩ known) ⊆ actives more := actives_mirrored
  have inside : actives ({a | Mirrored rel live more a} ∩ known) ⊆ actives known := actives_mono Set.inter_subset_right
  cases follows with
  | root root => exact closed (.active _) (.root (same.policy ▸ root))
  | seed member allowed sourced =>
    exact mirrored_sourced simulates same sourced fun b sourced =>
      closed b (.seed member (same.nodeAllowed (same.started ▸ allowed)) sourced)
  | transition reached moves relevant source target open' sourced =>
    refine mirrored_sourced simulates same sourced fun b sourced => closed b (.transition reached.1 (same.moves moves)
      ((same.nodeIsRelevant _).trans relevant) (same.unified ▸ source) (same.unified ▸ target) ?_ sourced)
    exact open'.imp (fun active => same.isActive (active.mono wider)) fun enter => same.mayEnter (enter.mono wider)
  | transitionActivates reached moves relevant source target enter rooted =>
    exact closed (.active _) (.transitionActivates reached.1 (same.moves moves) ((same.nodeIsRelevant _).trans relevant)
      (same.unified ▸ source) (same.unified ▸ target) (same.mayEnter (enter.mono wider)) (same.policy ▸ rooted))
  | callActivates reached policy edge relevant enter rooted =>
    exact closed (.active _) (.callActivates reached.1 (same.policy ▸ policy) edge ((same.nodeIsRelevant _).trans relevant)
      (same.mayEnter (enter.mono wider)) (same.policy ▸ rooted))
  | callRegisters reached policy edge relevant enter =>
    exact closed (.caller _ _) (.callRegisters reached.1 (same.policy ▸ policy) edge
      ((same.nodeIsRelevant _).trans relevant) (same.mayEnter (enter.mono wider)))
  | callEnters reached policy edge relevant enter open' sourced =>
    refine mirrored_sourced simulates same sourced fun b sourced => closed b (.callEnters reached.1 (same.policy ▸ policy)
      edge ((same.nodeIsRelevant _).trans relevant) (same.mayEnter (enter.mono wider)) ?_ sourced)
    exact open'.imp (fun allowed => same.nodeAllowed (allowed.mono wider)) fun own => same.unified ▸ own
  | returns reached policy edge allowed =>
    exact closed (.returnedNode _ _) (.returns reached.1 (same.policy ▸ policy) edge (same.nodeAllowed (allowed.mono wider)))
  | returnsToSeed reached policy edge allowed seeded sourced =>
    exact mirrored_sourced simulates same sourced fun b sourced => closed b (.returnsToSeed reached.1
      (same.policy ▸ policy) edge (same.nodeAllowed (allowed.mono wider)) (same.policy ▸ seeded) sourced)
  | rebase fact rebased kept =>
    intro alive
    obtain ⟨j,j',member,related,moved⟩ := simulates.rebased fact.2 fact.1 rebased kept alive
    exact ⟨j',related,closed _ (.rebase member moved (simulates.keeps related kept))⟩
  | read fact read allowed =>
    obtain ⟨j,member,read⟩ := simulates.reads fact.2 fact.1 read
    exact closed (.reached _) (.read member read (same.nodeAllowed (allowed.mono wider)))
  | transformActivates fact passes contextual boundary enter rooted =>
    obtain ⟨j,member,passes⟩ := simulates.entered fact.2 fact.1 passes contextual boundary (enter.mono inside)
    exact closed (.active _) (.transformActivates member passes (same.policy ▸ contextual) (same.symbolic ▸ boundary)
      (same.mayEnter (enter.mono wider)) (same.policy ▸ rooted))
  | transformRegisters fact passes contextual boundary enter =>
    obtain ⟨j,member,passes⟩ := simulates.entered fact.2 fact.1 passes contextual boundary (enter.mono inside)
    exact closed (.caller _ _) (.transformRegisters member passes (same.policy ▸ contextual) (same.symbolic ▸ boundary)
      (same.mayEnter (enter.mono wider)))
  | scalarReturn fact passes delivers kind written allowed delivered =>
    obtain ⟨j,member,passes,written⟩ := simulates.scalar fact.2 fact.1 passes kind written
    have delivery : ∀ b, B.NodeDelivery Q _ _ b → b ∈ more := fun b delivered => closed b (.scalarReturn member passes
      (same.delivers (delivers.mono wider)) kind written (same.nodeAllowed (allowed.mono wider)) delivered)
    cases delivered with
    | completed => exact delivery (.returnedNode _ _) .completed
    | next sourced => exact mirrored_sourced simulates same sourced fun b sourced => delivery b (.next sourced)
  | transform fact passes delivers kind target delivered =>
    have delivery := mirrored_carried simulates closed fact.2 fact.1 passes (same.delivers (delivers.mono wider)) kind
      (target.mono inside) (same.targetActive (target.mono wider))
    cases delivered with
    | completed =>
      intro alive
      obtain ⟨j,related,all⟩ := delivery alive
      exact ⟨j,related,all _ .completed⟩
    | next kept =>
      intro alive
      obtain ⟨j,related,all⟩ := delivery alive
      exact ⟨j,related,all _ (.next (simulates.keeps related kept))⟩
  | replayNode caller returned allowed sourced =>
    exact mirrored_sourced simulates same sourced fun b sourced =>
      closed b (.replayNode caller.1 returned.1 (same.nodeAllowed (allowed.mono wider)) sourced)
  | replayFact caller returned kept =>
    intro alive
    obtain ⟨j,related,returned⟩ := returned.1 alive
    exact ⟨j,related,closed _ (.replayFact caller.1 returned (simulates.keeps related kept))⟩

end

theorem Simulates.reaches (simulates : Simulates A B P rel live (A.rules P seeds).least (B.rules Q seeds).least)
    (same : SameFrame P Q) {node : NodeId} (reaches : A.Reaches P seeds node) : B.Reaches Q seeds node := by
  obtain ⟨context,reached⟩ := reaches
  have mirrored := Rules.least_subset (mirrored_closed simulates same Rules.least_closed Rules.least_closed) reached
  exact ⟨context,mirrored.1⟩

end

structure Corresponds (A : FactAlgebra ι) (B : FactAlgebra κ) (rel : ι → κ → Prop) : Prop where
  introduced : A.introduces node i → ∃ j, rel i j ∧ B.introduces node j
  introducedBack : B.introduces node j → ∃ i, rel i j ∧ A.introduces node i
  keeps : rel i j → (A.keeps i ↔ B.keeps j)
  rebased : rel i j → A.rebases i i' → ∃ j', rel i' j' ∧ B.rebases j j'
  rebasedBack : rel i j → B.rebases j j' → ∃ i', rel i' j' ∧ A.rebases i i'
  reads : rel i j → (A.reads i node ↔ B.reads j node)
  passes : rel i j → (A.passes i transform ↔ B.passes j transform)
  carried : rel i j → rel (A.carried i transform) (B.carried j transform)
  scalar : rel i j → (A.scalar i transform node ↔ B.scalar j transform node)

section
variable {A : FactAlgebra ι} {B : FactAlgebra κ} {program : ClosureProgram} {rel : ι → κ → Prop} {seeds : List NodeId}

theorem Corresponds.symm (corresponds : Corresponds A B rel) : Corresponds B A fun j i => rel i j where
  introduced := corresponds.introducedBack
  introducedBack := corresponds.introduced
  keeps related := (corresponds.keeps related).symm
  rebased := corresponds.rebasedBack
  rebasedBack := corresponds.rebased
  reads related := (corresponds.reads related).symm
  passes related := (corresponds.passes related).symm
  carried := corresponds.carried
  scalar related := (corresponds.scalar related).symm

theorem Corresponds.simulates (corresponds : Corresponds A B rel) (known : Set (FlowAtom ι)) (more : Set (FlowAtom κ)) :
    Simulates A B program rel (fun _ => True) known more where
  introduced introduced kept _ := by
    obtain ⟨j,related,introduced⟩ := corresponds.introduced introduced
    exact ⟨j,related,introduced,(corresponds.keeps related).mp kept⟩
  keeps related := (corresponds.keeps related).mp
  rebased _ matched rebased _ _ := by
    obtain ⟨j,related,member⟩ := matched trivial
    obtain ⟨j',related,rebased⟩ := corresponds.rebased related rebased
    exact ⟨j,j',member,related,rebased⟩
  reads _ matched read := by
    obtain ⟨j,related,member⟩ := matched trivial
    exact ⟨j,member,(corresponds.reads related).mp read⟩
  scalar _ matched passes _ written := by
    obtain ⟨j,related,member⟩ := matched trivial
    exact ⟨j,member,(corresponds.passes related).mp passes,(corresponds.scalar related).mp written⟩
  carried _ matched passes _ _ _ := by
    obtain ⟨j,related,member⟩ := matched trivial
    exact ⟨j,member,(corresponds.passes related).mp passes,corresponds.carried related⟩
  entered _ matched passes _ _ _ := by
    obtain ⟨j,related,member⟩ := matched trivial
    exact ⟨j,member,(corresponds.passes related).mp passes⟩

theorem Corresponds.reaches (corresponds : Corresponds A B rel) {node : NodeId} :
    A.Reaches program seeds node ↔ B.Reaches program seeds node :=
  ⟨(corresponds.simulates _ _).reaches ⟨rfl,rfl,rfl,rfl⟩,(corresponds.symm.simulates _ _).reaches ⟨rfl,rfl,rfl,rfl⟩⟩

end

end FactAlgebra

end BonsaiNinja.Idg
