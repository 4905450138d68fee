import BonsaiNinja.Idg.FlowPaths

namespace BonsaiNinja.Idg
open LangApi (FlowEvent LoopControlTarget)
open Names (CharClass)
open Library.GenKill (run_append run_subset run_nonempty run_from_one)

variable {table : CharClass} {state middle : WriterState} {paths front back : List WriteOp → Prop}
  {arrives after : Option (Text × FlowNode) → Prop} {definition : Option (Text × FlowNode)}

abbrev runWrites (table : CharClass) (ops : List WriteOp) (state : WriterState) : WriterState := (writeEffects table).run ops state

theorem holds_subset {small large : WriterState} (inside : small ⊆ large) (holds : Holds small definition) : Holds large definition := by
  cases definition with
  | none => trivial
  | some definition => exact inside holds

theorem holds_singleton {definition : Text × FlowNode} (member : definition ∈ state) : ({definition} : WriterState) ⊆ state :=
  Finset.singleton_subset_iff.mpr member

theorem holds_from_one {ops : List WriteOp} (nonempty : state.Nonempty) (holds : Holds (runWrites table ops state) definition) :
    ∃ source ∈ state, Holds (runWrites table ops {source}) definition := by
  cases definition with
  | none =>
    obtain ⟨source,member⟩ := nonempty
    exact ⟨source,member,trivial⟩
  | some definition => exact run_from_one nonempty holds

-- What arrives is what the paths lead to. From a state without definitions more may arrive, but
-- not where no path leads.
structure Tracks (table : CharClass) (state : WriterState) (paths : List WriteOp → Prop)
    (arrives : Option (Text × FlowNode) → Prop) : Prop where
  sound : ∀ ops, paths ops → ∀ definition, Holds (runWrites table ops state) definition → arrives definition
  present : arrives none → ∃ ops, paths ops
  exact : state.Nonempty → ∀ definition, arrives definition → ∃ ops, paths ops ∧ Holds (runWrites table ops state) definition

namespace Tracks

theorem congr (tracks : Tracks table state front arrives) (same : ∀ ops, front ops ↔ back ops)
    (equal : ∀ definition, arrives definition ↔ after definition) : Tracks table state back after where
  sound ops path definition holds := (equal definition).mp (tracks.sound ops ((same ops).mpr path) definition holds)
  present arrived := by
    obtain ⟨ops,path⟩ := tracks.present ((equal none).mpr arrived)
    exact ⟨ops,(same ops).mp path⟩
  exact nonempty definition arrived := by
    obtain ⟨ops,path,holds⟩ := tracks.exact nonempty definition ((equal definition).mpr arrived)
    exact ⟨ops,(same ops).mp path,holds⟩

theorem never (closed : ∀ ops, ¬paths ops) (silent : ∀ definition, ¬arrives definition) : Tracks table state paths arrives where
  sound ops path := (closed ops path).elim
  present arrived := (silent none arrived).elim
  exact _ definition arrived := (silent definition arrived).elim

theorem start : Tracks table state (· = []) (Holds state) where
  sound ops same definition holds := by rwa [same] at holds
  present _ := ⟨[],rfl⟩
  exact _ _ holds := ⟨[],rfl,holds⟩

theorem once (ops : List WriteOp) : Tracks table state (· = ops) (Holds (runWrites table ops state)) where
  sound path same definition holds := by rwa [same] at holds
  present _ := ⟨ops,rfl⟩
  exact _ _ holds := ⟨ops,rfl,holds⟩

theorem or (one : Tracks table state front arrives) (two : Tracks table state back after) :
    Tracks table state (fun ops => front ops ∨ back ops) (fun definition => arrives definition ∨ after definition) where
  sound ops path definition holds := path.imp (fun path => one.sound ops path definition holds) (fun path => two.sound ops path definition holds)
  present arrived := by
    rcases arrived with arrived | arrived
    · obtain ⟨ops,path⟩ := one.present arrived
      exact ⟨ops,.inl path⟩
    · obtain ⟨ops,path⟩ := two.present arrived
      exact ⟨ops,.inr path⟩
  exact nonempty definition arrived := by
    rcases arrived with arrived | arrived
    · obtain ⟨ops,path,holds⟩ := one.exact nonempty definition arrived
      exact ⟨ops,.inl path,holds⟩
    · obtain ⟨ops,path,holds⟩ := two.exact nonempty definition arrived
      exact ⟨ops,.inr path,holds⟩

theorem any {ι : Sort _} {paths : ι → List WriteOp → Prop} {arrives : ι → Option (Text × FlowNode) → Prop}
    (each : ∀ index, Tracks table state (paths index) (arrives index)) :
    Tracks table state (fun ops => ∃ index, paths index ops) (fun definition => ∃ index, arrives index definition) where
  sound ops path definition holds := path.imp fun index path => (each index).sound ops path definition holds
  present arrived := by
    obtain ⟨index,arrived⟩ := arrived
    obtain ⟨ops,path⟩ := (each index).present arrived
    exact ⟨ops,index,path⟩
  exact nonempty definition arrived := by
    obtain ⟨index,arrived⟩ := arrived
    obtain ⟨ops,path,holds⟩ := (each index).exact nonempty definition arrived
    exact ⟨ops,⟨index,path⟩,holds⟩

theorem only {condition : Prop} (tracks : condition → Tracks table state paths arrives) :
    Tracks table state (fun ops => condition ∧ paths ops) (fun definition => condition ∧ arrives definition) where
  sound ops path definition holds := ⟨path.1,(tracks path.1).sound ops path.2 definition holds⟩
  present arrived := by
    obtain ⟨ops,path⟩ := (tracks arrived.1).present arrived.2
    exact ⟨ops,arrived.1,path⟩
  exact nonempty definition arrived := by
    obtain ⟨ops,path,holds⟩ := (tracks arrived.1).exact nonempty definition arrived.2
    exact ⟨ops,⟨arrived.1,path⟩,holds⟩

theorem nonempty (tracks : Tracks table state paths (Holds middle)) (full : state.Nonempty) : middle.Nonempty := by
  obtain ⟨ops,path⟩ := tracks.present trivial
  obtain ⟨definition,member⟩ := @run_nonempty _ _ (writeEffects table) ops _ full
  exact ⟨definition,tracks.sound ops path (some definition) member⟩

theorem run_inside (tracks : Tracks table state paths (Holds middle)) {ops : List WriteOp} (path : paths ops) :
    runWrites table ops state ⊆ middle := fun definition member => tracks.sound ops path (some definition) member

-- Paths behind paths: the state between them is the one the first lead to.
theorem follow (one : Tracks table state front (Holds middle)) (two : Tracks table middle back after) :
    Tracks table state (fun ops => ∃ first rest, ops = first ++ rest ∧ front first ∧ back rest) after where
  sound ops path definition holds := by
    obtain ⟨first,rest,rfl,leads,goes⟩ := path
    rw [runWrites,run_append] at holds
    exact two.sound rest goes definition (holds_subset (run_subset (one.run_inside leads)) holds)
  present arrived := by
    obtain ⟨first,leads⟩ := one.present trivial
    obtain ⟨rest,goes⟩ := two.present arrived
    exact ⟨first ++ rest,first,rest,rfl,leads,goes⟩
  exact nonempty definition arrived := by
    have full := one.nonempty nonempty
    obtain ⟨rest,goes,holds⟩ := two.exact full definition arrived
    obtain ⟨source,member,comes⟩ := holds_from_one full holds
    obtain ⟨first,leads,inside⟩ := one.exact nonempty (some source) member
    refine ⟨first ++ rest,⟨first,rest,rfl,leads,goes⟩,?_⟩
    rw [runWrites,run_append]
    exact holds_subset (run_subset (holds_singleton inside)) comes

end Tracks

structure Sited (sites : Set ThrowSite) (throws : List ThrowExit) : Prop where
  told : ∀ thrown ∈ throws, thrown.site ∈ sites
  once : (throws.map fun thrown => thrown.site.throwNode).Nodup

def Departs (exits : FlowExits) (departure : Departure) (definition : Option (Text × FlowNode)) : Prop :=
  match departure with
  | .falls => Arrives exits.fallthrough definition
  | .returns => Arrives exits.returns definition
  | .breaks target => Live exits.breaks target definition
  | .continues target => Live exits.continues target definition
  | .throws site => ∃ thrown ∈ exits.throws, thrown.site = site ∧ Holds thrown.writers definition

variable {sites : Set ThrowSite} {exits other : FlowExits} {throws incoming : List ThrowExit} {site : ThrowSite} {departure : Departure}

theorem not_departs_none : ¬Departs .none departure definition := by
  cases departure with
  | falls => exact not_arrives_none
  | returns => exact not_arrives_none
  | breaks target => exact live_empty
  | continues target => exact live_empty
  | throws site => simp [Departs,FlowExits.none]

theorem sited_nil : Sited sites [] := ⟨by simp,List.nodup_nil⟩

theorem addThrowTo_spec (told : sites.InjOn ThrowSite.throwNode) (sited : Sited sites throws) (inside : site ∈ sites)
    (writers : WriterState) :
    Sited sites (addThrowTo site writers throws) ∧
      (∀ other definition, (∃ thrown ∈ addThrowTo site writers throws, thrown.site = other ∧ Holds thrown.writers definition) ↔
        (∃ thrown ∈ throws, thrown.site = other ∧ Holds thrown.writers definition) ∨ other = site ∧ Holds writers definition) ∧
      ∀ node, node ∈ (addThrowTo site writers throws).map (fun thrown => thrown.site.throwNode) ↔
        node ∈ throws.map (fun thrown => thrown.site.throwNode) ∨ node = site.throwNode := by
  induction throws with
  | nil =>
    refine ⟨⟨by simpa [addThrowTo] using inside,by simp [addThrowTo]⟩,?_,by simp [addThrowTo]⟩
    intro other definition
    simp [addThrowTo,eq_comm]
  | cons existing rest ih =>
    obtain ⟨absent,once⟩ := List.nodup_cons.mp sited.once
    have first := sited.told existing (List.mem_cons_self ..)
    have later : Sited sites rest := ⟨fun thrown member => sited.told thrown (List.mem_cons_of_mem _ member),once⟩
    unfold addThrowTo
    split
    · next same =>
      have equal := told first inside same
      refine ⟨⟨?_,List.nodup_cons.mpr ⟨absent,once⟩⟩,?_,?_⟩
      · intro thrown member
        rcases List.mem_cons.mp member with rfl | member
        · exact first
        · exact later.told thrown member
      · intro other definition
        simp only [List.exists_mem_cons_iff,holds_union,equal]
        rw [@eq_comm _ other site,and_or_left,or_right_comm]
      · intro node
        change node ∈ existing.site.throwNode :: _ ↔ node ∈ existing.site.throwNode :: _ ∨ _
        rw [same,or_iff_left_of_imp fun here => here ▸ List.mem_cons_self ..]
    · next apart =>
      obtain ⟨sited,members,nodes⟩ := ih later
      refine ⟨⟨?_,List.nodup_cons.mpr ⟨?_,sited.once⟩⟩,?_,?_⟩
      · intro thrown member
        rcases List.mem_cons.mp member with rfl | member
        · exact first
        · exact sited.told thrown member
      · rw [nodes]
        rintro (member | same)
        · exact absent member
        · exact apart same
      · intro other definition
        simp only [List.exists_mem_cons_iff,members,or_assoc]
      · intro node
        simp only [List.map_cons,List.mem_cons,nodes,or_assoc]

def Departure.known (sites : Set ThrowSite) : Departure → Prop
  | .throws site => site ∈ sites
  | _ => True

theorem sited_add (told : sites.InjOn ThrowSite.throwNode) (sited : Sited sites exits.throws) (known : departure.known sites)
    (state : WriterState) : Sited sites (exits.add state departure).throws := by
  cases departure with
  | falls | returns | breaks | continues => exact sited
  | throws site => exact (addThrowTo_spec told sited known state).1

theorem arrives_merged {current : Option WriterState} :
    Arrives (some (mergeState current state)) definition ↔ Arrives current definition ∨ Holds state definition :=
  arrives_some.trans holds_mergeState

theorem departs_add (told : sites.InjOn ThrowSite.throwNode) (sited : Sited sites exits.throws) (known : departure.known sites)
    {leaving : Departure} : Departs (exits.add state departure) leaving definition ↔
      Departs exits leaving definition ∨ leaving = departure ∧ Holds state definition := by
  cases departure with
  | falls => cases leaving <;> simp [Departs,FlowExits.add,FlowExits.addFallthrough,arrives_merged]
  | returns => cases leaving <;> simp [Departs,FlowExits.add,FlowExits.addReturn,arrives_merged]
  | breaks target => cases leaving <;> simp [Departs,FlowExits.add,FlowExits.addBreak,live_addControlExit]
  | continues target => cases leaving <;> simp [Departs,FlowExits.add,FlowExits.addContinue,live_addControlExit]
  | throws site =>
    cases leaving with
    | throws other =>
      rw [Departs,FlowExits.add,FlowExits.addThrow,Departure.throws.injEq]
      exact (addThrowTo_spec told sited known state).2.1 other definition
    | _ => simp [Departs,FlowExits.add,FlowExits.addThrow]

theorem addThrows_departs (told : sites.InjOn ThrowSite.throwNode) (sited : Sited sites exits.throws)
    (known : ∀ thrown ∈ incoming, thrown.site ∈ sites) :
    Sited sites (exits.addThrows incoming).throws ∧
      ∀ leaving definition, Departs (exits.addThrows incoming) leaving definition ↔
        Departs exits leaving definition ∨ ∃ thrown ∈ incoming, leaving = .throws thrown.site ∧ Holds thrown.writers definition := by
  induction incoming generalizing exits with
  | nil => exact ⟨sited,by simp [FlowExits.addThrows]⟩
  | cons thrown incoming ih =>
    have first : Departure.known sites (.throws thrown.site) := known thrown (List.mem_cons_self ..)
    have joined : exits.addThrow thrown.site thrown.writers = exits.add thrown.writers (.throws thrown.site) := rfl
    rw [FlowExits.addThrows,List.foldl_cons,joined]
    obtain ⟨still,members⟩ := ih (sited_add told sited first thrown.writers) (fun other member => known other (List.mem_cons_of_mem _ member))
    refine ⟨still,fun leaving definition => (members leaving definition).trans ?_⟩
    rw [List.exists_mem_cons_iff,← or_assoc]
    exact or_congr_left (departs_add told sited first)

theorem arrives_addFalling {added : Option WriterState} :
    Arrives (exits.addFalling added).fallthrough definition ↔ Arrives exits.fallthrough definition ∨ Arrives added definition := by
  cases added with
  | none => exact (or_iff_left not_arrives_none).symm
  | some added => exact arrives_merged.trans (or_congr_right arrives_some.symm)

theorem arrives_addReturning {added : Option WriterState} :
    Arrives (exits.addReturning added).returns definition ↔ Arrives exits.returns definition ∨ Arrives added definition := by
  cases added with
  | none => exact (or_iff_left not_arrives_none).symm
  | some added => exact arrives_merged.trans (or_congr_right arrives_some.symm)

def FlowExits.mergeStates (exits other : FlowExits) : FlowExits :=
  let exits := (exits.addFalling other.fallthrough).addReturning other.returns
  {exits with breaks := mergeControlExits exits.breaks other.breaks, continues := mergeControlExits exits.continues other.continues}

theorem mergeStates_parts (exits other : FlowExits) : (exits.mergeStates other).throws = exits.throws ∧
    (exits.mergeStates other).fallthrough = (exits.addFalling other.fallthrough).fallthrough ∧
    (exits.mergeStates other).returns = (exits.addReturning other.returns).returns ∧
    (exits.mergeStates other).breaks = mergeControlExits exits.breaks other.breaks ∧
    (exits.mergeStates other).continues = mergeControlExits exits.continues other.continues := by
  unfold FlowExits.mergeStates
  cases other.fallthrough <;> cases other.returns <;> exact ⟨rfl,rfl,rfl,rfl,rfl⟩

theorem merge_departs (told : sites.InjOn ThrowSite.throwNode) (sited : Sited sites exits.throws)
    (known : ∀ thrown ∈ other.throws, thrown.site ∈ sites) :
    Sited sites (exits.merge other).throws ∧
      ∀ leaving definition, Departs (exits.merge other) leaving definition ↔
        Departs exits leaving definition ∨ Departs other leaving definition := by
  have merged : exits.merge other = (exits.mergeStates other).addThrows other.throws := rfl
  obtain ⟨throws,falls,returns,breaks,continues⟩ := mergeStates_parts exits other
  obtain ⟨still,members⟩ := @addThrows_departs sites (exits.mergeStates other) other.throws told (by rwa [throws]) known
  rw [merged]
  refine ⟨still,fun leaving definition => (members leaving definition).trans ?_⟩
  cases leaving with
  | falls => simp [Departs,falls,arrives_addFalling]
  | returns => simp [Departs,returns,arrives_addReturning]
  | breaks target => simp [Departs,breaks,live_mergeControlExits]
  | continues target => simp [Departs,continues,live_mergeControlExits]
  | throws site =>
    simp only [Departs,throws,Departure.throws.injEq]
    refine or_congr_right (exists_congr fun thrown => and_congr_right fun _ => ?_)
    rw [eq_comm]

theorem live_isSome {exits : ControlExitStates} {target : Option LoopControlTarget} : Live exits target none ↔ (exits.lookup target).isSome := by
  rw [Live,Option.isSome_iff_exists]
  exact exists_congr fun state => and_iff_left trivial

theorem departs_leaving : Departs exits.leaving departure definition ↔ departure ≠ .falls ∧ Departs exits departure definition := by
  cases departure with
  | falls => simp [Departs,FlowExits.leaving,not_arrives_none]
  | _ => simp [Departs,FlowExits.leaving]

theorem departs_only (told : sites.InjOn ThrowSite.throwNode) (known : departure.known sites) :
    Sited sites (FlowExits.only departure state).throws ∧
      ∀ leaving definition, Departs (.only departure state) leaving definition ↔ leaving = departure ∧ Holds state definition := by
  refine ⟨sited_add told sited_nil known state,fun leaving definition => ?_⟩
  exact (departs_add told sited_nil known).trans (or_iff_right not_departs_none)

end BonsaiNinja.Idg
