import BonsaiNinja.Idg.ClosureYields

namespace BonsaiNinja.Idg
open Library

namespace SymbolicClosureWorklist

def popped (w : SymbolicClosureWorklist) : ClosureItem → SymbolicClosureWorklist
  | .node state => { w with pendingNodes := w.pendingNodes.erase state }
  | .fact fact => { w with pendingFacts := w.pendingFacts.erase fact }

@[simp] theorem popped_atoms (w : SymbolicClosureWorklist) (item : ClosureItem) : (w.popped item).atoms = w.atoms := by
  cases item <;> rfl

theorem popped_pending {w : SymbolicClosureWorklist} {item other : ClosureItem} (pending : w.Pending other)
    (different : other ≠ item) : (w.popped item).Pending other := by
  cases item with
  | node state =>
    cases other with
    | node other => exact (List.mem_erase_of_ne fun same => different (congrArg ClosureItem.node same)).mpr pending
    | fact other => exact pending
  | fact fact =>
    cases other with
    | node other => exact pending
    | fact other => exact (List.mem_erase_of_ne fun same => different (congrArg ClosureItem.fact same)).mpr pending

theorem pending_of_popped {w : SymbolicClosureWorklist} {item other : ClosureItem} (pending : (w.popped item).Pending other) :
    w.Pending other := by
  cases item <;> cases other <;> first | exact pending | exact List.mem_of_mem_erase pending

end SymbolicClosureWorklist

namespace ClosureProgram
variable (program : ClosureProgram)

def rules (seeds : List NodeId) : Rules ClosureAtom where
  follows known atom := atom ∈ program.startWorklist.atoms ∨ atom ∈ program.seedYields seeds ∨
    (∃ item : ClosureItem, item.atom ∈ known ∧ atom ∈ program.itemYields known item) ∨ atom ∈ program.replayYields known
  mono included _ := by
    rintro (start | seeded | ⟨item,member,yields⟩ | replayed)
    · exact .inl start
    · exact .inr (.inl seeded)
    · exact .inr (.inr (.inl ⟨item,included member,itemYields_mono included yields⟩))
    · exact .inr (.inr (.inr (replayYields_mono included replayed)))

def processItem (item : ClosureItem) (w : SymbolicClosureWorklist) : SymbolicClosureWorklist :=
  match item with
  | .node state => program.propagateSymbolicClosureNode (w.popped item) state
  | .fact fact => program.propagateSymbolicClosureFact (w.popped item) fact

structure Sound (seeds : List NodeId) (w : SymbolicClosureWorklist) : Prop where
  kept : Kept program w.atoms
  waiting : ∀ item, w.Pending item → item.atom ∈ w.atoms
  started : program.startWorklist.atoms ⊆ w.atoms
  seeded : program.seedYields seeds ⊆ w.atoms

variable {program : ClosureProgram} {seeds : List NodeId} {w : SymbolicClosureWorklist} {item : ClosureItem}

theorem processItem_emits (kept : Kept program w.atoms) : Emits program (fun known => program.itemYields known item)
    (w.popped item) (program.processItem item w) := by
  rw [← SymbolicClosureWorklist.popped_atoms w item] at kept
  cases item with
  | node state => exact propagateNode_emits kept state
  | fact fact => exact propagateFact_emits kept fact

theorem processItem_atoms (kept : Kept program w.atoms) : w.atoms ⊆ (program.processItem item w).atoms := by
  have onward := (processItem_emits kept : Emits program _ _ (program.processItem item w)).onward.atoms
  rwa [SymbolicClosureWorklist.popped_atoms] at onward

theorem processItem_delivers (kept : Kept program w.atoms) :
    program.itemYields w.atoms item ⊆ (program.processItem item w).atoms := by
  have delivers := (processItem_emits kept : Emits program _ _ (program.processItem item w)).delivers
  rwa [SymbolicClosureWorklist.popped_atoms] at delivers

theorem processItem_sound (valid : program.Sound seeds w) : program.Sound seeds (program.processItem item w) where
  kept := (processItem_emits valid.kept).kept
  waiting other pending := by
    have emits : Emits program _ _ (program.processItem item w) := processItem_emits valid.kept
    rcases emits.onward.known other pending with earlier | known
    · exact processItem_atoms valid.kept (valid.waiting other (SymbolicClosureWorklist.pending_of_popped earlier))
    · exact known
  started := valid.started.trans (processItem_atoms valid.kept)
  seeded := valid.seeded.trans (processItem_atoms valid.kept)

def tabulation (program : ClosureProgram) (seeds : List NodeId) :
    Tabulation SymbolicClosureWorklist ClosureItem ClosureAtom where
  rules := program.rules seeds
  known := SymbolicClosureWorklist.atoms
  pending := SymbolicClosureWorklist.Pending
  fact := ClosureItem.atom
  yields known item atom := atom ∈ program.itemYields known item
  process := program.processItem
  Valid := program.Sound seeds
  valid_process valid _ := processItem_sound valid
  grows valid _ := processItem_atoms valid.kept
  processed {s item other} valid _ known done := by
    have onward := (processItem_emits valid.kept : Emits program _ _ (program.processItem item s)).onward
    by_cases same : other = item
    · exact .inl same
    · rcases onward.queued other known with earlier | pending
      · rw [SymbolicClosureWorklist.popped_atoms] at earlier
        exact .inr ⟨earlier,fun pending => done (onward.waiting other (SymbolicClosureWorklist.popped_pending pending same))⟩
      · exact absurd pending done
  delivers valid _ yields := processItem_delivers valid.kept yields
  sound valid pending closed start := by
    refine (processItem_emits valid.kept).sound _ (fun atom replayed => closed atom (.inr (.inr (.inr replayed)))) ?_ ?_
    · rw [SymbolicClosureWorklist.popped_atoms]
      exact start
    · exact fun atom yields => closed atom (.inr (.inr (.inl ⟨_,start (valid.waiting _ pending),yields⟩)))
  covered valid follows settled := by
    rcases follows with start | seeded | ⟨item,known,yields⟩ | replayed
    · exact valid.started start
    · exact valid.seeded seeded
    · exact settled item known yields
    · obtain ⟨boundary,context,caller,⟨node,returned,_,member⟩ | ⟨identity,returned,member⟩⟩ := replayed
      · exact valid.kept.nodes boundary node context returned caller member
      · exact valid.kept.facts boundary identity context returned caller member

-- Seeding: nothing is activated, so every seed is judged alone.
theorem kept_start : Kept program program.startWorklist.atoms where
  introduced _ member := absurd member List.not_mem_nil
  nodes _ _ _ member := absurd member List.not_mem_nil
  facts _ _ _ member := absurd member List.not_mem_nil
  allowed _ _ member := absurd member List.not_mem_nil

theorem enqueueSeed_eq {seed : NodeId} : program.enqueueSeed w seed = program.enqueueSymbolicNodeSource w ⟨seed,none⟩ := by
  unfold enqueueSeed
  split
  · rfl
  · next refused =>
    have blocked : program.symbolicNodeAllowed w seed = false := by
      rw [Bool.eq_false_iff]
      intro allowed
      exact refused ⟨(symbolicNodeAllowed_iff.mp allowed).inside,allowed⟩
    simp [enqueueSymbolicNodeSource,blocked]

theorem seedWorklist_eq : program.seedWorklist seeds =
    (seeds.map fun seed => (⟨seed,none⟩ : ClosureNodeState)).foldl program.enqueueSymbolicNodeSource program.startWorklist := by
  rw [List.foldl_map]
  unfold seedWorklist
  congr 1
  funext w seed
  exact enqueueSeed_eq

theorem seedWorklist_atoms : (program.seedWorklist seeds).atoms = program.startWorklist.atoms ∪ program.seedYields seeds := by
  rw [seedWorklist_eq, enqueueSources_atoms _ kept_start.introduced]
  ext atom
  simp only [Set.mem_union, Set.mem_ofPred_eq, List.mem_map, exists_exists_and_eq_and, seedYields]

theorem seedWorklist_extends : Extends program.startWorklist (program.seedWorklist seeds) := by
  rw [seedWorklist_eq]
  exact foldl_extends (fun _ _ => enqueueSource_extends) _ _

theorem seedWorklist_sound : program.Sound seeds (program.seedWorklist seeds) where
  kept := by
    rw [seedWorklist_atoms]
    exact kept_start.union (Plain.all fun seed => plain_sourced.gate)
  waiting item pending := by
    rcases seedWorklist_extends.known item pending with earlier | known
    · cases item <;> exact absurd earlier List.not_mem_nil
    · exact known
  started := by rw [seedWorklist_atoms]; exact Set.subset_union_left
  seeded := by rw [seedWorklist_atoms]; exact Set.subset_union_right

theorem seedWorklist_settled : (tabulation program seeds).Settled (program.seedWorklist seeds) := by
  intro item processed
  rcases seedWorklist_extends.queued item processed.1 with earlier | pending
  · cases item <;> exact absurd earlier List.not_mem_nil
  · exact absurd pending processed.2

theorem seedWorklist_least : (program.seedWorklist seeds).atoms ⊆ (program.rules seeds).least := by
  rw [seedWorklist_atoms]
  refine Set.union_subset (fun atom start => Rules.least_closed atom (.inl start)) fun atom seeded => ?_
  exact Rules.least_closed atom (.inr (.inl seeded))

theorem rules_mono {more : List NodeId} (included : seeds ⊆ more) :
    (program.rules seeds).least ⊆ (program.rules more).least := by
  apply Rules.least_mono
  intro known atom follows
  rcases follows with start | ⟨seed,member,allowed,yields⟩ | rest
  · exact .inl start
  · exact .inr (.inl ⟨seed,included member,allowed,yields⟩)
  · exact .inr (.inr rest)

-- What processing one item can derive by itself.
def stepRules (program : ClosureProgram) (known : Set ClosureAtom) (item : ClosureItem) : Rules ClosureAtom where
  follows derived atom := atom ∈ known ∨ atom ∈ program.itemYields derived item ∨ atom ∈ program.replayYields derived
  mono included _ := .imp id (.imp (itemYields_mono included ·) (replayYields_mono included ·))

def opens (program : ClosureProgram) (w : SymbolicClosureWorklist) (item : ClosureItem) : Set ClosureAtom :=
  (program.stepRules w.atoms item).least

-- A step is on time when what it derives opens no rule of the item itself, and no
-- rule of an item processed before, that was refused: rules are judged once, when
-- their item is popped.
structure OnTime (program : ClosureProgram) (w : SymbolicClosureWorklist) (item : ClosureItem) : Prop where
  own : program.itemYields (program.opens w item) item ⊆ program.itemYields w.atoms item ∪ w.atoms
  earlier : ∀ other : ClosureItem, other.atom ∈ w.atoms → ¬w.Pending other →
    program.itemYields (program.opens w item) other ⊆ program.itemYields w.atoms other ∪ program.opens w item

theorem processItem_opens (valid : program.Sound seeds w) : (program.processItem item w).atoms ⊆ program.opens w item := by
  refine (processItem_emits valid.kept).sound _ (fun atom replayed => Rules.least_closed atom (.inr (.inr replayed))) ?_ ?_
  · rw [SymbolicClosureWorklist.popped_atoms]
    exact fun atom member => Rules.least_closed atom (.inl member)
  · exact fun atom yields => Rules.least_closed atom (.inr (.inl yields))

theorem opens_processItem (valid : program.Sound seeds w) (onTime : program.OnTime w item) :
    program.opens w item ⊆ (program.processItem item w).atoms := by
  refine Rules.least_subset fun atom follows => ?_
  rcases follows with known | yields | replayed
  · exact processItem_atoms valid.kept known
  · rcases onTime.own (itemYields_mono (processItem_opens valid) yields) with before | known
    · exact processItem_delivers valid.kept before
    · exact processItem_atoms valid.kept known
  · have kept : Kept program (program.processItem item w).atoms := (processItem_emits valid.kept).kept
    obtain ⟨boundary,context,caller,⟨node,returned,_,member⟩ | ⟨identity,returned,member⟩⟩ := replayed
    · exact kept.nodes boundary node context returned caller member
    · exact kept.facts boundary identity context returned caller member

theorem quiet_onTime (valid : program.Sound seeds w) (onTime : program.OnTime w item) :
    (tabulation program seeds).Quiet w item := by
  intro other done atom yields
  have opened := itemYields_mono (processItem_opens valid) yields
  rcases done with rfl | processed
  · exact (onTime.own opened).imp id fun known => processItem_atoms valid.kept known
  · exact (onTime.earlier other processed.1 processed.2 opened).imp id fun known => opens_processItem valid onTime known

def OnTimeStep (program : ClosureProgram) (w w' : SymbolicClosureWorklist) : Prop :=
  ∃ item, w.Pending item ∧ program.OnTime w item ∧ w' = program.processItem item w

abbrev OnTimeRuns (program : ClosureProgram) : SymbolicClosureWorklist → SymbolicClosureWorklist → Prop :=
  Relation.ReflTransGen program.OnTimeStep

def Drained (w : SymbolicClosureWorklist) : Prop := ∀ item, ¬w.Pending item

theorem quietRuns_onTime {start : SymbolicClosureWorklist} (run : program.OnTimeRuns start w) (valid : program.Sound seeds start) :
    (tabulation program seeds).QuietRuns start w ∧ program.Sound seeds w := by
  induction run with
  | refl => exact ⟨.refl,valid⟩
  | tail _ step previous =>
    obtain ⟨item,pending,onTime,rfl⟩ := step
    exact ⟨previous.1.tail ⟨item,pending,quiet_onTime previous.2 onTime,rfl⟩,processItem_sound previous.2⟩

theorem onTime_least (run : program.OnTimeRuns (program.seedWorklist seeds) w) (drained : Drained w) :
    w.atoms = (program.rules seeds).least :=
  Tabulation.QuietRuns.least (quietRuns_onTime run seedWorklist_sound).1 seedWorklist_sound seedWorklist_settled
    seedWorklist_least drained

-- Without a summary root nothing is activated, so every step is on time.
theorem onTime_unrooted (unrooted : program.policy.summaryRoot = none) : program.OnTime w item where
  own _ yields := .inl (itemYields_within (activeWithin_unrooted unrooted) yields)
  earlier _ _ _ _ yields := .inl (itemYields_within (activeWithin_unrooted unrooted) yields)

end ClosureProgram

end BonsaiNinja.Idg
