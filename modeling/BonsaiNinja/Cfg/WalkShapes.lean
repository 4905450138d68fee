import BonsaiNinja.Cfg.BlockRanges
import BonsaiNinja.Cfg.WalkRules

namespace BonsaiNinja.Cfg
open Library LangApi

-- A block that edges may lead to: no placeholder behind an abrupt event.
def Enterable (blocks : Blocks) (id : Nat) : Prop :=
  ∃ block, blocks[id]? = some block ∧ block.syntheticKind ≠ some .unreachable

structure Shaped (blocks : Blocks) : Prop where
  ids : ∀ (id : Nat) (block : BasicBlock), blocks[id]? = some block → block.id = id
  kinds : ∀ (id : Nat) (block : BasicBlock), blocks[id]? = some block → block.syntheticKind ≠ none
  nodup : ∀ (id : Nat) (block : BasicBlock), blocks[id]? = some block → block.successors.Nodup
  few : ∀ (id : Nat) (block : BasicBlock), blocks[id]? = some block → block.successors.length ≤ 2
  enterable : ∀ (id : Nat) (block : BasicBlock), blocks[id]? = some block → ∀ next ∈ block.successors, Enterable blocks next

def Keeps (before after : Blocks) : Prop :=
  ∀ (id : Nat) (block : BasicBlock), before[id]? = some block → ∃ later : BasicBlock, after[id]? = some later ∧ later.syntheticKind = block.syntheticKind

def Edge (blocks : Blocks) (source target : Nat) : Prop :=
  ∃ block, blocks[source]? = some block ∧ target ∈ block.successors

def Leads (blocks : Blocks) (id : Nat) (successors : List Nat) : Prop :=
  ∃ stop returns, Holds (viewOf blocks) id stop successors returns

structure Steps (before after : Blocks) (touched : Nat → Prop) : Prop where
  touches : Touches before after touched
  keeps : Keeps before after
  edges : ∀ source target, Edge before source target → Edge after source target
  shaped : Shaped before → Shaped after

section steps
variable {blocks after last : Blocks} {id source target : Nat} {successors : List Nat}
  {touched touched' : Nat → Prop}

theorem Enterable.later (entered : Enterable blocks id) (keeps : Keeps blocks after) : Enterable after id := by
  obtain ⟨block,found,live⟩ := entered
  obtain ⟨later,found',same⟩ := keeps id block found
  exact ⟨later,found',by rwa [same]⟩

theorem Steps.refl : Steps blocks blocks touched :=
  ⟨Touches.refl.mono fun _ _ => False.elim,fun _ block found => ⟨block,found,rfl⟩,fun _ _ edge => edge,id⟩

theorem Steps.trans (first : Steps blocks after touched) (next : Steps after last touched') :
    Steps blocks last fun i => touched i ∨ touched' i where
  touches := first.touches.trans next.touches
  keeps i block found := by
    obtain ⟨middle,found',same⟩ := first.keeps i block found
    obtain ⟨final,found'',same'⟩ := next.keeps i middle found'
    exact ⟨final,found'',same'.trans same⟩
  edges i j edge := next.edges i j (first.edges i j edge)
  shaped before := next.shaped (first.shaped before)

theorem Steps.mono (steps : Steps blocks after touched) (wider : ∀ i < blocks.length, touched i → touched' i) :
    Steps blocks after touched' := ⟨steps.touches.mono wider,steps.keeps,steps.edges,steps.shaped⟩

theorem Steps.extend (first : Steps blocks after fun _ => False) (next : Steps after last touched) : Steps blocks last touched :=
  (first.trans next).mono fun _ _ changed => changed.resolve_left id

theorem Steps.grow (first : Steps blocks after touched) (next : Steps after last fun _ => False) : Steps blocks last touched :=
  (first.trans next).mono fun _ _ changed => changed.resolve_right id

theorem Steps.longer (steps : Steps blocks after touched) : blocks.length ≤ after.length := steps.touches.length

theorem getElem?_newBlock (label : String) (kind : SyntheticBlockKind) : (newBlock blocks label kind)[id]? =
    if id = blocks.length then some ⟨blocks.length,label,some kind,[],[],.fallthrough,⟨invalidFile,0,0⟩⟩ else blocks[id]? := by
  unfold newBlock
  rcases Nat.lt_trichotomy id blocks.length with lower | rfl | upper
  · rw [List.getElem?_append_left lower, if_neg (Nat.ne_of_lt lower)]
  · rw [List.getElem?_append_right (Nat.le_refl _), Nat.sub_self, if_pos rfl]
    rfl
  · rw [List.getElem?_eq_none (by rw [List.length_append, List.length_singleton]; omega), if_neg (Nat.ne_of_gt upper),
      List.getElem?_eq_none upper.le]

theorem keeps_newBlock (label : String) (kind : SyntheticBlockKind) : Keeps blocks (newBlock blocks label kind) := by
  intro i block found
  have inside := (List.getElem?_eq_some_iff.mp found).1
  exact ⟨block,by rw [getElem?_newBlock, if_neg (Nat.ne_of_lt inside), found],rfl⟩

theorem steps_newBlock (label : String) (kind : SyntheticBlockKind) :
    Steps blocks (newBlock blocks label kind) fun _ => False where
  touches := touches_newBlock label kind
  keeps := keeps_newBlock label kind
  edges i j edge := by
    obtain ⟨block,found,member⟩ := edge
    have inside := (List.getElem?_eq_some_iff.mp found).1
    exact ⟨block,by rw [getElem?_newBlock, if_neg (Nat.ne_of_lt inside), found],member⟩
  shaped before := by
    have split : ∀ (i : Nat) (block : BasicBlock), (newBlock blocks label kind)[i]? = some block → blocks[i]? = some block ∨
        i = blocks.length ∧ block.id = blocks.length ∧ block.syntheticKind ≠ none ∧ block.successors = [] := by
      intro i block found
      rw [getElem?_newBlock] at found
      split at found
      · next last =>
        cases found
        exact .inr ⟨last,rfl,nofun,rfl⟩
      · exact .inl found
    refine ⟨fun i block found => ?_,fun i block found => ?_,fun i block found => ?_,fun i block found => ?_,
      fun i block found next member => ?_⟩ <;> rcases split i block found with old | ⟨last,same,kind,none⟩
    · exact before.ids i block old
    · rw [same, last]
    · exact before.kinds i block old
    · exact kind
    · exact before.nodup i block old
    · rw [none]
      exact List.nodup_nil
    · exact before.few i block old
    · rw [none]
      exact Nat.zero_le _
    · exact (before.enterable i block old next member).later (keeps_newBlock label kind)
    · rw [none] at member
      cases member

theorem enterable_newBlock (label : String) {kind : SyntheticBlockKind} (live : kind ≠ .unreachable) :
    Enterable (newBlock blocks label kind) blocks.length :=
  ⟨_,by rw [getElem?_newBlock, if_pos rfl],fun same => live (Option.some.inj same)⟩

section modify
variable {change : BasicBlock → BasicBlock}

theorem keeps_modify (same : ∀ block, (change block).syntheticKind = block.syntheticKind) :
    Keeps blocks (blocks.modify id change) := by
  intro i block found
  rw [List.getElem?_modify, found]
  refine ⟨_,rfl,?_⟩
  split
  · exact same block
  · rfl

theorem edges_modify (grows : ∀ block, ∀ next ∈ block.successors, next ∈ (change block).successors) (source target : Nat)
    (edge : Edge blocks source target) : Edge (blocks.modify id change) source target := by
  obtain ⟨block,found,member⟩ := edge
  refine ⟨if id = source then change block else block,?_,?_⟩
  · rw [List.getElem?_modify, found]
    rfl
  · split
    · exact grows block target member
    · exact member

theorem shaped_modify (shaped : Shaped blocks) (ids : ∀ block, (change block).id = block.id)
    (kinds : ∀ block, (change block).syntheticKind = block.syntheticKind)
    (changed : ∀ block, blocks[id]? = some block → (change block).successors.Nodup ∧ (change block).successors.length ≤ 2 ∧
      ∀ next ∈ (change block).successors, Enterable blocks next) : Shaped (blocks.modify id change) := by
  have split : ∀ (i : Nat) (later : BasicBlock), (blocks.modify id change)[i]? = some later → blocks[i]? = some later ∨
      ∃ block, i = id ∧ blocks[i]? = some block ∧ later = change block := by
    intro i later found
    rw [List.getElem?_modify] at found
    obtain ⟨block,present,rfl⟩ := Option.map_eq_some_iff.mp found
    split
    · next here => exact .inr ⟨block,here.symm,present,rfl⟩
    · exact .inl present
  refine ⟨fun i later found => ?_,fun i later found => ?_,fun i later found => ?_,fun i later found => ?_,
    fun i later found next member => ?_⟩ <;> rcases split i later found with old | ⟨block,rfl,present,rfl⟩
  · exact shaped.ids i later old
  · rw [ids]
    exact shaped.ids i block present
  · exact shaped.kinds i later old
  · rw [kinds]
    exact shaped.kinds i block present
  · exact shaped.nodup i later old
  · exact (changed block present).1
  · exact shaped.few i later old
  · exact (changed block present).2.1
  · exact (shaped.enterable i later old next member).later (keeps_modify kinds)
  · exact ((changed block present).2.2 next member).later (keeps_modify kinds)

theorem shaped_modify_same (ids : ∀ block, (change block).id = block.id)
    (kinds : ∀ block, (change block).syntheticKind = block.syntheticKind)
    (successors : ∀ block, (change block).successors = block.successors) (shaped : Shaped blocks) :
    Shaped (blocks.modify id change) := by
  refine shaped_modify shaped ids kinds fun block found => ?_
  rw [successors]
  exact ⟨shaped.nodup id block found,shaped.few id block found,shaped.enterable id block found⟩

end modify

theorem steps_recordSpan (id : Nat) (span : Span) : Steps blocks (recordSpan blocks id span) fun _ => False where
  touches := touches_recordSpan id span
  keeps := keeps_modify fun block => by split <;> rfl
  edges := edges_modify fun block next member => by split <;> exact member
  shaped := shaped_modify_same (fun block => by split <;> rfl) (fun block => by split <;> rfl) fun block => by split <;> rfl

theorem steps_setTerminator (id : Nat) (terminator : Terminator) :
    Steps blocks (setTerminator blocks id terminator) (· = id) where
  touches := touches_setTerminator id terminator
  keeps := keeps_modify fun _ => rfl
  edges := edges_modify fun _ _ member => member
  shaped := shaped_modify_same (fun _ => rfl) (fun _ => rfl) fun _ => rfl

theorem steps_pushEvent (id : Nat) (event : FlowEvent) : Steps blocks (pushEvent blocks id event) (· = id) where
  touches := touches_pushEvent id event
  keeps := keeps_modify fun _ => rfl
  edges := edges_modify fun _ _ member => member
  shaped := shaped_modify_same (fun _ => rfl) (fun _ => rfl) fun _ => rfl

section
variable (leads : Leads blocks id successors)
include leads

theorem Leads.found : ∃ block, blocks[id]? = some block ∧ block.successors = successors := by
  obtain ⟨_,_,node,found,_,same,_⟩ := leads
  obtain ⟨block,present,rfl⟩ := Option.map_eq_some_iff.mp found
  exact ⟨block,present,same⟩

theorem Leads.lt : id < blocks.length := by
  obtain ⟨_,_,holds⟩ := leads
  exact holds.lt

theorem Leads.kept (steps : Steps blocks after touched) (untouched : ¬touched id) :
    Leads after id successors := by
  obtain ⟨stop,returns,holds⟩ := leads
  exact ⟨stop,returns,holds.kept steps.touches untouched⟩

theorem Leads.link (fresh : target ∉ successors) :
    Leads (link blocks id target) id (successors ++ [target]) := by
  obtain ⟨stop,returns,holds⟩ := leads
  exact ⟨stop,returns,holds.link fresh⟩

theorem Leads.setTerminator (terminator : Terminator) :
    Leads (setTerminator blocks id terminator) id successors := by
  obtain ⟨stop,returns,holds⟩ := leads
  exact ⟨stop,_,holds.setTerminator terminator⟩

theorem Leads.pushEvent (event : FlowEvent) :
    Leads (pushEvent blocks id event) id successors := by
  obtain ⟨stop,returns,holds⟩ := leads
  exact ⟨stop + 1,returns,holds.pushEvent event⟩

end

theorem leads_newBlock (label : String) (kind : SyntheticBlockKind) : Leads (newBlock blocks label kind) blocks.length [] :=
  ⟨0,false,holds_newBlock label kind⟩

theorem steps_link (leads : Leads blocks source successors) (few : successors.length ≤ 1) (entered : Enterable blocks target) :
    Steps blocks (link blocks source target) (· = source) where
  touches := touches_link source target
  keeps := keeps_modify fun block => by split <;> rfl
  edges := edges_modify fun block next member => by
    split
    · exact member
    · exact List.mem_append_left _ member
  shaped shaped := by
    refine shaped_modify shaped (fun block => by split <;> rfl) (fun block => by split <;> rfl) fun block found => ?_
    obtain ⟨other,found',same⟩ := leads.found
    cases found.symm.trans found'
    split
    · exact ⟨shaped.nodup source block found,shaped.few source block found,shaped.enterable source block found⟩
    · next missing =>
      refine ⟨?_,?_,fun next member => ?_⟩
      · exact List.nodup_append.mpr ⟨shaped.nodup source block found,List.nodup_singleton _,fun one among two only equal =>
          missing (List.mem_singleton.mp only ▸ equal ▸ among)⟩
      · rw [List.length_append, List.length_singleton, same]
        omega
      · rcases List.mem_append.mp member with old | new
        · exact shaped.enterable source block found next old
        · rw [List.mem_singleton.mp new]
          exact entered

end steps

structure Adds (before after : Blocks) (count : Nat) : Prop where
  steps : Steps before after fun _ => False
  length : after.length = before.length + count
  opened : ∀ i, before.length ≤ i → i < before.length + count → Leads after i [] ∧ Enterable after i

structure Entered (exit : Nat) (loops : List LoopTargets) (blocks : Blocks) : Prop where
  exit : Enterable blocks exit
  targets : ∀ target ∈ loops, Enterable blocks target.breakTo ∧ Enterable blocks target.continueTo

section parts
variable {exit cur source : Nat} {loops : List LoopTargets} {blocks after last : Blocks} {span : Span} {count : Nat}
  {touched : Nat → Prop}

theorem Adds.refl : Adds blocks blocks 0 := ⟨.refl,rfl,fun _ lower upper => absurd upper (Nat.not_lt.mpr lower)⟩

theorem Adds.newBlock (adds : Adds blocks after count) (label : String) {kind : SyntheticBlockKind} (live : kind ≠ .unreachable) :
    Adds blocks (newBlock after label kind) (count + 1) where
  steps := (adds.steps.trans (steps_newBlock label kind)).mono fun _ _ changed => changed.elim id id
  length := by rw [newBlock_length, adds.length, Nat.add_assoc]
  opened i lower upper := by
    have added := @steps_newBlock after label kind
    by_cases old : i < blocks.length + count
    · obtain ⟨leads,entered⟩ := adds.opened i lower old
      exact ⟨leads.kept added id,entered.later added.keeps⟩
    · have here : i = after.length := by
        rw [adds.length]
        omega
      rw [here]
      exact ⟨leads_newBlock label kind,enterable_newBlock label live⟩

theorem Adds.then (adds : Adds blocks after count) (steps : Steps after last touched)
    (older : ∀ i, touched i → i < blocks.length) (i : Nat) (lower : blocks.length ≤ i) (upper : i < blocks.length + count) :
    Leads last i [] ∧ Enterable last i := by
  obtain ⟨leads,entered⟩ := adds.opened i lower upper
  exact ⟨leads.kept steps fun here => absurd (older i here) (Nat.not_lt.mpr lower),entered.later steps.keeps⟩

section
variable (entered : Entered exit loops blocks)
include entered

theorem Entered.later (keeps : Keeps blocks after) : Entered exit loops after where
  exit := entered.exit.later keeps
  targets target member := by
    obtain ⟨breaks,continues⟩ := entered.targets target member
    exact ⟨breaks.later keeps,continues.later keeps⟩

theorem Entered.loop {target : LoopTargets} (breaks : Enterable blocks target.breakTo)
    (continues : Enterable blocks target.continueTo) : Entered exit (target :: loops) blocks where
  exit := entered.exit
  targets other member := by
    rcases List.mem_cons.mp member with rfl | member
    · exact ⟨breaks,continues⟩
    · exact entered.targets other member

theorem Entered.transfer (event : FlowEvent) :
    Enterable blocks (controlTransferTarget event loops exit).1 := by
  unfold controlTransferTarget
  split
  · next label =>
    cases selected : selectTarget label loops with
    | none => exact entered.exit
    | some found => exact (entered.targets found (selectTarget_mem selected)).1
  · next label =>
    cases selected : selectTarget label loops with
    | none => exact entered.exit
    | some found => exact (entered.targets found (selectTarget_mem selected)).2
  · exact entered.exit

end

theorem forkBranch_steps (leads : Leads blocks cur []) : Steps blocks (forkBranch blocks cur span) (· = cur) ∧
    Leads (forkBranch blocks cur span) cur [blocks.length + 1,blocks.length + 2] ∧ ∀ i, blocks.length ≤ i → i < blocks.length + 3 → Leads (forkBranch blocks cur span) i [] ∧
      Enterable (forkBranch blocks cur span) i := by
  have inside := leads.lt
  have marked : Steps blocks (setTerminator (recordSpan blocks cur span) cur .branch) (· = cur) :=
    ((steps_recordSpan cur span).trans (steps_setTerminator cur .branch)).mono fun _ _ changed => changed.resolve_left id
  have fork := ((leads.kept (steps_recordSpan cur span) id).setTerminator .branch)
  have length : (setTerminator (recordSpan blocks cur span) cur .branch).length = blocks.length := by simp
  unfold forkBranch
  dsimp only
  generalize setTerminator (recordSpan blocks cur span) cur .branch = start at marked fork length ⊢
  rw [length]
  have adds := (((Adds.refl : Adds start start 0).newBlock s!"join@{span.start}" (nofun : SyntheticBlockKind.branchJoin ≠ .unreachable)).newBlock
    s!"then@{span.start}" (nofun : SyntheticBlockKind.branchThen ≠ .unreachable)).newBlock s!"else@{span.start}"
    (nofun : SyntheticBlockKind.branchElse ≠ .unreachable)
  generalize newBlock (newBlock (newBlock start _ _) _ _) _ _ = three at adds ⊢
  have opened := fork.kept adds.steps id
  have thenOpen := (adds.opened (blocks.length + 1) (by omega) (by omega)).2
  have elseOpen := (adds.opened (blocks.length + 2) (by omega) (by omega)).2
  have first := steps_link opened (Nat.zero_le 1) thenOpen
  have linked := opened.link (List.not_mem_nil (a := blocks.length + 1))
  have second := steps_link linked (Nat.le_refl 1) (elseOpen.later first.keeps)
  have links := (first.trans second).mono fun _ _ changed => changed.elim id id
  refine ⟨((marked.trans adds.steps).trans links).mono ?_,?_,fun i lower upper => ?_⟩
  · intro i _ changed
    rcases changed with (here | none) | here
    · exact here
    · exact none.elim
    · exact here
  · exact linked.link (by simp)
  · exact adds.then links (fun i here => here ▸ (by rw [length]; exact inside)) i (by rw [length]; exact lower)
      (by rw [length]; exact upper)

theorem enterLoop_adds : Adds blocks (enterLoop blocks cur span) 3 := by
  have start : Adds blocks (recordSpan blocks cur span) 0 :=
    ⟨steps_recordSpan cur span,recordSpan_length span,fun _ lower upper => absurd upper (Nat.not_lt.mpr lower)⟩
  exact ((start.newBlock _ (nofun : SyntheticBlockKind.loopHeader ≠ .unreachable)).newBlock _
    (nofun : SyntheticBlockKind.loopBody ≠ .unreachable)).newBlock _ (nofun : SyntheticBlockKind.loopAfter ≠ .unreachable)

theorem linkLoop_steps {conditionTail header : Nat} (loopKind : LoopKind) (leads : Leads blocks cur [])
    (tested : Leads blocks conditionTail []) (other : conditionTail ≠ cur)
    (entered : ∀ i, header ≤ i → i < header + 3 → Enterable blocks i) :
    Steps blocks (linkLoop blocks cur conditionTail header loopKind) (fun i => i = conditionTail ∨ i = cur) ∧
      Leads (linkLoop blocks cur conditionTail header loopKind) cur [if loopKind = .doWhile then header + 1 else header] ∧
      Leads (linkLoop blocks cur conditionTail header loopKind) conditionTail
        (if loopKind = .loop then [header + 1] else [header + 1,header + 2]) := by
  have marked := @steps_setTerminator blocks conditionTail .loopHeader
  have head := leads.kept marked (Ne.symm other)
  have tail := tested.setTerminator .loopHeader
  unfold linkLoop
  dsimp only
  generalize setTerminator blocks conditionTail .loopHeader = start at marked head tail ⊢
  have inner : Enterable start (if loopKind = .doWhile then header + 1 else header) :=
    (entered _ (by split <;> omega) (by split <;> omega)).later marked.keeps
  have first := steps_link head (Nat.zero_le 1) inner
  have tail' := tail.kept first other
  have head' := head.link (List.not_mem_nil (a := if loopKind = .doWhile then header + 1 else header))
  generalize link start cur _ = linked at first tail' head' ⊢
  have second := steps_link tail' (Nat.zero_le 1)
    (((entered (header + 1) (by omega) (by omega)).later marked.keeps).later first.keeps)
  have both := (marked.trans first).trans second
  have head'' := head'.kept second (Ne.symm other)
  have tail'' := tail'.link (List.not_mem_nil (a := header + 1))
  split
  · refine ⟨both.mono fun _ _ changed => ?_,head'',tail''⟩
    rcases changed with (here | here) | here
    · exact .inl here
    · exact .inr here
    · exact .inl here
  · have third := steps_link tail'' (Nat.le_refl 1) ((entered (header + 2) (by omega) (by omega)).later both.keeps)
    refine ⟨(both.trans third).mono fun _ _ changed => ?_,head''.kept third (Ne.symm other),tail''.link (by simp)⟩
    rcases changed with ((here | here) | here) | here
    · exact .inl here
    · exact .inr here
    · exact .inl here
    · exact .inl here

theorem joinFinally_steps (leads : Leads blocks cur []) : Steps blocks (joinFinally blocks cur span) (· = cur) ∧
    Leads (joinFinally blocks cur span) blocks.length [] ∧ Enterable (joinFinally blocks cur span) blocks.length ∧
    Leads (joinFinally blocks cur span) cur [blocks.length] := by
  have inside := leads.lt
  have added := @steps_newBlock blocks s!"finally@{span.start}" .finally
  have opened := leads.kept added id
  have fresh := @enterable_newBlock blocks s!"finally@{span.start}" .finally nofun
  have linked := steps_link opened (Nat.zero_le 1) fresh
  refine ⟨(added.trans linked).mono fun _ _ changed => changed.resolve_left id,?_,fresh.later linked.keeps,
    opened.link List.not_mem_nil⟩
  exact (leads_newBlock _ _).kept linked (Nat.ne_of_gt inside)

theorem enterFinally_steps (leads : Leads blocks cur []) : Steps blocks (enterFinally blocks cur span) (· = cur) ∧
    Leads (enterFinally blocks cur span) blocks.length [] ∧ Enterable (enterFinally blocks cur span) blocks.length ∧
    Leads (enterFinally blocks cur span) cur [blocks.length] := by
  obtain ⟨steps,opened,entered,linked⟩ := @joinFinally_steps cur blocks span leads
  have marked := @steps_recordSpan (joinFinally blocks cur span) blocks.length span
  exact ⟨(steps.trans marked).mono fun _ _ changed => changed.resolve_right id,opened.kept marked id,
    entered.later marked.keeps,linked.kept marked id⟩

theorem enterTry_steps (leads : Leads blocks cur []) : Steps blocks (enterTry blocks cur span) (· = cur) ∧
    Leads (enterTry blocks cur span) (blocks.length + 1) [] ∧ Enterable (enterTry blocks cur span) (blocks.length + 1) ∧
    Leads (enterTry blocks cur span) blocks.length [blocks.length + 1] ∧
    Enterable (enterTry blocks cur span) blocks.length ∧ Leads (enterTry blocks cur span) cur [blocks.length] := by
  have inside := leads.lt
  have marked := @steps_recordSpan blocks cur span
  have start := leads.kept marked id
  have length : (recordSpan blocks cur span).length = blocks.length := recordSpan_length span
  unfold enterTry
  dsimp only
  rw [length]
  generalize recordSpan blocks cur span = recorded at marked start length ⊢
  have added := @steps_newBlock recorded s!"try_fork@{span.start}" .tryFork
  have anchorOpen := @leads_newBlock recorded s!"try_fork@{span.start}" .tryFork
  have anchored := @enterable_newBlock recorded s!"try_fork@{span.start}" .tryFork nofun
  have start' := start.kept added id
  have longer : (newBlock recorded s!"try_fork@{span.start}" .tryFork).length = blocks.length + 1 := by
    rw [newBlock_length, length]
  rw [length] at anchorOpen anchored
  generalize newBlock recorded _ _ = one at added anchorOpen anchored start' longer ⊢
  have linked := (steps_link start' (Nat.zero_le 1) anchored).trans
    (@steps_recordSpan (link one cur blocks.length) blocks.length span)
  have links : Steps one (recordSpan (link one cur blocks.length) blocks.length span) (· = cur) :=
    linked.mono fun _ _ changed => changed.resolve_right id
  have anchorOpen' := anchorOpen.kept links (Nat.ne_of_gt inside)
  have start'' := (start'.link (List.not_mem_nil (a := blocks.length))).kept
    (@steps_recordSpan (link one cur blocks.length) blocks.length span) id
  have longer' : (recordSpan (link one cur blocks.length) blocks.length span).length = blocks.length + 1 := by
    rw [recordSpan_length, link_length, longer]
  generalize recordSpan (link one cur blocks.length) blocks.length span = two at linked links anchorOpen' start'' longer' ⊢
  have added' := @steps_newBlock two s!"try@{span.start}" .tryBody
  have bodyOpen := @leads_newBlock two s!"try@{span.start}" .tryBody
  have bodied := @enterable_newBlock two s!"try@{span.start}" .tryBody nofun
  rw [longer'] at bodyOpen bodied
  have last := steps_link (anchorOpen'.kept added' id) (Nat.zero_le 1) bodied
  refine ⟨((((marked.trans added).trans links).trans added').trans last).mono ?_,bodyOpen.kept last (Nat.succ_ne_self _),
    bodied.later last.keeps,(anchorOpen'.kept added' id).link List.not_mem_nil,
    ((anchored.later links.keeps).later added'.keeps).later last.keeps,
    (start''.kept added' id).kept last (Nat.ne_of_lt inside)⟩
  intro i lower changed
  rcases changed with (((none | none) | here) | none) | anchor
  · exact none.elim
  · exact none.elim
  · exact here
  · exact none.elim
  · omega

theorem enterCatch_steps {anchor target : Nat} (leads : Leads blocks anchor [target]) (fresh : target ≠ blocks.length) :
    Steps blocks (enterCatch blocks span anchor) (· = anchor) ∧ Leads (enterCatch blocks span anchor) blocks.length [] ∧
      Enterable (enterCatch blocks span anchor) blocks.length ∧
      Leads (enterCatch blocks span anchor) anchor [target,blocks.length] := by
  have inside := leads.lt
  have added := @steps_newBlock blocks s!"catch@{span.start}" .catch
  have entered := @enterable_newBlock blocks s!"catch@{span.start}" .catch nofun
  have linked := (steps_link (leads.kept added id) (Nat.le_refl 1) entered).trans (steps_setTerminator anchor .tryFork)
  refine ⟨(added.trans linked).mono ?_,?_,entered.later linked.keeps,?_⟩
  · intro i _ changed
    rcases changed with none | here | here
    · exact none.elim
    · exact here
    · exact here
  · refine (leads_newBlock _ _).kept linked fun changed => ?_
    exact Nat.ne_of_gt inside (changed.elim id id)
  · exact ((leads.kept added id).link (fun member => fresh (List.mem_singleton.mp member).symm)).setTerminator .tryFork

theorem markAbrupt_steps (event : FlowEvent) (terminator : Terminator) (leads : Leads blocks cur []) :
    Steps blocks (markAbrupt blocks cur event terminator) (· = cur) ∧ Leads (markAbrupt blocks cur event terminator) cur [] := by
  have recorded := @steps_recordSpan blocks cur (eventSpan event)
  refine ⟨((recorded.trans (steps_setTerminator cur terminator)).trans (steps_pushEvent cur event)).mono ?_,
    ((leads.kept recorded id).setTerminator terminator).pushEvent event⟩
  intro i _ changed
  rcases changed with (none | here) | here
  · exact none.elim
  · exact here
  · exact here

theorem addDead_steps : Steps blocks (addDead blocks) (fun _ => False) ∧ Leads (addDead blocks) blocks.length [] := by
  have steps := (@steps_newBlock blocks "unreachable" .unreachable).trans
    (steps_setTerminator blocks.length .unreachable)
  refine ⟨steps.mono fun i inside changed => ?_,(leads_newBlock _ _).setTerminator .unreachable⟩
  rcases changed with none | here
  · exact none
  · exact absurd here (Nat.ne_of_lt inside)

end parts

end BonsaiNinja.Cfg
