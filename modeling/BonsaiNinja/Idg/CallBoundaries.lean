import BonsaiNinja.Idg.FunctionSummary

namespace BonsaiNinja.Idg
open Library
variable {rows inputRows outputRows : List BoundaryPairRow} {key : CallBoundaryKey} {boundary : CallBoundary}

def pairsOf (rows : List BoundaryPairRow) (key : CallBoundaryKey) : List (Nat × Nat) :=
  (rows.filter (·.key = key)).map (·.pair)

def KeysFrom (key : CallBoundaryKey) (rows : List BoundaryPairRow) : Prop := ∀ row ∈ rows, before row.key key = false

def Grouped (rows : List BoundaryPairRow) : Prop := rows.Pairwise fun a b => before b.key a.key = false

theorem sorted_grouped (sorted : Sorted rows) : Grouped rows := by
  refine sorted.imp fun {a b} lower => ?_
  have order : (before a.key b.key || (decide (a.key = b.key) && before a.pair b.pair)) = true := lower
  simp only [Bool.or_eq_true, Bool.and_eq_true, decide_eq_true_eq] at order
  rcases order with lower | ⟨same,_⟩
  · exact before_asymm lower
  · rw [same]; exact RowOrder.irrefl _

-- The smallest key's rows are a prefix, so peeking them off is filtering them.
theorem takeWhile_group (grouped : Grouped rows)
    (least : KeysFrom key rows) :
    rows.takeWhile (·.key = key) = rows.filter (·.key = key) ∧
      rows.dropWhile (·.key = key) = rows.filter (·.key ≠ key) := by
  induction rows with
  | nil => simp
  | cons row rest ih =>
    obtain ⟨head,tail⟩ := List.pairwise_cons.mp grouped
    by_cases same : row.key = key
    · have previous := ih tail fun other member => least other (List.mem_cons_of_mem _ member)
      simp only [same, List.takeWhile_cons_of_pos, List.dropWhile_cons_of_pos, List.filter_cons_of_pos, decide_true,
        ne_eq, not_true_eq_false, decide_false, List.filter_cons_of_neg, Bool.false_eq_true, not_false_eq_true]
      exact ⟨congrArg _ previous.1,previous.2⟩
    · have above : before key row.key = true := before_of_ne (Ne.symm same) (least row (by simp))
      have later : ∀ other ∈ rest, other.key ≠ key := by
        rintro other member rfl
        simp [head other member] at above
      have none : rest.filter (·.key = key) = [] := List.filter_eq_nil_iff.mpr fun other member => by
        simpa using later other member
      have all : rest.filter (fun other => !decide (other.key = key)) = rest :=
        List.filter_eq_self.mpr fun other member => by simpa using later other member
      simp [same,none,all]

theorem pairsOf_rest {other : CallBoundaryKey} (differs : other ≠ key) (rows : List BoundaryPairRow) :
    pairsOf (rows.filter (·.key ≠ key)) other = pairsOf rows other := by
  unfold pairsOf
  rw [List.filter_filter]
  refine congrArg _ (List.filter_congr fun row _ => ?_)
  by_cases same : row.key = other
  · simp [same,differs]
  · simp [same]

-- What the merge adds to what it has written: one boundary for each key, keys
-- ascending, each addressing exactly the rows of its key.
structure Merged (inputRows outputRows : List BoundaryPairRow) (s t : CallBoundaries) (added : List CallBoundary) : Prop where
  rows : t.rows = s.rows ++ added
  inputs : ∃ later, t.inputs = s.inputs ++ later
  outputs : ∃ later, t.outputs = s.outputs ++ later
  inputsOf : ∀ b ∈ added, t.inputsOf b = pairsOf inputRows b.key
  outputsOf : ∀ b ∈ added, t.outputsOf b = pairsOf outputRows b.key
  ascending : added.Pairwise fun a b => before a.key b.key = true
  keyed : ∀ b ∈ added, ∃ row, (row ∈ inputRows ∨ row ∈ outputRows) ∧ row.key = b.key
  covers : ∀ row, row ∈ inputRows ∨ row ∈ outputRows → ∃ b ∈ added, b.key = row.key

theorem smallest_key (inputs : Grouped inputRows)
    (outputs : Grouped outputRows)
    (picked : nextBoundaryKey inputRows outputRows = some key) :
    KeysFrom key inputRows ∧ KeysFrom key outputRows ∧ ∃ row, (row ∈ inputRows ∨ row ∈ outputRows) ∧ row.key = key := by
  have fromHead {row : BoundaryPairRow} {rest : List BoundaryPairRow} (grouped : Grouped (row :: rest)) :
      KeysFrom row.key (row :: rest) := by
    intro other member
    rcases List.mem_cons.mp member with rfl | later
    · exact RowOrder.irrefl _
    · exact (List.pairwise_cons.mp grouped).1 other later
  have lower {a b : CallBoundaryKey} {rows : List BoundaryPairRow} (below : before b a = false)
      (least : KeysFrom b rows) : KeysFrom a rows := by
    intro row member
    cases upper : before row.key a with
    | false => rfl
    | true =>
      have := least row member
      by_cases same : row.key = b
      · rw [same] at upper; simp [upper] at below
      · have above := before_of_ne (Ne.symm same) this
        simp [RowOrder.trans _ _ _ above upper] at below
  cases inputRows with
  | nil =>
    cases outputRows with
    | nil => simp [nextBoundaryKey] at picked
    | cons output _ =>
      cases Option.some.inj picked
      exact ⟨fun _ member => absurd member List.not_mem_nil,fromHead outputs,output,by simp,rfl⟩
  | cons input _ =>
    cases outputRows with
    | nil =>
      cases Option.some.inj picked
      exact ⟨fromHead inputs,fun _ member => absurd member List.not_mem_nil,input,by simp,rfl⟩
    | cons output _ =>
      dsimp only [nextBoundaryKey] at picked
      split at picked
      · next below =>
        cases Option.some.inj picked
        exact ⟨lower (before_asymm below) (fromHead inputs),fromHead outputs,output,by simp,rfl⟩
      · next above =>
        cases Option.some.inj picked
        exact ⟨fromHead inputs,lower (by simpa using above) (fromHead outputs),input,by simp,rfl⟩

theorem Grouped.filter (grouped : Grouped rows) (p : BoundaryPairRow → Bool) :
    Grouped (rows.filter p) :=
  List.Pairwise.filter p grouped

theorem filter_shorter (member : row ∈ rows) (keyed : row.key = key) :
    (rows.filter (·.key ≠ key)).length < rows.length := by
  refine List.length_filter_lt_length_iff_exists.mpr ⟨row,member,?_⟩
  simp [keyed]

theorem mergeBoundaries_merged (fuel : Nat) (inputs : Grouped inputRows)
    (outputs : Grouped outputRows) (enough : inputRows.length + outputRows.length ≤ fuel) (s : CallBoundaries) :
    ∃ added, Merged inputRows outputRows s (mergeBoundaries fuel inputRows outputRows s) added := by
  induction fuel generalizing inputRows outputRows s with
  | zero =>
    have noInputs : inputRows = [] := List.length_eq_zero_iff.mp (by omega)
    have noOutputs : outputRows = [] := List.length_eq_zero_iff.mp (by omega)
    subst noInputs noOutputs
    exact ⟨[],by simp [mergeBoundaries],⟨[],by simp [mergeBoundaries]⟩,⟨[],by simp [mergeBoundaries]⟩,
      by simp,by simp,by simp,by simp,by simp⟩
  | succ fuel ih =>
    rw [mergeBoundaries]
    split
    · next done =>
      have empty : inputRows = [] ∧ outputRows = [] := by
        cases inputRows <;> cases outputRows <;> simp [nextBoundaryKey] at done ⊢
      rw [empty.1, empty.2]
      exact ⟨[],by simp,⟨[],by simp⟩,⟨[],by simp⟩,by simp,by simp,by simp,by simp,by simp⟩
    · next key picked =>
      obtain ⟨leastInput,leastOutput,row,member,keyed⟩ := smallest_key inputs outputs picked
      obtain ⟨takeInput,dropInput⟩ := takeWhile_group inputs leastInput
      obtain ⟨takeOutput,dropOutput⟩ := takeWhile_group outputs leastOutput
      rw [takeInput, takeOutput, dropInput, dropOutput]
      set first : CallBoundary := ⟨key,s.inputs.length,(s.inputs ++ pairsOf inputRows key).length,s.outputs.length,
        (s.outputs ++ pairsOf outputRows key).length⟩
      change ∃ added, Merged inputRows outputRows s (mergeBoundaries fuel (inputRows.filter (·.key ≠ key))
        (outputRows.filter (·.key ≠ key)) ⟨s.rows ++ [first],s.inputs ++ pairsOf inputRows key,
          s.outputs ++ pairsOf outputRows key,s.callerOffsets⟩) added
      have shorter : (inputRows.filter (·.key ≠ key)).length + (outputRows.filter (·.key ≠ key)).length ≤ fuel := by
        have left := List.length_filter_le (fun r : BoundaryPairRow => decide (r.key ≠ key)) inputRows
        have right := List.length_filter_le (fun r : BoundaryPairRow => decide (r.key ≠ key)) outputRows
        rcases member with member | member
        · have strict := filter_shorter member keyed
          omega
        · have strict := filter_shorter member keyed
          omega
      obtain ⟨added,merged⟩ := ih (inputs.filter _) (outputs.filter _) shorter
        ⟨s.rows ++ [first],s.inputs ++ pairsOf inputRows key,s.outputs ++ pairsOf outputRows key,s.callerOffsets⟩
      obtain ⟨laterInputs,inputsEq⟩ := merged.inputs
      obtain ⟨laterOutputs,outputsEq⟩ := merged.outputs
      have later : ∀ b ∈ added, before key b.key = true ∧ b.key ≠ key := by
        intro b listed
        obtain ⟨other,member,same⟩ := merged.keyed b listed
        have differs : b.key ≠ key := by
          rcases member with member | member <;> simpa [same] using (List.mem_filter.mp member).2
        refine ⟨before_of_ne differs.symm ?_,differs⟩
        rw [← same]
        exact member.elim (fun m => leastInput other (List.mem_filter.mp m).1) fun m =>
          leastOutput other (List.mem_filter.mp m).1
      refine ⟨first :: added,?_,⟨_,by rw [inputsEq, List.append_assoc]⟩,⟨_,by rw [outputsEq, List.append_assoc]⟩,
        fun b listed => ?_,fun b listed => ?_,List.pairwise_cons.mpr ⟨fun b listed => (later b listed).1,merged.ascending⟩,
        fun b listed => ?_,fun other member => ?_⟩
      · exact merged.rows.trans (List.append_assoc _ _ _)
      · rcases List.mem_cons.mp listed with rfl | listed
        · rw [CallBoundaries.inputsOf, inputsEq, slice_middle]
        · rw [merged.inputsOf b listed, pairsOf_rest (later b listed).2]
      · rcases List.mem_cons.mp listed with rfl | listed
        · rw [CallBoundaries.outputsOf, outputsEq, slice_middle]
        · rw [merged.outputsOf b listed, pairsOf_rest (later b listed).2]
      · rcases List.mem_cons.mp listed with rfl | listed
        · exact ⟨row,member,keyed⟩
        · obtain ⟨other,found,same⟩ := merged.keyed b listed
          exact ⟨other,found.imp (fun m => (List.mem_filter.mp m).1) fun m => (List.mem_filter.mp m).1,same⟩
      · by_cases same : other.key = key
        · exact ⟨first,by simp,same.symm⟩
        · have kept : other ∈ inputRows.filter (·.key ≠ key) ∨ other ∈ outputRows.filter (·.key ≠ key) :=
            member.imp (fun m => List.mem_filter.mpr ⟨m,by simpa using same⟩) fun m =>
              List.mem_filter.mpr ⟨m,by simpa using same⟩
          obtain ⟨b,listed,found⟩ := merged.covers other kept
          exact ⟨b,List.mem_cons_of_mem _ listed,found⟩

theorem callers_bounded (rows : List CallBoundary) :
    ∀ caller ∈ rows.map (·.key.caller), caller + 1 < offsetTableSize rows := by
  intro caller member
  unfold offsetTableSize
  cases largest : (rows.map (·.key.caller)).max? with
  | none =>
    rw [List.max?_eq_none_iff.mp largest] at member
    exact absurd member List.not_mem_nil
  | some bound =>
    have below := (List.max?_le_iff largest).mp (Nat.le_refl bound) caller member
    exact Nat.succ_lt_succ (Nat.lt_succ_of_le below)

section
variable {inputRows outputRows : List BoundaryPairRow} (inputs : Sorted inputRows) (outputs : Sorted outputRows)
include inputs outputs

theorem build_merged : Merged inputRows outputRows ⟨[],[],[],[]⟩ (buildCallBoundaries inputRows outputRows)
    (buildCallBoundaries inputRows outputRows).rows := by
  obtain ⟨added,merged⟩ := mergeBoundaries_merged _ (sorted_grouped inputs) (sorted_grouped outputs) (Nat.le_refl _)
    ⟨[],[],[],[]⟩
  have rows : (buildCallBoundaries inputRows outputRows).rows = added := merged.rows
  rw [rows]
  exact ⟨merged.rows,merged.inputs,merged.outputs,merged.inputsOf,merged.outputsOf,merged.ascending,merged.keyed,
    merged.covers⟩

theorem forCaller_eq (caller : FuncId) :
    (buildCallBoundaries inputRows outputRows).forCaller caller =
      (buildCallBoundaries inputRows outputRows).rows.filter (·.key.caller = caller) := by
  have merged := build_merged inputs outputs
  set boundaries := buildCallBoundaries inputRows outputRows
  have offsets : boundaries.callerOffsets = callerOffsets boundaries.rows := rfl
  have fits := callers_bounded boundaries.rows
  have sorted : boundaries.rows.Pairwise fun a b => a.key.caller ≤ b.key.caller := by
    refine merged.ascending.imp fun {a b} lower => ?_
    have order : (decide (a.key.caller < b.key.caller) || (decide (a.key.caller = b.key.caller) &&
      before (a.key.callee,a.key.span) (b.key.callee,b.key.span))) = true := lower
    simp only [Bool.or_eq_true, Bool.and_eq_true, decide_eq_true_eq] at order
    exact order.elim Nat.le_of_lt fun same => same.1.le
  unfold CallBoundaries.forCaller
  rw [offsets, callerOffsets, getElem?_countOffsets fits, getElem?_countOffsets fits]
  split
  · next start stop first second =>
    have startEq := (Option.ite_none_right_eq_some.mp first).2
    have stopEq := (Option.ite_none_right_eq_some.mp second).2
    rw [List.countP_map] at startEq stopEq
    rw [← Option.some.inj startEq, ← Option.some.inj stopEq]
    exact slice_countP sorted caller
  · next missing =>
    refine (List.filter_eq_nil_iff.mpr fun boundary listed same => ?_).symm
    have bound := fits caller (List.mem_map.mpr ⟨boundary,listed,by simpa using same⟩)
    exact missing _ _ (if_pos (Nat.lt_of_succ_lt bound)) (if_pos bound)

theorem mem_forCaller {caller : FuncId} {boundary : CallBoundary} :
    boundary ∈ (buildCallBoundaries inputRows outputRows).forCaller caller ↔
      boundary ∈ (buildCallBoundaries inputRows outputRows).rows ∧ boundary.key.caller = caller := by
  rw [forCaller_eq inputs outputs, List.mem_filter, decide_eq_true_eq]

-- A caller's boundaries join exactly the input and output rows that share one
-- key of that caller.
theorem boundary_pairs {caller : FuncId} {holds : CallBoundaryKey → Nat → Nat → Prop} {a b : Nat} :
    (∃ boundary ∈ (buildCallBoundaries inputRows outputRows).forCaller caller, ∃ i o,
      (a,i) ∈ (buildCallBoundaries inputRows outputRows).inputsOf boundary ∧
      (o,b) ∈ (buildCallBoundaries inputRows outputRows).outputsOf boundary ∧ holds boundary.key i o) ↔
    ∃ key i o, key.caller = caller ∧ ⟨key,(a,i)⟩ ∈ inputRows ∧ ⟨key,(o,b)⟩ ∈ outputRows ∧ holds key i o := by
  have merged := build_merged inputs outputs
  have mem_pairsOf {rows : List BoundaryPairRow} {key : CallBoundaryKey} {pair : Nat × Nat} :
      pair ∈ pairsOf rows key ↔ ⟨key,pair⟩ ∈ rows := by
    simp only [pairsOf, List.mem_map, List.mem_filter, decide_eq_true_eq]
    exact ⟨fun ⟨⟨_,_⟩,⟨listed,same⟩,value⟩ => by subst same value; exact listed,fun listed => ⟨_,⟨listed,rfl⟩,rfl⟩⟩
  constructor
  · rintro ⟨boundary,listed,i,o,input,output,known⟩
    obtain ⟨member,same⟩ := (mem_forCaller inputs outputs).mp listed
    rw [merged.inputsOf boundary member, mem_pairsOf] at input
    rw [merged.outputsOf boundary member, mem_pairsOf] at output
    exact ⟨boundary.key,i,o,same,input,output,known⟩
  · rintro ⟨key,i,o,same,input,output,known⟩
    obtain ⟨boundary,member,keyed⟩ := merged.covers _ (.inl input)
    refine ⟨boundary,(mem_forCaller inputs outputs).mpr ⟨member,keyed ▸ same⟩,i,o,?_,?_,keyed ▸ known⟩
    · rw [merged.inputsOf boundary member, mem_pairsOf, keyed]; exact input
    · rw [merged.outputsOf boundary member, mem_pairsOf, keyed]; exact output

end

theorem insertCaller_lookup (callers : IdMap (List FuncId)) (boundary : CallBoundary) (callee : FuncId) :
    ((insertCaller callers boundary).lookup callee).getD [] =
      (callers.lookup callee).getD [] ++ if boundary.key.callee = callee then [boundary.key.caller] else [] := by
  unfold insertCaller
  by_cases same : boundary.key.callee = callee
  · subst same; simp
  · simp [AList.lookup_insert_ne (Ne.symm same),same]

theorem insertCallers_lookup (rows : List CallBoundary) (callers : IdMap (List FuncId))
    (listed : boundary ∈ rows ∨ boundary.key.caller ∈ (callers.lookup boundary.key.callee).getD []) :
    boundary.key.caller ∈ ((rows.foldl insertCaller callers).lookup boundary.key.callee).getD [] := by
  induction rows generalizing callers with
  | nil => simpa using listed
  | cons row rest ih =>
    refine ih (insertCaller callers row) ?_
    rw [insertCaller_lookup]
    rcases listed with listed | known
    · rcases List.mem_cons.mp listed with rfl | later
      · exact .inr (by simp)
      · exact .inl later
    · exact .inr (List.mem_append_left _ known)

theorem mem_callersByCallee {boundaries : CallBoundaries} (listed : boundary ∈ boundaries.rows) :
    boundary.key.caller ∈ ((callersByCallee boundaries).lookup boundary.key.callee).getD [] := by
  have found := insertCallers_lookup boundaries.rows ∅ (.inl listed)
  unfold callersByCallee
  rw [IdMap.lookup_mapValues]
  cases entry : (boundaries.rows.foldl insertCaller ∅).lookup boundary.key.callee with
  | none => simp [entry] at found
  | some callers =>
    rw [entry] at found
    exact mem_sortDedup.mpr found

theorem build_wakes (inputs : Sorted inputRows) (outputs : Sorted outputRows)
    {caller : FuncId}
    (listed : boundary ∈ (buildCallBoundaries inputRows outputRows).forCaller caller) :
    caller ∈ ((callersByCallee (buildCallBoundaries inputRows outputRows)).lookup boundary.key.callee).getD [] := by
  obtain ⟨member,same⟩ := (mem_forCaller inputs outputs).mp listed
  exact same ▸ mem_callersByCallee member

end BonsaiNinja.Idg
