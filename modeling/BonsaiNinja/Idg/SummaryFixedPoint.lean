import BonsaiNinja.Idg.CallBoundaries
import BonsaiNinja.Library.Equations

namespace BonsaiNinja.Idg
open Library

-- A derived edge joins a caller input to a caller continuation through one
-- (parameter, output) pair the callee's summary already holds.
theorem mem_derivedPairs {boundaries : CallBoundaries} {baseEdges : SortedRows (Nat × Nat)}
    {summaries : FuncId → SortedRows (Nat × Nat)} {boundary : CallBoundary} {a b : Nat} :
    (a,b) ∈ derivedPairs boundaries baseEdges summaries boundary ↔
      (a,b) ∉ baseEdges ∧ ∃ i o, (a,i) ∈ boundaries.inputsOf boundary ∧ (o,b) ∈ boundaries.outputsOf boundary ∧
        (i,o) ∈ summaries boundary.key.callee := by
  simp only [derivedPairs, List.mem_flatMap, List.mem_filterMap, Prod.exists, Option.ite_none_right_eq_some,
    Bool.and_eq_true, SortedRows.search_iff, Bool.not_eq_true', Option.some.injEq, Prod.mk.injEq]
  constructor
  · rintro ⟨a',i,input,o,b',output,⟨known,fresh⟩,rfl,rfl⟩
    exact ⟨fun present => by simp [SortedRows.search_iff.mpr present] at fresh,i,o,input,output,known⟩
  · rintro ⟨fresh,i,o,input,output,known⟩
    exact ⟨a,i,input,o,b,output,⟨known,Bool.eq_false_iff.mpr fun found => fresh (SortedRows.search_iff.mp found)⟩,rfl,rfl⟩

section
variable {func : FuncId} {layout : FunctionLayout} {baseEdges : SortedRows (Nat × Nat)} {boundaries : CallBoundaries}
  {summaries : FuncId → SortedRows (Nat × Nat)}

theorem mem_derivedEdges {a b : Nat} :
    (a,b) ∈ (compileFunction func layout baseEdges boundaries summaries).derivedEdges ↔
      (a,b) ∉ baseEdges ∧ ∃ boundary ∈ boundaries.forCaller func, ∃ i o, (a,i) ∈ boundaries.inputsOf boundary ∧
        (o,b) ∈ boundaries.outputsOf boundary ∧ (i,o) ∈ summaries boundary.key.callee := by
  simp only [compileFunction, SortedRows.mem_ofList, List.mem_flatMap, mem_derivedPairs]
  constructor
  · rintro ⟨boundary,member,fresh,pair⟩
    exact ⟨fresh,boundary,member,pair⟩
  · rintro ⟨fresh,boundary,member,pair⟩
    exact ⟨boundary,member,fresh,pair⟩

-- The edges one compilation walks: the function's own and those its callees'
-- summaries add. Skipping a derived edge already present changes nothing.
def StepEdge (func : FuncId) (baseEdges : SortedRows (Nat × Nat)) (boundaries : CallBoundaries)
    (summaries : FuncId → SortedRows (Nat × Nat)) (a b : Nat) : Prop :=
  (a,b) ∈ baseEdges ∨ ∃ boundary ∈ boundaries.forCaller func, ∃ i o, (a,i) ∈ boundaries.inputsOf boundary ∧
    (o,b) ∈ boundaries.outputsOf boundary ∧ (i,o) ∈ summaries boundary.key.callee

theorem mem_walked {a b : Nat} :
    (a,b) ∈ baseEdges.rows ++ (compileFunction func layout baseEdges boundaries summaries).derivedEdges.rows ↔
      StepEdge func baseEdges boundaries summaries a b := by
  rw [List.mem_append, SortedRows.mem_rows, SortedRows.mem_rows, mem_derivedEdges, StepEdge]
  by_cases present : (a,b) ∈ baseEdges <;> simp [present]

theorem mem_summary {p o : Nat} :
    (p,o) ∈ (compileFunction func layout baseEdges boundaries summaries).summary ↔
      (∃ idx, (idx,p) ∈ layout.params) ∧ o ∈ layout.outputs ∧ o < layout.nodeCount ∧
        Relation.ReflTransGen (fun a b => StepEdge func baseEdges boundaries summaries a b ∧
          a < layout.nodeCount ∧ b < layout.nodeCount) p o := by
  have walked : ReachabilityIndex.Path
      (baseEdges.rows ++ (compileFunction func layout baseEdges boundaries summaries).derivedEdges.rows) layout.nodeCount =
      Relation.ReflTransGen (fun a b => StepEdge func baseEdges boundaries summaries a b ∧
        a < layout.nodeCount ∧ b < layout.nodeCount) := by
    unfold ReachabilityIndex.Path
    simp only [mem_walked]
  simp only [compileFunction] at walked ⊢
  simp only [SortedRows.mem_ofList, List.mem_flatMap, List.mem_map, List.mem_filter, List.contains_iff_mem,
    ReachabilityIndex.mem_backwardClosure, walked, Prod.mk.injEq, Prod.exists]
  constructor
  · rintro ⟨output,member,idx,param,⟨listed,bound,path⟩,rfl,rfl⟩
    exact ⟨⟨idx,listed⟩,member,bound,path⟩
  · rintro ⟨⟨idx,listed⟩,member,bound,path⟩
    exact ⟨o,member,idx,p,⟨listed,bound,path⟩,rfl,rfl⟩

theorem compile_monotone {smaller larger : FuncId → SortedRows (Nat × Nat)} (below : smaller ≤ larger) :
    (compileFunction func layout baseEdges boundaries smaller).summary ≤
      (compileFunction func layout baseEdges boundaries larger).summary := by
  rintro ⟨p,o⟩ member
  rw [mem_summary] at member ⊢
  obtain ⟨param,output,bound,path⟩ := member
  refine ⟨param,output,bound,Relation.ReflTransGen.mono ?_ _ _ path⟩
  rintro a b ⟨edge,range⟩
  refine ⟨edge.imp_right ?_,range⟩
  rintro ⟨boundary,listed,i,o,input,output,known⟩
  exact ⟨boundary,listed,i,o,input,output,below _ _ known⟩

theorem compile_bounded :
    (compileFunction func layout baseEdges boundaries summaries).summary.rows.length ≤
      layout.params.length * layout.outputs.length := by
  have inside : (compileFunction func layout baseEdges boundaries summaries).summary.rows ⊆
      (layout.params.map (·.2)) ×ˢ layout.outputs := by
    rintro ⟨p,o⟩ member
    obtain ⟨⟨idx,param⟩,output,_⟩ := mem_summary.mp member
    exact List.mem_product.mpr ⟨List.mem_map.mpr ⟨_,param,rfl⟩,output⟩
  have shorter := (List.subperm_of_subset (SortedRows.sorted _).nodup inside).length_le
  rwa [List.length_product, List.length_map] at shorter

theorem compile_reads {other : FuncId → SortedRows (Nat × Nat)}
    (same : ∀ boundary ∈ boundaries.forCaller func, summaries boundary.key.callee = other boundary.key.callee) :
    compileFunction func layout baseEdges boundaries summaries = compileFunction func layout baseEdges boundaries other := by
  have pairs : (boundaries.forCaller func).flatMap (derivedPairs boundaries baseEdges summaries) =
      (boundaries.forCaller func).flatMap (derivedPairs boundaries baseEdges other) := by
    refine List.flatMap_congr fun boundary member => ?_
    simp only [derivedPairs, same boundary member]
  simp only [compileFunction, pairs]

end

namespace SummaryProgram
variable {program : SummaryProgram}

-- `callers_by_callee` names every caller that reads a callee's summary.
def Wakes (program : SummaryProgram) : Prop :=
  ∀ func, (program.layouts.lookup func).isSome → ∀ boundary ∈ program.boundaries.forCaller func,
    func ∈ (program.callersByCallee.lookup boundary.key.callee).getD []

-- One worklist step under any schedule: a round drains the pending hash set, and
-- its functions are recompiled one at a time in any order.
inductive Step (program : SummaryProgram) : SummaryRun → SummaryRun → Prop where
  | drain {summaries pending batch} : pending ≠ [] → batch.Nodup →
      (∀ func, func ∈ batch ↔ func ∈ pending ∧ (program.layouts.lookup func).isSome) →
      Step program ⟨summaries,[],pending⟩ ⟨summaries,batch,[]⟩
  | recompile {s func} : func ∈ s.batch → Step program s (program.recompile s func)

inductive Runs (program : SummaryProgram) : SummaryRun → SummaryRun → Prop where
  | refl : Runs program s s
  | step : Runs program s t → Step program t u → Runs program s u

theorem Runs.trans (left : Runs program s t) (right : Runs program t u) : Runs program s u := by
  induction right with
  | refl => exact left
  | step _ last previous => exact .step previous last

def equations (program : SummaryProgram) : Equations FuncId (SortedRows (Nat × Nat)) where
  domain := program.layouts.keys.toFinset
  update func summaries := match program.layouts.lookup func with
    | none => ⊥
    | some layout => (program.compile func layout summaries).summary
  dependents func := (program.callersByCallee.lookup func).getD []

def view (s : SummaryRun) : Equations.Round FuncId (SortedRows (Nat × Nat)) := ⟨s.summaries.get,s.batch,s.pending⟩

theorem mem_domain {func : FuncId} : func ∈ program.equations.domain ↔ (program.layouts.lookup func).isSome := by
  rw [AList.lookup_isSome]
  exact List.mem_toFinset

theorem update_some (known : program.layouts.lookup func = some layout) (summaries : FuncId → SortedRows (Nat × Nat)) :
    program.equations.update func summaries = (program.compile func layout summaries).summary := by
  simp only [equations, known]

theorem equations_monotone : program.equations.Monotone := by
  intro func member smaller larger below
  obtain ⟨layout,known⟩ := Option.isSome_iff_exists.mp (mem_domain.mp member)
  rw [update_some known, update_some known]
  exact compile_monotone below

theorem equations_tracked (wakes : program.Wakes) : program.equations.Tracked := by
  intro func member callee unlisted summaries pairs
  obtain ⟨layout,known⟩ := Option.isSome_iff_exists.mp (mem_domain.mp member)
  rw [update_some known, update_some known]
  refine congrArg _ (compile_reads fun boundary listed => Function.update_of_ne ?_ _ _)
  rintro same
  exact unlisted (same ▸ wakes func (mem_domain.mp member) boundary listed)

def limit (program : SummaryProgram) (func : FuncId) : Nat :=
  match program.layouts.lookup func with
  | none => 0
  | some layout => layout.params.length * layout.outputs.length

theorem equations_bounded : program.equations.Bounded (fun pairs => pairs.rows.length) program.limit where
  strict := SortedRows.length_strictMono
  within func member summaries := by
    obtain ⟨layout,known⟩ := Option.isSome_iff_exists.mp (mem_domain.mp member)
    simp only [update_some known, limit, known]
    exact compile_bounded

@[simp] theorem get_insert {summaries : Summaries} {func : FuncId} {pairs : SortedRows (Nat × Nat)} :
    Summaries.get (summaries.insert func pairs) = Function.update summaries.get func pairs := by
  funext other
  by_cases same : other = func
  · subst same; simp [Summaries.get]
  · simp [Summaries.get,Function.update_of_ne same,AList.lookup_insert_ne same]

def Complete (program : SummaryProgram) (s : SummaryRun) : Prop :=
  ∀ func, (s.summaries.lookup func).isSome ↔ (program.layouts.lookup func).isSome

theorem start_complete : program.Complete program.start := by
  intro func
  simp [start]

theorem start_view : view program.start = Equations.start program.layouts.keys := by
  refine congrArg (fun value => Equations.Round.mk value [] program.layouts.keys) ?_
  funext func
  simp only [Summaries.get, start, IdMap.lookup_mapValues]
  cases program.layouts.lookup func <;> rfl

theorem recompile_complete (complete : program.Complete s) (func : FuncId) : program.Complete (program.recompile s func) := by
  unfold recompile
  split
  · exact complete
  · next layout known =>
    dsimp only
    split
    · exact complete
    · intro other
      by_cases same : other = func
      · subst same; simp [known]
      · simpa [AList.lookup_insert_ne same] using complete other

theorem mem_insertAll {callers pending : List FuncId} {func : FuncId} :
    func ∈ callers.foldl (fun pending caller => pending.insert caller) pending ↔ func ∈ pending ∨ func ∈ callers := by
  induction callers generalizing pending with
  | nil => simp
  | cons caller rest ih => rw [List.foldl_cons, ih, List.mem_insert_iff, List.mem_cons]; tauto

-- A recompiled member of the batch either was up to date or moves the map and
-- wakes the callers of its function.
theorem recompile_advances (complete : program.Complete s) (rising : program.equations.Ascending (view s))
    (picked : func ∈ s.batch) : Equations.Advances program.equations (view s) (view (program.recompile s func)) := by
  have known := mem_domain.mp (rising.batch_mem func picked)
  obtain ⟨layout,found⟩ := Option.isSome_iff_exists.mp known
  obtain ⟨current,present⟩ := Option.isSome_iff_exists.mp ((complete func).mpr known)
  have reading : s.summaries.get func = current := by simp [Summaries.get,present]
  unfold recompile
  simp only [found, present, Option.some.injEq]
  split
  · next same =>
    exact .settled picked (by rw [update_some found, ← same]; exact reading.symm)
  · next differs =>
    have moves : program.equations.update func s.summaries.get ≠ s.summaries.get func := by
      rw [update_some found, reading]; exact Ne.symm differs
    have woken : ∀ caller, caller ∈ ((program.callersByCallee.lookup func).getD []).foldl
        (fun pending caller => pending.insert caller) s.pending ↔
          caller ∈ s.pending ∨ caller ∈ program.equations.dependents func := fun caller => mem_insertAll
    have advanced := Equations.Advances.changed picked moves woken
    rw [update_some found] at advanced
    simpa only [view, get_insert] using advanced

theorem step_advances (complete : program.Complete s) (rising : program.equations.Ascending (view s))
    (step : Step program s t) : Equations.Advances program.equations (view s) (view t) := by
  cases step with
  | drain some nodup drained =>
    exact .drain some nodup fun func => (drained func).trans (and_congr_right fun _ => mem_domain.symm)
  | recompile picked => exact recompile_advances complete rising picked

theorem step_complete (complete : program.Complete s) (step : Step program s t) : program.Complete t := by
  cases step with
  | drain => exact complete
  | recompile _ => exact recompile_complete complete _

structure Sound (program : SummaryProgram) (s : SummaryRun) : Prop where
  complete : program.Complete s
  rising : program.equations.Ascending (view s)

theorem start_sound : program.Sound program.start where
  complete := start_complete
  rising := start_view ▸ Equations.start_ascending

theorem step_sound (sound : program.Sound s) (step : Step program s t) : program.Sound t where
  complete := step_complete sound.complete step
  rising := Equations.advances_ascending equations_monotone sound.rising (step_advances sound.complete sound.rising step)

theorem runs_sound (sound : program.Sound s) (path : Runs program s t) : program.Sound t := by
  induction path with
  | refl => exact sound
  | step _ last previous => exact step_sound previous last

theorem start_waiting : program.equations.Waiting (view program.start) :=
  start_view ▸ Equations.start_waiting fun _ member => List.mem_toFinset.mp member

theorem runs_waiting (wakes : program.Wakes) (path : Runs program program.start s) :
    program.equations.Waiting (view s) := by
  induction path with
  | refl => exact start_waiting
  | step path last previous =>
    have sound := runs_sound start_sound path
    exact Equations.advances_waiting (equations_tracked wakes) previous (step_advances sound.complete sound.rising last)

theorem runs_terminate (sound : program.Sound s) : Acc (fun t s => Step program s t) s := by
  have ends := Equations.terminates equations_monotone equations_bounded sound.rising
  generalize viewed : view s = round at ends
  induction ends generalizing s with
  | intro round _ ih =>
    subst viewed
    exact ⟨_,fun t step => ih _ (step_advances sound.complete sound.rising step) (step_sound sound step) rfl⟩

theorem no_infinite_run (run : Nat → SummaryRun) (first : run 0 = program.start) :
    ¬∀ n, Step program (run n) (run (n + 1)) := by
  intro steps
  have ends := runs_terminate (first ▸ start_sound : program.Sound (run 0))
  clear first
  generalize (0 : Nat) = n at ends
  generalize start : run n = s at ends
  induction ends generalizing n with
  | intro s _ ih => exact ih (run (n + 1)) (start ▸ steps n) (n + 1) rfl

def Finished (s : SummaryRun) : Prop := s.batch = [] ∧ s.pending = []

-- The least map whose every entry is what compiling that function against the
-- map returns; it lies below every map that compiling does not grow.
structure LeastSolution (program : SummaryProgram) (summaries : Summaries) : Prop where
  keys : ∀ func, (summaries.lookup func).isSome ↔ (program.layouts.lookup func).isSome
  solves : ∀ func layout, program.layouts.lookup func = some layout →
    summaries.lookup func = some (program.compile func layout summaries.get).summary
  least : ∀ other : FuncId → SortedRows (Nat × Nat), (∀ func layout, program.layouts.lookup func = some layout →
    (program.compile func layout other).summary ≤ other func) → ∀ func, summaries.get func ≤ other func

theorem LeastSolution.unique (left : program.LeastSolution summaries) (right : program.LeastSolution others)
    (func : FuncId) : summaries.lookup func = others.lookup func := by
  have solvesGet {entries : Summaries} (solution : program.LeastSolution entries) :
      ∀ func layout, program.layouts.lookup func = some layout →
        (program.compile func layout entries.get).summary ≤ entries.get func := by
    intro func layout known
    simp [Summaries.get,solution.solves func layout known]
  have same : summaries.get func = others.get func :=
    le_antisymm (left.least _ (solvesGet right) func) (right.least _ (solvesGet left) func)
  cases known : program.layouts.lookup func with
  | none =>
    have leftNone := (left.keys func).not.mpr (by simp [known])
    have rightNone := (right.keys func).not.mpr (by simp [known])
    rw [Option.not_isSome_iff_eq_none.mp leftNone, Option.not_isSome_iff_eq_none.mp rightNone]
  | some layout =>
    obtain ⟨x,leftSome⟩ := Option.isSome_iff_exists.mp ((left.keys func).mpr (by simp [known]))
    obtain ⟨y,rightSome⟩ := Option.isSome_iff_exists.mp ((right.keys func).mpr (by simp [known]))
    simp only [Summaries.get, leftSome, rightSome, Option.getD_some] at same
    rw [leftSome, rightSome, same]

theorem finished_solution (sound : program.Sound s) (waiting : program.equations.Waiting (view s)) (done : Finished s) :
    program.LeastSolution s.summaries := by
  have solves := Equations.finished_solves waiting done.1 done.2
  refine ⟨sound.complete,fun func layout known => ?_,fun other closed => sound.rising.below other fun func member => ?_⟩
  · obtain ⟨current,present⟩ := Option.isSome_iff_exists.mp ((sound.complete func).mpr (by simp [known]))
    have solved := solves func (mem_domain.mpr (by simp [known]))
    rw [update_some known] at solved
    simp only [view, Summaries.get, present, Option.getD_some] at solved
    rw [present]
    exact congrArg some solved
  · obtain ⟨layout,known⟩ := Option.isSome_iff_exists.mp (mem_domain.mp member)
    rw [update_some known]
    exact closed func layout known

theorem mem_drainOrder {pending : List FuncId} {func : FuncId} :
    func ∈ program.drainOrder pending ↔ func ∈ pending ∧ (program.layouts.lookup func).isSome := by
  simp only [drainOrder, List.mem_map, mem_sortDedup, List.mem_filterMap, Option.map_eq_some_iff, Prod.exists,
    Prod.mk.injEq]
  constructor
  · rintro ⟨segment,other,⟨_,waiting,layout,known,rfl,rfl⟩,rfl⟩
    exact ⟨waiting,by simp [known]⟩
  · rintro ⟨waiting,known⟩
    obtain ⟨layout,found⟩ := Option.isSome_iff_exists.mp known
    exact ⟨layout.segment,func,⟨func,waiting,layout,found,rfl,rfl⟩,rfl⟩

theorem drainOrder_nodup (pending : List FuncId) : (program.drainOrder pending).Nodup := by
  refine List.Nodup.map_on ?_ (sortDedup_sorted _).nodup
  rintro ⟨segment,func⟩ left ⟨segment',func'⟩ right same
  simp only [mem_sortDedup, List.mem_filterMap, Option.map_eq_some_iff, Prod.mk.injEq] at left right same
  obtain ⟨_,_,layout,known,rfl,rfl⟩ := left
  obtain ⟨_,_,layout',known',rfl,rfl⟩ := right
  subst same
  rw [Option.some.inj (known.symm.trans known')]

theorem recompile_batch (s : SummaryRun) (func : FuncId) : (program.recompile s func).batch = s.batch.erase func := by
  unfold recompile
  split
  · rfl
  · dsimp only
    split <;> rfl

theorem batch_runs {s : SummaryRun} (rest : List FuncId) (whole : s.batch = rest) :
    Runs program s (rest.foldl program.recompile s) ∧ (rest.foldl program.recompile s).batch = [] := by
  induction rest generalizing s with
  | nil => exact ⟨.refl,whole⟩
  | cons func rest ih =>
    have picked : Step program s (program.recompile s func) := .recompile (whole ▸ List.mem_cons_self)
    have shorter : (program.recompile s func).batch = rest := by rw [recompile_batch, whole, List.erase_cons_head]
    obtain ⟨path,done⟩ := ih shorter
    exact ⟨Runs.trans (.step .refl picked) path,done⟩

def room (program : SummaryProgram) (s : SummaryRun) : Nat :=
  program.equations.room (fun pairs => pairs.rows.length) program.limit s.summaries.get

theorem recompile_room (sound : program.Sound s) (picked : func ∈ s.batch) :
    program.recompile s func = { s with batch := s.batch.erase func } ∨
      program.room (program.recompile s func) < program.room s := by
  obtain ⟨layout,found⟩ := Option.isSome_iff_exists.mp (mem_domain.mp (sound.rising.batch_mem func picked))
  unfold recompile
  simp only [found]
  split
  · exact .inl rfl
  · next differs =>
    right
    obtain ⟨current,present⟩ := Option.isSome_iff_exists.mp ((sound.complete func).mpr (by simp [found]))
    have moves : program.equations.update func (view s).value ≠ (view s).value func := by
      rw [update_some found]
      simp only [view, Summaries.get, present, Option.getD_some]
      exact fun same => differs (present.trans (congrArg some same.symm))
    have shrinks := Equations.changed_room equations_bounded sound.rising picked moves
    rw [update_some found] at shrinks
    simpa only [room, get_insert, view] using shrinks

-- A batch that wakes nobody leaves no work; otherwise some summary grew.
theorem batch_room {s : SummaryRun} (rest : List FuncId) (whole : s.batch = rest) (sound : program.Sound s) :
    (rest.foldl program.recompile s).pending = s.pending ∧ program.room (rest.foldl program.recompile s) ≤ program.room s ∨
      program.room (rest.foldl program.recompile s) < program.room s := by
  induction rest generalizing s with
  | nil => exact .inl ⟨rfl,Nat.le_refl _⟩
  | cons func rest ih =>
    have picked : func ∈ s.batch := whole ▸ List.mem_cons_self
    have shorter : (program.recompile s func).batch = rest := by rw [recompile_batch, whole, List.erase_cons_head]
    have later := ih shorter (step_sound sound (.recompile picked))
    rw [List.foldl_cons]
    rcases recompile_room sound picked with same | shrinks
    · rw [same] at later ⊢
      exact later
    · exact .inr (later.elim (fun kept => kept.2.trans_lt shrinks) fun less => less.trans shrinks)

theorem round_runs {s : SummaryRun} (batch : s.batch = []) (waiting : s.pending ≠ []) :
    Runs program s (program.round s) ∧ (program.round s).batch = [] := by
  obtain ⟨summaries,_,pending⟩ := s
  cases batch
  have first : Step program ⟨summaries,[],pending⟩ ⟨summaries,program.drainOrder pending,[]⟩ :=
    .drain waiting (drainOrder_nodup pending) fun _ => mem_drainOrder
  obtain ⟨path,done⟩ := batch_runs (s := ⟨summaries,program.drainOrder pending,[]⟩) _ rfl
  exact ⟨Runs.trans (.step .refl first) path,done⟩

theorem rounds_runs (fuel : Nat) {s : SummaryRun} (batch : s.batch = []) :
    Runs program s (program.rounds fuel s) ∧ (program.rounds fuel s).batch = [] := by
  induction fuel generalizing s with
  | zero => exact ⟨.refl,batch⟩
  | succ fuel ih =>
    rw [rounds]
    split
    · exact ⟨.refl,batch⟩
    · next waiting =>
      obtain ⟨path,done⟩ := @round_runs program s batch (by simpa using waiting)
      obtain ⟨rest,ended⟩ := ih done
      exact ⟨path.trans rest,ended⟩

theorem rounds_idle (fuel : Nat) {s : SummaryRun} (idle : s.pending = []) : program.rounds fuel s = s := by
  cases fuel with
  | zero => rfl
  | succ fuel => simp [rounds,idle]

theorem rounds_finish {fuel : Nat} {s : SummaryRun} (batch : s.batch = []) (sound : program.Sound s)
    (enough : program.room s < fuel) : (program.rounds fuel s).pending = [] := by
  induction fuel generalizing s with
  | zero => exact absurd enough (Nat.not_lt_zero _)
  | succ fuel ih =>
    rw [rounds]
    split
    · next idle => simpa using idle
    · next waiting =>
      obtain ⟨path,done⟩ := @round_runs program s batch (by simpa using waiting)
      have entered : program.Sound ⟨s.summaries,program.drainOrder s.pending,[]⟩ :=
        step_sound (s := ⟨s.summaries,[],s.pending⟩) ⟨sound.complete,⟨fun _ member => absurd member List.not_mem_nil,
          sound.rising.rising,sound.rising.outside,sound.rising.below⟩⟩
          (.drain (by simpa using waiting) (drainOrder_nodup _) fun _ => mem_drainOrder)
      rcases batch_room (s := ⟨s.summaries,program.drainOrder s.pending,[]⟩) _ rfl entered with quiet | shrinks
      · have idle : (program.round s).pending = [] := quiet.1
        rw [rounds_idle _ idle]
        exact idle
      · exact ih done (runs_sound sound path) (Nat.lt_of_lt_of_le shrinks (Nat.lt_succ_iff.mp enough))

theorem room_start : program.room program.start ≤ program.capacity := by
  have limits : ∑ func ∈ program.equations.domain, program.limit func = program.capacity := by
    have each : program.layouts.entries.map (fun entry => entry.2.params.length * entry.2.outputs.length) =
        program.layouts.keys.map program.limit := by
      rw [AList.keys, List.keys, List.map_map]
      refine List.map_congr_left fun entry member => ?_
      have known : program.layouts.lookup entry.1 = some entry.2 := AList.mem_lookup_iff.mpr member
      simp [limit,known]
    rw [capacity, each]
    exact List.sum_toFinset _ program.layouts.keys_nodup
  rw [← limits]
  unfold room Equations.room
  exact Finset.sum_le_sum fun func _ => Nat.sub_le _ _

theorem loop_finished : Finished (program.rounds (program.capacity + 2) program.start) :=
  ⟨(rounds_runs _ rfl).2,rounds_finish rfl start_sound (Nat.lt_of_le_of_lt room_start (by omega))⟩

theorem run_least (wakes : program.Wakes) (path : Runs program program.start s) (done : Finished s) :
    program.LeastSolution s.summaries :=
  finished_solution (runs_sound start_sound path) (runs_waiting wakes path) done

theorem loop_least (wakes : program.Wakes) : program.LeastSolution program.compileSummariesToFixedPoint :=
  run_least wakes (rounds_runs _ rfl).1 loop_finished

theorem unfinished_steps (stuck : ¬∃ t, Step program s t) : Finished s := by
  obtain ⟨summaries,batch,pending⟩ := s
  have batchEmpty : batch = [] := by
    cases batch with
    | nil => rfl
    | cons func rest => exact absurd ⟨_,.recompile (List.mem_cons_self)⟩ stuck
  subst batchEmpty
  refine ⟨rfl,?_⟩
  cases pending with
  | nil => rfl
  | cons func rest =>
    exact absurd ⟨_,.drain (List.cons_ne_nil _ _) (drainOrder_nodup _) fun _ => mem_drainOrder⟩ stuck

end SummaryProgram

theorem summaryProgram_wakes (workspace : IdgWorkspace) (scope : FuncScope) : (summaryProgram workspace scope).Wakes :=
  fun _ _ _ listed => build_wakes (sortDedup_sorted _) (sortDedup_sorted _) listed

-- One function that returns its parameter and also calls itself with it.
def recursiveWorkspace : IdgWorkspace where
  segments := [{
    places := [.param 0,.return,.callArg ⟨⟨0,4,9⟩⟩ 0,.callRet ⟨⟨0,4,9⟩⟩]
    nodes := [⟨0,0⟩,⟨0,1⟩,⟨0,2⟩,⟨0,3⟩]
    edges := [⟨0,1,⟨.intraReturn,.direct,⟨0,1,2⟩⟩⟩,⟨0,2,⟨.intraRead,.direct,⟨0,4,9⟩⟩⟩,
      ⟨2,0,⟨.interCallArg,.direct,⟨0,4,9⟩⟩⟩,⟨1,3,⟨.interReturn,.direct,⟨0,4,9⟩⟩⟩]
    funcs := [0]
    strings := [] }]
  querySidecar := none
  segmentSpool := none
  residentSegments := []
  crossFileSpool := none
  symbolicTransformSpool := none
  byFunc := AList.singleton 0 0
  crossFile := []
  symbolicField := ⟨[],[],[]⟩

end BonsaiNinja.Idg
