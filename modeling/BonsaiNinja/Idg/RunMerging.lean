import BonsaiNinja.Idg.RelationContents

namespace BonsaiNinja.Idg
open Library
variable {file : List UInt8}
variable {runs : List RunEntry}

variable {R : Type} [ExternalRecord R]

-- The rows a reader still has to deliver: first those in its page, then those in
-- the file behind its offset.
structure RunReader.Holds (file : List UInt8) (reader : RunReader) (rest : List R) : Prop where
  remaining : reader.remaining = rest.length
  pages : 0 < reader.pageRows
  buffered : ∃ page later, rest = page ++ later ∧ reader.position ≤ reader.payload.length ∧
    reader.payload.drop reader.position = wire page ∧ wire later <+: file.drop reader.offset

namespace RunReader
variable {file : List UInt8}

theorem wire_eq_nil {rows : List R} (empty : wire rows = []) : rows = [] := by
  have length := congrArg List.length empty
  rw [wire_length,List.length_nil] at length
  exact List.length_eq_zero_iff.mp ((Nat.mul_eq_zero.mp length).resolve_right (Nat.ne_of_gt RecordCodec.positive))

theorem readAt_prefix {offset : Nat} {rows : List R} (kept : wire rows <+: file.drop offset) {count : Nat}
    (positive : 0 < count) (inside : count ≤ rows.length) :
    readAt file offset (count * width R) = some (wire (rows.take count)) ∧
      wire (rows.drop count) <+: file.drop (offset + count * width R) := by
  obtain ⟨after,split⟩ := kept
  have bytes : 0 < count * width R := Nat.mul_pos positive RecordCodec.positive
  have wide : count * width R ≤ rows.length * width R := Nat.mul_le_mul_right _ inside
  have length := congrArg List.length split
  rw [List.length_append,wire_length,List.length_drop] at length
  constructor
  · rw [readAt,if_pos (by omega),slice,Nat.add_sub_cancel_left,← split,List.take_append_of_le_length (by rw [wire_length]; exact wide),
      wire_take]
  · refine ⟨after,?_⟩
    rw [← List.drop_drop,← split,List.drop_append_of_le_length (by rw [wire_length]; exact wide),wire_drop]

theorem refill_exact {reader : RunReader} {row : R} {tail : List R}
    (holds : reader.Holds file (row :: tail)) :
    ∃ page later filled, refill R file reader = some filled ∧ tail = page ++ later ∧
      filled.position ≤ filled.payload.length ∧ filled.payload.drop filled.position = wire (row :: page) ∧
      wire later <+: file.drop filled.offset ∧ filled.remaining = reader.remaining ∧ filled.pageRows = reader.pageRows := by
  obtain ⟨page,later,split,position,buffered,stored⟩ := holds.buffered
  unfold refill
  by_cases drained : reader.position = reader.payload.length
  · have none : page = [] := wire_eq_nil (buffered ▸ List.drop_eq_nil_of_le (Nat.le_of_eq drained.symm))
    subst none
    rw [List.nil_append] at split
    subst split
    have some : 0 < min reader.remaining reader.pageRows := by
      have pages := holds.pages
      have length := holds.remaining
      rw [List.length_cons] at length
      omega
    have few : min reader.remaining reader.pageRows ≤ (row :: tail).length := by
      rw [← holds.remaining]
      exact Nat.min_le_left _ _
    obtain ⟨read,after⟩ := readAt_prefix stored some few
    obtain ⟨n,eq⟩ : ∃ n, min reader.remaining reader.pageRows = n + 1 := ⟨_,(Nat.succ_pred_eq_of_pos some).symm⟩
    rw [if_pos drained,read]
    rw [eq] at after few
    refine ⟨tail.take n,tail.drop n,_,rfl,(List.take_append_drop n tail).symm,Nat.zero_le _,?_,?_,rfl,rfl⟩
    · rw [eq]; rfl
    · rw [wire_length,List.length_take_of_le (eq ▸ few),eq]
      exact after
  · rw [if_neg drained]
    cases page with
    | nil =>
      have short := congrArg List.length buffered
      rw [List.length_drop,wire_nil,List.length_nil] at short
      omega
    | cons first page =>
      obtain ⟨rfl,rest⟩ := List.cons.inj split
      exact ⟨page,later,reader,rfl,rest,position,buffered,stored,rfl,rfl⟩

theorem next_exact {reader : RunReader} {rest : List R} (holds : reader.Holds file rest) :
    ∃ reader', next file reader = some (rest.head?,reader') ∧ reader'.Holds file rest.tail := by
  cases rest with
  | nil =>
    refine ⟨reader,?_,holds⟩
    have none : reader.remaining = 0 := holds.remaining
    rw [next,if_pos none]
    rfl
  | cons row tail =>
    obtain ⟨page,later,filled,ran,split,position,buffered,stored,remaining,pages⟩ := refill_exact holds
    have length := holds.remaining
    rw [List.length_cons] at length
    have bytes := congrArg List.length buffered
    rw [List.length_drop,wire_cons,List.length_append,RecordCodec.sized] at bytes
    have whole : filled.position + width R ≤ filled.payload.length := by
      have positive : 0 < width R := RecordCodec.positive
      omega
    have record : slice filled.payload filled.position (filled.position + width R) = encode row := by
      rw [slice,Nat.add_sub_cancel_left,buffered,wire_cons]
      exact List.take_left' (RecordCodec.sized row)
    refine ⟨{ filled with position := filled.position + width R, remaining := filled.remaining - 1 },?_,?_,?_,
      page,later,split,whole,?_,stored⟩
    · rw [next,if_neg (by omega),ran]
      simp only [Option.bind_eq_bind,Option.bind_some,if_pos whole,record,RecordCodec.inverse]
      rfl
    · show filled.remaining - 1 = tail.length
      omega
    · rw [pages]
      exact holds.pages
    · show filled.payload.drop (filled.position + width R) = wire page
      rw [← List.drop_drop,buffered,wire_cons]
      exact List.drop_left' (RecordCodec.sized row)

end RunReader

variable [DecidableEq R]

structure RunMerger.Follows (file : List UInt8) (merger : RunMerger R) (streams : Nat → List R) : Prop where
  merges : Merging.Merges merger.pending streams
  readers : ∀ (i : Nat) (reader : RunReader), merger.readers[i]? = some reader → reader.Holds file (streams i).tail
  bound : ∀ i, merger.readers.length ≤ i → streams i = []

namespace RunMerger
variable {file : List UInt8}
variable {merger : RunMerger R}
variable {streams : Nat → List R}

theorem next_exact (follows : merger.Follows file streams)
    {row : R} {source : Nat} {rest : List (R × Nat)} (pending : merger.pending = (row,source) :: rest) :
    ∃ merger' tail, next file merger = some (some row,merger') ∧ streams source = row :: tail ∧
      merger'.Follows file (Function.update streams source tail) ∧ merger'.readers.length = merger.readers.length ∧
      source < merger.readers.length := by
  have merges := follows.merges
  rw [pending] at merges
  obtain ⟨tail,held,requeued⟩ := merges.pop
  have inside : source < merger.readers.length := by
    by_contra outside
    rw [follows.bound source (Nat.le_of_not_lt outside)] at held
    cases held
  have found := List.getElem?_eq_getElem inside
  have reader := follows.readers source _ found
  rw [held,List.tail_cons] at reader
  obtain ⟨reader',ran,holds⟩ := RunReader.next_exact reader
  refine ⟨⟨merger.readers.set source reader',Merging.requeue tail.head? source rest⟩,tail,?_,held,⟨requeued,?_,?_⟩,
    List.length_set,inside⟩
  · unfold next
    simp only [pending,found,Option.bind_eq_bind,Option.bind_some,ran]
    rfl
  · intro i other at_i
    by_cases same : i = source
    · subst same
      rw [List.getElem?_set_self inside] at at_i
      rw [Function.update_self]
      exact Option.some.inj at_i ▸ holds
    · rw [List.getElem?_set_ne (Ne.symm same)] at at_i
      rw [Function.update_of_ne same]
      exact follows.readers i other at_i
  · intro i outside
    rw [List.length_set] at outside
    have differs : i ≠ source := fun same => absurd inside (Nat.not_lt.mpr (same ▸ outside))
    rw [Function.update_of_ne differs]
    exact follows.bound i outside

-- Each turn delivers one row, so fuel for all rows drains the merge.
theorem drain_exact (fuel : Nat)
    (follows : merger.Follows file streams) (enough : Merging.remaining streams merger.readers.length ≤ fuel) :
    ∃ out, drain file fuel merger = some out ∧ Merging.Merged streams out := by
  induction fuel generalizing merger streams with
  | zero =>
    cases pending : merger.pending with
    | nil =>
      refine ⟨[],?_,Merging.Merges.done (pending ▸ follows.merges)⟩
      unfold drain
      simp only [pending]
    | cons head rest =>
      obtain ⟨merger',tail,_,held,_,_,inside⟩ := next_exact follows pending
      rw [Merging.remaining_pop held inside] at enough
      exact absurd enough (Nat.not_succ_le_zero _)
  | succ fuel ih =>
    cases pending : merger.pending with
    | nil =>
      refine ⟨[],?_,Merging.Merges.done (pending ▸ follows.merges)⟩
      unfold drain
      simp only [pending]
    | cons head rest =>
      obtain ⟨row,source⟩ := head
      obtain ⟨merger',tail,ran,held,follows',readers,inside⟩ := next_exact follows pending
      rw [Merging.remaining_pop held inside] at enough
      obtain ⟨out,drained,merged⟩ := ih follows' (by rw [readers]; omega)
      have merges := follows.merges
      rw [pending] at merges
      refine ⟨row :: out,?_,merges.deliver held merged⟩
      unfold drain
      simp only [pending,ran,Option.bind_eq_bind,Option.bind_some,drained]
      rfl

theorem drain_length (fuel : Nat)
    (follows : merger.Follows file streams) {out : List R} (drained : drain file fuel merger = some out) :
    out.length = Merging.remaining streams merger.readers.length := by
  induction fuel generalizing merger streams out with
  | zero =>
    unfold drain at drained
    cases pending : merger.pending with
    | nil =>
      simp only [pending] at drained
      cases drained
      exact (Merging.remaining_done (pending ▸ follows.merges) _).symm
    | cons head rest => simp only [pending] at drained; cases drained
  | succ fuel ih =>
    unfold drain at drained
    cases pending : merger.pending with
    | nil =>
      simp only [pending] at drained
      cases drained
      exact (Merging.remaining_done (pending ▸ follows.merges) _).symm
    | cons head rest =>
      obtain ⟨merger',tail,ran,held,follows',readers,inside⟩ := next_exact follows pending
      simp only [pending,ran,Option.bind_eq_bind,Option.bind_some] at drained
      obtain ⟨later,rest,same⟩ := Option.bind_eq_some_iff.mp drained
      cases same
      rw [Merging.remaining_pop held inside,← readers,← ih follows' rest]
      rfl

end RunMerger

structure RunEntry.At (file : List UInt8) (run : RunEntry) (rows : List R) : Prop where
  count : run.count = rows.length
  inside : run.offset ≤ file.length
  stored : wire rows <+: file.drop run.offset

omit [DecidableEq R] in
theorem RunEntry.counts_exact {contents : List (List R)}
    (stored : List.Forall₂ (RunEntry.At file) runs contents) : (runs.map (·.count)).sum = contents.flatten.length := by
  induction stored with
  | nil => rfl
  | cons located _ ih => rw [List.map_cons,List.sum_cons,ih,located.count,List.flatten_cons,List.length_append]

theorem RunMerger.open_exact {pageRows : Nat} (pages : 0 < pageRows)
    {contents : List (List R)} (stored : List.Forall₂ (RunEntry.At file) runs contents) (sorted : ∀ rows ∈ contents, Sorted rows)
    {merger : RunMerger R} {streams : Nat → List R} (follows : merger.Follows file streams) :
    ∃ merger' streams', (runs.zipIdx merger.readers.length).foldlM (openRun file pageRows) merger = some merger' ∧
      merger'.Follows file streams' ∧
      (∀ x, (∃ i, x ∈ streams' i) ↔ (∃ i, x ∈ streams i) ∨ ∃ rows ∈ contents, x ∈ rows) ∧
      Merging.remaining streams' merger'.readers.length =
        Merging.remaining streams merger.readers.length + (runs.map (·.count)).sum := by
  induction stored generalizing merger streams with
  | nil => exact ⟨merger,streams,rfl,follows,fun x => by simp,rfl⟩
  | @cons run rows runs contents located stored ih =>
    have fresh : RunReader.Holds file ⟨run.offset,run.count,[],0,pageRows⟩ rows :=
      ⟨located.count,pages,[],rows,rfl,Nat.le_refl _,rfl,located.stored⟩
    obtain ⟨reader,ran,holds⟩ := RunReader.next_exact fresh
    have idle := follows.bound merger.readers.length (Nat.le_refl _)
    have added := follows.merges.add idle (sorted rows List.mem_cons_self)
    have opened : openRun file pageRows merger (run,merger.readers.length) =
        some ⟨merger.readers ++ [reader],Merging.requeue rows.head? merger.readers.length merger.pending⟩ := by
      unfold openRun
      simp only [ran,Option.bind_eq_bind,Option.bind_some]
      rfl
    have longer : (merger.readers ++ [reader]).length = merger.readers.length + 1 := List.length_append
    have follows' : RunMerger.Follows file
        ⟨merger.readers ++ [reader],Merging.requeue rows.head? merger.readers.length merger.pending⟩
        (Function.update streams merger.readers.length rows) := by
      refine ⟨added,fun i other at_i => ?_,fun i outside => ?_⟩
      · rcases Nat.lt_trichotomy i merger.readers.length with earlier | same | later
        · rw [List.getElem?_append_left earlier] at at_i
          rw [Function.update_of_ne (Nat.ne_of_lt earlier)]
          exact follows.readers i other at_i
        · subst same
          rw [List.getElem?_append_right (Nat.le_refl _),Nat.sub_self] at at_i
          rw [Function.update_self]
          exact Option.some.inj at_i ▸ holds
        · rw [List.getElem?_eq_none (by rw [longer]; exact later)] at at_i
          cases at_i
      · rw [longer] at outside
        rw [Function.update_of_ne (Nat.ne_of_gt outside)]
        exact follows.bound i (Nat.le_of_succ_le outside)
    obtain ⟨merger',streams',ran',follows'',members,counted⟩ :=
      ih (fun rows member => sorted rows (List.mem_cons_of_mem _ member)) follows'
    refine ⟨merger',streams',?_,follows'',fun x => ?_,?_⟩
    · rw [List.zipIdx_cons,List.foldlM_cons,opened]
      simp only [longer] at ran'
      exact ran'
    · rw [members]
      have split : (∃ i, x ∈ Function.update streams merger.readers.length rows i) ↔ (∃ i, x ∈ streams i) ∨ x ∈ rows := by
        constructor
        · intro found
          obtain ⟨i,member⟩ := found
          by_cases same : i = merger.readers.length
          · subst same; rw [Function.update_self] at member; exact .inr member
          · rw [Function.update_of_ne same] at member; exact .inl ⟨i,member⟩
        · intro found
          cases found with
          | inl found =>
            obtain ⟨i,member⟩ := found
            have differs : i ≠ merger.readers.length := by
              intro same
              rw [same,idle] at member
              exact absurd member List.not_mem_nil
            exact ⟨i,by rwa [Function.update_of_ne differs]⟩
          | inr member => exact ⟨merger.readers.length,by rwa [Function.update_self]⟩
      rw [split]
      simp only [List.mem_cons,exists_eq_or_imp,or_assoc]
    · rw [counted]
      simp only [longer,Merging.remaining_add,List.map_cons,List.sum_cons,located.count]
      omega

theorem RunMerger.merge_runs {pageRows : Nat} (pages : 0 < pageRows)
    {contents : List (List R)} (stored : List.Forall₂ (RunEntry.At file) runs contents) (sorted : ∀ rows ∈ contents, Sorted rows) :
    ∃ merger out, RunMerger.new file pageRows runs = some merger ∧ merger.drain file (runs.map (·.count)).sum = some out ∧
      (out.Pairwise fun a b => before b a = false) ∧ (∀ x, x ∈ out ↔ ∃ rows ∈ contents, x ∈ rows) ∧
      out.length = (runs.map (·.count)).sum := by
  have idle : RunMerger.Follows file (⟨[],[]⟩ : RunMerger R) (fun _ => []) :=
    ⟨⟨fun row i => by simp,.nil,fun _ => .nil⟩,fun i reader held => by simp at held,fun _ _ => rfl⟩
  obtain ⟨merger,streams,ran,follows,sources,counted⟩ := open_exact pages stored sorted idle
  have nothing : Merging.remaining (fun _ => ([] : List R)) 0 = 0 := rfl
  rw [List.length_nil,nothing,Nat.zero_add] at counted
  obtain ⟨out,drained,merged⟩ := drain_exact _ follows (Nat.le_of_eq counted)
  refine ⟨merger,out,ran,drained,merged.ordered,fun x => ?_,(drain_length _ follows drained).trans counted⟩
  rw [merged.members,sources]
  simp

end BonsaiNinja.Idg
