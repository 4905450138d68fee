import BonsaiNinja.Idg.TransformLookups

namespace BonsaiNinja.Idg.SymbolicTransformPager
open Library
variable {admitted : List CompactSymbolicTransform}
variable {allowed : Option (List FuncId)}
variable {baseCount : Nat}
variable {bases : List FuncId}
variable {factSpans : List WireSpan}
variable {rows : List CompactSymbolicTransform}
variable {state : Collecting}
variable {transform : CompactSymbolicTransform}
variable {visited : List CompactSymbolicTransform}

structure Collected (baseCount : Nat) (factSpans : List WireSpan) (state : Collecting)
    (admitted : List CompactSymbolicTransform) : Prop where
  spool : state.spool.Spooled admitted
  reverse : state.reverse = reverseSymbolicSpool ((admitted.filter fun transform => transform.kind ≠ .scalarReturn).map reverseRow)
  reverseScalar : state.reverseScalar =
    reverseScalarSpool ((admitted.filter fun transform => transform.kind = .scalarReturn).map scalarRow)
  words : state.orderingSensitiveBases.length = (baseCount + 63) / 64
  bits : ∀ base, bitAt state.orderingSensitiveBases base = true ↔
    ∃ transform ∈ admitted, transform.source.val = base ∧ transform.allowOutOfOrderSource = false
  spans : ∀ span, span ∈ state.factSpans ↔ span ∈ factSpans ∨ ∃ transform ∈ admitted, transform.writeSpan = span
  within : ∀ transform ∈ admitted, transform.source.val < baseCount

theorem new_collected (baseCount : Nat) (factSpans : List WireSpan) :
    Collected baseCount factSpans (.new baseCount factSpans) [] where
  spool := SymbolicTransformSpool.new_spooled
  reverse := rfl
  reverseScalar := rfl
  words := List.length_replicate
  bits base := by
    simp [Collecting.new,bitAt,wordAt,List.getD_eq_getElem?_getD,List.getElem?_replicate]
    split <;> simp
  spans span := by simp [Collecting.new]
  within transform member := absurd member List.not_mem_nil

theorem markSensitive_exact {bits : List (BitVec 64)} {source : Nat} (words : bits.length = (baseCount + 63) / 64)
    (within : source < baseCount) :
    (markSensitive bits source).length = (baseCount + 63) / 64 ∧
      ∀ base, bitAt (markSensitive bits source) base = true ↔ bitAt bits base = true ∨ source = base := by
  have inside : source / 64 < bits.length := by
    rw [words]
    exact word_of_inside within
  refine ⟨List.length_set.trans words,fun base => ?_⟩
  rw [markSensitive,bitAt_set _ inside]
  by_cases same : base / 64 = source / 64
  · rw [if_pos same,BitVec.getLsbD_or,getLsbD_nodeMask _ _ (Nat.mod_lt _ (by decide)),Bool.or_eq_true,decide_eq_true_eq,bitAt,same]
    refine or_congr_right ⟨fun offset => (eq_of_word_and_offset same offset).symm,fun equal => by rw [equal]⟩
  · rw [if_neg same]
    exact ⟨.inl,fun found => found.resolve_right fun equal => same (by rw [equal])⟩

theorem pushReverse_exact
    {reverse : ExternalSorter ReverseSymbolicRecord} {reverseScalar : ExternalSorter ReverseScalarRecord}
    (ran : pushReverse baseCount state transform = some (reverse,reverseScalar)) :
    (transform.kind ≠ .scalarReturn → transform.target.val < baseCount) ∧
      reverse = (if transform.kind = .scalarReturn then state.reverse
        else state.reverse.push ⟨transform.target,transform.source,kindByte transform.kind⟩) ∧
      reverseScalar = if transform.kind = .scalarReturn then state.reverseScalar.push (scalarRow transform)
        else state.reverseScalar := by
  unfold pushReverse at ran
  split at ran
  · next scalar =>
    cases ran
    exact ⟨fun other => absurd scalar other,(if_pos scalar).symm,(if_pos scalar).symm⟩
  · next other =>
    split at ran
    · next target =>
      cases ran
      exact ⟨fun _ => target,(if_neg other).symm,(if_neg other).symm⟩
    · cases ran

theorem pushReverse_total (state : Collecting)
    (target : transform.kind ≠ .scalarReturn → transform.target.val < baseCount) :
    ∃ pair, pushReverse baseCount state transform = some pair := by
  unfold pushReverse
  by_cases scalar : transform.kind = .scalarReturn
  · exact ⟨_,if_pos scalar⟩
  · rw [if_neg scalar,if_pos (target scalar)]
    exact ⟨_,rfl⟩

theorem Collected.taking
    (collected : Collected baseCount factSpans state admitted)
    (within : transform.source.val < baseCount) {spool : SymbolicTransformSpool} (pushed : state.spool.push transform = some spool)
    {reverse : ExternalSorter ReverseSymbolicRecord} {reverseScalar : ExternalSorter ReverseScalarRecord}
    (spooled : pushReverse baseCount state transform = some (reverse,reverseScalar)) :
    Collected baseCount factSpans ⟨spool,reverse,reverseScalar,
      if transform.allowOutOfOrderSource then state.orderingSensitiveBases
      else markSensitive state.orderingSensitiveBases transform.source.val,
      state.factSpans.insert transform.writeSpan⟩ (admitted ++ [transform]) := by
  have marked := markSensitive_exact collected.words within
  obtain ⟨_,reversed,scalars⟩ := pushReverse_exact spooled
  refine ⟨SymbolicTransformSpool.push_spooled collected.spool pushed,?_,?_,?_,fun base => ?_,fun span => ?_,fun other member => ?_⟩
  · rw [reversed,collected.reverse,List.filter_append,List.map_append]
    by_cases scalar : transform.kind = .scalarReturn
    · rw [if_pos scalar,List.filter_cons_of_neg (by simpa using scalar)]
      simp
    · rw [if_neg scalar,List.filter_cons_of_pos (by simpa using scalar)]
      simp [reverseSymbolicSpool,Idg.spooled,reverseRow]
  · rw [scalars,collected.reverseScalar,List.filter_append,List.map_append]
    by_cases scalar : transform.kind = .scalarReturn
    · rw [if_pos scalar,List.filter_cons_of_pos (by simpa using scalar)]
      simp [reverseScalarSpool,Idg.spooled]
    · rw [if_neg scalar,List.filter_cons_of_neg (by simpa using scalar)]
      simp
  · simp only []
    split
    · exact collected.words
    · exact marked.1
  · have before := collected.bits base
    simp only [List.mem_append,List.mem_singleton,or_and_right,exists_or,exists_eq_left]
    cases allow : transform.allowOutOfOrderSource with
    | true => simpa using before
    | false => simpa [marked.2 base] using or_congr_left before
  · simp only [List.mem_insert_iff,collected.spans,List.mem_append,List.mem_singleton,or_and_right,exists_or,exists_eq_left]
    rw [eq_comm,or_comm,or_assoc]
  · cases List.mem_append.mp member with
    | inl earlier => exact collected.within other earlier
    | inr here => rw [List.mem_singleton.mp here]; exact within

-- The visited transforms may be collected: no source is outside the dictionary, and
-- no target of an admitted transform that is not a scalar return.
structure Fits (baseCount : Nat) (bases : List FuncId) (allowed : Option (List FuncId)) (visited : List CompactSymbolicTransform) :
    Prop where
  sources : ∀ transform ∈ visited, transform.source.val < baseCount
  targets : ∀ transform ∈ visited, admits bases allowed transform = true → transform.kind ≠ .scalarReturn →
    transform.target.val < baseCount

theorem visitTransform_collected
    {state' : Collecting} (collected : Collected baseCount factSpans state admitted)
    (ran : visitTransform baseCount bases allowed state transform = some state') :
    Collected baseCount factSpans state' (admitted ++ [transform].filter (admits bases allowed)) ∧
      Fits baseCount bases allowed [transform] := by
  unfold visitTransform at ran
  split at ran
  · next within =>
    split at ran
    · next passes =>
      rw [List.filter_cons_of_pos passes,List.filter_nil]
      obtain ⟨⟨reverse,reverseScalar⟩,reverses,ran⟩ := Option.bind_eq_some_iff.mp ran
      obtain ⟨spool,pushed,same⟩ := Option.bind_eq_some_iff.mp ran
      cases same
      refine ⟨collected.taking within pushed reverses,?_,?_⟩
      · simpa using within
      · simpa using fun _ => (pushReverse_exact reverses).1
    · next skip =>
      cases ran
      rw [List.filter_cons_of_neg skip,List.filter_nil,List.append_nil]
      refine ⟨collected,?_,?_⟩
      · simpa using within
      · simpa using fun passes => absurd passes skip
  · cases ran

theorem visits_collected
    (visited : List CompactSymbolicTransform) {state' : Collecting}
    (collected : Collected baseCount factSpans state admitted)
    (ran : visited.foldlM (visitTransform baseCount bases allowed) state = some state') :
    Collected baseCount factSpans state' (admitted ++ visited.filter (admits bases allowed)) ∧
      Fits baseCount bases allowed visited := by
  induction visited generalizing state admitted with
  | nil =>
    cases ran
    rw [List.filter_nil,List.append_nil]
    exact ⟨collected,fun _ member => absurd member List.not_mem_nil,fun _ member => absurd member List.not_mem_nil⟩
  | cons transform rest ih =>
    obtain ⟨middle,first,later⟩ := Option.bind_eq_some_iff.mp ran
    obtain ⟨collected,here⟩ := visitTransform_collected collected first
    obtain ⟨collected,there⟩ := ih collected later
    rw [List.append_assoc,← List.filter_append] at collected
    exact ⟨collected,List.forall_mem_cons.mpr ⟨here.sources transform List.mem_cons_self,there.sources⟩,
      List.forall_mem_cons.mpr ⟨here.targets transform List.mem_cons_self,there.targets⟩⟩

theorem visitTransform_total
    (fits : Fits baseCount bases allowed [transform])
    (room : state.spool.nextOrdinal.val + 1 < 2 ^ 64) :
    ∃ state', visitTransform baseCount bases allowed state transform = some state' := by
  obtain ⟨spool,pushed⟩ := SymbolicTransformSpool.push_total room transform
  unfold visitTransform
  rw [if_pos (fits.sources transform List.mem_cons_self)]
  by_cases passes : admits bases allowed transform = true
  · obtain ⟨pair,reverses⟩ := pushReverse_total state (fits.targets transform List.mem_cons_self passes)
    rw [if_pos passes,reverses]
    simp only [pushed,Option.bind_eq_bind,Option.bind_some]
    exact ⟨_,rfl⟩
  · rw [if_neg passes]
    exact ⟨_,rfl⟩

theorem visits_total
    (visited : List CompactSymbolicTransform)
    (collected : Collected baseCount factSpans state admitted) (fits : Fits baseCount bases allowed visited)
    (room : (admitted ++ visited.filter (admits bases allowed)).length + 1 < 2 ^ 64) :
    ∃ state', visited.foldlM (visitTransform baseCount bases allowed) state = some state' := by
  induction visited generalizing state admitted with
  | nil => exact ⟨state,rfl⟩
  | cons transform rest ih =>
    have here : Fits baseCount bases allowed [transform] :=
      ⟨fun other member => fits.sources other (List.mem_of_mem_head? (List.mem_singleton.mp member ▸ rfl)),
        fun other member => fits.targets other (List.mem_of_mem_head? (List.mem_singleton.mp member ▸ rfl))⟩
    have there : Fits baseCount bases allowed rest :=
      ⟨fun other member => fits.sources other (List.mem_cons_of_mem _ member),
        fun other member => fits.targets other (List.mem_cons_of_mem _ member)⟩
    have ordinal := collected.spool.ordinal
    obtain ⟨middle,first⟩ := @visitTransform_total _ _ _ state _ here (by rw [List.length_append] at room; omega)
    have split : (transform :: rest).filter (admits bases allowed) =
        [transform].filter (admits bases allowed) ++ rest.filter (admits bases allowed) :=
      List.filter_append [transform] rest
    rw [split,← List.append_assoc] at room
    obtain ⟨state',later⟩ := ih (visitTransform_collected collected first).1 there room
    exact ⟨state',by rw [List.foldlM_cons,first]; exact later⟩

theorem retainsLocalProvenance_eq (bits : List (BitVec 64)) (base : Nat) : retainsLocalProvenance bits base = bitAt bits base := by
  unfold retainsLocalProvenance bitAt wordAt
  rw [List.getD_eq_getElem?_getD]
  cases bits[base / 64]? with
  | some word => exact WordBits.and_mask_ne_zero (Nat.mod_lt _ (by decide))
  | none => simp

-- What the relations of a build answer about the admitted transforms, whatever was
-- asked before and however small the caches are.
structure Groups (admitted : List CompactSymbolicTransform) (built : Built) : Prop where
  outgoing : ∀ capacity history, ∃ pager', outgoingCalls history { built.pager with capacity := capacity } =
    some (history.map (outgoingOf admitted),pager')
  incoming : ∃ bucket : U32 → List SymbolicRow, (∀ target, (bucket target).Nodup ∧ ∀ source kind,
      (source,kind) ∈ bucket target ↔ ∃ transform ∈ admitted, transform.kind ≠ .scalarReturn ∧ transform.target = target ∧
        transform.source = source ∧ transform.kind = kind) ∧
    ∀ history, ∃ reverse', ReverseSymbolicTransformIndex.visitCalls history built.reverse = some (history.map bucket,reverse')
  scalars : ∀ target (span : WireSpan), ∃ rows : List (U32 × U32), rows.Nodup ∧ (∀ source exactField,
      (source,exactField) ∈ rows ↔ ∃ transform ∈ admitted, transform.kind = .scalarReturn ∧ transform.target = target ∧
        transform.writeSpan = span ∧ transform.source = source ∧ transform.exactField = exactField) ∧
    ∀ {σ : Type} (visit : σ → U32 × U32 → σ) (s : σ),
      built.reverseScalar.visitIncoming target span.file span.start span.stop visit s = some (rows.foldl visit s)
  ordering : ∀ base, retainsLocalProvenance built.orderingSensitiveBases base = true ↔
    ∃ transform ∈ admitted, transform.source.val = base ∧ transform.allowOutOfOrderSource = false
  reload : ∀ history workers, ∃ pager' snapshot reopened,
    outgoingCalls history built.pager = some (history.map (outgoingOf admitted),pager') ∧
    pager'.snapshotFile = some snapshot ∧ fromPersisted workers pager'.offsets snapshot = .ok reopened ∧
    ∀ capacity calls, ∃ reopened', outgoingCalls calls { reopened with capacity := capacity } =
      some (calls.map (outgoingOf admitted),reopened')

theorem Serves.resized {pager : SymbolicTransformPager}
    (serves : pager.Serves baseCount rows) (capacity : Nat) : Serves baseCount rows { pager with capacity := capacity } :=
  ⟨serves.bytes,serves.offsets,serves.within,serves.ordered,serves.cache⟩

theorem collected_groups (workers : Nat) (memoryLimit : Option Nat)
    (collected : Collected baseCount factSpans state admitted)
    {pager : SymbolicTransformPager} (serves : pager.Serves baseCount rows)
    (grouped : ∀ source, outgoingOf rows source = outgoingOf admitted source) :
    ∃ reverse relation, finishReverseSymbolic workers memoryLimit state.reverse = some reverse ∧
      state.reverseScalar.finish memoryLimit = some relation ∧
      Groups admitted ⟨pager,reverse,⟨relation⟩,state.orderingSensitiveBases,state.factSpans⟩ := by
  have pages : outgoingOf rows = outgoingOf admitted := funext grouped
  obtain ⟨relation,finished,bucket,members,lookups⟩ := reverseSymbolic_lookups memoryLimit
    ((admitted.filter fun transform => transform.kind ≠ .scalarReturn).map reverseRow)
  obtain ⟨scalarRelation,scalarFinished,scalars⟩ := reverseScalar_lookups memoryLimit
    ((admitted.filter fun transform => transform.kind = .scalarReturn).map scalarRow)
  rw [← collected.reverse] at finished
  rw [← collected.reverseScalar] at scalarFinished
  unfold finishReverseSymbolic
  simp only [finished,Option.bind_eq_bind,Option.bind_some]
  refine ⟨_,scalarRelation,rfl,scalarFinished,fun capacity history => ?_,⟨bucket,fun target => ⟨(members target).1,fun source kind => ?_⟩,
    lookups _ _⟩,fun target span => ?_,fun base => ?_,fun history workers => ?_⟩
  · obtain ⟨pager',ran,_⟩ := outgoingCalls_exact history (serves.resized capacity)
    exact ⟨pager',pages ▸ ran⟩
  · rw [(members target).2]
    simp only [List.mem_map,List.mem_filter,reverseRow,Prod.mk.injEq,decide_eq_true_eq,and_assoc]
  · obtain ⟨found,distinct,held,visits⟩ := scalars target span.file span.start span.stop
    refine ⟨found,distinct,fun source exactField => ?_,visits⟩
    rw [held]
    simp only [List.mem_map,List.mem_filter,scalarRow,ReverseScalarRecord.mk.injEq,decide_eq_true_eq,and_assoc]
    refine exists_congr fun transform => and_congr_right fun _ => and_congr_right fun _ => and_congr_right fun _ => ?_
    cases transform.writeSpan
    cases span
    simp only [WireSpan.mk.injEq,and_assoc]
  · rw [retainsLocalProvenance_eq]
    exact collected.bits base
  · obtain ⟨pager',ran,serves⟩ := outgoingCalls_exact history serves
    obtain ⟨snapshot,reopened,copied,accepted,serves⟩ := reload_exact serves workers
    refine ⟨pager',snapshot,reopened,pages ▸ ran,copied,accepted,fun capacity calls => ?_⟩
    obtain ⟨reopened',answered,_⟩ := outgoingCalls_exact calls (serves.resized capacity)
    exact ⟨reopened',pages ▸ answered⟩

theorem build_some (workers : Nat) (memoryLimit : Option Nat) (factSpans : List WireSpan)
    (fits : Fits baseCount bases allowed visited)
    (few : (visited.filter (admits bases allowed)).length < 2 ^ 32) :
    ∃ built, build workers memoryLimit bases baseCount factSpans allowed visited = some built ∧
      Groups (visited.filter (admits bases allowed)) built := by
  obtain ⟨state,folded⟩ := visits_total visited (new_collected baseCount factSpans) fits
    (by rw [List.nil_append]; exact Nat.lt_trans (Nat.succ_lt_succ few) (by decide))
  obtain ⟨collected,_⟩ := visits_collected visited (new_collected baseCount factSpans) folded
  rw [List.nil_append] at collected
  obtain ⟨rows,finished,ordered,perm,grouped⟩ := SymbolicTransformSpool.finish_exact collected.spool memoryLimit
  have within : ∀ transform ∈ rows, transform.source.val < baseCount := fun transform member =>
    collected.within transform (perm.mem_iff.mp member)
  obtain ⟨offsets,bytes,written⟩ := layoutRows_total ordered (perm.length_eq ▸ few) within
  obtain ⟨starts,whole,_⟩ := layoutRows_exact ordered written
  have serves : Serves baseCount rows ⟨.file bytes,offsets,.empty,workerCapacity workers⟩ :=
    ⟨whole,starts,within,ordered,PageCache.empty_valid _⟩
  obtain ⟨reverse,relation,reversed,scalars,groups⟩ := collected_groups workers memoryLimit collected serves grouped
  refine ⟨_,?_,groups⟩
  unfold build
  simp only [folded,finished,written,reversed,scalars,Option.bind_eq_bind,Option.bind_some]
  rfl

theorem build_none (workers : Nat) (memoryLimit : Option Nat) (factSpans : List WireSpan)
    (refused : ¬(Fits baseCount bases allowed visited ∧ (visited.filter (admits bases allowed)).length < 2 ^ 32)) :
    build workers memoryLimit bases baseCount factSpans allowed visited = none := by
  unfold build
  cases folded : visited.foldlM (visitTransform baseCount bases allowed) (.new baseCount factSpans) with
  | none => rfl
  | some state =>
    obtain ⟨collected,fits⟩ := visits_collected visited (new_collected baseCount factSpans) folded
    rw [List.nil_append] at collected
    obtain ⟨rows,finished,ordered,perm,_⟩ := SymbolicTransformSpool.finish_exact collected.spool memoryLimit
    simp only [finished,Option.bind_eq_bind,Option.bind_some]
    cases written : layoutRows baseCount rows with
    | none => rfl
    | some pair =>
      have few := (layoutRows_exact ordered written).2.2
      exact absurd ⟨fits,perm.length_eq ▸ few⟩ refused

-- A build runs to its end exactly when the transforms fit the dictionary and their
-- count fits a word, and then its relations group the admitted ones.
theorem pager_groups_transforms (workers : Nat) (memoryLimit : Option Nat) (bases : List FuncId) (baseCount : Nat)
    (factSpans : List WireSpan) (allowed : Option (List FuncId)) (visited : List CompactSymbolicTransform) :
    (Fits baseCount bases allowed visited ∧ (visited.filter (admits bases allowed)).length < 2 ^ 32 ∧
      ∃ built, build workers memoryLimit bases baseCount factSpans allowed visited = some built ∧
        Groups (visited.filter (admits bases allowed)) built) ∨
    (¬(Fits baseCount bases allowed visited ∧ (visited.filter (admits bases allowed)).length < 2 ^ 32) ∧
      build workers memoryLimit bases baseCount factSpans allowed visited = none) := by
  by_cases accepted : Fits baseCount bases allowed visited ∧ (visited.filter (admits bases allowed)).length < 2 ^ 32
  · exact .inl ⟨accepted.1,accepted.2,build_some workers memoryLimit factSpans accepted.1 accepted.2⟩
  · exact .inr ⟨accepted,build_none workers memoryLimit factSpans accepted⟩

def sampleTransform (target : U32) (kind : SymbolicFieldTransformKind) : CompactSymbolicTransform :=
  ⟨0,target,7,⟨1,2,3⟩,⟨1,4,5⟩,.direct,kind,0,0,true⟩

-- A target outside the dictionary aborts the build, one source is visited once for
-- each kind it has, and the count of the rows is a word.
theorem transform_builds_bounded :
    build 1 none [] 1 [] none [sampleTransform 5 .argument] = none ∧
    (∃ built rows reverse', build 1 none [] 1 [] none [sampleTransform 0 .argument,sampleTransform 0 .return] = some built ∧
      ReverseSymbolicTransformIndex.visitCalls [0] built.reverse = some ([rows],reverse') ∧ ¬(rows.map (·.1)).Nodup) ∧
    build 1 none [] 1 [] none (List.replicate (2 ^ 32) (sampleTransform 0 .argument)) = none := by
  refine ⟨?_,?_,?_⟩
  · refine build_none 1 none [] fun accepted => ?_
    have target := accepted.1.targets _ List.mem_cons_self rfl (by decide)
    exact absurd target (by decide)
  · have fits : Fits 1 [] none [sampleTransform 0 .argument,sampleTransform 0 .return] :=
      ⟨by simp [sampleTransform],by simp [sampleTransform]⟩
    obtain ⟨built,ran,groups⟩ := build_some 1 none [] fits (by decide)
    obtain ⟨bucket,members,visits⟩ := groups.incoming
    obtain ⟨reverse',visited⟩ := visits [0]
    refine ⟨built,bucket 0,reverse',ran,visited,fun distinct => ?_⟩
    have first : ((0 : U32),SymbolicFieldTransformKind.argument) ∈ bucket 0 :=
      ((members 0).2 0 .argument).mpr ⟨_,List.mem_cons_self,by decide,rfl,rfl,rfl⟩
    have second : ((0 : U32),SymbolicFieldTransformKind.return) ∈ bucket 0 :=
      ((members 0).2 0 .return).mpr ⟨_,List.mem_cons_of_mem _ List.mem_cons_self,by decide,rfl,rfl,rfl⟩
    have same := List.inj_on_of_nodup_map distinct first second rfl
    cases same
  · refine build_none 1 none [] fun accepted => ?_
    have few := accepted.2
    rw [List.filter_replicate_of_pos rfl,List.length_replicate] at few
    exact absurd few (Nat.lt_irrefl _)

end BonsaiNinja.Idg.SymbolicTransformPager
