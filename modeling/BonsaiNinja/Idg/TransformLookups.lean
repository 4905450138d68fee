import BonsaiNinja.Idg.TransformPager

namespace BonsaiNinja.Idg.SymbolicTransformPager
open Library
variable {rows done : List CompactSymbolicTransform} {base baseCount : Nat} {layout : Layout}
  {transform : CompactSymbolicTransform} {offsets : List Nat} {pager : SymbolicTransformPager}

theorem fillOffsets_exact (count stop : Nat) (offsets : List Nat) (nextBase : Nat) :
    (fillOffsets count stop offsets nextBase).2 = max nextBase stop ∧
      (fillOffsets count stop offsets nextBase).1.length = offsets.length ∧
      ∀ i, i < offsets.length → (fillOffsets count stop offsets nextBase).1[i]? =
        if nextBase ≤ i ∧ i < stop then some count else offsets[i]? := by
  fun_induction fillOffsets count stop offsets nextBase with
  | case1 offsets nextBase more ih =>
    obtain ⟨base,length,held⟩ := ih
    rw [List.length_set] at length
    refine ⟨by rw [base]; omega,length,fun i inside => ?_⟩
    rw [held i (by rwa [List.length_set]),List.getElem?_set]
    by_cases here : nextBase = i
    · subst here
      rw [if_neg (by omega),if_pos rfl,if_pos inside,if_pos (by omega)]
    · rw [if_neg here]
      by_cases later : nextBase + 1 ≤ i ∧ i < stop
      · rw [if_pos later,if_pos (by omega)]
      · rw [if_neg later,if_neg (by omega)]
  | case2 offsets nextBase done =>
    refine ⟨by simp only []; omega,rfl,fun i inside => ?_⟩
    rw [if_neg (by omega)]

def below (rows : List CompactSymbolicTransform) (base : Nat) : Nat := rows.countP fun transform => transform.source.val < base

-- What has been written for the rows laid out so far: the bytes of the rows, and
-- the start of every base up to the last one seen.
structure Layout.Wrote (baseCount : Nat) (layout : Layout) (rows : List CompactSymbolicTransform) : Prop where
  bytes : layout.file ++ layout.payload = wire (rows.map encodeSymbolicTransform)
  count : layout.count = rows.length
  length : layout.offsets.length = baseCount + 1
  starts : ∀ base < layout.nextBase, layout.offsets[base]? = some (below rows base)
  seen : ∀ transform ∈ rows, transform.source.val < layout.nextBase
  last : layout.nextBase = 0 ∨ ∃ transform ∈ rows, layout.nextBase = transform.source.val + 1
  inside : layout.nextBase ≤ baseCount

theorem below_all (all : ∀ transform ∈ rows, transform.source.val < base) :
    below rows base = rows.length :=
  List.countP_eq_length.mpr fun transform member => by simpa using all transform member

theorem filled_starts
    (wrote : layout.Wrote baseCount rows) {stop : Nat} (below' : base < max layout.nextBase stop) (inside : base ≤ baseCount) :
    (fillOffsets layout.count stop layout.offsets layout.nextBase).1[base]? = some (below rows base) := by
  obtain ⟨_,_,held⟩ := fillOffsets_exact layout.count stop layout.offsets layout.nextBase
  rw [held base (by rw [wrote.length]; omega)]
  by_cases fresh : layout.nextBase ≤ base ∧ base < stop
  · have all : ∀ transform ∈ rows, transform.source.val < base := fun transform member =>
      Nat.lt_of_lt_of_le (wrote.seen transform member) fresh.1
    rw [if_pos fresh,wrote.count,below_all all]
  · rw [if_neg fresh]
    exact wrote.starts base (by omega)

theorem layoutRow_wrote {layout' : Layout}
    (wrote : layout.Wrote baseCount rows)
    (behind : ∀ other ∈ rows, other.source.val ≤ transform.source.val)
    (ran : layoutRow baseCount layout transform = some layout') :
    layout'.Wrote baseCount (rows ++ [transform]) ∧ rows.length + 1 < 2 ^ 32 := by
  unfold layoutRow at ran
  split at ran
  · next within =>
    obtain ⟨nextBase,length,_⟩ := fillOffsets_exact layout.count (transform.source.val + 1) layout.offsets layout.nextBase
    have latest : layout.nextBase ≤ transform.source.val + 1 := by
      cases wrote.last with
      | inl zero => omega
      | inr found =>
        obtain ⟨other,member,same⟩ := found
        have order := behind other member
        omega
    rw [Nat.max_eq_right latest] at nextBase
    have bytes : layout.file ++ (layout.payload ++ encode (encodeSymbolicTransform transform)) =
        wire ((rows ++ [transform]).map encodeSymbolicTransform) := by
      rw [← List.append_assoc,wrote.bytes,List.map_append,wire_append,List.map_singleton,wire_cons,wire_nil,List.append_nil]
    have starts : ∀ base < transform.source.val + 1,
        (fillOffsets layout.count (transform.source.val + 1) layout.offsets layout.nextBase).1[base]? =
          some (below (rows ++ [transform]) base) := by
      intro base lower
      rw [filled_starts wrote (by omega) (by omega),below,below,List.countP_append]
      rw [List.countP_singleton,if_neg (by simpa using Nat.le_of_lt_succ lower),Nat.add_zero]
    have seen : ∀ other ∈ rows ++ [transform], other.source.val < transform.source.val + 1 := by
      intro other member
      cases List.mem_append.mp member with
      | inl earlier => exact Nat.lt_succ_of_le (behind other earlier)
      | inr here => rw [List.mem_singleton.mp here]; exact Nat.lt_succ_self _
    have few : layout.count + 1 = (rows ++ [transform]).length := by rw [wrote.count,List.length_append,List.length_singleton]
    have last : transform.source.val + 1 = 0 ∨ ∃ other ∈ rows ++ [transform], transform.source.val + 1 = other.source.val + 1 :=
      .inr ⟨transform,List.mem_append_right _ List.mem_cons_self,rfl⟩
    rw [show fillOffsets layout.count (transform.source.val + 1) layout.offsets layout.nextBase =
      (_,transform.source.val + 1) from Prod.ext rfl nextBase] at ran
    simp only [] at ran
    split at ran
    · next room =>
      rw [wrote.count] at room
      refine ⟨?_,room⟩
      split at ran
      · cases ran
        exact ⟨by rw [List.append_nil]; exact bytes,few,length.trans wrote.length,starts,seen,last,within⟩
      · cases ran
        exact ⟨bytes,few,length.trans wrote.length,starts,seen,last,within⟩
    · cases ran
  · cases ran

theorem layoutRow_total
    (within : transform.source.val < baseCount) (room : layout.count + 1 < 2 ^ 32) :
    ∃ layout', layoutRow baseCount layout transform = some layout' := by
  unfold layoutRow
  rw [if_pos within]
  simp only [if_pos room]
  split
  · exact ⟨_,rfl⟩
  · exact ⟨_,rfl⟩

theorem not_above {rest : List CompactSymbolicTransform}
    (ordered : Buckets.KeyOrdered CompactSymbolicTransform.source (done ++ transform :: rest)) :
    ∀ other ∈ done, other.source.val ≤ transform.source.val := by
  intro other member
  have order := (List.pairwise_append.mp ordered).2.2 other member transform List.mem_cons_self
  rw [before_fin,decide_eq_false_iff_not] at order
  exact Nat.le_of_not_lt order

theorem layoutFold_wrote (rows : List CompactSymbolicTransform) {layout' : Layout}
    (wrote : layout.Wrote baseCount done)
    (ordered : Buckets.KeyOrdered CompactSymbolicTransform.source (done ++ rows)) (few : done.length < 2 ^ 32)
    (ran : rows.foldlM (layoutRow baseCount) layout = some layout') :
    layout'.Wrote baseCount (done ++ rows) ∧ (done ++ rows).length < 2 ^ 32 := by
  induction rows generalizing layout done with
  | nil =>
    cases ran
    rw [List.append_nil]
    exact ⟨wrote,few⟩
  | cons transform rest ih =>
    obtain ⟨middle,first,later⟩ := Option.bind_eq_some_iff.mp ran
    have behind := not_above ordered
    obtain ⟨wrote,room⟩ := layoutRow_wrote wrote behind first
    rw [List.append_cons] at ordered ⊢
    exact ih wrote ordered (by rw [List.length_append]; exact room) later

theorem layoutFold_total (rows : List CompactSymbolicTransform)
    (wrote : layout.Wrote baseCount done)
    (ordered : Buckets.KeyOrdered CompactSymbolicTransform.source (done ++ rows)) (few : (done ++ rows).length < 2 ^ 32)
    (within : ∀ transform ∈ rows, transform.source.val < baseCount) :
    ∃ layout', rows.foldlM (layoutRow baseCount) layout = some layout' := by
  induction rows generalizing layout done with
  | nil => exact ⟨layout,rfl⟩
  | cons transform rest ih =>
    have length : (done ++ transform :: rest).length = done.length + rest.length + 1 := by simp; omega
    obtain ⟨middle,first⟩ := @layoutRow_total _ layout _ (within transform List.mem_cons_self) (by rw [wrote.count]; omega)
    have behind := not_above ordered
    rw [List.append_cons] at ordered few
    obtain ⟨layout',later⟩ := ih (layoutRow_wrote wrote behind first).1 ordered few
      fun other member => within other (List.mem_cons_of_mem _ member)
    exact ⟨layout',by rw [List.foldlM_cons,first]; exact later⟩

structure Offsets (baseCount : Nat) (offsets : List Nat) (rows : List CompactSymbolicTransform) : Prop where
  length : offsets.length = baseCount + 1
  starts : ∀ base ≤ baseCount, offsets[base]? = some (below rows base)

theorem Layout.Wrote.fresh : Wrote baseCount ⟨List.replicate (baseCount + 1) 0,0,0,[],[]⟩ [] :=
  ⟨rfl,rfl,List.length_replicate,fun _ lower => absurd lower (Nat.not_lt_zero _),fun _ member => absurd member List.not_mem_nil,
    .inl rfl,Nat.zero_le _⟩

theorem layoutRows_exact {bytes : List UInt8}
    (ordered : Buckets.KeyOrdered CompactSymbolicTransform.source rows)
    (ran : layoutRows baseCount rows = some (offsets,bytes)) :
    Offsets baseCount offsets rows ∧ bytes = wire (rows.map encodeSymbolicTransform) ∧ rows.length < 2 ^ 32 := by
  obtain ⟨layout,folded,same⟩ := Option.bind_eq_some_iff.mp ran
  cases same
  obtain ⟨wrote,few⟩ := layoutFold_wrote rows .fresh ordered (by decide) folded
  refine ⟨⟨?_,fun base inside => ?_⟩,wrote.bytes,few⟩
  · exact (fillOffsets_exact _ _ _ _).2.1.trans wrote.length
  · exact filled_starts wrote (by rw [wrote.length]; omega) inside

theorem layoutRows_total
    (ordered : Buckets.KeyOrdered CompactSymbolicTransform.source rows) (few : rows.length < 2 ^ 32)
    (within : ∀ transform ∈ rows, transform.source.val < baseCount) :
    ∃ offsets bytes, layoutRows baseCount rows = some (offsets,bytes) := by
  obtain ⟨layout,folded⟩ := layoutFold_total rows .fresh ordered few within
  unfold layoutRows
  rw [folded]
  exact ⟨_,_,rfl⟩

def outgoingOf (transforms : List CompactSymbolicTransform) (source : U32) : List CompactSymbolicTransform :=
  transforms.filter fun transform => transform.source = source

structure Serves (baseCount : Nat) (rows : List CompactSymbolicTransform) (pager : SymbolicTransformPager) : Prop where
  bytes : pager.storage.bytes = wire (rows.map encodeSymbolicTransform)
  offsets : Offsets baseCount pager.offsets rows
  within : ∀ transform ∈ rows, transform.source.val < baseCount
  ordered : Buckets.KeyOrdered CompactSymbolicTransform.source rows
  cache : pager.cache.Valid (outgoingOf rows)

theorem below_le (rows : List CompactSymbolicTransform) (base : Nat) : below rows base ≤ rows.length := List.countP_le_length

theorem below_mono (rows : List CompactSymbolicTransform) {later : Nat} (order : base ≤ later) :
    below rows base ≤ below rows later :=
  List.countP_mono_left fun transform _ lower => by
    rw [decide_eq_true_eq] at lower ⊢
    exact Nat.lt_of_lt_of_le lower order

-- The rows between the starts of a base and of the next one are those of the base.
theorem slice_outgoing (ordered : Buckets.KeyOrdered CompactSymbolicTransform.source rows)
    (source : U32) : slice rows (below rows source.val) (below rows (source.val + 1)) = outgoingOf rows source := by
  have bucket := Buckets.slice_bucket ordered source
  have upper : rows.countP (fun transform => !before source transform.source) = below rows (source.val + 1) := by
    refine List.countP_congr fun transform _ => ?_
    rw [before_fin,Bool.not_eq_true',decide_eq_false_iff_not,decide_eq_true_eq]
    exact Nat.not_lt.trans Nat.lt_succ_iff.symm
  rw [upper] at bucket
  exact bucket

theorem decode_outgoing (rows : List CompactSymbolicTransform) (source : U32) :
    ((outgoingOf rows source).map encodeSymbolicTransform).mapM (fun record => decodeSymbolicTransform record source) =
      some (outgoingOf rows source) := by
  have back : ∀ transform ∈ outgoingOf rows source,
      decodeSymbolicTransform (encodeSymbolicTransform transform) source = some transform := by
    intro transform member
    have same := of_decide_eq_true (List.mem_filter.mp member).2
    rw [← same]
    exact decode_encode_transform transform
  rw [mapM_filterMap,List.filterMap_map]
  · exact congrArg some ((List.filterMap_congr back).trans List.filterMap_some)
  · intro record member
    obtain ⟨transform,held,rfl⟩ := List.mem_map.mp member
    rw [back transform held]
    rfl

theorem outgoing_exact
    (serves : pager.Serves baseCount rows) (source : U32) :
    ∃ pager', pager.outgoing source = some (outgoingOf rows source,pager') ∧ pager'.Serves baseCount rows := by
  unfold outgoing
  cases cached : pager.cache.get source with
  | some page =>
    have whole := PageCache.get_exact serves.cache cached
    exact ⟨pager,by rw [whole],serves⟩
  | none =>
    by_cases inside : source.val < baseCount
    · have start := serves.offsets.starts source.val (Nat.le_of_lt inside)
      have stop := serves.offsets.starts (source.val + 1) inside
      have order := below_mono rows (Nat.le_succ source.val)
      have ends : below rows source.val + (below rows (source.val + 1) - below rows source.val) = below rows (source.val + 1) :=
        Nat.add_sub_cancel' order
      have payload : pager.readPage (below rows source.val) (below rows (source.val + 1) - below rows source.val) =
          some (wire ((outgoingOf rows source).map encodeSymbolicTransform)) := by
        have read := @readAt_wire _ _ (rows.map encodeSymbolicTransform) (below rows source.val)
          (below rows (source.val + 1) - below rows source.val)
          (by rw [ends,List.length_map]; exact below_le rows _)
        have cut : slice (rows.map encodeSymbolicTransform) (below rows source.val) (below rows (source.val + 1)) =
            (outgoingOf rows source).map encodeSymbolicTransform := by
          rw [← slice_outgoing serves.ordered source,slice,slice,List.map_take,List.map_drop]
        rw [ends,cut] at read
        unfold readPage
        split
        · next none =>
          have empty : outgoingOf rows source = [] := by
            rw [← slice_outgoing serves.ordered source,slice,none,List.take_zero]
          rw [empty]
          rfl
        · rw [SymbolicBlobStorage.readExactAt,serves.bytes]
          exact read
      obtain ⟨cache,kept,valid⟩ := PageCache.remember_valid serves.cache cached pager.capacity
      simp only [start,stop,payload,chunksExact_wire,decode_outgoing,kept,Option.bind_eq_bind,Option.bind_some]
      exact ⟨_,rfl,serves.bytes,serves.offsets,serves.within,serves.ordered,valid⟩
    · have outside : pager.offsets[source.val + 1]? = none :=
        List.getElem?_eq_none (by rw [serves.offsets.length]; omega)
      have empty : outgoingOf rows source = [] := by
        refine List.filter_eq_nil_iff.mpr fun transform member same => ?_
        have bound := serves.within transform member
        rw [of_decide_eq_true same] at bound
        exact inside bound
      rw [outside,empty]
      refine ⟨pager,?_,serves⟩
      cases pager.offsets[source.val]? <;> rfl

theorem outgoingCalls_exact (calls : List U32)
    (serves : pager.Serves baseCount rows) :
    ∃ pager', outgoingCalls calls pager = some (calls.map (outgoingOf rows),pager') ∧ pager'.Serves baseCount rows := by
  induction calls generalizing pager with
  | nil => exact ⟨pager,rfl,serves⟩
  | cons source rest ih =>
    obtain ⟨middle,ran,serves⟩ := outgoing_exact serves source
    obtain ⟨last,later,serves⟩ := ih serves
    refine ⟨last,?_,serves⟩
    rw [outgoingCalls]
    simp only [ran,later,Option.bind_eq_bind,Option.bind_some]
    rfl

theorem Offsets.last
    (exact' : Offsets baseCount offsets rows) (within : ∀ transform ∈ rows, transform.source.val < baseCount) :
    offsets.getLast?.getD 0 = rows.length := by
  rw [List.getLast?_eq_getElem?,exact'.length,Nat.add_sub_cancel,exact'.starts baseCount (Nat.le_refl _),Option.getD_some,
    below_all within]

theorem Offsets.ascend
    (exact' : Offsets baseCount offsets rows) : offsets.Pairwise (· ≤ ·) := by
  refine List.pairwise_iff_getElem.mpr fun i j inside other lower => ?_
  have length := exact'.length
  have first := exact'.starts i (by omega)
  have second := exact'.starts j (by omega)
  rw [List.getElem?_eq_getElem inside] at first
  rw [List.getElem?_eq_getElem other] at second
  rw [Option.some.inj first,Option.some.inj second]
  exact below_mono rows (Nat.le_of_lt lower)

theorem reload_exact
    (serves : pager.Serves baseCount rows) (workers : Nat) :
    ∃ snapshot reopened, pager.snapshotFile = some snapshot ∧ fromPersisted workers pager.offsets snapshot = .ok reopened ∧
      reopened.Serves baseCount rows := by
  have last := serves.offsets.last serves.within
  have total : pager.storage.bytes.length = pager.offsets.getLast?.getD 0 * width TransformRecord := by
    rw [serves.bytes,wire_length,List.length_map,last]
  have copied := SymbolicBlobStorage.snapshotFrom_exact total 0
  rw [List.drop_zero] at copied
  have nonempty : pager.offsets.isEmpty = false := by
    have length := serves.offsets.length
    cases same : pager.offsets with
    | nil => rw [same] at length; cases length
    | cons _ _ => rfl
  have head : pager.offsets.head? = some 0 := by
    have none : below rows 0 = 0 := List.countP_eq_zero.mpr fun transform _ => by simp
    rw [List.head?_eq_getElem?,serves.offsets.starts 0 (Nat.zero_le _),none]
  have ascending : (pager.offsets.zip pager.offsets.tail).any (fun pair => pair.1 > pair.2) = false := by
    refine List.any_eq_false.mpr fun pair member above => ?_
    have order := pair_of_zip_tail serves.offsets.ascend pair member
    exact absurd (of_decide_eq_true above) (Nat.not_lt.mpr order)
  refine ⟨pager.storage.bytes,⟨.persisted pager.storage.bytes,pager.offsets,.empty,workerCapacity workers⟩,copied,?_,
    serves.bytes,serves.offsets,serves.within,serves.ordered,PageCache.empty_valid _⟩
  unfold fromPersisted
  rw [if_neg (by simp [nonempty,head,ascending,total])]

end BonsaiNinja.Idg.SymbolicTransformPager
