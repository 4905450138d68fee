import BonsaiNinja.Idg.CoreCodec

namespace BonsaiNinja.Idg
open Library Decoder

section reading

theorem parses_word (width : Nat) : Parses (readExact width >>= fun bytes => pure (leValue bytes))
    fun value bytes => value < 256 ^ width ∧ bytes = leBytes width value := by
  refine ((parses_readExact width).bind fun bytes => parses_pure (leValue bytes)).mono fun value bytes found => ?_
  obtain ⟨before,_,after,rfl,⟨rfl,length⟩,rfl,rfl⟩ := found
  have bound := leValue_lt before
  have same := leBytes_leValue before
  rw [length] at bound same
  exact ⟨bound,by rw [List.append_nil, same]⟩

theorem parses_u32 : Parses readCoreU32 fun value bytes => value < 2 ^ 32 ∧ bytes = leBytes 4 value := parses_word 4

theorem parses_u64 : Parses readCoreU64 fun value bytes => value < 2 ^ 64 ∧ bytes = leBytes 8 value := parses_word 8

structure HeaderOf (encodedBytes : Nat) (found : Nat × Nat × List Nat) (bytes : List UInt8) : Prop where
  form : bytes = coreHeader found.1 found.2.1 found.2.2
  version : found.1 < 2 ^ 32
  segments : found.2.1 < 2 ^ 32
  fields : found.2.2.length = idgQueryCoreCountFields
  counts : ∀ count ∈ found.2.2, count < 2 ^ 64
  declared : expectedBytes found.2.2 = some encodedBytes

theorem forall₂_words {counts : List Nat} {parts : List (List UInt8)}
    (each : List.Forall₂ (fun value bytes => value < 2 ^ 64 ∧ bytes = leBytes 8 value) counts parts) :
    parts.flatten = counts.flatMap (leBytes 8) ∧ ∀ count ∈ counts, count < 2 ^ 64 := by
  induction each with
  | nil => exact ⟨rfl,nofun⟩
  | cons head _ ih =>
    rw [List.flatten_cons, List.flatMap_cons, ih.1, head.2]
    exact ⟨rfl,List.forall_mem_cons.mpr ⟨head.1,ih.2⟩⟩

theorem parses_lengths (encodedBytes version segmentCount : Nat) (counts : List Nat) :
    Parses (match expectedBytes counts with
      | none => halt (.invalid "workspace IDG query accelerator size overflow")
      | some expected =>
        if expected ≠ encodedBytes then
          halt (.invalid s!"workspace IDG query accelerator byte length mismatch: expected {expected}, got {encodedBytes}")
        else if counts.any (usizeMax < ·) then
          halt (.invalid "workspace IDG query accelerator row count exceeds usize")
        else return (version,segmentCount,counts))
      fun found bytes => expectedBytes counts = some encodedBytes ∧ found = (version,segmentCount,counts) ∧ bytes = [] := by
  cases expected : expectedBytes counts with
  | none => exact parses_halt _
  | some total =>
    refine (((parses_pure (version,segmentCount,counts)).unless _).unless _).mono fun found bytes held => ?_
    obtain ⟨same,_,value,empty⟩ := held
    rw [not_not] at same
    exact ⟨by rw [same],value,empty⟩

theorem parses_header (encodedBytes : Nat) : Parses (readHeader encodedBytes) (HeaderOf encodedBytes) := by
  refine ((parses_readExact 8).bind fun magic => (parses_u32.bind fun version => (parses_readExact 4).bind fun reserved =>
    (parses_u32.bind fun segmentCount => (parses_readTimes parses_u64 idgQueryCoreCountFields).bind fun counts =>
      parses_lengths encodedBytes version segmentCount counts).unless _).unless _).mono fun found bytes held => ?_
  obtain ⟨magic,_,_,rfl,⟨rfl,_⟩,proper,version,_,_,rfl,⟨small,rfl⟩,reserved,_,_,rfl,⟨rfl,_⟩,zero,segmentCount,_,_,rfl,
    ⟨small',rfl⟩,counts,_,_,rfl,⟨fields,parts,rfl,each⟩,declared,rfl,rfl⟩ := held
  rw [not_not] at proper zero
  obtain ⟨flat,bounds⟩ := forall₂_words each
  exact ⟨by rw [proper, zero, flat, List.append_nil]; rfl,small,small',fields,bounds,declared⟩

theorem reads_u32 {value : Nat} (fits : value < 2 ^ 32) : Reads readCoreU32 (leBytes 4 value) 0 value := by
  intro rest reserved
  have wide : value < 256 ^ 4 := fits.trans_eq (by norm_num)
  have read := reads_readExact (leBytes 4 value) rest reserved
  rw [leBytes_length] at read
  rw [readCoreU32, bind_ok read, leValue_leBytes wide]
  rfl

theorem reads_u64 {value : Nat} (fits : value < 2 ^ 64) : Reads readCoreU64 (leBytes 8 value) 0 value := by
  intro rest reserved
  have wide : value < 256 ^ 8 := fits.trans_eq (by norm_num)
  have read := reads_readExact (leBytes 8 value) rest reserved
  rw [leBytes_length] at read
  rw [readCoreU64, bind_ok read, leValue_leBytes wide]
  rfl

theorem reads_header {encodedBytes : Nat} {found : Nat × Nat × List Nat} {bytes : List UInt8}
    (header : HeaderOf encodedBytes found bytes) : Reads (readHeader encodedBytes) bytes 0 found := by
  obtain ⟨version,segmentCount,counts⟩ := found
  rw [header.form]
  have usable : counts.any (usizeMax < ·) = false := by
    rw [List.any_eq_false]
    intro count member
    have bound := header.counts count member
    unfold usizeMax
    simp only [decide_eq_true_eq]
    omega
  have fields := reads_readTimes fun count member => reads_u64 (header.counts count member)
  rw [header.fields] at fields
  intro rest reserved
  dsimp only at fields
  have magic : Reads (readExact 8) idgQueryCoreMagic 0 idgQueryCoreMagic := reads_readExact idgQueryCoreMagic
  have zero : Reads (readExact 4) [0,0,0,0] 0 [0,0,0,0] := reads_readExact [0,0,0,0]
  rw [coreHeader, List.append_assoc, List.append_assoc, List.append_assoc, List.append_assoc, readHeader, bind_ok (magic _ _),
    if_neg (by simp), bind_ok (reads_u32 header.version _ _), bind_ok (zero _ _), if_neg (by simp),
    bind_ok (reads_u32 header.segments _ _), bind_ok (fields _ _), header.declared]
  dsimp only
  rw [if_neg (by simp), usable, if_neg (by simp)]
  rfl

theorem words_leBytes {value : Nat} (fits : value < 2 ^ 32) (bytes : List UInt8) :
    words (leBytes 4 value ++ bytes) = value :: words bytes := by
  have first : words (leBytes 4 value ++ bytes) = leValue (leBytes 4 value) :: words bytes := rfl
  rw [first, leValue_leBytes (fits.trans_eq (by norm_num))]

theorem words_flatMap {values : List Nat} (fits : ∀ value ∈ values, value < 2 ^ 32) :
    words (values.flatMap (leBytes 4)) = values := by
  induction values with
  | nil => rfl
  | cons value values ih =>
    rw [List.flatMap_cons, words_leBytes (fits value List.mem_cons_self),
      ih fun other member => fits other (List.mem_cons_of_mem _ member)]

theorem flatMap_words_length (width : Nat) (values : List Nat) :
    (values.flatMap (leBytes width)).length = values.length * width := by
  induction values with
  | nil => simp
  | cons value values ih => rw [List.flatMap_cons, List.length_append, leBytes_length, ih, List.length_cons]; ring

theorem words_lt : ∀ bytes, ∀ value ∈ words bytes, value < 2 ^ 32
  | a :: b :: c :: d :: bytes, value, member => by
    rcases List.mem_cons.mp member with first | later
    · rw [first]
      exact (leValue_lt [a,b,c,d]).trans_eq (by norm_num)
    · exact words_lt bytes value later
  | [], _, member => by cases member
  | [_], _, member => by cases member
  | [_,_], _, member => by cases member
  | [_,_,_], _, member => by cases member

theorem reads_pages {values : List Nat} (fits : ∀ value ∈ values, value < 2 ^ 32) :
    Reads (readPages values.length) (values.flatMap (leBytes 4)) 0 values := by
  induction length : values.length using Nat.strong_induction_on generalizing values with
  | _ count ih =>
    rw [readPages]
    split
    · next empty =>
      rw [empty, List.length_eq_zero_iff] at length
      rw [length]
      exact reads_pure []
    · next remaining =>
      have split := List.take_append_drop (min count valuesPerPage) values
      have early : (values.take (min count valuesPerPage)).length = min count valuesPerPage := by
        rw [List.length_take]
        omega
      have late : (values.drop (min count valuesPerPage)).length = count - min count valuesPerPage := by
        rw [List.length_drop, length]
      have positive : 0 < min count valuesPerPage := by
        unfold valuesPerPage
        omega
      have page := reads_readExact ((values.take (min count valuesPerPage)).flatMap (leBytes 4))
      rw [flatMap_words_length, early] at page
      have later := ih (count - min count valuesPerPage) (by omega)
        (fun value member => fits value (List.mem_of_mem_drop member)) late
      intro rest reserved
      conv_lhs => rw [← split, List.flatMap_append, List.append_assoc]
      rw [bind_ok (page _ _), bind_ok (later _ _), words_flatMap fun value member => fits value (List.mem_of_mem_take member),
        split]
      rfl

theorem fixedWidth_pages (count : Nat) :
    FixedWidth (readPages count) (count * 4) fun values => ∀ value ∈ values, value < 2 ^ 32 := by
  induction count using Nat.strong_induction_on with
  | _ count ih =>
    rw [readPages]
    split
    · next empty =>
      rw [empty, Nat.zero_mul]
      exact fixedWidth_pure nofun
    · next remaining =>
      have positive : 0 < min count valuesPerPage := by
        unfold valuesPerPage
        omega
      have total : count * 4 = min count valuesPerPage * 4 + ((count - min count valuesPerPage) * 4 + 0) := by omega
      rw [total]
      refine (fixedWidth_readExact _).bind fun payload _ => (ih _ (by omega)).bind fun later held => fixedWidth_pure ?_
      intro value member
      rcases List.mem_append.mp member with now | rest
      · exact words_lt payload value now
      · exact held value rest

theorem writeCoreU32Values_eq (values : List Nat) : writeCoreU32Values values = values.flatMap (leBytes 4) := by
  have run : ∀ (values : List Nat) (written buffer : List UInt8),
      (values.foldl (fun (state : List UInt8 × List UInt8) value =>
        let buffer := state.2 ++ leBytes 4 value
        if buffer.length = valuesPerPage * 4 then (state.1 ++ buffer,[]) else (state.1,buffer)) (written,buffer)).1 ++
      (values.foldl (fun (state : List UInt8 × List UInt8) value =>
        let buffer := state.2 ++ leBytes 4 value
        if buffer.length = valuesPerPage * 4 then (state.1 ++ buffer,[]) else (state.1,buffer)) (written,buffer)).2 =
      written ++ buffer ++ values.flatMap (leBytes 4) := by
    intro values
    induction values with
    | nil => intro written buffer; simp
    | cons value values ih =>
      intro written buffer
      rw [List.foldl_cons, List.flatMap_cons]
      dsimp only
      split <;> rw [ih] <;> simp
  have whole := run values [] []
  unfold writeCoreU32Values
  dsimp only
  split
  · next empty =>
    rw [List.isEmpty_iff] at empty
    rw [empty, List.append_nil] at whole
    exact whole
  · exact whole

end reading

section sections

def corePlan (count : Nat → Nat) : List (Nat × Nat) :=
  [(count 0 * 4,count 0 * 4),(count 1 * 4,count 1 * 4),(count 2 * 4,count 2 * 4),(count 3,count 3),(count 4,count 4),
    (count 5 * 4,count 5 * 4),(count 6 * 4,count 6 * 4),(count 7 * 4,count 7 * 4),(count 8 * 24,count 8 * 20),
    (count 9 * 4,count 9 * 4),(count 10 * 4,count 10 * 4),(count 11 * 4,count 11 * 4)]

theorem sectioned_u32Values (count : Nat) : Sectioned isizeMax (readCoreU32Values count) [(count * 4,count * 4)]
    fun values => ∀ value ∈ values, value < 2 ^ 32 := sectioned_rows (fixedWidth_pages count)

theorem sectioned_bytes (count : Nat) : Sectioned isizeMax (readCoreBytes count) [(count,count)] fun _ => True :=
  sectioned_rows ((fixedWidth_readExact count).bind fun _ _ => fixedWidth_pure trivial)

theorem sectioned_spans (count : Nat) : Sectioned isizeMax (readCoreSpans count) [(count * 24,count * 20)] fun _ => True := by
  have u32 : FixedWidth readCoreU32 4 fun _ => True :=
    (fixedWidth_readExact 4).bind fun _ _ => fixedWidth_pure trivial
  have u64 : FixedWidth readCoreU64 8 fun _ => True :=
    (fixedWidth_readExact 8).bind fun _ _ => fixedWidth_pure trivial
  have span : FixedWidth readCoreSpan 20 fun _ => True :=
    u32.bind fun _ _ => u64.bind fun _ _ => u64.bind fun _ _ => fixedWidth_pure trivial
  exact sectioned_rows (fixedWidth_readTimes span count)

theorem sectioned_arrays (count : Nat → Nat) : Sectioned isizeMax (readArrays count) (corePlan count)
    fun core => ∀ base ∈ core.segmentBases, base < 2 ^ 32 := by
  refine (sectioned_u32Values (count 0)).bind fun bases small => ?_
  refine (sectioned_u32Values (count 1)).bind fun _ _ => (sectioned_u32Values (count 2)).bind fun _ _ => ?_
  refine (sectioned_bytes (count 3)).bind fun _ _ => (sectioned_bytes (count 4)).bind fun _ _ => ?_
  refine (sectioned_u32Values (count 5)).bind fun _ _ => (sectioned_u32Values (count 6)).bind fun _ _ => ?_
  refine (sectioned_u32Values (count 7)).bind fun _ _ => (sectioned_spans (count 8)).bind fun _ _ => ?_
  refine (sectioned_u32Values (count 9)).bind fun _ _ => (sectioned_u32Values (count 10)).bind fun _ _ => ?_
  exact (sectioned_u32Values (count 11)).bind fun _ _ => sectioned_pure small

structure WordRows (values : List Nat) : Prop where
  length : values.length ≤ 2 ^ 32 + 1
  fits : ∀ value ∈ values, value < 2 ^ 32

structure ByteRows (values : List Nat) : Prop where
  length : values.length ≤ 2 ^ 32 + 1
  fits : ∀ value ∈ values, value < 256

structure SpanRows (spans : List Span) : Prop where
  length : spans.length ≤ 2 ^ 32 + 1
  fits : ∀ span ∈ spans, span.file < 2 ^ 32 ∧ span.start < 2 ^ 64 ∧ span.stop < 2 ^ 64

structure QueryCore.FitsWords (core : QueryCore) : Prop where
  segmentBases : WordRows core.segmentBases
  funcSegments : WordRows core.funcSegments
  nodeFuncs : WordRows core.nodeFuncs
  nodeBoundaries : ByteRows core.nodeBoundaries
  projectedStorage : ByteRows core.projectedStorage
  offsets : WordRows core.nodesByFunc.offsets
  nodes : WordRows core.nodesByFunc.nodes
  argumentNodes : WordRows core.callArgs.nodes
  sites : SpanRows core.callArgs.sites
  argumentIndices : WordRows core.callArgs.indices
  formalNodes : WordRows core.params.nodes
  formalIndices : WordRows core.params.indices

theorem reads_u32Values {values : List Nat} (rows : WordRows values) :
    Reads (readCoreU32Values values.length) (writeCoreU32Values values) (values.length * 4) values := by
  intro rest reserved
  have room : values.length * 4 ≤ isizeMax := by
    have length := rows.length
    unfold isizeMax
    omega
  have made : ∀ rest reserved, reserve isizeMax (values.length * 4) (values.length * 4) ⟨rest,reserved⟩ =
    (.ok (),⟨rest,reserved + values.length * 4⟩) := reads_reserve room
  rw [readCoreU32Values, bind_ok (made _ _), writeCoreU32Values_eq, reads_pages rows.fits]
  rfl

theorem reads_bytes {values : List Nat} (rows : ByteRows values) :
    Reads (readCoreBytes values.length) (values.map UInt8.ofNat) values.length values := by
  intro rest reserved
  have room : values.length ≤ isizeMax := by
    have length := rows.length
    unfold isizeMax
    omega
  have made : ∀ rest reserved, reserve isizeMax values.length values.length ⟨rest,reserved⟩ =
    (.ok (),⟨rest,reserved + values.length⟩) := reads_reserve room
  have read := reads_readExact (values.map UInt8.ofNat) rest (reserved + values.length)
  rw [List.length_map] at read
  have same : (values.map UInt8.ofNat).map UInt8.toNat = values := by
    rw [List.map_map]
    refine (List.map_congr_left fun value member => ?_).trans (List.map_id values)
    exact UInt8.toNat_ofNat_of_lt (rows.fits value member)
  rw [readCoreBytes, bind_ok (made _ _), bind_ok read, same]
  rfl

theorem reads_spans {spans : List Span} (rows : SpanRows spans) :
    Reads (readCoreSpans spans.length) (spans.flatMap spanBytes) (spans.length * 20) spans := by
  have each : ∀ span ∈ spans, Reads readCoreSpan (spanBytes span) 0 span := by
    intro span member rest reserved
    obtain ⟨file,start,stop⟩ := rows.fits span member
    rw [readCoreSpan, spanBytes, List.append_assoc, List.append_assoc, bind_ok (reads_u32 file _ _),
      bind_ok (reads_u64 start _ _), bind_ok (reads_u64 stop _ _)]
    rfl
  intro rest reserved
  have room : spans.length * 24 ≤ isizeMax := by
    have length := rows.length
    unfold isizeMax
    omega
  have made : ∀ rest reserved, reserve isizeMax (spans.length * 24) (spans.length * 20) ⟨rest,reserved⟩ =
    (.ok (),⟨rest,reserved + spans.length * 20⟩) := reads_reserve room
  rw [readCoreSpans, bind_ok (made _ _), reads_readTimes each]
  rfl

def countOf (core : QueryCore) (section_ : Nat) : Nat := (coreCounts core).getD section_ 0

def coreBody (core : QueryCore) : List UInt8 :=
  writeCoreU32Values core.segmentBases ++ (writeCoreU32Values core.funcSegments ++ (writeCoreU32Values core.nodeFuncs ++
    (core.nodeBoundaries.map UInt8.ofNat ++ (core.projectedStorage.map UInt8.ofNat ++
    (writeCoreU32Values core.nodesByFunc.offsets ++ (writeCoreU32Values core.nodesByFunc.nodes ++
    (writeCoreU32Values core.callArgs.nodes ++ (core.callArgs.sites.flatMap spanBytes ++
    (writeCoreU32Values core.callArgs.indices ++ (writeCoreU32Values core.params.nodes ++
    writeCoreU32Values core.params.indices))))))))))

theorem reads_arrays {core : QueryCore} (fits : core.FitsWords) :
    Reads (readArrays (countOf core)) (coreBody core) (wireBytes (corePlan (countOf core))) core := by
  intro rest reserved
  rw [coreBody, readArrays]
  simp only [List.append_assoc]
  refine (bind_ok (reads_u32Values fits.segmentBases _ _)).trans ?_
  refine (bind_ok (reads_u32Values fits.funcSegments _ _)).trans ?_
  refine (bind_ok (reads_u32Values fits.nodeFuncs _ _)).trans ?_
  refine (bind_ok (reads_bytes fits.nodeBoundaries _ _)).trans ?_
  refine (bind_ok (reads_bytes fits.projectedStorage _ _)).trans ?_
  refine (bind_ok (reads_u32Values fits.offsets _ _)).trans ?_
  refine (bind_ok (reads_u32Values fits.nodes _ _)).trans ?_
  refine (bind_ok (reads_u32Values fits.argumentNodes _ _)).trans ?_
  refine (bind_ok (reads_spans fits.sites _ _)).trans ?_
  refine (bind_ok (reads_u32Values fits.argumentIndices _ _)).trans ?_
  refine (bind_ok (reads_u32Values fits.formalNodes _ _)).trans ?_
  refine (bind_ok (reads_u32Values fits.formalIndices _ _)).trans ?_
  have total : wireBytes (corePlan (countOf core)) = core.segmentBases.length * 4 + core.funcSegments.length * 4 +
      core.nodeFuncs.length * 4 + core.nodeBoundaries.length + core.projectedStorage.length +
      core.nodesByFunc.offsets.length * 4 + core.nodesByFunc.nodes.length * 4 + core.callArgs.nodes.length * 4 +
      core.callArgs.sites.length * 20 + core.callArgs.indices.length * 4 + core.params.nodes.length * 4 +
      core.params.indices.length * 4 := by
    simp only [wireBytes, corePlan, countOf, coreCounts, List.map_cons, List.map_nil, List.sum_cons, List.sum_nil,
      List.getD_cons_zero, List.getD_cons_succ]
    omega
  rw [total]
  simp only [← Nat.add_assoc]
  rfl

end sections

section validation
variable {decoded : PersistedQueryAccelerator} {workspace : IdgWorkspace}

theorem decides_index {rows : List α} {i : Nat} {row : α} {next : α → Except Halt Unit} {condition : Prop}
    (found : rows[i]? = some row) (more : Decides (next row) condition) : Decides (index rows i >>= next) condition := by
  rw [index, found]
  exact more

structure LayoutFacts (decoded : PersistedQueryAccelerator) (workspace : IdgWorkspace) : Prop where
  version : decoded.version = idgQueryAcceleratorVersion
  segmentCount : decoded.segmentCount = workspace.segmentCount
  bases : decoded.segmentBases.length = decoded.segmentCount + 1
  first : decoded.segmentBases.head? = some 0
  sorted : decoded.segmentBases.IsChain (· ≤ ·)
  funcs : decoded.nodeFuncs.length = decoded.nodeCount
  boundaries : decoded.nodeBoundaries.length = decoded.nodeCount
  projected : decoded.projectedStorage.length = decoded.nodeCount
  segments : ∀ segmentId ∈ decoded.funcSegments, segmentId = u32Max ∨ segmentId < decoded.segmentCount

theorem layoutValid_iff : decoded.layoutValid workspace = true ↔ LayoutFacts decoded workspace := by
  simp only [PersistedQueryAccelerator.layoutValid, Bool.and_eq_true, beq_iff_eq, decide_eq_true_eq, List.all_eq_true,
    Bool.or_eq_true, and_assoc]
  constructor
  · intro valid
    obtain ⟨version,segmentCount,bases,first,sorted,funcs,boundaries,projected,segments⟩ := valid
    exact ⟨version,segmentCount,bases,first,sorted,funcs,boundaries,projected,segments⟩
  · intro facts
    exact ⟨facts.version,facts.segmentCount,facts.bases,facts.first,facts.sorted,facts.funcs,facts.boundaries,
      facts.projected,facts.segments⟩

section
variable (facts : LayoutFacts decoded workspace)
include facts

theorem LayoutFacts.bounds {segmentId start stop : Nat}
    (first : decoded.segmentBases[segmentId]? = some start) (next : decoded.segmentBases[segmentId + 1]? = some stop) :
    start ≤ stop ∧ stop ≤ decoded.nodeCount := by
  refine offsets_bounds ?_ first next
  have last : decoded.segmentBases.getLast? = some decoded.nodeCount := by
    unfold QueryCore.nodeCount
    cases found : decoded.segmentBases with
    | nil =>
      have length := facts.bases
      rw [found] at length
      cases length
    | cons base bases => rw [List.getLast?_cons, List.getLastD_cons, List.getLastD_eq_getLast?]
  simp only [offsetsAreValid, Bool.and_eq_true, beq_iff_eq, decide_eq_true_eq]
  exact ⟨⟨facts.first,facts.sorted⟩,last⟩

def NodeValid (core : QueryCore) (segmentId : SegmentId) (node : NodeId) : Prop :=
  ∃ func boundary projected, core.nodeFuncs[node]? = some func ∧ core.nodeBoundaries[node]? = some boundary ∧
    boundary ≤ nodeBoundaryCallRet ∧ core.projectedStorage[node]? = some projected ∧ projected ≤ 1 ∧
    core.funcSegments[func]? = some segmentId

theorem checkNode_decides {segmentId : SegmentId} {node : NodeId}
    (inside : node < decoded.nodeCount) :
    Decides (decoded.checkNode segmentId node) (NodeValid decoded.toQueryCore segmentId node) := by
  have func_ : decoded.nodeFuncs[node]? = _ := List.getElem?_eq_getElem (by rw [facts.funcs]; exact inside)
  have boundary_ : decoded.nodeBoundaries[node]? = _ := List.getElem?_eq_getElem (by rw [facts.boundaries]; exact inside)
  have projected_ : decoded.projectedStorage[node]? = _ := List.getElem?_eq_getElem (by rw [facts.projected]; exact inside)
  refine (decides_index func_ (decides_index boundary_
    (Decides.unless _ fun _ => decides_index projected_ (decides_unless _)))).congr ?_
  rw [NodeValid, func_, boundary_, projected_]
  constructor
  · intro held
    obtain ⟨small,flag⟩ := held
    rw [not_or, not_not] at flag
    exact ⟨_,_,_,rfl,rfl,Nat.le_of_not_lt small,rfl,Nat.le_of_not_lt flag.1,flag.2⟩
  · intro valid
    obtain ⟨_,_,_,same,same',small,same'',flag,owner⟩ := valid
    cases same
    cases same'
    cases same''
    exact ⟨Nat.not_lt_of_le small,fun wrong => wrong.elim (Nat.not_lt_of_le flag) fun other => other owner⟩

def SegmentValid (core : QueryCore) (segmentId : SegmentId) : Prop :=
  ∀ start stop, core.segmentBases[segmentId]? = some start → core.segmentBases[segmentId + 1]? = some stop →
    ∀ node, start ≤ node → node < stop → NodeValid core segmentId node

theorem checkSegment_decides {segmentId : Nat}
    (inside : segmentId < decoded.segmentCount) :
    Decides (decoded.checkSegment segmentId) (SegmentValid decoded.toQueryCore segmentId) := by
  have first : decoded.segmentBases[segmentId]? = _ := List.getElem?_eq_getElem (by rw [facts.bases]; omega)
  have next : decoded.segmentBases[segmentId + 1]? = _ := List.getElem?_eq_getElem (by rw [facts.bases]; omega)
  have bounds := facts.bounds first next
  refine (decides_index first (decides_index next (decides_forM fun node member =>
    checkNode_decides facts ?_))).congr ?_
  · have range := List.mem_range'_1.mp member
    exact range.2.trans_le (by omega)
  · rw [SegmentValid, first, next]
    constructor
    · intro each start stop same same' node lower upper
      cases same
      cases same'
      exact each node (List.mem_range'_1.mpr (by omega))
    · intro valid node member
      have range := List.mem_range'_1.mp member
      exact valid _ _ rfl rfl node range.1 (by omega)

end

structure IdentityFacts (core : QueryCore) : Prop where
  directory : core.nodesByFunc.offsets.length = core.funcSegments.length + 1
  offsets : offsetsAreValid core.nodesByFunc.offsets core.nodesByFunc.nodes.length = true
  callArgs : core.callArgs.isValidFor core.nodeCount = true
  params : core.params.isValidFor core.nodeCount = true
  formals : ∀ node ∈ core.params.nodes, core.nodeBoundaries[node]? = some nodeBoundaryParam

theorem identityLayoutValid_iff : decoded.identityLayoutValid = true ↔ IdentityFacts decoded.toQueryCore := by
  simp only [PersistedQueryAccelerator.identityLayoutValid, Bool.and_eq_true, beq_iff_eq, List.all_eq_true, and_assoc]
  constructor
  · intro valid
    obtain ⟨directory,offsets,callArgs,params,formals⟩ := valid
    exact ⟨directory,offsets,callArgs,params,formals⟩
  · exact fun facts => ⟨facts.directory,facts.offsets,facts.callArgs,facts.params,facts.formals⟩

def FuncValid (core : QueryCore) (func : FuncId) : Prop :=
  func ≤ u32Max ∧ ∀ nodes, core.nodesByFunc.get func = .ok (some nodes) → ∀ node ∈ nodes, core.nodeFuncs[node]? = some func

theorem checkFunc_decides (facts : IdentityFacts decoded.toQueryCore) {func : Nat} (inside : func < decoded.funcSegments.length) :
    Decides (decoded.checkFunc func) (FuncValid decoded.toQueryCore func) := by
  have last : func + 1 < decoded.nodesByFunc.offsets.length := by rw [facts.directory]; omega
  have first := List.getElem?_eq_getElem (Nat.lt_of_succ_lt last)
  have next := List.getElem?_eq_getElem last
  have got : decoded.nodesByFunc.get func = .ok (some (slice decoded.nodesByFunc.nodes (decoded.nodesByFunc.offsets[func])
      (decoded.nodesByFunc.offsets[func + 1]))) := by
    rw [NodesByFunc.get, first, next]
    dsimp only
    rw [subslice, if_pos (offsets_bounds facts.offsets first next)]
    rfl
  have owners : Decides (decoded.nodesByFunc.get func >>= fun nodes =>
      if (nodes.getD []).any fun node => decoded.nodeFuncs[node]? ≠ some func then
        .error (.invalid "query accelerator function-to-node directory is inconsistent")
      else .ok ())
      (∀ nodes, decoded.nodesByFunc.get func = .ok (some nodes) →
        ∀ node ∈ nodes, decoded.nodeFuncs[node]? = some func) := by
    rw [got]
    refine (decides_unless _).congr ?_
    simp only [Option.getD_some, List.any_eq_true, decide_eq_true_eq, not_exists, not_and, not_not]
    constructor
    · intro owned nodes same node member
      cases same
      exact owned node member
    · exact fun owned node member => owned _ rfl node member
  exact (Decides.unless _ fun _ => owners).congr (and_congr_left fun _ => not_lt)

-- Validation decides the consistency of the arrays; nothing it indexes is out of
-- bounds.
theorem validate_decides (decoded : PersistedQueryAccelerator) (workspace : IdgWorkspace) :
    Decides (decoded.validate workspace) (decoded.version = idgQueryAcceleratorVersion ∧
    decoded.segmentCount = workspace.segmentCount ∧ decoded.toQueryCore.Consistent workspace.segmentCount) := by
  have layout : decoded.layoutValid workspace = false ↔ ¬LayoutFacts decoded workspace := by
    rw [← layoutValid_iff, Bool.not_eq_true]
  have identity : decoded.identityLayoutValid = false ↔ ¬IdentityFacts decoded.toQueryCore := by
    rw [← identityLayoutValid_iff, Bool.not_eq_true]
  have identities : Decides (if decoded.identityLayoutValid = false then
        .error (.invalid "workspace IDG query accelerator identity directory mismatch")
      else forM (List.range decoded.funcSegments.length) decoded.checkFunc) (¬decoded.identityLayoutValid = false ∧
      ∀ func ∈ List.range decoded.funcSegments.length, FuncValid decoded.toQueryCore func) := by
    refine Decides.unless _ fun valid => decides_forM fun func member => ?_
    rw [identity, not_not] at valid
    exact checkFunc_decides valid (List.mem_range.mp member)
  have whole : Decides (decoded.validate workspace) (¬decoded.layoutValid workspace = false ∧
      (∀ segmentId ∈ List.range decoded.segmentCount, SegmentValid decoded.toQueryCore segmentId) ∧
      ¬decoded.identityLayoutValid = false ∧
      ∀ func ∈ List.range decoded.funcSegments.length, FuncValid decoded.toQueryCore func) := by
    refine Decides.unless _ fun valid => Decides.andThen (decides_forM fun segmentId member => ?_) fun _ => identities
    rw [layout, not_not] at valid
    exact checkSegment_decides valid (List.mem_range.mp member)
  refine whole.congr ?_
  rw [layout, not_not, identity, not_not]
  constructor
  · intro held
    obtain ⟨facts,segments,identities,funcs⟩ := held
    refine ⟨facts.version,facts.segmentCount,?_⟩
    rw [← facts.segmentCount]
    exact {
      bases := facts.bases
      first := facts.first
      sorted := facts.sorted
      funcs := facts.funcs
      boundaries := facts.boundaries
      projected := facts.projected
      segments := facts.segments
      owners := fun segmentId start stop first next => segments segmentId (List.mem_range.mpr (by
        have bound := (List.getElem?_eq_some_iff.mp next).1
        rw [facts.bases] at bound
        exact Nat.lt_of_succ_lt_succ bound)) start stop first next
      directory := identities.directory
      offsets := identities.offsets
      callArgs := identities.callArgs
      params := identities.params
      formals := identities.formals
      range := fun func inside => (funcs func (List.mem_range.mpr inside)).1
      listed := fun func inside => (funcs func (List.mem_range.mpr inside)).2 }
  · intro held
    obtain ⟨version,segmentCount,consistent⟩ := held
    rw [← segmentCount] at consistent
    refine ⟨⟨version,segmentCount,consistent.bases,consistent.first,consistent.sorted,consistent.funcs,
      consistent.boundaries,consistent.projected,consistent.segments⟩,fun segmentId _ => consistent.owners segmentId,
      ⟨consistent.directory,consistent.offsets,consistent.callArgs,consistent.params,consistent.formals⟩,
      fun func member => ?_⟩
    have inside := List.mem_range.mp member
    exact ⟨consistent.range func inside,consistent.listed func inside⟩

end validation

section lengths

theorem checkedFold_eq (rows : List (Nat × Nat)) {total : Nat} (small : total < 2 ^ 64) :
    (rows.foldlM (fun total row => do
      let bytes ← checkedU64 (row.1 * row.2)
      checkedU64 (total + bytes)) total : Option Nat) =
    if total + (rows.map fun row => row.1 * row.2).sum < 2 ^ 64 then
      some (total + (rows.map fun row => row.1 * row.2).sum) else none := by
  induction rows generalizing total with
  | nil =>
    rw [List.map_nil, List.sum_nil, Nat.add_zero, if_pos small]
    rfl
  | cons row rows ih =>
    rw [List.foldlM_cons, List.map_cons, List.sum_cons]
    by_cases product : row.1 * row.2 < 2 ^ 64
    · by_cases sum : total + row.1 * row.2 < 2 ^ 64
      · simp only [checkedU64, if_pos product, if_pos sum, Option.bind_eq_bind, Option.bind_some]
        simp only [checkedU64, Option.bind_eq_bind] at ih
        rw [ih sum, Nat.add_assoc]
      · simp only [checkedU64, if_pos product, if_neg sum, Option.bind_eq_bind, Option.bind_some, Option.bind_none]
        rw [if_neg (by omega)]
    · simp only [checkedU64, if_neg product, Option.bind_eq_bind, Option.bind_none]
      rw [if_neg (by omega)]

theorem coreWidths_sum (counts : List Nat) (fields : counts.length = idgQueryCoreCountFields) :
    ((counts.zip coreWidths).map fun row => row.1 * row.2).sum = wireBytes (corePlan fun i => counts.getD i 0) := by
  match counts, fields with
  | [a,b,c,d,e,f,g,h,i,j,k,l], _ => simp [coreWidths,wireBytes,corePlan]

theorem expectedBytes_eq (counts : List Nat) (fields : counts.length = idgQueryCoreCountFields) : expectedBytes counts =
    if idgQueryCoreHeaderBytes + wireBytes (corePlan fun i => counts.getD i 0) < 2 ^ 64 then
      some (idgQueryCoreHeaderBytes + wireBytes (corePlan fun i => counts.getD i 0)) else none := by
  rw [expectedBytes, checkedFold_eq _ (by decide), coreWidths_sum counts fields]

end lengths

-- The input begins with a header that is accepted for the declared length, and a
-- section behind it asks for more memory than one allocation may have, all
-- sections before it being present.
def Oversized (encodedBytes : Nat) (bytes : List UInt8) : Prop :=
  ∃ version segmentCount counts rest, bytes = coreHeader version segmentCount counts ++ rest ∧
    version < 2 ^ 32 ∧ segmentCount < 2 ^ 32 ∧ counts.length = idgQueryCoreCountFields ∧ (∀ count ∈ counts, count < 2 ^ 64) ∧
    expectedBytes counts = some encodedBytes ∧ Overflows isizeMax (corePlan fun i => counts.getD i 0) rest.length

-- Decoding returns an error or arrays whose later reads are in bounds, and makes
-- room for no rows beyond the declared length.
structure DecodesSafely (encodedBytes : Nat) (workspace : IdgWorkspace) (bytes : List UInt8) : Prop where
  quiet : (PersistedQueryAccelerator.decode encodedBytes workspace ⟨bytes,0⟩).1 ≠ .error .panic
  reserved : (PersistedQueryAccelerator.decode encodedBytes workspace ⟨bytes,0⟩).2.reserved ≤ encodedBytes
  lookups : ∀ decoded, (PersistedQueryAccelerator.decode encodedBytes workspace ⟨bytes,0⟩).1 = .ok decoded →
    decoded.LookupsInBounds

section decoding
variable {encodedBytes : Nat} {workspace : IdgWorkspace} {bytes : List UInt8}

theorem oversized_iff {found : Nat × Nat × List Nat} {reading : Reading}
    (header : readHeader encodedBytes ⟨bytes,0⟩ = (.ok found,reading)) :
    Oversized encodedBytes bytes ↔ Overflows isizeMax (corePlan fun i => found.2.2.getD i 0) reading.rest.length := by
  constructor
  · intro oversized
    obtain ⟨version,segmentCount,counts,rest,rfl,small,small',fields,bounds,declared,asked⟩ := oversized
    have form : HeaderOf encodedBytes (version,segmentCount,counts) (coreHeader version segmentCount counts) :=
      ⟨rfl,small,small',fields,bounds,declared⟩
    rw [reads_header form] at header
    cases header
    exact asked
  · intro asked
    obtain ⟨taken,rest,form⟩ := (parses_header encodedBytes).returns _ _ _ header
    exact ⟨found.1,found.2.1,found.2.2,reading.rest,by rw [← form.form]; exact rest,form.version,form.segments,form.fields,
      form.counts,form.declared,asked⟩

theorem decode_safely : DecodesSafely encodedBytes workspace bytes ↔ ¬Oversized encodedBytes bytes := by
  have early := (parses_header encodedBytes).quiet ⟨bytes,0⟩
  have kept := (parses_header encodedBytes).reserved ⟨bytes,0⟩
  cases header : readHeader encodedBytes ⟨bytes,0⟩ with
  | mk result reading =>
    rw [header] at early kept
    dsimp only at early kept
    cases result with
    | error halt =>
      have stopped : PersistedQueryAccelerator.decode encodedBytes workspace ⟨bytes,0⟩ = (.error halt,reading) :=
        bind_error header
      have present : ¬Oversized encodedBytes bytes := by
        intro oversized
        obtain ⟨version,segmentCount,counts,rest,rfl,small,small',fields,bounds,declared,_⟩ := oversized
        have form : HeaderOf encodedBytes (version,segmentCount,counts) (coreHeader version segmentCount counts) :=
          ⟨rfl,small,small',fields,bounds,declared⟩
        rw [reads_header form] at header
        cases header
      refine iff_of_true ⟨?_,?_,?_⟩ present
      · rw [stopped]
        intro same
        cases same
        exact early rfl
      · rw [stopped, kept]
        exact Nat.zero_le _
      · rw [stopped]
        exact nofun
    | ok found =>
      obtain ⟨taken,_,form⟩ := (parses_header encodedBytes).returns _ _ _ header
      have arrays := sectioned_arrays fun i => found.2.2.getD i 0
      have room := arrays.reserved reading
      have panics := arrays.panics reading
      have declared := expectedBytes_eq found.2.2 form.fields
      rw [form.declared] at declared
      have within : reading.reserved + wireBytes (corePlan fun i => found.2.2.getD i 0) ≤ encodedBytes := by
        split at declared
        · rw [kept, Option.some.inj declared]
          omega
        · cases declared
      rw [oversized_iff header, ← panics]
      cases ran : readArrays (fun i => found.2.2.getD i 0) reading with
      | mk result reading' =>
        rw [ran] at room
        dsimp only at room
        cases result with
        | error halt =>
          have stopped : PersistedQueryAccelerator.decode encodedBytes workspace ⟨bytes,0⟩ = (.error halt,reading') :=
            (bind_ok header).trans (bind_error ran)
          constructor
          · intro safely
            have quiet := safely.quiet
            rw [stopped] at quiet
            intro same
            cases same
            exact quiet rfl
          · intro quiet
            refine ⟨?_,?_,?_⟩
            · rw [stopped]
              intro same
              cases same
              exact quiet rfl
            · rw [stopped]
              exact room.trans within
            · rw [stopped]
              exact nofun
        | ok core =>
          refine iff_of_true ?_ nofun
          let decoded : PersistedQueryAccelerator := {core with version := found.1, segmentCount := found.2.1}
          have ending : PersistedQueryAccelerator.decode encodedBytes workspace ⟨bytes,0⟩ =
              (lift (decoded.validate workspace) >>= fun _ => pure decoded) reading' :=
            (bind_ok header).trans (bind_ok ran)
          rcases validate_decides decoded workspace with
            ⟨accepted,_,count,consistent⟩ | ⟨_,message,rejected⟩
          · have done : (lift (decoded.validate workspace) >>= fun _ => pure decoded) reading' = (.ok decoded,reading') := by
              rw [accepted]
              rfl
            rw [done] at ending
            refine ⟨by rw [ending]; exact nofun,by rw [ending]; exact room.trans within,fun other same => ?_⟩
            rw [ending] at same
            cases same
            have words : ∀ base ∈ core.segmentBases, base < 2 ^ 32 := (arrays.returns _ _ _ ran).2
            have segments := form.segments
            refine consistent.lookups (count ▸ Nat.le_sub_one_of_lt segments) fun base member => ?_
            exact Nat.le_sub_one_of_lt (words base member)
          · have done : (lift (decoded.validate workspace) >>= fun _ => pure decoded) reading' =
                (.error (.invalid message),reading') := by
              rw [rejected]
              rfl
            rw [done] at ending
            exact ⟨by rw [ending]; exact nofun,by rw [ending]; exact room.trans within,by rw [ending]; exact nofun⟩

end decoding

end BonsaiNinja.Idg
