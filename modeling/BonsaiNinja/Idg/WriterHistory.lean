import BonsaiNinja.Common.NameViews
import BonsaiNinja.Idg.WriterTable
import Mathlib.Data.List.DropRight

namespace BonsaiNinja.Idg
open Names (CharClass isNameSegmentChar Trimmed)
variable {state : WriterState} {name : Text} {node : FlowNode} {history : Text → Finset FlowNode}

section
variable (table : CharClass)

def StrictlyBelow (place base : Text) : Prop :=
  ∃ before separator rest, canonicalPlace table place = before ++ separator :: rest ∧ (separator = '.' ∨ separator = '[') ∧
    trim before = canonicalPlace table base ∧ canonicalPlace table base ≠ []

end

section
variable {table : CharClass}

theorem mem_placesAbove {base before text : Text} : base ∈ placesAbove before text ↔
    ∃ front separator rest, text = front ++ separator :: rest ∧ (separator = '.' ∨ separator = '[') ∧
      trim (before ++ front) = base ∧ base ≠ [] := by
  induction text generalizing before with
  | nil =>
    refine ⟨nofun,fun found => ?_⟩
    obtain ⟨front,separator,rest,parts,_⟩ := found
    exact absurd parts (by simp)
  | cons c rest ih =>
    rw [placesAbove,List.mem_append,ih]
    constructor
    · intro found
      cases found with
      | inl here =>
        by_cases separates : ((c == '.' || c == '[') && !(trim before).isEmpty) = true
        · rw [if_pos separates] at here
          simp only [Bool.and_eq_true,Bool.or_eq_true,beq_iff_eq,Bool.not_eq_true',List.isEmpty_eq_false_iff] at separates
          cases List.mem_singleton.mp here
          exact ⟨[],c,rest,rfl,separates.1,by rw [List.append_nil],separates.2⟩
        · rw [if_neg separates] at here
          exact absurd here List.not_mem_nil
      | inr later =>
        obtain ⟨front,separator,behind,rfl,kind,same,nonempty⟩ := later
        exact ⟨c :: front,separator,behind,rfl,kind,by rw [← same,List.append_assoc]; rfl,nonempty⟩
    · intro found
      obtain ⟨front,separator,behind,parts,kind,same,nonempty⟩ := found
      cases front with
      | nil =>
        cases parts
        rw [List.append_nil] at same
        subst same
        refine .inl ?_
        rw [if_pos (by simpa [kind] using nonempty)]
        exact List.mem_singleton_self _
      | cons first front =>
        cases parts
        exact .inr ⟨front,separator,behind,rfl,kind,by rw [← same,List.append_assoc]; rfl,nonempty⟩

theorem strictlyBelow_iff {place base : Text} : StrictlyBelow table place base ↔
    (!(canonicalPlace table base).isEmpty && liesBelow table place (canonicalPlace table base)) = true := by
  rw [Bool.and_eq_true,liesBelow,decide_eq_true_iff,mem_placesAbove,StrictlyBelow]
  simp only [List.nil_append,Bool.not_eq_true',List.isEmpty_eq_false_iff]
  constructor
  · intro ⟨before,separator,rest,parts,kind,same,nonempty⟩
    exact ⟨nonempty,before,separator,rest,parts,kind,same,nonempty⟩
  · intro ⟨_,found⟩
    exact found

instance (place base : Text) : Decidable (StrictlyBelow table place base) := decidable_of_iff _ strictlyBelow_iff.symm

end

section
variable (table : CharClass)

-- The writers of each place; a complete write replaces them and forgets the writers of what lies below.
def recordWrite (history : Text → Finset FlowNode) : WriteOp → Text → Finset FlowNode
  | .commit name node, place =>
    if place = withoutSigils table name then {node}
    else if StrictlyBelow table place name then ∅
    else history place
  | .append name node, place => if place = withoutSigils table name then insert node (history place) else history place

def recordedSince (ops : List WriteOp) : Text → Finset FlowNode := ops.foldl (recordWrite table) fun _ => ∅

def writerTable (ops : List WriteOp) : WriterState := ops.foldl (WriteOp.apply table) ∅

-- A write reaches every live spelling of its place: a commit leaves no other writer under a spelling it does not
-- write, and an append finds the place's writers under its own spelling too.
def WriteOp.Covers (state : WriterState) : WriteOp → Prop
  | .commit name node => ∀ definition ∈ state, withoutSigils table definition.1 = withoutSigils table name →
      definition.1 ∈ spellings table name ∨ definition.2 = node
  | .append name node => ∀ definition ∈ state, withoutSigils table definition.1 = withoutSigils table name →
      (definition.1 ∈ spellings table name ∨ (definition.1,node) ∈ state) ∧ ((name,definition.2) ∈ state ∨ definition.2 = node)

def Covered (state : WriterState) : List WriteOp → Prop
  | [] => True
  | op :: ops => op.Covers table state ∧ Covered (op.apply table state) ops

-- A read that finds no writer of its place asks the complete values above it.
def unwrittenRead (complete : WriterState → Text → Finset FlowNode) (state : WriterState) (name : Text) (consumer : FlowNode) : FlowEdges :=
  ((complete state name).image fun writer => (writer,consumer)) ∪ {(.read name,consumer)}

structure CoherentTable (complete : WriterState → Text → Finset FlowNode) (state : WriterState) (history : Text → Finset FlowNode) :
    Prop where
  reads : ∀ name consumer, withoutSigils table name ≠ [] → history (withoutSigils table name) ≠ ∅ →
    bridgeRead table complete state name consumer = (history (withoutSigils table name)).image fun writer => (writer,consumer)
  unwritten : ∀ name consumer, withoutSigils table name ≠ [] → history (withoutSigils table name) = ∅ →
    bridgeRead table complete state name consumer = unwrittenRead complete state name consumer
  removes : ∀ name node, ∀ definition ∈ state, StrictlyBelow table definition.1 name → definition ∉ commitWriter table state name node
  spares : ∀ name node, ∀ definition ∈ state, ¬StrictlyBelow table definition.1 name →
    withoutSigils table definition.1 ≠ withoutSigils table name → definition ∈ commitWriter table state name node
  appends : ∀ name node, state ⊆ appendWriter table state name node

end

variable {table : CharClass}

theorem white_is_punctuation {c : Char} (white : isWhiteSpace c = true) : (!isNameSegmentChar table c) = true := by
  have spaced := table.spaced c white
  have plain : (c == '_') = false := by
    refine Bool.eq_false_iff.mpr fun same => ?_
    rw [beq_iff_eq.mp same] at white
    exact absurd white (by decide)
  simp [isNameSegmentChar,spaced,plain]

theorem withoutSigils_again (name : Text) : withoutSigils table (withoutSigils table name) = withoutSigils table name :=
  List.dropWhile_idempotent _ _

-- A place is the same with and without the punctuation before its first name.
theorem canonicalPlace_plain (name : Text) : canonicalPlace table (withoutSigils table name) = canonicalPlace table name := by
  obtain ⟨lead,trail,parts,leads,trails⟩ := Names.trim_parts name
  have front : withoutSigils table name = withoutSigils table (trim name ++ trail) := by
    conv => lhs; rw [parts]
    rw [withoutSigils,List.append_assoc,List.dropWhile_append_of_pos fun c member => white_is_punctuation (leads c member)]
    rfl
  unfold canonicalPlace
  rw [front]
  by_cases blank : ∀ c ∈ trim name, (!isNameSegmentChar table c) = true
  · have none : withoutSigils table (trim name ++ trail) = [] := by
      refine List.dropWhile_eq_nil_iff.mpr fun c member => ?_
      exact (List.mem_append.mp member).elim (blank c) fun behind => white_is_punctuation (trails c behind)
    rw [none,withoutSigils,withoutSigils,List.dropWhile_eq_nil_iff.mpr blank]
    rfl
  · have named : withoutSigils table (trim name) ≠ [] := fun none => blank (List.dropWhile_eq_nil_iff.mp none)
    obtain ⟨c,rest,starts⟩ := List.exists_cons_of_ne_nil named
    have kept : withoutSigils table (trim name ++ trail) = withoutSigils table (trim name) ++ trail := by
      rw [withoutSigils,List.dropWhile_append,if_neg (by rw [List.isEmpty_iff]; exact named)]
      rfl
    have trimmed : Trimmed (withoutSigils table (trim name)) := by
      constructor
      · intro first behind same
        have head := List.head?_dropWhile_not (fun c => !isNameSegmentChar table c) (trim name)
        rw [show (trim name).dropWhile (fun c => !isNameSegmentChar table c) = first :: behind from same] at head
        refine Bool.eq_false_iff.mpr fun white => ?_
        have punctuation : (!isNameSegmentChar table first) = true := white_is_punctuation white
        exact absurd punctuation (by simpa using head)
      · intro before last same
        obtain ⟨skipped,suffix⟩ := List.dropWhile_suffix (l := trim name) fun c => !isNameSegmentChar table c
        refine (Names.trimmed_trim name).last (skipped ++ before) last ?_
        rw [List.append_assoc,← same]
        exact suffix.symm
    rw [kept]
    have alone : trim ([] ++ withoutSigils table (trim name) ++ trail) = withoutSigils table (trim name) :=
      Names.trim_surrounded nofun trimmed trails
    rw [List.nil_append] at alone
    rw [alone,withoutSigils_again]

theorem mem_writersOf : node ∈ writersOf state name ↔ (name,node) ∈ state := by
  rw [writersOf,Finset.mem_image]
  constructor
  · intro ⟨definition,member,same⟩
    obtain ⟨live,rfl⟩ := Finset.mem_filter.mp member
    exact same ▸ live
  · intro live
    exact ⟨(name,node),Finset.mem_filter.mpr ⟨live,rfl⟩,rfl⟩

theorem spelling_place {spelling : Text} (member : spelling ∈ spellings table name) :
    withoutSigils table spelling = withoutSigils table name := by
  unfold spellings at member
  dsimp only at member
  split at member
  · rw [List.mem_singleton.mp member]
  · cases List.mem_cons.mp member with
    | inl same => rw [same]
    | inr plain => rw [List.mem_singleton.mp plain,withoutSigils_again]

theorem plain_spelled (named : withoutSigils table name ≠ []) : withoutSigils table name ∈ spellings table name := by
  unfold spellings
  dsimp only
  split
  · next either =>
    rcases Bool.or_eq_true_iff.mp either with empty | same
    · exact absurd (List.isEmpty_iff.mp empty) named
    · rw [beq_iff_eq.mp same]
      exact List.mem_singleton_self _
  · exact List.mem_cons_of_mem _ (List.mem_singleton_self _)

theorem not_below_itself {place base : Text} (same : withoutSigils table place = withoutSigils table base) :
    ¬StrictlyBelow table place base := by
  intro ⟨before,separator,rest,parts,_,trimmed,_⟩
  have whole : canonicalPlace table place = canonicalPlace table base := by
    rw [← canonicalPlace_plain place,same,canonicalPlace_plain]
  have shorter := (Names.trim_within before).length_le
  rw [trimmed,← whole,parts,List.length_append,List.length_cons] at shorter
  omega

theorem strictlyBelow_place {place other base : Text} (same : withoutSigils table place = withoutSigils table other) :
    StrictlyBelow table place base ↔ StrictlyBelow table other base := by
  unfold StrictlyBelow
  rw [← canonicalPlace_plain place,same,canonicalPlace_plain]

theorem mem_commitWriter {definition : Text × FlowNode} :
    definition ∈ commitWriter table state name node ↔ (definition.1 ∈ spellings table name ∧ definition.2 = node) ∨
      (definition ∈ state ∧ ¬StrictlyBelow table definition.1 name ∧ definition.1 ∉ spellings table name) := by
  rw [commitWriter,Finset.mem_union,Finset.mem_filter,mem_recorded,or_comm,strictlyBelow_iff,survives,Bool.and_eq_true,decide_eq_true_iff,
    Bool.not_eq_true',Bool.not_eq_true]

-- A spelling is not live, or it holds all the writers of its place; the bare one always does.
def Agreeing (table : CharClass) (state : WriterState) (history : Text → Finset FlowNode) : Prop :=
  ∀ name, withoutSigils table name ≠ [] →
    (writersOf state name = ∅ ∨ writersOf state name = history (withoutSigils table name)) ∧
    writersOf state (withoutSigils table name) = history (withoutSigils table name)

theorem commit_agrees
    (agreeing : Agreeing table state history) (covers : (WriteOp.commit name node).Covers table state) :
    Agreeing table (commitWriter table state name node) (recordWrite table history (.commit name node)) := by
  have writers (key : Text) (writer : FlowNode) : writer ∈ writersOf (commitWriter table state name node) key ↔
      (key ∈ spellings table name ∧ writer = node) ∨
        (writer ∈ writersOf state key ∧ ¬StrictlyBelow table key name ∧ key ∉ spellings table name) := by
    rw [mem_writersOf,mem_commitWriter,mem_writersOf]
  intro key named
  rw [recordWrite]
  by_cases own : withoutSigils table key = withoutSigils table name
  · rw [if_pos own]
    -- Only the new writer is live under a spelling of the written place.
    have only (spelling : Text) (same : withoutSigils table spelling = withoutSigils table name) (writer : FlowNode)
        (live : writer ∈ writersOf (commitWriter table state name node) spelling) : writer = node := by
      rcases (writers spelling writer).mp live with ⟨_,fresh⟩ | ⟨old,_,unwritten⟩
      · exact fresh
      · exact (covers (spelling,writer) (mem_writersOf.mp old) same).resolve_left unwritten
    constructor
    · by_cases dead : writersOf (commitWriter table state name node) key = ∅
      · exact .inl dead
      · obtain ⟨writer,live⟩ := Finset.nonempty_iff_ne_empty.mpr dead
        refine .inr (Finset.eq_singleton_iff_unique_mem.mpr ⟨?_,only key own⟩)
        exact only key own writer live ▸ live
    · refine Finset.eq_singleton_iff_unique_mem.mpr ⟨(writers _ node).mpr (.inl ⟨?_,rfl⟩),only _ ?_⟩
      · rw [own]
        exact plain_spelled (own ▸ named)
      · rw [withoutSigils_again,own]
  · rw [if_neg own]
    have outside (spelling : Text) (same : withoutSigils table spelling = withoutSigils table key) : spelling ∉ spellings table name :=
      fun spelled => own (same.symm.trans (spelling_place spelled))
    by_cases below : StrictlyBelow table (withoutSigils table key) name
    · rw [if_pos below]
      have gone (spelling : Text) (same : withoutSigils table spelling = withoutSigils table key) :
          writersOf (commitWriter table state name node) spelling = ∅ := by
        refine Finset.eq_empty_of_forall_notMem fun writer live => ?_
        rcases (writers spelling writer).mp live with ⟨spelled,_⟩ | ⟨_,spared,_⟩
        · exact outside spelling same spelled
        · exact spared ((strictlyBelow_place (same.trans (withoutSigils_again key).symm)).mpr below)
      exact ⟨.inl (gone key rfl),gone _ (withoutSigils_again key)⟩
    · rw [if_neg below]
      have unchanged (spelling : Text) (same : withoutSigils table spelling = withoutSigils table key) :
          writersOf (commitWriter table state name node) spelling = writersOf state spelling := by
        ext writer
        rw [writers]
        constructor
        · intro live
          rcases live with ⟨spelled,_⟩ | ⟨old,_⟩
          · exact absurd spelled (outside spelling same)
          · exact old
        · intro old
          refine .inr ⟨old,fun strictly => below ?_,outside spelling same⟩
          exact (strictlyBelow_place (same.trans (withoutSigils_again key).symm)).mp strictly
      rw [unchanged key rfl,unchanged _ (withoutSigils_again key)]
      exact agreeing key named

theorem append_agrees
    (agreeing : Agreeing table state history) (covers : (WriteOp.append name node).Covers table state) :
    Agreeing table (appendWriter table state name node) (recordWrite table history (.append name node)) := by
  have writers (key : Text) : writersOf (appendWriter table state name node) key =
      if key ∈ spellings table name then insert node (writersOf state key) else writersOf state key := by
    ext writer
    rw [mem_writersOf,appendWriter,Finset.mem_union,mem_recorded]
    split
    · next spelled =>
      rw [Finset.mem_insert,mem_writersOf,or_comm]
      exact or_congr_left (and_iff_right spelled)
    · next unspelled =>
      rw [mem_writersOf]
      exact or_iff_left fun fresh => unspelled fresh.1
  intro key named
  by_cases own : withoutSigils table key = withoutSigils table name
  · obtain ⟨spelled,bare⟩ := agreeing key named
    have plain : withoutSigils table key ∈ spellings table name := own ▸ plain_spelled (own ▸ named)
    rw [recordWrite,if_pos own,writers key,writers (withoutSigils table key),if_pos plain,bare]
    refine ⟨?_,rfl⟩
    have listed {writer : FlowNode} (known : writer ∈ history (withoutSigils table key)) : (withoutSigils table key,writer) ∈ state :=
      mem_writersOf.mp (bare ▸ known)
    split
    · next written =>
      rcases spelled with dead | all
      · right
        rw [dead]
        -- The spelling is new: the place had no other writer.
        have alone (writer : FlowNode) (known : writer ∈ history (withoutSigils table key)) : writer = node := by
          refine (covers _ (listed known) ((withoutSigils_again key).trans own)).2.resolve_left fun live => ?_
          have same : key = name ∨ key = withoutSigils table key := by
            unfold spellings at written
            dsimp only at written
            split at written
            · exact .inl (List.mem_singleton.mp written)
            · exact (List.mem_cons.mp written).imp_right fun plain => (List.mem_singleton.mp plain).trans own.symm
          have held : writer ∈ writersOf state key := by
            cases same with
            | inl same => exact same ▸ mem_writersOf.mpr live
            | inr same => exact same ▸ mem_writersOf.mpr (listed known)
          rw [dead] at held
          exact absurd held (Finset.notMem_empty _)
        ext writer
        simp only [Finset.mem_insert,Finset.notMem_empty,or_false]
        exact ⟨.inl,fun either => either.elim id (alone writer)⟩
      · exact .inr (by rw [all])
    · next unwritten =>
      rcases spelled with dead | all
      · exact .inl dead
      · by_cases dead : writersOf state key = ∅
        · exact .inl dead
        · obtain ⟨writer,live⟩ := Finset.nonempty_iff_ne_empty.mpr dead
          have held := (covers (key,writer) (mem_writersOf.mp live) own).1.resolve_left unwritten
          refine .inr (all.trans (Finset.insert_eq_of_mem ?_).symm)
          rw [← all]
          exact mem_writersOf.mpr held
  · have outside (spelling : Text) (same : withoutSigils table spelling = withoutSigils table key) : spelling ∉ spellings table name :=
      fun spelled => own (same.symm.trans (spelling_place spelled))
    rw [recordWrite,if_neg own,writers key,writers (withoutSigils table key),if_neg (outside key rfl),
      if_neg (outside _ (withoutSigils_again key))]
    exact agreeing key named

theorem run_agrees (ops : List WriteOp) (agreeing : Agreeing table state history)
    (covered : Covered table state ops) :
    Agreeing table (ops.foldl (WriteOp.apply table) state) (ops.foldl (recordWrite table) history) := by
  induction ops generalizing state history with
  | nil => exact agreeing
  | cons op ops ih =>
    refine ih ?_ covered.2
    cases op with
    | commit name node => exact commit_agrees agreeing covered.1
    | append name node => exact append_agrees agreeing covered.1

theorem bridgeRead_agrees (complete : WriterState → Text → Finset FlowNode)
    (agreeing : Agreeing table state history) (consumer : FlowNode) (named : withoutSigils table name ≠ []) :
    bridgeRead table complete state name consumer =
      if history (withoutSigils table name) ≠ ∅ then (history (withoutSigils table name)).image fun writer => (writer,consumer)
      else unwrittenRead complete state name consumer := by
  obtain ⟨spelled,bare⟩ := agreeing name named
  -- The writers of the name, or of its bare spelling, are those of the place.
  have plain : (if writersOf state name = ∅ then ((spellings table name).map (writersOf state)).foldl (· ∪ ·) ∅
      else writersOf state name) = history (withoutSigils table name) := by
    split
    · next dead =>
      unfold spellings
      dsimp only
      split
      · next either =>
        rcases Bool.or_eq_true_iff.mp either with empty | same
        · exact absurd (List.isEmpty_iff.mp empty) named
        · rw [← bare,beq_iff_eq.mp same]
          simp
      · rw [← bare]
        simp [dead]
    · next live => exact spelled.resolve_left live
  unfold bridgeRead
  dsimp only
  rw [plain]
  rfl

-- A run whose writes cover their places: the table is coherent.
theorem writer_table_coherent (table : CharClass) (complete : WriterState → Text → Finset FlowNode) (ops : List WriteOp)
    (covered : Covered table ∅ ops) : CoherentTable table complete (writerTable table ops) (recordedSince table ops) := by
  have agreeing : Agreeing table (writerTable table ops) (recordedSince table ops) :=
    run_agrees ops (fun _ _ => ⟨.inl rfl,rfl⟩) covered
  refine ⟨fun name consumer named recorded => ?_,fun name consumer named nothing => ?_,fun name node definition live below kept => ?_,
    fun name node definition live outside apart => ?_,fun name node => Finset.subset_union_left⟩
  · rw [bridgeRead_agrees complete agreeing consumer named,if_pos recorded]
  · rw [bridgeRead_agrees complete agreeing consumer named,if_neg (not_not.mpr nothing)]
  · rcases mem_commitWriter.mp kept with ⟨spelled,_⟩ | ⟨_,spared,_⟩
    · exact not_below_itself (spelling_place spelled) below
    · exact spared below
  · exact mem_commitWriter.mpr (.inr ⟨live,outside,fun spelled => apart (spelling_place spelled)⟩)

def firstWrite : FlowNode := .write ['x'] ⟨0,0,1⟩
def secondWrite : FlowNode := .write ['x'] ⟨0,2,3⟩

theorem sigil_writes_coherent : CoherentTable Names.asciiClass (fun _ _ => ∅)
    (writerTable Names.asciiClass [.commit ['$','x'] firstWrite,.append ['$','x'] secondWrite])
    (recordedSince Names.asciiClass [.commit ['$','x'] firstWrite,.append ['$','x'] secondWrite]) := by
  refine writer_table_coherent _ _ _ ⟨fun definition live => absurd live (Finset.notMem_empty _),?_,trivial⟩
  unfold WriteOp.Covers
  decide

-- The overwritten writer of `$x` is still found under that spelling after `x` is written.
theorem stale_sigil_writer : ¬CoherentTable Names.asciiClass (fun _ _ => ∅)
    (writerTable Names.asciiClass [.commit ['$','x'] firstWrite,.commit ['x'] secondWrite])
    (recordedSince Names.asciiClass [.commit ['$','x'] firstWrite,.commit ['x'] secondWrite]) := by
  intro coherent
  have read := coherent.reads ['$','x'] .return (by decide) (by decide)
  exact absurd read (by decide)

end BonsaiNinja.Idg
