import BonsaiNinja.Parser.ParseCache
import Mathlib.Data.Prod.Lex

namespace BonsaiNinja.Parser
open Idg (FileId Text)
open Hash (Bytes utf8Bytes)
variable {s : CacheState Bytes (List ContextFile)}

namespace Adapter
variable {θ : Type u} {κ : Type v} {φ : Type w} {adapter : Adapter θ κ φ} {snapshot : FileSnapshot}

def Scratch (adapter : Adapter θ κ φ) (snapshot : FileSnapshot) (context : κ) : ParsePhase θ → Prop :=
  Relation.ReflTransGen (fun phase next => adapter.parseStep snapshot context none phase = some next) .start

def PlainUnless (adapter : Adapter θ κ φ) (snapshot : FileSnapshot) : ParsePhase θ → Prop
  | .start => True
  | .recovering _ tree usedRecovery => usedRecovery = false → tree = adapter.parse snapshot.path (utf8Bytes snapshot.text.text)
  | .finished tree usedRecovery => usedRecovery = false → tree = adapter.parse snapshot.path (utf8Bytes snapshot.text.text)

theorem firstTree_plain (edits : List ParseRecoveryEdit) (plain : (adapter.firstTree snapshot none edits).2.2 = false) :
    (adapter.firstTree snapshot none edits).2.1 = adapter.parse snapshot.path (utf8Bytes snapshot.text.text) := by
  unfold firstTree at plain ⊢
  simp only at plain ⊢
  split at plain
  · cases plain
  · next unchanged => rw [if_neg unchanged]

theorem parseStep_plain {context : κ} {phase next : ParsePhase θ} (plain : adapter.PlainUnless snapshot phase)
    (step : adapter.parseStep snapshot context none phase = some next) : adapter.PlainUnless snapshot next := by
  cases phase with
  | start =>
    simp only [parseStep] at step
    split at step
    · cases step
      exact firstTree_plain _
    · cases step
      exact firstTree_plain _
  | recovering source tree usedRecovery =>
    simp only [parseStep] at step
    split at step
    · cases step
      exact fun used => by cases used
    · cases step
      exact plain
  | finished tree usedRecovery => cases step

theorem scratch_plain {context : κ} {phase : ParsePhase θ} (scratch : adapter.Scratch snapshot context phase) :
    adapter.PlainUnless snapshot phase := by
  induction scratch with
  | refl => trivial
  | tail _ step previous => exact parseStep_plain previous step

theorem scratch_unique {context : κ} {tree tree' : θ} {used used' : Bool}
    (left : adapter.Scratch snapshot context (.finished tree used))
    (right : adapter.Scratch snapshot context (.finished tree' used')) : tree = tree' ∧ used = used' := by
  have functional : Relator.RightUnique fun phase next => adapter.parseStep snapshot context none phase = some next :=
    fun _ _ _ one other => Option.some.inj (one.symm.trans other)
  have stuck : ∀ {tree used next}, ¬Relation.ReflTransGen
      (fun phase next => adapter.parseStep snapshot context none phase = some next) (.finished tree used) next ∨
        next = .finished tree used := by
    intro tree used next
    by_cases same : next = .finished tree used
    · exact .inr same
    · left
      intro path
      rcases Relation.ReflTransGen.cases_head path with equal | ⟨_,step,_⟩
      · exact same equal.symm
      · cases step
  rcases Relation.ReflTransGen.total_of_right_unique functional left right with path | path
  · have same := stuck.resolve_left (not_not_intro path)
    cases same
    exact ⟨rfl,rfl⟩
  · have same := stuck.resolve_left (not_not_intro path)
    cases same
    exact ⟨rfl,rfl⟩

theorem firstTree_hint {parsed : ParsedFile θ φ} {edits : List ParseRecoveryEdit}
    (plain : parsed.usedRecovery = false → parsed.tree = adapter.parse snapshot.path (utf8Bytes parsed.source.text)) :
    adapter.firstTree snapshot (adapter.incrementalTree parsed snapshot.text.text) edits = adapter.firstTree snapshot none edits := by
  unfold firstTree incrementalTree
  cases used : parsed.usedRecovery with
  | true => simp
  | false =>
    have exact := adapter.reparse_exact snapshot.path (utf8Bytes parsed.source.text) (utf8Bytes snapshot.text.text)
    simp only [plain used, Bool.false_eq_true, if_false, exact]

theorem parseStep_hint {context : κ} {parsed : ParsedFile θ φ} {phase : ParsePhase θ}
    (plain : parsed.usedRecovery = false → parsed.tree = adapter.parse snapshot.path (utf8Bytes parsed.source.text)) :
    adapter.parseStep snapshot context (adapter.incrementalTree parsed snapshot.text.text) phase =
      adapter.parseStep snapshot context none phase := by
  cases phase with
  | start => simp only [parseStep, firstTree_hint plain]
  | recovering source tree usedRecovery => rfl
  | finished tree usedRecovery => rfl

end Adapter

section
variable {θ : Type u} {κ : Type v} {φ : Type w} {adapters : Text → Adapter θ κ φ}
variable {vfs vfs' : Vfs}

-- What a call may return for a snapshot: its own version and text, and the tree
-- of a parse from scratch in the context the fingerprint stands for.
structure Genuine (adapter : Adapter θ κ φ) (snapshot : FileSnapshot) (parsed : ParsedFile θ φ) : Prop where
  version : parsed.version = snapshot.version
  source : parsed.source = snapshot.text
  context : ∃ context, parsed.contextFingerprint = adapter.fingerprint context ∧
    adapter.Scratch snapshot context (.finished parsed.tree parsed.usedRecovery)

def Issued (vfs : Vfs) (snapshot : FileSnapshot) : Prop :=
  ∃ current, vfs.snapshot snapshot.fileId = some current ∧ current.path = snapshot.path

def Cached (adapters : Text → Adapter θ κ φ) (vfs : Vfs) (key : ParseKey) (parsed : ParsedFile θ φ) : Prop :=
  ∃ snapshot, Issued vfs snapshot ∧ snapshot.fileId = key.file ∧ Genuine (adapters key.languageId) snapshot parsed

theorem Issued.later {snapshot : FileSnapshot} (issued : Issued vfs snapshot) (later : Vfs.Later vfs vfs') :
    Issued vfs' snapshot := by
  obtain ⟨current,found,path⟩ := issued
  obtain ⟨new,found',path',_⟩ := later.kept _ _ found
  exact ⟨new,found',path'.trans path⟩

theorem Cached.later {key : ParseKey} {parsed : ParsedFile θ φ} (cached : Cached adapters vfs key parsed)
    (later : Vfs.Later vfs vfs') : Cached adapters vfs' key parsed := by
  obtain ⟨snapshot,issued,file,genuine⟩ := cached
  exact ⟨snapshot,issued.later later,file,genuine⟩

theorem Issued.path {snapshot other : FileSnapshot} (left : Issued vfs snapshot) (right : Issued vfs other)
    (same : snapshot.fileId = other.fileId) : snapshot.path = other.path := by
  obtain ⟨current,found,path⟩ := left
  obtain ⟨current',found',path'⟩ := right
  rw [same, found'] at found
  cases found
  exact path.symm.trans path'

-- An entry of the same version and text is genuine for the caller's snapshot too.
theorem Cached.matches [DecidableEq φ] {call : ParseCall θ φ} {parsed : ParsedFile θ φ} {fingerprint : φ}
    (cached : Cached adapters vfs (call.key adapters) parsed) (issued : Issued vfs call.snapshot)
    (same : parsedMatchesSnapshot parsed call.snapshot fingerprint = true) :
    Genuine (adapters call.languageId) call.snapshot parsed := by
  obtain ⟨snapshot,issued',file,genuine⟩ := cached
  simp only [parsedMatchesSnapshot, Bool.and_eq_true, beq_iff_eq] at same
  obtain ⟨⟨version,source⟩,_⟩ := same
  have path := issued'.path issued file
  have equal : snapshot = call.snapshot := by
    obtain ⟨fileId,path',text,version'⟩ := snapshot
    obtain ⟨languageId,⟨fileId',path'',text',version''⟩,phase⟩ := call
    have versions : version' = version'' := genuine.version.symm.trans version
    have texts : text = text' := genuine.source.symm.trans source
    have files : fileId = fileId' := file
    have paths : path' = path'' := path
    rw [versions, texts, files, paths]
  exact equal ▸ genuine

theorem Cached.plain {call : ParseCall θ φ} {parsed : ParsedFile θ φ}
    (cached : Cached adapters vfs (call.key adapters) parsed) (issued : Issued vfs call.snapshot) :
    parsed.usedRecovery = false →
      parsed.tree = (adapters call.languageId).parse call.snapshot.path (utf8Bytes parsed.source.text) := by
  obtain ⟨snapshot,issued',file,genuine⟩ := cached
  obtain ⟨context,_,scratch⟩ := genuine.context
  intro unused
  rw [genuine.source, ← issued'.path issued file]
  exact Adapter.scratch_plain scratch unused

def PhaseHolds (adapters : Text → Adapter θ κ φ) (vfs : Vfs) (call : ParseCall θ φ) : CallPhase θ φ → Prop
  | .entered => True
  | .fingerprinted fingerprint => ∃ context, fingerprint = (adapters call.languageId).fingerprint context
  | .looking fingerprint _ => ∃ context, fingerprint = (adapters call.languageId).fingerprint context
  | .checkedOut fingerprint _ => ∃ context, fingerprint = (adapters call.languageId).fingerprint context
  | .hinting fingerprint _ => ∃ context, fingerprint = (adapters call.languageId).fingerprint context
  | .parsing fingerprint _ old phase =>
    (∃ context, fingerprint = (adapters call.languageId).fingerprint context ∧
      (adapters call.languageId).Scratch call.snapshot context phase) ∧
      ∀ parsed, old = some parsed → Cached adapters vfs (call.key adapters) parsed
  | .returned parsed => Genuine (adapters call.languageId) call.snapshot parsed

structure CallHolds (adapters : Text → Adapter θ κ φ) (vfs : Vfs) (call : ParseCall θ φ) : Prop where
  issued : Issued vfs call.snapshot
  phase : PhaseHolds adapters vfs call call.phase

theorem CallHolds.later {call : ParseCall θ φ} (holds : CallHolds adapters vfs call)
    (later : Vfs.Later vfs vfs') : CallHolds adapters vfs' call := by
  obtain ⟨languageId,snapshot,phase⟩ := call
  refine ⟨holds.issued.later later,?_⟩
  have held := holds.phase
  cases phase with
  | parsing fingerprint revision old phase => exact ⟨held.1,fun parsed same => (held.2 parsed same).later later⟩
  | entered | fingerprinted | looking | checkedOut | hinting | returned => exact held

structure CacheValid (adapters : Text → Adapter θ κ φ) (s : CacheState θ φ) : Prop where
  cache : ∀ key parsed, s.cache key = some parsed → Cached adapters s.vfs key parsed
  calls : ∀ call ∈ s.calls, CallHolds adapters s.vfs call

-- A read of the adapter's edits in another context than the call's fingerprint
-- was taken from.
def ContextMoved (adapters : Text → Adapter θ κ φ) (s : CacheState θ φ) : CacheAction → Prop
  | .advance index => ∃ call fingerprint revision old phase, s.calls[index]? = some call ∧
      call.phase = .parsing fingerprint revision old phase ∧ (∀ tree used, phase ≠ .finished tree used) ∧
      (adapters call.languageId).fingerprint ((adapters call.languageId).context call.snapshot s.vfs) ≠ fingerprint
  | _ => False

variable [DecidableEq φ]

theorem cacheHit_genuine {s : CacheState θ φ} {call : ParseCall θ φ} {fingerprint : φ} {entry : ParsedFile θ φ}
    (valid : CacheValid adapters s) (issued : Issued s.vfs call.snapshot)
    (hit : cacheHit adapters s.cache call fingerprint = some entry) : Genuine (adapters call.languageId) call.snapshot entry := by
  obtain ⟨found,same⟩ := Option.filter_eq_some_iff.mp hit
  exact (valid.cache _ _ found).matches issued same

theorem publish_genuine {s : CacheState θ φ} {call : ParseCall θ φ} {parsed : ParsedFile θ φ}
    (valid : CacheValid adapters s) (issued : Issued s.vfs call.snapshot)
    (genuine : Genuine (adapters call.languageId) call.snapshot parsed) :
    Genuine (adapters call.languageId) call.snapshot (publish adapters s.cache call parsed).1 ∧
      ∀ key other, (publish adapters s.cache call parsed).2 key = some other → Cached adapters s.vfs key other := by
  have inserted : ∀ key other, Function.update s.cache (call.key adapters) (some parsed) key = some other →
      Cached adapters s.vfs key other := by
    intro key other found
    by_cases here : key = call.key adapters
    · subst here
      rw [Function.update_self] at found
      cases found
      exact ⟨call.snapshot,issued,rfl,genuine⟩
    · rw [Function.update_of_ne here] at found
      exact valid.cache key other found
  unfold publish
  split
  · next existing found =>
    split
    · next same => exact ⟨(valid.cache _ _ found).matches issued same,valid.cache⟩
    · split
      · exact ⟨genuine,valid.cache⟩
      · exact ⟨genuine,inserted⟩
  · exact ⟨genuine,inserted⟩

theorem advanceCall_holds {s : CacheState θ φ} {call : ParseCall θ φ} {phase : CallPhase θ φ}
    {cache : ParseKey → Option (ParsedFile θ φ)} (valid : CacheValid adapters s) (holds : CallHolds adapters s.vfs call)
    (current : ∀ fingerprint revision old phase, call.phase = .parsing fingerprint revision old phase →
      (∀ tree used, phase ≠ .finished tree used) →
      (adapters call.languageId).fingerprint ((adapters call.languageId).context call.snapshot s.vfs) = fingerprint)
    (step : advanceCall adapters s call = some (phase,cache)) :
    PhaseHolds adapters s.vfs call phase ∧ ∀ key other, cache key = some other → Cached adapters s.vfs key other := by
  obtain ⟨issued,held⟩ := holds
  unfold advanceCall at step
  cases stage : call.phase with
  | entered =>
    simp only [stage] at step
    cases step
    exact ⟨⟨_,rfl⟩,valid.cache⟩
  | fingerprinted fingerprint =>
    simp only [stage] at step held
    cases step
    exact ⟨held,valid.cache⟩
  | looking fingerprint revision | checkedOut fingerprint revision =>
    simp only [stage] at step held
    split at step
    · next entry hit =>
      cases step
      exact ⟨cacheHit_genuine valid issued hit,valid.cache⟩
    · cases step
      exact ⟨held,valid.cache⟩
  | hinting fingerprint revision =>
    simp only [stage] at step held
    cases step
    obtain ⟨context,same⟩ := held
    exact ⟨⟨⟨context,same,.refl⟩,fun parsed found => valid.cache _ _ found⟩,valid.cache⟩
  | parsing fingerprint revision old inner =>
    simp only [stage] at held
    obtain ⟨⟨context,same,scratch⟩,hinted⟩ := held
    have reads : (∀ tree used, inner ≠ .finished tree used) → ∀ next,
        (adapters call.languageId).parseStep call.snapshot ((adapters call.languageId).context call.snapshot s.vfs)
          ((old.filter fun parsed => parsed.contextFingerprint == fingerprint).bind fun parsed =>
            (adapters call.languageId).incrementalTree parsed call.snapshot.text.text) inner = some next →
        PhaseHolds adapters s.vfs call (.parsing fingerprint revision old next) := by
      intro unfinished next moved
      have now : (adapters call.languageId).context call.snapshot s.vfs = context :=
        (adapters call.languageId).fingerprint_injective ((current _ _ _ _ stage unfinished).trans same)
      refine ⟨⟨context,same,scratch.tail ?_⟩,hinted⟩
      rw [now] at moved
      cases kept : old.filter fun parsed => parsed.contextFingerprint == fingerprint with
      | none =>
        rw [kept] at moved
        exact moved
      | some parsed =>
        rw [kept] at moved
        have found := (Option.filter_eq_some_iff.mp kept).1
        rw [Option.bind_some, Adapter.parseStep_hint ((hinted parsed found).plain issued)] at moved
        exact moved
    cases inner with
    | finished tree used =>
      simp only [stage] at step
      cases step
      exact publish_genuine valid issued ⟨rfl,rfl,context,same,scratch⟩
    | start | recovering source tree used =>
      simp only [stage] at step
      obtain ⟨next,moved,equal⟩ := Option.map_eq_some_iff.mp step
      cases equal
      exact ⟨reads (fun _ _ => by simp) next moved,valid.cache⟩
  | returned parsed =>
    simp only [stage] at step
    cases step

def SteadyStep (adapters : Text → Adapter θ κ φ) (s s' : CacheState θ φ) : Prop :=
  ∃ action, ¬ContextMoved adapters s action ∧ cacheStep adapters s action = some s'

abbrev SteadyRuns (adapters : Text → Adapter θ κ φ) : CacheState θ φ → CacheState θ φ → Prop :=
  Relation.ReflTransGen (SteadyStep adapters)

theorem steadyStep_valid {s s' : CacheState θ φ} (valid : CacheValid adapters s) (step : SteadyStep adapters s s') :
    CacheValid adapters s' := by
  obtain ⟨action,steady,step⟩ := step
  cases action with
  | write path text =>
    cases step
    have later := Vfs.write_later s.vfs path text
    exact ⟨fun key parsed found => (valid.cache key parsed found).later later,fun call member => (valid.calls call member).later later⟩
  | call languageId file =>
    obtain ⟨snapshot,found,equal⟩ := Option.map_eq_some_iff.mp step
    cases equal
    refine ⟨valid.cache,?_⟩
    intro call member
    rcases List.mem_append.mp member with earlier | last
    · exact valid.calls call earlier
    · rw [List.mem_singleton.mp last]
      have same := s.vfs.ids file snapshot found
      exact ⟨⟨snapshot,same.symm ▸ found,rfl⟩,trivial⟩
  | advance index =>
    simp only [cacheStep] at step
    split at step
    · next call running =>
      obtain ⟨⟨phase,cache⟩,moved,equal⟩ := Option.map_eq_some_iff.mp step
      cases equal
      have holds := valid.calls call (List.mem_of_getElem? running)
      have current : ∀ fingerprint revision old inner, call.phase = .parsing fingerprint revision old inner →
          (∀ tree used, inner ≠ .finished tree used) →
          (adapters call.languageId).fingerprint ((adapters call.languageId).context call.snapshot s.vfs) = fingerprint := by
        intro fingerprint revision old inner stage unfinished
        by_contra differs
        exact steady ⟨call,fingerprint,revision,old,inner,running,stage,unfinished,differs⟩
      obtain ⟨phaseHolds,cached⟩ := advanceCall_holds valid holds current moved
      refine ⟨cached,?_⟩
      intro other member
      rcases List.mem_or_eq_of_mem_set member with earlier | equal
      · exact valid.calls other earlier
      · rw [equal]
        refine ⟨holds.issued,?_⟩
        cases phase <;> exact phaseHolds
    · cases step
  | release languageId file =>
    obtain ⟨snapshot,found,equal⟩ := Option.map_eq_some_iff.mp step
    cases equal
    refine ⟨?_,valid.calls⟩
    intro key parsed kept
    change Function.update s.cache ⟨file,languageId,(adapters languageId).grammarNameForPath snapshot.path⟩ none key =
      some parsed at kept
    by_cases here : key = ⟨file,languageId,(adapters languageId).grammarNameForPath snapshot.path⟩
    · subst here
      rw [Function.update_self] at kept
      cases kept
    · rw [Function.update_of_ne here] at kept
      exact valid.cache key parsed kept
  | invalidate file =>
    cases step
    refine ⟨?_,valid.calls⟩
    intro key parsed kept
    exact valid.cache key parsed (Option.ite_none_left_eq_some.mp kept).2

theorem steadyRuns_valid {s s' : CacheState θ φ} (valid : CacheValid adapters s) (run : SteadyRuns adapters s s') :
    CacheValid adapters s' := by
  induction run with
  | refl => exact valid
  | tail _ step previous => exact steadyStep_valid previous step

end

section
variable {θ : Type u} {κ : Type v} {φ : Type w}

theorem bestCandidate_smaller {adapter : Adapter θ κ φ} {snapshot : FileSnapshot} {source source' : Bytes} {tree tree' : θ}
    {batches : List (List ParseRecoveryEdit)} (best : adapter.bestCandidate snapshot source tree batches = some (source',tree')) :
    keyBefore (recoveryOrderingKey (adapter.syntaxDamageScore tree')) (recoveryOrderingKey (adapter.syntaxDamageScore tree)) = true := by
  unfold Adapter.bestCandidate at best
  generalize start : (none : Option (Bytes × θ)) = found at best
  have initial : ∀ candidate, found = some candidate →
      keyBefore (recoveryOrderingKey (adapter.syntaxDamageScore candidate.2)) (recoveryOrderingKey (adapter.syntaxDamageScore tree)) = true := by
    intro candidate same
    rw [← start] at same
    cases same
  clear start
  induction batches generalizing found with
  | nil =>
    exact initial _ best
  | cons edits rest ih =>
    rw [List.foldl_cons] at best
    refine ih _ best ?_
    intro candidate same
    split at same
    split at same
    · simp only at same
      split at same
      · exact initial candidate same
      · next accepted =>
        cases same
        simp only [Bool.or_eq_true, Bool.not_eq_true', not_or, Bool.not_eq_false] at accepted
        exact accepted.1.1
    · exact initial candidate same

-- The steps a call has left: the recovery loop lowers the damage in every round.
def phaseRank (adapter : Adapter θ κ φ) : CallPhase θ φ → Nat ×ₗ Nat ×ₗ Nat
  | .entered => toLex (8,toLex (0,0))
  | .fingerprinted _ => toLex (7,toLex (0,0))
  | .looking _ _ => toLex (6,toLex (0,0))
  | .checkedOut _ _ => toLex (5,toLex (0,0))
  | .hinting _ _ => toLex (4,toLex (0,0))
  | .parsing _ _ _ .start => toLex (3,toLex (0,0))
  | .parsing _ _ _ (.recovering _ tree _) => toLex (2,toLex (recoveryOrderingKey (adapter.syntaxDamageScore tree)))
  | .parsing _ _ _ (.finished _ _) => toLex (1,toLex (0,0))
  | .returned _ => toLex (0,toLex (0,0))

theorem rank_first {a b : Nat} {x y : Nat ×ₗ Nat} (lower : a < b) : toLex (a,x) < toLex (b,y) := Prod.Lex.left _ _ lower

theorem keyBefore_lt {a b : Nat × Nat} (lower : keyBefore a b = true) : (toLex a : Nat ×ₗ Nat) < toLex b := by
  obtain ⟨a₁,a₂⟩ := a
  obtain ⟨b₁,b₂⟩ := b
  simp only [keyBefore, Library.before, Bool.or_eq_true, Bool.and_eq_true, decide_eq_true_eq] at lower
  rcases lower with first | ⟨rfl,second⟩
  · exact Prod.Lex.left _ _ first
  · exact Prod.Lex.right _ second

theorem rank_damage {a b : Nat × Nat} (lower : keyBefore a b = true) (n : Nat) :
    (toLex (n,toLex a) : Nat ×ₗ Nat ×ₗ Nat) < toLex (n,toLex b) := Prod.Lex.right _ (keyBefore_lt lower)

theorem advanceCall_rank [DecidableEq φ] {adapters : Text → Adapter θ κ φ} {s : CacheState θ φ} {call : ParseCall θ φ} :
    (∃ parsed, call.phase = .returned parsed) ∨ ∃ phase cache, advanceCall adapters s call = some (phase,cache) ∧
      phaseRank (adapters call.languageId) phase < phaseRank (adapters call.languageId) call.phase := by
  cases stage : call.phase with
  | returned parsed => exact .inl ⟨parsed,rfl⟩
  | entered | fingerprinted fingerprint =>
    right
    simp only [advanceCall, stage]
    exact ⟨_,_,rfl,rank_first (by omega)⟩
  | looking fingerprint revision | checkedOut fingerprint revision =>
    right
    simp only [advanceCall, stage]
    split
    · exact ⟨_,_,rfl,rank_first (by omega)⟩
    · exact ⟨_,_,rfl,rank_first (by omega)⟩
  | hinting fingerprint revision =>
    right
    simp only [advanceCall, stage]
    exact ⟨_,_,rfl,rank_first (by omega)⟩
  | parsing fingerprint revision old inner =>
    right
    cases inner with
    | finished tree used =>
      simp only [advanceCall, stage]
      exact ⟨_,_,rfl,rank_first (by omega)⟩
    | start =>
      simp only [advanceCall, stage, Adapter.parseStep]
      split
      · exact ⟨_,_,rfl,rank_first (by omega)⟩
      · exact ⟨_,_,rfl,rank_first (by omega)⟩
    | recovering source tree used =>
      simp only [advanceCall, stage, Adapter.parseStep]
      split
      · next source' tree' best => exact ⟨_,_,rfl,rank_damage (bestCandidate_smaller best) 2⟩
      · exact ⟨_,_,rfl,rank_first (by omega)⟩

end

-- A grammar whose tree is the buffer it parsed; a letter `M` is an error.
def letterGrammar : Adapter Bytes Unit Unit where
  grammarNameForPath _ := []
  context _ _ := ()
  fingerprint := id
  fingerprint_injective _ _ := id
  parseNormalizationEdits _ _ := []
  parseRecoveryEditBatches _ _ _ := []
  preservesCleanNodes _ _ _ _ := true
  parse _ bytes := bytes
  edit tree _ _ := tree
  reparse _ _ bytes := bytes
  reparse_exact _ _ _ := rfl
  hasError tree := tree.contains 77
  syntaxDamageScore tree := (0,tree.count 77)

-- A reachable macro `M` is masked.
def letterAdapter : Adapter Bytes (List ContextFile) (List ContextFile) :=
  cFamilyAdapter letterGrammar id (fun _ _ same => same) fun _ macros _ =>
    if ['M'] ∈ macros then [[⟨0,1,.mask,none⟩]] else []

def headerVfs : Vfs := (Vfs.empty.write [['m']] "M\n#include \"h\"".toList).write [['h']] []

def beforeRecovery : List CacheAction :=
  [.call [] 0,.advance 0,.advance 0,.advance 0,.advance 0,.advance 0,.advance 0]

def afterRecovery : List CacheAction := [.advance 0,.advance 0,.advance 0]

-- The snapshot, the tree, whether recovery was used and the fingerprint of the one
-- call of a state.
def returnedOf (s : CacheState Bytes (List ContextFile)) : Option (FileSnapshot × Bytes × Bool × List ContextFile) :=
  match s.calls with
  | [⟨_,snapshot,.returned parsed⟩] => some (snapshot,parsed.tree,parsed.usedRecovery,parsed.contextFingerprint)
  | _ => none

def letterRun (actions : List CacheAction) : Option (CacheState Bytes (List ContextFile)) :=
  cacheRun (fun _ => letterAdapter) ⟨headerVfs,fun _ => none,[]⟩ actions

theorem returnedOf_call {snapshot : FileSnapshot} {tree : Bytes} {used : Bool}
    {fingerprint : List ContextFile} (returned : returnedOf s = some (snapshot,tree,used,fingerprint)) :
    ∃ call ∈ s.calls, ∃ parsed, call.phase = .returned parsed ∧ call.snapshot = snapshot ∧ parsed.tree = tree ∧
      parsed.usedRecovery = used ∧ parsed.contextFingerprint = fingerprint := by
  unfold returnedOf at returned
  split at returned
  · next parsed calls =>
    cases returned
    exact ⟨_,calls ▸ List.mem_singleton_self _,parsed,rfl,rfl,rfl,rfl,rfl⟩
  · cases returned

def mainSnapshot : FileSnapshot := ⟨0,[['m']],⟨0,"M\n#include \"h\"".toList⟩,0⟩

def mainTree : Bytes := utf8Bytes mainSnapshot.text.text

def emptyHeader : List ContextFile := [⟨[['h']],0,[]⟩,⟨[['m']],0,mainSnapshot.text.text⟩]

-- In the context of an empty header nothing is masked.
theorem mainTree_scratch : letterAdapter.Scratch mainSnapshot emptyHeader (.finished mainTree false) := by
  have first : letterAdapter.parseStep mainSnapshot emptyHeader none .start = some (.recovering mainTree mainTree false) := rfl
  have second : letterAdapter.parseStep mainSnapshot emptyHeader none (.recovering mainTree mainTree false) =
      some (.finished mainTree false) := rfl
  exact .tail (.single first) second

def contextMoved (s : CacheState Bytes (List ContextFile)) : CacheAction → Bool
  | .advance index =>
    match s.calls[index]? with
    | some ⟨_,snapshot,.parsing fingerprint _ _ phase⟩ =>
      (match phase with
        | .finished _ _ => false
        | _ => true) && letterAdapter.context snapshot s.vfs != fingerprint
    | _ => false
  | _ => false

def steadyStep (s : CacheState Bytes (List ContextFile)) (action : CacheAction) : Option (CacheState Bytes (List ContextFile)) :=
  if contextMoved s action then none else cacheStep (fun _ => letterAdapter) s action

theorem contextMoved_false {action : CacheAction}
    (steady : contextMoved s action = false) : ¬ContextMoved (fun _ => letterAdapter) s action := by
  intro moved
  cases action with
  | advance index =>
    obtain ⟨⟨languageId,snapshot,_⟩,fingerprint,revision,old,phase,running,rfl,unfinished,differs⟩ := moved
    simp only [contextMoved, running, Bool.and_eq_false_iff, bne_eq_false_iff_eq] at steady
    rcases steady with done | same
    · cases phase with
      | finished tree used => exact unfinished tree used rfl
      | start => cases done
      | recovering source tree used => cases done
    · exact differs same
  | write | call | release | invalidate => exact moved

theorem steadyRuns_of_steps {s' : CacheState Bytes (List ContextFile)} {actions : List CacheAction}
    (run : actions.foldlM steadyStep s = some s') : SteadyRuns (fun _ => letterAdapter) s s' := by
  induction actions generalizing s with
  | nil =>
    cases run
    exact .refl
  | cons action rest ih =>
    rw [List.foldlM_cons] at run
    obtain ⟨mid,step,run⟩ := Option.bind_eq_some_iff.mp run
    unfold steadyStep at step
    split at step
    · cases step
    · next steady =>
      have first : SteadyStep (fun _ => letterAdapter) s mid :=
        ⟨action,contextMoved_false (Bool.eq_false_of_not_eq_true steady),step⟩
      exact .head first (ih run)

end BonsaiNinja.Parser
