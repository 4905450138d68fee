import BonsaiNinja.Idg.Place
import BonsaiNinja.Library.FileAccess
import BonsaiNinja.Library.Gaps
import BonsaiNinja.Library.OrderedTrees

namespace BonsaiNinja.Parser
open Idg (FileId Span Text)
open Library

-- What tree-sitter tells about one node, its place in the tree apart.
structure SyntaxNode where
  kind : Text
  startByte : Nat
  endByte : Nat
  isNamed : Bool
  isError : Bool
  isMissing : Bool
  hasError : Bool
  deriving DecidableEq, Repr

abbrev SyntaxTree := OrderedTree SyntaxNode

def carriesDamage (child : SyntaxTree) : Bool := child.label.isMissing || child.label.hasError

def coverChild (cover : Nat × Nat) (child : SyntaxTree) : Nat × Nat :=
  if carriesDamage child || child.label.isNamed then
    (saturatingAdd cover.1 (child.label.startByte - cover.2),max cover.2 child.label.endByte)
  else cover

def damageLoop : List SyntaxTree → Nat × Nat → Nat × Nat
  | [], totals => totals
  | node :: stack, (coveredBytes,count) =>
    if node.label.isMissing then damageLoop stack (coveredBytes,count + 1)
    else if node.label.isError then
      let cover := node.children.foldl coverChild (coveredBytes,node.label.startByte)
      damageLoop ((node.children.filter carriesDamage).reverse ++ stack) (saturatingAdd cover.1 (node.label.endByte - cover.2),count + 1)
    else
      damageLoop ((node.children.filter fun child => child.label.hasError || child.label.isMissing).reverse ++ stack) (coveredBytes,count)
termination_by stack => OrderedTree.sizes stack
decreasing_by
  · exact OrderedTree.popped_lt _ _
  · exact OrderedTree.pushed_reverse_lt _ _ _
  · exact OrderedTree.pushed_reverse_lt _ _ _

def syntaxDamageScore (tree : SyntaxTree) : Nat × Nat :=
  let totals := damageLoop [tree] (0,0)
  -- A hidden missing production sets the flag of the root and is no node.
  if totals.2 = 0 ∧ tree.label.hasError = true then (0,1) else totals

inductive Severity where
  | hint | info | warning | error
  deriving DecidableEq, Repr

structure Diagnostic where
  span : Span
  severity : Severity
  message : Text
  code : Option Text
  deriving DecidableEq, Repr

def saturatingByteOffset (byte : Nat) : Nat := min byte (2 ^ 64 - 1)

def fileSpan (file : FileId) (textLen : Nat) : Span := ⟨file,0,saturatingByteOffset textLen⟩

def spanForNode (file : FileId) (node : SyntaxTree) : Span :=
  ⟨file,saturatingByteOffset node.label.startByte,saturatingByteOffset node.label.endByte⟩

def parseTimeoutDiagnostic (file : FileId) (textLen timeoutMillis : Nat) : Diagnostic :=
  ⟨fileSpan file textLen,.warning,"file skipped: parse timeout after ".toList ++ (Nat.repr timeoutMillis).toList ++ " ms".toList,
    some "parse-timeout".toList⟩

def nodeDiagnostic (file : FileId) (node : SyntaxTree) : Diagnostic :=
  ⟨spanForNode file node,.warning,
    if node.label.isMissing then "missing ".toList ++ (Char.ofNat 96 :: node.label.kind ++ [Char.ofNat 96]) else "syntax error".toList,
    some "syntax-error".toList⟩

def diagnosticLoop (file : FileId) : List SyntaxTree → List Diagnostic → List Diagnostic
  | [], diagnostics => diagnostics
  | node :: stack, diagnostics =>
    let emitted := if node.label.isError || node.label.isMissing then diagnostics ++ [nodeDiagnostic file node] else diagnostics
    -- The reversed children go onto the stack one by one: the first is on top.
    diagnosticLoop file
      ((node.children.filter fun child => child.label.hasError || child.label.isError || child.label.isMissing) ++ stack) emitted
termination_by stack => OrderedTree.sizes stack
decreasing_by exact OrderedTree.pushed_lt _ _ _

def diagnosticsForTree (file : FileId) (textLen : Nat) (tree : SyntaxTree) (timedOut : Option Nat) : List Diagnostic :=
  match timedOut with
  | some timeout => [parseTimeoutDiagnostic file textLen timeout]
  | none =>
    if !tree.label.hasError then []
    else
      let diagnostics := diagnosticLoop file [tree] []
      if diagnostics.isEmpty then
        [⟨fileSpan file textLen,.warning,"syntax errors present".toList,some "syntax-error".toList⟩]
      else diagnostics

def concrete (node : SyntaxTree) : Bool := node.label.isError || node.label.isMissing

def extent (node : SyntaxTree) : Nat × Nat := (node.label.startByte,node.label.endByte)

-- Children in source order inside their parent, MISSING leaves without width, and a flag that tells of damage at or below.
structure SoundNode (node : SyntaxTree) : Prop where
  laid : Laid (node.children.map extent) node.label.startByte node.label.endByte
  fits : node.label.endByte < 2 ^ 64
  missing : node.label.isMissing = true → node.children = [] ∧ node.label.startByte = node.label.endByte
  marked : node.label.hasError = true ↔ ∃ below ∈ node.nodes, concrete below = true

abbrev SoundTree (tree : SyntaxTree) : Prop := tree.All SoundNode

def ownBytes (node : SyntaxTree) : List Nat :=
  if node.label.isError then
    uncovered ((node.children.filter fun child => carriesDamage child || child.label.isNamed).map extent)
      node.label.startByte node.label.endByte
  else []

def spoiledBytes (tree : SyntaxTree) : List Nat := tree.nodes.flatMap ownBytes

def concreteNodes (tree : SyntaxTree) : List SyntaxTree := tree.nodes.filter concrete

def marked (node : SyntaxTree) : Bool := node.label.hasError

variable {tree child : SyntaxTree}

theorem concrete_here (damaged : concrete tree = true) (sound : SoundNode tree) : tree.label.hasError = true :=
  sound.marked.mpr ⟨tree,tree.self_mem_nodes,damaged⟩

theorem SoundNode.missing_marked (sound : SoundNode tree) (missing : tree.label.isMissing = true) : tree.label.hasError = true :=
  concrete_here (by simp [concrete,missing]) sound

theorem SoundNode.carries (sound : SoundNode tree) : carriesDamage tree = tree.label.hasError := by
  cases missing : tree.label.isMissing with
  | true => rw [carriesDamage,missing,sound.missing_marked missing,Bool.or_true]
  | false => rw [carriesDamage,missing,Bool.false_or]

theorem SoundNode.pushed (sound : SoundNode tree) :
    (tree.label.hasError || tree.label.isError || tree.label.isMissing) = tree.label.hasError := by
  cases marked : tree.label.hasError with
  | true => rfl
  | false =>
    have none : ¬concrete tree = true := fun damaged => Bool.false_ne_true (marked.symm.trans (concrete_here damaged sound))
    simpa [concrete] using none

theorem concreteNodes_eq (tree : SyntaxTree) :
    concreteNodes tree = (if concrete tree then [tree] else []) ++ tree.children.flatMap concreteNodes := by
  rw [concreteNodes,OrderedTree.nodes_eq,List.filter_cons,List.filter_flatMap]
  split <;> rfl

theorem spoiledBytes_eq (tree : SyntaxTree) : spoiledBytes tree = ownBytes tree ++ tree.children.flatMap spoiledBytes := by
  rw [spoiledBytes,OrderedTree.nodes_eq,List.flatMap_cons,List.flatMap_assoc]
  rfl

theorem clean_concreteNodes (sound : SoundNode tree) (clean : tree.label.hasError = false) : concreteNodes tree = [] := by
  rw [concreteNodes,List.filter_eq_nil_iff]
  intro below listed damaged
  exact Bool.false_ne_true (clean.symm.trans (sound.marked.mpr ⟨below,listed,damaged⟩))

theorem clean_spoiledBytes (sound : SoundNode tree) (clean : tree.label.hasError = false) : spoiledBytes tree = [] := by
  rw [spoiledBytes,List.flatMap_eq_nil_iff]
  intro below listed
  have none : ¬concrete below = true := fun damaged =>
    Bool.false_ne_true (clean.symm.trans (sound.marked.mpr ⟨below,listed,damaged⟩))
  rw [concrete,Bool.or_eq_true,not_or] at none
  exact if_neg none.1

theorem flatMap_filtered {α : Type u} {β : Type v} (listing : α → List β) (keep : α → Bool) {items : List α}
    (light : ∀ item ∈ items, keep item = false → listing item = []) :
    (items.filter keep).flatMap listing = items.flatMap listing := by
  induction items with
  | nil => rfl
  | cons item rest ih =>
    have later := ih fun other listed => light other (List.mem_cons_of_mem _ listed)
    rw [List.filter_cons,List.flatMap_cons]
    cases kept : keep item with
    | true => rw [if_pos rfl,List.flatMap_cons,later]
    | false => rw [if_neg Bool.false_ne_true,later,light item List.mem_cons_self kept,List.nil_append]

theorem sum_filtered {α : Type u} (weight : α → Nat) (keep : α → Bool) {items : List α}
    (light : ∀ item ∈ items, keep item = false → weight item = 0) :
    ((items.filter keep).map weight).sum = (items.map weight).sum := by
  have listed := flatMap_filtered (fun item => List.replicate (weight item) ()) keep fun item member out => by
    rw [light item member out]
    rfl
  simpa [List.length_flatMap] using congrArg List.length listed

theorem damaged_children (children : List SyntaxTree) (below : ∀ child ∈ children, SoundTree child) :
    children.filter carriesDamage = children.filter marked :=
  List.filter_congr fun child listed => (below child listed).here.carries

theorem selected_laid (sound : SoundNode tree) (keep : SyntaxTree → Bool) :
    Laid ((tree.children.filter keep).map extent) tree.label.startByte tree.label.endByte :=
  sound.laid.sublist (List.filter_sublist.map extent)

theorem coverChild_gaps {children : List SyntaxTree} {start stop covered : Nat}
    (laid : Laid ((children.filter fun child => carriesDamage child || child.label.isNamed).map extent) start stop)
    (room : covered + gaps ((children.filter fun child => carriesDamage child || child.label.isNamed).map extent) start stop < 2 ^ 64) :
    saturatingAdd (children.foldl coverChild (covered,start)).1 (stop - (children.foldl coverChild (covered,start)).2) =
      covered + gaps ((children.filter fun child => carriesDamage child || child.label.isNamed).map extent) start stop := by
  induction children generalizing start covered with
  | nil =>
    simp only [List.filter_nil,List.map_nil,gaps,List.foldl_nil] at room ⊢
    exact Nat.min_eq_left (by omega)
  | cons child rest ih =>
    rw [List.foldl_cons]
    by_cases selected : (carriesDamage child || child.label.isNamed) = true
    · rw [List.filter_cons,if_pos selected,List.map_cons] at laid room ⊢
      obtain ⟨before,inside,later⟩ := laid
      have reach : max start child.label.endByte = child.label.endByte := Nat.max_eq_right (before.trans inside)
      rw [extent,gaps,reach] at room ⊢
      have step : coverChild (covered,start) child = (covered + (child.label.startByte - start),child.label.endByte) := by
        rw [coverChild,if_pos selected,reach]
        exact congrArg (fun total => (total,_)) (Nat.min_eq_left (by omega))
      rw [step,ih later (by omega)]
      omega
    · rw [List.filter_cons,if_neg selected] at laid room ⊢
      rw [coverChild,if_neg selected]
      exact ih laid room

theorem own_exact (sound : SoundNode tree) (error : tree.label.isError = true) : (ownBytes tree).length =
    gaps ((tree.children.filter fun child => carriesDamage child || child.label.isNamed).map extent) tree.label.startByte
      tree.label.endByte := by
  rw [ownBytes,if_pos error]
  exact (gaps_exact (selected_laid sound _)).symm

theorem own_within {byte : Nat} (counted : byte ∈ ownBytes tree) : tree.label.startByte ≤ byte ∧ byte < tree.label.endByte := by
  unfold ownBytes at counted
  split at counted
  · exact (mem_uncovered.mp counted).1
  · exact absurd counted List.not_mem_nil

theorem child_extent (sound : SoundNode tree) (listed : child ∈ tree.children) :
    tree.label.startByte ≤ child.label.startByte ∧ child.label.endByte ≤ tree.label.endByte :=
  sound.laid.starts (List.mem_map_of_mem listed)

section
variable (sound : SoundTree tree)
include sound

theorem spoiled_within {byte : Nat} (counted : byte ∈ spoiledBytes tree) :
    tree.label.startByte ≤ byte ∧ byte < tree.label.endByte := by
  induction tree using OrderedTree.induct with
  | step tree ih =>
    rw [spoiledBytes_eq,List.mem_append,List.mem_flatMap] at counted
    rcases counted with own | ⟨child,listed,inner⟩
    · exact own_within own
    · have held := ih child listed (sound.child listed) inner
      have inside := child_extent sound.here listed
      omega

-- No byte is counted by two nodes.
theorem spoiled_nodup : (spoiledBytes tree).Nodup := by
  induction tree using OrderedTree.induct with
  | step tree ih =>
    rw [spoiledBytes_eq,List.nodup_append']
    refine ⟨?_,?_,?_⟩
    · unfold ownBytes
      split
      · exact uncovered_nodup _ _ _
      · exact List.nodup_nil
    · rw [List.nodup_flatMap]
      refine ⟨fun child listed => ih child listed (sound.child listed),?_⟩
      have apart := List.pairwise_map.mp sound.here.laid.apart
      refine apart.imp_of_mem fun {first second} listed listed' before byte counted counted' => ?_
      have held := spoiled_within (sound.child listed) counted
      have held' := spoiled_within (sound.child listed') counted'
      have order : first.label.endByte ≤ second.label.startByte := before
      omega
    · intro byte own inner
      obtain ⟨child,listed,counted⟩ := List.mem_flatMap.mp inner
      have held := spoiled_within (sound.child listed) counted
      have marked : child.label.hasError = true := by
        refine Bool.not_eq_false _ ▸ fun clean => ?_
        rw [clean_spoiledBytes (sound.child listed).here clean] at counted
        exact absurd counted List.not_mem_nil
      have selected : (carriesDamage child || child.label.isNamed) = true := by
        rw [(sound.child listed).here.carries,marked,Bool.true_or]
      unfold ownBytes at own
      split at own
      · exact (mem_uncovered.mp own).2 (extent child) (List.mem_map_of_mem (List.mem_filter.mpr ⟨listed,selected⟩)) held
      · exact absurd own List.not_mem_nil

theorem spoiled_length : (spoiledBytes tree).length ≤ tree.label.endByte - tree.label.startByte := by
  have part : spoiledBytes tree ⊆ List.range' tree.label.startByte (tree.label.endByte - tree.label.startByte) := by
    intro byte counted
    have held := spoiled_within sound counted
    rw [List.mem_range'_1]
    omega
  exact ((spoiled_nodup sound).subperm part).length_le.trans_eq (List.length_range')

def countedBytes (tree : SyntaxTree) : Nat := (spoiledBytes tree).length

def concreteCount (tree : SyntaxTree) : Nat := (concreteNodes tree).length

theorem countedBytes_eq : countedBytes tree =
    (ownBytes tree).length + ((tree.children.filter marked).map countedBytes).sum := by
  rw [sum_filtered countedBytes _ fun child listed clean => by rw [countedBytes,clean_spoiledBytes (sound.child listed).here clean]; rfl]
  rw [countedBytes,spoiledBytes_eq,List.length_append,List.length_flatMap]
  rfl

theorem concreteCount_eq : concreteCount tree =
    (if concrete tree then 1 else 0) + ((tree.children.filter marked).map concreteCount).sum := by
  rw [sum_filtered concreteCount _ fun child listed clean => by rw [concreteCount,clean_concreteNodes (sound.child listed).here clean]; rfl]
  rw [concreteCount,concreteNodes_eq,List.length_append,List.length_flatMap]
  split <;> rfl

theorem missing_counts (missing : tree.label.isMissing = true) :
    countedBytes tree = 0 ∧ concreteCount tree = 1 := by
  obtain ⟨leaf,width⟩ := sound.here.missing missing
  have empty := spoiled_length sound
  rw [width,Nat.sub_self] at empty
  refine ⟨Nat.le_zero.mp empty,?_⟩
  rw [concreteCount_eq sound,leaf,concrete,missing,Bool.or_true]
  rfl

end

theorem pushed_sound {stack : List SyntaxTree} {keep : SyntaxTree → Bool} (sound : ∀ node ∈ tree :: stack, SoundTree node) :
    ∀ node ∈ tree.children.filter keep ++ stack, SoundTree node := by
  intro node listed
  rcases List.mem_append.mp listed with child | below
  · exact (sound tree List.mem_cons_self).child (List.mem_of_mem_filter child)
  · exact sound node (List.mem_cons_of_mem _ below)

theorem pushed_reverse_sound {stack : List SyntaxTree} {keep : SyntaxTree → Bool} (sound : ∀ node ∈ tree :: stack, SoundTree node) :
    ∀ node ∈ (tree.children.filter keep).reverse ++ stack, SoundTree node := by
  intro node listed
  refine @pushed_sound tree stack keep sound node ?_
  rwa [List.mem_append,List.mem_reverse,← List.mem_append] at listed

theorem sum_pushed (weight : SyntaxTree → Nat) (pushed stack : List SyntaxTree) :
    ((pushed.reverse ++ stack).map weight).sum = (pushed.map weight).sum + (stack.map weight).sum := by
  rw [List.map_append,List.sum_append,List.map_reverse,List.sum_reverse]

theorem damageLoop_exact {stack : List SyntaxTree} {totals : Nat × Nat} (sound : ∀ node ∈ stack, SoundTree node)
    (room : totals.1 + (stack.map countedBytes).sum < 2 ^ 64) :
    damageLoop stack totals = (totals.1 + (stack.map countedBytes).sum,totals.2 + (stack.map concreteCount).sum) := by
  fun_induction damageLoop stack totals with
  | case1 totals => simp
  | case2 node stack coveredBytes count missing ih =>
    obtain ⟨silent,one⟩ := missing_counts (sound node List.mem_cons_self) missing
    rw [List.map_cons,List.sum_cons,silent,Nat.zero_add] at room ⊢
    rw [ih (fun other listed => sound other (List.mem_cons_of_mem _ listed)) room,List.map_cons,List.sum_cons,one,Nat.add_assoc]
  | case3 node stack coveredBytes count missing error cover ih =>
    have whole := sound node List.mem_cons_self
    have pushed := damaged_children node.children fun child => whole.child
    have bytes := countedBytes_eq whole
    have damages := concreteCount_eq whole
    rw [concrete,error,Bool.true_or,if_pos rfl] at damages
    rw [own_exact whole.here error] at bytes
    rw [List.map_cons,List.sum_cons,bytes] at room
    have filled := coverChild_gaps (selected_laid whole.here _) (by omega : coveredBytes + gaps _ _ _ < 2 ^ 64)
    rw [ih (pushed_reverse_sound sound) (by rw [sum_pushed,pushed,filled]; omega),sum_pushed,sum_pushed,pushed,filled,List.map_cons,
      List.map_cons,List.sum_cons,List.sum_cons,bytes,damages]
    exact Prod.ext (by omega) (by omega)
  | case4 node stack coveredBytes count missing error ih =>
    have whole := sound node List.mem_cons_self
    have pushed : (node.children.filter fun child => child.label.hasError || child.label.isMissing) =
        node.children.filter marked := by
      rw [← damaged_children node.children fun child => whole.child]
      exact List.filter_congr fun child _ => Bool.or_comm _ _
    have bytes := countedBytes_eq whole
    have damages := concreteCount_eq whole
    rw [ownBytes,if_neg error,List.length_nil,Nat.zero_add] at bytes
    rw [concrete,Bool.eq_false_of_not_eq_true error,Bool.eq_false_of_not_eq_true missing,Bool.or_false,if_neg Bool.false_ne_true,
      Nat.zero_add] at damages
    rw [List.map_cons,List.sum_cons,bytes] at room
    rw [ih (pushed_reverse_sound sound) (by rw [sum_pushed,pushed]; exact room),sum_pushed,sum_pushed,pushed,List.map_cons,List.map_cons,
      List.sum_cons,List.sum_cons,bytes,damages]

theorem syntaxDamageScore_eq (sound : SoundTree tree) : syntaxDamageScore tree = (countedBytes tree,concreteCount tree) := by
  have bound := spoiled_length sound
  have fits := sound.here.fits
  have totals : damageLoop [tree] (0,0) = (countedBytes tree,concreteCount tree) := by
    rw [damageLoop_exact (by simpa using sound) (by simp only [List.map_cons,List.map_nil,List.sum_cons,List.sum_nil,countedBytes]; omega)]
    simp
  have hidden : ¬(concreteCount tree = 0 ∧ tree.label.hasError = true) := by
    intro both
    obtain ⟨below,listed,damaged⟩ := sound.here.marked.mp both.2
    have among : below ∈ concreteNodes tree := List.mem_filter.mpr ⟨listed,damaged⟩
    rw [List.eq_nil_of_length_eq_zero both.1] at among
    exact absurd among List.not_mem_nil
  simp only [syntaxDamageScore,totals,if_neg hidden]

theorem diagnosticLoop_exact (file : FileId) {stack : List SyntaxTree} {diagnostics : List Diagnostic}
    (sound : ∀ node ∈ stack, SoundTree node) :
    diagnosticLoop file stack diagnostics = diagnostics ++ (stack.flatMap concreteNodes).map (nodeDiagnostic file) := by
  fun_induction diagnosticLoop file stack diagnostics with
  | case1 diagnostics => simp
  | case2 node stack diagnostics emitted ih =>
    have whole := sound node List.mem_cons_self
    have pushed : (node.children.filter fun child => child.label.hasError || child.label.isError || child.label.isMissing) =
        node.children.filter marked :=
      List.filter_congr fun child listed => (whole.child listed).here.pushed
    have spared : (node.children.filter marked).flatMap concreteNodes = node.children.flatMap concreteNodes :=
      flatMap_filtered concreteNodes marked fun child listed clean => clean_concreteNodes (whole.child listed).here clean
    rw [ih (pushed_sound sound),List.flatMap_append,pushed,spared,List.flatMap_cons,concreteNodes_eq node]
    by_cases damaged : concrete node = true
    · have emits : emitted = diagnostics ++ [nodeDiagnostic file node] := if_pos damaged
      simp [emits,damaged]
    · have emits : emitted = diagnostics := if_neg damaged
      simp [emits,damaged]

theorem diagnosticsForTree_eq (file : FileId) (textLen : Nat) (sound : SoundTree tree) :
    diagnosticsForTree file textLen tree none = (concreteNodes tree).map (nodeDiagnostic file) := by
  have run : diagnosticLoop file [tree] [] = (concreteNodes tree).map (nodeDiagnostic file) := by
    rw [diagnosticLoop_exact file (by simpa using sound)]
    simp
  unfold diagnosticsForTree
  cases damaged : tree.label.hasError with
  | false => simp [clean_concreteNodes sound.here damaged]
  | true =>
    obtain ⟨below,listed,hit⟩ := sound.here.marked.mp damaged
    have among : below ∈ concreteNodes tree := List.mem_filter.mpr ⟨listed,hit⟩
    have some : (diagnosticLoop file [tree] []).isEmpty = false := by
      rw [run,List.isEmpty_eq_false_iff,Ne,List.map_eq_nil_iff]
      intro empty
      rw [empty] at among
      exact absurd among List.not_mem_nil
    simp only [Bool.not_true,Bool.false_eq_true,if_false,some]
    exact run

theorem mem_spoiledBytes {byte : Nat} : byte ∈ spoiledBytes tree ↔ ∃ node ∈ tree.nodes, node.label.isError = true ∧
    (node.label.startByte ≤ byte ∧ byte < node.label.endByte) ∧
      ∀ child ∈ node.children, carriesDamage child = true ∨ child.label.isNamed = true →
        ¬(child.label.startByte ≤ byte ∧ byte < child.label.endByte) := by
  rw [spoiledBytes,List.mem_flatMap]
  refine exists_congr fun node => and_congr_right fun _ => ?_
  unfold ownBytes
  split
  · next error =>
    simp only [mem_uncovered,List.mem_map,List.mem_filter,Bool.or_eq_true,error,true_and]
    refine and_congr_right fun _ => ⟨fun apart child listed selected => ?_,fun apart block among => ?_⟩
    · exact apart (extent child) ⟨child,⟨listed,selected⟩,rfl⟩
    · obtain ⟨child,⟨listed,selected⟩,rfl⟩ := among
      exact apart child listed selected
  · next sane => exact iff_of_false List.not_mem_nil fun both => sane both.1

-- The score counts each node of damage once and each byte that only ERROR nodes hold once; the diagnostics list the same nodes in
-- source order.
theorem syntax_damage_exact (file : FileId) (textLen : Nat) (tree : SyntaxTree) (sound : SoundTree tree) :
    (syntaxDamageScore tree).2 = (tree.nodes.filter concrete).length ∧
    diagnosticsForTree file textLen tree none = (tree.nodes.filter concrete).map (nodeDiagnostic file) ∧
    (diagnosticsForTree file textLen tree none).length = (syntaxDamageScore tree).2 ∧
    (syntaxDamageScore tree).1 = (spoiledBytes tree).length ∧ (spoiledBytes tree).Nodup ∧
    (∀ byte, byte ∈ spoiledBytes tree ↔ ∃ node ∈ tree.nodes, node.label.isError = true ∧
      (node.label.startByte ≤ byte ∧ byte < node.label.endByte) ∧
        ∀ child ∈ node.children, carriesDamage child = true ∨ child.label.isNamed = true →
          ¬(child.label.startByte ≤ byte ∧ byte < child.label.endByte)) ∧
    (syntaxDamageScore tree).1 ≤ tree.label.endByte - tree.label.startByte := by
  have score := syntaxDamageScore_eq sound
  have diagnostics := diagnosticsForTree_eq file textLen sound
  have count : (syntaxDamageScore tree).2 = (tree.nodes.filter concrete).length := congrArg Prod.snd score
  have bytes : (syntaxDamageScore tree).1 = (spoiledBytes tree).length := congrArg Prod.fst score
  refine ⟨count,diagnostics,?_,bytes,spoiled_nodup sound,fun byte => mem_spoiledBytes,?_⟩
  · rw [diagnostics,List.length_map,count]
    rfl
  · rw [bytes]
    exact spoiled_length sound

def missingBrace : SyntaxTree := .node ⟨['}'],6,6,false,false,true,true⟩ []

def brokenCall : SyntaxTree :=
  .node ⟨['c','a','l','l'],2,6,true,false,false,true⟩ [.node ⟨['E','R','R','O','R'],3,5,true,true,false,true⟩ [],missingBrace]

def brokenUnit : SyntaxTree :=
  .node ⟨['E','R','R','O','R'],0,9,true,true,false,true⟩
    [.node ⟨['x'],0,2,false,false,false,false⟩ [],brokenCall,.node ⟨['i','d'],7,8,true,false,false,false⟩ []]

theorem brokenUnit_sound : SoundTree brokenUnit := by
  intro below listed
  simp only [brokenUnit,brokenCall,missingBrace,OrderedTree.nodes,OrderedTree.nodesOf,List.append_nil,List.nil_append,List.cons_append,
    List.mem_cons,List.not_mem_nil,or_false] at listed
  rcases listed with rfl | rfl | rfl | rfl | rfl | rfl
  all_goals
    refine ⟨?_,by decide,by decide,?_⟩
    · simp [Laid,extent]
    · simp [OrderedTree.nodes,OrderedTree.nodesOf,concrete]

theorem brokenUnit_damage :
    (syntaxDamageScore brokenUnit).2 = (brokenUnit.nodes.filter concrete).length ∧
    diagnosticsForTree 0 9 brokenUnit none = (brokenUnit.nodes.filter concrete).map (nodeDiagnostic 0) ∧
    (diagnosticsForTree 0 9 brokenUnit none).length = (syntaxDamageScore brokenUnit).2 ∧
    (syntaxDamageScore brokenUnit).1 = (spoiledBytes brokenUnit).length ∧ (spoiledBytes brokenUnit).Nodup ∧
    (∀ byte, byte ∈ spoiledBytes brokenUnit ↔ ∃ node ∈ brokenUnit.nodes, node.label.isError = true ∧
      (node.label.startByte ≤ byte ∧ byte < node.label.endByte) ∧
        ∀ child ∈ node.children, carriesDamage child = true ∨ child.label.isNamed = true →
          ¬(child.label.startByte ≤ byte ∧ byte < child.label.endByte)) ∧
    (syntaxDamageScore brokenUnit).1 ≤ brokenUnit.label.endByte - brokenUnit.label.startByte :=
  syntax_damage_exact 0 9 brokenUnit brokenUnit_sound

end BonsaiNinja.Parser
