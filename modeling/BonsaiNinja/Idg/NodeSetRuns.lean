import BonsaiNinja.Idg.NodeBitSet
import Mathlib.Data.Finset.Card

namespace BonsaiNinja.Library.WordBits

theorem setBits_zero : setBits (0#w) = [] := by
  rw [setBits,dif_pos rfl]

theorem setBits_ascending (x : BitVec w) : (setBits x).Pairwise (· < ·) := by
  fun_induction setBits x with
  | case1 => exact .nil
  | case2 x nonzero ih =>
    refine List.pairwise_cons.mpr ⟨fun i member => ?_,ih⟩
    rw [mem_setBits,getLsbD_and_sub_one nonzero,Bool.and_eq_true,decide_eq_true_eq] at member
    refine Nat.lt_of_le_of_ne (Nat.le_of_not_lt fun below => ?_) (Ne.symm member.2)
    rw [BitVec.getLsbD_false_of_lt_ctz below] at member
    cases member.1

theorem cpopNatRec_eq_length (x : BitVec w) (n : Nat) : x.cpopNatRec n 0 = ((List.range n).filter x.getLsbD).length := by
  induction n with
  | zero => rfl
  | succ n ih =>
    rw [BitVec.cpopNatRec_succ,BitVec.cpopNatRec_eq,ih,List.range_succ,List.filter_append,List.length_append]
    cases set : x.getLsbD n <;> simp [set]

theorem cpop_eq_length (x : BitVec w) : x.cpop.toNat = (setBits x).length := by
  rw [BitVec.toNat_cpop,cpopNatRec_eq_length]
  apply List.Perm.length_eq
  rw [List.perm_ext_iff_of_nodup (List.nodup_range.filter _) ((setBits_ascending x).imp Nat.ne_of_lt)]
  intro i
  rw [mem_setBits,List.mem_filter,List.mem_range]
  exact ⟨fun found => found.2,fun set => ⟨BitVec.lt_of_getLsbD set,set⟩⟩

end BonsaiNinja.Library.WordBits

namespace BonsaiNinja.Idg
open Library

namespace NodeBitSet

-- In place the words become those of the new set.
def intersectInplace (a b : NodeBitSet) (same : a.len = b.len) : NodeBitSet := a.intersect b same

def differenceInplace (a b : NodeBitSet) (same : a.len = b.len) : NodeBitSet := a.difference b same

def popcount (s : NodeBitSet) : Nat := (s.bits.map (·.cpop.toNat)).sum

-- The derived equality: the raw words and the length.
def eq (a b : NodeBitSet) : Bool := a.bits == b.bits && a.len == b.len

end NodeBitSet

structure NodeBitSetIter where
  bits : List (BitVec 64)
  wordIdx : Nat
  curWord : BitVec 64
  len : Nat

namespace NodeBitSetIter

def next (walk : NodeBitSetIter) : Option (UInt32 × NodeBitSetIter) :=
  if walk.curWord ≠ 0#64 then
    let nid := walk.wordIdx * 64 + walk.curWord.ctz.toNat
    if walk.len ≤ nid then none
    else some (UInt32.ofNat nid,{ walk with curWord := walk.curWord &&& (walk.curWord - 1#64) })
  else if walk.bits.length ≤ walk.wordIdx + 1 then none
  else next { walk with wordIdx := walk.wordIdx + 1, curWord := wordAt walk.bits (walk.wordIdx + 1) }
termination_by walk.bits.length - walk.wordIdx

def ahead (walk : NodeBitSetIter) : List Nat :=
  (WordBits.setBits walk.curWord).map (walk.wordIdx * 64 + ·) ++
    (walk.bits.zipIdx.drop (walk.wordIdx + 1)).flatMap fun word => (WordBits.setBits word.1).map (word.2 * 64 + ·)

theorem ahead_moves (walk : NodeBitSetIter) (read : walk.curWord = 0#64) (more : walk.wordIdx + 1 < walk.bits.length) :
    walk.ahead = ahead { walk with wordIdx := walk.wordIdx + 1, curWord := wordAt walk.bits (walk.wordIdx + 1) } := by
  have word : wordAt walk.bits (walk.wordIdx + 1) = walk.bits[walk.wordIdx + 1] := by
    rw [wordAt,List.getD_eq_getElem _ _ more]
  unfold ahead
  rw [read,word,List.drop_eq_getElem_cons (by rwa [List.length_zipIdx]),List.flatMap_cons,List.getElem_zipIdx]
  simp [WordBits.setBits_zero]

theorem ahead_reads (walk : NodeBitSetIter) (unread : walk.curWord ≠ 0#64) :
    walk.ahead = (walk.wordIdx * 64 + walk.curWord.ctz.toNat) ::
      ahead { walk with curWord := walk.curWord &&& (walk.curWord - 1#64) } := by
  unfold ahead
  rw [WordBits.setBits,dif_neg unread]
  rfl

theorem next_some (walk after : NodeBitSetIter) (node : UInt32) (moved : walk.next = some (node,after)) :
    ∃ nid, node = UInt32.ofNat nid ∧ nid < walk.len ∧ walk.ahead = nid :: after.ahead ∧ after.len = walk.len := by
  fun_induction next walk with
  | case1 => cases moved
  | case2 walk unread nid inside =>
    cases moved
    exact ⟨nid,rfl,Nat.lt_of_not_le inside,walk.ahead_reads unread,rfl⟩
  | case3 => cases moved
  | case4 walk read more ih =>
    rw [walk.ahead_moves (not_not.mp read) (Nat.lt_of_not_le more)]
    exact ih moved

theorem next_none (walk : NodeBitSetIter) (stopped : walk.next = none) : walk.ahead.takeWhile (· < walk.len) = [] := by
  fun_induction next walk with
  | case1 walk unread nid outside =>
    rw [walk.ahead_reads unread]
    exact List.takeWhile_cons_of_neg (by simpa using outside)
  | case2 => cases stopped
  | case3 walk read done =>
    rw [ahead,not_not.mp read,List.drop_eq_nil_of_le (by rwa [List.length_zipIdx])]
    simp [WordBits.setBits_zero]
  | case4 walk read more ih =>
    rw [walk.ahead_moves (not_not.mp read) (Nat.lt_of_not_le more)]
    exact ih stopped

def collect (walk : NodeBitSetIter) : List UInt32 :=
  match moved : walk.next with
  | none => []
  | some (node,after) => node :: collect after
termination_by walk.ahead.length
decreasing_by
  obtain ⟨nid,-,-,ahead,-⟩ := next_some _ _ _ moved
  rw [ahead]
  exact Nat.lt_succ_self _

theorem collect_eq (walk : NodeBitSetIter) : walk.collect = (walk.ahead.takeWhile (· < walk.len)).map UInt32.ofNat := by
  fun_induction collect walk with
  | case1 walk stopped => rw [next_none walk stopped,List.map_nil]
  | case2 walk node after moved ih =>
    obtain ⟨nid,rfl,inside,ahead,kept⟩ := next_some _ _ _ moved
    rw [ahead,List.takeWhile_cons_of_pos (by simpa using inside),List.map_cons,ih,kept]

end NodeBitSetIter

namespace NodeBitSet

def intoIter (s : NodeBitSet) : NodeBitSetIter := ⟨s.bits,0,if s.bits.isEmpty then 0#64 else wordAt s.bits 0,s.len⟩

theorem collect_eq_iter (s : NodeBitSet) : s.intoIter.collect = s.iter.map UInt32.ofNat := by
  rw [NodeBitSetIter.collect_eq,iter]
  unfold NodeBitSetIter.ahead intoIter
  cases s.bits with
  | nil => simp [WordBits.setBits_zero]
  | cons word words => simp [wordAt]

theorem iter_ascending (s : NodeBitSet) : s.iter.Pairwise (· < ·) := by
  refine (List.pairwise_flatMap.mpr ⟨fun word _ => ?_,?_⟩).sublist (List.takeWhile_sublist _)
  · exact List.pairwise_map.mpr ((WordBits.setBits_ascending word.1).imp fun below => Nat.add_lt_add_left below _)
  · refine List.pairwise_iff_getElem.mpr fun i j iInside jInside before x inX y inY => ?_
    rw [List.getElem_zipIdx] at inX inY
    obtain ⟨bit,inWord,rfl⟩ := List.mem_map.mp inX
    obtain ⟨other,-,rfl⟩ := List.mem_map.mp inY
    have below := BitVec.lt_of_getLsbD (WordBits.mem_setBits.mp inWord)
    change (0 + i) * 64 + bit < (0 + j) * 64 + other
    omega

theorem popcount_eq_length (s : NodeBitSet) : s.popcount = s.iter.length := by
  rw [popcount,iter,List.takeWhile_eq_self_iff.mpr fun i member => decide_eq_true (contains_inside ((s.mem_scan i).mp member)),
    List.length_flatMap]
  simp only [List.length_map,← WordBits.cpop_eq_length]
  conv_lhs => rw [← List.zipIdx_map_fst 0 s.bits,List.map_map]
  rfl

theorem eq_iff (a b : NodeBitSet) (same : a.len = b.len) : a.eq b = true ↔ ∀ i, a.contains i = b.contains i := by
  rw [eq,Bool.and_eq_true,beq_iff_eq,beq_iff_eq,and_iff_left same]
  refine ⟨fun equal i => by rw [contains_eq_bitAt,contains_eq_bitAt,equal],fun agree => ?_⟩
  refine List.ext_getElem (by rw [a.sized,b.sized,same]) fun i inA inB => BitVec.eq_of_getLsbD_eq fun bit below => ?_
  rw [← a.getElem_contains inA below,← b.getElem_contains inB below,agree]

-- The set holds these members: no other id, and nothing beyond the ids.
structure Holds (s : NodeBitSet) (members : Finset UInt32) : Prop where
  agrees : ∀ node : UInt32, s.contains node.toNat = true ↔ node ∈ members
  addressed : ∀ i, s.contains i = true → i < UInt32.size

variable {s a b : NodeBitSet} {members left right : Finset UInt32}

theorem Holds.combine {result : NodeBitSet} {joined : Finset UInt32} {g : Bool → Bool → Bool} (heldA : a.Holds left) (heldB : b.Holds right)
    (clear : g false false = false) (bitwise : ∀ i, result.contains i = g (a.contains i) (b.contains i))
    (meant : ∀ node, node ∈ joined ↔ g (decide (node ∈ left)) (decide (node ∈ right)) = true) : result.Holds joined := by
  have shown : ∀ {s : NodeBitSet} {members : Finset UInt32}, s.Holds members → ∀ node : UInt32, s.contains node.toNat = decide (node ∈ members) :=
    fun held node => by rw [Bool.eq_iff_iff,held.agrees,decide_eq_true_eq]
  refine ⟨fun node => by rw [bitwise,shown heldA,shown heldB,meant],fun i found => ?_⟩
  by_contra outside
  have bareA : a.contains i = false := Bool.eq_false_iff.mpr fun set => outside (heldA.addressed i set)
  have bareB : b.contains i = false := Bool.eq_false_iff.mpr fun set => outside (heldB.addressed i set)
  rw [bitwise,bareA,bareB,clear] at found
  cases found

theorem Holds.mem_iter (held : s.Holds members) (node : UInt32) : node ∈ s.intoIter.collect ↔ node ∈ members := by
  rw [collect_eq_iter,List.mem_map,← held.agrees]
  constructor
  · intro ⟨i,member,found⟩
    have set := (s.mem_iter i).mp member
    rw [← found,UInt32.toNat_ofNat_of_lt' (held.addressed i set)]
    exact set
  · exact fun member => ⟨node.toNat,(s.mem_iter _).mpr member,UInt32.ofNat_toNat⟩

theorem Holds.ascending (held : s.Holds members) : s.intoIter.collect.Pairwise (· < ·) := by
  rw [collect_eq_iter]
  refine List.pairwise_map.mpr (s.iter_ascending.imp_of_mem fun inI inJ below => ?_)
  rw [UInt32.lt_iff_toNat_lt,UInt32.toNat_ofNat_of_lt' (held.addressed _ ((s.mem_iter _).mp inI)),
    UInt32.toNat_ofNat_of_lt' (held.addressed _ ((s.mem_iter _).mp inJ))]
  exact below

theorem Holds.popcount (held : s.Holds members) : s.popcount = members.card := by
  have listed : s.intoIter.collect.toFinset = members := by
    ext node
    rw [List.mem_toFinset,held.mem_iter]
  rw [popcount_eq_length,← listed,List.toFinset_card_of_nodup (held.ascending.imp UInt32.ne_of_lt),collect_eq_iter,List.length_map]

theorem Holds.isZero (held : s.Holds members) : s.isZero = true ↔ members = ∅ := by
  rw [isZero_iff,Finset.eq_empty_iff_forall_notMem]
  constructor
  · intro clear node member
    have set := (held.agrees node).mpr member
    rw [clear] at set
    cases set
  · intro empty i
    by_contra set
    have member := (held.agrees (UInt32.ofNat i)).mp
      (by rw [UInt32.toNat_ofNat_of_lt' (held.addressed i (by simpa using set))]; simpa using set)
    exact empty _ member

theorem Holds.insert (held : s.Holds members) (node : UInt32) :
    (s.insert node.toNat).2 = true ↔ node.toNat < s.len ∧ node ∉ members := by
  rw [insert_changed,← held.agrees,Bool.not_eq_true]

theorem Holds.eq (same : a.len = b.len) (heldA : a.Holds left) (heldB : b.Holds right) : a.eq b = true ↔ left = right := by
  rw [eq_iff a b same]
  constructor
  · intro agree
    ext node
    rw [← heldA.agrees,← heldB.agrees,agree]
  · intro equal i
    rw [Bool.eq_iff_iff]
    by_cases inside : i < UInt32.size
    · rw [← UInt32.toNat_ofNat_of_lt' inside,heldA.agrees,heldB.agrees,equal]
    · exact ⟨fun set => absurd (heldA.addressed i set) inside,fun set => absurd (heldB.addressed i set) inside⟩

end NodeBitSet

-- A step of a program over sets of one length.
inductive SetOp where
  | zeros (target : Nat)
  | fromSeed (target : Nat) (seed : List UInt32)
  | set (target : Nat) (node : UInt32)
  | insert (target : Nat) (node : UInt32)
  | clear (target : Nat) (node : UInt32)
  | unionInplace (target other : Nat)
  | intersectInplace (target other : Nat)
  | intersect (target left right : Nat)
  | differenceInplace (target other : Nat)
  | difference (target left right : Nat)

abbrev NodeSets (len : Nat) := Nat → {s : NodeBitSet // s.len = len}

namespace SetOp

def target : SetOp → Nat
  | zeros target | fromSeed target _ | set target _ | insert target _ | clear target _ | unionInplace target _
  | intersectInplace target _ | intersect target _ _ | differenceInplace target _ | difference target _ _ => target

variable {len : Nat}

def value (sets : NodeSets len) : SetOp → {s : NodeBitSet // s.len = len}
  | zeros _ => ⟨.zeros len,rfl⟩
  | fromSeed _ seed => ⟨.fromSeed len (seed.map (·.toNat)),NodeBitSet.fromSeed_len _ _⟩
  | set target node => ⟨(sets target).1.set node.toNat,by rw [NodeBitSet.set_len,(sets target).2]⟩
  | insert target node => ⟨((sets target).1.insert node.toNat).1,(NodeBitSet.set_len _ _).trans (sets target).2⟩
  | clear target node => ⟨(sets target).1.clear node.toNat,by rw [NodeBitSet.clear_len,(sets target).2]⟩
  | unionInplace a b => ⟨(sets a).1.unionInplace (sets b).1 ((sets a).2.trans (sets b).2.symm),(sets a).2⟩
  | intersectInplace a b => ⟨(sets a).1.intersectInplace (sets b).1 ((sets a).2.trans (sets b).2.symm),(sets a).2⟩
  | intersect _ a b => ⟨(sets a).1.intersect (sets b).1 ((sets a).2.trans (sets b).2.symm),(sets a).2⟩
  | differenceInplace a b => ⟨(sets a).1.differenceInplace (sets b).1 ((sets a).2.trans (sets b).2.symm),(sets a).2⟩
  | difference _ a b => ⟨(sets a).1.difference (sets b).1 ((sets a).2.trans (sets b).2.symm),(sets a).2⟩

-- What the step means for the sets of ids: an id out of range changes nothing.
def meaning (len : Nat) (members : Nat → Finset UInt32) : SetOp → Finset UInt32
  | zeros _ => ∅
  | fromSeed _ seed => seed.toFinset.filter (·.toNat < len)
  | set target node | insert target node => if node.toNat < len then Insert.insert node (members target) else members target
  | clear target node => (members target).erase node
  | unionInplace a b => members a ∪ members b
  | intersectInplace a b | intersect _ a b => members a ∩ members b
  | differenceInplace a b | difference _ a b => members a \ members b

def step (sets : NodeSets len) (op : SetOp) : NodeSets len := Function.update sets op.target (op.value sets)

def effect (len : Nat) (members : Nat → Finset UInt32) (op : SetOp) : Nat → Finset UInt32 :=
  Function.update members op.target (op.meaning len members)

theorem set_holds {s : NodeBitSet} {members : Finset UInt32} (held : s.Holds members) (sized : s.len = len) (node : UInt32) :
    (s.set node.toNat).Holds (if node.toNat < len then Insert.insert node members else members) := by
  refine ⟨fun other => ?_,fun i found => ?_⟩
  · rw [NodeBitSet.set_contains,held.agrees,UInt32.toNat_inj,sized]
    split
    · next inside => rw [Finset.mem_insert,and_iff_left inside,or_comm]
    · next outside => rw [or_iff_left fun new => outside new.2]
  · rcases (NodeBitSet.set_contains _ _ _).mp found with old | new
    · exact held.addressed i old
    · exact new.1 ▸ node.toNat_lt

theorem value_holds {sets : NodeSets len} {members : Nat → Finset UInt32} (held : ∀ i, (sets i).1.Holds (members i)) (op : SetOp) :
    (op.value sets).1.Holds (op.meaning len members) := by
  have sized : ∀ a b, (sets a).1.len = (sets b).1.len := fun a b => (sets a).2.trans (sets b).2.symm
  cases op with
  | zeros _ =>
    refine ⟨fun node => ?_,fun i found => ?_⟩
    · simp [value,meaning]
    · simp [value] at found
  | fromSeed _ seed =>
    refine ⟨fun node => ?_,fun i found => ?_⟩
    · rw [value,NodeBitSet.fromSeed_contains,List.mem_map_of_injective fun a b => UInt32.toNat_inj.mp]
      simp [meaning]
    · obtain ⟨node,-,rfl⟩ := List.mem_map.mp ((NodeBitSet.fromSeed_contains _ _ _).mp found).1
      exact node.toNat_lt
  | set target node | insert target node => exact set_holds (held target) (sets target).2 node
  | clear target node =>
    refine ⟨fun other => ?_,fun i found => (held target).addressed i ((NodeBitSet.clear_contains _ _ _).mp found).1⟩
    rw [value,NodeBitSet.clear_contains,(held target).agrees,meaning,Finset.mem_erase,ne_eq,UInt32.toNat_inj,and_comm]
  | unionInplace a b => exact (held a).combine (held b) rfl (NodeBitSet.unionInplace_contains _ _ (sized a b)) (by simp [meaning])
  | intersectInplace a b | intersect _ a b =>
    exact (held a).combine (held b) rfl (NodeBitSet.intersect_contains _ _ (sized a b)) (by simp [meaning])
  | differenceInplace a b | difference _ a b =>
    exact NodeBitSet.Holds.combine (g := fun x y => x && !y) (held a) (held b) rfl
      (NodeBitSet.difference_contains _ _ (sized a b)) (by simp [meaning])

theorem step_holds {sets : NodeSets len} {members : Nat → Finset UInt32} (held : ∀ i, (sets i).1.Holds (members i)) (op : SetOp) :
    ∀ i, (step sets op i).1.Holds (effect len members op i) := by
  intro i
  by_cases same : i = op.target
  · subst same
    rw [step,effect,Function.update_self,Function.update_self]
    exact value_holds held op
  · rw [step,effect,Function.update_of_ne same,Function.update_of_ne same]
    exact held i

def run (len : Nat) (ops : List SetOp) : NodeSets len := ops.foldl step fun _ => ⟨.zeros len,rfl⟩

def meant (len : Nat) (ops : List SetOp) : Nat → Finset UInt32 := ops.foldl (effect len) fun _ => ∅

theorem fold_holds {sets : NodeSets len} {members : Nat → Finset UInt32} (held : ∀ i, (sets i).1.Holds (members i)) (ops : List SetOp) :
    ∀ i, (ops.foldl step sets i).1.Holds (ops.foldl (effect len) members i) := by
  induction ops generalizing sets members with
  | nil => exact held
  | cons op ops ih => exact ih (step_holds held op)

theorem run_holds (len : Nat) (ops : List SetOp) : ∀ i, (run len ops i).1.Holds (meant len ops i) :=
  fold_holds (fun _ => ⟨fun node => by simp,fun i found => by simp at found⟩) ops

end SetOp

-- What a set answers, for the ids it stands for.
structure NodeBitSet.Extensional (s : NodeBitSet) (members : Finset UInt32) : Prop where
  contains : ∀ node : UInt32, s.contains node.toNat = true ↔ node ∈ members
  listed : ∀ node, node ∈ s.intoIter.collect ↔ node ∈ members
  ascending : s.intoIter.collect.Pairwise (· < ·)
  popcount : s.popcount = members.card
  isZero : s.isZero = true ↔ members = ∅
  inserts : ∀ node : UInt32, (s.insert node.toNat).2 = true ↔ node.toNat < s.len ∧ node ∉ members
  masked : ∀ i, s.len ≤ i → bitAt s.bits i = false

-- After any program over sets of one length every set is the set of ids that the program means,
-- and two sets have equal words exactly when they have equal members.
theorem nodeBitSet_extensional (len : Nat) (ops : List SetOp) (i j : Nat) :
    (SetOp.run len ops i).1.Extensional (SetOp.meant len ops i) ∧
      ((SetOp.run len ops i).1.eq (SetOp.run len ops j).1 = true ↔ SetOp.meant len ops i = SetOp.meant len ops j) := by
  have held := SetOp.run_holds len ops
  have same := (SetOp.run len ops i).2.trans (SetOp.run len ops j).2.symm
  exact ⟨⟨(held i).agrees,(held i).mem_iter,(held i).ascending,(held i).popcount,(held i).isZero,(held i).insert,(SetOp.run len ops i).1.masked⟩,
    NodeBitSet.Holds.eq same (held i) (held j)⟩

end BonsaiNinja.Idg
