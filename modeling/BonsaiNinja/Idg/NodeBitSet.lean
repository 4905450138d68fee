import BonsaiNinja.Idg.Place
import BonsaiNinja.Library.WordBits
import Mathlib.Data.List.TakeWhile

namespace BonsaiNinja.Idg
open Library

def wordAt (bits : List (BitVec 64)) (i : Nat) : BitVec 64 := bits.getD i 0#64

def bitAt (bits : List (BitVec 64)) (i : Nat) : Bool := (wordAt bits (i / 64)).getLsbD (i % 64)

-- The last word may have unused high bits, which stay clear.
structure NodeBitSet where
  bits : List (BitVec 64)
  len : Nat
  sized : bits.length = (len + 63) / 64
  masked : ∀ i, len ≤ i → bitAt bits i = false

def nodeMask (node : NodeId) : BitVec 64 := 1#64 <<< (node % 64)

theorem getLsbD_nodeMask (node i : Nat) (inside : i < 64) : (nodeMask node).getLsbD i = decide (i = node % 64) := by
  simp only [nodeMask,BitVec.getLsbD_shiftLeft,BitVec.getLsbD_one]
  grind

theorem bitAt_zipWith {f : BitVec 64 → BitVec 64 → BitVec 64} {g : Bool → Bool → Bool} {a b : List (BitVec 64)}
    (bitwise : ∀ x y i, i < 64 → (f x y).getLsbD i = g (x.getLsbD i) (y.getLsbD i)) (zero : f 0#64 0#64 = 0#64)
    (same : a.length = b.length) (i : Nat) : bitAt (List.zipWith f a b) i = g (bitAt a i) (bitAt b i) := by
  have word : wordAt (List.zipWith f a b) (i / 64) = f (wordAt a (i / 64)) (wordAt b (i / 64)) := by
    unfold wordAt
    by_cases inside : i / 64 < a.length
    · have other : i / 64 < b.length := same ▸ inside
      simp [List.getD_eq_getElem?_getD,List.getElem?_zipWith,List.getElem?_eq_getElem inside,List.getElem?_eq_getElem other]
    · have other : ¬ i / 64 < b.length := same ▸ inside
      simp [List.getD_eq_getElem?_getD,List.getElem?_zipWith,inside,other,zero]
  rw [bitAt,word,bitwise _ _ _ (Nat.mod_lt _ (by decide)),bitAt,bitAt]

theorem bitAt_set {bits : List (BitVec 64)} {node : NodeId} (word : BitVec 64) (inside : node / 64 < bits.length) (i : Nat) :
    bitAt (bits.set (node / 64) word) i = if i / 64 = node / 64 then word.getLsbD (i % 64) else bitAt bits i := by
  unfold bitAt wordAt
  simp only [List.getD_eq_getElem?_getD,List.getElem?_set,inside]
  by_cases same : i / 64 = node / 64
  · simp [same]
  · simp [same,Ne.symm same]

theorem word_of_inside {i len : Nat} (inside : i < len) : i / 64 < (len + 63) / 64 := by
  omega

theorem eq_of_word_and_offset {i node : Nat} (word : i / 64 = node / 64) (offset : i % 64 = node % 64) : i = node := by
  omega

namespace NodeBitSet

def zeros (len : Nat) : NodeBitSet where
  bits := List.replicate ((len + 63) / 64) 0#64
  len := len
  sized := List.length_replicate
  masked i _ := by simp [bitAt,wordAt,List.getD_eq_getElem?_getD,List.getElem?_replicate]; split <;> simp

theorem word_inside (s : NodeBitSet) {node : NodeId} (inside : node < s.len) : node / 64 < s.bits.length := by
  rw [s.sized]
  exact word_of_inside inside

-- Whether an in-range bit changed from zero to one comes with the new set.
def insert (s : NodeBitSet) (node : NodeId) : NodeBitSet × Bool :=
  if outside : s.len ≤ node then (s,false)
  else
    let word := wordAt s.bits (node / 64)
    ({ bits := s.bits.set (node / 64) (word ||| nodeMask node)
       len := s.len
       sized := by rw [List.length_set]; exact s.sized
       masked := by
         intro i beyond
         rw [bitAt_set _ (s.word_inside (Nat.lt_of_not_le outside))]
         split
         · next same =>
           have other : i % 64 ≠ node % 64 := fun offset => outside (eq_of_word_and_offset same offset ▸ beyond)
           have unset := s.masked i beyond
           rw [bitAt,same] at unset
           rw [BitVec.getLsbD_or,getLsbD_nodeMask _ _ (Nat.mod_lt _ (by decide)),unset]
           simpa using other
         · exact s.masked i beyond },
     word &&& nodeMask node == 0#64)

def set (s : NodeBitSet) (node : NodeId) : NodeBitSet := (s.insert node).1

def clear (s : NodeBitSet) (node : NodeId) : NodeBitSet :=
  if outside : s.len ≤ node then s
  else
    { bits := s.bits.set (node / 64) (wordAt s.bits (node / 64) &&& ~~~nodeMask node)
      len := s.len
      sized := by rw [List.length_set]; exact s.sized
      masked := by
        intro i beyond
        rw [bitAt_set _ (s.word_inside (Nat.lt_of_not_le outside))]
        split
        · next same =>
          have unset := s.masked i beyond
          rw [bitAt,same] at unset
          rw [BitVec.getLsbD_and,unset,Bool.false_and]
        · exact s.masked i beyond }

def contains (s : NodeBitSet) (node : NodeId) : Bool :=
  if s.len ≤ node then false else (wordAt s.bits (node / 64) &&& nodeMask node) != 0#64

def fromSeed (len : Nat) (seed : List NodeId) : NodeBitSet := seed.foldl set (zeros len)

theorem contains_eq_bitAt (s : NodeBitSet) (node : NodeId) : s.contains node = bitAt s.bits node := by
  unfold contains
  split
  · next outside => exact (s.masked node outside).symm
  · exact WordBits.and_mask_ne_zero (Nat.mod_lt _ (by decide))

theorem contains_inside {s : NodeBitSet} {node : NodeId} (member : s.contains node = true) : node < s.len := by
  unfold contains at member
  split at member
  · cases member
  · next inside => exact Nat.lt_of_not_le inside

-- The binary operations abort on different lengths.
def combine (f : BitVec 64 → BitVec 64 → BitVec 64) (g : Bool → Bool → Bool)
    (bitwise : ∀ x y i, i < 64 → (f x y).getLsbD i = g (x.getLsbD i) (y.getLsbD i)) (zero : f 0#64 0#64 = 0#64)
    (clear : g false false = false) (a b : NodeBitSet) (same : a.len = b.len) : NodeBitSet where
  bits := List.zipWith f a.bits b.bits
  len := a.len
  sized := by rw [List.length_zipWith,a.sized,b.sized,same,Nat.min_self]
  masked i beyond := by
    rw [bitAt_zipWith bitwise zero (by rw [a.sized,b.sized,same]),a.masked i beyond,b.masked i (same ▸ beyond),clear]

def unionInplace (a b : NodeBitSet) (same : a.len = b.len) : NodeBitSet :=
  combine (· ||| ·) (· || ·) (fun _ _ _ _ => BitVec.getLsbD_or) rfl rfl a b same

def intersect (a b : NodeBitSet) (same : a.len = b.len) : NodeBitSet :=
  combine (· &&& ·) (· && ·) (fun _ _ _ _ => BitVec.getLsbD_and) rfl rfl a b same

def difference (a b : NodeBitSet) (same : a.len = b.len) : NodeBitSet :=
  combine (fun x y => x &&& ~~~y) (fun x y => x && !y) (fun x y i inside => by simp [inside]) rfl rfl a b same

def isZero (s : NodeBitSet) : Bool := s.bits.all (· == 0#64)

-- Ascending: word by word, lowest bit first, up to the first position outside.
def iter (s : NodeBitSet) : List NodeId :=
  (s.bits.zipIdx.flatMap fun word => (WordBits.setBits word.1).map (word.2 * 64 + ·)).takeWhile (· < s.len)

@[simp] theorem zeros_len (len : Nat) : (zeros len).len = len := rfl

@[simp] theorem set_len (s : NodeBitSet) (node : NodeId) : (s.set node).len = s.len := by
  unfold set insert
  split <;> rfl

@[simp] theorem unionInplace_len (a b : NodeBitSet) (same : a.len = b.len) : (a.unionInplace b same).len = a.len := rfl

@[simp] theorem difference_len (a b : NodeBitSet) (same : a.len = b.len) : (a.difference b same).len = a.len := rfl

theorem fold_set_len (s : NodeBitSet) (nodes : List NodeId) : (nodes.foldl set s).len = s.len := by
  induction nodes generalizing s with
  | nil => rfl
  | cons node rest ih => exact (ih (s.set node)).trans (set_len s node)

@[simp] theorem fromSeed_len (len : Nat) (seed : List NodeId) : (fromSeed len seed).len = len := fold_set_len _ _

@[simp] theorem zeros_contains (len : Nat) (node : NodeId) : (zeros len).contains node = false := by
  rw [contains_eq_bitAt]
  simp only [bitAt,wordAt,zeros,List.getD_eq_getElem?_getD,List.getElem?_replicate]
  split <;> simp

theorem set_contains (s : NodeBitSet) (node i : NodeId) :
    (s.set node).contains i = true ↔ s.contains i = true ∨ (i = node ∧ node < s.len) := by
  rw [contains_eq_bitAt,contains_eq_bitAt]
  unfold set insert
  split
  · next outside => exact ⟨.inl,fun found => found.elim id fun new => absurd new.2 (Nat.not_lt.mpr outside)⟩
  · next inside =>
    have below : node < s.len := Nat.lt_of_not_le inside
    rw [bitAt_set _ (s.word_inside below)]
    split
    · next same =>
      rw [BitVec.getLsbD_or,getLsbD_nodeMask _ _ (Nat.mod_lt _ (by decide)),bitAt,same,Bool.or_eq_true,decide_eq_true_eq]
      exact or_congr_right ⟨fun offset => ⟨eq_of_word_and_offset same offset,below⟩,fun found => by rw [found.1]⟩
    · next other => exact ⟨.inl,fun found => found.elim id fun new => absurd (congrArg (· / 64) new.1) other⟩

theorem clear_contains (s : NodeBitSet) (node i : NodeId) :
    (s.clear node).contains i = true ↔ s.contains i = true ∧ i ≠ node := by
  rw [contains_eq_bitAt,contains_eq_bitAt]
  unfold clear
  split
  · next outside =>
    refine ⟨fun found => ⟨found,fun same => ?_⟩,fun found => found.1⟩
    rw [s.masked i (same ▸ outside)] at found
    cases found
  · next inside =>
    rw [bitAt_set _ (s.word_inside (Nat.lt_of_not_le inside))]
    split
    · next same =>
      rw [BitVec.getLsbD_and,BitVec.getLsbD_not,getLsbD_nodeMask _ _ (Nat.mod_lt _ (by decide)),bitAt,same]
      simp only [Nat.mod_lt i (by decide : 0 < 64),decide_true,Bool.true_and,Bool.and_eq_true,Bool.not_eq_true',
        decide_eq_false_iff_not]
      exact and_congr_right fun _ => not_congr ⟨fun offset => eq_of_word_and_offset same offset,fun equal => by rw [equal]⟩
    · next other => exact ⟨fun found => ⟨found,fun equal => other (congrArg (· / 64) equal)⟩,fun found => found.1⟩

@[simp] theorem clear_len (s : NodeBitSet) (node : NodeId) : (s.clear node).len = s.len := by
  unfold clear
  split <;> rfl

theorem insert_changed (s : NodeBitSet) (node : NodeId) :
    (s.insert node).2 = true ↔ node < s.len ∧ s.contains node = false := by
  unfold insert contains
  split
  · next outside => simp [Nat.not_lt.mpr outside]
  · next inside => simp [Nat.lt_of_not_le inside]

theorem fold_set_contains (s : NodeBitSet) (nodes : List NodeId) (i : NodeId) :
    (nodes.foldl set s).contains i = true ↔ s.contains i = true ∨ (i ∈ nodes ∧ i < s.len) := by
  induction nodes generalizing s with
  | nil => simp
  | cons node rest ih =>
    rw [List.foldl_cons,ih,set_contains,set_len,List.mem_cons]
    constructor
    · rintro ((old | ⟨rfl,inside⟩) | ⟨later,inside⟩)
      · exact .inl old
      · exact .inr ⟨.inl rfl,inside⟩
      · exact .inr ⟨.inr later,inside⟩
    · rintro (old | ⟨rfl | later,inside⟩)
      · exact .inl (.inl old)
      · exact .inl (.inr ⟨rfl,inside⟩)
      · exact .inr ⟨later,inside⟩

theorem fromSeed_contains (len : Nat) (seed : List NodeId) (i : NodeId) :
    (fromSeed len seed).contains i = true ↔ i ∈ seed ∧ i < len := by
  rw [fromSeed,fold_set_contains,zeros_contains]
  simp

theorem unionInplace_contains (a b : NodeBitSet) (same : a.len = b.len) (i : NodeId) :
    (a.unionInplace b same).contains i = (a.contains i || b.contains i) := by
  rw [contains_eq_bitAt,contains_eq_bitAt,contains_eq_bitAt]
  exact bitAt_zipWith (fun _ _ _ _ => BitVec.getLsbD_or) rfl (by rw [a.sized,b.sized,same]) i

theorem intersect_contains (a b : NodeBitSet) (same : a.len = b.len) (i : NodeId) :
    (a.intersect b same).contains i = (a.contains i && b.contains i) := by
  rw [contains_eq_bitAt,contains_eq_bitAt,contains_eq_bitAt]
  exact bitAt_zipWith (fun _ _ _ _ => BitVec.getLsbD_and) rfl (by rw [a.sized,b.sized,same]) i

theorem difference_contains (a b : NodeBitSet) (same : a.len = b.len) (i : NodeId) :
    (a.difference b same).contains i = (a.contains i && !b.contains i) := by
  rw [contains_eq_bitAt,contains_eq_bitAt,contains_eq_bitAt]
  exact bitAt_zipWith (f := fun x y => x &&& ~~~y) (g := fun x y => x && !y)
    (fun x y i inside => by simp [inside]) rfl (by rw [a.sized,b.sized,same]) i

theorem getElem_contains (s : NodeBitSet) {word : Nat} (inside : word < s.bits.length) {bit : Nat} (below : bit < 64) :
    s.contains (word * 64 + bit) = s.bits[word].getLsbD bit := by
  rw [contains_eq_bitAt,bitAt,wordAt,show (word * 64 + bit) / 64 = word by omega,show (word * 64 + bit) % 64 = bit by omega,
    List.getD_eq_getElem?_getD,List.getElem?_eq_getElem inside,Option.getD_some]

theorem isZero_iff (s : NodeBitSet) : s.isZero = true ↔ ∀ node, s.contains node = false := by
  unfold isZero
  rw [List.all_eq_true]
  constructor
  · intro empty node
    rw [contains_eq_bitAt,bitAt,wordAt,List.getD_eq_getElem?_getD]
    cases found : s.bits[node / 64]? with
    | none => simp
    | some word =>
      have zero := empty word (List.mem_of_getElem? found)
      simp [eq_of_beq zero]
  · intro clear word member
    obtain ⟨i,inside,rfl⟩ := List.getElem_of_mem member
    rw [beq_iff_eq]
    refine BitVec.eq_of_getLsbD_eq fun bit below => ?_
    rw [← s.getElem_contains inside below,clear]
    simp

theorem mem_scan (s : NodeBitSet) (node : NodeId) :
    node ∈ s.bits.zipIdx.flatMap (fun word => (WordBits.setBits word.1).map (word.2 * 64 + ·)) ↔ s.contains node = true := by
  simp only [List.mem_flatMap,List.mem_map,WordBits.mem_setBits]
  constructor
  · rintro ⟨⟨word,i⟩,member,bit,set,rfl⟩
    obtain ⟨inside,found⟩ := List.getElem?_eq_some_iff.mp (List.mem_zipIdx_iff_getElem?.mp member)
    simp only at inside found set ⊢
    rw [s.getElem_contains inside (BitVec.lt_of_getLsbD set),found]
    exact set
  · intro member
    have inside := s.word_inside (contains_inside member)
    refine ⟨(s.bits[node / 64],node / 64),List.mem_zipIdx_iff_getElem?.mpr (List.getElem?_eq_getElem inside),node % 64,?_,?_⟩
    · rw [← s.getElem_contains inside (Nat.mod_lt _ (by decide))]
      rwa [show node / 64 * 64 + node % 64 = node from Nat.div_add_mod' _ _]
    · exact Nat.div_add_mod' _ _

theorem mem_iter (s : NodeBitSet) (node : NodeId) : node ∈ s.iter ↔ s.contains node = true := by
  unfold iter
  rw [List.takeWhile_eq_self_iff.mpr,mem_scan]
  intro i member
  exact decide_eq_true (contains_inside ((s.mem_scan i).mp member))

end NodeBitSet

end BonsaiNinja.Idg
