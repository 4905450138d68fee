import Mathlib.Data.List.Basic
import Mathlib.Data.Nat.Bitwise

namespace BonsaiNinja.Library.WordBits

theorem toNat_sub_one {x : BitVec w} (nonzero : x ≠ 0#w) : 0 < x.toNat ∧ (x - 1#w).toNat = x.toNat - 1 := by
  have positive : 0 < x.toNat := Nat.pos_of_ne_zero fun zero => nonzero (BitVec.eq_of_toNat_eq (by simpa using zero))
  have bounded := x.isLt
  have one : (1#w).toNat = 1 := by simpa using Nat.mod_eq_of_lt (show 1 < 2 ^ w by omega)
  exact ⟨positive,by rw [BitVec.toNat_sub_of_le (by rw [BitVec.le_def,one]; omega),one]⟩

theorem and_sub_one_lt {x : BitVec w} (nonzero : x ≠ 0#w) : (x &&& (x - 1#w)).toNat < x.toNat := by
  obtain ⟨positive,lowered⟩ := toNat_sub_one nonzero
  have below : x.toNat &&& (x - 1#w).toNat ≤ (x - 1#w).toNat := Nat.and_le_right
  rw [BitVec.toNat_and]
  omega

def setBits (x : BitVec w) : List Nat :=
  if zero : x = 0#w then [] else x.ctz.toNat :: setBits (x &&& (x - 1#w))
termination_by x.toNat
decreasing_by exact and_sub_one_lt zero

-- A word whose lowest set bit is at k is 2^k times an odd number, so subtracting one
-- only changes the bits up to k.
theorem testBit_sub_one {v k : Nat} (zeros : ∀ i < k, v.testBit i = false) (one : v.testBit k = true) (i : Nat) :
    (v &&& (v - 1)).testBit i = (v.testBit i && decide (i ≠ k)) := by
  obtain ⟨q,split⟩ : ∃ q, v = 2 ^ k * q := by
    refine (Nat.dvd_iff_mod_eq_zero).mpr ?_ |>.imp fun q eq => eq
    refine Nat.eq_of_testBit_eq fun i => ?_
    by_cases low : i < k
    · simp [low,zeros i low]
    · simp [low]
  subst split
  have odd : q % 2 = 1 := by
    rw [Nat.testBit_two_pow_mul] at one
    simpa [Nat.testBit_zero] using one
  have positive : 0 < 2 ^ k := Nat.two_pow_pos k
  have lowered : 2 ^ k * q - 1 = 2 ^ k * (q - 1) + (2 ^ k - 1) := by
    obtain ⟨m,rfl⟩ : ∃ m, q = m + 1 := ⟨q - 1,by omega⟩
    simp only [Nat.add_sub_cancel,Nat.mul_succ]
    omega
  rw [Nat.testBit_and,lowered,Nat.testBit_two_pow_mul_add _ (by omega),Nat.testBit_two_pow_mul]
  by_cases low : i < k
  · simp [show ¬ k ≤ i by omega]
  · by_cases same : i = k
    · subst same
      simp only [Nat.le_refl,Nat.lt_irrefl,Nat.sub_self,Nat.testBit_zero]
      simp [odd, show (q - 1) % 2 = 0 by omega]
    · obtain ⟨j,rfl⟩ : ∃ j, i = k + (j + 1) := ⟨i - k - 1,by omega⟩
      have halved : (q - 1) / 2 = q / 2 := by omega
      simp only [if_neg low,Nat.add_sub_cancel_left,Nat.testBit_succ,halved]
      simp

theorem getLsbD_and_sub_one {x : BitVec w} (nonzero : x ≠ 0#w) (i : Nat) :
    (x &&& (x - 1#w)).getLsbD i = (x.getLsbD i && decide (i ≠ x.ctz.toNat)) := by
  have low := testBit_sub_one (v := x.toNat) (k := x.ctz.toNat)
    (fun j below => BitVec.getLsbD_false_of_lt_ctz below) (BitVec.getLsbD_true_ctz_of_ne_zero nonzero) i
  rw [← (toNat_sub_one nonzero).2,← BitVec.toNat_and] at low
  exact low

theorem mem_setBits {x : BitVec w} {i : Nat} : i ∈ setBits x ↔ x.getLsbD i = true := by
  fun_induction setBits x with
  | case1 => simp
  | case2 x nonzero ih =>
    rw [List.mem_cons,ih,getLsbD_and_sub_one nonzero]
    by_cases same : i = x.ctz.toNat
    · subst same; simpa using BitVec.getLsbD_true_ctz_of_ne_zero nonzero
    · simp [same]

theorem and_mask_ne_zero {x : BitVec w} {i : Nat} (inside : i < w) :
    (x &&& (1#w <<< i) != 0#w) = x.getLsbD i := by
  rw [Bool.eq_iff_iff,bne_iff_ne,ne_eq]
  constructor
  · intro nonzero
    by_contra unset
    refine nonzero (BitVec.eq_of_getLsbD_eq fun j _ => ?_)
    by_cases same : j = i
    · subst same; simp [unset]
    · simp only [BitVec.getLsbD_and,BitVec.getLsbD_shiftLeft,BitVec.getLsbD_one,BitVec.getLsbD_zero]
      grind
  · intro set zero
    have bit := congrArg (fun y => y.getLsbD i) zero
    simp only [BitVec.getLsbD_and,BitVec.getLsbD_shiftLeft,BitVec.getLsbD_one,BitVec.getLsbD_zero] at bit
    grind

end BonsaiNinja.Library.WordBits
