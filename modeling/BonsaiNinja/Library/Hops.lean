import Mathlib.Data.Finset.Card

namespace BonsaiNinja.Library.Hops
variable {ν : Type u} {edge : ν → ν → Prop}

inductive Walk (edge : ν → ν → Prop) : Nat → ν → ν → Prop
  | here (a : ν) : Walk edge 0 a a
  | tail (walk : Walk edge k a b) (step : edge b c) : Walk edge (k + 1) a c

def Within (edge : ν → ν → Prop) (k : Nat) (a b : ν) : Prop := ∃ j, j ≤ k ∧ Walk edge j a b

theorem within_refl (k : Nat) (a : ν) : Within edge k a a := ⟨0,Nat.zero_le k,.here a⟩

theorem within_zero {a b : ν} : Within edge 0 a b ↔ a = b := by
  constructor
  · intro near
    obtain ⟨j,none,walk⟩ := near
    cases walk with
    | here => rfl
    | tail => exact absurd none (Nat.not_succ_le_zero _)
  · intro same
    exact same ▸ within_refl 0 a

theorem within_mono {j k : Nat} {a b : ν} (le : j ≤ k) (near : Within edge j a b) : Within edge k a b := by
  obtain ⟨i,below,walk⟩ := near
  exact ⟨i,Nat.le_trans below le,walk⟩

theorem within_succ {k : Nat} {a c : ν} :
    Within edge (k + 1) a c ↔ Within edge k a c ∨ ∃ b, Within edge k a b ∧ edge b c := by
  constructor
  · intro near
    obtain ⟨j,below,walk⟩ := near
    cases walk with
    | here => exact .inl (within_refl k a)
    | tail walk step => exact .inr ⟨_,⟨_,Nat.le_of_succ_le_succ below,walk⟩,step⟩
  · intro found
    cases found with
    | inl near => exact within_mono (Nat.le_succ k) near
    | inr more =>
      obtain ⟨b,⟨j,below,walk⟩,step⟩ := more
      exact ⟨j + 1,Nat.succ_le_succ below,walk.tail step⟩

theorem Walk.reaches {k : Nat} {a b : ν} (walk : Walk edge k a b) : Relation.ReflTransGen edge a b := by
  induction walk with
  | here => exact .refl
  | tail _ step ih => exact ih.tail step

def Settled (edge : ν → ν → Prop) (a : ν) (k : Nat) : Prop :=
  ∀ b c, Within edge k a b → edge b c → Within edge k a c

theorem Settled.next {a : ν} {k : Nat} (settled : Settled edge a k) : Settled edge a (k + 1) := by
  have same : ∀ b, Within edge (k + 1) a b → Within edge k a b := by
    intro b near
    cases within_succ.mp near with
    | inl near => exact near
    | inr more =>
      obtain ⟨c,near,step⟩ := more
      exact settled c b near step
  intro b c near step
  exact within_mono (Nat.le_succ k) (settled b c (same b near) step)

theorem Settled.reaches {a b : ν} {k : Nat} (settled : Settled edge a k) (path : Relation.ReflTransGen edge a b) :
    Within edge k a b := by
  induction path with
  | refl => exact within_refl k a
  | tail _ step ih => exact settled _ _ ih step

-- Every level that is not settled adds a node.
open Classical in
theorem level_grows {nodes : Finset ν} {a : ν} (start : a ∈ nodes) (inside : ∀ b c, edge b c → c ∈ nodes) (k : Nat) :
    Settled edge a k ∨ k < (nodes.filter fun b => Within edge k a b).card := by
  induction k with
  | zero => exact .inr (Finset.card_pos.mpr ⟨a,Finset.mem_filter.mpr ⟨start,within_refl 0 a⟩⟩)
  | succ k ih =>
    cases ih with
    | inl settled => exact .inl settled.next
    | inr grown =>
      by_cases settled : Settled edge a k
      · exact .inl settled.next
      · right
        simp only [Settled,not_forall] at settled
        obtain ⟨b,c,near,step,far⟩ := settled
        have larger : (nodes.filter fun b => Within edge k a b) ⊂ nodes.filter fun b => Within edge (k + 1) a b := by
          refine Finset.ssubset_iff_subset_ne.mpr ⟨?_,?_⟩
          · intro x member
            rw [Finset.mem_filter] at member ⊢
            exact ⟨member.1,within_mono (Nat.le_succ k) member.2⟩
          · intro same
            have new : c ∈ nodes.filter fun b => Within edge (k + 1) a b :=
              Finset.mem_filter.mpr ⟨inside b c step,within_succ.mpr (.inr ⟨b,near,step⟩)⟩
            rw [← same] at new
            exact far (Finset.mem_filter.mp new).2
        have counted := Finset.card_lt_card larger
        omega

theorem within_of_card {nodes : Finset ν} {a b : ν} {k : Nat} (start : a ∈ nodes) (inside : ∀ b c, edge b c → c ∈ nodes)
    (enough : nodes.card ≤ k) : Within edge k a b ↔ Relation.ReflTransGen edge a b := by
  classical
  constructor
  · intro near
    obtain ⟨j,_,walk⟩ := near
    exact walk.reaches
  · intro path
    cases level_grows start inside k with
    | inl settled => exact settled.reaches path
    | inr grown =>
      have bounded := Finset.card_filter_le nodes fun b => Within edge k a b
      exact absurd grown (by omega)

end BonsaiNinja.Library.Hops
