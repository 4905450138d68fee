import Mathlib.Data.List.Basic

namespace BonsaiNinja.Library

-- A slice search by halves: the base moves up unless the middle key is too large.
def narrow (keys : List Nat) (target : Nat) : Nat → Nat → Nat → Nat
  | 0, _, base => base
  | fuel + 1, size, base =>
    if 1 < size then
      let middle := base + size / 2
      narrow keys target fuel (size - size / 2) (if target < keys.getD middle 0 then base else middle)
    else base

-- Every turn keeps fewer rows, so their number bounds the turns.
def binarySearchByKey (rows : List α) (key : α → Nat) (target : Nat) : Option Nat :=
  let base := narrow (rows.map key) target rows.length rows.length 0
  if (rows.map key)[base]? = some target then some base else none

theorem ascending_position {keys : List Nat} (ascending : keys.Pairwise (· < ·)) {i j x y : Nat}
    (first : keys[i]? = some x) (second : keys[j]? = some y) : x < y ↔ i < j := by
  obtain ⟨low,rfl⟩ := List.getElem?_eq_some_iff.mp first
  obtain ⟨high,rfl⟩ := List.getElem?_eq_some_iff.mp second
  have order := List.pairwise_iff_getElem.mp ascending
  constructor
  · intro lower
    rcases Nat.lt_trichotomy i j with before | same | behind
    · exact before
    · subst same
      exact absurd lower (Nat.lt_irrefl _)
    · exact absurd lower (Nat.lt_asymm (order j i high low behind))
  · exact order i j low high

theorem narrow_finds {keys : List Nat} {target row : Nat} (ascending : keys.Pairwise (· < ·))
    (held : keys[row]? = some target) {fuel size base : Nat} (enough : size ≤ fuel) (lower : base ≤ row)
    (upper : row < base + size) (inside : base + size ≤ keys.length) : narrow keys target fuel size base = row := by
  induction fuel generalizing size base with
  | zero => omega
  | succ fuel ih =>
    rw [narrow]
    split
    · next several =>
      have bound : base + size / 2 < keys.length := by omega
      have middle : keys[base + size / 2]? = some (keys.getD (base + size / 2) 0) := by
        rw [List.getD_eq_getElem?_getD, List.getElem?_eq_getElem bound, Option.getD_some]
      have order := ascending_position ascending held middle
      by_cases small : target < keys.getD (base + size / 2) 0
      · have before := order.mp small
        apply ih
        · omega
        · rw [if_pos small]; exact lower
        · rw [if_pos small]; omega
        · rw [if_pos small]; omega
      · have behind : base + size / 2 ≤ row := Nat.le_of_not_lt fun before => small (order.mpr before)
        apply ih
        · omega
        · rw [if_neg small]; exact behind
        · rw [if_neg small]; omega
        · rw [if_neg small]; omega
    · next single => omega

theorem binarySearchByKey_iff {rows : List α} {key : α → Nat} (ascending : (rows.map key).Pairwise (· < ·))
    {target row : Nat} : binarySearchByKey rows key target = some row ↔ (rows.map key)[row]? = some target := by
  unfold binarySearchByKey
  constructor
  · intro found
    dsimp only at found
    split at found
    · next held =>
      cases found
      exact held
    · cases found
  · intro held
    have bound : row < (rows.map key).length := (List.getElem?_eq_some_iff.mp held).1
    rw [List.length_map] at bound
    have base : narrow (rows.map key) target rows.length rows.length 0 = row :=
      narrow_finds ascending held (Nat.le_refl _) (Nat.zero_le _) (by omega) (by rw [List.length_map]; omega)
    rw [base]
    exact if_pos held

end BonsaiNinja.Library
