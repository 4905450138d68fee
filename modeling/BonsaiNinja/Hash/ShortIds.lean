import BonsaiNinja.Idg.Place
import BonsaiNinja.Library.Decoding
import Mathlib.Data.Nat.ModEq

namespace BonsaiNinja.Hash
open Idg (Text)

abbrev Bytes := List UInt8

def utf8Bytes (text : Text) : Bytes := text.flatMap String.utf8EncodeChar

theorem utf8Bytes_injective : Function.Injective utf8Bytes := by
  intro a b same
  have strings : String.ofList a = String.ofList b := by
    rw [← String.toByteArray_inj, String.toByteArray_ofList, String.toByteArray_ofList]
    exact congrArg List.toByteArray same
  exact String.ofList_inj.mp strings

def fnvOffsetBasis : UInt64 := 0xcbf29ce484222325

def fnvPrime : UInt64 := 0x100000001b3

-- The hasher's only state is the running digest; absorbing in chunks or at once
-- gives the same digest.
def absorb (digest : UInt64) (bytes : Bytes) : UInt64 :=
  bytes.foldl (fun digest byte => (digest ^^^ byte.toUInt64) * fnvPrime) digest

def fnv1aBytes64 (bytes : Bytes) : UInt64 := absorb fnvOffsetBasis bytes

end BonsaiNinja.Hash

namespace BonsaiNinja.Hash
open Idg (Text)
open Library

def fnv1aLow32 (digest : UInt64) : UInt32 := (digest &&& 0xFFFFFFFF).toUInt32

def hexDigit (nibble : Nat) : Char := "0123456789abcdef".toList.getD nibble '0'

-- Zero-padded lowercase hex of width eight.
def hex08 (value : UInt32) : Text := (List.range 8).map fun place => hexDigit (value.toNat / 16 ^ (7 - place) % 16)

theorem hexDigit_injective : ∀ a < 16, ∀ b < 16, hexDigit a = hexDigit b → a = b := by decide

theorem eq_of_digits {base : Nat} (n : Nat) {a b : Nat} (aBound : a < base ^ n) (bBound : b < base ^ n)
    (same : ∀ place < n, a / base ^ place % base = b / base ^ place % base) : a = b := by
  induction n generalizing a b with
  | zero =>
    rw [Nat.pow_zero] at aBound bBound
    omega
  | succ n ih =>
    rw [Nat.pow_succ'] at aBound bBound
    have low := same 0 n.succ_pos
    rw [Nat.pow_zero,Nat.div_one,Nat.div_one] at low
    have high : a / base = b / base := by
      refine ih (Nat.div_lt_of_lt_mul aBound) (Nat.div_lt_of_lt_mul bBound) fun place below => ?_
      have digit := same (place + 1) (Nat.succ_lt_succ below)
      rwa [Nat.pow_succ',← Nat.div_div_eq_div_mul,← Nat.div_div_eq_div_mul] at digit
    rw [← Nat.div_add_mod a base,← Nat.div_add_mod b base,high,low]

theorem hex08_injective {a b : UInt32} (same : hex08 a = hex08 b) : a = b := by
  refine UInt32.toNat_inj.mp (@eq_of_digits 16 8 _ _ a.toNat_lt b.toNat_lt fun place below => ?_)
  have mirrored := List.map_inj_left.mp same (7 - place) (List.mem_range.mpr (by omega))
  rw [show 7 - (7 - place) = place by omega] at mirrored
  exact hexDigit_injective _ (Nat.mod_lt _ (by decide)) _ (Nat.mod_lt _ (by decide)) mirrored

def lowStep (low : Nat) (byte : UInt8) : Nat := (low ^^^ byte.toNat) * 435 % 2 ^ 32

theorem fnv1aLow32_toNat (digest : UInt64) : (fnv1aLow32 digest).toNat = digest.toNat % 2 ^ 32 := by
  have masked : (0xFFFFFFFF : UInt64).toNat = 2 ^ 32 - 1 := rfl
  rw [fnv1aLow32,UInt64.toNat_toUInt32,UInt64.toNat_and,masked,Nat.and_two_pow_sub_one_eq_mod,Nat.mod_mod]

theorem mul_low (a k p m : Nat) : a * (m * k + p) % m = a % m * p % m := by
  rw [Nat.mul_mod,Nat.mul_add_mod,Nat.mul_mod (a % m),Nat.mod_mod,Nat.mul_mod_mod,Nat.mul_mod_mod]

theorem absorb_low (bytes : Bytes) (digest : UInt64) :
    (absorb digest bytes).toNat % 2 ^ 32 = bytes.foldl lowStep (digest.toNat % 2 ^ 32) := by
  induction bytes generalizing digest with
  | nil => rfl
  | cons byte rest ih =>
    have step : ((digest ^^^ byte.toUInt64) * fnvPrime).toNat % 2 ^ 32 = lowStep (digest.toNat % 2 ^ 32) byte := by
      have prime : fnvPrime.toNat = 2 ^ 32 * 256 + 435 := rfl
      have short : byte.toNat % 2 ^ 32 = byte.toNat := Nat.mod_eq_of_lt (Nat.lt_trans byte.toNat_lt (by decide))
      rw [UInt64.toNat_mul,UInt64.toNat_xor,UInt8.toNat_toUInt64,prime,Nat.mod_mod_of_dvd _ (by decide),mul_low,
        Nat.xor_mod_two_pow,short,lowStep]
    rw [absorb,List.foldl_cons,List.foldl_cons,← step]
    exact ih _

theorem xor_block {low byte : Nat} (short : byte < 256) : (low ^^^ byte) / 256 = low / 256 := by
  have none : byte / 2 ^ 8 = 0 := Nat.div_eq_of_lt short
  have split := Nat.xor_div_two_pow (a := low) (b := byte) (n := 8)
  rw [none,Nat.xor_zero] at split
  exact split

theorem lowStep_lt (low : Nat) (byte : UInt8) : lowStep low byte < 2 ^ 32 := Nat.mod_lt _ (by decide)

theorem times_prime_injective {a b : Nat} (aBound : a < 2 ^ 32) (bBound : b < 2 ^ 32)
    (same : a * 435 % 2 ^ 32 = b * 435 % 2 ^ 32) : a = b :=
  Nat.ModEq.eq_of_lt_of_lt (Nat.ModEq.cancel_right_of_coprime (by decide) same) aBound bBound

-- The factor spreads the members of one block over different blocks.
theorem block_apart {w w' : Nat} (block : w / 256 = w' / 256) (met : w * 435 % 2 ^ 32 / 256 = w' * 435 % 2 ^ 32 / 256) :
    w = w' := by
  have turns : ∃ q : Int, q = (w * 435 / 2 ^ 32 : Nat) - (w' * 435 / 2 ^ 32 : Nat) := ⟨_,rfl⟩
  obtain ⟨q,turns⟩ := turns
  have near : (w : Int) - w' ≤ 255 ∧ (w' : Int) - w ≤ 255 := by omega
  have gap : ((w : Int) - w') * 435 - 2 ^ 32 * q ≤ 255 ∧ 2 ^ 32 * q - ((w : Int) - w') * 435 ≤ 255 := by omega
  clear turns block met
  have none : q = 0 := by omega
  omega

-- One more byte moves a digest inside its block only, so digests that left one
-- block stay apart for another round.
theorem blocks_apart {w w' z z' : Nat} (block : w / 256 = w' / 256) (zBlock : z / 256 = w * 435 % 2 ^ 32 / 256)
    (zBlock' : z' / 256 = w' * 435 % 2 ^ 32 / 256) (zBound : z < 2 ^ 32) (zBound' : z' < 2 ^ 32)
    (met : z * 435 % 2 ^ 32 / 256 = z' * 435 % 2 ^ 32 / 256) : z = z' := by
  obtain ⟨q,qEq⟩ : ∃ q : Int, q = (w * 435 / 2 ^ 32 : Nat) - (w' * 435 / 2 ^ 32 : Nat) := ⟨_,rfl⟩
  obtain ⟨r,rEq⟩ : ∃ r : Int, r = (z * 435 / 2 ^ 32 : Nat) - (z' * 435 / 2 ^ 32 : Nat) := ⟨_,rfl⟩
  obtain ⟨d,dEq⟩ : ∃ d : Int, d = w - w' := ⟨_,rfl⟩
  obtain ⟨e,eEq⟩ : ∃ e : Int, e = z - z' := ⟨_,rfl⟩
  have near : d ≤ 255 ∧ -255 ≤ d := by omega
  have moved : d * 435 - 2 ^ 32 * q - e ≤ 510 ∧ e - (d * 435 - 2 ^ 32 * q) ≤ 510 := by omega
  have gap : e * 435 - 2 ^ 32 * r ≤ 255 ∧ 2 ^ 32 * r - e * 435 ≤ 255 := by omega
  have bounded : e < 2 ^ 32 ∧ -2 ^ 32 < e := by omega
  clear qEq rEq dEq block zBlock zBlock' met
  obtain ⟨g,gEq⟩ : ∃ g : Int, g = e + 2 ^ 32 * q := ⟨_,rfl⟩
  obtain ⟨s,sEq⟩ : ∃ s : Int, s = r + 435 * q := ⟨_,rfl⟩
  have close : g ≤ 111435 ∧ -111435 ≤ g := by omega
  have turns : g * 435 - 2 ^ 32 * s ≤ 255 ∧ 2 ^ 32 * s - g * 435 ≤ 255 := by omega
  clear gap moved near
  have none : s = 0 := by omega
  have still : g = 0 := by omega
  omega

theorem byte_of_xor {low : Nat} {a b : UInt8} (same : low ^^^ a.toNat = low ^^^ b.toNat) : a = b := by
  have cancelled := congrArg (low ^^^ ·) same
  simp only [← Nat.xor_assoc,Nat.xor_self,Nat.zero_xor] at cancelled
  exact UInt8.toNat_inj.mp cancelled

theorem three_bytes_apart {low : Nat} {a b c a' b' c' : UInt8}
    (same : [a,b,c].foldl lowStep low = [a',b',c'].foldl lowStep low) : a = a' ∧ b = b' ∧ c = c' := by
  simp only [List.foldl_cons,List.foldl_nil] at same
  have inside : ∀ {x : Nat} (byte : UInt8), x < 2 ^ 32 → x ^^^ byte.toNat < 2 ^ 32 := fun byte bound =>
    Nat.xor_lt_two_pow bound (Nat.lt_trans byte.toNat_lt (by decide))
  have block : ∀ (x : Nat) (byte : UInt8), (x ^^^ byte.toNat) / 256 = x / 256 := fun x byte => xor_block byte.toNat_lt
  have third := times_prime_injective (inside c (lowStep_lt _ b)) (inside c' (lowStep_lt _ b')) same
  have thirdBlock : lowStep (lowStep low a) b / 256 = lowStep (lowStep low a') b' / 256 := by
    rw [← block _ c,third,block]
  have firstBlock : (low ^^^ a.toNat) / 256 = (low ^^^ a'.toNat) / 256 := by rw [block,block]
  have second := blocks_apart firstBlock (block (lowStep low a) b) (block (lowStep low a') b') (inside b (lowStep_lt _ a))
    (inside b' (lowStep_lt _ a')) thirdBlock
  have secondBlock : lowStep low a / 256 = lowStep low a' / 256 := by
    rw [← block _ b,second,block]
  have first := block_apart firstBlock secondBlock
  obtain rfl := byte_of_xor first
  obtain rfl := byte_of_xor second
  exact ⟨rfl,rfl,byte_of_xor third⟩

theorem zeros_apart {x y : Nat} (xBound : x < 2 ^ 32) (yBound : y < 2 ^ 32) (n : Nat)
    (same : (List.replicate n 0).foldl lowStep x = (List.replicate n 0).foldl lowStep y) : x = y := by
  induction n generalizing x y with
  | zero => exact same
  | succ n ih =>
    have next := ih (lowStep_lt x 0) (lowStep_lt y 0) same
    have none : (0 : UInt8).toNat = 0 := rfl
    rw [lowStep,lowStep,none,Nat.xor_zero,Nat.xor_zero] at next
    exact times_prime_injective xBound yBound next

theorem offset_apart {digest : UInt64} {a b : Nat} (aShort : a < 2 ^ 24) (bShort : b < 2 ^ 24)
    (same : fnv1aLow32 (absorb digest (leBytes 8 a)) = fnv1aLow32 (absorb digest (leBytes 8 b))) : a = b := by
  have bytes : ∀ {n : Nat}, n < 2 ^ 24 → leBytes 8 n =
      [UInt8.ofNat n,UInt8.ofNat (n / 256),UInt8.ofNat (n / 256 / 256)] ++ List.replicate 5 0 := by
    intro n short
    have none : n / 256 / 256 / 256 = 0 := by omega
    simp [leBytes,none,List.replicate]
  have low := congrArg UInt32.toNat same
  rw [fnv1aLow32_toNat,fnv1aLow32_toNat,absorb_low,absorb_low,bytes aShort,bytes bShort,List.foldl_append,
    List.foldl_append] at low
  have three := zeros_apart (lowStep_lt _ _) (lowStep_lt _ _) 5 low
  obtain ⟨first,second,third⟩ := three_bytes_apart three
  have first := congrArg UInt8.toNat first
  have second := congrArg UInt8.toNat second
  have third := congrArg UInt8.toNat third
  rw [UInt8.toNat_ofNat',UInt8.toNat_ofNat'] at first second third
  omega

end BonsaiNinja.Hash
