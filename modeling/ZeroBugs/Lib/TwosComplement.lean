import Mathlib

/-! # Integers in two's complement -/
namespace ZeroBugs.Lib.TwosComplement

def ones (w m : Nat) : BitVec w := BitVec.ofNat w (2 ^ m - 1)

variable {w m : Nat}

theorem getLsbD_ones {i : Nat} (hi : i < w) : (ones w m).getLsbD i = decide (i < m) := by
  rw [ones, BitVec.getLsbD_ofNat, Nat.testBit_two_pow_sub_one]
  simp [hi]

theorem shiftLeft_one_sub_one (hm : m < w) : 1#w <<< m - 1#w = ones w m := by
  have hpos : 0 < 2 ^ m := Nat.two_pow_pos m
  have hlt : 2 ^ m < 2 ^ w := Nat.pow_lt_pow_right (by omega) hm
  have hone : 1 % 2 ^ w = 1 := Nat.mod_eq_of_lt (by omega)
  apply BitVec.eq_of_toNat_eq
  rw [BitVec.toNat_sub, BitVec.toNat_shiftLeft, BitVec.toNat_ofNat, hone, Nat.one_shiftLeft,
    Nat.mod_eq_of_lt hlt, ones, BitVec.toNat_ofNat,
    show 2 ^ w - 1 + 2 ^ m = 2 ^ m - 1 + 2 ^ w by omega, Nat.add_mod_right]

variable {n : Nat}

theorem mask_eq_ones (h0 : 0 < n) (hn : n ≤ w) :
    ((1#w <<< (n - 1) - 1#w) <<< 1) ||| 1#w = ones w n := by
  rw [shiftLeft_one_sub_one (by omega)]
  refine BitVec.eq_of_getLsbD_eq fun i hi => ?_
  rw [BitVec.getLsbD_or, BitVec.getLsbD_shiftLeft, getLsbD_ones hi, BitVec.getLsbD_one]
  cases i with
  | zero => simp; omega
  | succ i =>
    rw [show i + 1 - 1 = i from rfl, getLsbD_ones (by omega)]
    simp [hi]
    omega

theorem toNat_and_ones (hn : n ≤ w) (x : BitVec w) :
    (x &&& ones w n).toNat = x.toNat % 2 ^ n := by
  have hlt : 2 ^ n ≤ 2 ^ w := Nat.pow_le_pow_right (by omega) hn
  have hpos : 0 < 2 ^ n := Nat.two_pow_pos n
  rw [BitVec.toNat_and, ones, BitVec.toNat_ofNat, Nat.mod_eq_of_lt (by omega),
    Nat.and_two_pow_sub_one_eq_mod]

variable {x : Int}

theorem toNat_ofInt_of_nonneg (h0 : 0 ≤ x) (hw : x < 2 ^ w) :
    (BitVec.ofInt w x).toNat = x.toNat := by
  rw [BitVec.toNat_ofInt, Nat.cast_pow, Nat.cast_ofNat, Int.emod_eq_of_lt h0 hw]

theorem toNat_ofInt_of_neg (h0 : x < 0) (hw : -2 ^ w ≤ x) :
    (BitVec.ofInt w x).toNat = 2 ^ w - ((-x - 1).toNat + 1) := by
  have hmod : x % 2 ^ w = x + 2 ^ w := by
    rw [← Int.add_emod_right, Int.emod_eq_of_lt (by omega) (by omega)]
  have hcast : ((2 ^ w : Nat) : Int) = 2 ^ w := by norm_cast
  rw [BitVec.toNat_ofInt, hcast, hmod]
  omega

theorem getLsbD_ofInt_of_le {i : Nat} (hlo : -2 ^ m ≤ x) (hhi : x < 2 ^ m)
    (hm : m ≤ i) (hi : i < w) : (BitVec.ofInt w x).getLsbD i = decide (x < 0) := by
  have hpow : (2 ^ m : Int) ≤ 2 ^ w := by
    exact_mod_cast Nat.pow_le_pow_right (show 0 < 2 by decide) (by omega : m ≤ w)
  have hcast : ((2 ^ m : Nat) : Int) = 2 ^ m := by norm_cast
  have hpow' : 2 ^ m ≤ 2 ^ i := Nat.pow_le_pow_right (by decide) hm
  have hpow'' : 2 ^ m ≤ 2 ^ w := Nat.pow_le_pow_right (by decide) (by omega)
  unfold BitVec.getLsbD
  by_cases h0 : x < 0
  · rw [toNat_ofInt_of_neg h0 (by omega), Nat.testBit_two_pow_sub_succ (by omega),
      Nat.testBit_lt_two_pow (by omega)]
    simp [hi, h0]
  · rw [toNat_ofInt_of_nonneg (by omega) (by omega), Nat.testBit_lt_two_pow (by omega)]
    simp [h0]

theorem dvd_sub_toNat_iff (w : Nat) (a b : BitVec n) :
    (2 ^ w : Int) ∣ a.toNat - b.toNat ↔ ∀ i, i < w → a.getLsbD i = b.getLsbD i := by
  have hmod : (2 ^ w : Int) ∣ a.toNat - b.toNat ↔ a.setWidth w = b.setWidth w := by
    have hcast : (2 ^ w : Int) = ((2 ^ w : Nat) : Int) := by norm_cast
    rw [← BitVec.toNat_inj, BitVec.toNat_setWidth, BitVec.toNat_setWidth, hcast,
      ← Int.modEq_iff_dvd, Int.natCast_modEq_iff]
    exact eq_comm
  rw [hmod]
  constructor
  · intro h i hi
    have hbit := congrArg (fun x => x.getLsbD i) h
    simpa [BitVec.getLsbD_setWidth, hi] using hbit
  · intro h
    refine BitVec.eq_of_getLsbD_eq fun i hi => ?_
    simp [hi, h i hi]

end ZeroBugs.Lib.TwosComplement
