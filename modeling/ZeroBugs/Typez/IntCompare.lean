import ZeroBugs.Typez.IntOutput

/-! # Comparing integer texts -/
namespace ZeroBugs.Typez

open Lib.NumberText Lib.TwosComplement

def compared (type : IntType) (text : List Char) : Int :=
  let w := type.holder.width
  let mask := 1#w <<< (type.bitSize - 1)
  let mask := (mask - 1#w) <<< 1 ||| 1#w
  let x := BitVec.ofInt w (fromString type.holder text).1 &&& mask
  if type.isSigned then x.toInt else x.toNat

def compare (type : IntType) (lhs rhs : List Char) : Int :=
  let l := compared type lhs
  let r := compared type rhs
  if l < r then -1 else if l > r then 1 else 0

section Order

variable (type : IntType) {a b c : List Char}

theorem compare_eq_sign (a b : List Char) :
    compare type a b = (compared type a - compared type b).sign := by
  rcases lt_trichotomy (compared type a) (compared type b) with h | h | h
  · rw [compare, if_pos h, Int.sign_eq_neg_one_of_neg (by omega)]
  · rw [compare, if_neg (by omega), if_neg (by omega), h, Int.sub_self, Int.sign_zero]
  · rw [compare, if_neg (by omega), if_pos h, Int.sign_eq_one_of_pos (by omega)]

theorem compare_neg_iff : compare type a b < 0 ↔ compared type a < compared type b := by
  rw [compare_eq_sign, Int.sign_neg_iff]
  omega

theorem compare_eq_zero_iff : compare type a b = 0 ↔ compared type a = compared type b := by
  rw [compare_eq_sign, Int.sign_eq_zero_iff_zero]
  omega

theorem compare_pos_iff : 0 < compare type a b ↔ compared type b < compared type a := by
  rw [compare_eq_sign, Int.sign_pos_iff]
  omega

end Order

def IsMachineWidth (n : Nat) : Prop := n = 8 ∨ n = 16 ∨ n = 32 ∨ n = 64
  deriving Decidable

section Values

variable {type : IntType} {x y : Int} (h0 : 0 < type.bitSize) (hn : type.bitSize ≤ 64)
include h0 hn

theorem holder_width_eq_iff : type.holder.width = type.bitSize ↔ IsMachineWidth type.bitSize := by
  unfold IntType.holder IsMachineWidth
  cases type.isSigned <;> simp only [Bool.false_eq_true, if_false, if_true] <;> split_ifs <;>
    simp only [Tag.width] <;> omega

theorem compared_decimal (hx : type.Represents x) :
    compared type (decimal x) =
      if type.isSigned = true ∧ ¬IsMachineWidth type.bitSize then x % 2 ^ type.bitSize else x := by
  have hle := IntType.bitSize_le_holder hn
  have hwidth := holder_width_eq_iff h0 hn
  have hread : (fromString type.holder (decimal x)).1 = x :=
    (IntType.parse_of_numeral hn hx (numeral_decimal x)).1
  have hbits : (BitVec.ofInt type.holder.width x &&& ones type.holder.width type.bitSize).toNat =
      (x % 2 ^ type.bitSize).toNat := by
    rw [toNat_and_ones hle, ← field_ofInt hle, field, Nat.pow_zero, Nat.div_one]
  have hvalue := IntType.ofBits_emod h0 hx
  simp only [compared, hread, mask_eq_ones h0 hle]
  rw [← IntType.ofBits_toNat (by omega), hbits]
  by_cases hs : type.isSigned = true
  · by_cases hm : IsMachineWidth type.bitSize
    · rw [if_neg fun h => h.2 hm, hwidth.mpr hm]
      exact hvalue
    · have hlt : type.bitSize ≤ type.holder.width - 1 := by
        have hne := mt hwidth.mp hm
        omega
      have hsmall : (x % 2 ^ type.bitSize).toNat < 2 ^ (type.holder.width - 1) := by
        rw [← field_ofInt hle]
        exact (field_lt _ _ _).trans_le (Nat.pow_le_pow_right (by omega) hlt)
      have hpos : (2 ^ type.bitSize : Int) ≠ 0 := by
        exact_mod_cast (Nat.two_pow_pos type.bitSize).ne'
      rw [if_pos ⟨hs, hm⟩, IntType.ofBits, if_neg fun h => Nat.not_le_of_lt hsmall h.2,
        Int.toNat_of_nonneg (Int.emod_nonneg x hpos)]
  · rw [if_neg fun h => hs h.1]
    unfold IntType.ofBits at hvalue ⊢
    rw [if_neg fun h => hs h.1] at hvalue ⊢
    exact hvalue

structure ComparesAsNumbers (type : IntType) (x y : Int) : Prop where
  less : compare type (decimal x) (decimal y) < 0 ↔ x < y
  equal : compare type (decimal x) (decimal y) = 0 ↔ x = y
  greater : 0 < compare type (decimal x) (decimal y) ↔ y < x

theorem comparesAsNumbers_iff (hx : type.Represents x) (hy : type.Represents y) :
    ComparesAsNumbers type x y ↔
      type.isSigned = false ∨ IsMachineWidth type.bitSize ∨ (x < 0 ↔ y < 0) := by
  have hl := compared_decimal h0 hn hx
  have hr := compared_decimal h0 hn hy
  by_cases hmask : type.isSigned = true ∧ ¬IsMachineWidth type.bitSize
  · obtain ⟨hpow, hpos⟩ := IntType.two_pow_bitSize h0
    rw [if_pos hmask, IntType.emod_of_represents h0 hx] at hl
    rw [if_pos hmask, IntType.emod_of_represents h0 hy] at hr
    unfold IntType.Represents at hx hy
    rw [if_pos hmask.1] at hx hy
    constructor
    · intro h
      have hless := (compare_neg_iff type).symm.trans h.less
      have hgreater := (compare_pos_iff type).symm.trans h.greater
      rw [hl, hr] at hless hgreater
      refine Or.inr (Or.inr ?_)
      split_ifs at hless hgreater <;> omega
    · rintro (hu | hm | hsign)
      · exact absurd (hmask.1.symm.trans hu) (by decide)
      · exact absurd hm hmask.2
      · constructor
        · rw [compare_neg_iff, hl, hr]
          split_ifs <;> omega
        · rw [compare_eq_zero_iff, hl, hr]
          split_ifs <;> omega
        · rw [compare_pos_iff, hl, hr]
          split_ifs <;> omega
  · rw [if_neg hmask] at hl hr
    constructor
    · intro _
      cases hs : type.isSigned
      · exact Or.inl rfl
      · exact Or.inr (Or.inl (not_not.mp fun hm => hmask ⟨hs, hm⟩))
    · intro _
      constructor
      · rw [compare_neg_iff, hl, hr]
      · rw [compare_eq_zero_iff, hl, hr]
      · rw [compare_pos_iff, hl, hr]

end Values

theorem comparesAsNumbers_threeBits :
    ((⟨3, true⟩ : IntType).Represents (-4) ∧ (⟨3, true⟩ : IntType).Represents (-1)) ∧
      ComparesAsNumbers ⟨3, true⟩ (-4) (-1) :=
  ⟨by decide,
    (comparesAsNumbers_iff (by decide) (by decide) (by decide) (by decide)).mpr (by decide)⟩

theorem minusOne_not_comparesAsNumbers :
    ((⟨3, true⟩ : IntType).Represents (-1) ∧ (⟨3, true⟩ : IntType).Represents 0) ∧
      compare ⟨3, true⟩ (decimal (-1)) (decimal 0) = 1 ∧ ¬ComparesAsNumbers ⟨3, true⟩ (-1) 0 := by
  have hcompare : compare ⟨3, true⟩ (decimal (-1)) (decimal 0) = 1 := by decide
  refine ⟨by decide, hcompare, fun h => ?_⟩
  have hgreater := h.greater.mp (by rw [hcompare]; decide)
  exact absurd hgreater (by decide)

end ZeroBugs.Typez
