import ZeroBugs.Lib.TwosComplement
import ZeroBugs.Typez.IntTypes

/-! # Printing integers -/
namespace ZeroBugs.Typez

open Lib.NumberText Lib.TwosComplement

inductive Base where
  | dec | oct | hex
  deriving DecidableEq

/-- What the stream prints for a word, with the mark of the base. Only in decimal is a
signed word printed with a sign. -/
def put {w : Nat} (base : Base) (isSigned : Bool) (val : BitVec w) : List Char :=
  match base with
  | .dec => decimal (if isSigned then val.toInt else val.toNat)
  | .oct => octal val.toNat
  | .hex => hexadecimal val.toNat

def isPrint (c : Nat) : Bool := 0x20 ≤ c && c ≤ 0x7e

def shiftRight {w : Nat} (isSigned : Bool) (val : BitVec w) (offs : Nat) : BitVec w :=
  if isSigned then val.sshiftRight offs else val >>> offs

def print {w : Nat} (base : Base) (isSigned : Bool) (val : BitVec w) (nbits offs : Nat)
    (isChar : Bool) : List Char :=
  if isChar ∧ nbits = 8 ∧ isPrint (val.toNat % 256) ∧ base = .dec then
    ['\'', Char.ofNat (val.toNat % 256), '\'']
  else
    let val := shiftRight isSigned val offs
    let mask := 1#w <<< (nbits - 1)
    let val := val &&& ((mask - 1#w) <<< 1 ||| 1#w)
    if isSigned ∧ base ≠ .hex ∧ val &&& mask ≠ 0#w then
      '-' :: put base isSigned (mask <<< 1 - val)
    else put base isSigned val

namespace IntType

def Represents (type : IntType) (x : Int) : Prop :=
  if type.isSigned then -2 ^ (type.bitSize - 1) ≤ x ∧ x < 2 ^ (type.bitSize - 1)
  else 0 ≤ x ∧ x < 2 ^ type.bitSize
  deriving Decidable

def ofBits (type : IntType) (m : Nat) : Int :=
  if type.isSigned ∧ 2 ^ (type.bitSize - 1) ≤ m then m - 2 ^ type.bitSize else m

end IntType

def field {w : Nat} (val : BitVec w) (offs nbits : Nat) : Nat := val.toNat / 2 ^ offs % 2 ^ nbits

section Field

variable {w offs n : Nat} {base : Base} {isSigned : Bool} {val : BitVec w}

theorem field_lt (val : BitVec w) (offs n : Nat) : field val offs n < 2 ^ n :=
  Nat.mod_lt _ (Nat.two_pow_pos n)

theorem toNat_shiftRight_and (hn : offs + n ≤ w) :
    (shiftRight isSigned val offs &&& ones w n).toNat = field val offs n := by
  have hshift : shiftRight isSigned val offs &&& ones w n = val >>> offs &&& ones w n := by
    refine BitVec.eq_of_getLsbD_eq fun i hi => ?_
    rw [BitVec.getLsbD_and, BitVec.getLsbD_and, getLsbD_ones hi]
    by_cases hin : i < n
    · unfold shiftRight
      split
      · rw [BitVec.getLsbD_sshiftRight, BitVec.getLsbD_ushiftRight, if_pos (by omega),
          decide_eq_false (by omega), Bool.not_false, Bool.true_and]
      · rfl
    · simp [hin]
  rw [hshift, toNat_and_ones (by omega), BitVec.toNat_ushiftRight, Nat.shiftRight_eq_div_pow]
  rfl

theorem and_signBit_ne_zero {x : BitVec w} (h0 : 0 < n) (hn : n ≤ w) (hx : x.toNat < 2 ^ n) :
    x &&& 1#w <<< (n - 1) ≠ 0#w ↔ 2 ^ (n - 1) ≤ x.toNat := by
  have hpow := Nat.two_pow_pred_mul_two h0
  have hpos := Nat.two_pow_pos (n - 1)
  have hbit : BitVec.twoPow w (n - 1) ≠ 0#w := by
    intro h
    have h' := congrArg BitVec.toNat h
    rw [BitVec.toNat_twoPow_of_lt (by omega), BitVec.toNat_ofNat, Nat.zero_mod] at h'
    omega
  have hdiv : x.toNat / 2 ^ (n - 1) < 2 := Nat.div_lt_of_lt_mul (by omega)
  have htest : x.getLsbD (n - 1) = true ↔ 2 ^ (n - 1) ≤ x.toNat := by
    rw [BitVec.getLsbD, Nat.testBit_eq_decide_div_mod_eq, decide_eq_true_eq,
      Nat.mod_eq_of_lt hdiv, ← Nat.one_le_div_iff hpos]
    omega
  rw [← BitVec.twoPow_eq, BitVec.and_twoPow, ← htest]
  split
  · next h => exact ⟨fun _ => h, fun _ => hbit⟩
  · next h => exact ⟨fun hne => absurd rfl hne, fun hle => absurd hle h⟩

theorem toNat_shiftLeft_sub {x : BitVec w} (h0 : 0 < n) (hn : n ≤ w) (hpos : 0 < x.toNat)
    (hx : x.toNat < 2 ^ n) : (1#w <<< (n - 1) <<< 1 - x).toNat = 2 ^ n - x.toNat := by
  have hle : 2 ^ n ≤ 2 ^ w := Nat.pow_le_pow_right (by omega) hn
  have hone : 1 % 2 ^ w = 1 := Nat.mod_eq_of_lt (Nat.one_lt_two_pow (by omega))
  rw [← BitVec.shiftLeft_add, Nat.sub_add_cancel h0, BitVec.toNat_sub, BitVec.toNat_shiftLeft,
    BitVec.toNat_ofNat, hone, Nat.one_shiftLeft]
  rcases Nat.lt_or_eq_of_le hle with hlt | heq
  · rw [Nat.mod_eq_of_lt hlt, show 2 ^ w - x.toNat + 2 ^ n = 2 ^ n - x.toNat + 2 ^ w by omega,
      Nat.add_mod_right, Nat.mod_eq_of_lt (by omega)]
  · rw [heq, Nat.mod_self, Nat.add_zero, Nat.mod_eq_of_lt (by omega)]

theorem print_of_not_quoted (h : ¬(n = 8 ∧ isPrint (val.toNat % 256) = true ∧ base = .dec))
    (isChar : Bool) :
    print base isSigned val n offs isChar = print base isSigned val n offs false := by
  unfold print
  simp only [h, and_false, if_false]

theorem print_eq (h0 : 0 < n) (hn : offs + n ≤ w) :
    print base isSigned val n offs false =
      if isSigned = true ∧ base ≠ .hex ∧ 2 ^ (n - 1) ≤ field val offs n then
        '-' :: put base isSigned (BitVec.ofNat w (2 ^ n - field val offs n))
      else put base isSigned (BitVec.ofNat w (field val offs n)) := by
  have hfield : (shiftRight isSigned val offs &&& ones w n).toNat = field val offs n :=
    toNat_shiftRight_and hn
  have hlt := field_lt val offs n
  have hpos := Nat.two_pow_pos (n - 1)
  set masked := shiftRight isSigned val offs &&& ones w n
  have hself : masked = BitVec.ofNat w (field val offs n) := by
    rw [← hfield, BitVec.ofNat_toNat, BitVec.setWidth_eq]
  have hsign := and_signBit_ne_zero (x := masked) h0 (by omega) (by omega)
  rw [print, if_neg (by simp)]
  simp only [mask_eq_ones h0 (show n ≤ w by omega)]
  rw [show shiftRight isSigned val offs &&& ones w n = masked from rfl]
  by_cases hneg : isSigned = true ∧ base ≠ .hex ∧ 2 ^ (n - 1) ≤ field val offs n
  · have hsub := toNat_shiftLeft_sub (x := masked) h0 (by omega) (by omega) (by omega)
    rw [if_pos hneg, if_pos ⟨hneg.1, hneg.2.1, hsign.mpr (by omega)⟩, ← hfield, ← hsub,
      BitVec.ofNat_toNat, BitVec.setWidth_eq]
  · rw [if_neg hneg, if_neg fun h => hneg ⟨h.1, h.2.1, hfield ▸ hsign.mp h.2.2⟩, hself]

/-- The text of a number in a base; in hexadecimal, of one that is not negative. -/
def inBase : Base → Int → List Char
  | .dec, x => decimal x
  | .oct, x => if x < 0 then '-' :: octal x.natAbs else octal x.natAbs
  | .hex, x => hexadecimal x.natAbs

theorem inBase_neg {k : Nat} (hb : base ≠ .hex) (hk : k ≠ 0) :
    '-' :: inBase base k = inBase base (-k) := by
  have hneg : -(k : Int) < 0 := by omega
  have hpos : ¬(k : Int) < 0 := by omega
  cases base
  case hex => exact absurd rfl hb
  all_goals
    simp only [inBase, decimal, if_pos hneg, if_neg hpos, Int.natAbs_neg]

theorem numeral_inBase {x : Int} (h : base = .hex → 0 ≤ x) : Numeral (inBase base x) x := by
  cases base
  case dec => exact numeral_decimal x
  case oct =>
    rw [inBase]
    split
    · have heq : x = -(x.natAbs : Int) := by omega
      nth_rewrite 2 [heq]
      exact (numeral_octal x.natAbs).neg (by omega)
    · have heq : x = x.natAbs := by omega
      nth_rewrite 2 [heq]
      exact numeral_octal x.natAbs
  case hex =>
    have heq : x = x.natAbs := by
      have hx := h rfl
      omega
    nth_rewrite 2 [heq]
    exact numeral_hexadecimal x.natAbs

theorem put_ofNat {k : Nat} (h : if isSigned ∧ base = .dec then 2 * k < 2 ^ w else k < 2 ^ w) :
    put base isSigned (BitVec.ofNat w k) = inBase base k := by
  have hk : k < 2 ^ w := by
    split at h <;> omega
  have hmod : (BitVec.ofNat w k).toNat = k := by
    rw [BitVec.toNat_ofNat, Nat.mod_eq_of_lt hk]
  cases base
  case dec =>
    cases isSigned
    · rw [put, if_neg Bool.false_ne_true, hmod]
      rfl
    · rw [put, if_pos rfl, BitVec.toInt_eq_toNat_of_lt (by rw [hmod]; simpa using h), hmod]
      rfl
  case oct => rw [put, inBase, hmod, if_neg (by omega), Int.natAbs_natCast]
  case hex => rw [put, inBase, hmod, Int.natAbs_natCast]

def shown (base : Base) (type : IntType) (m : Nat) : Int :=
  if base = .hex then m else type.ofBits m

theorem print_eq_inBase (h0 : 0 < n) (hn : offs + n ≤ w)
    (hmin : ¬(base = .dec ∧ isSigned = true ∧ n = w ∧ field val offs n = 2 ^ (n - 1))) :
    print base isSigned val n offs false =
      inBase base (shown base ⟨n, isSigned⟩ (field val offs n)) := by
  have hpow := Nat.two_pow_pred_mul_two h0
  have hlt := field_lt val offs n
  have hle : 2 ^ n ≤ 2 ^ w := Nat.pow_le_pow_right (by omega) (by omega)
  rw [print_eq h0 hn]
  by_cases hneg : isSigned = true ∧ base ≠ .hex ∧ 2 ^ (n - 1) ≤ field val offs n
  · obtain ⟨hs, hb, hf⟩ := hneg
    have hvalue : shown base ⟨n, isSigned⟩ (field val offs n) =
        -((2 ^ n - field val offs n : Nat) : Int) := by
      rw [shown, if_neg hb, IntType.ofBits, if_pos ⟨hs, hf⟩, Nat.cast_sub hlt.le]
      push_cast
      omega
    rw [if_pos ⟨hs, hb, hf⟩, hvalue, ← inBase_neg hb (by omega), put_ofNat]
    split
    · next hdec =>
      rcases Nat.lt_or_eq_of_le (show n ≤ w by omega) with hnw | hnw
      · have hstrict : 2 ^ n < 2 ^ w := Nat.pow_lt_pow_right (by omega) hnw
        omega
      · have hne : field val offs n ≠ 2 ^ (n - 1) := fun h => hmin ⟨hdec.2, hs, hnw, h⟩
        omega
    · omega
  · have hvalue : shown base ⟨n, isSigned⟩ (field val offs n) = field val offs n := by
      unfold shown
      split
      · rfl
      · next hb => exact if_neg fun h => hneg ⟨h.1, hb, h.2⟩
    rw [if_neg hneg, hvalue, put_ofNat]
    split
    · next hdec =>
      have hf : ¬2 ^ (n - 1) ≤ field val offs n := fun h =>
        hneg ⟨hdec.1, by rw [hdec.2]; decide, h⟩
      omega
    · omega

theorem print_least (h0 : 0 < w) (hf : field val 0 w = 2 ^ (w - 1)) :
    print .dec true val w 0 false = '-' :: decimal (-2 ^ (w - 1)) := by
  have hpow := Nat.two_pow_pred_mul_two h0
  have hpos := Nat.two_pow_pos (w - 1)
  have hcast : ((2 ^ w : Nat) : Int) = 2 * 2 ^ (w - 1) := by
    rw [← hpow]
    push_cast
    omega
  rw [print_eq h0 (by omega), if_pos ⟨rfl, by decide, hf.ge⟩, hf]
  have hself : 2 ^ w - 2 ^ (w - 1) = 2 ^ (w - 1) := by omega
  rw [put, if_pos rfl, hself, BitVec.toInt_eq_toNat_cond, BitVec.toNat_ofNat,
    Nat.mod_eq_of_lt (by omega), if_neg (by omega), hcast]
  congr 2
  omega

end Field

namespace IntType

variable {type : IntType} {x : Int}

theorem two_pow_bitSize (h0 : 0 < type.bitSize) :
    (2 ^ type.bitSize : Int) = 2 * 2 ^ (type.bitSize - 1) ∧ (0 : Int) < 2 ^ (type.bitSize - 1) := by
  constructor
  · exact_mod_cast (Nat.two_pow_pred_mul_two h0).symm.trans (Nat.mul_comm _ _)
  · exact_mod_cast Nat.two_pow_pos (type.bitSize - 1)

theorem emod_of_represents (h0 : 0 < type.bitSize) (h : type.Represents x) :
    x % 2 ^ type.bitSize = if x < 0 then x + 2 ^ type.bitSize else x := by
  obtain ⟨hpow, hpos⟩ := two_pow_bitSize h0
  unfold Represents at h
  split
  · rw [← Int.add_emod_right, Int.emod_eq_of_lt]
    · split at h <;> omega
    · omega
  · rw [Int.emod_eq_of_lt (by omega)]
    split at h <;> omega

theorem ofBits_emod (h0 : 0 < type.bitSize) (h : type.Represents x) :
    type.ofBits (x % 2 ^ type.bitSize).toNat = x := by
  obtain ⟨hpow, hpos⟩ := two_pow_bitSize h0
  have hcast : ((2 ^ (type.bitSize - 1) : Nat) : Int) = 2 ^ (type.bitSize - 1) := by norm_cast
  rw [emod_of_represents h0 h, ofBits]
  unfold Represents at h
  by_cases hneg : x < 0
  · split at h
    · rw [if_pos ⟨‹_›, by omega⟩]
      omega
    · omega
  · rw [if_neg hneg, if_neg]
    · omega
    · rintro ⟨hs, hle⟩
      rw [if_pos hs] at h
      omega

theorem ofBits_toNat {w : Nat} (hw : 0 < w) (isSigned : Bool) (val : BitVec w) :
    ofBits ⟨w, isSigned⟩ val.toNat = if isSigned then val.toInt else val.toNat := by
  have hpow := Nat.two_pow_pred_mul_two hw
  unfold ofBits
  cases isSigned
  · simp
  · rw [BitVec.toInt_eq_toNat_cond, if_pos rfl]
    simp only [true_and]
    split_ifs
    · omega
    · rfl
    · rfl
    · omega

theorem Represents.mono {n m : Nat} {isSigned : Bool} (hnm : n ≤ m)
    (h : Represents ⟨n, isSigned⟩ x) : Represents ⟨m, isSigned⟩ x := by
  have hpow : (2 ^ n : Int) ≤ 2 ^ m := by
    exact_mod_cast Nat.pow_le_pow_right (show 0 < 2 by omega) hnm
  have hpow' : (2 ^ (n - 1) : Int) ≤ 2 ^ (m - 1) := by
    exact_mod_cast Nat.pow_le_pow_right (show 0 < 2 by omega) (show n - 1 ≤ m - 1 by omega)
  unfold Represents at h ⊢
  dsimp only at h ⊢
  split at h
  · next hs =>
    rw [if_pos hs]
    omega
  · next hs =>
    rw [if_neg hs]
    omega

theorem bitSize_le_holder (h : type.bitSize ≤ 64) : type.bitSize ≤ type.holder.width := by
  unfold holder
  cases type.isSigned <;> split_ifs <;> simp only [Tag.width] <;> omega

theorem holder_isSigned (type : IntType) : type.holder.isSigned = type.isSigned := by
  unfold holder
  cases type.isSigned <;> simp only [Bool.false_eq_true, if_false, if_true] <;> split_ifs <;> rfl

theorem holder_represents (hn : type.bitSize ≤ 64) (h : type.Represents x) :
    type.holder.Represents x := by
  have hwide : Represents ⟨type.holder.width, type.isSigned⟩ x :=
    Represents.mono (bitSize_le_holder hn) h
  rw [← holder_isSigned] at hwide
  exact hwide

theorem parse_of_numeral {text : List Char} (hn : type.bitSize ≤ 64) (h : type.Represents x)
    (htext : Numeral text x) :
    (type.parse text).1.value = x ∧ (type.parse text).2 = text.length := by
  have hholder := holder_represents hn h
  have hword : Represents ⟨64, type.isSigned⟩ x := h.mono hn
  have hread : fromString type.holder text = (type.holder.convert x, text.length) := by
    unfold Represents at hword
    unfold Tag.Represents at hholder
    refine fromString_numeral _ htext ?_ ?_ fun h8 => ?_
    · split at hword <;> dsimp only at hword <;> omega
    · split at hword <;> dsimp only at hword <;> omega
    · rw [h8] at hholder
      split at hholder <;> omega
  constructor
  · show (fromString type.holder text).1 = x
    rw [hread, Tag.convert_of_represents hholder]
  · show (fromString type.holder text).2 = text.length
    rw [hread]

end IntType

/-- The text of a value in base ten, from the printer for words of `w` bits: `IntHelper<64>` for
what is in memory, and `IntHelper<32>` for the narrower results of functions. -/
def IntType.text (type : IntType) (w : Nat) (x : Int) : List Char :=
  print .dec type.isSigned (BitVec.ofInt w x) type.bitSize 0 false

def ParsesBack (type : IntType) (w : Nat) (x : Int) : Prop :=
  (type.parse (type.text w x)).1.value = x ∧
    (type.parse (type.text w x)).2 = (type.text w x).length

theorem field_ofInt {w n : Nat} (hn : n ≤ w) (x : Int) :
    field (BitVec.ofInt w x) 0 n = (x % 2 ^ n).toNat := by
  have hdvd : (2 ^ n : Int) ∣ 2 ^ w := by exact_mod_cast Nat.pow_dvd_pow 2 hn
  have hcast : ((2 ^ n : Nat) : Int) = 2 ^ n := by norm_cast
  have hcast' : ((2 ^ w : Nat) : Int) = 2 ^ w := by norm_cast
  have hpos : (2 ^ w : Int) ≠ 0 := by
    exact_mod_cast (Nat.two_pow_pos w).ne'
  rw [field, Nat.pow_zero, Nat.div_one, BitVec.toNat_ofInt, hcast', ← Int.emod_emod_of_dvd x hdvd]
  apply Int.ofNat_inj.mp
  have hnonneg := Int.emod_nonneg x hpos
  rw [Int.natCast_emod, hcast, Int.toNat_of_nonneg hnonneg, Int.toNat_of_nonneg]
  exact Int.emod_nonneg _ (by rw [← hcast]; exact_mod_cast (Nat.two_pow_pos n).ne')

theorem scanNumber_minus_minus (rest : List Char) : (scanNumber ('-' :: '-' :: rest)).used = 0 :=
  rfl

theorem parsesBack_iff {type : IntType} {w : Nat} {x : Int} (hw : w = 32 ∨ w = 64)
    (h0 : 0 < type.bitSize) (hn : type.bitSize ≤ w) (hx : type.Represents x) :
    ParsesBack type w x ↔
      ¬(type.isSigned = true ∧ type.bitSize = w ∧ x = -2 ^ (w - 1)) := by
  have hfield := field_ofInt hn x
  have hvalue := IntType.ofBits_emod h0 hx
  constructor
  · rintro hback ⟨hs, hwidth, rfl⟩
    have htext : type.text w (-2 ^ (w - 1)) = '-' :: decimal (-2 ^ (w - 1)) := by
      rw [IntType.text, hs, hwidth]
      rw [hwidth] at hfield
      refine print_least (by omega) (hfield.trans ?_)
      rcases hw with rfl | rfl <;> rfl
    have hsigns : decimal (-2 ^ (w - 1)) = '-' :: Nat.toDigits 10 (2 ^ (w - 1)) := by
      rcases hw with rfl | rfl <;> rfl
    have hused : (type.parse (type.text w (-2 ^ (w - 1)))).2 = 0 := by
      obtain ⟨n, isSigned⟩ := type
      cases hs
      cases hwidth
      rcases hw with rfl | rfl
      · exact scanNumber_minus_minus (Nat.toDigits 10 (2 ^ 31))
      · exact scanNumber_minus_minus (Nat.toDigits 10 (2 ^ 63))
    have hlength := hback.2
    rw [hused, htext] at hlength
    exact absurd hlength.symm (Nat.succ_ne_zero _)
  · intro hmin
    refine IntType.parse_of_numeral (by omega) hx ?_
    rw [← hfield] at hvalue
    have hprint : type.text w x =
        decimal (shown .dec type (field (BitVec.ofInt w x) 0 type.bitSize)) := by
      refine print_eq_inBase h0 (by omega) ?_
      rintro ⟨-, hs, hwidth, hleast⟩
      refine hmin ⟨hs, hwidth, ?_⟩
      rw [← hvalue, hleast, IntType.ofBits, if_pos ⟨hs, Nat.le_refl _⟩, hwidth]
      rcases hw with rfl | rfl <;> rfl
    rw [hprint, shown, if_neg (by decide), hvalue]
    exact numeral_decimal x

theorem parsesBack_short :
    (0 < (⟨16, true⟩ : IntType).bitSize ∧ (⟨16, true⟩ : IntType).Represents (-2 ^ 15)) ∧
      ParsesBack ⟨16, true⟩ 64 (-2 ^ 15) :=
  ⟨by decide, (parsesBack_iff (Or.inr rfl) (by decide) (by decide) (by decide)).mpr (by decide)⟩

theorem long_not_parsesBack :
    (⟨64, true⟩ : IntType).Represents (-2 ^ 63) ∧
      (⟨64, true⟩ : IntType).text 64 (-2 ^ 63) = "--9223372036854775808".toList ∧
      ¬ParsesBack ⟨64, true⟩ 64 (-2 ^ 63) := by
  refine ⟨by decide, by decide, fun h => ?_⟩
  exact absurd h.2 (by decide)

end ZeroBugs.Typez
