import ZeroBugs.Interp.MultiplicativeExpr
import ZeroBugs.Lib.TwosComplement

/-! # Bitwise operators -/
namespace ZeroBugs.Interp.BitExpr

open Typez Lib.TwosComplement
open Lib.NumberText (numeral_decimal)
open Interp.MultiplicativeExpr (dvd_u64_sub ofInt)

inductive Bitwise where
  | and | or | xor
  deriving DecidableEq

inductive Oper where
  | leftShift | rightShift
  | bitwise (b : Bitwise)
  deriving DecidableEq

def Bitwise.bit : Bitwise → Bool → Bool → Bool
  | .and, x, y => x && y
  | .or, x, y => x || y
  | .xor, x, y => x ^^ y

def Bitwise.word {w : Nat} : Bitwise → BitVec w → BitVec w → BitVec w
  | .and, x, y => x &&& y
  | .or, x, y => x ||| y
  | .xor, x, y => x ^^^ y

/-- The compound assignments to a variable of `w` bits. The processor takes the count of
a shift modulo the width. -/
def Oper.assign {w : Nat} (oper : Oper) (lbits : BitVec w) (rbits : BitVec 64) : BitVec w :=
  match oper with
  | .leftShift => lbits <<< (rbits.toNat % w)
  | .rightShift => lbits >>> (rbits.toNat % w)
  | .bitwise b => (b.word (lbits.setWidth 64) rbits).setWidth w

def bits (v : Variant) : BitVec 64 := BitVec.ofInt 64 v.value

def mask (type : IntType) : BitVec 64 :=
  let n := if type.isSigned ∧ type.bitSize % 2 = 0 then type.bitSize - 1 else type.bitSize
  let mask := 1#64 <<< (n - 1)
  ((mask - 1) <<< 1) ||| 1

def unsignedType (lval rval : Variant) : Option Tag :=
  let type := if lval.tag.isSigned then none else some lval.tag
  if rval.tag.isSigned then type else some rval.tag

def resultType (oper : Oper) (lval rval : Variant) : Tag :=
  if 32 ≤ lval.tag.width then
    match oper with
    | .leftShift | .rightShift => lval.tag
    | .bitwise _ => (unsignedType lval rval).getD lval.tag
  else
    match oper with
    | .leftShift | .rightShift => if lval.tag.isSigned then .int32 else .uint32
    | .bitwise _ =>
      if (unsignedType lval rval).isSome then .uint32
      else if lval.tag.isSigned then .int32 else .uint32

/-- `eval_impl` on integers, with the warnings of which the context is notified. -/
def evalImpl (oper : Oper) (lval rval : Variant) : List String × Variant :=
  let mask := mask lval.tag.type
  let rbits := bits rval
  let warnings :=
    if rval.tag.isSigned ∧ rbits.getLsbD 63 then ["Warning: negative shift count"] else []
  let type := resultType oper lval rval
  let lbits := bits lval &&& mask
  if 32 ≤ lval.tag.width then (warnings, variantAssign type (oper.assign lbits rbits).toNat)
  else (warnings, variantAssign type (oper.assign (lbits.setWidth 32) rbits).toNat)

def value (b : Bitwise) (lval rval : Variant) : Int := (evalImpl (.bitwise b) lval rval).2.value

def width (b : Bitwise) (lval rval : Variant) : Nat := (resultType (.bitwise b) lval rval).width

/-- The result is that of the extended operands, modulo two to the width of its type. -/
def Congruent (b : Bitwise) (lval rval : Variant) : Prop :=
  (2 ^ width b lval rval : Int) ∣ value b lval rval - (b.word (bits lval) (bits rval)).toNat

/-- Agreement with two's complement, where the right operand is not wider than the result; operands
of one type may be exchanged, and an operand with itself gives the operand. -/
structure Agrees (b : Bitwise) (lval rval : Variant) : Prop where
  congruent : rval.tag.width ≤ width b lval rval → Congruent b lval rval
  comm : lval.tag = rval.tag → value b lval rval = value b rval lval
  self : lval = rval → b ≠ .xor → value b lval rval = lval.value

/-- The bits of the left operand that the mask takes away do not count, and the number
that an 8-bit type reads does not overflow or all of its bits are to be set. -/
def Kept (b : Bitwise) (lval rval : Variant) : Prop :=
  (lval.value < 0 → ∀ i < width b lval rval, lval.tag.width - 1 ≤ i →
    b.bit true ((bits rval).getLsbD i) = b.bit false ((bits rval).getLsbD i)) ∧
  (rval.tag = .uint8 → 2 ^ 63 ≤ lval.value → b ≠ .and →
    ∀ i < 8, b.bit ((bits lval).getLsbD i) ((bits rval).getLsbD i) = true)

variable {w : Nat}

@[simp] theorem getLsbD_word (b : Bitwise) (x y : BitVec w) (i : Nat) :
    (b.word x y).getLsbD i = b.bit (x.getLsbD i) (y.getLsbD i) := by
  cases b <;> simp [Bitwise.word, Bitwise.bit]

def magnitudeBits (t : Tag) : Nat := if t.isSigned then t.width - 1 else t.width

theorem mask_eq (t : Tag) : mask t.type = ones 64 (magnitudeBits t) := by
  cases t <;> decide

theorem value_bounds (v : Variant) :
    -2 ^ magnitudeBits v.tag ≤ v.value ∧ v.value < 2 ^ magnitudeBits v.tag := by
  obtain ⟨tag, x, h⟩ := v
  unfold magnitudeBits
  cases hs : tag.isSigned
  · simp only [Tag.Represents, hs, Bool.false_eq_true, if_false] at h ⊢
    have hpos : (0 : Int) < 2 ^ tag.width := Int.pow_pos (by decide)
    omega
  · simpa only [Tag.Represents, hs, if_true] using h

variable {v : Variant}

theorem magnitudeBits_of_neg (h : v.value < 0) :
    magnitudeBits v.tag = v.tag.width - 1 := by
  obtain ⟨tag, x, hx⟩ := v
  cases hs : tag.isSigned
  · simp only [Tag.Represents, hs, Bool.false_eq_true, if_false] at hx
    exact absurd h (Int.not_lt.mpr hx.1)
  · simp only [magnitudeBits, hs, if_true]

theorem getLsbD_bits_of_le {i : Nat} (hi : i < 64) (hm : magnitudeBits v.tag ≤ i) :
    (bits v).getLsbD i = decide (v.value < 0) :=
  getLsbD_ofInt_of_le (value_bounds v).1 (value_bounds v).2 hm hi

def masked (v : Variant) : BitVec 64 := bits v &&& mask v.tag.type

theorem getLsbD_masked {i : Nat} (hi : i < 64) :
    (masked v).getLsbD i = ((bits v).getLsbD i && decide (i < magnitudeBits v.tag)) := by
  rw [masked, mask_eq, BitVec.getLsbD_and, getLsbD_ones hi]

section Stored

variable {b : Bitwise} {l r : Variant}

theorem dvd_masked_iff (hw : w ≤ 64) :
    (2 ^ w : Int) ∣ (b.word (masked l) (bits r)).toNat - (b.word (bits l) (bits r)).toNat ↔
      (l.value < 0 → ∀ i < w, l.tag.width - 1 ≤ i →
        b.bit true ((bits r).getLsbD i) = b.bit false ((bits r).getLsbD i)) := by
  rw [dvd_sub_toNat_iff]
  constructor
  · intro h hneg i hi hle
    have hmag := magnitudeBits_of_neg hneg
    have hbit := h i hi
    rw [getLsbD_word, getLsbD_word, getLsbD_masked (by omega),
      getLsbD_bits_of_le (by omega) (by omega), decide_eq_true hneg,
      decide_eq_false (by omega)] at hbit
    exact hbit.symm
  · intro h i hi
    rw [getLsbD_word, getLsbD_word, getLsbD_masked (by omega)]
    by_cases hmag : i < magnitudeBits l.tag
    · rw [decide_eq_true hmag, Bool.and_true]
    · rw [getLsbD_bits_of_le (by omega) (by omega), decide_eq_false hmag, Bool.and_false]
      by_cases hneg : l.value < 0
      · rw [decide_eq_true hneg]
        have hle := magnitudeBits_of_neg hneg
        exact (h hneg i hi (by omega)).symm
      · rw [decide_eq_false hneg]

theorem value_wide (h : 32 ≤ l.tag.width) :
    value b l r = (variantAssign (resultType (.bitwise b) l r)
      (b.word (masked l) (bits r)).toNat).value := by
  rw [value, evalImpl]
  simp only [if_pos h, Oper.assign, BitVec.setWidth_eq]
  rfl

theorem value_narrow (h : ¬32 ≤ l.tag.width) :
    value b l r = (variantAssign (resultType (.bitwise b) l r)
      ((b.word (masked l) (bits r)).setWidth 32).toNat).value := by
  have hword : (b.word (((masked l).setWidth 32).setWidth 64) (bits r)).setWidth 32 =
      (b.word (masked l) (bits r)).setWidth 32 := by
    refine BitVec.eq_of_getLsbD_eq fun i hi => ?_
    have hi' : i < 64 := by omega
    simp only [BitVec.getLsbD_setWidth, getLsbD_word, hi, hi', decide_true, Bool.true_and]
  rw [value, evalImpl]
  simp only [if_neg h, Oper.assign]
  exact congrArg (fun x : BitVec 32 => (variantAssign _ x.toNat).value) hword

@[simp] theorem tag_variantAssign (t : Tag) (x : Int) : (variantAssign t x).tag = t :=
  holder_type t

theorem represents_value : (resultType (.bitwise b) l r).Represents (value b l r) := by
  by_cases h : 32 ≤ l.tag.width
  · rw [value_wide h]
    simpa using (variantAssign (resultType (.bitwise b) l r) _).represents
  · rw [value_narrow h]
    simpa using (variantAssign (resultType (.bitwise b) l r) _).represents

theorem dvd_variantAssign_iff {t : Tag} {x : Nat} (hx : x < 2 ^ 64)
    (h : t.width = 8 → x < 2 ^ 63) (y : Int) :
    (2 ^ t.width : Int) ∣ (variantAssign t x).value - y ↔ (2 ^ t.width : Int) ∣ x - y := by
  rw [variantAssign, parse_numeral t (numeral_decimal x) (by omega) (by omega) (by omega)]
  have hconv := (Tag.convert_eq_iff (Tag.represents_convert t x)).mp rfl
  rw [show (x : Int) - y = x - t.convert x + (t.convert x - y) by omega, Int.dvd_add_right hconv]

theorem variantAssign_overflow {x : Nat} (hlo : 2 ^ 63 ≤ x) :
    (variantAssign .uint8 x).value = 255 := by
  show (fromString (Tag.type .uint8).holder _).1 = 255
  show Tag.uint8.convert (int8FromString (Lib.NumberText.decimal x)).1 = 255
  rw [int8FromString_numeral (numeral_decimal x), (numeral_decimal x).strtoll_eq,
    show max (min (x : Int) (2 ^ 63 - 1)) (-2 ^ 63) = 2 ^ 63 - 1 by omega]
  show Tag.uint8.convert (Tag.int8.convert (2 ^ 63 - 1)) = 255
  decide

theorem resultType_eight (h : (resultType (.bitwise b) l r).width = 8) : r.tag = .uint8 := by
  obtain ⟨lt, lv, hl⟩ := l
  obtain ⟨rt, rv, hr⟩ := r
  cases lt <;> cases rt <;> first | rfl | cases h

theorem resultType_narrow (h : ¬32 ≤ l.tag.width) :
    (resultType (.bitwise b) l r).width = 32 := by
  unfold resultType
  rw [if_neg h]
  dsimp only
  split
  · rfl
  · split <;> rfl

theorem tag_of_large (h : 2 ^ 63 ≤ l.value) : l.tag = .uint64 := by
  by_contra hne
  have hlt := (MultiplicativeExpr.represents_int64 hne).2
  simp only [Tag.width] at hlt
  omega

theorem resultType_of_large (hr : r.tag = .uint8) (h : 2 ^ 63 ≤ l.value) :
    resultType (.bitwise b) l r = .uint8 := by
  simp [resultType, unsignedType, tag_of_large h, hr, Tag.width, Tag.isSigned]

theorem le_toNat_iff (x : BitVec 64) : 2 ^ 63 ≤ x.toNat ↔ x.getLsbD 63 = true := by
  rw [BitVec.getLsbD, Nat.testBit_eq_decide_div_mod_eq]
  have hlt := x.isLt
  simp only [decide_eq_true_eq]
  omega

theorem getLsbD_masked_last : (masked l).getLsbD 63 = true ↔ 2 ^ 63 ≤ l.value := by
  have hlarge (h : l.tag = .uint64) : (bits l).getLsbD 63 = true ↔ 2 ^ 63 ≤ l.value := by
    obtain ⟨hlo, hhi⟩ := MultiplicativeExpr.represents_uint64 h
    have hword : (bits l).toNat = l.value.toNat := toNat_ofInt_of_nonneg hlo hhi
    rw [← le_toNat_iff, hword]
    omega
  rw [getLsbD_masked (by decide), Bool.and_eq_true, decide_eq_true_eq]
  constructor
  · intro h
    have htag : l.tag = .uint64 := by
      have hmag := h.2
      revert hmag
      cases l.tag <;> decide
    exact (hlarge htag).mp h.1
  · intro h
    have htag := tag_of_large h
    refine ⟨(hlarge htag).mpr h, ?_⟩
    rw [htag]
    decide

theorem overflow_iff (hr : r.tag = .uint8) :
    2 ^ 63 ≤ (b.word (masked l) (bits r)).toNat ↔ 2 ^ 63 ≤ l.value ∧ b ≠ .and := by
  have hrbit : (bits r).getLsbD 63 = false := by
    have hpos : Tag.uint8.Represents r.value := hr ▸ r.represents
    rw [getLsbD_bits_of_le (by decide) (by rw [hr]; decide), decide_eq_false]
    exact Int.not_lt.mpr hpos.1
  rw [le_toNat_iff, getLsbD_word, hrbit, ← getLsbD_masked_last]
  cases b <;> simp [Bitwise.bit]

theorem width_le (t : Tag) : t.width ≤ 64 := by cases t <;> decide

theorem congruent_iff : Congruent b l r ↔ Kept b l r := by
  have hlt := (b.word (masked l) (bits r)).isLt
  by_cases hwide : 32 ≤ l.tag.width
  · by_cases hover : r.tag = .uint8 ∧ 2 ^ 63 ≤ l.value ∧ b ≠ .and
    · -- the number is read as 255
      obtain ⟨hr, hl, hb⟩ := hover
      have htype := resultType_of_large (b := b) hr hl
      have h255 : value b l r = (ones 64 8).toNat := by
        rw [value_wide hwide, htype, variantAssign_overflow ((overflow_iff hr).mpr ⟨hl, hb⟩)]
        rfl
      have hones : ∀ i < 8, (ones 64 8).getLsbD i = true := by decide
      rw [Congruent, Kept, width, htype, h255]
      rw [dvd_sub_toNat_iff]
      constructor
      · intro h
        refine ⟨fun hneg => absurd hneg (by omega), fun _ _ _ i hi => ?_⟩
        rw [← getLsbD_word, ← h i hi, hones i hi]
      · intro h i hi
        rw [hones i hi, getLsbD_word, h.2 hr hl hb i hi]
    · have hstore : (resultType (.bitwise b) l r).width = 8 →
          (b.word (masked l) (bits r)).toNat < 2 ^ 63 := by
        intro h8
        have hr := resultType_eight h8
        exact Nat.not_le.mp fun h => hover ⟨hr, (overflow_iff hr).mp h⟩
      rw [Congruent, value_wide hwide, width, dvd_variantAssign_iff hlt hstore,
        dvd_masked_iff (width_le _)]
      exact ⟨fun h => ⟨h, fun hr hl hb => absurd ⟨hr, hl, hb⟩ hover⟩, fun h => h.1⟩
  · have h32 := resultType_narrow (b := b) (r := r) hwide
    have hlt32 := ((b.word (masked l) (bits r)).setWidth 32).isLt
    have hcut : (2 ^ 32 : Int) ∣ ((b.word (masked l) (bits r)).setWidth 32).toNat -
        (b.word (masked l) (bits r)).toNat := by
      rw [BitVec.toNat_setWidth]
      omega
    have hsmall : ¬2 ^ 63 ≤ l.value := by
      intro h
      rw [tag_of_large h] at hwide
      exact hwide (by decide)
    have hsum : (((b.word (masked l) (bits r)).setWidth 32).toNat : Int) -
        (b.word (bits l) (bits r)).toNat =
        ((b.word (masked l) (bits r)).setWidth 32).toNat - (b.word (masked l) (bits r)).toNat +
        ((b.word (masked l) (bits r)).toNat - (b.word (bits l) (bits r)).toNat) := by omega
    rw [Congruent, value_narrow hwide, width, dvd_variantAssign_iff (by omega) (by omega), hsum,
      h32, Int.dvd_add_right hcut, dvd_masked_iff (by decide), Kept, width, h32]
    exact ⟨fun h => ⟨h, fun _ hl => absurd hl hsmall⟩, fun h => h.1⟩

end Stored

section SameType

variable {b : Bitwise} {l r : Variant}

def promoted : Tag → Tag
  | .int8 | .int16 | .int32 => .int32
  | .uint8 | .uint16 | .uint32 => .uint32
  | .int64 => .int64
  | .uint64 => .uint64

theorem resultType_of_tag_eq (h : l.tag = r.tag) :
    resultType (.bitwise b) l r = promoted l.tag := by
  unfold resultType unsignedType
  rw [← h]
  cases l.tag <;> rfl

theorem width_le_promoted (t : Tag) : t.width ≤ (promoted t).width := by
  cases t <;> decide

theorem represents_promoted (v : Variant) : (promoted v.tag).Represents v.value := by
  obtain ⟨tag, x, h⟩ := v
  cases tag <;> simp only [promoted, Tag.Represents, Tag.width, Tag.isSigned, Bool.false_eq_true,
    if_true, if_false] at h ⊢ <;> omega

theorem word_comm (b : Bitwise) (x y : BitVec w) : b.word x y = b.word y x := by
  refine BitVec.eq_of_getLsbD_eq fun i hi => ?_
  cases b <;> simp [Bitwise.bit, Bool.and_comm, Bool.or_comm, Bool.xor_comm]

theorem dvd_value_sub (t : Tag) (v : Variant) :
    (2 ^ t.width : Int) ∣ v.value - (bits v).toNat := by
  have hbits : ((bits v).toNat : Int) = Tag.uint64.convert v.value := by
    exact Int.toNat_of_nonneg (Int.emod_nonneg _ (by decide))
  rw [hbits, ← Int.dvd_neg, Int.neg_sub, dvd_u64_sub, Int.sub_self]
  exact Int.dvd_zero _

theorem value_comm (htag : l.tag = r.tag) (hl : Congruent b l r) (hr : Congruent b r l) :
    value b l r = value b r l := by
  have htype := resultType_of_tag_eq (b := b) htag
  have htype' := resultType_of_tag_eq (b := b) htag.symm
  rw [← htag] at htype'
  have hrep := represents_value (b := b) (l := l) (r := r)
  have hrep' := represents_value (b := b) (l := r) (r := l)
  rw [Congruent, width, htype] at hl
  rw [Congruent, width, htype', word_comm] at hr
  rw [htype] at hrep
  rw [htype'] at hrep'
  rw [← MultiplicativeExpr.dvd_sub_iff_eq hrep hrep']
  have hsub := Int.dvd_sub hl hr
  rwa [sub_sub_sub_cancel_right] at hsub

theorem value_self (hx : b ≠ .xor) (hl : Congruent b l l) : value b l l = l.value := by
  have htype := resultType_of_tag_eq (b := b) (l := l) rfl
  have hrep := represents_value (b := b) (l := l) (r := l)
  have hword : b.word (bits l) (bits l) = bits l := by
    cases b <;> simp [Bitwise.word] at hx ⊢
  rw [htype] at hrep
  rw [Congruent, width, htype, hword] at hl
  rw [← MultiplicativeExpr.dvd_sub_iff_eq hrep (represents_promoted l)]
  have hsub := Int.dvd_sub hl (dvd_value_sub _ l)
  rwa [sub_sub_sub_cancel_right] at hsub

end SameType

theorem agrees_iff (b : Bitwise) (l r : Variant) :
    Agrees b l r ↔ (r.tag.width ≤ width b l r → Kept b l r) ∧ (l.tag = r.tag → Kept b r l) := by
  have hscope : l.tag = r.tag → r.tag.width ≤ width b l r := by
    intro htag
    rw [width, resultType_of_tag_eq htag, htag]
    exact width_le_promoted _
  simp only [← congruent_iff]
  constructor
  · intro h
    refine ⟨h.congruent, fun htag => ?_⟩
    have hl := h.congruent (hscope htag)
    rw [Congruent, width, resultType_of_tag_eq htag, h.comm htag, word_comm] at hl
    rw [Congruent, width, resultType_of_tag_eq htag.symm, ← htag]
    exact hl
  · intro h
    refine ⟨h.1, fun htag => value_comm htag (h.1 (hscope htag)) (h.2 htag), ?_⟩
    intro heq hx
    subst heq
    exact value_self hx (h.1 (hscope rfl))

theorem and_drops_sign :
    evalImpl (.bitwise .and) (ofInt .int32 (-1)) (ofInt .int32 (-1)) =
      (["Warning: negative shift count"], ofInt .int32 2147483647) ∧
    ¬Congruent .and (ofInt .int32 (-1)) (ofInt .int32 (-1)) := by
  refine ⟨by decide +kernel, ?_⟩
  unfold Congruent
  decide +kernel

end ZeroBugs.Interp.BitExpr
