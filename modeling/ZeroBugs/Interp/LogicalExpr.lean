import ZeroBugs.Interp.BitExpr
import ZeroBugs.Typez.BitField

/-! # Truth -/
namespace ZeroBugs.Interp.LogicalExpr

open Typez Lib.NumberText
open Interp.BitExpr (bits)

inductive Operand where
  /-- A literal or a result, which has no debug symbol. -/
  | computed (v : Variant)
  /-- A symbol that the interpreter has made from the text of a number. -/
  | constant (v : Variant)
  | stored (type : Tag) (word : BitVec 64) (base : Base)
  deriving DecidableEq

namespace Operand

def value : Operand → Int
  | computed v | constant v => v.value
  | stored type word _ => type.type.ofBits (field word 0 type.width)

def debugSymbol : Operand → Option (Tag × List Char)
  | computed _ => none
  | constant v => some (v.tag, decimal v.value)
  | stored type word base =>
    some (type, (IntTypeImpl.named type.width type.isSigned).read base (fun _ => word) 0)

/-- What the expression yields: the text of a symbol is parsed by its type. -/
def variant : Operand → Variant
  | computed v => v
  | constant v => (v.tag.type.parse (decimal v.value)).1
  | stored type word base =>
    (type.type.parse
      ((IntTypeImpl.named type.width type.isSigned).read base (fun _ => word) 0)).1

end Operand

def variantPrint (v : Variant) : List Char :=
  match v.tag with
  | .int8 | .int16 | .int32 => decimal (Tag.int32.convert v.value)
  | .uint8 | .uint16 | .uint32 => decimal (Tag.uint32.convert v.value)
  | .int64 | .uint64 => decimal v.value

/-- `variant_convert`: a clone of the symbol keeps its text. -/
def variantConvert (o : Operand) (type : Tag) : Variant :=
  match o.debugSymbol with
  | some (other, text) => if type = other then o.variant else (type.type.parse text).1
  | none => (type.type.parse (variantPrint o.variant)).1

def putInt (x : Int) : Operand :=
  .computed ⟨.int32, Tag.int32.convert x, Tag.represents_convert _ _⟩

inductive Oper where
  | and | or
  deriving DecidableEq

inductive Expr where
  | operand (o : Operand)
  | logical (oper : Oper) (lhs rhs : Expr)
  | negate (arg : Expr)
  | conditional (discr first second : Expr)

def eval : Expr → Operand × List Operand
  | .operand o => (o, [o])
  | .logical oper lhs rhs =>
    let (lval, ltrace) := eval lhs
    let lbits := Tag.int32.convert (variantConvert lval .int32).value
    if (lbits ≠ 0 ∧ oper = .or) ∨ (lbits = 0 ∧ oper = .and) then (putInt lbits, ltrace)
    else
      let (rval, rtrace) := eval rhs
      let rbits := bits (variantConvert rval .int32)
      let result : Bool :=
        match oper with
        | .and => lbits ≠ 0 && rbits ≠ 0
        | .or => lbits ≠ 0 || rbits ≠ 0
      (putInt (if result then 1 else 0), ltrace ++ rtrace)
  | .negate arg =>
    let (v, trace) := eval arg
    (.computed (variantAssign .int32 (if bits v.variant = 0 then 1 else 0)), trace)
  | .conditional discr first second =>
    let (v, trace) := eval discr
    let (result, rest) := if bits v.variant ≠ 0 then eval first else eval second
    (result, trace ++ rest)

def literal (x : Int) : Expr := .operand (putInt x)

structure OneTruth (o : Operand) : Prop where
  and : (eval (.logical .and (.operand o) (literal 1))).1.value = if o.value ≠ 0 then 1 else 0
  or : (eval (.logical .or (.operand o) (literal 0))).1.value = if o.value ≠ 0 then 1 else 0
  negate : (eval (.negate (.operand o))).1.value = if o.value = 0 then 1 else 0
  conditional : ∀ first second, eval (.conditional (.operand o) first second) =
    if o.value ≠ 0 then ((eval first).1, o :: (eval first).2)
    else ((eval second).1, o :: (eval second).2)
  andEvaluates : ∀ rhs, (eval (.logical .and (.operand o) rhs)).2 =
    o :: if o.value ≠ 0 then (eval rhs).2 else []
  orEvaluates : ∀ rhs, (eval (.logical .or (.operand o) rhs)).2 =
    o :: if o.value = 0 then (eval rhs).2 else []

def toInt (o : Operand) : Int := (variantConvert o .int32).value

structure Conversions (o : Operand) : Prop where
  zero : o.value = 0 → toInt o = 0
  one : toInt o = 1 ↔ (2 ^ 32 : Int) ∣ o.value - 1
  variant : o.value = 0 ∨ (2 ^ 32 : Int) ∣ o.value - 1 → o.variant.value = o.value

theorem variantPrint_eq (v : Variant) : variantPrint v = decimal v.value := by
  obtain ⟨tag, x, h⟩ := v
  cases tag <;> simp only [variantPrint, Tag.Represents, Tag.convert, Tag.isSigned, Tag.width,
    if_true, Bool.false_eq_true, if_false] at h ⊢ <;> congr 1 <;> omega

theorem convert_one_iff (y : Int) : Tag.int32.convert y = 1 ↔ (2 ^ 32 : Int) ∣ y - 1 :=
  Tag.convert_eq_iff (by decide)

section Numerals

variable {text : List Char} {y : Int} (h : Numeral text y) (hlo : -2 ^ 63 ≤ y) (hhi : y < 2 ^ 64)
include h hlo hhi

theorem toInt_of_symbol {o : Operand} {t : Tag} (hsymbol : o.debugSymbol = some (t, text))
    (hvariant : o.variant = (t.type.parse text).1) : toInt o = Tag.int32.convert y := by
  have hparse := parse_numeral .int32 h hlo hhi nofun
  unfold toInt variantConvert
  rw [hsymbol]
  dsimp only
  split
  · next heq => rw [hvariant, ← heq, hparse]
  · rw [hparse]

end Numerals

theorem bounds (v : Variant) : -2 ^ 63 ≤ v.value ∧ v.value < 2 ^ 64 ∧
    (v.tag.width = 8 → v.value < 2 ^ 63) := by
  obtain ⟨tag, x, h⟩ := v
  cases tag <;> simp only [Tag.Represents, Tag.isSigned, Tag.width, if_true, Bool.false_eq_true,
    if_false] at h ⊢ <;> omega

theorem conversions_computed (v : Variant) : Conversions (.computed v) := by
  obtain ⟨hlo, hhi, -⟩ := bounds v
  have hint : toInt (.computed v) = Tag.int32.convert v.value := by
    show ((Tag.type .int32).parse (variantPrint v)).1.value = _
    rw [variantPrint_eq, parse_numeral .int32 (numeral_decimal v.value) hlo hhi nofun]
  refine ⟨fun h0 => ?_, ?_, fun _ => rfl⟩
  · rw [hint, show v.value = 0 from h0]
    rfl
  · rw [hint, convert_one_iff]
    rfl

theorem conversions_constant (v : Variant) : Conversions (.constant v) := by
  obtain ⟨hlo, hhi, hchar⟩ := bounds v
  have hint : toInt (.constant v) = Tag.int32.convert v.value :=
    toInt_of_symbol (numeral_decimal v.value) hlo hhi rfl rfl
  refine ⟨fun h0 => ?_, ?_, fun _ => ?_⟩
  · rw [hint, show v.value = 0 from h0]
    rfl
  · rw [hint, convert_one_iff]
    rfl
  · show (v.tag.type.parse (decimal v.value)).1.value = v.value
    rw [parse_numeral v.tag (numeral_decimal v.value) hlo hhi hchar]
    exact Tag.convert_of_represents v.represents

/-- A number that is shown for the bits of a variable, and the value of the variable. -/
def ShownFor (t : Tag) (y value : Int) : Prop :=
  (-2 ^ 63 ≤ y ∧ y < 2 ^ 64 ∧ (t.width = 8 → y < 2 ^ 63)) ∧
    t.Represents value ∧ (2 ^ t.width : Int) ∣ y - value ∧
    (value = 0 → y = 0) ∧ ((2 ^ 32 : Int) ∣ y - 1 ↔ (2 ^ 32 : Int) ∣ value - 1)

theorem shownFor (base : Base) (t : Tag) {m : Nat} (hm : m < 2 ^ t.width) :
    ShownFor t (shown base t.type m) (t.type.ofBits m) := by
  have hcases : shown base t.type m = m ∨ shown base t.type m = t.type.ofBits m := by
    unfold shown
    split
    · exact Or.inl rfl
    · exact Or.inr rfl
  have hbits : t.type.ofBits m =
      if t.isSigned = true ∧ 2 ^ (t.width - 1) ≤ m then (m : Int) - 2 ^ t.width else m := rfl
  generalize shown base t.type m = y at hcases ⊢
  generalize t.type.ofBits m = value at hcases hbits ⊢
  cases t <;>
    simp only [ShownFor, Tag.Represents, Tag.isSigned, Tag.width, Bool.false_eq_true, false_and,
      if_false, if_true, true_and] at hbits hm ⊢ <;>
    omega

theorem parse_of_scan_none {text : List Char} (h : scanNumber text = ⟨false, 0, 0⟩) :
    ((Tag.type .int32).parse text).1.value = 0 := by
  have hll : strtoll text = 0 := by
    rw [strtoll, h]
    rfl
  have hull : strtoull text = 0 := by
    rw [strtoull, h]
    rfl
  show Tag.int32.convert (fromStringSigned text) = 0
  have hzero : fromStringSigned text = 0 := by
    unfold fromStringSigned
    rw [hll, hull]
    split <;> rfl
  rw [hzero]
  rfl

def storedText (t : Tag) (word : BitVec 64) (base : Base) : List Char :=
  (IntTypeImpl.named t.width t.isSigned).read base (fun _ => word) 0

theorem storedText_cases (t : Tag) (word : BitVec 64) (base : Base) :
    (t.width = 8 ∧ (0x20 ≤ field word 0 t.width ∧ field word 0 t.width ≤ 0x7e) ∧
      ∃ c, storedText t word base = ['\'', c, '\'']) ∨
    (t = .int64 ∧ field word 0 t.width = 2 ^ 63 ∧
      ∃ text, storedText t word base = '-' :: '-' :: text) ∨
    Numeral (storedText t word base) (shown base t.type (field word 0 t.width)) := by
  have hpos : 0 < t.width := by cases t <;> decide
  have hle : 0 + t.width ≤ 64 := by cases t <;> decide
  by_cases hquoted : t.width = 8 ∧ isPrint (word.toNat % 256) = true ∧ base = .dec
  · obtain ⟨h8, hprint, rfl⟩ := hquoted
    refine Or.inl ⟨h8, ?_, Char.ofNat (word.toNat % 256), ?_⟩
    · rw [h8, field, Nat.pow_zero, Nat.div_one]
      simpa [isPrint] using hprint
    · exact if_pos ⟨by simp [IntTypeImpl.named, h8], h8, hprint, rfl⟩
  · have hplain : storedText t word base = print base t.isSigned word t.width 0 false :=
      print_of_not_quoted hquoted _
    rw [hplain]
    by_cases hleast : base = .dec ∧ t.isSigned = true ∧ t.width = 64 ∧
        field word 0 t.width = 2 ^ (t.width - 1)
    · obtain ⟨rfl, hs, h64, hfield⟩ := hleast
      have ht : t = .int64 := by
        revert hs h64
        cases t <;> decide
      subst ht
      exact Or.inr (Or.inl ⟨rfl, hfield, _, print_least (by decide) hfield⟩)
    · right
      right
      rw [print_eq_inBase hpos hle hleast]
      refine numeral_inBase ?_
      rintro rfl
      rw [shown, if_pos rfl]
      omega

theorem conversions_stored (t : Tag) (word : BitVec 64) (base : Base) :
    Conversions (.stored t word base) := by
  obtain ⟨⟨hlo, hhi, hchar⟩, hrep, hcong, hzero, hone⟩ := shownFor base t (field_lt word 0 t.width)
  have hdef : toInt (.stored t word base) =
      (if Tag.int32 = t then (t.type.parse (storedText t word base)).1
        else ((Tag.type .int32).parse (storedText t word base)).1).value := rfl
  rcases storedText_cases t word base with
    ⟨h8, hrange, c, htext⟩ | ⟨rfl, hleast, text, htext⟩ | htext
  · have hint : toInt (.stored t word base) = 0 := by
      rw [hdef, if_neg (by rintro rfl; cases h8), htext]
      exact parse_of_scan_none rfl
    have hvalue : (Operand.stored t word base).value = field word 0 t.width := by
      refine if_neg fun h => ?_
      have hsign : 2 ^ (t.width - 1) ≤ field word 0 t.width := h.2
      rw [h8] at hsign hrange
      omega
    refine ⟨fun _ => hint, ?_, fun h => ?_⟩
    · omega
    · omega
  · have hint : toInt (.stored .int64 word base) = 0 := by
      rw [hdef, if_neg (by decide), htext]
      exact parse_of_scan_none rfl
    have hvalue : (Operand.stored .int64 word base).value = -2 ^ 63 := by
      show IntType.ofBits _ _ = _
      rw [hleast]
      rfl
    refine ⟨fun _ => hint, ?_, fun h => ?_⟩
    · omega
    · omega
  · have hint : toInt (.stored t word base) =
        Tag.int32.convert (shown base t.type (field word 0 t.width)) :=
      toInt_of_symbol htext hlo hhi rfl rfl
    refine ⟨fun h0 => ?_, ?_, fun _ => ?_⟩
    · rw [hint, hzero h0]
      rfl
    · rw [hint, convert_one_iff]
      exact hone
    · show (t.type.parse (storedText t word base)).1.value = _
      rw [parse_numeral t htext hlo hhi hchar]
      exact (Tag.convert_eq_iff hrep).mpr hcong

theorem conversions : ∀ o : Operand, Conversions o
  | .computed v => conversions_computed v
  | .constant v => conversions_constant v
  | .stored t word base => conversions_stored t word base

theorem bits_eq_zero_iff (v : Variant) : bits v = 0 ↔ v.value = 0 := by
  obtain ⟨hlo, hhi, -⟩ := bounds v
  rw [bits, BitVec.toNat_eq, BitVec.toNat_ofInt]
  simp only [BitVec.ofNat_eq_ofNat, BitVec.toNat_ofNat, Nat.zero_mod]
  omega

theorem represents_toInt (o : Operand) : Tag.int32.Represents (toInt o) := by
  have hparse : ∀ text, Tag.int32.Represents ((Tag.type .int32).parse text).1.value := fun text =>
    ((Tag.type .int32).parse text).1.represents
  have hsymbol : ∀ t text, Tag.int32.Represents (if Tag.int32 = t then
      (t.type.parse text).1 else ((Tag.type .int32).parse text).1).value := by
    intro t text
    split
    · next h => exact h ▸ hparse text
    · exact hparse text
  cases o with
  | computed v => exact hparse _
  | constant v => exact hsymbol _ _
  | stored t word base => exact hsymbol _ _

def isTrue (o : Operand) : Bool := bits (variantConvert o .int32) ≠ 0

theorem eval_and (o : Operand) (rhs : Expr) : eval (.logical .and (.operand o) rhs) =
    if toInt o = 0 then (putInt 0, [o])
    else (putInt (if isTrue (eval rhs).1 then 1 else 0), o :: (eval rhs).2) := by
  have hint : Tag.int32.convert (variantConvert o .int32).value = toInt o :=
    Tag.convert_of_represents (represents_toInt o)
  rw [eval, eval]
  simp only [hint]
  by_cases h0 : toInt o = 0
  · simp [h0]
  · simp [h0, isTrue]

theorem eval_or (o : Operand) (rhs : Expr) : eval (.logical .or (.operand o) rhs) =
    if toInt o = 0 then (putInt (if isTrue (eval rhs).1 then 1 else 0), o :: (eval rhs).2)
    else (putInt (toInt o), [o]) := by
  have hint : Tag.int32.convert (variantConvert o .int32).value = toInt o :=
    Tag.convert_of_represents (represents_toInt o)
  rw [eval, eval]
  simp only [hint]
  by_cases h0 : toInt o = 0
  · simp [h0, isTrue]
  · simp [h0]

theorem eval_negate (o : Operand) : (eval (.negate (.operand o))).1.value =
    if o.variant.value = 0 then 1 else 0 := by
  rw [eval, eval]
  simp only [bits_eq_zero_iff]
  split <;> rfl

theorem eval_conditional (o : Operand) (first second : Expr) :
    eval (.conditional (.operand o) first second) =
      if o.variant.value ≠ 0 then ((eval first).1, o :: (eval first).2)
      else ((eval second).1, o :: (eval second).2) := by
  rw [eval, eval]
  simp only [ne_eq, bits_eq_zero_iff]
  split <;> rfl

theorem isTrue_zero : isTrue (eval (literal 0)).1 = false := by decide

theorem isTrue_one : isTrue (eval (literal 1)).1 = true := by decide

theorem value_putInt {x : Int} (h : Tag.int32.Represents x) : (putInt x).value = x :=
  Tag.convert_of_represents h

theorem oneTruth_iff (o : Operand) :
    OneTruth o ↔ o.value = 0 ∨ (2 ^ 32 : Int) ∣ o.value - 1 := by
  obtain ⟨hzero, hone, hvariant⟩ := conversions o
  constructor
  · intro h
    by_cases h0 : o.value = 0
    · exact Or.inl h0
    · have hor := h.or
      rw [if_pos h0, eval_or, isTrue_zero] at hor
      right
      rw [← hone]
      split at hor
      · cases hor
      · rwa [value_putInt (represents_toInt o)] at hor
  · intro h
    have hsame := hvariant h
    by_cases h0 : o.value = 0
    · have hint := hzero h0
      exact {
        and := by rw [eval_and, if_pos hint, if_neg (not_not.mpr h0)]; rfl
        or := by rw [eval_or, if_pos hint, isTrue_zero, if_neg (not_not.mpr h0)]; rfl
        negate := by rw [eval_negate, hsame]
        conditional := fun first second => by rw [eval_conditional, hsame]
        andEvaluates := fun rhs => by rw [eval_and, if_pos hint, if_neg (not_not.mpr h0)]
        orEvaluates := fun rhs => by rw [eval_or, if_pos hint, if_pos h0] }
    · have hint : toInt o = 1 := hone.mpr (h.resolve_left h0)
      have hne : toInt o ≠ 0 := by rw [hint]; decide
      exact {
        and := by rw [eval_and, if_neg hne, isTrue_one, if_pos h0]; rfl
        or := by rw [eval_or, if_neg hne, hint, if_pos h0]; rfl
        negate := by rw [eval_negate, hsame]
        conditional := fun first second => by rw [eval_conditional, hsame]
        andEvaluates := fun rhs => by rw [eval_and, if_neg hne, if_pos h0]
        orEvaluates := fun rhs => by rw [eval_or, if_neg hne, if_neg h0] }

theorem five_not_oneTruth :
    (eval (.logical .or (literal 5) (literal 0))).1.value = 5 ∧
      ¬OneTruth (.computed ⟨.int32, 5, by decide⟩) := by
  refine ⟨by decide, fun h => ?_⟩
  exact absurd h.or (by decide)

end ZeroBugs.Interp.LogicalExpr
