import ZeroBugs.Lib.NumberText

/-! # Integer types -/
namespace ZeroBugs.Typez

open Lib.NumberText

inductive Tag where
  | int8 | uint8 | int16 | uint16 | int32 | uint32 | int64 | uint64
  deriving DecidableEq

namespace Tag

def width : Tag → Nat
  | int8 | uint8 => 8
  | int16 | uint16 => 16
  | int32 | uint32 => 32
  | int64 | uint64 => 64

def isSigned : Tag → Bool
  | int8 | int16 | int32 | int64 => true
  | uint8 | uint16 | uint32 | uint64 => false

def Represents (t : Tag) (x : Int) : Prop :=
  if t.isSigned then -2 ^ (t.width - 1) ≤ x ∧ x < 2 ^ (t.width - 1) else 0 ≤ x ∧ x < 2 ^ t.width
  deriving Decidable

/-- The conversion to the type: the value of the type that is the same modulo two
to its width. -/
def convert (t : Tag) (x : Int) : Int :=
  if t.isSigned then (x + 2 ^ (t.width - 1)) % 2 ^ t.width - 2 ^ (t.width - 1) else x % 2 ^ t.width

theorem represents_convert (t : Tag) (x : Int) : t.Represents (t.convert x) := by
  cases t <;>
    simp only [Represents, convert, isSigned, width, if_true, Bool.false_eq_true, if_false] <;>
    omega

theorem convert_of_represents {t : Tag} {x : Int} (h : t.Represents x) : t.convert x = x := by
  cases t <;> simp only [Represents, convert, isSigned, width, if_true, Bool.false_eq_true,
    if_false] at h ⊢ <;> omega

theorem convert_eq_iff {t : Tag} {x y : Int} (h : t.Represents y) :
    t.convert x = y ↔ (2 ^ t.width : Int) ∣ x - y := by
  cases t <;> simp only [Represents, convert, isSigned, width, if_true, Bool.false_eq_true,
    if_false] at h ⊢ <;> omega

end Tag

@[ext]
structure Variant where
  tag : Tag
  value : Int
  represents : tag.Represents value
  deriving DecidableEq

/-- The text read as a signed number, and again as an unsigned one if it has no
minus sign: a value from `2 ^ 63` on keeps its bits. -/
def fromStringSigned (text : List Char) : Int :=
  let x := strtoll text
  if text.head? ≠ some '-' then
    let y : Int := strtoull text
    if Tag.uint64.convert x ≠ y then Tag.int64.convert y else x
  else x

/-- `input_traits<int8_t>`: the value, and the length of the text it takes. -/
def int8FromString : List Char → Int × Nat
  | ['\'', c, '\''] => (Tag.int8.convert c.toNat, 3)
  | '\'' :: _ => (0, 0)
  | text => (Tag.int8.convert (strtoll text), (scanNumber text).used)

def fromString (t : Tag) (text : List Char) : Int × Nat :=
  match t with
  | .int8 => int8FromString text
  | .uint8 => (Tag.uint8.convert (int8FromString text).1, (int8FromString text).2)
  | .int16 | .int32 | .int64 => (t.convert (fromStringSigned text), (scanNumber text).used)
  | .uint16 | .uint32 | .uint64 => (t.convert (strtoull text), (scanNumber text).used)

structure IntType where
  bitSize : Nat
  isSigned : Bool
  deriving DecidableEq

/-- The type in which `IntHelper<64, S>` holds values of so many bits: the smallest
that is wide enough. -/
def IntType.holder (type : IntType) : Tag :=
  if type.bitSize ≤ 8 then if type.isSigned then .int8 else .uint8
  else if type.bitSize ≤ 16 then if type.isSigned then .int16 else .uint16
  else if type.bitSize ≤ 32 then if type.isSigned then .int32 else .uint32
  else if type.isSigned then .int64 else .uint64

theorem fromString_represents (t : Tag) (text : List Char) :
    t.Represents (fromString t text).1 := by
  cases t
  case int8 =>
    simp only [fromString]
    unfold int8FromString
    split
    · exact Tag.represents_convert _ _
    · exact ⟨by simp [Tag.width], by simp [Tag.width]⟩
    · exact Tag.represents_convert _ _
  all_goals exact Tag.represents_convert _ _

/-- `IntTypeImpl::parse`: the value put into the variant, and the length it returns. -/
def IntType.parse (type : IntType) (text : List Char) : Variant × Nat :=
  (⟨type.holder, (fromString type.holder text).1, fromString_represents _ _⟩,
    (fromString type.holder text).2)

def Tag.type (t : Tag) : IntType := ⟨t.width, t.isSigned⟩

@[simp] theorem holder_type (t : Tag) : t.type.holder = t := by
  cases t <;> rfl

section Numerals

variable {text : List Char} {v : Int}

theorem fromStringSigned_numeral (h : Numeral text v) (hlo : -2 ^ 63 ≤ v) (hhi : v < 2 ^ 64) :
    fromStringSigned text = Tag.int64.convert v := by
  have hread := h.strtoull_eq (by omega) hhi
  unfold fromStringSigned
  by_cases hneg : v < 0
  · have hfits : Tag.int64.Represents v := ⟨hlo, by simp only [Tag.width]; omega⟩
    rw [if_neg (not_not.mpr (h.head_minus.mpr hneg)), h.strtoll_eq,
      Tag.convert_of_represents hfits]
    omega
  · rw [if_pos (mt h.head_minus.mp hneg), h.strtoll_eq, hread]
    simp only [Tag.convert, Tag.isSigned, Tag.width, if_true, Bool.false_eq_true, if_false]
    by_cases hlt : v < 2 ^ 63
    · omega
    · omega

theorem int8FromString_numeral (h : Numeral text v) :
    int8FromString text = (Tag.int8.convert (strtoll text), text.length) := by
  rw [int8FromString.eq_def]
  split
  · exact absurd rfl h.head_ne_quote
  · exact absurd rfl h.head_ne_quote
  · rw [h.scan]

section

variable (t : Tag) (h : Numeral text v) (hlo : -2 ^ 63 ≤ v) (hhi : v < 2 ^ 64)
  (hchar : t.width = 8 → v < 2 ^ 63)
include h hlo hhi hchar

theorem fromString_numeral : fromString t text = (t.convert v, text.length) := by
  have hsigned := fromStringSigned_numeral h hlo hhi
  have hunsigned := h.strtoull_eq (by omega) hhi
  have hlong : t.width = 8 → strtoll text = v := by
    intro h8
    have hlt := hchar h8
    rw [h.strtoll_eq]
    omega
  cases t
  case int8 => rw [fromString, int8FromString_numeral h, hlong rfl]
  case uint8 =>
    simp only [fromString, int8FromString_numeral h, hlong rfl, Tag.convert, Tag.isSigned,
      Tag.width, if_true, Bool.false_eq_true, if_false, Prod.mk.injEq, and_true]
    omega
  all_goals
    simp only [fromString, hsigned, hunsigned, h.scan, Tag.convert, Tag.isSigned,
      Tag.width, if_true, Bool.false_eq_true, if_false, Prod.mk.injEq, and_true]
    omega

theorem parse_numeral :
    t.type.parse text = (⟨t, t.convert v, Tag.represents_convert t v⟩, text.length) := by
  have hread := fromString_numeral t h hlo hhi hchar
  refine Prod.ext (Variant.ext (holder_type t) ?_) ?_
  · show (fromString t.type.holder text).1 = t.convert v
    rw [holder_type, hread]
  · show (fromString t.type.holder text).2 = text.length
    rw [holder_type, hread]

end

end Numerals

end ZeroBugs.Typez
