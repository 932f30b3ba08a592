import ZeroBugs.Typez.IntTypes

/-! # Integer operands of binary expressions -/
namespace ZeroBugs.Interp

open Lib.NumberText Typez

inductive Exn where
  | evalError (msg : String)
  | domainError (msg : String)
  | sigfpe
  deriving DecidableEq

def uint64 (v : Variant) : Except Exn Int :=
  if v.tag.isSigned then .error (.domainError "converting signed to unsigned") else .ok v.value

def int64 (v : Variant) : Except Exn Int :=
  if v.tag = .uint64 then .error (.domainError "converting unsigned to signed") else .ok v.value

/-- `BinaryExpr::set_int_type`: the larger type, and the right one of two signed or
the left one of an unsigned and any other if they have one size. -/
def setIntType (lval rval : Variant) : Tag :=
  if rval.tag.width < lval.tag.width then lval.tag
  else if lval.tag.width < rval.tag.width then rval.tag
  else if lval.tag.isSigned then rval.tag
  else lval.tag

def variantAssign (type : Tag) (value : Int) : Variant := (type.type.parse (decimal value)).1

@[simp] theorem uint64_of_tag {v : Variant} (h : v.tag = .uint64) : uint64 v = .ok v.value := by
  simp [uint64, h, Tag.isSigned]

@[simp] theorem int64_of_tag {v : Variant} (h : v.tag ≠ .uint64) : int64 v = .ok v.value := by
  simp [int64, h]

/-- The numbers that are stored without loss of bits: those of `int64_t`, and those of
`uint64_t` if that is the type. -/
def Storable (type : Tag) (value : Int) : Prop :=
  Tag.int64.Represents value ∨ type = .uint64 ∧ Tag.uint64.Represents value

theorem variantAssign_eq {type : Tag} {value : Int} (h : Storable type value) :
    variantAssign type value = ⟨type, type.convert value, Tag.represents_convert _ _⟩ := by
  have hbounds : -2 ^ 63 ≤ value ∧ value < 2 ^ 64 ∧ (type.width = 8 → value < 2 ^ 63) := by
    rcases h with ⟨hlo, hhi⟩ | ⟨rfl, hlo, hhi⟩
    · simp only [Tag.width] at hlo hhi
      exact ⟨by omega, by omega, fun _ => by omega⟩
    · simp only [Tag.width] at hlo hhi
      exact ⟨by omega, by omega, fun h => absurd h (by decide)⟩
  rw [variantAssign, parse_numeral type (numeral_decimal value) hbounds.1 hbounds.2.1 hbounds.2.2]

end ZeroBugs.Interp
