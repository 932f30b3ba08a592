import ZeroBugs.Lib.LittleEndian
import ZeroBugs.Typez.IntTypes

/-! # Pointer types -/
namespace ZeroBugs.Typez

open Lib.LittleEndian Lib.NumberText List

inductive Encoding where
  | binary | string
  deriving DecidableEq

/-- A `Variant` that holds a pointer. Its symbol counts for the pointer that is found
in memory where the symbol is. -/
structure PointerVariant where
  encoding : Encoding
  data : List UInt8
  symbol : Option Int
  deriving DecidableEq

structure PointerType where
  pointedSize : Nat
  isCString : Bool
  deriving DecidableEq

def cstring (text : List Char) : List UInt8 := text.map (fun c => UInt8.ofNat c.toNat) ++ [0]

def textOf (data : List UInt8) : List Char :=
  (data.takeWhile (· ≠ 0)).map fun b => Char.ofNat b.toNat

def PointerType.parse (type : PointerType) (text : List Char) : PointerVariant × Nat :=
  if text = ['N', 'U', 'L', 'L'] then (⟨.binary, encode 8 0, none⟩, 4)
  else if type.isCString then (⟨.string, cstring text, none⟩, text.length + 1)
  else (⟨.binary, encode 8 (strtoull text), none⟩, (scanNumber text).used)

inductive PointerError where
  | systemError (func : String) (errno : Int)
  | outOfBounds
  deriving DecidableEq

/-- `ERANGE`, which `strtoul` leaves for a number that does not fit. -/
def erange : Int := 34

/-- The address the buffer of a variant holds. `strtoul` is only known to have failed
by the error number, which may be a left-over. -/
def PointerVariant.address (errno : Int) (v : PointerVariant) : Except PointerError Int :=
  match v.encoding with
  | .string =>
    let result := strtoull (textOf v.data)
    let errno := if 2 ^ 64 ≤ (scanNumber (textOf v.data)).magnitude then erange else errno
    if result = 2 ^ 64 - 1 ∧ errno ≠ 0 then .error (.systemError "pointer" errno)
    else .ok result
  | .binary =>
    if v.data.length = 4 then .ok (Tag.uint64.convert (Tag.int32.convert (decode v.data)))
    else if 8 ≤ v.data.length then .ok (decode (v.data.take 8))
    else .error .outOfBounds

def PointerVariant.pointer (errno : Int) (v : PointerVariant) : Except PointerError Int := do
  let result ← v.address errno
  if result = 0 then return v.symbol.getD 0 else return result

def PointerType.encoding (type : PointerType) : Encoding :=
  if type.isCString then .string else .binary

def PointerType.variantAssign (type : PointerType) (value : Int) : PointerVariant :=
  (type.parse (decimal value)).1

theorem decimal_char {v : Int} {c : Char} (h : c ∈ decimal v) : c = '-' ∨ c.isDigit = true := by
  unfold decimal at h
  split at h
  · rcases mem_cons.mp h with rfl | h
    · exact Or.inl rfl
    · exact Or.inr (Nat.isDigit_of_mem_toDigits (by omega) (by omega) h)
  · exact Or.inr (Nat.isDigit_of_mem_toDigits (by omega) (by omega) h)

theorem decimal_byte {v : Int} {c : Char} (h : c ∈ decimal v) : 0 < c.toNat ∧ c.toNat < 256 := by
  rcases decimal_char h with rfl | h
  · decide
  · simp only [Char.isDigit, Bool.and_eq_true, decide_eq_true_eq] at h
    have hlo : '0'.toNat ≤ c.toNat := h.1
    have hhi : c.toNat ≤ '9'.toNat := h.2
    have h0 : '0'.toNat = 48 := rfl
    have h9 : '9'.toNat = 57 := rfl
    omega

theorem textOf_cstring {text : List Char} (h : ∀ c ∈ text, 0 < c.toNat ∧ c.toNat < 256) :
    textOf (cstring text) = text := by
  induction text with
  | nil => rfl
  | cons c text ih =>
    obtain ⟨hpos, hlt⟩ := h c mem_cons_self
    have hbyte : (UInt8.ofNat c.toNat).toNat = c.toNat := by
      rw [UInt8.toNat_ofNat', Nat.mod_eq_of_lt hlt]
    have hne : UInt8.ofNat c.toNat ≠ 0 := by
      intro h0
      rw [h0] at hbyte
      have hz : (0 : UInt8).toNat = 0 := rfl
      omega
    have htail := ih fun d hd => h d (mem_cons_of_mem _ hd)
    unfold textOf cstring at htail ⊢
    rw [map_cons, cons_append, takeWhile_cons_of_pos (by simpa using hne),
      map_cons, hbyte, Char.ofNat_toNat, htail]

theorem decimal_ne_null (v : Int) : decimal v ≠ ['N', 'U', 'L', 'L'] := by
  intro h
  obtain ⟨c, rest, heq, hc⟩ := (numeral_decimal v).head
  cases h.symm.trans heq
  rcases hc with hc | hc
  · exact absurd hc.2 (by decide)
  · exact absurd hc.2 (by decide)

theorem variantAssign_of_cstring {type : PointerType} (hc : type.isCString = true) (value : Int) :
    type.variantAssign value = ⟨.string, cstring (decimal value), none⟩ := by
  rw [PointerType.variantAssign, PointerType.parse, if_neg (decimal_ne_null value), if_pos hc]

theorem variantAssign_of_not_cstring {type : PointerType} (hc : type.isCString = false)
    (value : Int) :
    type.variantAssign value = ⟨.binary, encode 8 (strtoull (decimal value)), none⟩ := by
  rw [PointerType.variantAssign, PointerType.parse, if_neg (decimal_ne_null value), if_neg]
  rw [hc]
  exact Bool.false_ne_true

theorem encoding_variantAssign (type : PointerType) (value : Int) :
    (type.variantAssign value).encoding = type.encoding := by
  unfold PointerType.encoding
  cases hc : type.isCString
  · rw [variantAssign_of_not_cstring hc]
    rfl
  · rw [variantAssign_of_cstring hc]
    rfl

theorem pointer_of_symbol_none {errno : Int} {v : PointerVariant} (h : v.symbol = none) :
    v.pointer errno = v.address errno := by
  unfold PointerVariant.pointer
  rcases v.address errno with e | result
  · rfl
  · show (if result = 0 then Except.ok (v.symbol.getD 0) else Except.ok result) = .ok result
    rw [h]
    split
    · next h0 => rw [h0]; rfl
    · rfl

theorem pointer_variantAssign (errno : Int) (type : PointerType) {value : Int}
    (h : Tag.uint64.Represents value) :
    (type.variantAssign value).pointer errno =
      if type.isCString = true ∧ errno ≠ 0 ∧ value = 2 ^ 64 - 1 then
        .error (.systemError "pointer" errno)
      else .ok value := by
  obtain ⟨hlo, hhi⟩ := h
  simp only [Tag.width] at hhi
  have hread : (strtoull (decimal value) : Int) = value := by
    rw [(numeral_decimal value).strtoull_eq (by omega) hhi]
    omega
  cases hc : type.isCString
  · have hlt : strtoull (decimal value) < 256 ^ 8 := by omega
    rw [variantAssign_of_not_cstring hc, pointer_of_symbol_none rfl, if_neg (by simp)]
    unfold PointerVariant.address
    simp only [encode_length]
    rw [if_neg (by decide), if_pos (Nat.le_refl 8),
      take_of_length_le (by rw [encode_length]), decode_encode_of_lt hlt, hread]
  · have htext : textOf (cstring (decimal value)) = decimal value :=
      textOf_cstring fun c hc => decimal_byte hc
    have hfits : ¬2 ^ 64 ≤ (scanNumber (decimal value)).magnitude := by
      rw [(numeral_decimal value).scan]
      show ¬2 ^ 64 ≤ value.natAbs
      omega
    have hlast : strtoull (decimal value) = 2 ^ 64 - 1 ↔ value = 2 ^ 64 - 1 := by omega
    rw [variantAssign_of_cstring hc, pointer_of_symbol_none rfl]
    unfold PointerVariant.address
    simp only [htext, if_neg hfits, hread, hlast]
    exact if_congr ⟨fun h => ⟨trivial, h.2, h.1⟩, fun h => ⟨h.2.2, h.2.1⟩⟩ rfl rfl

end ZeroBugs.Typez
