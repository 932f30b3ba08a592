import ZeroBugs.Typez.IntTypes

/-! # Integer literals -/
namespace ZeroBugs.Interp.IntegerConstant

open Typez Lib.NumberText List

inductive Exn where
  | parseError (msg : String)
  | runtimeError (msg : String)
  deriving DecidableEq

inductive Radix where
  | decimal | octal | hexadecimal
  deriving DecidableEq

def Radix.base : Radix → Nat
  | decimal => 10
  | octal => 8
  | hexadecimal => 16

def Radix.lexBase : Radix → Nat
  | decimal | octal => 10
  | hexadecimal => 16

def isLong (c : Char) : Bool := c = 'l' || c = 'L'

def isUnsigned (c : Char) : Bool := c = 'u' || c = 'U'

def isToken (base : Nat) (text : List Char) : Bool :=
  let digits := text.takeWhile (digitValue · < base)
  digits ≠ [] && (text.drop digits.length).all fun c => isLong c || isUnsigned c

def accepts : Radix → List Char → Bool
  | .hexadecimal, '0' :: x :: rest => (x = 'x' || x = 'X') && isToken 16 rest
  | .octal, '0' :: rest => isToken 10 rest
  | .decimal, text => isToken 10 text
  | _, _ => false

def lex (text : List Char) : Option Radix :=
  [.hexadecimal, .octal, .decimal].find? (accepts · text)

def body (radix : Radix) (text : List Char) : List Char :=
  match radix, text with
  | .hexadecimal, '0' :: x :: rest => if x = 'x' ∨ x = 'X' then rest else text
  | _, _ => text

/-- A number extracted from a stream in some base: the number, and what is left of the text
if the extraction did not fail. -/
def extract (radix : Radix) (text : List Char) : Nat × Option (List Char) :=
  let rest := body radix text
  let digits := rest.takeWhile (digitValue · < radix.base)
  let n := magnitude radix.base digits
  if digits = [] then (0, none)
  else if 2 ^ 64 ≤ n then (2 ^ 64 - 1, none)
  else (n, some (rest.drop digits.length))

/-- The flags of a suffix: the number of `L`s, and whether there is a `U`. -/
def scanSuffix : Nat × Bool → List Char → Except Exn (Nat × Bool)
  | flags, [] => .ok flags
  | (lcount, u), c :: suffix =>
    if isLong c then
      if lcount = 2 then .error (.parseError "too many Ls in integer constant")
      else scanSuffix (lcount + 1, u) suffix
    else if isUnsigned c then scanSuffix (lcount, true) suffix
    else scanSuffix (lcount, u) suffix

def flags (radix : Radix) (text : List Char) (rest : Option (List Char)) :
    Except Exn (Nat × Bool) :=
  match rest with
  | some (c :: suffix) => scanSuffix (0, false) (c :: suffix)
  | _ => .ok (0, radix = .hexadecimal && text[2]? = some '0' && text.length ≤ 18)

def variantOf (tag : Tag) (val : Nat) : Variant :=
  ⟨tag, tag.convert val, Tag.represents_convert _ _⟩

def chooseTag (is32Bit : Bool) (flags : Nat × Bool) (val : Nat) : Except Exn Tag :=
  let (lcount, isUnsigned) := flags
  if 2 ^ 32 - 1 < val ∧ is32Bit = true ∧ lcount < 2 then
    .error (.runtimeError "integer constant is too large for 'long' type")
  else
    let lcount := if 2 ^ 32 - 1 < val then 2 else lcount
    -- both `long` and `long long` have 64 bits
    let lcount := if lcount ≠ 0 ∧ is32Bit = false then 2 else lcount
    .ok (if lcount = 2 then if isUnsigned then .uint64 else .int64
      else if isUnsigned then .uint32 else .int32)

def integerConstant (is32Bit : Bool) (radix : Radix) (text : List Char) : Except Exn Variant := do
  let flags ← flags radix text (extract radix text).2
  let tag ← chooseTag is32Bit flags (extract radix text).1
  return variantOf tag (extract radix text).1

def digitsOf (radix : Radix) (text : List Char) : List Char :=
  (body radix text).takeWhile (digitValue · < radix.lexBase)

def suffixOf (radix : Radix) (text : List Char) : List Char :=
  (body radix text).drop (digitsOf radix text).length

structure Spells (radix : Radix) (text : List Char) (n : Nat) : Prop where
  accepted : lex text = some radix
  digits : ∀ c ∈ digitsOf radix text, digitValue c < radix.base
  value : magnitude radix.base (digitsOf radix text) = n

def KeepsValue (radix : Radix) (text : List Char) (n : Nat) : Prop :=
  ∃ v, integerConstant false radix text = .ok v ∧ v.value = n

section Spelled

variable {radix : Radix} {text : List Char} {n : Nat}

theorem accepts_of_lex (h : lex text = some radix) : accepts radix text = true :=
  find?_some (p := (accepts · text)) h

theorem isToken_iff {base : Nat} : isToken base text = true ↔
    text.takeWhile (digitValue · < base) ≠ [] ∧
      ∀ c ∈ text.drop (text.takeWhile (digitValue · < base)).length,
        isLong c = true ∨ isUnsigned c = true := by
  simp [isToken, all_eq_true]

theorem parts_of_accepts (h : accepts radix text = true) :
    digitsOf radix text ≠ [] ∧
      ∀ c ∈ suffixOf radix text, isLong c = true ∨ isUnsigned c = true := by
  unfold accepts at h
  split at h
  · next x rest =>
    rw [Bool.and_eq_true, Bool.or_eq_true, decide_eq_true_eq, decide_eq_true_eq] at h
    have hbody : body .hexadecimal ('0' :: x :: rest) = rest := if_pos h.1
    unfold suffixOf digitsOf
    rw [hbody]
    exact isToken_iff.mp h.2
  · next rest =>
    have hdigits : digitsOf .octal ('0' :: rest) =
        '0' :: rest.takeWhile (digitValue · < 10) := rfl
    exact ⟨cons_ne_nil _ _, (isToken_iff.mp h).2⟩
  · exact isToken_iff.mp h
  · cases h

theorem takeWhile_base (hdigits : ∀ c ∈ digitsOf radix text, digitValue c < radix.base) :
    (body radix text).takeWhile (digitValue · < radix.base) = digitsOf radix text := by
  have hle : radix.base ≤ radix.lexBase := by cases radix <;> decide
  have hboth : (fun c => decide (digitValue c < radix.base)) = fun c =>
      decide (decide (digitValue c < radix.base) = true ∧
        decide (digitValue c < radix.lexBase) = true) := by
    funext c
    simp only [decide_eq_true_eq]
    exact decide_eq_decide.mpr (by omega)
  rw [hboth, ← takeWhile_takeWhile]
  exact takeWhile_eq_self_iff.mpr fun c hc => decide_eq_true (hdigits c hc)

theorem extract_of_spells (h : Spells radix text n) (hn : n < 2 ^ 64) :
    extract radix text = (n, some (suffixOf radix text)) := by
  have hne := (parts_of_accepts (accepts_of_lex h.accepted)).1
  unfold extract
  simp only [takeWhile_base h.digits, h.value]
  rw [if_neg hne, if_neg (by omega)]
  rfl

end Spelled

theorem scanSuffix_eq {suffix : List Char} {lcount : Nat} {u : Bool}
    (h : lcount + suffix.countP isLong ≤ 2) :
    scanSuffix (lcount, u) suffix =
      .ok (lcount + suffix.countP isLong, u || suffix.any isUnsigned) := by
  induction suffix generalizing lcount u with
  | nil => simp [scanSuffix]
  | cons c suffix ih =>
    rw [countP_cons] at h ⊢
    rw [scanSuffix, any_cons]
    by_cases hlong : isLong c = true
    · have hu : isUnsigned c = false := by
        simp only [isLong, Bool.or_eq_true, decide_eq_true_eq] at hlong
        rcases hlong with rfl | rfl <;> rfl
      rw [if_pos hlong] at h ⊢
      rw [if_pos hlong, if_neg (by omega), ih (by omega), hu, Bool.false_or]
      congr 2
      omega
    · rw [if_neg hlong] at h ⊢
      rw [if_neg hlong]
      split
      · next hu => rw [ih (by omega), hu, Bool.true_or, Bool.or_true, Nat.add_zero]
      · next hu =>
        rw [ih (by omega), Bool.eq_false_iff.mpr hu, Bool.false_or, Nat.add_zero]

def chosenTag (lcount : Nat) (u : Bool) (n : Nat) : Tag :=
  if 2 ^ 32 ≤ n ∨ lcount ≠ 0 then if u then .uint64 else .int64
  else if u then .uint32 else .int32

theorem chooseTag_eq (lcount : Nat) (u : Bool) (n : Nat) :
    chooseTag false (lcount, u) n = .ok (chosenTag lcount u n) := by
  have hlong : (if (if 2 ^ 32 - 1 < n then 2 else lcount) ≠ 0 then 2
      else if 2 ^ 32 - 1 < n then 2 else lcount) = 2 ↔ 2 ^ 32 ≤ n ∨ lcount ≠ 0 := by
    split_ifs <;> omega
  simp only [chooseTag, Bool.false_eq_true, false_and, and_false, if_false, and_true, hlong]
  rfl

section Chosen

variable {radix : Radix} {text : List Char} {n : Nat} {lcount : Nat} {u : Bool}

theorem integerConstant_eq {rest : Option (List Char)} (hextract : extract radix text = (n, rest))
    (hflags : flags radix text rest = .ok (lcount, u)) :
    integerConstant false radix text = .ok (variantOf (chosenTag lcount u n) n) := by
  unfold integerConstant
  rw [hextract, hflags]
  show (chooseTag false (lcount, u) n >>= fun tag => pure (variantOf tag n)) = _
  rw [chooseTag_eq]
  rfl

theorem keepsValue_iff_represents {rest : Option (List Char)}
    (hextract : extract radix text = (n, rest)) (hflags : flags radix text rest = .ok (lcount, u)) :
    KeepsValue radix text n ↔ (chosenTag lcount u n).Represents n := by
  unfold KeepsValue
  rw [integerConstant_eq hextract hflags]
  constructor
  · rintro ⟨v, hv, hvalue⟩
    cases hv
    exact hvalue ▸ Tag.represents_convert _ _
  · intro h
    exact ⟨_, rfl, Tag.convert_of_represents h⟩

theorem chosenTag_represents_iff (hn : n < 2 ^ 63) :
    (chosenTag lcount u n).Represents n ↔ n < 2 ^ 31 ∨ 2 ^ 32 ≤ n ∨ lcount ≠ 0 ∨ u = true := by
  unfold chosenTag
  cases u <;> simp only [Bool.false_eq_true, if_false, if_true, or_false, or_true, iff_true] <;>
    split_ifs <;>
    simp only [Tag.Represents, Tag.isSigned, Tag.width, if_true, Bool.false_eq_true, if_false] <;>
    omega

end Chosen

/-- A hexadecimal number without suffix is unsigned if it starts with a zero and does not
have too many digits. -/
def ZeroPadded (radix : Radix) (text : List Char) : Prop :=
  radix = .hexadecimal ∧ text[2]? = some '0' ∧ text.length ≤ 18

theorem keepsValue_iff {radix : Radix} {text : List Char} {n : Nat} (h : Spells radix text n)
    (hn : n < 2 ^ 63) (hlong : (suffixOf radix text).countP isLong ≤ 2) :
    KeepsValue radix text n ↔
      n < 2 ^ 31 ∨ 2 ^ 32 ≤ n ∨ suffixOf radix text ≠ [] ∨ ZeroPadded radix text := by
  have hextract := extract_of_spells h (by omega)
  have hsuffix := (parts_of_accepts (accepts_of_lex h.accepted)).2
  cases hs : suffixOf radix text with
  | nil =>
    rw [hs] at hextract
    rw [keepsValue_iff_represents hextract rfl, chosenTag_represents_iff hn]
    simp [ZeroPadded, and_assoc]
  | cons c suffix =>
    rw [hs] at hextract hsuffix hlong
    have hflags : flags radix text (some (c :: suffix)) =
        .ok ((c :: suffix).countP isLong, (c :: suffix).any isUnsigned) := by
      rw [flags, scanSuffix_eq (by omega), Nat.zero_add, Bool.false_or]
    rw [keepsValue_iff_represents hextract hflags, chosenTag_represents_iff hn]
    have hflag : (c :: suffix).countP isLong ≠ 0 ∨ (c :: suffix).any isUnsigned = true := by
      rcases hsuffix c mem_cons_self with hc | hc
      · exact Or.inl (countP_pos_iff.mpr ⟨c, mem_cons_self, hc⟩).ne'
      · exact Or.inr (List.any_eq_true.mpr ⟨c, mem_cons_self, hc⟩)
    exact iff_of_true (Or.inr (Or.inr hflag)) (Or.inr (Or.inr (Or.inl (cons_ne_nil _ _))))

theorem keepsValue_octal :
    Spells .octal "0777UL".toList 511 ∧ KeepsValue .octal "0777UL".toList 511 := by
  have hspells : Spells .octal "0777UL".toList 511 := by
    refine ⟨by decide, fun c hc => ?_, by decide⟩
    have hall : (digitsOf .octal "0777UL".toList).all (digitValue · < 8) = true := by decide
    exact of_decide_eq_true (all_eq_true.mp hall c hc)
  exact ⟨hspells, (keepsValue_iff hspells (by decide) (by decide)).mpr (Or.inl (by decide))⟩

theorem decimal_not_keepsValue :
    Spells .decimal "2147483648".toList 2147483648 ∧
      integerConstant false .decimal "2147483648".toList = .ok (variantOf .int32 2147483648) ∧
      (variantOf .int32 2147483648).value = -2147483648 ∧
      ¬KeepsValue .decimal "2147483648".toList 2147483648 := by
  have hconstant : integerConstant false .decimal "2147483648".toList =
      .ok (variantOf .int32 2147483648) := by rfl
  refine ⟨⟨by decide, fun c hc => ?_, by decide⟩, hconstant, by decide, ?_⟩
  · have hall : (digitsOf .decimal "2147483648".toList).all (digitValue · < 10) = true := by decide
    exact of_decide_eq_true (all_eq_true.mp hall c hc)
  · rintro ⟨v, hv, hvalue⟩
    cases hv
    exact absurd hvalue (by decide)

end ZeroBugs.Interp.IntegerConstant
