import Mathlib

/-! # Numbers as text -/
namespace ZeroBugs.Lib.NumberText
open List

def isSpace (c : Char) : Bool := c = ' ' || (9 ≤ c.toNat && c.toNat ≤ 13)

def digitValue (c : Char) : Nat :=
  if c.isDigit then c.toNat - 48
  else if 'a' ≤ c ∧ c ≤ 'z' then c.toNat - 87
  else if 'A' ≤ c ∧ c ≤ 'Z' then c.toNat - 55
  else 36

def magnitude (base : Nat) (digits : List Char) : Nat :=
  digits.foldl (fun acc c => base * acc + digitValue c) 0

structure Scan where
  negative : Bool
  magnitude : Nat
  used : Nat
  deriving DecidableEq

def scanSign : List Char → Bool × Nat × List Char
  | '-' :: rest => (true, 1, rest)
  | '+' :: rest => (false, 1, rest)
  | text => (false, 0, text)

def scanBase : List Char → Nat × Nat × List Char
  | '0' :: x :: d :: rest =>
    if (x = 'x' ∨ x = 'X') ∧ digitValue d < 16 then (16, 2, d :: rest)
    else (8, 0, '0' :: x :: d :: rest)
  | '0' :: rest => (8, 0, '0' :: rest)
  | text => (10, 0, text)

def scanNumber (text : List Char) : Scan :=
  let (negative, sign, rest) := scanSign (text.dropWhile isSpace)
  let (base, mark, rest) := scanBase rest
  let digits := rest.takeWhile (digitValue · < base)
  if digits = [] then ⟨false, 0, 0⟩
  else ⟨negative, magnitude base digits,
    (text.takeWhile isSpace).length + sign + mark + digits.length⟩

def strtoll (text : List Char) : Int :=
  let n := scanNumber text
  if n.negative then max (-n.magnitude) (-2 ^ 63) else min n.magnitude (2 ^ 63 - 1)

def strtoull (text : List Char) : Nat :=
  let n := scanNumber text
  if 2 ^ 64 ≤ n.magnitude then 2 ^ 64 - 1
  else if n.negative then (2 ^ 64 - n.magnitude) % 2 ^ 64
  else n.magnitude

/-- The number at the start of a text, behind white space, in a base up to ten. -/
def scanIn (base : Nat) (text : List Char) : Scan :=
  let (negative, sign, rest) := scanSign (text.dropWhile isSpace)
  let digits := rest.takeWhile (digitValue · < base)
  if digits = [] then ⟨false, 0, 0⟩
  else ⟨negative, magnitude base digits,
    (text.takeWhile isSpace).length + sign + digits.length⟩

def strtolIn (base : Nat) (text : List Char) : Int :=
  let n := scanIn base text
  if n.negative then max (-n.magnitude) (-2 ^ 63) else min n.magnitude (2 ^ 63 - 1)

def strtoulIn (base : Nat) (text : List Char) : Nat :=
  let n := scanIn base text
  if 2 ^ 64 ≤ n.magnitude then 2 ^ 64 - 1
  else if n.negative then (2 ^ 64 - n.magnitude) % 2 ^ 64
  else n.magnitude

/-- `atoi`, which cuts a `long` to 32 bits. -/
def atoi (text : List Char) : Int := (strtolIn 10 text).bmod (2 ^ 32)

def decimal (v : Int) : List Char :=
  if v < 0 then '-' :: Nat.toDigits 10 v.natAbs else Nat.toDigits 10 v.natAbs

def octal (n : Nat) : List Char := if n = 0 then ['0'] else '0' :: Nat.toDigits 8 n

def hexadecimal (n : Nat) : List Char :=
  if n = 0 then ['0'] else '0' :: 'x' :: Nat.toDigits 16 n

theorem scanSign_length (text : List Char) :
    (scanSign text).2.1 + (scanSign text).2.2.length = text.length := by
  unfold scanSign
  split
  · exact Nat.add_comm _ _
  · exact Nat.add_comm _ _
  · exact Nat.zero_add _

theorem scanBase_length (text : List Char) :
    (scanBase text).2.1 + (scanBase text).2.2.length = text.length := by
  unfold scanBase
  split
  · split
    · simp only [length_cons]
      omega
    · exact Nat.zero_add _
  · exact Nat.zero_add _
  · exact Nat.zero_add _

theorem scanNumber_used_le (text : List Char) : (scanNumber text).used ≤ text.length := by
  have hspace : (text.takeWhile isSpace).length + (text.dropWhile isSpace).length =
      text.length := by rw [← length_append, takeWhile_append_dropWhile]
  rcases hs : scanSign (text.dropWhile isSpace) with ⟨negative, sign, rest⟩
  rcases hb : scanBase rest with ⟨base, mark, body⟩
  have hsign : sign + rest.length = (text.dropWhile isSpace).length := by
    rw [← scanSign_length (text.dropWhile isSpace), hs]
  have hbase : mark + body.length = rest.length := by
    rw [← scanBase_length rest, hb]
  have hdigits : (body.takeWhile (digitValue · < base)).length ≤ body.length :=
    ( takeWhile_prefix _).length_le
  simp only [scanNumber, hs, hb]
  split
  · exact Nat.zero_le _
  · dsimp only
    omega

theorem digitValue_digitChar {d : Nat} (hd : d < 16) : digitValue d.digitChar = d := by
  decide +revert

theorem magnitude_append_singleton (base : Nat) (digits : List Char) (c : Char) :
    magnitude base (digits ++ [c]) = base * magnitude base digits + digitValue c := by
  rw [magnitude, foldl_append]
  rfl

variable {n : Nat}

section Bases

variable {base : Nat}

theorem magnitude_toDigits (h2 : 2 ≤ base) (h16 : base ≤ 16) (n : Nat) :
    magnitude base (Nat.toDigits base n) = n := by
  induction n using Nat.strong_induction_on with
  | _ n ih =>
    rw [Nat.toDigits_eq_if (by omega)]
    by_cases hlt : n < base
    · rw [if_pos hlt]
      simp [magnitude, digitValue_digitChar (show n < 16 by omega)]
    · have hdiv : n / base < n := Nat.div_lt_self (by omega) (by omega)
      have hmod : n % base < base := Nat.mod_lt _ (by omega)
      rw [if_neg hlt, magnitude_append_singleton, ih _ hdiv, digitValue_digitChar (by omega)]
      exact Nat.div_add_mod n base

theorem digitValue_of_mem_toDigits (h2 : 2 ≤ base) (h16 : base ≤ 16) {c : Char}
    (hc : c ∈ Nat.toDigits base n) : digitValue c < base := by
  induction n using Nat.strong_induction_on with
  | _ n ih =>
    rw [Nat.toDigits_eq_if (by omega)] at hc
    by_cases hlt : n < base
    · rw [if_pos hlt, mem_singleton] at hc
      rw [hc, digitValue_digitChar (by omega)]
      exact hlt
    · have hdiv : n / base < n := Nat.div_lt_self (by omega) (by omega)
      have hmod : n % base < base := Nat.mod_lt _ (by omega)
      rw [if_neg hlt, mem_append, mem_singleton] at hc
      rcases hc with hc | rfl
      · exact ih _ hdiv hc
      · rw [digitValue_digitChar (by omega)]
        exact hmod

theorem toDigits_head (h2 : 2 ≤ base) (hn : n ≠ 0) :
    ∃ c rest, Nat.toDigits base n = c :: rest ∧ c ≠ '0' := by
  induction n using Nat.strong_induction_on with
  | _ n ih =>
    rw [Nat.toDigits_eq_if (by omega)]
    by_cases hlt : n < base
    · rw [if_pos hlt]
      refine ⟨n.digitChar, [], rfl, ?_⟩
      rw [Ne, Nat.digitChar_eq_zero]
      exact hn
    · rw [if_neg hlt]
      have hdiv : n / base < n := Nat.div_lt_self (by omega) (by omega)
      have hpos : n / base ≠ 0 := Nat.ne_of_gt (Nat.div_pos (by omega) (by omega))
      obtain ⟨c, rest, heq, hc⟩ := ih (n / base) hdiv hpos
      exact ⟨c, rest ++ [(n % base).digitChar], by rw [heq]; rfl, hc⟩

end Bases

/-- A text that does not go on with a number: its first character is no digit, and
does not mark a base. -/
def EndsNumber (rest : List Char) : Prop :=
  ∀ c, rest.head? = some c → 16 ≤ digitValue c ∧ c ≠ 'x' ∧ c ≠ 'X'

theorem endsNumber_nil : EndsNumber [] := nofun

variable {rest : List Char}

theorem takeWhile_digits_append {base : Nat} (hbase : base ≤ 16) {digits : List Char}
    (hdigits : ∀ c ∈ digits, digitValue c < base) (hrest : EndsNumber rest) :
    (digits ++ rest).takeWhile (digitValue · < base) = digits := by
  rw [takeWhile_append_of_pos fun c hc => decide_eq_true (hdigits c hc)]
  cases rest with
  | nil => simp
  | cons c rest =>
    have hc := (hrest c rfl).1
    rw [takeWhile_cons_of_neg (by simp only [decide_eq_true_eq]; omega), append_nil]

theorem scanBase_toDigits (n : Nat) (hrest : EndsNumber rest) :
    ∃ base, scanBase (Nat.toDigits 10 n ++ rest) = (base, 0, Nat.toDigits 10 n ++ rest) ∧
      (Nat.toDigits 10 n ++ rest).takeWhile (digitValue · < base) = Nat.toDigits 10 n ∧
      magnitude base (Nat.toDigits 10 n) = n := by
  by_cases hn : n = 0
  · subst hn
    have hzero : ∀ c ∈ Nat.toDigits 10 0, digitValue c < 8 := by
      intro c hc
      rw [mem_singleton.mp hc]
      decide
    refine ⟨8, ?_, takeWhile_digits_append (by decide) hzero hrest, rfl⟩
    match rest with
    | [] => rfl
    | [c] => rfl
    | c :: d :: rest =>
      have hmark : ¬((c = 'x' ∨ c = 'X') ∧ digitValue d < 16) := fun h =>
        h.1.elim (hrest c rfl).2.1 (hrest c rfl).2.2
      exact if_neg hmark
  · obtain ⟨c, digits, heq, hc⟩ := toDigits_head (show 2 ≤ 10 by decide) hn
    refine ⟨10, ?_, takeWhile_digits_append (by decide) ?_ hrest,
      magnitude_toDigits (by decide) (by decide) n⟩
    · rw [heq, cons_append, scanBase.eq_def]
      split
      · next h => exact absurd (List.cons.inj h).1 hc
      · next h => exact absurd (List.cons.inj h).1 hc
      · rfl
    · intro d hd
      exact digitValue_of_mem_toDigits (by decide) (by decide) hd

theorem scanSign_digit {c : Char} (hc : c.isDigit = true) (rest : List Char) :
    (c :: rest).dropWhile isSpace = c :: rest ∧ (c :: rest).takeWhile isSpace = [] ∧
      scanSign (c :: rest) = (false, 0, c :: rest) := by
  have hspace : ¬isSpace c = true := by
    have hrange : 48 ≤ c.toNat ∧ c.toNat ≤ 57 := by
      simpa [Char.isDigit, Char.le_def, UInt32.le_iff_toNat_le] using hc
    have hne : c ≠ ' ' := by
      intro h
      subst h
      exact absurd hc (by decide)
    simp only [isSpace, hne, decide_false, Bool.false_or, Bool.and_eq_true, decide_eq_true_eq]
    omega
  refine ⟨dropWhile_cons_of_neg hspace, takeWhile_cons_of_neg hspace, ?_⟩
  rw [scanSign.eq_def]
  split
  · next h => exact absurd hc (by rw [(List.cons.inj h).1]; decide)
  · next h => exact absurd hc (by rw [(List.cons.inj h).1]; decide)
  · rfl

theorem scanSign_toDigits (n : Nat) (rest : List Char) :
    (Nat.toDigits 10 n ++ rest).dropWhile isSpace = Nat.toDigits 10 n ++ rest ∧
      (Nat.toDigits 10 n ++ rest).takeWhile isSpace = [] ∧
      scanSign (Nat.toDigits 10 n ++ rest) = (false, 0, Nat.toDigits 10 n ++ rest) := by
  cases heq : Nat.toDigits 10 n with
  | nil => exact absurd heq Nat.toDigits_ne_nil
  | cons c digits =>
    exact scanSign_digit
      (Nat.isDigit_of_mem_toDigits (by omega) (by omega) (heq ▸ mem_cons_self)) _

theorem scanNumber_decimal_append (v : Int) (hrest : EndsNumber rest) :
    scanNumber (decimal v ++ rest) = ⟨decide (v < 0), v.natAbs, (decimal v).length⟩ := by
  obtain ⟨base, hbase, hdigits, hmag⟩ := scanBase_toDigits v.natAbs hrest
  obtain ⟨hdrop, htake, hsign⟩ := scanSign_toDigits v.natAbs rest
  by_cases hv : v < 0
  · have htext : decimal v = '-' :: Nat.toDigits 10 v.natAbs := if_pos hv
    have hspace : ¬isSpace '-' = true := by decide
    rw [htext, decide_eq_true hv]
    simp only [scanNumber, cons_append, dropWhile_cons_of_neg hspace,
      takeWhile_cons_of_neg hspace, scanSign, hbase, hdigits, if_neg Nat.toDigits_ne_nil,
      hmag, length_cons, length_nil, Nat.add_comm]
  · have htext : decimal v = Nat.toDigits 10 v.natAbs := if_neg hv
    rw [htext, decide_eq_false hv]
    simp only [scanNumber, hdrop, htake, hsign, hbase, hdigits, if_neg Nat.toDigits_ne_nil, hmag,
      length_nil, Nat.zero_add]

theorem strtoll_of_scan {text : List Char} {v : Int} {used : Nat}
    (h : scanNumber text = ⟨decide (v < 0), v.natAbs, used⟩) :
    strtoll text = max (min v (2 ^ 63 - 1)) (-2 ^ 63) := by
  rw [strtoll, h]
  by_cases hv : v < 0
  · simp only [hv, decide_true, if_true]
    omega
  · simp only [hv, decide_false, Bool.false_eq_true, if_false]
    omega

theorem decimal_injective : Function.Injective decimal := by
  intro v w h
  have hscan := congrArg scanNumber h
  rw [← append_nil (decimal v), ← append_nil (decimal w),
    scanNumber_decimal_append v endsNumber_nil, scanNumber_decimal_append w endsNumber_nil] at hscan
  simp only [Scan.mk.injEq, decide_eq_decide] at hscan
  omega

structure Numeral (text : List Char) (v : Int) : Prop where
  scan : scanNumber text = ⟨decide (v < 0), v.natAbs, text.length⟩
  head : ∃ c rest, text = c :: rest ∧ (v < 0 ∧ c = '-' ∨ 0 ≤ v ∧ c.isDigit = true)

theorem numeral_decimal (v : Int) : Numeral (decimal v) v := by
  refine ⟨by simpa using scanNumber_decimal_append v endsNumber_nil, ?_⟩
  by_cases hv : v < 0
  · exact ⟨'-', _, if_pos hv, Or.inl ⟨hv, rfl⟩⟩
  · rw [decimal, if_neg hv]
    cases heq : Nat.toDigits 10 v.natAbs with
    | nil => exact absurd heq Nat.toDigits_ne_nil
    | cons c rest =>
      have hdigit := Nat.isDigit_of_mem_toDigits (by omega) (by omega)
        (heq ▸ mem_cons_self : c ∈ Nat.toDigits 10 v.natAbs)
      exact ⟨c, rest, rfl, Or.inr ⟨by omega, hdigit⟩⟩

theorem numeral_of_base {base mark : Nat} {text digits : List Char}
    (hzero : ∃ rest, text = '0' :: rest) (hbase : scanBase text = (base, mark, digits))
    (hdigits : ∀ c ∈ digits, digitValue c < base) (hne : digits ≠ [])
    (hmag : magnitude base digits = n) : Numeral text n := by
  obtain ⟨rest, rfl⟩ := hzero
  have hlength := scanBase_length ('0' :: rest)
  obtain ⟨hdrop, htake, hsign⟩ := scanSign_digit (c := '0') rfl rest
  have hall : digits.takeWhile (digitValue · < base) = digits :=
    takeWhile_eq_self_iff.mpr fun c hc => decide_eq_true (hdigits c hc)
  refine ⟨?_, '0', rest, rfl, Or.inr ⟨by omega, rfl⟩⟩
  rw [hbase] at hlength
  rw [scanNumber, hdrop, htake, hsign, decide_eq_false (by omega), Int.natAbs_natCast]
  simp only [hbase, hall, if_neg hne, hmag, length_nil, Nat.zero_add, hlength]

theorem numeral_octal (n : Nat) : Numeral (octal n) n := by
  by_cases hn : n = 0
  · subst hn
    exact numeral_of_base ⟨[], rfl⟩ rfl (forall_mem_singleton.mpr (by decide)) (by decide) rfl
  · obtain ⟨c, rest, heq, -⟩ := toDigits_head (show 2 ≤ 8 by decide) hn
    have hdigits : ∀ d ∈ Nat.toDigits 8 n, digitValue d < 8 := fun d hd =>
      digitValue_of_mem_toDigits (by decide) (by decide) hd
    have hmark : ¬(c = 'x' ∨ c = 'X') := by
      have hc := hdigits c (heq ▸ mem_cons_self)
      rintro (rfl | rfl)
      · exact absurd hc (by decide)
      · exact absurd hc (by decide)
    have htext : octal n = '0' :: Nat.toDigits 8 n := if_neg hn
    have hbase : scanBase ('0' :: Nat.toDigits 8 n) = (8, 0, '0' :: Nat.toDigits 8 n) := by
      rw [heq]
      cases rest with
      | nil => rfl
      | cons d rest => exact if_neg fun h => hmark h.1
    rw [htext]
    refine numeral_of_base ⟨_, rfl⟩ hbase ?_ (cons_ne_nil _ _) ?_
    · exact forall_mem_cons.mpr ⟨by decide, hdigits⟩
    · exact magnitude_toDigits (show 2 ≤ 8 by decide) (by decide) n

theorem numeral_hexadecimal (n : Nat) : Numeral (hexadecimal n) n := by
  by_cases hn : n = 0
  · subst hn
    exact numeral_of_base ⟨[], rfl⟩ rfl (forall_mem_singleton.mpr (by decide)) (by decide) rfl
  · obtain ⟨c, rest, heq, -⟩ := toDigits_head (show 2 ≤ 16 by decide) hn
    have hdigits : ∀ d ∈ Nat.toDigits 16 n, digitValue d < 16 := fun d hd =>
      digitValue_of_mem_toDigits (by decide) (by decide) hd
    have htext : hexadecimal n = '0' :: 'x' :: Nat.toDigits 16 n := if_neg hn
    have hbase : scanBase ('0' :: 'x' :: Nat.toDigits 16 n) = (16, 2, Nat.toDigits 16 n) := by
      rw [heq]
      exact if_pos ⟨Or.inl rfl, hdigits c (heq ▸ mem_cons_self)⟩
    rw [htext]
    exact numeral_of_base ⟨_, rfl⟩ hbase hdigits Nat.toDigits_ne_nil
      (magnitude_toDigits (by decide) (by decide) n)

namespace Numeral

variable {text : List Char} {v : Int}

theorem neg (h : Numeral text n) (hn : n ≠ 0) : Numeral ('-' :: text) (-n) := by
  obtain ⟨c, rest, rfl, hneg | ⟨-, hc⟩⟩ := h.head
  · omega
  · obtain ⟨hdrop, htake, hsign⟩ := scanSign_digit hc rest
    have hscan := h.scan
    have hspace : ¬isSpace '-' = true := by decide
    refine ⟨?_, '-', _, rfl, Or.inl ⟨by omega, rfl⟩⟩
    rw [scanNumber, hdrop, htake, hsign] at hscan
    rw [scanNumber, dropWhile_cons_of_neg hspace, takeWhile_cons_of_neg hspace,
      scanSign]
    dsimp only at hscan ⊢
    split at hscan
    · exact absurd (congrArg Scan.used hscan).symm (Nat.succ_ne_zero _)
    · simp only [Scan.mk.injEq, length_nil, length_cons] at hscan ⊢
      rw [if_neg ‹_›]
      simp only [Scan.mk.injEq]
      refine ⟨?_, by omega, by omega⟩
      rw [decide_eq_true (by omega)]

theorem head_minus (h : Numeral text v) : text.head? = some '-' ↔ v < 0 := by
  obtain ⟨c, rest, rfl, ⟨hv, rfl⟩ | ⟨hv, hc⟩⟩ := h.head
  · simp [hv]
  · have hne : c ≠ '-' := by
      rintro rfl
      exact absurd hc (by decide)
    simp only [head?_cons, Option.some.injEq, hne, false_iff]
    omega

theorem head_ne_quote (h : Numeral text v) : text.head? ≠ some '\'' := by
  obtain ⟨c, rest, rfl, ⟨-, rfl⟩ | ⟨-, hc⟩⟩ := h.head
  · simp
  · intro heq
    rw [head?_cons, Option.some.injEq] at heq
    subst heq
    exact absurd hc (by decide)

theorem strtoll_eq (h : Numeral text v) : strtoll text = max (min v (2 ^ 63 - 1)) (-2 ^ 63) :=
  strtoll_of_scan h.scan

theorem strtoull_eq (h : Numeral text v) (hlo : -2 ^ 64 < v) (hhi : v < 2 ^ 64) :
    (strtoull text : Int) = v % 2 ^ 64 := by
  have hfits : ¬2 ^ 64 ≤ v.natAbs := by omega
  rw [strtoull, h.scan]
  by_cases hv : v < 0
  · simp only [hfits, hv, decide_true, if_true, if_false]
    omega
  · simp only [hfits, hv, decide_false, Bool.false_eq_true, if_false]
    omega

end Numeral

end ZeroBugs.Lib.NumberText
