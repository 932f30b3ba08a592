import ZeroBugs.Unmangle.CursorLogic
import ZeroBugs.Unmangle.QualifiedNames

/-! # Runs at a known text -/
namespace ZeroBugs.Unmangle

open Lib Lib.Traced List

variable {inp : Input} {call : Calls} {s s' : State} {x : Nat} {α β : Type} {c : Char}
  {rest : Text}

def At (inp : Input) (x : Nat) (rest : Text) : Prop := x ≤ inp.size ∧ inp.name.drop x = rest

theorem At.char (h : At inp x (c :: rest)) : inp.char x = c := (Input.drop_eq_cons h.2).1

theorem At.lt (h : At inp x (c :: rest)) : x < inp.size := (Input.drop_eq_cons h.2).2.1

theorem At.next (h : At inp x (c :: rest)) : At inp (x + 1) rest :=
  ⟨h.lt, (Input.drop_eq_cons h.2).2.2⟩

theorem At.append {text : Text} (h : At inp x (text ++ rest)) : At inp (x + text.length) rest := by
  obtain ⟨hx, hdrop⟩ := h
  have hlen := congrArg List.length hdrop
  rw [length_drop, length_append] at hlen
  have hsize : inp.name.length = inp.size := rfl
  refine ⟨by omega, ?_⟩
  rw [← drop_drop, hdrop, drop_left]

theorem At.size_eq (h : At inp x rest) : inp.size = x + rest.length := by
  have hlen := congrArg List.length h.2
  have hsize : inp.name.length = inp.size := rfl
  have hx := h.1
  rw [length_drop] at hlen
  omega

theorem At.eq_size (h : At inp x []) : x = inp.size := by
  rw [h.size_eq, length_nil, Nat.add_zero]

theorem At.not_lt (h : At inp x []) : ¬x < inp.size := by
  rw [← h.eq_size]
  exact Nat.lt_irrefl x

theorem returns_getPos : Returns getPos s s.pos s := rfl

theorem returns_read {i : Nat} (hi : i ≤ inp.size) : Returns (read inp i) s (inp.char i) s :=
  .bind .emit (.ite_true hi .pure)

theorem returns_peek (hx : At inp s.pos (c :: rest)) : Returns (peek inp) s c s := by
  rw [← hx.char]
  exact .bind returns_getPos (returns_read hx.1)

theorem returns_isInside (hx : At inp s.pos (c :: rest)) : Returns (isInside inp) s true s := by
  rw [← decide_eq_true hx.lt]
  exact .bind returns_getPos .pure

theorem returns_isOutside (hx : At inp s.pos []) : Returns (isInside inp) s false s := by
  rw [← decide_eq_false hx.not_lt]
  exact .bind returns_getPos .pure

theorem returns_isAt_end (hx : At inp s.pos []) : Returns (isAt inp c) s false s :=
  .bind returns_getPos (.ite_false hx.not_lt .pure)

theorem returns_moveTo {dst : Nat} : Returns (moveTo dst) s () { s with pos := dst } := rfl

theorem returns_advance {n : Nat} : Returns (advance n) s () { s with pos := s.pos + n } := rfl

theorem returns_closing : Returns closing s () { s with pos := s.pos + 1 } := rfl

theorem returns_nutsAssert {b : Bool} {what : String} (h : b = true) :
    Returns (nutsAssert b what) s () s :=
  .ite_true h .pure

theorem returns_assertInside (hx : At inp s.pos (c :: rest)) : Returns (assertInside inp) s () s :=
  .bind returns_getPos (returns_nutsAssert (decide_eq_true hx.lt))

theorem returns_assertChar (hx : At inp s.pos (c :: rest)) : Returns (assertChar inp c) s () s :=
  .bind (returns_peek hx) (returns_nutsAssert (decide_eq_true rfl))

theorem returns_expectEnd (hx : At inp s.pos ('E' :: rest)) : Returns (expectEnd inp) s () s := by
  have hat : Returns (isAt inp 'E') s true s := by
    refine .bind returns_getPos (.ite_true hx.lt (.bind (returns_read hx.1) ?_))
    rw [hx.char]
    exact .pure
  exact .bind hat .pure

theorem le_ofDigitChars (digits : Text) (n : Nat) : n ≤ Nat.ofDigitChars 10 digits n := by
  induction digits generalizing n with
  | nil => rw [Nat.ofDigitChars_nil]
  | cons c digits ih =>
    rw [Nat.ofDigitChars_cons]
    exact Nat.le_trans (by omega) (ih _)

theorem returns_digitLoop {digits : Text} (hdigits : ∀ d ∈ digits, d.isDigit = true)
    (hc : c.isDigit = false) :
    ∀ {n : Nat} {s : State}, At inp s.pos (digits ++ c :: rest) →
      Nat.ofDigitChars 10 digits n < 2 ^ 64 →
      Returns (digitLoop inp n (digits ++ c :: rest)) s (Nat.ofDigitChars 10 digits n)
        { s with pos := s.pos + digits.length } := by
  induction digits with
  | nil =>
    intro n s hx hn
    exact .bind (returns_peek hx) (.ite_false (by rw [hc]; exact Bool.false_ne_true) .pure)
  | cons d digits ih =>
    intro n s hx hn
    obtain ⟨hd, hdigits⟩ := forall_mem_cons.mp hdigits
    rw [Nat.ofDigitChars_cons] at hn ⊢
    have hfits : sizeT (n * 10 + (d.toNat - 48)) = 10 * n + (d.toNat - '0'.toNat) := by
      rw [sizeT, Nat.mul_comm]
      exact Nat.mod_eq_of_lt (Nat.lt_of_le_of_lt (le_ofDigitChars digits _) hn)
    have hloop := ih hdigits (s := { s with pos := s.pos + 1 }) hx.next hn
    rw [← hfits] at hloop ⊢
    refine .bind (returns_peek hx) (.ite_true hd (.bind returns_advance ?_))
    rw [length_cons, Nat.add_comm digits.length, ← Nat.add_assoc]
    exact hloop

theorem exists_digit (n : Nat) :
    ∃ d digits, Nat.toDigits 10 n = d :: digits ∧ d.isDigit = true := by
  have hdigits : ∀ d ∈ Nat.toDigits 10 n, d.isDigit = true := fun d hd =>
    Nat.isDigit_of_mem_toDigits (by omega) (by omega) hd
  cases htext : Nat.toDigits 10 n with
  | nil => exact absurd htext Nat.toDigits_ne_nil
  | cons d digits => exact ⟨d, digits, rfl, hdigits d (htext ▸ mem_cons_self)⟩

theorem returns_parseUnsigned {n : Nat} (hn : n < 2 ^ 64) (hc : c.isDigit = false)
    (hx : At inp s.pos (Nat.toDigits 10 n ++ c :: rest)) :
    Returns (parseUnsigned inp none) s n
      { s with pos := s.pos + (Nat.toDigits 10 n).length } := by
  obtain ⟨d, digits, htext, hd⟩ := exists_digit n
  have hfirst := hx
  rw [htext] at hfirst
  have hvalue : Nat.ofDigitChars 10 (Nat.toDigits 10 n) 0 = n := Nat.ofDigitChars_ten_toDigits
  have hloop := returns_digitLoop (n := 0)
    (fun d hd => Nat.isDigit_of_mem_toDigits (by omega) (by omega) hd) hc hx (by rwa [hvalue])
  rw [hvalue, ← hx.2] at hloop
  refine .bind (returns_peek hfirst) (.ite_true hd (.bind returns_getPos (.bind hloop ?_)))
  exact .bind returns_getPos (.bind (returns_nutsAssert (decide_eq_true hx.append.1)) .pure)

def sourceFlags : NameFlags := ⟨false, false, false, false, false, true⟩

def afterName : Loop := ⟨false, true, true, true, sourceFlags⟩

/-- What a name in a prefix, or the end of the prefix, starts with. -/
def startsName (c : Char) : Bool := c.isDigit || c = 'C' || c = 'D' || c = 'E'

theorem startsName_mangledPart (part : Text) :
    ∃ d text, mangledPart part = d :: text ∧ startsName d = true := by
  obtain ⟨d, digits, htext, hd⟩ := exists_digit part.length
  refine ⟨d, digits ++ part, by rw [mangledPart, htext, cons_append], ?_⟩
  rw [startsName, hd]
  rfl

theorem length_mangledPart_pos (part : Text) : 0 < (mangledPart part).length := by
  obtain ⟨d, text, htext, -⟩ := startsName_mangledPart part
  rw [htext]
  exact Nat.succ_pos _

theorem returns_parseSpecialName {out : OutRef} (hG : c ≠ 'G') (hT : c ≠ 'T')
    (hx : At inp s.pos (c :: rest)) : Returns (parseSpecialName inp call out) s false s := by
  refine .bind returns_getPos (.ite_false (Nat.not_le.mpr hx.lt) ?_)
  by_cases hnext : s.pos + 1 < inp.size
  · exact .ite_true hnext (.bind (returns_peek hx) (.ite_false hG (.ite_false hT .pure)))
  · exact .ite_false hnext .pure

end ZeroBugs.Unmangle
