import Mathlib

/-! # Byte patterns -/
namespace ZeroBugs.Zdk.PageFind

inductive Item where
  | any
  | byte (b : UInt8)
  deriving DecidableEq

def Item.accepts : Item → UInt8 → Bool
  | .any, _ => true
  | .byte b, a => a == b

def Item.code : Item → Int
  | .any => -1
  | .byte b => b.toNat

def matchByte (a : UInt8) (b : Int) : Bool := if b = -1 then true else decide ((a.toNat : Int) = b)

@[simp] theorem matchByte_code (t : Item) (a : UInt8) : matchByte a t.code = t.accepts a := by
  cases t with
  | any => rfl
  | byte b =>
    have hcode : ((b.toNat : Nat) : Int) ≠ -1 := by omega
    rw [matchByte, Item.code, if_neg hcode, Item.accepts, Bool.eq_iff_iff, decide_eq_true_eq,
      beq_iff_eq, Int.ofNat_inj, UInt8.toNat_inj]

def quote : Char := Char.ofNat 39

def isspace (c : Char) : Bool := c == ' ' || (9 ≤ c.toNat && c.toNat ≤ 13)

def hexdigit (c : Char) : Option Nat :=
  if '0' ≤ c ∧ c ≤ '9' then some (c.toNat - 48)
  else if 'a' ≤ c ∧ c ≤ 'f' then some (c.toNat - 97 + 10)
  else if 'A' ≤ c ∧ c ≤ 'F' then some (c.toNat - 65 + 10)
  else none

def charValue (c : Char) : Int := if c.toNat < 128 then c.toNat else c.toNat - 256

def skipSpaces (pattern : List Char) : List Char := pattern.dropWhile isspace

/-- The branch of `next_char` for numbers: the value and the text after it. -/
def hexNumber (c : Char) (pattern : List Char) : Except String (Int × List Char) :=
  match hexdigit c with
  | none => .error "Hex number expected in pattern"
  | some x =>
    match pattern with
    | [] => .ok (x, [])
    | d :: pattern =>
      if isspace d then .ok (x, d :: pattern)
      else match hexdigit d with
      | none => .error "Hex number expected in pattern"
      | some y =>
        match pattern with
        | [] => .ok ((16 * x + y : Nat), [])
        | e :: pattern =>
          if isspace e then .ok ((16 * x + y : Nat), e :: pattern)
          else .error "Extra character in hex number"

def quotedChar : List Char → Except String (Int × List Char)
  | [] => .error "Trailing quote in pattern"
  | c :: pattern =>
    match pattern with
    | [] => .error "Missing quote in pattern"
    | d :: pattern =>
      if d = quote then .ok (charValue c, pattern) else .error "Missing quote in pattern"

def readItem (c : Char) (pattern : List Char) : Except String (Int × List Char) :=
  if c = '?' then .ok (-1, pattern)
  else if c = quote then quotedChar pattern
  else hexNumber c pattern

def nextChar : List Char → Except String (Option (Int × List Char))
  | [] => .ok none
  | c :: pattern => do
    let (c, pattern) ← readItem c pattern
    return some (c, skipSpaces pattern)

def Spaces (spaces : List Char) : Prop := ∀ c ∈ spaces, isspace c = true

inductive WellFormed : List Char → List Item → Prop
  | nil : WellFormed [] []
  | any {spaces rest items} : Spaces spaces → WellFormed rest items →
      WellFormed ('?' :: (spaces ++ rest)) (.any :: items)
  | quoted {c spaces rest items} : c.toNat < 128 → Spaces spaces → WellFormed rest items →
      WellFormed (quote :: c :: quote :: (spaces ++ rest)) (.byte (.ofNat c.toNat) :: items)
  | digit {d x spaces rest items} : hexdigit d = some x → Spaces spaces →
      (rest = [] ∨ spaces ≠ []) → WellFormed rest items →
      WellFormed (d :: (spaces ++ rest)) (.byte (.ofNat x) :: items)
  | digits {d e x y spaces rest items} : hexdigit d = some x → hexdigit e = some y →
      Spaces spaces → (rest = [] ∨ spaces ≠ []) → WellFormed rest items →
      WellFormed (d :: e :: (spaces ++ rest)) (.byte (.ofNat (16 * x + y)) :: items)

structure Pattern where
  text : List Char
  items : List Item
  wellFormed : WellFormed text items

variable {x : Nat}

theorem hexdigit_spec {c : Char} (h : hexdigit c = some x) :
    x < 16 ∧ c ≠ '?' ∧ c ≠ quote ∧ isspace c = false := by
  have hrange : (48 ≤ c.toNat ∧ c.toNat ≤ 57 ∧ x = c.toNat - 48) ∨
      (97 ≤ c.toNat ∧ c.toNat ≤ 102 ∧ x = c.toNat - 97 + 10) ∨
      (65 ≤ c.toNat ∧ c.toNat ≤ 70 ∧ x = c.toNat - 65 + 10) := by
    unfold hexdigit at h
    split at h
    · next hdigit => exact Or.inl ⟨hdigit.1, hdigit.2, (Option.some.inj h).symm⟩
    · split at h
      · next hlower => exact Or.inr (Or.inl ⟨hlower.1, hlower.2, (Option.some.inj h).symm⟩)
      · split at h
        · next hupper => exact Or.inr (Or.inr ⟨hupper.1, hupper.2, (Option.some.inj h).symm⟩)
        · cases h
  have hne : ∀ d : Char, c.toNat ≠ d.toNat → c ≠ d := fun d hd heq => hd (congrArg Char.toNat heq)
  have hquestion : ('?' : Char).toNat = 63 := rfl
  have hquote : quote.toNat = 39 := rfl
  have hspace : (' ' : Char).toNat = 32 := rfl
  refine ⟨by omega, hne _ (by omega), hne _ (by omega), ?_⟩
  have hblank : c ≠ ' ' := hne _ (by omega)
  simp only [isspace, Bool.or_eq_false_iff, beq_eq_false_iff_ne, Bool.and_eq_false_iff,
    decide_eq_false_iff_not]
  exact ⟨hblank, by omega⟩

variable {spaces rest : List Char} {items : List Item}

theorem skipSpaces_append (hspaces : Spaces spaces) (h : WellFormed rest items) : skipSpaces
    (spaces ++ rest) = rest := by
  have hrest : rest.dropWhile isspace = rest := by
    cases h with
    | nil => rfl
    | any _ _ => rfl
    | quoted _ _ _ => rfl
    | digit hd _ _ _ => rw [List.dropWhile_cons_of_neg (by simp [(hexdigit_spec hd).2.2.2])]
    | digits hd _ _ _ _ => rw [List.dropWhile_cons_of_neg (by simp [(hexdigit_spec hd).2.2.2])]
  rw [skipSpaces, List.dropWhile_append_of_pos hspaces, hrest]

theorem head_isspace (hspaces : Spaces spaces)
    (hend : rest = [] ∨ spaces ≠ []) :
    spaces ++ rest = [] ∨ ∃ c cs, spaces ++ rest = c :: cs ∧ isspace c = true := by
  cases spaces with
  | nil => exact Or.inl (by simpa using hend)
  | cons c cs => exact Or.inr ⟨c, cs ++ rest, rfl, hspaces c (by simp)⟩

variable {text : List Char}

theorem hexNumber_digit {d : Char} (hd : hexdigit d = some x)
    (htext : text = [] ∨ ∃ c cs, text = c :: cs ∧ isspace c = true) :
    hexNumber d text = .ok ((x : Int), text) := by
  rw [hexNumber, hd]
  rcases htext with rfl | ⟨c, cs, rfl, hspace⟩
  · rfl
  · simp [hspace]

theorem hexNumber_digits {d e : Char} {y : Nat} (hd : hexdigit d = some x)
    (he : hexdigit e = some y)
    (htext : text = [] ∨ ∃ c cs, text = c :: cs ∧ isspace c = true) :
    hexNumber d (e :: text) = .ok (((16 * x + y : Nat) : Int), text) := by
  have hspace := (hexdigit_spec he).2.2.2
  rw [hexNumber, hd]
  rcases htext with rfl | ⟨c, cs, rfl, hc⟩
  · simp [hspace, he]
  · simp [hspace, he, hc]

theorem code_byte {n : Nat} (h : n < 256) : (Item.byte (.ofNat n)).code = n := by
  rw [Item.code, UInt8.toNat_ofNat_of_lt' h]

theorem nextChar_nil (h : WellFormed text []) : nextChar text = .ok none := by
  cases h
  rfl

theorem nextChar_eq {c : Char} {v : Int} (h : readItem c text = .ok (v, spaces ++ rest))
    (hspaces : Spaces spaces) (hrest : WellFormed rest items) :
    nextChar (c :: text) = .ok (some (v, rest)) := by
  have hskip := skipSpaces_append hspaces hrest
  rw [nextChar, h]
  show Except.ok (some (v, skipSpaces (spaces ++ rest))) = _
  rw [hskip]

theorem nextChar_cons {t : Item}
    (h : WellFormed text (t :: items)) :
    ∃ text', nextChar text = .ok (some (t.code, text')) ∧ WellFormed text' items := by
  cases h with
  | any hspaces hrest => exact ⟨_, nextChar_eq (if_pos rfl) hspaces hrest, hrest⟩
  | @quoted c spaces rest _ hc hspaces hrest =>
    have hquote : quote ≠ '?' := by decide
    have hread : readItem quote (c :: quote :: (spaces ++ rest)) =
        .ok ((c.toNat : Int), spaces ++ rest) := by
      simp [readItem, quotedChar, charValue, hc, hquote]
    refine ⟨_, ?_, hrest⟩
    rw [nextChar_eq hread hspaces hrest, code_byte (by omega)]
  | digit hd hspaces hend hrest =>
    obtain ⟨hx, hquestion, hquote, -⟩ := hexdigit_spec hd
    have hread := hexNumber_digit hd (head_isspace hspaces hend)
    refine ⟨_, ?_, hrest⟩
    rw [nextChar_eq ((if_neg hquestion).trans ((if_neg hquote).trans hread)) hspaces hrest,
      code_byte (by omega)]
  | digits hd he hspaces hend hrest =>
    obtain ⟨hx, hquestion, hquote, -⟩ := hexdigit_spec hd
    have hy := (hexdigit_spec he).1
    have hread := hexNumber_digits hd he (head_isspace hspaces hend)
    refine ⟨_, ?_, hrest⟩
    rw [nextChar_eq ((if_neg hquestion).trans ((if_neg hquote).trans hread)) hspaces hrest,
      code_byte (by omega)]

end ZeroBugs.Zdk.PageFind
