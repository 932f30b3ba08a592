import Mathlib

/-! # Names of constructors -/
namespace ZeroBugs.Dwarfz.CtorName
open List

def scope : List Char := [':', ':']

def rfindFrom (s pat : List Char) : Nat → Option Nat
  | 0 => if pat.isPrefixOf s then some 0 else none
  | p + 1 => if pat.isPrefixOf (s.drop (p + 1)) then some (p + 1) else rfindFrom s pat p

/-- `string::rfind`: the last occurrence that starts at or before `pos`. -/
def rfind (s pat : List Char) (pos : Nat) : Option Nat := rfindFrom s pat (min pos s.length)

def substr (s : List Char) (pos len : Nat) : List Char := (s.drop pos).take len

def inferCtorName (ctor : List Char) : List Char :=
  let (before, n) := match rfind ctor scope ctor.length with
    | none => ([], 0)
    | some n =>
      -- `n - 1` is `npos` for a name that starts with the separator
      let before := match rfind ctor scope (if n = 0 then ctor.length else n - 1) with
        | none => substr ctor 0 n
        | some m => substr ctor (m + 2) n
      (before, n + 2)
  let unqualifiedName := ctor.drop n
  if before ≠ unqualifiedName then ctor ++ (scope ++ unqualifiedName) else ctor

structure Component where
  text : List Char
  ne : text ≠ []
  plain : ':' ∉ text

structure QualifiedName where
  first : Component
  rest : List Component

namespace QualifiedName

def components (q : QualifiedName) : List Component := q.first :: q.rest

def text (q : QualifiedName) : List Char :=
  q.rest.foldl (fun s c => s ++ (scope ++ c.text)) q.first.text

def last (q : QualifiedName) : Component := q.rest.getLast?.getD q.first

def snoc (q : QualifiedName) (c : Component) : QualifiedName := ⟨q.first, q.rest ++ [c]⟩

def EndsTwice (q : QualifiedName) : Prop :=
  (q.components.dropLast.getLast?.map (·.text)) = some q.last.text
  deriving Decidable

section

variable (q : QualifiedName)

@[simp] theorem text_snoc (c : Component) :
    (q.snoc c).text = q.text ++ (scope ++ c.text) := by
  simp [text, snoc]

@[simp] theorem last_snoc (c : Component) : (q.snoc c).last = c := by
  simp [last, snoc]

@[simp] theorem components_snoc (c : Component) :
    (q.snoc c).components = q.components ++ [c] := rfl

theorem single_or_snoc : (∃ c, q = ⟨c, []⟩) ∨ ∃ q' c, q = snoc q' c := by
  obtain ⟨first, rest⟩ := q
  rcases eq_nil_or_concat rest with rfl | ⟨cs, c, rfl⟩
  · exact Or.inl ⟨first, rfl⟩
  · exact Or.inr ⟨⟨first, cs⟩, c, by simp [snoc]⟩

theorem getLast_components : q.components.getLast? = some q.last := by
  rcases q.single_or_snoc with ⟨c, rfl⟩ | ⟨q', c, rfl⟩
  · rfl
  · rw [components_snoc, getLast?_concat, last_snoc]

theorem endsTwice_snoc (c : Component) :
    (q.snoc c).EndsTwice ↔ q.last.text = c.text := by
  rw [EndsTwice, components_snoc, dropLast_concat, getLast_components, last_snoc]
  simp

end

theorem not_endsTwice_single (c : Component) : ¬(⟨c, []⟩ : QualifiedName).EndsTwice := by
  simp [EndsTwice, components]

end QualifiedName

def ScopeAt (s : List Char) (p : Nat) : Prop := s[p]? = some ':' ∧ s[p + 1]? = some ':'

theorem isPrefixOf_scope (s : List Char) (p : Nat) :
    scope.isPrefixOf (s.drop p) = true ↔ ScopeAt s p := by
  have hget : ∀ i, (s.drop p)[i]? = s[p + i]? := fun i => getElem?_drop
  have h0 := hget 0
  have h1 := hget 1
  rw [Nat.add_zero] at h0
  rw [ScopeAt, ← h0, ← h1]
  cases s.drop p with
  | nil => simp [scope]
  | cons a t =>
    cases t with
    | nil => simp [scope]
    | cons b t =>
      simp only [scope, isPrefixOf_cons_cons, isPrefixOf_nil_left, Bool.and_true,
        Bool.and_eq_true, beq_iff_eq, getElem?_cons_zero, getElem?_cons_succ,
        Option.some.injEq]
      exact and_congr eq_comm eq_comm

theorem rfindFrom_some {s : List Char} {p n : Nat} (hp : ScopeAt s p) (hle : p ≤ n)
    (hlast : ∀ q, p < q → q ≤ n → ¬ScopeAt s q) : rfindFrom s scope n = some p := by
  induction n with
  | zero =>
    obtain rfl : p = 0 := by omega
    have h := (isPrefixOf_scope s 0).mpr hp
    rw [drop_zero] at h
    rw [rfindFrom, if_pos h]
  | succ n ih =>
    by_cases heq : p = n + 1
    · subst heq
      rw [rfindFrom, if_pos ((isPrefixOf_scope s _).mpr hp)]
    · have hskip : ¬scope.isPrefixOf (s.drop (n + 1)) = true := by
        rw [isPrefixOf_scope]
        exact hlast (n + 1) (by omega) (Nat.le_refl _)
      rw [rfindFrom, if_neg hskip]
      exact ih (by omega) fun q hq hqn => hlast q hq (by omega)

theorem rfindFrom_none {s : List Char} {n : Nat} (h : ∀ q, q ≤ n → ¬ScopeAt s q) :
    rfindFrom s scope n = none := by
  induction n with
  | zero =>
    have hskip : ¬scope.isPrefixOf (s.drop 0) = true := by
      rw [isPrefixOf_scope]
      exact h 0 (Nat.le_refl _)
    rw [drop_zero] at hskip
    rw [rfindFrom, if_neg hskip]
  | succ n ih =>
    have hskip : ¬scope.isPrefixOf (s.drop (n + 1)) = true := by
      rw [isPrefixOf_scope]
      exact h (n + 1) (Nat.le_refl _)
    rw [rfindFrom, if_neg hskip]
    exact ih fun q hq => h q (by omega)

theorem rfindFrom_congr {s s' : List Char} {n : Nat}
    (h : ∀ q, q ≤ n → (ScopeAt s q ↔ ScopeAt s' q)) :
    rfindFrom s scope n = rfindFrom s' scope n := by
  have hsame : ∀ q, q ≤ n → scope.isPrefixOf (s.drop q) = scope.isPrefixOf (s'.drop q) := by
    intro q hq
    rw [Bool.eq_iff_iff, isPrefixOf_scope, isPrefixOf_scope]
    exact h q hq
  induction n with
  | zero =>
    have hzero := hsame 0 (Nat.le_refl _)
    rw [drop_zero, drop_zero] at hzero
    rw [rfindFrom, rfindFrom, hzero]
  | succ n ih =>
    rw [rfindFrom, rfindFrom, hsame (n + 1) (Nat.le_refl _),
      ih (fun q hq => h q (by omega)) fun q hq => hsame q (by omega)]

theorem not_scopeAt_end {s : List Char} {p : Nat} (h : s.length ≤ p + 1) : ¬ScopeAt s p := by
  intro hp
  rw [ScopeAt, getElem?_eq_none h] at hp
  cases hp.2

section Split

variable {s t : List Char}

theorem getElem?_scope_left {i : Nat} (h : i < s.length) :
    (s ++ (scope ++ t))[i]? = s[i]? := getElem?_append_left h

theorem scopeAt_split : ScopeAt (s ++ (scope ++ t)) s.length := by
  constructor
  · simp [scope]
  · simp [scope]

theorem not_scopeAt_after (ht : ':' ∉ t) {q : Nat} (hq : s.length < q) :
    ¬ScopeAt (s ++ (scope ++ t)) q := by
  intro h
  have hsecond := h.2
  rw [getElem?_append_right (by omega), getElem?_append_right (by simp [scope]; omega)]
    at hsecond
  exact ht (mem_of_getElem? hsecond)

theorem scopeAt_before (hs : s.getLast? ≠ some ':') {q : Nat} (hq : q < s.length) :
    ScopeAt (s ++ (scope ++ t)) q ↔ ScopeAt s q := by
  by_cases hlast : q + 1 < s.length
  · rw [ScopeAt, ScopeAt, getElem?_scope_left hq, getElem?_scope_left hlast]
  · have hend : s.length = q + 1 := by omega
    refine iff_of_false (fun h => ?_) (not_scopeAt_end (by omega))
    have hfirst := h.1
    rw [getElem?_scope_left hq] at hfirst
    apply hs
    rw [getLast?_eq_getElem?, hend]
    exact hfirst

theorem rfind_last (ht : ':' ∉ t) :
    rfind (s ++ (scope ++ t)) scope (s ++ (scope ++ t)).length = some s.length := by
  exact rfindFrom_some scopeAt_split (by simp) fun q hq _ => not_scopeAt_after ht hq

theorem rfind_before (hne : s ≠ []) (hs : s.getLast? ≠ some ':') :
    rfind (s ++ (scope ++ t)) scope (s.length - 1) = rfind s scope s.length := by
  have hpos : 0 < s.length := length_pos_iff.mpr hne
  have hmin : min (s.length - 1) (s ++ (scope ++ t)).length = s.length - 1 := by
    rw [length_append]
    omega
  have hend : rfindFrom s scope s.length = rfindFrom s scope (s.length - 1) := by
    obtain ⟨n, hn⟩ : ∃ n, s.length = n + 1 := ⟨s.length - 1, by omega⟩
    have hskip : ¬scope.isPrefixOf (s.drop (n + 1)) = true := by
      rw [isPrefixOf_scope]
      exact not_scopeAt_end (by omega)
    rw [hn, rfindFrom, if_neg hskip, Nat.add_sub_cancel]
  rw [rfind, rfind, hmin, Nat.min_self, hend]
  exact rfindFrom_congr fun q hq => scopeAt_before hs (by omega)

theorem rfind_plain (hs : ':' ∉ s) (pos : Nat) : rfind s scope pos = none :=
  rfindFrom_none fun _ _ h => hs (mem_of_getElem? h.1)

end Split

namespace QualifiedName

theorem text_ne_nil (q : QualifiedName) : q.text ≠ [] := by
  rcases q.single_or_snoc with ⟨c, rfl⟩ | ⟨q', c, rfl⟩
  · exact c.ne
  · simp [scope]

theorem getLast_text (q : QualifiedName) : q.text.getLast? ≠ some ':' := by
  have hplain : ∀ c : Component, c.text.getLast? ≠ some ':' := fun c h =>
    c.plain (mem_of_getLast? h)
  rcases q.single_or_snoc with ⟨c, rfl⟩ | ⟨q', c, rfl⟩
  · exact hplain c
  · rw [text_snoc, ← append_assoc, getLast?_append_of_ne_nil _ c.ne]
    exact hplain c

end QualifiedName

open QualifiedName

theorem inferCtorName_single (c : Component) :
    inferCtorName (⟨c, []⟩ : QualifiedName).text = (snoc ⟨c, []⟩ c).text := by
  have htext : (⟨c, []⟩ : QualifiedName).text = c.text := rfl
  rw [text_snoc, htext]
  simp only [inferCtorName, rfind_plain c.plain, drop_zero]
  rw [if_pos (Ne.symm c.ne)]

def pieceBefore (q : QualifiedName) (c : Component) : List Char :=
  match rfind q.text scope q.text.length with
  | none => q.text
  | some m => ((q.snoc c).text.drop (m + 2)).take q.text.length

theorem inferCtorName_snoc (q : QualifiedName) (c : Component) :
    inferCtorName (q.snoc c).text =
      if pieceBefore q c ≠ c.text then ((q.snoc c).snoc c).text else (q.snoc c).text := by
  have hpos : q.text.length ≠ 0 := by simpa using q.text_ne_nil
  have hdrop : (q.text ++ (scope ++ c.text)).drop (q.text.length + 2) = c.text := by
    rw [← append_assoc, drop_left' (by simp [scope])]
  have htake : (q.text ++ (scope ++ c.text)).take q.text.length = q.text := take_left
  simp only [inferCtorName, rfind_last c.plain, if_neg hpos, pieceBefore, text_snoc,
    rfind_before q.text_ne_nil q.getLast_text, hdrop, substr, drop_zero, htake]

theorem pieceBefore_single (b c : Component) : pieceBefore ⟨b, []⟩ c = b.text := by
  have htext : (⟨b, []⟩ : QualifiedName).text = b.text := rfl
  rw [pieceBefore, htext, rfind_plain b.plain]

theorem colon_mem_pieceBefore (q : QualifiedName) (b c : Component) :
    ':' ∈ pieceBefore (q.snoc b) c := by
  have hfind : rfind (q.snoc b).text scope (q.snoc b).text.length = some q.text.length := by
    rw [text_snoc]
    exact rfind_last b.plain
  have hsplit : ((q.snoc b).snoc c).text = (q.text ++ scope) ++ (b.text ++ (scope ++ c.text)) := by
    simp
  have hlength : (q.snoc b).text.length - b.text.length = q.text.length + 1 + 1 := by
    simp [scope]
    omega
  rw [pieceBefore, hfind]
  dsimp only
  rw [hsplit, drop_left' (by simp [scope]), take_append, hlength]
  exact mem_append_right _ mem_cons_self

theorem pieceBefore_long (q : QualifiedName) (b c : Component) :
    pieceBefore (q.snoc b) c ≠ c.text := by
  intro heq
  exact c.plain (heq ▸ colon_mem_pieceBefore q b c)

theorem inferCtorName_eq (q : QualifiedName) :
    inferCtorName q.text =
      if q.components.length = 2 ∧ q.EndsTwice then q.text else (q.snoc q.last).text := by
  rcases q.single_or_snoc with ⟨c, rfl⟩ | ⟨q, c, rfl⟩
  · rw [inferCtorName_single, if_neg (fun h => not_endsTwice_single c h.2)]
    rfl
  · have hends := endsTwice_snoc q c
    rw [inferCtorName_snoc, last_snoc]
    rcases q.single_or_snoc with ⟨b, rfl⟩ | ⟨q, b, rfl⟩
    · have hlast : (⟨b, []⟩ : QualifiedName).last = b := rfl
      rw [pieceBefore_single]
      by_cases h : b.text = c.text
      · rw [if_neg (not_not.mpr h), if_pos ⟨rfl, hends.mpr h⟩]
      · rw [if_pos h, if_neg fun hboth => h (hends.mp hboth.2)]
    · have hlength : ¬(((q.snoc b).snoc c).components.length = 2) := by
        simp [components, snoc]
      rw [if_pos (pieceBefore_long q b c), if_neg fun hboth => hlength hboth.1]

/-- The name itself if its last two components are equal, and otherwise with the last component once
more. -/
def ctorName (q : QualifiedName) : QualifiedName := if q.EndsTwice then q else q.snoc q.last

/-- The function gives the name of the constructor, and the same again for that name. -/
structure InfersCtor (q : QualifiedName) : Prop where
  name : inferCtorName q.text = (ctorName q).text
  again : inferCtorName (inferCtorName q.text) = inferCtorName q.text

theorem length_text_snoc (q : QualifiedName) (c : Component) :
    (q.snoc c).text.length = q.text.length + 2 + c.text.length := by
  simp [scope]
  omega

theorem inferCtorName_right_iff (q : QualifiedName) :
    InfersCtor q ↔
      q.components.length = 1 ∨ (q.components.length = 2 ∧ q.EndsTwice) := by
  have hgrow : ∀ q' : QualifiedName, (q'.snoc q'.last).text ≠ q'.text := by
    intro q' h
    have hlength := congrArg List.length h
    rw [length_text_snoc] at hlength
    omega
  by_cases htwo : q.components.length = 2 ∧ q.EndsTwice
  · have hsame : inferCtorName q.text = q.text := by rw [inferCtorName_eq, if_pos htwo]
    refine iff_of_true ⟨?_, ?_⟩ (Or.inr htwo)
    · rw [hsame, ctorName, if_pos htwo.2]
    · rw [hsame, hsame]
  · have happend : inferCtorName q.text = (q.snoc q.last).text := by
      rw [inferCtorName_eq, if_neg htwo]
    -- the second time it stops only at two components
    have htwice : (q.snoc q.last).EndsTwice := (endsTwice_snoc q q.last).mpr rfl
    have hlength : (q.snoc q.last).components.length = q.components.length + 1 := by simp
    have hagain := inferCtorName_eq (q.snoc q.last)
    constructor
    · intro h
      refine Or.inl ?_
      by_contra hone
      have hagain' := h.again
      rw [happend, hagain, if_neg (by rw [hlength]; omega)] at hagain'
      exact hgrow _ hagain'
    · intro h
      have hone := h.resolve_right htwo
      refine ⟨?_, ?_⟩
      · have hnot : ¬q.EndsTwice := by
          rcases q.single_or_snoc with ⟨c, rfl⟩ | ⟨q', c, rfl⟩
          · exact not_endsTwice_single c
          · simp [components, snoc] at hone
        rw [happend, ctorName, if_neg hnot]
      · rw [happend, hagain, if_pos ⟨by rw [hlength, hone], htwice⟩]

/-! `A::B::B` -/

def nameA : Component := ⟨['A'], by decide, by decide⟩

def nameB : Component := ⟨['B'], by decide, by decide⟩

theorem inferCtorName_nested :
    inferCtorName "A::B::B".toList = "A::B::B::B".toList ∧
      ¬InfersCtor ⟨nameA, [nameB, nameB]⟩ ∧ ¬InfersCtor ⟨nameA, [nameB]⟩ := by
  refine ⟨by decide, fun h => ?_, fun h => ?_⟩
  · exact absurd h.again (by decide)
  · exact absurd h.again (by decide)

end ZeroBugs.Dwarfz.CtorName
