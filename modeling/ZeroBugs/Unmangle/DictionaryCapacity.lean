import ZeroBugs.Unmangle.ParamRuns

/-! # Capacity of the dictionary -/
namespace ZeroBugs.Unmangle

open Lib Lib.Traced List

def NamedType.IsClass : NamedType → Prop
  | unscoped name _ => IsPart name
  | _ => True

structure ParamType where
  marks : List Mark
  type : NamedType
  separated : Separated marks
  -- a list without parameters has a code of its own
  shown : (TypeBase.named type).Shown marks
  isClass : type.IsClass

namespace ParamType

def code (p : ParamType) : Text := marksCode p.marks ++ p.type.code

def entries (p : ParamType) : List Entry :=
  p.type.entries ++ asEntries (offers p.type.text p.marks.reverse)

def nesting (p : ParamType) : Nat := 1 + p.marks.length + (TypeBase.named p.type).scopes

end ParamType

structure FunctionCode where
  name : FunctionName
  params : List ParamType

def paramsCode (params : List ParamType) : Text := params.flatMap ParamType.code

namespace FunctionCode

def code (f : FunctionCode) : Text :=
  "_Z".toList ++ (f.name.code ++ if f.params = [] then ['v'] else paramsCode f.params)

def withinNesting (params : List ParamType) : List ParamType :=
  params.takeWhile fun p => p.nesting ≤ maxPositions

/-- The texts of a dictionary without end: one for each prefix of the function's name, for each
class and each type it is nested in, and for the types that `apply_qualifiers` comes by, where one
that is the last already counts once. -/
def substitutions (f : FunctionCode) : List Text :=
  kept [] (f.name.entries ++ (withinNesting f.params).flatMap ParamType.entries)

end FunctionCode

def NeverFull (inp : Input) : Prop :=
  ∀ depth, 2 * inp.size < depth → (run inp depth).2 ≠ .error dictionaryFull

def recordParams (capacity : Nat) (subst : List Text) : List ParamType → Except Stop (List Text)
  | [] => .ok subst
  | p :: params => (withinPositions p.nesting (insertAll capacity subst p.entries)).bind
      fun subst => recordParams capacity subst params

theorem recordParams_full_iff {capacity : Nat} {subst : List Text} (params : List ParamType)
    (hroom : subst.length ≤ capacity) :
    recordParams capacity subst params = .error dictionaryFull ↔ capacity <
      (kept subst ((FunctionCode.withinNesting params).flatMap ParamType.entries)).length := by
  induction params generalizing subst with
  | nil =>
    exact ⟨fun h => absurd h (by simp [recordParams]), fun h => absurd h (Nat.not_lt.mpr hroom)⟩
  | cons p params ih =>
    rw [recordParams, withinPositions]
    by_cases hnesting : p.nesting ≤ maxPositions
    · have hwithin : FunctionCode.withinNesting (p :: params) =
          p :: FunctionCode.withinNesting params :=
        takeWhile_cons_of_pos (decide_eq_true hnesting)
      rw [if_pos hnesting, hwithin, flatMap_cons, kept_append, insertAll_eq hroom]
      by_cases hfits : (kept subst p.entries).length ≤ capacity
      · rw [if_pos hfits]
        exact ih hfits
      · rw [if_neg hfits]
        have hle := (prefix_kept (kept subst p.entries)
          ((FunctionCode.withinNesting params).flatMap ParamType.entries)).length_le
        exact ⟨fun _ => by omega, fun _ => rfl⟩
    · have hwithin : FunctionCode.withinNesting (p :: params) = [] :=
        takeWhile_cons_of_neg (by rwa [decide_eq_true_iff])
      rw [if_neg hnesting, hwithin]
      exact ⟨fun h => absurd (Except.error.inj h) (by decide),
        fun h => absurd h (Nat.not_lt.mpr hroom)⟩

section Runs

variable {inp : Input} {f : FunctionName}

theorem length_text_le (parts : List Text) :
    (qualifiedRest parts).length ≤ 2 * (mangledParts parts).length := by
  induction parts with
  | nil => exact Nat.le_refl 0
  | cons part parts ih =>
    obtain ⟨d, digits, hdigits, -⟩ := exists_digit part.length
    rw [qualifiedRest_cons, mangledParts_cons, mangledPart, hdigits]
    simp only [length_cons, length_append]
    omega

theorem NestedName.length_text_le (n : NestedName) : n.text.length ≤ 2 * n.code.length := by
  have hle := Unmangle.length_text_le n.rest
  rw [text, code, mangledParts_cons, mangledPart]
  simp only [length_append]
  omega

theorem FunctionName.length_text_le (f : FunctionName) : f.text.length ≤ 2 * f.code.length := by
  cases f with
  | unscoped name part =>
    rw [text, code, mangledPart, length_append]
    omega
  | nested quals name =>
    have hle := name.length_text_le
    simp only [text, code, length_append, length_cons]
    omega

theorem FunctionName.height_le_length (f : FunctionName) : f.height ≤ f.code.length := by
  cases f with
  | unscoped name part => exact Nat.zero_le _
  | nested quals name =>
    have hle := length_le_length_mangledParts (name.first :: name.rest)
    rw [length_cons] at hle
    simp only [height, code, NestedName.code, length_append, length_cons]
    omega

theorem ParamType.fits {p : ParamType} {x : Nat} {subst : List Text} {rest : Text}
    (hsize : inp.size < 2 ^ 63) (hx : At inp x (p.code ++ rest)) :
    (TypeBase.named p.type).Fits subst rest := by
  obtain ⟨marks, type, separated, shown, isClass⟩ := p
  cases type with
  | builtin b => trivial
  | unscoped name identifier => exact IsPart.ordinary isClass rest
  | nested name =>
    have hle := name.length_text_le
    have hlen := hx.size_eq
    simp only [ParamType.code, NamedType.code, length_append, length_cons] at hlen
    show name.text.length < 2 ^ 64
    omega

theorem ParamType.shown_reverse (p : ParamType) :
    (TypeBase.named p.type).Shown p.marks.reverse := by
  obtain ⟨marks, type, separated, shown, isClass⟩ := p
  cases type with
  | builtin b => exact fun hv h => shown hv (reverse_eq_nil_iff.mp h)
  | unscoped name identifier => trivial
  | nested name => trivial

theorem follows_paramsCode (params : List ParamType) : Follows (paramsCode params) := by
  cases params with
  | nil => exact .nil
  | cons p params => exact follows_typeCode p.marks (.named p.type) (paramsCode params)

theorem yields_params (hsize : inp.size < 2 ^ 63) (params : List ParamType) :
    ∀ {x depth i : Nat} {s : State}, AtParam inp f x s → (paramsCode params).length + 1 < depth →
      At inp x (paramsCode params) →
      Yields State.subst ((calls inp depth).paramLoop (paramRef inp) i) s
        (recordParams inp.capacity s.subst params) fun _ s' => s'.pos = inp.size := by
  induction params with
  | nil =>
    intro x depth i s hs hdepth hx
    obtain ⟨depth, rfl⟩ := Nat.exists_eq_add_of_lt hdepth
    rw [show (paramsCode []).length + 1 + depth + 1 = depth + 2 by
      rw [paramsCode, flatMap_nil, length_nil]; omega]
    exact yields_paramLoop_nil hs hx
  | cons p params ih =>
    intro x depth i s hs hdepth hx
    have hcode : paramsCode (p :: params) = p.code ++ paramsCode params := flatMap_cons
    rw [hcode] at hdepth hx
    have hheight := height_lt_length p.marks (.named p.type)
    have hlen : p.code.length = (marksCode p.marks ++ (TypeBase.named p.type).code).length := rfl
    rw [length_append] at hdepth
    obtain ⟨depth, rfl⟩ := Nat.exists_eq_succ_of_ne_zero (Nat.ne_of_gt (Nat.zero_lt_of_lt hdepth))
    have hfits : inp.size < 2 ^ 64 := by omega
    have hnext := hx.append
    refine yields_paramLoop_cons hs hfits (follows_paramsCode params) (p.fits hsize hx) p.separated
      p.shown_reverse (by omega) ?_ fun s' hs' => ih hs' (by omega) hnext
    rw [← append_assoc]
    exact hx

theorem FunctionCode.yields_run {f : FunctionCode} {depth : Nat} (hname : inp.name = f.code)
    (hsize : inp.size < 2 ^ 63) (hdepth : 2 * inp.size < depth) :
    Yields State.subst (parse inp (calls inp depth)) State.new
      ((insertAll inp.capacity [] f.name.entries).bind fun subst =>
        recordParams inp.capacity subst f.params) fun _ _ => True := by
  have hfits : inp.size < 2 ^ 64 := by omega
  have hlen : f.name.code.length ≤ inp.size := by
    rw [Input.size, hname, code, length_append, length_append]
    omega
  have htext : f.name.text.length < 2 ^ 64 := by
    have hle := f.name.length_text_le
    omega
  have hheight : f.name.height < depth := by
    have hle := f.name.height_le_length
    omega
  have hstart : At inp 0 f.code := ⟨Nat.zero_le _, hname⟩
  rw [code] at hname hstart
  have hparams : At inp (2 + f.name.code.length) _ := hstart.append.append
  by_cases hnil : f.params = []
  · rw [if_pos hnil] at hname hparams
    obtain ⟨depth, rfl⟩ : ∃ d, depth = d + 3 := ⟨depth - 3, by have := hparams.lt; omega⟩
    rw [hnil]
    exact yields_parse hname hfits htext (.cons rfl (by decide) []) (by decide) hheight
      fun s hs => yields_paramLoop_void hs hparams
  · rw [if_neg hnil] at hname hparams
    obtain ⟨p, params, hcons⟩ := exists_cons_of_ne_nil hnil
    obtain ⟨c, text, hcode, hc, hargs, hend, -⟩ := typeCode_cons p.marks (.named p.type)
    have hall : paramsCode f.params = c :: (text ++ paramsCode params) := by
      rw [hcons, paramsCode, flatMap_cons, ParamType.code,
        show marksCode p.marks ++ p.type.code = c :: text from hcode]
      rfl
    have hsum := hparams.size_eq
    have hloop : ∀ s, AtParam inp f.name (2 + f.name.code.length) s →
        Yields State.subst ((calls inp depth).paramLoop (paramRef inp) 0) s
          (recordParams inp.capacity s.subst f.params) fun _ s' => s'.pos = inp.size :=
      fun s hs => yields_params hsize f.params hs (by omega) hparams
    rw [hall] at hname
    exact yields_parse hname hfits htext (.cons hc hargs _) hend hheight hloop

end Runs

theorem FunctionCode.full_iff (f : FunctionCode) (capacity : Nat) :
    ((insertAll capacity [] f.name.entries).bind fun subst =>
        recordParams capacity subst f.params) = .error dictionaryFull ↔
      capacity < f.substitutions.length := by
  have hroom : ([] : List Text).length ≤ capacity := Nat.zero_le _
  rw [substitutions, kept_append, insertAll_eq hroom]
  by_cases hfits : (kept [] f.name.entries).length ≤ capacity
  · rw [if_pos hfits]
    exact recordParams_full_iff f.params hfits
  · rw [if_neg hfits]
    have hle := (prefix_kept (kept [] f.name.entries)
      ((withinNesting f.params).flatMap ParamType.entries)).length_le
    exact ⟨fun _ => by omega, fun _ => rfl⟩

/-- `foo::bar(char const*)` -/
def memberFunction : FunctionCode :=
  ⟨.nested [] ⟨"foo".toList, ["bar".toList], by decide⟩,
    [⟨[.indirection .pointer, .qualifiers .const []], .builtin ⟨'c', "char", rfl⟩, trivial,
      fun h => absurd h (by decide), trivial⟩]⟩

/-- `f(int*******)` -/
def sevenPointers : FunctionCode :=
  ⟨.unscoped "f".toList (by decide),
    [⟨List.replicate 7 (.indirection .pointer), .builtin ⟨'i', "int", rfl⟩, trivial,
      fun h => absurd h (by decide), trivial⟩]⟩

end ZeroBugs.Unmangle
