import ZeroBugs.Unmangle.ComponentTexts
import ZeroBugs.Unmangle.StrayRuns

/-! # Runs over numbered parameters -/
namespace ZeroBugs.Unmangle

open Lib Lib.Traced List

def TypeBase.IsGlobal : TypeBase → Prop
  | named (.unscoped name _) => "_GLOBAL__N".toList <+: name
  | _ => False

instance : DecidablePred TypeBase.IsGlobal
  | .named (.unscoped name _) => inferInstanceAs (Decidable ("_GLOBAL__N".toList <+: name))
  | .named (.builtin _) => inferInstanceAs (Decidable False)
  | .named (.nested _) => inferInstanceAs (Decidable False)
  | .subst _ => inferInstanceAs (Decidable False)

theorem TypeBase.IsGlobal.exists_name {b : TypeBase} (h : b.IsGlobal) :
    ∃ name identifier, b = .named (.unscoped name identifier) ∧
      "_GLOBAL__N".toList <+: name := by
  cases b with
  | subst i => exact h.elim
  | named type =>
    cases type with
    | builtin b => exact h.elim
    | unscoped name identifier => exact ⟨name, identifier, rfl, h⟩
    | nested name => exact h.elim

def Encoding.Recorded (e : Encoding) : Prop :=
  ¬e.base.IsGlobal ∧ complete true e.marks.reverse = true ∧
    1 + e.marks.length + e.base.scopes ≤ maxPositions
  deriving Decidable

section Encodings

variable {dict : List Component} {base : BaseType} {marks : List Mark}

theorem encode_cases (dict : List Component) (base : BaseType) (marks : List Mark) :
    (encode dict base marks).base = .named base.named ∧ (encode dict base marks).marks = marks ∨
      ∃ i < dict.length, (encode dict base marks).base = .subst i ∧
        (encode dict base marks).marks <+: marks := by
  have hlt : ∀ {c : Component} {i : Nat}, dict.idxOf? c = some i → i < dict.length :=
    fun h => (List.idxOf?_eq_some_iff.mp h).1
  induction marks with
  | nil =>
    rw [encode]
    cases h : dict.idxOf? ⟨base, []⟩ with
    | some i => exact .inr ⟨i, hlt h, rfl, nil_prefix⟩
    | none => exact .inl ⟨rfl, rfl⟩
  | cons m marks ih =>
    rw [encode]
    cases h : dict.idxOf? ⟨base, m :: marks⟩ with
    | some i => exact .inr ⟨i, hlt h, rfl, nil_prefix⟩
    | none =>
      rcases ih with ⟨hbase, hmarks⟩ | ⟨i, hi, hbase, hmarks⟩
      · exact .inl ⟨hbase, congrArg (m :: ·) hmarks⟩
      · exact .inr ⟨i, hi, hbase, (cons_prefix_cons).mpr ⟨rfl, hmarks⟩⟩

theorem encode_not_nested (dict : List Component) (base : BaseType) (marks : List Mark) :
    ¬(encode dict base marks).base.IsNested := by
  rcases encode_cases dict base marks with ⟨hbase, -⟩ | ⟨i, -, hbase, -⟩
  · rw [hbase]
    cases base <;> exact id
  · rw [hbase]
    exact id

theorem follows_encodeAll (dict : List Component) (cs : List Component) :
    Follows ((encodeAll dict cs).flatMap Encoding.code) ∧
      ((encodeAll dict cs).flatMap Encoding.code).head? ≠ some 'N' := by
  cases cs with
  | nil => exact ⟨.nil, by simp [encodeAll]⟩
  | cons c cs =>
    obtain ⟨d, text, hcode, hd, hargs, -, hN⟩ :=
      typeCode_cons (encode dict c.base c.marks).marks (encode dict c.base c.marks).base
    rw [encodeAll, flatMap_cons, Component.encoding, Encoding.code, hcode]
    exact ⟨.cons hd hargs _, fun h => hN (encode_not_nested _ _ _) (Option.some.inj h)⟩

theorem ordinary_of_not_global {name rest : Text} (hglobal : ¬"_GLOBAL__N".toList <+: name)
    (hrest : Follows rest) (hN : rest.head? ≠ some 'N') : Ordinary name rest := by
  rintro hlen ⟨tail, htail⟩
  have hhead : rest.head? = ("_GLOBAL__N".toList ++ tail)[name.length]? := by
    rw [htail, getElem?_append_right (Nat.le_refl _), Nat.sub_self, head?_eq_getElem?]
  by_cases hlong : 10 ≤ name.length
  · exact hglobal (prefix_of_prefix_length_le ⟨tail, htail⟩ (prefix_append name rest)
      hlong)
  · obtain h | h : name.length = 8 ∨ name.length = 9 := by omega
    · rw [h] at hhead
      exact absurd (hrest.alphanum '_' hhead) (by decide)
    · rw [h] at hhead
      exact hN hhead

theorem Component.offerable (c : Component) : Offerable c.text := by
  refine Offerable.append ?_ _
  obtain ⟨base, marks⟩ := c
  cases base with
  | builtin b => exact b.offerable
  | ofClass name valid => exact valid.1.offerable

theorem encode_fits {rest : Text} {capacity : Nat} (hroom : dict.length ≤ capacity)
    (hcapacity : capacity < npos) (hglobal : ¬(encode dict base marks).base.IsGlobal)
    (hrest : Follows rest) (hN : rest.head? ≠ some 'N') :
    (encode dict base marks).base.Fits (dict.map Component.text) rest := by
  rcases encode_cases dict base marks with ⟨hbase, -⟩ | ⟨i, hi, hbase, -⟩
  · rw [hbase] at hglobal ⊢
    cases base with
    | builtin b => trivial
    | ofClass name valid => exact ordinary_of_not_global hglobal hrest hN
  · rw [hbase]
    refine ⟨by omega, (dict[i]).text, ?_, (dict[i]).offerable⟩
    rw [getElem?_map, getElem?_eq_getElem hi]
    rfl

end Encodings

structure Sane (dict : List Component) : Prop where
  closed : Closed dict
  canonical : ∀ c ∈ dict, Canonical c.marks

theorem Sane.number {dict : List Component} {c : Component} (h : Sane dict)
    (hc : Canonical c.marks) : Sane (c.number dict) := by
  refine ⟨h.closed.number c, fun d hd => ?_⟩
  rcases mem_addAll.mp hd with hd | hd
  · exact h.canonical d hd
  · exact hc.of_suffix (suffix_of_mem_candidates hd).2

section Param

variable {inp : Input} {f : FunctionName} {x depth i : Nat} {s : State} {dict : List Component}
  {p : Parameter} {rest : Text}

/-- The loop over the parameters is at the parameter `p`, and the dictionary has the texts
of `dict`. -/
structure AtParameter (inp : Input) (f : FunctionName) (x : Nat) (s : State)
    (dict : List Component) (p : Parameter) (rest : Text) : Prop where
  atParam : AtParam inp f x s
  subst : s.subst = dict.map Component.text
  sane : Sane dict
  room : dict.length ≤ inp.capacity
  code : At inp x ((p.component.encoding dict).code ++ rest)
  follows : Follows rest
  notNested : rest.head? ≠ some 'N'

theorem shown_encoding (dict : List Component) (p : Parameter) :
    (p.component.encoding dict).base.Shown (p.component.encoding dict).marks.reverse := by
  rw [Component.encoding]
  rcases encode_cases dict p.component.base p.component.marks with
    ⟨hbase, hmarks⟩ | ⟨i, -, hbase, -⟩
  · rw [hbase, hmarks]
    cases hc : p.component.base with
    | builtin b =>
      intro hv hnil
      refine p.shown b ?_ hv
      show p.component = _
      rw [← hc, ← reverse_eq_nil_iff.mp hnil]
    | ofClass name valid => trivial
  · rw [hbase]
    trivial

theorem separated_encoding (dict : List Component) (p : Parameter) :
    Separated (p.component.encoding dict).marks := by
  have hall := p.canonical_component.separated
  rcases encode_cases dict p.component.base p.component.marks with ⟨-, hmarks⟩ | ⟨i, -, -, hmarks⟩
  · rw [Component.encoding, hmarks]
    exact hall
  · exact hall.of_initial hmarks

variable (h : AtParameter inp f x s dict p rest) (hfits : inp.size < 2 ^ 64)
  (hdepth : (p.component.encoding dict).code.length < depth)
include h hfits hdepth

theorem AtParameter.yields (hglobal : ¬(p.component.encoding dict).base.IsGlobal) :
    Yields State.subst ((calls inp depth).type (paramRef inp) false i []) s
      (withinPositions (1 + (p.component.encoding dict).marks.length +
          (p.component.encoding dict).base.scopes)
        (insertAll inp.capacity (dict.map Component.text)
          ((p.component.encoding dict).base.entries ++
            asEntries (offers ((p.component.encoding dict).base.text (dict.map Component.text))
              (p.component.encoding dict).marks.reverse))))
      fun found s' => found = true ∧
        AtParam inp f (x + (p.component.encoding dict).code.length) s' := by
  have hcapacity : inp.capacity < npos := by
    have hpow : npos = 2 ^ 64 - 1 := rfl
    rw [Input.capacity, hpow]
    omega
  have hheight := height_lt_length (p.component.encoding dict).marks
    (p.component.encoding dict).base
  have hlen : (p.component.encoding dict).code.length =
    (marksCode (p.component.encoding dict).marks ++
      (p.component.encoding dict).base.code).length := rfl
  have hx := h.code
  rw [Encoding.code, append_assoc] at hx
  have hbase := encode_fits h.room hcapacity hglobal h.follows h.notNested
  rw [← h.subst] at hbase ⊢
  exact yields_param h.atParam hfits h.follows hbase (separated_encoding dict p)
    (shown_encoding dict p) (by omega) hx

theorem AtParameter.returns (hrecorded : (p.component.encoding dict).Recorded)
    (hcapacity : (p.component.number dict).length ≤ inp.capacity) :
    ∃ s', Returns ((calls inp depth).type (paramRef inp) false i []) s true s' ∧
      AtParam inp f (x + (p.component.encoding dict).code.length) s' ∧
      s'.subst = (p.component.number dict).map Component.text := by
  obtain ⟨hglobal, hcomplete, hnested⟩ := hrecorded
  obtain ⟨named, stagesOf, hadds⟩ := exists_adds h.sane.closed p.component.base p.component.marks
  have hkept := hadds.kept_of_complete h.sane.canonical p.canonical_component hcomplete
  have hyields := h.yields (i := i) hfits hdepth hglobal
  rw [withinPositions, if_pos hnested, insertAll_ok] at hyields
  · obtain ⟨found, s', hrun, hsubst, rfl, hat⟩ := hyields.exists_returns
    exact ⟨s', hrun, hat, hsubst.trans hkept⟩
  · refine (congrArg List.length hkept).trans_le ?_
    rw [length_map]
    exact hcapacity

theorem AtParameter.strays {final : List Text}
    (hnot : ¬((p.component.encoding dict).Recorded ∧
      (p.component.number dict).length ≤ inp.capacity))
    (hfinal : (p.component.number dict).map Component.text <+: final) :
    Strays final ((calls inp depth).type (paramRef inp) false i []) s := by
  obtain ⟨named, stagesOf, hadds⟩ := exists_adds h.sane.closed p.component.base p.component.marks
  by_cases hglobal : (p.component.encoding dict).base.IsGlobal
  · obtain ⟨name, identifier, hbase, hname⟩ := TypeBase.IsGlobal.exists_name hglobal
    have hx := h.code
    rw [Encoding.code, hbase, append_assoc] at hx
    have hdeparts : Departs (s.subst ++ [anonymousPrefix])
        ((p.component.number dict).map Component.text) := by
      have hne : anonymousPrefix ≠ name := by
        rintro rfl
        exact absurd identifier (by decide)
      have hnumber := hadds.map_number
      rw [show (encode dict p.component.base p.component.marks).base = _ from hbase] at hnumber
      rw [h.subst]
      exact ⟨_, _, [], name, _, rfl, hnumber.trans (append_assoc _ [name] _), hne⟩
    obtain ⟨shown, start, o, ho, -, hs⟩ := h.atParam
    have hheight := height_lt_length (p.component.encoding dict).marks
      (p.component.encoding dict).base
    have hmarks : (p.component.encoding dict).marks.length < depth :=
      Nat.lt_trans (Nat.lt_of_le_of_lt (Nat.le_add_right _ _) hheight) hdepth
    have hstrays : Strays final ((calls inp depth).type (paramRef inp) false i (marksText []))
        (site (paramBase inp f shown) (paramRef inp) x start s.subst o) :=
      strays_type (ready_paramBase inp f shown) rfl hfits identifier hname
        (hdeparts.not_initial hfinal) _ (separated_encoding dict p) ho hmarks hx
    rw [hs]
    exact hstrays
  · have hyields := h.yields (i := i) hfits hdepth hglobal
    rw [withinPositions, insertAll_eq (by rw [length_map]; exact h.room)] at hyields
    split at hyields
    · next hnested =>
      split at hyields
      · next hcapacity =>
        obtain ⟨found, s', hrun, hsubst, -⟩ := hyields.exists_returns
        intro a t hreturns hstart
        obtain ⟨-, rfl⟩ := Prod.mk.inj (Except.ok.inj (hrun.symm.trans hreturns))
        rw [hsubst] at hstart
        by_cases hcomplete : complete true (p.component.encoding dict).marks.reverse = true
        · have hkept := hadds.kept_of_complete h.sane.canonical p.canonical_component hcomplete
          refine hnot ⟨⟨hglobal, hcomplete, hnested⟩, ?_⟩
          refine Nat.le_trans (Nat.le_of_eq ?_) hcapacity
          exact (length_map _).symm.trans (congrArg List.length hkept).symm
        · have hdeparts := hadds.departs h.sane.canonical p.canonical_component
            (Bool.eq_false_iff.mpr hcomplete)
          exact hdeparts.not_initial hfinal hstart
      · exact .of_error hyields.ends_error
    · exact .of_error hyields.ends_error

end Param

end ZeroBugs.Unmangle
