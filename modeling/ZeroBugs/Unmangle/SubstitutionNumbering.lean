import ZeroBugs.Unmangle.NumberedParams

/-! # Numbering of substitutions -/
namespace ZeroBugs.Unmangle

open Lib Lib.Traced List

def Numbered (inp : Input) (texts : List Text) : Prop :=
  ∀ depth, 2 * inp.size < depth → ∃ text s, (run inp depth).2 = .ok (text, s) ∧ s.subst = texts

section Loop

variable {inp : Input} {f : FunctionName}

def paramsText (dict : List Component) (params : List Parameter) : Text :=
  (encodeAll dict (params.map Parameter.component)).flatMap Encoding.code

def AllRecorded (inp : Input) (dict : List Component) (params : List Parameter) : Prop :=
  (∀ e ∈ encodeAll dict (params.map Parameter.component), e.Recorded) ∧
    (numberAll dict (params.map Parameter.component)).length ≤ inp.capacity

theorem allRecorded_cons {dict : List Component} {p : Parameter} {params : List Parameter} :
    AllRecorded inp dict (p :: params) ↔
      ((p.component.encoding dict).Recorded ∧ (p.component.number dict).length ≤ inp.capacity) ∧
        AllRecorded inp (p.component.number dict) params := by
  have hle := (prefix_numberAll (p.component.number dict)
    (params.map Parameter.component)).length_le
  simp only [AllRecorded, map_cons, encodeAll, forall_mem_cons, numberAll,
    foldl_cons] at hle ⊢
  constructor
  · rintro ⟨⟨hfirst, hrest⟩, hroom⟩
    exact ⟨⟨hfirst, Nat.le_trans hle hroom⟩, hrest, hroom⟩
  · rintro ⟨⟨hfirst, -⟩, hrest, hroom⟩
    exact ⟨⟨hfirst, hrest⟩, hroom⟩

theorem paramLoop_numbering (hfits : inp.size < 2 ^ 64) (params : List Parameter) :
    ∀ {dict : List Component} {x depth i : Nat} {s : State}, AtParam inp f x s →
      s.subst = dict.map Component.text → Sane dict → dict.length ≤ inp.capacity →
      (paramsText dict params).length + 1 < depth → At inp x (paramsText dict params) →
      (AllRecorded inp dict params →
        Yields State.subst ((calls inp depth).paramLoop (paramRef inp) i) s
          (.ok ((numberAll dict (params.map Parameter.component)).map Component.text))
          fun _ s' => s'.pos = inp.size) ∧
      (¬AllRecorded inp dict params →
        Strays ((numberAll dict (params.map Parameter.component)).map Component.text)
          ((calls inp depth).paramLoop (paramRef inp) i) s) := by
  induction params with
  | nil =>
    intro dict x depth i s hat hsubst hsane hroom hdepth hx
    obtain ⟨depth, rfl⟩ : ∃ d, depth = d + 2 := ⟨depth - 2, by omega⟩
    refine ⟨fun _ => ?_, fun h => absurd ⟨fun e he => absurd he not_mem_nil, hroom⟩ h⟩
    rw [show numberAll dict ([].map Parameter.component) = dict from rfl, ← hsubst]
    exact yields_paramLoop_nil hat hx
  | cons p params ih =>
    intro dict x depth i s hat hsubst hsane hroom hdepth hx
    have htext : paramsText dict (p :: params) =
        (p.component.encoding dict).code ++ paramsText (p.component.number dict) params :=
      flatMap_cons
    rw [htext] at hx hdepth
    rw [length_append] at hdepth
    obtain ⟨depth, rfl⟩ := Nat.exists_eq_succ_of_ne_zero (Nat.ne_of_gt (Nat.zero_lt_of_lt hdepth))
    obtain ⟨hfollows, hnested⟩ := follows_encodeAll (p.component.number dict)
      (params.map Parameter.component)
    have hparam : AtParameter inp f x s dict p (paramsText (p.component.number dict) params) :=
      ⟨hat, hsubst, hsane, hroom, hx, hfollows, hnested⟩
    have hlen : (p.component.encoding dict).code.length < depth := by omega
    have hpos : 0 < (p.component.encoding dict).code.length := Nat.zero_lt_of_lt
      (height_lt_length (p.component.encoding dict).marks (p.component.encoding dict).base)
    rw [allRecorded_cons]
    by_cases hfirst : (p.component.encoding dict).Recorded ∧
        (p.component.number dict).length ≤ inp.capacity
    · obtain ⟨s', hrun, hat', hsubst'⟩ := hparam.returns (i := i) hfits hlen hfirst.1 hfirst.2
      have hshorter : (paramsText (p.component.number dict) params).length + 1 < depth := by omega
      obtain ⟨hyields, hstrays⟩ := ih (i := i + 1) hat' hsubst'
        (hsane.number p.canonical_component) hfirst.2 hshorter hx.append
      exact ⟨fun h => .bind_returns hrun (.ite_true rfl (hyields h.2)),
        fun h => .bind_returns hrun (.ite_true rfl (hstrays fun hrest => h ⟨hfirst, hrest⟩))⟩
    · refine ⟨fun h => absurd h.1 hfirst, fun _ => ?_⟩
      have hfinal := (prefix_numberAll (p.component.number dict)
        (params.map Parameter.component)).map Component.text
      exact .bind_grows (hparam.strays hfits hlen hfirst hfinal) fun _ =>
        Growing.grows

end Loop

section Whole

variable {inp : Input} {name : Text} {params : List Parameter} {depth : Nat}

theorem runsLoop_mangledFunction (part : IsPart name)
    (hname : inp.name = mangledFunction name params) (hfits : inp.size < 2 ^ 64)
    (hdepth : 0 < depth) :
    ∃ t, RunsLoop inp (calls inp depth) (parse inp (calls inp depth)) State.new (.ok t) ∧
      t.subst = [] ∧ AtParam inp (.unscoped name part) (2 + (mangledPart name).length) t := by
  have hlen : name.length < 2 ^ 64 := by
    refine Nat.lt_of_le_of_lt ?_ hfits
    rw [Input.size, hname, mangledFunction, mangledPart]
    simp only [length_append]
    omega
  have hcode : ∃ c text, (if params = [] then ['v'] else
      (encodings params).flatMap Encoding.code) = c :: text ∧ Follows (c :: text) ∧ c ≠ 'E' := by
    cases params with
    | nil => exact ⟨'v', [], rfl, .cons (by decide) (by decide) [], by decide⟩
    | cons p params =>
      obtain ⟨c, text, hcode, hc, hargs, hend, -⟩ := typeCode_cons
        (p.component.encoding []).marks (p.component.encoding []).base
      refine ⟨c, text ++ paramsText (p.component.number []) params, ?_, .cons hc hargs _, hend⟩
      rw [if_neg (cons_ne_nil _ _), encodings, map_cons, encodeAll, flatMap_cons,
        Encoding.code, hcode]
      rfl
  obtain ⟨c, text, hcode, hfollows, hend⟩ := hcode
  rw [mangledFunction, hcode] at hname
  obtain ⟨start, o, hrun⟩ := runsLoop_parse (f := .unscoped name part) hname hfits hlen hfollows
    hend hdepth
  exact ⟨_, hrun, rfl, atParam_firstParam _ start o []⟩

theorem numbering_of_atParam {f : FunctionName} {t : State}
    (hname : inp.name = mangledFunction name params) (hfits : inp.size < 2 ^ 64)
    (hdepth : 2 * inp.size < depth) (hsubst : t.subst = [])
    (hat : AtParam inp f (2 + (mangledPart name).length) t) :
    (AllRecorded inp [] params →
      Yields State.subst ((calls inp depth).paramLoop (paramRef inp) 0) t
        (.ok ((numbering params).map Component.text)) fun _ s' => s'.pos = inp.size) ∧
    (¬AllRecorded inp [] params →
      Strays ((numbering params).map Component.text)
        ((calls inp depth).paramLoop (paramRef inp) 0) t) := by
  have hstart : At inp 0 (mangledFunction name params) := ⟨Nat.zero_le _, hname⟩
  have hparams := hstart.append.append
  have hsize := hparams.size_eq
  cases params with
  | nil =>
    refine ⟨fun _ => ?_, fun h => absurd ⟨fun e he => absurd he not_mem_nil, Nat.zero_le _⟩ h⟩
    obtain ⟨depth, rfl⟩ : ∃ d, depth = d + 3 := ⟨depth - 3, by
      have hle : "_Z".toList.length + (mangledPart name).length < inp.size := hparams.lt
      have htwo : "_Z".toList.length = 2 := rfl
      omega⟩
    have hvoid : Yields State.subst ((calls inp (depth + 3)).paramLoop (paramRef inp) 0) t
        (.ok t.subst) fun _ s' => s'.pos = inp.size := yields_paramLoop_void hat hparams
    rw [hsubst] at hvoid
    exact hvoid
  | cons p params =>
    have hsane : Sane [] := ⟨fun c hc => absurd hc not_mem_nil,
      fun c hc => absurd hc not_mem_nil⟩
    have hlen : (paramsText [] (p :: params)).length + 2 ≤ inp.size := by
      rw [hsize]
      exact Nat.le_trans (Nat.le_of_eq (Nat.add_comm _ _))
        (Nat.add_le_add_right (Nat.le_add_right 2 _) _)
    exact paramLoop_numbering hfits (p :: params) hat hsubst hsane (Nat.zero_le _) (by omega)
      hparams

end Whole

theorem numbered_iff (inp : Input) (name : Text) (part : IsPart name) (params : List Parameter)
    (hname : inp.name = mangledFunction name params) (hfits : inp.size < 2 ^ 64) :
    Numbered inp ((numbering params).map Component.text) ↔
      (∀ e ∈ encodings params, e.Recorded) ∧ (numbering params).length ≤ inp.capacity := by
  constructor
  · intro hnumbered
    by_contra hnot
    have hdepth := Nat.lt_succ_self (2 * inp.size)
    obtain ⟨text, s, hrun, hsubst⟩ := hnumbered _ hdepth
    obtain ⟨t, ⟨rest, hrest, heq⟩, ht, hat⟩ := runsLoop_mangledFunction part hname hfits
      (Nat.succ_pos (2 * inp.size))
    have hstrays := (numbering_of_atParam hname hfits hdepth ht hat).2 hnot
    refine hstrays.bind_grows (fun i => (hrest i).grows) text s (heq.symm.trans hrun) ?_
    exact hsubst ▸ prefix_refl _
  · intro hall depth hdepth
    obtain ⟨t, hloop, ht, hat⟩ := runsLoop_mangledFunction part hname hfits
      (Nat.zero_lt_of_lt hdepth)
    have hyields := (numbering_of_atParam hname hfits hdepth ht hat).1 hall
    obtain ⟨text, s, hrun, hsubst, -⟩ := (hloop.yields hyields).exists_returns
    exact ⟨text, s, hrun, hsubst⟩

def constReference : List Parameter :=
  [⟨.reference (.const (.base (.ofClass "Foo".toList (by decide)))), fun _ h => nomatch h⟩,
    ⟨.base (.ofClass "Foo".toList (by decide)), fun _ h => nomatch h⟩]

theorem numbered_constReference :
    mangledFunction "f".toList constReference = "_Z1fRK3FooS_".toList ∧
      Numbered (.ofName "_Z1fRK3FooS_".toList (by decide))
        ["Foo".toList, "Foo const".toList, "Foo const&".toList] :=
  ⟨by decide, (numbered_iff (.ofName "_Z1fRK3FooS_".toList (by decide)) "f".toList (by decide)
    constReference (by decide) (by decide)).mpr (by decide)⟩

def constPointer : List Parameter :=
  [⟨.pointer (.const (.pointer (.base (.ofClass "Foo".toList (by decide))))),
    fun _ h => nomatch h⟩]

theorem constPointer_not_numbered :
    mangledFunction "f".toList constPointer = "_Z1fPKP3Foo".toList ∧
      (numbering constPointer).map Component.text =
        ["Foo".toList, "Foo*".toList, "Foo* const".toList, "Foo* const*".toList] ∧
      ¬Numbered (.ofName "_Z1fPKP3Foo".toList (by decide))
        ["Foo".toList, "Foo*".toList, "Foo* const".toList, "Foo* const*".toList] := by
  have hrun : (match (run (.ofName "_Z1fPKP3Foo".toList (by decide)) 23).2 with
      | .error _ => []
      | .ok (_, s) => s.subst) =
      ["Foo".toList, "Foo* const".toList, "Foo* const*".toList] := by decide +kernel
  refine ⟨by decide, by decide, fun hnumbered => ?_⟩
  obtain ⟨text, s, hok, hsubst⟩ := hnumbered 23 (by decide)
  rw [hok] at hrun
  exact absurd (hsubst.symm.trans hrun) (by decide)

end ZeroBugs.Unmangle
