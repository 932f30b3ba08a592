import ZeroBugs.Unmangle.CursorSafety

/-! # Runs of the decoder -/
namespace ZeroBugs.Unmangle

open Lib

-- the instance for a production is as large as its body
set_option synthInstance.maxSize 100000

variable {inp : Input} {x lo : Nat} {call : Calls} {out : OutRef} {flags : NameFlags}

section Expressions

variable [h : Fact (call.SoundFrom inp (x + 1))]

theorem parseTemplateArgs_spec (hx : x ≤ inp.size) :
    Holds inp x (parseTemplateArgs inp call out flags) fun _ y => Passes inp x y := by
  refine holds_assertInside fun hlt => holds_assertChar hx fun _ => ?_
  have hlist : Holds inp x (do setSourceNameSize out; parseTemplateArgList inp call out)
      fun _ y => Passes inp x y :=
    .skip fun _ => holds_withDelim (.skip fun _ => holds_temporarily (holds_advance
      (wander (passes_succ hlt) le_rfl)))
  exact .bind (holds_temporarily hlist) fun _ y hy => .pure hy

omit h in
instance [Fact (call.SoundFrom inp lo)] : Wanders inp lo (parseTemplateArgs inp call out flags) :=
  .of_spec call fun _ _ hx => (parseTemplateArgs_spec hx).mono fun _ _ hy => hy.stays

omit h in
instance [Fact (call.SoundFrom inp lo)] (temp : OutRef) :
    Wanders inp lo (parsePrimary inp call out temp) := by
  unfold parsePrimary parseLiteral
  refine ⟨fun y hy => holds_isAt (fun hlt => holds_advance ?_) (wander hy le_rfl)⟩
  have hnext : Stays inp lo (y + 1) := ⟨hy.1.trans (Nat.le_succ y), hlt⟩
  exact wander hnext (Nat.le_succ y)

theorem parseExprPrimary_spec (hx : x ≤ inp.size) :
    Holds inp x (parseExprPrimary inp call out) fun _ y => Passes inp x y := by
  refine holds_assertInside fun hlt => holds_assertChar hx fun _ => .skip fun temp => ?_
  have hstart := passes_succ hlt
  refine holds_advance (holds_isInside (fun _ => holds_peek hlt ?_) fun _ => wander hstart le_rfl)
  refine holds_onlyIf (fun hc => ?_) fun _ => wander hstart le_rfl
  have hlt' := Input.lt_size_of_char (of_decide_eq_true hc) (by decide)
  have hnext : Stays inp (x + 1) (x + 1 + 1) := ⟨Nat.le_succ _, hlt'⟩
  exact holds_advance (wander hnext (Nat.le_succ _))

variable {top : Bool}

theorem parseTypeExpression_spec {c : Char} (hle : x + 2 ≤ inp.size) :
    Holds inp x (parseTypeExpression inp call out top c) fun _ y => Stays inp x y := by
  have hstart : Stays inp (x + 1) (x + 2) := ⟨Nat.le_succ _, hle⟩
  unfold parseTypeExpression parseDependentName
  exact .skip fun _ => .skip fun _ => holds_advance (wander hstart (by omega))

omit h in
instance [Fact (call.SoundFrom inp lo)] (temp : OutRef) (arity left : Nat) :
    Wanders inp lo (operandLoop call out temp arity left) := by
  induction left <;> unfold operandLoop <;> infer_instance

theorem parseOperation_spec (hx : x ≤ inp.size) :
    Holds inp x (parseOperation inp call out top) fun _ y => Stays inp x y := by
  refine .skip fun temp => .bind (parseOperatorName_spec hx) fun op y hy => ?_
  cases op with
  | none => exact .pure hy.1
  | some op =>
    have hlater : Stays inp (x + 1) y := ⟨hy.2 rfl, hy.1.2⟩
    unfold parseOperands
    exact wander hlater hy.1.1

theorem parseExpressionAt_spec (hx : x ≤ inp.size) :
    Holds inp x (parseExpressionAt inp call out top) fun _ y => Stays inp x y := by
  refine holds_assertInside fun hlt => holds_getPos (holds_peek hx (.ite (fun _ => ?_) fun _ => ?_))
  · refine .skip fun _ => .bind (parseExprPrimary_spec hx) fun _ y hy => ?_
    exact .skip fun _ => .still fun _ => hy.stays
  · refine .ite (fun _ => holds_read hlt (.ite (fun hc => ?_) fun _ => ?_)) fun _ => ?_
    · have hlt' : x + 1 < inp.size := by
        rcases hc with hc | hc <;> exact Input.lt_size_of_char hc (by decide)
      exact parseTypeExpression_spec hlt'
    · exact parseOperation_spec hx
    · exact parseOperation_spec hx

omit h in
instance [Fact (call.SoundFrom inp lo)] (top : Bool) :
    Wanders inp lo (parseExpressionAt inp call out top) :=
  .of_spec call fun _ _ hx => parseExpressionAt_spec hx

theorem parseExpression_spec (hx : x ≤ inp.size) :
    Holds inp x (parseExpression inp call out) fun _ y => Passes inp x y :=
  holds_assertInside fun hlt => holds_assertChar hx fun _ => holds_advance <|
    wander (passes_succ hlt) le_rfl

theorem parseTemplateArg_spec {p : Nat} (hat : call.Sound inp x) (hx : x ≤ inp.size) :
    Holds inp x (parseTemplateArg inp call out p) (Found inp x) := by
  have hkind (c : Char) : Holds inp x (parseTemplateArgKind inp call out c) (Found inp x) := by
    refine .ite (fun _ => ?_) fun _ => .ite (fun _ => ?_) fun _ => hat.type out false 0 []
    · refine .bind (parseExpression_spec hx) fun _ y hy => .bind isAt_spec fun found z hz => ?_
      obtain ⟨rfl, -⟩ := hz
      exact .skip fun _ => .pure hy.found
    · exact .bind (parseExprPrimary_spec hx) fun _ y hy => .still fun _ => hy.found
  refine holds_isInside (fun _ => holds_peek hx ?_) fun _ => .pure (not_found hx)
  exact .bind (hkind _) fun found y hy => .skip fun _ => .pure hy

theorem parseTemplateArgLoop_spec {p : Nat} (hat : call.Sound inp x) (hx : x ≤ inp.size) :
    Holds inp x (parseTemplateArgLoop inp call out p) fun _ y => Stays inp x y := by
  refine .bind (parseTemplateArg_spec hat hx) fun found y hy => ?_
  refine .ite (fun hfound => ?_) fun _ => .pure hy.1
  have hlater : Stays inp (x + 1) y := ⟨hy.2 hfound, hy.1.2⟩
  exact wander hlater hy.1.1

end Expressions

section Nested

variable [h : Fact (call.SoundFrom inp (x + 1))]

variable {l : Loop}

theorem parsePrefixArgs_spec (hx : x ≤ inp.size) :
    Holds inp x (parsePrefixArgs inp call out l) fun _ y => Passes inp x y := by
  refine .bind (addSubstitution_spec hx) fun flags y hy => .skip fun s => ?_
  obtain rfl := hy
  exact .bind (parseTemplateArgs_spec hx) fun flags z hz => wander hz hz.1

theorem parsePrefixName_spec (hx : x ≤ inp.size) :
    Holds inp x (parsePrefixName inp call out l) fun r y => Found inp x r.1.isSome y := by
  refine .skip fun start => .skip fun o => .skip fun _ => ?_
  refine .bind (parseUnqualifiedName_spec hx) fun r y hy => .ite (fun hfound => ?_) fun _ => ?_
  · exact .skip fun _ => .skip fun _ => .pure ⟨hy.1, fun _ => hy.2 hfound⟩
  · exact .pure ⟨hy.1, by simp⟩

theorem parsePrefixLoop_spec (hx : x ≤ inp.size) :
    Holds inp x (parsePrefixLoop inp call out l) fun _ y => Stays inp x y := by
  have hagain {y : Nat} (hy : Passes inp x y) (l : Loop) :
      Holds inp y (call.prefixLoop out l) fun _ z => Stays inp x z := wander hy hy.1.le
  have hdone {a : NameFlags} : Holds inp x (pure a) fun _ y => Stays inp x y := .pure ⟨le_rfl, hx⟩
  refine holds_isInside (fun _ => holds_peek hx ?_) fun _ => hdone
  refine .ite (fun _ => .ite (fun _ => ?_) fun _ => hdone) fun _ => ?_
  · exact .bind (parseSubstitution_spec hx) fun _ y hy => hagain hy _
  refine .ite (fun _ => .ite (fun _ => ?_) fun _ => hdone) fun _ => ?_
  · exact .bind (parseTemplateParam_spec hx) fun _ y hy => hagain hy _
  refine .ite (fun _ => .ite (fun _ => ?_) fun _ => .skip fun _ => hdone) fun _ => ?_
  · exact .bind (parsePrefixArgs_spec hx) fun l y hy => hagain hy l
  · refine .bind (holds_temporarily (parsePrefixName_spec hx)) fun r y hy => ?_
    obtain ⟨_ | l, flags⟩ := r
    · exact .pure hy.1
    · exact hagain ⟨hy.2 rfl, hy.1.2⟩ l

omit h in
instance : Wanders inp lo (parseNestedQualifiers inp) := by
  refine ⟨fun y hy => .skip fun s => ?_⟩
  cases s.cvQualifiers <;> exact wander hy le_rfl

theorem parseNestedName_spec (hx : x ≤ inp.size) :
    Holds inp x (parseNestedName inp call out flags) fun _ y => Passes inp x y := by
  unfold parseNestedName parsePrefix checkPrefixStart
  exact holds_assertInside fun hlt => holds_assertChar hx fun _ => holds_advance <|
    wander (passes_succ hlt) le_rfl

omit h in
instance (i : Nat) : Wanders inp lo (parseDiscriminator inp out i) := by
  unfold parseDiscriminator onlyIf
  exact ⟨fun y hy => holds_isAt
    (fun hlt => holds_advance (wander (passes_succ hlt) (Nat.le_succ y))) (wander hy le_rfl)⟩

omit h in
instance [Fact (call.SoundFrom inp lo)] : Wanders inp lo (parseEntity inp call out) := by
  refine ⟨fun y hy => holds_peek hy.2 (.ite (fun hc => ?_) fun _ => wander hy le_rfl)⟩
  have hlt := Input.lt_size_of_char hc (by decide)
  exact .skip fun _ => holds_advance (.pure ⟨Nat.le_succ y, hlt⟩)

theorem parseLocalName_spec (hx : x ≤ inp.size) :
    Holds inp x (parseLocalName inp call out) fun _ y => Passes inp x y := by
  refine holds_assertInside fun hlt => holds_assertChar hx fun _ => holds_advance ?_
  refine .bind (wander (passes_succ hlt) le_rfl) fun _ y hy => holds_getPos ?_
  have hfail : Holds inp y invalidName fun _ z => Passes inp x z := .still fun _ => hy
  refine .ite (fun hlt' => holds_peek hy.2 (.ite (fun _ => holds_advance ?_) fun _ => hfail))
    fun _ => hfail
  have hnext : Stays inp (x + 1) (y + 1) := ⟨hy.1.trans (Nat.le_succ y), hlt'.le⟩
  exact wander hnext hnext.1

end Nested

section Names

variable [h : Fact (call.SoundFrom inp (x + 1))]

omit h in
instance [Fact (call.SoundFrom inp lo)] : Wanders inp lo (parseNameArgs inp call out flags) := by
  unfold parseNameArgs
  infer_instance

theorem parseSubstitutedName_spec (hx : x < inp.size) :
    Holds inp x (parseSubstitutedName inp call out flags) fun _ y => Passes inp x y :=
  holds_getPos <| holds_read hx <| .bind (parseSubstitution_spec hx.le) fun _ _ hy => wander hy hy.1

theorem parseTemplateName_spec (hx : x ≤ inp.size) :
    Holds inp x (parseTemplateName inp call out flags) fun r y => Found inp x r.1 y := by
  refine .bind (parseUnscopedName_spec hx) fun r y hy => .ite (fun hfound => ?_) fun _ => ?_
  · have hpass : Passes inp x y := ⟨hy.2 hfound, hy.1.2⟩
    exact (wander hpass hpass.1).mono fun _ _ hz => Passes.found hz
  · exact .pure ⟨hy.1, by simp⟩

theorem parseNameKind_spec {c : Char} (hx : x < inp.size) :
    Holds inp x (parseNameKind inp call out flags c) fun r y =>
      Found inp x r.1 y ∧ (c = 'S' → x < y) := by
  have hpass {y : Nat} {found : Bool} (hy : Passes inp x y) :
      Found inp x found y ∧ (c = 'S' → x < y) := ⟨hy.found, fun _ => hy.1⟩
  refine .ite (fun _ => ?_) fun _ => .ite (fun _ => ?_) fun _ => .ite (fun _ => ?_) fun hS => ?_
  · exact .bind (parseNestedName_spec hx.le) fun _ y hy => .pure (hpass hy)
  · exact .bind (parseLocalName_spec hx.le) fun _ y hy => .pure (hpass hy)
  · exact (parseSubstitutedName_spec hx).mono fun _ y hy => hpass hy
  · exact (parseTemplateName_spec hx.le).mono fun _ y hy => ⟨hy, fun hc => absurd hc hS⟩

theorem parseName_spec (hx : x ≤ inp.size) :
    Holds inp x (parseName inp call out flags) fun r y =>
      Found inp x r.1 y ∧ (inp.char x = 'S' → x < y) := by
  refine holds_isInside (fun hlt => holds_withPosition ?_) fun hge => .pure ?_
  · exact holds_peek hx (parseNameKind_spec hlt)
  · refine ⟨not_found hx, fun hc => ?_⟩
    exact absurd (Input.lt_size_of_char hc (by decide)) (not_lt.mpr hge)

end Names

section Types

variable [h : Fact (call.SoundFrom inp (x + 1))] {quals : Text}

omit h in
instance [Fact (call.SoundFrom inp lo)] : Wanders inp lo (emitFunctionParams inp call out) := by
  unfold emitFunctionParams
  infer_instance

theorem emitParamLoop_spec {i : Nat} (hat : call.Sound inp x) :
    Holds inp x (emitParamLoop call out i) fun _ y => Stays inp x y := by
  refine .bind (hat.type out false i []) fun found y hy => ?_
  refine .ite (fun hfound => ?_) fun _ => .pure hy.1
  have hlater : Stays inp (x + 1) y := ⟨hy.2 hfound, hy.1.2⟩
  exact wander hlater hy.1.1

theorem parseFunctionType_spec {klass : Option OutRef} (hx : x ≤ inp.size) :
    Holds inp x (parseFunctionType inp call out quals klass) fun _ y => Passes inp x y := by
  unfold parseFunctionType parseBareFunctionType parseSignature
  refine holds_assertInside fun hlt => holds_assertChar hx fun _ => holds_advance ?_
  refine holds_peek hlt (holds_onlyIf (fun hc => ?_) fun _ => wander (passes_succ hlt) le_rfl)
  have hlt' := Input.lt_size_of_char (of_decide_eq_true hc) (by decide)
  have hlang : Holds inp (x + 1) (do append out "extern C ".toList; advance 1)
      fun _ y => Stays inp (x + 1) y :=
    .skip fun _ => (advance_spec 1).mono fun _ y hy => ⟨by omega, by omega⟩
  exact .bind hlang fun _ y hy => wander hy hy.1

omit h in
instance [Fact (call.SoundFrom inp lo)] (klass : Option OutRef) :
    Wanders inp lo (parseFunctionType inp call out quals klass) :=
  .of_spec call fun _ _ hx => (parseFunctionType_spec hx).mono fun _ _ hy => hy.stays

theorem parsePointerToMemberType_spec (hx : x ≤ inp.size) :
    Holds inp x (parsePointerToMemberType inp call out quals) fun _ y => Passes inp x y := by
  unfold parsePointerToMemberType parseMember
  exact holds_assertInside fun hlt => holds_assertChar hx fun _ => holds_advance <|
    wander (passes_succ hlt) le_rfl

omit h in
instance [Fact (call.SoundFrom inp lo)] : Wanders inp lo (parseExpression inp call out) :=
  .of_spec call fun _ _ hx => (parseExpression_spec hx).mono fun _ _ hy => hy.stays

theorem parseArrayType_spec (hx : x ≤ inp.size) :
    Holds inp x (parseArrayType inp call out quals) fun _ y => Passes inp x y := by
  unfold parseArrayType parseDimension parseElements
  refine holds_assertInside fun hlt => holds_assertChar hx fun _ => holds_advance ?_
  refine holds_isInside (fun _ => ?_) fun _ => .still fun _ => passes_succ hlt
  refine .bind (wander (passes_succ hlt) le_rfl) fun dim y hy => holds_peek hy.2 ?_
  refine .ite (fun hc => holds_advance ?_) fun _ => .still fun _ => hy
  have hnext : Stays inp (x + 1) (y + 1) :=
    ⟨hy.1.trans (Nat.le_succ y), Input.lt_size_of_char hc (by decide)⟩
  exact wander hnext hnext.1

variable {ret : Bool}

theorem parseBuiltinType_spec (hx : x ≤ inp.size) :
    Holds inp x (parseBuiltinType inp call out ret) fun builtin y =>
      Stays inp x y ∧ (builtin ≠ .none → x < y) := by
  have hnone : Stays inp x x ∧ (BuiltinType.none ≠ .none → x < x) :=
    ⟨⟨le_rfl, hx⟩, fun hne => absurd rfl hne⟩
  have hpass {y : Nat} {builtin : BuiltinType} (hy : Passes inp x y) :
      Stays inp x y ∧ (builtin ≠ .none → x < y) := ⟨hy.stays, fun _ => hy.1⟩
  refine holds_isInside (fun hlt => holds_peek hx (.skip fun s => ?_)) fun _ => .pure hnone
  refine .ite (fun _ => ?_) fun _ => .ite (fun _ => holds_advance (.pure ?_)) fun _ => ?_
  · exact holds_advance ((wander (passes_succ hlt) le_rfl).mono fun _ y hy => hpass hy)
  · exact hpass (passes_succ hlt)
  · cases builtinTable (inp.char x) with
    | none => exact .pure hnone
    | some text => exact .skip fun _ => holds_advance (.pure (hpass (passes_succ hlt)))

omit h in
instance [Fact (call.SoundFrom inp lo)] :
    Wanders inp lo (checkForTemplateArgs inp call out quals flags) := by
  unfold checkForTemplateArgs
  infer_instance

theorem parseSubstitutedType_spec (hc : inp.char x = 'S') :
    Holds inp x (parseSubstitutedType inp call out quals) fun _ y => Passes inp x y := by
  have hlt := Input.lt_size_of_char hc (by decide)
  refine holds_getPos (holds_read hlt (.ite (fun _ => ?_) fun _ => ?_))
  · refine .bind (parseName_spec hlt.le) fun r y hy => ?_
    have hpass : Passes inp x y := ⟨hy.2 hc, hy.1.1.2⟩
    exact wander hpass hpass.1
  · exact .bind (parseSubstitution_spec hlt.le) fun flags y hy => wander hy hy.1

theorem parseNamedType_spec (hx : x ≤ inp.size) :
    Holds inp x (parseNamedType inp call out ret quals) (Found inp x) := by
  have hfinish {y : Nat} {builtin : BuiltinType} {flags : NameFlags} (hy : Passes inp x y) :
      Holds inp y (finishNamedType inp out quals builtin flags) (Found inp x) := by
    unfold finishNamedType
    exact (wander hy hy.1).mono fun _ _ hz => Passes.found hz
  refine .bind (parseBuiltinType_spec hx) fun builtin y hy => .ite (fun _ => ?_) fun hne => ?_
  · have : Fact (call.SoundFrom inp (y + 1)) := ⟨h.out.mono (Nat.succ_le_succ hy.1.1)⟩
    refine .bind (parseName_spec hy.1.2) fun r z hz => ?_
    refine .ite (fun hfound => ?_) fun _ => .pure ⟨hy.1.trans hz.1.1, by simp⟩
    exact hfinish ⟨lt_of_le_of_lt hy.1.1 (hz.1.2 hfound), hz.1.1.2⟩
  · exact hfinish ⟨hy.2 hne, hy.1.2⟩

theorem parseTypeKind_spec {indx : Nat} (hx : x < inp.size) :
    Holds inp x (parseTypeKind inp call out ret indx quals (inp.char x)) (Found inp x) := by
  have hdone {y : Nat} {f : M Bool} [Wanders inp (x + 1) f] (hy : Passes inp x y) :
      Holds inp y f (Found inp x) := (wander hy hy.1).mono fun _ _ hz => Passes.found hz
  refine .ite (fun _ => ?_) fun _ => .ite (fun _ => ?_) fun _ => .ite (fun _ => ?_) fun _ => ?_
  · exact .bind (parseArrayType_spec hx.le) fun _ y hy => hdone hy
  · exact .bind (parseFunctionType_spec hx.le) fun _ y hy => hdone hy
  · exact .bind (parsePointerToMemberType_spec hx.le) fun _ y hy => hdone hy
  refine .ite (fun _ => ?_) fun _ => .ite (fun _ => ?_) fun _ => .ite (fun hS => ?_) fun _ => ?_
  · exact holds_advance (hdone (passes_succ hx))
  · exact holds_advance (hdone (passes_succ hx))
  · exact .bind (parseSubstitutedType_spec hS) fun flags y hy => hdone hy
  refine .ite (fun _ => ?_) fun _ => .ite (fun _ => ?_) fun _ => ?_
  · exact .bind (parseTemplateParam_spec hx.le) fun _ y hy => hdone hy
  · exact .skip fun _ => .pure (not_found hx.le)
  · refine .bind (parseCvQualifiers_spec quals hx.le) fun r y hy => ?_
    refine .ite (fun hfound => hdone ⟨hy.2 hfound, hy.1.2⟩) fun _ => ?_
    have : Fact (call.SoundFrom inp (y + 1)) := ⟨h.out.mono (Nat.succ_le_succ hy.1.1)⟩
    exact (parseNamedType_spec hy.1.2).mono fun found z hz => hy.1.found hz

theorem parseType_spec {indx : Nat} (hx : x ≤ inp.size) :
    Holds inp x (parseType inp call out ret indx quals) (Found inp x) := by
  refine holds_isInside (fun hlt => ?_) fun _ => .pure (not_found hx)
  exact holds_withPosition (holds_withDelim (holds_peek hx (parseTypeKind_spec hlt)))

end Types

section Encodings

variable [h : Fact (call.SoundFrom inp (x + 1))]

omit h in
instance : Wanders inp lo (parseCallOffset inp out) := by
  refine ⟨fun y hy => holds_peek hy.2 (.ite (fun hc => ?_) fun _ => .ite (fun hc => ?_) fun _ =>
    ?_)⟩
  · have hlt := Input.lt_size_of_char hc (by decide)
    exact holds_advance (wander (passes_succ hlt) (Nat.le_succ y))
  · have hlt := Input.lt_size_of_char hc (by decide)
    exact holds_advance (wander (passes_succ hlt) (Nat.le_succ y))
  · exact wander hy le_rfl

theorem parseSpecialType_spec (d : Char) (hle : x + 2 ≤ inp.size) :
    Holds inp x (parseSpecialType inp call out d) fun _ y => Stays inp x y := by
  have hstart : Stays inp (x + 1) (x + 2) := ⟨Nat.le_succ _, hle⟩
  have hrest {α : Type} {f : M α} [Wanders inp (x + 1) f] :
      Holds inp (x + 2) f fun _ y => Stays inp x y := wander hstart (by omega)
  have htype (what : String) : Holds inp x (parseTypeOf call out what) fun _ y => Stays inp x y :=
    .skip fun _ => holds_advance hrest
  unfold parseSpecialType parseConstructionVtable parseVtableBase parseCovariantThunk
    parseThunkTarget
  split
  · exact .skip fun _ => holds_advance hrest
  · exact htype _
  · exact htype _
  · exact htype _
  · exact htype _
  · exact holds_advance hrest
  · exact holds_advance hrest
  · exact holds_advance hrest
  · exact .pure ⟨le_rfl, by omega⟩

theorem parseSpecialName_spec (hx : x ≤ inp.size) :
    Holds inp x (parseSpecialName inp call out) fun _ y => Stays inp x y := by
  have hnone : Holds inp x (pure false) fun _ y => Stays inp x y := .pure ⟨le_rfl, hx⟩
  refine holds_getPos (.ite (fun _ => .skip fun _ => hnone) fun _ => ?_)
  refine .ite (fun hlt => holds_peek hx (.ite (fun _ => ?_) fun _ => ?_)) fun _ => hnone
  · have hstart : Stays inp (x + 1) (x + 2) := ⟨Nat.le_succ _, hlt⟩
    refine holds_read hlt.le (.ite (fun _ => ?_) fun _ => hnone)
    exact .skip fun _ => holds_advance (wander hstart (by omega))
  · refine .ite (fun _ => holds_read hlt.le ?_) fun _ => hnone
    exact parseSpecialType_spec _ hlt

theorem parseDataOrFuncName_spec (hx : x ≤ inp.size) :
    Holds inp x (parseDataOrFuncName inp call out) fun _ y => Stays inp x y := by
  unfold parseDataOrFuncName parseFunction parseReturnType parseParams
  refine holds_isInside (fun _ => holds_temporarily ?_) fun _ => .still fun _ => ⟨le_rfl, hx⟩
  refine .skip fun temp => .bind (parseName_spec hx) fun r y hy => ?_
  refine .ite (fun hfound => ?_) fun _ => .still fun _ => hy.1.1
  have hlater : Stays inp (x + 1) y := ⟨hy.1.2 hfound, hy.1.1.2⟩
  exact wander hlater hy.1.1.1

omit h in
instance : Wanders inp lo (copyRemainder inp out) := by
  refine ⟨fun y hy => holds_isInside (fun _ => holds_peek hy.2 ?_) fun _ => wander hy le_rfl⟩
  refine .ite (fun _ => holds_getPos ?_) fun _ => wander hy le_rfl
  refine .bind (appendName_spec hy.2) fun _ z hz => ?_
  obtain rfl := hz
  exact (moveTo_spec hy.2).mono fun _ w hw => ⟨hw ▸ hy.2, hw.le⟩

theorem parseEncoding_spec (hx : x ≤ inp.size) :
    Holds inp x (parseEncoding inp call out) fun _ y => Stays inp x y := by
  refine holds_isInside (fun _ => ?_) fun _ => .still fun _ => ⟨le_rfl, hx⟩
  refine .bind (parseSpecialName_spec hx) fun special y hy => .ite (fun _ => .pure hy) fun _ => ?_
  have : Fact (call.SoundFrom inp (y + 1)) := ⟨h.out.mono (Nat.succ_le_succ hy.1)⟩
  exact .bind (parseDataOrFuncName_spec hy.2) fun _ z hz => wander (hy.trans hz) (hy.trans hz).1

end Encodings

theorem calls_sound (depth : Nat) : ∀ x ≤ inp.size,
    (2 * (inp.size - x) < depth → (calls inp depth).Sound inp x) ∧
      (2 * (inp.size - x) + 1 < depth → (calls inp depth).SoundLoops inp x) := by
  induction depth with
  | zero => exact fun x _ => ⟨fun h => absurd h (Nat.not_lt_zero _), fun h => by omega⟩
  | succ depth ih =>
    intro x hx
    have hfrom (h : 2 * (inp.size - x) < depth + 1) :
        Fact ((calls inp depth).SoundFrom inp (x + 1)) :=
      ⟨fun y hy => ⟨(ih y hy.2).1 (by omega), (ih y hy.2).2 (by omega)⟩⟩
    refine ⟨fun h => ?_, fun h => ?_⟩
    · have hlater := hfrom h
      exact {
        type := fun _ _ _ _ => parseType_spec hx
        encoding := fun _ => parseEncoding_spec hx
        name := fun _ _ => (parseName_spec hx).mono fun _ _ hy => hy.1
        expression := fun _ _ => parseExpressionAt_spec hx
        sourceName := fun _ => (parseSourceName_spec hx).mono fun _ _ hy => hy.1 }
    · have hlater := hfrom (by omega)
      have hat := (ih x hx).1 (by omega)
      exact {
        prefixLoop := fun _ _ => parsePrefixLoop_spec hx
        templateArgLoop := fun _ _ => parseTemplateArgLoop_spec hat hx
        paramLoop := fun _ _ => emitParamLoop_spec hat }

theorem isGlobal_spec : Holds inp x (isGlobal inp) fun found y =>
    y = x ∧ (found = true → 11 ≤ inp.size) := by
  have hnone : Holds inp x (pure false) fun found y => y = x ∧ (found = true → 11 ≤ inp.size) :=
    .pure ⟨rfl, by simp⟩
  refine holds_read (min_le_left _ _) (.ite (fun hglobal => ?_) fun _ => hnone)
  have hlen : 8 ≤ inp.size := by
    have htake : min 8 inp.name.length = 8 := by
      rw [← List.length_take, hglobal]
      rfl
    exact htake ▸ Nat.min_le_right 8 inp.name.length
  refine holds_read hlen (.ite (fun hc => ?_) fun _ => hnone)
  have h9 : 8 < inp.size := by
    rcases hc with hc | hc | hc <;> exact Input.lt_size_of_char hc (by decide)
  refine holds_read h9 (.ite (fun hc => ?_) fun _ => hnone)
  have h10 : 9 < inp.size := by
    rcases hc with hc | hc <;> exact Input.lt_size_of_char hc (by decide)
  refine holds_read h10 (.pure ⟨rfl, fun hc => ?_⟩)
  exact Input.lt_size_of_char (of_decide_eq_true hc) (by decide)

theorem parseGlobalCtorDtor_spec [h : Fact (call.SoundFrom inp 1)] (hle : 11 ≤ inp.size) :
    Holds inp 0 (parseGlobalCtorDtor inp call) fun _ _ => True := by
  have hcopy : Holds inp 11 (do
      appendName inp 0 (inp.size - 11)
      result) fun _ _ => True :=
    .bind (appendName_spec hle) fun _ _ _ => .still fun _ => trivial
  refine holds_read (by omega) (.skip fun _ => holds_moveTo (by omega) ?_)
  refine holds_peek hle (.ite (fun hc => ?_) fun _ => hcopy)
  have hlt := Input.lt_size_of_char hc (by decide)
  refine holds_read hlt (.ite (fun hd => holds_advance ?_) fun _ => hcopy)
  have hlt' := Input.lt_size_of_char hd (by decide)
  have : Fact (call.SoundFrom inp (11 + 2 + 1)) := ⟨h.out.mono (by omega)⟩
  exact .bind (parseEncoding_spec hlt') fun _ _ _ => .still fun _ => trivial

theorem parse_spec [h : Fact (call.SoundFrom inp 1)] :
    Holds inp 0 (parse inp call) fun _ _ => True := by
  have hother : Holds inp 0 (parseOther inp call) fun _ _ => True := by
    refine .bind isGlobal_spec fun found y hy => ?_
    obtain ⟨rfl, hle⟩ := hy
    refine .ite (fun hfound => parseGlobalCtorDtor_spec (hle hfound)) fun _ => ?_
    exact .skip fun _ => .pure trivial
  refine holds_read (Nat.zero_le _) (.ite (fun hc => ?_) fun _ => hother)
  have hlt := Input.lt_size_of_char hc (by decide)
  refine holds_read hlt (.ite (fun hd => holds_moveTo (Nat.zero_le 2) ?_) fun _ => hother)
  have hlt' := Input.lt_size_of_char hd (by decide)
  have : Fact (call.SoundFrom inp (2 + 1)) := ⟨h.out.mono (by omega)⟩
  exact .bind (parseEncoding_spec hlt') fun _ _ _ => .still fun _ => trivial

theorem parse_safe (inp : Input) (depth : Nat) (hdepth : 2 * inp.size < depth)
    (hguard : ∀ w ∈ (run inp depth).1, w.Guarded inp) :
    (∀ w ∈ (run inp depth).1, w.Safe inp) ∧
      ((∃ text s, (run inp depth).2 = .ok (text, s)) ∨
        ∃ what, (run inp depth).2 = .error (.exception what)) := by
  have : Fact ((calls inp depth).SoundFrom inp 1) := ⟨fun y hy =>
    ⟨(calls_sound depth y hy.2).1 (by omega), (calls_sound depth y hy.2).2 (by omega)⟩⟩
  obtain ⟨hsafe, hend⟩ := parse_spec State.new rfl hguard
  refine ⟨hsafe, ?_⟩
  rcases hrun : (run inp depth).2 with e | ⟨text, s⟩
  · have hthrown : e.Thrown := by
      rw [run] at hrun
      rwa [hrun] at hend
    cases e with
    | exception what => exact .inr ⟨what, rfl⟩
    | _ => exact hthrown.elim
  · exact .inl ⟨text, s, rfl⟩

def functionName : Input := .ofName "_Z1fv".toList (by decide)

theorem parse_safe_functionName :
    (∀ w ∈ (run functionName 11).1, w.Guarded functionName) ∧
      (∀ w ∈ (run functionName 11).1, w.Safe functionName) ∧
        ((∃ text s, (run functionName 11).2 = .ok (text, s)) ∨
          ∃ what, (run functionName 11).2 = .error (.exception what)) := by
  have hguard : ∀ w ∈ (run functionName 11).1, w.Guarded functionName := by decide +kernel
  exact ⟨hguard, parse_safe functionName 11 (by decide) hguard⟩

example : (run (.ofName "_ZN3foo3barEiPKc".toList (by decide)) 33).2.toOption.map Prod.fst =
    some (some "foo::bar(int, char const*)".toList) := by decide +kernel

def truncatedName : Input := .ofName "_ZS".toList (by decide)

def wrappingName : Input := .ofName "_Z18446744073709551596_GLOBAL__N".toList (by decide)

theorem cursor_leaves_name :
    (.read 4 ∈ (run truncatedName 7).1 ∧ ¬(Step.read 4).Safe truncatedName) ∧
      .move 22 2 ∈ (run wrappingName 65).1 ∧ ¬(Step.move 22 2).Safe wrappingName := by
  decide +kernel

end ZeroBugs.Unmangle
