import ZeroBugs.Unmangle.MildSteps

/-! # Growth of the dictionary -/
namespace ZeroBugs.Unmangle

open Lib

-- the instance for a production is as large as its body
set_option synthInstance.maxSize 100000

variable {inp : Input} {α β : Type}

def Grows (f : M α) : Prop := ∀ s a s', (f s).2 = .ok (a, s') → s.subst <+: s'.subst

namespace Grows

theorem pure (a : α) : Grows (Pure.pure a) := by
  intro s b s' h
  obtain ⟨-, rfl⟩ := Prod.mk.inj (Except.ok.inj h)
  exact List.prefix_refl _

theorem modify {u : State → State} (hu : ∀ s, s.subst <+: (u s).subst) :
    Grows (Traced.modify u) := by
  intro s b s' h
  obtain ⟨-, rfl⟩ := Prod.mk.inj (Except.ok.inj h)
  exact hu s

theorem get : Grows Traced.get := by
  intro s b s' h
  obtain ⟨-, rfl⟩ := Prod.mk.inj (Except.ok.inj h)
  exact List.prefix_refl _

theorem emit (w : Step) : Grows (Traced.emit w) := by
  intro s b s' h
  obtain ⟨-, rfl⟩ := Prod.mk.inj (Except.ok.inj h)
  exact List.prefix_refl _

theorem bind {f : M α} {g : α → M β} (hf : Grows f) (hg : ∀ a, Grows (g a)) :
    Grows (f >>= g) := by
  intro s b s' h
  rw [Traced.snd_bind] at h
  rcases hrun : (f s).2 with e | ⟨a, mid⟩
  · rw [hrun] at h
    exact nomatch h
  · rw [hrun] at h
    exact (hf s a mid hrun).trans (hg a mid b s' h)

theorem ite {c : Prop} [Decidable c] {f g : M α} (hf : Grows f) (hg : Grows g) :
    Grows (if c then f else g) := by
  split
  · exact hf
  · exact hg

end Grows

class Growing (f : M α) : Prop where
  grows : Grows f

theorem grows_of (f : M α) [hf : Growing f] : Grows f := hf.grows

section Instances

variable {f : M α} {g : α → M β}

instance (a : α) : Growing (pure a) := ⟨.pure a⟩

instance : Growing Traced.get := ⟨.get⟩

instance (w : Step) : Growing (Traced.emit w) := ⟨.emit w⟩

instance (e : Stop) : Growing (Traced.fail e : M α) := ⟨fun _ _ _ h => nomatch h⟩

instance (priority := low) [hf : Mild f] : Growing f := by
  refine ⟨fun s a s' hrun => ?_⟩
  have hkept := (hf.plain s).2
  rw [hrun] at hkept
  exact hkept.2

instance [hf : Growing f] [hg : ∀ a, Growing (g a)] : Growing (f >>= g) :=
  ⟨hf.grows.bind fun a => (hg a).grows⟩

instance {c : Prop} [Decidable c] {f' : M α} [hf : Growing f] [hf' : Growing f'] :
    Growing (if c then f else f') :=
  ⟨hf.grows.ite hf'.grows⟩

end Instances

section Parts

variable {r : OutRef} {body : M α}

instance (c : Bool) (act : M Unit) [Growing act] : Growing (onlyIf c act) := by
  unfold onlyIf
  infer_instance

instance (i : Nat) : Growing (read inp i) := by
  unfold read
  infer_instance

instance : Growing (peek inp) := by
  unfold peek
  infer_instance

instance (c : Char) : Growing (isAt inp c) := by
  unfold isAt
  infer_instance

instance (dst : Nat) : Growing (moveTo dst) :=
  ⟨.bind Growing.grows fun _ => .bind (.emit _) fun _ => .modify fun _ => List.prefix_refl _⟩

instance (n : Nat) : Growing (advance n) := by
  unfold advance
  infer_instance

instance : Growing (closing) := by
  unfold closing
  infer_instance

instance (c : Char) : Growing (assertChar inp c) := by
  unfold assertChar
  infer_instance

instance (len : Nat) : Growing (appendName inp r len) := by
  unfold appendName
  infer_instance

instance (d : Option Text → Option Text) [Growing body] : Growing (withDelim r d body) := by
  unfold withDelim
  infer_instance

instance (set : State → State) (restore : State → State → State) [Traced.Relates Kept set]
    [∀ old, Traced.Relates Kept (restore old)] [Growing body] :
    Growing (temporarily set restore body) := by
  unfold temporarily
  infer_instance

instance [Growing body] : Growing (withPosition r body) := by
  unfold withPosition
  infer_instance

end Parts

@[class]
structure Calls.Grow (call : Calls) : Prop where
  type : ∀ out ret indx quals, Grows (call.type out ret indx quals)
  encoding : ∀ out, Grows (call.encoding out)
  name : ∀ out flags, Grows (call.name out flags)
  expression : ∀ out top, Grows (call.expression out top)
  sourceName : ∀ out, Grows (call.sourceName out)
  prefixLoop : ∀ out l, Grows (call.prefixLoop out l)
  templateArgLoop : ∀ out p, Grows (call.templateArgLoop out p)
  paramLoop : ∀ out i, Grows (call.paramLoop out i)

section Productions

variable {call : Calls} [h : call.Grow] {out : OutRef} {flags : NameFlags}

instance (ret : Bool) (indx : Nat) (quals : Text) : Growing (call.type out ret indx quals) :=
  ⟨h.type _ _ _ _⟩

instance : Growing (call.encoding out) := ⟨h.encoding _⟩

instance : Growing (call.name out flags) := ⟨h.name _ _⟩

instance (top : Bool) : Growing (call.expression out top) := ⟨h.expression _ _⟩

instance : Growing (call.sourceName out) := ⟨h.sourceName _⟩

instance (l : Loop) : Growing (call.prefixLoop out l) := ⟨h.prefixLoop _ _⟩

instance (p : Nat) : Growing (call.templateArgLoop out p) := ⟨h.templateArgLoop _ _⟩

instance (i : Nat) : Growing (call.paramLoop out i) := ⟨h.paramLoop _ _⟩

omit h

instance (n : Nat) (text : Text) : Growing (digitLoop inp n text) := by
  induction text generalizing n <;> unfold digitLoop <;> infer_instance

instance (out : Option OutRef) : Growing (parseUnsigned inp out) := by
  unfold parseUnsigned
  cases out <;> infer_instance

instance : Growing (parseSigned inp out) := by
  unfold parseSigned
  infer_instance

instance : Growing (parseSignedUscore inp out) := by
  unfold parseSignedUscore
  infer_instance

instance : Growing (parseDouble inp out) := by
  unfold parseDouble
  infer_instance

instance : Growing (parseVirtualOffset inp out) := by
  unfold parseVirtualOffset
  infer_instance

instance : Growing (parseNonVirtualOffset inp out) := by
  unfold parseNonVirtualOffset
  infer_instance

instance (text : Text) : Growing (qualifierLoop inp text) := by
  induction text <;> unfold qualifierLoop <;> infer_instance

instance (quals : Text) : Growing (parseCvQualifiers inp quals) := by
  unfold parseCvQualifiers
  infer_instance

instance (len : Nat) : Growing (isAnonymousName inp len) := by
  unfold isAnonymousName
  infer_instance

instance (start len : Nat) : Growing (repeatName out start len) := by
  unfold repeatName
  infer_instance

instance (tilde : Text) : Growing (emitClassName out tilde) := by
  refine ⟨.bind Growing.grows fun s => ?_⟩
  cases s.sourceNamePos <;> exact Growing.grows

instance : Growing (parseCtorDtorName inp out) := by
  unfold parseCtorDtorName
  infer_instance

instance : Growing (addSubstitution inp out flags) := by
  unfold addSubstitution
  infer_instance

instance (i : Nat) (text : Text) : Growing (seqIdLoop inp i text) := by
  induction text generalizing i <;> unfold seqIdLoop <;> infer_instance

instance (c : Char) : Growing (parseSeqId inp c) := by
  unfold parseSeqId
  infer_instance

instance : Growing (parseSubstitution inp out flags) := by
  refine ⟨.bind Growing.grows fun _ => .bind Growing.grows fun _ => .bind Growing.grows fun _ =>
    .bind Growing.grows fun c => ?_⟩
  cases stdAbbreviation c <;> exact Growing.grows

instance : Growing (parseTemplateParam inp out) := by
  unfold parseTemplateParam parseParamNumber
  infer_instance

instance : Growing (expectEnd inp) := by
  unfold expectEnd
  infer_instance

include h

instance : Growing (parseSourceName inp call out) := by
  unfold parseSourceName parseAnonymousName
  infer_instance

instance (kind : OperatorKind) : Growing (afterOperator call out kind) := by
  cases kind <;> unfold afterOperator <;> infer_instance

instance : Growing (parseOperatorName inp call out) := by
  refine ⟨.bind Growing.grows fun _ => .bind Growing.grows fun n => .bind Growing.grows fun _ =>
    .ite (.bind Growing.grows fun m => ?_) Growing.grows⟩
  cases operatorOf n m <;> exact Growing.grows

instance (c : Char) : Growing (parseSourceOrOperator inp call out flags c) := by
  unfold parseSourceOrOperator
  infer_instance

instance : Growing (parseUnqualifiedName inp call out flags) := by
  unfold parseUnqualifiedName
  infer_instance

instance : Growing (parseUnscopedName inp call out flags) := by
  unfold parseUnscopedName
  infer_instance

instance : Growing (parseTemplateArgs inp call out flags) := by
  unfold parseTemplateArgs parseTemplateArgList
  infer_instance

omit h in
instance : Growing (closeOrFail inp) := by
  unfold closeOrFail
  infer_instance

instance : Growing (parseExprPrimary inp call out) := by
  unfold parseExprPrimary parsePrimary parseLiteral
  infer_instance

instance (top : Bool) (c : Char) : Growing (parseTypeExpression inp call out top c) := by
  unfold parseTypeExpression parseDependentName
  infer_instance

instance (temp : OutRef) (arity left : Nat) : Growing (operandLoop call out temp arity left) := by
  induction left <;> unfold operandLoop <;> infer_instance

instance (top : Bool) : Growing (parseOperation inp call out top) := by
  refine ⟨.bind Growing.grows fun _ => .bind Growing.grows fun op => ?_⟩
  unfold parseOperands
  cases op <;> exact Growing.grows

instance (top : Bool) : Growing (parseExpressionAt inp call out top) := by
  unfold parseExpressionAt
  infer_instance

instance : Growing (parseExpression inp call out) := by
  unfold parseExpression
  infer_instance

instance (p : Nat) : Growing (parseTemplateArgLoop inp call out p) := by
  unfold parseTemplateArgLoop parseTemplateArg parseTemplateArgKind noteTemplateArg
  infer_instance

instance (l : Loop) : Growing (parsePrefixArgs inp call out l) := by
  unfold parsePrefixArgs
  infer_instance

instance (l : Loop) : Growing (parsePrefixName inp call out l) := by
  unfold parsePrefixName
  infer_instance

instance (l : Loop) : Growing (parsePrefixLoop inp call out l) := by
  refine ⟨.bind Growing.grows fun _ => .ite (.bind Growing.grows fun _ => .ite Growing.grows
    (.ite Growing.grows (.ite Growing.grows (.bind Growing.grows fun r => ?_)))) Growing.grows⟩
  cases r.1 <;> exact Growing.grows

omit h in
instance : Growing (parseNestedQualifiers inp) := by
  refine ⟨.bind Growing.grows fun s => ?_⟩
  cases s.cvQualifiers <;> exact Growing.grows

instance : Growing (parseNestedName inp call out flags) := by
  unfold parseNestedName parsePrefix checkPrefixStart
  infer_instance

instance : Growing (parseLocalName inp call out) := by
  unfold parseLocalName parseEntity parseDiscriminator
  infer_instance

instance : Growing (parseNameArgs inp call out flags) := by
  unfold parseNameArgs
  infer_instance

instance : Growing (parseName inp call out flags) := by
  unfold parseName parseNameKind parseSubstitutedName parseTemplateName
  infer_instance

instance : Growing (emitFunctionParams inp call out) := by
  unfold emitFunctionParams
  infer_instance

instance (quals : Text) (klass : Option OutRef) :
    Growing (parseSignature inp call out quals klass) := by
  unfold parseSignature
  infer_instance

instance (quals : Text) (klass : Option OutRef) :
    Growing (parseFunctionType inp call out quals klass) := by
  unfold parseFunctionType parseBareFunctionType
  infer_instance

instance (quals : Text) : Growing (parsePointerToMemberType inp call out quals) := by
  unfold parsePointerToMemberType parseMember
  infer_instance

instance (quals : Text) : Growing (parseArrayType inp call out quals) := by
  unfold parseArrayType parseElements parseDimension
  infer_instance

instance (ret : Bool) : Growing (parseBuiltinType inp call out ret) := by
  unfold parseBuiltinType parseVendorType
  refine ⟨.bind Growing.grows fun _ => .ite (.bind Growing.grows fun c => .bind Growing.grows
    fun _ => .ite Growing.grows (.ite Growing.grows ?_)) Growing.grows⟩
  cases builtinTable c <;> exact Growing.grows

instance (quals : Text) : Growing (checkForTemplateArgs inp call out quals flags) := by
  unfold checkForTemplateArgs
  infer_instance

omit h in
instance (quals : Text) (builtin : BuiltinType) :
    Growing (finishNamedType inp out quals builtin flags) := by
  unfold finishNamedType
  infer_instance

instance (ret : Bool) (indx : Nat) (quals : Text) :
    Growing (parseType inp call out ret indx quals) := by
  unfold parseType parseTypeKind parseSubstitutedType parseNamedType
  infer_instance

instance : Growing (parseConstructionVtable inp call out) := by
  unfold parseConstructionVtable parseVtableBase
  infer_instance

instance (what : String) : Growing (parseTypeOf call out what) := by
  unfold parseTypeOf
  infer_instance

instance : Growing (parseCovariantThunk inp call out) := by
  unfold parseCovariantThunk parseCallOffset parseThunkTarget
  infer_instance

instance (d : Char) : Growing (parseSpecialType inp call out d) := by
  unfold parseSpecialType parseThunkTarget
  split <;> infer_instance

instance : Growing (parseDataOrFuncName inp call out) := by
  unfold parseDataOrFuncName parseFunction parseReturnType parseParams emitQualifiers
  infer_instance

omit h in
instance : Growing (copyRemainder inp out) := by
  unfold copyRemainder
  infer_instance

instance : Growing (parseEncoding inp call out) := by
  unfold parseEncoding parseSpecialName parseGuardVariable
  infer_instance

end Productions

instance calls_grow (depth : Nat) : (calls inp depth).Grow := by
  induction depth with
  | zero => constructor <;> intros <;> exact fun _ _ _ h => nomatch h
  | succ depth ih =>
    exact {
      type := fun _ _ _ _ => grows_of (parseType inp (calls inp depth) _ _ _ _)
      encoding := fun _ => grows_of (parseEncoding inp (calls inp depth) _)
      name := fun _ _ => grows_of (parseName inp (calls inp depth) _ _)
      expression := fun _ _ => grows_of (parseExpressionAt inp (calls inp depth) _ _)
      sourceName := fun _ => grows_of (parseSourceName inp (calls inp depth) _)
      prefixLoop := fun _ _ => grows_of (parsePrefixLoop inp (calls inp depth) _ _)
      templateArgLoop := fun _ _ => grows_of (parseTemplateArgLoop inp (calls inp depth) _ _)
      paramLoop := fun _ _ => .bind (ih.type _ _ _ _) fun _ => .ite (ih.paramLoop _ _) (.pure _) }

end ZeroBugs.Unmangle
