import ZeroBugs.Unmangle.Grammar

/-! # Steps that leave the cursor alone -/
namespace ZeroBugs.Unmangle

open Lib

-- the instance for a program is as large as its body
set_option synthInstance.maxSize 100000

variable {inp : Input} {r : OutRef}

def Stop.Thrown : Stop → Prop
  | .exception _ => True
  | _ => False

instance {what : String} : Fact (Stop.exception what).Thrown := ⟨trivial⟩

/-- The cursor is where it was, and the dictionary begins with what it was. -/
def Kept (s s' : State) : Prop := s'.pos = s.pos ∧ s.subst <+: s'.subst

instance : Std.Refl Kept := ⟨fun _ => ⟨rfl, List.prefix_refl _⟩⟩

instance : Trans Kept Kept Kept := ⟨fun h h' => ⟨h'.1.trans h.1, h.2.trans h'.2⟩⟩

abbrev Mild {α : Type} (f : M α) : Prop := Traced.Plain Stop.Thrown Kept f

instance {size depth proto : State → Nat} {start : State → Option Nat}
    {quals : State → Option Text} {args : State → List Text} {inPrefix anonymous : State → Bool}
    {status : State → Status} {outs : State → List Output} :
    Traced.Relates Kept fun s => ⟨s.pos, start s, size s, quals s, s.subst, args s, depth s,
      proto s, inPrefix s, anonymous s, status s, outs s⟩ :=
  ⟨fun _ => ⟨rfl, List.prefix_refl _⟩⟩

instance (v : Text) : Traced.Relates Kept fun s => { s with subst := s.subst ++ [v] } :=
  ⟨fun _ => ⟨rfl, List.prefix_append _ _⟩⟩

instance {c : State → Prop} [∀ s, Decidable (c s)] {u : State → State}
    [hu : Traced.Relates Kept u] : Traced.Relates Kept fun s => if c s then u s else s := by
  refine ⟨fun s => ?_⟩
  split
  · exact hu.relates s
  · exact Std.Refl.refl s

section Parts

instance (c : Bool) (what : String) : Mild (nutsAssert c what) := by
  unfold nutsAssert
  infer_instance

instance : Mild invalidName := by
  unfold invalidName
  infer_instance

instance (c : Bool) (act : M Unit) [Mild act] : Mild (onlyIf c act) := by
  unfold onlyIf
  infer_instance

instance : Mild isSuccess := by
  unfold isSuccess
  infer_instance

instance : Mild getPos := by
  unfold getPos
  infer_instance

instance : Mild (isInside inp) := by
  unfold isInside
  infer_instance

instance : Mild (assertInside inp) := by
  unfold assertInside
  infer_instance

instance : Mild (output r) := by
  unfold output
  infer_instance

instance (u : Output → Output) : Mild (updateOutput r u) := by
  unfold updateOutput
  infer_instance

instance (s : Text) : Mild (append r s) := by
  unfold append
  infer_instance

instance (s : Text) : Mild (appendString r s) := by
  unfold appendString
  infer_instance

instance (src : OutRef) : Mild (appendOutput r src) := by
  unfold appendOutput
  infer_instance

instance (src : Option OutRef) : Mild (appendOptional r src) := by
  cases src <;> unfold appendOptional <;> infer_instance

instance (d : Option Text) : Mild (setDelim r d) := by
  unfold setDelim
  infer_instance

instance : Mild tempOutput := by
  unfold tempOutput
  infer_instance

instance (hidden : Bool) : Mild (paramsOutput hidden r) := by
  unfold paramsOutput
  infer_instance

instance : Mild (position r) := by
  unfold position
  infer_instance

instance (pos size : Nat) : Mild (substr r pos size) := by
  refine .bind fun o => ?_
  cases o.substr pos size <;> infer_instance

instance (v : Text) (override : Bool) : Mild (insertSubst inp v override) := by
  unfold insertSubst
  infer_instance

instance (v : Text) : Mild (insertTemplateArg inp v) := by
  unfold insertTemplateArg
  infer_instance

instance (elems : List Text) (i : Nat) : Mild (outputElem r elems i) := by
  unfold outputElem
  cases elems[i]? <;> infer_instance

end Parts

instance (start : Nat) : Mild (setSourceName start) := by
  unfold setSourceName
  infer_instance

instance : Mild (setSourceNameSize r) := by
  refine .bind fun o => .modify fun s => ?_
  cases s.sourceNamePos with
  | none => exact Std.Refl.refl s
  | some start =>
    show Kept s (if _ then _ else _)
    split <;> exact ⟨rfl, List.prefix_refl _⟩

instance : Mild (noteAnonymous inp r) := by
  unfold noteAnonymous
  infer_instance

instance (len : Nat) : Mild (addAnonymous inp r len) := by
  unfold addAnonymous
  infer_instance

instance (abbr : String) : Mild (emitAbbreviation r abbr) := by
  unfold emitAbbreviation
  infer_instance

instance (i : Nat) : Mild (emitSubstitution r i) := by
  unfold emitSubstitution
  infer_instance

instance (i : Nat) : Mild (emitTemplateParam inp r i) := by
  unfold emitTemplateParam
  infer_instance

instance (p : Nat) (found : Bool) : Mild (noteTemplateArg inp r p found) := by
  unfold noteTemplateArg
  infer_instance

instance (argPos : Nat) : Mild (dropTemplateArgs argPos) := by
  unfold dropTemplateArgs
  infer_instance

instance (start : Nat) (skip : Bool) (i : Nat) (text : Text) :
    Mild (qualifierSubsts inp r start skip i text) := by
  induction text generalizing skip i <;> unfold qualifierSubsts <;> infer_instance

instance (quals : Text) (start : Option Nat) : Mild (applyQualifiers inp r quals start) := by
  unfold applyQualifiers withDelim
  cases start <;> infer_instance

instance : Mild (emitQualifiers inp r) := by
  unfold emitQualifiers
  infer_instance

instance : Mild result := by
  unfold result
  infer_instance

end ZeroBugs.Unmangle
