import ZeroBugs.Unmangle.CursorLogic

/-! # Cursor of the decoder -/
namespace ZeroBugs.Unmangle

open Lib

variable {inp : Input} {x lo : Nat}

variable {y z : Nat}

theorem Stays.trans (hxy : Stays inp x y) (hyz : Stays inp y z) : Stays inp x z :=
  ⟨le_trans hxy.1 hyz.1, hyz.2⟩

theorem Passes.stays (hy : Passes inp x y) : Stays inp x y := ⟨hy.1.le, hy.2⟩

theorem Passes.trans (hxy : Passes inp x y) (hyz : Stays inp y z) : Passes inp x z :=
  ⟨lt_of_lt_of_le hxy.1 hyz.1, hyz.2⟩

theorem passes_succ (hx : x < inp.size) : Passes inp x (x + 1) := ⟨Nat.lt_succ_self x, hx⟩

theorem Holds.stays {α : Type} {f : M α} (h : Holds inp y f fun _ z => Stays inp y z)
    (hxy : x ≤ y) : Holds inp y f fun _ z => Stays inp x z :=
  h.mono fun _ _ hz => ⟨hxy.trans hz.1, hz.2⟩

abbrev Found (inp : Input) (x : Nat) (found : Bool) (y : Nat) : Prop :=
  Stays inp x y ∧ (found = true → x < y)

theorem Passes.found {found : Bool} (hy : Passes inp x y) : Found inp x found y :=
  ⟨hy.stays, fun _ => hy.1⟩

theorem not_found (hx : x ≤ inp.size) : Found inp x false x :=
  ⟨⟨le_rfl, hx⟩, fun h => Bool.noConfusion h⟩

theorem Stays.found {found : Bool} (hxy : Stays inp x y) (hz : Found inp y found z) :
    Found inp x found z :=
  ⟨hxy.trans hz.1, fun h => lt_of_le_of_lt hxy.1 (hz.2 h)⟩

structure Calls.Sound (inp : Input) (call : Calls) (x : Nat) : Prop where
  type : ∀ out ret indx quals, Holds inp x (call.type out ret indx quals) (Found inp x)
  encoding : ∀ out, Holds inp x (call.encoding out) fun _ y => Stays inp x y
  name : ∀ out flags, Holds inp x (call.name out flags) fun r y => Found inp x r.1 y
  expression : ∀ out top, Holds inp x (call.expression out top) fun _ y => Stays inp x y
  sourceName : ∀ out, Holds inp x (call.sourceName out) fun _ y => Stays inp x y

structure Calls.SoundLoops (inp : Input) (call : Calls) (x : Nat) : Prop where
  prefixLoop : ∀ out l, Holds inp x (call.prefixLoop out l) fun _ y => Stays inp x y
  templateArgLoop : ∀ out p, Holds inp x (call.templateArgLoop out p) fun _ y => Stays inp x y
  paramLoop : ∀ out i, Holds inp x (call.paramLoop out i) fun _ y => Stays inp x y

def Calls.SoundFrom (inp : Input) (call : Calls) (x : Nat) : Prop :=
  ∀ y, Stays inp x y → call.Sound inp y ∧ call.SoundLoops inp y

theorem Calls.SoundFrom.mono {call : Calls} (h : call.SoundFrom inp x) (hxy : x ≤ y) :
    call.SoundFrom inp y := fun z hz => h z ⟨hxy.trans hz.1, hz.2⟩

section Calls

variable {call : Calls} [h : Fact (call.SoundFrom inp lo)] {out : OutRef}
  {flags : NameFlags}

instance (ret : Bool) (indx : Nat) (quals : Text) :
    Wanders inp lo (call.type out ret indx quals) :=
  ⟨fun y hy => ((h.out y hy).1.type out ret indx quals).mono fun _ _ hz => hz.1⟩

instance : Wanders inp lo (call.encoding out) := ⟨fun y hy => (h.out y hy).1.encoding out⟩

instance : Wanders inp lo (call.name out flags) :=
  ⟨fun y hy => ((h.out y hy).1.name out flags).mono fun _ _ hz => hz.1⟩

instance (top : Bool) : Wanders inp lo (call.expression out top) :=
  ⟨fun y hy => (h.out y hy).1.expression out top⟩

instance : Wanders inp lo (call.sourceName out) := ⟨fun y hy => (h.out y hy).1.sourceName out⟩

instance (l : Loop) : Wanders inp lo (call.prefixLoop out l) :=
  ⟨fun y hy => (h.out y hy).2.prefixLoop out l⟩

instance (p : Nat) : Wanders inp lo (call.templateArgLoop out p) :=
  ⟨fun y hy => (h.out y hy).2.templateArgLoop out p⟩

instance (i : Nat) : Wanders inp lo (call.paramLoop out i) :=
  ⟨fun y hy => (h.out y hy).2.paramLoop out i⟩

end Calls

theorem Wanders.of_spec (call : Calls) [h : Fact (call.SoundFrom inp lo)] {α : Type} {f : M α}
    (hf : ∀ y, Fact (call.SoundFrom inp (y + 1)) → y ≤ inp.size →
      Holds inp y f fun _ z => Stays inp y z) : Wanders inp lo f :=
  ⟨fun y hy => hf y ⟨h.out.mono (hy.1.trans (Nat.le_succ y))⟩ hy.2⟩

theorem digitLoop_spec (text : Text) : ∀ {x : Nat} (n : Nat), inp.name.drop x = text →
    x ≤ inp.size → Holds inp x (digitLoop inp n text) fun _ y => Stays inp x y := by
  induction text with
  | nil => exact fun n _ hx => holds_peek hx (.pure ⟨le_rfl, hx⟩)
  | cons c rest ih =>
    intro x n htext hx
    obtain ⟨-, hlt, hrest⟩ := Input.drop_eq_cons htext
    refine holds_peek hx (.ite (fun _ => holds_advance ?_) fun _ => .pure ⟨le_rfl, hx⟩)
    exact (ih _ hrest hlt).stays (Nat.le_succ x)

theorem parseUnsigned_spec (out : Option OutRef) (hx : x ≤ inp.size) :
    Holds inp x (parseUnsigned inp out) fun _ y => Found inp x (inp.char x).isDigit y := by
  refine holds_peek hx (.ite (fun hdigit => ?_) fun hdigit => ?_)
  · have hloop : Holds inp x (digitLoop inp 0 (inp.name.drop x)) fun _ y => Passes inp x y := by
      have hlt : x < inp.size := Input.lt_size_of_char rfl fun h => by simp [h] at hdigit
      rcases htext : inp.name.drop x with _ | ⟨c, rest⟩
      · rw [List.drop_eq_nil_iff] at htext
        exact absurd hlt (Nat.not_lt.mpr htext)
      · obtain ⟨hc, -, hrest⟩ := Input.drop_eq_cons htext
        rw [hc] at hdigit
        refine holds_peek hx (.ite (fun _ => holds_advance ?_) fun h => absurd hdigit h)
        exact digitLoop_spec rest _ hrest hlt
    refine holds_getPos (.bind hloop fun n y hy => holds_getPos (holds_nutsAssert fun _ => ?_))
    cases out with
    | none => exact .pure hy.found
    | some r => exact .skip fun _ => .pure hy.found
  · exact .skip fun _ => .pure ⟨⟨le_rfl, hx⟩, fun h => absurd h hdigit⟩

instance (out : Option OutRef) : Wanders inp lo (parseUnsigned inp out) :=
  ⟨fun _ hy => (parseUnsigned_spec out hy.2).mono fun _ _ hz => hz.1⟩

variable {out : OutRef}

instance : Wanders inp lo (parseSigned inp out) := by
  refine ⟨fun y hy => holds_peek hy.2 (.ite (fun hc => ?_) fun _ => wander hy le_rfl)⟩
  have hlt := Input.lt_size_of_char hc (by decide)
  exact .skip fun _ => holds_advance (wander (passes_succ hlt) (Nat.le_succ y))

instance : Wanders inp lo (closeOrFail inp) := by
  refine ⟨fun y hy => holds_peek hy.2 (.ite (fun hc => ?_) fun _ => wander hy le_rfl)⟩
  have hlt := Input.lt_size_of_char hc (by decide)
  exact (advance_spec 1).mono fun _ z hz => hz ▸ (passes_succ hlt).stays

instance : Wanders inp lo (parseSignedUscore inp out) := by
  refine ⟨fun y hy => .bind (wander hy le_rfl) fun _ z hz => holds_peek hz.2 ?_⟩
  refine .ite (fun hc => ?_) fun _ => .still fun _ => hz
  have hlt := Input.lt_size_of_char hc (by decide)
  exact (advance_spec 1).mono fun _ w hw => hz.trans (hw ▸ (passes_succ hlt).stays)

instance : Wanders inp lo (parseDouble inp out) := by
  refine ⟨fun y hy => ?_⟩
  have hle := inp.strtold_le (inp.name.drop y)
  have hlen : (inp.name.drop y).length = inp.size - y := List.length_drop
  have hend := hy.2
  refine holds_getPos (holds_read (by omega) (holds_moveTo (Nat.le_add_right _ _) ?_))
  exact .skip fun _ => .skip fun _ => .still fun _ => ⟨by omega, by omega⟩

instance : Wanders inp lo (parseVirtualOffset inp out) := by
  unfold parseVirtualOffset
  infer_instance

instance : Wanders inp lo (parseNonVirtualOffset inp out) := by
  unfold parseNonVirtualOffset
  infer_instance

variable {call : Calls} [h : Fact (call.SoundFrom inp (x + 1))] {flags : NameFlags}

theorem qualifierLoop_spec (text : Text) : ∀ {x : Nat}, inp.name.drop x = text → x ≤ inp.size →
    Holds inp x (qualifierLoop inp text) fun cs y => Found inp x (!cs.isEmpty) y := by
  induction text with
  | nil => exact fun _ hx => holds_peek hx (.pure (not_found hx))
  | cons c rest ih =>
    intro x htext hx
    obtain ⟨-, hlt, hrest⟩ := Input.drop_eq_cons htext
    refine holds_peek hx (.ite (fun _ => holds_advance ?_) fun _ => .pure (not_found hx))
    exact .bind (ih hrest hlt) fun cs y hy => .pure ((passes_succ hlt).trans hy.1).found

theorem parseCvQualifiers_spec (quals : Text) (hx : x ≤ inp.size) :
    Holds inp x (parseCvQualifiers inp quals) fun r y => Found inp x r.1 y :=
  holds_assertInside fun _ => holds_getPos <|
    .bind (qualifierLoop_spec _ rfl hx) fun _ _ hy => .pure hy

instance (quals : Text) : Wanders inp lo (parseCvQualifiers inp quals) :=
  ⟨fun _ hy => (parseCvQualifiers_spec quals hy.2).mono fun _ _ hz => hz.1⟩

variable {len : Nat}

theorem isAnonymousName_spec (hlen : x + len ≤ inp.size) :
    Holds inp x (isAnonymousName inp len) fun found y => y = x ∧ (found = true → 8 ≤ len) := by
  refine holds_getPos (.ite (fun h8 => ?_) fun _ => .pure ⟨rfl, by simp⟩)
  refine holds_read (by omega) (.ite (fun _ => ?_) fun _ => .pure ⟨rfl, fun _ => h8⟩)
  refine holds_read (by omega) (.ite (fun hc => ?_) fun _ => .pure ⟨rfl, fun _ => h8⟩)
  have hlt : x + 8 < inp.size := by
    rcases hc with hc | hc | hc <;> exact Input.lt_size_of_char hc (by decide)
  exact holds_read hlt (.pure ⟨rfl, fun _ => h8⟩)

theorem appendName_spec (hx : x ≤ inp.size) :
    Holds inp x (appendName inp out len) fun _ y => y = x := by
  have hcheck (what : String) (c : Bool) :
      Holds inp x (do let _ ← read inp inp.size; nutsAssert c what) fun _ y => y = x :=
    holds_read le_rfl (.still fun _ => rfl)
  refine holds_getPos (holds_read hx (holds_onlyIf (fun _ => ?_) fun _ => ?_))
  · exact .bind (hcheck _ _) fun _ y hy => .still fun _ => hy
  · exact .still fun _ => rfl

theorem sizeT_of_lt {n : Nat} (h : n < 2 ^ 64) : sizeT n = n := Nat.mod_eq_of_lt h

theorem parseAnonymousName_spec (hlen : 8 ≤ len) (hjump : x + len < 2 ^ 64)
    (hle : x + len ≤ inp.size) :
    Holds inp x (parseAnonymousName inp call out len) fun _ y => Stays inp x y := by
  refine holds_withPosition (.skip fun _ => .skip fun _ => holds_getPos ?_)
  rw [sizeT_of_lt hjump]
  have hlater : Stays inp (x + 1) (x + len) := ⟨by omega, hle⟩
  exact holds_moveTo (Nat.le_add_right x len) (wander hlater (Nat.le_add_right x len))

theorem parseSourceName_spec (hx : x ≤ inp.size) :
    Holds inp x (parseSourceName inp call out) fun _ y =>
      Found inp x (inp.char x).isDigit y := by
  refine holds_assertInside fun _ => .bind (parseUnsigned_spec none hx) fun len y hy => ?_
  have hend {z : Nat} (hz : Stays inp y z) : Found inp x (inp.char x).isDigit z :=
    ⟨hy.1.trans hz, fun hdigit => lt_of_lt_of_le (hy.2 hdigit) hz.1⟩
  refine holds_getPos (.ite (fun hfit => .bind_emit fun hjump => ⟨trivial, ?_⟩) fun _ => ?_)
  · have hjump : y + len < 2 ^ 64 := hjump
    rw [sizeT_of_lt hjump] at hfit ⊢
    refine .bind (isAnonymousName_spec hfit) fun anonymous z hz => ?_
    obtain ⟨rfl, h8⟩ := hz
    refine .ite (fun hanon => ?_) fun _ => ?_
    · have : Fact (call.SoundFrom inp (z + 1)) := ⟨h.out.mono (Nat.succ_le_succ hy.1.1)⟩
      exact (parseAnonymousName_spec (h8 hanon) hjump hfit).mono fun _ _ hz => hend hz
    · refine .bind (appendName_spec hy.1.2) fun _ z hz => ?_
      obtain rfl := hz
      exact (moveTo_spec (Nat.le_add_right z len)).mono fun _ w hw => hend ⟨by omega, by omega⟩
  · exact .still fun _ => hy

omit h in
instance (kind : OperatorKind) [Fact (call.SoundFrom inp lo)] :
    Wanders inp lo (afterOperator call out kind) := by
  cases kind <;> unfold afterOperator <;> infer_instance

theorem parseOperatorName_spec (hx : x ≤ inp.size) :
    Holds inp x (parseOperatorName inp call out) fun op y => Found inp x op.isSome y := by
  refine holds_assertInside fun _ => holds_peek hx (holds_getPos (.ite (fun hlt => ?_) ?_))
  · refine holds_read hlt.le ?_
    cases operatorOf (inp.char x) (inp.char (x + 1)) with
    | none => exact .pure (not_found hx)
    | some op =>
      have htwo : Stays inp (x + 1) (x + 2) := ⟨Nat.le_succ _, hlt⟩
      refine .skip fun _ => holds_advance (.bind (wander htwo (Nat.le_succ _)) fun _ y hy => ?_)
      exact .skip fun _ => .pure (Passes.found hy)
  · exact fun _ => .pure (not_found hx)

theorem repeatName_spec {start : Nat} :
    Holds inp x (repeatName out start len) fun _ y => y = x := by
  refine .skip fun o => .bind_emit fun hguard => ⟨trivial, ?_⟩
  refine .ite (fun _ => .pure rfl) fun _ => .ite (fun _ => ?_) fun hstart => ?_
  · exact .skip fun _ => .still fun _ => rfl
  · refine .ite (fun _ => .still fun _ => rfl) fun hend => ?_
    exact absurd hguard (not_or.mpr ⟨hstart, hend⟩)

theorem emitClassName_spec {tilde : Text} :
    Holds inp x (emitClassName out tilde) fun _ y => y = x + 1 := by
  refine .skip fun s => ?_
  cases s.sourceNamePos with
  | none => exact .fail trivial
  | some start =>
    refine holds_advance (.skip fun o => ?_)
    refine .skip fun _ => .bind repeatName_spec fun _ y hy => ?_
    exact .still fun _ => hy

section

variable (hx : x ≤ inp.size)
include hx

theorem parseCtorDtorName_spec :
    Holds inp x (parseCtorDtorName inp out) fun _ y => Passes inp x y := by
  refine holds_assertInside fun hlt => holds_peek hx (holds_nutsAssert fun _ => ?_)
  refine holds_advance (holds_getPos (.ite (fun _ => ?_) fun hne => holds_peek hlt ?_))
  · exact .still fun _ => passes_succ hlt
  · refine .ite (fun _ => ?_) fun _ => ?_
    · exact emitClassName_spec.mono fun _ y hy => ⟨by omega, by omega⟩
    · exact .still fun _ => passes_succ hlt

theorem parseSourceOrOperator_spec {c : Char} (hc : inp.char x = c) :
    Holds inp x (parseSourceOrOperator inp call out flags c) fun r y => Found inp x r.1 y := by
  refine .ite (fun hdigit => ?_) fun _ => ?_
  · refine .skip fun _ => .skip fun _ => .bind (parseSourceName_spec hx) fun _ y hy => ?_
    rw [hc] at hy
    exact .skip fun _ => .pure ⟨hy.1, fun _ => hy.2 hdigit⟩
  · exact .bind (parseOperatorName_spec hx) fun op y hy => .pure hy

theorem parseUnqualifiedName_spec :
    Holds inp x (parseUnqualifiedName inp call out flags) fun r y => Found inp x r.1 y := by
  have hctor : Holds inp x (parseCtorDtorName inp out) fun _ y => Found inp x true y :=
    (parseCtorDtorName_spec hx).mono fun _ y hy => hy.found
  refine holds_assertInside fun hlt => holds_peek hx (.ite (fun _ => ?_) fun _ => ?_)
  · exact .bind hctor fun _ y hy => .pure hy
  refine .ite (fun _ => .bind hctor fun _ y hy => .pure hy) fun _ => ?_
  refine .ite (fun _ => .pure (not_found hx)) fun _ => .ite (fun _ => ?_) fun _ => ?_
  · have : Fact (call.SoundFrom inp (x + 1 + 1)) := ⟨h.out.mono (Nat.le_succ _)⟩
    refine holds_advance (holds_peek hlt ?_)
    exact (parseSourceOrOperator_spec hlt rfl).mono fun _ _ hy =>
      ((passes_succ hlt).trans hy.1).found
  · exact parseSourceOrOperator_spec hx rfl

theorem parseUnscopedName_spec :
    Holds inp x (parseUnscopedName inp call out flags) fun r y => Found inp x r.1 y :=
  holds_getPos <| .ite (fun _ => parseUnqualifiedName_spec hx) fun _ =>
    .pure (not_found hx)

theorem addSubstitution_spec :
    Holds inp x (addSubstitution inp out flags) fun _ y => y = x := by
  refine .skip fun _ => .skip fun _ => ?_
  refine .ite (fun _ => holds_peek hx ?_) fun _ => .pure rfl
  exact .skip fun _ => .pure rfl

end

theorem seqIdLoop_spec (text : Text) : ∀ {x : Nat} (i : Nat), inp.name.drop x = text →
    x ≤ inp.size → Holds inp x (seqIdLoop inp i text) fun _ y => Stays inp x y := by
  induction text with
  | nil => exact fun i _ hx => .skip fun _ => .pure ⟨le_rfl, hx⟩
  | cons c rest ih =>
    intro x i htext hx
    obtain ⟨-, hlt, hrest⟩ := Input.drop_eq_cons htext
    refine .ite (fun _ => holds_advance (holds_peek hlt (.ite (fun _ => ?_) fun _ => ?_)))
      fun _ => ?_
    · exact .pure ⟨Nat.le_succ x, hlt⟩
    · exact (ih _ hrest hlt).stays (Nat.le_succ x)
    · exact .skip fun _ => .pure ⟨le_rfl, hx⟩

instance (c : Char) : Wanders inp lo (parseSeqId inp c) :=
  ⟨fun _ hy => .ite (fun _ => wander hy le_rfl) fun _ => holds_getPos <|
    .bind (seqIdLoop_spec _ 0 rfl hy.2) fun _ _ hz => .pure hz⟩

theorem parseSubstitution_spec (hx : x ≤ inp.size) :
    Holds inp x (parseSubstitution inp out flags) fun _ y => Passes inp x y := by
  refine holds_assertInside fun hlt => holds_assertChar hx fun _ => holds_advance ?_
  refine holds_peek hlt ?_
  cases stdAbbreviation (inp.char (x + 1)) <;> exact wander (passes_succ hlt) le_rfl

theorem parseTemplateParam_spec (hx : x ≤ inp.size) :
    Holds inp x (parseTemplateParam inp out) fun _ y => Passes inp x y := by
  refine holds_assertInside fun hlt => holds_assertChar hx fun _ => holds_advance ?_
  unfold parseParamNumber
  exact wander (passes_succ hlt) le_rfl

section Wanders

variable [Fact (call.SoundFrom inp lo)]

instance : Wanders inp lo (parseSourceName inp call out) :=
  .of_spec call fun _ _ hx => (parseSourceName_spec hx).mono fun _ _ hy => hy.1

instance : Wanders inp lo (parseUnqualifiedName inp call out flags) :=
  .of_spec call fun _ _ hx => (parseUnqualifiedName_spec hx).mono fun _ _ hy => hy.1

instance : Wanders inp lo (parseUnscopedName inp call out flags) :=
  .of_spec call fun _ _ hx => (parseUnscopedName_spec hx).mono fun _ _ hy => hy.1

end Wanders

instance : Wanders inp lo (addSubstitution inp out flags) := by
  unfold addSubstitution
  infer_instance

instance : Wanders inp lo (parseSubstitution inp out flags) :=
  ⟨fun _ hy => (parseSubstitution_spec hy.2).mono fun _ _ hz => hz.stays⟩

instance : Wanders inp lo (parseTemplateParam inp out) :=
  ⟨fun _ hy => (parseTemplateParam_spec hy.2).mono fun _ _ hz => hz.stays⟩

instance : Wanders inp lo (expectEnd inp) := by
  unfold expectEnd
  infer_instance

end ZeroBugs.Unmangle
