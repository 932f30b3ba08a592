import ZeroBugs.Unmangle.MildSteps

/-! # Rules for the cursor -/
namespace ZeroBugs.Unmangle

open Lib List

variable {inp : Input} {x : Nat} {α β : Type} {post : α → Nat → Prop}

def Step.Safe (inp : Input) : Step → Prop
  | .read i => i ≤ inp.size
  | .move src dst => src ≤ dst
  | _ => True

/-- What is asked of the steps: the end of a production is stepped over only before the
end of the name, the length of a name does not wrap around, there is room for a position,
and a class name is repeated from inside the output. -/
def Step.Guarded (inp : Input) : Step → Prop
  | .closing pos => pos < inp.size
  | .jump pos len => pos + len < 2 ^ 64
  | .position depth => depth < maxPositions
  | .repeatName start len size => start < size ∨ start = size ∧ len = 0
  | _ => True

instance (inp : Input) : DecidablePred (Step.Safe inp) := fun w => by
  cases w <;> unfold Step.Safe <;> infer_instance

instance (inp : Input) : DecidablePred (Step.Guarded inp) := fun w => by
  cases w <;> unfold Step.Guarded <;> infer_instance

def cursor (inp : Input) : Traced.Monitor Step Stop State Nat where
  view := State.pos
  Meets := Step.Guarded inp
  Safe := Step.Safe inp
  Ended := Stop.Thrown

/-- From a cursor at `x`, guarded runs of `f` are safe and end as `post` says. -/
abbrev Holds (inp : Input) (x : Nat) (f : M α) (post : α → Nat → Prop) : Prop :=
  Traced.Triple (cursor inp) x f post

abbrev Stays (inp : Input) (x y : Nat) : Prop := x ≤ y ∧ y ≤ inp.size

abbrev Passes (inp : Input) (x y : Nat) : Prop := x < y ∧ y ≤ inp.size

theorem Input.lt_size_of_char {i : Nat} {c : Char} (h : inp.char i = c) (hc : c ≠ '\x00') :
    i < inp.size := by
  by_contra hi
  have hnul : inp.char i = '\x00' := by
    rw [Input.char, getD_eq_getElem?_getD, getElem?_eq_none (Nat.le_of_not_lt hi),
      Option.getD_none]
  exact hc (h.symm.trans hnul)

theorem Input.drop_eq_cons {i : Nat} {c : Char} {rest : Text} (h : inp.name.drop i = c :: rest) :
    inp.char i = c ∧ i < inp.size ∧ inp.name.drop (i + 1) = rest := by
  have hget : inp.name[i]? = some c := by rw [← head?_drop, h, head?_cons]
  refine ⟨?_, (List.getElem?_eq_some_iff.mp hget).1, ?_⟩
  · rw [Input.char, getD_eq_getElem?_getD, hget, Option.getD_some]
  · rw [← tail_drop, h, tail_cons]

instance {f : M α} [hf : Mild f] : Traced.IsQuiet (cursor inp) f :=
  hf.isQuiet fun _ _ h => h.1

section Rules

variable {c : Char} {g : α → M β} {next : Unit → M β} {post : β → Nat → Prop}

theorem Holds.of_eq {f : M α} {a : α} {x' : Nat}
    (hf : Holds inp x f fun b y => b = a ∧ y = x') (hg : Holds inp x' (g a) post) :
    Holds inp x (f >>= g) post := by
  refine .bind hf fun b y hb => ?_
  obtain ⟨rfl, rfl⟩ := hb
  exact hg

theorem holds_getPos {g : Nat → M β} (h : Holds inp x (g x) post) :
    Holds inp x (getPos >>= g) post := by
  intro s hs
  obtain rfl := hs
  exact h s rfl

theorem read_spec {i : Nat} (hi : i ≤ inp.size) :
    Holds inp x (read inp i) fun c y => c = inp.char i ∧ y = x :=
  .bind_emit fun _ => ⟨hi, .ite (fun _ => .pure ⟨rfl, rfl⟩) fun h => absurd hi h⟩

theorem holds_read {g : Char → M β} {i : Nat} (hi : i ≤ inp.size)
    (h : Holds inp x (g (inp.char i)) post) : Holds inp x (read inp i >>= g) post :=
  .of_eq (read_spec hi) h

theorem holds_peek {g : Char → M β} (hx : x ≤ inp.size) (h : Holds inp x (g (inp.char x)) post) :
    Holds inp x (peek inp >>= g) post :=
  .of_eq (holds_getPos (read_spec hx)) h

theorem holds_isInside {f f' : M β} (hin : x < inp.size → Holds inp x f post)
    (hout : inp.size ≤ x → Holds inp x f' post) :
    Holds inp x (isInside inp >>= fun inside => if inside then f else f') post := by
  refine .of_eq (holds_getPos (.pure ⟨rfl, rfl⟩)) (.ite (fun h => ?_) fun h => ?_)
  · exact hin (of_decide_eq_true h)
  · exact hout (Nat.le_of_not_lt fun hx => h (decide_eq_true hx))

theorem isAt_spec :
    Holds inp x (isAt inp c) fun found y => y = x ∧ (found = true → x < inp.size) := by
  refine holds_getPos (.ite (fun hx => ?_) fun _ => .pure ⟨rfl, by simp⟩)
  exact holds_read (Nat.le_of_lt hx) (.pure ⟨rfl, fun _ => hx⟩)

theorem holds_isAt {f f' : M β} (hat : x < inp.size → Holds inp x f post)
    (hnot : Holds inp x f' post) :
    Holds inp x (isAt inp c >>= fun found => if found then f else f') post := by
  refine .bind isAt_spec fun found y hfound => ?_
  obtain ⟨rfl, hfound⟩ := hfound
  exact .ite (fun h => hat (hfound h)) fun _ => hnot

theorem moveTo_spec {dst : Nat} (h : x ≤ dst) : Holds inp x (moveTo dst) fun _ y => y = dst :=
  holds_getPos (.bind_emit fun _ => ⟨h, fun _ _ _ => ⟨fun _ hw => absurd hw not_mem_nil, rfl⟩⟩)

theorem holds_moveTo {dst : Nat} (hle : x ≤ dst) (h : Holds inp dst (next ()) post) :
    Holds inp x (moveTo dst >>= next) post :=
  .of_eq ((moveTo_spec hle).mono fun _ _ hy => ⟨rfl, hy⟩) h

theorem advance_spec (n : Nat) : Holds inp x (advance n) fun _ y => y = x + n :=
  holds_getPos (moveTo_spec (Nat.le_add_right x n))

theorem holds_advance {n : Nat} (h : Holds inp (x + n) (next ()) post) :
    Holds inp x (advance n >>= next) post :=
  .of_eq ((advance_spec n).mono fun _ _ hy => ⟨rfl, hy⟩) h

theorem closing_spec : Holds inp x closing fun _ y => y = x + 1 ∧ x < inp.size := by
  refine holds_getPos (.bind_emit fun hx => ⟨trivial, ?_⟩)
  exact (moveTo_spec (Nat.le_add_right x 1)).mono fun _ _ hy => ⟨hy, hx⟩

theorem holds_nutsAssert {b : Bool} {what : String}
    (h : b = true → Holds inp x (next ()) post) :
    Holds inp x (nutsAssert b what >>= next) post := by
  cases b with
  | true => exact h rfl
  | false =>
    have hfail : Holds inp x (nutsAssert false what) fun _ _ => False := .fail trivial
    exact .bind hfail fun _ _ hf => hf.elim

theorem holds_assertInside (h : x < inp.size → Holds inp x (next ()) post) :
    Holds inp x (assertInside inp >>= next) post := by
  have hspec : Holds inp x (assertInside inp) fun _ y => x < inp.size ∧ y = x := by
    refine holds_getPos (.ite (fun hx => .pure ⟨of_decide_eq_true hx, rfl⟩) fun _ => ?_)
    exact .fail trivial
  refine .bind hspec fun _ y hy => ?_
  obtain ⟨hx, rfl⟩ := hy
  exact h hx

theorem holds_assertChar (hx : x ≤ inp.size)
    (h : inp.char x = c → Holds inp x (next ()) post) :
    Holds inp x (assertChar inp c >>= next) post := by
  have hspec : Holds inp x (assertChar inp c) fun _ y => inp.char x = c ∧ y = x := by
    refine holds_peek hx (.ite (fun hc => .pure ⟨of_decide_eq_true hc, rfl⟩) fun _ => ?_)
    exact .fail trivial
  refine .bind hspec fun _ y hy => ?_
  obtain ⟨hc, rfl⟩ := hy
  exact h hc

theorem holds_onlyIf {b : Bool} {act : M Unit} (hact : b = true → Holds inp x (act >>= next) post)
    (hnot : b = false → Holds inp x (next ()) post) :
    Holds inp x (onlyIf b act >>= next) post := by
  cases b with
  | true => exact hact rfl
  | false => exact hnot rfl

end Rules

section Scopes

variable {r : OutRef} {body : M α}

theorem holds_withDelim {d : Option Text → Option Text} (h : Holds inp x body post) :
    Holds inp x (withDelim r d body) post :=
  .skip fun _ => .skip fun _ => .bind h fun _ _ ha => .skip fun _ => .pure ha

theorem holds_temporarily {set : State → State} {restore : State → State → State}
    [Traced.Relates Kept set] [∀ old, Traced.Relates Kept (restore old)]
    (h : Holds inp x body post) : Holds inp x (temporarily set restore body) post :=
  .skip fun _ => .skip fun _ => .bind h fun _ _ ha => .skip fun _ => .pure ha

theorem holds_withPosition (h : Holds inp x body post) :
    Holds inp x (withPosition r body) post := by
  refine .skip fun o => .bind_emit fun hroom => ⟨trivial, ?_⟩
  refine .ite (fun _ => ?_) fun hfull => absurd hroom hfull
  exact .skip fun _ => .bind h fun _ _ ha => .skip fun _ => .pure ha

end Scopes

instance : Trans (Stays inp) (Stays inp) (Stays inp) :=
  ⟨fun hxy hyz => ⟨Nat.le_trans hxy.1 hyz.1, hyz.2⟩⟩

instance : Traced.Settles (Stays inp) := ⟨fun h => ⟨Nat.le_refl _, h.2⟩⟩

/-- From a cursor at `lo` or behind it, guarded runs are safe and stay behind the cursor. -/
abbrev Wanders (inp : Input) (lo : Nat) (f : M α) : Prop :=
  Traced.Roams (cursor inp) (Stays inp) lo f

section Wanders

variable {lo : Nat} {c : Char} {f : M α}

theorem wander {y : Nat} [hf : Wanders inp lo f] (hy : Stays inp lo y) (hle : x ≤ y) :
    Holds inp y f fun _ z => Stays inp x z :=
  (hf.roams y hy).mono fun _ _ hz => ⟨Nat.le_trans hle hz.1, hz.2⟩

instance : Wanders inp lo (peek inp) :=
  ⟨fun _ hy => holds_getPos ((read_spec hy.2).mono fun _ _ hz => ⟨by omega, hz.2 ▸ hy.2⟩)⟩

instance : Wanders inp lo (isAt inp c) :=
  ⟨fun _ hy => isAt_spec.mono fun _ _ hz => ⟨by omega, hz.1 ▸ hy.2⟩⟩

instance : Wanders inp lo closing :=
  ⟨fun _ _ => closing_spec.mono fun _ _ hz => ⟨by omega, by omega⟩⟩

instance : Wanders inp lo (assertChar inp c) := by
  unfold assertChar
  infer_instance

instance (b : Bool) (act : M Unit) [Wanders inp lo act] : Wanders inp lo (onlyIf b act) := by
  unfold onlyIf
  infer_instance

variable {r : OutRef} [hf : Wanders inp lo f]

instance (d : Option Text → Option Text) : Wanders inp lo (withDelim r d f) :=
  ⟨fun y hy => holds_withDelim (hf.roams y hy)⟩

instance (set : State → State) (restore : State → State → State) [Traced.Relates Kept set]
    [∀ old, Traced.Relates Kept (restore old)] : Wanders inp lo (temporarily set restore f) :=
  ⟨fun y hy => holds_temporarily (hf.roams y hy)⟩

instance : Wanders inp lo (withPosition r f) := ⟨fun y hy => holds_withPosition (hf.roams y hy)⟩

end Wanders

end ZeroBugs.Unmangle
