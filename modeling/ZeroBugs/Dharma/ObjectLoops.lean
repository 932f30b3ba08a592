import ZeroBugs.Dharma.StreamSoundness

/-! # Loops that read an object -/
namespace ZeroBugs.Dharma.Stream

variable {H : Type}

/-- An event handler whose callbacks may throw: the state then holds the exception.
A callback is the last thing that `Stream::read` does. -/
structure Reader (H : Type) where
  events : Events H
  thrown : H → Option Fault

def Reader.read (rd : Reader H) (h : H) (inp : Input) : Except Fault (Nat × Input × H) :=
  match Stream.read (some rd.events) h inp with
  | .error e => .error e
  | .ok (n, inp, h) =>
    match rd.thrown h with
    | some e => .error e
    | none => .ok (n, inp, h)

inductive EmptyRead where
  | stop
  | assert
  | ignore
  deriving DecidableEq

/-- A loop over an object: whether it compares with `<` or with `!=`, and what an
empty read does. -/
structure Loop where
  below : Bool
  emptyRead : EmptyRead
  deriving DecidableEq

def Loop.goesOn (l : Loop) (nread size : Nat) : Bool :=
  if l.below then nread < size else nread != size

structure LoopState (H : Type) where
  nread : Nat
  inp : Input
  handler : H

/-- The loop; without an answer after `fuel` turns the result is `none`. -/
def Loop.consume (l : Loop) (rd : Reader H) (size : Nat) :
    Nat → LoopState H → Option (Except Fault (LoopState H))
  | 0, _ => none
  | fuel + 1, st =>
    if l.goesOn st.nread size then
      match rd.read st.handler st.inp with
      | .error e => some (.error e)
      | .ok (n, inp, h) =>
        if n = 0 then
          match l.emptyRead with
          | .stop => some (.ok ⟨st.nread, inp, h⟩)
          | .assert => some (.error .assertion)
          | .ignore => l.consume rd size fuel ⟨st.nread, inp, h⟩
        else l.consume rd size fuel ⟨st.nread + n, inp, h⟩
    else some (.ok st)

def Loop.Ends (l : Loop) (rd : Reader H) (size : Nat) (st : LoopState H) : Prop :=
  ∃ fuel result, l.consume rd size fuel st = some result

def Input.AtEnd (inp : Input) : Prop := min inp.maxRead inp.rest.length = 0

def Input.Behind (inp inp' : Input) : Prop :=
  inp'.maxRead = inp.maxRead ∧ inp'.rest.length ≤ inp.rest.length

def Events.Consumes (ev : Events H) : Prop :=
  ∀ h inp name uuid size n inp' h',
    ev.onObjectBegin h inp name uuid size = .ok (n, inp', h') → inp.Behind inp'

theorem Input.Behind.refl (inp : Input) : inp.Behind inp := ⟨rfl, le_rfl⟩

theorem Input.Behind.trans {a b c : Input} (h : a.Behind b) (h' : b.Behind c) : a.Behind c :=
  ⟨h'.1.trans h.1, h'.2.trans h.2⟩

theorem Input.behind_advance (inp : Input) (n : Nat) : inp.Behind (inp.advance n) := by
  refine ⟨rfl, ?_⟩
  simp [Input.advance]

variable {inp inp' : Input} {n : Nat}

theorem Input.readBuffer_inv {room count : Nat} {buf : List UInt8}
    (h : inp.readBuffer room count = .ok (buf, n, inp')) :
    n = min count (min inp.maxRead inp.rest.length) ∧ (n = 0 ∨ n = count) ∧
      inp' = inp.advance n := by
  unfold Input.readBuffer at h
  dsimp only at h
  split at h
  · cases h
  · split at h
    · cases h
    · rename_i hall
      cases h
      refine ⟨rfl, ?_, rfl⟩
      by_contra hboth
      exact hall (not_or.mp hboth)

theorem Input.readBuffer_behind {room count : Nat} {buf : List UInt8}
    (h : inp.readBuffer room count = .ok (buf, n, inp')) : inp.Behind inp' := by
  obtain ⟨-, -, rfl⟩ := Input.readBuffer_inv h
  exact inp.behind_advance n

variable {h' : H}

theorem behind_of_bind {α : Type} {x : Except Fault (α × Nat × Input)}
    (hx : ∀ a n inp₁, x = .ok (a, n, inp₁) → inp.Behind inp₁)
    {f : α × Nat × Input → Except Fault (Nat × Input × H)} {m : Nat}
    (hf : ∀ a n inp₁, f (a, n, inp₁) = .ok (m, inp', h') → inp₁.Behind inp')
    (h : x >>= f = .ok (m, inp', h')) : inp.Behind inp' := by
  cases x with
  | error e => cases h
  | ok r =>
    obtain ⟨a, n, inp₁⟩ := r
    exact (hx a n inp₁ rfl).trans (hf a n inp₁ h)

variable {h : H}

section Progress

variable {ev : Events H} (hev : ev.Consumes)

variable {desc : Descriptor}

theorem readFixed_behind {msg : String} {event : Option (UInt64 → H)}
    (hr : readFixed msg event h desc inp = .ok (n, inp', h')) : inp.Behind inp' := by
  unfold readFixed at hr
  by_cases hsize : desc.size.toNat ≠ 8
  · simp [hsize, throw, throwThe, MonadExceptOf.throw, bind, Except.bind] at hr
  · simp only [hsize, if_false] at hr
    refine behind_of_bind (fun _ _ _ h => Input.readBuffer_behind h) (fun _ _ _ h => ?_) hr
    cases h
    exact .refl _

include hev

theorem readObject_behind {name : List UInt8}
    (hr : readObject (some ev) h desc name inp = .ok (n, inp', h')) :
    inp.Behind inp' := by
  refine behind_of_bind (fun _ _ _ h => Input.readBuffer_behind h) (fun buf k inp₁ h₁ => ?_) hr
  cases hobj : ev.onObjectBegin h inp₁ (.ofBuffer name) (.ofBuffer buf) desc.size.toNat with
  | error e => simp [hobj, bind, Except.bind] at h₁
  | ok r =>
    obtain ⟨tmp, inp₂, h₂⟩ := r
    refine (hev _ _ _ _ _ _ _ _ hobj).trans ?_
    simp only [hobj, bind, Except.bind] at h₁
    split at h₁
    · cases h₁
      exact .refl _
    · split at h₁
      · refine behind_of_bind (fun _ _ _ h => Input.readBuffer_behind h) (fun _ _ _ h => ?_) h₁
        cases h
        exact .refl _
      · cases h₁
        exact .refl _

theorem readValue_behind {name : List UInt8}
    (hr : readValue (some ev) h desc name inp = .ok (n, inp', h')) :
    inp.Behind inp' := by
  unfold readValue at hr
  split at hr
  · cases hr
    exact .refl _
  split at hr
  · exact readFixed_behind hr
  split at hr
  · exact readFixed_behind hr
  split at hr
  · exact readFixed_behind hr
  split at hr
  · refine behind_of_bind (fun _ _ _ h => Input.readBuffer_behind h) (fun _ _ _ h => ?_) hr
    cases h
    exact .refl _
  split at hr
  · exact readObject_behind hev hr
  split at hr
  · refine behind_of_bind (fun _ _ _ h => Input.readBuffer_behind h) (fun _ _ _ h => ?_) hr
    cases h
    exact .refl _
  · cases hr

theorem read_inv
    (hr : Stream.read (some ev) h inp = .ok (n, inp', h')) :
    (inp.AtEnd ∧ n = 0 ∧ inp' = inp ∧ h' = h) ∨
      (n ≠ 0 ∧ 8 ≤ inp.rest.length ∧ (inp.advance 8).Behind inp') := by
  unfold Stream.read at hr
  cases hdesc : inp.readBuffer 8 8 with
  | error e => simp [hdesc, bind, Except.bind] at hr
  | ok r =>
    obtain ⟨buf, k, inp₁⟩ := r
    obtain ⟨hk, hall, rfl⟩ := Input.readBuffer_inv hdesc
    rcases hall with rfl | rfl
    · simp only [hdesc, bind, Except.bind, if_true] at hr
      cases hr
      exact .inl ⟨by unfold Input.AtEnd; omega, rfl, rfl, rfl⟩
    · have hne : (8 : Nat) ≠ 0 := by decide
      simp only [hdesc, bind, Except.bind, hne, if_false] at hr
      cases hname : (inp.advance 8).readBuffer ((Descriptor.ofBuffer buf).namelen.toNat + 1)
          (Descriptor.ofBuffer buf).namelen.toNat with
      | error e => simp [hname] at hr
      | ok r =>
        obtain ⟨name, m, inp₂⟩ := r
        simp only [hname] at hr
        cases hval : readValue (some ev) h (Descriptor.ofBuffer buf) name inp₂ with
        | error e => simp [hval] at hr
        | ok r =>
          obtain ⟨l, inp₃, h₃⟩ := r
          simp only [hval] at hr
          cases hr
          exact .inr ⟨by omega, by omega,
            (Input.readBuffer_behind hname).trans (readValue_behind hev hval)⟩

end Progress

theorem read_atEnd (hend : inp.AtEnd) (events : Option (Events H)) (h : H) :
    Stream.read events h inp = .ok (0, inp, h) := by
  have hbuf : inp.readBuffer 8 8 = .ok (List.replicate 8 0, 0, inp) := by
    unfold Input.AtEnd at hend
    simp [Input.readBuffer, hend, Input.advance]
  simp only [Stream.read, hbuf, bind, Except.bind]
  rfl

inductive Loop.Turn (l : Loop) (rd : Reader H) (size : Nat) : LoopState H → LoopState H → Prop where
  | reads {st : LoopState H} {n : Nat} {inp : Input} {h : H}
      (hgo : l.goesOn st.nread size = true) (hread : rd.read st.handler st.inp = .ok (n, inp, h))
      (hn : n ≠ 0) : l.Turn rd size st ⟨st.nread + n, inp, h⟩

def Loop.Starves (l : Loop) (rd : Reader H) (size : Nat) (st : LoopState H) : Prop :=
  ∃ st', Relation.ReflTransGen (l.Turn rd size) st st' ∧ l.goesOn st'.nread size = true ∧
    st'.inp.AtEnd ∧ rd.thrown st'.handler = none

section Ends

variable {l : Loop} {rd : Reader H} {size : Nat}

theorem Reader.read_atEnd (hend : inp.AtEnd) (hok : rd.thrown h = none) :
    rd.read h inp = .ok (0, inp, h) := by
  rw [Reader.read, Stream.read_atEnd hend]
  simp [hok]

theorem Reader.read_ok (hrd : rd.events.Consumes)
    (hr : rd.read h inp = .ok (n, inp', h')) :
    (inp.AtEnd ∧ n = 0 ∧ inp' = inp ∧ h' = h ∧ rd.thrown h = none) ∨
      (n ≠ 0 ∧ inp.Behind inp' ∧ inp'.rest.length < inp.rest.length) := by
  unfold Reader.read at hr
  split at hr
  · cases hr
  · rename_i hread
    split at hr
    · cases hr
    · rename_i hok
      cases hr
      rcases read_inv hrd hread with ⟨hend, rfl, rfl, rfl⟩ | ⟨hn, hlen, hbehind⟩
      · exact .inl ⟨hend, rfl, rfl, rfl, hok⟩
      · have hshorter : (inp.advance 8).rest.length < inp.rest.length := by
          simp only [Input.advance_rest, List.length_drop]
          omega
        exact .inr ⟨hn, (inp.behind_advance 8).trans hbehind, hbehind.2.trans_lt hshorter⟩

theorem consume_turn {st st' : LoopState H} (h : l.Turn rd size st st') (fuel : Nat) :
    l.consume rd size (fuel + 1) st = l.consume rd size fuel st' := by
  obtain ⟨hgo, hread, hn⟩ := h
  simp [Loop.consume, hgo, hread, hn]

theorem consume_starved (hignore : l.emptyRead = .ignore) {st : LoopState H}
    (hstarves : l.Starves rd size st) (fuel : Nat) : l.consume rd size fuel st = none := by
  obtain ⟨st', hturns, hgo, hend, hok⟩ := hstarves
  induction hturns using Relation.ReflTransGen.head_induction_on generalizing fuel with
  | refl =>
    induction fuel with
    | zero => rfl
    | succ fuel ih =>
      simp only [Loop.consume, hgo, if_true, Reader.read_atEnd hend hok, hignore]
      exact ih
  | head hturn _ ih =>
    cases fuel with
    | zero => rfl
    | succ fuel => rw [consume_turn hturn, ih]

theorem consume_ends_iff (hrd : rd.events.Consumes) (st : LoopState H) :
    l.Ends rd size st ↔ l.emptyRead ≠ .ignore ∨ ¬l.Starves rd size st := by
  constructor
  · rintro ⟨fuel, result, h⟩
    by_contra hboth
    obtain ⟨hignore, hstarves⟩ := not_or.mp hboth
    rw [consume_starved (not_not.mp hignore) (not_not.mp hstarves)] at h
    cases h
  · intro h
    induction hlen : st.inp.rest.length using Nat.strong_induction_on generalizing st with
    | _ len ih =>
      by_cases hgo : l.goesOn st.nread size = true
      · cases hread : rd.read st.handler st.inp with
        | error e => exact ⟨1, .error e, by simp [Loop.consume, hgo, hread]⟩
        | ok r =>
          obtain ⟨n, inp, h'⟩ := r
          rcases Reader.read_ok hrd hread with ⟨hend, rfl, rfl, rfl, hok⟩ | ⟨hn, -, hless⟩
          · cases hempty : l.emptyRead with
            | stop => exact ⟨1, .ok st, by simp [Loop.consume, hgo, hread, hempty]⟩
            | assert => exact ⟨1, .error .assertion, by simp [Loop.consume, hgo, hread, hempty]⟩
            | ignore =>
              refine absurd ⟨st, .refl, hgo, hend, hok⟩ (h.resolve_left ?_)
              rw [hempty]
              exact not_not.mpr rfl
          · have hturn : l.Turn rd size st ⟨st.nread + n, inp, h'⟩ := .reads hgo hread hn
            obtain ⟨fuel, result, hres⟩ := ih inp.rest.length (hlen ▸ hless)
              ⟨st.nread + n, inp, h'⟩ (h.imp_right fun hno ⟨st', hturns, hst'⟩ =>
                hno ⟨st', .head hturn hturns, hst'⟩) rfl
            exact ⟨fuel + 1, result, (consume_turn hturn fuel).trans hres⟩
      · exact ⟨1, .ok st, by simp [Loop.consume, hgo]⟩

end Ends

end ZeroBugs.Dharma.Stream
