import Mathlib

/-! # Programs that leave a trace -/
namespace ZeroBugs.Lib
open List

/-- Programs over states `σ` that fail with `ε` and leave events `ω`. -/
def Traced (ω ε σ α : Type) : Type := σ → List ω × Except ε (α × σ)

namespace Traced

variable {ω ε σ V α β : Type}

protected def pure (a : α) : Traced ω ε σ α := fun s => ([], .ok (a, s))

protected def bind (f : Traced ω ε σ α) (g : α → Traced ω ε σ β) : Traced ω ε σ β := fun s =>
  match f s with
  | (log, .error e) => (log, .error e)
  | (log, .ok (a, s)) => (log ++ (g a s).1, (g a s).2)

instance : Monad (Traced ω ε σ) where
  pure := Traced.pure
  bind := Traced.bind

def get : Traced ω ε σ σ := fun s => ([], .ok (s, s))

def modify (u : σ → σ) : Traced ω ε σ Unit := fun s => ([], .ok ((), u s))

def fail (e : ε) : Traced ω ε σ α := fun _ => ([], .error e)

def emit (w : ω) : Traced ω ε σ Unit := fun s => ([w], .ok ((), s))

variable {e : ε}

theorem bind_of_error {f : Traced ω ε σ α} {s : σ} {log : List ω}
    (h : f s = (log, .error e)) (g : α → Traced ω ε σ β) : (f >>= g) s = (log, .error e) := by
  show Traced.bind f g s = _
  rw [Traced.bind, h]

theorem bind_of_ok {f : Traced ω ε σ α} {s s' : σ} {log : List ω} {a : α}
    (h : f s = (log, .ok (a, s'))) (g : α → Traced ω ε σ β) :
    (f >>= g) s = (log ++ (g a s').1, (g a s').2) := by
  show Traced.bind f g s = _
  rw [Traced.bind, h]

theorem snd_bind (f : Traced ω ε σ α) (g : α → Traced ω ε σ β) (s : σ) :
    ((f >>= g) s).2 = (f s).2.bind fun r => (g r.1 r.2).2 := by
  rcases hrun : f s with ⟨log, e | ⟨a, s'⟩⟩
  · rw [bind_of_error hrun]
    rfl
  · rw [bind_of_ok hrun]
    rfl

/-- What is asked of a run: the view of the states, the condition on the events, what it gives for
them, and the allowed failures. -/
structure Monitor (ω ε σ V : Type) where
  view : σ → V
  Meets : ω → Prop
  Safe : ω → Prop
  Ended : ε → Prop

variable {m : Monitor ω ε σ V}

/-- The end of a run: a result that fits `post`, or an allowed failure. -/
def Outcome (m : Monitor ω ε σ V) (post : α → V → Prop) : Except ε (α × σ) → Prop
  | .ok (a, s) => post a (m.view s)
  | .error e => m.Ended e

/-- From states with view `v`, a run whose events meet the condition is safe, and
ends in an allowed failure or in a result and a view that fit `post`. -/
def Triple (m : Monitor ω ε σ V) (v : V) (f : Traced ω ε σ α) (post : α → V → Prop) : Prop :=
  ∀ s, m.view s = v → (∀ w ∈ (f s).1, m.Meets w) →
    (∀ w ∈ (f s).1, m.Safe w) ∧ Outcome m post (f s).2

/-- The program leaves no event and keeps the view, and its failures are allowed. -/
def Quiet (m : Monitor ω ε σ V) (f : Traced ω ε σ α) : Prop :=
  ∀ s, (f s).1 = [] ∧ Outcome m (fun _ v => v = m.view s) (f s).2

variable {v : V} {c : Prop}

namespace Triple

theorem pure {a : α} {post : α → V → Prop} (h : post a v) :
    Triple m v (Pure.pure a) post := by
  intro s hs _
  subst hs
  exact ⟨fun w hw => absurd hw not_mem_nil, h⟩

theorem bind {f : Traced ω ε σ α} {g : α → Traced ω ε σ β} {mid : α → V → Prop}
    {post : β → V → Prop} (hf : Triple m v f mid)
    (hg : ∀ a v', mid a v' → Triple m v' (g a) post) : Triple m v (f >>= g) post := by
  intro s hs
  have hfs := hf s hs
  rcases hrun : f s with ⟨log, e | ⟨a, s'⟩⟩
  · rw [bind_of_error hrun]
    rwa [hrun] at hfs
  · rw [bind_of_ok hrun]
    rw [hrun] at hfs
    intro hmeets
    obtain ⟨hsafe, hmid⟩ := hfs fun w hw => hmeets w (mem_append_left _ hw)
    obtain ⟨hsafe', hpost⟩ := hg a _ hmid s' rfl fun w hw => hmeets w (mem_append_right _ hw)
    exact ⟨fun w hw => (mem_append.mp hw).elim (hsafe w) (hsafe' w), hpost⟩

theorem mono {f : Traced ω ε σ α} {post post' : α → V → Prop} (h : Triple m v f post)
    (himp : ∀ a v', post a v' → post' a v') : Triple m v f post' := by
  intro s hs hmeets
  obtain ⟨hsafe, hend⟩ := h s hs hmeets
  refine ⟨hsafe, ?_⟩
  rcases hrun : (f s).2 with e | ⟨a, s'⟩
  · rwa [hrun] at hend
  · rw [hrun] at hend
    exact himp a _ hend

theorem fail (h : m.Ended e) {post : α → V → Prop} :
    Triple m v (Traced.fail e) post :=
  fun _ _ _ => ⟨fun _ hw => absurd hw not_mem_nil, h⟩

theorem bind_emit {w : ω} {g : Unit → Traced ω ε σ β} {post : β → V → Prop}
    (h : m.Meets w → m.Safe w ∧ Triple m v (g ()) post) :
    Triple m v (Traced.emit w >>= g) post := by
  intro s hs hmeets
  obtain ⟨hsafe, hrest⟩ := h (hmeets w mem_cons_self)
  obtain ⟨hsafe', hend⟩ := hrest s hs fun w' hw' => hmeets w' (mem_cons_of_mem w hw')
  exact ⟨forall_mem_cons.mpr ⟨hsafe, hsafe'⟩, hend⟩

theorem ite [Decidable c] {f g : Traced ω ε σ α} {post : α → V → Prop}
    (hf : c → Triple m v f post) (hg : ¬c → Triple m v g post) :
    Triple m v (if c then f else g) post := by
  split
  · next h => exact hf h
  · next h => exact hg h

theorem quiet {f : Traced ω ε σ α} (hf : Quiet m f) {post : α → V → Prop}
    (h : ∀ a, post a v) : Triple m v f post := by
  intro s hs _
  obtain ⟨hlog, hend⟩ := hf s
  refine ⟨fun w hw => absurd (hlog ▸ hw) not_mem_nil, ?_⟩
  rcases hrun : (f s).2 with e | ⟨a, s'⟩
  · rwa [hrun] at hend
  · rw [hrun] at hend
    have hview : m.view s' = m.view s := hend
    show post a (m.view s')
    rw [hview, hs]
    exact h a

theorem bind_quiet {f : Traced ω ε σ α} {g : α → Traced ω ε σ β} {post : β → V → Prop}
    (hf : Quiet m f) (hg : ∀ a, Triple m v (g a) post) : Triple m v (f >>= g) post := by
  have hsame : Triple m v f fun _ v' => v' = v := quiet hf fun _ => rfl
  exact bind hsame fun a v' hv => hv ▸ hg a

end Triple

/-! ## Programs known from their parts

What a program is made of decides what it does to the state, and instances put that
together. -/

class Relates (R : σ → σ → Prop) (u : σ → σ) : Prop where
  relates : ∀ s, R s (u s)

/-- Runs leave no event, relate the states before and behind them, and fail as allowed. -/
class Plain (Ended : ε → Prop) (R : σ → σ → Prop) (f : Traced ω ε σ α) : Prop where
  plain : ∀ s, (f s).1 = [] ∧ match (f s).2 with
    | .ok (_, s') => R s s'
    | .error e => Ended e

variable {u : σ → σ}

section Plain

variable {Ended : ε → Prop} {R : σ → σ → Prop} {f f' : Traced ω ε σ α} {g : α → Traced ω ε σ β}

instance [Std.Refl R] (a : α) : Plain Ended R (Pure.pure a : Traced ω ε σ α) :=
  ⟨fun s => ⟨rfl, Std.Refl.refl s⟩⟩

instance [Std.Refl R] : Plain Ended R (Traced.get : Traced ω ε σ σ) :=
  ⟨fun s => ⟨rfl, Std.Refl.refl s⟩⟩

theorem Plain.modify (hu : ∀ s, R s (u s)) :
    Plain Ended R (Traced.modify u : Traced ω ε σ Unit) :=
  ⟨fun s => ⟨rfl, hu s⟩⟩

instance [hu : Relates R u] : Plain Ended R (Traced.modify u : Traced ω ε σ Unit) :=
  .modify hu.relates

instance [he : Fact (Ended e)] : Plain Ended R (Traced.fail e : Traced ω ε σ α) :=
  ⟨fun _ => ⟨rfl, he.out⟩⟩

theorem Plain.bind [Trans R R R] [hf : Plain Ended R f] (hg : ∀ a, Plain Ended R (g a)) :
    Plain Ended R (f >>= g) := by
  refine ⟨fun s => ?_⟩
  have hfs := hf.plain s
  rcases hrun : f s with ⟨log, e | ⟨a, s'⟩⟩
  · rw [bind_of_error hrun]
    rwa [hrun] at hfs
  · rw [bind_of_ok hrun]
    rw [hrun] at hfs
    obtain ⟨hlog, hend⟩ := (hg a).plain s'
    refine ⟨List.append_eq_nil_iff.mpr ⟨hfs.1, hlog⟩, ?_⟩
    rcases hrun' : (g a s').2 with e | ⟨b, s''⟩
    · rwa [hrun'] at hend
    · rw [hrun'] at hend
      have hmid : R s s' := hfs.2
      have hrest : R s' s'' := hend
      exact (Trans.trans hmid hrest : R s s'')

instance [Trans R R R] [Plain Ended R f] [hg : ∀ a, Plain Ended R (g a)] :
    Plain Ended R (f >>= g) := .bind hg

instance [Decidable c] [hf : Plain Ended R f] [hf' : Plain Ended R f'] :
    Plain Ended R (if c then f else f') := by
  split
  · exact hf
  · exact hf'

end Plain

class IsQuiet (m : Monitor ω ε σ V) (f : Traced ω ε σ α) : Prop where
  quiet : Quiet m f

theorem Plain.isQuiet {R : σ → σ → Prop} {f : Traced ω ε σ α} [hf : Plain m.Ended R f]
    (hR : ∀ s s', R s s' → m.view s' = m.view s) : IsQuiet m f := by
  refine ⟨fun s => ?_⟩
  obtain ⟨hlog, hend⟩ := hf.plain s
  refine ⟨hlog, ?_⟩
  rcases hrun : (f s).2 with e | ⟨a, s'⟩
  · rwa [hrun] at hend
  · rw [hrun] at hend
    exact hR s s' hend

theorem Triple.still {f : Traced ω ε σ α} {post : α → V → Prop} [hf : IsQuiet m f]
    (h : ∀ a, post a v) : Triple m v f post := .quiet hf.quiet h

theorem Triple.skip {f : Traced ω ε σ α} {g : α → Traced ω ε σ β} {post : β → V → Prop}
    [hf : IsQuiet m f] (hg : ∀ a, Triple m v (g a) post) : Triple m v (f >>= g) post :=
  .bind_quiet hf.quiet hg

/-- From the views related to `lo`, runs whose events meet the condition are safe, and relate
the views before and behind them. -/
class Roams (m : Monitor ω ε σ V) (R : V → V → Prop) (lo : V) (f : Traced ω ε σ α) : Prop where
  roams : ∀ v, R lo v → Triple m v f fun _ v' => R v v'

class Settles (R : V → V → Prop) : Prop where
  refl : ∀ {u v}, R u v → R v v

section Roams

variable {R : V → V → Prop} [Trans R R R] {lo : V} {f f' : Traced ω ε σ α}
  {g : α → Traced ω ε σ β}

instance [hf : Roams m R lo f] [hg : ∀ a, Roams m R lo (g a)] : Roams m R lo (f >>= g) :=
  ⟨fun v hv => .bind (hf.roams v hv) fun a v' hv' =>
    ((hg a).roams v' (Trans.trans hv hv')).mono fun _ _ hv'' => Trans.trans hv' hv''⟩

omit [Trans R R R] in
instance (priority := low) [hR : Settles R] [IsQuiet m f] : Roams m R lo f :=
  ⟨fun _ hv => .still fun _ => hR.refl hv⟩

omit [Trans R R R] in
instance [Decidable c] [hf : Roams m R lo f] [hf' : Roams m R lo f'] :
    Roams m R lo (if c then f else f') :=
  ⟨fun v hv => .ite (fun _ => hf.roams v hv) fun _ => hf'.roams v hv⟩

end Roams

def Returns (f : Traced ω ε σ α) (s : σ) (a : α) (s' : σ) : Prop := (f s).2 = .ok (a, s')

namespace Returns

theorem pure {a : α} {s : σ} : Returns (Pure.pure a : Traced ω ε σ α) s a s := rfl

theorem get {s : σ} : Returns (Traced.get : Traced ω ε σ σ) s s s := rfl

theorem modify {s : σ} : Returns (Traced.modify u : Traced ω ε σ Unit) s () (u s) := rfl

theorem emit {w : ω} {s : σ} : Returns (Traced.emit w : Traced ω ε σ Unit) s () s := rfl

theorem bind {f : Traced ω ε σ α} {g : α → Traced ω ε σ β} {s s' s'' : σ} {a : α} {b : β}
    (hf : Returns f s a s') (hg : Returns (g a) s' b s'') : Returns (f >>= g) s b s'' := by
  rw [Returns, snd_bind, hf]
  exact hg

theorem ite_true [Decidable c] {f g : Traced ω ε σ α} {s s' : σ} {a : α} (hc : c)
    (h : Returns f s a s') : Returns (if c then f else g) s a s' := by
  rw [if_pos hc]
  exact h

theorem ite_false [Decidable c] {f g : Traced ω ε σ α} {s s' : σ} {a : α} (hc : ¬c)
    (h : Returns g s a s') : Returns (if c then f else g) s a s' := by
  rw [if_neg hc]
  exact h

end Returns

def Ends (f : Traced ω ε σ α) (s : σ) (out : Except ε (α × σ)) : Prop := (f s).2 = out

namespace Ends

variable {f : Traced ω ε σ α} {g : α → Traced ω ε σ β} {s s' : σ} {a : α} {δ : Type}

theorem bind {out : Except ε (β × σ)} (hf : Returns f s a s') (hg : Ends (g a) s' out) :
    Ends (f >>= g) s out := by
  rw [Ends, snd_bind, hf]
  exact hg

theorem bind_error (hf : Ends f s (.error e)) : Ends (f >>= g) s (.error e) := by
  rw [Ends, snd_bind, hf]
  rfl

theorem bind_map {e : Except ε δ} {next : δ → σ} {out : δ → Except ε (β × σ)}
    (hf : Ends f s (e.map fun d => (a, next d)))
    (hg : ∀ d, e = .ok d → Ends (g a) (next d) (out d)) : Ends (f >>= g) s (e.bind out) := by
  cases e with
  | error e => exact bind_error hf
  | ok d => exact bind hf (hg d rfl)

theorem bind_returns {e : Except ε δ} {next next' : δ → σ} {b : β}
    (hf : Ends f s (e.map fun d => (a, next d)))
    (hg : ∀ d, Returns (g a) (next d) b (next' d)) :
    Ends (f >>= g) s (e.map fun d => (b, next' d)) := by
  cases e with
  | error e => exact bind_error hf
  | ok d => exact bind hf (hg d)

theorem ite_true [Decidable c] {f g : Traced ω ε σ α} {out : Except ε (α × σ)}
    (hc : c) (h : Ends f s out) : Ends (if c then f else g) s out := by
  rw [if_pos hc]
  exact h

theorem ite_false [Decidable c] {f g : Traced ω ε σ α} {out : Except ε (α × σ)}
    (hc : ¬c) (h : Ends g s out) : Ends (if c then f else g) s out := by
  rw [if_neg hc]
  exact h

end Ends

/-- From `s` the program ends as `out` says of the view of the state, and where it
returns, it does so with a result and a state that fit `post`. -/
def Yields (view : σ → V) (f : Traced ω ε σ α) (s : σ) (out : Except ε V)
    (post : α → σ → Prop) : Prop :=
  match (f s).2 with
  | .error e => out = .error e
  | .ok (a, s') => out = .ok (view s') ∧ post a s'

namespace Yields

variable {view : σ → V} {f : Traced ω ε σ α} {g : α → Traced ω ε σ β} {s s' : σ} {a : α}
  {out : Except ε V} {mid : α → σ → Prop} {post : β → σ → Prop}

theorem of_ends {next : V → σ} (h : Ends f s (out.map fun v => (a, next v)))
    (hview : ∀ v, view (next v) = v) (hmid : ∀ v, mid a (next v)) : Yields view f s out mid := by
  unfold Yields
  rw [show (f s).2 = _ from h]
  cases out with
  | error e => rfl
  | ok v => exact ⟨congrArg Except.ok (hview v).symm, hmid v⟩

theorem of_returns (h : Returns f s a s') (hview : view s' = v) (hmid : mid a s') :
    Yields view f s (.ok v) mid := by
  unfold Yields
  rw [show (f s).2 = _ from h]
  exact ⟨congrArg Except.ok hview.symm, hmid⟩

theorem ends_error (h : Yields view f s (.error e) mid) : Ends f s (.error e) := by
  unfold Yields at h
  rw [Ends]
  split at h
  · next hrun => rw [hrun, Except.error.inj h]
  · exact nomatch h.1

theorem exists_returns (h : Yields view f s (.ok v) mid) :
    ∃ a s', Returns f s a s' ∧ view s' = v ∧ mid a s' := by
  unfold Yields at h
  split at h
  · exact nomatch h
  · next a s' hrun => exact ⟨a, s', hrun, (Except.ok.inj h.1).symm, h.2⟩

theorem bind {next : V → Except ε V} (hf : Yields view f s out mid)
    (hg : ∀ a s', mid a s' → Yields view (g a) s' (next (view s')) post) :
    Yields view (f >>= g) s (out.bind next) post := by
  rw [Yields, snd_bind]
  unfold Yields at hf
  split at hf
  · next hrun =>
    rw [hrun, hf]
    rfl
  · next hrun =>
    obtain ⟨rfl, hmid⟩ := hf
    rw [hrun]
    exact hg _ _ hmid

theorem bind_returns (hf : Returns f s a s') (hg : Yields view (g a) s' out post) :
    Yields view (f >>= g) s out post := by
  rw [Yields, snd_bind, hf]
  exact hg

theorem ite_true [Decidable c] {f g : Traced ω ε σ α} (hc : c)
    (h : Yields view f s out mid) : Yields view (if c then f else g) s out mid := by
  rw [if_pos hc]
  exact h

end Yields

end Traced

end ZeroBugs.Lib
