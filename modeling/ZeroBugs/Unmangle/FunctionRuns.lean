import ZeroBugs.Unmangle.DictionaryGrowth
import ZeroBugs.Unmangle.TypeRuns

/-! # Runs over functions -/
namespace ZeroBugs.Unmangle

open Lib Lib.Traced

variable {inp : Input} {x depth : Nat} {rest : Text} {s : State} {α : Type}

def nameBase : State :=
  { State.new with cvQualifiers := some [], outs := [Output.new, Output.new] }

theorem ready_nameBase : Ready nameBase 1 := ⟨by decide, rfl, rfl, rfl⟩

theorem fresh_new : Fresh 0 Output.new := ⟨rfl, rfl, fun _ h => absurd h (by simp [Output.new])⟩

def FunctionName.height : FunctionName → Nat
  | unscoped _ _ => 0
  | nested _ name => name.rest.length + 1

theorem FunctionName.site_parseName (f : FunctionName) (hfits : inp.size < 2 ^ 64)
    (hlen : f.text.length < 2 ^ 64) (hrest : Follows rest) (hdepth : f.height < depth)
    (hx : At inp x (f.code ++ rest)) :
    ∃ start delim, Ends (parseName inp (calls inp depth) 1 NameFlags.new)
      (site nameBase 1 x none [] Output.new)
      ((insertAll inp.capacity [] f.entries).map fun subst =>
        ((true, sourceFlags), site { nameBase with cvQualifiers := some f.quals } 1
          (x + f.code.length) start subst (wrote 0 [] f.text delim none))) := by
  have hroom : ∀ n e, n ≤ 2 → withinPositions n e = e := fun n e hn =>
    if_pos (Nat.le_trans hn (by decide))
  cases f with
  | unscoped name part =>
    refine ⟨some 0, none, ?_⟩
    have hname : Ends (parseName inp (calls inp depth) 1 NameFlags.new)
        (site nameBase 1 x none [] Output.new) _ :=
      Unmangle.site_parseName ready_nameBase hfits part.1 (part.ordinary rest) hrest.alphanum
        hrest.args fresh_new hx
    exact hname
  | nested quals name =>
    have hx : At inp x ('N' :: (CvQualifier.codes quals ++ (name.code ++ 'E' :: rest))) := by
      simpa [code] using hx
    have hend : x + (nested quals name).code.length =
        x + 1 + quals.length + name.code.length + 1 := by
      simp [code, CvQualifier.codes]
      omega
    have hname : Ends (parseName inp (calls inp depth) 1 NameFlags.new)
        (site nameBase 1 x none [] Output.new) _ :=
      NestedName.site_parseName ready_nameBase rfl hfits hlen fresh_new hdepth hx
    rw [hroom _ _ (by decide), List.append_nil, ← hend] at hname
    exact ⟨_, _, hname⟩

/-- The output that parameters are written to: one of its own if they are not shown. -/
def paramRef (inp : Input) : OutRef := if inp.noFunArgs then 2 else 0

/-- The state in which the parameters are read, up to what changes at a site. -/
def paramBase (inp : Input) (f : FunctionName) (o : Output) : State :=
  { State.new with
    cvQualifiers := some f.quals
    inPrototype := 1
    outs := if inp.noFunArgs then [wrote 0 [] f.text none none, o, Output.new]
      else [wrote 0 [] f.text none none, o] }

theorem ready_paramBase (inp : Input) (f : FunctionName) (o : Output) :
    Ready (paramBase inp f o) (paramRef inp) := by
  refine ⟨?_, rfl, rfl, rfl⟩
  unfold paramBase paramRef
  split
  · exact Nat.lt_succ_self 2
  · exact Nat.zero_lt_two

def AtParam (inp : Input) (f : FunctionName) (x : Nat) (s : State) : Prop :=
  ∃ name start o, Fresh 0 o ∧ o.delim = none ∧
    s = site (paramBase inp f name) (paramRef inp) x start s.subst o

theorem fresh_wrote {lead text : Text} {index : Option Nat} :
    Fresh 0 (wrote 0 lead text none index) :=
  ⟨rfl, rfl, fun _ h => absurd h (by simp [wrote])⟩

/-- The states behind the name, which has been appended to the first output. -/
def behindName (f : FunctionName) (x : Nat) (start : Option Nat) (subst : List Text) (o : Output) :
    State :=
  { State.new with
    pos := x
    sourceNamePos := start
    cvQualifiers := some f.quals
    subst := subst
    outs := [wrote 0 [] f.text none none, o] }

def Idle (g : M α) : Prop :=
  ∀ s, ∃ a s', Returns g s a s' ∧ s'.pos = s.pos ∧ s'.subst = s.subst

namespace Idle

theorem pure (a : α) : Idle (Pure.pure a) := fun s => ⟨a, s, .pure, rfl, rfl⟩

theorem bind {β : Type} {f : M α} {g : α → M β} (hf : Idle f) (hg : ∀ a, Idle (g a)) :
    Idle (f >>= g) := by
  intro s
  obtain ⟨a, s', hrun, hpos, hsubst⟩ := hf s
  obtain ⟨b, s'', hrun', hpos', hsubst'⟩ := hg a s'
  exact ⟨b, s'', .bind hrun hrun', hpos'.trans hpos, hsubst'.trans hsubst⟩

theorem get : Idle Traced.get := fun s => ⟨s, s, .get, rfl, rfl⟩

theorem modify {u : State → State} (h : ∀ s, (u s).pos = s.pos ∧ (u s).subst = s.subst) :
    Idle (Traced.modify u) := fun s => ⟨(), u s, .modify, (h s).1, (h s).2⟩

theorem onlyIf (c : Bool) {f : M Unit} (hf : Idle f) : Idle (onlyIf c f) := by
  unfold Unmangle.onlyIf
  split
  · exact hf
  · exact pure ()

theorem append (r : OutRef) (text : Text) : Idle (append r text) := modify fun _ => ⟨rfl, rfl⟩

theorem emitQualifiers (r : OutRef) : Idle (emitQualifiers inp r) :=
  bind get fun _ => onlyIf _ (onlyIf _ (append r _))

theorem result : Idle result := bind get fun _ => bind (bind get fun _ => pure _) fun _ => pure _

end Idle

/-- What comes behind a loop: the dictionary grows at most, and stays as it is when the
loop has read to the end. -/
structure Closing (inp : Input) (g : M α) : Prop where
  grows : Grows g
  ends : ∀ s, s.pos = inp.size →
    ∃ a s', Returns g s a s' ∧ s'.pos = inp.size ∧ s'.subst = s.subst

theorem Idle.closing {g : M α} (hg : Idle g) : Closing inp g := by
  refine ⟨fun s a s' hrun => ?_, fun s hs => ?_⟩
  · obtain ⟨b, s'', hrun', -, hsubst⟩ := hg s
    obtain ⟨-, rfl⟩ := Prod.mk.inj (Except.ok.inj (hrun'.symm.trans hrun))
    exact hsubst ▸ List.prefix_refl _
  · obtain ⟨a, s', hrun, hpos, hsubst⟩ := hg s
    exact ⟨a, s', hrun, hpos.trans hs, hsubst⟩

theorem Closing.bind {β : Type} {f : M α} {g : α → M β} (hf : Closing inp f)
    (hg : ∀ a, Closing inp (g a)) : Closing inp (f >>= g) := by
  refine ⟨hf.grows.bind fun a => (hg a).grows, fun s hs => ?_⟩
  obtain ⟨a, s', hrun, hpos, hsubst⟩ := hf.ends s hs
  obtain ⟨b, s'', hrun', hpos', hsubst'⟩ := (hg a).ends s' hpos
  exact ⟨b, s'', .bind hrun hrun', hpos', hsubst'.trans hsubst⟩

theorem closing_copyRemainder (out : OutRef) : Closing inp (copyRemainder inp out) := by
  refine ⟨Growing.grows, fun s hs => ⟨(), s, ?_, hs, rfl⟩⟩
  have hend : At inp s.pos [] := by
    rw [hs]
    exact ⟨Nat.le_refl _, List.drop_length⟩
  exact .bind (returns_isOutside hend) (.ite_false Bool.false_ne_true .pure)

/-- The run of `f` from `s` comes to the loop over the parameters in the state `t`, and
closes behind it; or it fails before that. -/
def RunsLoop (inp : Input) (call : Calls) (f : M α) (s : State) : Except Stop State → Prop
  | .error e => Ends f s (.error e)
  | .ok t => ∃ rest : Nat → M α, (∀ i, Closing inp (rest i)) ∧
      (f s).2 = ((call.paramLoop (paramRef inp) 0 >>= rest) t).2

namespace RunsLoop

variable {β : Type} {call : Calls} {f : M α} {g : α → M β} {t : Except Stop State} {s' : State}
  {a : α}

theorem loop : RunsLoop inp call (call.paramLoop (paramRef inp) 0) s (.ok s) := by
  refine ⟨Pure.pure, fun i => (Idle.pure i).closing, ?_⟩
  rw [snd_bind]
  rcases (call.paramLoop (paramRef inp) 0 s).2 with e | r
  · rfl
  · rfl

theorem bind_returns (hf : Returns f s a s') (hg : RunsLoop inp call (g a) s' t) :
    RunsLoop inp call (f >>= g) s t := by
  have hrun : ((f >>= g) s).2 = (g a s').2 := Ends.bind hf rfl
  cases t with
  | error e => exact hrun.trans hg
  | ok t =>
    obtain ⟨rest, hrest, heq⟩ := hg
    exact ⟨rest, hrest, hrun.trans heq⟩

theorem bind_closing (hf : RunsLoop inp call f s t) (hg : ∀ a, Closing inp (g a)) :
    RunsLoop inp call (f >>= g) s t := by
  cases t with
  | error e => exact Ends.bind_error hf
  | ok t =>
    obtain ⟨rest, hrest, heq⟩ := hf
    refine ⟨fun i => rest i >>= g, fun i => (hrest i).bind hg, ?_⟩
    rw [snd_bind, heq, snd_bind, snd_bind]
    rcases (call.paramLoop (paramRef inp) 0 t).2 with e | ⟨i, s⟩
    · rfl
    · exact (snd_bind (rest i) g s).symm

theorem bind_ends {e : Except Stop (List Text)} {next next' : List Text → State}
    (hf : Ends f s (e.map fun subst => (a, next subst)))
    (hg : ∀ subst, RunsLoop inp call (g a) (next subst) (.ok (next' subst))) :
    RunsLoop inp call (f >>= g) s (e.map next') := by
  cases e with
  | error e => exact Ends.bind_error hf
  | ok subst => exact bind_returns hf (hg subst)

theorem ite_true {c : Prop} [Decidable c] {f g : M α} (hc : c) (h : RunsLoop inp call f s t) :
    RunsLoop inp call (if c then f else g) s t := by
  rw [if_pos hc]
  exact h

theorem ite_false {c : Prop} [Decidable c] {f g : M α} (hc : ¬c) (h : RunsLoop inp call g s t) :
    RunsLoop inp call (if c then f else g) s t := by
  rw [if_neg hc]
  exact h

theorem yields {out : Except Stop (List Text)} (h : RunsLoop inp call f s (.ok s'))
    (hloop : Yields State.subst (call.paramLoop (paramRef inp) 0) s' out
      fun _ s' => s'.pos = inp.size) : Yields State.subst f s out fun _ _ => True := by
  obtain ⟨rest, hrest, heq⟩ := h
  have hout : out = out.bind Except.ok := by cases out <;> rfl
  have hall : Yields State.subst (call.paramLoop (paramRef inp) 0 >>= rest) s' out
      fun _ _ => True := by
    rw [hout]
    refine hloop.bind fun i s'' hpos => ?_
    obtain ⟨b, last, hrun, -, hsubst⟩ := (hrest i).ends s'' hpos
    exact .of_returns hrun hsubst trivial
  rwa [Yields, heq]

end RunsLoop

theorem fresh_paramOutput (inp : Input) (f : FunctionName) (o : Output) :
    Fresh 0 ((paramBase inp f o).outs.getD (paramRef inp) Output.new) := by
  unfold paramBase paramRef
  cases inp.noFunArgs with
  | false => exact fresh_wrote
  | true => exact fresh_new

theorem returns_paramsOutput (f : FunctionName) (start : Option Nat) (subst : List Text)
    (o : Output) :
    Returns (paramsOutput inp.noFunArgs 0) (behindName f x start subst o) (paramRef inp)
      { paramBase inp f o with
        pos := x, sourceNamePos := start, subst := subst, inPrototype := 0 } := by
  unfold paramRef paramBase
  cases inp.noFunArgs with
  | false => exact .pure
  | true =>
    have hlen : 2 ≤ maxTemp := by decide
    exact .bind .get (.ite_true hlen (.bind .modify .pure))

def firstParam (inp : Input) (f : FunctionName) (x : Nat) (start : Option Nat) (o : Output)
    (subst : List Text) : State :=
  site (paramBase inp f o) (paramRef inp) x start subst
    (wrote 0 ((paramBase inp f o).outs.getD (paramRef inp) Output.new).lead "(".toList none none)

theorem atParam_firstParam (f : FunctionName) (start : Option Nat) (o : Output)
    (subst : List Text) : AtParam inp f x (firstParam inp f x start o subst) :=
  ⟨o, start, _, fresh_wrote, rfl, rfl⟩

section Function

variable {call : Calls} (f : FunctionName) (start : Option Nat) (subst : List Text)

theorem runsLoop_emitFunctionParams (o : Output) :
    RunsLoop inp call (emitFunctionParams inp call 0) (behindName f x start subst o)
      (.ok (firstParam inp f x start o subst)) := by
  have hopen : Returns (append (paramRef inp) "(".toList)
      { paramBase inp f o with pos := x, sourceNamePos := start, subst := subst } ()
      (firstParam inp f x start o subst) := by
    have hparen : Offerable "(".toList := ⟨'(', [], rfl, by decide, by decide, by decide⟩
    rw [firstParam, ← (fresh_paramOutput inp f o).append hparen]
    exact .modify
  exact .bind_returns .get (.bind_returns (returns_paramsOutput f start subst o)
    (.bind_returns .get (.bind_returns .modify (.bind_closing
      (.bind_returns hopen (.bind_closing .loop fun i => Idle.closing (.bind (.append _ _) fun _ =>
        .bind (.onlyIf _ (.modify fun _ => ⟨rfl, rfl⟩)) fun _ => .bind .get fun _ => .pure _)))
      fun _ => Idle.closing (.bind (.modify fun _ => ⟨rfl, rfl⟩) fun _ => .pure _)))))

theorem runsLoop_parseFunction {c : Char} (hc : c ≠ 'E') (hx : At inp x (c :: rest))
    (delim : Option Text) (hname : Offerable f.text) :
    RunsLoop inp call (parseFunction inp call 0 1 sourceFlags)
      (site { nameBase with cvQualifiers := some f.quals } 1 x start subst
        (wrote 0 [] f.text delim none))
      (.ok (firstParam inp f x start (wrote 0 [] f.text delim none) subst)) := by
  have hout : Output.new.append f.text = wrote 0 [] f.text none none := fresh_new.append hname
  have hempty : (!f.text.isEmpty) = true := by
    rw [List.isEmpty_eq_false_iff.mpr hname.ne_nil]
    rfl
  have happend : Returns (appendOutput 0 1)
      (site { nameBase with cvQualifiers := some f.quals } 1 x start subst
        (wrote 0 [] f.text delim none)) ()
      (behindName f x start subst (wrote 0 [] f.text delim none)) := by
    rw [behindName, ← hout]
    exact .bind (.bind .get .pure) (.ite_true hempty .modify)
  have hparams : RunsLoop inp call (parseParams inp call 0 false)
      (behindName f x start subst (wrote 0 [] f.text delim none))
      (.ok (firstParam inp f x start (wrote 0 [] f.text delim none) subst)) :=
    .bind_returns (returns_isInside hx) (.ite_true rfl (.bind_returns (returns_peek hx)
      (.ite_true hc (runsLoop_emitFunctionParams f start subst _))))
  exact .bind_returns (.ite_false Bool.false_ne_true .pure) (.bind_returns happend
    (.bind_closing hparams fun _ => (Idle.onlyIf _ (.emitQualifiers 0)).closing))

end Function

theorem FunctionName.offerable (f : FunctionName) : Offerable f.text := by
  cases f with
  | unscoped name part => exact part.1.offerable
  | nested quals name => exact name.offerable

theorem FunctionName.code_cons (f : FunctionName) :
    ∃ c text, f.code = c :: text ∧ c ≠ 'G' ∧ c ≠ 'T' := by
  cases f with
  | unscoped name part =>
    obtain ⟨d, digits, hdigits, hd⟩ := exists_digit name.length
    refine ⟨d, digits ++ name, by rw [code, mangledPart, hdigits, List.cons_append], ?_, ?_⟩
    · exact ne_of_separates hd (by decide)
    · exact ne_of_separates hd (by decide)
  | nested quals name => exact ⟨'N', _, rfl, by decide, by decide⟩

theorem runsLoop_parse {f : FunctionName} {params : Text} {c : Char}
    (hname : inp.name = "_Z".toList ++ (f.code ++ c :: params)) (hfits : inp.size < 2 ^ 64)
    (hlen : f.text.length < 2 ^ 64) (hfollows : Follows (c :: params)) (hc : c ≠ 'E')
    (hdepth : f.height < depth) :
    ∃ start o, RunsLoop inp (calls inp depth) (parse inp (calls inp depth)) State.new
      ((insertAll inp.capacity [] f.entries).map
        (firstParam inp f (2 + f.code.length) start o)) := by
  have hstart : At inp 0 ('_' :: 'Z' :: (f.code ++ c :: params)) := ⟨Nat.zero_le _, hname⟩
  have hcode : At inp 2 (f.code ++ c :: params) := hstart.next.next
  have hparams : At inp (2 + f.code.length) (c :: params) := hcode.append
  obtain ⟨d, text, hd, hG, hT⟩ := f.code_cons
  have hchar := hcode
  rw [hd] at hchar
  obtain ⟨start, delim, hends⟩ := f.site_parseName hfits hlen hfollows hdepth hcode
  refine ⟨start, wrote 0 [] f.text delim none, ?_⟩
  have hfunction : RunsLoop inp (calls inp depth) (do
        let temp ← tempOutput
        let r ← parseName inp (calls inp depth) temp NameFlags.new
        if r.1 then parseFunction inp (calls inp depth) 0 temp r.2 else invalidName)
      { State.new with pos := 2, cvQualifiers := some [] }
      ((insertAll inp.capacity [] f.entries).map
        (firstParam inp f (2 + f.code.length) start (wrote 0 [] f.text delim none))) := by
    have htemp : Returns tempOutput { State.new with pos := 2, cvQualifiers := some [] } 1
        (site nameBase 1 2 none [] Output.new) :=
      .bind .get (.ite_true (by decide) (.bind .modify .pure))
    exact .bind_returns htemp (.bind_ends hends fun subst => .ite_true rfl
      (runsLoop_parseFunction f start subst hc hparams delim f.offerable))
  have hdata : RunsLoop inp (calls inp depth) (parseDataOrFuncName inp (calls inp depth) 0)
      { State.new with pos := 2 } ((insertAll inp.capacity [] f.entries).map
        (firstParam inp f (2 + f.code.length) start (wrote 0 [] f.text delim none))) :=
    .bind_returns (returns_isInside hchar) (.ite_true rfl (.bind_returns .get (.bind_returns .modify
      (.bind_closing hfunction fun _ =>
        Idle.closing (.bind (.modify fun _ => ⟨rfl, rfl⟩) fun _ => .pure _)))))
  have hencoding : RunsLoop inp (calls inp depth) (parseEncoding inp (calls inp depth) 0)
      { State.new with pos := 2 } ((insertAll inp.capacity [] f.entries).map
        (firstParam inp f (2 + f.code.length) start (wrote 0 [] f.text delim none))) :=
    .bind_returns (returns_isInside hchar) (.ite_true rfl (.bind_returns
      (returns_parseSpecialName hG hT hchar) (.ite_false Bool.false_ne_true
        (.bind_closing hdata fun _ => closing_copyRemainder 0))))
  have hfirst : Returns (read inp 0) State.new '_' State.new := hstart.char ▸ returns_read hstart.1
  have hsecond : Returns (read inp 1) State.new 'Z' State.new :=
    hstart.next.char ▸ returns_read hstart.next.1
  exact .bind_returns hfirst (.ite_true rfl (.bind_returns hsecond (.ite_true rfl
    (.bind_returns returns_moveTo (.bind_closing hencoding fun _ => Idle.result.closing)))))

theorem yields_parse {f : FunctionName} {params : Text} {c : Char}
    {out : List Text → Except Stop (List Text)}
    (hname : inp.name = "_Z".toList ++ (f.code ++ c :: params)) (hfits : inp.size < 2 ^ 64)
    (hlen : f.text.length < 2 ^ 64) (hfollows : Follows (c :: params)) (hc : c ≠ 'E')
    (hdepth : f.height < depth)
    (hloop : ∀ s, AtParam inp f (2 + f.code.length) s →
      Yields State.subst ((calls inp depth).paramLoop (paramRef inp) 0) s (out s.subst)
        fun _ s' => s'.pos = inp.size) :
    Yields State.subst (parse inp (calls inp depth)) State.new
      ((insertAll inp.capacity [] f.entries).bind out) fun _ _ => True := by
  obtain ⟨start, o, hrun⟩ := runsLoop_parse hname hfits hlen hfollows hc hdepth
  cases hentries : insertAll inp.capacity [] f.entries with
  | error e =>
    rw [hentries] at hrun
    rw [Yields, show (parse inp (calls inp depth) State.new).2 = _ from hrun]
    rfl
  | ok subst =>
    rw [hentries] at hrun
    exact hrun.yields (hloop _ (atParam_firstParam f start o subst))

end ZeroBugs.Unmangle
