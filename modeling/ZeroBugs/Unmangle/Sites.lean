import ZeroBugs.Unmangle.NameRuns
import ZeroBugs.Unmangle.Substitutions

/-! # Runs at a site -/
namespace ZeroBugs.Unmangle

open Lib Lib.Traced List

/-- The states in which the output `r` is written to, and that are like `base` in what
is not concerned. -/
def site (base : State) (r : OutRef) (x : Nat) (start : Option Nat) (subst : List Text)
    (o : Output) : State :=
  { base with
    pos := x
    sourceNamePos := start
    sourceNameSize := 0
    subst := subst
    outs := base.outs.set r o }

variable {inp : Input} {base base' : State} {r : OutRef} {x y : Nat} {start start' : Option Nat}
  {subst : List Text} {o o' : Output} {α : Type} {a : α}

theorem except_map_bind {ε δ β γ : Type} (e : Except ε δ) (f : δ → Except ε β) (g : β → γ) :
    (e.bind fun d => (f d).map g) = (e.bind f).map g := by
  cases e <;> rfl

variable {text before : Text}

section Outputs

variable (hr : r < base.outs.length)
include hr

theorem site_output : Returns (output r) (site base r x start subst o) o
    (site base r x start subst o) := by
  have hget : (base.outs.set r o).getD r Output.new = o := by
    rw [getD_eq_getElem?_getD, getElem?_set_self hr, Option.getD_some]
  exact .bind .get (by rw [site, hget]; exact .pure)

theorem site_updateOutput {u : Output → Output} :
    Returns (updateOutput r u) (site base r x start subst o) ()
      (site base r x start subst (u o)) := by
  have hget : (base.outs.set r o).getD r Output.new = o := by
    rw [getD_eq_getElem?_getD, getElem?_set_self hr, Option.getD_some]
  show Except.ok _ = Except.ok _
  simp only [site, hget, set_set]

theorem site_append : Returns (append r text) (site base r x start subst o) ()
    (site base r x start subst (o.append text)) := site_updateOutput hr

theorem site_position : Returns (position r) (site base r x start subst o) (o.positions.headD 0)
    (site base r x start subst o) := .bind (site_output hr) .pure

theorem site_substr {after : Text} (hbuf : o.buf = before ++ (text ++ after)) :
    Returns (substr r before.length text.length) (site base r x start subst o) text
      (site base r x start subst o) := by
  have hsub : o.substr before.length text.length = some text := by
    have hsize : before.length + text.length ≤ o.size := by
      simp only [Output.size, hbuf, length_append]
      omega
    have hfit : sizeT (before.length + text.length) ≤ o.size :=
      Nat.le_trans (Nat.mod_le _ _) hsize
    rw [Output.substr, if_pos (.inr ⟨by omega, hfit⟩), hbuf, drop_left, take_left]
  refine .bind (site_output hr) ?_
  rw [hsub]
  exact .pure

end Outputs

def Output.pushed (o : Output) : Output := { o with positions := o.size :: o.positions }

def Output.popped (o : Output) : Output := { o with positions := o.positions.tail }

section Scopes

variable {e : Except Stop (List Text)} {f : M α}

theorem site_withPosition (o' : Output) (hr : r < base.outs.length) (hr' : r < base'.outs.length)
    (hroom : o.positions.length < maxPositions)
    (hf : Ends f (site base r x start subst o.pushed)
      (e.map fun subst => (a, site base' r y start' subst o'))) :
    Ends (withPosition r f) (site base r x start subst o)
      (e.map fun subst => (a, site base' r y start' subst o'.popped)) := by
  refine .bind (site_output hr) (.bind .emit (.ite_true hroom (.bind (site_updateOutput hr) ?_)))
  exact .bind_returns hf fun _ => .bind (site_updateOutput hr') .pure

theorem site_withPosition_full (hr : r < base.outs.length)
    (hfull : ¬o.positions.length < maxPositions) :
    Ends (withPosition r f) (site base r x start subst o) (.error .positionsExhausted) :=
  .bind (site_output hr) (.bind .emit (.ite_false hfull rfl))

def withinPositions (n : Nat) (e : Except Stop (List Text)) : Except Stop (List Text) :=
  if n ≤ maxPositions then e else .error .positionsExhausted

theorem site_withPosition_within (o' : Output) {n : Nat} (hr : r < base.outs.length)
    (hr' : r < base'.outs.length) (hn : o.positions.length < n)
    (hf : o.positions.length < maxPositions → Ends f (site base r x start subst o.pushed)
      ((withinPositions n e).map fun subst => (a, site base' r y start' subst o'))) :
    Ends (withPosition r f) (site base r x start subst o)
      ((withinPositions n e).map fun subst => (a, site base' r y start' subst o'.popped)) := by
  by_cases hroom : o.positions.length < maxPositions
  · exact site_withPosition o' hr hr' hroom (hf hroom)
  · rw [withinPositions, if_neg (by omega)]
    exact site_withPosition_full hr hroom

theorem site_withPosition_last (o' : Output) (hr : r < base.outs.length)
    (hr' : r < base'.outs.length)
    (hf : Ends f (site base r x start subst o.pushed)
      (e.map fun subst => (a, site base' r y start' subst o'))) :
    Ends (withPosition r f) (site base r x start subst o)
      ((withinPositions (o.positions.length + 1) e).map
        fun subst => (a, site base' r y start' subst o'.popped)) := by
  refine site_withPosition_within o' hr hr' (Nat.lt_succ_self _) fun hroom => ?_
  rw [withinPositions, if_pos (Nat.succ_le_of_lt hroom)]
  exact hf

theorem site_withDelim (o' : Output) {delim : Option Text → Option Text} (hr : r < base.outs.length)
    (hr' : r < base'.outs.length)
    (hf : Ends f (site base r x start subst { o with delim := delim o.delim })
      (e.map fun subst => (a, site base' r y start' subst o'))) :
    Ends (withDelim r delim f) (site base r x start subst o)
      (e.map fun subst => (a, site base' r y start' subst { o' with delim := o.delim })) := by
  refine .bind (site_output hr) (.bind (site_updateOutput hr) ?_)
  exact .bind_returns hf fun _ => .bind (site_updateOutput hr') .pure

end Scopes

def Offerable (text : Text) : Prop :=
  ∃ c rest, text = c :: rest ∧ c ≠ ',' ∧ c ≠ ':' ∧ c ≠ '>'

theorem Offerable.append (h : Offerable text) (more : Text) :
    Offerable (text ++ more) := by
  obtain ⟨c, rest, rfl, hc⟩ := h
  exact ⟨c, rest ++ more, rfl, hc⟩

theorem Offerable.ne_nil (h : Offerable text) : text ≠ [] := by
  obtain ⟨c, rest, rfl, -⟩ := h
  exact cons_ne_nil c rest

theorem site_insertSubst (htext : Offerable text) (override : Bool) :
    Ends (insertSubst inp text override) (site base r x start subst o)
      ((insertEntry inp.capacity subst ⟨text, override⟩).map
        fun subst => ((), site base r x start subst o)) := by
  obtain ⟨c, rest, rfl, hcomma, hcolon, -⟩ := htext
  have hcomma : (c :: rest).head? ≠ some ',' := fun h => hcomma (Option.some.inj h)
  have hcolon : (c :: rest).head? ≠ some ':' := fun h => hcolon (Option.some.inj h)
  unfold insertEntry
  refine .bind .get ?_
  by_cases hnew : override = true ∨ subst.getLast? ≠ some (c :: rest)
  · rw [if_pos hnew]
    refine .ite_true ⟨cons_ne_nil c rest, hnew⟩
      (.bind (returns_nutsAssert (decide_eq_true hcomma)) (.ite_true hcolon ?_))
    by_cases hroom : subst.length < inp.capacity
    · rw [if_pos hroom]
      exact .bind (returns_nutsAssert (decide_eq_true hroom)) Returns.modify
    · rw [if_neg hroom]
      refine .bind_error ?_
      rw [nutsAssert, if_neg]
      · rfl
      · exact fun h => hroom (of_decide_eq_true h)
  · rw [if_neg hnew]
    exact .ite_false (fun h => hnew h.2) Returns.pure

theorem qualifierSubsts_other {r : OutRef} {from_ i : Nat} {passed : Bool} {c : Char}
    (h : passed = true ∨ c ≠ '*' ∧ c ≠ '&') (rest : Text) :
    qualifierSubsts inp r from_ passed i (c :: rest) =
      qualifierSubsts inp r from_ false (i + 1) rest := by
  rw [qualifierSubsts, if_neg]
  rintro ⟨rfl, hc⟩
  rcases h with h | ⟨hstar, hamp⟩
  · exact Bool.false_ne_true h
  · exact hc.elim hstar hamp

theorem qualifierSubsts_others {r : OutRef} {from_ : Nat} {c : Char} {cs : Text}
    (hcs : ∀ d ∈ c :: cs, d ≠ '*' ∧ d ≠ '&') (rest : Text) :
    ∀ {passed : Bool} {i : Nat}, qualifierSubsts inp r from_ passed i (c :: cs ++ rest) =
      qualifierSubsts inp r from_ false (i + (c :: cs).length) rest := by
  induction cs generalizing c with
  | nil =>
    exact qualifierSubsts_other (.inr (hcs c mem_cons_self)) rest
  | cons d cs ih =>
    intro passed i
    obtain ⟨hc, hcs⟩ := forall_mem_cons.mp hcs
    rw [cons_append, qualifierSubsts_other (.inr hc), ih hcs, length_cons (a := c),
      Nat.add_assoc, Nat.add_comm 1]

theorem CvQualifier.not_symbol (q : CvQualifier) : ∀ c ∈ q.text, c ≠ '*' ∧ c ≠ '&' := by
  have hall : q.text.all (fun c => c ≠ '*' ∧ c ≠ '&') = true := by
    cases q <;> rfl
  exact fun c hc => of_decide_eq_true (all_eq_true.mp hall c hc)

theorem cvText_not_symbol (cvs : List CvQualifier) : ∀ c ∈ cvText cvs, c ≠ '*' ∧ c ≠ '&' := by
  intro c hc
  obtain ⟨q, -, hc⟩ := List.mem_flatMap.mp hc
  exact q.not_symbol c hc

theorem site_qualifierSubsts (hr : r < base.outs.length) (marks : List Mark) :
    ∀ {passed : Bool} {text : Text} {subst : List Text}, Offerable text →
      o.buf = before ++ (text ++ marksText marks) →
      Ends (qualifierSubsts inp r before.length passed (before.length + text.length)
          (marksText marks)) (site base r x start subst o)
        ((insertAll inp.capacity subst (asEntries (loopOffers passed text marks))).map
          fun subst => ((), site base r x start subst o)) := by
  induction marks with
  | nil =>
    intro passed text subst _ _
    exact Returns.pure
  | cons m marks ih =>
    intro passed text subst htext hbuf
    have hnext : o.buf = before ++ (text ++ m.text ++ marksText marks) := by
      rw [hbuf, marksText, flatMap_cons, append_assoc text]
      rfl
    have hlen : before.length + text.length + m.text.length =
        before.length + (text ++ m.text).length := by
      rw [length_append, Nat.add_assoc]
    cases m with
    | qualifiers q more =>
      obtain ⟨c, hc⟩ := q.text_cons
      have hcons : cvText (q :: more) = ' ' :: (c ++ cvText more) := by
        rw [cvText, flatMap_cons, hc]
        rfl
      have hskip : qualifierSubsts inp r before.length passed (before.length + text.length)
          (' ' :: (c ++ cvText more) ++ marksText marks) = _ :=
        qualifierSubsts_others (hcons ▸ cvText_not_symbol (q :: more)) (marksText marks)
      rw [← hcons, show cvText (q :: more) = (Mark.qualifiers q more).text from rfl, hlen] at hskip
      rw [show marksText (.qualifiers q more :: marks) =
        (Mark.qualifiers q more).text ++ marksText marks from flatMap_cons, hskip]
      exact ih (htext.append _) hnext
    | indirection kind =>
      rw [show marksText (.indirection kind :: marks) =
        kind.symbol :: marksText marks from flatMap_cons]
      cases passed with
      | true =>
        rw [qualifierSubsts_other (.inl rfl)]
        exact hlen ▸ ih (htext.append _) hnext
      | false =>
        have hsymbol : kind.symbol = '*' ∨ kind.symbol = '&' := by cases kind <;> decide
        have hlast : o.buf = before ++ (text ++ (kind.symbol :: marksText marks)) := by
          rw [hbuf, show marksText (.indirection kind :: marks) =
            kind.symbol :: marksText marks from flatMap_cons]
        have hi : before.length + text.length - before.length = text.length := by omega
        have hi' : before.length + text.length + 1 - before.length =
            (text ++ [kind.symbol]).length := by
          rw [length_append, length_singleton]
          omega
        show Ends _ _ ((insertAll inp.capacity subst (⟨text, false⟩ ::
          ⟨text ++ [kind.symbol], false⟩ :: asEntries _)).map _)
        simp only [insertAll]
        rw [← except_map_bind]
        refine .ite_true ⟨rfl, hsymbol⟩ (.bind (hi ▸ site_substr hr hlast)
          (.bind_map (site_insertSubst htext false) fun subst _ => ?_))
        rw [← except_map_bind]
        refine .bind (hi' ▸ site_substr hr hnext)
          (.bind_map (site_insertSubst (htext.append _) false) fun subst _ => ?_)
        exact hlen ▸ ih (htext.append _) hnext

def Output.qualified (o : Output) (marks : List Mark) : Output :=
  if marks = [] then o
  else { o with
    buf := o.buf ++ marksText marks
    allocated := true
    spaceOnce := false
    substIndex := none }

theorem marksText_cons (m : Mark) (marks : List Mark) :
    ∃ c rest, marksText (m :: marks) = c :: rest ∧ c ≠ '>' ∧ c ≠ '<' := by
  cases m with
  | indirection kind =>
    refine ⟨kind.symbol, marksText marks, flatMap_cons, ?_⟩
    cases kind <;> decide
  | qualifiers q more =>
    obtain ⟨c, hc⟩ := q.text_cons
    refine ⟨' ', c ++ cvText more ++ marksText marks, ?_, by decide, by decide⟩
    rw [marksText, flatMap_cons, Mark.text, cvText, flatMap_cons, hc]
    rfl

theorem append_marks (o : Output) (m : Mark) (marks : List Mark) :
    { ({ o with delim := none } : Output).append (marksText (m :: marks)) with delim := o.delim } =
      o.qualified (m :: marks) := by
  obtain ⟨c, rest, htext, hgt, hlt⟩ := marksText_cons m marks
  simp [Output.append, Output.appendAt, Output.separate, Output.qualified, htext, hgt, hlt]

theorem site_applyQualifiers (hr : r < base.outs.length)
    (htext : Offerable text) (hbuf : o.buf = before ++ text) (marks : List Mark) :
    Ends (applyQualifiers inp r (marksText marks) (some before.length))
      (site base r x start subst o)
      ((insertAll inp.capacity subst (asEntries (offers text marks))).map
        fun subst => ((), site base r x start subst (o.qualified marks))) := by
  cases marks with
  | nil => exact .ite_true rfl Returns.pure
  | cons m marks =>
    obtain ⟨c, rest, hcons, hgt, hlt⟩ := marksText_cons m marks
    have hnil : marksText (m :: marks) ≠ [] := hcons ▸ cons_ne_nil c rest
    have hout : (({ o with delim := none } : Output).append (marksText (m :: marks))).buf =
        before ++ (text ++ marksText (m :: marks)) := by
      refine (congrArg Output.buf (append_marks o m marks)).trans ?_
      rw [Output.qualified, if_neg (cons_ne_nil m marks), ← append_assoc, ← hbuf]
    have hsize : ({ o with delim := none } : Output).size = before.length + text.length := by
      rw [Output.size, hbuf, length_append]
    have hstart : before.length < ({ o with delim := none } : Output).size := by
      have hpos := length_pos_iff.mpr htext.ne_nil
      omega
    have hdrop : (({ o with delim := none } : Output).append (marksText (m :: marks))).buf.drop
        (before.length + text.length + 1) = rest := by
      rw [hout, ← append_assoc, ← length_append, ← drop_drop, drop_left, hcons]
      rfl
    have hfirst : qualifierSubsts inp r before.length false (before.length + text.length + 1) rest =
        qualifierSubsts inp r before.length true (before.length + text.length)
          (marksText (m :: marks)) := by
      rw [hcons, qualifierSubsts_other (.inl rfl)]
    rw [← append_marks, offers, if_neg (cons_ne_nil m marks)]
    refine .ite_false hnil (site_withDelim _ hr hr (.bind (site_output hr) (.bind (site_append hr)
      (.bind (site_output hr) (.ite_true hstart ?_)))))
    rw [hsize, hdrop, hfirst, asEntries, map_append, insertAll_append, ← except_map_bind]
    generalize ({ o with delim := none } : Output).append (marksText (m :: marks)) = o' at hout ⊢
    have hwhole : o'.size - before.length = (text ++ marksText (m :: marks)).length := by
      rw [Output.size, hout, length_append, Nat.add_sub_cancel_left]
    refine .bind_map (site_qualifierSubsts hr (m :: marks) htext hout) fun subst _ => ?_
    rw [hwhole]
    have hbuf : o'.buf = before ++ (text ++ marksText (m :: marks) ++ []) := by
      rw [append_nil]
      exact hout
    refine .bind (site_substr hr hbuf) ?_
    rw [map_singleton, insertAll_singleton]
    exact site_insertSubst (htext.append _) false

end ZeroBugs.Unmangle
