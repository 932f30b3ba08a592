import ZeroBugs.Unmangle.ParamRuns

/-! # Runs that stray -/
namespace ZeroBugs.Unmangle

open Lib Lib.Traced

variable {inp : Input} {α β : Type} {final : List Text}

def Strays (final : List Text) (f : M α) (s : State) : Prop :=
  ∀ a s', (f s).2 = .ok (a, s') → ¬s'.subst <+: final

namespace Strays

variable {f : M α} {g : α → M β} {s s' : State} {a : α}

theorem of_ends {g : M α} (h : Ends f s (g s').2) (hg : Strays final g s') : Strays final f s :=
  fun a t hrun => hg a t (h.symm.trans hrun)

theorem of_error {e : Stop} (h : Ends f s (.error e)) : Strays final f s :=
  fun _ _ hrun => nomatch h.symm.trans hrun

theorem bind_returns (hf : Returns f s a s') (hg : Strays final (g a) s') :
    Strays final (f >>= g) s := of_ends (Ends.bind hf rfl) hg

theorem bind_grows (hf : Strays final f s) (hg : ∀ a, Grows (g a)) :
    Strays final (f >>= g) s := by
  intro b t hrun hfinal
  rw [snd_bind] at hrun
  rcases hmid : (f s).2 with e | ⟨a, mid⟩
  · rw [hmid] at hrun
    exact nomatch hrun
  · rw [hmid] at hrun
    exact hf a mid hmid ((hg a mid b t hrun).trans hfinal)

theorem ite_true {c : Prop} [Decidable c] {f g : M α} (hc : c) (h : Strays final f s) :
    Strays final (if c then f else g) s := by
  rw [if_pos hc]
  exact h

theorem ite_false {c : Prop} [Decidable c] {f g : M α} (hc : ¬c) (h : Strays final g s) :
    Strays final (if c then f else g) s := by
  rw [if_neg hc]
  exact h

end Strays

section Sites

variable {call : Calls} {base : State} {r : OutRef} {x k depth indx : Nat} {start : Option Nat}
  {subst : List Text} {o : Output} {name rest : Text} {f : M α}

theorem strays_withPosition (hr : r < base.outs.length)
    (h : Strays final f (site base r x start subst o.pushed)) :
    Strays final (withPosition r f) (site base r x start subst o) := by
  by_cases hroom : o.positions.length < maxPositions
  · exact .bind_returns (site_output hr) (.bind_returns .emit (.ite_true hroom
      (.bind_returns (site_updateOutput hr) (.bind_grows h fun _ => Growing.grows))))
  · exact .of_error (site_withPosition_full hr hroom)

theorem strays_withDelim (hr : r < base.outs.length) {delim : Option Text → Option Text}
    (h : Strays final f (site base r x start subst { o with delim := delim o.delim })) :
    Strays final (withDelim r delim f) (site base r x start subst o) :=
  .bind_returns (site_output hr) (.bind_returns (site_updateOutput hr) (.bind_grows h fun _ =>
    Growing.grows))

theorem returns_isAnonymousName_global {s : State} (hglobal : "_GLOBAL__N".toList <+: name)
    (hx : At inp s.pos (name ++ rest)) : Returns (isAnonymousName inp name.length) s true s := by
  obtain ⟨tail, rfl⟩ := hglobal
  have hstart : At inp s.pos ("_GLOBAL_".toList ++ '_' :: 'N' :: (tail ++ rest)) := by
    exact hx
  have hscore := hstart.append
  have hlen : 8 ≤ ("_GLOBAL__N".toList ++ tail).length := by
    rw [List.length_append]
    exact Nat.le_trans (by decide) (Nat.le_add_right _ _)
  have hseven : s.pos + 7 ≤ inp.size := by
    have hle : s.pos + 8 ≤ inp.size := hscore.1
    omega
  have hmark : inp.char (s.pos + 8) = '.' ∨ inp.char (s.pos + 8) = '_' ∨
      inp.char (s.pos + 8) = '$' := .inr (.inl hscore.char)
  have hN : inp.char (s.pos + 9) = 'N' := hscore.next.char
  refine .bind returns_getPos (.ite_true hlen (.bind (returns_read hseven) (.ite_true ?_
    (.bind (returns_read hscore.1) (.ite_true hmark (.bind (returns_read hscore.next.1) ?_))))))
  · rw [hstart.2]
    rfl
  · rw [decide_eq_true hN]
    exact .pure

theorem offerable_anonymousPrefix : Offerable anonymousPrefix :=
  ⟨'(', "anonymous namespace)".toList, rfl, by decide, by decide, by decide⟩

theorem strays_noteAnonymous {lead : Text} {delim : Option Text} {index : Option Nat}
    (hr : r < base.outs.length) (hplain : base.inPrefix = false)
    (hfinal : ¬subst ++ [anonymousPrefix] <+: final) :
    Strays final (noteAnonymous inp r)
      (site base r x start subst (wrote (k + 1) lead anonymousPrefix delim index)) := by
  have hsite : (site base r x start subst
      (wrote (k + 1) lead anonymousPrefix delim index)).inPrefix ≠ true := by
    show base.inPrefix ≠ true
    rw [hplain]
    exact Bool.false_ne_true
  have hbuf : (wrote (k + 1) lead anonymousPrefix delim index).buf =
      lead ++ (anonymousPrefix ++ []) := by
    rfl
  refine .bind_returns .get (.ite_false hsite (.bind_returns (site_position hr)
    (.bind_returns (site_substr hr hbuf) fun a s' hrun => ?_)))
  rw [show (insertSubst inp anonymousPrefix true _).2 = _ from
    site_insertSubst offerable_anonymousPrefix true, insertEntry, if_pos (.inl rfl)] at hrun
  split at hrun
  · obtain ⟨-, rfl⟩ := Prod.mk.inj (Except.ok.inj hrun)
    exact hfinal
  · cases hrun

section Anonymous

variable [hcall : call.Grow] (hb : Ready base r) (hplain : base.inPrefix = false)
  (hfits : inp.size < 2 ^ 64) (hname : IsIdentifier name)
  (hglobal : "_GLOBAL__N".toList <+: name) (hfinal : ¬subst ++ [anonymousPrefix] <+: final)
include hcall hb hplain hfits hname hglobal hfinal

section

variable (ho : Fresh k o) (hx : At inp x (mangledPart name ++ rest))
include ho hx

theorem strays_parseSourceName :
    Strays final (parseSourceName inp call r) (site base r x start subst o) := by
  have htext : At inp (x + (Nat.toDigits 10 name.length).length) (name ++ rest) := by
    rw [mangledPart, List.append_assoc] at hx
    exact hx.append
  have hnote : Strays final (noteAnonymous inp r)
      (site base r (x + (Nat.toDigits 10 name.length).length) start subst
        (o.pushed.append anonymousPrefix)) := by
    rw [ho.pushed.append offerable_anonymousPrefix]
    exact strays_noteAnonymous hb.out hplain hfinal
  exact .of_ends (ends_parseSourceName hfits hname hx rfl) (.bind_returns
    (returns_isAnonymousName_global hglobal htext) (.ite_true rfl (strays_withPosition hb.out
      (.bind_returns (site_append hb.out) (.bind_grows hnote fun _ => Growing.grows)))))

theorem strays_parseName :
    Strays final (parseName inp call r NameFlags.new) (site base r x start subst o) := by
  have hpos := length_mangledPart_pos name
  have hsize := hx.size_eq
  rw [List.length_append] at hsize
  have hinside : x < inp.size := by omega
  have hunqualified : Strays final (parseUnqualifiedName inp call r NameFlags.new)
      (site base r x start subst o.pushed) :=
    .of_ends (ends_parseUnqualifiedName hb hx rfl) (.bind_grows
      (strays_parseSourceName hb hplain hfits hname hglobal hfinal ho.pushed hx)
      fun _ => Growing.grows)
  have htemplate : Strays final (parseTemplateName inp call r NameFlags.new)
      (site base r x start subst o.pushed) :=
    .bind_grows (.bind_returns returns_getPos (.ite_true hinside hunqualified)) fun _ =>
      Growing.grows
  exact .bind_returns (.bind returns_getPos .pure) (.ite_true (decide_eq_true hinside)
    (strays_withPosition hb.out (.of_ends (ends_parseNameKind hx rfl) htemplate)))

theorem strays_parseNamedType {quals : Text} :
    Strays final (parseNamedType inp call r false quals) (site base r x start subst o) := by
  obtain ⟨d, digits, hdigits, hd⟩ := exists_digit name.length
  have hchar := hx
  rw [mangledPart, hdigits] at hchar
  exact .bind_returns (returns_parseBuiltinType_none (.inl hd) hchar) (.ite_true rfl
    (.bind_grows (strays_parseName hb hplain hfits hname hglobal hfinal ho hx) fun _ =>
      Growing.grows))

end

end Anonymous

theorem strays_parseType {c : Char} {quals : Text} (hr : r < base.outs.length)
    (hx : At inp x (c :: rest))
    (h : Strays final (do
        let c ← peek inp
        parseTypeKind inp call r false indx quals c)
      (site base r x start subst (o.pushed.forParam indx))) :
    Strays final (parseType inp call r false indx quals) (site base r x start subst o) :=
  .bind_returns (returns_isInside hx) (.ite_true rfl (strays_withPosition hr
    (strays_withDelim hr h)))

theorem strays_type (hb : Ready base r) (hplain : base.inPrefix = false)
    (hfits : inp.size < 2 ^ 64) (hname : IsIdentifier name)
    (hglobal : "_GLOBAL__N".toList <+: name) (hfinal : ¬subst ++ [anonymousPrefix] <+: final)
    (marks : List Mark) :
    ∀ {behind : List Mark} {depth x k : Nat} {o : Output}, Separated marks → Fresh k o →
      marks.length < depth → At inp x (marksCode marks ++ (mangledPart name ++ rest)) →
      Strays final ((calls inp depth).type r false indx (marksText behind))
        (site base r x start subst o) := by
  induction marks with
  | nil =>
    intro behind depth x k o _ ho hdepth hx
    obtain ⟨depth, rfl⟩ := Nat.exists_eq_succ_of_ne_zero (Nat.ne_of_gt (Nat.zero_lt_of_lt hdepth))
    obtain ⟨d, digits, hdigits, hd⟩ := exists_digit name.length
    have hx : At inp x (mangledPart name ++ rest) := hx
    have hchar := hx
    rw [mangledPart, hdigits] at hchar
    have hc : startsNamed d = true := by rw [startsNamed, hd]; rfl
    exact strays_parseType hb.out hchar (.of_ends (ends_parseTypeKind_named hc hchar rfl)
      (strays_parseNamedType hb hplain hfits hname hglobal hfinal
        (ho.pushed.forParam indx) hx))
  | cons m marks ih =>
    intro behind depth x k o hsep ho hdepth hx
    obtain ⟨depth, rfl⟩ := Nat.exists_eq_succ_of_ne_zero (Nat.ne_of_gt (Nat.zero_lt_of_lt hdepth))
    obtain ⟨d, text, hcode⟩ := m.code_cons
    rw [marksCode_cons, List.append_assoc] at hx
    have hchar := hx
    rw [hcode] at hchar
    have hinner : Strays final ((calls inp depth).type r false indx (marksText (m :: behind)))
        (site base r (x + m.code.length) start subst (o.pushed.forParam indx)) :=
      ih hsep.tail (ho.pushed.forParam indx) (Nat.lt_of_succ_lt_succ hdepth) hx.append
    have hmark : At inp x (m.code ++ (marksCode marks ++
        ((TypeBase.named (.unscoped name hname)).code ++ rest))) := hx
    exact strays_parseType hb.out hchar (.of_ends (ends_parseTypeKind_mark hsep hmark rfl) hinner)

end Sites

end ZeroBugs.Unmangle
