import ZeroBugs.Unmangle.Sites
import ZeroBugs.Unmangle.TypeCodes

/-! # Names at a site -/
namespace ZeroBugs.Unmangle

open Lib Lib.Traced List

variable {inp : Input} {call : Calls} {base : State} {r : OutRef} {x : Nat} {start : Option Nat}
  {subst : List Text} {o : Output} {c : Char} {rest text : Text}

theorem IsIdentifier.offerable (h : IsIdentifier text) : Offerable text := by
  obtain ⟨c, name, rfl, hc⟩ := h.cons
  exact ⟨c, name, rfl, ne_of_separates hc (by decide), ne_of_separates hc (by decide),
    ne_of_separates hc (by decide)⟩

/-- The name `text` is not taken for that of an anonymous namespace when `rest` follows. -/
def Ordinary (text rest : Text) : Prop := 8 ≤ text.length → ¬"_GLOBAL__N".toList <+: text ++ rest

theorem IsPart.ordinary (h : IsPart text) (rest : Text) : Ordinary text rest := by
  intro hlen hglobal
  have hstart : "_GLOBAL_".toList <+: text ++ rest :=
    List.IsPrefix.trans (by decide) hglobal
  exact h.2 (prefix_of_prefix_length_le hstart (prefix_append text rest) hlen)

variable {s : State}

theorem peek_at (hx : x ≤ inp.size) (hs : s.pos = x) :
    Returns (peek inp) s (inp.char x) s := by
  subst hs
  exact .bind returns_getPos (returns_read hx)

theorem At.char_eq (h : At inp x rest) : inp.char x = rest.headD '\x00' := by
  cases rest with
  | nil =>
    rw [Input.char, getD_eq_getElem?_getD, h.eq_size]
    simp [Input.size]
  | cons c rest => exact h.char

theorem returns_isAt_ne (hx : At inp s.pos rest) (hc : rest.head? ≠ some c) :
    Returns (isAt inp c) s false s := by
  cases rest with
  | nil => exact returns_isAt_end hx
  | cons d rest =>
    have hd : d ≠ c := fun h => hc (congrArg some h)
    refine .bind returns_getPos (.ite_true hx.lt (.bind (returns_read hx.1) ?_))
    rw [hx.char, decide_eq_false hd]
    exact .pure

theorem isAlphanum_ne (h : c.isAlphanum = true) : c ≠ '.' ∧ c ≠ '_' ∧ c ≠ '$' :=
  ⟨ne_of_separates h (by decide), ne_of_separates h (by decide), ne_of_separates h (by decide)⟩

theorem drop_eight (hname : IsIdentifier text) (hrest : ∀ c ∈ rest.head?, c.isAlphanum = true)
    (hlen : 8 ≤ text.length) {tail : Text} (htail : (text ++ rest).drop 8 = c :: tail)
    (hmark : c = '.' ∨ c = '_' ∨ c = '$') : c = '_' := by
  have hnot : c.isAlphanum ≠ true := by
    intro h
    obtain ⟨hdot, hscore, hdollar⟩ := isAlphanum_ne h
    exact hmark.elim hdot fun h => h.elim hscore hdollar
  rw [drop_append_of_le_length hlen] at htail
  cases hdrop : text.drop 8 with
  | nil =>
    rw [hdrop, nil_append] at htail
    exact absurd (hrest c (by rw [htail]; rfl)) hnot
  | cons d tail' =>
    rw [hdrop, cons_append, List.cons.injEq] at htail
    have hmem : c ∈ text.drop 8 := by
      rw [hdrop, htail.1]
      exact mem_cons_self
    have hchar := hname.isIdentChar c (mem_of_mem_drop hmem)
    rw [Unmangle.isIdentChar, Bool.or_eq_true, decide_eq_true_eq] at hchar
    exact hchar.resolve_left hnot

theorem returns_isAnonymousName_ordinary (hname : IsIdentifier text)
    (hord : Ordinary text rest) (hrest : ∀ c ∈ rest.head?, c.isAlphanum = true)
    (hx : At inp s.pos (text ++ rest)) : Returns (isAnonymousName inp text.length) s false s := by
  refine .bind returns_getPos ?_
  by_cases hlen : 8 ≤ text.length
  · have hsize := hx.size_eq
    rw [length_append] at hsize
    refine .ite_true hlen (.bind (returns_read (by omega)) ?_)
    by_cases hglobal : (inp.name.drop s.pos).take 8 = "_GLOBAL_".toList
    · have htail : At inp (s.pos + 8) ((text ++ rest).drop 8) := by
        refine ⟨by omega, ?_⟩
        rw [← hx.2, drop_drop]
      have hsplit : text ++ rest = "_GLOBAL_".toList ++ (text ++ rest).drop 8 := by
        rw [← hglobal, hx.2, take_append_drop]
      refine .ite_true hglobal (.bind (returns_read htail.1) ?_)
      rw [htail.char_eq]
      cases htext : (text ++ rest).drop 8 with
      | nil => exact .ite_false (by decide) .pure
      | cons c tail =>
        rw [htext] at htail hsplit
        by_cases hmark : c = '.' ∨ c = '_' ∨ c = '$'
        · obtain rfl := drop_eight hname hrest hlen htext hmark
          have hnot : tail.headD '\x00' ≠ 'N' := by
            intro hN
            cases tail with
            | nil => exact absurd hN (by decide)
            | cons d tail =>
              obtain rfl : d = 'N' := hN
              exact hord hlen (hsplit ▸ ⟨tail, rfl⟩)
          refine .ite_true hmark (.bind (returns_read htail.next.1) ?_)
          rw [htail.next.char_eq, decide_eq_false hnot]
          exact .pure
        · exact .ite_false hmark .pure
    · exact .ite_false hglobal .pure
  · exact .ite_false hlen .pure

structure Ready (base : State) (r : OutRef) : Prop where
  out : r < base.outs.length
  depth : base.templateDepth = 0
  status : base.status = .success
  anonymous : base.anonymous = false

theorem Ready.setPrefix (h : Ready base r) (b : Bool) :
    Ready { base with inPrefix := b } r := ⟨h.out, h.depth, h.status, h.anonymous⟩

theorem site_setSourceName (hb : Ready base r) {n : Nat} :
    Returns (setSourceName n) (site base r x start subst o) ()
      (site base r x (some n) subst o) := by
  have hdepth : (site base r x start subst o).templateDepth = 0 := hb.depth
  show Except.ok _ = Except.ok _
  dsimp only
  rw [if_pos hdepth]
  rfl

theorem site_isSuccess (hb : Ready base r) :
    Returns isSuccess (site base r x start subst o) true (site base r x start subst o) := by
  have hstatus : (site base r x start subst o).status = .success := hb.status
  refine .bind .get ?_
  rw [decide_eq_true hstatus]
  exact .pure

theorem site_appendName (hb : Ready base r) {name : Text} (hx : At inp x (c :: name ++ rest)) :
    Returns (appendName inp r (c :: name).length) (site base r x start subst o) ()
      (site base r x start subst (o.append (c :: name))) := by
  have hlen : (c :: name).length ≤ inp.size - x := by
    have hsize := hx.size_eq
    rw [length_append] at hsize
    omega
  have hupdate : Returns (updateOutput r (·.appendAt (inp.char x)
        ((inp.name.drop x).take (c :: name).length))) (site base r x start subst o) ()
      (site base r x start subst (o.append (c :: name))) := by
    rw [At.char hx, hx.2, take_left]
    exact site_updateOutput hb.out
  refine .bind returns_getPos (.bind (returns_read hx.1) (.bind (a := ()) ?_ hupdate))
  refine .ite_true (decide_eq_true (Nat.succ_ne_zero _)) (.bind (returns_read (Nat.le_refl _)) ?_)
  exact returns_nutsAssert (by rw [Bool.or_eq_true]; exact .inr (decide_eq_true hlen))

theorem ends_parseSourceName {out : Except Stop (Unit × State)} (hfits : inp.size < 2 ^ 64)
    (hname : IsIdentifier text) (hx : At inp x (mangledPart text ++ rest))
    (h : Ends (do
        let anonymous ← isAnonymousName inp text.length
        if anonymous then parseAnonymousName inp call r text.length
        else
          appendName inp r text.length
          moveTo (x + (mangledPart text).length))
      (site base r (x + (Nat.toDigits 10 text.length).length) start subst o) out) :
    Ends (parseSourceName inp call r) (site base r x start subst o) out := by
  obtain ⟨c, name, rfl, hc⟩ := hname.cons
  obtain ⟨d, digits, htext, hd⟩ := exists_digit (c :: name).length
  rw [mangledPart, append_assoc] at hx
  have hfirst := hx
  rw [htext] at hfirst
  have hend := hx.append.append
  have hlen : (c :: name).length < 2 ^ 64 := by
    have hle := hend.1
    omega
  have hjump : sizeT (x + (Nat.toDigits 10 (c :: name).length).length + (c :: name).length) =
      x + (mangledPart (c :: name)).length := by
    rw [sizeT, Nat.mod_eq_of_lt (Nat.lt_of_le_of_lt hend.1 hfits), mangledPart,
      length_append, Nat.add_assoc]
  have hnumber := returns_parseUnsigned (s := site base r x start subst o) hlen
    (not_isDigit_of_isIdentStart hc) hx
  refine .bind (returns_assertInside hfirst) (.bind hnumber (.bind returns_getPos ?_))
  refine .ite_true ?_ (.bind .emit ?_)
  · exact Nat.le_trans (Nat.mod_le _ _) hend.1
  · rw [← hjump] at h
    exact h

theorem site_parseSourceName (hb : Ready base r) (hfits : inp.size < 2 ^ 64)
    (hname : IsIdentifier text) (hord : Ordinary text rest)
    (hrest : ∀ c ∈ rest.head?, c.isAlphanum = true) (hx : At inp x (mangledPart text ++ rest)) :
    Returns (parseSourceName inp call r) (site base r x start subst o) ()
      (site base r (x + (mangledPart text).length) start subst (o.append text)) := by
  have htext : At inp (x + (Nat.toDigits 10 text.length).length) (text ++ rest) := by
    rw [mangledPart, append_assoc] at hx
    exact hx.append
  obtain ⟨c, name, rfl, -⟩ := hname.cons
  exact ends_parseSourceName hfits hname hx (.bind
    (returns_isAnonymousName_ordinary hname hord hrest htext) (.ite_false Bool.false_ne_true
      (.bind (site_appendName hb htext) returns_moveTo)))

variable {flags : NameFlags}

theorem ends_parseUnqualifiedName (hb : Ready base r)
    {out : Except Stop ((Bool × NameFlags) × State)} (hx : At inp x (mangledPart text ++ rest))
    (h : Ends (do
        parseSourceName inp call r
        let success ← isSuccess
        pure (success, if success then { flags with isSource := true } else flags))
      (site base r x (some (o.size + if o.delim.isSome then 2 else 0)) subst o) out) :
    Ends (parseUnqualifiedName inp call r flags) (site base r x start subst o) out := by
  obtain ⟨d, digits, htext, hd⟩ := exists_digit text.length
  have hfirst := hx
  rw [mangledPart, htext] at hfirst
  have hne : ∀ c : Char, c.isDigit = false → d ≠ c := fun c hc => ne_of_separates hd hc
  exact .bind (returns_assertInside hfirst) (.bind (returns_peek hfirst)
    (.ite_false (hne 'C' (by decide)) (.ite_false (hne 'D' (by decide))
      (.ite_false (hne 'E' (by decide)) (.ite_false (hne 'L' (by decide)) (.ite_true hd
        (.bind (site_output hb.out) (.bind (site_setSourceName hb) h))))))))

theorem site_parseUnqualifiedName (hb : Ready base r)
    (hfits : inp.size < 2 ^ 64) (hname : IsIdentifier text) (hord : Ordinary text rest)
    (hrest : ∀ c ∈ rest.head?, c.isAlphanum = true) (hx : At inp x (mangledPart text ++ rest)) :
    Returns (parseUnqualifiedName inp call r flags) (site base r x start subst o)
      (true, { flags with isSource := true })
      (site base r (x + (mangledPart text).length)
        (some (o.size + if o.delim.isSome then 2 else 0)) subst (o.append text)) :=
  ends_parseUnqualifiedName hb hx (.bind (site_parseSourceName hb hfits hname hord hrest hx)
    (.bind (site_isSuccess hb) Returns.pure))

def Output.lead (o : Output) : Text := o.buf ++ o.delim.getD []

/-- An output with `k` positions where the next text comes. -/
structure Fresh (k : Nat) (o : Output) : Prop where
  positions : o.positions = List.replicate k o.size
  spaceOnce : o.spaceOnce = false
  delim : ∀ d ∈ o.delim, d.length = 2

def wrote (k : Nat) (lead text : Text) (delim : Option Text) (index : Option Nat) : Output :=
  ⟨lead ++ text, true, delim, false, index, List.replicate k lead.length⟩

section Fresh

variable {k : Nat} {lead more : Text} {delim : Option Text} {index : Option Nat}

theorem Fresh.pushed (h : Fresh k o) : Fresh (k + 1) o.pushed :=
  ⟨by rw [Output.pushed, h.positions]; rfl, h.spaceOnce, h.delim⟩

theorem Fresh.length (h : Fresh k o) : o.positions.length = k := by
  rw [h.positions, length_replicate]

theorem Fresh.append (h : Fresh k o) (htext : Offerable text) :
    o.append text = wrote k o.lead text none none := by
  obtain ⟨c, name, rfl, -, -, hc⟩ := htext
  obtain ⟨buf, allocated, delim, spaceOnce, substIndex, positions⟩ := o
  obtain rfl : positions = List.replicate k buf.length := h.positions
  obtain rfl : spaceOnce = false := h.spaceOnce
  cases delim with
  | none => simp [Output.append, Output.appendAt, Output.separate, wrote, Output.lead, hc]
  | some d =>
    have hlen : d.length = 2 := h.delim d rfl
    simp [Output.append, Output.appendAt, Output.separate, wrote, Output.lead, Output.size,
      Output.updatePos, hlen]

theorem wrote_append (htext : Offerable text) (hmore : Offerable more) :
    (wrote k lead text (some "::".toList) index).append more =
      wrote k lead (text ++ "::".toList ++ more) none none := by
  have hpos : ∀ p ∈ List.replicate k lead.length, p ≠ (lead ++ text).length := by
    intro p hp
    have hnil := length_pos_iff.mpr htext.ne_nil
    rw [(List.mem_replicate.mp hp).2, length_append]
    omega
  have hupdate : (wrote k lead text (some "::".toList) index).updatePos =
      List.replicate k lead.length := by
    exact map_congr_left (fun p hp => if_neg (hpos p hp)) |>.trans (map_id _)
  have hnil := hmore.ne_nil
  simp only [Output.append, Output.appendAt, Output.separate, wrote] at hupdate ⊢
  simpa [hnil] using hupdate

end Fresh

section Name

variable {k : Nat}

theorem Fresh.length_lead (h : Fresh k o) :
    o.size + (if o.delim.isSome then 2 else 0) = o.lead.length := by
  rw [Output.lead, length_append, Output.size]
  cases hd : o.delim with
  | none => rfl
  | some d => exact congrArg _ (h.delim d hd).symm

theorem site_unqualified_first (hb : Ready base r) (hfits : inp.size < 2 ^ 64)
    (hname : IsIdentifier text) (hord : Ordinary text rest)
    (hrest : ∀ c ∈ rest.head?, c.isAlphanum = true) (ho : Fresh k o)
    (hx : At inp x (mangledPart text ++ rest)) :
    Returns (parseUnqualifiedName inp call r NameFlags.new) (site base r x start subst o)
      (true, sourceFlags)
      (site base r (x + (mangledPart text).length) (some o.lead.length) subst
        (wrote k o.lead text none none)) := by
  rw [← ho.append hname.offerable, ← ho.length_lead]
  exact site_parseUnqualifiedName hb hfits hname hord hrest hx

theorem ends_parseNameKind {out : Except Stop ((Bool × NameFlags) × State)}
    (hx : At inp s.pos (mangledPart text ++ rest))
    (h : Ends (parseTemplateName inp call r flags) s out) :
    Ends (do
      let c ← peek inp
      parseNameKind inp call r flags c) s out := by
  obtain ⟨d, digits, hdigits, hd⟩ := exists_digit text.length
  rw [mangledPart, hdigits] at hx
  have hne : ∀ c : Char, c.isDigit = false → d ≠ c := fun c hc => ne_of_separates hd hc
  exact .bind (returns_peek hx) (.ite_false (hne 'N' (by decide)) (.ite_false (hne 'Z' (by decide))
    (.ite_false (hne 'S' (by decide)) h)))

theorem site_parseName (hb : Ready base r) (hfits : inp.size < 2 ^ 64)
    (hname : IsIdentifier text) (hord : Ordinary text rest)
    (hrest : ∀ c ∈ rest.head?, c.isAlphanum = true) (hargs : rest.head? ≠ some 'I')
    (ho : Fresh k o) (hx : At inp x (mangledPart text ++ rest)) :
    Ends (parseName inp call r NameFlags.new) (site base r x start subst o)
      ((withinPositions (k + 1) (.ok subst)).map fun subst =>
        ((true, sourceFlags), site base r (x + (mangledPart text).length) (some o.lead.length) subst
          (wrote k o.lead text none none))) := by
  have hpos := length_mangledPart_pos text
  have hsize := hx.size_eq
  rw [length_append] at hsize
  have hinside : x < inp.size := by omega
  have hkind : Returns (parseTemplateName inp call r NameFlags.new)
      (site base r x start subst o.pushed) (true, sourceFlags)
      (site base r (x + (mangledPart text).length) (some o.lead.length) subst
        (wrote (k + 1) o.lead text none none)) :=
    .bind (.bind returns_getPos (.ite_true hinside
      (site_unqualified_first hb hfits hname hord hrest ho.pushed hx))) (.ite_true rfl
        (.bind (returns_isAt_ne hx.append hargs) (.ite_false Bool.false_ne_true .pure)))
  have hscope : Ends (withPosition r (do
      let c ← peek inp
      parseNameKind inp call r NameFlags.new c)) (site base r x start subst o)
      ((withinPositions (o.positions.length + 1) (.ok subst)).map fun subst =>
        ((true, sourceFlags), site base r (x + (mangledPart text).length) (some o.lead.length) subst
          (wrote (k + 1) o.lead text none none).popped)) :=
    site_withPosition_last _ hb.out hb.out (ends_parseNameKind hx hkind)
  rw [ho.length] at hscope
  exact .bind (.bind returns_getPos .pure) (.ite_true (decide_eq_true hinside) hscope)

end Name

end ZeroBugs.Unmangle
