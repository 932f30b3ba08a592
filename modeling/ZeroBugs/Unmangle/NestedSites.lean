import ZeroBugs.Unmangle.NameSites

/-! # Nested names at a site -/
namespace ZeroBugs.Unmangle

open Lib Lib.Traced List

variable {inp : Input} {call : Calls} {base : State} {r : OutRef} {x : Nat} {start : Option Nat}
  {subst : List Text} {o : Output} {c : Char} {rest text : Text}

def lastStart (start : Option Nat) (lead text : Text) : List Text → Option Nat
  | [] => start
  | part :: parts =>
    lastStart (some (lead.length + text.length + 2)) lead (text ++ "::".toList ++ part) parts

variable {out : List Text → Except Stop (NameFlags × State)} {tail : Text}

section Nested

variable {k y : Nat} {lead part : Text} {start' : Option Nat} {flags : NameFlags}

theorem site_addAnonymous (hb : Ready base r) {len : Nat} :
    Returns (addAnonymous inp r len) (site base r x start subst o) ()
      (site base r x start subst o) := by
  have hnot : (site base r x start subst o).anonymous ≠ true := by
    show base.anonymous ≠ true
    rw [hb.anonymous]
    exact Bool.false_ne_true
  exact .bind .get (.bind (site_output hb.out) (.ite_false hnot .pure))

theorem site_prefixName_first (hb : Ready base r) (hfits : inp.size < 2 ^ 64)
    (hname : IsIdentifier text) (hord : Ordinary text rest)
    (hrest : ∀ c ∈ rest.head?, c.isAlphanum = true) (ho : Fresh (k + 1) o)
    (hx : At inp x (mangledPart text ++ rest)) :
    Returns (parsePrefixName inp call r ⟨true, false, false, false, NameFlags.new⟩)
      (site base r x start subst o) (some afterName, sourceFlags)
      (site base r (x + (mangledPart text).length) (some o.lead.length) subst
        (wrote (k + 1) o.lead text none none)) := by
  exact .bind (site_position hb.out) (.bind (site_output hb.out) (.bind .pure (.bind
    (site_unqualified_first hb hfits hname hord hrest ho hx) (.ite_true rfl
      (.bind .pure (.bind (site_addAnonymous hb) .pure))))))

theorem site_prefixName_behind (hb : Ready base r) (htext : Offerable text)
    (hlen : text.length < 2 ^ 64)
    (hread : Returns (parseUnqualifiedName inp call r sourceFlags)
      (site base r x start subst (wrote (k + 1) lead text (some "::".toList) none)) (true, flags)
      (site base r y start' subst (wrote (k + 1) lead (text ++ "::".toList ++ part) none none))) :
    Ends (parsePrefixName inp call r afterName)
      (site base r x start subst (wrote (k + 1) lead text none none))
      ((insertEntry inp.capacity subst ⟨text, true⟩).map fun subst =>
        ((some ⟨false, true, true, flags.maySubstitute '\x00', flags⟩, flags),
          site base r y start' subst
            (wrote (k + 1) lead (text ++ "::".toList ++ part) none none))) := by
  have hsub : subSizeT (wrote (k + 1) lead text none none).size lead.length = text.length := by
    rw [Output.size, wrote, length_append, subSizeT]
    omega
  have hinsert : Ends (do
      let start ← position r
      let v ← substr r start (subSizeT (wrote (k + 1) lead text none none).size lead.length)
      insertSubst inp v true)
      (site base r y start' subst (wrote (k + 1) lead (text ++ "::".toList ++ part) none none))
      ((insertEntry inp.capacity subst ⟨text, true⟩).map fun subst =>
        ((), site base r y start' subst
          (wrote (k + 1) lead (text ++ "::".toList ++ part) none none))) := by
    have hbuf : (wrote (k + 1) lead (text ++ "::".toList ++ part) none none).buf =
        lead ++ (text ++ ("::".toList ++ part)) := by
      rw [wrote, append_assoc text]
    rw [hsub]
    exact .bind (site_position hb.out) (.bind (site_substr hb.out hbuf)
      (site_insertSubst htext true))
  have hdelim : Returns (setDelim r (some "::".toList))
      (site base r x start subst (wrote (k + 1) lead text none none)) ()
      (site base r x start subst (wrote (k + 1) lead text (some "::".toList) none)) :=
    site_updateOutput hb.out
  refine .bind (site_position hb.out) (.bind (site_output hb.out) (.bind (.ite_true rfl hdelim)
    (.bind hread (.ite_true rfl (.bind_returns hinsert fun subst => ?_)))))
  exact .bind (site_addAnonymous hb) .pure

theorem site_prefixName_part (hb : Ready base r) (hfits : inp.size < 2 ^ 64)
    (htext : Offerable text) (hlen : text.length < 2 ^ 64) (hpart : IsPart part)
    (hrest : ∀ c ∈ rest.head?, c.isAlphanum = true) (hx : At inp x (mangledPart part ++ rest)) :
    Ends (parsePrefixName inp call r afterName)
      (site base r x start subst (wrote (k + 1) lead text none none))
      ((insertEntry inp.capacity subst ⟨text, true⟩).map fun subst =>
        ((some afterName, sourceFlags), site base r (x + (mangledPart part).length)
          (some (lead.length + text.length + 2)) subst
          (wrote (k + 1) lead (text ++ "::".toList ++ part) none none))) := by
  have hread : Returns (parseUnqualifiedName inp call r sourceFlags)
      (site base r x start subst (wrote (k + 1) lead text (some "::".toList) none)) _ _ :=
    site_parseUnqualifiedName hb hfits hpart.1 (hpart.ordinary rest) hrest hx
  have hstart : (wrote (k + 1) lead text (some "::".toList) none).size + 2 =
      lead.length + text.length + 2 := by
    rw [Output.size, wrote, length_append]
  rw [wrote_append htext hpart.1.offerable] at hread
  exact site_prefixName_behind hb htext hlen (hstart ▸ hread)

theorem site_prefixName_end {l : Loop} (hb : Ready base r) (hl : l.havePrefix = true)
    (hx : At inp x ('E' :: rest)) :
    Returns (parsePrefixName inp call r l)
      (site base r x start subst (wrote (k + 1) lead text none none)) (none, l.flags)
      (site base r x start subst (wrote (k + 1) lead text (some "::".toList) none)) := by
  have hdelim : Returns (setDelim r (some "::".toList))
      (site base r x start subst (wrote (k + 1) lead text none none)) ()
      (site base r x start subst (wrote (k + 1) lead text (some "::".toList) none)) :=
    site_updateOutput hb.out
  have hname : Returns (parseUnqualifiedName inp call r
        (if l.havePrefix then { l.flags with isTemplate := false } else l.flags))
      (site base r x start subst (wrote (k + 1) lead text (some "::".toList) none))
      (false, { l.flags with isTemplate := false })
      (site base r x start subst (wrote (k + 1) lead text (some "::".toList) none)) := by
    rw [hl]
    exact .bind (returns_assertInside hx) (.bind (returns_peek hx)
      (.ite_false (by decide) (.ite_false (by decide) (.ite_true rfl .pure))))
  exact .bind (site_position hb.out) (.bind (site_output hb.out) (.bind (.ite_true hl hdelim)
    (.bind hname (.ite_false Bool.false_ne_true .pure))))

theorem site_prefixLoop_name {l : Loop} {res : Option Loop × NameFlags}
    {e : Except Stop (List Text)} {y : Nat}
    {start' : Option Nat} {o' : Output} (hc : startsName c = true) (hx : At inp x (c :: rest))
    (hname : Ends (parsePrefixName inp call r l)
      (site { base with inPrefix := true } r x start subst o)
      (e.map fun subst => (res, site { base with inPrefix := true } r y start' subst o')))
    (hnext : ∀ subst', Ends (match res.1 with
        | some l => call.prefixLoop r l
        | none => pure res.2) (site base r y start' subst' o') (out subst')) :
    Ends (parsePrefixLoop inp call r l) (site base r x start subst o) (e.bind out) := by
  have hS := ne_of_separates (d := 'S') hc (by decide)
  have hT := ne_of_separates (d := 'T') hc (by decide)
  have hI := ne_of_separates (d := 'I') hc (by decide)
  refine .bind (returns_isInside hx) (.ite_true rfl (.bind (returns_peek hx) ?_))
  have hscope : Ends (temporarily (fun s => { s with inPrefix := true })
        (fun old s => { s with inPrefix := old.inPrefix }) (parsePrefixName inp call r l))
      (site base r x start subst o)
      (e.map fun subst => (res, site base r y start' subst o')) :=
    .bind .get (.bind .modify (.bind_returns hname fun _ => .bind .modify .pure))
  exact .ite_false hS (.ite_false hT (.ite_false hI (.bind_map hscope fun subst _ =>
    hnext subst)))

theorem alphanum_mangledParts (parts : List Text)
    (htail : ∀ c ∈ tail.head?, c.isAlphanum = true) :
    ∀ c ∈ (mangledParts parts ++ tail).head?, c.isAlphanum = true := by
  cases parts with
  | nil => exact htail
  | cons part parts =>
    obtain ⟨d, digits, htext, hd⟩ := exists_digit part.length
    rw [mangledParts_cons, mangledPart, htext]
    intro c hc
    rw [← Option.some.inj hc, Char.isAlphanum, hd, Bool.or_true]

theorem site_prefixLoop_parts
    {depth : Nat} (hb : Ready base r) (hfits : inp.size < 2 ^ 64)
    (htail : ∀ c ∈ tail.head?, c.isAlphanum = true) (parts : List Text) :
    ∀ {x : Nat} {text : Text} {start : Option Nat} {subst : List Text}, Offerable text →
      (∀ part ∈ parts, IsPart part) → (text ++ qualifiedRest parts).length < 2 ^ 64 →
      At inp x (mangledParts parts ++ tail) →
      (∀ subst, Ends ((calls inp depth).prefixLoop r afterName)
        (site base r (x + (mangledParts parts).length) (lastStart start lead text parts) subst
          (wrote (k + 1) lead (text ++ qualifiedRest parts) none none)) (out subst)) →
      Ends ((calls inp (depth + parts.length)).prefixLoop r afterName)
        (site base r x start subst (wrote (k + 1) lead text none none))
        ((insertAll inp.capacity subst (prefixEntries text parts)).bind out) := by
  induction parts with
  | nil =>
    intro x text start subst _ _ _ _ hnext
    have hnext := hnext subst
    rw [qualifiedRest, flatMap_nil, append_nil] at hnext
    exact hnext
  | cons part parts ih =>
    intro x text start subst htext hparts hlen hx hnext
    obtain ⟨hpart, hparts⟩ := forall_mem_cons.mp hparts
    rw [mangledParts_cons, append_assoc] at hx
    obtain ⟨d, digits, hdigits, hd⟩ := startsName_mangledPart part
    have hchar := hx
    rw [hdigits] at hchar
    have hmore : text ++ qualifiedRest (part :: parts) =
        text ++ "::".toList ++ part ++ qualifiedRest parts := by
      rw [qualifiedRest_cons, append_assoc _ part, append_assoc text]
      rfl
    rw [mangledParts_cons, length_append, ← Nat.add_assoc, hmore] at hnext
    rw [hmore] at hlen
    have hshort : text.length < 2 ^ 64 := by
      simp only [length_append] at hlen
      omega
    have hbind : (insertAll inp.capacity subst (prefixEntries text (part :: parts))).bind out =
        (insertEntry inp.capacity subst ⟨text, true⟩).bind fun subst =>
          (insertAll inp.capacity subst
            (prefixEntries (text ++ "::".toList ++ part) parts)).bind out := by
      rw [prefixEntries, insertAll]
      cases insertEntry inp.capacity subst ⟨text, true⟩ <;> rfl
    rw [hbind]
    exact site_prefixLoop_name hd hchar
      (site_prefixName_part (hb.setPrefix true) hfits htext hshort hpart
        (alphanum_mangledParts parts htail) hx)
      fun subst => ih ((htext.append _).append _) hparts hlen hx.append hnext

end Nested

theorem flatMap_codes (cvs : List CvQualifier) :
    (CvQualifier.codes cvs).flatMap qualifierText = cvText cvs := flatMap_map _ _ _

variable {cvs : List CvQualifier}

variable {s : State}

section

variable (hc : ¬(c = 'r' ∨ c = 'V' ∨ c = 'K'))
  (hx : At inp s.pos (CvQualifier.codes cvs ++ c :: rest))
include hc hx

theorem returns_qualifierLoop :
    Returns (qualifierLoop inp (CvQualifier.codes cvs ++ c :: rest)) s (CvQualifier.codes cvs)
      { s with pos := s.pos + cvs.length } := by
  induction cvs generalizing s with
  | nil => exact .bind (returns_peek hx) (.ite_false hc .pure)
  | cons q cvs ih =>
    have hq : q.code = 'r' ∨ q.code = 'V' ∨ q.code = 'K' := by cases q <;> decide
    have hloop := ih (s := { s with pos := s.pos + 1 }) hx.next
    refine .bind (returns_peek hx) (.ite_true hq (.bind returns_advance (.bind hloop ?_)))
    rw [length_cons, Nat.add_comm cvs.length, ← Nat.add_assoc]
    exact .pure

theorem returns_cvQualifiers {quals : Text} :
    Returns (parseCvQualifiers inp quals) s (!cvs.isEmpty, cvText cvs ++ quals)
      { s with pos := s.pos + cvs.length } := by
  have hinside : Returns (assertInside inp) s () s := by
    cases cvs with
    | nil => exact returns_assertInside hx
    | cons q cvs => exact returns_assertInside hx
  have hempty : (CvQualifier.codes cvs).isEmpty = cvs.isEmpty := isEmpty_map
  have hloop := returns_qualifierLoop hc hx
  refine .bind hinside (.bind returns_getPos (.bind (hx.2.symm ▸ hloop) ?_))
  rw [hempty, flatMap_codes]
  exact .pure

end

theorem returns_parseCvQualifiers {quals : Text}
    (hc : ¬(c = 'r' ∨ c = 'V' ∨ c = 'K')) (hx : At inp s.pos (c :: rest)) :
    Returns (parseCvQualifiers inp quals) s (false, quals) s := by
  have hnone : At inp s.pos (CvQualifier.codes [] ++ c :: rest) := hx
  exact returns_cvQualifiers hc hnone

section Scopes

variable {k y : Nat} {cvs : List CvQualifier} {q : Text} {e : Except Stop (List Text)}
  {flags : NameFlags} {start' : Option Nat} (hb : Ready base r) (ho : Fresh k o)

include hb ho

theorem site_parsePrefix (hx : At inp x (c :: rest))
    (hloop : Ends (call.prefixLoop r ⟨true, false, false, false, NameFlags.new⟩)
      (site base r x start subst o.pushed) (e.map fun subst =>
        (flags, site base r y start' subst
          (wrote (k + 1) o.lead text (some "::".toList) none)))) :
    Ends (parsePrefix inp call r NameFlags.new) (site base r x start subst o)
      ((withinPositions (k + 1) e).map fun subst =>
        (flags, site base r y start' subst (wrote k o.lead text (some "::".toList) none))) := by
  have hpos : ¬x = inp.size := Nat.ne_of_lt hx.lt
  refine .bind (.bind returns_getPos (.ite_false hpos (returns_assertInside hx)))
    (.bind (returns_nutsAssert rfl) ?_)
  have hscope := site_withPosition_last _ hb.out hb.out hloop
  rw [ho.length] at hscope
  exact hscope

section

variable (hq : base.cvQualifiers = some q) (hc : startsName c = true)
  (hx : At inp x ('N' :: (CvQualifier.codes cvs ++ c :: rest)))
include hq hc hx

theorem site_parseNestedName {after : Text}
    (hend : At inp y ('E' :: after))
    (hloop : Ends (call.prefixLoop r ⟨true, false, false, false, NameFlags.new⟩)
      (site { base with cvQualifiers := some (cvText cvs ++ q) } r (x + 1 + cvs.length) start
        subst o.pushed) (e.map fun subst =>
        (flags, site { base with cvQualifiers := some (cvText cvs ++ q) } r y start' subst
          (wrote (k + 1) o.lead text (some "::".toList) none)))) :
    Ends (parseNestedName inp call r NameFlags.new) (site base r x start subst o)
      ((withinPositions (k + 1) e).map fun subst =>
        (flags, site { base with cvQualifiers := some (cvText cvs ++ q) } r (y + 1) start' subst
          (wrote k o.lead text (some "::".toList) none))) := by
  have hnone : ¬(c = 'r' ∨ c = 'V' ∨ c = 'K') := by
    rintro (rfl | rfl | rfl)
    all_goals exact absurd hc (by decide)
  have hlength : (CvQualifier.codes cvs).length = cvs.length := length_map _
  have hname : At inp (x + 1 + cvs.length) (c :: rest) := hlength ▸ hx.next.append
  have hquals : Returns (parseNestedQualifiers inp) (site base r (x + 1) start subst o) ()
      (site { base with cvQualifiers := some (cvText cvs ++ q) } r (x + 1 + cvs.length) start
        subst o) := by
    refine .bind .get ?_
    rw [show (site base r (x + 1) start subst o).cvQualifiers = some q from hq]
    exact .bind (returns_cvQualifiers hnone hx.next) .modify
  have hb' : Ready { base with cvQualifiers := some (cvText cvs ++ q) } r :=
    ⟨hb.out, hb.depth, hb.status, hb.anonymous⟩
  refine .bind (returns_assertInside hx) (.bind (returns_assertChar hx) (.bind returns_advance
    (.bind hquals (.bind (site_isSuccess hb') (.ite_true rfl
      (.bind (returns_assertInside hname) ?_))))))
  exact .bind_returns (site_parsePrefix hb' ho hname hloop) fun _ =>
    .bind (returns_expectEnd hend) (.bind returns_closing .pure)

theorem site_parseName_nested {after : Text}
    (hend : At inp y ('E' :: after))
    (hloop : Ends (call.prefixLoop r ⟨true, false, false, false, NameFlags.new⟩)
      (site { base with cvQualifiers := some (cvText cvs ++ q) } r (x + 1 + cvs.length) start
        subst o.pushed.pushed) (e.map fun subst =>
        (flags, site { base with cvQualifiers := some (cvText cvs ++ q) } r y start' subst
          (wrote (k + 2) o.lead text (some "::".toList) none)))) :
    Ends (parseName inp call r NameFlags.new) (site base r x start subst o)
      ((withinPositions (k + 2) e).map fun subst =>
        ((true, flags), site { base with cvQualifiers := some (cvText cvs ++ q) } r (y + 1) start'
          subst (wrote k o.lead text (some "::".toList) none))) := by
  have hnested : Ends (parseNestedName inp call r NameFlags.new)
      (site base r x start subst o.pushed) _ :=
    site_parseNestedName hb ho.pushed hq hc hx hend hloop
  refine .bind (returns_isInside hx) (.ite_true rfl (site_withPosition_within
    (wrote (k + 1) o.lead text (some "::".toList) none) hb.out hb.out ?_ fun _ => ?_))
  · rw [ho.length]
    omega
  · exact .bind (returns_peek hx) (.ite_true rfl (.bind_returns hnested fun _ => .pure))

end

end Scopes

namespace NestedName

variable {n : NestedName} {k depth : Nat} {cvs : List CvQualifier}

theorem offerable (n : NestedName) : Offerable n.text :=
  (n.parts n.first mem_cons_self).1.offerable.append _

theorem code_cons (n : NestedName) (tail : Text) :
    ∃ d text, n.code ++ tail = d :: text ∧ startsName d = true := by
  obtain ⟨d, digits, hdigits, hd⟩ := startsName_mangledPart n.first
  refine ⟨d, digits ++ mangledParts n.rest ++ tail, ?_, hd⟩
  rw [code, mangledParts_cons, hdigits]
  rfl

theorem site_prefixLoop
    (hb : Ready base r) (hfits : inp.size < 2 ^ 64) (hlen : n.text.length < 2 ^ 64)
    (ho : Fresh (k + 1) o) (htail : ∀ c ∈ tail.head?, c.isAlphanum = true)
    (hx : At inp x (n.code ++ tail))
    (hnext : ∀ subst, Ends ((calls inp depth).prefixLoop r afterName)
      (site base r (x + n.code.length) (lastStart (some o.lead.length) o.lead n.first n.rest)
        subst (wrote (k + 1) o.lead n.text none none)) (out subst)) :
    Ends ((calls inp (depth + n.rest.length + 1)).prefixLoop r
        ⟨true, false, false, false, NameFlags.new⟩) (site base r x start subst o)
      ((insertAll inp.capacity subst n.entries).bind out) := by
  obtain ⟨hfirst, hparts⟩ := forall_mem_cons.mp n.parts
  obtain ⟨d, digits, hdigits, hd⟩ := startsName_mangledPart n.first
  rw [code, mangledParts_cons, append_assoc] at hx
  rw [code, mangledParts_cons, length_append, ← Nat.add_assoc] at hnext
  have hchar := hx
  rw [hdigits] at hchar
  exact site_prefixLoop_name (e := .ok subst) hd hchar
    (site_prefixName_first (hb.setPrefix true) hfits hfirst.1 (hfirst.ordinary _)
      (alphanum_mangledParts n.rest htail) ho hx)
    fun subst => site_prefixLoop_parts hb hfits htail n.rest hfirst.1.offerable hparts hlen
      hx.append hnext

theorem site_parseName {q : Text} (hb : Ready base r)
    (hq : base.cvQualifiers = some q) (hfits : inp.size < 2 ^ 64)
    (hlen : n.text.length < 2 ^ 64) (ho : Fresh k o) (hdepth : n.rest.length + 1 < depth)
    (hx : At inp x ('N' :: (CvQualifier.codes cvs ++ (n.code ++ 'E' :: rest)))) :
    Ends (parseName inp (calls inp depth) r NameFlags.new) (site base r x start subst o)
      ((withinPositions (k + 2) (insertAll inp.capacity subst n.entries)).map fun subst =>
        ((true, sourceFlags), site { base with cvQualifiers := some (cvText cvs ++ q) } r
          (x + 1 + cvs.length + n.code.length + 1)
          (lastStart (some o.lead.length) o.lead n.first n.rest) subst
          (wrote k o.lead n.text (some "::".toList) none))) := by
  obtain ⟨d, text, htext, hd⟩ := n.code_cons ('E' :: rest)
  obtain ⟨depth, rfl⟩ : ∃ d, depth = d + 1 + n.rest.length + 1 :=
    ⟨depth - n.rest.length - 2, by omega⟩
  have hlength : (CvQualifier.codes cvs).length = cvs.length := length_map _
  have hname : At inp (x + 1 + cvs.length) (n.code ++ 'E' :: rest) := hlength ▸ hx.next.append
  have hend := hname.append
  rw [htext] at hx
  have hb' : Ready { base with cvQualifiers := some (cvText cvs ++ q) } r :=
    ⟨hb.out, hb.depth, hb.status, hb.anonymous⟩
  have htail : ∀ c ∈ ('E' :: rest).head?, c.isAlphanum = true :=
    fun c hc => Option.some.inj hc ▸ rfl
  refine site_parseName_nested hb ho hq hd hx hend ?_
  have hmap : ∀ {β γ : Type} (e : Except Stop β) (f : β → γ),
      e.map f = e.bind fun b => .ok (f b) := fun e f => by cases e <;> rfl
  exact site_prefixLoop hb' hfits hlen ho.pushed.pushed htail hname
    fun subst => site_prefixLoop_name (e := .ok subst) (by decide) hend
      (site_prefixName_end (hb'.setPrefix true) rfl hend) fun _ => Returns.pure

end NestedName

end ZeroBugs.Unmangle
