import ZeroBugs.Unmangle.FunctionRuns
import ZeroBugs.Unmangle.ParseSafety

/-! # Decoding of encoded names -/
namespace ZeroBugs.Unmangle

open Lib Lib.Traced List

variable {inp : Input} {call : Calls} {base : State} {r : OutRef} {x k depth : Nat} {c : Char}
  {rest before name tilde lead text : Text} {o : Output} {start : Option Nat} {subst : List Text}

theorem separate_buf (o : Output) (first : Char) :
    ∃ sep, (o.separate first).buf = o.buf ++ sep := by
  unfold Output.separate
  split
  · next d _ => exact ⟨d, rfl⟩
  · split
    · split
      · exact ⟨_, rfl⟩
      · exact ⟨[], (append_nil _).symm⟩
    · split
      · exact ⟨_, rfl⟩
      · exact ⟨[], (append_nil _).symm⟩

theorem site_repeatName (hb : Ready base r) (after : Text)
    (hbuf : o.buf = before ++ (c :: name ++ after)) (hallocated : o.allocated = true) :
    Returns (repeatName r before.length (c :: name).length) (site base r x start subst o) ()
      (site base r x start subst (o.append (c :: name))) := by
  have hstart : before.length < o.size := by
    rw [Output.size, hbuf]
    simp only [length_append, length_cons]
    omega
  have hfirst : o.buf.getD before.length '\x00' = c := by
    rw [hbuf, getD_eq_getElem?_getD, getElem?_append_right (Nat.le_refl _), Nat.sub_self]
    rfl
  obtain ⟨sep, hsep⟩ := separate_buf o c
  have hsource : (o.separate c).buf.drop before.length = c :: name ++ (after ++ sep) := by
    rw [hsep, hbuf, append_assoc, drop_left, append_assoc]
  have hlen : (c :: name).length ≤ ((o.separate c).buf.drop before.length).length := by
    rw [hsource, length_append]
    omega
  have hupdate : Returns (updateOutput r (·.appendAt c
        (((o.separate c).buf.drop before.length).take (c :: name).length)))
      (site base r x start subst o) () (site base r x start subst (o.append (c :: name))) := by
    rw [hsource, take_left]
    exact site_updateOutput hb.out
  refine .bind (site_output hb.out) (.bind .emit (.ite_false ?_ (.ite_true hstart ?_)))
  · rintro ⟨hfalse, -⟩
    exact Bool.false_ne_true (hfalse.symm.trans hallocated)
  · simp only [hfirst]
    refine .bind (returns_nutsAssert ?_) hupdate
    rw [Bool.or_eq_true]
    exact .inr (decide_eq_true hlen)

theorem wrote_append_last {more : Text} {index : Option Nat} (hmore : Offerable more) :
    (wrote k lead text none index).append more = wrote k lead (text ++ more) none none := by
  obtain ⟨c, name, rfl, -, -, hc⟩ := hmore
  simp [Output.append, Output.appendAt, Output.separate, wrote, hc]

section ClassName

variable (hb : Ready base r) (hname : Offerable (c :: name)) (htext : Offerable text)
  (hbuf : lead ++ text = before ++ c :: name) (hfits : (lead ++ text).length < 2 ^ 64)

include hb hname htext hbuf hfits

theorem site_emitClassName (htilde : tilde = [] ∨ tilde = ['~']) :
    Returns (emitClassName r tilde)
      (site base r x (some before.length) subst (wrote k lead text (some "::".toList) none)) ()
      (site base r (x + 1) none subst
        (wrote k lead (text ++ "::".toList ++ (tilde ++ c :: name)) none none)) := by
  have hlen : subSizeT (wrote k lead text (some "::".toList) none).size before.length =
      (c :: name).length := by
    rw [hbuf] at hfits
    rw [Output.size, wrote, hbuf, length_append, subSizeT]
    rw [length_append] at hfits
    omega
  have hsize : (site base r x (some before.length) subst
      (wrote k lead text (some "::".toList) none)).sourceNameSize = 0 := rfl
  refine .bind .get (.bind returns_advance (.bind (site_output hb.out) ?_))
  rw [if_neg (not_not.mpr hsize), hlen]
  rcases htilde with rfl | rfl
  · have hrepeat : Returns (repeatName r before.length (c :: name).length)
        (site base r (x + 1) (some before.length) subst
          (wrote k lead text (some "::".toList) none)) () _ :=
      site_repeatName hb [] (by rw [append_nil]; exact hbuf) rfl
    rw [wrote_append htext hname] at hrepeat
    exact .bind .pure (.bind hrepeat .modify)
  · have hmark : Offerable ['~'] := ⟨'~', [], rfl, by decide, by decide, by decide⟩
    have htilde : Returns (append r ['~']) (site base r (x + 1) (some before.length) subst
        (wrote k lead text (some "::".toList) none)) () _ := site_append hb.out
    rw [wrote_append htext hmark] at htilde
    have hagain : (wrote k lead (text ++ "::".toList ++ ['~']) none none).buf =
        before ++ (c :: name ++ "::~".toList) := by
      rw [wrote, append_assoc text, ← append_assoc lead, hbuf, append_assoc before]
      rfl
    have hrepeat : Returns (repeatName r before.length (c :: name).length)
        (site base r (x + 1) (some before.length) subst
          (wrote k lead (text ++ "::".toList ++ ['~']) none none)) () _ :=
      site_repeatName hb "::~".toList hagain rfl
    rw [wrote_append_last hname, append_assoc _ ['~']] at hrepeat
    exact .bind htilde (.bind hrepeat .modify)

def specialFlags (kind : Char) : NameFlags :=
  if kind = 'C' then { sourceFlags with isCtor := true } else { sourceFlags with isDtor := true }

theorem site_unqualified_special {kind : Char}
    (hkind : kind = 'C' ∧ tilde = [] ∨ kind = 'D' ∧ tilde = ['~'])
    (hx : At inp x (kind :: '1' :: rest)) :
    Returns (parseUnqualifiedName inp call r sourceFlags)
      (site base r x (some before.length) subst (wrote k lead text (some "::".toList) none))
      (true, specialFlags kind)
      (site base r (x + 2) none subst
        (wrote k lead (text ++ "::".toList ++ (tilde ++ c :: name)) none none)) := by
  have hinside : ¬x + 1 = inp.size := Nat.ne_of_lt hx.next.lt
  have hclass : Returns (parseCtorDtorName inp r)
      (site base r x (some before.length) subst (wrote k lead text (some "::".toList) none)) ()
      (site base r (x + 2) none subst
        (wrote k lead (text ++ "::".toList ++ (tilde ++ c :: name)) none none)) := by
    refine .bind (returns_assertInside hx) (.bind (returns_peek hx) ?_)
    rcases hkind with ⟨rfl, rfl⟩ | ⟨rfl, rfl⟩
    · exact .bind (returns_nutsAssert rfl) (.bind returns_advance (.bind returns_getPos
        (.ite_false hinside (.bind (returns_peek hx.next) (.ite_true rfl
          (site_emitClassName hb hname htext hbuf hfits (.inl rfl)))))))
    · exact .bind (returns_nutsAssert rfl) (.bind returns_advance (.bind returns_getPos
        (.ite_false hinside (.bind (returns_peek hx.next) (.ite_true rfl
          (site_emitClassName hb hname htext hbuf hfits (.inr rfl)))))))
  refine .bind (returns_assertInside hx) (.bind (returns_peek hx) ?_)
  rcases hkind with ⟨rfl, -⟩ | ⟨rfl, -⟩
  · exact .ite_true rfl (.bind hclass .pure)
  · exact .ite_false (by decide) (.ite_true rfl (.bind hclass .pure))

end ClassName

theorem Plain.isPart (h : Plain text) : IsPart text := ⟨⟨h.1, h.2.1⟩, h.2.2.2.2.2⟩

theorem ValidFrom.split {prev : Text} {rest : List Text} (h : ValidFrom prev rest) :
    ∃ parts : List Text, (∀ part ∈ parts, Plain part) ∧
      (rest = parts ∧ mangledRest prev rest = mangledParts parts ∨
        ∃ kind tilde, (kind = 'C' ∧ tilde = [] ∨ kind = 'D' ∧ tilde = ['~']) ∧
          rest = parts ++ [tilde ++ parts.getLastD prev] ∧
          mangledRest prev rest = mangledParts parts ++ [kind, '1']) := by
  induction rest generalizing prev with
  | nil => exact ⟨[], fun _ h => absurd h not_mem_nil, .inl ⟨rfl, rfl⟩⟩
  | cons part rest ih =>
    by_cases hctor : rest = [] ∧ part = prev
    · obtain ⟨rfl, rfl⟩ := hctor
      refine ⟨[], fun _ h => absurd h not_mem_nil, .inr ⟨'C', [], .inl ⟨rfl, rfl⟩, rfl, ?_⟩⟩
      rw [mangledRest, mangledBehind, if_pos rfl]
      rfl
    by_cases hdtor : part = '~' :: prev
    · have hrest : rest = [] := by
        cases rest with
        | nil => rfl
        | cons _ _ => exact absurd hdtor h.1.1.ne_tilde
      subst hdtor hrest
      refine ⟨[], fun _ h => absurd h not_mem_nil,
        .inr ⟨'D', ['~'], .inr ⟨rfl, rfl⟩, rfl, ?_⟩⟩
      rw [mangledRest, mangledBehind, if_neg (cons_ne_self _ _), if_pos rfl]
      rfl
    have hplain := h.head.resolve_right hdtor
    have hne : part ≠ prev := by
      intro heq
      cases rest with
      | nil => exact hctor ⟨rfl, heq⟩
      | cons _ _ => exact h.1.2 heq
    have hcode : mangledRest prev (part :: rest) = mangledPart part ++ mangledRest part rest := by
      rw [mangledRest, mangledBehind, if_neg hne, if_neg hdtor]
    obtain ⟨parts, hparts, hcases⟩ := ih h.tail
    refine ⟨part :: parts, forall_mem_cons.mpr ⟨hplain, hparts⟩, ?_⟩
    rw [hcode, mangledParts_cons]
    rcases hcases with ⟨rfl, hrest⟩ | ⟨kind, tilde, hkind, hlast, hrest⟩
    · exact .inl ⟨rfl, by rw [hrest]⟩
    · refine .inr ⟨kind, tilde, hkind, ?_, by rw [hrest, append_assoc]⟩
      rw [hlast, getLastD_cons]
      rfl

theorem lastStart_eq (lead : Text) (parts : List Text) : ∀ before name : Text,
    ∃ before', lead ++ (before ++ name ++ qualifiedRest parts) = before' ++ parts.getLastD name ∧
      lastStart (some (lead ++ before).length) lead (before ++ name) parts =
        some before'.length := by
  induction parts with
  | nil =>
    intro before name
    refine ⟨lead ++ before, ?_, rfl⟩
    rw [qualifiedRest, flatMap_nil, append_nil, ← append_assoc]
    rfl
  | cons part parts ih =>
    intro before name
    obtain ⟨before', hbuf, hstart⟩ := ih (before ++ name ++ "::".toList) part
    refine ⟨before', ?_, ?_⟩
    · rw [getLastD_cons, ← hbuf, qualifiedRest_cons, append_assoc _ part,
        append_assoc _ "::".toList]
      rfl
    · have hlen : (lead ++ (before ++ name ++ "::".toList)).length =
          lead.length + (before ++ name).length + 2 := by
        rw [length_append, length_append, Nat.add_assoc]
        rfl
      rw [← hstart, lastStart, hlen]

theorem prefixEntries_concat (last : Text) (parts : List Text) : ∀ text : Text,
    prefixEntries text (parts ++ [last]) =
      prefixEntries text parts ++ [⟨text ++ qualifiedRest parts, true⟩] := by
  induction parts with
  | nil =>
    intro text
    rw [qualifiedRest, flatMap_nil, append_nil]
    rfl
  | cons part parts ih =>
    intro text
    rw [cons_append, prefixEntries, ih, prefixEntries, qualifiedRest_cons]
    simp

theorem length_prefixEntries (text : Text) (parts : List Text) :
    (prefixEntries text parts).length = parts.length := by
  induction parts generalizing text with
  | nil => rfl
  | cons part parts ih => rw [prefixEntries, length_cons, ih, length_cons]

theorem length_kept_le (subst : List Text) (es : List Entry) :
    (kept subst es).length ≤ subst.length + es.length := by
  induction es generalizing subst with
  | nil => exact Nat.le_refl _
  | cons e es ih =>
    have hkeep : (keep subst e).length ≤ subst.length + 1 := by
      unfold keep
      split
      · rw [length_append, length_singleton]
      · exact Nat.le_succ _
    have hrest := ih (keep subst e)
    rw [kept_cons, length_cons]
    omega

namespace QualifiedName

variable {q : QualifiedName}

def nested (q : QualifiedName) : Text := mangledPart q.first ++ mangledRest q.first q.rest

theorem site_prefixLoop (start : Option Nat) (subst : List Text) (hb : Ready base r)
    (hfits : inp.size < 2 ^ 64) (hlen : (o.lead ++ q.text).length < 2 ^ 64) (ho : Fresh (k + 1) o)
    (hdepth : q.rest.length + 1 < depth) (hx : At inp x (q.nested ++ 'E' :: rest)) :
    ∃ (flags : NameFlags) (start' : Option Nat), flags.isTemplate = false ∧
      Ends ((calls inp depth).prefixLoop r ⟨true, false, false, false, NameFlags.new⟩)
        (site base r x start subst o)
        ((insertAll inp.capacity subst (prefixEntries q.first q.rest)).map fun subst =>
          (flags, site base r (x + q.nested.length) start' subst
            (wrote (k + 1) o.lead q.text (some "::".toList) none))) := by
  obtain ⟨parts, hparts, hcases⟩ := q.valid.split
  have hall : ∀ part ∈ q.first :: parts, IsPart part :=
    forall_mem_cons.mpr ⟨q.plain.isPart, fun part hpart => (hparts part hpart).isPart⟩
  let n : NestedName := ⟨q.first, parts, hall⟩
  have hmap : ∀ {β γ : Type} (e : Except Stop β) (f : β → γ),
      e.map f = e.bind fun b => .ok (f b) := fun e f => by cases e <;> rfl
  have hcode : n.code = mangledPart q.first ++ mangledParts parts := mangledParts_cons _ _
  rcases hcases with ⟨hrest, hmangled⟩ | ⟨kind, tilde, hkind, hrest, hmangled⟩
  · have hnested : q.nested = n.code := by rw [nested, hmangled, hcode]
    have htext : q.text = n.text := by rw [text, hrest]; rfl
    have hshort : n.text.length < 2 ^ 64 := by
      rw [htext, length_append] at hlen
      omega
    rw [hnested] at hx
    have hend := hx.append
    refine ⟨sourceFlags, lastStart (some o.lead.length) o.lead n.first n.rest, rfl, ?_⟩
    obtain ⟨depth, rfl⟩ : ∃ d, depth = d + 1 + n.rest.length + 1 := by
      have hle : q.rest.length = n.rest.length := by rw [hrest]
      exact ⟨depth - n.rest.length - 2, by omega⟩
    rw [hnested, htext, hrest, hmap]
    have htail : ∀ c ∈ ('E' :: rest).head?, c.isAlphanum = true :=
      fun c hc => Option.some.inj hc ▸ rfl
    exact n.site_prefixLoop hb hfits hshort ho htail hx
      fun subst => site_prefixLoop_name (e := .ok subst) (by decide) hend
        (site_prefixName_end (hb.setPrefix true) rfl hend) fun _ => Returns.pure
  · have hnested : q.nested = n.code ++ [kind, '1'] := by
      rw [nested, hmangled, hcode, append_assoc]
    have htext : q.text = n.text ++ "::".toList ++ (tilde ++ parts.getLastD q.first) := by
      rw [text, hrest, qualifiedRest, flatMap_append, ← append_assoc, append_assoc _
        "::".toList]
      simp [NestedName.text, qualifiedRest, n]
    obtain ⟨before, hbuf, hstart⟩ := lastStart_eq o.lead parts [] q.first
    have hlast : Plain (parts.getLastD q.first) := by
      rw [getLastD_eq_getLast?]
      cases hget : parts.getLast? with
      | none => exact q.plain
      | some last => exact hparts last (mem_of_getLast? hget)
    obtain ⟨c, name, hname, hc⟩ := hlast.isPart.1.cons
    have hoffer := hlast.isPart.1.offerable
    rw [hname] at hoffer hbuf
    have hshort : (o.lead ++ n.text).length < 2 ^ 64 := by
      rw [htext] at hlen
      simp only [length_append] at hlen ⊢
      omega
    have hshort' : n.text.length < 2 ^ 64 := by
      rw [length_append] at hshort
      omega
    rw [hnested, append_assoc] at hx
    have hspecial : At inp (x + n.code.length) (kind :: '1' :: 'E' :: rest) := hx.append
    have hend : At inp (x + n.code.length + 2) ('E' :: rest) := hspecial.next.next
    have hstarts : startsName kind = true ∧ kind.isAlphanum = true := by
      rcases hkind with ⟨rfl, -⟩ | ⟨rfl, -⟩ <;> exact ⟨rfl, rfl⟩
    have htail : ∀ c ∈ (kind :: '1' :: 'E' :: rest).head?, c.isAlphanum = true :=
      fun c hc => Option.some.inj hc ▸ hstarts.2
    refine ⟨specialFlags kind, none, ?_, ?_⟩
    · unfold specialFlags
      split <;> rfl
    obtain ⟨depth, rfl⟩ : ∃ d, depth = d + 2 + n.rest.length + 1 := by
      have hle : q.rest.length = n.rest.length + 1 := by rw [hrest, length_append]; rfl
      exact ⟨depth - n.rest.length - 3, by omega⟩
    have hassoc : ∀ {β γ : Type} (e : Except Stop (List Text)) (f : List Text → Except Stop β)
        (g : β → Except Stop γ), (e.bind f).bind g = e.bind fun b => (f b).bind g :=
      fun e f g => by cases e <;> rfl
    rw [hnested, htext, hrest, prefixEntries_concat, insertAll_append, hmap, hname, hassoc]
    refine n.site_prefixLoop hb hfits hshort' ho htail hx fun subst => ?_
    rw [insertAll_singleton]
    have hlast : Ends (parsePrefixName inp (calls inp (depth + 1)) r afterName)
        (site { base with inPrefix := true } r (x + n.code.length) (some before.length) subst
          (wrote (k + 1) o.lead n.text none none)) _ :=
      site_prefixName_behind (hb.setPrefix true) n.offerable hshort' (site_unqualified_special
        (hb.setPrefix true) hoffer n.offerable hbuf hshort hkind hspecial)
    rw [append_nil] at hstart
    rw [show lastStart (some o.lead.length) o.lead n.first n.rest = _ from hstart,
      length_append, ← Nat.add_assoc]
    exact site_prefixLoop_name hstarts.1 hspecial hlast fun subst =>
      site_prefixLoop_name (e := .ok subst) (by decide) hend
        (site_prefixName_end (hb.setPrefix true) rfl hend) fun _ => Returns.pure

def mangledName (q : QualifiedName) : Text :=
  if q.rest = [] then mangledPart q.first else 'N' :: q.nested ++ ['E']

theorem mangled_eq (q : QualifiedName) : q.mangled = '_' :: 'Z' :: q.mangledName := by
  unfold mangled mangledName nested
  split
  · rfl
  · simp

theorem nested_cons (q : QualifiedName) (tail : Text) :
    ∃ d text, q.nested ++ tail = d :: text ∧ startsName d = true := by
  obtain ⟨d, digits, hdigits, hd⟩ := startsName_mangledPart q.first
  exact ⟨d, digits ++ mangledRest q.first q.rest ++ tail, by rw [nested, hdigits]; rfl, hd⟩

theorem site_parseName (hfits : inp.size < 2 ^ 64) (htext : q.text.length < 2 ^ 64)
    (hroom : q.rest.length ≤ inp.capacity) (hdepth : q.rest.length + 1 < depth)
    (hx : At inp x q.mangledName) :
    ∃ flags delim start subst, flags.isTemplate = false ∧
      Returns (parseName inp (calls inp depth) 1 NameFlags.new)
        (site nameBase 1 x none [] Output.new) (true, flags)
        (site nameBase 1 inp.size start subst (wrote 0 [] q.text delim none)) := by
  unfold mangledName at hx
  by_cases hrest : q.rest = []
  · rw [if_pos hrest] at hx
    have hall : At inp x (mangledPart q.first ++ []) := by rwa [append_nil]
    have hname : q.text = q.first := by
      rw [text, hrest, qualifiedRest, flatMap_nil, append_nil]
    refine ⟨sourceFlags, none, some 0, [], rfl, ?_⟩
    rw [hname, ← hall.append.eq_size]
    exact Unmangle.site_parseName ready_nameBase hfits q.plain.isPart.1
      (q.plain.isPart.ordinary []) (fun c hc => absurd hc (by simp)) (by simp) fresh_new hall
  · rw [if_neg hrest] at hx
    obtain ⟨d, text, hcons, hd⟩ := q.nested_cons ['E']
    have hparts : At inp (x + 1) (q.nested ++ ['E']) := hx.next
    have hlen : (Output.new.pushed.pushed.lead ++ q.text).length < 2 ^ 64 := htext
    obtain ⟨flags, start, htemplate, hloop⟩ := site_prefixLoop none [] ready_nameBase hfits hlen
      fresh_new.pushed.pushed hdepth hparts
    have hkept : (kept [] (prefixEntries q.first q.rest)).length ≤ inp.capacity := by
      have hle := length_kept_le [] (prefixEntries q.first q.rest)
      rw [length_prefixEntries, length_nil] at hle
      omega
    refine ⟨flags, some "::".toList, start, kept [] (prefixEntries q.first q.rest), htemplate, ?_⟩
    have hchar : At inp x ('N' :: (CvQualifier.codes [] ++ d :: text)) := hcons ▸ hx
    have hname := site_parseName_nested ready_nameBase fresh_new rfl hd hchar hparts.append hloop
    rw [insertAll_ok hkept] at hname
    rw [← hparts.append.next.eq_size]
    exact hname

theorem offerable (q : QualifiedName) : Offerable q.text := q.plain.isPart.1.offerable.append _

/-- The states at the end, with the name in the output of the caller. -/
def finished (inp : Input) (text : Text) (o : Output) (start : Option Nat) (subst : List Text) :
    State :=
  ⟨inp.size, start, 0, none, subst, [], 0, 0, false, false, .success,
    [wrote 0 [] text none none, o]⟩

theorem returns_parseFunction {flags : NameFlags} {delim : Option Text}
    (htemplate : flags.isTemplate = false) :
    Returns (parseFunction inp call 0 1 flags)
      (site nameBase 1 inp.size start subst (wrote 0 [] q.text delim none)) ()
      { finished inp q.text (wrote 0 [] q.text delim none) start subst with
        cvQualifiers := some [] } := by
  have hreturn : Returns (parseReturnType inp call 0 flags)
      (site nameBase 1 inp.size start subst (wrote 0 [] q.text delim none)) false
      (site nameBase 1 inp.size start subst (wrote 0 [] q.text delim none)) := by
    refine .ite_false ?_ .pure
    rw [NameFlags.mayHaveReturnType, htemplate]
    exact Bool.false_ne_true
  have hempty : (!q.text.isEmpty) = true := by
    rw [List.isEmpty_eq_false_iff.mpr q.offerable.ne_nil]
    rfl
  have happend : Returns (appendOutput 0 1)
      (site nameBase 1 inp.size start subst (wrote 0 [] q.text delim none)) ()
      { finished inp q.text (wrote 0 [] q.text delim none) start subst with
        cvQualifiers := some [] } := by
    have hout : Output.new.append q.text = wrote 0 [] q.text none none :=
      fresh_new.append q.offerable
    rw [finished, ← hout]
    exact .bind (.bind .get .pure) (.ite_true hempty .modify)
  have hend : At inp inp.size [] := ⟨Nat.le_refl _, drop_length⟩
  refine .bind hreturn (.bind happend (.bind (.bind (returns_isOutside hend) .pure)
    (.ite_true rfl (.bind .get ?_))))
  -- there are no qualifiers
  cases inp.noFunArgs with
  | false => exact .pure
  | true => exact .pure

theorem mangledName_cons (q : QualifiedName) :
    ∃ c rest, q.mangledName = c :: rest ∧ c ≠ 'G' ∧ c ≠ 'T' := by
  unfold mangledName
  split
  · obtain ⟨d, digits, hdigits, hd⟩ := exists_digit q.first.length
    refine ⟨d, digits ++ q.first, by rw [mangledPart, hdigits, cons_append], ?_, ?_⟩
    · exact ne_of_separates hd (by decide)
    · exact ne_of_separates hd (by decide)
  · exact ⟨'N', q.nested ++ ['E'], rfl, by decide, by decide⟩

theorem returns_parseDataOrFuncName (hfits : inp.size < 2 ^ 64)
    (htext : q.text.length < 2 ^ 64) (hroom : q.rest.length ≤ inp.capacity)
    (hdepth : q.rest.length + 1 < depth) (hx : At inp 2 q.mangledName) :
    ∃ o start subst, Returns (parseDataOrFuncName inp (calls inp depth) 0)
      { State.new with pos := 2 } () (finished inp q.text o start subst) := by
  obtain ⟨flags, delim, start, subst, htemplate, hname⟩ :=
    site_parseName hfits htext hroom hdepth hx
  obtain ⟨c, rest, hfirst, -⟩ := mangledName_cons q
  rw [hfirst] at hx
  have htemp : Returns tempOutput { State.new with pos := 2, cvQualifiers := some [] } 1
      (site nameBase 1 2 none [] Output.new) := rfl
  exact ⟨wrote 0 [] q.text delim none, start, subst, .bind (returns_isInside hx) (.ite_true rfl
    (.bind .get (.bind .modify (.bind (.bind htemp (.bind hname (.ite_true rfl
      (returns_parseFunction htemplate)))) (.bind .modify .pure)))))⟩

theorem returns_parse (hname : inp.name = q.mangled) (hfits : inp.size < 2 ^ 64)
    (htext : q.text.length < 2 ^ 64) (hroom : q.rest.length ≤ inp.capacity)
    (hdepth : q.rest.length + 1 < depth) :
    ∃ s, Returns (parse inp (calls inp depth)) State.new (some q.text) s := by
  have hx : At inp 0 ('_' :: 'Z' :: q.mangledName) := ⟨Nat.zero_le _, hname⟩
  have hrest : At inp 2 q.mangledName := hx.next.next
  have hend : At inp inp.size [] := ⟨Nat.le_refl _, drop_length⟩
  obtain ⟨o, start, subst, hfunction⟩ :=
    returns_parseDataOrFuncName hfits htext hroom hdepth hrest
  obtain ⟨c, rest, hfirst, hG, hT⟩ := mangledName_cons q
  rw [hfirst] at hrest
  have hencoding : Returns (parseEncoding inp (calls inp depth) 0) { State.new with pos := 2 } ()
      (finished inp q.text o start subst) :=
    .bind (returns_isInside hrest) (.ite_true rfl
      (.bind (returns_parseSpecialName hG hT hrest) (.ite_false Bool.false_ne_true
        (.bind hfunction (.bind (returns_isOutside hend) (.ite_false Bool.false_ne_true .pure))))))
  have hne : q.text ≠ [] := append_ne_nil_of_left_ne_nil q.plain.ne_nil _
  have hresult : Returns result (finished inp q.text o start subst) (some q.text)
      (finished inp q.text o start subst) := by
    refine .bind .get (.bind (.bind .get .pure) ?_)
    rw [if_pos ⟨rfl, hne⟩]
    exact .pure
  exact ⟨_, .bind (returns_read (Nat.zero_le _)) (.ite_true hx.char (.bind (returns_read hx.lt)
    (.ite_true hx.next.char (.bind returns_moveTo (.bind hencoding hresult)))))⟩

theorem length_mangledBehind (prev : Text) {part : Text} (hpart : part ≠ []) :
    2 ≤ (mangledBehind prev part).length := by
  unfold mangledBehind
  split
  · exact Nat.le_refl _
  · split
    · exact Nat.le_refl _
    · have hpos := length_pos_iff.mpr hpart
      have hdigits := length_pos_iff.mpr (Nat.toDigits_ne_nil (n := part.length) (b := 10))
      rw [mangledPart, length_append]
      omega

theorem length_mangledRest {prev : Text} {rest : List Text} (h : ValidFrom prev rest) :
    2 * rest.length ≤ (mangledRest prev rest).length := by
  induction rest generalizing prev with
  | nil => exact Nat.zero_le _
  | cons part rest ih =>
    have hpart := length_mangledBehind prev (part_ne_nil h.head)
    have hrest := ih h.tail
    rw [mangledRest, length_append, length_cons]
    omega

theorem length_mangled (q : QualifiedName) : 2 * q.rest.length + 3 ≤ q.mangled.length := by
  have hrest := length_mangledRest q.valid
  have hfirst := length_mangledPart_pos q.first
  rw [mangled_eq]
  unfold mangledName nested
  split
  · next h =>
    rw [h]
    simp only [length_cons, length_nil]
    omega
  · simp only [length_cons, length_append]
    omega

theorem isIdentChar_mangledPart {part : Text} (h : Plain part) :
    ∀ c ∈ mangledPart part, isIdentChar c = true := by
  intro c hc
  rcases mem_append.mp hc with hc | hc
  · have hdigit := Nat.isDigit_of_mem_toDigits (by omega) (by omega) hc
    rw [isIdentChar, Char.isAlphanum, hdigit, Bool.or_true, Bool.true_or]
  · exact h.isIdentChar c hc

theorem isIdentChar_mangledRest {prev : Text} {rest : List Text} (h : ValidFrom prev rest) :
    ∀ c ∈ mangledRest prev rest, isIdentChar c = true := by
  induction rest generalizing prev with
  | nil => exact fun c hc => absurd hc not_mem_nil
  | cons part rest ih =>
    intro c hc
    rcases mem_append.mp hc with hc | hc
    · unfold mangledBehind at hc
      split at hc
      · exact all_eq_true.mp (by decide : "C1".toList.all isIdentChar = true) c hc
      · split at hc
        · exact all_eq_true.mp (by decide : "D1".toList.all isIdentChar = true) c hc
        · next hdtor => exact isIdentChar_mangledPart (h.head.resolve_right hdtor) c hc
    · exact ih h.tail c hc

theorem isIdentChar_mangled (q : QualifiedName) : ∀ c ∈ q.mangled, isIdentChar c = true := by
  have hfirst := isIdentChar_mangledPart q.plain
  have hrest := isIdentChar_mangledRest q.valid
  intro c hc
  rw [mangled_eq] at hc
  unfold mangledName nested at hc
  split at hc
  · simp only [mem_cons] at hc
    rcases hc with rfl | rfl | hc
    exacts [rfl, rfl, hfirst c hc]
  · simp only [mem_cons, mem_append, not_mem_nil, or_false, cons_append] at hc
    rcases hc with rfl | rfl | rfl | (hc | hc) | rfl
    exacts [rfl, rfl, rfl, hfirst c hc, hrest c hc, rfl]

end QualifiedName

theorem parse_encoded (q : QualifiedName) (qual : Text) (htext : q.text.length < 2 ^ 64) :
    ∃ mangled, Encoder.run .v3Abi q.text qual = .ok mangled ∧ '\x00' ∉ mangled ∧
      ∀ inp : Input, inp.name = mangled → inp.size < 2 ^ 64 → ∀ depth, inp.size ≤ depth →
        ∃ s, (run inp depth).2 = .ok (some q.text, s) := by
  refine ⟨q.mangled, q.run_eq qual, ?_, ?_⟩
  · exact fun hnul => absurd (q.isIdentChar_mangled _ hnul) (by decide)
  · intro inp hname hfits depth hdepth
    have hlen := q.length_mangled
    have hsize : inp.size = q.mangled.length := congrArg List.length hname
    have hroom : q.rest.length ≤ inp.capacity := by
      rw [Input.capacity]
      omega
    exact QualifiedName.returns_parse hname hfits htext hroom (by omega)

def destructorName : QualifiedName :=
  ⟨"foo".toList, ["bar".toList, "~bar".toList], by decide +kernel, by decide +kernel⟩

theorem parse_encoded_destructorName :
    Encoder.run .v3Abi destructorName.text [] = .ok "_ZN3foo3barD1E".toList ∧
      ∃ s, (run (.ofName "_ZN3foo3barD1E".toList (by decide)) 14).2 =
        .ok (some "foo::bar::~bar".toList, s) := by
  obtain ⟨mangled, hrun, -, hdecode⟩ := parse_encoded destructorName [] (by decide)
  have hmangled : Encoder.run .v3Abi destructorName.text [] = .ok "_ZN3foo3barD1E".toList := by
    decide +kernel
  have heq : "_ZN3foo3barD1E".toList = mangled := Except.ok.inj (hmangled.symm.trans hrun)
  exact ⟨hmangled, hdecode (.ofName "_ZN3foo3barD1E".toList (by decide)) heq (by decide) 14
    (by decide)⟩

end ZeroBugs.Unmangle
