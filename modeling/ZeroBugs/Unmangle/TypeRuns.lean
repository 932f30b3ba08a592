import ZeroBugs.Unmangle.SubstitutionSites

/-! # Runs over types -/
namespace ZeroBugs.Unmangle

open Lib Lib.Traced List

variable {inp : Input} {call : Calls} {base : State} {r : OutRef} {x k depth indx : Nat}
  {start : Option Nat} {subst : List Text} {o : Output} {c : Char} {rest q : Text}
  {marks : List Mark} {b : TypeBase}

structure Follows (rest : Text) : Prop where
  alphanum : ∀ c ∈ rest.head?, c.isAlphanum = true
  args : rest.head? ≠ some 'I'

namespace TypeBase

/-- What is asked of the type where it stands: a class name is not taken for that of an
anonymous namespace, and a substitution is there. -/
def Fits (subst : List Text) (rest : Text) : TypeBase → Prop
  | named (.builtin _) => True
  | named (.unscoped name _) => Ordinary name rest
  | named (.nested name) => name.text.length < 2 ^ 64
  | .subst i => i < npos ∧ ∃ text, subst[i]? = some text ∧ Offerable text

def Shown (marks : List Mark) : TypeBase → Prop
  | named (.builtin b) => b.Shown marks
  | _ => True

def height : TypeBase → Nat
  | named (.nested name) => name.rest.length + 1
  | _ => 0

end TypeBase

theorem site_typeBase (hb : Ready base r) (hq : base.cvQualifiers = some q)
    (hfits : inp.size < 2 ^ 64) (hrest : Follows rest) (hbase : b.Fits subst rest)
    (hshown : b.Shown marks) (ho : Fresh (k + 1) o) (hdepth : b.height < depth)
    (hx : At inp x (b.code ++ rest)) :
    ∃ start' delim index, k < maxPositions → Ends (do
        let c ← peek inp
        parseTypeKind inp (calls inp depth) r false indx (marksText marks) c)
      (site base r x start subst o)
      ((withinPositions (k + 1 + b.scopes) (insertAll inp.capacity subst
          (b.entries ++ asEntries (offers (b.text subst) marks)))).map fun subst' =>
        (true, site base r (x + b.code.length) start' subst'
          (wrote (k + 1) o.lead (b.text subst ++ marksText marks) delim index))) := by
  have hroom : ∀ e, k < maxPositions → withinPositions (k + 1 + 0) e = e := fun e hk => if_pos hk
  cases b with
  | named type =>
    cases type with
    | builtin b =>
      refine ⟨start, none, none, fun hk => ?_⟩
      have hc : startsNamed b.code = true := by
        rw [startsNamed, b.known, Option.isSome_some, Bool.or_true]
      show Ends _ _ ((withinPositions (k + 1 + 0) _).map _)
      rw [hroom _ hk]
      exact ends_parseTypeKind_named hc hx (site_parseNamedType_builtin hb.out ho hshown hx)
    | unscoped name identifier =>
      obtain ⟨d, digits, hdigits, hd⟩ := exists_digit name.length
      have hc : startsNamed d = true := by rw [startsNamed, hd]; rfl
      have hchar := hx
      rw [TypeBase.code, NamedType.code, mangledPart, hdigits] at hchar
      have hend := hx.append
      refine ⟨some o.lead.length, none, none, fun _ => ends_parseTypeKind_named hc hchar ?_⟩
      have hname : Ends (parseName inp (calls inp depth) r NameFlags.new)
          (site base r x start subst o) _ :=
        site_parseName hb hfits identifier hbase hrest.alphanum hrest.args ho hx
      have htype := site_parseNamedType_class hb (.inl hd) hchar hend.1 identifier.offerable marks
        hname
      rw [withinPositions_bind] at htype
      exact htype
    | nested name =>
      have hchar : At inp x ('N' :: (name.code ++ 'E' :: rest)) := by
        rw [TypeBase.code, NamedType.code, append_assoc] at hx
        exact hx
      have hend := hx.append
      have hlen : x + (TypeBase.named (.nested name)).code.length =
          x + 1 + ([] : List CvQualifier).length + name.code.length + 1 := by
        rw [TypeBase.code, NamedType.code, length_append, length_cons,
          length_singleton, length_nil]
        omega
      have hsame : { base with cvQualifiers := some (cvText [] ++ q) } = base := by
        rw [cvText, flatMap_nil, nil_append, ← hq]
      have hcode : At inp x ('N' :: (CvQualifier.codes [] ++ (name.code ++ 'E' :: rest))) := hchar
      have hname : Ends (parseName inp (calls inp depth) r NameFlags.new)
          (site base r x start subst o) _ :=
        NestedName.site_parseName hb hq hfits hbase ho hdepth hcode
      rw [hsame, ← hlen] at hname
      have htype := site_parseNamedType_class hb (.inr rfl) hchar hend.1 name.offerable marks hname
      simp only [withinPositions_bind, ← insertAll_append] at htype
      refine ⟨lastStart (some o.lead.length) o.lead name.first name.rest, some "::".toList, none,
        fun _ => ends_parseTypeKind_named (by decide) hchar ?_⟩
      rw [TypeBase.entries, NamedType.entries, append_assoc]
      exact htype
  | subst i =>
    obtain ⟨hi, text, helem, htext⟩ := hbase
    refine ⟨start, none, if marks = [] then some i else none, fun hk => ?_⟩
    have hget : (TypeBase.subst i).text subst = text := by
      rw [TypeBase.text, getD_eq_getElem?_getD, helem]
      rfl
    show Ends _ _ ((withinPositions (k + 1 + 0) _).map _)
    rw [hroom _ hk, hget]
    exact site_parseTypeKind_subst hb hi htext helem ho hrest.args hx marks

def Output.forParam (o : Output) (indx : Nat) : Output :=
  { o with delim := if indx ≠ 0 ∧ false = false then some ", ".toList else o.delim }

theorem Fresh.forParam (ho : Fresh k o) (indx : Nat) : Fresh k (o.forParam indx) := by
  refine ⟨ho.positions, ho.spaceOnce, fun d hd => ?_⟩
  by_cases hindx : indx ≠ 0 ∧ false = false
  · rw [Output.forParam, if_pos hindx] at hd
    exact Option.some.inj hd ▸ rfl
  · rw [Output.forParam, if_neg hindx] at hd
    exact ho.delim d hd

theorem lead_forParam (o : Output) (indx : Nat) :
    ((o.pushed.forParam indx).forParam indx).lead = (o.forParam indx).lead := by
  unfold Output.forParam Output.lead
  split
  · rfl
  · rfl

theorem site_parseType {e : Except Stop (List Text)} {n y : Nat} {start' index : Option Nat}
    {lead text : Text} {delim : Option Text} {quals : Text} (hr : r < base.outs.length)
    (ho : Fresh k o) (hn : k < n) (hx : At inp x (c :: rest))
    (hbody : k < maxPositions → Ends (do
        let c ← peek inp
        parseTypeKind inp call r false indx quals c)
      (site base r x start subst (o.pushed.forParam indx))
      ((withinPositions n e).map fun subst =>
        (true, site base r y start' subst (wrote (k + 1) lead text delim index)))) :
    Ends (parseType inp call r false indx quals) (site base r x start subst o)
      ((withinPositions n e).map fun subst =>
        (true, site base r y start' subst (wrote k lead text o.delim index))) := by
  refine .bind (returns_isInside hx) (.ite_true rfl (site_withPosition_within
    (wrote (k + 1) lead text o.delim index) hr hr (by rw [ho.length]; exact hn)
    fun hroom => ?_))
  exact site_withDelim (wrote (k + 1) lead text delim index) hr hr
    (hbody (ho.length ▸ hroom))

theorem Mark.code_cons (m : Mark) : ∃ c rest, m.code = c :: rest := by
  cases m with
  | indirection kind => exact ⟨kind.code, [], rfl⟩
  | qualifiers cv more => exact ⟨cv.code, CvQualifier.codes more, rfl⟩

theorem TypeBase.code_cons (b : TypeBase) :
    ∃ c rest, b.code = c :: rest ∧ ¬(c = 'r' ∨ c = 'V' ∨ c = 'K') := by
  have hne : ∀ {p : Char → Bool} {c : Char}, p c = true → p 'r' = false → p 'V' = false →
      p 'K' = false → ¬(c = 'r' ∨ c = 'V' ∨ c = 'K') := by
    rintro p c hc hr hV hK (rfl | rfl | rfl)
    · exact Bool.false_ne_true (hr.symm.trans hc)
    · exact Bool.false_ne_true (hV.symm.trans hc)
    · exact Bool.false_ne_true (hK.symm.trans hc)
  cases b with
  | named type =>
    cases type with
    | builtin b =>
      refine ⟨b.code, [], rfl, hne (p := fun c => (builtinTable c).isSome) ?_ rfl rfl rfl⟩
      rw [b.known, Option.isSome_some]
    | unscoped name identifier =>
      obtain ⟨d, digits, hdigits, hd⟩ := exists_digit name.length
      refine ⟨d, digits ++ name, ?_, hne hd (by decide) (by decide) (by decide)⟩
      rw [TypeBase.code, NamedType.code, mangledPart, hdigits, cons_append]
    | nested name => exact ⟨'N', name.code ++ ['E'], rfl, by decide⟩
  | subst i => exact ⟨'S', seqId i ++ ['_'], rfl, by decide⟩

theorem marksCode_cons (m : Mark) (marks : List Mark) :
    marksCode (m :: marks) = m.code ++ marksCode marks := flatMap_cons

theorem Separated.code_cons {cv : CvQualifier} {more : List CvQualifier}
    (h : Separated (.qualifiers cv more :: marks)) (b : TypeBase) (rest : Text) :
    ∃ c text, marksCode marks ++ (b.code ++ rest) = c :: text ∧
      ¬(c = 'r' ∨ c = 'V' ∨ c = 'K') := by
  cases marks with
  | nil =>
    obtain ⟨c, text, htext, hc⟩ := b.code_cons
    exact ⟨c, text ++ rest, by rw [htext]; rfl, hc⟩
  | cons m marks =>
    cases m with
    | indirection kind =>
      refine ⟨kind.code, marksCode marks ++ (b.code ++ rest), by rw [marksCode_cons]; rfl, ?_⟩
      cases kind <;> decide
    | qualifiers cv more => exact h.elim

theorem ends_parseTypeKind_mark {m : Mark} {behind : List Mark}
    {out : Except Stop (Bool × State)} (hsep : Separated (m :: marks))
    (hx : At inp x (m.code ++ (marksCode marks ++ (b.code ++ rest))))
    (h : Ends (call.type r false indx (marksText (m :: behind)))
      (site base r (x + m.code.length) start subst o) out) :
    Ends (do
      let c ← peek inp
      parseTypeKind inp call r false indx (marksText behind) c) (site base r x start subst o)
      out := by
  cases m with
  | indirection kind =>
    cases kind with
    | pointer =>
      exact .bind (returns_peek hx) (.ite_false (by decide) (.ite_false (by decide)
        (.ite_false (by decide) (.ite_true rfl (.bind returns_advance h)))))
    | reference =>
      exact .bind (returns_peek hx) (.ite_false (by decide) (.ite_false (by decide)
        (.ite_false (by decide) (.ite_false (by decide) (.ite_true rfl
          (.bind returns_advance h))))))
  | qualifiers cv more =>
    obtain ⟨d, text, htext, hd⟩ := hsep.code_cons b rest
    rw [htext] at hx
    have hread : Returns (parseCvQualifiers inp (marksText behind)) (site base r x start subst o)
        (!(cv :: more).isEmpty, cvText (cv :: more) ++ marksText behind)
        (site base r (x + (cv :: more).length) start subst o) := returns_cvQualifiers hd hx
    have hlen : (Mark.qualifiers cv more).code.length = (cv :: more).length := length_map _
    rw [hlen] at h
    have hnone : ∀ d, d ∉ ['r', 'V', 'K'] → cv.code ≠ d := by
      rintro d hd rfl
      cases cv <;> exact hd (by decide)
    have hkinds : ¬(cv.code = 'C' ∨ cv.code = 'G' ∨ cv.code = 'U') := by
      cases cv <;> decide
    exact .bind (returns_peek hx) (.ite_false (hnone 'A' (by decide))
      (.ite_false (hnone 'F' (by decide)) (.ite_false (hnone 'M' (by decide))
        (.ite_false (hnone 'P' (by decide)) (.ite_false (hnone 'R' (by decide))
          (.ite_false (hnone 'S' (by decide)) (.ite_false (hnone 'T' (by decide))
            (.ite_false hkinds (.bind hread (.ite_true rfl h))))))))))

theorem site_type (hb : Ready base r) (hq : base.cvQualifiers = some q)
    (hfits : inp.size < 2 ^ 64) (hrest : Follows rest) (hbase : b.Fits subst rest)
    (marks : List Mark) :
    ∀ {behind : List Mark} {depth x k : Nat} {o : Output}, Separated marks →
      b.Shown (marks.reverse ++ behind) → Fresh k o → marks.length + 1 + b.height < depth →
      At inp x (marksCode marks ++ (b.code ++ rest)) →
      ∃ start' index, Ends ((calls inp depth).type r false indx (marksText behind))
        (site base r x start subst o)
        ((withinPositions (k + 1 + marks.length + b.scopes) (insertAll inp.capacity subst
            (b.entries ++ asEntries (offers (b.text subst) (marks.reverse ++ behind))))).map
          fun subst' => (true, site base r (x + (marksCode marks ++ b.code).length) start' subst'
            (wrote k (o.forParam indx).lead
              (b.text subst ++ marksText (marks.reverse ++ behind)) o.delim index))) := by
  induction marks with
  | nil =>
    intro behind depth x k o _ hshown ho hdepth hx
    obtain ⟨depth, rfl⟩ := Nat.exists_eq_succ_of_ne_zero (Nat.ne_of_gt (Nat.zero_lt_of_lt hdepth))
    have hx : At inp x (b.code ++ rest) := hx
    obtain ⟨d, text, hcode, -⟩ := b.code_cons
    have hchar := hx
    rw [hcode] at hchar
    obtain ⟨start', delim, index, hbody⟩ := site_typeBase hb hq hfits hrest hbase hshown
      (ho.pushed.forParam indx) (show b.height < depth by omega) hx
    exact ⟨start', index, site_parseType hb.out ho (by omega) hchar hbody⟩
  | cons m marks ih =>
    intro behind depth x k o hsep hshown ho hdepth hx
    obtain ⟨depth, rfl⟩ := Nat.exists_eq_succ_of_ne_zero (Nat.ne_of_gt (Nat.zero_lt_of_lt hdepth))
    rw [length_cons] at hdepth
    have hreverse : (m :: marks).reverse ++ behind = marks.reverse ++ (m :: behind) := by
      rw [reverse_cons, append_assoc, singleton_append]
    rw [hreverse] at hshown ⊢
    rw [marksCode_cons, append_assoc] at hx
    have hless : marks.length + 1 + b.height < depth := by omega
    obtain ⟨start', index, hinner⟩ := ih hsep.tail hshown (ho.pushed.forParam indx) hless hx.append
    obtain ⟨d, text, hcode⟩ := m.code_cons
    have hchar := hx
    rw [hcode] at hchar
    have hlen : x + (marksCode (m :: marks) ++ b.code).length =
        x + m.code.length + (marksCode marks ++ b.code).length := by
      rw [marksCode_cons, append_assoc, length_append, Nat.add_assoc]
    have hscopes : k + 1 + (m :: marks).length + b.scopes =
        k + 1 + 1 + marks.length + b.scopes := by
      rw [length_cons]
      omega
    rw [lead_forParam] at hinner
    rw [hlen, hscopes]
    exact ⟨start', index, site_parseType hb.out ho (by omega) hchar fun _ =>
      ends_parseTypeKind_mark hsep hx hinner⟩

end ZeroBugs.Unmangle
