import ZeroBugs.Unmangle.NestedSites

/-! # Types with a name at a site -/
namespace ZeroBugs.Unmangle

open Lib Lib.Traced

variable {inp : Input} {call : Calls} {base : State} {r : OutRef} {x k : Nat}
  {start : Option Nat} {subst : List Text} {o : Output} {c : Char} {rest lead text : Text}
  {delim : Option Text} {index : Option Nat} {marks : List Mark}

theorem wrote_qualified : (wrote k lead text delim index).qualified marks =
    wrote k lead (text ++ marksText marks) delim (if marks = [] then index else none) := by
  unfold Output.qualified
  split
  · next h => rw [h, marksText, List.flatMap_nil, List.append_nil]
  · simp only [wrote, List.append_assoc]

theorem site_qualify (hr : r < base.outs.length) (htext : Offerable text) (marks : List Mark) :
    Ends (applyQualifiers inp r (marksText marks) (some lead.length))
      (site base r x start subst (wrote k lead text delim index))
      ((insertAll inp.capacity subst (asEntries (offers text marks))).map fun subst =>
        ((), site base r x start subst (wrote k lead (text ++ marksText marks) delim
          (if marks = [] then index else none)))) := by
  rw [← wrote_qualified]
  exact site_applyQualifiers hr htext rfl marks

theorem site_addSubstitution (hr : r < base.outs.length) (hx : x ≤ inp.size)
    (htext : Offerable text) {flags : NameFlags} (hflags : ∀ c, flags.maySubstitute c = true) :
    Ends (addSubstitution inp r flags)
      (site base r x start subst (wrote (k + 1) lead text delim none))
      ((insertEntry inp.capacity subst ⟨text, flags.isSource⟩).map fun subst =>
        ({ flags with isSource := false },
          site base r x start subst (wrote (k + 1) lead text delim none))) := by
  have hsize : lead.length < (wrote (k + 1) lead text delim none).size := by
    have hpos := List.length_pos_iff.mpr htext.ne_nil
    rw [Output.size, wrote, List.length_append]
    omega
  have hsub : (wrote (k + 1) lead text delim none).substrFrom lead.length = text := List.drop_left
  refine .bind (site_position hr) (.bind (site_output hr) (.ite_true ⟨rfl, hsize⟩
    (.bind (peek_at hx rfl) ?_)))
  rw [hflags, show (wrote (k + 1) lead text delim none).positions.headD 0 = lead.length from rfl,
    hsub]
  exact .bind_returns (site_insertSubst htext flags.isSource) fun _ => .pure

theorem site_addSubstitution_index (hr : r < base.outs.length) {i : Nat} {flags : NameFlags}
    (ho : o.substIndex = some i) :
    Returns (addSubstitution inp r flags) (site base r x start subst o)
      { flags with isSource := false } (site base r x start subst o) := by
  refine .bind (site_position hr) (.bind (site_output hr) (.ite_false ?_ .pure))
  rw [ho]
  exact fun h => Option.some_ne_none _ h.1

def startsNamed (c : Char) : Bool := c.isDigit || c = 'N' || (builtinTable c).isSome

theorem ends_parseTypeKind_named {out : Except Stop (Bool × State)} {s : State} {indx : Nat}
    {quals : Text} (hc : startsNamed c = true) (hx : At inp s.pos (c :: rest))
    (h : Ends (parseNamedType inp call r false quals) s out) :
    Ends (do
      let c ← peek inp
      parseTypeKind inp call r false indx quals c) s out := by
  have hne : ∀ d, startsNamed d = false → c ≠ d := fun d hd => ne_of_separates hc hd
  have hkinds : ¬(c = 'C' ∨ c = 'G' ∨ c = 'U') := by
    rintro (h | h | h)
    · exact hne 'C' (by decide) h
    · exact hne 'G' (by decide) h
    · exact hne 'U' (by decide) h
  have hquals : ¬(c = 'r' ∨ c = 'V' ∨ c = 'K') := by
    rintro (h | h | h)
    · exact hne 'r' (by decide) h
    · exact hne 'V' (by decide) h
    · exact hne 'K' (by decide) h
  exact .bind (returns_peek hx) (.ite_false (hne 'A' (by decide)) (.ite_false (hne 'F' (by decide))
    (.ite_false (hne 'M' (by decide)) (.ite_false (hne 'P' (by decide))
      (.ite_false (hne 'R' (by decide)) (.ite_false (hne 'S' (by decide))
        (.ite_false (hne 'T' (by decide)) (.ite_false hkinds
          (.bind (returns_parseCvQualifiers hquals hx) (.ite_false Bool.false_ne_true h))))))))))

theorem Builtin.offerable (b : Builtin) : Offerable b.text.toList := by
  have hall : ∀ t ∈ builtinTexts, t.head?.any (fun c => c ≠ ',' ∧ c ≠ ':' ∧ c ≠ '>') = true := by
    decide
  have hhead := hall _ b.text_mem
  cases htext : b.text.toList with
  | nil => exact absurd (htext ▸ hhead) (by decide)
  | cons c rest =>
    rw [htext] at hhead
    exact ⟨c, rest, rfl, of_decide_eq_true hhead⟩

/-- Whether a builtin type is shown as a parameter: void is not, unless there are
qualifiers. -/
def Builtin.Shown (b : Builtin) (marks : List Mark) : Prop := b.code = 'v' → marks ≠ []

theorem site_parseBuiltinType {b : Builtin} (hr : r < base.outs.length) (ho : Fresh k o)
    (hshown : b.Shown marks) (hx : At inp x (b.code :: rest)) :
    ∃ kind, Returns (parseBuiltinType inp call r (false || !(marksText marks).isEmpty))
        (site base r x start subst o) kind
        (site base r (x + 1) start subst (wrote k o.lead b.text.toList none none)) ∧
      (kind = .normal ∨ kind = .void) := by
  have hu : b.code ≠ 'u' := fun h => absurd (h ▸ b.known) (by simp [builtinTable])
  have hvoid : ¬(b.code = 'v' ∧ (false || !(marksText marks).isEmpty) = false ∧
      (site base r x start subst o).inPrototype ≠ 0) := by
    rintro ⟨hv, hempty, -⟩
    cases marks with
    | nil => exact hshown hv rfl
    | cons m marks =>
      obtain ⟨c, rest, htext, -⟩ := marksText_cons m marks
      rw [htext] at hempty
      exact absurd hempty (by simp)
  refine ⟨if b.code = 'v' then .void else .normal, ?_, ?_⟩
  · rw [← ho.append b.offerable]
    refine .bind (returns_isInside hx) (.ite_true rfl (.bind (returns_peek hx) (.bind .get
      (.ite_false hu (.ite_false hvoid ?_)))))
    rw [b.known]
    exact .bind (site_append hr) (.bind returns_advance .pure)
  · split
    · exact .inr rfl
    · exact .inl rfl

theorem site_parseNamedType_builtin {b : Builtin} (hr : r < base.outs.length)
    (ho : Fresh (k + 1) o) (hshown : b.Shown marks) (hx : At inp x (b.code :: rest)) :
    Ends (parseNamedType inp call r false (marksText marks)) (site base r x start subst o)
      ((insertAll inp.capacity subst (asEntries (offers b.text.toList marks))).map fun subst =>
        (true, site base r (x + 1) start subst
          (wrote (k + 1) o.lead (b.text.toList ++ marksText marks) none none))) := by
  obtain ⟨kind, hbuiltin, hkind⟩ : ∃ kind, Returns
        (parseBuiltinType inp call r (false || !(marksText marks).isEmpty))
        (site base r x start subst o) kind
        (site base r (x + 1) start subst (wrote (k + 1) o.lead b.text.toList none none)) ∧
      (kind = .normal ∨ kind = .void) := site_parseBuiltinType hr ho hshown hx
  have hnone : kind ≠ .none := by
    rintro rfl
    exact absurd hkind (by decide)
  have hplain : (decide (kind = .none) || decide (kind = .vendor)) = false := by
    rcases hkind with rfl | rfl
    · rfl
    · rfl
  have hfinish : Ends (finishNamedType inp r (marksText marks) kind
        { NameFlags.new with isSource := kind = .vendor })
      (site base r (x + 1) start subst (wrote (k + 1) o.lead b.text.toList none none))
      ((insertAll inp.capacity subst (asEntries (offers b.text.toList marks))).map fun subst =>
        (true, site base r (x + 1) start subst
          (wrote (k + 1) o.lead (b.text.toList ++ marksText marks) none
            (if marks = [] then none else none)))) := by
    refine .bind .get (.bind (.ite_false (by rw [hplain]; exact Bool.false_ne_true) .pure) ?_)
    exact .bind (site_position hr)
      (.bind_returns (site_qualify hr b.offerable marks) fun _ => .pure)
  rw [ite_self] at hfinish
  exact .bind hbuiltin (.ite_false hnone hfinish)

theorem withinPositions_bind {n : Nat} (e : Except Stop (List Text))
    (f : List Text → Except Stop (List Text)) :
    (withinPositions n e).bind f = withinPositions n (e.bind f) := by
  unfold withinPositions
  split
  · rfl
  · rfl

theorem returns_parseBuiltinType_none {ret : Bool} {s : State}
    (hc : c.isDigit = true ∨ c = 'N') (hx : At inp s.pos (c :: rest)) :
    Returns (parseBuiltinType inp call r ret) s .none s := by
  have hne : ∀ d : Char, (d.isDigit || d = 'N') = false → c ≠ d := fun d hd =>
    ne_of_separates (p := fun d => d.isDigit || d = 'N') (by simpa using hc) hd
  have htable : builtinTable c = none := by
    unfold builtinTable
    split
    case h_22 => rfl
    all_goals exact absurd rfl (hne _ (by decide))
  refine .bind (returns_isInside hx) (.ite_true rfl (.bind (returns_peek hx) (.bind .get
    (.ite_false (hne 'u' (by decide)) (.ite_false (fun h => hne 'v' (by decide) h.1) ?_)))))
  rw [htable]
  exact .pure

theorem site_parseNamedType_class {e : Except Stop (List Text)} {start' : Option Nat} {y : Nat}
    (hb : Ready base r) (hc : c.isDigit = true ∨ c = 'N') (hx : At inp x (c :: rest))
    (hy : y ≤ inp.size) (htext : Offerable text) (marks : List Mark)
    (hname : Ends (parseName inp call r NameFlags.new) (site base r x start subst o)
      (e.map fun subst => ((true, sourceFlags),
        site base r y start' subst (wrote (k + 1) lead text delim none)))) :
    Ends (parseNamedType inp call r false (marksText marks)) (site base r x start subst o)
      ((e.bind fun subst => insertAll inp.capacity subst
          (⟨text, true⟩ :: asEntries (offers text marks))).map fun subst =>
        (true, site base r y start' subst
          (wrote (k + 1) lead (text ++ marksText marks) delim none))) := by
  have hfinish : ∀ subst, Ends (finishNamedType inp r (marksText marks) .none sourceFlags)
      (site base r y start' subst (wrote (k + 1) lead text delim none))
      ((insertAll inp.capacity subst (⟨text, true⟩ :: asEntries (offers text marks))).map
        fun subst => (true, site base r y start' subst
          (wrote (k + 1) lead (text ++ marksText marks) delim (if marks = [] then none else none))))
      := by
    intro subst
    have hadd : Ends (do
          let _ ← addSubstitution inp r sourceFlags
          pure ()) (site base r y start' subst (wrote (k + 1) lead text delim none))
        ((insertEntry inp.capacity subst ⟨text, true⟩).map fun subst =>
          ((), site base r y start' subst (wrote (k + 1) lead text delim none))) :=
      .bind_returns (site_addSubstitution hb.out hy htext fun c => by
        rw [NameFlags.maySubstitute]; exact Bool.or_true _) fun _ => .pure
    rw [insertAll, ← except_map_bind]
    refine .bind .get (.bind_map (.ite_true rfl hadd) fun subst _ => ?_)
    exact .bind (site_position hb.out)
      (.bind_returns (site_qualify hb.out htext marks) fun _ => .pure)
  simp only [ite_self] at hfinish
  refine .bind (returns_parseBuiltinType_none hc hx) (.ite_true rfl ?_)
  rw [← except_map_bind]
  exact .bind_map hname fun subst _ => .ite_true rfl (hfinish subst)

end ZeroBugs.Unmangle
