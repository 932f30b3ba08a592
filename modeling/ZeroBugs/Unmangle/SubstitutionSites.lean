import ZeroBugs.Unmangle.TypeSites

/-! # Substitutions at a site -/
namespace ZeroBugs.Unmangle

open Lib Lib.Traced List

variable {inp : Input} {call : Calls} {base : State} {r : OutRef} {x k : Nat}
  {start : Option Nat} {subst : List Text} {o : Output} {c : Char} {rest text : Text}
  {marks : List Mark}

def seqValue (c : Char) : Nat := if c.isDigit then c.toNat - 48 else c.toNat - 55

def seqNumber (n : Nat) : Text → Nat
  | [] => n
  | c :: digits => seqNumber (n * 36 + seqValue c) digits

theorem seqNumber_append (digits more : Text) (n : Nat) :
    seqNumber n (digits ++ more) = seqNumber (seqNumber n digits) more := by
  induction digits generalizing n with
  | nil => rfl
  | cons c digits ih => exact ih _

theorem seqDigit_spec : ∀ n < 36,
    ((seqDigit n).isDigit || (seqDigit n).isUpper) = true ∧ seqValue (seqDigit n) = n := by
  decide

theorem seqDigits_spec (n : Nat) :
    seqNumber 0 (seqDigits n) = n ∧ seqDigits n ≠ [] ∧
      ∀ c ∈ seqDigits n, (c.isDigit || c.isUpper) = true := by
  induction n using seqDigits.induct with
  | case1 n hn =>
    obtain ⟨hchar, hvalue⟩ := seqDigit_spec n hn
    rw [seqDigits, if_pos hn]
    refine ⟨?_, cons_ne_nil _ _, fun c hc => ?_⟩
    · rw [seqNumber, seqNumber, hvalue, Nat.zero_mul, Nat.zero_add]
    · rwa [mem_singleton.mp hc]
  | case2 n hn ih =>
    obtain ⟨hnumber, -, hchars⟩ := ih
    obtain ⟨hchar, hvalue⟩ := seqDigit_spec (n % 36) (Nat.mod_lt _ (by decide))
    rw [seqDigits, if_neg hn]
    refine ⟨?_, append_ne_nil_of_right_ne_nil _ (cons_ne_nil _ _), fun c hc => ?_⟩
    · rw [seqNumber_append, hnumber, seqNumber, seqNumber, hvalue]
      exact Nat.div_add_mod' n 36
    · rcases mem_append.mp hc with hc | hc
      · exact hchars c hc
      · rwa [mem_singleton.mp hc]

theorem le_seqNumber (digits : Text) (n : Nat) : n ≤ seqNumber n digits := by
  induction digits generalizing n with
  | nil => exact Nat.le_refl n
  | cons c digits ih => exact Nat.le_trans (by omega) (ih _)

theorem returns_seqIdLoop {digits : Text} :
    ∀ {c : Char} {n : Nat} {s : State},
      (∀ d ∈ c :: digits, (d.isDigit || d.isUpper) = true) →
      seqNumber n (c :: digits) < 2 ^ 64 → At inp s.pos (c :: digits ++ '_' :: rest) →
      Returns (seqIdLoop inp n (c :: digits ++ '_' :: rest)) s (seqNumber n (c :: digits))
        { s with pos := s.pos + (c :: digits).length } := by
  induction digits with
  | nil =>
    intro c n s hdigits hfits hx
    have hvalue : sizeT (n * 36 + seqValue c) = n * 36 + seqValue c := Nat.mod_eq_of_lt hfits
    refine .ite_true (hdigits c mem_cons_self) (.bind returns_advance
      (.bind (returns_peek hx.next) (.ite_true rfl ?_)))
    rw [seqNumber, seqNumber, ← hvalue]
    exact .pure
  | cons d digits ih =>
    intro c n s hdigits hfits hx
    obtain ⟨hc, hdigits⟩ := forall_mem_cons.mp hdigits
    have hd : d ≠ '_' := ne_of_separates (p := fun d => d.isDigit || d.isUpper)
      (hdigits d mem_cons_self) (by decide)
    have hvalue : sizeT (n * 36 + seqValue c) = n * 36 + seqValue c :=
      Nat.mod_eq_of_lt (Nat.lt_of_le_of_lt (le_seqNumber (d :: digits) _) hfits)
    have hloop := ih (s := { s with pos := s.pos + 1 }) hdigits hfits hx.next
    refine .ite_true hc (.bind returns_advance (.bind (returns_peek hx.next) (.ite_false hd ?_)))
    rw [length_cons, Nat.add_comm (d :: digits).length, ← Nat.add_assoc, seqNumber]
    nth_rewrite 1 [← hvalue] at hloop
    exact hloop

theorem stdAbbreviation_eq_none (h : (c.isDigit || c.isUpper || c = '_') = true) :
    stdAbbreviation c = none := by
  unfold stdAbbreviation
  split
  case h_8 => rfl
  all_goals exact absurd h (by decide)

theorem returns_parseSeqId {s : State} {i : Nat} (hi : i < npos)
    (hx : At inp s.pos (seqId i ++ '_' :: rest)) :
    ∃ d more, seqId i ++ '_' :: rest = d :: more ∧ stdAbbreviation d = none ∧
      Returns (parseSeqId inp d) s i { s with pos := s.pos + (seqId i).length } := by
  cases i with
  | zero => exact ⟨'_', rest, rfl, rfl, .ite_true rfl .pure⟩
  | succ i =>
    obtain ⟨hnumber, hnil, hchars⟩ := seqDigits_spec i
    have hfits : i + 1 < 2 ^ 64 := Nat.lt_trans hi (by decide)
    have hnext : sizeT (i + 1) = i + 1 := Nat.mod_eq_of_lt hfits
    rw [seqId] at hx ⊢
    cases hdigits : seqDigits i with
    | nil => exact absurd hdigits hnil
    | cons d digits =>
      rw [hdigits] at hx hchars hnumber
      have hd := hchars d mem_cons_self
      have hscore : d ≠ '_' := ne_of_separates (p := fun d => d.isDigit || d.isUpper) hd (by decide)
      have hloop := returns_seqIdLoop (n := 0) hchars (by rw [hnumber]; omega) hx
      rw [hnumber, ← hx.2] at hloop
      refine ⟨d, digits ++ '_' :: rest, rfl, ?_, ?_⟩
      · exact stdAbbreviation_eq_none (by rw [hd, Bool.true_or])
      · refine .ite_false hscore (.bind returns_getPos (.bind hloop ?_))
        rw [hnext]
        exact .pure

theorem site_emitSubstitution {i : Nat} (hb : Ready base r) (hi : i < npos)
    (htext : Offerable text) (helem : subst[i]? = some text) (ho : Fresh k o) :
    Returns (emitSubstitution r i) (site base r x start subst o) ()
      (site base r x start subst (wrote k o.lead text none (some i))) := by
  have hstatus : (site base r x start subst o).status = .success := hb.status
  have hfound : Returns (outputElem r subst i) (site base r x start subst o) true
      (site base r x start subst (wrote k o.lead text none none)) := by
    rw [outputElem, helem, ← ho.append htext]
    exact .bind (site_append hb.out) .pure
  have hindex : Returns (updateOutput r fun o =>
        { o with substIndex := if i = npos then none else some i })
      (site base r x start subst (wrote k o.lead text none none)) ()
      (site base r x start subst (wrote k o.lead text none (some i))) := by
    rw [if_neg (Nat.ne_of_lt hi)]
    exact site_updateOutput hb.out
  exact .bind .get (.ite_true hstatus (.bind hfound (.bind .pure hindex)))

theorem site_parseSubstitution {i : Nat} (hb : Ready base r) (hi : i < npos)
    (htext : Offerable text) (helem : subst[i]? = some text) (ho : Fresh k o)
    (hx : At inp x (substCode i ++ rest)) :
    Returns (parseSubstitution inp r NameFlags.new) (site base r x start subst o) NameFlags.new
      (site base r (x + (substCode i).length) start subst
        (wrote k o.lead text none (some i))) := by
  rw [substCode, cons_append, append_assoc, singleton_append] at hx
  obtain ⟨d, more, hcode, hstd, hseq⟩ := returns_parseSeqId (s := site base r (x + 1) start subst o)
    hi hx.next
  have hnext := hx.next
  rw [hcode] at hnext
  have hend : At inp (x + 1 + (seqId i).length) ('_' :: rest) := hx.next.append
  refine .bind (returns_assertInside hx) (.bind (returns_assertChar hx) (.bind returns_advance
    (.bind (returns_peek hnext) ?_)))
  rw [hstd, show x + (substCode i).length = x + 1 + (seqId i).length + 1 by
    rw [substCode, length_cons, length_append, length_singleton]; omega]
  exact .bind hseq (.bind returns_getPos (.bind (returns_nutsAssert (decide_eq_true hend.1))
    (.bind (site_emitSubstitution hb hi htext helem ho) (.bind returns_closing .pure))))

theorem insertEntry_again (capacity : Nat) (subst : List Text) (text : Text) :
    ((insertEntry capacity subst ⟨text, false⟩).bind fun subst =>
      insertEntry capacity subst ⟨text, false⟩) = insertEntry capacity subst ⟨text, false⟩ := by
  have hlast : ∀ subst : List Text, subst.getLast? = some text →
      insertEntry capacity subst ⟨text, false⟩ = .ok subst := by
    intro subst h
    rw [insertEntry, if_neg]
    rintro (hfalse | hne)
    · exact Bool.false_ne_true hfalse
    · exact hne h
  unfold insertEntry
  split
  · split
    · exact hlast _ getLast?_concat
    · rfl
  · next h => exact hlast subst (not_not.mp fun hne => h (.inr hne))

theorem insertAll_offers_again (capacity : Nat) (subst : List Text) (text : Text)
    (hmarks : marks ≠ []) :
    ((insertAll capacity subst (asEntries (offers text marks))).bind fun subst =>
      insertEntry capacity subst ⟨text ++ marksText marks, false⟩) =
      insertAll capacity subst (asEntries (offers text marks)) := by
  rw [offers, if_neg hmarks, asEntries, map_append, insertAll_append, map_singleton]
  cases insertAll capacity subst _ with
  | error _ => rfl
  | ok subst =>
    show (insertAll capacity subst _).bind _ = insertAll capacity subst _
    rw [insertAll_singleton]
    exact insertEntry_again capacity subst _

theorem site_parseSubstitutedType {i : Nat} (hb : Ready base r) (hi : i < npos)
    (htext : Offerable text) (helem : subst[i]? = some text) (ho : Fresh (k + 1) o)
    (hargs : rest.head? ≠ some 'I') (hx : At inp x (substCode i ++ rest)) (marks : List Mark) :
    Ends (parseSubstitutedType inp call r (marksText marks)) (site base r x start subst o)
      ((insertAll inp.capacity subst (asEntries (offers text marks))).map fun subst =>
        (NameFlags.new, site base r (x + (substCode i).length) start subst
          (wrote (k + 1) o.lead (text ++ marksText marks) none
            (if marks = [] then some i else none)))) := by
  have hread : Returns (parseSubstitution inp r NameFlags.new) (site base r x start subst o) _ _ :=
    site_parseSubstitution hb hi htext helem ho hx
  have hend := hx.append
  rw [substCode, cons_append, append_assoc, singleton_append] at hx
  obtain ⟨d, more, hcode, hstd, -⟩ := returns_parseSeqId (s := site base r (x + 1) start subst o)
    hi hx.next
  have ht : d ≠ 't' := by
    rintro rfl
    exact absurd hstd (by decide)
  have hnext := hx.next
  rw [hcode] at hnext
  have hsecond : Returns (read inp (x + 1)) (site base r x start subst o) d
      (site base r x start subst o) := hnext.char ▸ returns_read hnext.1
  exact .bind returns_getPos (.bind hsecond (.ite_false ht (.bind hread
    (.bind (site_addSubstitution_index hb.out rfl) (.bind (returns_isAt_ne hend hargs)
      (.ite_false Bool.false_ne_true (.bind (site_position hb.out)
        (.bind_returns (site_qualify hb.out htext marks) fun _ => .pure))))))))

theorem site_parseTypeKind_subst {i indx : Nat} (hb : Ready base r) (hi : i < npos)
    (htext : Offerable text) (helem : subst[i]? = some text) (ho : Fresh (k + 1) o)
    (hargs : rest.head? ≠ some 'I') (hx : At inp x (substCode i ++ rest)) (marks : List Mark) :
    Ends (do
        let c ← peek inp
        parseTypeKind inp call r false indx (marksText marks) c) (site base r x start subst o)
      ((insertAll inp.capacity subst (asEntries (offers text marks))).map fun subst =>
        (true, site base r (x + (substCode i).length) start subst
          (wrote (k + 1) o.lead (text ++ marksText marks) none
            (if marks = [] then some i else none)))) := by
  have htype : Ends (parseSubstitutedType inp call r (marksText marks))
      (site base r x start subst o) _ :=
    site_parseSubstitutedType hb hi htext helem ho hargs hx marks
  have hend := hx.append
  refine .bind (returns_peek hx) (.ite_false (by decide) (.ite_false (by decide)
    (.ite_false (by decide) (.ite_false (by decide) (.ite_false (by decide) (.ite_true rfl ?_))))))
  by_cases hmarks : marks = []
  · rw [if_pos hmarks] at htype ⊢
    exact .bind_returns htype fun _ => .bind (site_addSubstitution_index hb.out rfl) .pure
  · rw [if_neg hmarks] at htype ⊢
    rw [← insertAll_offers_again _ _ _ hmarks, ← except_map_bind]
    refine .bind_map htype fun subst _ => ?_
    exact .bind_returns (site_addSubstitution hb.out hend.1 (htext.append _)
      fun c => Bool.or_true _) fun _ => .pure

end ZeroBugs.Unmangle
