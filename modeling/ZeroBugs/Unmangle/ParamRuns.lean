import ZeroBugs.Unmangle.FunctionRuns

/-! # Runs over parameters -/
namespace ZeroBugs.Unmangle

open Lib Lib.Traced List

variable {inp : Input} {f : FunctionName} {x depth i : Nat} {s : State} {rest : Text}
  {marks : List Mark} {b : TypeBase} {out : List Text → Except Stop (List Text)}

theorem Builtin.isAlphanum_code (b : Builtin) :
    b.code.isAlphanum = true ∧ b.code ≠ 'I' ∧ b.code ≠ 'E' ∧ b.code ≠ 'N' := by
  have hall : builtinCodes.all (fun c =>
      c.isAlphanum = true ∧ c ≠ 'I' ∧ c ≠ 'E' ∧ c ≠ 'N') = true := by decide
  exact of_decide_eq_true (all_eq_true.mp hall _ b.code_mem)

def TypeBase.IsNested : TypeBase → Prop
  | named (.nested _) => True
  | _ => False

theorem typeCode_cons (marks : List Mark) (b : TypeBase) :
    ∃ c text, marksCode marks ++ b.code = c :: text ∧ c.isAlphanum = true ∧ c ≠ 'I' ∧ c ≠ 'E' ∧
      (¬b.IsNested → c ≠ 'N') := by
  cases marks with
  | cons m marks =>
    cases m with
    | indirection kind =>
      refine ⟨kind.code, marksCode marks ++ b.code, by rw [marksCode_cons]; rfl, ?_⟩
      cases kind <;> exact ⟨by decide, by decide, by decide, fun _ => by decide⟩
    | qualifiers cv more =>
      refine ⟨cv.code, CvQualifier.codes more ++ marksCode marks ++ b.code,
        by rw [marksCode_cons]; rfl, ?_⟩
      cases cv <;> exact ⟨by decide, by decide, by decide, fun _ => by decide⟩
  | nil =>
    cases b with
    | named type =>
      cases type with
      | builtin b =>
        obtain ⟨halnum, hargs, hend, hnested⟩ := b.isAlphanum_code
        exact ⟨b.code, [], rfl, halnum, hargs, hend, fun _ => hnested⟩
      | unscoped name identifier =>
        obtain ⟨d, digits, hdigits, hd⟩ := exists_digit name.length
        have hne : ∀ c : Char, c.isDigit = false → d ≠ c := fun c hc => ne_of_separates hd hc
        refine ⟨d, digits ++ name, ?_, by rw [Char.isAlphanum, hd, Bool.or_true],
          hne _ (by decide), hne _ (by decide), fun _ => hne _ (by decide)⟩
        rw [TypeBase.code, NamedType.code, mangledPart, hdigits]
        rfl
      | nested name =>
        exact ⟨'N', name.code ++ ['E'], rfl, by decide, by decide, by decide,
          fun h => absurd trivial h⟩
    | subst i =>
      exact ⟨'S', seqId i ++ ['_'], rfl, by decide, by decide, by decide, fun _ => by decide⟩

theorem Follows.nil : Follows [] :=
  ⟨fun _ h => absurd h (by simp), fun h => absurd h (by simp)⟩

theorem Follows.cons {c : Char} (hc : c.isAlphanum = true) (hargs : c ≠ 'I') (rest : Text) :
    Follows (c :: rest) :=
  ⟨fun _ h => Option.some.inj h ▸ hc, fun h => hargs (Option.some.inj h)⟩

theorem follows_typeCode (marks : List Mark) (b : TypeBase) (rest : Text) :
    Follows (marksCode marks ++ b.code ++ rest) := by
  obtain ⟨c, text, hcode, hc, hargs, -⟩ := typeCode_cons marks b
  rw [hcode]
  exact .cons hc hargs _

theorem length_le_length_mangledParts (parts : List Text) :
    parts.length ≤ (mangledParts parts).length := by
  induction parts with
  | nil => exact Nat.le_refl 0
  | cons part parts ih =>
    have hpos := length_mangledPart_pos part
    rw [mangledParts_cons, length_append, length_cons]
    omega

theorem TypeBase.height_lt_length (b : TypeBase) : b.height < b.code.length := by
  cases b with
  | named type =>
    cases type with
    | builtin b => exact Nat.zero_lt_one
    | unscoped name identifier => exact length_mangledPart_pos name
    | nested name =>
      have hle := length_le_length_mangledParts (name.first :: name.rest)
      rw [length_cons] at hle
      simp only [TypeBase.height, TypeBase.code, NamedType.code, NestedName.code,
        length_append, length_cons]
      omega
  | subst i => exact Nat.succ_pos _

theorem height_lt_length (marks : List Mark) (b : TypeBase) :
    marks.length + b.height < (marksCode marks ++ b.code).length := by
  induction marks with
  | nil =>
    rw [length_nil, Nat.zero_add]
    exact b.height_lt_length
  | cons m marks ih =>
    obtain ⟨c, text, hcode⟩ := m.code_cons
    rw [marksCode_cons, hcode, length_append]
    simp only [length_append, length_cons] at ih ⊢
    omega

theorem yields_paramLoop_nil (h : AtParam inp f x s) (hx : At inp x []) :
    Yields State.subst ((calls inp (depth + 2)).paramLoop (paramRef inp) i) s (.ok s.subst)
      fun _ s' => s'.pos = inp.size := by
  obtain ⟨name, start, o, -, -, hs⟩ := h
  have hpos : s.pos = x := by rw [hs]; rfl
  rw [← hpos] at hx
  exact .of_returns (.bind (.bind (returns_isOutside hx) (.ite_false Bool.false_ne_true .pure))
    (.ite_false Bool.false_ne_true .pure)) rfl hx.eq_size

section

variable (h : AtParam inp f x s) (hfits : inp.size < 2 ^ 64) (hrest : Follows rest)
  (hbase : b.Fits s.subst rest) (hsep : Separated marks) (hshown : b.Shown marks.reverse)
  (hdepth : marks.length + 1 + b.height < depth)
  (hx : At inp x (marksCode marks ++ (b.code ++ rest)))
include h hfits hrest hbase hsep hshown hdepth hx

theorem yields_param :
    Yields State.subst ((calls inp depth).type (paramRef inp) false i []) s
      (withinPositions (1 + marks.length + b.scopes) (insertAll inp.capacity s.subst
        (b.entries ++ asEntries (offers (b.text s.subst) marks.reverse))))
      fun found s' => found = true ∧ AtParam inp f (x + (marksCode marks ++ b.code).length) s' := by
  obtain ⟨name, start, o, ho, hdelim, hs⟩ := h
  have hshown : b.Shown (marks.reverse ++ []) := by rwa [append_nil]
  obtain ⟨start', index, htype⟩ : ∃ start' index,
      Ends ((calls inp depth).type (paramRef inp) false i (marksText []))
        (site (paramBase inp f name) (paramRef inp) x start s.subst o)
        ((withinPositions (0 + 1 + marks.length + b.scopes) (insertAll inp.capacity s.subst
            (b.entries ++ asEntries (offers (b.text s.subst) (marks.reverse ++ []))))).map
          fun subst' => (true, site (paramBase inp f name) (paramRef inp)
            (x + (marksCode marks ++ b.code).length) start' subst'
            (wrote 0 (o.forParam i).lead
              (b.text s.subst ++ marksText (marks.reverse ++ [])) o.delim index))) :=
    site_type (ready_paramBase inp f name) rfl hfits hrest hbase marks hsep hshown ho hdepth hx
  rw [← hs, append_nil, hdelim, Nat.zero_add] at htype
  exact .of_ends htype (fun _ => rfl) fun _ => ⟨rfl, name, start', _, fresh_wrote, rfl, rfl⟩

theorem yields_paramLoop_cons
    (hnext : ∀ s', AtParam inp f (x + (marksCode marks ++ b.code).length) s' →
      Yields State.subst ((calls inp depth).paramLoop (paramRef inp) (i + 1)) s' (out s'.subst)
        fun _ s' => s'.pos = inp.size) :
    Yields State.subst ((calls inp (depth + 1)).paramLoop (paramRef inp) i) s
      ((withinPositions (1 + marks.length + b.scopes) (insertAll inp.capacity s.subst
        (b.entries ++ asEntries (offers (b.text s.subst) marks.reverse)))).bind out)
      fun _ s' => s'.pos = inp.size := by
  refine (yields_param h hfits hrest hbase hsep hshown hdepth hx).bind fun found s' hs' => ?_
  obtain ⟨rfl, hat⟩ := hs'
  exact .ite_true rfl (hnext s' hat)

end

theorem yields_paramLoop_void (h : AtParam inp f x s) (hx : At inp x ['v']) :
    Yields State.subst ((calls inp (depth + 3)).paramLoop (paramRef inp) 0) s (.ok s.subst)
      fun _ s' => s'.pos = inp.size := by
  obtain ⟨name, start, o, ho, -, hs⟩ := h
  have hready := ready_paramBase inp f name
  have hproto : (site (paramBase inp f name) (paramRef inp) x start s.subst o).inPrototype ≠ 0 :=
    Nat.one_ne_zero
  have hnamed : Returns (parseNamedType inp (calls inp (depth + 1)) (paramRef inp) false [])
      (site (paramBase inp f name) (paramRef inp) x start s.subst o.pushed) true
      (site (paramBase inp f name) (paramRef inp) (x + 1) start s.subst o.pushed) :=
    .bind (.bind (returns_isInside hx) (.ite_true rfl (.bind (returns_peek hx) (.bind .get
        (.ite_false (by decide) (.ite_true ⟨rfl, rfl, hproto⟩ (.bind returns_advance .pure)))))))
      (.ite_false (by decide) (.bind .get (.bind .pure (.bind (site_position hready.out)
        (.bind (.ite_true rfl .pure) .pure)))))
  have hkind : Ends (do
        let c ← peek inp
        parseTypeKind inp (calls inp (depth + 1)) (paramRef inp) false 0 [] c)
      (site (paramBase inp f name) (paramRef inp) x start s.subst o.pushed)
      ((Except.ok s.subst).map fun subst =>
        (true, site (paramBase inp f name) (paramRef inp) (x + 1) start subst o.pushed)) :=
    ends_parseTypeKind_named (by decide) hx hnamed
  have hroom : o.positions.length < maxPositions := by
    rw [ho.length]
    decide
  have hdelim : Ends (withDelim (paramRef inp)
        (fun delim => if 0 ≠ 0 ∧ false = false then some ", ".toList else delim) (do
          let c ← peek inp
          parseTypeKind inp (calls inp (depth + 1)) (paramRef inp) false 0 [] c))
      (site (paramBase inp f name) (paramRef inp) x start s.subst o.pushed)
      ((Except.ok s.subst).map fun subst =>
        (true, site (paramBase inp f name) (paramRef inp) (x + 1) start subst o.pushed)) :=
    site_withDelim o.pushed hready.out hready.out hkind
  have htype : Returns ((calls inp (depth + 2)).type (paramRef inp) false 0 [])
      (site (paramBase inp f name) (paramRef inp) x start s.subst o) true
      (site (paramBase inp f name) (paramRef inp) (x + 1) start s.subst o) :=
    .bind (returns_isInside hx) (.ite_true rfl
      (site_withPosition o.pushed hready.out hready.out hroom hdelim))
  have hend : Returns ((calls inp (depth + 2)).paramLoop (paramRef inp) 1)
      (site (paramBase inp f name) (paramRef inp) (x + 1) start s.subst o) 1
      (site (paramBase inp f name) (paramRef inp) (x + 1) start s.subst o) :=
    .bind (.bind (returns_isOutside hx.next) (.ite_false Bool.false_ne_true .pure))
      (.ite_false Bool.false_ne_true .pure)
  have hrun : Returns ((calls inp (depth + 3)).paramLoop (paramRef inp) 0)
      (site (paramBase inp f name) (paramRef inp) x start s.subst o) 1
      (site (paramBase inp f name) (paramRef inp) (x + 1) start s.subst o) :=
    .bind htype (.ite_true rfl hend)
  rw [hs]
  exact .of_returns hrun rfl hx.next.eq_size

end ZeroBugs.Unmangle
