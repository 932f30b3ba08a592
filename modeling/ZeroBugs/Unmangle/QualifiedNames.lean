import ZeroBugs.Unmangle.Encoder

/-! # Encoding of qualified names -/
namespace ZeroBugs.Unmangle

open Encoder List

def isIdentStart (c : Char) : Bool := c.isAlpha || c = '_'

def isIdentChar (c : Char) : Bool := c.isAlphanum || c = '_'

def encoderKeywords : List Text :=
  ["true".toList, "false".toList, "const".toList, "volatile".toList]

/-- Identifiers that are encoded as they are, and are not that of an anonymous namespace. -/
def Plain (t : Text) : Prop :=
  t.head?.any isIdentStart = true ∧ t.all isIdentChar = true ∧ t ∉ encoderKeywords ∧
    builtinSubst.lookup t = none ∧ ¬"operator".toList <+: t ∧ ¬"_GLOBAL_".toList <+: t
  deriving Decidable

/-- What may follow the component `prev`: plain components that differ from the one
before, except that the last may repeat it, also with a tilde in front. -/
def ValidFrom (prev : Text) : List Text → Prop
  | [] => True
  | [last] => Plain last ∨ last = '~' :: prev
  | part :: next :: rest => (Plain part ∧ part ≠ prev) ∧ ValidFrom part (next :: rest)

instance decidableValidFrom : (prev : Text) → (rest : List Text) → Decidable (ValidFrom prev rest)
  | _, [] => .isTrue trivial
  | prev, [last] => inferInstanceAs (Decidable (Plain last ∨ last = '~' :: prev))
  | prev, part :: next :: rest =>
    have := decidableValidFrom part (next :: rest)
    inferInstanceAs (Decidable ((Plain part ∧ part ≠ prev) ∧ ValidFrom part (next :: rest)))

structure QualifiedName where
  first : Text
  rest : List Text
  plain : Plain first
  valid : ValidFrom first rest

def qualifiedRest (rest : List Text) : Text := rest.flatMap fun part => ':' :: ':' :: part

def QualifiedName.text (q : QualifiedName) : Text := q.first ++ qualifiedRest q.rest

def mangledPart (part : Text) : Text := Nat.toDigits 10 part.length ++ part

def mangledBehind (prev part : Text) : Text :=
  if part = prev then "C1".toList
  else if part = '~' :: prev then "D1".toList
  else mangledPart part

def mangledRest (prev : Text) : List Text → Text
  | [] => []
  | part :: rest => mangledBehind prev part ++ mangledRest part rest

def QualifiedName.mangled (q : QualifiedName) : Text :=
  "_Z".toList ++ (if q.rest = [] then mangledPart q.first
    else "N".toList ++ mangledPart q.first ++ mangledRest q.first q.rest ++ "E".toList)

theorem ne_of_separates {p : Char → Bool} {c d : Char} (hc : p c = true) (hd : p d = false) :
    c ≠ d := by
  rintro rfl
  exact Bool.false_ne_true (hd.symm.trans hc)

section Plain

variable {t prev : Text} {c : Char}

theorem Plain.cons (h : Plain t) : ∃ c rest, t = c :: rest ∧ isIdentStart c = true := by
  obtain ⟨hstart, -⟩ := h
  cases t with
  | nil => exact absurd hstart (by decide)
  | cons c rest => exact ⟨c, rest, rfl, hstart⟩

theorem Plain.isIdentChar (h : Plain t) : ∀ c ∈ t, isIdentChar c = true :=
  all_eq_true.mp h.2.1

theorem Plain.ne_nil (h : Plain t) : t ≠ [] := by
  obtain ⟨c, rest, rfl, -⟩ := h.cons
  exact cons_ne_nil c rest

theorem isIdentChar_of_isIdentStart (h : isIdentStart c = true) : isIdentChar c = true := by
  unfold isIdentStart at h
  unfold isIdentChar Char.isAlphanum
  simp only [Bool.or_eq_true] at h ⊢
  exact h.imp_left Or.inl

theorem not_isDigit_of_isIdentStart (h : isIdentStart c = true) : c.isDigit = false := by
  cases hd : c.isDigit with
  | false => rfl
  | true =>
    have hval : 48 ≤ c.toNat ∧ c.toNat ≤ 57 := Char.isDigit_iff_toNat.mp hd
    unfold isIdentStart Char.isAlpha Char.isUpper Char.isLower at h
    simp only [Bool.or_eq_true, Bool.and_eq_true, decide_eq_true_eq] at h
    rcases h with (⟨h, -⟩ | ⟨h, -⟩) | rfl
    · exact absurd (show 65 ≤ c.toNat from h) (by omega)
    · exact absurd (show 97 ≤ c.toNat from h) (by omega)
    · exact absurd hd (by decide)

theorem startsComponent_of_isIdentStart (h : isIdentStart c = true) :
    startsComponent c = true := by
  have hchar := isIdentChar_of_isIdentStart h
  unfold isIdentChar at hchar
  rw [startsComponent, hchar, Bool.true_or, Bool.true_or]

theorem Plain.ne_tilde (h : Plain t) : t ≠ '~' :: prev := by
  rintro rfl
  exact absurd h.1 (by simp [isIdentStart])

end Plain

def partComponent (prev part : Text) : Component :=
  if part = prev then ⟨"C1".toList, .ctor, false, none⟩
  else if part = '~' :: prev then ⟨"D1".toList, .dtor, false, none⟩
  else ⟨part, .normal, false, none⟩

def partComponents (prev : Text) : List Text → List Component
  | [] => []
  | part :: rest => partComponent prev part :: partComponents part rest

variable {new : Component}

section Tokens

variable {t : Tokenizer} {cs : List Component} {prev part last : Text} {c : Char}

theorem onChar_of_isIdentChar (h : isIdentChar c = true ∨ c = '~') (p rest : Text) :
    onChar .v3Abi c p rest t = .ok t := by
  unfold onChar
  split
  iterate 7 exact absurd h (by decide)
  rfl

theorem ne_paren_of_isIdentChar (h : isIdentChar c = true ∨ c = '~') : c ≠ '(' := by
  rintro rfl
  exact absurd h (by decide)

theorem tokenizeLoop_append (p : Text) :
    ∀ part : Text, (∀ c ∈ part, isIdentChar c = true ∨ c = '~') →
      tokenizeLoop .v3Abi (part ++ p) t = tokenizeLoop .v3Abi p t
  | [], _ => rfl
  | c :: part, h => by
    obtain ⟨hc, hpart⟩ := forall_mem_cons.mp h
    rw [cons_append, tokenizeLoop, if_neg (ne_paren_of_isIdentChar hc),
      onChar_of_isIdentChar hc]
    exact tokenizeLoop_append p part hpart

theorem isCtorName_of_last {name : Text} {before : Component} (hparent : t.parent = none)
    (hcs : t.components = cs ++ [before]) (hbefore : before.parent = none) :
    isCtorName t name = decide (before.name = name) := by
  have hlast : (cs ++ [before])[(cs ++ [before]).length - 1]? = some before := by
    rw [← getLast?_eq_getElem?, getLast?_concat]
  rw [isCtorName, hparent, hcs]
  cases hlen : (cs ++ [before]).length with
  | zero => exact absurd (length_eq_zero_iff.mp hlen) (by simp)
  | succ k =>
    rw [hlen] at hlast
    rw [topLevel, hlast]
    simp only [hbefore, Option.any_some, Bool.true_and]

theorem componentOf_plain (hpart : Plain part) :
    componentOf .v3Abi (part ++ last) last t =
      .ok (if isCtorName t part then ⟨"C1".toList, .ctor, false, t.parent⟩
        else ⟨part, .normal, false, t.parent⟩) := by
  have htake : (part ++ last).take ((part ++ last).length - last.length) = part := by
    rw [length_append, Nat.add_sub_cancel, take_left]
  obtain ⟨c, rest, rfl, hc⟩ := hpart.cons
  have htilde : c ≠ '~' := ne_of_separates hc (by decide)
  unfold componentOf
  simp only [htake]
  simp only [cons_append, head?_cons, Option.some.injEq, htilde, if_false,
    Option.any_some, startsComponent_of_isIdentStart hc, Bool.true_eq_false]
  split <;> rfl

theorem componentOf_tilde :
    componentOf .v3Abi ('~' :: prev ++ last) last t = .ok ⟨"D1".toList, .dtor, false, t.parent⟩ :=
  rfl

theorem addNext_of_componentOf {first : Text} (hpart : part ≠ [])
    (hfirst : skipSeparator first = part ++ last) (hlen : (part ++ last).length ≤ first.length)
    (hnew : componentOf .v3Abi (part ++ last) last t = .ok new) :
    addNext .v3Abi first last t = .ok (t.push new) := by
  have hpos := length_pos_iff.mpr hpart
  rw [length_append] at hlen
  rw [addNext, addComponent, if_neg (by omega), if_neg (by omega), hfirst, hnew]
  rfl

theorem addNext_first (hpart : Plain part) (hparent : t.parent = none)
    (hcs : t.components = []) :
    addNext .v3Abi (part ++ last) last t = .ok (t.push ⟨part, .normal, false, none⟩) := by
  refine addNext_of_componentOf hpart.ne_nil ?_ (Nat.le_refl _) ?_
  · obtain ⟨c, rest, rfl, hc⟩ := hpart.cons
    have hcolon : c ≠ ':' := ne_of_separates hc (by decide)
    have hspace : c ≠ ' ' := ne_of_separates hc (by decide)
    simp only [skipSeparator, cons_append, head?_cons, Option.some.injEq, hcolon,
      hspace, or_self, if_false]
  · have hctor : isCtorName t part = false := by
      rw [isCtorName, hparent, hcs]
      rfl
    rw [componentOf_plain hpart, hctor, hparent]
    rfl

theorem addNext_behind (hparent : t.parent = none)
    (hcs : t.components = cs ++ [⟨prev, .normal, false, none⟩])
    (hpart : Plain part ∨ part = '~' :: prev) :
    addNext .v3Abi (':' :: part ++ last) last t = .ok (t.push (partComponent prev part)) := by
  have hlen : (part ++ last).length ≤ (':' :: part ++ last).length := Nat.le_succ _
  rcases hpart with hpart | rfl
  · refine addNext_of_componentOf hpart.ne_nil rfl hlen ?_
    rw [componentOf_plain hpart, isCtorName_of_last hparent hcs rfl, hparent, partComponent,
      if_neg hpart.ne_tilde]
    simp only [decide_eq_true_eq, @eq_comm _ prev part]
  · have hne : '~' :: prev ≠ prev := fun h => absurd (congrArg List.length h) (by simp)
    refine addNext_of_componentOf (cons_ne_nil _ _) rfl hlen ?_
    rw [componentOf_tilde, hparent, partComponent, if_neg hne, if_pos rfl]

end Tokens

variable {rest : List Text}

theorem ValidFrom.head {prev part : Text} (h : ValidFrom prev (part :: rest)) :
    Plain part ∨ part = '~' :: prev := by
  cases rest with
  | nil => exact h
  | cons _ _ => exact .inl h.1.1

theorem ValidFrom.tail {prev part : Text} (h : ValidFrom prev (part :: rest)) :
    ValidFrom part rest := by
  cases rest with
  | nil => trivial
  | cons _ _ => exact h.2

theorem ValidFrom.partComponent_eq {prev part : Text}
    (h : ValidFrom prev (part :: rest)) (hrest : rest ≠ []) :
    partComponent prev part = ⟨part, .normal, false, none⟩ := by
  cases rest with
  | nil => exact absurd rfl hrest
  | cons _ _ =>
    obtain ⟨⟨hplain, hne⟩, -⟩ := h
    rw [partComponent, if_neg hne, if_neg hplain.ne_tilde]

theorem isIdentChar_of_part {prev part : Text} (hprev : ∀ c ∈ prev, isIdentChar c = true)
    (hpart : Plain part ∨ part = '~' :: prev) : ∀ c ∈ part, isIdentChar c = true ∨ c = '~' := by
  rcases hpart with hpart | rfl
  · exact fun c hc => .inl (hpart.isIdentChar c hc)
  · exact forall_mem_cons.mpr ⟨.inr rfl, fun c hc => .inl (hprev c hc)⟩

theorem part_ne_nil {prev part : Text} (hpart : Plain part ∨ part = '~' :: prev) :
    part ≠ [] := by
  rcases hpart with hpart | rfl
  · exact hpart.ne_nil
  · exact cons_ne_nil _ _

theorem qualifiedRest_cons (part : Text) (rest : List Text) :
    qualifiedRest (part :: rest) = ':' :: ':' :: (part ++ qualifiedRest rest) := by
  rfl

/-- The component `cur` is read, but will be added only at its end, before `rest`. -/
structure Pending (t : Tokenizer) (cur : Text) (rest : List Text) (new : Component) : Prop where
  added : addNext .v3Abi t.name (qualifiedRest rest) t = .ok (t.push new)
  longer : (qualifiedRest rest).length < t.name.length
  parent : t.parent = none
  valid : ValidFrom cur rest
  plain : rest ≠ [] → Plain cur ∧ new = ⟨cur, .normal, false, none⟩

theorem tokenizeLoop_colons {t : Tokenizer} {text : Text}
    (hadd : addNext .v3Abi t.name (':' :: ':' :: text) t = .ok (t.push new))
    (hlonger : (':' :: ':' :: text).length < t.name.length) (htext : text.head? ≠ some ':') :
    tokenizeLoop .v3Abi (':' :: ':' :: text) t =
      tokenizeLoop .v3Abi text { t.push new with name := ':' :: text } := by
  have hfirst : onChar .v3Abi ':' (':' :: ':' :: text) (':' :: text) t =
      .ok { t.push new with name := ':' :: text } := by
    rw [onChar, onColon, addIf, decide_eq_true hlonger, if_pos rfl, hadd]
    rfl
  have hsecond : onChar .v3Abi ':' (':' :: text) text { t.push new with name := ':' :: text } =
      .ok { t.push new with name := ':' :: text } := by
    rw [onChar, onColon, addIf, decide_eq_false (Nat.lt_irrefl _), if_neg Bool.false_ne_true]
    simp only [if_neg htext]
    rfl
  rw [tokenizeLoop, if_neg (by decide), hfirst]
  show tokenizeLoop .v3Abi (':' :: text) _ = _
  rw [tokenizeLoop, if_neg (by decide), hsecond]
  rfl

theorem Pending.next {t : Tokenizer} {cur part : Text}
    (h : Pending t cur (part :: rest) new) :
    Pending { t.push new with name := ':' :: (part ++ qualifiedRest rest) } part rest
      (partComponent cur part) := by
  obtain ⟨hcur, rfl⟩ := h.plain (cons_ne_nil _ _)
  refine ⟨addNext_behind h.parent rfl h.valid.head, ?_, h.parent, h.valid.tail, ?_⟩
  · simp only [length_cons, length_append]
    omega
  · intro hrest
    refine ⟨?_, h.valid.partComponent_eq hrest⟩
    cases rest with
    | nil => exact absurd rfl hrest
    | cons _ _ => exact h.valid.1.1

theorem Pending.tokenizeLoop {cur : Text} :
    ∀ {t : Tokenizer} {new : Component}, Pending t cur rest new →
      ∃ t', Encoder.tokenizeLoop .v3Abi (qualifiedRest rest) t = .ok t' ∧
        t'.components = t.components ++ new :: partComponents cur rest ∧
        t'.depth = t.depth + rest.length + 1 := by
  induction rest generalizing cur with
  | nil =>
    intro t new h
    have hname : t.name ≠ [] := length_pos_iff.mp h.longer
    refine ⟨t.push new, ?_, rfl, ?_⟩
    · show addIf .v3Abi (t.name ≠ []) t.name [] t = _
      rw [addIf, decide_eq_true hname, if_pos rfl]
      exact h.added
    · rw [Tokenizer.push, if_pos h.parent]
      rfl
  | cons part rest ih =>
    intro t new h
    have hpart := h.valid.head
    obtain ⟨hcur, -⟩ := h.plain (cons_ne_nil _ _)
    have hhead : (part ++ qualifiedRest rest).head? ≠ some ':' := by
      rcases hpart with hpart | rfl
      · obtain ⟨c, text, rfl, hc⟩ := hpart.cons
        exact fun hcolon => ne_of_separates hc (by decide) (Option.some.inj hcolon)
      · exact fun hcolon => absurd (Option.some.inj hcolon) (by decide)
    obtain ⟨t', hrun, hcs, hdepth⟩ := ih h.next
    have hadded := h.added
    have hlonger := h.longer
    rw [qualifiedRest_cons] at hadded hlonger
    refine ⟨t', ?_, ?_, ?_⟩
    · rw [qualifiedRest_cons, tokenizeLoop_colons hadded hlonger hhead,
        tokenizeLoop_append _ part (isIdentChar_of_part hcur.isIdentChar hpart)]
      exact hrun
    · rw [hcs]
      exact append_assoc t.components [new] _
    · rw [hdepth, Tokenizer.push, if_pos h.parent, length_cons]
      dsimp only
      omega

theorem QualifiedName.tokenize (q : QualifiedName) :
    ∃ t, Encoder.tokenize .v3Abi q.text = .ok t ∧
      t.components = ⟨q.first, .normal, false, none⟩ :: partComponents q.first q.rest ∧
      t.depth = q.rest.length + 1 := by
  have hpending : Pending ⟨q.text, none, [], [], false, 0⟩ q.first q.rest
      ⟨q.first, .normal, false, none⟩ := by
    refine ⟨addNext_first q.plain rfl rfl, ?_, rfl, q.valid, fun _ => ⟨q.plain, rfl⟩⟩
    have hpos := length_pos_iff.mpr q.plain.ne_nil
    simp only [QualifiedName.text, length_append]
    omega
  obtain ⟨t, hrun, hcs, hdepth⟩ := hpending.tokenizeLoop
  refine ⟨t, ?_, hcs, by rw [hdepth, Nat.zero_add]⟩
  rw [Encoder.tokenize, QualifiedName.text,
    tokenizeLoop_append _ q.first fun c hc => .inl (q.plain.isIdentChar c hc)]
  exact hrun

def Encodes (c : Component) (text : Text) : Prop :=
  c.parent = none ∧ c.isTemplate = false ∧ ¬"operator".toList <+: c.name ∧
    encodeSelf c = .ok text

theorem encodes_plain {part : Text} (h : Plain part) :
    Encodes ⟨part, .normal, false, none⟩ (mangledPart part) := by
  obtain ⟨c, rest, hpart, hc⟩ := h.cons
  have hchars := h.isIdentChar
  obtain ⟨-, -, hkeywords, hlookup, hoperator, -⟩ := h
  simp only [encoderKeywords, mem_cons, not_mem_nil, or_false, not_or] at hkeywords
  obtain ⟨htrue, hfalse, hconst, hvolatile⟩ := hkeywords
  have hstar : part ≠ "*".toList := fun h =>
    absurd (hchars '*' (h ▸ mem_cons_self)) (by decide)
  have hamp : part ≠ "&".toList := fun h =>
    absurd (hchars '&' (h ▸ mem_cons_self)) (by decide)
  have hdigit : part.head?.any Char.isDigit = false := by
    rw [hpart]
    exact not_isDigit_of_isIdentStart hc
  have hnil : part ≠ [] := hpart ▸ cons_ne_nil c rest
  have hself : ¬(part = "const".toList ∨ part = "volatile".toList ∨ part = "*".toList ∨
      part = "&".toList) := by
    rintro (h | h | h | h)
    exacts [hconst h, hvolatile h, hstar h, hamp h]
  refine ⟨rfl, rfl, hoperator, ?_⟩
  rw [encodeSelf, if_neg (by simp), if_neg hself, encodeName, if_neg hnil,
    if_neg (by rw [hdigit]; exact Bool.false_ne_true), if_neg htrue, if_neg hfalse, hlookup]
  rfl

theorem encodes_partComponent {prev part : Text} (h : Plain part ∨ part = '~' :: prev) :
    Encodes (partComponent prev part) (mangledBehind prev part) := by
  unfold partComponent mangledBehind
  split
  · exact ⟨rfl, rfl, by decide, rfl⟩
  · next hne =>
    split
    · exact ⟨rfl, rfl, by decide, rfl⟩
    · next hne' =>
      rcases h with h | h
      · exact encodes_plain h
      · exact absurd h hne'

theorem parent_of_mem_partComponents {prev : Text} {c : Component}
    (h : c ∈ partComponents prev rest) : c.parent = none := by
  induction rest generalizing prev with
  | nil => exact absurd h not_mem_nil
  | cons part rest ih =>
    rcases mem_cons.mp h with rfl | h
    · unfold partComponent
      split
      · rfl
      · split <;> rfl
    · exact ih h

section EncodeAll

variable {all : List Component} (hall : ∀ c ∈ all, c.parent = none)
include hall

theorem encodeAll_cons {c : Component} {text : Text} (hc : Encodes c text) (i : Nat)
    (rest : List Component) :
    encodeAll all i (c :: rest) = (do
      let r ← encodeAll all (i + 1) rest
      pure (text ++ r.1, r.2)) := by
  obtain ⟨hparent, htemplate, hoperator, hself⟩ := hc
  have hchildren : all.any (·.parent = some i) = false := by
    rw [any_eq_false]
    intro c hc
    rw [hall c hc]
    simp
  have hnoOperator : "operator".toList.isPrefixOf c.name = false :=
    Bool.eq_false_iff.mpr fun h => hoperator ( isPrefixOf_iff_prefix.mp h)
  rw [encodeAll, if_neg (not_not.mpr hparent),
    if_neg (by rw [hnoOperator]; exact Bool.false_ne_true), encode, hself, hchildren, htemplate]
  rfl

theorem encodeAll_partComponents {prev : Text} (h : ValidFrom prev rest)
    (i : Nat) :
    encodeAll all i (partComponents prev rest) = .ok (mangledRest prev rest, true) := by
  induction rest generalizing prev i with
  | nil => rfl
  | cons part rest ih =>
    rw [partComponents, encodeAll_cons hall (encodes_partComponent h.head), ih h.tail,
      mangledRest]
    rfl

end EncodeAll

theorem QualifiedName.run_eq (q : QualifiedName) (qual : Text) :
    Encoder.run .v3Abi q.text qual = .ok q.mangled := by
  obtain ⟨t, ht, hcs, hdepth⟩ := q.tokenize
  have hall : ∀ c ∈ t.components, c.parent = none := by
    rw [hcs]
    exact forall_mem_cons.mpr ⟨rfl, fun c hc => parent_of_mem_partComponents hc⟩
  have htext : encodeAll t.components 0 t.components =
      .ok (mangledPart q.first ++ mangledRest q.first q.rest, true) := by
    nth_rewrite 2 [hcs]
    rw [encodeAll_cons hall (encodes_plain q.plain), encodeAll_partComponents hall q.valid]
    rfl
  rw [Encoder.run, ht]
  show runV3 t = _
  rw [runV3, htext, hdepth, QualifiedName.mangled]
  cases hrest : q.rest with
  | nil => simp [bind, Except.bind, pure, Except.pure, mangledRest]
  | cons part rest =>
    simp [bind, Except.bind, pure, Except.pure]

end ZeroBugs.Unmangle
