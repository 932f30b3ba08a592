import ZeroBugs.Unmangle.AbiNumbering

/-! # Texts of components -/
namespace ZeroBugs.Unmangle
open List

section Texts

variable {base base' : BaseType} {m : Mark} {marks marks' : List Mark}

theorem Component.text_mark (base : BaseType) (m : Mark) (marks : List Mark) :
    text ⟨base, m :: marks⟩ = text ⟨base, marks⟩ ++ m.text := by
  simp only [text, marksText, reverse_cons, flatMap_append, flatMap_singleton,
    append_assoc]

def lastMark (text : Text) : Option Mark :=
  if "*".toList <:+ text then some (.indirection .pointer)
  else if "&".toList <:+ text then some (.indirection .reference)
  else if " volatile const".toList <:+ text then some (.qualifiers .volatile [.const])
  else if " const".toList <:+ text then some (.qualifiers .const [])
  else if " volatile".toList <:+ text then some (.qualifiers .volatile [])
  else none

def endApart (l s : Text) : Bool :=
  match l.getLast?, s.getLast? with
  | some c, some d => c ≠ d
  | _, _ => false

theorem not_suffix_append {l s : Text} (text : Text) (h : endApart l s = true) :
    ¬l <:+ text ++ s := by
  rintro ⟨front, hfront⟩
  have hlast := congrArg List.getLast? hfront
  rw [getLast?_append, getLast?_append] at hlast
  unfold endApart at h
  split at h
  · next c d hc hd =>
    rw [hc, hd] at hlast
    exact of_decide_eq_true h (Option.some.inj hlast)
  · exact absurd h Bool.false_ne_true

theorem not_suffix_base (base : BaseType) :
    ∀ l ∈ ["*", "&", " volatile const", " const", " volatile"].map String.toList,
      ¬l <:+ base.named.text := by
  cases base with
  | builtin b =>
    have hall : ∀ t ∈ builtinTexts,
        ∀ l ∈ ["*", "&", " volatile const", " const", " volatile"].map String.toList,
          ¬l <:+ t := by decide
    exact hall _ b.text_mem
  | ofClass name valid =>
    intro l hl hend
    have hall : ∀ l ∈ ["*", "&", " volatile const", " const", " volatile"].map String.toList,
        l.all isIdentChar = false := by decide
    have hchars : l.all isIdentChar = true :=
      all_eq_true.mpr fun c hc => valid.1.isIdentChar c (hend.subset hc)
    exact Bool.false_ne_true ((hall l hl).symm.trans hchars)

theorem lastMark_base (base : BaseType) : lastMark base.named.text = none := by
  have hnot := not_suffix_base base
  rw [lastMark, if_neg (hnot _ (by decide)), if_neg (hnot _ (by decide)),
    if_neg (hnot _ (by decide)), if_neg (hnot _ (by decide)), if_neg (hnot _ (by decide))]

theorem not_volatile_inside {q : CvQualifier} {more : List CvQualifier}
    (h : Separated (.qualifiers q more :: marks)) :
    ¬" volatile".toList <:+ Component.text ⟨base, marks⟩ := by
  cases marks with
  | nil =>
    rw [show Component.text ⟨base, []⟩ = base.named.text from append_nil _]
    exact not_suffix_base base _ (by decide)
  | cons m marks =>
    cases m with
    | qualifiers q more => exact h.elim
    | indirection kind =>
      rw [Component.text_mark]
      cases kind <;> exact not_suffix_append _ rfl

theorem lastMark_text (h : Canonical (m :: marks)) :
    lastMark (Component.text ⟨base, m :: marks⟩) = some m := by
  rw [Component.text_mark]
  cases m with
  | indirection kind =>
    cases kind with
    | pointer => exact if_pos (suffix_append _ _)
    | reference =>
      show lastMark (_ ++ "&".toList) = _
      rw [lastMark, if_neg (not_suffix_append _ rfl),
        if_pos (suffix_append _ _)]
  | qualifiers q more =>
    have hgroup := h.groups q more mem_cons_self
    simp only [cvGroups, mem_cons, List.cons.injEq, not_mem_nil, or_false] at hgroup
    have hvolatile : ¬" volatile".toList <:+ Component.text ⟨base, marks⟩ :=
      not_volatile_inside h.separated
    generalize Component.text ⟨base, marks⟩ = inner at hvolatile ⊢
    obtain ⟨rfl, rfl⟩ | ⟨rfl, rfl⟩ | ⟨rfl, rfl⟩ := hgroup
    · show lastMark (inner ++ " volatile".toList) = _
      rw [lastMark, if_neg (not_suffix_append _ rfl),
        if_neg (not_suffix_append _ rfl),
        if_neg (not_suffix_append _ rfl),
        if_neg (not_suffix_append _ rfl),
        if_pos (suffix_append _ _)]
    · have hlong : ¬" volatile const".toList <:+ inner ++ " const".toList := by
        rintro ⟨front, hfront⟩
        exact hvolatile ⟨front, append_cancel_right
          ((append_assoc front " volatile".toList " const".toList).trans hfront)⟩
      show lastMark (inner ++ " const".toList) = _
      rw [lastMark, if_neg (not_suffix_append _ rfl),
        if_neg (not_suffix_append _ rfl), if_neg hlong,
        if_pos (suffix_append _ _)]
    · show lastMark (inner ++ " volatile const".toList) = _
      rw [lastMark, if_neg (not_suffix_append _ rfl),
        if_neg (not_suffix_append _ rfl),
        if_pos (suffix_append _ _)]

theorem Builtin.eq_of_text_eq {b b' : Builtin} (h : b.text = b'.text) : b = b' := by
  have hall : builtinCodes.all (fun c => builtinCodes.all fun d =>
      builtinTable c = builtinTable d → c = d) = true := by decide
  have hcode := of_decide_eq_true (all_eq_true.mp (all_eq_true.mp hall _ b.code_mem) _
    b'.code_mem) (by rw [b.known, b'.known, h])
  cases b
  cases b'
  obtain rfl : _ = _ := h
  obtain rfl : _ = _ := hcode
  rfl

theorem BaseType.eq_of_text_eq (h : base.named.text = base'.named.text) : base = base' := by
  cases base with
  | builtin b =>
    cases base' with
    | builtin b' => rw [Builtin.eq_of_text_eq (String.toList_inj.mp h)]
    | ofClass name valid =>
      have hname : b.text.toList = name := h
      exact absurd (hname ▸ b.text_mem) valid.2
  | ofClass name valid =>
    cases base' with
    | builtin b' =>
      have hname : name = b'.text.toList := h
      exact absurd (hname ▸ b'.text_mem) valid.2
    | ofClass name' valid' =>
      obtain rfl : name = name' := h
      rfl

theorem Component.eq_of_text_eq (h : Canonical marks) (h' : Canonical marks')
    (htext : text ⟨base, marks⟩ = text ⟨base', marks'⟩) :
    (⟨base, marks⟩ : Component) = ⟨base', marks'⟩ := by
  induction marks generalizing marks' with
  | nil =>
    have hbase : text ⟨base, []⟩ = base.named.text := append_nil _
    cases marks' with
    | nil =>
      rw [BaseType.eq_of_text_eq (hbase.symm.trans (htext.trans (append_nil _)))]
    | cons m marks' =>
      have hnone := lastMark_base base
      rw [← hbase, htext, lastMark_text h'] at hnone
      exact nomatch hnone
  | cons m marks ih =>
    cases marks' with
    | nil =>
      have hnone := lastMark_base base'
      rw [← show text ⟨base', []⟩ = _ from append_nil _, ← htext, lastMark_text h] at hnone
      exact nomatch hnone
    | cons m' marks' =>
      have hmark := congrArg lastMark htext
      rw [lastMark_text h, lastMark_text h'] at hmark
      obtain rfl := Option.some.inj hmark
      rw [text_mark, text_mark] at htext
      exact congrArg (mark · m) (ih h.tail h'.tail (append_cancel_right htext))

end Texts

section Encodings

variable {dict : List Component} {base : BaseType} {marks : List Mark} {m : Mark}

theorem stages_concat (text : Text) (marks : List Mark) (m : Mark) :
    stages text (marks ++ [m]) = stages text marks ++ [text ++ marksText marks ++ m.text] := by
  induction marks generalizing text with
  | nil => simp [stages, marksText]
  | cons m' marks ih => simp [stages, ih, marksText]

/-- A dictionary of components and the way a component is written with it: numbers are given to the
base, if it is written out and is a class, and the stages from there. -/
structure Encoding.Adds (e : Encoding) (dict : List Component) (c : Component)
    (named stagesOf : List Component) : Prop where
  number : c.number dict = dict ++ named ++ stagesOf
  text : e.base.text (dict.map Component.text) ++ marksText e.marks.reverse = c.text
  named : named.map Component.text = e.base.entries.map Entry.text
  stages : stagesOf.map Component.text =
    stages (e.base.text (dict.map Component.text)) e.marks.reverse
  isNew : ∀ d ∈ stagesOf, d ∉ dict ∧ d.marks <:+ c.marks

theorem adds_subst (hclosed : Closed dict) {c : Component} {i : Nat}
    (h : dict.idxOf? c = some i) : Encoding.Adds ⟨[], .subst i⟩ dict c [] [] := by
  obtain ⟨hi, hget, -⟩ := List.idxOf?_eq_some_iff.mp h
  have hmem : c ∈ dict := hget ▸ getElem_mem hi
  refine ⟨?_, ?_, rfl, rfl, fun d hd => absurd hd not_mem_nil⟩
  · rw [append_nil, append_nil]
    exact addAll_of_mem (hclosed c hmem)
  · have htext : (dict.map Component.text).getD i [] = c.text := by
      rw [getD_eq_getElem?_getD, getElem?_map, getElem?_eq_getElem hi, hget]
      rfl
    exact (append_nil _).trans htext

theorem adds_base (h : (⟨base, []⟩ : Component) ∉ dict) :
    Encoding.Adds ⟨[], .named base.named⟩ dict ⟨base, []⟩ (candidates base []) [] := by
  refine ⟨?_, rfl, ?_, rfl, fun d hd => absurd hd not_mem_nil⟩
  · cases base with
    | builtin b => simp [Component.number, candidates, addAll]
    | ofClass name valid => simp [Component.number, candidates, addAll, addNew, h]
  · cases base with
    | builtin b => rfl
    | ofClass name valid => exact congrArg (· :: []) (append_nil name)

theorem Encoding.Adds.mark {e : Encoding} {named stagesOf : List Component}
    (hadds : e.Adds dict ⟨base, marks⟩ named stagesOf)
    (h : (⟨base, m :: marks⟩ : Component) ∉ dict) :
    Encoding.Adds ⟨m :: e.marks, e.base⟩ dict ⟨base, m :: marks⟩ named
      (stagesOf ++ [⟨base, m :: marks⟩]) := by
  have htext : e.base.text (dict.map Component.text) ++ marksText e.marks.reverse ++ m.text =
      Component.text ⟨base, m :: marks⟩ := by
    rw [hadds.text, Component.text_mark]
  refine ⟨?_, ?_, hadds.named, ?_, fun d hd => ?_⟩
  · have hnew : (⟨base, m :: marks⟩ : Component) ∉ Component.number dict ⟨base, marks⟩ := by
      intro hmem
      rcases mem_addAll.mp hmem with hmem | hmem
      · exact h hmem
      · have hle := (suffix_of_mem_candidates hmem).2.length_le
        exact Nat.not_succ_le_self _ hle
    calc Component.number dict ⟨base, m :: marks⟩
        = addNew (Component.number dict ⟨base, marks⟩) ⟨base, m :: marks⟩ := foldl_append
      _ = dict ++ named ++ (stagesOf ++ [⟨base, m :: marks⟩]) := by
        rw [addNew, if_neg hnew, hadds.number, append_assoc]
  · rw [← htext, reverse_cons, marksText, flatMap_append, flatMap_singleton,
      append_assoc]
    rfl
  · rw [map_append, hadds.stages, reverse_cons, stages_concat, htext]
    rfl
  · rcases mem_append.mp hd with hd | hd
    · exact ⟨(hadds.isNew d hd).1, (hadds.isNew d hd).2.trans (suffix_cons _ _)⟩
    · rw [mem_singleton.mp hd]
      exact ⟨h, suffix_refl _⟩

theorem exists_adds (hclosed : Closed dict) (base : BaseType) (marks : List Mark) :
    ∃ named stagesOf, (encode dict base marks).Adds dict ⟨base, marks⟩ named stagesOf := by
  induction marks with
  | nil =>
    rw [encode]
    cases h : dict.idxOf? ⟨base, []⟩ with
    | some i => exact ⟨[], [], adds_subst hclosed h⟩
    | none => exact ⟨_, _, adds_base (List.idxOf?_eq_none_iff.mp h)⟩
  | cons m marks ih =>
    rw [encode]
    cases h : dict.idxOf? ⟨base, m :: marks⟩ with
    | some i => exact ⟨[], [], adds_subst hclosed h⟩
    | none =>
      obtain ⟨named, stagesOf, hadds⟩ := ih
      exact ⟨_, _, hadds.mark (List.idxOf?_eq_none_iff.mp h)⟩

end Encodings

theorem override_prefixEntries (text : Text) (parts : List Text) :
    ∀ e ∈ prefixEntries text parts, e.override = true := by
  induction parts generalizing text with
  | nil => exact fun e he => absurd he not_mem_nil
  | cons part parts ih =>
    intro e he
    rcases mem_cons.mp he with rfl | he
    · rfl
    · exact ih _ e he

theorem TypeBase.override_entries (b : TypeBase) : ∀ e ∈ b.entries, e.override = true := by
  intro e he
  cases b with
  | subst i => exact absurd he not_mem_nil
  | named type =>
    cases type with
    | builtin b => exact absurd he not_mem_nil
    | unscoped name identifier => rw [mem_singleton.mp he]
    | nested name =>
      rcases mem_append.mp he with he | he
      · exact override_prefixEntries _ _ e he
      · rw [mem_singleton.mp he]

theorem TypeBase.last_entry (b : TypeBase) (subst : List Text) :
    b.entries = [] ∨ (b.entries.map Entry.text).getLast? = some (b.text subst) := by
  cases b with
  | subst i => exact .inl rfl
  | named type =>
    cases type with
    | builtin b => exact .inl rfl
    | unscoped name identifier => exact .inr rfl
    | nested name =>
      refine .inr ?_
      rw [entries, NamedType.entries, map_append]
      exact getLast?_concat

theorem kept_override (subst : List Text) {es : List Entry} (h : ∀ e ∈ es, e.override = true) :
    kept subst es = subst ++ es.map Entry.text := by
  induction es generalizing subst with
  | nil => exact (append_nil _).symm
  | cons e es ih =>
    rw [kept_cons, keep, if_pos (.inl (h e mem_cons_self)),
      ih _ fun e he => h e (mem_cons_of_mem _ he), map_cons, append_assoc]
    rfl

section Kept

variable {e : Encoding} {dict : List Component} {c : Component} {named stagesOf : List Component}

theorem Encoding.Adds.map_number (hadds : e.Adds dict c named stagesOf) :
    (c.number dict).map Component.text = dict.map Component.text ++ e.base.entries.map Entry.text ++
      Unmangle.stages (e.base.text (dict.map Component.text)) e.marks.reverse := by
  rw [hadds.number, map_append, map_append, hadds.named, hadds.stages]

variable (hadds : e.Adds dict c named stagesOf) (hdict : ∀ d ∈ dict, Canonical d.marks)
  (hc : Canonical c.marks)

include hadds hdict hc

theorem Encoding.Adds.last_ne :
    ∀ t ∈ Unmangle.stages (e.base.text (dict.map Component.text)) e.marks.reverse,
      (dict.map Component.text ++ e.base.entries.map Entry.text).getLast? ≠ some t := by
  rcases e.base.last_entry (dict.map Component.text) with hnone | hlast
  · intro t ht heq
    rw [hnone, map_nil, append_nil, getLast?_map, Option.map_eq_some_iff] at heq
    obtain ⟨last, hlast, htext⟩ := heq
    rw [← hadds.stages] at ht
    obtain ⟨d, hd, hdtext⟩ := mem_map.mp ht
    obtain ⟨hnot, hmarks⟩ := hadds.isNew d hd
    have hmem := mem_of_getLast? hlast
    have hsame : last = d := Component.eq_of_text_eq (hdict last hmem) (hc.of_suffix hmarks)
      (htext.trans hdtext.symm)
    exact hnot (hsame ▸ hmem)
  · refine last_ne_of_mem_stages ?_
    rw [getLast?_append, hlast]
    rfl

theorem Encoding.Adds.kept_eq :
    kept (dict.map Component.text) (e.base.entries ++
        asEntries (offers (e.base.text (dict.map Component.text)) e.marks.reverse)) =
      dict.map Component.text ++ e.base.entries.map Entry.text ++
        recorded true (e.base.text (dict.map Component.text)) e.marks.reverse := by
  have hnew := hadds.last_ne hdict hc
  rw [kept_append, kept_override _ e.base.override_entries]
  by_cases hmarks : e.marks.reverse = []
  · rw [hmarks]
    exact (append_nil _).symm
  · exact kept_offers hmarks hnew

theorem Encoding.Adds.kept_of_complete (h : complete true e.marks.reverse = true) :
    kept (dict.map Component.text) (e.base.entries ++
        asEntries (offers (e.base.text (dict.map Component.text)) e.marks.reverse)) =
      (c.number dict).map Component.text := by
  rw [hadds.kept_eq hdict hc, hadds.map_number, (recorded_of_complete _ _).1 h]

theorem Encoding.Adds.departs (h : complete true e.marks.reverse = false) :
    Departs (kept (dict.map Component.text) (e.base.entries ++
        asEntries (offers (e.base.text (dict.map Component.text)) e.marks.reverse)))
      ((c.number dict).map Component.text) := by
  rw [hadds.kept_eq hdict hc, hadds.map_number]
  exact ((departs_of_not_complete _ _).1 h).append_left _

end Kept

end ZeroBugs.Unmangle
