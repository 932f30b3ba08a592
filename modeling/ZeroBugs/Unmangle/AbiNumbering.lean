import ZeroBugs.Unmangle.TypeCodes

/-! # The ABI's numbering of substitutions -/
namespace ZeroBugs.Unmangle
open List

def IsClassName (text : Text) : Prop := IsIdentifier text ∧ text ∉ builtinTexts
  deriving Decidable

inductive BaseType where
  | builtin (b : Builtin)
  | ofClass (name : Text) (valid : IsClassName name)
  deriving DecidableEq

def BaseType.named : BaseType → NamedType
  | builtin b => .builtin b
  | ofClass name valid => .unscoped name valid.1

inductive CppType where
  | base (b : BaseType)
  | pointer (t : CppType)
  | reference (t : CppType)
  | const (t : CppType)
  | volatile (t : CppType)

/-- A type with its marks from the outside in, where qualifiers at one place are one
mark. -/
structure Component where
  base : BaseType
  marks : List Mark
  deriving DecidableEq

namespace Component

def mark (c : Component) (m : Mark) : Component := ⟨c.base, m :: c.marks⟩

/-- Of two qualifiers at one place `volatile` is the first. -/
def qualify (cv : CvQualifier) : Component → Component
  | ⟨base, .qualifiers q more :: marks⟩ =>
    ⟨base, (if cv ∈ q :: more then .qualifiers q more else .qualifiers .volatile [.const]) :: marks⟩
  | c => c.mark (.qualifiers cv [])

def unqualified : Component → Component
  | ⟨base, .qualifiers _ _ :: marks⟩ => ⟨base, marks⟩
  | c => c

def text (c : Component) : Text := c.base.named.text ++ marksText c.marks.reverse

end Component

def CppType.component : CppType → Component
  | base b => ⟨b, []⟩
  | pointer t => t.component.mark (.indirection .pointer)
  | reference t => t.component.mark (.indirection .reference)
  | const t => t.component.qualify .const
  | volatile t => t.component.qualify .volatile

/-- The type of a parameter, which is not `void`. Its own qualifiers are not a part of
the type of the function. -/
structure Parameter where
  type : CppType
  shown : ∀ b, type.component.unqualified = ⟨.builtin b, []⟩ → b.code ≠ 'v'

def Parameter.component (p : Parameter) : Component := p.type.component.unqualified

def candidates (base : BaseType) : List Mark → List Component
  | [] =>
    match base with
    | .builtin _ => []
    | .ofClass _ _ => [⟨base, []⟩]
  | m :: marks => candidates base marks ++ [⟨base, m :: marks⟩]

def addNew (dict : List Component) (c : Component) : List Component :=
  if c ∈ dict then dict else dict ++ [c]

def addAll (dict : List Component) (cs : List Component) : List Component := cs.foldl addNew dict

def Component.number (dict : List Component) (c : Component) : List Component :=
  addAll dict (candidates c.base c.marks)

/-- What is written for a component: marks, and behind them the base or a number. -/
structure Encoding where
  marks : List Mark
  base : TypeBase

def Encoding.code (e : Encoding) : Text := marksCode e.marks ++ e.base.code

def encode (dict : List Component) (base : BaseType) : List Mark → Encoding
  | [] =>
    match dict.idxOf? ⟨base, []⟩ with
    | some i => ⟨[], .subst i⟩
    | none => ⟨[], .named base.named⟩
  | m :: marks =>
    match dict.idxOf? ⟨base, m :: marks⟩ with
    | some i => ⟨[], .subst i⟩
    | none => ⟨m :: (encode dict base marks).marks, (encode dict base marks).base⟩

def Component.encoding (dict : List Component) (c : Component) : Encoding :=
  encode dict c.base c.marks

def encodeAll (dict : List Component) : List Component → List Encoding
  | [] => []
  | c :: cs => c.encoding dict :: encodeAll (c.number dict) cs

def numberAll (dict : List Component) (cs : List Component) : List Component :=
  cs.foldl Component.number dict

def numbering (params : List Parameter) : List Component :=
  numberAll [] (params.map Parameter.component)

def encodings (params : List Parameter) : List Encoding :=
  encodeAll [] (params.map Parameter.component)

def mangledFunction (name : Text) (params : List Parameter) : Text :=
  "_Z".toList ++ (mangledPart name ++
    if params = [] then ['v'] else (encodings params).flatMap Encoding.code)

section Components

variable {m : Mark} {marks : List Mark} {base : BaseType}

def cvGroups : List (List CvQualifier) := [[.volatile], [.const], [.volatile, .const]]

structure Canonical (marks : List Mark) : Prop where
  separated : Separated marks
  groups : ∀ q more, .qualifiers q more ∈ marks → q :: more ∈ cvGroups

theorem Canonical.tail (h : Canonical (m :: marks)) : Canonical marks :=
  ⟨h.separated.tail, fun q more hmem => h.groups q more (mem_cons_of_mem m hmem)⟩

theorem Canonical.of_suffix {inner : List Mark} (h : Canonical marks) (hinner : inner <:+ marks) :
    Canonical inner := by
  induction marks with
  | nil =>
    rw [List.suffix_nil.mp hinner]
    exact h
  | cons m marks ih =>
    rcases List.suffix_cons_iff.mp hinner with rfl | hinner
    · exact h
    · exact ih h.tail hinner

theorem canonical_indirection (h : Canonical marks) (kind : Indirection) :
    Canonical (.indirection kind :: marks) := by
  refine ⟨h.separated, fun q more hmem => ?_⟩
  rcases mem_cons.mp hmem with heq | hmem
  · exact nomatch heq
  · exact h.groups q more hmem

theorem canonical_qualify {c : Component} (h : Canonical c.marks) {cv : CvQualifier}
    (hcv : [cv] ∈ cvGroups) : Canonical (c.qualify cv).marks := by
  obtain ⟨base, marks⟩ := c
  have hgroups : ∀ {q more}, q :: more ∈ cvGroups → ∀ {marks}, Canonical marks →
      Separated (.qualifiers q more :: marks) → Canonical (.qualifiers q more :: marks) := by
    intro q more hgroup marks h hsep
    refine ⟨hsep, fun q' more' hmem => ?_⟩
    rcases mem_cons.mp hmem with heq | hmem
    · obtain ⟨rfl, rfl⟩ := Mark.qualifiers.inj heq
      exact hgroup
    · exact h.groups q' more' hmem
  cases marks with
  | nil => exact hgroups hcv h trivial
  | cons m marks =>
    cases m with
    | indirection kind => exact hgroups hcv h h.separated
    | qualifiers q more =>
      by_cases hmem : cv ∈ q :: more
      · rw [Component.qualify, if_pos hmem]
        exact h
      · rw [Component.qualify, if_neg hmem]
        refine hgroups (by decide) h.tail ?_
        have hsep := h.separated
        cases marks with
        | nil => trivial
        | cons m marks =>
          cases m with
          | indirection kind => exact hsep
          | qualifiers q more => exact hsep.elim

theorem CppType.canonical_component (t : CppType) : Canonical t.component.marks := by
  induction t with
  | base b => exact ⟨trivial, fun _ _ h => absurd h not_mem_nil⟩
  | pointer t ih => exact canonical_indirection ih .pointer
  | reference t ih => exact canonical_indirection ih .reference
  | const t ih => exact canonical_qualify ih (by decide)
  | volatile t ih => exact canonical_qualify ih (by decide)

theorem Parameter.canonical_component (p : Parameter) : Canonical p.component.marks := by
  have hall := p.type.canonical_component
  rw [component]
  generalize p.type.component = c at hall
  unfold Component.unqualified
  split
  · exact hall.tail
  · exact hall

end Components

section Dictionaries

variable {dict : List Component} {cs : List Component} {c : Component} {base : BaseType}
  {marks : List Mark}

theorem mem_addAll : c ∈ addAll dict cs ↔ c ∈ dict ∨ c ∈ cs := by
  induction cs generalizing dict with
  | nil => simp [addAll]
  | cons d cs ih =>
    rw [addAll, foldl_cons, ← addAll, ih, addNew]
    split
    · next hd =>
      rw [mem_cons]
      constructor
      · rintro (h | h)
        · exact .inl h
        · exact .inr (.inr h)
      · rintro (h | rfl | h)
        · exact .inl h
        · exact .inl hd
        · exact .inr h
    · rw [mem_append, mem_singleton, mem_cons, or_assoc]

theorem addAll_of_mem (h : ∀ c ∈ cs, c ∈ dict) : addAll dict cs = dict := by
  induction cs with
  | nil => rfl
  | cons c cs ih =>
    rw [addAll, foldl_cons, ← addAll, addNew, if_pos (h c mem_cons_self)]
    exact ih fun c hc => h c (mem_cons_of_mem _ hc)

theorem prefix_addAll (dict cs : List Component) : dict <+: addAll dict cs := by
  induction cs generalizing dict with
  | nil => exact prefix_refl _
  | cons c cs ih =>
    refine List.IsPrefix.trans ?_ (ih _)
    rw [addNew]
    split
    · exact prefix_refl _
    · exact prefix_append _ _

theorem prefix_numberAll (dict cs : List Component) : dict <+: numberAll dict cs := by
  induction cs generalizing dict with
  | nil => exact prefix_refl _
  | cons c cs ih => exact (prefix_addAll dict _).trans (ih _)

theorem suffix_of_mem_candidates (h : c ∈ candidates base marks) :
    c.base = base ∧ c.marks <:+ marks := by
  induction marks with
  | nil =>
    cases base with
    | builtin b => exact absurd h not_mem_nil
    | ofClass name valid =>
      rw [mem_singleton.mp h]
      exact ⟨rfl, suffix_refl _⟩
  | cons m marks ih =>
    rcases mem_append.mp h with h | h
    · exact ⟨(ih h).1, (ih h).2.trans (suffix_cons _ _)⟩
    · rw [mem_singleton.mp h]
      exact ⟨rfl, suffix_refl _⟩

theorem candidates_subset {inner : List Mark} (h : inner <:+ marks) :
    candidates base inner ⊆ candidates base marks := by
  induction marks with
  | nil =>
    rw [List.suffix_nil.mp h]
    exact fun _ hc => hc
  | cons m marks ih =>
    rcases List.suffix_cons_iff.mp h with rfl | h
    · exact fun _ hc => hc
    · exact fun c hc => mem_append_left _ (ih h hc)

def Closed (dict : List Component) : Prop :=
  ∀ c ∈ dict, ∀ inner ∈ candidates c.base c.marks, inner ∈ dict

theorem Closed.number (h : Closed dict) (c : Component) : Closed (c.number dict) := by
  intro d hd inner hinner
  rcases mem_addAll.mp hd with hd | hd
  · exact mem_addAll.mpr (.inl (h d hd inner hinner))
  · obtain ⟨hbase, hmarks⟩ := suffix_of_mem_candidates hd
    rw [hbase] at hinner
    exact mem_addAll.mpr (.inr (candidates_subset hmarks hinner))

end Dictionaries

end ZeroBugs.Unmangle
