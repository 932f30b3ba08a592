import ZeroBugs.Unmangle.Productions

/-! # Recording substitutions -/
namespace ZeroBugs.Unmangle
open List

/-- A text offered to the dictionary, with `override` to have it even when it is the
last one already. -/
structure Entry where
  text : Text
  override : Bool

/-- `SubstPolicy::insert` for a dictionary without end. -/
def keep (subst : List Text) (e : Entry) : List Text :=
  if e.override = true ∨ subst.getLast? ≠ some e.text then subst ++ [e.text] else subst

def kept (subst : List Text) (es : List Entry) : List Text := es.foldl keep subst

def dictionaryFull : Stop := .exception "size_ < capacity_"

def insertEntry (capacity : Nat) (subst : List Text) (e : Entry) : Except Stop (List Text) :=
  if e.override = true ∨ subst.getLast? ≠ some e.text then
    if subst.length < capacity then .ok (subst ++ [e.text]) else .error dictionaryFull
  else .ok subst

def insertAll (capacity : Nat) (subst : List Text) : List Entry → Except Stop (List Text)
  | [] => .ok subst
  | e :: es => (insertEntry capacity subst e).bind fun subst => insertAll capacity subst es

section Entries

variable {capacity : Nat} {subst : List Text} {e : Entry} {es es' : List Entry}

theorem insertAll_singleton (capacity : Nat) (subst : List Text) (e : Entry) :
    insertAll capacity subst [e] = insertEntry capacity subst e := by
  rw [insertAll]
  cases insertEntry capacity subst e <;> rfl

theorem insertAll_append (capacity : Nat) (subst : List Text) (es es' : List Entry) :
    insertAll capacity subst (es ++ es') =
      (insertAll capacity subst es).bind fun subst => insertAll capacity subst es' := by
  induction es generalizing subst with
  | nil => rfl
  | cons e es ih =>
    simp only [cons_append, insertAll]
    cases insertEntry capacity subst e with
    | error _ => rfl
    | ok subst => exact ih subst

theorem kept_append (subst : List Text) (es es' : List Entry) :
    kept subst (es ++ es') = kept (kept subst es) es' := foldl_append

theorem kept_cons (subst : List Text) (e : Entry) (es : List Entry) :
    kept subst (e :: es) = kept (keep subst e) es := rfl

theorem prefix_keep (subst : List Text) (e : Entry) : subst <+: keep subst e := by
  unfold keep
  split
  · exact prefix_append _ _
  · exact prefix_refl _

theorem prefix_kept (subst : List Text) (es : List Entry) : subst <+: kept subst es := by
  induction es generalizing subst with
  | nil => exact prefix_refl _
  | cons e es ih => exact (prefix_keep subst e).trans (ih _)

theorem insertAll_eq (hroom : subst.length ≤ capacity) (es : List Entry) :
    insertAll capacity subst es =
      if (kept subst es).length ≤ capacity then .ok (kept subst es)
      else .error dictionaryFull := by
  induction es generalizing subst with
  | nil => exact (if_pos hroom).symm
  | cons e es ih =>
    rw [insertAll, insertEntry, kept_cons, keep]
    split
    · by_cases hlt : subst.length < capacity
      · rw [if_pos hlt]
        exact ih (by rw [length_append, length_singleton]; omega)
      · rw [if_neg hlt, if_neg]
        · rfl
        · have hle := (prefix_kept (subst ++ [e.text]) es).length_le
          rw [length_append, length_singleton] at hle
          omega
    · exact ih hroom

theorem insertAll_ok (h : (kept subst es).length ≤ capacity) :
    insertAll capacity subst es = .ok (kept subst es) := by
  rw [insertAll_eq (Nat.le_trans (prefix_kept subst es).length_le h), if_pos h]

end Entries

inductive CvQualifier where
  | restricted
  | volatile
  | const
  deriving DecidableEq

namespace CvQualifier

def code : CvQualifier → Char
  | restricted => 'r'
  | volatile => 'V'
  | const => 'K'

def text (q : CvQualifier) : Text := qualifierText q.code

end CvQualifier

def cvText (cvs : List CvQualifier) : Text := cvs.flatMap CvQualifier.text

inductive Indirection where
  | pointer
  | reference
  deriving DecidableEq

namespace Indirection

def code : Indirection → Char
  | pointer => 'P'
  | reference => 'R'

def symbol : Indirection → Char
  | pointer => '*'
  | reference => '&'

end Indirection

/-- What makes a type of another: a pointer or a reference to it, or qualifiers. -/
inductive Mark where
  | indirection (kind : Indirection)
  | qualifiers (q : CvQualifier) (more : List CvQualifier)
  deriving DecidableEq

def Mark.text : Mark → Text
  | .indirection kind => [kind.symbol]
  | .qualifiers q more => cvText (q :: more)

def marksText (marks : List Mark) : Text := marks.flatMap Mark.text

def stages (text : Text) : List Mark → List Text
  | [] => []
  | m :: marks => (text ++ m.text) :: stages (text ++ m.text) marks

/-- The texts that the loop of `apply_qualifiers` offers, behind `text`. The character
at the cursor is passed over if `passed`. -/
def loopOffers (passed : Bool) (text : Text) : List Mark → List Text
  | [] => []
  | .indirection kind :: marks =>
    if passed then loopOffers false (text ++ [kind.symbol]) marks
    else text :: (text ++ [kind.symbol]) :: loopOffers true (text ++ [kind.symbol]) marks
  | .qualifiers q more :: marks => loopOffers false (text ++ cvText (q :: more)) marks

def offers (text : Text) (marks : List Mark) : List Text :=
  if marks = [] then [] else loopOffers true text marks ++ [text ++ marksText marks]

def asEntries (texts : List Text) : List Entry := texts.map fun text => ⟨text, false⟩

/-- Whether every type on the way is offered: qualifiers come only where the type that
they qualify has been offered. -/
def complete : (passed : Bool) → List Mark → Bool
  | _, [] => true
  | passed, .indirection _ :: marks => complete (!passed) marks
  | passed, .qualifiers _ _ :: marks => passed && complete false marks

def recorded (done : Bool) (text : Text) : List Mark → List Text
  | [] => if done then [] else [text]
  | .indirection kind :: marks =>
    if done then recorded false (text ++ [kind.symbol]) marks
    else text :: (text ++ [kind.symbol]) :: recorded true (text ++ [kind.symbol]) marks
  | .qualifiers q more :: marks => recorded false (text ++ cvText (q :: more)) marks

section Stages

variable {subst : List Text} {text : Text} {marks : List Mark}

theorem CvQualifier.text_cons (q : CvQualifier) : ∃ rest, q.text = ' ' :: rest := by
  cases q <;> exact ⟨_, rfl⟩

theorem Mark.text_ne_nil (m : Mark) : m.text ≠ [] := by
  cases m with
  | indirection kind => exact cons_ne_nil _ _
  | qualifiers q more =>
    obtain ⟨rest, hrest⟩ := q.text_cons
    rw [Mark.text, cvText, flatMap_cons, hrest]
    exact cons_ne_nil _ _

theorem append_text_ne (text : Text) (m : Mark) : text ++ m.text ≠ text := by
  intro h
  exact m.text_ne_nil (List.append_right_eq_self.mp h)

theorem kept_of_ne {text : Text} (h : subst.getLast? ≠ some text) (texts : List Text) :
    kept subst (asEntries (text :: texts)) = kept (subst ++ [text]) (asEntries texts) := by
  rw [asEntries, map_cons, kept_cons, keep, if_pos (.inr h)]
  rfl

theorem kept_of_last {text : Text} (h : subst.getLast? = some text) :
    kept subst (asEntries [text]) = subst := by
  simp [asEntries, kept, keep, h]

theorem length_lt_of_mem_stages {t : Text} (h : t ∈ stages text marks) :
    text.length < t.length := by
  induction marks generalizing text with
  | nil => exact absurd h not_mem_nil
  | cons m marks ih =>
    have hpos := length_pos_iff.mpr m.text_ne_nil
    rcases mem_cons.mp h with rfl | h
    · rw [length_append]
      omega
    · have hlt := ih h
      rw [length_append] at hlt
      omega

theorem last_ne_of_mem_stages (hlast : subst.getLast? = some text) :
    ∀ t ∈ stages text marks, subst.getLast? ≠ some t := by
  intro t ht heq
  have hlt := length_lt_of_mem_stages ht
  rw [Option.some.inj (hlast.symm.trans heq)] at hlt
  exact Nat.lt_irrefl _ hlt

theorem kept_loopOffers (text : Text) (marks : List Mark) :
    (∀ subst : List Text, subst.getLast? = some text →
      kept subst (asEntries (loopOffers true text marks ++ [text ++ marksText marks])) =
        subst ++ recorded true text marks) ∧
    ∀ subst : List Text, (∀ t ∈ text :: stages text marks, subst.getLast? ≠ some t) →
      kept subst (asEntries (loopOffers false text marks ++ [text ++ marksText marks])) =
        subst ++ recorded false text marks := by
  induction marks generalizing text with
  | nil =>
    have hfinal : text ++ marksText [] = text := append_nil text
    refine ⟨fun subst hlast => ?_, fun subst hnew => ?_⟩
    · rw [hfinal]
      exact (kept_of_last hlast).trans (append_nil subst).symm
    · rw [hfinal]
      exact kept_of_ne (hnew text mem_cons_self) []
  | cons m marks ih =>
    obtain ⟨ihdone, ihpending⟩ := ih (text ++ m.text)
    have hfinal : text ++ marksText (m :: marks) = text ++ m.text ++ marksText marks := by
      rw [marksText, flatMap_cons, append_assoc]
      rfl
    rw [hfinal]
    refine ⟨fun subst hlast => ?_, fun subst hnew => ?_⟩
    · have hne : ∀ t ∈ stages text (m :: marks), subst.getLast? ≠ some t :=
        last_ne_of_mem_stages hlast
      have hpending := ihpending subst hne
      cases m with
      | indirection kind => exact hpending
      | qualifiers q more => exact hpending
    · cases m with
      | indirection kind =>
        have hnext : (subst ++ [text]).getLast? ≠ some (text ++ [kind.symbol]) := by
          rw [getLast?_concat]
          exact fun h => append_text_ne text (.indirection kind) (Option.some.inj h).symm
        have hdone := ihdone (subst ++ [text] ++ [text ++ [kind.symbol]]) getLast?_concat
        show kept subst (asEntries (text :: (text ++ [kind.symbol]) ::
          (loopOffers true (text ++ [kind.symbol]) marks ++ _))) = _
        rw [kept_of_ne (hnew text mem_cons_self), kept_of_ne hnext]
        refine hdone.trans ?_
        simp [recorded, Mark.text]
      | qualifiers q more =>
        exact ihpending subst fun t ht => hnew t (mem_cons_of_mem text ht)

theorem kept_offers (hmarks : marks ≠ [])
    (hnew : ∀ t ∈ stages text marks, subst.getLast? ≠ some t) :
    kept subst (asEntries (offers text marks)) = subst ++ recorded true text marks := by
  rw [offers, if_neg hmarks]
  cases marks with
  | nil => exact absurd rfl hmarks
  | cons m marks =>
    have hfinal : text ++ marksText (m :: marks) = text ++ m.text ++ marksText marks := by
      rw [marksText, flatMap_cons, append_assoc]
      rfl
    have hpending := (kept_loopOffers (text ++ m.text) marks).2 subst hnew
    rw [hfinal]
    cases m with
    | indirection kind => exact hpending
    | qualifiers q more => exact hpending

theorem recorded_of_complete (text : Text) (marks : List Mark) :
    (complete true marks = true → recorded true text marks = stages text marks) ∧
      (complete false marks = true → recorded false text marks = text :: stages text marks) := by
  induction marks generalizing text with
  | nil => exact ⟨fun _ => rfl, fun _ => rfl⟩
  | cons m marks ih =>
    obtain ⟨ihdone, ihpending⟩ := ih (text ++ m.text)
    cases m with
    | indirection kind =>
      refine ⟨fun h => ihpending h, fun h => ?_⟩
      show text :: (text ++ [kind.symbol]) :: recorded true (text ++ [kind.symbol]) marks = _
      rw [show recorded true (text ++ [kind.symbol]) marks = _ from ihdone h]
      rfl
    | qualifiers q more =>
      exact ⟨fun h => ihpending h, fun h => absurd h Bool.false_ne_true⟩

def Departs (l l' : List Text) : Prop :=
  ∃ before x rest y rest', l = before ++ x :: rest ∧ l' = before ++ y :: rest' ∧ x ≠ y

theorem Departs.append_left {l l' : List Text} (h : Departs l l') (before : List Text) :
    Departs (before ++ l) (before ++ l') := by
  obtain ⟨between, x, rest, y, rest', rfl, rfl, hne⟩ := h
  exact ⟨before ++ between, x, rest, y, rest', (append_assoc _ _ _).symm,
    (append_assoc _ _ _).symm, hne⟩

theorem Departs.not_initial {l l' final : List Text} (h : Departs l l') (hfinal : l' <+: final) :
    ¬l <+: final := by
  obtain ⟨before, x, rest, y, rest', rfl, rfl, hne⟩ := h
  intro hother
  have hx := hother.getElem (i := before.length) (by simp)
  have hy := hfinal.getElem (i := before.length) (by simp)
  simp only [getElem_append_right (Nat.le_refl _), Nat.sub_self, getElem_cons_zero]
    at hx hy
  exact hne (hx.trans hy.symm)

theorem recorded_false_cons (text : Text) (marks : List Mark) :
    ∃ first rest, recorded false text marks = first :: rest ∧ text.length ≤ first.length := by
  induction marks generalizing text with
  | nil => exact ⟨text, [], rfl, Nat.le_refl _⟩
  | cons m marks ih =>
    cases m with
    | indirection kind => exact ⟨text, _, rfl, Nat.le_refl _⟩
    | qualifiers q more =>
      obtain ⟨first, rest, heq, hle⟩ := ih (text ++ cvText (q :: more))
      rw [length_append] at hle
      exact ⟨first, rest, heq, by omega⟩

theorem departs_of_not_complete (text : Text) (marks : List Mark) :
    (complete true marks = false → Departs (recorded true text marks) (stages text marks)) ∧
      (complete false marks = false →
        Departs (recorded false text marks) (text :: stages text marks)) := by
  induction marks generalizing text with
  | nil => exact ⟨fun h => absurd h (by decide), fun h => absurd h (by decide)⟩
  | cons m marks ih =>
    obtain ⟨ihdone, ihpending⟩ := ih (text ++ m.text)
    cases m with
    | indirection kind =>
      exact ⟨fun h => ihpending h, fun h => (ihdone h).append_left [text, text ++ [kind.symbol]]⟩
    | qualifiers q more =>
      refine ⟨fun h => ihpending h, fun _ => ?_⟩
      obtain ⟨first, rest, heq, hle⟩ := recorded_false_cons (text ++ cvText (q :: more)) marks
      refine ⟨[], first, rest, text, _, heq, rfl, ?_⟩
      rintro rfl
      have hpos := length_pos_iff.mpr (Mark.text_ne_nil (.qualifiers q more))
      rw [length_append] at hle
      exact absurd hle (by simp only [Mark.text] at hpos; omega)

end Stages

end ZeroBugs.Unmangle
