import Mathlib

/-! # Prefixes in the lexicographic order -/
namespace ZeroBugs.Lib.PrefixRange
open List

variable {α : Type*} [LinearOrder α]

theorem not_lt_of_isPrefix {w s : List α} (h : w <+: s) : ¬s < w := by
  obtain ⟨t, rfl⟩ := h
  induction w with
  | nil => exact not_lt_nil _
  | cons a w ih =>
    intro hlt
    rcases cons_lt_cons_iff.mp hlt with hlt | ⟨-, hlt⟩
    · exact lt_irrefl a hlt
    · exact ih hlt

theorem append_lt_concat_iff {w t : List α} {d : α} :
    w ++ t < w ++ [d] ↔ ∀ x ∈ t.head?, x < d := by
  induction w with
  | nil =>
    cases t with
    | nil => simp
    | cons x t => simp [cons_lt_cons_iff]
  | cons a w ih => simpa [cons_lt_cons_iff] using ih

theorem append_cons_lt (w : List α) {x d : α} (t t' : List α) (h : x < d) :
    w ++ x :: t < w ++ d :: t' := by
  induction w with
  | nil => exact cons_lt_cons_iff.mpr (Or.inl h)
  | cons a w ih => exact cons_lt_cons_iff.mpr (Or.inr ⟨rfl, ih⟩)

theorem lt_append_cons (w : List α) (x : α) (t : List α) : w < w ++ x :: t := by
  induction w with
  | nil => exact nil_lt_cons x t
  | cons a w ih => exact cons_lt_cons_iff.mpr (Or.inr ⟨rfl, ih⟩)

theorem append_lt_of_not_isPrefix {w s : List α} (hlt : ¬s < w) (h : ¬w <+: s) (t : List α) :
    w ++ t < s := by
  induction w generalizing s with
  | nil => exact absurd nil_prefix h
  | cons a w ih =>
    cases s with
    | nil => exact absurd (nil_lt_cons a w) hlt
    | cons x s =>
      rw [cons_lt_cons_iff, not_or, not_lt] at hlt
      rcases hlt.1.lt_or_eq with hax | rfl
      · exact cons_lt_cons_iff.mpr (Or.inl hax)
      · refine cons_lt_cons_iff.mpr (Or.inr ⟨rfl, ih (fun hs => hlt.2 ⟨rfl, hs⟩) ?_⟩)
        exact fun hp => h (cons_prefix_cons.mpr ⟨rfl, hp⟩)

theorem concat_isPrefix_iff {w s : List α} {c c' : α} (hnext : ∀ x, x < c' ↔ x ≤ c) :
    w ++ [c] <+: s ↔ ¬s < w ++ [c] ∧ s < w ++ [c'] := by
  constructor
  · rintro ⟨t, rfl⟩
    refine ⟨not_lt_of_isPrefix (prefix_append _ t), ?_⟩
    rw [append_assoc]
    exact append_lt_concat_iff.mpr fun x hx => (hnext x).mpr (by simp_all)
  · intro ⟨hge, hlt⟩
    by_contra hnot
    have hc : c < c' := (hnext c).mpr le_rfl
    by_cases hw : w <+: s
    · obtain ⟨t, rfl⟩ := hw
      rw [append_lt_concat_iff] at hge hlt
      cases t with
      | nil => exact hge (by simp)
      | cons x t =>
        have hx : x = c := le_antisymm ((hnext x).mp (hlt x rfl)) (by simpa using hge)
        exact hnot ⟨t, by simp [hx]⟩
    · have hsw : ¬s < w := fun h => hge (h.trans (lt_append_cons w c []))
      exact lt_asymm hlt (append_lt_of_not_isPrefix hsw hw [c'])

end ZeroBugs.Lib.PrefixRange
