import Mathlib

/-! # Loops whose turns each change one place -/
namespace ZeroBugs.Lib.LocalSteps
open List

variable {S K V : Type*} {get : S → K → V} {step : S → K → S} {change : V → V}

structure LocalStep (get : S → K → V) (step : S → K → S) (change : V → V) : Prop where
  here : ∀ s k, get (step s k) k = change (get s k)
  elsewhere : ∀ s k k', k' ≠ k → get (step s k) k' = get s k'

namespace LocalStep

theorem get_foldl_of_not_mem (h : LocalStep get step change) {ks : List K} {k : K}
    (hk : k ∉ ks) (s : S) : get (ks.foldl step s) k = get s k := by
  induction ks generalizing s with
  | nil => rfl
  | cons k₀ ks ih =>
    rw [mem_cons, not_or] at hk
    obtain ⟨hne, hrest⟩ := hk
    rw [foldl_cons, ih hrest, h.elsewhere s k₀ k hne]

theorem get_foldl_of_mem (h : LocalStep get step change) {ks : List K} (hnodup : ks.Nodup)
    {k : K} (hk : k ∈ ks) (s : S) : get (ks.foldl step s) k = change (get s k) := by
  induction ks generalizing s with
  | nil => cases hk
  | cons k₀ ks ih =>
    obtain ⟨hfresh, hrest⟩ := nodup_cons.mp hnodup
    rw [foldl_cons]
    cases mem_cons.mp hk with
    | inl heq =>
      subst heq
      rw [h.get_foldl_of_not_mem hfresh, h.here]
    | inr hmem =>
      have hne : k ≠ k₀ := fun heq => hfresh (heq ▸ hmem)
      rw [ih hrest hmem, h.elsewhere s k₀ k hne]

theorem count_foldl (h : LocalStep get step change) {count : S → Nat} {amount : V → Nat}
    (hcount : ∀ s k, count (step s k) = count s + amount (get s k)) {ks : List K}
    (hnodup : ks.Nodup) (s : S) :
    count (ks.foldl step s) = count s + (ks.map fun k => amount (get s k)).sum := by
  induction ks generalizing s with
  | nil => simp
  | cons k₀ ks ih =>
    obtain ⟨hfresh, hrest⟩ := nodup_cons.mp hnodup
    have hsame : (ks.map fun k => amount (get (step s k₀) k)) =
        ks.map fun k => amount (get s k) := by
      refine map_congr_left fun k hk => ?_
      rw [h.elsewhere s k₀ k fun heq => hfresh (heq ▸ hk)]
    rw [foldl_cons, ih hrest, hcount, hsame, map_cons, sum_cons, Nat.add_assoc]

end LocalStep

end ZeroBugs.Lib.LocalSteps
