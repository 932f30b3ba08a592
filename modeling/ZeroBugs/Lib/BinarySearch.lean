import Mathlib

/-! # Binary search over an index range -/
namespace ZeroBugs.Lib.BinarySearch
open List

def lowerBound (below : Nat → Bool) (first len : Nat) : Nat :=
  if len = 0 then first
  else
    let half := len / 2
    if below (first + half) then lowerBound below (first + half + 1) (len - half - 1)
    else lowerBound below first half
termination_by len

def upperBound (above : Nat → Bool) (first len : Nat) : Nat :=
  lowerBound (fun i => !above i) first len

def equalRange (below above : Nat → Bool) (first len : Nat) : Nat × Nat :=
  if len = 0 then (first, first)
  else
    let half := len / 2
    let middle := first + half
    if below middle then equalRange below above (middle + 1) (len - half - 1)
    else if above middle then equalRange below above first half
    else (lowerBound below first half,
      upperBound above (middle + 1) (first + len - (middle + 1)))
termination_by len

structure SplitAt (below : Nat → Bool) (first len k : Nat) : Prop where
  first_le : first ≤ k
  le_last : k ≤ first + len
  before : ∀ i, first ≤ i → i < k → below i = true
  after : ∀ i, k ≤ i → i < first + len → below i = false

variable {below : Nat → Bool} {first len k : Nat}

section

variable (h : SplitAt below first len k)
include h

theorem SplitAt.right {mid : Nat} (hfirst : first ≤ mid) (hmid : mid < first + len)
    (hbelow : below mid = true) : SplitAt below (mid + 1) (first + len - (mid + 1)) k := by
  have hlast := h.le_last
  have hk : mid < k := by
    by_contra hle
    have hfalse := h.after mid (by omega) hmid
    simp [hbelow] at hfalse
  refine ⟨hk, by omega, fun i hi hik => h.before i (by omega) hik, fun i hki hi => ?_⟩
  exact h.after i hki (by omega)

theorem SplitAt.upperHalf (hlen : len ≠ 0)
    (hbelow : below (first + len / 2) = true) :
    SplitAt below (first + len / 2 + 1) (len - len / 2 - 1) k := by
  have hright := h.right (Nat.le_add_right _ _) (by omega) hbelow
  rwa [show first + len - (first + len / 2 + 1) = len - len / 2 - 1 by omega] at hright

theorem SplitAt.lowerHalf
    (hbelow : ¬below (first + len / 2) = true) : SplitAt below first (len / 2) k := by
  have hk : k ≤ first + len / 2 := by
    by_contra hlt
    exact hbelow (h.before _ (Nat.le_add_right _ _) (by omega))
  exact ⟨h.first_le, hk, h.before, fun i hki hi => h.after i hki (by omega)⟩

theorem lowerBound_eq : lowerBound below first len = k := by
  fun_induction lowerBound below first len with
  | case1 first => exact Nat.le_antisymm h.first_le h.le_last
  | case2 first len hlen half hbelow ih => exact ih (h.upperHalf hlen hbelow)
  | case3 first len hlen half hbelow ih => exact ih (h.lowerHalf hbelow)

end

variable {α : Type*}

variable {p : α → Bool} {l : List α}

section

variable (h : l.Pairwise fun x y => p y = true → p x = true)
include h

theorem splitAt_takeWhile :
    SplitAt (fun i => (l[i]?).any p) 0 l.length (l.takeWhile p).length := by
  induction l with
  | nil => exact ⟨Nat.le_refl 0, Nat.le_refl 0, fun i _ hi => absurd hi (Nat.not_lt_zero i),
      fun i _ hi => absurd hi (Nat.not_lt_zero i)⟩
  | cons a l ih =>
    obtain ⟨ha, hl⟩ := List.pairwise_cons.mp h
    by_cases hp : p a = true
    · obtain ⟨-, hle, hbefore, hafter⟩ := ih hl
      rw [takeWhile_cons_of_pos hp]
      simp only [length_cons, Nat.zero_add] at hle hafter ⊢
      refine ⟨Nat.zero_le _, by omega, fun i _ hi => ?_, fun i hi hlen => ?_⟩
      · cases i with
        | zero => simpa using hp
        | succ i => simpa using hbefore i (Nat.zero_le i) (by omega)
      · cases i with
        | zero => omega
        | succ i => simpa using hafter i (by omega) (by omega)
    · rw [takeWhile_cons_of_neg hp]
      refine ⟨Nat.le_refl 0, Nat.zero_le _, fun i _ hi => absurd hi (Nat.not_lt_zero i),
        fun i _ hlen => ?_⟩
      have hnone : ∀ x ∈ a :: l, p x = false := by
        intro x hx
        rcases mem_cons.mp hx with rfl | hx
        · simpa using hp
        · by_contra hpx
          exact hp (ha x hx (by simpa using hpx))
      rw [getElem?_eq_getElem (by simpa using hlen)]
      exact hnone _ (getElem_mem _)

theorem takeWhile_eq_filter : l.takeWhile p = l.filter p := by
  induction l with
  | nil => rfl
  | cons a l ih =>
    obtain ⟨ha, hl⟩ := List.pairwise_cons.mp h
    by_cases hp : p a = true
    · rw [takeWhile_cons_of_pos hp, filter_cons_of_pos hp, ih hl]
    · rw [takeWhile_cons_of_neg hp, filter_cons_of_neg hp]
      exact (filter_eq_nil_iff.mpr fun x hx hpx => hp (ha x hx hpx)).symm

theorem drop_takeWhile_eq_filter :
    l.drop (l.takeWhile p).length = l.filter fun x => !p x := by
  induction l with
  | nil => rfl
  | cons a l ih =>
    obtain ⟨ha, hl⟩ := List.pairwise_cons.mp h
    by_cases hp : p a = true
    · rw [takeWhile_cons_of_pos hp, filter_cons_of_neg (by simp [hp]), ← ih hl]
      rfl
    · rw [takeWhile_cons_of_neg hp]
      refine (filter_eq_self.mpr fun x hx => ?_).symm
      rcases mem_cons.mp hx with rfl | hx
      · simpa using hp
      · simpa using fun hpx => hp (ha x hx hpx)

theorem lowerBound_eq_takeWhile :
    lowerBound (fun i => (l[i]?).any p) 0 l.length = (l.takeWhile p).length :=
  lowerBound_eq (splitAt_takeWhile h)

end

theorem lowerBound_drop
    (h : (l.drop k).Pairwise fun x y => p y = true → p x = true) :
    lowerBound (fun i => (l[i]?).any p) k (l.length - k) =
      k + ((l.drop k).takeWhile p).length := by
  obtain ⟨-, hle, hbefore, hafter⟩ := splitAt_takeWhile h
  rw [length_drop] at hle hafter
  refine lowerBound_eq ⟨by omega, by omega, fun i hki hi => ?_, fun i hi hlen => ?_⟩
  · have hat := hbefore (i - k) (Nat.zero_le _) (by omega)
    rwa [getElem?_drop, Nat.add_sub_cancel' hki] at hat
  · have hat := hafter (i - k) (by omega) (by omega)
    rwa [getElem?_drop, Nat.add_sub_cancel' (by omega)] at hat

theorem lowerBound_not_below (below : Nat → Bool) (first len : Nat) :
    lowerBound below first len = first + len ∨ below (lowerBound below first len) = false := by
  fun_induction lowerBound below first len with
  | case1 first => exact Or.inl rfl
  | case2 first len hlen half hbelow ih =>
    rwa [show first + half + 1 + (len - half - 1) = first + len by omega] at ih
  | case3 first len hlen half hbelow ih =>
    rcases ih with hend | hfalse
    · rw [hend]
      exact Or.inr (by simpa using hbelow)
    · exact Or.inr hfalse

theorem equalRange_eq {above : Nat → Bool} {l : Nat}
    (hk : SplitAt below first len k) (hl : SplitAt (fun i => !above i) first len l)
    (hkl : k ≤ l) : equalRange below above first len = (k, l) := by
  fun_induction equalRange below above first len with
  | case1 first =>
    exact Prod.ext (Nat.le_antisymm hk.first_le hk.le_last)
      (Nat.le_antisymm hl.first_le hl.le_last)
  | case2 first len hlen half middle hbelow ih =>
    have hkr := hk.upperHalf hlen hbelow
    have hnot : (!above middle) = true :=
      hl.before _ (Nat.le_add_right _ _) (Nat.lt_of_lt_of_le hkr.first_le hkl)
    exact ih hkr (hl.upperHalf hlen hnot)
  | case3 first len hlen half middle hbelow habove ih =>
    exact ih (hk.lowerHalf hbelow) (hl.lowerHalf (by simpa using habove))
  | case4 first len hlen half middle hbelow habove =>
    have hright := hl.right (Nat.le_add_right first half) (by omega) (by simpa using habove)
    exact Prod.ext (lowerBound_eq (hk.lowerHalf hbelow)) (lowerBound_eq hright)

theorem SplitAt.congr {f g : Nat → Bool} (h : SplitAt f first len k)
    (heq : ∀ i, first ≤ i → i < first + len → g i = f i) : SplitAt g first len k := by
  have hle := h.le_last
  have hge := h.first_le
  refine ⟨hge, hle, fun i hi hk => ?_, fun i hk hi => ?_⟩
  · rw [heq i hi (by omega)]
    exact h.before i hi hk
  · rw [heq i (by omega) hi]
    exact h.after i hk hi

theorem slice_eq_filter {m : Nat} (hkm : k ≤ m)
    (hbefore : ∀ x ∈ l.take k, p x = false) (hinside : ∀ x ∈ (l.drop k).take (m - k), p x = true)
    (hafter : ∀ x ∈ l.drop m, p x = false) : (l.drop k).take (m - k) = l.filter p := by
  have hsplit : l = l.take k ++ ((l.drop k).take (m - k) ++ l.drop m) := by
    have hdrop : l.drop m = (l.drop k).drop (m - k) := by
      rw [drop_drop]
      congr 1
      omega
    rw [hdrop, take_append_drop, take_append_drop]
  conv_rhs => rw [hsplit]
  rw [filter_append, filter_append, filter_eq_self.mpr hinside,
    filter_eq_nil_iff.mpr fun x hx => by simp [hbefore x hx],
    filter_eq_nil_iff.mpr fun x hx => by simp [hafter x hx]]
  simp

theorem equalRange_slice (below above : α → Bool)
    (hbelow : l.Pairwise fun x y => below y = true → below x = true)
    (habove : l.Pairwise fun x y => above x = true → above y = true)
    (hdisj : ∀ x, below x = true → above x = false) :
    let range := equalRange (fun i => (l[i]?).any below) (fun i => (l[i]?).any above) 0 l.length
    (l.drop range.1).take (range.2 - range.1) = l.filter fun x => !below x && !above x := by
  have hk := splitAt_takeWhile hbelow
  have hm : SplitAt (fun i => !(l[i]?).any above) 0 l.length
      (l.takeWhile fun x => !above x).length := by
    refine (splitAt_takeWhile (habove.imp fun {x y} hxy hy => ?_)).congr fun i _ hi => ?_
    · cases hx : above x with
      | false => rfl
      | true => simp [hxy hx] at hy
    · rw [getElem?_eq_getElem (by omega)]
      rfl
  generalize (l.takeWhile below).length = k at hk
  generalize (l.takeWhile fun x => !above x).length = m at hm
  have hkm : k ≤ m := by
    by_contra hlt
    have hlen := hk.le_last
    have hat : l[m]? = some (l.get ⟨m, by omega⟩) := getElem?_eq_getElem _
    have h1 := hk.before m (Nat.zero_le m) (by omega)
    have h2 := hm.after m (Nat.le_refl m) (by omega)
    rw [hat] at h1
    simp only [hat, Option.any_some, hdisj _ h1] at h2
    cases h2
  simp only [equalRange_eq hk hm hkm]
  refine slice_eq_filter hkm (fun x hx => ?_) (fun x hx => ?_) fun x hx => ?_
  · obtain ⟨i, hi, rfl⟩ := List.mem_take_iff_getElem.mp hx
    have h1 := hk.before i (Nat.zero_le i) (by omega)
    rw [getElem?_eq_getElem (by omega)] at h1
    simp only [Option.any_some] at h1
    simp [h1]
  · obtain ⟨i, hi, rfl⟩ := List.mem_take_iff_getElem.mp hx
    rw [length_drop] at hi
    have h1 := hk.after (k + i) (by omega) (by omega)
    have h2 := hm.before (k + i) (Nat.zero_le _) (by omega)
    rw [getElem?_eq_getElem (by omega)] at h1 h2
    simp only [Option.any_some] at h1 h2
    simp only [getElem_drop, h1, h2, Bool.not_false, Bool.and_self]
  · obtain ⟨i, hi, rfl⟩ := List.mem_drop_iff_getElem.mp hx
    have h2 := hm.after (m + i) (by omega) (by omega)
    rw [getElem?_eq_getElem (by omega)] at h2
    simp only [Option.any_some] at h2
    simp [h2]

theorem equalRange_fst (above : Nat → Bool)
    (h : SplitAt below first len k) :
    (equalRange below above first len).1 = k ∨
      (equalRange below above first len).1 = (equalRange below above first len).2 := by
  fun_induction equalRange below above first len with
  | case1 first => exact Or.inr rfl
  | case2 first len hlen half middle hbelow ih => exact ih (h.upperHalf hlen hbelow)
  | case3 first len hlen half middle hbelow habove ih => exact ih (h.lowerHalf hbelow)
  | case4 first len hlen half middle hbelow habove =>
    exact Or.inl (lowerBound_eq (h.lowerHalf hbelow))

end ZeroBugs.Lib.BinarySearch
