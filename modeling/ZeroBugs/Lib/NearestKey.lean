import ZeroBugs.Lib.MultiMap

/-! # The key nearest to a number -/
namespace ZeroBugs.Lib.MultiMap
open List

variable {V : Type*} {m : MultiMap Nat V} {a k : Nat}

def distance (a k : Nat) : Nat := if k < a then a - k else k - a

structure Ceil (m : MultiMap Nat V) (a k : Nat) : Prop where
  key : m.HasKey k
  le : a ≤ k
  least : ∀ k', m.HasKey k' → a ≤ k' → k ≤ k'

structure Nearest (m : MultiMap Nat V) (a k : Nat) : Prop where
  key : m.HasKey k
  least : ∀ k', m.HasKey k' → distance a k ≤ distance a k'
  last : ∀ k', m.HasKey k' → distance a k' = distance a k → k' ≤ k

theorem Ceil.unique {k' : Nat} (h : m.Ceil a k) (h' : m.Ceil a k') : k = k' :=
  le_antisymm (h.least k' h'.key h'.le) (h'.least k h.key h.le)

theorem Nearest.unique {k' : Nat} (h : m.Nearest a k) (h' : m.Nearest a k') : k = k' := by
  have heq : distance a k = distance a k' :=
    le_antisymm (h.least k' h'.key) (h'.least k h.key)
  exact le_antisymm (h'.last k h.key heq) (h.last k' h'.key heq.symm)

theorem mem_entries_iff (a : Nat) {e : Nat × V} :
    e ∈ m.entries ↔ e ∈ m.below a ∨ e ∈ m.from_ a := by
  rw [← below_append_from m a, mem_append]

section Neighbours

variable {e j : Nat × V} {es : List (Nat × V)}

theorem ceil_head (h : m.from_ a = e :: es) : m.Ceil a e.1 := by
  have hmem : e ∈ m.from_ a := h ▸ mem_cons_self
  refine ⟨⟨e, (mem_entries_iff a).mpr (Or.inr hmem), rfl⟩, le_of_mem_from hmem, ?_⟩
  intro k' hk' hle
  obtain ⟨x, hx, rfl⟩ := hk'
  rcases (mem_entries_iff a).mp hx with hx | hx
  · exact absurd hle (Nat.not_le.mpr (lt_of_mem_below hx))
  · have hsorted : (e :: es).Pairwise (·.1 ≤ ·.1) := h ▸ from_sorted m a
    rw [h] at hx
    rcases mem_cons.mp hx with rfl | hx
    · exact le_rfl
    · exact (List.pairwise_cons.mp hsorted).1 x hx

section

variable (hj : (m.below a).getLast? = some j)
include hj

theorem key_cases (he : m.from_ a = e :: es)
    (hk : m.HasKey k) : k ≤ j.1 ∨ e.1 ≤ k := by
  obtain ⟨x, hx, rfl⟩ := hk
  rcases (mem_entries_iff a).mp hx with hbelow | hfrom
  · exact Or.inl (le_of_getLast (below_sorted m a) hj x hbelow)
  · exact Or.inr ((ceil_head he).least x.1 ⟨x, hx, rfl⟩ (le_of_mem_from hfrom))

theorem hasKey_last : m.HasKey j.1 ∧ j.1 < a := by
  have hmem := mem_of_getLast? hj
  exact ⟨⟨j, (mem_entries_iff a).mpr (Or.inl hmem), rfl⟩, lt_of_mem_below hmem⟩

theorem nearest_neighbour (he : m.from_ a = e :: es) :
    m.Nearest a (if distance a j.1 < distance a e.1 then j.1 else e.1) := by
  obtain ⟨hkey, hlt⟩ := hasKey_last hj
  have hceil := ceil_head he
  have hle := hceil.le
  -- a key is beyond the neighbour on its side
  have hside : ∀ k, m.HasKey k →
      distance a j.1 + (j.1 - k) = distance a k ∧ k ≤ j.1 ∨
        distance a e.1 + (k - e.1) = distance a k ∧ e.1 ≤ k := by
    intro k hk
    unfold distance
    rcases key_cases hj he hk with hk | hk
    · rw [if_pos hlt, if_pos (hk.trans_lt hlt)]
      omega
    · rw [if_neg (by omega : ¬e.1 < a), if_neg (by omega : ¬k < a)]
      omega
  split
  · refine ⟨hkey, fun k hk => ?_, fun k hk heq => ?_⟩ <;> rcases hside k hk with h | h <;> omega
  · refine ⟨hceil.key, fun k hk => ?_, fun k hk heq => ?_⟩
    · rcases hside k hk with h | h <;> omega
    · have hj := hside j.1 hkey
      rcases hside k hk with h | h <;> omega

end

theorem from_head (h : m.from_ a = e :: es) : m.from_ e.1 = m.from_ a := by
  have hle := (ceil_head h).le
  have hbelow : ∀ x ∈ m.below a, decide (x.1 < e.1) = true := fun x hx =>
    decide_eq_true ((lt_of_mem_below hx).trans_le hle)
  rw [from_, ← below_append_from m a, dropWhile_append_of_pos hbelow, h,
    dropWhile_cons_of_neg (by simp)]

end Neighbours

structure GroupTold (V : Type*) where
  told : List V
  count : Nat
  pastEnd : Bool

/-- The loop: an entry's key is read, then the value told. The listener, if there is
one, may stop it. -/
def tellGroup (goesOn : Option (List V → Bool)) (k : Nat) :
    List (Nat × V) → List V → Nat → GroupTold V
  | [], told, count => ⟨told, count, true⟩
  | e :: es, told, count =>
    if e.1 = k then
      match goesOn with
      | none => tellGroup goesOn k es told (count + 1)
      | some f =>
        if f (told ++ [e.2]) then tellGroup goesOn k es (told ++ [e.2]) (count + 1)
        else ⟨told ++ [e.2], count, false⟩
    else ⟨told, count, false⟩

def StopsWithin (goesOn : Option (List V → Bool)) (values : List V) : Prop :=
  ∃ f, goesOn = some f ∧ ∃ told, told ≠ [] ∧ told <+: values ∧ f told = false

def HearsAll (goesOn : Option (List V → Bool)) (values : List V) : Prop :=
  ∀ f, goesOn = some f → ∀ told, told ≠ [] → told <+: values → told ≠ values → f told = true

section Loop

variable (f : List V → Bool) (k : Nat)

def valuesOf (es : List (Nat × V)) : List V := (es.takeWhile (·.1 = k)).map (·.2)

theorem forall_told_cons {v : V} {vs : List V} {P : List V → Prop} :
    (∀ p, p ≠ [] → p <+: v :: vs → P p) ↔ P [v] ∧ ∀ p, p ≠ [] → p <+: vs → P (v :: p) := by
  constructor
  · intro h
    refine ⟨h [v] (by simp) ⟨vs, rfl⟩, fun p _ hp => h (v :: p) (by simp) ?_⟩
    exact List.prefix_cons_iff.mpr (Or.inr ⟨p, rfl, hp⟩)
  · intro h p hne hp
    rcases List.prefix_cons_iff.mp hp with rfl | ⟨t, rfl, ht⟩
    · exact absurd rfl hne
    · cases t with
      | nil => exact h.1
      | cons w t => exact h.2 (w :: t) (by simp) ht

variable {f k}

theorem tellGroup_goes_on {e : Nat × V} {told : List V} (hk : e.1 = k)
    (hf : f (told ++ [e.2]) = true) (es : List (Nat × V)) (count : Nat) :
    tellGroup (some f) k (e :: es) told count =
      tellGroup (some f) k es (told ++ [e.2]) (count + 1) := by
  simp [tellGroup, hk, hf]

theorem tellGroup_stops {e : Nat × V} {told : List V} (hk : e.1 = k)
    (hf : ¬f (told ++ [e.2]) = true) (es : List (Nat × V)) (count : Nat) :
    tellGroup (some f) k (e :: es) told count = ⟨told ++ [e.2], count, false⟩ := by
  simp [tellGroup, hk, hf]

theorem tellGroup_other {goesOn : Option (List V → Bool)} {e : Nat × V} (hk : ¬e.1 = k)
    (es : List (Nat × V)) (told : List V) (count : Nat) :
    tellGroup goesOn k (e :: es) told count = ⟨told, count, false⟩ := by
  simp [tellGroup, hk]

theorem valuesOf_cons {e : Nat × V} (hk : e.1 = k) (es : List (Nat × V)) :
    valuesOf k (e :: es) = e.2 :: valuesOf k es := by
  simp [valuesOf, hk]

theorem valuesOf_other {e : Nat × V} (hk : ¬e.1 = k) (es : List (Nat × V)) :
    valuesOf k (e :: es) = [] := by
  simp [valuesOf, hk]

variable (f k)

section

variable (es : List (Nat × V)) (told : List V) (count : Nat)

theorem tellGroup_none :
    (tellGroup none k es told count).told = told ∧
      ((tellGroup none k es told count).pastEnd = true ↔ es.dropWhile (·.1 = k) = []) := by
  induction es generalizing count with
  | nil => simp [tellGroup]
  | cons e es ih =>
    by_cases hk : e.1 = k
    · simpa [tellGroup, hk] using ih (count + 1)
    · simp [tellGroup, hk]

theorem tellGroup_pastEnd :
    (tellGroup (some f) k es told count).pastEnd = true ↔
      es.dropWhile (·.1 = k) = [] ∧
        ∀ p, p ≠ [] → p <+: valuesOf k es → f (told ++ p) = true := by
  induction es generalizing told count with
  | nil =>
    refine iff_of_true rfl ⟨rfl, fun p hne hp => ?_⟩
    exact absurd (List.prefix_nil.mp hp) hne
  | cons e es ih =>
    by_cases hk : e.1 = k
    · have hdrop : (e :: es).dropWhile (·.1 = k) = es.dropWhile (·.1 = k) := by simp [hk]
      rw [valuesOf_cons hk, hdrop, forall_told_cons]
      by_cases hf : f (told ++ [e.2]) = true
      · rw [tellGroup_goes_on hk hf, ih]
        simp [hf]
      · rw [tellGroup_stops hk hf]
        simp [hf]
    · rw [tellGroup_other hk]
      simp [hk]

theorem tellGroup_told :
    (tellGroup (some f) k es told count).told = told ++ valuesOf k es ↔
      ∀ p, p ≠ [] → p <+: valuesOf k es → p ≠ valuesOf k es → f (told ++ p) = true := by
  induction es generalizing told count with
  | nil =>
    refine iff_of_true (append_nil told).symm fun p hne hp => ?_
    exact absurd (List.prefix_nil.mp hp) hne
  | cons e es ih =>
    by_cases hk : e.1 = k
    · rw [valuesOf_cons hk, forall_told_cons]
      by_cases hf : f (told ++ [e.2]) = true
      · have hih := ih (told ++ [e.2]) (count + 1)
        rw [append_assoc, singleton_append] at hih
        rw [tellGroup_goes_on hk hf, hih]
        simp [hf]
      · -- the loop stops here, which is right if this is the last value
        rw [tellGroup_stops hk hf]
        simp only [append_cancel_left_eq, List.cons.injEq, true_and, ne_eq]
        constructor
        · intro hnil
          refine ⟨fun hne => absurd hnil hne, fun p hne hp => ?_⟩
          rw [← hnil] at hp
          exact absurd (List.prefix_nil.mp hp) hne
        · intro h
          by_contra hne
          exact hf (h.1 hne)
    · rw [tellGroup_other hk, valuesOf_other hk]
      refine iff_of_true (append_nil told).symm fun p hne hp => ?_
      exact absurd (List.prefix_nil.mp hp) hne

theorem tellGroup_told_keeps :
    told <+: (tellGroup (some f) k es told count).told := by
  induction es generalizing told count with
  | nil => exact prefix_rfl
  | cons e es ih =>
    by_cases hk : e.1 = k
    · by_cases hf : f (told ++ [e.2]) = true
      · rw [tellGroup_goes_on hk hf]
        exact (prefix_append told _).trans (ih _ _)
      · rw [tellGroup_stops hk hf]
        exact prefix_append told _
    · exact ⟨[], by rw [tellGroup_other hk, append_nil]⟩

end

theorem tellGroup_told_ne_nil {e : Nat × V} (hk : e.1 = k) (es : List (Nat × V)) :
    (tellGroup (some f) k (e :: es) [] 0).told ≠ [] := by
  by_cases hf : f ([] ++ [e.2]) = true
  · rw [tellGroup_goes_on hk hf]
    intro hnil
    have hpre := tellGroup_told_keeps f k es ([] ++ [e.2]) (0 + 1)
    rw [hnil] at hpre
    exact absurd (List.prefix_nil.mp hpre) (by simp)
  · rw [tellGroup_stops hk hf]
    simp

end Loop

theorem valuesOf_from (m : MultiMap Nat V) (k : Nat) : valuesOf k (m.from_ k) = m.group k := by
  rw [group_eq_from, filter_eq_takeWhile (from_sorted m k) fun e he => le_of_mem_from he, valuesOf]

theorem from_cons_of_hasKey (hk : m.HasKey k) : ∃ e es, m.from_ k = e :: es ∧ e.1 = k := by
  obtain ⟨e, hhead, hek⟩ := hasKey_iff_head.mp hk
  obtain ⟨es, hes⟩ := List.head?_eq_some_iff.mp hhead
  exact ⟨e, es, hes, hek⟩

theorem rest_from_iff (m : MultiMap Nat V) (k : Nat) :
    (m.from_ k).dropWhile (·.1 = k) = [] ↔ ¬∃ k', m.HasKey k' ∧ k < k' := by
  rw [dropWhile_eq_nil_iff]
  constructor
  · intro hall h
    obtain ⟨k', ⟨e, he, rfl⟩, hlt⟩ := h
    have hfrom : e ∈ m.from_ k := by
      rcases (mem_entries_iff k).mp he with hbelow | hfrom
      · exact absurd (lt_of_mem_below hbelow) (Nat.lt_asymm hlt)
      · exact hfrom
    exact absurd (of_decide_eq_true (hall e hfrom)) (Nat.ne_of_gt hlt)
  · intro hnone e he
    have hle := le_of_mem_from he
    refine decide_eq_true (le_antisymm (Nat.not_lt.mp fun hlt => hnone ?_) hle)
    exact ⟨e.1, ⟨e, (mem_entries_iff k).mpr (Or.inr he), rfl⟩, hlt⟩

theorem tellGroup_from_pastEnd (m : MultiMap Nat V) (goesOn : Option (List V → Bool)) (k : Nat) :
    (tellGroup goesOn k (m.from_ k) [] 0).pastEnd = false ↔
      (∃ k', m.HasKey k' ∧ k < k') ∨ StopsWithin goesOn (m.group k) := by
  rw [← Bool.not_eq_true, ← not_iff_not, not_not, not_or, ← rest_from_iff]
  cases goesOn with
  | none => simp [(tellGroup_none k (m.from_ k) [] 0).2, StopsWithin]
  | some f =>
    rw [tellGroup_pastEnd, valuesOf_from]
    refine and_congr_right fun _ => ?_
    constructor
    · intro h hstops
      obtain ⟨f', hf', told, hne, hpre, hfalse⟩ := hstops
      obtain rfl := Option.some.inj hf'
      exact absurd (h told hne hpre) (by simp [hfalse])
    · intro h p hne hpre
      by_contra hf
      exact h ⟨f, rfl, p, hne, hpre, by simpa using hf⟩

theorem tellGroup_from_told (m : MultiMap Nat V) (goesOn : Option (List V → Bool))
    (hk : m.HasKey k) :
    ((tellGroup goesOn k (m.from_ k) [] 0).told ≠ [] →
        (tellGroup goesOn k (m.from_ k) [] 0).told = m.group k) ↔ HearsAll goesOn (m.group k) := by
  cases goesOn with
  | none => simp [(tellGroup_none k (m.from_ k) [] 0).1, HearsAll]
  | some f =>
    have hne : (tellGroup (some f) k (m.from_ k) [] 0).told ≠ [] := by
      obtain ⟨e, es, hfrom, hek⟩ := from_cons_of_hasKey hk
      rw [hfrom]
      exact tellGroup_told_ne_nil f k hek es
    have htold := tellGroup_told f k (m.from_ k) [] 0
    rw [valuesOf_from, nil_append] at htold
    rw [forall_prop_of_true hne, htold]
    simp [HearsAll]

end ZeroBugs.Lib.MultiMap
