import ZeroBugs.Symbolz.SymbolTable

/-! # Lookups by name -/
namespace ZeroBugs.Symbolz.SymbolTable
open Lib.BinarySearch List

/-- Between two different names of the table with the same hash there is one
with another hash. -/
def Separated (table : List Symbol) : Prop :=
  ∀ a ∈ table, ∀ b ∈ table, a.name < b.name → hash a.name = hash b.name →
    ∃ c ∈ table, a.name < c.name ∧ c.name < b.name ∧ hash c.name ≠ hash a.name

variable {lhs rhs : Symbol}

theorem compareName_iff :
    compareName lhs rhs = true ↔ hash lhs.name ≠ hash rhs.name ∧ lhs.name < rhs.name := by
  unfold compareName
  split <;> simp_all

theorem compareName_of_not_lt (h : ¬lhs.name < rhs.name) :
    compareName lhs rhs = false := by
  simp [compareName, h]

theorem compareName_of_hash_eq (h : hash lhs.name = hash rhs.name) :
    compareName lhs rhs = false := by
  simp [compareName, h]

variable {table : List Symbol}

theorem sorted_of_separated {output : List Symbol} (hsep : Separated table)
    (hout : SortOutput compareName table output) :
    output.Pairwise fun x y => ¬y.name < x.name := by
  have hsorted := List.pairwise_iff_getElem.mp hout.sorted
  have hless : ∀ i j (hi : i < output.length) (hj : j < output.length), i < j →
      hash output[j].name ≠ hash output[i].name → ¬output[j].name < output[i].name := by
    intro i j hi hj hij hne hlt
    have hfalse := hsorted i j hi hj hij
    rw [compareName_iff.mpr ⟨hne, hlt⟩] at hfalse
    cases hfalse
  refine List.pairwise_iff_getElem.mpr fun i j hi hj hij hlt => ?_
  have hhash : hash output[j].name = hash output[i].name := by
    by_contra hne
    exact hless i j hi hj hij hne hlt
  obtain ⟨c, hc, hac, hcb, hne⟩ := hsep _ (hout.perm.mem_iff.mp (getElem_mem hj)) _
    (hout.perm.mem_iff.mp (getElem_mem hi)) hlt hhash
  obtain ⟨k, hk, rfl⟩ := List.mem_iff_getElem.mp (hout.perm.mem_iff.mpr hc)
  -- the name between stands before both or after both of the pair, and is out of order with one
  rcases Nat.lt_trichotomy k i with hki | rfl | hik
  · exact hless k j hk hj (by omega) (fun h => hne h.symm) hac
  · exact List.lt_irrefl _ hcb
  · exact hless i k hi hk hik (fun h => hne (h.trans hhash.symm)) hcb

theorem lookupName_of_sorted
    (hsorted : table.Pairwise fun x y => ¬y.name < x.name) (name : List UInt8) :
    lookupName table name = table.filter fun sym => sym.name = name := by
  have hslice := equalRange_slice (fun sym : Symbol => decide (sym.name < name))
    (fun sym : Symbol => decide (name < sym.name))
    (hsorted.imp fun {x y} hxy hy => by
      simp only [decide_eq_true_eq] at hy ⊢
      exact List.lt_of_le_of_lt hxy hy)
    (hsorted.imp fun {x y} hxy hx => by
      simp only [decide_eq_true_eq] at hx ⊢
      by_contra hle
      exact hxy (List.lt_of_le_of_lt hle hx))
    (fun x hx => by
      simp only [decide_eq_true_eq, decide_eq_false_iff_not] at hx ⊢
      exact List.lt_asymm hx)
  unfold lookupName
  rw [hslice]
  refine filter_congr fun sym _ => ?_
  rw [Bool.eq_iff_iff]
  simp only [Bool.and_eq_true, Bool.not_eq_true', decide_eq_false_iff_not, decide_eq_true_eq]
  constructor
  · exact fun hboth => List.le_antisymm hboth.2 hboth.1
  · intro heq
    rw [heq]
    exact ⟨List.lt_irrefl name, List.lt_irrefl name⟩

def nameLe (x y : Symbol) : Bool := decide ¬y.name < x.name

theorem exists_sorted (table : List Symbol) :
    ∃ sorted : List Symbol, sorted.Perm table ∧ sorted.Pairwise fun x y => ¬y.name < x.name := by
  refine ⟨table.mergeSort nameLe, mergeSort_perm table nameLe, ?_⟩
  have htrans : ∀ a b c : Symbol, nameLe a b → nameLe b c → nameLe a c := by
    intro a b c hab hbc
    simp only [nameLe, decide_eq_true_eq] at hab hbc ⊢
    exact fun hca => hab (List.lt_of_le_of_lt hbc hca)
  have htotal : ∀ a b : Symbol, nameLe a b || nameLe b a := by
    intro a b
    simp only [nameLe, Bool.or_eq_true, decide_eq_true_eq]
    by_cases hba : b.name < a.name
    · exact Or.inr (List.lt_asymm hba)
    · exact Or.inl hba
  exact (pairwise_mergeSort htrans htotal table).imp fun h => of_decide_eq_true h

structure Collision (table : List Symbol) (a b : Symbol) : Prop where
  fst : a ∈ table
  snd : b ∈ table
  lt : a.name < b.name
  hash_eq : hash a.name = hash b.name
  next : ∀ c ∈ table, a.name < c.name → ¬c.name < b.name

theorem exists_collision (h : ¬Separated table) :
    ∃ a b, Collision table a b := by
  unfold Separated at h
  push Not at h
  obtain ⟨a, ha, b, hb, hlt, hhash, hbetween⟩ := h
  obtain ⟨sorted, hperm, hsorted⟩ := exists_sorted table
  -- the least name above `a` is the first of those above `a` in the sorted table
  have hmem : ∀ c, c ∈ sorted.filter (fun c => decide (a.name < c.name)) ↔
      c ∈ table ∧ a.name < c.name := by
    intro c
    rw [mem_filter, hperm.mem_iff, decide_eq_true_eq]
  cases habove : sorted.filter fun c => decide (a.name < c.name) with
  | nil =>
    have hin := (hmem b).mpr ⟨hb, hlt⟩
    rw [habove] at hin
    cases hin
  | cons next rest =>
    have hpair := hsorted.filter fun c => decide (a.name < c.name)
    rw [habove] at hpair hmem
    have hleast : ∀ c ∈ table, a.name < c.name → ¬c.name < next.name := by
      intro c hc hac
      rcases mem_cons.mp ((hmem c).mpr ⟨hc, hac⟩) with rfl | hrest
      · exact List.lt_irrefl _
      · exact (List.pairwise_cons.mp hpair).1 c hrest
    obtain ⟨hnext, hanext⟩ := (hmem next).mp mem_cons_self
    refine ⟨a, next, ha, hnext, hanext, ?_, hleast⟩
    by_cases hnb : next.name < b.name
    · exact (hbetween next hnext hanext hnb).symm
    · rw [hhash, List.le_antisymm hnb (hleast b hb hlt)]

variable {a b : Symbol}

theorem exists_swapped (h : Collision table a b) :
    ∃ before moved after : List Symbol,
      SortOutput compareName table (before ++ (moved ++ after)) ∧ moved ≠ [] ∧
      (∀ x ∈ before, x.name < a.name) ∧ (∀ x ∈ moved, x.name = b.name) ∧
      ∀ x ∈ moved ++ after, ¬x.name < a.name := by
  obtain ⟨sorted, hperm, hsorted⟩ := exists_sorted table
  let low : Symbol → Bool := fun x => decide (x.name < a.name)
  let like : Symbol → Bool := fun x => decide (x.name = b.name)
  have hsplit := filter_append_perm low sorted
  have hmove := filter_append_perm like (sorted.filter fun x => !low x)
  have hpair : ∀ l : List Symbol, l.Sublist sorted →
      l.Pairwise fun x y => compareName y x = false := fun l hl =>
    (hsorted.sublist hl).imp compareName_of_not_lt
  have hhigh : ∀ x ∈ sorted.filter fun x => !low x, x ∈ table ∧ ¬x.name < a.name := by
    intro x hx
    obtain ⟨hx, hl⟩ := mem_filter.mp hx
    exact ⟨hperm.mem_iff.mp hx, by simpa [low] using hl⟩
  have hlow : ∀ x ∈ sorted.filter low, x.name < a.name := fun x hx =>
    of_decide_eq_true (mem_filter.mp hx).2
  have hlike : ∀ x ∈ (sorted.filter fun x => !low x).filter like, x.name = b.name := fun x hx =>
    of_decide_eq_true (mem_filter.mp hx).2
  have hmoved : ∀ x ∈ (sorted.filter fun x => !low x).filter like ++
      (sorted.filter fun x => !low x).filter (fun x => !like x),
      x ∈ table ∧ ¬x.name < a.name := fun x hx => hhigh x (hmove.mem_iff.mp hx)
  refine ⟨_, _, _, ⟨((hmove.append_left _).trans hsplit).trans hperm, ?_⟩, ?_, hlow, hlike,
    fun x hx => (hmoved x hx).2⟩
  · refine pairwise_append.mpr ⟨hpair _ filter_sublist, ?_, fun x hx y hy => ?_⟩
    · refine pairwise_append.mpr ⟨hpair _ (filter_sublist.trans filter_sublist),
        hpair _ (filter_sublist.trans filter_sublist), fun x hx y hy => ?_⟩
      obtain ⟨hytable, hya⟩ := hhigh y (mem_filter.mp hy).1
      by_cases hay : a.name < y.name
      · refine compareName_of_not_lt ?_
        rw [hlike x hx]
        exact h.next y hytable hay
      · refine compareName_of_hash_eq ?_
        rw [hlike x hx, ← h.hash_eq, List.le_antisymm hya hay]
    · exact compareName_of_not_lt fun hyx =>
        (hmoved y hy).2 (List.lt_trans hyx (hlow x hx))
  · have hb : b ∈ (sorted.filter fun x => !low x).filter like := by
      have hba : ¬b.name < a.name := List.lt_asymm h.lt
      simp [low, like, hperm.mem_iff, h.snd, hba]
    exact ne_nil_of_mem hb

theorem lookupName_swapped {before moved after : List Symbol} (hne : moved ≠ [])
    (hlow : ∀ x ∈ before, x.name < a.name) (hhigh : ∀ x ∈ moved ++ after, ¬x.name < a.name)
    (hmoved : ∀ x ∈ moved, x.name = b.name) :
    lookupName (before ++ (moved ++ after)) a.name = [] ∨
      ∃ x ∈ lookupName (before ++ (moved ++ after)) a.name, x.name = b.name := by
  have hsplit : SplitAt (fun i => ((before ++ (moved ++ after))[i]?).any
      fun sym => decide (sym.name < a.name)) 0 (before ++ (moved ++ after)).length
      before.length := by
    refine ⟨Nat.zero_le _, by simp, fun i _ hi => ?_, fun i hi hlen => ?_⟩
    · rw [getElem?_append_left hi, getElem?_eq_getElem hi]
      simpa using hlow _ (getElem_mem hi)
    · rw [getElem?_append_right hi]
      have hlen' : i - before.length < (moved ++ after).length := by
        rw [length_append] at hlen
        omega
      rw [getElem?_eq_getElem hlen']
      simpa using hhigh _ (getElem_mem hlen')
  obtain ⟨x, rest, rfl⟩ := exists_cons_of_ne_nil hne
  have hfst := equalRange_fst (fun i => ((before ++ (x :: rest ++ after))[i]?).any
    fun sym => decide (a.name < sym.name)) hsplit
  unfold lookupName
  generalize equalRange _ _ _ _ = range at hfst ⊢
  rcases hfst with hfst | hempty
  · simp only [hfst, drop_left]
    cases range.2 - before.length with
    | zero => exact Or.inl take_zero
    | succ n => exact Or.inr ⟨x, by simp, hmoved x mem_cons_self⟩
  · exact Or.inl (by simp [hempty])

def ExactLookup (table : List Symbol) : Prop :=
  ∀ output, SortOutput compareName table output → ∀ name,
    (lookupName output name).Perm (table.filter fun sym => sym.name = name)

theorem not_exactLookup_of_collision
    (h : Collision table a b) : ¬ExactLookup table := by
  intro hexact
  obtain ⟨before, moved, after, hout, hne, hlow, hmoved, hhigh⟩ := exists_swapped h
  have hperm := hexact _ hout a.name
  rcases lookupName_swapped hne hlow hhigh hmoved with hnil | ⟨x, hx, hname⟩
  · have ha : a ∈ table.filter fun sym => sym.name = a.name := by simp [h.fst]
    rw [hnil] at hperm
    exact absurd (hperm.mem_iff.mpr ha) not_mem_nil
  · have hxa := of_decide_eq_true (mem_filter.mp (hperm.mem_iff.mp hx)).2
    have hlt := h.lt
    rw [← hxa, hname] at hlt
    exact List.lt_irrefl _ hlt

theorem exact_lookup_iff (table : List Symbol) : ExactLookup table ↔ Separated table := by
  constructor
  · intro hexact
    by_contra hsep
    obtain ⟨a, b, hcol⟩ := exists_collision hsep
    exact not_exactLookup_of_collision hcol hexact
  · intro hsep output hout name
    rw [lookupName_of_sorted (sorted_of_separated hsep hout) name]
    exact hout.perm.filter _

def collidingNames : List Symbol := [⟨[97, 102], 0x1000, true⟩, ⟨[98, 97], 0x2000, true⟩]

theorem colliding_names_not_found : ¬ExactLookup collidingNames := by
  have hcol : Collision collidingNames ⟨[97, 102], 0x1000, true⟩ ⟨[98, 97], 0x2000, true⟩ :=
    ⟨by decide, by decide, by decide, by decide, by decide⟩
  exact not_exactLookup_of_collision hcol

end ZeroBugs.Symbolz.SymbolTable
