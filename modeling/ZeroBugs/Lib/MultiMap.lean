import Mathlib

/-! # Ordered multimaps -/
namespace ZeroBugs.Lib
open List

variable {K V : Type*} [LinearOrder K]

structure MultiMap (K V : Type*) [LinearOrder K] where
  entries : List (K × V)
  sorted : entries.Pairwise (·.1 ≤ ·.1)

namespace MultiMap

def empty : MultiMap K V := ⟨[], List.Pairwise.nil⟩

/-- The entries before `lower_bound`: those with a smaller key. -/
def below (m : MultiMap K V) (k : K) : List (K × V) := m.entries.takeWhile (·.1 < k)

def from_ (m : MultiMap K V) (k : K) : List (K × V) := m.entries.dropWhile (·.1 < k)

/-- The entries before `upper_bound`: those with a key up to `k`. -/
def upTo (m : MultiMap K V) (k : K) : List (K × V) := m.entries.takeWhile (·.1 ≤ k)

def above (m : MultiMap K V) (k : K) : List (K × V) := m.entries.dropWhile (·.1 ≤ k)

def filter (m : MultiMap K V) (p : K × V → Bool) : MultiMap K V :=
  ⟨m.entries.filter p, m.sorted.filter p⟩

def group (m : MultiMap K V) (k : K) : List V := (m.entries.filter (·.1 = k)).map (·.2)

def HasKey (m : MultiMap K V) (k : K) : Prop := ∃ e ∈ m.entries, e.1 = k

def Floor (m : MultiMap K V) (a k : K) : Prop :=
  m.HasKey k ∧ k ≤ a ∧ ∀ k', m.HasKey k' → k' ≤ a → k' ≤ k

theorem not_of_mem_dropWhile {A : Type*} {p : A → Bool} {l : List A}
    (hl : l.Pairwise fun x y => p y = true → p x = true) {e : A} (he : e ∈ l.dropWhile p) :
    ¬p e = true := by
  induction l with
  | nil => exact absurd he not_mem_nil
  | cons x l ih =>
    obtain ⟨hx, hl⟩ := List.pairwise_cons.mp hl
    by_cases hp : p x = true
    · rw [dropWhile_cons_of_pos hp] at he
      exact ih hl he
    · rw [dropWhile_cons_of_neg hp] at he
      rcases mem_cons.mp he with rfl | he
      · exact hp
      · intro hpe
        exact hp (hx e he hpe)

theorem below_append_from (m : MultiMap K V) (k : K) : m.below k ++ m.from_ k = m.entries :=
  takeWhile_append_dropWhile

theorem below_sorted (m : MultiMap K V) (k : K) : (m.below k).Pairwise (·.1 ≤ ·.1) := by
  have h := m.sorted
  rw [← below_append_from m k] at h
  exact (pairwise_append.mp h).1

theorem from_sorted (m : MultiMap K V) (k : K) : (m.from_ k).Pairwise (·.1 ≤ ·.1) := by
  have h := m.sorted
  rw [← below_append_from m k] at h
  exact (pairwise_append.mp h).2.1

variable {m : MultiMap K V} {k : K} {e : K × V}

theorem lt_of_mem_below (he : e ∈ m.below k) : e.1 < k := by
  simpa using mem_takeWhile_imp he

theorem le_of_mem_from (he : e ∈ m.from_ k) :
    k ≤ e.1 := by
  have hmono : m.entries.Pairwise fun x y => decide (y.1 < k) = true → decide (x.1 < k) = true :=
    m.sorted.imp fun hle hlt => decide_eq_true (hle.trans_lt (of_decide_eq_true hlt))
  simpa using not_of_mem_dropWhile hmono he

theorem upTo_append_above (m : MultiMap K V) (k : K) : m.upTo k ++ m.above k = m.entries :=
  takeWhile_append_dropWhile

theorem le_of_mem_upTo (he : e ∈ m.upTo k) : e.1 ≤ k := by
  simpa using mem_takeWhile_imp he

theorem lt_of_mem_above (he : e ∈ m.above k) :
    k < e.1 := by
  have hmono : m.entries.Pairwise fun x y => decide (y.1 ≤ k) = true → decide (x.1 ≤ k) = true :=
    m.sorted.imp fun hle hlt => decide_eq_true (hle.trans (of_decide_eq_true hlt))
  simpa using not_of_mem_dropWhile hmono he

theorem group_eq_from (m : MultiMap K V) (k : K) :
    m.group k = ((m.from_ k).filter (·.1 = k)).map (·.2) := by
  have hnone : (m.below k).filter (·.1 = k) = [] := by
    rw [filter_eq_nil_iff]
    intro e he
    simpa using (lt_of_mem_below he).ne
  rw [group, ← below_append_from m k, filter_append, hnone, nil_append]

variable {l : List (K × V)}

theorem filter_eq_takeWhile (hl : l.Pairwise (·.1 ≤ ·.1))
    (hk : ∀ e ∈ l, k ≤ e.1) : l.filter (·.1 = k) = l.takeWhile (·.1 = k) := by
  induction l with
  | nil => rfl
  | cons e l ih =>
    obtain ⟨he, hl⟩ := List.pairwise_cons.mp hl
    obtain ⟨hke, hkl⟩ := forall_mem_cons.mp hk
    by_cases heq : e.1 = k
    · simp [heq, ih hl hkl]
    · have hnone : l.filter (·.1 = k) = [] := by
        rw [filter_eq_nil_iff]
        intro x hx
        have hlt : k < x.1 := (lt_of_le_of_ne hke (Ne.symm heq)).trans_le (he x hx)
        simpa using hlt.ne'
      simp [heq, hnone]

theorem le_of_getLast (hl : l.Pairwise (·.1 ≤ ·.1))
    (he : l.getLast? = some e) : ∀ x ∈ l, x.1 ≤ e.1 := by
  intro x hx
  rw [← dropLast_append_getLast? e he] at hl hx
  rcases mem_append.mp hx with hx | hx
  · exact (pairwise_append.mp hl).2.2 x hx e mem_cons_self
  · rw [mem_singleton.mp hx]

variable {v : V}

theorem mem_group : v ∈ m.group k ↔ (k, v) ∈ m.entries := by
  simp [group]

def modifyFirst (p : K × V → Bool) (f : V → V) : List (K × V) → List (K × V)
  | [] => []
  | e :: es => if p e then (e.1, f e.2) :: es else e :: modifyFirst p f es

section Modify

variable {p : K × V → Bool} {f : V → V}

omit [LinearOrder K] in
theorem map_modifyFirst {C : Type*} {g : K × V → C} (hg : ∀ e, g (e.1, f e.2) = g e)
    (l : List (K × V)) : (modifyFirst p f l).map g = l.map g := by
  induction l with
  | nil => rfl
  | cons e es ih =>
    unfold modifyFirst
    split
    · rw [map_cons, map_cons, hg]
    · rw [map_cons, map_cons, ih]

omit [LinearOrder K] in
theorem mem_modifyFirst (h : ∃ e ∈ l, p e = true) :
    ∃ e ∈ l, p e = true ∧ (e.1, f e.2) ∈ modifyFirst p f l := by
  induction l with
  | nil =>
    obtain ⟨e, he, -⟩ := h
    exact absurd he not_mem_nil
  | cons x xs ih =>
    unfold modifyFirst
    by_cases hx : p x = true
    · rw [if_pos hx]
      exact ⟨x, mem_cons_self, hx, mem_cons_self⟩
    · rw [if_neg hx]
      obtain ⟨e, he, hp⟩ := h
      obtain ⟨y, hy, hpy, hmem⟩ :=
        ih ⟨e, (mem_cons.mp he).resolve_left fun heq => hx (heq ▸ hp), hp⟩
      exact ⟨y, mem_cons_of_mem _ hy, hpy, mem_cons_of_mem _ hmem⟩

/-- The map in which the first entry that passes the test has another value. -/
def modify (m : MultiMap K V) (p : K × V → Bool) (f : V → V) : MultiMap K V where
  entries := modifyFirst p f m.entries
  sorted := by
    have hsorted := pairwise_map.mpr m.sorted
    rw [← map_modifyFirst (p := p) (f := f) (g := Prod.fst) (fun _ => rfl)] at hsorted
    exact pairwise_map.mp hsorted

theorem map_modify {C : Type*} {g : K × V → C}
    (hg : ∀ e, g (e.1, f e.2) = g e) : (m.modify p f).entries.map g = m.entries.map g :=
  map_modifyFirst hg m.entries

theorem mem_modify (h : ∃ e ∈ m.entries, p e = true) :
    ∃ e ∈ m.entries, p e = true ∧ (e.1, f e.2) ∈ (m.modify p f).entries :=
  mem_modifyFirst h

end Modify

/-- `insert`: the entry goes behind all others of its key. -/
def insert (m : MultiMap K V) (k : K) (v : V) : MultiMap K V where
  entries := m.upTo k ++ (k, v) :: m.above k
  sorted := by
    have hparts := m.sorted
    rw [← upTo_append_above m k, pairwise_append] at hparts
    obtain ⟨hbefore, hafter, hcross⟩ := hparts
    refine pairwise_append.mpr ⟨hbefore, List.pairwise_cons.mpr ⟨?_, hafter⟩, ?_⟩
    · intro e he
      exact (lt_of_mem_above he).le
    · intro a ha b hb
      rcases mem_cons.mp hb with rfl | hb
      · exact le_of_mem_upTo ha
      · exact hcross a ha b hb

variable {b : K}

theorem mem_insert :
    e ∈ (m.insert b v).entries ↔ e = (b, v) ∨ e ∈ m.entries := by
  rw [← upTo_append_above m b]
  simp only [insert, mem_append, mem_cons]
  tauto

theorem insert_perm (m : MultiMap K V) (k : K) (v : V) :
    (m.insert k v).entries.Perm ((k, v) :: m.entries) := by
  have hmiddle : (m.insert k v).entries.Perm ((k, v) :: (m.upTo k ++ m.above k)) :=
    perm_middle
  rwa [upTo_append_above] at hmiddle

theorem insert_strict (h : m.entries.Pairwise (·.1 < ·.1))
    (hk : ¬m.HasKey k) (v : V) : (m.insert k v).entries.Pairwise (·.1 < ·.1) := by
  rw [← upTo_append_above m k, pairwise_append] at h
  obtain ⟨hbefore, hafter, hcross⟩ := h
  have hlt : ∀ e ∈ m.upTo k, e.1 < k := by
    intro e he
    refine lt_of_le_of_ne (le_of_mem_upTo he) fun heq => hk ⟨e, ?_, heq⟩
    rw [← upTo_append_above m k]
    exact mem_append_left _ he
  refine pairwise_append.mpr ⟨hbefore, List.pairwise_cons.mpr ⟨?_, hafter⟩, ?_⟩
  · intro e he
    exact lt_of_mem_above he
  · intro a ha b hb
    rcases mem_cons.mp hb with rfl | hb
    · exact hlt a ha
    · exact hcross a ha b hb

theorem hasKey_insert :
    (m.insert b v).HasKey k ↔ k = b ∨ m.HasKey k := by
  constructor
  · intro h
    obtain ⟨e, he, hk⟩ := h
    rcases mem_insert.mp he with rfl | he
    · exact Or.inl hk.symm
    · exact Or.inr ⟨e, he, hk⟩
  · intro h
    rcases h with rfl | ⟨e, he, hk⟩
    · exact ⟨(k, v), mem_insert.mpr (Or.inl rfl), rfl⟩
    · exact ⟨e, mem_insert.mpr (Or.inr he), hk⟩

theorem group_insert_self (m : MultiMap K V) (b : K) (v : V) :
    (m.insert b v).group b = m.group b ++ [v] := by
  have hnone : (m.above b).filter (·.1 = b) = [] := by
    rw [filter_eq_nil_iff]
    intro e he
    simpa using (lt_of_mem_above he).ne'
  have hall : m.group b = ((m.upTo b).filter (·.1 = b)).map (·.2) := by
    rw [group, ← upTo_append_above m b, filter_append, hnone, append_nil]
  rw [hall]
  simp [group, insert, hnone]

theorem group_insert_of_ne (m : MultiMap K V) (h : k ≠ b) (v : V) :
    (m.insert b v).group k = m.group k := by
  have hskip : ¬decide ((b, v).1 = k) = true := by simpa using h.symm
  simp only [group, insert, filter_append, filter_cons, if_neg hskip]
  rw [← filter_append, upTo_append_above]

theorem head_insert (m : MultiMap K V) (k : K) (v : V) :
    (m.insert k v).entries.head? = some (match m.entries.head? with
      | none => (k, v)
      | some e => if k < e.1 then (k, v) else e) := by
  cases h : m.entries with
  | nil => simp [insert, upTo, above, h]
  | cons e es =>
    by_cases hlt : k < e.1
    · simp [insert, upTo, above, h, hlt]
    · simp [insert, upTo, above, h, hlt, not_lt.mp hlt]

theorem head_foldl_insert {A : Type*} (f : A → K) (l : List A) :
    (l.foldl (fun m a => m.insert (f a) a) (empty : MultiMap K A)).entries.head? =
      (l.argmin f).map fun a => (f a, a) := by
  induction l using List.reverseRecOn with
  | nil => rfl
  | append_singleton l a ih =>
    rw [foldl_append, foldl_cons, foldl_nil, head_insert, ih, argmin_concat]
    cases l.argmin f with
    | none => rfl
    | some c => by_cases hlt : f a < f c <;> simp [hlt]

variable {a : K}

theorem Floor.unique {k' : K} (h : m.Floor a k) (h' : m.Floor a k') :
    k = k' :=
  le_antisymm (h'.2.2 k h.1 h.2.1) (h.2.2 k' h'.1 h'.2.1)

theorem floor_self (h : m.HasKey a) : m.Floor a a :=
  ⟨h, le_rfl, fun _ _ hle => hle⟩

theorem hasKey_iff_head :
    m.HasKey a ↔ ∃ e, (m.from_ a).head? = some e ∧ e.1 = a := by
  constructor
  · intro h
    obtain ⟨x, hx, rfl⟩ := h
    rw [← below_append_from m x.1, mem_append] at hx
    have hin : x ∈ m.from_ x.1 := hx.resolve_left fun h => lt_irrefl _ (lt_of_mem_below h)
    cases hfrom : m.from_ x.1 with
    | nil =>
      rw [hfrom] at hin
      exact absurd hin not_mem_nil
    | cons e rest =>
      have hsorted : (m.from_ x.1).Pairwise (·.1 ≤ ·.1) := from_sorted m x.1
      have hle : x.1 ≤ e.1 := le_of_mem_from (by rw [hfrom]; exact mem_cons_self)
      rw [hfrom] at hin hsorted
      refine ⟨e, rfl, le_antisymm ?_ hle⟩
      rcases mem_cons.mp hin with rfl | hin
      · exact le_rfl
      · exact (List.pairwise_cons.mp hsorted).1 x hin
  · intro h
    obtain ⟨e, hhead, rfl⟩ := h
    have hmem : e ∈ m.from_ e.1 := mem_of_head? hhead
    refine ⟨e, ?_, rfl⟩
    rw [← below_append_from m e.1]
    exact mem_append_right _ hmem

theorem floor_iff_getLast (h : ¬m.HasKey a) :
    m.Floor a k ↔ ∃ e, (m.below a).getLast? = some e ∧ e.1 = k := by
  have hbelow : ∀ x ∈ m.entries, x.1 ≤ a → x ∈ m.below a := by
    intro x hx hle
    rw [← below_append_from m a, mem_append] at hx
    refine hx.resolve_right fun hfrom => h ⟨x, ?_, le_antisymm hle (le_of_mem_from hfrom)⟩
    rw [← below_append_from m a]
    exact mem_append_right _ hfrom
  have hlast : ∀ e, (m.below a).getLast? = some e → m.Floor a e.1 := by
    intro e he
    have hmem : e ∈ m.below a := mem_of_getLast? he
    have hentry : e ∈ m.entries := by
      rw [← below_append_from m a]
      exact mem_append_left _ hmem
    refine ⟨⟨e, hentry, rfl⟩, (lt_of_mem_below hmem).le, fun k' hk' hle => ?_⟩
    obtain ⟨x, hx, rfl⟩ := hk'
    exact le_of_getLast (below_sorted m a) he x (hbelow x hx hle)
  constructor
  · intro hfloor
    obtain ⟨x, hx, hk⟩ := hfloor.1
    have hin := hbelow x hx (hk.trans_le hfloor.2.1)
    have he := getLast?_eq_some_getLast (ne_nil_of_mem hin)
    exact ⟨_, he, (hlast _ he).unique hfloor⟩
  · intro h
    obtain ⟨e, he, rfl⟩ := h
    exact hlast e he

theorem floor_insert (h : m.Floor a k)
    (hb : b ≤ a → b ≤ k) : (m.insert b v).Floor a k := by
  refine ⟨hasKey_insert.mpr (Or.inr h.1), h.2.1, fun k' hk' hle => ?_⟩
  rcases hasKey_insert.mp hk' with rfl | hk'
  · exact hb hle
  · exact h.2.2 k' hk' hle

theorem floor_insert_new (hb : b ≤ a)
    (hnone : ∀ k, m.HasKey k → k ≤ a → k < b) : (m.insert b v).Floor a b := by
  refine ⟨hasKey_insert.mpr (Or.inl rfl), hb, fun k' hk' hle => ?_⟩
  rcases hasKey_insert.mp hk' with rfl | hk'
  · exact le_rfl
  · exact (hnone k' hk' hle).le

end MultiMap

end ZeroBugs.Lib
