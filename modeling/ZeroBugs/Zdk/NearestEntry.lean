import ZeroBugs.Lib.NearestKey

/-! # The entry nearest to an address -/
namespace ZeroBugs.Zdk.NearestEntry
open Lib Lib.MultiMap List

variable {V : Type*}

def compareNearest (target v1 v2 : Nat) : Bool := decide (distance target v1 < distance target v2)

def keyAt (junk : Nat) : List (Nat × V) → Nat
  | [] => junk
  | e :: _ => e.1

inductive Seek (V : Type*) where
  /-- There is none, and the lookup returns zero. -/
  | nothing (pastEnd : Bool)
  | bound (i : List (Nat × V))
  | nearest (before i : List (Nat × V)) (pastEnd : Bool)

/-- The start of both functions; only the DWARF one asks for the start of a block. -/
def seek (useNearestMatch : Bool) (junk : Nat) (isBlockStart : V → Bool)
    (table : MultiMap Nat V) (addr nearest : Nat) : Seek V :=
  let before := table.below addr
  let i := table.from_ addr
  let between := match i with
    | [] => true
    | e :: _ => decide (e.1 ≠ addr) && !isBlockStart e.2
  if between then
    match before.getLast? with
    | none => .nothing false
    | some j =>
      -- `i->first` is an argument of the comparison even where `i` is the end
      let back := !useNearestMatch || compareNearest addr j.1 (keyAt junk i)
      let pastEnd := (useNearestMatch && i.isEmpty) || (!back && i.isEmpty)
      let before := if back then before.dropLast else before
      let i := if back then j :: i else i
      if compareNearest addr nearest (keyAt junk i) then .nothing pastEnd
      else .nearest before i pastEnd
  else .bound i

/-- What a lookup did: the lines told, the result, `*nearest`, and whether an entry past the end was
read. -/
structure LineLookup (V : Type*) where
  told : List V
  count : Nat
  nearest : Option Nat
  pastEnd : Bool

def report (junk : Nat) (events : Option (List V → Bool)) (nearest : Nat)
    (i : List (Nat × V)) (pastEnd : Bool) : LineLookup V :=
  let r := tellGroup events (keyAt junk i) i [] 0
  ⟨r.told, r.count, some nearest, pastEnd || r.pastEnd⟩

/-- The lookup of the nearest lines. `start` is where the report starts, from the
entries before the nearest one and from it on. -/
def nearestLines (start : List (Nat × V) → List (Nat × V) → List (Nat × V))
    (useNearestMatch : Bool) (junk : Nat) (isBlockStart : V → Bool) (table : MultiMap Nat V)
    (events : Option (List V → Bool)) (addr nearest : Nat) : LineLookup V :=
  match seek useNearestMatch junk isBlockStart table addr nearest with
  | .nothing pastEnd => ⟨[], 0, some nearest, pastEnd⟩
  | .bound i => report junk events (keyAt junk i) i false
  | .nearest before i pastEnd => report junk events (keyAt junk i) (start before i) pastEnd

def AtBlockStart (isBlockStart : V → Bool) (table : MultiMap Nat V) (addr : Nat) : Prop :=
  ∃ e, (table.from_ addr).head? = some e ∧ isBlockStart e.2 = true

/-- No entry past the end is read. Away from the start of a block or function, the lines told are
those of an address that is nearest to the query and not further away than the best so far, which it
replaces. -/
structure Right (atBlockStart : Prop) (table : MultiMap Nat V) (addr nearest : Nat)
    (r : LineLookup V) : Prop where
  within : r.pastEnd = false
  lines : ¬atBlockStart → r.told ≠ [] → ∃ k, table.HasKey k ∧
    (∀ k', table.HasKey k' → distance addr k ≤ distance addr k') ∧
    distance addr k ≤ distance addr nearest ∧ r.told = table.group k ∧ r.nearest = some k

/-- The address whose lines a query is for: the query itself or, at the start of a block, the first
address above it; otherwise the nearest one, if the query is between two addresses and the best so
far is not closer. -/
def Reported (isBlockStart : V → Bool) (table : MultiMap Nat V) (addr nearest k : Nat) : Prop :=
  (table.Ceil addr k ∧ (k = addr ∨ AtBlockStart isBlockStart table addr)) ∨
    (¬table.HasKey addr ∧ ¬AtBlockStart isBlockStart table addr ∧
      (∃ k', table.HasKey k' ∧ k' < addr) ∧ (∃ k', table.HasKey k' ∧ addr ≤ k') ∧
      table.Nearest addr k ∧ distance addr k ≤ distance addr nearest)

structure LookupOk (atBlockStart : Prop) (below : Nat → Prop) (isBlockStart : V → Bool)
    (table : MultiMap Nat V) (events : Option (List V → Bool)) (addr nearest : Nat) : Prop where
  within : table.entries = [] ∨ ∃ k, table.HasKey k ∧ addr ≤ k
  /-- The last address is only reported to an observer that stops the loop. -/
  ends : ∀ k, Reported isBlockStart table addr nearest k →
    (∃ k', table.HasKey k' ∧ k < k') ∨ StopsWithin events (table.group k)
  /-- The observer does not stop before the last line of the address. -/
  hears : ¬atBlockStart → ∀ k, Reported isBlockStart table addr nearest k → addr ≤ k →
    HearsAll events (table.group k)
  below : ¬atBlockStart → ∀ k, Reported isBlockStart table addr nearest k → k < addr → below k

section Seek

variable {isBlockStart : V → Bool} {table : MultiMap Nat V} {addr nearest junk : Nat}
  {e j : Nat × V} {es : List (Nat × V)}

section

variable (h : table.from_ addr = e :: es)
include h

theorem atBlockStart_cons :
    AtBlockStart isBlockStart table addr ↔ isBlockStart e.2 = true := by
  simp [AtBlockStart, h]

theorem hasKey_cons : table.HasKey addr ↔ e.1 = addr := by
  rw [hasKey_iff_head, h]
  simp

theorem reported_bound
    (hstop : e.1 = addr ∨ isBlockStart e.2 = true) (k : Nat) :
    Reported isBlockStart table addr nearest k ↔ k = e.1 := by
  have hceil := ceil_head h
  constructor
  · intro hrep
    rcases hrep with ⟨hk, -⟩ | ⟨hkey, hblock, -⟩
    · exact hk.unique hceil
    · rw [hasKey_cons h] at hkey
      rw [atBlockStart_cons h] at hblock
      exact absurd hstop (by tauto)
  · rintro rfl
    exact Or.inl ⟨hceil, by rwa [atBlockStart_cons h]⟩

theorem reported_between (hne : e.1 ≠ addr)
    (hblock : ¬isBlockStart e.2 = true) (k : Nat) :
    Reported isBlockStart table addr nearest k ↔
      (∃ k', table.HasKey k' ∧ k' < addr) ∧ table.Nearest addr k ∧
        distance addr k ≤ distance addr nearest := by
  have hceil := ceil_head h
  rw [← atBlockStart_cons h] at hblock
  have hkey : ¬table.HasKey addr := by rwa [hasKey_cons h]
  constructor
  · intro hrep
    rcases hrep with ⟨hk, hstop⟩ | ⟨-, -, hlow, -, hnear⟩
    · rcases hstop with rfl | hstop
      · exact absurd hk.key hkey
      · exact absurd hstop hblock
    · exact ⟨hlow, hnear⟩
  · intro hrep
    exact Or.inr ⟨hkey, hblock, hrep.1, ⟨e.1, hceil.key, hceil.le⟩, hrep.2⟩

end

theorem below_nil_iff : (table.below addr).getLast? = none ↔
    ¬∃ k', table.HasKey k' ∧ k' < addr := by
  rw [getLast?_eq_none_iff]
  constructor
  · intro hnil h
    obtain ⟨k', ⟨x, hx, rfl⟩, hlt⟩ := h
    rcases (mem_entries_iff addr).mp hx with hx | hx
    · rw [hnil] at hx
      exact absurd hx not_mem_nil
    · exact absurd hlt (Nat.not_lt.mpr (le_of_mem_from hx))
  · intro hnone
    rw [eq_nil_iff_forall_not_mem]
    intro x hx
    exact hnone ⟨x.1, ⟨x, (mem_entries_iff addr).mpr (Or.inl hx), rfl⟩, lt_of_mem_below hx⟩

/-- What the start of a lookup comes to, and which address is to be reported. -/
inductive SeekCase (isBlockStart : V → Bool) (table : MultiMap Nat V) (addr nearest : Nat) :
    Seek V → Prop where
  | empty : table.entries = [] → SeekCase isBlockStart table addr nearest (.nothing false)
  /-- All addresses are below the query: `end()->first` is compared. -/
  | beyond_nothing : table.entries ≠ [] → (∀ k, table.HasKey k → k < addr) →
      SeekCase isBlockStart table addr nearest (.nothing true)
  | beyond_nearest (before i : List (Nat × V)) : table.entries ≠ [] →
      (∀ k, table.HasKey k → k < addr) →
      SeekCase isBlockStart table addr nearest (.nearest before i true)
  | bound (e : Nat × V) : addr ≤ e.1 →
      (∀ k, Reported isBlockStart table addr nearest k ↔ k = e.1) → table.HasKey e.1 →
      (¬AtBlockStart isBlockStart table addr → e.1 = addr) →
      SeekCase isBlockStart table addr nearest (.bound (table.from_ e.1))
  /-- There is a row above, but none that is to be reported. -/
  | nothing (k' : Nat) : table.HasKey k' → addr ≤ k' →
      (∀ k, ¬Reported isBlockStart table addr nearest k) →
      SeekCase isBlockStart table addr nearest (.nothing false)
  | before (j : Nat × V) (k' : Nat) : table.HasKey k' → addr ≤ k' → j.1 < addr →
      (∀ k, Reported isBlockStart table addr nearest k ↔ k = j.1) → table.Nearest addr j.1 →
      distance addr j.1 ≤ distance addr nearest → (table.below addr).getLast? = some j →
      SeekCase isBlockStart table addr nearest
        (.nearest (table.below addr).dropLast (j :: table.from_ addr) false)
  | above (e : Nat × V) : addr ≤ e.1 → table.from_ addr = table.from_ e.1 →
      (∀ k, Reported isBlockStart table addr nearest k ↔ k = e.1) → table.Nearest addr e.1 →
      distance addr e.1 ≤ distance addr nearest →
      SeekCase isBlockStart table addr nearest
        (.nearest (table.below addr) (table.from_ e.1) false)

/-! The branches of `seek`. -/

variable (isBlockStart nearest junk) in
theorem seek_beyond (hfrom : table.from_ addr = []) (hlast : table.entries.getLast? = some j) :
    seek true junk isBlockStart table addr nearest = .nothing true ∨
      ∃ before i, seek true junk isBlockStart table addr nearest = .nearest before i true := by
  have hbelow : table.below addr = table.entries := by
    rw [← below_append_from table addr, hfrom, append_nil]
  simp only [seek, hfrom, hbelow, hlast, if_true, isEmpty_nil, Bool.and_true, Bool.true_or]
  generalize (if (!true || compareNearest addr j.1 (keyAt junk [])) = true then [j] else []) = i
  split
  · exact Or.inl rfl
  · exact Or.inr ⟨_, _, rfl⟩

theorem seek_bound (hfrom : table.from_ addr = e :: es)
    (hstop : e.1 = addr ∨ isBlockStart e.2 = true) :
    seek true junk isBlockStart table addr nearest = .bound (table.from_ e.1) := by
  rw [from_head hfrom]
  rcases hstop with hstop | hstop <;> simp [seek, hfrom, hstop]

section Between

variable (hfrom : table.from_ addr = e :: es) (hne : e.1 ≠ addr) (hblock : isBlockStart e.2 = false)
include hfrom hne hblock

theorem seek_below_all (hlast : (table.below addr).getLast? = none) :
    seek true junk isBlockStart table addr nearest = .nothing false := by
  simp [seek, hfrom, hne, hblock, hlast]

theorem seek_last (hlast : (table.below addr).getLast? = some j) :
    seek true junk isBlockStart table addr nearest =
      if distance addr j.1 < distance addr e.1 then
        if distance addr nearest < distance addr j.1 then .nothing false
        else .nearest (table.below addr).dropLast (j :: table.from_ addr) false
      else if distance addr nearest < distance addr e.1 then .nothing false
      else .nearest (table.below addr) (table.from_ e.1) false := by
  rw [from_head hfrom]
  by_cases hback : distance addr j.1 < distance addr e.1 <;>
    simp [seek, hfrom, hne, hblock, hlast, compareNearest, keyAt, hback]

theorem reported_nearest (nearest : Nat) {x : Nat} (hlow : ∃ k', table.HasKey k' ∧ k' < addr)
    (hnear : table.Nearest addr x) (k : Nat) :
    Reported isBlockStart table addr nearest k ↔
      k = x ∧ distance addr x ≤ distance addr nearest := by
  rw [reported_between hfrom hne (by simp [hblock])]
  constructor
  · intro h
    obtain rfl := h.2.1.unique hnear
    exact ⟨rfl, h.2.2⟩
  · rintro ⟨rfl, hle⟩
    exact ⟨hlow, hnear, hle⟩

theorem seek_between_cases :
    SeekCase isBlockStart table addr nearest
      (seek true junk isBlockStart table addr nearest) := by
  have hceil := ceil_head hfrom
  cases hlast : (table.below addr).getLast? with
  | none =>
    rw [seek_below_all hfrom hne hblock hlast]
    refine .nothing e.1 hceil.key hceil.le fun k hk => ?_
    rw [reported_between hfrom hne (by simp [hblock])] at hk
    exact below_nil_iff.mp hlast hk.1
  | some j =>
    obtain ⟨hjkey, hjlt⟩ := hasKey_last hlast
    have hlow : ∃ k', table.HasKey k' ∧ k' < addr := ⟨j.1, hjkey, hjlt⟩
    have hnear := nearest_neighbour hlast hfrom
    have hiff := reported_nearest hfrom hne hblock nearest hlow hnear
    have hnone : (∀ k, ¬Reported isBlockStart table addr nearest k) →
        SeekCase isBlockStart table addr nearest (.nothing false) :=
      .nothing e.1 hceil.key hceil.le
    rw [seek_last hfrom hne hblock hlast]
    split
    · next hback =>
      rw [if_pos hback] at hnear hiff
      split
      · next hbest => exact hnone fun k hk => absurd hbest (Nat.not_lt.mpr ((hiff k).mp hk).2)
      · next hbest =>
        have hle := Nat.not_lt.mp hbest
        exact .before j e.1 hceil.key hceil.le hjlt (fun k => by simp [hiff k, hle]) hnear hle
          hlast
    · next hback =>
      rw [if_neg hback] at hnear hiff
      split
      · next hbest => exact hnone fun k hk => absurd hbest (Nat.not_lt.mpr ((hiff k).mp hk).2)
      · next hbest =>
        have hle := Nat.not_lt.mp hbest
        exact .above e hceil.le (from_head hfrom).symm (fun k => by simp [hiff k, hle]) hnear hle

end Between

theorem seek_cases (isBlockStart : V → Bool) (table : MultiMap Nat V) (addr nearest junk : Nat) :
    SeekCase isBlockStart table addr nearest
      (seek true junk isBlockStart table addr nearest) := by
  cases hfrom : table.from_ addr with
  | nil =>
    have hbelow : table.below addr = table.entries := by
      rw [← below_append_from table addr, hfrom, append_nil]
    cases hlast : table.entries.getLast? with
    | none =>
      have hseek : seek true junk isBlockStart table addr nearest = .nothing false := by
        simp [seek, hfrom, hbelow, hlast]
      rw [hseek]
      exact .empty (getLast?_eq_none_iff.mp hlast)
    | some j =>
      have hne : table.entries ≠ [] := ne_nil_of_mem (mem_of_getLast? hlast)
      have hlt : ∀ k, table.HasKey k → k < addr := by
        intro k hk
        obtain ⟨x, hx, rfl⟩ := hk
        exact lt_of_mem_below (hbelow ▸ hx)
      rcases seek_beyond isBlockStart nearest junk hfrom hlast with h | ⟨before, i, h⟩
      · rw [h]
        exact .beyond_nothing hne hlt
      · rw [h]
        exact .beyond_nearest before i hne hlt
  | cons e es =>
    by_cases hstop : e.1 = addr ∨ isBlockStart e.2 = true
    · have hceil := ceil_head hfrom
      rw [seek_bound hfrom hstop]
      refine .bound e hceil.le (reported_bound hfrom hstop) hceil.key fun hblock => ?_
      rw [atBlockStart_cons hfrom] at hblock
      exact hstop.resolve_right hblock
    · obtain ⟨hne, hblock⟩ := not_or.mp hstop
      exact seek_between_cases hfrom hne (by simpa using hblock)

end Seek

theorem keyAt_from (junk : Nat) {k : Nat} {table : MultiMap Nat V} (hk : table.HasKey k) :
    keyAt junk (table.from_ k) = k := by
  obtain ⟨e, es, hfrom, hek⟩ := from_cons_of_hasKey hk
  rw [hfrom]
  exact hek

theorem right_report_iff {atBlockStart : Prop} {table : MultiMap Nat V}
    {addr nearest junk k : Nat} {events : Option (List V → Bool)} (hk : table.HasKey k)
    (hmin : ¬atBlockStart → (∀ k', table.HasKey k' → distance addr k ≤ distance addr k') ∧
      distance addr k ≤ distance addr nearest) :
    Right atBlockStart table addr nearest (report junk events k (table.from_ k) false) ↔
      ((∃ k', table.HasKey k' ∧ k < k') ∨ StopsWithin events (table.group k)) ∧
        (¬atBlockStart → HearsAll events (table.group k)) := by
  have htold := tellGroup_from_told table events hk
  rw [report, keyAt_from junk hk, ← tellGroup_from_pastEnd, ← htold, Bool.false_or]
  constructor
  · intro h
    refine ⟨h.within, fun hblock hne => ?_⟩
    obtain ⟨k', -, -, -, hgroup, hnearest⟩ := h.lines hblock hne
    obtain rfl : k = k' := Option.some.inj hnearest
    exact hgroup
  · intro h
    refine ⟨h.1, fun hblock hne => ?_⟩
    exact ⟨k, hk, (hmin hblock).1, (hmin hblock).2, h.2 hblock hne, rfl⟩

/-- The report starts at the first entry from the query on, and for an address below the query it is
right exactly under the condition `below`. -/
structure StartSpec (start : List (Nat × V) → List (Nat × V) → List (Nat × V))
    (below : Nat → Prop) (table : MultiMap Nat V) (events : Option (List V → Bool))
    (addr nearest junk : Nat) : Prop where
  above : ∀ k, table.HasKey k → table.from_ addr = table.from_ k →
    start (table.below addr) (table.from_ k) = table.from_ k
  before : ∀ j k', (table.below addr).getLast? = some j → table.HasKey k' → addr ≤ k' →
    table.Nearest addr j.1 → distance addr j.1 ≤ distance addr nearest →
    ∀ atBlockStart : Prop, Right atBlockStart table addr nearest
      (report junk events j.1 (start (table.below addr).dropLast (j :: table.from_ addr)) false) ↔
        (¬atBlockStart → below j.1)

theorem right_nothing {atBlockStart : Prop} {table : MultiMap Nat V} {addr nearest : Nat} :
    Right atBlockStart table addr nearest ⟨[], 0, some nearest, false⟩ :=
  ⟨rfl, fun _ hne => absurd rfl hne⟩

section Lookup

variable {start : List (Nat × V) → List (Nat × V) → List (Nat × V)} {atBlockStart : Prop}
  {below : Nat → Prop} {isBlockStart : V → Bool} {table : MultiMap Nat V}
  {events : Option (List V → Bool)} {addr nearest : Nat}

theorem not_lookupOk_beyond (hne : table.entries ≠ [])
    (hlt : ∀ k, table.HasKey k → k < addr) :
    ¬LookupOk atBlockStart below isBlockStart table events addr nearest := by
  intro h
  obtain ⟨k, hk, hle⟩ := h.within.resolve_left hne
  exact absurd (hlt k hk) (Nat.not_lt.mpr hle)

theorem lookupOk_of_none (hwithin : table.entries = [] ∨ ∃ k, table.HasKey k ∧ addr ≤ k)
    (hrep : ∀ k, ¬Reported isBlockStart table addr nearest k) :
    LookupOk atBlockStart below isBlockStart table events addr nearest :=
  ⟨hwithin, fun k hk => absurd hk (hrep k), fun _ k hk => absurd hk (hrep k),
    fun _ k hk => absurd hk (hrep k)⟩

theorem lookupOk_iff {x : Nat} (hwithin : ∃ k, table.HasKey k ∧ addr ≤ k)
    (hrep : ∀ k, Reported isBlockStart table addr nearest k ↔ k = x) :
    LookupOk atBlockStart below isBlockStart table events addr nearest ↔
      ((∃ k', table.HasKey k' ∧ x < k') ∨ StopsWithin events (table.group x)) ∧
        (¬atBlockStart → (addr ≤ x → HearsAll events (table.group x)) ∧ (x < addr → below x)) := by
  constructor
  · intro h
    have hx := (hrep x).mpr rfl
    exact ⟨h.ends x hx, fun hblock => ⟨h.hears hblock x hx, h.below hblock x hx⟩⟩
  · intro h
    refine ⟨Or.inr hwithin, fun k hk => ?_, fun hblock k hk => ?_, fun hblock k hk => ?_⟩
    · obtain rfl := (hrep k).mp hk
      exact h.1
    · obtain rfl := (hrep k).mp hk
      exact (h.2 hblock).1
    · obtain rfl := (hrep k).mp hk
      exact (h.2 hblock).2

theorem lookupOk_from_iff {x : Nat} (hkey : table.HasKey x) (hle : addr ≤ x)
    (hrep : ∀ k, Reported isBlockStart table addr nearest k ↔ k = x) :
    LookupOk atBlockStart below isBlockStart table events addr nearest ↔
      ((∃ k', table.HasKey k' ∧ x < k') ∨ StopsWithin events (table.group x)) ∧
        (¬atBlockStart → HearsAll events (table.group x)) := by
  simp [lookupOk_iff ⟨x, hkey, hle⟩ hrep, hle, Nat.not_lt.mpr hle]

theorem not_right_of_pastEnd {r : LineLookup V} (h : r.pastEnd = true) :
    ¬Right atBlockStart table addr nearest r := by
  intro hright
  exact absurd hright.within (by simp [h])

theorem nearestLines_right_iff {junk : Nat}
    (hblock : AtBlockStart isBlockStart table addr → atBlockStart)
    (hstart : StartSpec start below table events addr nearest junk) :
    Right atBlockStart table addr nearest
        (nearestLines start true junk isBlockStart table events addr nearest) ↔
      LookupOk atBlockStart below isBlockStart table events addr nearest := by
  have hcases := seek_cases isBlockStart table addr nearest junk
  unfold nearestLines
  generalize seek true junk isBlockStart table addr nearest = found at hcases ⊢
  cases hcases with
  | empty hnil =>
    have hnone : ∀ k, ¬table.HasKey k := by
      intro k hk
      obtain ⟨e, he, -⟩ := hk
      rw [hnil] at he
      exact absurd he not_mem_nil
    refine iff_of_true right_nothing (lookupOk_of_none (Or.inl hnil) fun k hk => ?_)
    rcases hk with ⟨hceil, -⟩ | ⟨-, -, -, -, hnear, -⟩
    · exact hnone k hceil.key
    · exact hnone k hnear.key
  | beyond_nothing hne hlt =>
    exact iff_of_false (not_right_of_pastEnd rfl) (not_lookupOk_beyond hne hlt)
  | beyond_nearest before i hne hlt =>
    exact iff_of_false (not_right_of_pastEnd rfl) (not_lookupOk_beyond hne hlt)
  | bound e hle hrep hkey hexact =>
    dsimp only
    rw [keyAt_from junk hkey, lookupOk_from_iff hkey hle hrep]
    refine right_report_iff hkey fun hnot => ?_
    rw [hexact fun h => hnot (hblock h)]
    simp [distance]
  | nothing k' hkey hle hrep =>
    exact iff_of_true right_nothing (lookupOk_of_none (Or.inr ⟨k', hkey, hle⟩) hrep)
  | before j k' hkey hle hlt hrep hnear hbest hlast =>
    have hends : ∃ k', table.HasKey k' ∧ j.1 < k' := ⟨k', hkey, hlt.trans_le hle⟩
    refine (hstart.before j k' hlast hkey hle hnear hbest _).trans ?_
    rw [lookupOk_iff ⟨k', hkey, hle⟩ hrep]
    simp [hends, hlt, Nat.not_le.mpr hlt]
  | above e hle hfrom hrep hnear hbest =>
    dsimp only
    rw [hstart.above e.1 hnear.key hfrom, keyAt_from junk hnear.key,
      lookupOk_from_iff hnear.key hle hrep]
    exact right_report_iff hnear.key fun _ => ⟨hnear.least, hbest⟩

end Lookup

end ZeroBugs.Zdk.NearestEntry
