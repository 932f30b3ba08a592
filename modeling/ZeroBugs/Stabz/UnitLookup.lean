import ZeroBugs.Lib.Runs
import ZeroBugs.Stabz.Descriptor

/-! # Units of source lines -/
namespace ZeroBugs.Stabz.Descriptor

open Lib Lib.Runs List

variable {U : Type*}

variable {startRange : Addr}

theorem dropWhile_eq_self {l : List (Addr × U)}
    (hl : ∀ e ∈ l, startRange ≤ e.1) : l.dropWhile (·.1 < startRange) = l := by
  cases l with
  | nil => rfl
  | cons e l => rw [dropWhile_cons_of_neg (by simpa using hl e mem_cons_self)]

theorem walkBack_eq {before after : List (Addr × U)} {cur : Addr × U}
    (hbefore : (cur :: before).Pairwise fun x y => y.1 ≤ x.1) (hcur : cur.1 ≤ startRange)
    (hafter : ∀ e ∈ after, startRange ≤ e.1) :
    walkBack startRange before cur after =
      (before.reverse ++ cur :: after).dropWhile (·.1 < startRange) := by
  induction before generalizing cur after with
  | nil =>
    by_cases heq : cur.1 = startRange
    · simp [walkBack, heq]
    · have hlt : cur.1 < startRange := lt_of_le_of_ne hcur heq
      simp [walkBack, heq, hlt, dropWhile_eq_self hafter]
  | cons e before ih =>
    obtain ⟨hle, htail⟩ := List.pairwise_cons.mp hbefore
    by_cases heq : cur.1 = startRange
    · have hmore : ∀ x ∈ cur :: after, startRange ≤ x.1 :=
        forall_mem_cons.mpr ⟨heq.ge, hafter⟩
      have hnext := ih htail ((hle e mem_cons_self).trans hcur) hmore
      rw [walkBack, if_pos heq, hnext, reverse_cons, append_assoc]
      rfl
    · -- everything up to here has a smaller key
      have hlt : cur.1 < startRange := lt_of_le_of_ne hcur heq
      have hall : ∀ x ∈ (e :: before).reverse ++ [cur], decide (x.1 < startRange) = true := by
        intro x hx
        rw [mem_append, mem_reverse, mem_singleton] at hx
        rcases hx with hx | rfl
        · exact decide_eq_true ((hle x hx).trans_lt hlt)
        · exact decide_eq_true hlt
      have hsplit : (e :: before).reverse ++ cur :: after =
          ((e :: before).reverse ++ [cur]) ++ after := by simp
      rw [walkBack, if_neg heq, hsplit, dropWhile_append_of_pos hall,
        dropWhile_eq_self hafter]

theorem scanRange_eq (p : U → Bool) {l : List (Addr × U)}
    (hl : l.Pairwise (·.1 ≤ ·.1)) (hle : ∀ e ∈ l, startRange ≤ e.1) :
    scanRange p startRange l = ((l.filter (·.1 = startRange)).map (·.2)).find? p := by
  induction l with
  | nil => rfl
  | cons e l ih =>
    obtain ⟨he, hl⟩ := List.pairwise_cons.mp hl
    have hrest := ih hl fun x hx => hle x (mem_cons_of_mem e hx)
    by_cases heq : e.1 = startRange
    · by_cases hp : p e.2 = true
      · simp [scanRange, heq, hp]
      · simp [scanRange, heq, hp, hrest]
    · have hlt : startRange < e.1 := lt_of_le_of_ne (hle e mem_cons_self) (Ne.symm heq)
      have hnone : (e :: l).filter (·.1 = startRange) = [] := by
        rw [filter_eq_nil_iff]
        intro x hx
        rcases mem_cons.mp hx with rfl | hx
        · simpa using heq
        · simpa using (hlt.trans_le (he x hx)).ne'
      rw [hnone, scanRange, if_pos heq]
      rfl

theorem scanRange_from (p : U → Bool) (unitMap : UnitMap U) (k : Addr) :
    scanRange p k (unitMap.from_ k) = (unitMap.group k).find? p := by
  rw [scanRange_eq p (MultiMap.from_sorted unitMap k) fun e he => MultiMap.le_of_mem_from he,
    MultiMap.group_eq_from]

variable (info : U → CompileUnit)

theorem previous_eq (unitMap : UnitMap U) (addr : Addr) (index : Nat) :
    getCompileUnit.previous info unitMap addr index (unitMap.from_ addr) =
      ((unitMap.below addr).getLast?.bind fun e =>
        (unitMap.group e.1).find? (wanted info index)) := by
  unfold getCompileUnit.previous
  cases hrev : (unitMap.below addr).reverse with
  | nil =>
    rw [reverse_eq_nil_iff.mp hrev]
    rfl
  | cons e before =>
    have hbelow : unitMap.below addr = before.reverse ++ [e] := by
      rw [← reverse_reverse (unitMap.below addr), hrev, reverse_cons]
    have hentries : before.reverse ++ e :: unitMap.from_ addr = unitMap.entries := by
      rw [← MultiMap.below_append_from unitMap addr, hbelow, append_assoc]
      rfl
    have hdown : (e :: before).Pairwise fun x y => y.1 ≤ x.1 := by
      rw [← hrev, pairwise_reverse]
      exact MultiMap.below_sorted unitMap addr
    have hlt : e.1 < addr := MultiMap.lt_of_mem_below (by rw [hbelow]; simp)
    have hwalk := walkBack_eq hdown le_rfl fun x hx =>
      hlt.le.trans (MultiMap.le_of_mem_from (m := unitMap) hx)
    rw [hentries] at hwalk
    rw [hbelow, getLast?_concat]
    show scanRange _ e.1 (walkBack e.1 before e (unitMap.from_ addr)) = _
    rw [hwalk]
    exact scanRange_from _ unitMap e.1

variable {unitMap : UnitMap U} {unit : U}

theorem getCompileUnit_eq_some_iff {addr : Addr} {index : Nat} :
    getCompileUnit info unitMap addr index = some unit ↔
      ∃ k, unitMap.Floor addr k ∧ (unitMap.group k).find? (wanted info index) = some unit := by
  by_cases hkey : unitMap.HasKey addr
  · obtain ⟨e, hhead, he⟩ := MultiMap.hasKey_iff_head.mp hkey
    have hget : getCompileUnit info unitMap addr index =
        (unitMap.group addr).find? (wanted info index) := by
      simp only [getCompileUnit, hhead, he, ne_eq, not_true_eq_false, if_false]
      exact scanRange_from _ unitMap addr
    rw [hget]
    constructor
    · intro h
      exact ⟨addr, MultiMap.floor_self hkey, h⟩
    · intro h
      obtain ⟨k, hfloor, h⟩ := h
      rwa [hfloor.unique (MultiMap.floor_self hkey)] at h
  · have hget : getCompileUnit info unitMap addr index =
        getCompileUnit.previous info unitMap addr index (unitMap.from_ addr) := by
      unfold getCompileUnit
      cases hhead : (unitMap.from_ addr).head? with
      | none => simp [hhead]
      | some e =>
        have hne : e.1 ≠ addr := fun heq => hkey (MultiMap.hasKey_iff_head.mpr ⟨e, hhead, heq⟩)
        simp [hhead, hne]
    rw [hget, previous_eq, Option.bind_eq_some_iff]
    constructor
    · intro h
      obtain ⟨e, hlast, h⟩ := h
      exact ⟨e.1, (MultiMap.floor_iff_getLast hkey).mpr ⟨e, hlast, rfl⟩, h⟩
    · intro h
      obtain ⟨k, hfloor, h⟩ := h
      obtain ⟨e, hlast, rfl⟩ := (MultiMap.floor_iff_getLast hkey).mp hfloor
      exact ⟨e, hlast, h⟩

/-- `unit` is the first that is not empty among the units entered at a key. -/
def FirstAt (unitMap : UnitMap U) (k : Addr) (unit : U) : Prop :=
  (unitMap.group k).find? (wanted info 0) = some unit

/-- There is an entry from `b` up to `a`: one more at `b` is not seen from `a`. -/
def Shielded (unitMap : UnitMap U) (b a : Addr) : Prop :=
  ∃ k, unitMap.HasKey k ∧ b ≤ k ∧ k ≤ a

variable {a b : Addr} {other : U}

theorem lookup_insert_of_shielded
    (hfound : getCompileUnit info unitMap a 0 = some unit)
    (hb : b ≤ a → Shielded unitMap b a) :
    getCompileUnit info (unitMap.insert b other) a 0 = some unit := by
  obtain ⟨k, hfloor, hfirst⟩ := (getCompileUnit_eq_some_iff info).mp hfound
  have hbk : b ≤ a → b ≤ k := by
    intro hle
    obtain ⟨k', hkey, hbk', hk'a⟩ := hb hle
    exact hbk'.trans (hfloor.2.2 k' hkey hk'a)
  refine (getCompileUnit_eq_some_iff info).mpr ⟨k, MultiMap.floor_insert hfloor hbk, ?_⟩
  by_cases heq : k = b
  · -- the new entry is the last one of the key
    subst heq
    rw [MultiMap.group_insert_self, find?_append, hfirst]
    rfl
  · rw [MultiMap.group_insert_of_ne unitMap heq, hfirst]

theorem lookup_insert_of_not_shielded
    (hle : b ≤ a) (hopen : ¬Shielded unitMap b a) :
    getCompileUnit info (unitMap.insert b other) a 0 =
      if wanted info 0 other then some other else none := by
  have hbelow : ∀ k, unitMap.HasKey k → k ≤ a → k < b := by
    intro k hkey hka
    exact lt_of_not_ge fun hbk => hopen ⟨k, hkey, hbk, hka⟩
  have hempty : unitMap.group b = [] := by
    rw [eq_nil_iff_forall_not_mem]
    intro u hu
    exact hopen ⟨b, ⟨(b, u), MultiMap.mem_group.mp hu, rfl⟩, le_rfl, hle⟩
  have hfloor : (unitMap.insert b other).Floor a b := MultiMap.floor_insert_new hle hbelow
  have hgroup : (unitMap.insert b other).group b = [other] := by
    rw [MultiMap.group_insert_self, hempty]
    rfl
  refine Option.ext fun u => ?_
  rw [getCompileUnit_eq_some_iff]
  constructor
  · intro h
    obtain ⟨k, hk, hfind⟩ := h
    rw [hk.unique hfloor, hgroup] at hfind
    simpa [find?_singleton] using hfind
  · intro h
    refine ⟨b, hfloor, ?_⟩
    rw [hgroup]
    simpa [find?_singleton] using h

theorem lookup_insert_iff
    (hfound : getCompileUnit info unitMap a 0 = some unit) :
    getCompileUnit info (unitMap.insert b other) a 0 = some unit ↔
      (b ≤ a → other = unit ∨ Shielded unitMap b a) := by
  by_cases hseen : b ≤ a ∧ ¬Shielded unitMap b a
  · obtain ⟨hle, hopen⟩ := hseen
    obtain ⟨k, -, hfirst⟩ := (getCompileUnit_eq_some_iff info).mp hfound
    have hwanted : wanted info 0 unit = true := find?_some hfirst
    rw [lookup_insert_of_not_shielded info hle hopen]
    constructor
    · intro h _
      by_cases hw : wanted info 0 other = true
      · rw [if_pos hw] at h
        exact Or.inl (Option.some.inj h)
      · rw [if_neg hw] at h
        exact absurd h (by simp)
    · intro h
      rcases h hle with rfl | hsh
      · rw [if_pos hwanted]
      · exact absurd hsh hopen
  · have hsh : b ≤ a → Shielded unitMap b a := by
      intro hle
      by_contra hopen
      exact hseen ⟨hle, hopen⟩
    exact ⟨fun _ hle => Or.inr (hsh hle), fun _ => lookup_insert_of_shielded info hfound hsh⟩

theorem lookup_insert_self_iff :
    getCompileUnit info (unitMap.insert a unit) a 0 = some unit ↔
      (info unit).size ≠ 0 ∧ ∀ other, FirstAt info unitMap a other → other = unit := by
  have hfloor : (unitMap.insert a unit).Floor a a :=
    MultiMap.floor_self (MultiMap.hasKey_insert.mpr (Or.inl rfl))
  have hget : getCompileUnit info (unitMap.insert a unit) a 0 = some unit ↔
      (unitMap.group a ++ [unit]).find? (wanted info 0) = some unit := by
    rw [getCompileUnit_eq_some_iff, ← MultiMap.group_insert_self]
    constructor
    · intro h
      obtain ⟨k, hk, hfind⟩ := h
      rwa [hk.unique hfloor] at hfind
    · intro h
      exact ⟨a, hfloor, h⟩
  have hwanted : wanted info 0 unit = true ↔ (info unit).size ≠ 0 := by simp [wanted]
  rw [hget, ← hwanted, find?_append, find?_singleton]
  unfold FirstAt
  cases hfind : (unitMap.group a).find? (wanted info 0) with
  | none => simp
  | some first =>
    have hfirst : wanted info 0 first = true := find?_some hfind
    constructor
    · intro h
      obtain rfl : first = unit := by simpa using h
      exact ⟨hfirst, fun other hother => (Option.some.inj hother).symm⟩
    · intro h
      rw [h.2 first rfl]
      rfl

inductive Call (U : Type*) where
  | newUnit (unit : U)
  | addLine (unit : U) (line : Nat) (addr : Addr)

/-- The unit map, and the line addresses registered so far with their units. -/
structure Lines (U : Type*) where
  unitMap : UnitMap U
  lines : List (Addr × U)

def Lines.start : Lines U := ⟨MultiMap.empty, []⟩

def Found (s : Lines U) : Prop :=
  ∀ l ∈ s.lines, getCompileUnit info s.unitMap l.1 0 = some l.2

def TakesNone (s : Lines U) (b : Addr) (unit : U) : Prop :=
  ∀ l ∈ s.lines, b ≤ l.1 → unit = l.2 ∨ Shielded s.unitMap b l.1

theorem found_insert_iff {s : Lines U} (hs : Found info s) (b : Addr) (unit : U) :
    (∀ l ∈ s.lines, getCompileUnit info (s.unitMap.insert b unit) l.1 0 = some l.2) ↔
      TakesNone s b unit :=
  forall₂_congr fun l hl => lookup_insert_iff info (hs l hl)

variable [DecidableEq U]

def makesEntry (unitMap : UnitMap U) (unit : U) (addr : Addr) : Bool :=
  match unitMap.from_ addr with
  | [] => true
  | next :: _ => ((unitMap.below addr).getLast?.getD next).2 ≠ unit

theorem addSourceLine_eq (unitMap : UnitMap U) (unit : U) {line : Nat} {addr : Addr}
    (hset : addr ≠ 0 ∧ line ≠ 0) :
    addSourceLine unitMap unit line addr =
      if makesEntry unitMap unit addr then unitMap.insert addr unit else unitMap := by
  rw [addSourceLine, if_pos hset, makesEntry]
  cases unitMap.from_ addr with
  | nil => rfl
  | cons next rest => simp only [decide_eq_true_eq]

/-- One call. Lines without a number or an address are not registered. -/
def step (s : Lines U) : Call U → Lines U
  | .newUnit unit => { s with unitMap := newCompileUnit info s.unitMap unit }
  | .addLine unit line addr =>
    let unitMap := addSourceLine s.unitMap unit line addr
    ⟨unitMap, if addr ≠ 0 ∧ line ≠ 0 then (addr, unit) :: s.lines else s.lines⟩

/-- A new entry takes no line from another unit, and a line's unit is the first one that is not
empty where the line will be looked up. -/
def CallOk (s : Lines U) : Call U → Prop
  | .newUnit unit => TakesNone s (info unit).beginAddr unit
  | .addLine unit line addr => addr ≠ 0 ∧ line ≠ 0 →
    if makesEntry s.unitMap unit addr then
      TakesNone s addr unit ∧ (info unit).size ≠ 0 ∧
        ∀ other, FirstAt info s.unitMap addr other → other = unit
    else ∃ k, s.unitMap.Floor addr k ∧ FirstAt info s.unitMap k unit

theorem found_step_iff {s : Lines U} (hs : Found info s) (c : Call U) :
    Found info (step info s c) ↔ CallOk info s c := by
  cases c with
  | newUnit unit => exact found_insert_iff info hs _ unit
  | addLine unit line addr =>
    by_cases hset : addr ≠ 0 ∧ line ≠ 0
    · have hlines : (step info s (.addLine unit line addr)).lines = (addr, unit) :: s.lines :=
        if_pos hset
      have hmap : (step info s (.addLine unit line addr)).unitMap = _ :=
        addSourceLine_eq s.unitMap unit hset
      simp only [CallOk, forall_prop_of_true hset]
      rw [Found, hlines, hmap, forall_mem_cons]
      by_cases hnew : makesEntry s.unitMap unit addr = true
      · rw [if_pos hnew, if_pos hnew, found_insert_iff info hs, lookup_insert_self_iff]
        exact and_comm
      · rw [if_neg hnew, if_neg hnew, getCompileUnit_eq_some_iff]
        exact and_iff_left hs
    · have hstay : step info s (.addLine unit line addr) = s := by
        simp only [step, addSourceLine, if_neg hset]
      rw [hstay]
      exact ⟨fun _ h => absurd h hset, fun _ => hs⟩

theorem lines_found_iff (cs : List (Call U)) :
    After (step info) (Found info) Lines.start cs ↔
      Along (step info) (CallOk info) Lines.start cs := by
  refine along_iff_of_invariant (Found info) (fun s c hs => found_step_iff info hs c)
    (fun s c hs hok => (found_step_iff info hs c).mpr hok) ?_ cs
  intro l hl
  exact absurd hl not_mem_nil

def twoUnits : Bool → CompileUnit
  | false => ⟨10, 40, 1⟩
  | true => ⟨100, 120, 2⟩

theorem later_entry_takes_line :
    let s := run (step twoUnits) Lines.start
      [.newUnit false, .newUnit true, .addLine false 1 30, .addLine true 1 15]
    (∀ u, (twoUnits u).size ≠ 0) ∧ s.lines = [(15, true), (30, false)] ∧
      getCompileUnit twoUnits s.unitMap 30 0 = some true := by
  decide

end ZeroBugs.Stabz.Descriptor
