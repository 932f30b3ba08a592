import ZeroBugs.Dwarfz.NextLine
import ZeroBugs.Zdk.NearestEntry

/-! # The lines of an address in a DWARF unit -/
namespace ZeroBugs.Dwarfz
open Lib Lib.MultiMap Zdk.NearestEntry

/-- `addr_to_line`. `events` is the observer, by whether it goes on after the rows it was told of;
`nearest` is `none` for a null pointer, which asks for an exact match. -/
def addrToLine (useNearestMatch : Bool) (junk : Nat) (isBlockStart : LineRow → Bool)
    (map : MultiMap Nat LineRow) (events : Option (List LineRow → Bool)) (addr : Nat) :
    Option Nat → LineLookup LineRow
  | none =>
    -- the loop of this branch tests for the end first
    let r := tellGroup events addr (map.from_ addr) [] 0
    ⟨r.told, r.count, none, false⟩
  | some nearest =>
    nearestLines (fun _ i => i) useNearestMatch junk isBlockStart map events addr nearest

def SingleLine (map : MultiMap Nat LineRow) (events : Option (List LineRow → Bool)) (k : Nat) :
    Prop :=
  events = none ∨ (map.group k).length = 1

section AddrToLine

variable {map : MultiMap Nat LineRow} {addr nearest : Nat} {j e : Nat × LineRow}
  (events : Option (List LineRow → Bool)) (junk : Nat) (es : List (Nat × LineRow))

theorem report_last (hne : e.1 ≠ j.1) :
    (report junk events j.1 (j :: e :: es) false).pastEnd = false ∧
      (report junk events j.1 (j :: e :: es) false).told =
        if events.isSome then [j.2] else [] := by
  cases events with
  | none => simp [report, keyAt, tellGroup, hne]
  | some f => by_cases hf : f [j.2] = true <;> simp [report, keyAt, tellGroup, hne, hf]

theorem right_report_last_iff {atBlockStart : Prop} (hne : e.1 ≠ j.1) (hj : j ∈ map.entries)
    (hmin : ∀ k', map.HasKey k' → distance addr j.1 ≤ distance addr k')
    (hbest : distance addr j.1 ≤ distance addr nearest) :
    Right atBlockStart map addr nearest (report junk events j.1 (j :: e :: es) false) ↔
      (¬atBlockStart → SingleLine map events j.1) := by
  obtain ⟨hend, htold⟩ := report_last events junk es hne
  have hgroup : j.2 ∈ map.group j.1 := mem_group.mpr hj
  cases events with
  | none =>
    refine iff_of_true ⟨hend, fun _ hlines => ?_⟩ fun _ => Or.inl rfl
    exact absurd htold hlines
  | some f =>
    change _ = [j.2] at htold
    constructor
    · intro h hblock
      obtain ⟨k, -, -, -, hk, hnearest⟩ := h.lines hblock (by simp [htold])
      obtain rfl : j.1 = k := Option.some.inj hnearest
      rw [htold] at hk
      exact Or.inr (by rw [← hk]; rfl)
    · intro h
      refine ⟨hend, fun hblock _ => ⟨j.1, ⟨j, hj, rfl⟩, hmin, hbest, ?_, rfl⟩⟩
      have hone := (h hblock).resolve_left (by simp)
      obtain ⟨v, hv⟩ := List.length_eq_one_iff.mp hone
      rw [hv, List.mem_singleton] at hgroup
      rw [htold, hv, hgroup]

theorem startSpec_dwarf (map : MultiMap Nat LineRow) (events : Option (List LineRow → Bool))
    (addr nearest junk : Nat) :
    StartSpec (fun _ i => i) (SingleLine map events) map events addr nearest junk where
  above := fun _ _ _ => rfl
  before := by
    intro j k' hlast hkey hle hnear hbest atBlockStart
    obtain ⟨-, hlt⟩ := hasKey_last hlast
    have hj : j ∈ map.entries := (mem_entries_iff addr).mpr (Or.inl (List.mem_of_getLast? hlast))
    cases hfrom : map.from_ addr with
    | nil =>
      obtain ⟨x, hx, rfl⟩ := hkey
      rcases (mem_entries_iff addr).mp hx with hx | hx
      · exact absurd (lt_of_mem_below hx) (Nat.not_lt.mpr hle)
      · rw [hfrom] at hx
        exact absurd hx List.not_mem_nil
    | cons e es =>
      have hne : e.1 ≠ j.1 := Nat.ne_of_gt (hlt.trans_le (ceil_head hfrom).le)
      exact right_report_last_iff events junk es hne hj hnear.least hbest

end AddrToLine

def oneRowUnit : CompileUnit := ⟨"/a.c", 0, 0, [⟨some "/a.c", 7, 0x10, false⟩]⟩

end ZeroBugs.Dwarfz
