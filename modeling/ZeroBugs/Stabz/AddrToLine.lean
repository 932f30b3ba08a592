import ZeroBugs.Dwarfz.AddrToLine

/-! # The lines of an address in a STABS unit -/
namespace ZeroBugs.Stabz
open Lib Lib.MultiMap Zdk.NearestEntry List

structure SourceLine where
  file : String
  line : Nat
  deriving DecidableEq

/-- `while (i->first == nearestAddr && i != begin) --i`, from the entries before `i`,
last one first, and those from `i` on. -/
def stepBack (junk nearestAddr : Nat) :
    List (Nat × SourceLine) → List (Nat × SourceLine) → List (Nat × SourceLine)
  | [], i => i
  | b :: bs, i => if keyAt junk i = nearestAddr then stepBack junk nearestAddr bs (b :: i) else i

/-- The first entry of the nearest address: the loop may have gone one too far. -/
def groupStart (junk : Nat) (before i : List (Nat × SourceLine)) : List (Nat × SourceLine) :=
  let nearestAddr := keyAt junk i
  let i := stepBack junk nearestAddr before.reverse i
  if keyAt junk i ≠ nearestAddr then i.tail else i

/-- The observer of the last loop, if there is one: it stops at a line of the unit. -/
def untilOwnFile (name : String) (events : Bool) : Option (List SourceLine → Bool) :=
  if events then some fun told => told.getLast?.all (·.file ≠ name) else none

/-- `addr_to_line`; `events` is whether there is an observer, and `nearest` is `none`
for a null pointer, which asks for an exact match. -/
def addrToLine (useNearestMatch : Bool) (junk : Nat) (name : String)
    (lineByAddr : MultiMap Nat SourceLine) (events : Bool) (addr : Nat) :
    Option Nat → LineLookup SourceLine
  | none =>
    -- every line is told, and the end is tested first
    let told := lineByAddr.group addr
    ⟨if events then told else [], told.length, none, false⟩
  | some nearest =>
    nearestLines (groupStart junk) useNearestMatch junk (fun _ => false) lineByAddr
      (untilOwnFile name events) addr nearest

theorem stepBack_eq (junk n : Nat) (bs : List (Nat × SourceLine)) (x : Nat × SourceLine)
    (xs : List (Nat × SourceLine)) (hx : x.1 = n)
    (hsorted : (bs.reverse ++ x :: xs).Pairwise (·.1 ≤ ·.1)) :
    (if keyAt junk (stepBack junk n bs (x :: xs)) ≠ n then (stepBack junk n bs (x :: xs)).tail
      else stepBack junk n bs (x :: xs)) = (bs.reverse ++ x :: xs).dropWhile (·.1 < n) := by
  induction bs generalizing x xs with
  | nil => simp [stepBack, keyAt, hx]
  | cons b bs ih =>
    rw [reverse_cons, append_assoc, singleton_append] at hsorted ⊢
    have hkey : keyAt junk (x :: xs) = n := hx
    rw [stepBack, if_pos hkey]
    obtain ⟨-, hrest, hcross⟩ := pairwise_append.mp hsorted
    have hbx : b.1 ≤ n := hx ▸ (List.pairwise_cons.mp hrest).1 x mem_cons_self
    by_cases hb : b.1 = n
    · exact ih b (x :: xs) hb hsorted
    · -- `b` is of another address: the walk stops there and goes on by one
      have hlt : b.1 < n := lt_of_le_of_ne hbx hb
      have hstop : stepBack junk n bs (b :: x :: xs) = b :: x :: xs := by
        cases bs with
        | nil => rfl
        | cons c cs => rw [stepBack, if_neg (show ¬keyAt junk (b :: x :: xs) = n from hb)]
      have hbefore : ∀ y ∈ bs.reverse, decide (y.1 < n) = true := fun y hy =>
        decide_eq_true ((hcross y hy b mem_cons_self).trans_lt hlt)
      rw [hstop, if_pos (show keyAt junk (b :: x :: xs) ≠ n from hb),
        dropWhile_append_of_pos hbefore, dropWhile_cons_of_pos (by simpa using hlt),
        dropWhile_cons_of_neg (by simp [hx])]
      rfl

theorem groupStart_eq (junk : Nat) {table : MultiMap Nat SourceLine}
    {before : List (Nat × SourceLine)} {x : Nat × SourceLine} {xs : List (Nat × SourceLine)}
    (hsplit : before ++ x :: xs = table.entries) :
    groupStart junk before (x :: xs) = table.from_ x.1 := by
  have hsorted := table.sorted
  rw [← hsplit] at hsorted
  have h := stepBack_eq junk x.1 before.reverse x xs rfl (by rwa [reverse_reverse])
  rw [reverse_reverse, hsplit] at h
  exact h

theorem startSpec_stabs (table : MultiMap Nat SourceLine)
    (events : Option (List SourceLine → Bool)) (addr nearest junk : Nat) :
    StartSpec (groupStart junk) (fun k => HearsAll events (table.group k)) table events addr
      nearest junk where
  above := by
    intro k hkey hfrom
    cases hlist : table.from_ k with
    | nil =>
      obtain ⟨e, hhead, -⟩ := hasKey_iff_head.mp hkey
      rw [hlist] at hhead
      cases hhead
    | cons x xs =>
      have hx : x.1 = k := by
        have hfirst := keyAt_from junk hkey
        rwa [hlist] at hfirst
      rw [groupStart_eq junk (by rw [← hlist, ← hfrom, below_append_from]), hx, hlist]
  before := by
    intro j k' hlast hkey hle hnear hbest atBlockStart
    obtain ⟨hjkey, hlt⟩ := hasKey_last hlast
    have hsplit : (table.below addr).dropLast ++ j :: table.from_ addr = table.entries := by
      rw [← singleton_append, ← append_assoc, dropLast_append_getLast? j hlast,
        below_append_from]
    rw [groupStart_eq junk hsplit, right_report_iff hjkey fun _ => ⟨hnear.least, hbest⟩]
    constructor
    · intro h
      exact h.2
    · intro h
      exact ⟨Or.inl ⟨k', hkey, hlt.trans_le hle⟩, h⟩

theorem addrToLine_nearest_iff (addr nearest junk : Nat)
    (isBlockStart : Dwarfz.LineRow → Bool) (map : MultiMap Nat Dwarfz.LineRow)
    (events : Option (List Dwarfz.LineRow → Bool))
    (atBlockStart : Prop) (name : String) (lineByAddr : MultiMap Nat SourceLine)
    (hasEvents : Bool) :
    (Right (AtBlockStart isBlockStart map addr) map addr nearest
        (Dwarfz.addrToLine true junk isBlockStart map events addr (some nearest)) ↔
      LookupOk (AtBlockStart isBlockStart map addr) (Dwarfz.SingleLine map events) isBlockStart
        map events addr nearest) ∧
    (Right atBlockStart lineByAddr addr nearest
        (addrToLine true junk name lineByAddr hasEvents addr (some nearest)) ↔
      LookupOk atBlockStart
        (fun k => HearsAll (untilOwnFile name hasEvents) (lineByAddr.group k)) (fun _ => false)
        lineByAddr (untilOwnFile name hasEvents) addr nearest) := by
  constructor
  · exact nearestLines_right_iff id (Dwarfz.startSpec_dwarf map events addr nearest junk)
  · have hstart := startSpec_stabs lineByAddr (untilOwnFile name hasEvents) addr nearest junk
    refine nearestLines_right_iff (fun hblock => ?_) hstart
    obtain ⟨e, -, hfalse⟩ := hblock
    cases hfalse

def oneLine : MultiMap Nat SourceLine := MultiMap.empty.insert 0x10 ⟨"/a.h", 7⟩

theorem addrToLine_reads_past_end :
    ¬Right False Dwarfz.oneRowUnit.lineInfo 0x10 0
        (Dwarfz.addrToLine true 0 (fun _ => false) Dwarfz.oneRowUnit.lineInfo
          (some fun _ => true) 0x10 (some 0)) ∧
      ¬Right False Dwarfz.oneRowUnit.lineInfo 0x20 0
        (Dwarfz.addrToLine true 0 (fun _ => false) Dwarfz.oneRowUnit.lineInfo
          (some fun _ => true) 0x20 (some 0)) ∧
      ¬Right False oneLine 0x10 0 (addrToLine true 0 "/a.c" oneLine true 0x10 (some 0)) ∧
      ¬Right False oneLine 0x20 0 (addrToLine true 0 "/a.c" oneLine true 0x20 (some 0)) := by
  refine ⟨?_, ?_, ?_, ?_⟩ <;> exact not_right_of_pastEnd rfl

end ZeroBugs.Stabz
