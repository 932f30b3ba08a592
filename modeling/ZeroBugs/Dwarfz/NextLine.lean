import ZeroBugs.Dwarfz.SrcLineMap

/-! # The address of the next line -/
namespace ZeroBugs.Dwarfz
open Lib List

def CompileUnit.lineInfo (unit : CompileUnit) : MultiMap Nat LineRow :=
  unit.rows.foldl unit.addLineInfo .empty

/-- What `add_line_info` keeps: rows by their addresses, none zero and none twice. -/
structure LineTable (map : MultiMap Nat LineRow) : Prop where
  addr : ∀ e ∈ map.entries, e.2.addr = e.1 ∧ e.1 ≠ 0
  strict : map.entries.Pairwise (·.1 < ·.1)

variable {map : MultiMap Nat LineRow}

theorem LineTable.addLineInfo (h : LineTable map)
    (unit : CompileUnit) (row : LineRow) : LineTable (unit.addLineInfo map row) := by
  unfold CompileUnit.addLineInfo
  split
  · exact h
  · next hkept =>
    split
    · next hnew =>
      have haddr : row.addr ≠ 0 := fun hzero => hkept (Or.inr (Or.inl hzero))
      have hkey : ¬map.HasKey row.addr := by
        intro hkey
        obtain ⟨e, he, hek⟩ := hkey
        have hin : e.2 ∈ map.group row.addr := MultiMap.mem_group.mpr (hek ▸ he)
        rw [List.isEmpty_iff.mp hnew] at hin
        exact absurd hin not_mem_nil
      refine ⟨fun e he => ?_, MultiMap.insert_strict h.strict hkey row⟩
      rcases MultiMap.mem_insert.mp he with rfl | he
      · exact ⟨rfl, haddr⟩
      · exact h.addr e he
    · exact h

theorem lineTable_lineInfo (unit : CompileUnit) : LineTable unit.lineInfo := by
  have hfold : ∀ (rows : List LineRow) (map : MultiMap Nat LineRow), LineTable map →
      LineTable (rows.foldl unit.addLineInfo map) := by
    intro rows
    induction rows with
    | nil => exact fun _ h => h
    | cons row rows ih => exact fun map h => ih _ (h.addLineInfo unit row)
  exact hfold unit.rows .empty ⟨fun e he => absurd he not_mem_nil, List.Pairwise.nil⟩

/-- The loop of `next_line`: the line of the first row that is not of `line`, or of
the last row. -/
def otherLine (line : Nat) : List (Nat × LineRow) → Nat → Nat
  | [], lineNum => lineNum
  | e :: es, _ => if e.2.line ≠ line then e.2.line else otherLine line es e.2.line

/-- `LineInfoCache::next_line`: the address, and what `next` points to afterwards;
`none` is the null pointer. -/
def lineInfoNextLine (map : MultiMap Nat LineRow) (line addr : Nat) (next : Option Nat) :
    Nat × Option Nat :=
  match map.above addr with
  | [] => (0, next)
  | e :: es => (e.2.addr, next.map fun _ => otherLine line (e :: es) 0)

def CompileUnit.nextLine (unit : CompileUnit) (line addr : Nat) (next : Option Nat) :
    Nat × Option Nat :=
  let (result, nextLine) := lineInfoNextLine unit.lineInfo line addr (some 0)
  if result ≠ 0 then (result, next.bind fun _ => nextLine) else (result, next)

def rowOfOtherLine (map : MultiMap Nat LineRow) (line addr : Nat) : Option (Nat × LineRow) :=
  (map.above addr).find? (·.2.line ≠ line)

structure FindsOtherLine (map : MultiMap Nat LineRow) (line addr : Nat) (next : Option Nat)
    (result : Nat × Option Nat) : Prop where
  found : ∀ e, rowOfOtherLine map line addr = some e →
    result = (e.1, next.map fun _ => e.2.line)
  none : rowOfOtherLine map line addr = none → result.1 = 0

def LeavesLineAtOnce (map : MultiMap Nat LineRow) (line addr : Nat) : Prop :=
  ∀ e, (map.above addr).head? = some e → e.2.line ≠ line

variable {e : Nat × LineRow}

theorem otherLine_of_find {line : Nat} {es : List (Nat × LineRow)}
    (h : es.find? (·.2.line ≠ line) = some e) (lineNum : Nat) :
    otherLine line es lineNum = e.2.line := by
  induction es generalizing lineNum with
  | nil => cases h
  | cons x es ih =>
    by_cases hx : x.2.line = line
    · rw [find?_cons_of_neg (by simpa using hx)] at h
      rw [otherLine, if_neg (not_not.mpr hx)]
      exact ih h _
    · rw [find?_cons_of_pos (by simpa using hx)] at h
      obtain rfl := Option.some.inj h
      rw [otherLine, if_pos hx]

theorem lineInfoNextLine_line {line addr : Nat} (h : rowOfOtherLine map line addr = some e)
    (next : Option Nat) :
    (lineInfoNextLine map line addr next).2 = next.map fun _ => e.2.line := by
  unfold lineInfoNextLine
  unfold rowOfOtherLine at h
  cases habove : map.above addr with
  | nil =>
    rw [habove] at h
    cases h
  | cons x xs =>
    rw [habove] at h
    simp only [otherLine_of_find h]

theorem above_mem {addr : Nat}
    (h : e ∈ map.above addr) : e ∈ map.entries := by
  rw [← MultiMap.upTo_append_above map addr]
  exact mem_append_right _ h

theorem LineTable.above_strict (h : LineTable map) (addr : Nat) :
    (map.above addr).Pairwise (·.1 < ·.1) := by
  have hstrict := h.strict
  rw [← MultiMap.upTo_append_above map addr] at hstrict
  exact (pairwise_append.mp hstrict).2.1

theorem findsOtherLine_iff (h : LineTable map) (line addr : Nat)
    (next : Option Nat) :
    FindsOtherLine map line addr next (lineInfoNextLine map line addr next) ↔
      LeavesLineAtOnce map line addr := by
  have hstrict := h.above_strict addr
  have haddr : ∀ e ∈ map.above addr, e.2.addr = e.1 ∧ e.1 ≠ 0 := fun e he => h.addr e (above_mem he)
  have hfst : (lineInfoNextLine map line addr next).1 =
      ((map.above addr).head?.map (·.2.addr)).getD 0 := by
    unfold lineInfoNextLine
    cases map.above addr <;> rfl
  unfold LeavesLineAtOnce
  cases habove : map.above addr with
  | nil =>
    have hnone : rowOfOtherLine map line addr = none := by simp [rowOfOtherLine, habove]
    refine iff_of_true ⟨fun e he => ?_, fun _ => ?_⟩ fun e he => by cases he
    · rw [hnone] at he
      cases he
    · rw [hfst, habove]
      rfl
  | cons e es =>
    rw [habove] at hstrict haddr hfst
    change (lineInfoNextLine map line addr next).1 = e.2.addr at hfst
    obtain ⟨hkey, hne⟩ := haddr e mem_cons_self
    by_cases hline : e.2.line = line
    · -- the row whose address is returned is of the same line
      have hrow : rowOfOtherLine map line addr = es.find? (·.2.line ≠ line) := by
        rw [rowOfOtherLine, habove, find?_cons_of_neg (by simpa using hline)]
      refine iff_of_false (fun hfinds => ?_) fun hleaves => hleaves e rfl hline
      cases hfind : es.find? (·.2.line ≠ line) with
      | none => exact hne (hkey ▸ hfst ▸ hfinds.none (hrow.trans hfind))
      | some x =>
        have hpair := hfinds.found x (hrow.trans hfind)
        have hlt : e.1 < x.1 :=
          (List.pairwise_cons.mp hstrict).1 x (mem_of_find?_eq_some hfind)
        have heq : e.2.addr = x.1 := hfst.symm.trans (congrArg Prod.fst hpair)
        omega
    · have hrow : rowOfOtherLine map line addr = some e := by
        rw [rowOfOtherLine, habove, find?_cons_of_pos (by simpa using hline)]
      have hleaves : ∀ x, (e :: es).head? = some x → x.2.line ≠ line := by
        intro x hx
        obtain rfl := Option.some.inj hx
        exact hline
      refine iff_of_true ⟨fun x hx => ?_, fun hnone => ?_⟩ hleaves
      · obtain rfl := Option.some.inj (hrow.symm.trans hx)
        exact Prod.ext (hfst.trans hkey) (lineInfoNextLine_line hx next)
      · rw [hrow] at hnone
        cases hnone

end ZeroBugs.Dwarfz
