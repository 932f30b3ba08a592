import ZeroBugs.Dwarfz.NextLine

/-! # Stepping to the next line -/
namespace ZeroBugs.Engine.StepToLine
open Lib Dwarfz

structure Symbol where
  value : Nat
  offset : Nat
  file : Option String
  line : Nat
  /-- The adjustment of the symbol's table, if it still has one. -/
  table : Option Nat

abbrev NextLineAddr := Nat → Option String → Nat → Nat

/-- `Reader::next_line_addr` of the DWARF reader; `lookupUnit` is the unit
`Debug::next_line` finds for an address. -/
def dwarfNextLineAddr (lookupUnit : Nat → Option CompileUnit) : NextLineAddr :=
  fun addr srcFile srcLine =>
    match srcFile with
    | none => 0
    | some _ =>
      match lookupUnit addr with
      | none => 0
      | some unit => (unit.nextLine srcLine addr (some 0)).1

/-- The loop of `SymbolEvents::next_line`: the first answer that is not zero. -/
def askReaders (sym : Symbol) (adjustment : Nat) : List NextLineAddr → Nat → Nat
  | [], addr => addr
  | reader :: readers, addr =>
    if addr ≠ 0 then addr
    else
      let addr := reader (sym.value + sym.offset) sym.file sym.line
      askReaders sym adjustment readers
        (if addr ≠ 0 then (addr + adjustment) % 2 ^ 64 else addr)

def symbolNextLine (debugInfo : List NextLineAddr) (sym : Symbol) : Nat :=
  match sym.table with
  | none => 0
  | some adjustment => askReaders sym adjustment debugInfo 0

inductive NextStep where
  /-- `next` is called again when `from` is hit. -/
  | runTo (from_ to_ : Nat)
  /-- There are no symbols, or none at the program counter. -/
  | refused
  /-- `step_thru`; `remembered` is whether the site is kept for `next_line_hack`. -/
  | stepThru (first last : Nat) (remembered : Bool)
  | singleStep (remembered : Bool)
  deriving DecidableEq

structure Site where
  pc : Nat
  symbols : Option (Nat → Option Symbol)
  debugInfo : List NextLineAddr
  nextAddr : Nat → Nat
  retAddr : Nat

def Site.next (site : Site) (from_ to_ : Nat) : NextStep :=
  let from_ := if from_ = 0 then site.pc else from_
  if from_ ≠ site.pc then .runTo from_ to_
  else match site.symbols with
  | none => .refused
  | some lookupSymbol =>
    match lookupSymbol from_ with
    | none => .refused
    | some sym =>
      let to_ := if to_ = 0 then symbolNextLine site.debugInfo sym else to_
      let to_ := if to_ = 0 then site.nextAddr from_ else to_
      let remembered := decide (to_ ≠ 0)
      let to_ := if to_ = 0 then site.retAddr else to_
      if to_ ≠ 0 ∧ from_ ≠ to_ then .stepThru from_ to_ remembered else .singleStep remembered

/-- The thread is at `addr` of a unit and on `line`; the DWARF reader is asked first. -/
structure Site.At (site : Site) (unit : CompileUnit) (line addr : Nat) where
  sym : Symbol
  adjustment : Nat
  lookupUnit : Nat → Option CompileUnit
  others : List NextLineAddr
  lookupSymbol : Nat → Option Symbol
  symbols : site.symbols = some lookupSymbol
  found : lookupSymbol site.pc = some sym
  table : sym.table = some adjustment
  source : sym.file.isSome
  line_eq : sym.line = line
  addr_eq : sym.value + sym.offset = addr
  addr_lt : addr < 2 ^ 64
  pc_eq : site.pc = (addr + adjustment) % 2 ^ 64
  readers : site.debugInfo = dwarfNextLineAddr lookupUnit :: others
  unit_eq : lookupUnit addr = some unit

def StepsToOtherLine (unit : CompileUnit) (line addr : Nat) : Prop :=
  ∀ (site : Site) (h : site.At unit line addr) (e : Nat × LineRow),
    rowOfOtherLine unit.lineInfo line addr = some e → e.1 < 2 ^ 64 →
    (e.1 + h.adjustment) % 2 ^ 64 ≠ 0 →
    site.next 0 0 = .stepThru site.pc ((e.1 + h.adjustment) % 2 ^ 64) true

theorem unitNextLine_fst (unit : CompileUnit) (line addr : Nat) (next : Option Nat) :
    (unit.nextLine line addr next).1 = (lineInfoNextLine unit.lineInfo line addr (some 0)).1 := by
  unfold CompileUnit.nextLine
  dsimp only
  split <;> rfl

theorem lineInfoNextLine_fst (map : MultiMap Nat LineRow) (line addr : Nat)
    (next next' : Option Nat) :
    (lineInfoNextLine map line addr next).1 = (lineInfoNextLine map line addr next').1 := by
  unfold lineInfoNextLine
  cases map.above addr <;> rfl

theorem askReaders_done (sym : Symbol) (adjustment : Nat) (readers : List NextLineAddr)
    {addr : Nat} (h : addr ≠ 0) : askReaders sym adjustment readers addr = addr := by
  cases readers with
  | nil => rfl
  | cons reader readers => rw [askReaders, if_pos h]

theorem next_stepThru {site : Site} {unit : CompileUnit} {line addr : Nat}
    (h : site.At unit line addr) {to_ : Nat} (hto : (unit.nextLine line addr (some 0)).1 = to_)
    (hne : to_ ≠ 0) (hmapped : (to_ + h.adjustment) % 2 ^ 64 ≠ 0)
    (hpc : (to_ + h.adjustment) % 2 ^ 64 ≠ site.pc) :
    site.next 0 0 = .stepThru site.pc ((to_ + h.adjustment) % 2 ^ 64) true := by
  obtain ⟨file, hfile⟩ := Option.isSome_iff_exists.mp h.source
  have hreader : dwarfNextLineAddr h.lookupUnit addr h.sym.file line = to_ := by
    simp only [dwarfNextLineAddr, hfile, h.unit_eq, hto]
  have hline : symbolNextLine site.debugInfo h.sym = (to_ + h.adjustment) % 2 ^ 64 := by
    simp only [symbolNextLine, h.table, h.readers, askReaders, h.addr_eq, h.line_eq, hreader]
    rw [if_neg (by simp), if_pos hne, askReaders_done _ _ _ hmapped]
  simp only [Site.next, if_true, h.symbols, h.found, hline, if_neg hmapped]
  rw [if_neg (by simp), if_pos ⟨hmapped, hpc.symm⟩, decide_eq_true hmapped]

theorem stepsToOtherLine_of_finds {unit : CompileUnit} {line addr : Nat} {next : Option Nat}
    (hfinds : FindsOtherLine unit.lineInfo line addr next
      (lineInfoNextLine unit.lineInfo line addr next)) : StepsToOtherLine unit line addr := by
  intro site h e he hlt hmapped
  have hin : e ∈ unit.lineInfo.above addr := List.mem_of_find?_eq_some he
  have habove : addr < e.1 := MultiMap.lt_of_mem_above hin
  have hto : (unit.nextLine line addr (some 0)).1 = e.1 := by
    rw [unitNextLine_fst, lineInfoNextLine_fst _ _ _ _ next, hfinds.found e he]
  refine next_stepThru h hto (Nat.ne_of_gt (Nat.zero_lt_of_lt habove)) hmapped ?_
  have haddr := h.addr_lt
  rw [h.pc_eq]
  omega

theorem nextLine_right_iff (unit : CompileUnit) (line addr : Nat) (next : Option Nat) :
    (FindsOtherLine unit.lineInfo line addr next
        (lineInfoNextLine unit.lineInfo line addr next) ∧ StepsToOtherLine unit line addr) ↔
      LeavesLineAtOnce unit.lineInfo line addr := by
  have hiff := findsOtherLine_iff (lineTable_lineInfo unit) line addr next
  constructor
  · intro h
    exact hiff.mp h.1
  · intro h
    exact ⟨hiff.mpr h, stepsToOtherLine_of_finds (hiff.mpr h)⟩

/-! Three rows, the first two of one line. -/

def splitLineUnit : CompileUnit :=
  ⟨"/a.c", 0, 0, [⟨some "/a.c", 7, 0x10, false⟩, ⟨some "/a.c", 7, 0x18, false⟩,
    ⟨some "/a.c", 8, 0x20, false⟩]⟩

theorem nextLine_of_split_line :
    lineInfoNextLine splitLineUnit.lineInfo 7 0x10 (some 0) = (0x18, some 8) ∧
      ¬FindsOtherLine splitLineUnit.lineInfo 7 0x10 (some 0)
        (lineInfoNextLine splitLineUnit.lineInfo 7 0x10 (some 0)) := by
  have hresult : lineInfoNextLine splitLineUnit.lineInfo 7 0x10 (some 0) = (0x18, some 8) := rfl
  refine ⟨hresult, fun hfinds => ?_⟩
  have hpair := hfinds.found (0x20, ⟨some "/a.c", 8, 0x20, false⟩) rfl
  exact absurd (congrArg Prod.fst hpair) (by decide)

/-- A thread at `0x18`, mapped one page higher, on line 7. -/
def splitLineSite : Site where
  pc := 0x1018
  symbols := some fun _ => some ⟨0x10, 8, some "/a.c", 7, some 0x1000⟩
  debugInfo := [dwarfNextLineAddr fun _ => some splitLineUnit]
  nextAddr := fun _ => 0
  retAddr := 0

example : splitLineSite.next 0 0 = .stepThru 0x1018 0x1020 true := rfl

end ZeroBugs.Engine.StepToLine
