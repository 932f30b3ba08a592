import ZeroBugs.Dwarfz.Location

/-! # Register locations -/
namespace ZeroBugs.Dwarfz

def Loc.namesRegister (loc : Loc) : Bool :=
  match loc.atom with
  | .regx => true
  | .reg n => decide (n < 31)
  | _ => false

def isRegister (pc base : UInt64) : List Locdesc → Bool
  | [] => false
  | desc :: list =>
    if pc < desc.lopc + base then isRegister pc base list
    else if desc.hipc ≠ -1 ∧ desc.hipc + base ≤ pc then isRegister pc base list
    else match desc.ops with
    | [loc] => if loc.namesRegister then true else isRegister pc base list
    | _ => isRegister pc base list

def Locdesc.SingleRegister (desc : Locdesc) : Prop :=
  ∃ loc, desc.ops = [loc] ∧ (loc.atom = .regx ∨ ∃ n, loc.atom = .reg n)

def Locdesc.IsReg31 (desc : Locdesc) : Prop := ∃ loc, desc.ops = [loc] ∧ loc.atom = .reg 31

def Locdesc.InRange (desc : Locdesc) (base pc : UInt64) : Prop :=
  desc.lopc + base ≤ pc ∧ (desc.hipc = -1 ∨ pc < desc.hipc + base)

def RegisterAgrees (list : List Locdesc) (moduleBase unitBase pc : UInt64) : Prop :=
  isRegister pc unitBase list = true ↔
    ∃ desc, selectDesc list moduleBase unitBase pc = some desc ∧ desc.SingleRegister

/-- The first entry with the program counter in its range as `eval` moves it. -/
def FirstCovering (list : List Locdesc) (moduleBase unitBase pc : UInt64) (desc : Locdesc) :
    Prop :=
  ∃ before after, list = before ++ desc :: after ∧
    desc.covers moduleBase unitBase pc = true ∧
    ∀ d ∈ before, d.covers moduleBase unitBase pc = false

structure SameVerdict (list : List Locdesc) (moduleBase unitBase pc : UInt64) : Prop where
  /-- Where the first entry that covers the program counter is a register, some register but 31 has
  it in its range moved by the unit base alone. -/
  seen : ∀ desc, FirstCovering list moduleBase unitBase pc desc → desc.SingleRegister →
    ∃ d ∈ list, d.InRange unitBase pc ∧ d.SingleRegister ∧ ¬d.IsReg31
  /-- And if one has, the first entry that covers it is a register. -/
  only : ∀ d ∈ list, d.InRange unitBase pc → d.SingleRegister → ¬d.IsReg31 →
    ∃ desc, FirstCovering list moduleBase unitBase pc desc ∧ desc.SingleRegister

theorem selectDesc_iff (list : List Locdesc) (moduleBase unitBase pc : UInt64)
    (desc : Locdesc) : selectDesc list moduleBase unitBase pc = some desc ↔
      FirstCovering list moduleBase unitBase pc desc := by
  rw [selectDesc, List.find?_eq_some_iff_append, FirstCovering]
  simp only [Bool.not_eq_true']
  constructor
  · intro h
    obtain ⟨hcovers, before, after, hlist, hbefore⟩ := h
    exact ⟨before, after, hlist, hcovers, hbefore⟩
  · intro h
    obtain ⟨before, after, hlist, hcovers, hbefore⟩ := h
    exact ⟨hcovers, before, after, hlist, hbefore⟩

theorem namesRegister_iff {desc : Locdesc} {loc : Loc} (h : desc.ops = [loc]) :
    loc.namesRegister = true ↔ desc.SingleRegister ∧ ¬desc.IsReg31 := by
  have hsingle : desc.SingleRegister ↔ loc.atom = .regx ∨ ∃ n, loc.atom = .reg n := by
    simp [Locdesc.SingleRegister, h]
  have hreg31 : desc.IsReg31 ↔ loc.atom = .reg 31 := by simp [Locdesc.IsReg31, h]
  rw [hsingle, hreg31, Loc.namesRegister]
  cases hatom : loc.atom with
  | reg n =>
    simp only [decide_eq_true_eq, Atom.reg.injEq, reduceCtorEq, false_or, exists_eq', true_and]
    have hn := n.isLt
    constructor
    · intro hlt heq
      subst heq
      exact absurd hlt (by decide)
    · intro hne
      have hval : n.val ≠ 31 := fun heq => hne (Fin.ext heq)
      exact Fin.lt_def.mpr (by omega)
  | _ => simp

theorem not_namesRegister {desc : Locdesc} (h : ∀ loc, desc.ops ≠ [loc]) :
    ¬desc.SingleRegister := by
  intro hsingle
  obtain ⟨loc, hops, -⟩ := hsingle
  exact h loc hops

theorem inRange_iff (desc : Locdesc) (base pc : UInt64) :
    desc.InRange base pc ↔
      ¬pc < desc.lopc + base ∧ ¬(desc.hipc ≠ -1 ∧ desc.hipc + base ≤ pc) := by
  rw [Locdesc.InRange, UInt64.not_lt, not_and_or, not_not, UInt64.not_le]

theorem isRegister_cons (desc : Locdesc) (list : List Locdesc) (pc base : UInt64) :
    isRegister pc base (desc :: list) = true ↔
      (desc.InRange base pc ∧ desc.SingleRegister ∧ ¬desc.IsReg31) ∨
        isRegister pc base list = true := by
  rw [isRegister, inRange_iff]
  split
  · next hlow => simp [hlow]
  · next hlow =>
    split
    · next hhigh => simp [hhigh]
    · next hhigh =>
      split
      · next loc hops =>
        rw [← namesRegister_iff hops]
        split <;> simp_all
      · next hops => simp [not_namesRegister fun loc h => hops loc h]

theorem isRegister_iff (list : List Locdesc) (pc base : UInt64) :
    isRegister pc base list = true ↔
      ∃ desc ∈ list, desc.InRange base pc ∧ desc.SingleRegister ∧ ¬desc.IsReg31 := by
  induction list with
  | nil => simp [isRegister]
  | cons desc list ih => rw [isRegister_cons, ih, List.exists_mem_cons_iff]

def DisjointRanges (list : List Locdesc) : Prop :=
  list.Pairwise fun d d' => ∀ pc, ¬(d.InRange 0 pc ∧ d'.InRange 0 pc)

/-! A variable in register 0 while the module is loaded at `0x1000`. -/

def registerList : List Locdesc := [⟨0x100, 0x200, [⟨.reg 0, 0⟩]⟩]

def lastRegisterList : List Locdesc := [⟨0x100, 0x200, [⟨.reg 31, 0⟩]⟩]

end ZeroBugs.Dwarfz
