import ZeroBugs.Lib.BinarySearch
import ZeroBugs.Lib.Runs

/-! # Symbol tables -/
namespace ZeroBugs.Symbolz.SymbolTable
open Lib.BinarySearch Lib.Runs

structure Symbol where
  name : List UInt8
  value : UInt64
  isFunction : Bool
  deriving DecidableEq

def gcc2Compiled : List UInt8 := [103, 99, 99, 50, 95, 99, 111, 109, 112, 105, 108, 101, 100, 46]

/-- The body of the loop in `read`: what becomes of the symbols read so far when
the next one comes. `onSymbol` is the event sink's veto. -/
def readOne (onSymbol : Symbol → Bool) (symbols : List Symbol) (sym : Symbol) : List Symbol :=
  let push (symbols : List Symbol) := if onSymbol sym then symbols ++ [sym] else symbols
  if sym.name = [] ∨ sym.value = 0 ∨ sym.name = gcc2Compiled then symbols
  else
    match symbols.getLast? with
    | none => push symbols
    | some prev =>
      if sym.value = prev.value then
        -- prefer function symbols over non-functions, for same value
        if !prev.isFunction && sym.isFunction then push symbols.dropLast
        else if prev.isFunction && !sym.isFunction then symbols
        else push symbols
      else push symbols

def read (onSymbol : Symbol → Bool) (tbl : List Symbol) : List Symbol :=
  tbl.foldl (readOne onSymbol) []

theorem mem_readOne {onSymbol : Symbol → Bool} {symbols : List Symbol} {sym x : Symbol}
    (h : x ∈ readOne onSymbol symbols sym) : x ∈ symbols ∨ x = sym ∧ sym.value ≠ 0 := by
  have hpush {l : List Symbol} (hsub : l ⊆ symbols)
      (hx : x ∈ if onSymbol sym then l ++ [sym] else l) : x ∈ symbols ∨ x = sym := by
    split at hx
    · exact (List.mem_append.mp hx).imp (hsub ·) List.mem_singleton.mp
    · exact .inl (hsub hx)
  simp only [readOne] at h
  split at h
  · exact .inl h
  next hskip =>
    have hval : sym.value ≠ 0 := fun h0 => hskip (.inr (.inl h0))
    refine Or.imp_right (⟨·, hval⟩) ?_
    split at h
    · exact hpush (List.Subset.refl _) h
    · split at h
      · split at h
        · exact hpush (List.dropLast_subset symbols) h
        · split at h
          · exact .inl h
          · exact hpush (List.Subset.refl _) h
      · exact hpush (List.Subset.refl _) h

theorem read_nonzero (onSymbol : Symbol → Bool) (tbl : List Symbol) :
    ∀ sym ∈ read onSymbol tbl, sym.value ≠ 0 := by
  refine List.foldlRecOn (motive := fun l : List Symbol => ∀ sym ∈ l, sym.value ≠ 0) tbl _
    (by simp) ?_
  intro l hl next _ sym hsym
  rcases mem_readOne hsym with hmem | ⟨rfl, hval⟩
  · exact hl sym hmem
  · exact hval

/-- What `std::sort` promises: a permutation in which no element is less than
an earlier one. -/
structure SortOutput {α : Type} (less : α → α → Bool) (input output : List α) : Prop where
  perm : output.Perm input
  sorted : output.Pairwise fun x y => less y x = false

def compareAddr (lhs rhs : Symbol) : Bool := decide (lhs.value < rhs.value)

/-- The symbols of a table after `sort_by_addr`. Reading leaves out those with
value 0. -/
structure AddrTable where
  symbols : List Symbol
  sorted : symbols.Pairwise fun x y => compareAddr y x = false
  nonzero : ∀ sym ∈ symbols, sym.value ≠ 0

def AddrTable.ofRead {onSymbol : Symbol → Bool} {tbl output : List Symbol}
    (h : SortOutput compareAddr (read onSymbol tbl) output) : AddrTable where
  symbols := output
  sorted := h.sorted
  nonzero sym hsym := read_nonzero onSymbol tbl sym (h.perm.mem_iff.mp hsym)

/-- A symbol as `lookup_symbol` hands it out: the symbol itself, or an
`OffsetSymbolImpl` over it. -/
structure OffsetSymbol where
  parent : Symbol
  offset : UInt64
  deriving DecidableEq

structure State where
  addr : UInt64
  upper : UInt64
  adjust : UInt64
  symHash : UInt64 → Option OffsetSymbol

def symbolAddr (s : State) (sym : OffsetSymbol) : UInt64 :=
  if sym.parent.value = 0 then sym.parent.value
  else if s.addr = 0 then sym.parent.value + sym.offset
  else sym.parent.value + sym.offset + s.adjust

def getRelativeAddr (s : State) (addr : UInt64) : UInt64 :=
  if s.addr = 0 then addr else addr - s.adjust

def searchAddr (t : AddrTable) (addr : UInt64) : Option OffsetSymbol :=
  let i := lowerBound (fun i => (t.symbols[i]?).any fun sym => decide (sym.value < addr))
    0 t.symbols.length
  match t.symbols[i]? with
  | some sym => if sym.value ≠ addr then before i else some ⟨sym, 0⟩
  | none => before i
where
  before (i : Nat) : Option OffsetSymbol :=
    if i = 0 then none
    else (t.symbols[i - 1]?).map fun sym => ⟨sym, addr - sym.value⟩

def lookupSymbol (t : AddrTable) (s : State) (addr : UInt64) : Option OffsetSymbol × State :=
  if addr < s.addr ∨ t.symbols = [] then (none, s)
  else
    match s.symHash addr with
    | some sym => (some sym, s)
    | none =>
      match searchAddr t (getRelativeAddr s addr) with
      | none => (none, s)
      | some sym =>
        (some sym, { s with symHash := Function.update s.symHash (symbolAddr s sym) (some sym) })

/-- `set_addr`. The source asserts that the table is not mapped yet or stays
where it is. -/
def setAddr (s : State) (addr elfLoadAddr : UInt64) : State :=
  { s with adjust := addr - elfLoadAddr, upper := s.upper + (addr - s.addr), addr := addr }

inductive Call where
  | lookup (addr : UInt64)
  | setAddr (addr elfLoadAddr : UInt64)
  deriving DecidableEq

def step (t : AddrTable) (s : State) : Call → State
  | .lookup addr => (lookupSymbol t s addr).2
  | .setAddr addr elfLoadAddr => setAddr s addr elfLoadAddr

def State.fresh (addr upper adjust : UInt64) : State := ⟨addr, upper, adjust, fun _ => none⟩

def isSpace (c : UInt8) : Bool := c == 32 || (9 ≤ c && c ≤ 13)

/-- A `char` in an arithmetic expression: signed, extended to 64 bits. -/
def charValue (c : UInt8) : UInt64 := c.toInt8.toInt64.toUInt64

def hash (s : List UInt8) : UInt32 :=
  (s.foldl (fun h c => if isSpace c then h else 5 * h + charValue c) (0 : UInt64)).toUInt32

/-- `CompareName` on two symbols, as `sort_by_name` uses it. `strcmp` compares
unsigned bytes. -/
def compareName (lhs rhs : Symbol) : Bool :=
  if hash lhs.name = hash rhs.name then false else decide (lhs.name < rhs.name)

/-- `lookup_name` in exact mode on a sorted table: the symbols notified, in order. -/
def lookupName (table : List Symbol) (name : List UInt8) : List Symbol :=
  let range := equalRange (fun i => (table[i]?).any fun sym => decide (sym.name < name))
    (fun i => (table[i]?).any fun sym => decide (name < sym.name)) 0 table.length
  (table.drop range.1).take (range.2 - range.1)

end ZeroBugs.Symbolz.SymbolTable
