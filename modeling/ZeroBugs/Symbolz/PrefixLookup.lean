import ZeroBugs.Lib.PrefixRange
import ZeroBugs.Symbolz.NameComparators

/-! # Lookups by the start of a name -/
namespace ZeroBugs.Symbolz.SymbolTable
open Lib.BinarySearch Lib.PrefixRange List

/-- `++(upper[upper.size() - 1])`, and `c_str()` of the result. -/
def increment (name : List UInt8) : List UInt8 :=
  match name.getLast? with
  | none => []
  | some c => (name.dropLast ++ [c + 1]).takeWhile (· ≠ 0)

variable {Sym : Type}

def lookupRange (ignoreSpace : Bool) (symbolName : Sym → List UInt8) (table : List Sym)
    (name : List UInt8) : Nat × Nat :=
  let below (bound : List UInt8) (i : Nat) : Bool :=
    (table[i]?).any fun sym => isLess ignoreSpace (symbolName sym) bound
  let first := lowerBound (below name) 0 table.length
  match table[first]? with
  | none => (table.length, table.length)
  | some sym =>
    -- `strncmp` of the query's length
    if name.isPrefixOf (symbolName sym) then
      (first, lowerBound (below (increment name)) first (table.length - first))
    else (table.length, table.length)

def lookupNameRange (ignoreSpace : Bool) (symbolName : Sym → List UInt8) (table : List Sym)
    (name : List UInt8) : List Sym :=
  let range := lookupRange ignoreSpace symbolName table name
  (table.drop range.1).take (range.2 - range.1)

def startingWith (ignoreSpace : Bool) (symbolName : Sym → List UInt8) (table : List Sym)
    (name : List UInt8) : List Sym :=
  table.filter fun sym =>
    (compared ignoreSpace name).isPrefixOf (compared ignoreSpace (symbolName sym))

/-- A table sorted by its own comparator, in which names with equal hashes are
equal for the comparator. -/
structure SortedTable (ignoreSpace : Bool) (Sym : Type) where
  symbolName : Sym → List UInt8
  symbols : List Sym
  sorted : symbols.Pairwise fun x y =>
    isLessShared ignoreSpace (symbolName y) (symbolName x) = false
  hashed : ∀ x ∈ symbols, ∀ y ∈ symbols, hash (symbolName x) = hash (symbolName y) →
    compared ignoreSpace (symbolName x) = compared ignoreSpace (symbolName y)

structure Query where
  stem : List UInt8
  last : UInt8
  last_ne : last ≠ 0xFF
  cString : 0 ∉ stem ++ [last]

def Query.text (query : Query) : List UInt8 := query.stem ++ [query.last]

theorem increment_text (query : Query) :
    increment query.text = query.stem ++ [query.last + 1] := by
  have hnext : query.last + 1 ≠ 0 := by
    intro h
    have hlast : query.last = 0xFF := by
      rw [← UInt8.toNat_inj] at h ⊢
      simp only [UInt8.toNat_add, UInt8.reduceToNat] at h ⊢
      have := query.last.toNat_lt
      omega
    exact query.last_ne hlast
  have hkept : ∀ c ∈ query.stem ++ [query.last + 1], decide (c ≠ 0) = true := by
    intro c hc
    rcases mem_append.mp hc with hc | hc
    · exact decide_eq_true fun h0 => query.cString (mem_append_left _ (h0 ▸ hc))
    · exact decide_eq_true (mem_singleton.mp hc ▸ hnext)
  rw [increment, Query.text, getLast?_append, dropLast_concat]
  exact takeWhile_eq_self_iff.mpr hkept

theorem head_lookupNameRange {ignoreSpace : Bool} {symbolName : Sym → List UInt8}
    {table : List Sym} {name : List UInt8} {sym : Sym}
    (h : (lookupNameRange ignoreSpace symbolName table name).head? = some sym) :
    name <+: symbolName sym ∧ isLess ignoreSpace (symbolName sym) name = false := by
  have hstop := lowerBound_not_below
    (fun i => (table[i]?).any fun sym => isLess ignoreSpace (symbolName sym) name) 0 table.length
  simp only [lookupNameRange, lookupRange] at h
  generalize lowerBound (fun i => (table[i]?).any fun sym =>
    isLess ignoreSpace (symbolName sym) name) 0 table.length = first at hstop h
  cases hfirst : table[first]? with
  | none => simp [hfirst] at h
  | some found =>
    obtain ⟨hlt, -⟩ := List.getElem?_eq_some_iff.mp hfirst
    rw [hfirst, Option.any_some] at hstop
    simp only [hfirst] at h
    split at h
    next hplain =>
      rw [head?_take, head?_drop, hfirst] at h
      split at h
      · cases h
      cases h
      exact ⟨ isPrefixOf_iff_prefix.mp hplain, hstop.resolve_left (by omega)⟩
    next => simp at h

section Keyed

variable {α : Type} [LinearOrder α] {ignoreSpace : Bool} {symbolName : Sym → List UInt8}
  {table : List Sym} {name : List UInt8} {key : Sym → List α} {low high : List α}

/-- The table's comparisons with the query and with its increment are those of
the keys. -/
structure Keyed (ignoreSpace : Bool) (symbolName : Sym → List UInt8) (table : List Sym)
    (name : List UInt8) (key : Sym → List α) (low high : List α) : Prop where
  sorted : table.Pairwise fun x y => ¬key y < key x
  low_iff : ∀ sym ∈ table, isLess ignoreSpace (symbolName sym) name = decide (key sym < low)
  high_iff : ∀ sym ∈ table, ¬key sym < low →
    isLess ignoreSpace (symbolName sym) (increment name) = decide (key sym < high)
  of_plain : ∀ sym ∈ table, name <+: symbolName sym → low <+: key sym

section

variable (h : Keyed ignoreSpace symbolName table name key low high)
include h

theorem Keyed.partitioned
    {l : List Sym} (hl : l.Sublist table) {p : Sym → Bool} {bound : List α}
    (hp : ∀ sym ∈ l, p sym = decide (key sym < bound)) :
    l.Pairwise fun x y => p y = true → p x = true := by
  refine (h.sorted.sublist hl).imp_of_mem fun {x y} hx hy hxy hpy => ?_
  rw [hp y hy, decide_eq_true_eq] at hpy
  rw [hp x hx, decide_eq_true_eq]
  exact lt_of_le_of_lt (not_lt.mp hxy) hpy

theorem Keyed.drop_first :
    table.drop (lowerBound (fun i => (table[i]?).any fun sym =>
      isLess ignoreSpace (symbolName sym) name) 0 table.length) =
      table.filter fun sym => !decide (key sym < low) := by
  have hpart := h.partitioned (List.Sublist.refl table) h.low_iff
  rw [lowerBound_eq_takeWhile hpart, drop_takeWhile_eq_filter hpart]
  exact filter_congr fun sym hsym => by rw [h.low_iff sym hsym]

theorem Keyed.lookup_eq :
    lookupNameRange ignoreSpace symbolName table name =
      if (table.filter fun sym => !decide (key sym < low)).head?.any
          fun sym => name.isPrefixOf (symbolName sym) then
        (table.filter fun sym => !decide (key sym < low)).filter fun sym => decide (key sym < high)
      else [] := by
  have hdrop := h.drop_first
  have hhead := congrArg List.head? hdrop
  rw [head?_drop] at hhead
  simp only [lookupNameRange, lookupRange]
  generalize lowerBound (fun i => (table[i]?).any fun sym =>
    isLess ignoreSpace (symbolName sym) name) 0 table.length = first at hdrop hhead ⊢
  rw [hhead]
  have hnot : ∀ sym ∈ table.drop first, sym ∈ table ∧ ¬key sym < low := by
    intro sym hsym
    rw [hdrop] at hsym
    simpa using hsym
  have hhigh : ∀ sym ∈ table.drop first, isLess ignoreSpace (symbolName sym) (increment name) =
      decide (key sym < high) := fun sym hsym =>
    h.high_iff sym (hnot sym hsym).1 (hnot sym hsym).2
  cases (table.filter fun sym => !decide (key sym < low)).head? with
  | none => simp
  | some sym =>
    simp only [Option.any_some]
    split
    · have hpart := h.partitioned (drop_sublist first table) hhigh
      rw [lowerBound_drop hpart, Nat.add_sub_cancel_left,
        ← List.prefix_iff_eq_take.mp ( takeWhile_prefix _), takeWhile_eq_filter hpart,
        filter_congr hhigh, hdrop]
    · simp

theorem Keyed.head_filter
    (hne : (table.filter fun sym => decide (low <+: key sym)) ≠ []) :
    (table.filter fun sym => !decide (key sym < low)).head? =
      (table.filter fun sym => decide (low <+: key sym)).head? := by
  have hsub : (table.filter fun sym => decide (low <+: key sym)) =
      (table.filter fun sym => !decide (key sym < low)).filter
        fun sym => decide (low <+: key sym) := by
    rw [filter_filter]
    refine filter_congr fun sym _ => ?_
    by_cases hp : low <+: key sym
    · simp [hp, not_lt_of_isPrefix hp]
    · simp [hp]
  rw [hsub] at hne ⊢
  have hsorted := h.sorted.sublist
    (filter_sublist (p := fun sym => !decide (key sym < low)) (l := table))
  have hmem : ∀ sym ∈ table.filter fun sym => !decide (key sym < low), ¬key sym < low := by
    intro sym hsym
    simpa using (mem_filter.mp hsym).2
  generalize (table.filter fun sym => !decide (key sym < low)) = rest at hne hsorted hmem ⊢
  cases rest with
  | nil => rfl
  | cons first rest =>
    by_cases hp : low <+: key first
    · simp [hp]
    · -- a later symbol with the query's start would be below the first
      obtain ⟨sym, hsym⟩ := exists_mem_of_ne_nil _ hne
      obtain ⟨hsym, hstart⟩ := mem_filter.mp hsym
      rw [decide_eq_true_eq] at hstart
      obtain ⟨t, ht⟩ := hstart
      have hlt := append_lt_of_not_isPrefix (hmem first mem_cons_self) hp t
      rw [ht] at hlt
      rcases mem_cons.mp hsym with rfl | hsym
      · exact absurd hlt (lt_irrefl _)
      · exact absurd hlt ((List.pairwise_cons.mp hsorted).1 sym hsym)

theorem Keyed.lookup_eq_iff :
    lookupNameRange ignoreSpace symbolName table name =
        (table.filter fun sym => decide (low <+: key sym)) ↔
      (table.filter fun sym => decide (low <+: key sym)) = [] ∨
        ((table.filter fun sym => decide (low <+: key sym)).head?.any
          fun sym => name.isPrefixOf (symbolName sym)) = true ∧
        ∀ sym ∈ table, ¬key sym < low → (key sym < high ↔ low <+: key sym) := by
  rw [h.lookup_eq]
  by_cases hnil : (table.filter fun sym => decide (low <+: key sym)) = []
  · -- the check fails: a name that starts with the query has a key that does
    rw [if_neg, hnil]
    · simp
    · intro hcheck
      obtain ⟨sym, hhead, hplain⟩ := (Option.any_eq_true _ _).mp hcheck
      have hsym := (mem_filter.mp (mem_of_mem_head? hhead)).1
      have hin : sym ∈ table.filter fun sym => decide (low <+: key sym) :=
        mem_filter.mpr ⟨hsym, decide_eq_true
          (h.of_plain sym hsym ( isPrefixOf_iff_prefix.mp hplain))⟩
      rw [hnil] at hin
      cases hin
  · rw [h.head_filter hnil, or_iff_right hnil]
    split
    next hcheck =>
      rw [and_iff_right hcheck, filter_filter]
      constructor
      · intro heq sym hsym hlow
        have hiff := congrArg (sym ∈ ·) heq
        simpa [hsym, hlow] using hiff
      · intro hiff
        refine filter_congr fun sym hsym => ?_
        by_cases hlow : key sym < low
        · have hstart : ¬low <+: key sym := fun hp => not_lt_of_isPrefix hp hlow
          simp [hlow, hstart]
        · simp [hlow, hiff sym hsym hlow]
    next hcheck =>
      exact ⟨fun heq => absurd heq.symm hnil, fun hand => absurd hand.1 hcheck⟩

end

end Keyed

end ZeroBugs.Symbolz.SymbolTable
