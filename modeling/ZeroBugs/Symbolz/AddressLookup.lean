import ZeroBugs.Symbolz.SymbolTable

/-! # Lookups by address -/
namespace ZeroBugs.Symbolz.SymbolTable
open Lib.BinarySearch Lib.Runs

def current (s : State) (sym : Symbol) : UInt64 := symbolAddr s ⟨sym, 0⟩

/-- The right answer for an address: a symbol with the greatest current address
not above it, and the distance; nothing if all current addresses are above. -/
def Right (t : AddrTable) (s : State) (addr : UInt64) : Option OffsetSymbol → Prop
  | some r => r.parent ∈ t.symbols ∧ current s r.parent ≤ addr ∧
      (∀ sym ∈ t.symbols, current s sym ≤ addr → current s sym ≤ current s r.parent) ∧
      r.offset = addr - current s r.parent
  | none => ∀ sym ∈ t.symbols, addr < current s sym

/-- The values compare with the relative address as the current addresses do with the address: one
is not above, or all are above. They do unless a symbol wraps around. -/
def Unwrapped (t : AddrTable) (s : State) (addr : UInt64) : Prop :=
  (∃ sym ∈ t.symbols, sym.value ≤ getRelativeAddr s addr ∧ current s sym ≤ addr) ∨
    ∀ sym ∈ t.symbols, getRelativeAddr s addr < sym.value ∧ addr < current s sym

/-- Below the table's address there is no symbol. At or above it, an answer remembered for the
address still has that address, and nothing wraps around. -/
def LookupOk (t : AddrTable) (s : State) (addr : UInt64) : Prop :=
  if addr < s.addr then ∀ sym ∈ t.symbols, addr < current s sym
  else (∀ r, s.symHash addr = some r → symbolAddr s r = addr) ∧ Unwrapped t s addr

structure Closest (t : AddrTable) (rel : UInt64) (r : OffsetSymbol) : Prop where
  mem : r.parent ∈ t.symbols
  le : r.parent.value ≤ rel
  offset : r.offset = rel - r.parent.value
  greatest : ∀ sym ∈ t.symbols, sym.value ≤ rel → sym.value ≤ r.parent.value

theorem AddrTable.le_of_lt_index (t : AddrTable) {i j : Nat} {x y : Symbol} (hij : i < j)
    (hx : t.symbols[i]? = some x) (hy : t.symbols[j]? = some y) : x.value ≤ y.value := by
  obtain ⟨hi, rfl⟩ := List.getElem?_eq_some_iff.mp hx
  obtain ⟨hj, rfl⟩ := List.getElem?_eq_some_iff.mp hy
  have h := List.pairwise_iff_getElem.mp t.sorted i j hi hj hij
  simpa [compareAddr] using h

theorem searchAddr_split (t : AddrTable) (rel : UInt64) :
    ∃ k, lowerBound (fun i => (t.symbols[i]?).any fun sym => decide (sym.value < rel))
        0 t.symbols.length = k ∧ k ≤ t.symbols.length ∧
      (∀ i sym, t.symbols[i]? = some sym → i < k → sym.value < rel) ∧
      ∀ i sym, t.symbols[i]? = some sym → k ≤ i → rel ≤ sym.value := by
  have hsplit := splitAt_takeWhile (p := fun sym : Symbol => decide (sym.value < rel))
    (t.sorted.imp fun {x y} hxy hy => by
      simp only [compareAddr, decide_eq_false_iff_not, UInt64.not_lt] at hxy
      simp only [decide_eq_true_eq] at hy ⊢
      exact UInt64.lt_of_le_of_lt hxy hy)
  refine ⟨_, lowerBound_eq hsplit, by simpa using hsplit.le_last, fun i sym hi hlt => ?_,
    fun i sym hi hle => ?_⟩
  · have hb := hsplit.before i (Nat.zero_le i) hlt
    simpa [hi] using hb
  · obtain ⟨hlen, -⟩ := List.getElem?_eq_some_iff.mp hi
    have ha := hsplit.after i hle (by omega)
    simpa [hi] using ha

variable {rel : UInt64}

theorem above_of_no_match (t : AddrTable) {k : Nat}
    (hge : ∀ i sym, t.symbols[i]? = some sym → k ≤ i → rel ≤ sym.value)
    (hne : ∀ sym, t.symbols[k]? = some sym → sym.value ≠ rel) {i : Nat} {sym : Symbol}
    (hi : t.symbols[i]? = some sym) (hk : k ≤ i) : rel < sym.value := by
  obtain ⟨hlen, -⟩ := List.getElem?_eq_some_iff.mp hi
  have hat : t.symbols[k]? = some t.symbols[k] := List.getElem?_eq_getElem (by omega)
  have hlt : rel < t.symbols[k].value :=
    UInt64.lt_of_le_of_ne (hge k _ hat (Nat.le_refl k)) fun heq => hne _ hat heq.symm
  rcases Nat.eq_or_lt_of_le hk with rfl | hki
  · rw [hat] at hi
    cases hi
    exact hlt
  · exact UInt64.lt_of_lt_of_le hlt (t.le_of_lt_index hki hat hi)

theorem before_spec (t : AddrTable) {k : Nat} (hk : k ≤ t.symbols.length)
    (hlt : ∀ i sym, t.symbols[i]? = some sym → i < k → sym.value < rel)
    (habove : ∀ i sym, t.symbols[i]? = some sym → k ≤ i → rel < sym.value) :
    match searchAddr.before t rel k with
    | some r => Closest t rel r
    | none => ∀ sym ∈ t.symbols, rel < sym.value := by
  unfold searchAddr.before
  cases k with
  | zero =>
    intro sym hsym
    obtain ⟨i, hi⟩ := List.mem_iff_getElem?.mp hsym
    exact habove i sym hi (Nat.zero_le i)
  | succ k =>
    have hat : t.symbols[k]? = some t.symbols[k] := List.getElem?_eq_getElem hk
    simp only [Nat.succ_ne_zero, if_false, Nat.add_sub_cancel, hat, Option.map_some]
    have hbelow := hlt k _ hat (Nat.lt_succ_self k)
    refine ⟨List.getElem_mem _, UInt64.le_of_lt hbelow, rfl, fun sym hsym hle => ?_⟩
    obtain ⟨i, hi⟩ := List.mem_iff_getElem?.mp hsym
    rcases Nat.lt_trichotomy i k with hik | rfl | hik
    · exact t.le_of_lt_index hik hi hat
    · rw [hat] at hi
      cases hi
      exact UInt64.le_refl _
    · exact absurd hle (UInt64.not_le.mpr (habove i sym hi hik))

theorem searchAddr_spec (t : AddrTable) (rel : UInt64) :
    match searchAddr t rel with
    | some r => Closest t rel r
    | none => ∀ sym ∈ t.symbols, rel < sym.value := by
  obtain ⟨k, hk, hlen, hlt, hge⟩ := searchAddr_split t rel
  unfold searchAddr
  simp only [hk]
  cases hat : t.symbols[k]? with
  | none =>
    exact before_spec t hlen hlt fun i sym hi => above_of_no_match t hge (by simp [hat]) hi
  | some sym =>
    by_cases heq : sym.value = rel
    · simp only [heq, ne_eq, not_true_eq_false, if_false]
      refine ⟨List.mem_of_getElem? hat, UInt64.le_of_eq heq, ?_, fun _ _ h => heq ▸ h⟩
      rw [heq]
      exact (UInt64.sub_self rel).symm
    · simp only [heq, ne_eq, not_false_eq_true, if_true]
      exact before_spec t hlen hlt fun i sym' hi =>
        above_of_no_match t hge (by simpa [hat] using heq) hi

def State.shift (s : State) : UInt64 := if s.addr = 0 then 0 else s.adjust

variable {r : OffsetSymbol}

theorem symbolAddr_eq (s : State) (h : r.parent.value ≠ 0) :
    symbolAddr s r = r.parent.value + r.offset + s.shift := by
  unfold symbolAddr State.shift
  split_ifs <;> simp_all

theorem current_eq (s : State) {sym : Symbol} (h : sym.value ≠ 0) :
    current s sym = sym.value + s.shift := by
  rw [current, symbolAddr_eq s h, UInt64.add_zero]

theorem getRelativeAddr_eq (s : State) (addr : UInt64) :
    getRelativeAddr s addr = addr - s.shift := by
  unfold getRelativeAddr State.shift
  split_ifs <;> simp

theorem shift_mono {v w addr shift : UInt64} (hv : v + shift ≤ addr) (hvw : v ≤ w)
    (hw : w ≤ addr - shift) : w + shift ≤ addr := by
  simp only [UInt64.le_iff_toNat_le, UInt64.toNat_add, UInt64.toNat_sub] at *
  have := v.toNat_lt
  have := w.toNat_lt
  have := addr.toNat_lt
  have := shift.toNat_lt
  omega

theorem shift_greatest {v w addr shift : UInt64} (hw : w + shift ≤ addr)
    (hle : w ≤ addr - shift) (hv : v + shift ≤ addr) (hvw : v ≤ addr - shift → v ≤ w) :
    v + shift ≤ w + shift := by
  simp only [UInt64.le_iff_toNat_le, UInt64.toNat_add, UInt64.toNat_sub] at *
  have := v.toNat_lt
  have := w.toNat_lt
  have := addr.toNat_lt
  have := shift.toNat_lt
  omega

section Answers

variable {t : AddrTable} {s : State} {addr : UInt64}

theorem right_closest_iff (h : Closest t (getRelativeAddr s addr) r) :
    Right t s addr (some r) ↔ current s r.parent ≤ addr := by
  refine ⟨fun hr => hr.2.1, fun hle => ⟨h.mem, hle, fun sym hsym hcur => ?_, ?_⟩⟩
  · have hgreat := h.greatest sym hsym
    have hrel := h.le
    rw [current_eq s (t.nonzero _ h.mem)] at hle ⊢
    rw [current_eq s (t.nonzero _ hsym)] at hcur ⊢
    rw [getRelativeAddr_eq] at hgreat hrel
    exact shift_greatest hle hrel hcur hgreat
  · rw [h.offset, getRelativeAddr_eq, current_eq s (t.nonzero _ h.mem)]
    grind

theorem right_closest_iff_unwrapped
    (h : Closest t (getRelativeAddr s addr) r) :
    Right t s addr (some r) ↔ Unwrapped t s addr := by
  rw [right_closest_iff h]
  constructor
  · exact fun hle => Or.inl ⟨r.parent, h.mem, h.le, hle⟩
  · intro hun
    rcases hun with ⟨sym, hsym, hle, hcur⟩ | hall
    · have hrel := h.le
      have hgreat := h.greatest sym hsym hle
      rw [current_eq s (t.nonzero _ h.mem)]
      rw [current_eq s (t.nonzero _ hsym)] at hcur
      rw [getRelativeAddr_eq] at hrel
      exact shift_mono hcur hgreat hrel
    · exact absurd h.le (UInt64.not_le.mpr (hall _ h.mem).1)

theorem right_search_iff : Right t s addr (searchAddr t (getRelativeAddr s addr)) ↔
    Unwrapped t s addr := by
  have hspec := searchAddr_spec t (getRelativeAddr s addr)
  cases hsearch : searchAddr t (getRelativeAddr s addr) with
  | none =>
    rw [hsearch] at hspec
    constructor
    · exact fun hr => Or.inr fun sym hsym => ⟨hspec sym hsym, hr sym hsym⟩
    · intro hun
      rcases hun with ⟨sym, hsym, hle, -⟩ | hall
      · exact absurd hle (UInt64.not_le.mpr (hspec sym hsym))
      · exact fun sym hsym => (hall sym hsym).2
  | some r =>
    rw [hsearch] at hspec
    exact right_closest_iff_unwrapped hspec

theorem symbolAddr_eq_iff (h : Closest t rel r) :
    symbolAddr s r = addr ↔ rel = getRelativeAddr s addr := by
  rw [symbolAddr_eq s (t.nonzero _ h.mem), getRelativeAddr_eq, h.offset]
  constructor <;> intro heq <;> grind

theorem right_cached_iff (h : Closest t rel r) :
    Right t s addr (some r) ↔ symbolAddr s r = addr ∧ Unwrapped t s addr := by
  constructor
  · intro hr
    have haddr : symbolAddr s r = addr := by
      have hoff := hr.2.2.2
      rw [current_eq s (t.nonzero _ h.mem)] at hoff
      rw [symbolAddr_eq s (t.nonzero _ h.mem), hoff]
      grind
    rw [(symbolAddr_eq_iff h).mp haddr] at h
    exact ⟨haddr, (right_closest_iff_unwrapped h).mp hr⟩
  · intro hboth
    rw [(symbolAddr_eq_iff h).mp hboth.1] at h
    exact (right_closest_iff_unwrapped h).mpr hboth.2

end Answers

def MemoInv (t : AddrTable) (s : State) : Prop :=
  ∀ addr r, s.symHash addr = some r → ∃ rel, Closest t rel r

theorem MemoInv.step {t : AddrTable} {s : State} (h : MemoInv t s) (c : Call) :
    MemoInv t (step t s c) := by
  cases c with
  | setAddr addr elfLoadAddr => exact h
  | lookup addr =>
    simp only [SymbolTable.step, lookupSymbol]
    split_ifs
    · exact h
    · cases hmemo : s.symHash addr with
      | some r => exact h
      | none =>
        have hspec := searchAddr_spec t (getRelativeAddr s addr)
        cases hsearch : searchAddr t (getRelativeAddr s addr) with
        | none => exact h
        | some r =>
          rw [hsearch] at hspec
          intro addr' r' hr'
          simp only [Function.update_apply] at hr'
          split_ifs at hr'
          · cases hr'
            exact ⟨_, hspec⟩
          · exact h addr' r' hr'

theorem lookup_right_iff {t : AddrTable} {s : State} (h : MemoInv t s) (addr : UInt64) :
    Right t s addr (lookupSymbol t s addr).1 ↔ LookupOk t s addr := by
  unfold lookupSymbol LookupOk
  by_cases hlow : addr < s.addr
  · simp only [hlow, true_or, if_true]
    exact Iff.rfl
  · by_cases hempty : t.symbols = []
    · have hnone : ∀ sym, sym ∉ t.symbols := fun sym => hempty ▸ List.not_mem_nil
      simp only [hlow, hempty, or_true, if_true, if_false]
      refine iff_of_true (fun sym hsym => absurd hsym (hnone sym)) ⟨fun r hr => ?_, Or.inr ?_⟩
      · obtain ⟨rel, hclosest⟩ := h addr r hr
        exact absurd hclosest.mem (hnone _)
      · exact fun sym hsym => absurd hsym (hnone sym)
    · simp only [hlow, hempty, or_self, if_false]
      cases hmemo : s.symHash addr with
      | some r =>
        obtain ⟨rel, hr⟩ := h addr r hmemo
        simp only [right_cached_iff hr, Option.some.injEq, forall_eq']
      | none =>
        rw [← right_search_iff]
        cases searchAddr t (getRelativeAddr s addr) <;> simp

def CallRight (t : AddrTable) (s : State) : Call → Prop
  | .lookup addr => Right t s addr (lookupSymbol t s addr).1
  | .setAddr .. => True

def CallOk (t : AddrTable) (s : State) : Call → Prop
  | .lookup addr => LookupOk t s addr
  | .setAddr .. => True

theorem lookups_right_iff (t : AddrTable) (addr upper adjust : UInt64) (calls : List Call) :
    Along (step t) (CallRight t) (.fresh addr upper adjust) calls ↔
      Along (step t) (CallOk t) (.fresh addr upper adjust) calls := by
  refine along_iff_of_invariant (MemoInv t) ?_ (fun s c h _ => h.step c) ?_ calls
  · intro s c h
    cases c with
    | lookup addr => exact lookup_right_iff h addr
    | setAddr addr elfLoadAddr => exact Iff.rfl
  · intro addr r hr
    cases hr

def oneSymbol : AddrTable where
  symbols := [⟨[102], 0x1000, true⟩]
  sorted := List.pairwise_singleton _ _
  nonzero := by decide

theorem stale_answer_after_set_addr :
    ¬Along (step oneSymbol) (CallRight oneSymbol) (.fresh 0 0x5000 0)
      [.lookup 0x1000, .setAddr 0x1000 0, .lookup 0x1000] := by
  intro hrun
  obtain ⟨-, -, h, -⟩ := hrun
  have hsearch : searchAddr oneSymbol 0x1000 = some ⟨⟨[102], 0x1000, true⟩, 0⟩ := by
    simp [searchAddr, lowerBound, oneSymbol]
  have hfirst : step oneSymbol (.fresh 0 0x5000 0) (.lookup 0x1000) =
      ⟨0, 0x5000, 0, Function.update (fun _ => none) 0x1000
        (some ⟨⟨[102], 0x1000, true⟩, 0⟩)⟩ := by
    have hne : oneSymbol.symbols ≠ [] := by decide
    simp [step, lookupSymbol, State.fresh, getRelativeAddr, hne, hsearch, symbolAddr]
  rw [hfirst] at h
  have hlate : current (setAddr ⟨0, 0x5000, 0, Function.update (fun _ => none) 0x1000
      (some ⟨⟨[102], 0x1000, true⟩, 0⟩)⟩ 0x1000 0) ⟨[102], 0x1000, true⟩ ≤ 0x1000 := h.2.1
  exact absurd hlate (by decide)

end ZeroBugs.Symbolz.SymbolTable
