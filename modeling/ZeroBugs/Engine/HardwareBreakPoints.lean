import ZeroBugs.Engine.EnableCounting
import ZeroBugs.Target.DebugRegs

/-! # Hardware breakpoints and the debug registers -/
namespace ZeroBugs.Engine.HardwareBreakPoints
open Lib.Runs Target.DebugRegs List

/-- `HardwareBreakPoint`. `listed` says that the manager has it, among the breakpoints of
the thread or the watchpoints. -/
structure HardwareBreakPoint where
  register : Register
  addr : Word
  global : Bool
  cond : Condition
  len : Length
  base : EnableCounting.BreakPointBase
  listed : Bool

structure State where
  regs : DebugRegs386
  live : List HardwareBreakPoint

/-- `set` is made by `create_breakpoint`, with the count 1, and `set_watchpoint`, with 0. The other
calls are on the holder of a register. -/
inductive Call where
  | set (addr : Word) (global : Bool) (cond : Condition) (len : Length) (count : Int)
      (listed : Bool)
  | switch (onOff : Bool) (r : Register)
  | clear (r : Register)

def HardwareBreakPoint.count (r : Register) (c : EnableCounting.Call) (b : HardwareBreakPoint) :
    HardwareBreakPoint :=
  if b.register = r then { b with base := EnableCounting.step b.base c } else b

namespace State

variable (s : State)

def hardwareBreakpointCount : Nat := s.live.countP (·.listed)

def setHardwareBreakpoint (addr : Word) (global : Bool) (cond : Condition) (len : Length) :
    Option (Register × DebugRegs386) :=
  if s.hardwareBreakpointCount < DebugRegs386.maxSize cond then
    s.regs.setBreakpoint addr global cond len
  else none

def switch (onOff : Bool) (b : HardwareBreakPoint) : State :=
  let c : EnableCounting.Call := ⟨onOff, .succeeds⟩
  { regs := if c.Transition b.base then s.regs.enable b.register onOff b.global b.cond b.len
      else s.regs
    live := s.live.map (·.count b.register c) }

def step : Call → State
  | .set addr global cond len count listed =>
    match s.setHardwareBreakpoint addr global cond len with
    | none => s
    | some (r, regs) =>
      { regs := regs
        live := ⟨r, addr, global, cond, len, ⟨count, []⟩, listed⟩ :: s.live }
  | .switch onOff r =>
    match s.live.find? (·.register = r) with
    | none => s
    | some b => s.switch onOff b
  | .clear r =>
    if ∃ b ∈ s.live, b.register = r then
      { regs := s.regs.clear r, live := s.live.filter (·.register ≠ r) }
    else s

def new : State := ⟨.new, []⟩

def Holds (r : Register) : Prop := ∃ b ∈ s.live, b.register = r
  deriving Decidable

end State

/-- The breakpoints hold different registers, with their addresses in them; the other
registers are zero. -/
structure Allocated (s : State) : Prop where
  distinct : (s.live.map (·.register)).Nodup
  held : ∀ b ∈ s.live, s.regs.reg b.register = b.addr ∧
    s.regs.debugreg (slot b.register) = b.addr
  free : ∀ r, ¬s.Holds r → s.regs.reg r = 0 ∧ s.regs.debugreg (slot r) = 0

def Call.on : Call → Option Register
  | .set .. => none
  | .switch _ r => some r
  | .clear r => some r

structure RegistersKept (s : State) (c : Call) : Prop where
  allocated : Allocated (s.step c)
  succeeds : ∀ addr global cond len count listed, c = .set addr global cond len count listed →
    s.live.length < 4 → s.hardwareBreakpointCount < DebugRegs386.maxSize cond →
    (s.setHardwareBreakpoint addr global cond len).isSome
  unchanged : ∀ b ∈ s.live, c.on ≠ some b.register → Unchanged s.regs (s.step c).regs b.register

def Call.Allowed (s : State) : Call → Prop
  | .set addr .. => addr ≠ 0
  | .switch _ r => s.Holds r
  | .clear r => s.Holds r

instance (s : State) : (c : Call) → Decidable (c.Allowed s)
  | .set addr .. => inferInstanceAs (Decidable (addr ≠ 0))
  | .switch _ r => inferInstanceAs (Decidable (s.Holds r))
  | .clear r => inferInstanceAs (Decidable (s.Holds r))

def Full (c : Condition) : Prop := c = .any ∨ c = .dataReadWrite
  deriving Decidable

/-- A breakpoint with `BREAK_ON_ANY` is set, in the first free register, or switched on, only if
those in registers above have all bits of the condition set already. -/
def Call.Contained (s : State) : Call → Prop
  | .set _ _ cond .. => cond = .any →
    ∀ b ∈ s.live, (∃ r < b.register, ¬s.Holds r) → Full b.cond
  | .switch onOff r => ∀ a ∈ s.live, a.register = r → onOff = true → a.base.enable = 0 →
    a.cond = .any → ∀ b ∈ s.live, r < b.register → Full b.cond
  | .clear _ => True

instance (s : State) : (c : Call) → Decidable (c.Contained s)
  | .set _ _ cond .. => inferInstanceAs (Decidable (cond = .any →
      ∀ b ∈ s.live, (∃ r < b.register, ¬s.Holds r) → Full b.cond))
  | .switch onOff r => inferInstanceAs (Decidable (∀ a ∈ s.live, a.register = r →
      onOff = true → a.base.enable = 0 → a.cond = .any →
        ∀ b ∈ s.live, r < b.register → Full b.cond))
  | .clear _ => isTrue trivial

theorem bits_eq_three_iff (c : Condition) : c.bits = 3 ↔ Full c := by
  cases c <;> simp [Full, Condition.bits, Condition.value, toReg]

structure Inv (s : State) : Prop extends Allocated s where
  synced : s.regs.Synced
  nonzero : ∀ b ∈ s.live, b.addr ≠ 0
  condition : ∀ b ∈ s.live, getCondition (s.regs.debugreg 7) b.register = b.cond.bits

theorem inv_new : Inv .new where
  distinct := nodup_nil
  held := nofun
  free _ _ := ⟨rfl, rfl⟩
  synced := rfl
  nonzero := nofun
  condition := nofun

section Invariant

variable {s : State}

theorem holds_iff_mem (r : Register) : s.Holds r ↔ r ∈ s.live.map (·.register) := by
  simp [State.Holds]

theorem Inv.reg_eq_zero_iff (h : Inv s) (r : Register) : s.regs.reg r = 0 ↔ ¬s.Holds r := by
  refine ⟨?_, fun hr => (h.free r hr).1⟩
  rintro hzero ⟨b, hb, rfl⟩
  exact h.nonzero b hb ((h.held b hb).1.symm.trans hzero)

theorem Allocated.holds_of_length (h : Allocated s) (hlen : 4 ≤ s.live.length) (r : Register) :
    s.Holds r := by
  rw [holds_iff_mem]
  have hcard : (s.live.map (·.register)).toFinset.card = Fintype.card Register := by
    apply le_antisymm (Finset.card_le_univ _)
    rw [toFinset_card_of_nodup h.distinct, length_map, Fintype.card_fin]
    exact hlen
  have huniv := Finset.eq_univ_of_card _ hcard
  exact List.mem_toFinset.mp (huniv ▸ Finset.mem_univ r)

theorem length_of_holds (h : ∀ r, s.Holds r) : 4 ≤ s.live.length := by
  have hsub : List.finRange 4 ⊆ s.live.map (·.register) := fun r _ => (holds_iff_mem r).mp (h r)
  have hle := (nodup_finRange 4).length_le_of_subset hsub
  rwa [length_finRange, length_map] at hle

theorem Allocated.unique (h : Allocated s) {a b : HardwareBreakPoint} (ha : a ∈ s.live)
    (hb : b ∈ s.live) (heq : a.register = b.register) : a = b :=
  inj_on_of_nodup_map h.distinct ha hb heq

end Invariant

section Set

variable {s : State} {addr : Word} {global : Bool} {cond : Condition} {len : Length}

theorem Inv.holds_of_none (h : Inv s)
    (hset : s.setHardwareBreakpoint addr global cond len = none) (r : Register) : s.Holds r := by
  unfold State.setHardwareBreakpoint at hset
  split at hset
  · have hnone := available_none (Option.map_eq_none_iff.mp hset) r
    by_contra hr
    exact hnone ((h.reg_eq_zero_iff r).mpr hr)
  · rename_i hcount
    have hle : s.hardwareBreakpointCount ≤ s.live.length := countP_le_length
    have hmax : 4 ≤ s.hardwareBreakpointCount := not_lt.mp hcount
    exact h.holds_of_length (hmax.trans hle) r

theorem Inv.set_succeeds (h : Inv s) (hlen : s.live.length < 4) :
    (s.setHardwareBreakpoint addr global cond len).isSome := by
  rw [Option.isSome_iff_ne_none]
  intro hnone
  exact absurd (length_of_holds (h.holds_of_none hnone)) (not_le.mpr hlen)

variable {r : Register} {regs : DebugRegs386}

theorem Inv.set_first (h : Inv s)
    (hset : s.setHardwareBreakpoint addr global cond len = some (r, regs)) :
    ¬s.Holds r ∧ ∀ q < r, s.Holds q := by
  obtain ⟨havail, -⟩ := setBreakpoint_spec h.synced (Option.ite_none_right_eq_some.mp hset).2
  obtain ⟨hzero, hbefore⟩ := available_some havail
  refine ⟨(h.reg_eq_zero_iff r).mp hzero, fun q hq => ?_⟩
  by_contra hfree
  exact hbefore q hq ((h.reg_eq_zero_iff q).mpr hfree)

section

variable (h : Inv s) (count : Int) (listed : Bool)
  (hset : s.setHardwareBreakpoint addr global cond len = some (r, regs))
include h hset

theorem Inv.set_unchanged_iff :
    (∀ b ∈ s.live, Unchanged s.regs regs b.register) ↔
      (Call.set addr global cond len count listed).Contained s := by
  obtain ⟨hfree, hbefore⟩ := h.set_first hset
  obtain ⟨-, -, -, -, -, -, hsame⟩ :=
    setBreakpoint_spec h.synced (Option.ite_none_right_eq_some.mp hset).2
  have hother : ∀ b ∈ s.live, b.register ≠ r := fun b hb heq => hfree ⟨b, hb, heq⟩
  constructor
  · rintro hall hany b hb ⟨q, hq, hqfree⟩
    rw [← bits_eq_three_iff, ← h.condition b hb]
    have hle : r ≤ q := not_lt.mp fun hlt => hqfree (hbefore q hlt)
    exact (hsame _ (hother b hb)).mp (hall b hb) hany (hle.trans_lt hq)
  · intro hcontained b hb
    refine (hsame _ (hother b hb)).mpr fun hany hlt => ?_
    rw [h.condition b hb, bits_eq_three_iff]
    exact hcontained hany b hb ⟨r, hlt, hfree⟩

theorem Inv.set_allocated :
    Allocated ⟨regs, ⟨r, addr, global, cond, len, ⟨count, []⟩, listed⟩ :: s.live⟩ := by
  obtain ⟨hfree, -⟩ := h.set_first hset
  obtain ⟨-, -, hreg, hslot, -, hother, -⟩ :=
    setBreakpoint_spec h.synced (Option.ite_none_right_eq_some.mp hset).2
  refine ⟨?_, ?_, ?_⟩
  · exact nodup_cons.mpr ⟨fun hmem => hfree ((holds_iff_mem r).mpr hmem), h.distinct⟩
  · intro b hb
    rcases mem_cons.mp hb with rfl | hb
    · exact ⟨hreg, hslot⟩
    · obtain ⟨hkept, hkeptSlot⟩ := hother b.register fun heq => hfree ⟨b, hb, heq⟩
      rw [hkept, hkeptSlot]
      exact h.held b hb
  · intro q hq
    have hne : q ≠ r := fun heq => hq ⟨_, mem_cons_self, heq.symm⟩
    obtain ⟨hkept, hkeptSlot⟩ := hother q hne
    rw [hkept, hkeptSlot]
    exact h.free q fun ⟨b, hb, heq⟩ => hq ⟨b, mem_cons_of_mem _ hb, heq⟩

end

theorem Inv.set_inv (h : Inv s) (haddr : addr ≠ 0) (count : Int) (listed : Bool)
    (hset : s.setHardwareBreakpoint addr global cond len = some (r, regs))
    (hsame : ∀ b ∈ s.live, Unchanged s.regs regs b.register) :
    Inv ⟨regs, ⟨r, addr, global, cond, len, ⟨count, []⟩, listed⟩ :: s.live⟩ := by
  obtain ⟨-, hsynced, -, -, hcond, -, -⟩ :=
    setBreakpoint_spec h.synced (Option.ite_none_right_eq_some.mp hset).2
  refine { h.set_allocated count listed hset with
    synced := hsynced, nonzero := ?_, condition := ?_ }
  · intro b hb
    rcases mem_cons.mp hb with rfl | hb
    · exact haddr
    · exact h.nonzero b hb
  · intro b hb
    rcases mem_cons.mp hb with rfl | hb
    · exact hcond
    · exact (hsame b hb).condition.trans (h.condition b hb)

theorem Inv.set (h : Inv s) {count : Int} {listed : Bool} (haddr : addr ≠ 0) :
    let c : Call := .set addr global cond len count listed
    (RegistersKept s c ↔ c.Contained s) ∧ (c.Contained s → Inv (s.step c)) := by
  intro c
  have hsucceeds : ∀ addr global cond len count listed,
      c = .set addr global cond len count listed → s.live.length < 4 →
      s.hardwareBreakpointCount < DebugRegs386.maxSize cond →
      (s.setHardwareBreakpoint addr global cond len).isSome :=
    fun _ _ _ _ _ _ _ hlen _ => h.set_succeeds hlen
  cases hset : s.setHardwareBreakpoint addr global cond len with
  | none =>
    have hstep : s.step c = s := by simp only [c, State.step, hset]
    have hcontained : c.Contained s :=
      fun _ b _ ⟨q, _, hfree⟩ => absurd (h.holds_of_none hset q) hfree
    refine ⟨iff_of_true ⟨hstep.symm ▸ h.toAllocated, hsucceeds, fun b _ _ => ?_⟩ hcontained,
      fun _ => hstep.symm ▸ h⟩
    rw [hstep]
    exact .refl _ _
  | some p =>
    obtain ⟨r, regs⟩ := p
    have hstep : s.step c =
        ⟨regs, ⟨r, addr, global, cond, len, ⟨count, []⟩, listed⟩ :: s.live⟩ := by
      simp only [c, State.step, hset]
    have hiff := h.set_unchanged_iff count listed hset
    refine ⟨⟨fun hkept => hiff.mp fun b hb => ?_, fun hcontained => ⟨?_, hsucceeds, ?_⟩⟩, ?_⟩
    · have hsame := hkept.unchanged b hb nofun
      rwa [hstep] at hsame
    · rw [hstep]
      exact h.set_allocated count listed hset
    · intro b hb _
      rw [hstep]
      exact hiff.mpr hcontained b hb
    · intro hcontained
      rw [hstep]
      exact h.set_inv haddr count listed hset (hiff.mpr hcontained)

end Set

section Count

variable (r : Register) (c : EnableCounting.Call) (b : HardwareBreakPoint)

@[simp] theorem count_register : (b.count r c).register = b.register := by
  unfold HardwareBreakPoint.count
  split <;> rfl

@[simp] theorem count_addr : (b.count r c).addr = b.addr := by
  unfold HardwareBreakPoint.count
  split <;> rfl

@[simp] theorem count_cond : (b.count r c).cond = b.cond := by
  unfold HardwareBreakPoint.count
  split <;> rfl

end Count

section Switch

variable {s : State} {r : Register}

theorem Inv.count (h : Inv s) (r : Register) (c : EnableCounting.Call) {regs : DebugRegs386}
    (hsynced : regs.Synced) (hreg : regs.reg = s.regs.reg)
    (hslot : ∀ q, regs.debugreg (slot q) = s.regs.debugreg (slot q)) :
    Allocated ⟨regs, s.live.map (·.count r c)⟩ ∧
      ((∀ b ∈ s.live, getCondition (regs.debugreg 7) b.register = b.cond.bits) →
        Inv ⟨regs, s.live.map (·.count r c)⟩) := by
  have halloc : Allocated ⟨regs, s.live.map (·.count r c)⟩ := by
    refine ⟨?_, ?_, ?_⟩
    · simpa [Function.comp_def] using h.distinct
    · intro b hb
      obtain ⟨a, ha, rfl⟩ := mem_map.mp hb
      simpa [hreg, hslot] using h.held a ha
    · intro q hq
      rw [hreg, hslot]
      refine h.free q fun ⟨b, hb, heq⟩ => hq ⟨_, mem_map_of_mem hb, ?_⟩
      rw [count_register, heq]
  refine ⟨halloc, fun hcond => { halloc with synced := hsynced, nonzero := ?_, condition := ?_ }⟩
  · intro b hb
    obtain ⟨a, ha, rfl⟩ := mem_map.mp hb
    simpa using h.nonzero a ha
  · intro b hb
    obtain ⟨a, ha, rfl⟩ := mem_map.mp hb
    simpa using hcond a ha

theorem State.Holds.find (hr : s.Holds r) :
    ∃ b ∈ s.live, b.register = r ∧ s.live.find? (·.register = r) = some b := by
  obtain ⟨a, ha, hreg⟩ := hr
  cases hfind : s.live.find? (·.register = r) with
  | none => exact absurd hreg (by simpa using find?_eq_none.mp hfind a ha)
  | some b => exact ⟨b, mem_of_find?_eq_some hfind, by simpa using find?_some hfind, rfl⟩

variable {b : HardwareBreakPoint} (onOff : Bool)

theorem Inv.switch_contained_iff (h : Inv s) (hb : b ∈ s.live) :
    (Call.switch onOff b.register).Contained s ↔
      (onOff = true → b.base.enable = 0 → b.cond = .any →
        ∀ a ∈ s.live, b.register < a.register → Full a.cond) := by
  constructor
  · intro hcontained
    exact hcontained b hb rfl
  · intro hfull a ha hreg
    rw [h.unique ha hb hreg]
    exact hfull

theorem Inv.switch_unchanged_iff (h : Inv s) (hb : b ∈ s.live) :
    (∀ a ∈ s.live, b.register ≠ a.register → Unchanged s.regs (s.switch onOff b).regs a.register) ↔
      (Call.switch onOff b.register).Contained s := by
  rw [h.switch_contained_iff onOff hb]
  have htransition : (EnableCounting.Call.mk onOff .succeeds).Transition b.base ↔
      b.base.enable = if onOff then 0 else 1 := Iff.rfl
  by_cases ht : (EnableCounting.Call.mk onOff .succeeds).Transition b.base
  · have hregs : (s.switch onOff b).regs =
        s.regs.enable b.register onOff b.global b.cond b.len := if_pos ht
    rw [hregs]
    have hother (a : HardwareBreakPoint) (hne : b.register ≠ a.register) :=
      enable_other h.synced hne.symm onOff b.global b.cond b.len
    constructor
    · intro hall hon _ hany a ha hlt
      rw [← bits_eq_three_iff, ← h.condition a ha]
      exact (hother a (ne_of_lt hlt)).mp (hall a ha (ne_of_lt hlt)) hon hany hlt
    · intro hfull a ha hne
      refine (hother a hne).mpr fun hon hany hlt => ?_
      rw [h.condition a ha, bits_eq_three_iff]
      refine hfull hon ?_ hany a ha hlt
      simpa [hon] using htransition.mp ht
  · have hregs : (s.switch onOff b).regs = s.regs := if_neg ht
    rw [hregs]
    refine iff_of_true (fun a _ _ => .refl _ _) fun hon hzero => absurd ?_ ht
    rw [htransition, if_pos hon, hzero]

theorem Inv.switch_inv (h : Inv s) (hb : b ∈ s.live) :
    Allocated (s.switch onOff b) ∧
      ((∀ a ∈ s.live, b.register ≠ a.register →
        Unchanged s.regs (s.switch onOff b).regs a.register) → Inv (s.switch onOff b)) := by
  let c : EnableCounting.Call := ⟨onOff, .succeeds⟩
  by_cases ht : c.Transition b.base
  · have hstep : s.switch onOff b = ⟨s.regs.enable b.register onOff b.global b.cond b.len,
        s.live.map (·.count b.register c)⟩ := by
      simp only [State.switch]
      rw [if_pos ht]
    rw [hstep]
    obtain ⟨halloc, hinv⟩ :=
      h.count b.register c synced_enable enable_reg fun _ => enable_debugreg
    refine ⟨halloc, fun hsame => hinv fun a ha => ?_⟩
    by_cases hne : b.register = a.register
    · rw [h.unique ha hb hne.symm, enable_condition_self, ← h.synced, h.condition b hb, ite_self]
    · exact (hsame a ha hne).condition.trans (h.condition a ha)
  · have hstep : s.switch onOff b = ⟨s.regs, s.live.map (·.count b.register c)⟩ := by
      simp only [State.switch]
      rw [if_neg ht]
    rw [hstep]
    obtain ⟨halloc, hinv⟩ := h.count b.register c h.synced rfl fun _ => rfl
    exact ⟨halloc, fun _ => hinv h.condition⟩

theorem Inv.switch (h : Inv s) (hr : s.Holds r) :
    let c : Call := .switch onOff r
    (RegistersKept s c ↔ c.Contained s) ∧ (c.Contained s → Inv (s.step c)) := by
  intro c
  obtain ⟨b, hb, rfl, hfind⟩ := hr.find
  have hstep : s.step c = s.switch onOff b := by simp only [c, State.step, hfind]
  have hiff := h.switch_unchanged_iff onOff hb
  obtain ⟨halloc, hinv⟩ := h.switch_inv onOff hb
  refine ⟨⟨fun hkept => hiff.mp fun a ha hne => ?_, fun hcontained => ⟨?_, nofun, ?_⟩⟩, ?_⟩
  · have hsame := hkept.unchanged a ha (by simpa [c, Call.on] using hne)
    rwa [hstep] at hsame
  · rwa [hstep]
  · intro a ha hne
    rw [hstep]
    exact hiff.mpr hcontained a ha (by simpa [c, Call.on] using hne)
  · intro hcontained
    rw [hstep]
    exact hinv (hiff.mpr hcontained)

theorem Inv.clear (h : Inv s) (hr : s.Holds r) :
    RegistersKept s (.clear r) ∧ Inv (s.step (.clear r)) := by
  have hstep : s.step (.clear r) = ⟨s.regs.clear r, s.live.filter (·.register ≠ r)⟩ := if_pos hr
  obtain ⟨hsynced, hreg, hslot, hother⟩ := clear_spec (i := r) h.synced
  have hmem : ∀ b ∈ s.live.filter (·.register ≠ r), b ∈ s.live ∧ b.register ≠ r :=
    fun b hb => by simpa using mem_filter.mp hb
  have halloc : Allocated ⟨s.regs.clear r, s.live.filter (·.register ≠ r)⟩ := by
    refine ⟨?_, ?_, ?_⟩
    · exact h.distinct.sublist (filter_sublist.map _)
    · intro b hb
      obtain ⟨hlive, hne⟩ := hmem b hb
      obtain ⟨hheld, hheldSlot⟩ := h.held b hlive
      exact ⟨(hother _ hne).reg.trans hheld, (hother _ hne).addr.trans hheldSlot⟩
    · intro q hq
      by_cases hqr : q = r
      · subst hqr
        exact ⟨hreg, hslot⟩
      · obtain ⟨hfree, hfreeSlot⟩ := h.free q fun ⟨b, hb, heq⟩ =>
          hq ⟨b, mem_filter.mpr ⟨hb, by simpa [heq] using hqr⟩, heq⟩
        exact ⟨(hother q hqr).reg.trans hfree, (hother q hqr).addr.trans hfreeSlot⟩
  rw [hstep]
  refine ⟨⟨hstep.symm ▸ halloc, nofun, ?_⟩,
    { halloc with synced := hsynced, nonzero := ?_, condition := ?_ }⟩
  · intro b _ hne
    rw [hstep]
    exact hother _ fun heq => hne (congrArg some heq.symm)
  · exact fun b hb => h.nonzero b (hmem b hb).1
  · intro b hb
    obtain ⟨hlive, hne⟩ := hmem b hb
    exact (hother _ hne).condition.trans (h.condition b hlive)

end Switch

theorem Inv.call_iff {s : State} (h : Inv s) {c : Call} (hallowed : c.Allowed s) :
    (RegistersKept s c ↔ c.Contained s) ∧ (c.Contained s → Inv (s.step c)) := by
  cases c with
  | set => exact h.set hallowed
  | switch onOff => exact h.switch onOff hallowed
  | clear =>
    obtain ⟨hkept, hinv⟩ := h.clear hallowed
    exact ⟨iff_of_true hkept trivial, fun _ => hinv⟩

def twoBreakPoints : List Call :=
  [.set 0x1000 false .instruction .oneByte 1 true, .set 0x2000 true .dataWrite .oneByte 0 true,
    .switch false 0, .switch true 0, .clear 0]

end ZeroBugs.Engine.HardwareBreakPoints
