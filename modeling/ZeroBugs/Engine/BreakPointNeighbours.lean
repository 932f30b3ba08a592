import ZeroBugs.Engine.BreakPointSoundness

/-! # Breakpoints closer than a word -/
namespace ZeroBugs.Engine.BreakPoint
open Lib.Runs

variable {ι : Type}

structure ByteAgree (orig : Mem) (s : System ι) : Prop where
  trap_iff : ∀ i, s.mgr.mem (s.objs i).addr = x86BreakOpcode ↔ s.On i
  other : ∀ x, (∀ i, s.On i → x ≠ (s.objs i).addr) → s.mgr.mem x = orig x

/-- The counts, and for each object that has reached the manager which objects
were enabled when it first did. -/
structure History (ι : Type) where
  count : ι → Int
  first : ι → Option (ι → Bool)

def History.start : History ι := ⟨fun _ => 0, fun _ => none⟩

def History.on (g : History ι) (i : ι) : Bool := decide (0 < g.count i)

def History.seen (g : History ι) (i : ι) : ι → Bool := (g.first i).getD g.on

def History.step [DecidableEq ι] (g : History ι) (c : Call ι) : History ι where
  count := Function.update g.count c.obj (c.count (g.count c.obj))
  first := if c.Reaches g.count then Function.update g.first c.obj (some (g.seen c.obj))
    else g.first

/-- If a call switches an object, the other objects inside its word are on or off as they were when
the word was saved. -/
def Undisturbed (addr : ι → Nat) (g : History ι) (c : Call ι) : Prop :=
  c.Reaches g.count → ∀ j, addr c.obj < addr j → addr j < addr c.obj + wordSize →
    g.seen c.obj j = g.on j

open Classical in
/-- The original code with a trap byte for each object of `on`. -/
noncomputable def patched (orig : Mem) (addr : ι → Nat) (on : ι → Bool) : Mem := fun x =>
  if ∃ j, addr j = x ∧ on j = true then x86BreakOpcode else orig x

section Patched

variable {orig : Mem} {addr : ι → Nat} {on on' : ι → Bool} {x : Nat}

theorem patched_congr (h : ∀ j, addr j = x → on j = on' j) :
    patched orig addr on x = patched orig addr on' x := by
  have : (∃ j, addr j = x ∧ on j = true) ↔ ∃ j, addr j = x ∧ on' j = true :=
    exists_congr fun j => and_congr_right fun hj => by rw [h j hj]
  classical exact if_congr this rfl rfl

theorem patched_other (h : ∀ j, on j = true → x ≠ addr j) : patched orig addr on x = orig x :=
  if_neg fun ⟨j, hj, ho⟩ => h j ho hj.symm

theorem patched_at (inj : Function.Injective addr) (i : ι) :
    patched orig addr on (addr i) = if on i then x86BreakOpcode else orig (addr i) := by
  have : (∃ j, addr j = addr i ∧ on j = true) ↔ on i = true :=
    ⟨fun ⟨j, hj, ho⟩ => inj hj ▸ ho, fun h => ⟨i, rfl, h⟩⟩
  classical exact if_congr this rfl rfl

theorem patched_at_eq_trap (inj : Function.Injective addr) (no_trap : ∀ x, orig x ≠ x86BreakOpcode)
    (i : ι) : patched orig addr on (addr i) = x86BreakOpcode ↔ on i = true := by
  rw [patched_at inj]
  cases on i <;> simp [no_trap]

theorem readWord_patched_ne_zero {a : Nat} (h : readWord orig a ≠ 0) :
    readWord (patched orig addr on) a ≠ 0 := by
  intro h0
  apply h
  funext k
  have hk : patched orig addr on (a + k) = 0 := congrFun h0 k
  unfold patched at hk
  split at hk
  · exact absurd hk (by decide)
  · exact hk

theorem writeWord_patched [DecidableEq ι] (inj : Function.Injective addr) {seen : ι → Bool}
    {i : ι} (hi : seen i = false) (e : Bool)
    (hn : ∀ j, addr i < addr j → addr j < addr i + wordSize → seen j = on j) :
    writeWord (patched orig addr on) (addr i)
        (pokedWord e (readWord (patched orig addr seen) (addr i))) =
      patched orig addr (Function.update on i e) := by
  funext x
  by_cases hin : x < addr i ∨ addr i + wordSize ≤ x
  · rw [writeWord_outside _ _ _ hin]
    refine patched_congr fun j hj => (Function.update_of_ne ?_ e on).symm
    rintro rfl
    have : 0 < wordSize := by decide
    omega
  · obtain ⟨k, rfl⟩ : ∃ k : Fin wordSize, x = addr i + k :=
      ⟨⟨x - addr i, by omega⟩, by simp only; omega⟩
    rw [writeWord_inside]
    by_cases hk : k.val = 0
    · -- the object's own byte
      rw [hk, Nat.add_zero, patched_at inj, Function.update_self]
      cases e with
      | true => simp [pokedWord, x86GetBreakpointOpcode, hk]
      | false =>
        simp [pokedWord, readWord_apply, hk, patched_at inj, hi]
    · have hword : pokedWord e (readWord (patched orig addr seen) (addr i)) k =
          patched orig addr seen (addr i + k) := by
        cases e <;> simp [pokedWord, x86GetBreakpointOpcode, hk, readWord_apply]
      rw [hword]
      refine patched_congr fun j hj => ?_
      have hne : j ≠ i := by
        rintro rfl
        omega
      rw [Function.update_of_ne hne]
      exact hn j (by omega) (by have := k.isLt; omega)

theorem writeWord_patched_neighbour (inj : Function.Injective addr)
    (no_trap : ∀ x, orig x ≠ x86BreakOpcode) {seen : ι → Bool} {m : Mem} {i j : ι} (e : Bool)
    (hlt : addr i < addr j) (hin : addr j < addr i + wordSize) :
    writeWord m (addr i) (pokedWord e (readWord (patched orig addr seen) (addr i))) (addr j) =
      x86BreakOpcode ↔ seen j = true := by
  obtain ⟨k, hk⟩ : ∃ k : Fin wordSize, addr j = addr i + k :=
    ⟨⟨addr j - addr i, by omega⟩, by simp only; omega⟩
  have hk0 : k.val ≠ 0 := by omega
  rw [← patched_at_eq_trap inj no_trap, hk, writeWord_inside]
  cases e <;> simp [pokedWord, x86GetBreakpointOpcode, hk0, readWord_apply]

end Patched

/-- Along a run memory is the patched code for the objects that are on, and a
saved word is a word of the patched code for the objects `seen`. -/
structure NeighbourInv (orig : Mem) (addr : ι → Nat) (s : System ι) (g : History ι) : Prop where
  addr_eq : ∀ i, (s.objs i).addr = addr i
  live : ∀ i, (s.objs i).mgr = true
  count : ∀ i, g.count i = (s.objs i).enable
  flag : ∀ i, (s.mgr.map (addr i)).enabled = g.on i
  unsaved : ∀ i, g.first i = none → (s.mgr.map (addr i)).origCode = 0 ∧ g.on i = false
  saved : ∀ i f, g.first i = some f →
    (s.mgr.map (addr i)).origCode = readWord (patched orig addr f) (addr i) ∧ f i = false
  mem : s.mgr.mem = patched orig addr g.on

section Neighbours

variable {orig : Mem} {addr : ι → Nat} {s t : System ι} {g : History ι}

theorem NeighbourInv.fresh (orig : Mem) (thread : ι → Thread) (addr : ι → Nat) :
    NeighbourInv orig addr (System.fresh orig thread addr) History.start where
  addr_eq _ := rfl
  live _ := rfl
  count _ := rfl
  flag _ := rfl
  unsaved _ _ := ⟨rfl, rfl⟩
  saved _ _ h := by cases h
  mem := funext fun _ => (patched_other fun _ h => by simp [History.on, History.start] at h).symm

section

variable (h : NeighbourInv orig addr s g)
include h

theorem NeighbourInv.on_iff (i : ι) :
    s.On i ↔ g.on i = true := by
  simp [System.On, History.on, h.count]

theorem NeighbourInv.reaches_iff (c : Call ι) :
    s.Reaches c ↔ c.Reaches g.count := by
  cases c <;> simp [System.Reaches, Call.Reaches, h.count]

theorem NeighbourInv.seen_self (i : ι) : g.seen i i = false := by
  unfold History.seen
  cases hf : g.first i with
  | none => exact (h.unsaved i hf).2
  | some f => exact (h.saved i f hf).2

theorem NeighbourInv.saved_eq
    (nonzero : ∀ i, readWord orig (addr i) ≠ 0) (i : ι) :
    s.mgr.saved (addr i) = readWord (patched orig addr (g.seen i)) (addr i) := by
  unfold Manager.saved History.seen
  cases hf : g.first i with
  | none => rw [if_pos (h.unsaved i hf).1, h.mem]; rfl
  | some f =>
    rw [(h.saved i f hf).1, if_neg (readWord_patched_ne_zero (nonzero i))]
    rfl

theorem NeighbourInv.consistent
    (nonzero : ∀ i, readWord orig (addr i) ≠ 0) (i : ι)
    (h0 : (s.mgr.map (s.objs i).addr).origCode = 0) :
    (s.mgr.map (s.objs i).addr).enabled = false := by
  rw [h.addr_eq i] at h0 ⊢
  cases hf : g.first i with
  | none => rw [h.flag, (h.unsaved i hf).2]
  | some f =>
    exact absurd ((h.saved i f hf).1.symm.trans h0) (readWord_patched_ne_zero (nonzero i))

theorem NeighbourInv.agree (inj : Function.Injective addr)
    (no_trap : ∀ x, orig x ≠ x86BreakOpcode) : ByteAgree orig s := by
  refine ⟨fun i => ?_, fun x hx => ?_⟩
  · rw [h.mem, h.addr_eq, h.on_iff, patched_at_eq_trap inj no_trap]
  · rw [h.mem]
    refine patched_other fun j hj => ?_
    rw [← h.addr_eq]
    exact hx j ((h.on_iff j).mpr hj)

end

theorem History.onOff_ne (g : History ι) (c : Call ι) (hr : c.Reaches g.count) :
    c.onOff ≠ g.on c.obj := by
  cases c <;> simp_all [Call.Reaches, History.on, Call.obj, Call.onOff]

variable [DecidableEq ι]

theorem History.step_on_quiet (g : History ι) (c : Call ι) (hq : ¬c.Reaches g.count) :
    (g.step c).on = g.on := by
  funext j
  by_cases hj : j = c.obj
  · subst hj
    refine decide_eq_decide.mpr ?_
    cases c <;> simp only [Call.Reaches, History.step, Call.count, Call.obj,
      Function.update_self] at hq ⊢ <;> omega
  · simp [History.on, History.step, hj]

theorem History.step_on_reaches (g : History ι) (c : Call ι) (hr : c.Reaches g.count) :
    (g.step c).on = Function.update g.on c.obj c.onOff := by
  funext j
  by_cases hj : j = c.obj
  · cases c <;> simp_all [Call.Reaches, History.on, History.step, Call.count, Call.obj, Call.onOff]
  · simp [History.on, History.step, hj]

theorem NeighbourInv.reaches (h : NeighbourInv orig addr s g)
    (nonzero : ∀ i, readWord orig (addr i) ≠ 0) {c : Call ι} (hspec : StepSpec s t c)
    (hr : c.Reaches g.count) :
    t.mgr = { map := Function.update s.mgr.map (addr c.obj)
                { origCode := readWord (patched orig addr (g.seen c.obj)) (addr c.obj)
                  enabled := c.onOff }
              mem := writeWord (patched orig addr g.on) (addr c.obj) (pokedWord c.onOff
                (readWord (patched orig addr (g.seen c.obj)) (addr c.obj))) } := by
  have hs := h.saved_eq nonzero c.obj
  have hne : s.mgr.saved (addr c.obj) ≠ 0 := hs ▸ readWord_patched_ne_zero (nonzero c.obj)
  rw [hspec.reaches ((h.reaches_iff c).mpr hr), h.addr_eq, Manager.request_eq _ _ _ hne, hs,
    h.flag, if_neg (g.onOff_ne c hr), h.mem]

theorem NeighbourInv.count_step (h : NeighbourInv orig addr s g) {c : Call ι}
    (hspec : StepSpec s t c) (i : ι) : (g.step c).count i = (t.objs i).enable := by
  rw [hspec.count i, ← h.count i]
  by_cases hi : i = c.obj
  · subst hi; simp [History.step]
  · simp [History.step, hi]

theorem NeighbourInv.step_reaches (h : NeighbourInv orig addr s g)
    (inj : Function.Injective addr) (nonzero : ∀ i, readWord orig (addr i) ≠ 0) {c : Call ι}
    (hspec : StepSpec s t c) (hr : c.Reaches g.count) (hok : Undisturbed addr g c) :
    NeighbourInv orig addr t (g.step c) := by
  have hm := h.reaches nonzero hspec hr
  have hfirst : (g.step c).first =
      Function.update g.first c.obj (some (g.seen c.obj)) := if_pos hr
  have hmap : ∀ i, i ≠ c.obj → t.mgr.map (addr i) = s.mgr.map (addr i) := by
    intro i hi
    rw [hm]
    exact Function.update_of_ne (inj.ne hi) ..
  have hself : t.mgr.map (addr c.obj) =
      { origCode := readWord (patched orig addr (g.seen c.obj)) (addr c.obj)
        enabled := c.onOff } := by
    rw [hm]
    exact Function.update_self ..
  refine ⟨fun i => (hspec.addr i).trans (h.addr_eq i), fun i => (hspec.live i).trans (h.live i),
    h.count_step hspec, fun i => ?_, fun i hi => ?_, fun i f hf => ?_, ?_⟩
  · rw [g.step_on_reaches c hr]
    by_cases hi : i = c.obj
    · rw [hi, hself, Function.update_self]
    · rw [hmap i hi, Function.update_of_ne hi, h.flag]
  · rw [hfirst] at hi
    rw [g.step_on_reaches c hr]
    by_cases hc : i = c.obj
    · rw [hc, Function.update_self] at hi
      cases hi
    · rw [Function.update_of_ne hc] at hi
      rw [hmap i hc, Function.update_of_ne hc]
      exact h.unsaved i hi
  · rw [hfirst] at hf
    by_cases hc : i = c.obj
    · rw [hc, Function.update_self] at hf
      cases hf
      rw [hc, hself]
      exact ⟨rfl, h.seen_self c.obj⟩
    · rw [Function.update_of_ne hc] at hf
      rw [hmap i hc]
      exact h.saved i f hf
  · rw [hm, g.step_on_reaches c hr]
    exact writeWord_patched inj (h.seen_self c.obj) c.onOff (hok hr)

theorem NeighbourInv.step {d : Debuggee} (hd : d.Accessible) (h : NeighbourInv orig addr s g)
    (inj : Function.Injective addr) (nonzero : ∀ i, readWord orig (addr i) ≠ 0) (c : Call ι)
    (hok : Undisturbed addr g c) : NeighbourInv orig addr (s.step d c) (g.step c) := by
  have hspec := step_spec hd s c h.live (h.consistent nonzero)
  by_cases hr : c.Reaches g.count
  · exact h.step_reaches inj nonzero hspec hr hok
  · have hm := hspec.quiet fun hs => hr ((h.reaches_iff c).mp hs)
    have hfirst : (g.step c).first = g.first := if_neg hr
    have hon := g.step_on_quiet c hr
    refine ⟨fun i => (hspec.addr i).trans (h.addr_eq i), fun i => (hspec.live i).trans (h.live i),
      h.count_step hspec, ?_, ?_, ?_, ?_⟩ <;> rw [hm]
    · rw [hon]; exact h.flag
    · rw [hon, hfirst]; exact h.unsaved
    · rw [hfirst]; exact h.saved
    · rw [hon]; exact h.mem

theorem NeighbourInv.undisturbed {d : Debuggee} (hd : d.Accessible)
    (h : NeighbourInv orig addr s g) (inj : Function.Injective addr)
    (no_trap : ∀ x, orig x ≠ x86BreakOpcode) (nonzero : ∀ i, readWord orig (addr i) ≠ 0)
    (c : Call ι) (hagree : ByteAgree orig (s.step d c)) : Undisturbed addr g c := by
  have hspec := step_spec hd s c h.live (h.consistent nonzero)
  intro hr j hlt hin
  have htrap := hagree.trap_iff j
  have hne : j ≠ c.obj := by
    rintro rfl
    exact lt_irrefl _ hlt
  rw [hspec.addr, h.addr_eq, h.reaches nonzero hspec hr,
    writeWord_patched_neighbour inj no_trap _ hlt hin,
    hspec.on_reaches ((h.reaches_iff c).mpr hr), if_neg hne, h.on_iff] at htrap
  exact Bool.eq_iff_iff.mpr htrap

theorem neighbours_undisturbed_iff {d : Debuggee} (hd : d.Accessible)
    (inj : Function.Injective addr) (no_trap : ∀ x, orig x ≠ x86BreakOpcode)
    (nonzero : ∀ i, readWord orig (addr i) ≠ 0) (thread : ι → Thread) (calls : List (Call ι)) :
    After (System.step d) (ByteAgree orig) (System.fresh orig thread addr) calls ↔
      Along History.step (Undisturbed addr) History.start calls := by
  unfold After
  rw [← along_both_fst (g := History.step) (System.fresh orig thread addr, History.start),
    ← along_both_snd (f := System.step d) (System.fresh orig thread addr, History.start)]
  refine along_iff_of_invariant (fun p => NeighbourInv orig addr p.1 p.2) ?_ ?_
    (NeighbourInv.fresh orig thread addr) calls
  · intro p c h
    refine ⟨h.undisturbed hd inj no_trap nonzero c, fun hok => ?_⟩
    exact (h.step hd inj nonzero c hok).agree inj no_trap
  · intro p c h hok
    exact h.step hd inj nonzero c hok

end Neighbours

def adjacent : System (Fin 2) := System.fresh nops (fun _ => ⟨1, 1, false⟩) fun i => i

theorem neighbours_undisturbed_iff_adjacent :
    After (System.step plainDebuggee) (ByteAgree nops) adjacent
      [.enable 0, .disable 0, .enable 1, .disable 1, .enable 0] :=
  (neighbours_undisturbed_iff plainDebuggee_accessible Fin.val_injective
    (fun x => show (0x90 : UInt8) ≠ 0xCC by decide) (fun i => by revert i; decide) _ _).mpr
    (by unfold Undisturbed; decide)

theorem disable_erases_neighbour_trap :
    ¬After (System.step plainDebuggee) (ByteAgree nops) adjacent
      [.enable 0, .enable 1, .disable 0] := by
  rintro ⟨-, -, h, -⟩
  have htrap := (h.trap_iff 1).mpr (by unfold System.On; decide)
  exact absurd htrap (by decide)

end ZeroBugs.Engine.BreakPoint
