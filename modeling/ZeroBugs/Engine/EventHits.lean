import ZeroBugs.Engine.EventHandling
import ZeroBugs.Engine.ForkReplication

/-! # Breakpoints that were hit -/
namespace ZeroBugs.Engine.BreakPointManager
open List

theorem entry_put (s : Manager) (p q : Place) (b : BreakPointBase) :
    (s.put p b).entry q = if q = p then some b else s.entry q := by
  rw [Manager.entry, Manager.put, map_setMap]
  by_cases hscope : q.1 = p.1
  · rw [hscope, Function.update_self]
    by_cases haddr : q.2 = p.2
    · rw [if_pos (Prod.ext hscope haddr), haddr, AList.lookup_insert]
    · rw [if_neg (fun h => haddr (congrArg Prod.snd h)), AList.lookup_insert_ne haddr,
        Manager.entry, hscope]
  · rw [Function.update_of_ne hscope, if_neg (fun h => hscope (congrArg Prod.fst h)),
      Manager.entry]

theorem entry_modify (s : Manager) (p q : Place) (f : BreakPointBase → BreakPointBase) :
    (s.modify p f).entry q = if q = p then (s.entry p).map f else s.entry q := by
  unfold Manager.modify
  cases h : s.entry p with
  | none =>
    by_cases hq : q = p
    · rw [if_pos hq, hq, h]
      rfl
    · rw [if_neg hq]
  | some b => exact entry_put s p q (f b)

def erasePlace (b : BreakPointBase) : Place := (scopeOf b.type b.thread.lwpid, b.addr)

variable {b : BreakPointBase}

theorem entry_erase (env : Env) (s : Manager) (hactions : b.actions = [])
    (hdef : b.isDeferred = false) (q : Place) : (erase env b s).2.entry q =
      if env.inProcess b.thread = true ∧ q = erasePlace b then none else s.entry q := by
  cases hin : env.inProcess b.thread with
  | false => simp [erase, hactions, hin]
  | true =>
    simp only [erase, hactions, hin, hdef, ne_eq, not_true_eq_false, if_false, true_and,
      Bool.true_eq_false, Bool.false_eq_true, Manager.entry, map_setMap, erasePlace]
    by_cases hscope : q.1 = scopeOf b.type b.thread.lwpid
    · rw [hscope, Function.update_self]
      by_cases haddr : q.2 = b.addr
      · rw [if_pos (Prod.ext hscope haddr), haddr, AList.lookup_erase]
      · rw [if_neg (fun h => haddr (congrArg Prod.snd h)), AList.lookup_erase_ne haddr]
    · rw [Function.update_of_ne hscope, if_neg (fun h => hscope (congrArg Prod.fst h))]

/-- Every action that leaves stands at a position which the list, shortened by those
that left before, still has. -/
def InRange (ev : Event) (id : Nat) : List Action → Nat → Nat → Prop
  | [], _, _ => True
  | action :: rest, d, len =>
    if ev.removes id action d then d < len ∧ InRange ev id rest (d + 1) (len - 1)
    else InRange ev id rest (d + 1) len

def removals (ev : Event) (id : Nat) : List Action → Nat → Nat
  | [], _ => 0
  | action :: rest, d =>
    (if ev.removes id action d then 1 else 0) + removals ev id rest (d + 1)

theorem executeLoop_cases (ev : Event) (id : Nat) (rest : List Action) (d : Nat)
    (actions : List Action) :
    (InRange ev id rest d actions.length ∧ ∃ left, executeLoop ev id rest d actions = .ok left ∧
        left.length + removals ev id rest d = actions.length) ∨
      (¬InRange ev id rest d actions.length ∧
        executeLoop ev id rest d actions = .error .outOfRange) := by
  induction rest generalizing d actions with
  | nil => exact .inl ⟨trivial, actions, rfl, rfl⟩
  | cons action rest ih =>
    simp only [InRange, removals, executeLoop]
    cases hrem : ev.removes id action d with
    | false => simpa using ih (d + 1) actions
    | true =>
      simp only [if_true]
      by_cases hd : d < actions.length
      · have hlen : (actions.eraseIdx d).length = actions.length - 1 :=
          length_eraseIdx_of_lt hd
        have hrest := ih (d + 1) (actions.eraseIdx d)
        rw [hlen] at hrest
        simp only [hd, if_true, true_and]
        rcases hrest with ⟨hin, left, hleft, hcount⟩ | hout
        · exact .inl ⟨hin, left, hleft, by omega⟩
        · exact .inr hout
      · exact .inr ⟨fun h => hd h.1, by rw [if_neg hd]⟩

def runActions (ev : Event) (b : BreakPointBase) : Except Fault (List Action) :=
  executeLoop ev b.id b.actions 0 b.actions

def ActionsInRange (ev : Event) (b : BreakPointBase) : Prop :=
  InRange ev b.id b.actions 0 b.actions.length

def AllLeave (ev : Event) (b : BreakPointBase) : Prop :=
  removals ev b.id b.actions 0 = b.actions.length

theorem runActions_cases (ev : Event) (b : BreakPointBase) :
    (ActionsInRange ev b ∧ ∃ left, runActions ev b = .ok left ∧ (left = [] ↔ AllLeave ev b)) ∨
      (¬ActionsInRange ev b ∧ runActions ev b = .error .outOfRange) := by
  refine (executeLoop_cases ev b.id b.actions 0 b.actions).imp_left ?_
  rintro ⟨hin, left, hleft, hcount⟩
  refine ⟨hin, left, hleft, ?_⟩
  rw [AllLeave, ← length_eq_zero_iff]
  omega

variable {ev : Event}

theorem executeActions_eq (hdef : b.isDeferred = false)
    (hown : b.kind = .emulated → ev.thread.lwpid = b.thread.lwpid) :
    b.executeActions ev = (runActions ev b).map fun left => { b with actions := left } := by
  unfold BreakPointBase.executeActions runActions
  cases hk : b.kind with
  | deferred type => simp [BreakPointBase.isDeferred, hk] at hdef
  | emulated =>
    simp only [hown hk, if_true]
    cases executeLoop ev b.id b.actions 0 b.actions <;> rfl
  | software => cases executeLoop ev b.id b.actions 0 b.actions <;> rfl
  | hardware reg => cases executeLoop ev b.id b.actions 0 b.actions <;> rfl

section

variable (ev : Event) (b : BreakPointBase)

theorem disable_eq :
    b.disable ev = { b with enable := (b.disable ev).enable } := by
  unfold BreakPointBase.disable
  split <;> rfl

@[simp] theorem disable_kind :
    (b.disable ev).kind = b.kind := by
  rw [disable_eq]

@[simp] theorem disable_thread :
    (b.disable ev).thread = b.thread := by
  rw [disable_eq]

@[simp] theorem disable_addr :
    (b.disable ev).addr = b.addr := by
  rw [disable_eq]

@[simp] theorem disable_id : (b.disable ev).id = b.id := by
  rw [disable_eq]

@[simp] theorem disable_actions :
    (b.disable ev).actions = b.actions := by
  rw [disable_eq]

theorem runActions_disable :
    runActions ev (b.disable ev) = runActions ev b := by
  rw [disable_eq]
  rfl

end

theorem disable_enabled_iff (h : 0 < b.enable) :
    0 < (b.disable ev).enable ↔ 2 ≤ b.enable ∨ ev.doEnable b.id false = false := by
  unfold BreakPointBase.disable
  split
  · rename_i hfail
    exact iff_of_true h (.inr hfail.2)
  · rename_i hok
    constructor
    · intro hpos
      left
      change 0 < b.enable - 1 at hpos
      omega
    · rintro (htwo | hfail)
      · change 0 < b.enable - 1
        omega
      · change 0 < b.enable - 1
        have hne : b.enable ≠ 1 := fun hone => hok ⟨hone, hfail⟩
        omega

theorem reenable_enabled_iff (h : 0 ≤ b.enable) :
    0 < (b.reenable ev).enable ↔ 0 < b.enable ∨ ev.doEnable b.id true = true := by
  unfold BreakPointBase.reenable BreakPointBase.enableCall
  by_cases hpos : 0 < b.enable
  · simp [hpos]
  · have hzero : b.enable = 0 := by omega
    cases ev.doEnable b.id true <;> simp [hzero]

theorem disable_nonneg (h : 0 < b.enable) :
    0 ≤ (b.disable ev).enable := by
  unfold BreakPointBase.disable
  split
  · omega
  · change 0 ≤ b.enable - 1
    omega

structure Event.Traps (ev : Event) : Prop where
  oldProgram : ev.haveNewProgram = false
  runnable : ev.isRunnable = true
  signal : ev.signum = sigtrap
  counter : ev.programCount ≠ 0

def Event.hardPlace (ev : Event) : Place := (some ev.thread.lwpid, ev.programCount)

structure Event.HardHit (ev : Event) (s : Manager) (b : BreakPointBase) : Prop where
  traceable : ev.isTraceable = true
  hit : ev.hardwareHit = some ev.programCount
  entry : s.entry ev.hardPlace = some b

structure Event.SoftHit (ev : Event) (s : Manager) (p : Place) (b : BreakPointBase) : Prop where
  traps : ev.Traps
  found : findSoft ev s = .ok (some (p, b))
  soft : b.type ≠ .hardware
  enabled : 0 < b.enable

def Manager.AtHome (s : Manager) : Prop :=
  ∀ lwpid a b, s.Stores (some lwpid) a b → b.type = .hardware →
    b.isDeferred = false ∧ b.thread.lwpid = lwpid

theorem onHardwareBreak_cases (ev : Event) (s : Manager) (addr : Nat) :
    (addr ≠ ev.programCount ∧ onHardwareBreak ev s addr = .ok (s, [])) ∨
      (addr = ev.programCount ∧
        ((∃ e, onHardwareBreak ev s addr = .error e ∧ e ≠ .outOfRange) ∨
          ∃ b, s.entry ev.hardPlace = some b ∧ b.type = .hardware ∧
            onHardwareBreak ev s addr = .ok (scheduleActions ev (s, []) ev.hardPlace))) := by
  by_cases haddr : addr = ev.programCount
  · subst haddr
    refine .inr ⟨rfl, ?_⟩
    unfold onHardwareBreak Event.hardPlace
    simp only [ne_eq, not_true_eq_false, if_false]
    cases hb : s.entry (some ev.thread.lwpid, ev.programCount) with
    | none => exact .inl ⟨_, rfl, by simp⟩
    | some b =>
      by_cases htype : b.type = .hardware
      · exact .inr ⟨b, rfl, htype, by simp [htype]⟩
      · exact .inl ⟨.assertion, by simp [htype], by simp⟩
  · exact .inl ⟨haddr, by simp [onHardwareBreak, haddr]⟩

theorem tryHardware_cases (ev : Event) (s : Manager) :
    (∃ e, tryHardware ev s = .error e ∧ e ≠ .outOfRange) ∨
      (tryHardware ev s = .ok (s, []) ∧ ∀ b, ¬ev.HardHit s b) ∨
        ∃ b, ev.HardHit s b ∧ b.type = .hardware ∧
          tryHardware ev s = .ok (s.modify ev.hardPlace (·.disable ev), [ev.hardPlace]) := by
  unfold tryHardware
  cases hhit : ev.hardwareHit with
  | none =>
    refine .inr (.inl ⟨rfl, fun b hb => ?_⟩)
    simpa [hhit] using hb.hit
  | some addr =>
    cases htrace : ev.isTraceable with
    | false =>
      refine .inr (.inl ⟨rfl, fun b hb => ?_⟩)
      simpa [htrace] using hb.traceable
    | true =>
      simp only [if_true]
      rcases onHardwareBreak_cases ev s addr with ⟨haddr, h⟩ | ⟨rfl, ⟨e, h, he⟩ | ⟨b, hb, htype, h⟩⟩
      · refine .inr (.inl ⟨h, fun b hb => haddr ?_⟩)
        simpa [hhit] using hb.hit
      · exact .inl ⟨e, h, he⟩
      · refine .inr (.inr ⟨b, ⟨htrace, hhit, hb⟩, htype, ?_⟩)
        rw [h, scheduleActions, htrace]
        rfl

variable {s : Manager} {p : Place}

theorem getBreakpoint_entry {owner : Thread} {a : Nat} (h : s.getBreakpoint owner a = some (p, b)) :
    s.entry p = some b ∧ (p.1 = none ∨ b.thread = owner) := by
  unfold Manager.getBreakpoint at h
  split at h
  · rename_i b' hglobal
    cases h
    exact ⟨hglobal, .inl rfl⟩
  · obtain ⟨e, hmem, he⟩ := exists_of_findSome?_eq_some h
    obtain ⟨b', hb', hif⟩ := Option.bind_eq_some_iff.mp he
    split at hif
    · rename_i hcond
      cases hif
      refine ⟨?_, .inr hcond.2.2⟩
      change ((s.perThreadBreakPoints.lookup e.1).getD ∅).lookup a = some b
      rw [Option.mem_def.mp (AList.mem_lookup_iff.mpr hmem)]
      exact hb'
    · cases hif

theorem findSoft_cases (ev : Event) (s : Manager) :
    (∃ e, findSoft ev s = .error e ∧ e ≠ .outOfRange) ∨ findSoft ev s = .ok none ∨
      ∃ p b, findSoft ev s = .ok (some (p, b)) ∧ s.entry p = some b ∧ b.isDeferred = false ∧
        (p.1 = none ∨ b.thread = ev.thread) := by
  unfold findSoft
  split
  · split
    · exact .inr (.inl rfl)
    · rename_i p b hget
      cases hdef : b.isDeferred with
      | true => exact .inl ⟨.assertion, by simp, by simp⟩
      | false =>
        obtain ⟨hentry, hown⟩ := getBreakpoint_entry hget
        exact .inr (.inr ⟨p, b, by simp, hentry, hdef, hown⟩)
  · exact .inr (.inl rfl)

def afterRun (env : Env) (p : Place) (s : Manager) (pe : List Place) (b : BreakPointBase)
    (left : List Action) : Manager × List Place :=
  if left = [] then
    ((erase env { b with actions := left } (s.put p { b with actions := left })).2, pe)
  else (s.put p { b with actions := left }, pe ++ [p])

theorem executeAt_eq (ev : Event) (pe : List Place) (hb : s.entry p = some b)
    (hdef : b.isDeferred = false)
    (hown : b.kind = .emulated → ev.thread.lwpid = b.thread.lwpid) :
    executeAt ev p (s, pe) = (runActions ev b).map (afterRun ev.env p s pe b) := by
  simp only [executeAt, hb, executeActions_eq hdef hown]
  cases runActions ev b <;> rfl

theorem entry_afterRun_nil (env : Env) (p : Place) (s : Manager) (pe : List Place)
    (hdef : b.isDeferred = false) (q : Place) :
    (afterRun env p s pe b []).1.entry q =
      if env.inProcess b.thread = true ∧ q = erasePlace b then none
      else if q = p then some { b with actions := [] } else s.entry q := by
  refine (entry_erase env _ (b := { b with actions := [] }) rfl hdef q).trans ?_
  rw [entry_put]
  rfl

theorem entry_afterRun_of_ne {left : List Action} (h : left ≠ []) (env : Env) (p : Place)
    (s : Manager) (pe : List Place) (b : BreakPointBase) (q : Place) :
    (afterRun env p s pe b left).1.entry q =
      if q = p then some { b with actions := left } else s.entry q := by
  rw [afterRun, if_neg h, entry_put]

theorem afterRun_nil_snd (env : Env) (p : Place) (s : Manager) (pe : List Place)
    (b : BreakPointBase) : (afterRun env p s pe b []).2 = pe := by
  rw [afterRun, if_pos rfl]

theorem afterRun_snd_of_ne {left : List Action} (h : left ≠ []) (env : Env) (p : Place)
    (s : Manager) (pe : List Place) (b : BreakPointBase) :
    (afterRun env p s pe b left).2 = pe ++ [p] := by
  rw [afterRun, if_neg h]

theorem entry_reenable_of_not_mem {pe : List Place} (h : p ∉ pe)
    (s : Manager) :
    (pe.foldl (fun s p => s.modify p (·.reenable ev)) s).entry p = s.entry p := by
  induction pe generalizing s with
  | nil => rfl
  | cons q pe ih =>
    obtain ⟨hq, hpe⟩ := not_or.mp (mt mem_cons.mpr h)
    rw [foldl_cons, ih hpe, entry_modify, if_neg hq]

theorem executeAt_hard {s₁ : Manager} (hwf : s.WellFormed) (hhome : s.AtHome) (hb : ev.HardHit s b)
    (htype : b.type = .hardware)
    (hs₁ : s₁.entry ev.hardPlace = some (b.disable ev)) :
    (ActionsInRange ev b ∧ ∃ s₂ pe, executeAt ev ev.hardPlace (s₁, []) = .ok (s₂, pe) ∧
        pe ⊆ [ev.hardPlace] ∧ ∀ q, q ≠ ev.hardPlace → s₂.entry q = s₁.entry q) ∨
      (¬ActionsInRange ev b ∧ executeAt ev ev.hardPlace (s₁, []) = .error .outOfRange) := by
  obtain ⟨hdef, hlwpid⟩ := hhome _ _ _ hb.entry htype
  have haddr : b.addr = ev.programCount := (hwf.stored _ _ _ hb.entry).1
  have hkind : (b.disable ev).kind ≠ .emulated := by
    intro hk
    rw [disable_kind] at hk
    simp [BreakPointBase.type, hk] at htype
  have hdef₁ : (b.disable ev).isDeferred = false := by
    simpa [BreakPointBase.isDeferred] using hdef
  have hexec := executeAt_eq ev [] hs₁ hdef₁ (fun hk => absurd hk hkind)
  rw [runActions_disable] at hexec
  rcases runActions_cases ev b with ⟨hin, left, hleft, -⟩ | ⟨hout, herr⟩
  · refine .inl ⟨hin, ?_⟩
    rw [hexec, hleft]
    refine ⟨(afterRun ev.env ev.hardPlace s₁ [] (b.disable ev) left).1,
      (afterRun ev.env ev.hardPlace s₁ [] (b.disable ev) left).2, rfl, ?_, fun q hq => ?_⟩
    · by_cases hnil : left = []
      · rw [hnil, afterRun_nil_snd]
        exact nil_subset _
      · rw [afterRun_snd_of_ne hnil]
        exact List.Subset.refl _
    · by_cases hnil : left = []
      · have hplace : erasePlace (b.disable ev) = ev.hardPlace := by
          have htype₁ : (b.disable ev).type = .hardware := by
            simpa [BreakPointBase.type] using htype
          rw [erasePlace, htype₁, disable_thread, disable_addr, hlwpid, haddr]
          rfl
        rw [hnil, entry_afterRun_nil _ _ _ _ hdef₁, hplace, if_neg (fun h => hq h.2), if_neg hq]
      · rw [entry_afterRun_of_ne hnil, if_neg hq]
  · refine .inr ⟨hout, ?_⟩
    rw [hexec, herr]
    rfl

theorem executeHard (hwf : s.WellFormed) (hhome : s.AtHome)
    {st : Manager × List Place} (hst : tryHardware ev s = .ok st) (s₁ : Manager)
    (hs₁ : ∀ q ∈ st.2, s₁.entry q = st.1.entry q) :
    ((∀ b, ev.HardHit s b → ActionsInRange ev b) ∧ ∃ s₂ pe,
        st.2.foldlM (fun st p => executeAt ev p st) (s₁, []) = .ok (s₂, pe) ∧ pe ⊆ st.2 ∧
          ∀ q, q ∉ st.2 → s₂.entry q = s₁.entry q) ∨
      ((¬∀ b, ev.HardHit s b → ActionsInRange ev b) ∧
        st.2.foldlM (fun st p => executeAt ev p st) (s₁, []) = .error .outOfRange) := by
  rcases tryHardware_cases ev s with ⟨e, h, -⟩ | ⟨h, hno⟩ | ⟨b, hb, htype, h⟩
  · rw [h] at hst
    cases hst
  · rw [h] at hst
    cases hst
    exact .inl ⟨fun b hb => absurd hb (hno b), s₁, [], rfl, nil_subset _, fun q _ => rfl⟩
  · rw [h] at hst
    cases hst
    have hentry : s₁.entry ev.hardPlace = some (b.disable ev) := by
      rw [hs₁ _ (.head _), entry_modify, if_pos rfl, hb.entry]
      rfl
    have honly : (∀ b, ev.HardHit s b → ActionsInRange ev b) ↔ ActionsInRange ev b := by
      refine ⟨fun hall => hall b hb, fun hin b' hb' => ?_⟩
      obtain rfl : b' = b := Option.some.inj (hb'.entry.symm.trans hb.entry)
      exact hin
    rw [honly]
    simp only [foldlM_cons, foldlM_nil, bind_pure, mem_singleton]
    exact executeAt_hard hwf hhome hb htype hentry

end ZeroBugs.Engine.BreakPointManager
