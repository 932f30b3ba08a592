import ZeroBugs.Engine.EventHits

/-! # A debug event does not lose a breakpoint -/
namespace ZeroBugs.Engine.BreakPointManager
open Lib.Runs

def Event.Leaves (ev : Event) (b : BreakPointBase) (left : List Action) : Prop :=
  if ev.isTraceable then runActions ev b = .ok left else left = b.actions

structure KeptAt (s : Manager) (p : Place) (b : BreakPointBase) (left : List Action) : Prop where
  erased : left = [] → s.entry p = none
  enabled : left ≠ [] →
    ∃ b', s.entry p = some b' ∧ b'.id = b.id ∧ b'.actions = left ∧ 0 < b'.enable

/-- What holds when a call returns. An exception leaves nothing to say, but a call
that runs out of a list has no result. -/
def WhenReturned (r : Except Fault Manager) (P : Manager → Prop) : Prop :=
  match r with
  | .ok s => P s
  | .error e => e ≠ .outOfRange

/-- When `on_event` returns, every software breakpoint that was hit is enabled if it
has actions left, and erased if it has none. -/
def HitsKept (ev : Event) (s : Manager) : Prop :=
  WhenReturned (onEvent ev s) fun s' =>
    ∀ p b, ev.SoftHit s p b → ∀ left, ev.Leaves b left → KeptAt s' p b left

def KeepsSoft (ev : Event) (p : Place) (b : BreakPointBase) : Prop :=
  if ev.isTraceable then
    ActionsInRange ev b ∧
      (AllLeave ev b → ev.env.inProcess b.thread = true ∧ erasePlace b = p) ∧
      (¬AllLeave ev b →
        2 ≤ b.enable ∨ ev.doEnable b.id false = false ∨ ev.doEnable b.id true = true)
  else b.actions ≠ [] ∧ (2 ≤ b.enable ∨ ev.doEnable b.id false = false)

/-- If the breakpoints are found, the actions of the hardware breakpoint leave in range, and the
software breakpoint meets its condition. -/
def Keeps (ev : Event) (s : Manager) : Prop :=
  ev.Traps → ∀ st found, tryHardware ev s = .ok st → findSoft ev s = .ok found →
    (∀ b, ev.HardHit s b → ActionsInRange ev b) ∧ ∀ p b, ev.SoftHit s p b → KeepsSoft ev p b

variable {p : Place} {b : BreakPointBase}

section Soft

variable {ev : Event} {s : Manager} {st : Manager × List Place}

theorem not_mem_of_soft (hst : tryHardware ev s = .ok st)
    (hentry : s.entry p = some b) (hsoft : b.type ≠ .hardware) :
    p ∉ st.2 ∧ st.1.entry p = some b := by
  rcases tryHardware_cases ev s with ⟨e, h, -⟩ | ⟨h, -⟩ | ⟨hb, hhard, htype, h⟩
  · rw [h] at hst
    cases hst
  · rw [h] at hst
    cases hst
    exact ⟨List.not_mem_nil, hentry⟩
  · rw [h] at hst
    cases hst
    have hne : p ≠ ev.hardPlace := by
      rintro rfl
      obtain rfl : hb = b := Option.some.inj (hhard.entry.symm.trans hentry)
      exact hsoft htype
    refine ⟨by simpa using hne, ?_⟩
    rw [entry_modify, if_neg hne, hentry]

theorem tryHardware_pending_nil (hst : tryHardware ev s = .ok st)
    (htrace : ev.isTraceable = false) : st = (s, []) ∧ ∀ b, ¬ev.HardHit s b := by
  rcases tryHardware_cases ev s with ⟨e, h, -⟩ | ⟨h, hno⟩ | ⟨hb, hhard, -⟩
  · rw [h] at hst
    cases hst
  · rw [h] at hst
    cases hst
    exact ⟨rfl, hno⟩
  · have := hhard.traceable
    rw [htrace] at this
    cases this

variable {pe : List Place}

theorem keptAt_afterRun_nil (hdef : b.isDeferred = false)
    (s₂ : Manager) (hpe : p ∉ pe) :
    KeptAt ((afterRun ev.env p s₂ pe (b.disable ev) []).2.foldl
        (fun s p => s.modify p (·.reenable ev)) (afterRun ev.env p s₂ pe (b.disable ev) []).1)
      p b [] ↔ ev.env.inProcess b.thread = true ∧ erasePlace b = p := by
  have hdef₁ : (b.disable ev).isDeferred = false := by
    simpa [BreakPointBase.isDeferred] using hdef
  have hplace : erasePlace (b.disable ev) = erasePlace b := by
    simp [erasePlace, BreakPointBase.type]
  have hgone : ((afterRun ev.env p s₂ pe (b.disable ev) []).2.foldl
      (fun s p => s.modify p (·.reenable ev))
      (afterRun ev.env p s₂ pe (b.disable ev) []).1).entry p = none ↔
        ev.env.inProcess b.thread = true ∧ p = erasePlace b := by
    rw [afterRun_nil_snd, entry_reenable_of_not_mem hpe, entry_afterRun_nil _ _ _ _ hdef₁, hplace,
      disable_thread, if_pos rfl]
    simp
  constructor
  · intro hkept
    obtain ⟨hin, hp⟩ := hgone.mp (hkept.erased rfl)
    exact ⟨hin, hp.symm⟩
  · rintro ⟨hin, hp⟩
    exact ⟨fun _ => hgone.mpr ⟨hin, hp.symm⟩, fun hne => absurd rfl hne⟩

theorem keptAt_afterRun_of_ne (henabled : 0 < b.enable)
    (s₂ : Manager) (hpe : p ∉ pe) {left : List Action} (hnil : left ≠ []) :
    KeptAt ((afterRun ev.env p s₂ pe (b.disable ev) left).2.foldl
        (fun s p => s.modify p (·.reenable ev)) (afterRun ev.env p s₂ pe (b.disable ev) left).1)
      p b left ↔
    2 ≤ b.enable ∨ ev.doEnable b.id false = false ∨ ev.doEnable b.id true = true := by
  have hentry : ((afterRun ev.env p s₂ pe (b.disable ev) left).2.foldl
      (fun s p => s.modify p (·.reenable ev))
      (afterRun ev.env p s₂ pe (b.disable ev) left).1).entry p =
      some (BreakPointBase.reenable ev { b.disable ev with actions := left }) := by
    rw [afterRun_snd_of_ne hnil, List.foldl_append, List.foldl_cons, List.foldl_nil, entry_modify,
      if_pos rfl, entry_reenable_of_not_mem hpe, entry_afterRun_of_ne hnil, if_pos rfl]
    rfl
  have hcount : 0 < (BreakPointBase.reenable ev { b.disable ev with actions := left }).enable ↔
      2 ≤ b.enable ∨ ev.doEnable b.id false = false ∨ ev.doEnable b.id true = true := by
    rw [reenable_enabled_iff (b := { b.disable ev with actions := left })
      (disable_nonneg henabled)]
    rw [disable_enabled_iff henabled, disable_id, or_assoc]
  have hsame : (BreakPointBase.reenable ev { b.disable ev with actions := left }).id = b.id ∧
      (BreakPointBase.reenable ev { b.disable ev with actions := left }).actions = left := by
    unfold BreakPointBase.reenable BreakPointBase.enableCall
    split
    · exact ⟨disable_id .., rfl⟩
    · split <;> exact ⟨disable_id .., rfl⟩
  constructor
  · intro hkept
    obtain ⟨b', hb', -, -, hpos⟩ := hkept.enabled hnil
    obtain rfl := Option.some.inj (hentry.symm.trans hb')
    exact hcount.mp hpos
  · intro hok
    exact ⟨fun h => absurd h hnil, fun _ => ⟨_, hentry, hsame.1, hsame.2, hcount.mpr hok⟩⟩

theorem keptAt_afterRun (hdef : b.isDeferred = false)
    (henabled : 0 < b.enable) (s₂ : Manager) (hpe : p ∉ pe) {left : List Action}
    (hall : left = [] ↔ AllLeave ev b) :
    KeptAt ((afterRun ev.env p s₂ pe (b.disable ev) left).2.foldl
        (fun s p => s.modify p (·.reenable ev)) (afterRun ev.env p s₂ pe (b.disable ev) left).1)
      p b left ↔
    (AllLeave ev b → ev.env.inProcess b.thread = true ∧ erasePlace b = p) ∧
      (¬AllLeave ev b →
        2 ≤ b.enable ∨ ev.doEnable b.id false = false ∨ ev.doEnable b.id true = true) := by
  by_cases hnil : left = []
  · have hleave : AllLeave ev b := hall.mp hnil
    rw [hnil, keptAt_afterRun_nil hdef s₂ hpe]
    exact ⟨fun h => ⟨fun _ => h, fun hno => absurd hleave hno⟩, fun h => h.1 hleave⟩
  · have hstay : ¬AllLeave ev b := fun h => hnil (hall.mpr h)
    rw [keptAt_afterRun_of_ne henabled s₂ hpe hnil]
    exact ⟨fun h => ⟨fun hleave => absurd hleave hstay, fun _ => h⟩, fun h => h.2 hstay⟩

theorem kept_traceable (hwf : s.WellFormed) (hhome : s.AtHome) (hst : tryHardware ev s = .ok st)
    (htrace : ev.isTraceable = true) (hentry : s.entry p = some b)
    (hdef : b.isDeferred = false) (hown : p.1 = none ∨ b.thread = ev.thread)
    (hsoft : b.type ≠ .hardware) (henabled : 0 < b.enable) :
    WhenReturned (execPendingActions ev (scheduleActions ev st p))
        (fun s' => ∀ left, ev.Leaves b left → KeptAt s' p b left) ↔
      (∀ b, ev.HardHit s b → ActionsInRange ev b) ∧ KeepsSoft ev p b := by
  obtain ⟨hmem, hst_entry⟩ := not_mem_of_soft hst hentry hsoft
  have hkind : (b.disable ev).kind = .emulated → ev.thread.lwpid = (b.disable ev).thread.lwpid := by
    intro hk
    rw [disable_kind] at hk
    rw [disable_thread]
    rcases hown with hglobal | hthread
    · have htype := ((hwf.stored p.1 p.2 b hentry).2 hdef).mpr hglobal
      simp [BreakPointBase.type, hk] at htype
    · rw [hthread]
  have hdef₁ : (b.disable ev).isDeferred = false := by
    simpa [BreakPointBase.isDeferred] using hdef
  have hs₁ : ∀ q ∈ st.2, (st.1.modify p (·.disable ev)).entry q = st.1.entry q := by
    intro q hq
    rw [entry_modify, if_neg (fun h : q = p => hmem (h ▸ hq))]
  have hp₁ : (st.1.modify p (·.disable ev)).entry p = some (b.disable ev) := by
    rw [entry_modify, if_pos rfl, hst_entry]
    rfl
  simp only [execPendingActions, scheduleActions, htrace, if_true, List.foldlM_append,
    List.foldlM_cons, List.foldlM_nil, bind_pure, KeepsSoft, Event.Leaves]
  rcases executeHard hwf hhome hst _ hs₁ with ⟨hhard, s₂, pe, hrun, hsub, hframe⟩ | ⟨hhard, hrun⟩
  · have hp₂ : s₂.entry p = some (b.disable ev) := (hframe p hmem).trans hp₁
    have hexec := executeAt_eq ev pe hp₂ hdef₁ hkind
    rw [runActions_disable] at hexec
    simp only [hrun, bind, Except.bind, hexec]
    rcases runActions_cases ev b with ⟨hin, left, hleft, hall⟩ | ⟨hout, herr⟩
    · simp only [hleft, Except.map, WhenReturned, pure, Except.pure]
      have hkept := keptAt_afterRun hdef henabled s₂ (fun h => hmem (hsub h)) hall
      constructor
      · intro h
        exact ⟨hhard, hin, hkept.mp (h left rfl)⟩
      · rintro ⟨-, -, hok⟩ left' hleft'
        cases hleft'
        exact hkept.mpr hok
    · simp only [herr, Except.map, WhenReturned, ne_eq, not_true_eq_false, false_iff]
      exact fun h => hout h.2.1
  · simp only [hrun, bind, Except.bind, WhenReturned, ne_eq, not_true_eq_false, false_iff]
    exact fun h => hhard h.1

theorem kept_untraceable (hst : tryHardware ev s = .ok st) (htrace : ev.isTraceable = false)
    (hentry : s.entry p = some b) (henabled : 0 < b.enable) :
    WhenReturned (execPendingActions ev (scheduleActions ev st p))
        (fun s' => ∀ left, ev.Leaves b left → KeptAt s' p b left) ↔ KeepsSoft ev p b := by
  obtain ⟨rfl, -⟩ := tryHardware_pending_nil hst htrace
  have hp₁ : (s.modify p (·.disable ev)).entry p = some (b.disable ev) := by
    rw [entry_modify, if_pos rfl, hentry]
    rfl
  have hreturns : execPendingActions ev (scheduleActions ev (s, []) p) =
      .ok (s.modify p (·.disable ev)) := by
    simp only [execPendingActions, scheduleActions, htrace, Bool.false_eq_true, if_false]
    rfl
  simp only [hreturns, WhenReturned, Event.Leaves, KeepsSoft, htrace, Bool.false_eq_true, if_false,
    forall_eq, ← disable_enabled_iff henabled]
  constructor
  · intro hkept
    have hne : b.actions ≠ [] := by
      intro hnil
      have hgone := hkept.erased hnil
      rw [hp₁] at hgone
      cases hgone
    obtain ⟨b', hb', -, -, hpos⟩ := hkept.enabled hne
    obtain rfl := Option.some.inj (hp₁.symm.trans hb')
    exact ⟨hne, hpos⟩
  · rintro ⟨hne, hpos⟩
    exact ⟨fun hnil => absurd hnil hne, fun _ => ⟨_, hp₁, disable_id .., disable_actions .., hpos⟩⟩

theorem returned_hard (hwf : s.WellFormed) (hhome : s.AtHome) (hst : tryHardware ev s = .ok st) :
    WhenReturned (execPendingActions ev st) (fun _ => True) ↔
      ∀ b, ev.HardHit s b → ActionsInRange ev b := by
  simp only [execPendingActions]
  rcases executeHard hwf hhome hst st.1 (fun q _ => rfl) with
    ⟨hhard, s₂, pe, hrun, -⟩ | ⟨hhard, hrun⟩
  · simp only [hrun, bind, Except.bind, WhenReturned]
    exact iff_of_true trivial hhard
  · simp only [hrun, bind, Except.bind, WhenReturned, ne_eq, not_true_eq_false, false_iff]
    exact hhard

end Soft

section Whole

variable {ev : Event} {s : Manager}

theorem onEvent_of_traps (h : ev.Traps) : onEvent ev s = (do
    let st ← tryHardware ev s
    let found ← findSoft ev s
    execPendingActions ev (scheduleSoft ev st found)) := by
  simp only [onEvent, tryBreakpoints, h.oldProgram, h.runnable, h.signal, h.counter,
    Bool.false_eq_true, if_false, and_self, if_true, bind_assoc, pure_bind]

theorem onEvent_of_not_traps (h : ¬ev.Traps) : onEvent ev s = .ok s := by
  have hnothing : execPendingActions ev (s, []) = .ok s := rfl
  unfold onEvent
  split
  · rfl
  · split
    · rename_i hnew hrun
      have hpc : ev.programCount = 0 := by
        by_contra hpc
        exact h ⟨Bool.eq_false_iff.mpr hnew, hrun.1, hrun.2, hpc⟩
      rw [tryBreakpoints, if_pos hpc]
      exact hnothing
    · exact hnothing

theorem whenReturned_congr {r : Except Fault Manager} {P Q : Manager → Prop}
    (h : ∀ s, P s ↔ Q s) : WhenReturned r P ↔ WhenReturned r Q := by
  cases r with
  | ok s => exact h s
  | error e => exact Iff.rfl

theorem forall_returned_iff {α β : Type} {x : Except Fault α} {y : Except Fault β} {a : α} {b : β}
    (hx : x = .ok a) (hy : y = .ok b) {X : Prop} :
    (∀ a' b', x = .ok a' → y = .ok b' → X) ↔ X :=
  ⟨fun h => h a b hx hy, fun h _ _ _ _ => h⟩

theorem kept_of_no_soft (hwf : s.WellFormed) (hhome : s.AtHome) {st : Manager × List Place}
    (hst : tryHardware ev s = .ok st) (hno : ∀ p b, ¬ev.SoftHit s p b) :
    WhenReturned (execPendingActions ev st)
        (fun s' => ∀ p b, ev.SoftHit s p b → ∀ left, ev.Leaves b left → KeptAt s' p b left) ↔
      (∀ b, ev.HardHit s b → ActionsInRange ev b) ∧ ∀ p b, ev.SoftHit s p b → KeepsSoft ev p b := by
  refine (whenReturned_congr fun _ => iff_true_intro fun p b hb => absurd hb (hno p b)).trans ?_
  refine (returned_hard hwf hhome hst).trans ?_
  exact (and_iff_left fun p b hb => absurd hb (hno p b)).symm

theorem kept_of_soft (hwf : s.WellFormed) (hhome : s.AtHome) {st : Manager × List Place}
    (hst : tryHardware ev s = .ok st) (hsoft : ev.SoftHit s p b)
    (hentry : s.entry p = some b) (hdef : b.isDeferred = false)
    (hown : p.1 = none ∨ b.thread = ev.thread) :
    WhenReturned (execPendingActions ev (scheduleActions ev st p))
        (fun s' => ∀ p b, ev.SoftHit s p b → ∀ left, ev.Leaves b left → KeptAt s' p b left) ↔
      (∀ b, ev.HardHit s b → ActionsInRange ev b) ∧ ∀ p b, ev.SoftHit s p b → KeepsSoft ev p b := by
  have honly : ∀ {Q : Place → BreakPointBase → Prop},
      (∀ p' b', ev.SoftHit s p' b' → Q p' b') ↔ Q p b := by
    refine ⟨fun h => h p b hsoft, fun h p' b' hb' => ?_⟩
    cases hsoft.found.symm.trans hb'.found
    exact h
  rw [honly]
  refine (whenReturned_congr fun s' => honly).trans ?_
  cases htrace : ev.isTraceable with
  | true => exact kept_traceable hwf hhome hst htrace hentry hdef hown hsoft.soft hsoft.enabled
  | false =>
    have hnone := (tryHardware_pending_nil hst htrace).2
    rw [kept_untraceable hst htrace hentry hsoft.enabled]
    exact (and_iff_right fun b hb => absurd hb (hnone b)).symm

end Whole

theorem atHome_empty (pid : Nat) : (Manager.empty pid).AtHome :=
  fun _ _ _ h => (not_stores_empty _ _ _ _ h).elim

theorem atHome_setBreakpoint {s : Manager} (hhome : s.AtHome) (env : Env) (r : Request) :
    (setBreakpoint env r s).2.AtHome := by
  intro lwpid a b hb htype
  cases setBreakpoint_effect env r s with
  | same hmap hd => exact hhome _ _ _ (stores_of_map_eq hmap hb) htype
  | foundDeferred id hmap hd => exact hhome _ _ _ (stores_of_map_eq hmap hb) htype
  | deferred hnew h id hmap hd => exact hhome _ _ _ (stores_of_map_eq hmap hb) htype
  | found b' hb' hmap hd =>
    rcases stores_insert hmap hb with ⟨hscope, rfl, rfl⟩ | hold
    · rw [addActions_type] at htype
      rw [addActions_isDeferred, addActions_thread]
      exact hhome lwpid r.addr b' (hscope ▸ hb') htype
    · exact hhome _ _ _ hold htype
  | created hnew h id b' hb' hmap hd =>
    rcases stores_insert hmap hb with ⟨hscope, rfl, rfl⟩ | hold
    · rw [addActions_isDeferred, addActions_thread]
      rcases createBreakpoint_cases hb' with ⟨hreq, reg, rfl⟩ | ⟨-, count, thread, -, rfl⟩
      · rw [Request.scope, scopeOf, hreq] at hscope
        exact ⟨rfl, (Option.some.inj hscope).symm⟩
      · by_cases hsoft : r.type = .software <;> simp [BreakPointBase.type, hsoft] at htype
    · exact hhome _ _ _ hold htype

theorem atHome_erase {s : Manager} (hhome : s.AtHome) (env : Env) (b : BreakPointBase) :
    (erase env b s).2.AtHome := by
  unfold erase
  split
  · exact hhome
  · split
    · exact hhome
    · split
      · exact hhome
      · exact fun _ _ _ h => hhome _ _ _ (stores_erase (map_setMap ..) h)

theorem ClonedInto.atHome {parent child : Manager} (hcloned : ClonedInto parent child) :
    child.AtHome := by
  intro lwpid a c hc htype
  obtain ⟨b, -, hclone⟩ :=
    exists_left_of_rel (Eq.mp (congrArg _ hc) (hcloned.places (some lwpid) a))
  exact absurd htype hclone.notHardware

theorem Reachable.atHome {s : Manager} (h : Reachable s) : s.AtHome := by
  induction h with
  | empty pid => exact atHome_empty pid
  | step _ op ih =>
    cases op with
    | set env r => exact atHome_setBreakpoint ih env r
    | erase env b => exact atHome_erase ih env b
  | fork hparent hrun => exact (replicateBreakpoints_clonedInto hparent hrun).atHome

/-! A global breakpoint with one action, hit by a thread without debug events. -/

def oneBreakpointOps : List Op :=
  [.set softOnly ⟨⟨1, 100⟩, .software, 0x4000, some ⟨1, "stop", 1⟩, false⟩]

def oneBreakpoint : Manager := run Op.step (.empty 100) oneBreakpointOps

theorem oneBreakpoint_reachable : Reachable oneBreakpoint :=
  (Reachable.empty 100).run oneBreakpointOps

/-- The thread stops right after the breakpoint's instruction; all actions stay. -/
def trapEvent (traceable : Bool) : Event where
  thread := ⟨1, 100⟩
  haveNewProgram := false
  isRunnable := true
  signum := sigtrap
  programCount := 0x4001
  hasProcess := true
  isTraceable := traceable
  hardwareHit := none
  env := softOnly
  isActionEnabled _ := true
  execute _ _ := true
  doEnable _ _ := true

end ZeroBugs.Engine.BreakPointManager
