import ZeroBugs.Engine.RemoveActions

/-! # When all matching actions are removed, and nothing else -/
namespace ZeroBugs.Engine.RemoveActions
open Engine.BreakPointManager List

section
variable (hasThread : Nat → Bool)

theorem deferredLoop_eq (c : Call) (list : List BreakPointBase) :
    (deferredLoop hasThread c list).1 = list.filterMap fun b =>
      if c.reachesDeferred hasThread b then c.keep b else some b := by
  induction list with
  | nil => rfl
  | cons b list ih =>
    rw [deferredLoop, filterMap_cons, ← ih]
    by_cases hreaches : c.reachesDeferred hasThread b
    · by_cases htouches : c.Touches b
      · have hne : b.actions ≠ [] := by
          obtain ⟨a, ha, -⟩ := htouches
          exact ne_nil_of_mem ha
        by_cases hnil : (removeActions c b).1.actions = [] <;>
          simp [hreaches, touches_iff.mp htouches, hne, hnil, Call.keep]
      · have hzero : (removeActions c b).2 = 0 := not_not.mp (touches_iff.not.mp htouches)
        simp [hreaches, keep_of_not_touches htouches, removeActions_of_not_touches htouches,
          hzero]
    · simp [hreaches]

theorem filterMap_eq_self_iff {f : BreakPointBase → Option BreakPointBase}
    {list : List BreakPointBase} : list.filterMap f = list ↔ ∀ b ∈ list, f b = some b := by
  constructor
  · intro h
    induction list with
    | nil => simp
    | cons b list ih =>
      have hsome := List.filterMap_length_eq_length.mp (congrArg List.length h) b (by simp)
      obtain ⟨b', hb'⟩ := Option.isSome_iff_exists.mp hsome
      rw [filterMap_cons, hb', List.cons.injEq] at h
      obtain ⟨rfl, hrest⟩ := h
      intro d hd
      cases mem_cons.mp hd with
      | inl heq => rw [heq, hb']
      | inr hmem => exact ih hrest d hmem
  · intro h
    rw [filterMap_congr h, filterMap_some]

theorem sum_deferred_eq_zero_iff (c : Call) (list : List BreakPointBase) :
    ((list.filter (c.matchesDeferred hasThread)).map fun b => (removeActions c b).2).sum = 0 ↔
      ∀ b ∈ list, c.matchesDeferred hasThread b = true → ¬c.Touches b := by
  rw [List.sum_eq_zero_iff_forall_eq_nat]
  simp only [mem_map, mem_filter, forall_exists_index, and_imp, touches_iff, not_not]
  constructor
  · intro h b hb hmatch
    exact h _ b hb hmatch rfl
  · intro h n b hb hmatch heq
    rw [← heq]
    exact h b hb hmatch

theorem matchesScope_of_sweeps {c : Call} {scope : Option Nat} (h : c.sweeps scope = true) :
    c.matchesScope scope = true := by
  cases scope with
  | none => exact h
  | some lwpid =>
    by_cases hlwpid : c.lwpid = 0
    · simp [Call.matchesScope, hlwpid]
    · simpa [Call.matchesScope, Call.sweeps, hlwpid] using h

theorem not_sweeps_iff {c : Call} {scope : Option Nat} :
    (c.matchesScope scope = true ∧ c.sweeps scope = false) ↔
      (c.lwpid = 0 ∧ c.pid ≠ 0) ∧ ∃ lwpid, scope = some lwpid := by
  cases scope with
  | none => simp [Call.matchesScope, Call.sweeps]
  | some lwpid =>
    by_cases hlwpid : c.lwpid = 0 <;> simp [Call.matchesScope, Call.sweeps, hlwpid]

theorem total_eq (c : Call) (s : Manager) :
    c.total hasThread s = (sweepMaps s c).removedCount +
      ((((scopes s).filter c.matchesScope).filter fun scope => !c.sweeps scope).map fun scope =>
        c.countIn (s.map scope)).sum +
      ((s.deferred.filter (c.matchesDeferred hasThread)).map fun b =>
        (removeActions c b).2).sum := by
  have hswept : ((scopes s).filter c.matchesScope).filter c.sweeps = sweptScopes s c := by
    rw [filter_filter, sweptScopes]
    refine filter_congr fun scope _ => ?_
    cases hsweeps : c.sweeps scope with
    | false => simp
    | true => simp [matchesScope_of_sweeps hsweeps]
  have hperm := filter_append_perm c.sweeps ((scopes s).filter c.matchesScope)
  have hsum := (hperm.map fun scope => c.countIn (s.map scope)).sum_nat
  rw [map_append, sum_append, hswept] at hsum
  rw [Call.total, ← hsum, sweepMaps_count]

theorem sum_unswept_eq_zero_iff (c : Call) (s : Manager) :
    ((((scopes s).filter c.matchesScope).filter fun scope => !c.sweeps scope).map fun scope =>
        c.countIn (s.map scope)).sum = 0 ↔
      (c.lwpid = 0 → c.pid ≠ 0 → ∀ lwpid addr b, s.Stores (some lwpid) addr b →
        c.matchesAddr addr = true → ¬c.Touches b) := by
  rw [List.sum_eq_zero_iff_forall_eq_nat]
  simp only [mem_map, mem_filter, forall_exists_index, and_imp, Bool.not_eq_true']
  constructor
  · intro h hlwpid hpid lwpid addr b hstores
    obtain ⟨hmatch, hsweeps⟩ := not_sweeps_iff.mpr ⟨⟨hlwpid, hpid⟩, lwpid, rfl⟩
    have hzero := h _ (some lwpid) (mem_scopes_of_stores hstores) hmatch hsweeps rfl
    exact (countIn_eq_zero_iff c _).mp hzero addr b hstores
  · intro h n scope _ hmatch hsweeps heq
    obtain ⟨⟨hlwpid, hpid⟩, lwpid, rfl⟩ := not_sweeps_iff.mp ⟨hmatch, hsweeps⟩
    rw [← heq, countIn_eq_zero_iff]
    exact h hlwpid hpid lwpid

theorem count_eq_total_iff (c : Call) (s : Manager) :
    (sweepMaps s c).removedCount = c.total hasThread s ↔
      (c.lwpid = 0 → c.pid ≠ 0 → ∀ lwpid addr b, s.Stores (some lwpid) addr b →
        c.matchesAddr addr = true → ¬c.Touches b) ∧
      ∀ b ∈ s.deferred, c.matchesDeferred hasThread b = true → ¬c.Touches b := by
  rw [← sum_unswept_eq_zero_iff, ← sum_deferred_eq_zero_iff, total_eq]
  omega

theorem removeBreakpointActions_spec (s : Manager) (c : Call) :
    (removeBreakpointActions hasThread s c).manager.map = (sweepMaps s c).manager.map ∧
    (removeBreakpointActions hasThread s c).removedCount = (sweepMaps s c).removedCount ∧
    (removeBreakpointActions hasThread s c).manager.deferred =
      if (sweepMaps s c).removedCount = 0 then s.deferred.filterMap fun b =>
        if c.reachesDeferred hasThread b then c.keep b else some b
      else s.deferred := by
  simp only [removeBreakpointActions]
  rw [← deferredLoop_eq, ← sweepMaps_deferred s c]
  split
  · refine ⟨?_, rfl, rfl⟩
    funext scope
    cases scope <;> rfl
  · exact ⟨rfl, rfl, rfl⟩

theorem sweepMaps_right_iff (s : Manager) (c : Call) :
    (∀ scope addr, ((sweepMaps s c).manager.map scope).lookup addr =
      ((s.map scope).lookup addr).bind fun b =>
        if c.matchesScope scope && c.matchesAddr addr then c.keep b else some b) ↔
      (c.lwpid = 0 → c.pid ≠ 0 → ∀ lwpid addr b, s.Stores (some lwpid) addr b →
        c.matchesAddr addr = true → ¬c.Touches b) ∧
      ∀ scope addr b, c.sweeps scope = true → s.Stores scope addr b →
        c.matchesAddr addr = true → b.actions ≠ [] := by
  simp only [sweepMaps_lookup]
  constructor
  · intro h
    constructor
    · intro hlwpid hpid lwpid addr b hstores haddr
      obtain ⟨hmatch, hsweeps⟩ := not_sweeps_iff.mpr ⟨⟨hlwpid, hpid⟩, lwpid, rfl⟩
      have hlookup := h (some lwpid) addr
      rw [hstores] at hlookup
      simp only [hmatch, hsweeps, haddr, Bool.false_and, Bool.true_and, Option.bind_some,
        Bool.false_eq_true, if_false, if_true] at hlookup
      exact keep_eq_some_self_iff.mp hlookup.symm
    · intro scope addr b hsweeps hstores haddr hnil
      have hlookup := h scope addr
      rw [hstores] at hlookup
      simp [hsweeps, matchesScope_of_sweeps hsweeps, haddr, leave_of_nil hnil, Call.keep, hnil]
        at hlookup
  · intro h scope addr
    obtain ⟨hthreads, hinUse⟩ := h
    cases hstores : (s.map scope).lookup addr with
    | none => rfl
    | some b =>
      cases haddr : c.matchesAddr addr with
      | false => simp
      | true =>
        cases hsweeps : c.sweeps scope with
        | true =>
          have hne := hinUse _ _ _ hsweeps hstores haddr
          simp [matchesScope_of_sweeps hsweeps, leave_of_ne_nil hne]
        | false =>
          cases hmatch : c.matchesScope scope with
          | false => rfl
          | true =>
            obtain ⟨⟨hlwpid, hpid⟩, lwpid, rfl⟩ := not_sweeps_iff.mp ⟨hmatch, hsweeps⟩
            simp [keep_of_not_touches (hthreads hlwpid hpid lwpid addr b hstores haddr)]

theorem sweepMaps_count_eq_zero_iff (s : Manager) (c : Call) :
    (sweepMaps s c).removedCount = 0 ↔ ∀ scope addr b, c.sweeps scope = true →
      s.Stores scope addr b → c.matchesAddr addr = true → ¬c.Touches b := by
  rw [sweepMaps_count, List.sum_eq_zero_iff_forall_eq_nat]
  simp only [mem_map, sweptScopes, mem_filter, forall_exists_index, and_imp]
  constructor
  · intro h scope addr b hsweeps hstores
    have hzero := h _ scope (mem_scopes_of_stores hstores) hsweeps rfl
    exact (countIn_eq_zero_iff c _).mp hzero addr b hstores
  · intro h n scope _ hsweeps heq
    rw [← heq, countIn_eq_zero_iff]
    exact fun addr b hstores => h scope addr b hsweeps hstores

theorem sweeps_iff_of_thread {c : Call} (h : c.lwpid ≠ 0) (scope : Option Nat) :
    c.sweeps scope = true ↔ scope = some c.lwpid := by
  cases scope with
  | none => simp [Call.sweeps, h]
  | some lwpid =>
    simp only [Call.sweeps, if_neg h, beq_iff_eq, Option.some.injEq]
    exact eq_comm

theorem reachesDeferred_iff {c : Call} {b : BreakPointBase} :
    c.reachesDeferred hasThread b = true ↔ c.matchesDeferred hasThread b = true ∨
      c.lwpid ≠ 0 ∧ c.matchesAddr b.addr = true ∧ hasThread b.id = false := by
  by_cases hlwpid : c.lwpid = 0 <;> cases hthread : hasThread b.id <;>
    simp [Call.reachesDeferred, Call.matchesDeferred, hlwpid, hthread]

theorem deferred_right_iff {s : Manager} {c : Call}
    (h : ∀ b ∈ s.deferred, c.matchesDeferred hasThread b = true → ¬c.Touches b) :
    (removeBreakpointActions hasThread s c).manager.deferred = s.deferred ↔
      (c.lwpid ≠ 0 → (sweepMaps s c).removedCount = 0 → ∀ b ∈ s.deferred,
        c.matchesAddr b.addr = true → hasThread b.id = false → ¬c.Touches b) := by
  rw [(removeBreakpointActions_spec hasThread s c).2.2]
  split
  · next hzero =>
    rw [filterMap_eq_self_iff]
    constructor
    · intro hself hlwpid _ b hb haddr hthread
      have hkeep := hself b hb
      rw [if_pos ((reachesDeferred_iff hasThread).mpr (Or.inr ⟨hlwpid, haddr, hthread⟩))] at hkeep
      exact keep_eq_some_self_iff.mp hkeep
    · intro hall b hb
      split
      · next hreaches =>
        refine keep_of_not_touches ?_
        cases (reachesDeferred_iff hasThread).mp hreaches with
        | inl hmatch => exact h b hb hmatch
        | inr hthread => exact hall hthread.1 hzero b hb hthread.2.1 hthread.2.2
      · rfl
  · next hzero => exact iff_of_true rfl fun _ hcount => absurd hcount hzero

theorem expected_deferred {s : Manager} {c : Call}
    (h : ∀ b ∈ s.deferred, c.matchesDeferred hasThread b = true → ¬c.Touches b) :
    (s.deferred.filterMap fun b =>
      if c.matchesDeferred hasThread b then c.keep b else some b) = s.deferred := by
  rw [filterMap_eq_self_iff]
  intro b hb
  split
  · next hmatch => exact keep_of_not_touches (h b hb hmatch)
  · rfl

theorem Complete.removesExactly {s : Manager} {c : Call} (h : Complete hasThread s c) :
    RemovesExactly hasThread s c (removeBreakpointActions hasThread s c) := by
  obtain ⟨hmap, hcount, -⟩ := removeBreakpointActions_spec hasThread s c
  refine ⟨?_, ?_, ?_⟩
  · rw [hmap]
    exact (sweepMaps_right_iff s c).mpr ⟨h.threads, h.inUse⟩
  · rw [expected_deferred hasThread h.deferred, deferred_right_iff hasThread h.deferred]
    intro hlwpid hzero
    refine (h.threadless hlwpid).resolve_left fun hsome => ?_
    obtain ⟨addr, b, hstores, haddr, htouches⟩ := hsome
    have hsweeps := (sweeps_iff_of_thread hlwpid (some c.lwpid)).mpr rfl
    exact (sweepMaps_count_eq_zero_iff s c).mp hzero _ addr b hsweeps hstores haddr htouches
  · rw [hcount]
    exact (count_eq_total_iff hasThread c s).mpr ⟨h.threads, h.deferred⟩

theorem RemovesExactly.complete {s : Manager} {c : Call}
    (h : RemovesExactly hasThread s c (removeBreakpointActions hasThread s c)) :
    Complete hasThread s c := by
  obtain ⟨hmap, hcount, -⟩ := removeBreakpointActions_spec hasThread s c
  obtain ⟨hthreads, hlater⟩ := (count_eq_total_iff hasThread c s).mp (hcount.symm.trans h.count)
  have hmaps := h.maps
  rw [hmap] at hmaps
  refine ⟨hthreads, ((sweepMaps_right_iff s c).mp hmaps).2, hlater, ?_⟩
  intro hlwpid
  have hkept := (deferred_right_iff hasThread hlater).mp
    (h.deferred.trans (expected_deferred hasThread hlater))
  by_cases hzero : (sweepMaps s c).removedCount = 0
  · exact Or.inr (hkept hlwpid hzero)
  · refine Or.inl ?_
    rw [sweepMaps_count_eq_zero_iff] at hzero
    simp only [sweeps_iff_of_thread hlwpid, not_forall, not_not] at hzero
    obtain ⟨scope, addr, b, rfl, hstores, haddr, htouches⟩ := hzero
    exact ⟨addr, b, hstores, haddr, htouches⟩

theorem removesExactly_iff (s : Manager) (c : Call) :
    RemovesExactly hasThread s c (removeBreakpointActions hasThread s c) ↔
      Complete hasThread s c :=
  ⟨fun h => h.complete, fun h => h.removesExactly⟩

section
variable {s : Manager} {c : Call} {o : Outcome} {b : BreakPointBase}

end

end

/-! A process 5 with a breakpoint at `0x10` for its thread 5, and one that is deferred. -/

def userAction : Action := ⟨1, "USER", 0⟩

def globalBreakPoint : BreakPointBase := ⟨1, .software, ⟨1, 5⟩, 0x10, 1, [userAction]⟩

def threadBreakPoint : BreakPointBase := ⟨2, .emulated, ⟨1, 5⟩, 0x10, 1, [userAction]⟩

def laterBreakPoint : BreakPointBase := ⟨3, .deferred .software, ⟨1, 5⟩, 0x20, 0, [userAction]⟩

def removeAll : Call := ⟨5, 0, 0, none⟩

def mixedManager : Manager where
  pid := 5
  globalBreakPoints := AList.singleton 0x10 globalBreakPoint
  perThreadBreakPoints := AList.singleton 5 (AList.singleton 0x10 threadBreakPoint)
  deferred := [laterBreakPoint]
  created := 3

theorem removeAll_leaves_actions :
    (removeBreakpointActions (fun _ => true) mixedManager removeAll).removedCount = 1 ∧
      ¬RemovesExactly (fun _ => true) mixedManager removeAll
        (removeBreakpointActions (fun _ => true) mixedManager removeAll) := by
  refine ⟨by decide, ?_⟩
  intro h
  exact absurd h.count (by decide)

end ZeroBugs.Engine.RemoveActions
