import ZeroBugs.Engine.EventHits

/-! # Which actions are executed, and which ones stay -/
namespace ZeroBugs.Engine.BreakPointManager
open List

variable {κ : Type*} (ev : Event) (id : Nat)

/-- What `execute_actions` changes: `actions_`, `actionContexts_` by the address of the action, and
what was executed so far in which context. -/
structure Execution (κ : Type*) where
  actions : List Action
  actionContexts : Nat → Option κ
  executed : List (Action × Option κ)

namespace Execution

def execute (s : Execution κ) (action : Action) : Execution κ :=
  { s with executed := s.executed ++ [(action, s.actionContexts action.object)] }

def eraseAt (s : Execution κ) (d : Nat) : Except Fault (Execution κ) :=
  match s.actions[d]? with
  | none => .error .outOfRange
  | some action => .ok { s with
      actions := s.actions.eraseIdx d
      actionContexts := Function.update s.actionContexts action.object none }

def loop : List Action → Nat → Execution κ → Except Fault (Execution κ)
  | [], _, s => .ok s
  | action :: rest, d, s =>
    if ev.isActionEnabled action = false then loop rest (d + 1) s
    else if ev.execute id d then loop rest (d + 1) (s.execute action)
    else do loop rest (d + 1) (← (s.execute action).eraseAt d)

end Execution

def BreakPointBase.executeWithContexts (b : BreakPointBase) (actionContexts : Nat → Option κ) :
    Except Fault (Execution κ) :=
  Execution.loop ev b.id b.actions 0 ⟨b.actions, actionContexts, []⟩

def staying : List Action → Nat → List Action
  | [], _ => []
  | action :: rest, d =>
    if ev.removes id action d then staying rest (d + 1) else action :: staying rest (d + 1)

def leaving : List Action → Nat → List Action
  | [], _ => []
  | action :: rest, d =>
    if ev.removes id action d then action :: leaving rest (d + 1) else leaving rest (d + 1)

/-- The right actions stay, every enabled action was executed once, and exactly the
contexts of the actions that left were erased. -/
structure RightOnesKept (b : BreakPointBase) (actionContexts : Nat → Option κ)
    (out : Execution κ) : Prop where
  actions : out.actions = staying ev b.id b.actions 0
  executed : out.executed.map Prod.fst = b.actions.filter ev.isActionEnabled
  contexts : ∀ o, out.actionContexts o =
    if o ∈ (leaving ev b.id b.actions 0).map Action.object then none else actionContexts o

@[simp] theorem execute_actions (s : Execution κ) (action : Action) :
    (s.execute action).actions = s.actions := rfl

@[simp] theorem execute_contexts (s : Execution κ) (action : Action) :
    (s.execute action).actionContexts = s.actionContexts := rfl

theorem eraseIdx_length_append (done rest : List Action) (action : Action) :
    (done ++ action :: rest).eraseIdx done.length = done ++ rest := by
  rw [eraseIdx_append_of_length_le le_rfl]
  simp

theorem eraseAt_cases (s : Execution κ) (d : Nat) :
    (∃ action, s.actions[d]? = some action ∧ s.eraseAt d = .ok { s with
        actions := s.actions.eraseIdx d
        actionContexts := Function.update s.actionContexts action.object none }) ∨
      (s.actions.length ≤ d ∧ s.eraseAt d = .error .outOfRange) := by
  unfold Execution.eraseAt
  cases h : s.actions[d]? with
  | none => exact .inr ⟨List.getElem?_eq_none_iff.mp h, rfl⟩
  | some action => exact .inl ⟨action, rfl, rfl⟩

variable {d : Nat}

theorem loop_stays {action : Action} (h : ev.removes id action d = false)
    (rest : List Action) (s : Execution κ) :
    Execution.loop ev id (action :: rest) d s = Execution.loop ev id rest (d + 1)
      (if ev.isActionEnabled action then s.execute action else s) := by
  cases henabled : ev.isActionEnabled action with
  | false => simp [Execution.loop, henabled]
  | true =>
    have hanswer : ev.execute id d = true := by simpa [Event.removes, henabled] using h
    simp [Execution.loop, henabled, hanswer]

theorem loop_leaves {action : Action} (h : ev.removes id action d = true)
    (rest : List Action) (s : Execution κ) :
    Execution.loop ev id (action :: rest) d s =
      ((s.execute action).eraseAt d).bind (Execution.loop ev id rest (d + 1)) := by
  obtain ⟨henabled, hanswer⟩ : ev.isActionEnabled action = true ∧ ev.execute id d = false := by
    simpa [Event.removes] using h
  simp [Execution.loop, henabled, hanswer, bind]

theorem loop_actions (rest : List Action) (d : Nat) (s : Execution κ) :
    (Execution.loop ev id rest d s).map Execution.actions =
      executeLoop ev id rest d s.actions := by
  induction rest generalizing d s with
  | nil => rfl
  | cons action rest ih =>
    cases hrem : ev.removes id action d with
    | false =>
      rw [loop_stays ev id hrem, ih]
      split <;> simp [executeLoop, hrem]
    | true =>
      rw [loop_leaves ev id hrem]
      rcases eraseAt_cases (s.execute action) d with ⟨a, ha, herase⟩ | ⟨hlen, herase⟩
      · have hd : d < s.actions.length := (List.getElem?_eq_some_iff.mp ha).1
        rw [herase, Except.bind, ih]
        simp [executeLoop, hrem, hd]
      · have hd : ¬d < s.actions.length := by simpa using hlen
        rw [herase]
        simp [executeLoop, hrem, hd, Except.bind, Except.map]

theorem removals_eq_length (rest : List Action) (d : Nat) :
    removals ev id rest d = (leaving ev id rest d).length := by
  induction rest generalizing d with
  | nil => rfl
  | cons action rest ih =>
    cases hrem : ev.removes id action d <;> simp [removals, leaving, hrem, ih]
    omega

variable {rest : List Action}

theorem staying_eq_self (h : removals ev id rest d = 0) :
    staying ev id rest d = rest := by
  induction rest generalizing d with
  | nil => rfl
  | cons action rest ih =>
    cases hrem : ev.removes id action d with
    | false =>
      have hrest : removals ev id rest (d + 1) = 0 := by simpa [removals, hrem] using h
      simp [staying, hrem, ih hrest]
    | true => simp [removals, hrem] at h

theorem loop_none (h : removals ev id rest d = 0)
    (s : Execution κ) : ∃ executed, Execution.loop ev id rest d s =
        .ok { s with executed := executed } ∧
      executed.map Prod.fst = s.executed.map Prod.fst ++ rest.filter ev.isActionEnabled := by
  induction rest generalizing d s with
  | nil => exact ⟨s.executed, rfl, by simp⟩
  | cons action rest ih =>
    cases hrem : ev.removes id action d with
    | true => simp [removals, hrem] at h
    | false =>
      have hrest : removals ev id rest (d + 1) = 0 := by simpa [removals, hrem] using h
      rw [loop_stays ev id hrem]
      cases henabled : ev.isActionEnabled action with
      | false => simpa [henabled] using ih hrest s
      | true => simpa [henabled, Execution.execute] using ih hrest (s.execute action)

theorem loop_at_most_one (done : List Action)
    (h : removals ev id rest done.length ≤ 1) (s : Execution κ)
    (hactions : s.actions = done ++ rest) :
    ∃ out, Execution.loop ev id rest done.length s = .ok out ∧
      out.actions = done ++ staying ev id rest done.length ∧
      out.executed.map Prod.fst = s.executed.map Prod.fst ++ rest.filter ev.isActionEnabled ∧
      ∀ o, out.actionContexts o =
        if o ∈ (leaving ev id rest done.length).map Action.object then none
        else s.actionContexts o := by
  induction rest generalizing done s with
  | nil => exact ⟨s, rfl, by simpa [staying] using hactions, by simp, by simp [leaving]⟩
  | cons action rest ih =>
    cases hrem : ev.removes id action done.length with
    | false =>
      have hrest : removals ev id rest (done ++ [action]).length ≤ 1 := by
        simpa [removals, hrem] using h
      rw [loop_stays ev id hrem]
      cases henabled : ev.isActionEnabled action with
      | false =>
        have := ih _ hrest s (by simpa using hactions)
        simpa [staying, leaving, hrem, henabled] using this
      | true =>
        have := ih _ hrest (s.execute action) (by simpa using hactions)
        simpa [staying, leaving, hrem, henabled, Execution.execute] using this
    | true =>
      have hrest : removals ev id rest (done.length + 1) = 0 := by
        simp only [removals, hrem, if_true] at h
        omega
      have henabled : ev.isActionEnabled action = true := by
        simp only [Event.removes, Bool.and_eq_true] at hrem
        exact hrem.1
      have hat : (s.execute action).actions[done.length]? = some action := by
        simp [hactions]
      have herased : s.actions.eraseIdx done.length = done ++ rest := by
        rw [hactions, eraseIdx_length_append]
      have hnone : leaving ev id rest (done.length + 1) = [] := by
        rw [← length_eq_zero_iff, ← removals_eq_length, hrest]
      rw [loop_leaves ev id hrem, Execution.eraseAt, hat]
      obtain ⟨executed, hloop, hexecuted⟩ := loop_none ev id hrest { (s.execute action) with
        actions := (s.execute action).actions.eraseIdx done.length
        actionContexts := Function.update (s.execute action).actionContexts action.object none }
      refine ⟨_, hloop, ?_, ?_, ?_⟩
      · simpa [staying, hrem, staying_eq_self ev id hrest] using herased
      · simpa [henabled, Execution.execute] using hexecuted
      · simp [leaving, hrem, hnone, Function.update_apply]

variable {left : List Action}

theorem executeLoop_front {actions : List Action}
    (h : executeLoop ev id rest d actions = .ok left) {k : Nat} (hk : k < d) :
    left[k]? = actions[k]? := by
  induction rest generalizing d actions with
  | nil =>
    cases h
    rfl
  | cons action rest ih =>
    simp only [executeLoop] at h
    split at h
    · split at h
      · rw [ih h (by omega), getElem?_eraseIdx_of_lt hk]
      · cases h
    · exact ih h (by omega)

theorem executeLoop_keeps_leaving {done : List Action}
    (h : executeLoop ev id rest (done.length + 1) (done ++ rest) = .ok left)
    (hleaving : leaving ev id rest (done.length + 1) ≠ []) :
    ∃ action ∈ leaving ev id rest (done.length + 1), action ∈ left := by
  induction rest generalizing done with
  | nil => exact absurd rfl hleaving
  | cons action rest ih =>
    cases hrem : ev.removes id action (done.length + 1) with
    | false =>
      have hlen : (done ++ [action]).length = done.length + 1 := by simp
      have hrest := @ih (done ++ [action])
      rw [hlen, append_assoc, singleton_append] at hrest
      simp only [executeLoop, leaving, hrem, Bool.false_eq_true, if_false] at h hleaving ⊢
      exact hrest h hleaving
    | true =>
      have hfront := executeLoop_front ev id h (Nat.lt_succ_self done.length)
      refine ⟨action, by simp [leaving, hrem], ?_⟩
      exact mem_of_getElem? (hfront.trans (by simp))

theorem executeLoop_two (done : List Action)
    (h : executeLoop ev id rest done.length (done ++ rest) = .ok left)
    (htwo : 2 ≤ removals ev id rest done.length) :
    ∃ action ∈ leaving ev id rest done.length, action ∈ left := by
  induction rest generalizing done with
  | nil => simp [removals] at htwo
  | cons action rest ih =>
    cases hrem : ev.removes id action done.length with
    | false =>
      have hlen : (done ++ [action]).length = done.length + 1 := by simp
      have hrest := ih (done ++ [action])
      rw [hlen, append_assoc, singleton_append] at hrest
      simp only [executeLoop, leaving, removals, hrem, Bool.false_eq_true, if_false,
        Nat.zero_add] at h htwo ⊢
      exact hrest h htwo
    | true =>
      simp only [executeLoop, leaving, removals, hrem, if_true] at h htwo ⊢
      rw [if_pos (by simp), eraseIdx_length_append] at h
      have hleaving : leaving ev id rest (done.length + 1) ≠ [] := by
        rw [← length_pos_iff, ← removals_eq_length]
        omega
      obtain ⟨a, ha, hleft⟩ := executeLoop_keeps_leaving ev id h hleaving
      exact ⟨a, mem_cons_of_mem _ ha, hleft⟩

theorem staying_sublist (rest : List Action) (d : Nat) :
    (staying ev id rest d).Sublist rest := by
  induction rest generalizing d with
  | nil => exact .slnil
  | cons action rest ih =>
    rw [staying]
    split
    · exact (ih _).cons _
    · exact (ih _).cons_cons _

theorem leaving_sublist (rest : List Action) (d : Nat) :
    (leaving ev id rest d).Sublist rest := by
  induction rest generalizing d with
  | nil => exact .slnil
  | cons action rest ih =>
    rw [leaving]
    split
    · exact (ih _).cons_cons _
    · exact (ih _).cons _

theorem leaving_disjoint (hdistinct : rest.Nodup) :
    ∀ action ∈ leaving ev id rest d, action ∉ staying ev id rest d := by
  induction rest generalizing d with
  | nil => simp [leaving]
  | cons a rest ih =>
    obtain ⟨hnew, hrest⟩ := nodup_cons.mp hdistinct
    intro action hleaves hstays
    rw [leaving] at hleaves
    rw [staying] at hstays
    split at hleaves
    · rename_i hrem
      rw [if_pos hrem] at hstays
      rcases mem_cons.mp hleaves with rfl | hmem
      · exact hnew ((staying_sublist ev id _ _).subset hstays)
      · exact ih hrest action hmem hstays
    · rename_i hrem
      rw [if_neg hrem] at hstays
      rcases mem_cons.mp hstays with rfl | hmem
      · exact hnew ((leaving_sublist ev id _ _).subset hleaves)
      · exact ih hrest action hleaves hmem

theorem right_ones_kept_iff (b : BreakPointBase) (actionContexts : Nat → Option κ)
    (hdistinct : (b.actions.map Action.object).Nodup) :
    (∃ out, b.executeWithContexts ev actionContexts = .ok out ∧
        RightOnesKept ev b actionContexts out) ↔
      removals ev b.id b.actions 0 ≤ 1 := by
  constructor
  · rintro ⟨out, hout, hright⟩
    by_contra hmore
    have hlist : executeLoop ev b.id b.actions 0 b.actions = .ok out.actions := by
      rw [← loop_actions ev b.id b.actions 0 ⟨b.actions, actionContexts, []⟩]
      exact congrArg (Except.map Execution.actions) hout
    obtain ⟨action, hleaves, hstays⟩ := executeLoop_two ev b.id [] hlist (not_le.mp hmore)
    rw [hright.actions] at hstays
    exact leaving_disjoint ev b.id hdistinct.of_map action hleaves hstays
  · intro hone
    obtain ⟨out, hout, hactions, hexecuted, hcontexts⟩ :=
      loop_at_most_one ev b.id [] hone ⟨b.actions, actionContexts, []⟩ rfl
    exact ⟨out, hout, hactions, hexecuted, hcontexts⟩

/-! A breakpoint with three actions, the first of which are done. -/

def doneBefore (turn : Nat) : Event where
  thread := ⟨1, 100⟩
  haveNewProgram := false
  isRunnable := true
  signum := sigtrap
  programCount := 0x4001
  hasProcess := true
  isTraceable := true
  hardwareHit := none
  env := softOnly
  isActionEnabled _ := true
  execute _ d := decide (turn ≤ d)
  doEnable _ _ := true

def threeActions : BreakPointBase where
  id := 0
  kind := .software
  thread := ⟨1, 100⟩
  addr := 0x4000
  enable := 1
  actions := [⟨1, "ignore", 1⟩, ⟨2, "once", 2⟩, ⟨3, "stop", 3⟩]

theorem right_ones_kept_iff_threeActions :
    (∃ out, threeActions.executeWithContexts (doneBefore 1) (fun o => some o) = .ok out ∧
        RightOnesKept (doneBefore 1) threeActions (fun o => some o) out) ↔
      removals (doneBefore 1) 0 threeActions.actions 0 ≤ 1 :=
  right_ones_kept_iff (doneBefore 1) threeActions (fun o => some o) (by decide)

theorem second_done_erases_neighbour :
    ¬∃ out, threeActions.executeWithContexts (doneBefore 2) (fun o => some o) = .ok out ∧
      RightOnesKept (doneBefore 2) threeActions (fun o => some o) out := by
  rintro ⟨out, hout, hright⟩
  cases hout
  exact absurd hright.actions (by decide)

end ZeroBugs.Engine.BreakPointManager
