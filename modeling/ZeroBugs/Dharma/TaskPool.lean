import ZeroBugs.Lib.Runs

/-! # The task pool -/
namespace ZeroBugs.Dharma.TaskPool
open Lib.Runs

variable {ν τ : Type*}

structure Pool (τ : Type*) where
  queue : List τ
  cancelled : Bool

/-- How a stretch of `get_task` ends: with `wait`, or with a return, of true with a task and else of
false. -/
inductive Attempt (τ : Type*) where
  | waits
  | returns (task : Option τ)

namespace Pool

def cancel (p : Pool τ) : Pool τ := { p with cancelled := true }

def schedule (p : Pool τ) (task : τ) : Pool τ := { p with queue := p.queue ++ [task] }

def getTask (p : Pool τ) : Attempt τ × Pool τ :=
  match p.cancelled, p.queue with
  | false, [] => (.waits, p)
  | true, _ => (.returns none, p)
  | false, task :: rest => (.returns (some task), { p with queue := rest })

def drained (p : Pool τ) : Bool := p.queue.isEmpty

end Pool

/-- Where a thread is. A `ready` worker is about to call `get_task`. A thread may wait for the queue
to be empty in the middle of a task. -/
inductive Phase (τ : Type*) where
  | ready
  | waitsForTask
  | waitsUntilEmpty (during : Option τ)
  | executing (task : τ)
  | finished

inductive Event (ν τ : Type*) where
  | scheduled (t : ν) (task : τ)
  | gotTask (t : ν) (task : Option τ)
  | cancelled (t : ν)
  deriving DecidableEq

structure System (ν τ : Type*) where
  isWorker : ν → Bool
  pool : Pool τ
  phase : ν → Phase τ
  history : List (Event ν τ)

/-- What a thread does next. `executed` ends the execution of a task, possibly with an
exception. -/
inductive Action (τ : Type*) where
  | schedule (task : τ)
  | cancel
  | getTask
  | waitUntilEmpty
  | wake
  | executed (throws : Bool)

namespace System

variable [DecidableEq ν] (s : System ν τ) (t : ν)

def mayCall : Bool :=
  match s.phase t with
  | .ready => !s.isWorker t
  | .executing _ => true
  | _ => false

def moveTo (phase : Phase τ) : System ν τ :=
  { s with phase := Function.update s.phase t phase }

def record (e : Event ν τ) : System ν τ := { s with history := s.history ++ [e] }

/-- The loop of `execute_from_queue`: a worker executes the task or ends. -/
def afterGetTask (task : Option τ) : Phase τ :=
  if s.isWorker t then task.elim .finished .executing else .ready

def runGetTask : System ν τ :=
  match s.pool.getTask with
  | (.waits, p) => { s with pool := p }.moveTo t .waitsForTask
  | (.returns task, p) =>
    ({ s with pool := p }.moveTo t (s.afterGetTask t task)).record (.gotTask t task)

def runWaitUntilEmpty (during : Option τ) : System ν τ :=
  s.moveTo t (if s.pool.drained then during.elim .ready .executing else .waitsUntilEmpty during)

/-- One step of one thread. A thread that is not where the action starts stays there. -/
def act (a : ν × Action τ) : System ν τ :=
  match a.2, s.phase a.1 with
  | .schedule task, _ =>
    if s.mayCall a.1 then { s with pool := s.pool.schedule task }.record (.scheduled a.1 task)
    else s
  | .cancel, _ =>
    if s.mayCall a.1 then { s with pool := s.pool.cancel }.record (.cancelled a.1) else s
  | .getTask, .ready => s.runGetTask a.1
  | .waitUntilEmpty, .ready => if s.mayCall a.1 then s.runWaitUntilEmpty a.1 none else s
  | .waitUntilEmpty, .executing task => s.runWaitUntilEmpty a.1 (some task)
  | .wake, .waitsForTask => s.runGetTask a.1
  | .wake, .waitsUntilEmpty during => s.runWaitUntilEmpty a.1 during
  | .executed throws, .executing _ => s.moveTo a.1 (if throws then .finished else .ready)
  | _, _ => s

def start (isWorker : ν → Bool) : System ν τ where
  isWorker := isWorker
  pool := ⟨[], false⟩
  phase _ := .ready
  history := []

end System

def scheduledTasks (history : List (Event ν τ)) : List τ :=
  history.filterMap fun
    | .scheduled _ task => some task
    | _ => none

def returnedTasks (history : List (Event ν τ)) : List τ :=
  history.filterMap fun
    | .gotTask _ task => task
    | _ => none

structure Delivers [DecidableEq τ] (history : List (Event ν τ)) : Prop where
  in_order : returnedTasks history <+: scheduledTasks history
  at_most_once : ∀ task,
    (returnedTasks history).count task ≤ (scheduledTasks history).count task
  none_after_cancel : ∀ before t after, history = before ++ .cancelled t :: after →
    returnedTasks after = []

inductive Effect (p : Pool τ) : Pool τ → List (Event ν τ) → Prop where
  | none : Effect p p []
  | schedule (t : ν) (task : τ) : Effect p (p.schedule task) [.scheduled t task]
  | cancel (t : ν) : Effect p p.cancel [.cancelled t]
  | refuse (t : ν) : Effect p p [.gotTask t none]
  | deliver (t : ν) (task : τ) (rest : List τ) (hrunning : p.cancelled = false)
      (hqueue : p.queue = task :: rest) :
      Effect p { p with queue := rest } [.gotTask t (some task)]

theorem getTask_cases (p : Pool τ) :
    p.getTask = (.waits, p) ∨ p.getTask = (.returns none, p) ∨
      ∃ task rest, p.cancelled = false ∧ p.queue = task :: rest ∧
        p.getTask = (.returns (some task), { p with queue := rest }) := by
  obtain ⟨queue, cancelled⟩ := p
  cases cancelled with
  | true => exact .inr (.inl rfl)
  | false =>
    cases queue with
    | nil => exact .inl rfl
    | cons task rest => exact .inr (.inr ⟨task, rest, rfl, rfl, rfl⟩)

section Step

variable (s : System ν τ)

def HasEffect (s' : System ν τ) : Prop :=
  ∃ events, s'.history = s.history ++ events ∧ Effect s.pool s'.pool events

theorem hasEffect_none {s' : System ν τ} (hpool : s'.pool = s.pool)
    (hhistory : s'.history = s.history) : HasEffect s s' := by
  refine ⟨[], by simp [hhistory], ?_⟩
  rw [hpool]
  exact .none

variable [DecidableEq ν]

theorem runGetTask_effect (t : ν) : HasEffect s (s.runGetTask t) := by
  unfold System.runGetTask
  rcases getTask_cases s.pool with h | h | ⟨task, rest, hrunning, hqueue, h⟩ <;> rw [h]
  · exact hasEffect_none s rfl rfl
  · exact ⟨_, rfl, .refuse t⟩
  · exact ⟨_, rfl, .deliver t task rest hrunning hqueue⟩

theorem act_effect (a : ν × Action τ) : HasEffect s (s.act a) := by
  obtain ⟨t, action⟩ := a
  unfold System.act
  split
  · split
    · exact ⟨_, rfl, .schedule t _⟩
    · exact hasEffect_none s rfl rfl
  · split
    · exact ⟨_, rfl, .cancel t⟩
    · exact hasEffect_none s rfl rfl
  · exact runGetTask_effect s t
  · split <;> exact hasEffect_none s rfl rfl
  · exact hasEffect_none s rfl rfl
  · exact runGetTask_effect s t
  · exact hasEffect_none s rfl rfl
  · exact hasEffect_none s rfl rfl
  · exact hasEffect_none s rfl rfl

end Step

@[simp] theorem scheduledTasks_append (h₁ h₂ : List (Event ν τ)) :
    scheduledTasks (h₁ ++ h₂) = scheduledTasks h₁ ++ scheduledTasks h₂ :=
  List.filterMap_append

@[simp] theorem returnedTasks_append (h₁ h₂ : List (Event ν τ)) :
    returnedTasks (h₁ ++ h₂) = returnedTasks h₁ ++ returnedTasks h₂ :=
  List.filterMap_append

/-- What was scheduled is what was returned and what is in the queue. A cancelled pool is marked,
and has returned nothing since. -/
structure Agrees (p : Pool τ) (history : List (Event ν τ)) : Prop where
  order : scheduledTasks history = returnedTasks history ++ p.queue
  marked : ∀ t, .cancelled t ∈ history → p.cancelled = true
  quiet : ∀ before t after, history = before ++ .cancelled t :: after →
    returnedTasks after = []

theorem Agrees.start : Agrees (⟨[], false⟩ : Pool τ) ([] : List (Event ν τ)) where
  order := rfl
  marked := by simp
  quiet := by simp

theorem quiet_concat {history : List (Event ν τ)} {e : Event ν τ}
    (hquiet : ∀ before t after, history = before ++ .cancelled t :: after →
      returnedTasks after = [])
    (he : ∀ t, .cancelled t ∈ history → returnedTasks [e] = []) :
    ∀ before t after, history ++ [e] = before ++ .cancelled t :: after →
      returnedTasks after = [] := by
  intro before t after heq
  rcases List.eq_nil_or_concat after with rfl | ⟨front, last, rfl⟩
  · rfl
  · rw [List.concat_eq_append, ← List.cons_append, ← List.append_assoc] at heq
    obtain ⟨hfront, hlast⟩ := List.append_inj' heq rfl
    cases hlast
    have hmem : .cancelled t ∈ history := by simp [hfront]
    simp [hquiet before t front hfront, he t hmem]

theorem Agrees.effect {p p' : Pool τ} {history events : List (Event ν τ)}
    (h : Agrees p history) (heffect : Effect p p' events) : Agrees p' (history ++ events) := by
  cases heffect with
  | none => simpa using h
  | schedule t task =>
    refine ⟨?_, ?_, quiet_concat h.quiet fun _ _ => rfl⟩
    · rw [scheduledTasks_append, returnedTasks_append, h.order]
      simp [Pool.schedule, scheduledTasks, returnedTasks]
    · intro t' ht'
      exact h.marked t' (by simpa using ht')
  | cancel t =>
    refine ⟨?_, fun _ _ => rfl, quiet_concat h.quiet fun _ _ => rfl⟩
    simpa [Pool.cancel, scheduledTasks, returnedTasks] using h.order
  | refuse t =>
    refine ⟨?_, ?_, quiet_concat h.quiet fun _ _ => rfl⟩
    · simpa [scheduledTasks, returnedTasks] using h.order
    · intro t' ht'
      exact h.marked t' (by simpa using ht')
  | deliver t task rest hrunning hqueue =>
    refine ⟨?_, ?_, quiet_concat h.quiet ?_⟩
    · have horder := h.order
      rw [hqueue] at horder
      simpa [scheduledTasks, returnedTasks] using horder
    · intro t' ht'
      exact h.marked t' (by simpa using ht')
    · intro t' ht'
      rw [h.marked t' ht'] at hrunning
      cases hrunning

theorem Agrees.run [DecidableEq ν] {s : System ν τ} (h : Agrees s.pool s.history)
    (actions : List (ν × Action τ)) :
    Agrees (run System.act s actions).pool (run System.act s actions).history := by
  induction actions generalizing s with
  | nil => exact h
  | cons a actions ih =>
    obtain ⟨events, hhistory, heffect⟩ := act_effect s a
    apply @ih (s.act a)
    rw [hhistory]
    exact h.effect heffect

theorem delivers [DecidableEq ν] [DecidableEq τ] (isWorker : ν → Bool)
    (actions : List (ν × Action τ)) :
    Delivers (run System.act (System.start isWorker) actions).history := by
  have hagrees := Agrees.run (s := System.start isWorker) Agrees.start actions
  have hfirst : returnedTasks _ <+: scheduledTasks _ := ⟨_, hagrees.order.symm⟩
  exact ⟨hfirst, fun task => hfirst.sublist.count_le task, hagrees.quiet⟩

theorem none_lost [DecidableEq ν] (isWorker : ν → Bool) (actions : List (ν × Action τ)) :
    scheduledTasks (run System.act (System.start isWorker) actions).history =
      returnedTasks (run System.act (System.start isWorker) actions).history ++
        (run System.act (System.start isWorker) actions).pool.queue :=
  (Agrees.run (s := System.start isWorker) Agrees.start actions).order

end ZeroBugs.Dharma.TaskPool
