import ZeroBugs.Engine.BreakPointManager

/-! # Handling a debug event -/
namespace ZeroBugs.Engine.BreakPointManager

/-- The stopped thread, the address in the debug register that was hit, what each action of a
breakpoint returns (by the object's `id` and the position), and whether `do_enable` succeeds. -/
structure Event where
  thread : Thread
  haveNewProgram : Bool
  isRunnable : Bool
  signum : Nat
  programCount : Nat
  hasProcess : Bool
  isTraceable : Bool
  hardwareHit : Option Nat
  env : Env
  isActionEnabled : Action → Bool
  execute : Nat → Nat → Bool
  doEnable : Nat → Bool → Bool

def sigtrap : Nat := 5

abbrev Place := Option Nat × Nat

def Manager.entry (s : Manager) (p : Place) : Option BreakPointBase := (s.map p.1).lookup p.2

def Manager.put (s : Manager) (p : Place) (b : BreakPointBase) : Manager :=
  s.setMap p.1 ((s.map p.1).insert p.2 b)

def Manager.modify (s : Manager) (p : Place) (f : BreakPointBase → BreakPointBase) : Manager :=
  match s.entry p with
  | none => s
  | some b => s.put p (f b)

namespace BreakPointBase

variable (ev : Event) (b : BreakPointBase)

def disable : BreakPointBase :=
  if b.enable = 1 ∧ ev.doEnable b.id false = false then b else { b with enable := b.enable - 1 }

def enableCall : BreakPointBase :=
  if b.enable = 0 ∧ ev.doEnable b.id true = false then b else { b with enable := b.enable + 1 }

def reenable : BreakPointBase := if 0 < b.enable then b else b.enableCall ev

end BreakPointBase

def Event.removes (ev : Event) (id : Nat) (action : Action) (d : Nat) : Bool :=
  ev.isActionEnabled action && !ev.execute id d

/-- The loop of `BreakPointBase::execute_actions` over a copy of the list; `d` counts the turns. An
action that does not stay is erased at position `d` of a list that may be shorter by then. -/
def executeLoop (ev : Event) (id : Nat) : List Action → Nat → List Action →
    Except Fault (List Action)
  | [], _, actions => .ok actions
  | action :: rest, d, actions =>
    if ev.removes id action d then
      if d < actions.length then executeLoop ev id rest (d + 1) (actions.eraseIdx d)
      else .error .outOfRange
    else executeLoop ev id rest (d + 1) actions

/-- `execute_actions` of each class: an emulated breakpoint does nothing on another
thread. -/
def BreakPointBase.executeActions (ev : Event) (b : BreakPointBase) :
    Except Fault BreakPointBase :=
  match b.kind with
  | .deferred _ => .error (.logicError "cannot execute actions on a deferred breakpoint")
  | .emulated =>
    if ev.thread.lwpid = b.thread.lwpid then do
      return { b with actions := ← executeLoop ev b.id b.actions 0 b.actions }
    else .ok b
  | _ => do return { b with actions := ← executeLoop ev b.id b.actions 0 b.actions }

/-- `schedule_actions`: turn the breakpoint off, and put it on the list of pending
ones unless debug events are disabled for the thread. -/
def scheduleActions (ev : Event) (st : Manager × List Place) (p : Place) :
    Manager × List Place :=
  (st.1.modify p (·.disable ev), if ev.isTraceable then st.2 ++ [p] else st.2)

def onHardwareBreak (ev : Event) (s : Manager) (addr : Nat) :
    Except Fault (Manager × List Place) :=
  if addr ≠ ev.programCount then .ok (s, [])
  else match s.entry (some ev.thread.lwpid, addr) with
    | none => .error (.logicError ("on_hardware_break: get_breakpoint(addr=" ++
        String.ofList (Nat.toDigits 16 addr) ++ ", thread=" ++ toString ev.thread.lwpid ++
        ") failed!"))
    | some b =>
      if b.type ≠ .hardware then .error .assertion
      else .ok (scheduleActions ev (s, []) (some ev.thread.lwpid, addr))

/-- The first half of `try_breakpoints`. -/
def tryHardware (ev : Event) (s : Manager) : Except Fault (Manager × List Place) :=
  match ev.hardwareHit with
  | some addr => if ev.isTraceable then onHardwareBreak ev s addr else .ok (s, [])
  | none => .ok (s, [])

/-- The address of the instruction that trapped: a software breakpoint is executed,
a hardware breakpoint is not. -/
def Event.trapAddr (ev : Event) : Nat :=
  match ev.hardwareHit with
  | some _ => ev.programCount
  | none => ev.programCount - 1

/-- `BreakPointManagerImpl::get_breakpoint` for a process and the thread that owns an
emulated breakpoint. -/
def Manager.getBreakpoint (s : Manager) (owner : Thread) (a : Nat) :
    Option (Place × BreakPointBase) :=
  match s.globalBreakPoints.lookup a with
  | some b => some ((none, a), b)
  | none => s.perThreadBreakPoints.entries.findSome? fun e =>
    (e.2.lookup a).bind fun b =>
      if 0 < b.enable ∧ b.type = .emulated ∧ b.thread = owner then some ((some e.1, a), b)
      else none

/-- `DebuggerEngine::get_breakpoint` with the process of the thread, if there is one. -/
def findSoft (ev : Event) (s : Manager) : Except Fault (Option (Place × BreakPointBase)) :=
  if ev.hasProcess then
    match s.getBreakpoint ev.thread ev.trapAddr with
    | none => .ok none
    | some (p, b) => if b.isDeferred then .error .assertion else .ok (some (p, b))
  else .ok none

def scheduleSoft (ev : Event) (st : Manager × List Place) :
    Option (Place × BreakPointBase) → Manager × List Place
  | none => st
  | some (p, b) => if b.type ≠ .hardware ∧ 0 < b.enable then scheduleActions ev st p else st

/-- `try_breakpoints`. The manager is searched as it was before the hardware breakpoint was turned
off, which makes no difference. -/
def tryBreakpoints (ev : Event) (s : Manager) : Except Fault (Manager × List Place) :=
  if ev.programCount = 0 then .ok (s, [])
  else do
    let st ← tryHardware ev s
    let found ← findSoft ev s
    return scheduleSoft ev st found

/-- `DebuggerEngine::execute_actions` for the breakpoint at a place: erase it if it
has no actions left, else put it on the list of those to enable. -/
def executeAt (ev : Event) (p : Place) (st : Manager × List Place) :
    Except Fault (Manager × List Place) :=
  match st.1.entry p with
  | none => .ok st
  | some b => do
    let b ← b.executeActions ev
    let s := st.1.put p b
    return if b.actions = [] then ((erase ev.env b s).2, st.2) else (s, st.2 ++ [p])

def execPendingActions (ev : Event) (st : Manager × List Place) : Except Fault Manager := do
  let (s, pendingEnable) ← st.2.foldlM (fun st p => executeAt ev p st) (st.1, [])
  return pendingEnable.foldl (fun s p => s.modify p (·.reenable ev)) s

def onEvent (ev : Event) (s : Manager) : Except Fault Manager :=
  if ev.haveNewProgram then .ok s
  else if ev.isRunnable ∧ ev.signum = sigtrap then do
    let st ← tryBreakpoints ev s
    execPendingActions ev st
  else execPendingActions ev (s, [])

end ZeroBugs.Engine.BreakPointManager
