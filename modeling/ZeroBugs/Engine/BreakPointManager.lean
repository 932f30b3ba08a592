import Mathlib

/-! # The breakpoint manager -/
namespace ZeroBugs.Engine.BreakPointManager

structure Thread where
  object : Nat
  lwpid : Nat
  deriving DecidableEq

/-- `BreakPoint::Type`. `GLOBAL` is `SOFTWARE`, `PER_THREAD` is `EMULATED`. -/
inductive BreakPointType where
  | software
  | emulated
  | hardware
  | deferred
  deriving DecidableEq

structure Action where
  object : Nat
  name : String
  cookie : Nat
  deriving DecidableEq

/-- The class of a breakpoint object. A `DeferredBreakPoint` has the type that was
asked for. -/
inductive Kind where
  | software
  | emulated
  | hardware (register : Nat)
  | deferred (type : BreakPointType)
  deriving DecidableEq

structure BreakPointBase where
  id : Nat
  kind : Kind
  thread : Thread
  addr : Nat
  enable : Int
  actions : List Action
  deriving DecidableEq

namespace BreakPointBase

def type (b : BreakPointBase) : BreakPointType :=
  match b.kind with
  | .software => .software
  | .emulated => .emulated
  | .hardware _ => .hardware
  | .deferred type => type

def isDeferred (b : BreakPointBase) : Bool :=
  match b.kind with
  | .deferred _ => true
  | _ => false

def addAction (b : BreakPointBase) (action : Action) : BreakPointBase :=
  if action.cookie ≠ 0 ∧ ∃ a ∈ b.actions, a.cookie = action.cookie ∧ a.name = action.name then b
  else { b with actions := b.actions ++ [action] }

def addActions (b : BreakPointBase) (action : Option Action) : BreakPointBase :=
  action.elim b b.addAction

end BreakPointBase

/-- What ends a call other than a return. `outOfRange` is the use of an iterator
past the end of a list. -/
inductive Fault where
  | runtimeError (msg : String)
  | logicError (msg : String)
  | assertion
  | outOfRange
  deriving DecidableEq

/-- What the debuggee answers: the state of its threads, whether a debug register can be had, and
what `BreakPointBase::enable` of a software breakpoint gives, with its thread afterwards (another
one, if the thread is finished). -/
structure Env where
  isLive : Thread → Bool
  isAttached : Thread → Bool
  inProcess : Thread → Bool
  useHardware : Bool
  setHardwareBreakpoint : Thread → Nat → Option Nat
  enable : Thread → Nat → Except Fault (Int × Thread)

abbrev BreakPointMap := AList fun _ : Nat => BreakPointBase

/-- `BreakPointManagerImpl`; `created` counts the objects made so far. -/
structure Manager where
  pid : Nat
  globalBreakPoints : BreakPointMap
  perThreadBreakPoints : AList fun _ : Nat => BreakPointMap
  deferred : List BreakPointBase
  created : Nat

namespace Manager

def empty (pid : Nat) : Manager := ⟨pid, ∅, ∅, [], 0⟩

def map (s : Manager) : Option Nat → BreakPointMap
  | none => s.globalBreakPoints
  | some lwpid => (s.perThreadBreakPoints.lookup lwpid).getD ∅

def setMap (s : Manager) (scope : Option Nat) (m : BreakPointMap) : Manager :=
  match scope with
  | none => { s with globalBreakPoints := m }
  | some lwpid => { s with perThreadBreakPoints := s.perThreadBreakPoints.insert lwpid m }

end Manager

def checkSetBreakpointContractIn (env : Env) (thread : Thread) (type : BreakPointType) :
    Except Fault Unit :=
  if env.isLive thread = false then .error (.runtimeError "operation requires a live thread")
  else if type = .software ∧ env.isAttached thread = false then
    .error (.logicError "thread not attached")
  else if env.inProcess thread = false then .error .assertion
  else .ok ()

def breakpointMatches (thread : Thread) (addr : Nat) (type : BreakPointType)
    (b : BreakPointBase) : Bool :=
  b.thread == thread && (addr == 0 || b.addr == addr) && b.type == type

structure Request where
  thread : Thread
  type : BreakPointType
  addr : Nat
  action : Option Action
  deferred : Bool

def scopeOf (type : BreakPointType) (lwpid : Nat) : Option Nat :=
  if type = .software then none else some lwpid

def Request.scope (r : Request) : Option Nat := scopeOf r.type r.thread.lwpid

/-- `find_breakpoint`. Looking for the map of a thread creates it. -/
def Manager.findBreakpoint (s : Manager) (r : Request) : Option BreakPointBase × Manager :=
  ((s.map r.scope).lookup r.addr, s.setMap r.scope (s.map r.scope))

def Manager.findDeferred (s : Manager) (r : Request) : Option BreakPointBase :=
  s.deferred.find? (breakpointMatches r.thread r.addr r.type)

/-- `create_breakpoint`. Without a debug register the hardware breakpoint is
emulated. -/
def createBreakpoint (env : Env) (id : Nat) (r : Request) : Except Fault BreakPointBase :=
  match if r.type = .hardware ∧ env.useHardware = true
    then env.setHardwareBreakpoint r.thread r.addr else none with
  | some reg => .ok ⟨id, .hardware reg, r.thread, r.addr, 1, []⟩
  | none => do
    let (count, thread) ← env.enable r.thread r.addr
    return ⟨id, if r.type = .software then .software else .emulated, thread, r.addr, count, []⟩

/-- The part of `set_breakpoint` where no breakpoint was found in the maps. -/
def setUnmapped (env : Env) (r : Request) (s : Manager) : Except Fault BreakPointBase × Manager :=
  match s.findDeferred r with
  | some b =>
    (.ok (b.addActions r.action),
      { s with deferred := s.deferred.map fun d =>
        if d.id = b.id then d.addActions r.action else d })
  | none =>
    if r.deferred then
      let b := (⟨s.created, .deferred r.type, r.thread, r.addr, 0, []⟩ : BreakPointBase).addActions
        r.action
      (.ok b, { s with deferred := s.deferred ++ [b], created := s.created + 1 })
    else match createBreakpoint env s.created r with
      | .error e => (.error e, s)
      | .ok b =>
        let b := b.addActions r.action
        (.ok b, { s.setMap r.scope ((s.map r.scope).insert r.addr b) with
          created := s.created + 1 })

def setBreakpoint (env : Env) (r : Request) (s : Manager) :
    Except Fault BreakPointBase × Manager :=
  match checkSetBreakpointContractIn env r.thread r.type with
  | .error e => (.error e, s)
  | .ok () =>
    match s.findBreakpoint r with
    | (some b, s) =>
      let b := b.addActions r.action
      (.ok b, s.setMap r.scope ((s.map r.scope).insert r.addr b))
    | (none, s) => setUnmapped env r s

def erase (env : Env) (b : BreakPointBase) (s : Manager) : Except Fault Unit × Manager :=
  if b.actions ≠ [] then (.error .assertion, s)
  else if env.inProcess b.thread = false then (.ok (), s)
  else if b.isDeferred then
    (.ok (), { s with deferred := s.deferred.eraseP (·.id = b.id) })
  else
    let scope := scopeOf b.type b.thread.lwpid
    (.ok (), s.setMap scope ((s.map scope).erase b.addr))

/-- The `clone` of each class. A hardware breakpoint is cloned as an emulated one,
and a deferred one loses the type that was asked for. -/
def BreakPointBase.clone (env : Env) (id : Nat) (thread : Thread) (b : BreakPointBase) :
    Except Fault BreakPointBase :=
  match b.kind with
  | .software | .emulated => .ok { b with id := id, thread := thread }
  | .deferred _ => .ok { b with id := id, thread := thread, kind := .deferred .deferred }
  | .hardware _ =>
    if b.enable > 0 then do
      let (count, thread) ← env.enable thread b.addr
      return ⟨id, .emulated, thread, b.addr, count, b.actions⟩
    else .ok ⟨id, .emulated, thread, b.addr, 0, b.actions⟩

def insertNew (m : BreakPointMap) (b : BreakPointBase) : BreakPointMap :=
  if b.addr ∈ m then m else m.insert b.addr b

/-- `BreakPointManagerImpl::clone_breakpoint`, where `thread` is the forked
process's default thread. -/
def cloneBreakpoint (env : Env) (thread : Thread) (s : Manager) (b : BreakPointBase) :
    Except Fault Manager :=
  if b.thread.lwpid = s.pid then .error .assertion
  else do
    let clone ← b.clone env s.created thread
    let scope := scopeOf b.type s.pid
    return { s.setMap scope (insertNew (s.map scope) clone) with created := s.created + 1 }

def BreakPointMap.values (m : BreakPointMap) : List BreakPointBase := m.entries.map Sigma.snd

def Manager.perThread (s : Manager) : List BreakPointBase :=
  s.perThreadBreakPoints.entries.flatMap fun e => BreakPointMap.values e.2

def Manager.enumBreakpoints (s : Manager) : List BreakPointBase :=
  BreakPointMap.values s.globalBreakPoints ++ s.perThread ++ s.deferred

def replicateBreakpoints (env : Env) (group : List Manager) (ppid : Nat) (thread : Thread)
    (child : Manager) : Except Fault Manager :=
  match group.find? (·.pid = ppid) with
  | none => .error (.runtimeError ("Failed to replicate breakpoints in forked thread(" ++
      toString thread.lwpid ++ ", " ++ toString ppid ++ ")"))
  | some parent => parent.enumBreakpoints.foldlM (cloneBreakpoint env thread) child

end ZeroBugs.Engine.BreakPointManager
