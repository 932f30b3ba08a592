import ZeroBugs.Lib.Runs

/-! # Software breakpoints and the debuggee's code -/
namespace ZeroBugs.Engine.BreakPoint
open Function

/-- `sizeof(word_t)` on x86_64. -/
def wordSize : Nat := 8

/-- A machine word by its bytes in memory, as in the union of `x86_get_breakpoint_opcode`
(little-endian: byte 0 is at the word's address). -/
abbrev Word := Fin wordSize → UInt8

abbrev Mem := Nat → UInt8

def readWord (m : Mem) (a : Nat) : Word := fun i => m (a + i)

def writeWord (m : Mem) (a : Nat) (w : Word) : Mem := fun x =>
  if h : a ≤ x ∧ x - a < wordSize then w ⟨x - a, h.2⟩ else m x

def x86BreakOpcode : UInt8 := 0xCC

def x86GetBreakpointOpcode (word : Word) : Word := fun i =>
  if i.val = 0 then x86BreakOpcode else word i

structure PhysicalBreakPoint where
  origCode : Word := 0
  enabled : Bool := false

/-- `PhysicalMap`. `operator[]` inserts a default record, so a missing entry and
a default one are the same. -/
abbrev PhysicalMap := Nat → PhysicalBreakPoint

structure Thread where
  lwpid : Nat
  process : Nat
  /-- `thread_finished`: exited or killed by a signal. -/
  finished : Bool
  deriving DecidableEq

/-- What the debuggee answers: its threads in the order `enum_threads` visits
them, the symbol at an address, and which code accesses go through. -/
structure Debuggee where
  threads : List Thread
  stepUntilSafe : Thread → Nat → Thread
  lookupSymbol : Nat → Option String
  threadReadCode : Thread → Nat → Bool
  processReadCode : Nat → Bool
  threadWriteCode : Thread → Nat → Bool
  processWriteCode : Nat → Bool

inductive Exn where
  | logicError (msg : String)
  | readCode (addr : Nat)
  deriving DecidableEq

structure Manager where
  map : PhysicalMap
  mem : Mem

def Manager.setRecord (s : Manager) (a : Nat) (b : PhysicalBreakPoint) : Manager :=
  { s with map := update s.map a b }

/-- A code write that went through: the word is poked and the record says so. -/
def Manager.poke (s : Manager) (a : Nat) (code : Word) (enable : Bool) : Manager :=
  { map := update s.map a { s.map a with enabled := enable }
    mem := writeWord s.mem a code }

def alreadyEnabledMsg (d : Debuggee) (addr : Nat) : String :=
  "breakpoint already enabled at " ++
    (d.lookupSymbol addr).getD (String.ofList (Nat.toDigits 16 addr))

/-- The first half of `enable_software_breakpoint`: read the original code through the thread and,
if that gave nothing, through the process. The first exception is swallowed. -/
def fetchOrigCode (d : Debuggee) (thread : Thread) (addr : Nat) (s : Manager) :
    Except Exn Unit × Manager :=
  let b := s.map addr
  if b.origCode = 0 ∧ b.enabled = true then
    (.error (.logicError (alreadyEnabledMsg d addr)), s)
  else
    let s1 := if b.origCode = 0 ∧ d.threadReadCode thread addr = true
      then s.setRecord addr { b with origCode := readWord s.mem addr } else s
    if (s1.map addr).origCode = 0 then
      if d.processReadCode addr then
        (.ok (), s1.setRecord addr { s1.map addr with origCode := readWord s1.mem addr })
      else (.error (.readCode addr), s1)
    else (.ok (), s1)

/-- The second half: write `code` through the thread, then through the process
if the record still disagrees; `false` when both writes fail. -/
def writeCode (d : Debuggee) (thread : Thread) (addr : Nat) (code : Word) (enable : Bool)
    (s : Manager) : Bool × Manager :=
  let s1 := if enable ≠ (s.map addr).enabled ∧ d.threadWriteCode thread addr = true
    then s.poke addr code enable else s
  if enable ≠ (s1.map addr).enabled then
    if d.processWriteCode addr then (true, s1.poke addr code enable) else (false, s1)
  else (true, s1)

def enableSoftwareBreakpoint (d : Debuggee) (thread : Thread) (addr : Nat) (enable : Bool)
    (s : Manager) : Except Exn Bool × Manager :=
  match fetchOrigCode d thread addr s with
  | (.error e, s1) => (.error e, s1)
  | (.ok (), s1) =>
    let orig := (s1.map addr).origCode
    let code := if enable then x86GetBreakpointOpcode orig else orig
    if code ≠ 0 then
      let (ok, s2) := writeCode d thread addr code enable s1
      (.ok ok, s2)
    else (.ok true, s1)

/-- A `SoftwareBreakPoint`; an `EmulatedBreakPoint` has the same code. `mgr` says whether the weak
pointer still has a manager. -/
structure SoftwareBreakPoint where
  thread : Thread
  addr : Nat
  enable : Int := 0
  mgr : Bool := true

/-- `EnumThreadCallback::notify`: keep the chosen thread unless it is finished
and another one of its process is, even after stepping it, not. -/
def EnumThreadCallback.notify (d : Debuggee) (addr : Nat) (chosen thread : Thread) : Thread :=
  if thread.lwpid = chosen.lwpid ∨ thread.process ≠ chosen.process then chosen
  else if chosen.finished && !thread.finished then
    let stepped := d.stepUntilSafe thread addr
    if stepped.finished then chosen else stepped
  else chosen

/-- `SoftwareBreakPoint::do_enable`. The breakpoint may be given a new thread,
but the manager is called with the one it had. -/
def SoftwareBreakPoint.doEnable (d : Debuggee) (onOff : Bool) (bp : SoftwareBreakPoint)
    (s : Manager) : Except Exn Bool × SoftwareBreakPoint × Manager :=
  let thr := bp.thread
  let bp1 := if thr.finished
    then { bp with thread := d.threads.foldl (EnumThreadCallback.notify d bp.addr) thr } else bp
  if bp1.mgr then
    let (r, s1) := enableSoftwareBreakpoint d thr bp1.addr onOff s
    (r, bp1, s1)
  else (.ok false, bp1, s)

/-- `BreakPointBase::enable`. The `Temporary` puts the old count back unless
`do_enable` succeeded; the value returned is read before that. -/
def SoftwareBreakPoint.enableCall (d : Debuggee) (bp : SoftwareBreakPoint) (s : Manager) :
    Except Exn Int × SoftwareBreakPoint × Manager :=
  let saved := bp.enable
  if saved = 0 then
    match bp.doEnable d true s with
    | (.error e, bp1, s1) => (.error e, { bp1 with enable := saved }, s1)
    | (.ok success, bp1, s1) =>
      (.ok (saved + 1), { bp1 with enable := if success then saved + 1 else saved }, s1)
  else (.ok (saved + 1), { bp with enable := saved + 1 }, s)

def SoftwareBreakPoint.disableCall (d : Debuggee) (bp : SoftwareBreakPoint) (s : Manager) :
    Except Exn Int × SoftwareBreakPoint × Manager :=
  let saved := bp.enable
  if saved = 1 then
    match bp.doEnable d false s with
    | (.error e, bp1, s1) => (.error e, { bp1 with enable := saved }, s1)
    | (.ok success, bp1, s1) =>
      (.ok (saved - 1), { bp1 with enable := if success then saved - 1 else saved }, s1)
  else (.ok (saved - 1), { bp with enable := saved - 1 }, s)

structure System (ι : Type) where
  objs : ι → SoftwareBreakPoint
  mgr : Manager

inductive Call (ι : Type) where
  | enable (i : ι)
  | disable (i : ι)
  deriving DecidableEq

def Call.obj {ι : Type} : Call ι → ι
  | .enable i => i
  | .disable i => i

/-- One call on one object: what it returns or throws, and the system after it. -/
def System.call {ι : Type} [DecidableEq ι] (d : Debuggee) (s : System ι) (c : Call ι) :
    Except Exn Int × System ι :=
  let (r, bp, m) := match c with
    | .enable i => (s.objs i).enableCall d s.mgr
    | .disable i => (s.objs i).disableCall d s.mgr
  (r, { objs := update s.objs c.obj bp, mgr := m })

def System.step {ι : Type} [DecidableEq ι] (d : Debuggee) (s : System ι) (c : Call ι) : System ι :=
  (s.call d c).2

/-- A manager with no records over the code `orig`, and objects that were never enabled. -/
def System.fresh {ι : Type} (orig : Mem) (thread : ι → Thread) (addr : ι → Nat) : System ι where
  objs i := { thread := thread i, addr := addr i }
  mgr := { map := fun _ => {}, mem := orig }

structure Debuggee.Accessible (d : Debuggee) : Prop where
  threadRead : ∀ t a, d.threadReadCode t a = true
  processRead : ∀ a, d.processReadCode a = true
  threadWrite : ∀ t a, d.threadWriteCode t a = true
  processWrite : ∀ a, d.processWriteCode a = true

theorem readWord_apply (m : Mem) (a : Nat) (i : Fin wordSize) : readWord m a i = m (a + i) := rfl

theorem writeWord_inside (m : Mem) (a : Nat) (w : Word) (i : Fin wordSize) :
    writeWord m a w (a + i) = w i := by
  have h : a ≤ a + i.val ∧ a + i.val - a < wordSize := by
    rw [Nat.add_sub_cancel_left]
    exact ⟨Nat.le_add_right .., i.isLt⟩
  unfold writeWord
  rw [dif_pos h]
  exact congrArg w (Fin.ext (Nat.add_sub_cancel_left ..))

theorem writeWord_outside (m : Mem) (a : Nat) (w : Word) {x : Nat}
    (h : x < a ∨ a + wordSize ≤ x) : writeWord m a w x = m x := by
  unfold writeWord
  rw [dif_neg]
  rintro ⟨hle, hlt⟩
  omega

theorem readWord_writeWord (m : Mem) (a : Nat) (w : Word) : readWord (writeWord m a w) a = w :=
  funext fun i => writeWord_inside m a w i

theorem readWord_writeWord_of_disjoint (m : Mem) (a b : Nat) (w : Word)
    (h : a + wordSize ≤ b ∨ b + wordSize ≤ a) : readWord (writeWord m a w) b = readWord m b := by
  funext i
  have hi := i.isLt
  exact writeWord_outside m a w (by omega)

theorem x86GetBreakpointOpcode_ne_zero (w : Word) : x86GetBreakpointOpcode w ≠ 0 := by
  intro h
  have := congrFun h ⟨0, by decide⟩
  simp [x86GetBreakpointOpcode, x86BreakOpcode] at this

def Manager.saved (s : Manager) (a : Nat) : Word :=
  if (s.map a).origCode = 0 then readWord s.mem a else (s.map a).origCode

def pokedWord (enable : Bool) (saved : Word) : Word :=
  if enable then x86GetBreakpointOpcode saved else saved

def Manager.request (s : Manager) (a : Nat) (enable : Bool) : Manager where
  map := update s.map a
    { origCode := s.saved a,
      enabled := if pokedWord enable (s.saved a) = 0 then (s.map a).enabled else enable }
  mem := if pokedWord enable (s.saved a) = 0 ∨ enable = (s.map a).enabled then s.mem
    else writeWord s.mem a (pokedWord enable (s.saved a))

theorem fetchOrigCode_ok {d : Debuggee} (hd : d.Accessible) (thread : Thread) (a : Nat)
    (s : Manager) (h : (s.map a).origCode = 0 → (s.map a).enabled = false) :
    fetchOrigCode d thread a s =
      (.ok (), s.setRecord a { s.map a with origCode := s.saved a }) := by
  have hthrow : ¬((s.map a).origCode = 0 ∧ (s.map a).enabled = true) := by
    rintro ⟨h0, he⟩
    rw [h h0] at he
    cases he
  unfold fetchOrigCode
  simp only [hthrow, if_false, hd.threadRead, hd.processRead, and_true, if_true]
  by_cases h0 : (s.map a).origCode = 0
  · simp only [h0, if_true, Manager.setRecord, update_self, Manager.saved]
    split <;> simp_all [update_idem]
  · simp [h0, Manager.saved, Manager.setRecord]

theorem enableSoftwareBreakpoint_ok {d : Debuggee} (hd : d.Accessible) (thread : Thread) (a : Nat)
    (enable : Bool) (s : Manager) (h : (s.map a).origCode = 0 → (s.map a).enabled = false) :
    enableSoftwareBreakpoint d thread a enable s = (.ok true, s.request a enable) := by
  unfold enableSoftwareBreakpoint
  rw [fetchOrigCode_ok hd thread a s h]
  simp only [Manager.setRecord, update_self, Manager.request]
  have hcode : (if enable = true then x86GetBreakpointOpcode (s.saved a) else s.saved a) =
      pokedWord enable (s.saved a) := rfl
  rw [hcode]
  by_cases hz : pokedWord enable (s.saved a) = 0
  · simp [hz]
  · by_cases he : enable = (s.map a).enabled
    · simp [hz, writeCode, ← he]
    · simp [hz, he, writeCode, hd.threadWrite, Manager.poke]

/-- A call that reaches the manager: the object's count goes from 0 to 1 or from 1 to 0. -/
def Call.Reaches {ι : Type} (count : ι → Int) : Call ι → Prop
  | .enable i => count i = 0
  | .disable i => count i = 1

instance {ι : Type} (count : ι → Int) : DecidablePred (Call.Reaches count)
  | .enable i => inferInstanceAs (Decidable (count i = 0))
  | .disable i => inferInstanceAs (Decidable (count i = 1))

def System.Reaches {ι : Type} (s : System ι) (c : Call ι) : Prop :=
  c.Reaches fun i => (s.objs i).enable

def Call.onOff {ι : Type} : Call ι → Bool
  | .enable _ => true
  | .disable _ => false

def Call.count {ι : Type} : Call ι → Int → Int
  | .enable _, n => n + 1
  | .disable _, n => n - 1

end ZeroBugs.Engine.BreakPoint
