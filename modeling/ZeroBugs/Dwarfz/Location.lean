import ZeroBugs.Dwarfz.Unwind

/-! # Location expressions -/
namespace ZeroBugs.Dwarfz

scoped instance neZeroRegister : NeZero 32 := ⟨by decide⟩

inductive Atom where
  | addr
  | lit (n : Fin 32)
  /-- `DW_OP_const1u` to `DW_OP_const8u`, and `DW_OP_constu` -/
  | constUnsigned
  /-- `DW_OP_const1s` to `DW_OP_const8s`, and `DW_OP_consts` -/
  | constSigned
  | dup
  | deref
  | plus
  | minus
  | plusUconst
  | reg (n : Fin 32)
  | regx
  | breg (n : Fin 32)
  | fbreg
  | piece
  | callFrameCfa
  | stackValue
  | other (code : UInt8)
  deriving DecidableEq

/-- `Dwarf_Loc`: an opcode with its operand, sign-extended where it is signed. -/
structure Loc where
  atom : Atom
  number : UInt64
  deriving DecidableEq

structure Locdesc where
  lopc : UInt64
  hipc : UInt64
  ops : List Loc
  deriving DecidableEq

def Unwind.computeCfa (unwind : Unwind) (abi : Abi) (ops : AddrOps) (pc : UInt64) :
    Except Fault UInt64 :=
  match unwind.fdes with
  | none => .ok 0
  | some lookup => do
    match ← lookup pc with
    | none => return 0
    | some regs => Dwarfz.computeCfa abi ops .new regs

structure EvalContext where
  abi : Abi
  unwind : Unwind
  ops : AddrOps
  pc : UInt64
  frameBase : UInt64
  moduleBase : UInt64

def emptyStack (func : String) : Fault := .runtimeError (func ++ ": state machine stack empty")

def opDeref (ops : AddrOps) : List UInt64 → Except Fault (List UInt64)
  | [] => .error (emptyStack "op_deref")
  | addr :: stack => .ok (ops.readMem addr :: stack)

def opPlusUconst (operand : UInt64) : List UInt64 → Except Fault (List UInt64)
  | [] => .error (emptyStack "op_plus_uconst")
  | addr :: stack => .ok ((addr + operand) :: stack)

/-- Without two operands the error is logged, and the stack stays as it is. -/
def opMinus : List UInt64 → List UInt64
  | op2 :: op1 :: stack => (op1 - op2) :: stack
  | stack => stack

def opPlus : List UInt64 → List UInt64
  | op2 :: op1 :: stack => (op1 + op2) :: stack
  | stack => stack

def opDup : List UInt64 → Except Fault (List UInt64)
  | [] => .error (emptyStack "DW_OP_dup")
  | v :: stack => .ok (v :: v :: stack)

/-- One turn of the loop of `eval`, on the stack and `isValue`. -/
def evalStep (ctx : EvalContext) (st : List UInt64 × Bool) (loc : Loc) :
    Except Fault (List UInt64 × Bool) :=
  let (stack, isValue) := st
  let readReg := fun n => ctx.ops.readCpuReg (ctx.abi.userRegIndex n)
  match loc.atom with
  | .addr => .ok ((loc.number + ctx.moduleBase) :: stack, isValue)
  | .lit n => .ok (UInt64.ofNat n :: stack, isValue)
  | .deref => (opDeref ctx.ops stack).map (·, isValue)
  | .dup => (opDup stack).map (·, isValue)
  | .reg n => .ok (readReg n :: stack, isValue)
  | .regx => .ok (readReg loc.number.toNat :: stack, isValue)
  | .fbreg => .ok ((ctx.frameBase + loc.number) :: stack, isValue)
  | .plusUconst => (opPlusUconst loc.number stack).map (·, isValue)
  | .minus => .ok (opMinus stack, isValue)
  | .plus => .ok (opPlus stack, isValue)
  | .breg n => .ok ((readReg n + loc.number) :: stack, isValue)
  | .piece => .ok (stack, isValue)
  | .constUnsigned => .ok (loc.number :: stack, isValue)
  | .constSigned => .ok (loc.number :: stack, isValue)
  | .callFrameCfa =>
    (ctx.unwind.computeCfa ctx.abi ctx.ops ctx.pc).map fun cfa => (cfa :: stack, isValue)
  | .stackValue => .ok (stack, true)
  -- logged as unhandled
  | .other _ => .ok (stack, isValue)

def evalDesc (ctx : EvalContext) (desc : Locdesc) (isValue : Bool) :
    Except Fault (UInt64 × Bool) := do
  let stack := if ctx.frameBase ≠ 0 then [ctx.frameBase] else []
  let (stack, isValue) ← desc.ops.foldlM (evalStep ctx) (stack, isValue)
  return (stack.head?.getD 0, isValue)

/-- The range test of `Location::eval`; the bases are added to a low limit that is not
zero and to a high limit that is not `-1`. -/
def Locdesc.covers (desc : Locdesc) (moduleBase unitBase pc : UInt64) : Bool :=
  let lopc := if desc.lopc ≠ 0 then desc.lopc + (moduleBase + unitBase) else desc.lopc
  let hipc := if desc.hipc ≠ -1 then desc.hipc + (moduleBase + unitBase) else desc.hipc
  decide (lopc ≤ pc) && decide (pc < hipc)

def selectDesc (list : List Locdesc) (moduleBase unitBase pc : UInt64) : Option Locdesc :=
  list.find? (·.covers moduleBase unitBase pc)

def evalLocation (ctx : EvalContext) (list : List Locdesc) (unitBase : UInt64) :
    Except Fault (UInt64 × Bool) :=
  match selectDesc list ctx.moduleBase unitBase ctx.pc with
  | none => .ok (0, false)
  | some desc => evalDesc ctx desc false

/-- What an expression is evaluated in: memory, registers by DWARF number, frame and module base,
and the canonical frame address if there is one. -/
structure Machine where
  memory : UInt64 → UInt64
  regs : Nat → UInt64
  frameBase : UInt64
  moduleBase : UInt64
  cfa : Option UInt64

/-- One operation; `none` where it pops more values than there are, or is not one of
the operations of the machine. -/
def Machine.step (m : Machine) (stack : List UInt64) (loc : Loc) : Option (List UInt64) :=
  match loc.atom, stack with
  | .addr, stack => some ((loc.number + m.moduleBase) :: stack)
  | .lit n, stack => some (UInt64.ofNat n :: stack)
  | .constUnsigned, stack => some (loc.number :: stack)
  | .constSigned, stack => some (loc.number :: stack)
  | .dup, v :: stack => some (v :: v :: stack)
  | .deref, addr :: stack => some (m.memory addr :: stack)
  | .plus, b :: a :: stack => some ((a + b) :: stack)
  | .minus, b :: a :: stack => some ((a - b) :: stack)
  | .plusUconst, a :: stack => some ((a + loc.number) :: stack)
  | .reg n, stack => some (m.regs n :: stack)
  | .regx, stack => some (m.regs loc.number.toNat :: stack)
  | .breg n, stack => some ((m.regs n + loc.number) :: stack)
  | .fbreg, stack => some ((m.frameBase + loc.number) :: stack)
  | .piece, stack => some stack
  | .callFrameCfa, stack => m.cfa.map (· :: stack)
  | .stackValue, stack => some stack
  | _, _ => none

def Machine.run (m : Machine) (expr : List Loc) : Option (List UInt64) := expr.foldlM m.step []

def isValueExpr (expr : List Loc) : Bool := expr.any (·.atom = .stackValue)

def EvalContext.machine (ctx : EvalContext) : Machine where
  memory := ctx.ops.readMem
  regs n := ctx.ops.readCpuReg (ctx.abi.userRegIndex n)
  frameBase := ctx.frameBase
  moduleBase := ctx.moduleBase
  cfa := (ctx.unwind.computeCfa ctx.abi ctx.ops ctx.pc).toOption

section Simulation

variable {ctx : EvalContext} {stack stack' : List UInt64} {loc : Loc}

theorem step_simulates (h : ctx.machine.step stack loc = some stack') (bottom : List UInt64)
    (isValue : Bool) :
    evalStep ctx (stack ++ bottom, isValue) loc =
      .ok (stack' ++ bottom, isValue || loc.atom = .stackValue) := by
  obtain ⟨atom, number⟩ := loc
  cases atom with
  | dup | deref | plusUconst =>
    cases stack with
    | nil => cases h
    | cons a stack =>
      obtain rfl := Option.some.inj h
      simp [evalStep, opDup, opDeref, opPlusUconst, Except.map, EvalContext.machine]
  | plus | minus =>
    cases stack with
    | nil => cases h
    | cons b stack =>
      cases stack with
      | nil => cases h
      | cons a stack =>
        obtain rfl := Option.some.inj h
        simp [evalStep, opPlus, opMinus]
  | callFrameCfa =>
    obtain ⟨cfa, hcfa, rfl⟩ := Option.map_eq_some_iff.mp h
    cases hunwind : ctx.unwind.computeCfa ctx.abi ctx.ops ctx.pc with
    | error e => simp [EvalContext.machine, hunwind, Except.toOption] at hcfa
    | ok v =>
      obtain rfl : v = cfa := by simpa [EvalContext.machine, hunwind, Except.toOption] using hcfa
      simp [evalStep, hunwind, Except.map]
  | other code => cases h
  | _ =>
    obtain rfl := Option.some.inj h
    simp [evalStep, EvalContext.machine]

theorem run_simulates (expr : List Loc) (h : expr.foldlM ctx.machine.step stack = some stack')
    (bottom : List UInt64) (isValue : Bool) :
    expr.foldlM (evalStep ctx) (stack ++ bottom, isValue) =
      .ok (stack' ++ bottom, isValue || isValueExpr expr) := by
  induction expr generalizing stack isValue with
  | nil =>
    obtain rfl : stack = stack' := Option.some.inj h
    simp [isValueExpr, pure, Except.pure]
  | cons loc expr ih =>
    obtain ⟨mid, hmid, hrest⟩ := Option.bind_eq_some_iff.mp h
    rw [List.foldlM_cons, step_simulates hmid]
    have hflag : (isValue || isValueExpr (loc :: expr)) =
        ((isValue || decide (loc.atom = .stackValue)) || isValueExpr expr) := by
      simp [isValueExpr, Bool.or_assoc]
    rw [hflag]
    exact ih hrest _

end Simulation

def localValue : Locdesc := ⟨0, -1, [⟨.breg 6, -16⟩, ⟨.deref, 0⟩, ⟨.stackValue, 0⟩]⟩

/-- Register 6 holds `0x1000`, and each word of memory its own address. -/
def frameContext : EvalContext :=
  ⟨x86, ⟨none⟩, ⟨id, fun n => if n = 6 then 0x1000 else 0, fun _ _ _ => .ok 0⟩, 0x400, 0xf00, 0⟩

end ZeroBugs.Dwarfz
