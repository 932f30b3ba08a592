import Mathlib

/-! # The DWARF unwinder -/
namespace ZeroBugs.Dwarfz

inductive Fault where
  | invalidArgument (msg : String)
  | runtimeError (msg : String)
  | assertion
  | dwarf (msg : String)

inductive RegState where
  | na
  | ready
  | pending
  deriving DecidableEq

structure RegEntry where
  state : RegState
  value : UInt64

abbrev RegTable := Nat → RegEntry

def RegTable.new : RegTable := fun _ => ⟨.na, 0⟩

def RegTable.setReady (frame : RegTable) (n : Nat) (value : UInt64) : RegTable :=
  Function.update frame n ⟨.ready, value⟩

def regTableSize : Nat := 66

def frameUndefinedVal : Nat := 1034

def frameSameVal : Nat := 1035

def frameCfaCol3 : Nat := 1436

/-- `Dwarf::ABI`: how many registers there are, where the thread has them, and
the numbers of the three the unwinder follows. -/
structure Abi where
  userRegCount : Nat
  userRegIndex : Nat → Int
  userRegPc : Nat
  userRegFp : Nat
  userRegSp : Nat
  count_le : userRegCount ≤ regTableSize
  pc_lt : userRegPc < userRegCount
  fp_lt : userRegFp < userRegCount
  sp_lt : userRegSp < userRegCount
  pc_ne_fp : userRegPc ≠ userRegFp
  pc_ne_sp : userRegPc ≠ userRegSp
  fp_ne_sp : userRegFp ≠ userRegSp

/-- `X86<64>`, with the registers by their own numbers. -/
def x86 : Abi where
  userRegCount := 56
  userRegIndex n := n
  userRegPc := 16
  userRegFp := 6
  userRegSp := 7
  count_le := by decide
  pc_lt := by decide
  fp_lt := by decide
  sp_lt := by decide
  pc_ne_fp := by decide
  pc_ne_sp := by decide
  fp_ne_sp := by decide

inductive ValueType where
  | offset
  | valOffset
  | expression
  | valExpression
  | other (n : UInt8)
  deriving DecidableEq

structure RegtableEntry where
  offsetRelevant : Bool
  valueType : ValueType
  regnum : UInt16
  offsetOrBlockLen : UInt64
  blockPtr : Option (List UInt8)

structure Regtable where
  cfaRule : RegtableEntry
  rules : Nat → RegtableEntry

/-- `AddrOps`, and the value of an expression relative to a base address. -/
structure AddrOps where
  readMem : UInt64 → UInt64
  readCpuReg : Int → UInt64
  evalFrameExpr : UInt64 → Option (List UInt8) → UInt64 → Except Fault UInt64

/-- `get_reg` on the table alone: a register that is not ready is the thread's. -/
def getReg (abi : Abi) (ops : AddrOps) (frame : RegTable) (n : Nat) : UInt64 :=
  if (frame n).state = .ready then (frame n).value else ops.readCpuReg (abi.userRegIndex n)

/-- The value `get_reg` finds for register `n` by its rule. -/
def ruleValue (abi : Abi) (ops : AddrOps) (entry : RegtableEntry) (base : UInt64)
    (frame : RegTable) (n : Nat) : Except Fault UInt64 :=
  let regnum := if entry.blockPtr.isSome then 0 else entry.regnum.toNat
  if regnum = frameSameVal then .ok (getReg abi ops frame n)
  else if regnum = frameUndefinedVal then .ok 0
  else match entry.valueType with
  | .offset =>
    if entry.offsetRelevant then .ok (ops.readMem (base + entry.offsetOrBlockLen))
    else .ok (getReg abi ops frame regnum)
  | .valOffset => .error (.runtimeError "DW_EXPR_VAL_OFFSET: not implemented")
  | .expression => (ops.evalFrameExpr base entry.blockPtr entry.offsetOrBlockLen).map ops.readMem
  | .valExpression => ops.evalFrameExpr base entry.blockPtr entry.offsetOrBlockLen
  | .other t => .error (.runtimeError
      ("invalid dw_value_type: " ++ String.singleton (Char.ofNat t.toNat)))

def getRegByRule (abi : Abi) (ops : AddrOps) (regs : Regtable) (base : UInt64) (frame : RegTable)
    (n : Nat) : Except Fault (UInt64 × RegTable) :=
  if n = frameCfaCol3 then .error .assertion
  else if abi.userRegCount ≤ n then
    .error (.invalidArgument ("get_reg: regnum out of range: " ++ toString n))
  else (ruleValue abi ops (regs.rules n) base frame n).map fun addr => (addr, frame.setReady n addr)

def computeCfa (abi : Abi) (ops : AddrOps) (frame : RegTable) (regs : Regtable) :
    Except Fault UInt64 :=
  let regnum := regs.cfaRule.regnum.toNat
  if regnum = frameSameVal then .ok 0
  else if regTableSize ≤ regnum ∨ abi.userRegCount ≤ regnum then .error .assertion
  else
    let cfa := getReg abi ops frame regnum
    .ok (if regs.cfaRule.offsetRelevant then cfa + regs.cfaRule.offsetOrBlockLen else cfa)

def stepFp (abi : Abi) (ops : AddrOps) (regs : Regtable) (cfa : UInt64) (frame : RegTable) :
    Except Fault RegTable :=
  if (regs.rules abi.userRegFp).regnum.toNat ≠ frameSameVal then
    (getRegByRule abi ops regs cfa frame abi.userRegFp).map Prod.snd
  else .ok frame

/-- The stack pointer of the caller; the state of the register is not touched
where it is set to the canonical frame address. -/
def stepSp (abi : Abi) (ops : AddrOps) (regs : Regtable) (cfa : UInt64) (frame : RegTable) :
    Except Fault RegTable :=
  if (regs.rules abi.userRegSp).regnum.toNat = frameSameVal then
    .ok (Function.update frame abi.userRegSp { frame abi.userRegSp with value := cfa })
  else (getRegByRule abi ops regs cfa frame abi.userRegSp).map Prod.snd

/-- `Unwind`: the tables of rules by program counter, if there are any. -/
structure Unwind where
  fdes : Option (UInt64 → Except Fault (Option Regtable))

def stepByRules (abi : Abi) (ops : AddrOps) (regs : Regtable) (pc : UInt64) (frame : RegTable) :
    Except Fault (UInt64 × RegTable) := do
  let cfa ← computeCfa abi ops frame regs
  let (retAddr, frame) ← getRegByRule abi ops regs cfa frame abi.userRegPc
  if retAddr = 0 then return (0, frame)
  else
    let frame ← stepFp abi ops regs cfa frame
    let frame ← stepSp abi ops regs cfa frame
    -- a return address that is the program counter would be followed for ever
    return (if retAddr = pc then 0 else retAddr, frame)

def Unwind.step (unwind : Unwind) (abi : Abi) (ops : AddrOps) (pc : UInt64) (frame : RegTable) :
    Except Fault (UInt64 × RegTable) :=
  match unwind.fdes with
  | none => .ok (0, frame)
  | some lookup => do
    match ← lookup pc with
    | none => return (0, frame)
    | some regs => stepByRules abi ops regs pc frame

structure Frame where
  realProgramCount : UInt64
  programCount : UInt64
  framePointer : UInt64
  stackPointer : UInt64

def Frame.regTable (abi : Abi) (frame : Frame) : RegTable :=
  ((RegTable.new.setReady abi.userRegFp frame.framePointer).setReady
    abi.userRegSp frame.stackPointer).setReady abi.userRegPc frame.realProgramCount

/-- `Reader::unwind_step` in a module loaded at `adjust`, without the frames it
makes up for inlined functions: the frame of the caller, if there is one. -/
def unwindStep (abi : Abi) (ops : AddrOps) (unwind : Unwind) (adjust : UInt64) (frame : Frame) :
    Except Fault (Option Frame) := do
  if frame.realProgramCount = 0 ∨ frame.realProgramCount < adjust then throw .assertion
  let (addr, regs) ← unwind.step abi ops (frame.realProgramCount - adjust) (frame.regTable abi)
  if addr = 0 ∨ addr = frame.realProgramCount then return none
  else if (regs abi.userRegFp).state ≠ .ready ∨ (regs abi.userRegSp).state ≠ .ready then
    throw .assertion
  else return some ⟨addr, addr, (regs abi.userRegFp).value, (regs abi.userRegSp).value⟩

end ZeroBugs.Dwarfz
