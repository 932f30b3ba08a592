import ZeroBugs.Dwarfz.Unwind

/-! # The rules of a frame are simultaneous -/
namespace ZeroBugs.Dwarfz
open Function

inductive Reg where
  | pc
  | fp
  | sp
  deriving DecidableEq

def Abi.number (abi : Abi) : Reg → Nat
  | .pc => abi.userRegPc
  | .fp => abi.userRegFp
  | .sp => abi.userRegSp

theorem Abi.number_injective (abi : Abi) {r r' : Reg} (h : abi.number r = abi.number r') :
    r = r' := by
  have h1 := abi.pc_ne_fp
  have h2 := abi.pc_ne_sp
  have h3 := abi.fp_ne_sp
  cases r <;> cases r' <;> simp only [Abi.number] at h <;>
    first | rfl | exact absurd h ‹_› | exact absurd h.symm ‹_›

theorem Abi.number_lt (abi : Abi) (r : Reg) : abi.number r < abi.userRegCount := by
  cases r with
  | pc => exact abi.pc_lt
  | fp => exact abi.fp_lt
  | sp => exact abi.sp_lt

inductive Rule where
  | sameValue
  | saved (offset : UInt64)
  | register (r : Reg)
  deriving DecidableEq

/-- The rules of a frame: the base of the canonical frame address, its offset,
and a rule for each register. -/
structure CallFrame where
  cfaBase : Reg
  cfaOffset : UInt64
  rule : Reg → Rule

namespace CallFrame

variable (cf : CallFrame) (mem : UInt64 → UInt64) (old : Reg → UInt64)

def cfa : UInt64 := old cf.cfaBase + cf.cfaOffset

def eval (cfa : UInt64) (self : Reg) : Rule → UInt64
  | .sameValue => old self
  | .saved offset => mem (cfa + offset)
  | .register r => old r

/-- The registers of the caller, all computed from the registers of the callee.
A stack pointer without a rule is the canonical frame address. -/
def caller : Reg → UInt64
  | .pc => eval mem old (cf.cfa old) .pc (cf.rule .pc)
  | .fp => eval mem old (cf.cfa old) .fp (cf.rule .fp)
  | .sp =>
    if cf.rule .sp = .sameValue then cf.cfa old
    else eval mem old (cf.cfa old) .sp (cf.rule .sp)

/-- The same, each rule seeing what those before it have written: program counter, frame pointer,
stack pointer. -/
def inPlace : Reg → UInt64 :=
  let cfa := cf.cfa old
  let old := update old .pc (eval mem old cfa .pc (cf.rule .pc))
  let old := update old .fp (eval mem old cfa .fp (cf.rule .fp))
  update old .sp
    (if cf.rule .sp = .sameValue then cfa else eval mem old cfa .sp (cf.rule .sp))

structure Ordered : Prop where
  fp_pc : cf.rule .fp = .register .pc → cf.caller mem old .pc = old .pc
  sp_pc : cf.rule .sp = .register .pc → cf.caller mem old .pc = old .pc
  sp_fp : cf.rule .sp = .register .fp → cf.caller mem old .fp = old .fp

end CallFrame

def RegtableEntry.Encodes (abi : Abi) (entry : RegtableEntry) : Rule → Prop
  | .sameValue => entry.regnum.toNat = frameSameVal ∧ entry.blockPtr = none
  | .saved offset => entry.regnum.toNat ≠ frameSameVal ∧ entry.regnum.toNat ≠ frameUndefinedVal ∧
      entry.valueType = .offset ∧ entry.offsetRelevant = true ∧
      entry.offsetOrBlockLen = offset ∧ entry.blockPtr = none
  | .register r => entry.regnum.toNat = abi.number r ∧ entry.valueType = .offset ∧
      entry.offsetRelevant = false ∧ entry.blockPtr = none

structure Regtable.Encodes (abi : Abi) (regs : Regtable) (cf : CallFrame) : Prop where
  base : cf.cfaBase = .fp ∨ cf.cfaBase = .sp
  cfaReg : regs.cfaRule.regnum.toNat = abi.number cf.cfaBase
  cfaRelevant : regs.cfaRule.offsetRelevant = true
  cfaOffset : regs.cfaRule.offsetOrBlockLen = cf.cfaOffset
  rule : ∀ r, (regs.rules (abi.number r)).Encodes abi (cf.rule r)

def RegTable.Ready (frame : RegTable) (abi : Abi) : Prop :=
  ∀ r, (frame (abi.number r)).state = .ready

def RegTable.values (frame : RegTable) (abi : Abi) : Reg → UInt64 :=
  fun r => (frame (abi.number r)).value

section Registers

variable {abi : Abi} {ops : AddrOps} {frame : RegTable}

theorem getReg_ready (hready : frame.Ready abi) (r : Reg) :
    getReg abi ops frame (abi.number r) = frame.values abi r :=
  if_pos (hready r)

theorem number_ne_placeholder (abi : Abi) (r : Reg) :
    abi.number r ≠ frameSameVal ∧ abi.number r ≠ frameUndefinedVal ∧
      abi.number r ≠ frameCfaCol3 := by
  have hlt := abi.number_lt r
  have hle := abi.count_le
  unfold regTableSize at hle
  unfold frameSameVal frameUndefinedVal frameCfaCol3
  omega

theorem ready_setReady (hready : frame.Ready abi) (r : Reg) (v : UInt64) :
    (frame.setReady (abi.number r) v).Ready abi := by
  intro r'
  by_cases h : abi.number r' = abi.number r
  · rw [h, RegTable.setReady, update_self]
  · rw [RegTable.setReady, update_of_ne h]
    exact hready r'

theorem values_setReady (r : Reg) (v : UInt64) :
    (frame.setReady (abi.number r) v).values abi = update (frame.values abi) r v := by
  funext r'
  by_cases h : r' = r
  · subst h
    simp [RegTable.values, RegTable.setReady]
  · have hne : abi.number r' ≠ abi.number r := fun he => h (abi.number_injective he)
    simp [RegTable.values, RegTable.setReady, h, hne]

end Registers

section Step

variable {abi : Abi} (ops : AddrOps) {regs : Regtable} {cf : CallFrame} {frame : RegTable}
  (henc : regs.Encodes abi cf)

include henc

theorem computeCfa_eq (hready : frame.Ready abi) :
    computeCfa abi ops frame regs = .ok (cf.cfa (frame.values abi)) := by
  have hlt := abi.number_lt cf.cfaBase
  have hle := abi.count_le
  obtain ⟨hsame, -, -⟩ := number_ne_placeholder abi cf.cfaBase
  simp only [computeCfa, henc.cfaReg, henc.cfaRelevant, henc.cfaOffset, getReg_ready hready,
    if_neg hsame, if_true]
  rw [if_neg (by omega)]
  rfl

theorem ruleValue_eq (hready : frame.Ready abi) (base : UInt64) (r : Reg) :
    ruleValue abi ops (regs.rules (abi.number r)) base frame (abi.number r) =
      .ok (CallFrame.eval ops.readMem (frame.values abi) base r (cf.rule r)) := by
  have hrule := henc.rule r
  cases h : cf.rule r with
  | sameValue =>
    rw [h] at hrule
    obtain ⟨hnum, hblock⟩ := hrule
    simp [ruleValue, hnum, hblock, getReg_ready hready, CallFrame.eval]
  | saved offset =>
    rw [h] at hrule
    obtain ⟨hsame, hundef, htype, hrel, hoffs, hblock⟩ := hrule
    simp [ruleValue, hsame, hundef, htype, hrel, hoffs, hblock, CallFrame.eval]
  | register r' =>
    rw [h] at hrule
    obtain ⟨hnum, htype, hrel, hblock⟩ := hrule
    obtain ⟨hsame, hundef, -⟩ := number_ne_placeholder abi r'
    simp [ruleValue, hnum, hsame, hundef, htype, hrel, hblock, getReg_ready hready, CallFrame.eval]

theorem getRegByRule_eq (hready : frame.Ready abi) (base : UInt64) (r : Reg) :
    getRegByRule abi ops regs base frame (abi.number r) =
      .ok (CallFrame.eval ops.readMem (frame.values abi) base r (cf.rule r),
        frame.setReady (abi.number r)
          (CallFrame.eval ops.readMem (frame.values abi) base r (cf.rule r))) := by
  obtain ⟨-, -, hcol⟩ := number_ne_placeholder abi r
  rw [getRegByRule, if_neg hcol, if_neg (Nat.not_le.mpr (abi.number_lt r)),
    ruleValue_eq ops henc hready]
  rfl

theorem regnum_same_iff (r : Reg) :
    (regs.rules (abi.number r)).regnum.toNat = frameSameVal ↔ cf.rule r = .sameValue := by
  have hrule := henc.rule r
  cases h : cf.rule r with
  | sameValue =>
    rw [h] at hrule
    simp [hrule.1]
  | saved offset =>
    rw [h] at hrule
    simp [hrule.1]
  | register r' =>
    rw [h] at hrule
    simp [hrule.1, (number_ne_placeholder abi r').1]

theorem stepFp_values (hready : frame.Ready abi) (base : UInt64) :
    ∃ frame', stepFp abi ops regs base frame = .ok frame' ∧ frame'.Ready abi ∧
      frame'.values abi = update (frame.values abi) .fp
        (CallFrame.eval ops.readMem (frame.values abi) base .fp (cf.rule .fp)) := by
  have hiff : (regs.rules abi.userRegFp).regnum.toNat = frameSameVal ↔ cf.rule .fp = .sameValue :=
    regnum_same_iff henc .fp
  by_cases hsame : cf.rule .fp = .sameValue
  · refine ⟨frame, ?_, hready, ?_⟩
    · simp [stepFp, hiff.mpr hsame]
    · rw [hsame]
      exact (update_eq_self _ _).symm
  · refine ⟨_, ?_, ready_setReady hready .fp _, values_setReady .fp _⟩
    rw [stepFp, if_pos (fun he => hsame (hiff.mp he))]
    have hrule : getRegByRule abi ops regs base frame abi.userRegFp = _ :=
      getRegByRule_eq ops henc hready base .fp
    rw [hrule]
    rfl

theorem stepSp_values (hready : frame.Ready abi) (base : UInt64) :
    ∃ frame', stepSp abi ops regs base frame = .ok frame' ∧ frame'.Ready abi ∧
      frame'.values abi = update (frame.values abi) .sp
        (if cf.rule .sp = .sameValue then base
          else CallFrame.eval ops.readMem (frame.values abi) base .sp (cf.rule .sp)) := by
  have hiff : (regs.rules abi.userRegSp).regnum.toNat = frameSameVal ↔ cf.rule .sp = .sameValue :=
    regnum_same_iff henc .sp
  by_cases hsame : cf.rule .sp = .sameValue
  · have hset : update frame abi.userRegSp { frame abi.userRegSp with value := base } =
        frame.setReady (abi.number .sp) base := by
      rw [RegTable.setReady, ← hready .sp]
      rfl
    rw [if_pos hsame, stepSp, if_pos (hiff.mpr hsame), hset]
    exact ⟨_, rfl, ready_setReady hready .sp _, values_setReady .sp _⟩
  · rw [if_neg hsame, stepSp, if_neg (fun he => hsame (hiff.mp he))]
    have hrule : getRegByRule abi ops regs base frame abi.userRegSp = _ :=
      getRegByRule_eq ops henc hready base .sp
    rw [hrule]
    exact ⟨_, rfl, ready_setReady hready .sp _, values_setReady .sp _⟩

theorem stepByRules_eq (hready : frame.Ready abi) {old : Reg → UInt64}
    (hold : old = frame.values abi) (pc : UInt64) (hz : cf.caller ops.readMem old .pc ≠ 0) :
    ∃ frame', stepByRules abi ops regs pc frame =
        .ok (if cf.caller ops.readMem old .pc = pc then 0 else cf.caller ops.readMem old .pc,
          frame') ∧
      frame'.Ready abi ∧ frame'.values abi = cf.inPlace ops.readMem old := by
  subst hold
  obtain ⟨ret, hret⟩ : ∃ ret, ret = cf.caller ops.readMem (frame.values abi) .pc := ⟨_, rfl⟩
  have hpc : getRegByRule abi ops regs (cf.cfa (frame.values abi)) frame abi.userRegPc =
      .ok (ret, frame.setReady (abi.number .pc) ret) :=
    hret ▸ getRegByRule_eq ops henc hready _ .pc
  obtain ⟨frame1, hfp, hready1, hvals1⟩ :=
    stepFp_values ops henc (ready_setReady hready .pc ret) (cf.cfa (frame.values abi))
  obtain ⟨frame2, hsp, hready2, hvals2⟩ :=
    stepSp_values ops henc hready1 (cf.cfa (frame.values abi))
  rw [← hret] at hz ⊢
  refine ⟨frame2, ?_, hready2, ?_⟩
  · simp only [stepByRules, computeCfa_eq ops henc hready, hpc, bind, Except.bind, if_neg hz, hfp,
      hsp]
    rfl
  · rw [hvals2, hvals1, values_setReady, hret]
    rfl

end Step

namespace CallFrame

variable (cf : CallFrame) (mem : UInt64 → UInt64) (old : Reg → UInt64)

theorem inPlace_fp : cf.inPlace mem old .fp =
    eval mem (update old .pc (cf.caller mem old .pc)) (cf.cfa old) .fp (cf.rule .fp) := by
  rfl

theorem inPlace_sp : cf.inPlace mem old .sp =
    if cf.rule .sp = .sameValue then cf.cfa old
    else eval mem (update (update old .pc (cf.caller mem old .pc)) .fp
      (cf.inPlace mem old .fp)) (cf.cfa old) .sp (cf.rule .sp) := by
  rfl

theorem inPlace_fp_iff : cf.inPlace mem old .fp = cf.caller mem old .fp ↔
    (cf.rule .fp = .register .pc → cf.caller mem old .pc = old .pc) := by
  rw [inPlace_fp]
  change _ = eval mem old (cf.cfa old) .fp (cf.rule .fp) ↔ _
  cases cf.rule .fp with
  | sameValue => simp [eval]
  | saved offset => simp [eval]
  | register r => cases r <;> simp [eval]

theorem inPlace_sp_iff (hfp : cf.inPlace mem old .fp = cf.caller mem old .fp) :
    cf.inPlace mem old .sp = cf.caller mem old .sp ↔
      (cf.rule .sp = .register .pc → cf.caller mem old .pc = old .pc) ∧
      (cf.rule .sp = .register .fp → cf.caller mem old .fp = old .fp) := by
  have hsp : cf.caller mem old .sp = if cf.rule .sp = .sameValue then cf.cfa old
    else eval mem old (cf.cfa old) .sp (cf.rule .sp) := rfl
  rw [inPlace_sp, hfp, hsp]
  cases cf.rule .sp with
  | sameValue => simp
  | saved offset => simp [eval]
  | register r => cases r <;> simp [eval]

theorem inPlace_eq_caller_iff :
    cf.inPlace mem old .fp = cf.caller mem old .fp ∧
      cf.inPlace mem old .sp = cf.caller mem old .sp ↔ cf.Ordered mem old := by
  constructor
  · rintro ⟨hfp, hsp⟩
    obtain ⟨hpc, hfp'⟩ := (cf.inPlace_sp_iff mem old hfp).mp hsp
    exact ⟨(cf.inPlace_fp_iff mem old).mp hfp, hpc, hfp'⟩
  · rintro ⟨hfp, hpc, hfp'⟩
    have hok := (cf.inPlace_fp_iff mem old).mpr hfp
    exact ⟨hok, (cf.inPlace_sp_iff mem old hok).mpr ⟨hpc, hfp'⟩⟩

end CallFrame

theorem step_simultaneous_iff {abi : Abi} (ops : AddrOps) {unwind : Unwind}
    {lookup : UInt64 → Except Fault (Option Regtable)} (hfdes : unwind.fdes = some lookup)
    {pc : UInt64} {regs : Regtable} (hregs : lookup pc = .ok (some regs)) {cf : CallFrame}
    (henc : regs.Encodes abi cf) {frame : RegTable} (hready : frame.Ready abi)
    (hz : cf.caller ops.readMem (frame.values abi) .pc ≠ 0)
    (hpc : cf.caller ops.readMem (frame.values abi) .pc ≠ pc) :
    (∃ frame', unwind.step abi ops pc frame =
        .ok (cf.caller ops.readMem (frame.values abi) .pc, frame') ∧
      frame'.values abi .fp = cf.caller ops.readMem (frame.values abi) .fp ∧
      frame'.values abi .sp = cf.caller ops.readMem (frame.values abi) .sp) ↔
    cf.Ordered ops.readMem (frame.values abi) := by
  obtain ⟨frame', hstep, -, hvals⟩ := stepByRules_eq ops henc hready rfl pc hz
  have hunwind : unwind.step abi ops pc frame =
      .ok (cf.caller ops.readMem (frame.values abi) .pc, frame') := by
    rw [if_neg hpc] at hstep
    simp only [Unwind.step, hfdes, hregs, bind, Except.bind, hstep]
  rw [← CallFrame.inPlace_eq_caller_iff, ← hvals]
  constructor
  · rintro ⟨frame'', hstep', hrest⟩
    rw [hunwind] at hstep'
    cases hstep'
    exact hrest
  · intro hrest
    exact ⟨frame', hunwind, hrest⟩

theorem ready_regTable (abi : Abi) (frame : Frame) : (frame.regTable abi).Ready abi := by
  have h1 := abi.pc_ne_fp
  have h2 := abi.pc_ne_sp
  have h3 := abi.fp_ne_sp
  intro r
  cases r <;> simp [Frame.regTable, RegTable.setReady, Abi.number, h1.symm, h2.symm, h3]

def alloca : CallFrame where
  cfaBase := .fp
  cfaOffset := 16
  rule
    | .pc => .saved (-8)
    | .fp => .saved (-16)
    | .sp => .register .fp

/-- The same frame, with the stack pointer above the canonical frame address. -/
def usual : CallFrame := { alloca with
  rule
    | .sp => .sameValue
    | r => alloca.rule r }

def entryOf : Rule → RegtableEntry
  | .sameValue => ⟨false, .offset, 1035, 0, none⟩
  | .saved offset => ⟨true, .offset, 1436, offset, none⟩
  | .register r => ⟨false, .offset, UInt16.ofNat (x86.number r), 0, none⟩

theorem entryOf_encodes (rule : Rule) : (entryOf rule).Encodes x86 rule := by
  cases rule with
  | sameValue => exact ⟨rfl, rfl⟩
  | saved offset =>
    refine ⟨?_, ?_, rfl, rfl, rfl, rfl⟩
    · change (1436 : UInt16).toNat ≠ frameSameVal
      decide
    · change (1436 : UInt16).toNat ≠ frameUndefinedVal
      decide
  | register r => exact ⟨by cases r <;> rfl, rfl, rfl, rfl⟩

def tableOf (cf : CallFrame) : Regtable where
  cfaRule := ⟨true, .offset, 6, cf.cfaOffset, none⟩
  rules n := entryOf (cf.rule (if n = 16 then .pc else if n = 6 then .fp else .sp))

theorem tableOf_encodes {cf : CallFrame} (hbase : cf.cfaBase = .fp) :
    (tableOf cf).Encodes x86 cf where
  base := .inl hbase
  cfaReg := by rw [hbase]; rfl
  cfaRelevant := rfl
  cfaOffset := rfl
  rule r := by cases r <;> exact entryOf_encodes _

def unwindOf (cf : CallFrame) : Unwind := ⟨some fun _ => .ok (some (tableOf cf))⟩

def stack : AddrOps := ⟨(· + 0x100), fun _ => 0, fun _ _ _ => .error .assertion⟩

def topFrame : Frame := ⟨0x400, 0x400, 0x1000, 0xf00⟩

theorem step_simultaneous_iff_usual :
    ∃ frame', (unwindOf usual).step x86 stack 0x400 (topFrame.regTable x86) =
        .ok (0x1108, frame') ∧
      frame'.values x86 .fp = 0x1100 ∧ frame'.values x86 .sp = 0x1010 := by
  have hordered : usual.Ordered stack.readMem ((topFrame.regTable x86).values x86) :=
    ⟨by decide, by decide, by decide⟩
  exact (step_simultaneous_iff stack (show (unwindOf usual).fdes = some _ from rfl) rfl
    (tableOf_encodes rfl) (ready_regTable x86 topFrame) (by decide) (by decide)).mpr hordered

theorem stack_pointer_from_new_frame_pointer :
    ¬∃ frame', (unwindOf alloca).step x86 stack 0x400 (topFrame.regTable x86) =
        .ok (0x1108, frame') ∧
      frame'.values x86 .fp = 0x1100 ∧ frame'.values x86 .sp = 0x1000 := by
  rintro ⟨frame', hstep, -, hsp⟩
  have hval : ((unwindOf alloca).step x86 stack 0x400 (topFrame.regTable x86)).map
      (fun r => r.2.values x86 .sp) = .ok 0x1100 := rfl
  rw [hstep] at hval
  simp [Except.map, hsp] at hval

end ZeroBugs.Dwarfz
