import Mathlib

/-! # The debug registers of a thread -/
namespace ZeroBugs.Target.DebugRegs

abbrev Word := BitVec 64

abbrev Register := Fin 4

scoped instance neZeroFour : NeZero 4 := ⟨by decide⟩

scoped instance neZeroEight : NeZero 8 := ⟨by decide⟩

inductive Condition where
  | any
  | instruction
  | dataWrite
  | dataReadWrite
  deriving DecidableEq

inductive Length where
  | oneByte
  | twoByte
  | fourByte
  deriving DecidableEq

def Condition.value : Condition → BitVec 32
  | .any => -1
  | .instruction => 0
  | .dataWrite => 1
  | .dataReadWrite => 3

def Length.value : Length → BitVec 32
  | .oneByte => 0
  | .twoByte => 1
  | .fourByte => 3

def toReg (n : BitVec 32) : Word := n.signExtend 64

def lenType (n : Length) (c : Condition) (i : Register) : Word :=
  toReg (((n.value <<< 2) ||| c.value) <<< (i.val * 4 + 16))

def enableLocal (i : Register) : Word := toReg (1 <<< (i.val <<< 1))

def enableGlobal (i : Register) : Word := toReg (2 <<< (i.val <<< 1))

def enableAll (i : Register) : Word := toReg (3 <<< (i.val <<< 1))

def getCondition (dreg7 : Word) (i : Register) : Word := (dreg7 >>> (16 + i.val * 4)) &&& 3

def enableBits (dreg7 : Word) (i : Register) : Word := (dreg7 >>> (i.val * 2)) &&& 3

def exact : Word := 0x300

def activate (control : Word) (i : Register) (global : Bool) (c : Condition) (n : Length) : Word :=
  let mask := enableAll i ||| lenType .fourByte .dataReadWrite i
  let enable := if global then enableGlobal i else enableLocal i
  ((control &&& ~~~mask) ||| (lenType n c i ||| enable)) ||| exact

/-- The control word after `enable_internal` without `activate`. -/
def deactivate (control : Word) (i : Register) : Word :=
  let control := control &&& ~~~(enableGlobal i ||| enableLocal i)
  if control &&& 0xFF = 0 then control &&& ~~~exact else control

/-- `reg_` and `control_`, with the debug registers of the thread itself. -/
structure DebugRegs386 where
  reg : Register → Word
  control : Word
  debugreg : Fin 8 → Word

def slot (i : Register) : Fin 8 := i.castLE (by decide)

namespace DebugRegs386

def poke (d : DebugRegs386) (i : Fin 8) (value : Word) : DebugRegs386 :=
  { d with debugreg := Function.update d.debugreg i value }

def enable (d : DebugRegs386) (i : Register) (on global : Bool) (c : Condition) (n : Length) :
    DebugRegs386 :=
  let control := if on then activate d.control i global c n else deactivate d.control i
  { d with control := control }.poke 7 control

def available (d : DebugRegs386) : Option Register :=
  (List.finRange 4).find? fun i => d.reg i = 0

def setBreakpoint (d : DebugRegs386) (addr : Word) (global : Bool) (c : Condition) (n : Length) :
    Option (Register × DebugRegs386) :=
  d.available.map fun i =>
    let d := (d.poke (slot i) addr).enable i true global c n
    (i, { d with reg := Function.update d.reg i addr })

/-- `DebugRegs386::clear`. Of the status register only the flags of the other registers
are kept. -/
def clear (d : DebugRegs386) (i : Register) : DebugRegs386 :=
  let d := d.enable i false true .dataReadWrite .fourByte
  let flags := (d.debugreg 6 &&& 0xF) &&& ~~~((1 : Word) <<< i.val)
  let d := (d.poke (slot i) 0).poke 6 flags
  { d with reg := Function.update d.reg i 0 }

def maxSize (_ : Condition) : Nat := 4

def new : DebugRegs386 := ⟨fun _ => 0, 0, fun _ => 0⟩

end DebugRegs386

def part (x : Word) (k : Nat) (m : Word) : Word := (x >>> k) &&& m

theorem part_or (x y : Word) (k : Nat) (m : Word) :
    part (x ||| y) k m = part x k m ||| part y k m := by
  unfold part
  rw [BitVec.ushiftRight_or_distrib, BitVec.and_or_distrib_right]

theorem part_and (x y : Word) (k : Nat) (m : Word) :
    part (x &&& y) k m = (x >>> k) &&& part y k m := by
  unfold part
  rw [BitVec.ushiftRight_and_distrib, BitVec.and_assoc]

def field (x : Word) (k : Nat) : Word := (x >>> k) &&& 3

theorem field_or (x y : Word) (k : Nat) : field (x ||| y) k = field x k ||| field y k :=
  part_or x y k 3

theorem field_and_not (x m : Word) (k : Nat) (h : field (~~~m) k = 3) :
    field (x &&& ~~~m) k = field x k :=
  (part_and x _ k 3).trans (congrArg ((x >>> k) &&& ·) h)

theorem field_or_three (x : Word) (k : Nat) : field x k ||| 3 = 3 := by
  unfold field
  apply BitVec.eq_of_getLsbD_eq
  intro i _
  rw [BitVec.getLsbD_or, BitVec.getLsbD_and]
  cases (3 : Word).getLsbD i <;> simp

theorem enableBits_eq (x : Word) (i : Register) : enableBits x i = field x (i.val * 2) := rfl

def Condition.bits (c : Condition) : Word := toReg c.value &&& 3

/-! The masks are constants: which fields they touch is computed. -/

theorem mask_other : ∀ i j : Register, j ≠ i →
    field (~~~(enableAll i ||| lenType .fourByte .dataReadWrite i)) (j.val * 2) = 3 ∧
      field (~~~(enableAll i ||| lenType .fourByte .dataReadWrite i)) (16 + j.val * 4) = 3 := by
  decide

theorem mask_self : ∀ i : Register,
    field (~~~(enableAll i ||| lenType .fourByte .dataReadWrite i)) (16 + i.val * 4) = 0 := by
  decide

theorem exact_fields : ∀ i : Register,
    field exact (i.val * 2) = 0 ∧ field exact (16 + i.val * 4) = 0 ∧
      field (~~~exact) (i.val * 2) = 3 ∧ field (~~~exact) (16 + i.val * 4) = 3 := by
  decide

theorem getCondition_eq (x : Word) (i : Register) : getCondition x i = field x (16 + i.val * 4) :=
  rfl

theorem enableBit_other : ∀ i j : Register, ∀ global : Bool, j ≠ i →
    field (if global then enableGlobal i else enableLocal i) (j.val * 2) = 0 := by
  decide

theorem enableBit_condition : ∀ i j : Register, ∀ global : Bool,
    field (if global then enableGlobal i else enableLocal i) (16 + j.val * 4) = 0 := by
  decide

theorem lenType_enable (n : Length) (c : Condition) : ∀ i j : Register,
    field (lenType n c i) (j.val * 2) = 0 := by
  cases n <;> cases c <;> decide

theorem lenType_self (n : Length) (c : Condition) : ∀ i : Register,
    field (lenType n c i) (16 + i.val * 4) = c.bits := by
  cases n <;> cases c <;> decide

theorem lenType_other (n : Length) (c : Condition) : ∀ i j : Register, j ≠ i →
    field (lenType n c i) (16 + j.val * 4) = if c = .any ∧ i < j then 3 else 0 := by
  cases n <;> cases c <;> decide

theorem disable_other : ∀ i j : Register,
    (j ≠ i → field (~~~(enableGlobal i ||| enableLocal i)) (j.val * 2) = 3) ∧
      field (~~~(enableGlobal i ||| enableLocal i)) (16 + j.val * 4) = 3 := by
  decide

section Control

variable (control : Word) {i j : Register} (global : Bool) (c : Condition) (n : Length)

theorem enableBits_activate (h : j ≠ i) :
    enableBits (activate control i global c n) j = enableBits control j := by
  simp only [enableBits_eq, activate, field_or, lenType_enable, enableBit_other i j global h,
    (exact_fields j).1, BitVec.ofNat_eq_ofNat, BitVec.or_zero,
    field_and_not _ _ _ (mask_other i j h).1]

theorem getCondition_activate_self : getCondition (activate control i global c n) i = c.bits := by
  have hmask : field (control &&& ~~~(enableAll i ||| lenType .fourByte .dataReadWrite i))
      (16 + i.val * 4) = 0 :=
    (part_and control _ _ 3).trans ((congrArg _ (mask_self i)).trans BitVec.and_zero)
  simp only [getCondition_eq, activate, field_or, hmask, lenType_self, enableBit_condition,
    (exact_fields i).2.1, BitVec.ofNat_eq_ofNat, BitVec.or_zero, BitVec.zero_or]

theorem getCondition_activate (h : j ≠ i) :
    getCondition (activate control i global c n) j =
      if c = .any ∧ i < j then 3 else getCondition control j := by
  simp only [getCondition_eq, activate, field_or, lenType_other n c i j h, enableBit_condition,
    (exact_fields j).2.1, field_and_not _ _ _ (mask_other i j h).2]
  split
  · simpa using field_or_three control (16 + j.val * 4)
  · simp

theorem enableBits_deactivate (h : j ≠ i) :
    enableBits (deactivate control i) j = enableBits control j := by
  unfold deactivate
  simp only [enableBits_eq]
  split
  · rw [field_and_not _ _ _ (exact_fields j).2.2.1, field_and_not _ _ _ ((disable_other i j).1 h)]
  · rw [field_and_not _ _ _ ((disable_other i j).1 h)]

theorem getCondition_deactivate (j : Register) :
    getCondition (deactivate control i) j = getCondition control j := by
  unfold deactivate
  simp only [getCondition_eq]
  split
  · rw [field_and_not _ _ _ (exact_fields j).2.2.2, field_and_not _ _ _ (disable_other i j).2]
  · rw [field_and_not _ _ _ (disable_other i j).2]

end Control

theorem slot_ne_control : ∀ i : Register, slot i ≠ 7 := by decide

theorem slot_ne_status : ∀ i : Register, slot i ≠ 6 := by decide

theorem slot_injective : Function.Injective slot := Fin.castLE_injective (by decide)

def DebugRegs386.Synced (d : DebugRegs386) : Prop := d.debugreg 7 = d.control

/-- The address, the condition and the enable bits of a register are the same. -/
structure Unchanged (d d' : DebugRegs386) (i : Register) : Prop where
  reg : d'.reg i = d.reg i
  addr : d'.debugreg (slot i) = d.debugreg (slot i)
  condition : getCondition (d'.debugreg 7) i = getCondition (d.debugreg 7) i
  enabled : enableBits (d'.debugreg 7) i = enableBits (d.debugreg 7) i

theorem available_some {d : DebugRegs386} {i : Register} (h : d.available = some i) :
    d.reg i = 0 ∧ ∀ j < i, d.reg j ≠ 0 := by
  obtain ⟨hi, before, after, hsplit, hbefore⟩ := List.find?_eq_some_iff_append.mp h
  refine ⟨by simpa using hi, fun j hj => ?_⟩
  have hmem : j ∈ before := by
    have hsorted : (before ++ i :: after).Pairwise (· < ·) :=
      hsplit ▸ List.pairwise_lt_finRange 4
    have hj' : j ∈ before ++ i :: after := hsplit ▸ List.mem_finRange j
    rcases List.mem_append.mp hj' with hj' | hj'
    · exact hj'
    · rcases List.mem_cons.mp hj' with rfl | hj'
      · exact absurd hj (lt_irrefl j)
      · have := (List.pairwise_cons.mp (List.pairwise_append.mp hsorted).2.1).1 j hj'
        exact absurd (hj.trans this) (lt_irrefl j)
  simpa using hbefore j hmem

theorem available_none {d : DebugRegs386} (h : d.available = none) (i : Register) :
    d.reg i ≠ 0 := by
  simpa using List.find?_eq_none.mp h i (List.mem_finRange i)

section Calls

variable {d : DebugRegs386} {i j : Register} {on global : Bool} {c : Condition} {n : Length}

theorem synced_enable : (d.enable i on global c n).Synced := by
  simp [DebugRegs386.Synced, DebugRegs386.enable, DebugRegs386.poke]

theorem enable_reg : (d.enable i on global c n).reg = d.reg := rfl

theorem enable_debugreg : (d.enable i on global c n).debugreg (slot j) = d.debugreg (slot j) :=
  Function.update_of_ne (slot_ne_control j) _ _

theorem enable_control : (d.enable i on global c n).debugreg 7 =
    if on then activate d.control i global c n else deactivate d.control i :=
  synced_enable

theorem enable_condition_other (hsync : d.Synced) (h : j ≠ i) (on global : Bool) (c : Condition)
    (n : Length) :
    getCondition ((d.enable i on global c n).debugreg 7) j =
      if on = true ∧ c = .any ∧ i < j then 3 else getCondition (d.debugreg 7) j := by
  rw [enable_control, hsync]
  cases on with
  | false => simpa using getCondition_deactivate d.control j
  | true => simpa using getCondition_activate d.control global c n h

theorem enable_condition_self : getCondition ((d.enable i on global c n).debugreg 7) i =
    if on then c.bits else getCondition d.control i := by
  cases on with
  | false => exact getCondition_deactivate d.control i
  | true => exact getCondition_activate_self d.control global c n

theorem enable_enabled_other (hsync : d.Synced) (h : j ≠ i) :
    enableBits ((d.enable i on global c n).debugreg 7) j = enableBits (d.debugreg 7) j := by
  rw [enable_control, hsync]
  cases on with
  | false => exact enableBits_deactivate _ h
  | true => exact enableBits_activate _ _ _ _ h

theorem enable_other (hsync : d.Synced) (h : j ≠ i) (on global : Bool) (c : Condition)
    (n : Length) :
    Unchanged d (d.enable i on global c n) j ↔
      (on = true → c = .any → i < j → getCondition (d.debugreg 7) j = 3) := by
  have hcond := enable_condition_other hsync h on global c n
  constructor
  · intro hsame hon hany hlt
    rw [← hsame.condition, hcond, if_pos ⟨hon, hany, hlt⟩]
  · intro hany
    refine ⟨rfl, enable_debugreg, ?_, enable_enabled_other hsync h⟩
    rw [hcond]
    split
    · rename_i hbad
      exact (hany hbad.1 hbad.2.1 hbad.2.2).symm
    · rfl

theorem Unchanged.refl (d : DebugRegs386) (i : Register) : Unchanged d d i :=
  ⟨rfl, rfl, rfl, rfl⟩

theorem Unchanged.trans {d₁ d₂ d₃ : DebugRegs386} (h₁ : Unchanged d₁ d₂ j)
    (h₂ : Unchanged d₂ d₃ j) : Unchanged d₁ d₃ j :=
  ⟨h₂.reg.trans h₁.reg, h₂.addr.trans h₁.addr, h₂.condition.trans h₁.condition,
    h₂.enabled.trans h₁.enabled⟩

theorem poke_other {k : Fin 8} (hk : k ≠ 7) (hj : slot j ≠ k) (v : Word) :
    Unchanged d (d.poke k v) j := by
  have hcontrol : (d.poke k v).debugreg 7 = d.debugreg 7 := Function.update_of_ne hk.symm _ _
  exact ⟨rfl, Function.update_of_ne hj _ _, by rw [hcontrol], by rw [hcontrol]⟩

theorem synced_poke {k : Fin 8} (hk : k ≠ 7) {v : Word} (h : d.Synced) : (d.poke k v).Synced :=
  (Function.update_of_ne hk.symm _ _).trans h

theorem setBreakpoint_spec {addr : Word} {d' : DebugRegs386} (hsync : d.Synced)
    (h : d.setBreakpoint addr global c n = some (i, d')) :
    d.available = some i ∧ d'.Synced ∧ d'.reg i = addr ∧ d'.debugreg (slot i) = addr ∧
      getCondition (d'.debugreg 7) i = c.bits ∧
      (∀ j ≠ i, d'.reg j = d.reg j ∧ d'.debugreg (slot j) = d.debugreg (slot j)) ∧
      ∀ j ≠ i, Unchanged d d' j ↔ (c = .any → i < j → getCondition (d.debugreg 7) j = 3) := by
  obtain ⟨k, havail, heq⟩ := Option.map_eq_some_iff.mp h
  obtain ⟨rfl, rfl⟩ := Prod.mk.inj heq
  have hpoked : (d.poke (slot k) addr).Synced := synced_poke (slot_ne_control k) hsync
  have hother : ∀ j ≠ k, slot j ≠ slot k := fun j hj heq => hj (slot_injective heq)
  have hsynced : ((d.poke (slot k) addr).enable k true global c n).Synced := synced_enable
  refine ⟨havail, hsynced, Function.update_self _ _ _, ?_, enable_condition_self, ?_, ?_⟩
  · exact enable_debugreg.trans (Function.update_self _ _ _)
  · intro j hj
    refine ⟨Function.update_of_ne hj _ _, enable_debugreg.trans ?_⟩
    exact Function.update_of_ne (hother j hj) _ _
  · intro j hj
    have hpoke := poke_other (d := d) (slot_ne_control k) (hother j hj) addr
    have hiff := enable_other hpoked hj true global c n
    rw [hpoke.condition] at hiff
    constructor
    · intro hsame
      refine hiff.mp ?_ rfl
      exact ⟨rfl, enable_debugreg, hsame.condition.trans hpoke.condition.symm,
        hsame.enabled.trans hpoke.enabled.symm⟩
    · intro hany
      have hunchanged := hpoke.trans (hiff.mpr fun _ => hany)
      exact { hunchanged with reg := Function.update_of_ne hj _ _ }

theorem clear_spec (hsync : d.Synced) :
    (d.clear i).Synced ∧ (d.clear i).reg i = 0 ∧ (d.clear i).debugreg (slot i) = 0 ∧
      ∀ j ≠ i, Unchanged d (d.clear i) j := by
  let off := d.enable i false true .dataReadWrite .fourByte
  let flags := (off.debugreg 6 &&& 0xF) &&& ~~~((1 : Word) <<< i.val)
  have hoff : off.Synced := synced_enable
  have hsynced : ((off.poke (slot i) 0).poke 6 flags).Synced :=
    synced_poke (by decide) (synced_poke (slot_ne_control i) hoff)
  refine ⟨hsynced, Function.update_self _ _ _, ?_, fun j hj => ?_⟩
  · exact (Function.update_of_ne (slot_ne_status i) _ _).trans (Function.update_self _ _ _)
  · have hother : slot j ≠ slot i := fun heq => hj (slot_injective heq)
    have hdisabled : Unchanged d off j := (enable_other hsync hj _ _ _ _).mpr nofun
    have hcleared : Unchanged off (off.poke (slot i) 0) j :=
      poke_other (slot_ne_control i) hother 0
    have hstatus : Unchanged (off.poke (slot i) 0) ((off.poke (slot i) 0).poke 6 flags) j :=
      poke_other (by decide) (slot_ne_status j) flags
    have hunchanged := (hdisabled.trans hcleared).trans hstatus
    exact { hunchanged with reg := Function.update_of_ne hj _ _ }

end Calls

end ZeroBugs.Target.DebugRegs
