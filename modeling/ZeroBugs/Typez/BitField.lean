import ZeroBugs.Lib.LittleEndian
import ZeroBugs.Typez.IntOutput

/-! # Bit-fields in memory -/
namespace ZeroBugs.Typez

open Lib.LittleEndian Lib.NumberText Lib.TwosComplement Function

abbrev Memory := Nat → BitVec 64

structure IntTypeImpl extends IntType where
  isChar : Bool
  bitOffs : Nat
  deriving DecidableEq

namespace IntTypeImpl

def named (bitSize : Nat) (isSigned : Bool) : IntTypeImpl :=
  ⟨⟨bitSize, isSigned⟩, bitSize = 8 || bitSize = 7, 0⟩

def bitField (bitSize bitOffs : Nat) (isSigned : Bool) : IntTypeImpl :=
  ⟨⟨bitSize, isSigned⟩, false, bitOffs⟩

def offs (type : IntTypeImpl) : Nat := type.bitOffs % 64

def read (type : IntTypeImpl) (base : Base) (memory : Memory) (addr : Nat) : List Char :=
  print base type.isSigned (memory addr) type.bitSize type.offs type.isChar

end IntTypeImpl

def isBitField (bitSize : Nat) : Bool :=
  if bitSize = 0 then false
  else if bitSize % 8 ≠ 0 then true
  else 1 < bitSize / 8 && bitSize / 8 % 2 ≠ 0

/-- The value in a buffer: bytes and short words are read as unsigned numbers, the others
as signed ones. -/
def bufferValue (buf : List UInt8) : Option Int :=
  match buf.length with
  | 1 => some (decode buf)
  | 2 => some (decode buf)
  | 4 => some (BitVec.ofNat 32 (decode buf)).toInt
  | 8 => some (BitVec.ofNat 64 (decode buf)).toInt
  | _ => none

/-- The mask of a bit-field, in an `int` of which the processor takes the counts of shifts
modulo 32. -/
def fieldMask (bitSize bitOffs : Nat) : BitVec 64 :=
  ((1#32 <<< (bitSize % 32) - 1#32) <<< (bitOffs % 32)).signExtend 64

inductive WriteError where
  | largeBitField (bitSize : Nat)
  | unhandledBufferSize (size : Nat)
  deriving DecidableEq

/-- The word with the low bytes of the buffer: the generic `write`. -/
def copyBytes (tmp : BitVec 64) (buf : List UInt8) : BitVec 64 :=
  tmp &&& ~~~ones 64 (8 * buf.length) ||| BitVec.ofNat 64 (decode buf)

def IntTypeImpl.write (type : IntTypeImpl) (memory : Memory) (addr : Nat) (buf : List UInt8) :
    Except WriteError Memory :=
  if 64 < type.bitSize then .error (.largeBitField type.bitSize)
  else if isBitField type.bitSize then
    let tmp := memory addr
    let mask := fieldMask type.bitSize type.offs
    match bufferValue buf with
    | none => .error (.unhandledBufferSize buf.length)
    | some value =>
      let x := BitVec.ofInt 64 value <<< type.offs
      .ok (update memory addr (tmp &&& ~~~mask ||| x &&& mask))
  else .ok (update memory addr (copyBytes (memory addr) buf))

def InField (offs bitSize i : Nat) : Prop := offs ≤ i ∧ i < offs + bitSize
  deriving Decidable

/-- The bits of the mask: counted modulo 32, and all that follow if the last one is the sign
of an `int`. -/
def InMask (offs bitSize i : Nat) : Prop :=
  offs % 32 ≤ i ∧ (i < offs % 32 + bitSize % 32 ∨ 32 ≤ offs % 32 + bitSize % 32)
  deriving Decidable

theorem inMask_iff_inField {offs bitSize : Nat} (h : offs + bitSize < 32) (i : Nat) :
    InMask offs bitSize i ↔ InField offs bitSize i := by
  unfold InMask InField
  omega

theorem getLsbD_fieldMask {bitSize offs i : Nat} (hi : i < 64) :
    (fieldMask bitSize offs).getLsbD i = decide (InMask offs bitSize i) := by
  have hs : bitSize % 32 < 32 := Nat.mod_lt _ (by omega)
  have hbit : ∀ j < 32, (ones 32 (bitSize % 32) <<< (offs % 32)).getLsbD j =
      decide (offs % 32 ≤ j ∧ j < offs % 32 + bitSize % 32) := by
    intro j hj
    rw [BitVec.getLsbD_shiftLeft, getLsbD_ones (by omega)]
    simp only [hj, decide_true, Bool.true_and, ← decide_not, ← Bool.decide_and]
    exact decide_eq_decide.mpr (by omega)
  rw [fieldMask, shiftLeft_one_sub_one hs, BitVec.getLsbD_signExtend, decide_eq_true hi,
    Bool.true_and, BitVec.msb_eq_getLsbD_last]
  -- an `int` is extended by its last bit
  split
  · rw [hbit i (by omega)]
    exact decide_eq_decide.mpr (by unfold InMask; omega)
  · rw [hbit 31 (by omega)]
    exact decide_eq_decide.mpr (by unfold InMask; omega)

theorem getLsbD_merge (tmp x mask : BitVec 64) {i : Nat} (hi : i < 64) :
    (tmp &&& ~~~mask ||| x &&& mask).getLsbD i =
      if mask.getLsbD i then x.getLsbD i else tmp.getLsbD i := by
  simp only [BitVec.getLsbD_or, BitVec.getLsbD_and, BitVec.getLsbD_not, hi, decide_true,
    Bool.true_and]
  cases mask.getLsbD i <;> simp

theorem field_eq_iff {w : Nat} {a b : BitVec w} {o p n : Nat} :
    field a o n = field b p n ↔ ∀ j < n, a.getLsbD (o + j) = b.getLsbD (p + j) := by
  have hbit : ∀ (x : BitVec w) (k j : Nat), (field x k n).testBit j =
      (decide (j < n) && x.getLsbD (k + j)) := by
    intro x k j
    rw [field, Nat.testBit_mod_two_pow, ← Nat.shiftRight_eq_div_pow, Nat.testBit_shiftRight]
    rfl
  constructor
  · intro h j hj
    have hj' := congrArg (Nat.testBit · j) h
    simpa only [hbit, hj, decide_true, Bool.true_and] using hj'
  · intro h
    refine Nat.eq_of_testBit_eq fun j => ?_
    rw [hbit, hbit]
    by_cases hj : j < n
    · rw [h j hj]
    · simp [hj]

/-- The value is in the field, nothing else has changed, and the field is read back. -/
structure Written (type : IntTypeImpl) (before after : Memory) (addr : Nat) (v : Int) : Prop where
  value : field (after addr) type.offs type.bitSize = (v % 2 ^ type.bitSize).toNat
  otherBits : ∀ i < 64, ¬InField type.offs type.bitSize i →
    (after addr).getLsbD i = (before addr).getLsbD i
  otherWords : ∀ a ≠ addr, after a = before a
  text : type.read .dec after addr = decimal (type.ofBits (v % 2 ^ type.bitSize).toNat)

def WritesField (type : IntTypeImpl) (memory : Memory) (addr : Nat) (buf : List UInt8) (v : Int) :
    Prop :=
  ∃ after, type.write memory addr buf = .ok after ∧ Written type memory after addr v

section Fields

variable {type : IntTypeImpl} {memory : Memory} {addr : Nat} {buf : List UInt8} {v : Int}
  (hfield : isBitField type.bitSize = true) (hsize : type.bitSize < 64)
  (hoffs : type.offs + type.bitSize ≤ 64)

theorem isBitField_pos (h : isBitField type.bitSize = true) : 0 < type.bitSize := by
  refine Nat.pos_of_ne_zero fun h0 => ?_
  rw [h0] at h
  exact Bool.false_ne_true h

include hfield hsize hoffs

theorem read_bitField : type.read .dec memory addr =
    decimal (type.ofBits (field (memory addr) type.offs type.bitSize)) := by
  have hchar : type.bitSize ≠ 8 := by
    intro h8
    rw [h8] at hfield
    exact absurd hfield (by decide)
  rw [IntTypeImpl.read, print_of_not_quoted fun h => hchar h.1,
    print_eq_inBase (isBitField_pos hfield) hoffs fun h => absurd h.2.2.1 (by omega)]
  rfl

theorem written_iff {after : Memory} (hwords : ∀ a ≠ addr, after a = memory a) :
    Written type memory after addr v ↔ ∀ i < 64, (after addr).getLsbD i =
      if InField type.offs type.bitSize i then (BitVec.ofInt 64 v <<< type.offs).getLsbD i
      else (memory addr).getLsbD i := by
  have hshift : ∀ j < type.bitSize, (BitVec.ofInt 64 v <<< type.offs).getLsbD (type.offs + j) =
      (BitVec.ofInt 64 v).getLsbD (0 + j) := by
    intro j hj
    rw [BitVec.getLsbD_shiftLeft, decide_eq_true (by omega), decide_eq_false (by omega),
      Nat.add_sub_cancel_left, Nat.zero_add]
    rfl
  have hvalue : field (after addr) type.offs type.bitSize = (v % 2 ^ type.bitSize).toNat ↔
      ∀ j < type.bitSize, (after addr).getLsbD (type.offs + j) =
        (BitVec.ofInt 64 v <<< type.offs).getLsbD (type.offs + j) := by
    rw [← field_ofInt hsize.le, field_eq_iff]
    exact forall₂_congr fun j hj => by rw [hshift j hj]
  constructor
  · intro h i hi
    split
    · next hin =>
      have hbit := hvalue.mp h.value (i - type.offs) (by unfold InField at hin; omega)
      rwa [Nat.add_sub_cancel' hin.1] at hbit
    · next hin => exact h.otherBits i hi hin
  · intro h
    have hin : field (after addr) type.offs type.bitSize = (v % 2 ^ type.bitSize).toNat := by
      refine hvalue.mpr fun j hj => ?_
      rw [h _ (by omega), if_pos ⟨Nat.le_add_right _ _, by omega⟩]
    refine ⟨hin, fun i hi hout => ?_, hwords, ?_⟩
    · rw [h i hi, if_neg hout]
    · rw [read_bitField hfield hsize hoffs, hin]

theorem writesField_iff (hv : bufferValue buf = some v) :
    WritesField type memory addr buf v ↔
      ∀ i < 64, ¬(InMask type.offs type.bitSize i ↔ InField type.offs type.bitSize i) →
        (memory addr).getLsbD i = (BitVec.ofInt 64 v <<< type.offs).getLsbD i := by
  set x := BitVec.ofInt 64 v <<< type.offs
  set mask := fieldMask type.bitSize type.offs
  have hwrite : type.write memory addr buf =
      .ok (update memory addr (memory addr &&& ~~~mask ||| x &&& mask)) := by
    rw [IntTypeImpl.write, if_neg (by omega), if_pos hfield, hv]
  have hwords : ∀ a ≠ addr,
      update memory addr (memory addr &&& ~~~mask ||| x &&& mask) a = memory a :=
    fun a ha => update_of_ne ha _ _
  have hbits : Written type memory _ addr v ↔ _ := written_iff hfield hsize hoffs hwords
  rw [update_self] at hbits
  have hlaw : WritesField type memory addr buf v ↔ Written type memory
      (update memory addr (memory addr &&& ~~~mask ||| x &&& mask)) addr v := by
    unfold WritesField
    rw [hwrite]
    exact ⟨fun ⟨_, h, hw⟩ => (Except.ok.inj h) ▸ hw, fun h => ⟨_, rfl, h⟩⟩
  rw [hlaw, hbits]
  refine forall₂_congr fun i hi => ?_
  rw [getLsbD_merge _ _ _ hi, getLsbD_fieldMask hi]
  by_cases hm : InMask type.offs type.bitSize i <;> by_cases hf : InField type.offs type.bitSize i
  · rw [decide_eq_true hm, if_pos rfl, if_pos hf]
    exact iff_of_true rfl fun h => absurd (iff_of_true hm hf) h
  · rw [decide_eq_true hm, if_pos rfl, if_neg hf]
    exact ⟨fun h _ => h.symm, fun h => (h fun hiff => hf (hiff.mp hm)).symm⟩
  · rw [decide_eq_false hm, if_neg Bool.false_ne_true, if_pos hf]
    exact ⟨fun h _ => h, fun h => h fun hiff => hm (hiff.mpr hf)⟩
  · rw [decide_eq_false hm, if_neg Bool.false_ne_true, if_neg hf]
    exact iff_of_true rfl fun h => absurd (iff_of_false hm hf) h

end Fields

theorem writesField_threeBits :
    isBitField (IntTypeImpl.bitField 3 5 true).bitSize = true ∧ bufferValue [6] = some 6 ∧
      WritesField (.bitField 3 5 true) (fun _ => 0) 0 [6] 6 := by
  refine ⟨rfl, rfl, (writesField_iff rfl (by decide) (by decide) rfl).mpr fun i _ h => ?_⟩
  exact absurd (inMask_iff_inField (by decide) i) h

theorem lastBit_not_writesField :
    isBitField (IntTypeImpl.bitField 1 31 false).bitSize = true ∧ bufferValue [0] = some 0 ∧
      (∃ after, (IntTypeImpl.bitField 1 31 false).write (fun _ => 0x100000000) 0 [0] = .ok after ∧
        after 0 = 0) ∧
      ¬WritesField (.bitField 1 31 false) (fun _ => 0x100000000) 0 [0] 0 := by
  have hwrite : (IntTypeImpl.bitField 1 31 false).write (fun _ => 0x100000000) 0 [0] =
      .ok (update (fun _ => 0x100000000) 0 0) := rfl
  refine ⟨rfl, rfl, ⟨_, hwrite, update_self ..⟩, ?_⟩
  rintro ⟨after, hok, hwritten⟩
  cases hwrite.symm.trans hok
  have hbit := hwritten.otherBits 32 (by decide) (by decide)
  exact absurd hbit (by decide)

end ZeroBugs.Typez
