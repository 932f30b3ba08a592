import ZeroBugs.Typez.IntTypes

/-! # Array slices -/
namespace ZeroBugs.Interp.ArrayRange
open List

open Typez (Tag Variant)

structure Thread where
  is32Bit : Bool
  word : BitVec 64 → BitVec 64

structure Child where
  name : String
  addr : BitVec 64
  value : String
  deriving DecidableEq

/-- The children that are taken for duplicates when they follow one another. -/
def Child.Same (a b : Child) : Prop := a.addr = b.addr ∧ a.name = b.name
  deriving Decidable

/-- `DebugSymbolVector::add` -/
def addChild (children : List Child) (child : Child) : List Child :=
  match children.getLast? with
  | none => [child]
  | some prev =>
    if prev.Same child then
      if prev.value ≠ "" then children else children.dropLast ++ [child]
    else children ++ [child]

inductive ArrayType where
  | fixed (first last : Int)
  | dynamic
  deriving DecidableEq

/-- A symbol of an array type. The children are those that have been added by hand. -/
structure ArraySymbol where
  type : ArrayType
  elemSize : Nat
  addr : BitVec 64
  children : List Child
  deriving DecidableEq

def arraySize (thread : Thread) (array : ArraySymbol) : Nat :=
  match array.type with
  | .fixed first last => (last - first + 1).toNat
  | .dynamic => (thread.word array.addr).toNat

def firstElemAddr (thread : Thread) (array : ArraySymbol) : BitVec 64 :=
  match array.type with
  | .fixed _ _ => array.addr
  | .dynamic => thread.word (array.addr + if thread.is32Bit then 4 else 8)

inductive Exn where
  | rangeError (message : String)
  | invalidArgument (message : String)
  deriving DecidableEq

def getIndex (index : Variant) (upper : Nat) : Except Exn Nat :=
  if index.tag = .uint64 then
    if index.value.toNat ≥ upper then .error (.rangeError "array subscript is out of range")
    else .ok index.value.toNat
  else if index.value < 0 ∨ index.value.toNat ≥ upper then
    .error (.rangeError "array subscript is out of range")
  else .ok index.value.toNat

structure Slicer where
  low : Nat
  high : Nat
  current : Nat
  dest : List Child

def Slicer.notify (slicer : Slicer) (child : Child) : Slicer :=
  { slicer with
    dest :=
      if slicer.low ≤ slicer.current ∧ slicer.current ≤ slicer.high then
        addChild slicer.dest child
      else slicer.dest
    current := slicer.current + 1 }

def Slicer.run (children : List Child) (low high : Nat) (dest : List Child) : List Child :=
  let slicer : Slicer := ⟨low, if low ≤ high then high else 2 ^ 64 - 1, 0, dest⟩
  (children.foldl Slicer.notify slicer).dest

def getArrayType (low high : Nat) : Except Exn ArrayType :=
  if low ≤ high then .ok (.fixed low high)
  else .error (.invalidArgument "invalid range of array elements")

def newSymbol (thread : Thread) (array : ArraySymbol) (type : ArrayType) (low high : Nat) :
    ArraySymbol :=
  let first := firstElemAddr thread array
  let addr := if first ≠ 0 then first + BitVec.ofNat 64 (array.elemSize * low) else first
  { type := type
    elemSize := array.elemSize
    addr := addr
    children := if addr = 0 then Slicer.run array.children low high [] else [] }

/-- `PostfixExpr::eval_array_range`, after both bounds have been evaluated. -/
def evalArrayRange (thread : Thread) (array : ArraySymbol) (lower upper : Option Variant) :
    Except Exn ArraySymbol := do
  let size := arraySize thread array
  let low ←
    match lower with
    | some index => getIndex index size
    | none => pure 0
  let high ←
    match upper with
    | some index => (· - 1) <$> getIndex index size
    | none => pure 0
  let high := if low ≥ high then size - 1 else high
  let type ← getArrayType low high
  return newSymbol thread array type low high

inductive Element where
  | stored (addr : BitVec 64)
  | child (child : Child)

def elements (thread : Thread) (array : ArraySymbol) : List Element :=
  if firstElemAddr thread array = 0 then array.children.map .child
  else (List.range (arraySize thread array)).map fun i =>
    .stored (firstElemAddr thread array + BitVec.ofNat 64 (array.elemSize * i))

structure Stored (thread : Thread) (array : ArraySymbol) : Prop where
  addr : firstElemAddr thread array ≠ 0
  fits : (firstElemAddr thread array).toNat + array.elemSize * arraySize thread array ≤ 2 ^ 64

structure Synthesised (thread : Thread) (array : ArraySymbol) : Prop where
  addr : firstElemAddr thread array = 0
  count : array.children.length = arraySize thread array
  distinct : array.children.IsChain fun a b => ¬ a.Same b

def SlicesTo (thread : Thread) (array : ArraySymbol) (low high : Variant) : Prop :=
  ∃ slice, evalArrayRange thread array (some low) (some high) = .ok slice ∧
    elements thread slice = ((elements thread array).drop low.value.toNat).take
      (high.value.toNat - low.value.toNat)

variable {children : List Child}

theorem addChild_eq {child : Child}
    (h : ∀ prev, children.getLast? = some prev → ¬ prev.Same child) :
    addChild children child = children ++ [child] := by
  cases hlast : children.getLast? with
  | none =>
    obtain rfl := getLast?_eq_none_iff.mp hlast
    rfl
  | some prev => simp only [addChild, hlast, if_neg (h prev hlast)]

variable {low high : Nat}

theorem foldl_notify
    (h : children.IsChain fun a b => ¬ a.Same b) :
    children.foldl Slicer.notify ⟨low, high, 0, []⟩ =
      ⟨low, high, children.length, (children.take (high + 1)).drop low⟩ := by
  induction children using List.reverseRecOn with
  | nil => simp
  | append_singleton children child ih =>
    rw [isChain_append] at h
    rw [foldl_append, ih h.1, foldl_cons, foldl_nil, Slicer.notify]
    by_cases hin : low ≤ children.length ∧ children.length ≤ high
    · have hall : children.take (high + 1) = children :=
        take_of_length_le (by omega)
      have hall' : (children ++ [child]).take (high + 1) = children ++ [child] :=
        take_of_length_le (by simp; omega)
      have hadd : addChild (children.drop low) child = children.drop low ++ [child] := by
        refine addChild_eq fun prev hprev => ?_
        rw [getLast?_drop] at hprev
        split at hprev
        · cases hprev
        · exact h.2.2 prev hprev child rfl
      simp only [hall, hall', if_pos hin, hadd, length_append, length_singleton,
        drop_append_of_le_length hin.1]
    · simp only [if_neg hin, length_append, length_singleton, Slicer.mk.injEq,
        true_and]
      rcases Nat.lt_or_ge children.length low with hlow | hlow
      · rw [drop_eq_nil_of_le (by simp; omega), drop_eq_nil_of_le (by simp; omega)]
      · rw [take_append_of_le_length (by omega)]

theorem run_eq (hle : low ≤ high)
    (h : children.IsChain fun a b => ¬ a.Same b) :
    Slicer.run children low high [] = (children.drop low).take (high + 1 - low) := by
  simp only [Slicer.run, if_pos hle, foldl_notify h, drop_take]

theorem getIndex_of_lt {index : Variant} {upper : Nat} (hpos : 0 ≤ index.value)
    (hlt : index.value < upper) : getIndex index upper = .ok index.value.toNat := by
  have hnat : ¬ index.value.toNat ≥ upper := by omega
  have hneg : ¬ (index.value < 0 ∨ index.value.toNat ≥ upper) := by omega
  rw [getIndex, if_neg hnat, if_neg hneg, ite_self]

theorem getIndex_of_le {index : Variant} {upper : Nat} (hle : upper ≤ index.value) :
    getIndex index upper = .error (.rangeError "array subscript is out of range") := by
  have hnat : index.value.toNat ≥ upper := by omega
  have hout : index.value < 0 ∨ index.value.toNat ≥ upper := .inr hnat
  rw [getIndex, if_pos hnat, if_pos hout, ite_self]

theorem firstElemAddr_newSymbol (thread : Thread) (array : ArraySymbol) (low high : Nat) :
    firstElemAddr thread (newSymbol thread array (.fixed low high) low high) =
      if firstElemAddr thread array ≠ 0 then
        firstElemAddr thread array + BitVec.ofNat 64 (array.elemSize * low)
      else firstElemAddr thread array := rfl

theorem arraySize_newSymbol (thread : Thread) (array : ArraySymbol)
    (hle : low ≤ high) :
    arraySize thread (newSymbol thread array (.fixed low high) low high) = high + 1 - low := by
  simp only [arraySize, newSymbol]
  omega

variable {thread : Thread} {array : ArraySymbol}

theorem Stored.elem_addr_ne_zero {i : Nat}
    (h : Stored thread array) (hi : i < arraySize thread array) :
    firstElemAddr thread array + BitVec.ofNat 64 (array.elemSize * i) ≠ 0 := by
  have hmul : array.elemSize * i + array.elemSize ≤
      array.elemSize * arraySize thread array := by
    exact Nat.mul_le_mul_left _ hi
  have hfits := h.fits
  have hlt := (firstElemAddr thread array).isLt
  have hpos : (firstElemAddr thread array).toNat ≠ 0 := fun hzero =>
    h.addr (BitVec.eq_of_toNat_eq hzero)
  intro hzero
  have htoNat : (firstElemAddr thread array +
      BitVec.ofNat 64 (array.elemSize * i)).toNat = 0 := congrArg BitVec.toNat hzero
  rw [BitVec.toNat_add, BitVec.toNat_ofNat] at htoNat
  rcases Nat.eq_zero_or_pos array.elemSize with hsize | hsize
  · rw [hsize, Nat.zero_mul] at htoNat
    omega
  · omega

theorem elements_newSymbol_stored
    (h : Stored thread array) (hle : low ≤ high) (hhigh : high < arraySize thread array) :
    elements thread (newSymbol thread array (.fixed low high) low high) =
      ((elements thread array).drop low).take (high + 1 - low) := by
  have hfirst := firstElemAddr_newSymbol thread array low high
  rw [if_pos h.addr] at hfirst
  have hnonzero := h.elem_addr_ne_zero (Nat.lt_of_le_of_lt hle hhigh)
  rw [elements, hfirst, if_neg hnonzero, arraySize_newSymbol thread array hle, elements,
    if_neg h.addr]
  refine ext_getElem (by simp; omega) fun i hi _ => ?_
  simp [newSymbol, Nat.mul_add, BitVec.ofNat_add, BitVec.add_assoc]

theorem elements_newSymbol_synthesised
    (h : Synthesised thread array) (hle : low ≤ high) :
    elements thread (newSymbol thread array (.fixed low high) low high) =
      ((elements thread array).drop low).take (high + 1 - low) := by
  have hfirst := firstElemAddr_newSymbol thread array low high
  rw [if_neg (not_not.mpr h.addr), h.addr] at hfirst
  rw [elements, if_pos hfirst, elements, if_pos h.addr, ← map_drop, ← map_take,
    ← run_eq hle h.distinct]
  simp [newSymbol, h.addr]

theorem elements_newSymbol
    (h : Stored thread array ∨ Synthesised thread array) (hle : low ≤ high)
    (hhigh : high < arraySize thread array) :
    elements thread (newSymbol thread array (.fixed low high) low high) =
      ((elements thread array).drop low).take (high + 1 - low) := by
  rcases h with h | h
  · exact elements_newSymbol_stored h hle hhigh
  · exact elements_newSymbol_synthesised h hle

theorem length_elements
    (h : Stored thread array ∨ Synthesised thread array) :
    (elements thread array).length = arraySize thread array := by
  rcases h with h | h
  · rw [elements, if_neg h.addr, length_map, length_range]
  · rw [elements, if_pos h.addr, length_map, h.count]

theorem evalArrayRange_eq {low high : Variant}
    (hlow : 0 ≤ low.value) (hlt : low.value < high.value)
    (hhigh : high.value < arraySize thread array) :
    evalArrayRange thread array (some low) (some high) =
      let last := if low.value.toNat + 1 < high.value.toNat then high.value.toNat - 1
        else arraySize thread array - 1
      .ok (newSymbol thread array (.fixed low.value.toNat last) low.value.toNat last) := by
  have hindex := getIndex_of_lt hlow (Int.lt_trans hlt hhigh)
  have hindex' := getIndex_of_lt (Int.le_trans hlow (Int.le_of_lt hlt)) hhigh
  have htype (m n : Nat) (h : m ≤ n) : getArrayType m n = .ok (.fixed m n) := if_pos h
  simp only [evalArrayRange, hindex, hindex', bind, Except.bind, Functor.map, Except.map]
  split_ifs with h h' h' <;> first | omega | (rw [htype _ _ (by omega)]; rfl)

theorem slicesTo_iff {thread : Thread} {array : ArraySymbol} {low high : Variant}
    (h : Stored thread array ∨ Synthesised thread array) (hlow : 0 ≤ low.value)
    (hlt : low.value < high.value) (hhigh : high.value ≤ arraySize thread array) :
    SlicesTo thread array low high ↔
      low.value + 1 < high.value ∧ high.value < arraySize thread array := by
  rcases Int.lt_or_eq_of_le hhigh with hin | hend
  · rw [SlicesTo, evalArrayRange_eq hlow hlt hin]
    by_cases hone : low.value + 1 < high.value
    · have hone' : low.value.toNat + 1 < high.value.toNat := by omega
      refine iff_of_true ⟨_, rfl, ?_⟩ ⟨hone, hin⟩
      rw [if_pos hone', elements_newSymbol h (by omega) (by omega)]
      congr 1
      omega
    · have hone' : ¬ low.value.toNat + 1 < high.value.toNat := by omega
      refine iff_of_false ?_ (fun hcond => hone hcond.1)
      rintro ⟨slice, hslice, helements⟩
      obtain rfl := Except.ok.inj hslice
      rw [if_neg hone', elements_newSymbol h (by omega) (by omega)] at helements
      have hlength := congrArg List.length helements
      simp only [length_take, length_drop, length_elements h] at hlength
      omega
  · refine iff_of_false ?_ (by omega)
    rintro ⟨slice, hslice, -⟩
    have hindex := getIndex_of_lt hlow (hend ▸ hlt)
    have hindex' := getIndex_of_le (Int.le_of_eq hend.symm)
    simp only [evalArrayRange, hindex, hindex', bind, Except.bind, Functor.map, Except.map]
      at hslice
    cases hslice

def fourInts : ArraySymbol := ⟨.fixed 0 3, 4, 0x1000, []⟩

def noWords : Thread := ⟨false, fun _ => 0⟩

def int (x : Int) : Variant := ⟨.int32, Tag.int32.convert x, Tag.represents_convert _ _⟩

theorem stored_fourInts : Stored noWords fourInts := ⟨by decide, by decide⟩

theorem slicesTo_middle : SlicesTo noWords fourInts (int 1) (int 3) :=
  (slicesTo_iff (.inl stored_fourInts) (by decide) (by decide) (by decide)).mpr (by decide)

theorem wholeArray_not_slicesTo : Stored noWords fourInts ∧ arraySize noWords fourInts = 4 ∧
    ¬ SlicesTo noWords fourInts (int 0) (int 4) := by
  refine ⟨stored_fourInts, rfl, ?_⟩
  rintro ⟨slice, hslice, -⟩
  have herror : evalArrayRange noWords fourInts (some (int 0)) (some (int 4)) =
      .error (.rangeError "array subscript is out of range") := rfl
  cases hslice

end ZeroBugs.Interp.ArrayRange
