import ZeroBugs.Lib.TwosComplement

/-! # Base classes -/
namespace ZeroBugs.Typez.ClassBases
open List

mutual
/-- A class type. What classes share of a hierarchy is written out at each place. -/
inductive ClassType where
  | mk (name unqualifiedName : String) (bitSize : Nat) (bases : List BaseClass)
/-- A base with its offset, an `off_t`, and its index if it is virtual. -/
inductive BaseClass where
  | mk (type : ClassType) (offset : BitVec 64) (virtualIndex : Nat)
end

namespace ClassType

def name : ClassType → String
  | mk name _ _ _ => name

def unqualifiedName : ClassType → String
  | mk _ unqualifiedName _ _ => unqualifiedName

def bitSize : ClassType → Nat
  | mk _ _ bitSize _ => bitSize

def bases : ClassType → List BaseClass
  | mk _ _ _ bases => bases

end ClassType

namespace BaseClass

def type : BaseClass → ClassType
  | mk type _ _ => type

def offset : BaseClass → BitVec 64
  | mk _ offset _ => offset

def virtualIndex : BaseClass → Nat
  | mk _ _ virtualIndex => virtualIndex

end BaseClass

mutual
def ClassType.lookupBase (name : String) (recursive : Bool) :
    ClassType → BitVec 64 → Option BaseClass × BitVec 64
  | .mk _ _ _ bases, offset => lookupBases name recursive bases offset
def lookupBases (name : String) (recursive : Bool) :
    List BaseClass → BitVec 64 → Option BaseClass × BitVec 64
  | [], offset => (none, offset)
  | .mk type baseOffset index :: bases, offset =>
    if type.name = name then (some (.mk type baseOffset index), baseOffset)
    else if recursive then
      match type.lookupBase name recursive offset with
      | (some result, offset) => (some result, offset + baseOffset)
      | (none, offset) => lookupBases name recursive bases offset
    else lookupBases name recursive bases offset
end

def isSpace (c : Char) : Bool := c = ' ' || (0x09 ≤ c.toNat && c.toNat ≤ 0x0d)

def equalIgnoringSpace (s t : String) : Bool :=
  s.toList.filter (fun c => !isSpace c) = t.toList.filter (fun c => !isSpace c)

def ClassType.isEqual (klass other : ClassType) : Bool :=
  klass.bitSize = other.bitSize &&
    (equalIgnoringSpace klass.name other.name ||
      equalIgnoringSpace klass.unqualifiedName other.unqualifiedName)

inductive Exn where
  | assertion
  | runtimeError (message : String)
  deriving DecidableEq

/-- What is asked of the thread. The offset to the top is read from the table of virtual
functions. -/
structure Thread where
  is32Bit : Bool
  offsetToTop : BaseClass → BitVec 64 → BitVec 64 → Except Exn (BitVec 64)

def truncate (thread : Thread) (offset : BitVec 64) : BitVec 64 :=
  if thread.is32Bit ∧ offset &&& 0xffffffff00000000 = 0 then
    (offset.setWidth 32).signExtend 64
  else offset

def adjustBaseToDerived (thread : Thread) (addr : BitVec 64) (debugFormat : String)
    (klass derived : ClassType) : Except Exn (BitVec 64) :=
  if derived.isEqual klass then .ok 0
  else
    match derived.lookupBase klass.name true 0 with
    | (none, _) => .ok 0
    | (some base, offset) =>
      let offset := truncate thread offset
      if base.virtualIndex = 0 then
        if 0 ≤ offset.toInt then .ok (addr - offset) else .error .assertion
      else if debugFormat = "stabs" then
        if 0 < offset.toInt then .ok (addr - offset)
        else do return addr + (← thread.offsetToTop base addr offset)
      else .ok (addr + if 0 < offset.toInt then -offset else offset)

inductive IsBase (base : ClassType) : ClassType → Prop where
  | direct {klass : ClassType} {b : BaseClass} :
      b ∈ klass.bases → b.type = base → IsBase base klass
  | indirect {klass : ClassType} {b : BaseClass} :
      b ∈ klass.bases → IsBase base b.type → IsBase base klass

structure Path where
  through : List BaseClass
  base : BaseClass

namespace Path

def steps (path : Path) : List BaseClass := path.through ++ [path.base]

def cons (b : BaseClass) (path : Path) : Path := { path with through := b :: path.through }

def leadsTo (name : String) (path : Path) : Bool := path.base.type.name = name

def offset (path : Path) : Int := (path.steps.map fun b => b.offset.toInt).sum

end Path

mutual
def ClassType.paths : ClassType → List Path
  | .mk _ _ _ bases => pathsFrom bases
def pathsFrom : List BaseClass → List Path
  | [] => []
  | .mk type offset index :: bases =>
    ⟨[], .mk type offset index⟩ :: type.paths.map (Path.cons (.mk type offset index)) ++
      pathsFrom bases
end

def ClassType.firstPath (klass : ClassType) (name : String) : Option Path :=
  klass.paths.find? (Path.leadsTo name)

def ClassType.IsPlain (klass : ClassType) : Prop :=
  ∀ path ∈ klass.paths, ∀ b ∈ path.steps, b.virtualIndex = 0 ∧ 0 ≤ b.offset.toInt

structure FindsBase (thread : Thread) (format : String) (derived : ClassType) (name : String) :
    Prop where
  found : (derived.lookupBase name true 0).1.isSome ↔ ∃ c, IsBase c derived ∧ c.name = name
  offset : ∀ path, derived.firstPath name = some path →
    (derived.lookupBase name true 0).1 = some path.base ∧
      (derived.lookupBase name true 0).2.toInt = path.offset
  roundTrip : ∀ base offset, derived.lookupBase name true 0 = (some base, offset) →
    ∀ addr, addr ≠ 0 →
      adjustBaseToDerived thread (addr + offset) format base.type derived = .ok addr

theorem Path.offset_cons (b : BaseClass) (path : Path) :
    (path.cons b).offset = b.offset.toInt + path.offset := by
  simp [Path.offset, Path.cons, Path.steps]

theorem Path.offset_nil (b : BaseClass) : Path.offset ⟨[], b⟩ = b.offset.toInt := by
  simp [Path.offset, Path.steps]

mutual
theorem ClassType.lookupBase_eq (name : String) : (klass : ClassType) → (offset : BitVec 64) →
    klass.lookupBase name true offset =
      match klass.firstPath name with
      | none => (none, offset)
      | some path => (some path.base, BitVec.ofInt 64 path.offset)
  | .mk _ _ _ bases, offset => lookupBases_eq name bases offset
theorem lookupBases_eq (name : String) : (bases : List BaseClass) → (offset : BitVec 64) →
    lookupBases name true bases offset =
      match (pathsFrom bases).find? (Path.leadsTo name) with
      | none => (none, offset)
      | some path => (some path.base, BitVec.ofInt 64 path.offset)
  | [], _ => rfl
  | .mk type baseOffset index :: bases, offset => by
    have ih := type.lookupBase_eq name offset
    have ihBases := lookupBases_eq name bases offset
    rw [ClassType.firstPath] at ih
    rw [lookupBases, pathsFrom, cons_append, find?_cons, find?_append,
      find?_map]
    by_cases hname : type.name = name
    · simp [hname, Path.leadsTo, BaseClass.type, Path.offset_nil, BaseClass.offset]
    · have hcomp : Path.leadsTo name ∘ Path.cons (.mk type baseOffset index) =
          Path.leadsTo name := rfl
      have hhead : Path.leadsTo name ⟨[], .mk type baseOffset index⟩ = false :=
        decide_eq_false hname
      rw [if_neg hname, if_pos rfl, hhead, hcomp, ih]
      cases type.paths.find? (Path.leadsTo name) with
      | none => exact ihBases
      | some path =>
        have hoffset : BitVec.ofInt 64 path.offset + baseOffset =
            BitVec.ofInt 64 (path.cons (.mk type baseOffset index)).offset := by
          rw [Path.offset_cons, BitVec.ofInt_add, BaseClass.offset, BitVec.ofInt_toInt,
            BitVec.add_comm]
        exact congrArg (Prod.mk (some path.base)) hoffset
end

variable {path : Path}

theorem mem_pathsFrom {bases : List BaseClass} : path ∈ pathsFrom bases ↔
    ∃ b ∈ bases, path = ⟨[], b⟩ ∨ ∃ p ∈ b.type.paths, path = p.cons b := by
  induction bases with
  | nil => simp [pathsFrom]
  | cons b bases ih =>
    cases b with
    | mk type offset index =>
      rw [pathsFrom, mem_append, mem_cons, mem_map, ih]
      simp [BaseClass.type, eq_comm, or_assoc]

variable {klass : ClassType}

theorem isBase_iff {base : ClassType} :
    IsBase base klass ↔ ∃ path ∈ klass.paths, path.base.type = base := by
  have hpaths (c : ClassType) : c.paths = pathsFrom c.bases := by cases c; rfl
  constructor
  · intro h
    induction h with
    | @direct klass b hb htype =>
      rw [hpaths]
      exact ⟨⟨[], b⟩, mem_pathsFrom.mpr ⟨b, hb, .inl rfl⟩, htype⟩
    | @indirect klass b hb _ ih =>
      obtain ⟨path, hpath, htype⟩ := ih
      rw [hpaths klass]
      exact ⟨path.cons b, mem_pathsFrom.mpr ⟨b, hb, .inr ⟨path, hpath, rfl⟩⟩, htype⟩
  · rintro ⟨⟨through, b⟩, hpath, htype⟩
    induction through generalizing klass with
    | nil =>
      rw [hpaths] at hpath
      obtain ⟨b', hb', hpath | ⟨p, -, hpath⟩⟩ := mem_pathsFrom.mp hpath
      · cases hpath
        exact .direct hb' htype
      · cases hpath
    | cons step through ih =>
      rw [hpaths] at hpath
      obtain ⟨b', hb', hpath | ⟨p, hp, hpath⟩⟩ := mem_pathsFrom.mp hpath
      · cases hpath
      · cases hpath
        exact .indirect hb' (ih hp htype)

variable {name : String}

theorem firstPath_isSome :
    (klass.firstPath name).isSome ↔ ∃ c, IsBase c klass ∧ c.name = name := by
  rw [ClassType.firstPath, find?_isSome]
  constructor
  · rintro ⟨path, hpath, hname⟩
    exact ⟨path.base.type, isBase_iff.mpr ⟨path, hpath, rfl⟩, of_decide_eq_true hname⟩
  · rintro ⟨c, hbase, hname⟩
    obtain ⟨path, hpath, rfl⟩ := isBase_iff.mp hbase
    exact ⟨path, hpath, decide_eq_true hname⟩

open Lib.TwosComplement

theorem toInt_ofInt_eq_iff {s : Int} (h : 0 ≤ s) :
    (BitVec.ofInt 64 s).toInt = s ↔ s < 2 ^ 63 := by
  rw [BitVec.toInt_ofInt, Int.bmod_def]
  omega

theorem and_high_eq_zero_iff (x : BitVec 64) :
    x &&& 0xffffffff00000000 = 0 ↔ x.toNat < 2 ^ 32 := by
  have hmask : (0xffffffff00000000 : BitVec 64) = ~~~ones 64 32 := rfl
  have hall : ones 64 32 ||| ~~~ones 64 32 = BitVec.allOnes 64 := rfl
  have hlow : x &&& 0xffffffff00000000 = 0 ↔ x &&& ones 64 32 = x := by
    rw [hmask]
    constructor
    · intro h
      calc x &&& ones 64 32 = x &&& ones 64 32 ||| x &&& ~~~ones 64 32 := by rw [h]; simp
        _ = x := by rw [← BitVec.and_or_distrib_left, hall, BitVec.and_allOnes]
    · intro h
      rw [← h, BitVec.and_assoc]
      simp
  rw [hlow, ← BitVec.toNat_inj, toNat_and_ones (by omega)]
  exact Nat.mod_eq_iff_lt (by decide)

variable {thread : Thread}

theorem truncate_of_ge {x : BitVec 64}
    (h : thread.is32Bit = false ∨ 2 ^ 32 ≤ x.toNat) : truncate thread x = x := by
  rw [truncate, if_neg]
  rintro ⟨hbits, hzero⟩
  rcases h with h | h
  · rw [h] at hbits
    cases hbits
  · have hlt := (and_high_eq_zero_iff x).mp hzero
    omega

theorem toInt_truncate_of_lt {x : BitVec 64} (hbits : thread.is32Bit = true)
    (h : x.toNat < 2 ^ 32) :
    (truncate thread x).toInt = if x.toNat < 2 ^ 31 then (x.toNat : Int)
      else x.toNat - 2 ^ 32 := by
  rw [truncate, if_pos ⟨hbits, (and_high_eq_zero_iff x).mpr h⟩,
    BitVec.toInt_signExtend_of_le (by decide), BitVec.toInt_eq_toNat_cond,
    BitVec.toNat_setWidth, Nat.mod_eq_of_lt h]
  split_ifs <;> omega

/-- A thread of 32 bits takes offsets from `2 ^ 31` on for negative, unless they have more
than 32 bits. -/
def Reaches (thread : Thread) (offset : Int) : Prop :=
  thread.is32Bit = true → offset < 2 ^ 31 ∨ 2 ^ 32 ≤ offset

theorem truncate_ofInt (thread : Thread) {s : Int} (h0 : 0 ≤ s) (h63 : s < 2 ^ 63) :
    (Reaches thread s → truncate thread (BitVec.ofInt 64 s) = BitVec.ofInt 64 s) ∧
      (0 ≤ (truncate thread (BitVec.ofInt 64 s)).toInt → Reaches thread s) := by
  have hnat : ((BitVec.ofInt 64 s).toNat : Int) = s := by
    rw [toNat_ofInt_of_nonneg h0 (by omega)]
    omega
  by_cases hwide : thread.is32Bit = false ∨ 2 ^ 32 ≤ (BitVec.ofInt 64 s).toNat
  · refine ⟨fun _ => truncate_of_ge hwide, fun _ hbits => ?_⟩
    rcases hwide with h | h
    · rw [h] at hbits
      cases hbits
    · omega
  · obtain ⟨hbits, hlt⟩ := not_or.mp hwide
    have hbits : thread.is32Bit = true := by simpa using hbits
    have htrunc := toInt_truncate_of_lt hbits (Nat.lt_of_not_le hlt)
    constructor
    · intro hreach
      have hsmall : (BitVec.ofInt 64 s).toNat < 2 ^ 31 := by have := hreach hbits; omega
      apply BitVec.eq_of_toInt_eq
      rw [htrunc, if_pos hsmall, hnat, (toInt_ofInt_eq_iff h0).mpr h63]
    · intro hpos _
      rw [htrunc] at hpos
      split_ifs at hpos <;> omega

theorem Path.offset_nonneg (h : klass.IsPlain)
    (hpath : path ∈ klass.paths) : 0 ≤ path.offset := by
  refine sum_nonneg fun x hx => ?_
  obtain ⟨b, hb, rfl⟩ := mem_map.mp hx
  exact (h path hpath b hb).2

theorem lookupBase_of_firstPath
    (h : klass.firstPath name = some path) (offset : BitVec 64) :
    klass.lookupBase name true offset = (some path.base, BitVec.ofInt 64 path.offset) := by
  rw [ClassType.lookupBase_eq, h]

theorem adjustBaseToDerived_eq {format : String} {derived : ClassType} (h : derived.IsPlain)
    (hpath : derived.firstPath name = some path) (addr : BitVec 64) :
    adjustBaseToDerived thread addr format path.base.type derived =
      if derived.isEqual path.base.type then .ok 0
      else if 0 ≤ (truncate thread (BitVec.ofInt 64 path.offset)).toInt then
        .ok (addr - truncate thread (BitVec.ofInt 64 path.offset))
      else .error .assertion := by
  have hleads : path.leadsTo name = true := find?_some hpath
  have hname : path.base.type.name = name := of_decide_eq_true hleads
  have hvirtual : path.base.virtualIndex = 0 :=
    (h path (mem_of_find?_eq_some hpath) path.base (by simp [Path.steps])).1
  rw [adjustBaseToDerived, hname, lookupBase_of_firstPath hpath]
  simp only [hvirtual, if_true]

theorem roundTrip_iff {format : String} {derived : ClassType} (h : derived.IsPlain)
    (hpath : derived.firstPath name = some path) (hsum : path.offset < 2 ^ 63) :
    (∀ addr, addr ≠ 0 → adjustBaseToDerived thread (addr + BitVec.ofInt 64 path.offset) format
      path.base.type derived = .ok addr) ↔
      derived.isEqual path.base.type = false ∧ Reaches thread path.offset := by
  have h0 := Path.offset_nonneg h (mem_of_find?_eq_some hpath)
  obtain ⟨hkeep, hreach⟩ := truncate_ofInt thread h0 hsum
  constructor
  · intro hround
    have hone := hround 1 (by decide)
    rw [adjustBaseToDerived_eq h hpath] at hone
    split_ifs at hone with hequal hpos
    · exact absurd (Except.ok.inj hone) (by decide)
    · exact ⟨by simpa using hequal, hreach hpos⟩
  · rintro ⟨hequal, hreaches⟩ addr -
    have hpos : 0 ≤ (BitVec.ofInt 64 path.offset).toInt := by
      rw [(toInt_ofInt_eq_iff h0).mpr hsum]
      exact h0
    rw [adjustBaseToDerived_eq h hpath, hequal, hkeep hreaches, if_pos hpos,
      BitVec.add_sub_cancel]
    rfl

theorem findsBase_iff (thread : Thread) (format : String) {derived : ClassType} (name : String)
    (h : derived.IsPlain) :
    FindsBase thread format derived name ↔
      ∀ path, derived.firstPath name = some path →
        path.offset < 2 ^ 63 ∧ derived.isEqual path.base.type = false ∧
          Reaches thread path.offset := by
  constructor
  · intro hfinds path hpath
    have h0 := Path.offset_nonneg h (mem_of_find?_eq_some hpath)
    have hlookup := lookupBase_of_firstPath hpath 0
    have hsum : path.offset < 2 ^ 63 := by
      have hoffset := (hfinds.offset path hpath).2
      rw [hlookup] at hoffset
      exact (toInt_ofInt_eq_iff h0).mp hoffset
    exact ⟨hsum, (roundTrip_iff h hpath hsum).mp (hfinds.roundTrip _ _ hlookup)⟩
  · intro hcond
    refine ⟨?_, ?_, ?_⟩
    · rw [← firstPath_isSome, ClassType.lookupBase_eq]
      cases derived.firstPath name <;> rfl
    · intro path hpath
      have h0 := Path.offset_nonneg h (mem_of_find?_eq_some hpath)
      rw [lookupBase_of_firstPath hpath]
      exact ⟨rfl, (toInt_ofInt_eq_iff h0).mpr (hcond path hpath).1⟩
    · intro base offset hlookup
      cases hpath : derived.firstPath name with
      | none =>
        rw [ClassType.lookupBase_eq, hpath] at hlookup
        cases hlookup
      | some path =>
        rw [lookupBase_of_firstPath hpath] at hlookup
        cases hlookup
        exact (roundTrip_iff h hpath (hcond path hpath).1).mpr (hcond path hpath).2

def noTables : Thread := ⟨false, fun _ _ _ => .error .assertion⟩

def shape : ClassType :=
  .mk "Shape" "Shape" 128
    [.mk (.mk "Tag" "Tag" 8 []) 0 0,
     .mk (.mk "Drawn" "Drawn" 64 [.mk (.mk "Point" "Point" 32 []) 4 0]) 8 0]

theorem findsBase_point : FindsBase noTables "DWARF" shape "Point" :=
  (findsBase_iff noTables "DWARF" "Point" (by
      simp [ClassType.IsPlain, shape, ClassType.paths, pathsFrom, Path.cons, Path.steps,
        BaseClass.virtualIndex, BaseClass.offset])).mpr (by
      intro path hpath
      have hfirst : shape.firstPath "Point" = some
          ⟨[.mk (.mk "Drawn" "Drawn" 64 [.mk (.mk "Point" "Point" 32 []) 4 0]) 8 0],
            .mk (.mk "Point" "Point" 32 []) 4 0⟩ := rfl
      rw [hfirst] at hpath
      cases hpath
      exact ⟨by decide, by decide, nofun⟩)

/-- A class that derives from one of the same name in another namespace, and adds nothing
to it. -/
def foo : ClassType := .mk "b::Foo" "Foo" 32 [.mk (.mk "a::Foo" "Foo" 32 []) 0 0]

theorem sameName_not_findsBase : foo.IsPlain ∧ ¬ FindsBase noTables "DWARF" foo "a::Foo" := by
  constructor
  · simp [ClassType.IsPlain, foo, ClassType.paths, pathsFrom, Path.steps,
      BaseClass.virtualIndex, BaseClass.offset]
  · intro h
    have hround := h.roundTrip (.mk (.mk "a::Foo" "Foo" 32 []) 0 0) 0 rfl 1 (by decide)
    have hzero : adjustBaseToDerived noTables (1 + 0) "DWARF" (.mk "a::Foo" "Foo" 32 []) foo =
        .ok 0 := rfl
    exact absurd (hzero.symm.trans hround) (by decide)

end ZeroBugs.Typez.ClassBases
