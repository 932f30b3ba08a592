import ZeroBugs.Typez.IntTypes

/-! # Type specifiers -/
namespace ZeroBugs.Interp.TypeSpec

open Typez (IntType)

/-- The platforms that the sizes of a machine word and of `long double` depend on. -/
inductive Platform where
  | i386 | x86_64
  deriving DecidableEq

namespace Platform

def wordSize : Platform → Nat
  | i386 => 4
  | x86_64 => 8

def longDoubleSize : Platform → Nat
  | i386 => 12
  | x86_64 => 16

end Platform

inductive Spec where
  | int | char | short | signed | unsigned | long
  | float | double | void | typename | const | volatile
  deriving DecidableEq

abbrev Flags := BitVec 64

def tmInt : Flags := 0x1000
def tmFloat : Flags := 0x2000
def tmType : Flags := 0xF000
def tmNonInt : Flags := 0xE000
def tmSize : Flags := 0x00FF
def tfLongLong : Flags := 0x0800

def Spec.flags : Spec → Flags
  | int => 0x1000 ||| 4
  | char => 0x1000 ||| 1
  | short => 0x1000 ||| 2
  | signed => 0x0100
  | unsigned => 0x0200
  | long => 0x0400
  | float => 0x2000 ||| 4
  | double => 0x2000 ||| 8
  | void => 0x4000
  | typename => 0x8000
  | const => 0x10000
  | volatile => 0x20000

def Any (flags mask : Flags) : Prop := flags &&& mask ≠ 0
  deriving Decidable

def All (flags mask : Flags) : Prop := flags &&& mask = mask
  deriving Decidable

inductive Exn where
  | parseError (message : String)
  | evalError (message : String)
  | assertion
  deriving DecidableEq

def validate (flags : Flags) : Spec → Except Exn Flags
  | .short =>
    if All flags Spec.char.flags then .error (.parseError "short specifier invalid for char")
    else if All flags Spec.short.flags then .error (.parseError "too many 'short' specifiers")
    else .ok flags
  | .unsigned | .signed => .ok flags
  | .long =>
    if Any flags Spec.void.flags then .error (.parseError "long specifier invalid for void")
    else if All flags Spec.char.flags then
      .error (.parseError "long specifier invalid for char")
    else if Any flags tfLongLong then .error (.parseError "too many 'long' specifiers")
    else if Any flags Spec.long.flags then .ok (flags ||| tfLongLong)
    else .ok flags
  | .int =>
    if Any flags tmNonInt then .error (.parseError "more than one type specified")
    else if All flags Spec.char.flags then .error (.parseError "more than one type specified")
    else if All flags Spec.int.flags then .error (.parseError "more than one type specified")
    else .ok flags
  | .char =>
    if All flags Spec.short.flags then .error (.parseError "short specifier invalid for char")
    else if Any flags Spec.long.flags then
      .error (.parseError "long specifier invalid for char")
    else if Any flags (Spec.void.flags ||| tmSize) then
      .error (.parseError "more than one type specified")
    else .ok flags
  | .float | .double =>
    if All flags Spec.short.flags then
      .error (.parseError "short, signed or unsigned invalid for non-int")
    else if Any flags (tmSize ||| Spec.void.flags) then
      .error (.parseError "more than one type specified")
    else .ok flags
  | .void | .typename =>
    if Any flags (~~~(Spec.const.flags ||| Spec.volatile.flags)) then
      .error (.parseError "more than one type specified")
    else .ok flags
  | .const | .volatile => .ok flags

def validateAndSet (flags : Flags) (spec : Spec) : Except Exn Flags := do
  return (← validate flags spec) ||| spec.flags

def pushBackAll : Flags → List Spec → Except Exn Flags
  | flags, [] => .ok flags
  | flags, spec :: specs => do pushBackAll (← validateAndSet flags spec) specs

/-- `signed` and `unsigned` can only be applied to integers. -/
def checkSign (flags : Flags) : Except Exn Flags :=
  if Any flags (Spec.signed.flags ||| Spec.unsigned.flags) then
    if All flags (Spec.signed.flags ||| Spec.unsigned.flags) then
      .error (.evalError "signed and unsigned both specified")
    else if Any flags tmNonInt then
      .error (.evalError "short, signed or unsigned invalid for non-int")
    else .ok (flags ||| tmInt)
  else .ok flags

def checkShort (flags : Flags) : Except Exn Flags :=
  if Any flags Spec.short.flags ∧ Any flags tmNonInt then
    .error (.evalError "short, signed or unsigned invalid for non-int")
  else .ok flags

/-- `long` only applies to integers and to `double`. -/
def checkLong (host : Platform) (flags : Flags) : Except Exn Flags :=
  if Any flags Spec.long.flags then
    if All flags Spec.short.flags then
      .error (.evalError "long and short cannot be specified together")
    else if All flags Spec.float.flags then
      .error (.evalError "long invalid for float (did you mean double?)")
    else if All flags Spec.double.flags then
      if Any flags tfLongLong then .error (.parseError "too many 'long' specifiers")
      else .ok (flags &&& ~~~tmSize ||| BitVec.ofNat 64 host.longDoubleSize)
    else if Any flags tfLongLong then .ok ((flags ||| tmInt) &&& ~~~tmSize ||| 8)
    else if flags &&& tmInt = 0 then .ok (flags ||| tmInt)
    else .ok flags
  else .ok flags

def intSize (host : Platform) (flags : Flags) : Except Exn Nat :=
  match (flags &&& tmSize).toNat with
  | 0 => .ok host.wordSize
  | 1 => if All flags Spec.char.flags then .ok 1 else .error .assertion
  | 2 => if All flags Spec.short.flags then .ok 2 else .error .assertion
  | 4 => .ok 4
  | 8 => if Any flags tfLongLong then .ok 8 else .error .assertion
  | _ => .error .assertion

inductive Unqualified where
  | int (type : IntType)
  | float (byteSize : Nat)
  | void
  | named
  deriving DecidableEq

structure DataType where
  type : Unqualified
  isVolatile : Bool
  isConst : Bool
  deriving DecidableEq

def unqualified (host : Platform) (flags : Flags) : Except Exn (Option Unqualified) :=
  if Any flags Spec.typename.flags then .ok (some .named)
  else if Any flags tmInt then
    if flags &&& tmType = tmInt then do
      return some (.int ⟨8 * (← intSize host flags), ¬ Any flags Spec.unsigned.flags⟩)
    else .error .assertion
  else if Any flags tmFloat then
    let size := (flags &&& tmSize).toNat
    if flags &&& tmType = tmFloat ∧ (size = 4 ∨ size = 8 ∨ size = host.longDoubleSize) then
      .ok (some (.float size))
    else .error .assertion
  else if Any flags Spec.void.flags then
    if flags = Spec.void.flags then .ok (some .void) else .error .assertion
  else .ok none

def evalImpl (host : Platform) (flags : Flags) : Except Exn (Option DataType) := do
  let flags ← checkSign flags
  let flags ← checkShort flags
  let flags ← checkLong host flags
  match ← unqualified host flags with
  | none => return none
  | some type => return some ⟨type, Any flags Spec.volatile.flags, Any flags Spec.const.flags⟩

def typeOf (host : Platform) (specs : List Spec) : Except Exn (Option DataType) := do
  evalImpl host (← pushBackAll 0 specs)

inductive Rank where
  | char | short | int | long | longLong
  deriving DecidableEq

def Rank.size (debuggee : Platform) : Rank → Nat
  | char => 1
  | short => 2
  | int => 4
  | long => debuggee.wordSize
  | longLong => 8

/-- The specifiers for the integer types. A plain `char` is signed on both platforms. -/
def multisets : Rank → Bool → List (List Spec)
  | .char, true => [[.char], [.signed, .char]]
  | .char, false => [[.unsigned, .char]]
  | .short, true => [[.short], [.signed, .short], [.short, .int], [.signed, .short, .int]]
  | .short, false => [[.unsigned, .short], [.unsigned, .short, .int]]
  | .int, true => [[.int], [.signed], [.signed, .int]]
  | .int, false => [[.unsigned], [.unsigned, .int]]
  | .long, true => [[.long], [.signed, .long], [.long, .int], [.signed, .long, .int]]
  | .long, false => [[.unsigned, .long], [.unsigned, .long, .int]]
  | .longLong, true => [[.long, .long], [.signed, .long, .long], [.long, .long, .int],
      [.signed, .long, .long, .int]]
  | .longLong, false => [[.unsigned, .long, .long], [.unsigned, .long, .long, .int]]

def Names (specs : List Spec) (rank : Rank) (isSigned : Bool) : Prop :=
  ∃ m ∈ multisets rank isSigned, specs.Perm m

/-- The type has the size and the signedness that it has in C for the debuggee. -/
def ComputesCType (host debuggee : Platform) (specs : List Spec) (rank : Rank)
    (isSigned : Bool) : Prop :=
  typeOf host specs = .ok (some ⟨.int ⟨8 * rank.size debuggee, isSigned⟩, false, false⟩)

inductive Width where
  | char | short | long | longLong
  deriving DecidableEq

structure Partial where
  isUnsigned : Option Bool
  width : Option Width
  hasInt : Bool

namespace Partial

def add (p : Partial) : Spec → Option Partial
  | .signed => if p.isUnsigned = none then some { p with isUnsigned := some false } else none
  | .unsigned => if p.isUnsigned = none then some { p with isUnsigned := some true } else none
  | .char =>
    if p.width = none ∧ p.hasInt = false then some { p with width := some .char } else none
  | .short => if p.width = none then some { p with width := some .short } else none
  | .long =>
    match p.width with
    | none => some { p with width := some .long }
    | some .long => some { p with width := some .longLong }
    | _ => none
  | .int =>
    if p.hasInt = false ∧ p.width ≠ some .char then some { p with hasInt := true } else none
  | _ => none

def flags (p : Partial) : Flags :=
  (match p.isUnsigned with
    | none => 0
    | some false => Spec.signed.flags
    | some true => Spec.unsigned.flags) |||
  (match p.width with
    | none => 0
    | some .char => Spec.char.flags
    | some .short => Spec.short.flags
    | some .long => Spec.long.flags
    | some .longLong => Spec.long.flags ||| tfLongLong) |||
  (if p.hasInt then Spec.int.flags else 0)

def isKeyword : Spec → Bool
  | .signed | .unsigned | .char | .short | .long | .int => true
  | _ => false

theorem add_comm {a b : Spec} (ha : isKeyword a = true) (hb : isKeyword b = true)
    (p : Partial) : (p.add a).bind (fun q => q.add b) = (p.add b).bind (fun q => q.add a) := by
  rcases p with ⟨sign, width, int⟩
  cases a <;> cases ha <;> cases b <;> cases hb <;> cases int <;>
    rcases width with _ | _ | _ | _ | _ <;> rcases sign with _ | _ | _ <;> rfl

theorem validateAndSet_flags (p : Partial) (s : Spec) :
    match p.add s with
    | some q => validateAndSet p.flags s = .ok q.flags
    | none => True := by
  rcases p with ⟨sign, width, int⟩
  cases s <;> cases int <;> rcases width with _ | _ | _ | _ | _ <;>
    rcases sign with _ | _ | _ <;> trivial

end Partial

def read (p : Option Partial) (specs : List Spec) : Option Partial :=
  specs.foldl (fun p s => p.bind fun q => q.add s) p

theorem read_none (specs : List Spec) : read none specs = none := by
  induction specs with
  | nil => rfl
  | cons s specs ih => exact ih

variable {specs : List Spec}

theorem read_perm {m : List Spec} (h : specs.Perm m)
    (hm : ∀ s ∈ m, Partial.isKeyword s = true) (p : Option Partial) :
    read p specs = read p m := by
  refine h.foldl_eq' ?_ p
  intro a ha b hb q
  cases q with
  | none => rfl
  | some q => exact Partial.add_comm (hm a (h.mem_iff.mp ha)) (hm b (h.mem_iff.mp hb)) q

theorem pushBackAll_of_read {p q : Partial}
    (h : read (some p) specs = some q) : pushBackAll p.flags specs = .ok q.flags := by
  induction specs generalizing p with
  | nil =>
    obtain rfl := Option.some.inj h
    rfl
  | cons s specs ih =>
    have hstep := p.validateAndSet_flags s
    change read (p.add s) specs = some q at h
    cases hadd : p.add s with
    | none =>
      rw [hadd, read_none] at h
      cases h
    | some next =>
      rw [hadd] at h hstep
      rw [pushBackAll, hstep]
      exact ih h

def Rank.width : Rank → Option Width
  | char => some .char
  | short => some .short
  | int => none
  | long => some .long
  | longLong => some .longLong

def builtSize (host : Platform) (hasInt : Bool) : Rank → Nat
  | .char => 1
  | .short => 2
  | .int | .long => if hasInt then 4 else host.wordSize
  | .longLong => 8

structure Describes (p : Partial) (specs : List Spec) (rank : Rank) (isSigned : Bool) :
    Prop where
  width : p.width = rank.width
  sign : isSigned = (p.isUnsigned != some true)
  hasInt : p.hasInt = specs.contains .int
  notEmpty : rank = .int → p.isUnsigned ≠ none ∨ p.hasInt = true
  char : rank = .char → p.hasInt = false

variable {rank : Rank} {isSigned : Bool}

theorem evalImpl_flags (host : Platform) {p : Partial} (h : Describes p specs rank isSigned) :
    evalImpl host p.flags = if rank = .short ∧ p.hasInt = true then .error .assertion
      else .ok (some ⟨.int ⟨8 * builtSize host p.hasInt rank, isSigned⟩, false, false⟩) := by
  obtain ⟨hwidth, hsign, -, hempty, hchar⟩ := h
  rcases p with ⟨sign, width, hasInt⟩
  obtain rfl : width = rank.width := hwidth
  subst hsign
  rcases sign with _ | _ | _ <;> cases rank <;> cases hasInt <;> cases host <;>
    first | rfl | exact absurd (hempty rfl) (by simp) | cases hchar rfl

structure Reads (rank : Rank) (isSigned : Bool) (m : List Spec) : Prop where
  keywords : ∀ s ∈ m, Partial.isKeyword s = true
  described : ∃ p, read (some ⟨none, none, false⟩) m = some p ∧ Describes p m rank isSigned

theorem reads_multisets {m : List Spec}
    (h : m ∈ multisets rank isSigned) : Reads rank isSigned m := by
  revert m
  cases rank <;> cases isSigned <;>
    simp only [multisets, List.forall_mem_cons, List.not_mem_nil, false_imp_iff, implies_true,
      and_true] <;> and_intros <;>
    exact ⟨by simp [Partial.isKeyword], _, rfl, ⟨rfl, rfl, rfl, by simp, by simp⟩⟩

theorem typeOf_names (host : Platform)
    (h : Names specs rank isSigned) :
    typeOf host specs = if rank = .short ∧ .int ∈ specs then .error .assertion
      else .ok (some ⟨.int ⟨8 * builtSize host (specs.contains .int) rank, isSigned⟩,
        false, false⟩) := by
  obtain ⟨m, hm, hperm⟩ := h
  obtain ⟨hkeywords, p, hread, hp⟩ := reads_multisets hm
  rw [← read_perm hperm hkeywords] at hread
  have hflags : pushBackAll 0 specs = .ok p.flags := pushBackAll_of_read hread
  have hint : p.hasInt = specs.contains .int := by rw [hp.hasInt, hperm.contains_eq]
  rw [typeOf, hflags]
  refine (evalImpl_flags host hp).trans ?_
  simp only [hint, List.contains_iff_mem]

/-- Where `int` is left out, a word has the size of the type; where it is not, the type has
the size of an `int`. -/
def KeepsSize (host debuggee : Platform) (specs : List Spec) : Rank → Prop
  | .char | .longLong => True
  | .short => .int ∉ specs
  | .int => .int ∈ specs ∨ host.wordSize = 4
  | .long =>
    if .int ∈ specs then debuggee.wordSize = 4 else debuggee.wordSize = host.wordSize

theorem computesCType_iff (host debuggee : Platform) {specs : List Spec} {rank : Rank}
    {isSigned : Bool} (h : Names specs rank isSigned) :
    ComputesCType host debuggee specs rank isSigned ↔ KeepsSize host debuggee specs rank := by
  rw [ComputesCType, typeOf_names host h]
  by_cases hshort : rank = .short ∧ .int ∈ specs
  · obtain ⟨rfl, hint⟩ := hshort
    simp [KeepsSize, hint]
  · have hcancel (m n : Nat) : 8 * m = 8 * n ↔ n = m := by omega
    simp only [if_neg hshort, Except.ok.injEq, Option.some.injEq, DataType.mk.injEq,
      Unqualified.int.injEq, IntType.mk.injEq, hcancel, and_true]
    by_cases hint : Spec.int ∈ specs <;> cases rank <;>
      simp_all [KeepsSize, builtSize, Rank.size, eq_comm]

theorem computesCType_longUnsignedLong :
    ComputesCType .x86_64 .x86_64 [.long, .unsigned, .long] .longLong false :=
  (computesCType_iff .x86_64 .x86_64 ⟨_, .head _, .swap _ _ _⟩).mpr trivial

theorem longInt_not_computesCType : Names [.long, .int] .long true ∧
    ¬ ComputesCType .x86_64 .x86_64 [.long, .int] .long true := by
  refine ⟨⟨_, .tail _ (.tail _ (.head _)), .refl _⟩, ?_⟩
  intro h
  have hsize : typeOf .x86_64 [.long, .int] = .ok (some ⟨.int ⟨32, true⟩, false, false⟩) := rfl
  cases h

end ZeroBugs.Interp.TypeSpec
