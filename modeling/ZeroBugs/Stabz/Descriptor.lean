import ZeroBugs.Lib.MultiMap

/-! # STABS descriptors -/
namespace ZeroBugs.Stabz.Descriptor

open Lib

structure Stab where
  strindex : UInt32
  type : UInt8
  other : UInt8
  desc : UInt16
  value : UInt32
  deriving DecidableEq

structure Event where
  index : Nat
  stab : Stab
  str : List UInt8
  deriving DecidableEq

/-- A receiver of events, by its answer: `false` stops the loop. -/
abbrev Sink := Event → Bool

inductive Exn where
  | invalidArgument (msg : String)
  | outOfRange (msg : String)
  /-- `strlen` runs past the end of the string section. -/
  | overread
  deriving DecidableEq

def backslash : UInt8 := 92

def stringAt (strData : List UInt8) (index : Nat) : Except Exn (List UInt8) :=
  let tail := strData.drop index
  if 0 ∈ tail then .ok (tail.takeWhile (· != 0)) else .error .overread

def continued (str : List UInt8) : Bool := str.getLast? == some backslash

/-- The calls of `on_stab` for one event, as pairs of receiver and event: the descriptor's own
observer first, until one answers `false`. -/
def announce (e : Event) : Nat → List Sink → Bool × List (Nat × Event)
  | _, [] => (true, [])
  | k, sink :: rest =>
    if sink e then
      let (more, calls) := announce e (k + 1) rest
      (more, (k, e) :: calls)
    else (false, [(k, e)])

/-- `process_stab`: whether to go on, the buffer afterwards, and the calls made. -/
def processStab (strData : List UInt8) (sinks : List Sink) (index : Nat) (stab : Stab)
    (buf : List UInt8) : Except Exn (Bool × List UInt8 × List (Nat × Event)) :=
  if strData.length ≤ stab.strindex.toNat then
    .error (.outOfRange "string index exceeds section's size")
  else
    match stringAt strData stab.strindex.toNat with
    | .error e => .error e
    | .ok str =>
      if continued str then .ok (true, buf ++ str.dropLast, [])
      else
        let e : Event := ⟨index, stab, if buf ≠ [] then buf else str⟩
        match announce e 0 sinks with
        | (false, calls) => .ok (false, buf, calls)
        | (true, calls) => .ok (true, [], calls)

/-- The loop of `for_each_stab` over `n` entries, from an index and a buffer on:
the index it stops at, and the calls made. -/
def stabLoop (strData : List UInt8) (sinks : List Sink) (stabs : List Stab) :
    (n index : Nat) → (buf : List UInt8) → Except Exn (Nat × List (Nat × Event))
  | 0, index, _ => .ok (index, [])
  | n + 1, index, buf =>
    match stabs[index]? with
    | none => .error .overread
    | some stab =>
      match processStab strData sinks index stab buf with
      | .error e => .error e
      | .ok (false, _, calls) => .ok (index, calls)
      | .ok (true, buf, calls) =>
        match stabLoop strData sinks stabs n (index + 1) buf with
        | .error e => .error e
        | .ok (last, more) => .ok (last, calls ++ more)

/-- `for_each_stab` over a whole section. -/
def forEachStab (strData : List UInt8) (sinks : List Sink) (stabs : List Stab) :
    Except Exn (Nat × List (Nat × Event)) :=
  stabLoop strData sinks stabs stabs.length 0 []

def stabSize : Nat := 12

/-- `for_each_stab` over the entries from `first` to `last`. The end of the range
is an index, but it is compared with the section's size in bytes. -/
def forEachStabIn (strData : List UInt8) (sinks : List Sink) (stabs : List Stab)
    (first last : Nat) : Except Exn (List (Nat × Event)) :=
  if last < first then .error (.invalidArgument "for_each_stab: last < first")
  else if stabSize * stabs.length ≤ last then
    .error (.outOfRange "range exceeds section's data")
  else (stabLoop strData sinks stabs (last - first) first []).map (·.2)

def received (k : Nat) (calls : List (Nat × Event)) : List Event :=
  (calls.filter (·.1 == k)).map (·.2)

abbrev Addr := Fin (2 ^ 64)

scoped instance neZeroAddr : NeZero (2 ^ 64) := ⟨by decide⟩

structure CompileUnit where
  beginAddr : Addr
  endAddr : Addr
  beginIndex : Nat

def CompileUnit.size (unit : CompileUnit) : Addr :=
  if unit.endAddr ≠ 0 then unit.endAddr - unit.beginAddr else 0

abbrev UnitMap (U : Type*) := MultiMap Addr U

section UnitMap

variable {U : Type*} [DecidableEq U] (info : U → CompileUnit)

def newCompileUnit (unitMap : UnitMap U) (unit : U) : UnitMap U :=
  unitMap.insert (info unit).beginAddr unit

/-- `add_source_line`. The entry looked at is the one before `lower_bound`, or the
first one of the map when there is none before. -/
def addSourceLine (unitMap : UnitMap U) (unit : U) (line : Nat) (addr : Addr) : UnitMap U :=
  if addr ≠ 0 ∧ line ≠ 0 then
    match unitMap.from_ addr with
    | [] => unitMap.insert addr unit
    | next :: _ =>
      let i := (unitMap.below addr).getLast?.getD next
      if i.2 ≠ unit then unitMap.insert addr unit else unitMap
  else unitMap

/-- Going back to the first entry of a key: the iterator is at `cur`, with the entries before it in
reverse and those after it. The result is the entries from where it stops. -/
def walkBack (startRange : Addr) :
    (before : List (Addr × U)) → (cur : Addr × U) → (after : List (Addr × U)) → List (Addr × U)
  | [], cur, after => if cur.1 ≠ startRange then after else cur :: after
  | e :: before, cur, after =>
    if cur.1 = startRange then walkBack startRange before e (cur :: after)
    -- the loop went one entry too far
    else after

def scanRange (wanted : U → Bool) (startRange : Addr) : List (Addr × U) → Option U
  | [] => none
  | e :: rest =>
    if e.1 ≠ startRange then none
    else if wanted e.2 then some e.2
    else scanRange wanted startRange rest

/-- The unit asked for: the one that begins at an index, or, without an index,
any that is not empty. -/
def wanted (index : Nat) (unit : U) : Bool :=
  if index ≠ 0 then index = (info unit).beginIndex else (info unit).size ≠ 0

def getCompileUnit (unitMap : UnitMap U) (addr : Addr) (index : Nat) : Option U :=
  let i := unitMap.from_ addr
  match i.head? with
  | some e => if e.1 ≠ addr then previous i else scanRange (wanted info index) addr i
  | none => previous i
where
  previous (i : List (Addr × U)) : Option U :=
    match (unitMap.below addr).reverse with
    | [] => none
    | e :: before => scanRange (wanted info index) e.1 (walkBack e.1 before e i)

end UnitMap

end ZeroBugs.Stabz.Descriptor
