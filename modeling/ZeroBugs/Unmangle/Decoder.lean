import ZeroBugs.Lib.Traced
import ZeroBugs.Unmangle.Output

/-! # State of the decoder -/
namespace ZeroBugs.Unmangle

open Lib

/-- The mangled name, the flags and what the C library does with a number: `strtold`
takes a part of a text, and a stream prints the value. -/
structure Input where
  name : Text
  noNul : '\x00' ∉ name
  noFunArgs : Bool
  strtold : Text → Nat × Text
  strtold_le : ∀ text, (strtold text).1 ≤ text.length

/-- A name without a number in floating point. -/
def Input.ofName (name : Text) (h : '\x00' ∉ name) : Input :=
  ⟨name, h, false, fun _ => (0, []), fun _ => Nat.zero_le _⟩

def Input.size (inp : Input) : Nat := inp.name.length

/-- The character at an index, where the NUL is at the index `size`. -/
def Input.char (inp : Input) (i : Nat) : Char := inp.name.getD i '\x00'

def Input.capacity (inp : Input) : Nat := (inp.size + 1) / 2

inductive Status where
  | success
  | invalidName
  deriving DecidableEq

/-- Outputs are known by their place: the caller's first, then the temporary ones. -/
abbrev OutRef := Nat

/-- The members of `Decoder` that change. `sourceNamePos` is `none` for `npos`. -/
structure State where
  pos : Nat
  sourceNamePos : Option Nat
  sourceNameSize : Nat
  cvQualifiers : Option Text
  subst : List Text
  templateArgs : List Text
  templateDepth : Nat
  inPrototype : Nat
  inPrefix : Bool
  anonymous : Bool
  status : Status
  outs : List Output

inductive Step where
  | read (index : Nat)
  | move (src dst : Nat)
  /-- The cursor is moved over the end of a production, whatever stands there. -/
  | closing (pos : Nat)
  | jump (pos len : Nat)
  /-- A position is pushed onto a stack of so many. -/
  | position (depth : Nat)
  | repeatName (start len size : Nat)
  deriving DecidableEq

inductive Stop where
  | exception (what : String)
  | overread (index : Nat)
  /-- Memory outside an output's text is read. -/
  | wildRead
  /-- A position is dropped from a full stack: from here on destructors throw. -/
  | positionsExhausted
  | outOfFuel
  deriving DecidableEq

abbrev M := Traced Step Stop State

section Cursor

variable (inp : Input)

def nutsAssert (c : Bool) (what : String) : M Unit :=
  if c then pure () else Traced.fail (.exception what)

def invalidName : M Unit := Traced.modify fun s => { s with status := .invalidName }

def onlyIf (c : Bool) (act : M Unit) : M Unit := if c then act else pure ()

def isSuccess : M Bool := do
  let s ← Traced.get
  pure (s.status = .success)

def getPos : M Nat := do
  let s ← Traced.get
  pure s.pos

def read (index : Nat) : M Char := do
  Traced.emit (.read index)
  if index ≤ inp.size then pure (inp.char index) else Traced.fail (.overread index)

/-- `name_[pos_]` -/
def peek : M Char := do
  let pos ← getPos
  read inp pos

/-- `pos_ < size_` -/
def isInside : M Bool := do
  let pos ← getPos
  pure (pos < inp.size)

/-- `pos_ < size_ && name_[pos_] == c` -/
def isAt (c : Char) : M Bool := do
  let pos ← getPos
  if pos < inp.size then
    let d ← read inp pos
    pure (d = c)
  else pure false

def moveTo (dst : Nat) : M Unit := do
  let pos ← getPos
  Traced.emit (.move pos dst)
  Traced.modify fun s => { s with pos := dst }

def advance (n : Nat) : M Unit := do
  let pos ← getPos
  moveTo (pos + n)

def closing : M Unit := do
  let pos ← getPos
  Traced.emit (.closing pos)
  moveTo (pos + 1)

/-- `NUTS_ASSERT(pos_ < size_)` -/
def assertInside : M Unit := do
  let pos ← getPos
  nutsAssert (pos < inp.size) "pos_ < size_"

def assertChar (c : Char) : M Unit := do
  let d ← peek inp
  nutsAssert (d = c) "name_[pos_]"

end Cursor

section Outputs

variable (inp : Input)

def output (r : OutRef) : M Output := do
  let s ← Traced.get
  pure (s.outs.getD r Output.new)

def updateOutput (r : OutRef) (u : Output → Output) : M Unit :=
  Traced.modify fun s => { s with outs := s.outs.set r (u (s.outs.getD r Output.new)) }

def append (r : OutRef) (s : Text) : M Unit := updateOutput r (·.append s)

def appendString (r : OutRef) (s : Text) : M Unit := onlyIf (!s.isEmpty) (append r s)

def appendOutput (r src : OutRef) : M Unit := do
  let o ← output src
  appendString r o.buf

def setDelim (r : OutRef) (delim : Option Text) : M Unit :=
  updateOutput r fun o => { o with delim := delim }

/-- `append(name_ + pos_, len)`: the length is checked against that of the text there. -/
def appendName (r : OutRef) (len : Nat) : M Unit := do
  let pos ← getPos
  let first ← read inp pos
  onlyIf (len ≠ 0) (do
    let _ ← read inp inp.size
    nutsAssert (len = npos || len ≤ inp.size - pos) "size <= ctraits::length(chars)")
  updateOutput r (·.appendAt first ((inp.name.drop pos).take len))

def maxTemp : Nat := 512

/-- `temp_output`: when the stack of temporaries is full, the last one again. -/
def tempOutput : M OutRef := do
  let s ← Traced.get
  if s.outs.length ≤ maxTemp then
    Traced.modify fun s => { s with outs := s.outs ++ [Output.new] }
    pure s.outs.length
  else pure maxTemp

def withDelim {α : Type} (r : OutRef) (delim : Option Text → Option Text) (body : M α) : M α := do
  let o ← output r
  setDelim r (delim o.delim)
  let a ← body
  setDelim r o.delim
  pure a

/-- `Temporary` around members of the decoder. -/
def temporarily {α : Type} (set : State → State) (restore : State → State → State)
    (body : M α) : M α := do
  let old ← Traced.get
  Traced.modify set
  let a ← body
  Traced.modify (restore old)
  pure a

def maxPositions : Nat := 256

def withPosition {α : Type} (r : OutRef) (body : M α) : M α := do
  let o ← output r
  Traced.emit (.position o.positions.length)
  if o.positions.length < maxPositions then
    updateOutput r fun o => { o with positions := o.size :: o.positions }
    let a ← body
    updateOutput r fun o => { o with positions := o.positions.tail }
    pure a
  else Traced.fail .positionsExhausted

def position (r : OutRef) : M Nat := do
  let o ← output r
  pure (o.positions.headD 0)

def substr (r : OutRef) (pos size : Nat) : M Text := do
  let o ← output r
  match o.substr pos size with
  | some text => pure text
  | none => Traced.fail (.exception "pos + len <= s.size()")

end Outputs

section Dictionaries

variable (inp : Input)

def insertSubst (v : Text) (override : Bool) : M Unit := do
  let s ← Traced.get
  if v ≠ [] ∧ (override = true ∨ s.subst.getLast? ≠ some v) then
    nutsAssert (v.head? ≠ some ',') "v[0] != ','"
    if v.head? ≠ some ':' then
      nutsAssert (s.subst.length < inp.capacity) "size_ < capacity_"
      Traced.modify fun s => { s with subst := s.subst ++ [v] }
    else pure ()
  else pure ()

def insertTemplateArg (v : Text) : M Unit := do
  let s ← Traced.get
  if v ≠ [] then
    nutsAssert (s.templateArgs.length < inp.capacity) "size_ < capacity_"
    Traced.modify fun s => { s with templateArgs := s.templateArgs ++ [v] }
  else pure ()

def outputElem (r : OutRef) (elems : List Text) (i : Nat) : M Bool :=
  match elems[i]? with
  | some v => do
    append r v
    pure true
  | none => pure false

end Dictionaries

end ZeroBugs.Unmangle
