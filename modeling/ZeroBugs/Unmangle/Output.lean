import Mathlib

/-! # Output of the decoder -/
namespace ZeroBugs.Unmangle

abbrev Text := List Char

def sizeT (n : Nat) : Nat := n % 2 ^ 64

def subSizeT (a b : Nat) : Nat := (a + 2 ^ 64 - b) % 2 ^ 64

/-- `(size_t)-1` -/
def npos : Nat := 2 ^ 64 - 1

/-- `Output`. The delimiter is `::` or a comma and a space, and `substIndex` is `none`
for `npos`. There is no buffer before the first character. -/
structure Output where
  buf : Text
  allocated : Bool
  delim : Option Text
  spaceOnce : Bool
  substIndex : Option Nat
  positions : List Nat
  deriving DecidableEq

def Output.new : Output := ⟨[], false, none, false, none, []⟩

namespace Output

def size (o : Output) : Nat := o.buf.length

/-- `update_pos`: a position at the end steps over the delimiter to come. -/
def updatePos (o : Output) : List Nat :=
  o.positions.map fun p => if p = o.size then p + 2 else p

/-- What `append` puts before a text that starts with `first`. -/
def separate (o : Output) (first : Char) : Output :=
  match o.delim with
  | some d => { o with buf := o.buf ++ d, positions := o.updatePos, delim := none }
  | none =>
    if first = '>' then
      if o.buf.getLast? = some '>' then { o with buf := o.buf ++ [' '] } else o
    else if first = '<' ∧ o.spaceOnce = true then { o with buf := o.buf ++ [' '] }
    else o

/-- `append` of a text at an address where `first` stands; that is not in the text when
the text is empty. -/
def appendAt (o : Output) (first : Char) (s : Text) : Output :=
  let o := o.separate first
  let buf := o.buf ++ s
  { o with
    buf := buf
    allocated := o.allocated || !buf.isEmpty
    spaceOnce := false
    substIndex := if s = [] then o.substIndex else none }

def append (o : Output) (s : Text) : Output := o.appendAt (s.headD '\x00') s

/-- `append` of an unsigned number, which takes no notice of delimiters. -/
def appendNumber (o : Output) (n : Nat) : Output :=
  { o with buf := o.buf ++ Nat.toDigits 10 n, allocated := true, substIndex := none }

def rewind (o : Output) (n : Nat) : Output := { o with buf := o.buf.take (o.size - n) }

/-- `substr`: the range up to the end without a size. `none` stands for the failed check
in the constructor of `substring`. -/
def substr (o : Output) (pos size : Nat) : Option Text :=
  if size = 0 ∨ pos ≤ o.size ∧ sizeT (pos + size) ≤ o.size then
    some ((o.buf.drop pos).take size)
  else none

def substrFrom (o : Output) (pos : Nat) : Text := o.buf.drop pos

end Output

end ZeroBugs.Unmangle
