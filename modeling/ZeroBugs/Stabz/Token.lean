import ZeroBugs.Lib.Traced

/-! # Tokens of stab strings -/
namespace ZeroBugs.Stabz.Parse

open Lib

abbrev Text := List Char

structure TypeID where
  first : Nat
  second : Nat
  deriving DecidableEq

/-- `Access`, which is also made from a digit of the string. -/
abbrev Access := Int

def accessPrivate : Access := 0

def accessProtected : Access := 1

def accessPublic : Access := 2

inductive Qualifier where
  | none
  | const
  | volatile
  | constVolatile
  deriving DecidableEq

inductive Shape where
  | void
  | bool (size : Nat)
  | int (name : Option Text) (nbits : Nat) (signed : Bool)
  | float (name : Option Text) (nbytes : Int)
  | alias (id : TypeID)
  | array (lower : Int) (upper : Nat) (elem : TypeID)
  | enum (name : Option Text) (values : List (Int × Text))
  | forward (name : Text)
  | pointer (id : TypeID)
  | reference (id : TypeID)
  | qualified (id : TypeID) (qual : Qualifier)
  | function (result : Option TypeID) (args : List TypeID) (varArgs : Bool)
  | klass
  deriving DecidableEq

/-- What the parser asks of the type system, the class that it reads, the compile unit
and the current function. -/
inductive Request where
  | getType (id : TypeID) (follow : Bool)
  | addType (id : TypeID) (shape : Shape)
  | isVoid (id : TypeID)
  | hasName (id : TypeID) (name : Text)
  | newClass (name : Option Text) (nbits : Nat) (isUnion : Bool)
  | addBase (id : TypeID) (bitOffs : Nat) (access : Access) (isVirtual : Bool)
  | addMember (name linkName : Option Text) (bitOffs bitSize : Nat) (id : TypeID) (isStatic : Bool)
  | addMethod (name : Option Text) (linkName : Text) (access : Access) (isVirtual : Bool)
      (qual : Qualifier) (index : Int)
  | indexClass
  | addGlobal (name : Text) (shape : Shape)
  | addLocal (name : Text) (id : TypeID)
  | setReturnType (id : TypeID)
  deriving DecidableEq

inductive StabType where
  | fun_
  | lsym
  | gsym
  | psym
  | rsym
  | lcsym
  | stsym
  deriving DecidableEq

/-- The stab string with its stab's type, whether asserts are compiled in, the word size, and what
the type system answers, by the requests before. -/
structure Input where
  text : Text
  noNul : '\x00' ∉ text
  stab : StabType
  asserts : Bool
  wordSize : Nat
  types : List Request → Request → Except String Bool

def Input.size (inp : Input) : Nat := inp.text.length

/-- The character at an index, where the NUL is at the index `size`. -/
def Input.char (inp : Input) (i : Nat) : Char := inp.text.getD i '\x00'

/-- The cursor, `none` for a null pointer, `klass_` and `klassStack_` by whether there is
a class and by how many wait for it, and the sizes of the unit's type tables, `none` for
null pointers. -/
structure State where
  str : Option Nat
  klass : Bool
  klassStack : Nat
  tables : List (Option Nat)
  asked : List Request

inductive Step where
  | read (index : Int)
  /-- The text from an index to its NUL is given to the C library. -/
  | cstring (start : Nat)
  | token (first last : Nat)
  | lookBehind (first : Nat)
  /-- Eight characters of a token are compared at once. -/
  | operatorTest (first : Nat)
  /-- The word `decltype` is stepped over, and the character behind it. -/
  | decltype (pos : Nat)
  | skip (pos : Nat)
  | forwardName (first last : Nat)
  | linkage (pos : Nat)
  | assertion (holds : Bool)
  | slot (id : TypeID)
  /-- A type table is used that is there, or a null pointer. -/
  | table (present : Bool)
  deriving DecidableEq

inductive Stop where
  | exception (what : String)
  | outside
  | aborted
  | noTable
  | outOfFuel
  deriving DecidableEq

abbrev M := Traced Step Stop State

section Characters

variable (inp : Input)

def assert (c : Bool) : M Unit :=
  if inp.asserts then do
    Traced.emit (.assertion c)
    if c then pure () else Traced.fail .aborted
  else pure ()

def read (index : Nat) : M Char := do
  Traced.emit (.read index)
  if index ≤ inp.size then pure (inp.char index) else Traced.fail .outside

def readBehind (first : Nat) : M Char := do
  Traced.emit (.lookBehind first)
  Traced.emit (.read ((first : Int) - 1))
  match first with
  | 0 => Traced.fail .outside
  | i + 1 => pure (inp.char i)

def getCursor : M Nat := do
  let s ← Traced.get
  match s.str with
  | some pos => pure pos
  | none => Traced.fail .outside

def setCursor (pos : Option Nat) : M Unit := Traced.modify fun s => { s with str := pos }

/-- `*str` -/
def peek : M Char := do
  let pos ← getCursor
  read inp pos

/-- `++str` -/
def advance : M Unit := do
  let pos ← getCursor
  setCursor (some (pos + 1))

/-- `*str++` before the character has been looked at. -/
def skip : M Char := do
  let pos ← getCursor
  Traced.emit (.skip pos)
  let c ← read inp pos
  setCursor (some (pos + 1))
  pure c

/-- `strncmp` with a literal of the length that is compared. -/
def startsWith (i : Nat) : Text → M Bool
  | [] => pure true
  | c :: rest => do
    let d ← read inp i
    if d = c then startsWith (i + 1) rest else pure false

def readBlock (i : Nat) : Nat → M Unit
  | 0 => pure ()
  | count + 1 => do
    let _ ← read inp i
    readBlock (i + 1) count

end Characters

inductive Token where
  | end_
  | memType
  | inheritance
  | comma
  | colon
  | semicolon
  | pointer
  | reference
  | memFun
  | equals
  | enum
  | fun_
  | constQual
  | param
  | range
  | struct
  | union
  | typeDef
  | typeTag
  | volatileQual
  | builtinFp
  | ident
  | typeKey
  | array
  | number
  | typeAttr
  deriving DecidableEq

def Token.ofDelimiter : Char → Token
  | ':' => .colon
  | '!' => .inheritance
  | ';' => .semicolon
  | '=' => .equals
  | '*' => .pointer
  | '&' => .reference
  | '#' => .memFun
  | _ => .comma

def Token.ofDescriptor : Char → Option Token
  | 'T' => some .typeTag
  | 'p' => some .param
  | 'f' => some .fun_
  | '#' => some .memFun
  | '*' => some .pointer
  | '&' => some .reference
  | 'r' => some .range
  | 't' => some .typeDef
  | 'k' => some .constQual
  | 'B' => some .volatileQual
  | _ => none

section Tokens

variable (inp : Input)

def enumToken (first last : Nat) : M (Token × Nat) := do
  let before ← readBehind inp first
  if before = '=' ∨ before = ';' then
    let c ← read inp last
    if c = ':' then
      let d ← read inp (last + 1)
      pure (if d.isDigit ∨ d = '-' then (.enum, first + 1) else (.ident, last))
    else pure (.ident, last)
  else pure (.ident, last)

/-- `get_token` for a structure or a union -/
def classToken (c : Char) (first last : Nat) : M (Token × Nat) := do
  let before ← readBehind inp first
  pure (if before = '=' then (if c = 's' then .struct else .union, first + 1) else (.ident, last))

def getToken (first last : Nat) : M (Token × Nat) := do
  let c ← read inp first
  if c.isDigit then pure (.number, last)
  else if first + 1 < last then
    let d ← read inp (first + 1)
    if d.isDigit then
      if c = '-' then pure (.number, last)
      else if c = 'u' ∨ c = 's' then classToken inp c first last
      else pure (.ident, last)
    else if c = '@' then pure (.typeAttr, last)
    else if c = 'e' then enumToken inp first last
    else pure (.ident, last)
  else pure (.ident, last)

def plainDescriptor (c : Char) (first last : Nat) : M (Token × Nat) :=
  match Token.ofDescriptor c with
  | some t => if last = first + 1 then pure (t, last) else getToken inp first last
  | none => getToken inp first last

/-- `(end == begin + 2) && (begin[1] == d)` -/
def isPair (d : Char) (first last : Nat) : M Bool :=
  if last = first + 2 then do
    let c ← read inp (first + 1)
    pure (c = d)
  else pure false

def stabDescriptor (first last : Nat) : M (Token × Nat) := do
  let c ← read inp first
  if c = 'T' then
    let pair ← isPair inp 't' first last
    if pair then pure (.typeDef, last) else plainDescriptor inp c first last
  else if c = 'a' then
    let pair ← isPair inp 'r' first last
    if pair then pure (.array, last) else getToken inp first last
  else if c = '@' then
    let d ← read inp (first + 1)
    if d = '(' then pure (.memType, last) else getToken inp first last
  else plainDescriptor inp c first last

/-- `is_operator`: eight characters are read as one word. -/
def isOperator (first : Nat) : M Bool := do
  Traced.emit (.operatorTest first)
  readBlock inp first 8
  pure ((inp.text.drop first).take 8 = "operator".toList)

inductive Scan where
  | goOn (pos : Nat)
  | found (token : Token) (last : Nat)

def foundToken (find : M (Token × Nat)) : M Scan := do
  let t ← find
  pure (.found t.1 t.2)

def skipBrackets (first : Nat) : (fuel pos depth : Nat) → M Nat
  | 0, _, _ => Traced.fail .outOfFuel
  | fuel + 1, pos, depth => do
    let c ← read inp pos
    if c ≠ '\x00' ∧ pos ≠ first ∧ depth ≠ 0 then
      skipBrackets first fuel (pos + 1)
        (if c = '<' then depth + 1 else if c = '>' then depth - 1 else depth)
    else pure pos

/-- `operator<<` or `operator<` -/
def isShift (pos : Nat) : M Bool := do
  let c ← read inp (pos + 1)
  if c = '<' ∨ c = ':' then
    let d ← read inp (pos + 2)
    pure (d = ':')
  else pure false

def scanDelimiter (first pos : Nat) (c : Char) : M Scan :=
  if pos = first then pure (.found (Token.ofDelimiter c) (pos + 1))
  else if c = ':' then foundToken (getToken inp first pos)
  else do
    let op ← isOperator inp first
    if op then pure (.goOn (pos + 1)) else foundToken (getToken inp first pos)

def scanTemplate (first pos : Nat) : M Scan := do
  let shift ← isShift inp pos
  if shift then pure (.goOn (pos + 1))
  else
    let pos ← skipBrackets inp first (inp.size + 1 - pos) (pos + 1) 1
    pure (.goOn pos)

def scanColon (first pos : Nat) : M Scan := do
  let c ← read inp (pos + 1)
  if c = ':' then pure (.goOn (pos + 2)) else scanDelimiter inp first pos ':'

def scanComma (first pos : Nat) : M Scan := do
  let c ← read inp first
  if c = '(' then pure (.goOn (pos + 1)) else scanDelimiter inp first pos ','

def scanOpen (first pos : Nat) : M Scan :=
  if pos = first then pure (.goOn (pos + 1))
  else do
    let c ← read inp (pos + 1)
    if c = ')' then pure (.goOn (pos + 1)) else foundToken (stabDescriptor inp first pos)

def scanClose (first pos : Nat) : M Scan := do
  let c ← read inp first
  pure (if c = '(' ∧ first + 1 < pos then .found .typeKey (pos + 1) else .goOn (pos + 1))

def scanBuiltin (pos : Nat) : M Scan := do
  let c ← read inp (pos + 1)
  if c.isDigit then
    let d ← read inp (pos + 2)
    pure (if d = ';' then .found .builtinFp (pos + 1) else .goOn (pos + 1))
  else pure (.goOn (pos + 1))

/-- The `default` of the switch: behind `decltype` the loop's own `++ptr` follows. -/
def scanOther (first pos : Nat) (c : Char) : M Scan := do
  let word ← startsWith inp pos "decltype".toList
  if word then
    Traced.emit (.decltype pos)
    pure (.goOn (pos + 9))
  else
    let d ← read inp first
    if d.isDigit ∧ ¬c.isDigit then foundToken (getToken inp first pos)
    else pure (.goOn (pos + 1))

def scanChar (first pos : Nat) (c : Char) : M Scan :=
  match c with
  | '<' => scanTemplate inp first pos
  | ':' => scanColon inp first pos
  | '!' | ';' | '=' | '*' | '&' | '#' => scanDelimiter inp first pos c
  | ',' => scanComma inp first pos
  | '(' => scanOpen inp first pos
  | ')' => scanClose inp first pos
  | 'R' => scanBuiltin inp pos
  | _ => scanOther inp first pos c

def scan (first : Nat) : (fuel pos : Nat) → M (Token × Nat)
  | 0, _ => Traced.fail .outOfFuel
  | fuel + 1, pos => do
    let c ← read inp pos
    if c = '\x00' then pure (.end_, first)
    else
      let r ← scanChar inp first pos c
      match r with
      | .goOn pos => scan first fuel pos
      | .found t last => pure (t, last)

def skipDigits : (fuel pos : Nat) → M Nat
  | 0, _ => Traced.fail .outOfFuel
  | fuel + 1, pos => do
    let c ← read inp pos
    if c.isDigit then skipDigits fuel (pos + 1) else pure pos

/-- `(*begin == '-') && isdigit(begin[1])` -/
def isNegative (first : Nat) (c : Char) : M Bool :=
  if c = '-' then do
    let d ← read inp (first + 1)
    pure d.isDigit
  else pure false

structure Item where
  token : Token
  first : Nat
  last : Nat

def findToken (first : Nat) : M (Token × Nat) := do
  let c ← read inp first
  assert inp (c ≠ '\\')
  let negative ← isNegative inp first c
  if negative then
    let last ← skipDigits inp (inp.size + 1 - first) (first + 1)
    pure (.number, last)
  else scan inp first (inp.size + 2 - first) first

def nextToken : M Item := do
  let first ← getCursor
  let t ← findToken inp first
  Traced.emit (.token first t.2)
  setCursor (some t.2)
  pure ⟨t.1, first, t.2⟩

end Tokens

end ZeroBugs.Stabz.Parse
