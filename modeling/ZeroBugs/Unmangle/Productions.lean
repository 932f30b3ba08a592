import ZeroBugs.Unmangle.Decoder

/-! # Productions of the decoder -/
namespace ZeroBugs.Unmangle

open Lib

structure NameFlags where
  isTemplate : Bool
  isCtor : Bool
  isDtor : Bool
  isOperator : Bool
  isConvOper : Bool
  isSource : Bool

def NameFlags.new : NameFlags := ⟨false, false, false, false, false, false⟩

def NameFlags.mayHaveReturnType (f : NameFlags) : Bool :=
  f.isTemplate && !f.isCtor && !f.isDtor && !f.isConvOper

def NameFlags.maySubstitute (f : NameFlags) (c : Char) : Bool :=
  c = 'I' || (!f.isOperator && !f.isDtor && !f.isCtor)

structure Loop where
  initial : Bool
  havePrefix : Bool
  maybeTemplate : Bool
  canSubstitute : Bool
  flags : NameFlags

structure Calls where
  type : OutRef → (ret : Bool) → (indx : Nat) → (quals : Text) → M Bool
  encoding : OutRef → M Unit
  name : OutRef → NameFlags → M (Bool × NameFlags)
  expression : OutRef → (top : Bool) → M Bool
  sourceName : OutRef → M Unit
  prefixLoop : OutRef → Loop → M NameFlags
  templateArgLoop : OutRef → (p : Nat) → M Unit
  paramLoop : OutRef → (i : Nat) → M Nat

variable (inp : Input) (call : Calls)

def digitLoop (n : Nat) : Text → M Nat
  | [] => do
    let _ ← peek inp
    pure n
  | c :: rest => do
    let _ ← peek inp
    if c.isDigit then
      advance 1
      digitLoop (sizeT (n * 10 + (c.toNat - 48))) rest
    else pure n

def parseUnsigned (out : Option OutRef) : M Nat := do
  let c ← peek inp
  if c.isDigit then
    let pos ← getPos
    let n ← digitLoop inp 0 (inp.name.drop pos)
    let pos ← getPos
    nutsAssert (pos ≤ inp.size) "pos_ <= size_"
    match out with
    | some r =>
      updateOutput r (·.appendNumber n)
      pure n
    | none => pure n
  else
    invalidName
    pure 0

def parseSigned (out : OutRef) : M Unit := do
  let c ← peek inp
  if c = 'n' then
    append out "-".toList
    advance 1
    let pos ← getPos
    onlyIf (inp.size ≤ pos) invalidName
    let _ ← parseUnsigned inp (some out)
    pure ()
  else
    let _ ← parseUnsigned inp (some out)
    pure ()

def parseSignedUscore (out : OutRef) : M Unit := do
  parseSigned inp out
  let c ← peek inp
  if c = '_' then advance 1 else invalidName

def parseDouble (out : OutRef) : M Unit := do
  let pos ← getPos
  let _ ← read inp (pos + (inp.strtold (inp.name.drop pos)).1)
  moveTo (pos + (inp.strtold (inp.name.drop pos)).1)
  append out "[".toList
  append out (inp.strtold (inp.name.drop pos)).2
  append out "]".toList

def parseVirtualOffset (out : OutRef) : M Unit := do
  append out "[v:".toList
  parseSignedUscore inp out
  append out ",".toList
  parseSignedUscore inp out
  append out "] ".toList

def parseNonVirtualOffset (out : OutRef) : M Unit := do
  append out "[nv:".toList
  parseSignedUscore inp out
  append out "] ".toList

def qualifierText : Char → Text
  | 'r' => " restricted".toList
  | 'V' => " volatile".toList
  | _ => " const".toList

def qualifierLoop : Text → M Text
  | [] => do
    let _ ← peek inp
    pure []
  | c :: rest => do
    let _ ← peek inp
    if c = 'r' ∨ c = 'V' ∨ c = 'K' then
      advance 1
      let cs ← qualifierLoop rest
      pure (c :: cs)
    else pure []

/-- `parse_cv_qualifiers`: whether there are any, and the text with theirs in front. The second loop
goes back over the characters the first has read. -/
def parseCvQualifiers (quals : Text) : M (Bool × Text) := do
  assertInside inp
  let pos ← getPos
  let cs ← qualifierLoop inp (inp.name.drop pos)
  pure (!cs.isEmpty, cs.flatMap qualifierText ++ quals)

def anonymousPrefix : Text := "(anonymous namespace)".toList

/-- Whether the name of a given length at the cursor is that of an anonymous namespace. -/
def isAnonymousName (len : Nat) : M Bool := do
  let pos ← getPos
  if 8 ≤ len then
    -- memcmp
    let _ ← read inp (pos + 7)
    if (inp.name.drop pos).take 8 = "_GLOBAL_".toList then
      let c ← read inp (pos + 8)
      if c = '.' ∨ c = '_' ∨ c = '$' then
        let d ← read inp (pos + 9)
        pure (d = 'N')
      else pure false
    else pure false
  else pure false

def setSourceName (start : Nat) : M Unit := Traced.modify fun s =>
  if s.templateDepth = 0 then { s with sourceNamePos := some start, sourceNameSize := 0 } else s

/-- The anonymous namespace just written is noted for later, or is a substitution. -/
def noteAnonymous (out : OutRef) : M Unit := do
  let s ← Traced.get
  if s.inPrefix then Traced.modify fun s => { s with anonymous := true }
  else
    let pos ← position out
    let v ← substr out pos anonymousPrefix.length
    insertSubst inp v true

def parseAnonymousName (out : OutRef) (len : Nat) : M Unit := withPosition out (do
  append out anonymousPrefix
  noteAnonymous inp out
  let pos ← getPos
  moveTo (sizeT (pos + len))
  append out "::".toList
  let o ← output out
  setSourceName o.size
  call.sourceName out)

def parseSourceName (out : OutRef) : M Unit := do
  assertInside inp
  let len ← parseUnsigned inp none
  let pos ← getPos
  if sizeT (pos + len) ≤ inp.size then
    Traced.emit (.jump pos len)
    let anonymous ← isAnonymousName inp len
    if anonymous then parseAnonymousName inp call out len
    else
      appendName inp out len
      moveTo (sizeT (pos + len))
  else invalidName

inductive OperatorKind where
  | plain | spaceOnce | cast | vendor
  deriving DecidableEq

/-- An entry of `operator_table`: the text, and the number of operands in expressions. -/
structure Operator where
  text : Text
  kind : OperatorKind
  arity : Nat

/-- `operator_table`. The entry of the vendor's operators, whose code is the one letter
`v`, is stored 65 places before its row and so under the letters `tt`. -/
def operatorTable : List (Char × Char × String × OperatorKind × Nat) :=
  [('n', 'w', "operator new", .plain, 0), ('n', 'a', "operator new[]", .plain, 0),
   ('d', 'l', "operator delete", .plain, 0), ('d', 'a', "operator delete[]", .plain, 0),
   ('p', 's', "operator+", .plain, 1), ('n', 'g', "operator-", .plain, 1),
   ('a', 'd', "operator&", .plain, 1), ('d', 'e', "operator*", .plain, 1),
   ('c', 'o', "operator~", .plain, 1), ('p', 'l', "operator+", .plain, 2),
   ('m', 'i', "operator-", .plain, 2), ('m', 'l', "operator*", .plain, 2),
   ('d', 'v', "operator/", .plain, 2), ('r', 'm', "operator%", .plain, 2),
   ('a', 'n', "operator&", .plain, 2), ('o', 'r', "operator|", .plain, 2),
   ('e', 'o', "operator^", .plain, 2), ('a', 'S', "operator=", .plain, 2),
   ('p', 'L', "operator+=", .plain, 2), ('m', 'I', "operator-=", .plain, 2),
   ('m', 'L', "operator*=", .plain, 2), ('d', 'V', "operator/=", .plain, 2),
   ('r', 'M', "operator%=", .plain, 2), ('a', 'N', "operator&=", .plain, 2),
   ('o', 'R', "operator|=", .plain, 2), ('e', 'O', "operator^=", .plain, 2),
   ('l', 's', "operator<<", .spaceOnce, 2), ('r', 's', "operator>>", .plain, 2),
   ('l', 'S', "operator<<=", .plain, 2), ('r', 'S', "operator>>=", .plain, 2),
   ('e', 'q', "operator==", .plain, 2), ('n', 'e', "operator!=", .plain, 2),
   ('l', 't', "operator<", .spaceOnce, 2), ('g', 't', "operator>", .plain, 2),
   ('l', 'e', "operator<=", .plain, 2), ('g', 'e', "operator>=", .plain, 2),
   ('n', 't', "operator!", .plain, 1), ('a', 'a', "operator&&", .plain, 2),
   ('o', 'o', "operator||", .plain, 2), ('p', 'p', "operator++", .plain, 0),
   ('m', 'm', "operator--", .plain, 0), ('c', 'm', "operator,", .plain, 0),
   ('p', 'm', "operator->*", .plain, 0), ('p', 't', "operator->", .plain, 0),
   ('c', 'l', "operator()", .plain, 0), ('i', 'x', "operator[]", .plain, 0),
   ('q', 'u', "operator?", .plain, 3), ('s', 't', "", .plain, 1), ('s', 'z', "sizeof", .plain, 1),
   ('s', 'r', "::", .plain, 0), ('c', 'v', "operator ", .cast, 0), ('t', 't', "", .vendor, 0)]

def operatorOf (n m : Char) : Option Operator :=
  (operatorTable.find? fun op => op.1 = n ∧ op.2.1 = m).map fun op =>
    ⟨op.2.2.1.toList, op.2.2.2.1, op.2.2.2.2⟩

/-- What `parse_operator_name` does behind the name. -/
def afterOperator (out : OutRef) : OperatorKind → M Unit
  | .cast => do
    let found ← call.type out false 0 []
    onlyIf (!found) invalidName
  | .vendor => invalidName
  | _ => pure ()

def parseOperatorName (out : OutRef) : M (Option Operator) := do
  assertInside inp
  let n ← peek inp
  let pos ← getPos
  if pos + 1 < inp.size then
    let m ← read inp (pos + 1)
    match operatorOf n m with
    | some op =>
      append out op.text
      advance 2
      afterOperator call out op.kind
      updateOutput out fun o => { o with spaceOnce := op.kind = .spaceOnce }
      pure (some op)
    | none => pure none
  else pure none

def repeatName (r : OutRef) (start len : Nat) : M Unit := do
  let o ← output r
  Traced.emit (.repeatName start len o.size)
  if o.allocated = false ∧ start = 0 then pure ()
  else if start < o.size then
    let first := o.buf.getD start '\x00'
    let source := (o.separate first).buf.drop start
    nutsAssert (len = npos || len ≤ source.length) "size <= ctraits::length(chars)"
    updateOutput r (·.appendAt first (source.take len))
  else if start = o.size ∧ len = 0 then updateOutput r (·.appendAt '\x00' [])
  else Traced.fail .wildRead

def emitClassName (out : OutRef) (tilde : Text) : M Unit := do
  let s ← Traced.get
  match s.sourceNamePos with
  | none => Traced.fail (.exception "sourceNamePos_ != (size_t)-1")
  | some start =>
    advance 1
    let o ← output out
    onlyIf (!tilde.isEmpty) (append out tilde)
    repeatName out start
      (if s.sourceNameSize ≠ 0 then s.sourceNameSize else subSizeT o.size start)
    Traced.modify fun s => { s with sourceNamePos := none, sourceNameSize := 0 }

def parseCtorDtorName (out : OutRef) : M Unit := do
  assertInside inp
  let c ← peek inp
  nutsAssert (c = 'C' || c = 'D') "n == 0 || n == 1"
  advance 1
  let pos ← getPos
  if pos = inp.size then invalidName
  else
    let kind ← peek inp
    if (if c = 'C' then "1239" else "0129").toList.contains kind then
      emitClassName out (if c = 'C' then [] else "~".toList)
    else invalidName

def parseSourceOrOperator (out : OutRef) (flags : NameFlags) (c : Char) :
    M (Bool × NameFlags) := do
  if c.isDigit then
    let o ← output out
    setSourceName (o.size + if o.delim.isSome then 2 else 0)
    parseSourceName inp call out
    let success ← isSuccess
    pure (success, if success then { flags with isSource := true } else flags)
  else
    let op ← parseOperatorName inp call out
    pure (op.isSome,
      if op.isSome then { flags with isSource := false, isOperator := true } else flags)

def parseUnqualifiedName (out : OutRef) (flags : NameFlags) : M (Bool × NameFlags) := do
  assertInside inp
  let c ← peek inp
  if c = 'C' then
    parseCtorDtorName inp out
    pure (true, { flags with isCtor := true })
  else if c = 'D' then
    parseCtorDtorName inp out
    pure (true, { flags with isDtor := true })
  else if c = 'E' then pure (false, flags)
  else if c = 'L' then
    advance 1
    let d ← peek inp
    parseSourceOrOperator inp call out flags d
  else parseSourceOrOperator inp call out flags c

def parseUnscopedName (out : OutRef) (flags : NameFlags) : M (Bool × NameFlags) := do
  let pos ← getPos
  if pos < inp.size then parseUnqualifiedName inp call out flags else pure (false, flags)

def addSubstitution (out : OutRef) (flags : NameFlags) : M NameFlags := do
  let start ← position out
  let o ← output out
  if o.substIndex = none ∧ start < o.size then
    let c ← peek inp
    onlyIf (flags.maySubstitute c) (insertSubst inp (o.substrFrom start) flags.isSource)
    pure { flags with isSource := false }
  else pure { flags with isSource := false }

def stdAbbreviation : Char → Option String
  | 't' => some "std"
  | 'a' => some "std::allocator"
  | 'b' => some "std::basic_string"
  | 's' => some "std::string"
  | 'i' => some "std::istream"
  | 'o' => some "std::ostream"
  | 'd' => some "std::iostream"
  | _ => none

def emitAbbreviation (out : OutRef) (abbr : String) : M Unit := do
  let o ← output out
  setSourceName (o.size + 5)
  append out abbr.toList
  updateOutput out fun o => { o with substIndex := some (2 ^ 64 - 2) }

/-- The digits of a sequence number in base 36, from the one at the cursor on. -/
def seqIdLoop (i : Nat) : Text → M Nat
  | [] => do
    invalidName
    pure (sizeT (i * 36))
  | c :: rest => do
    if c.isDigit || c.isUpper then
      advance 1
      let d ← peek inp
      if d = '_' then
        pure (sizeT (i * 36 + if c.isDigit then c.toNat - 48 else c.toNat - 55))
      else seqIdLoop (sizeT (i * 36 + if c.isDigit then c.toNat - 48 else c.toNat - 55)) rest
    else
      invalidName
      pure (sizeT (i * 36))

def parseSeqId (c : Char) : M Nat := do
  if c = '_' then pure 0
  else
    let pos ← getPos
    let i ← seqIdLoop inp 0 (inp.name.drop pos)
    pure (sizeT (i + 1))

def emitSubstitution (out : OutRef) (i : Nat) : M Unit := do
  let s ← Traced.get
  if s.status = .success then
    let found ← outputElem out s.subst i
    onlyIf (!found) invalidName
    updateOutput out fun o => { o with substIndex := if i = npos then none else some i }
  else pure ()

def parseSubstitution (out : OutRef) (flags : NameFlags) : M NameFlags := do
  assertInside inp
  assertChar inp 'S'
  advance 1
  let c ← peek inp
  match stdAbbreviation c with
  | some abbr =>
    emitAbbreviation out abbr
    closing
    pure { flags with isSource := false }
  | none =>
    let i ← parseSeqId inp c
    let pos ← getPos
    nutsAssert (pos ≤ inp.size) "pos_ <= size_"
    emitSubstitution out i
    closing
    pure { flags with isSource := false }

def emitTemplateParam (out : OutRef) (i : Nat) : M Unit := do
  let s ← Traced.get
  let found ← outputElem out s.templateArgs i
  if found then insertSubst inp (s.templateArgs.getD i []) true else invalidName

def parseParamNumber (c : Char) : M Nat := do
  if c = '_' then pure 0
  else
    let n ← parseUnsigned inp none
    pure (sizeT (n + 1))

def parseTemplateParam (out : OutRef) : M Unit := do
  assertInside inp
  assertChar inp 'T'
  advance 1
  let c ← peek inp
  let i ← parseParamNumber inp c
  let d ← peek inp
  onlyIf (d ≠ '_') invalidName
  emitTemplateParam inp out i
  closing

def expectEnd : M Unit := do
  let found ← isAt inp 'E'
  onlyIf (!found) invalidName

/-- The loop of `apply_qualifiers`: each pointer or reference makes two substitutions of
the text up to it, without and with it, and the character behind it is skipped. -/
def qualifierSubsts (out : OutRef) (start : Nat) (skip : Bool) (i : Nat) : Text → M Unit
  | [] => pure ()
  | c :: rest => do
    if skip = false ∧ (c = '*' ∨ c = '&') then
      let v ← substr out start (i - start)
      insertSubst inp v false
      let v ← substr out start (i + 1 - start)
      insertSubst inp v false
      qualifierSubsts out start true (i + 1) rest
    else qualifierSubsts out start false (i + 1) rest

def applyQualifiers (out : OutRef) (quals : Text) (start : Option Nat) : M Unit := do
  if quals = [] then pure ()
  else withDelim out (fun _ => none) (do
    let before ← output out
    append out quals
    let o ← output out
    match start with
    | some start =>
      if start < before.size then
        qualifierSubsts inp out start false (before.size + 1) (o.buf.drop (before.size + 1))
        let v ← substr out start (o.size - start)
        insertSubst inp v false
      else pure ()
    | none => pure ())

end ZeroBugs.Unmangle
