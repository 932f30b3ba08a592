import ZeroBugs.Unmangle.Productions

/-! # Names, types and expressions -/
namespace ZeroBugs.Unmangle

open Lib

variable (inp : Input) (call : Calls)

def setSourceNameSize (out : OutRef) : M Unit := do
  let o ← output out
  Traced.modify fun s =>
    match s.sourceNamePos with
    | some start =>
      if s.templateDepth = 0 ∧ start ≤ o.size then { s with sourceNameSize := o.size - start }
      else s
    | none => s

def parseTemplateArgList (out : OutRef) : M Unit := withDelim out (fun _ => none) (do
  append out "<".toList
  temporarily (fun s => { s with templateDepth := s.templateDepth + 1 })
    (fun old s => { s with templateDepth := old.templateDepth }) (do
    advance 1
    let o ← output out
    call.templateArgLoop out o.size
    setDelim out none
    append out ">".toList
    expectEnd inp
    closing))

def parseTemplateArgs (out : OutRef) (flags : NameFlags) : M NameFlags := do
  assertInside inp
  assertChar inp 'I'
  temporarily (fun s => { s with inPrototype := 0 })
    (fun old s => { s with inPrototype := old.inPrototype }) (do
    setSourceNameSize out
    parseTemplateArgList inp call out)
  pure { flags with isSource := false, isTemplate := true }

def closeOrFail : M Unit := do
  let c ← peek inp
  if c = 'E' then advance 1 else invalidName

def parseLiteral (out temp : OutRef) : M Unit := do
  append out "(".toList
  appendOutput out temp
  append out ")".toList
  let c ← peek inp
  let o ← output temp
  if o.buf = "float".toList ∨ o.buf = "double".toList ∨ o.buf = "__float128".toList then
    parseDouble inp out
    closeOrFail inp
  else if c = 'n' ∨ c.isDigit = true then
    parseSigned inp out
    closeOrFail inp
  else closeOrFail inp

def parsePrimary (out temp : OutRef) : M Unit := do
  let mangled ← isAt inp 'Z'
  if mangled then
    advance 1
    call.encoding out
    let inside ← isInside inp
    if inside then closeOrFail inp else invalidName
  else
    let found ← call.type temp false 0 []
    if found then parseLiteral inp out temp else invalidName

def parseExprPrimary (out : OutRef) : M Unit := do
  assertInside inp
  assertChar inp 'L'
  let temp ← tempOutput
  advance 1
  let inside ← isInside inp
  if inside then
    let c ← peek inp
    onlyIf (c = '_') (advance 1)
    parsePrimary inp call out temp
  else
    invalidName
    parsePrimary inp call out temp

def parseDependentName (out : OutRef) : M Unit := do
  append out "::".toList
  let r ← parseUnqualifiedName inp call out NameFlags.new
  if r.1 then
    let c ← peek inp
    onlyIf (c = 'I') (do
      let _ ← parseTemplateArgs inp call out r.2
      pure ())
  else invalidName

/-- An expression that starts with `st` or `sr`, for the second letter `c`. -/
def parseTypeExpression (out : OutRef) (top : Bool) (c : Char) : M Bool := do
  onlyIf (c = 't') (append out "sizeof".toList)
  onlyIf (!top || c = 't') (append out "(".toList)
  advance 2
  let found ← call.type out false 0 []
  onlyIf (!found) invalidName
  onlyIf (found && c = 'r') (parseDependentName inp call out)
  onlyIf (!top || c = 't') (append out ")".toList)
  isSuccess

/-- The operands of an operator with `arity` of them when `left` are to come: how many
are not found. The first eight characters of the operator are the word `operator`. -/
def operandLoop (out temp : OutRef) (arity : Nat) : (left : Nat) → M Nat
  | 0 => pure 0
  | left + 1 => do
    let found ← call.expression out false
    if found then
      let o ← output temp
      if left + 1 = arity ∧ 1 < arity then
        nutsAssert (8 < o.size) "temp.size() > 8"
        append out (o.buf.drop 8)
        operandLoop out temp arity left
      else
        onlyIf (left + 2 = arity ∧ 2 < arity) (append out ":".toList)
        operandLoop out temp arity left
    else pure (left + 1)

/-- The operands of `op`, whose name stands in an output of its own. -/
def parseOperands (out temp : OutRef) (top : Bool) (op : Operator) : M Bool := do
  onlyIf (!top) (append out "(".toList)
  let o ← output temp
  onlyIf (op.arity = 1) (if o.size ≤ 8 then appendOutput out temp else append out (o.buf.drop 8))
  let left ← operandLoop call out temp op.arity op.arity
  if left = 0 then
    onlyIf (!top) (append out ")".toList)
    isSuccess
  else
    invalidName
    pure false

/-- The part of `parse_expression_` for an operator. -/
def parseOperation (out : OutRef) (top : Bool) : M Bool := do
  let temp ← tempOutput
  let op ← parseOperatorName inp call temp
  match op with
  | none => pure false
  | some op => parseOperands call out temp top op

def parseExpressionAt (out : OutRef) (top : Bool) : M Bool := do
  assertInside inp
  let pos ← getPos
  let c ← peek inp
  if c = 'L' then
    onlyIf (!top) (append out "(".toList)
    parseExprPrimary inp call out
    onlyIf (!top) (append out ")".toList)
    isSuccess
  else if c = 's' then
    let d ← read inp (pos + 1)
    if d = 't' ∨ d = 'r' then parseTypeExpression inp call out top d
    else parseOperation inp call out top
  else parseOperation inp call out top

def parseExpression (out : OutRef) : M Unit := do
  assertInside inp
  assertChar inp 'X'
  advance 1
  let _ ← parseExpressionAt inp call out true
  closeOrFail inp

def noteTemplateArg (out : OutRef) (p : Nat) (found : Bool) : M Unit := do
  let s ← Traced.get
  let o ← output out
  onlyIf (found && s.templateDepth = 1) (insertTemplateArg inp (o.substrFrom p))

def parseTemplateArgKind (out : OutRef) (c : Char) : M Bool := do
  if c = 'X' then
    parseExpression inp call out
    let found ← isAt inp 'E'
    onlyIf (!found) invalidName
    pure found
  else if c = 'L' then
    parseExprPrimary inp call out
    isSuccess
  else call.type out false 0 []

def parseTemplateArg (out : OutRef) (p : Nat) : M Bool := do
  let inside ← isInside inp
  if inside then
    let c ← peek inp
    let found ← parseTemplateArgKind inp call out c
    noteTemplateArg inp out p found
    pure found
  else pure false

def parseTemplateArgLoop (out : OutRef) (p : Nat) : M Unit := do
  let found ← parseTemplateArg inp call out p
  if found then
    setDelim out (some ", ".toList)
    let o ← output out
    call.templateArgLoop out (o.size + 2)
  else pure ()

def dropTemplateArgs (argPos : Nat) : M Unit := Traced.modify fun s =>
  if s.templateDepth = 0 ∧ s.inPrototype = 0 then
    { s with templateArgs := s.templateArgs.drop argPos }
  else s

def parsePrefixArgs (out : OutRef) (l : Loop) : M Loop := do
  let flags ← addSubstitution inp out { l.flags with isSource := false }
  let s ← Traced.get
  let flags ← parseTemplateArgs inp call out flags
  let c ← peek inp
  if c ≠ 'E' then
    let flags ← addSubstitution inp out flags
    dropTemplateArgs s.templateArgs.length
    pure { l with canSubstitute := false, flags := flags }
  else
    dropTemplateArgs s.templateArgs.length
    pure { l with flags := flags }

/-- The anonymous namespace that stands behind a prefix of length `len` is a
substitution. -/
def addAnonymous (out : OutRef) (len : Nat) : M Unit := do
  let s ← Traced.get
  let o ← output out
  if s.anonymous then
    Traced.modify fun s => { s with anonymous := false }
    nutsAssert (sizeT (len + 2) ≤ o.size) "i <= size_"
    let start := if o.buf[sizeT (len + 2)]? = some ':' then sizeT (len + 3) else sizeT (len + 2)
    let v ← substr out start anonymousPrefix.length
    insertSubst inp v true
  else pure ()

def parsePrefixName (out : OutRef) (l : Loop) : M (Option Loop × NameFlags) := do
  let start ← position out
  let o ← output out
  let len := subSizeT o.size start
  onlyIf l.havePrefix (setDelim out (some "::".toList))
  let r ← parseUnqualifiedName inp call out
    (if l.havePrefix then { l.flags with isTemplate := false } else l.flags)
  if r.1 then
    onlyIf l.canSubstitute (do
      let start ← position out
      let v ← substr out start len
      insertSubst inp v true)
    addAnonymous inp out len
    pure (some ⟨false, true, true, r.2.maySubstitute '\x00', r.2⟩, r.2)
  else pure (none, { r.2 with isTemplate := l.flags.isTemplate })

def parsePrefixLoop (out : OutRef) (l : Loop) : M NameFlags := do
  let inside ← isInside inp
  if inside then
    let c ← peek inp
    if c = 'S' then
      if l.initial then
        let flags ← parseSubstitution inp out l.flags
        call.prefixLoop out { l with havePrefix := true, maybeTemplate := true, flags := flags }
      else pure l.flags
    else if c = 'T' then
      if l.initial then
        parseTemplateParam inp out
        call.prefixLoop out
          { l with havePrefix := true, maybeTemplate := true
                   flags := { l.flags with isSource := false } }
      else pure l.flags
    else if c = 'I' then
      if l.maybeTemplate then
        let l ← parsePrefixArgs inp call out l
        call.prefixLoop out l
      else
        invalidName
        pure { l.flags with isSource := false }
    else
      let r ← temporarily (fun s => { s with inPrefix := true })
        (fun old s => { s with inPrefix := old.inPrefix }) (parsePrefixName inp call out l)
      match r.1 with
      | some l => call.prefixLoop out l
      | none => pure r.2
  else pure l.flags

def checkPrefixStart : M Unit := do
  let pos ← getPos
  if pos = inp.size then invalidName else assertInside inp

def parsePrefix (out : OutRef) (flags : NameFlags) : M NameFlags := do
  checkPrefixStart inp
  nutsAssert (flags.isTemplate = false) "nameFlags.isTemplate_ == false"
  withPosition out (call.prefixLoop out ⟨true, false, false, false, flags⟩)

def parseNestedQualifiers : M Unit := do
  let s ← Traced.get
  match s.cvQualifiers with
  | some quals =>
    let r ← parseCvQualifiers inp quals
    Traced.modify fun s => { s with cvQualifiers := some r.2 }
  | none => pure ()

def parseNestedName (out : OutRef) (flags : NameFlags) : M NameFlags := do
  assertInside inp
  assertChar inp 'N'
  advance 1
  parseNestedQualifiers inp
  let success ← isSuccess
  if success then
    assertInside inp
    let flags ← parsePrefix inp call out flags
    expectEnd inp
    closing
    pure flags
  else pure flags

/-- The number behind a local name, to which `i` is added. -/
def parseDiscriminator (out : OutRef) (i : Nat) : M Unit := do
  let found ← isAt inp '_'
  onlyIf found (do
    advance 1
    let n ← parseUnsigned inp none
    append out " [#".toList
    updateOutput out (·.appendNumber (sizeT (n + i)))
    append out "]".toList)

def parseEntity (out : OutRef) : M Nat := do
  let c ← peek inp
  if c = 's' then
    append out "string literal".toList
    advance 1
    pure 0
  else
    let r ← call.name out NameFlags.new
    onlyIf (!r.1) invalidName
    pure (if r.1 then 1 else 0)

def parseLocalName (out : OutRef) : M Unit := do
  assertInside inp
  assertChar inp 'Z'
  advance 1
  call.encoding out
  let pos ← getPos
  if pos + 1 < inp.size then
    let c ← peek inp
    if c = 'E' then
      advance 1
      append out "::".toList
      let i ← parseEntity inp call out
      parseDiscriminator inp out i
    else invalidName
  else invalidName

/-- The template arguments of a name that starts with `S`, if any. -/
def parseNameArgs (out : OutRef) (flags : NameFlags) : M (Bool × NameFlags) := do
  let c ← peek inp
  if c = 'I' then
    let flags ← addSubstitution inp out flags
    let flags ← parseTemplateArgs inp call out flags
    let success ← isSuccess
    pure (success, flags)
  else
    let success ← isSuccess
    pure (success, flags)

def parseSubstitutedName (out : OutRef) (flags : NameFlags) : M (Bool × NameFlags) := do
  let pos ← getPos
  let d ← read inp (pos + 1)
  let flags ← parseSubstitution inp out flags
  if d = 't' then
    let r ← withDelim out (fun _ => some "::".toList) (parseUnscopedName inp call out flags)
    if r.1 then parseNameArgs inp call out r.2 else pure (false, r.2)
  else parseNameArgs inp call out flags

def parseTemplateName (out : OutRef) (flags : NameFlags) : M (Bool × NameFlags) := do
  let r ← parseUnscopedName inp call out flags
  if r.1 then
    let args ← isAt inp 'I'
    if args then
      let flags ← addSubstitution inp out r.2
      let flags ← parseTemplateArgs inp call out flags
      pure (true, flags)
    else pure (true, r.2)
  else pure (false, r.2)

def parseNameKind (out : OutRef) (flags : NameFlags) (c : Char) : M (Bool × NameFlags) := do
  if c = 'N' then
    let flags ← parseNestedName inp call out flags
    pure (true, flags)
  else if c = 'Z' then
    parseLocalName inp call out
    pure (true, flags)
  else if c = 'S' then parseSubstitutedName inp call out flags
  else parseTemplateName inp call out flags

def parseName (out : OutRef) (flags : NameFlags) : M (Bool × NameFlags) := do
  let inside ← isInside inp
  if inside then withPosition out (do
    let c ← peek inp
    parseNameKind inp call out { flags with isSource := false } c)
  else pure (false, flags)

def paramsOutput (hidden : Bool) (out : OutRef) : M OutRef :=
  if hidden then tempOutput else pure out

def emitFunctionParams (out : OutRef) : M Bool := do
  let s ← Traced.get
  let out ← paramsOutput (s.templateDepth = 0 && inp.noFunArgs) out
  temporarily (fun s => { s with inPrototype := s.inPrototype + 1 })
    (fun old s => { s with inPrototype := old.inPrototype }) (do
    append out "(".toList
    let i ← call.paramLoop out 0
    append out ")".toList
    onlyIf (i = 0) (updateOutput out (·.rewind 2))
    isSuccess)

def emitParamLoop (out : OutRef) (i : Nat) : M Nat := do
  let found ← call.type out false i []
  if found then call.paramLoop out (i + 1) else pure i

def appendOptional (out : OutRef) : Option OutRef → M Unit
  | some src => appendOutput out src
  | none => pure ()

/-- The part of `parse_bare_function_type` behind the return type. -/
def parseSignature (out : OutRef) (quals : Text) (klass : Option OutRef) : M Unit :=
  withDelim out (fun _ => none) (do
    let temp ← tempOutput
    let start ← position out
    let o ← output out
    appendString temp (o.substrFrom start)
    append temp " ()".toList
    append out " (".toList
    appendOptional out klass
    applyQualifiers inp out quals none
    append out ")".toList
    let o ← output out
    let _ ← emitFunctionParams inp call out
    let o' ← output out
    appendString temp (o'.substrFrom o.size)
    let t ← output temp
    insertSubst inp (t.substrFrom 0) false)

def parseBareFunctionType (out : OutRef) (quals : Text) (klass : Option OutRef) : M Unit :=
  withPosition out (do
    let found ← call.type out true 0 []
    onlyIf found (parseSignature inp call out quals klass))

def parseFunctionType (out : OutRef) (quals : Text) (klass : Option OutRef) : M Unit := do
  assertInside inp
  assertChar inp 'F'
  advance 1
  let c ← peek inp
  onlyIf (c = 'Y') (do
    append out "extern C ".toList
    advance 1)
  parseBareFunctionType inp call out quals klass
  expectEnd inp
  closing

/-- The member behind its class, whose name stands in an output of its own. -/
def parseMember (out temp : OutRef) (quals : Text) : M Unit := do
  append temp "::*".toList
  let c ← peek inp
  if c = 'F' then parseFunctionType inp call out quals (some temp)
  else
    let found ← call.type out false 0 []
    if found then
      append out " ".toList
      appendOutput out temp
      applyQualifiers inp out quals none
    else invalidName

def parsePointerToMemberType (out : OutRef) (quals : Text) : M Unit := do
  assertInside inp
  assertChar inp 'M'
  advance 1
  let temp ← tempOutput
  let found ← call.type temp false 0 []
  if found then parseMember inp call out temp quals else invalidName

/-- The dimension of an array: a number, or the output a template parameter is in. -/
def parseDimension (out : OutRef) : M (Nat × Option OutRef) := do
  let c ← peek inp
  if c.isDigit then
    let n ← parseUnsigned inp none
    pure (n, none)
  else if c = 'X' then
    parseExpression inp call out
    pure (npos, none)
  else if c = 'T' then
    let temp ← tempOutput
    parseTemplateParam inp temp
    pure (npos, some temp)
  else pure (npos, none)

/-- The part of `parse_array_type` from the type of the elements on. -/
def parseElements (out : OutRef) (quals : Text) (nelem : Nat) (temp : Option OutRef) :
    M Unit := do
  let found ← call.type out false 0 []
  if found then
    onlyIf (!quals.isEmpty) (do
      append out " (".toList
      append out quals
      append out ") ".toList)
    append out "[".toList
    onlyIf (nelem ≠ npos) (updateOutput out (·.appendNumber nelem))
    appendOptional out temp
    append out "]".toList
  else invalidName

def parseArrayType (out : OutRef) (quals : Text) : M Unit := do
  assertInside inp
  assertChar inp 'A'
  advance 1
  let inside ← isInside inp
  if inside then
    let dim ← parseDimension inp call out
    let c ← peek inp
    if c = '_' then
      advance 1
      parseElements call out quals dim.1 dim.2
    else invalidName
  else invalidName

inductive BuiltinType where
  | none | normal | void | vendor
  deriving DecidableEq

def builtinTable : Char → Option String
  | 'a' => some "signed char"
  | 'b' => some "bool"
  | 'c' => some "char"
  | 'd' => some "double"
  | 'e' => some "long double"
  | 'f' => some "float"
  | 'g' => some "__float128"
  | 'h' => some "unsigned char"
  | 'i' => some "int"
  | 'j' => some "unsigned int"
  | 'l' => some "long"
  | 'm' => some "unsigned long"
  | 'n' => some "__int128"
  | 'o' => some "unsigned __int128"
  | 's' => some "short"
  | 't' => some "unsigned short"
  | 'v' => some "void"
  | 'w' => some "wchar_t"
  | 'x' => some "long long"
  | 'y' => some "unsigned long long"
  | 'z' => some "..."
  | _ => Option.none

def parseVendorType (out : OutRef) : M BuiltinType := do
  advance 1
  let inside ← isInside inp
  if inside then
    parseSourceName inp call out
    pure .vendor
  else
    invalidName
    pure .none

def parseBuiltinType (out : OutRef) (ret : Bool) : M BuiltinType := do
  let inside ← isInside inp
  if inside then
    let c ← peek inp
    let s ← Traced.get
    if c = 'u' then parseVendorType inp call out
    else if c = 'v' ∧ ret = false ∧ s.inPrototype ≠ 0 then
      advance 1
      pure .void
    else
      match builtinTable c with
      | some text =>
        append out text.toList
        advance 1
        pure (if c = 'v' then .void else .normal)
      | none => pure .none
  else pure .none

/-- The end of `parse_type` for a name that starts with `S` or `T`. -/
def checkForTemplateArgs (out : OutRef) (quals : Text) (flags : NameFlags) : M NameFlags := do
  let flags ← addSubstitution inp out flags
  let args ← isAt inp 'I'
  if args then
    let flags ← parseTemplateArgs inp call out flags
    let flags ← addSubstitution inp out flags
    let start ← position out
    applyQualifiers inp out quals (some start)
    pure flags
  else
    let start ← position out
    applyQualifiers inp out quals (some start)
    pure flags

def parseSubstitutedType (out : OutRef) (quals : Text) : M NameFlags := do
  let pos ← getPos
  let d ← read inp (pos + 1)
  if d = 't' then
    let r ← parseName inp call out NameFlags.new
    onlyIf (!r.1) invalidName
    checkForTemplateArgs inp call out quals r.2
  else
    let flags ← parseSubstitution inp out NameFlags.new
    checkForTemplateArgs inp call out quals flags

def finishNamedType (out : OutRef) (quals : Text) (builtin : BuiltinType) (flags : NameFlags) :
    M Bool := do
  let s ← Traced.get
  onlyIf (builtin = .none || builtin = .vendor) (do
    let _ ← addSubstitution inp out
      { flags with isSource := flags.isSource || s.templateDepth ≠ 0 }
    pure ())
  let start ← position out
  applyQualifiers inp out quals (some start)
  pure true

/-- The part of `parse_type` for builtin types and class names; void is shown when there
are qualifiers. -/
def parseNamedType (out : OutRef) (ret : Bool) (quals : Text) : M Bool := do
  let builtin ← parseBuiltinType inp call out (ret || !quals.isEmpty)
  if builtin = .none then
    let r ← parseName inp call out NameFlags.new
    if r.1 then finishNamedType inp out quals builtin r.2 else pure false
  else
    finishNamedType inp out quals builtin { NameFlags.new with isSource := builtin = .vendor }

def parseTypeKind (out : OutRef) (ret : Bool) (indx : Nat) (quals : Text) (c : Char) :
    M Bool := do
  if c = 'A' then
    parseArrayType inp call out quals
    let _ ← addSubstitution inp out NameFlags.new
    pure true
  else if c = 'F' then
    parseFunctionType inp call out quals none
    let _ ← addSubstitution inp out NameFlags.new
    pure true
  else if c = 'M' then
    parsePointerToMemberType inp call out quals
    let _ ← addSubstitution inp out NameFlags.new
    pure true
  else if c = 'P' then
    advance 1
    call.type out ret indx ('*' :: quals)
  else if c = 'R' then
    advance 1
    call.type out ret indx ('&' :: quals)
  else if c = 'S' then
    let flags ← parseSubstitutedType inp call out quals
    let _ ← addSubstitution inp out flags
    pure true
  else if c = 'T' then
    parseTemplateParam inp out
    let flags ← checkForTemplateArgs inp call out quals NameFlags.new
    let _ ← addSubstitution inp out flags
    pure true
  else if c = 'C' ∨ c = 'G' ∨ c = 'U' then
    invalidName
    pure false
  else
    let r ← parseCvQualifiers inp quals
    if r.1 then call.type out ret indx r.2 else parseNamedType inp call out ret quals

def parseType (out : OutRef) (ret : Bool) (indx : Nat) (quals : Text) : M Bool := do
  let inside ← isInside inp
  if inside then
    withPosition out (withDelim out
      (fun delim => if indx ≠ 0 ∧ ret = false then some ", ".toList else delim) (do
      let c ← peek inp
      parseTypeKind inp call out ret indx quals c))
  else pure false

/-- The number, the underscore and the type in `TC`: whether they are there. -/
def parseVtableBase (out : OutRef) : M Bool := do
  let n ← parseUnsigned inp none
  if n = npos then pure false
  else
    let c ← peek inp
    closing
    if c = '_' then call.type out false 0 [] else pure false

def parseConstructionVtable (out : OutRef) : M Bool := do
  append out "construction vtable for ".toList
  advance 2
  let inside ← isInside inp
  if inside then
    let temp ← tempOutput
    let found ← call.type temp false 0 []
    if found then
      let base ← parseVtableBase inp call out
      onlyIf (!base) invalidName
      append out "-in-".toList
      appendOutput out temp
      pure true
    else
      invalidName
      append out "-in-".toList
      appendOutput out temp
      pure true
  else pure false

def parseTypeOf (out : OutRef) (what : String) : M Bool := do
  append out what.toList
  advance 2
  let found ← call.type out false 0 []
  onlyIf (!found) invalidName
  pure found

/-- `_read_encoding` -/
def parseThunkTarget (out : OutRef) : M Bool := do
  append out "to ".toList
  call.encoding out
  isSuccess

def parseCallOffset (out : OutRef) : M Unit := do
  let c ← peek inp
  if c = 'h' then
    advance 1
    parseNonVirtualOffset inp out
  else if c = 'v' then
    advance 1
    parseVirtualOffset inp out
  else invalidName

def parseCovariantThunk (out : OutRef) : M Bool := do
  advance 2
  append out "covariant return thunk ".toList
  let inside ← isInside inp
  onlyIf (!inside) invalidName
  parseCallOffset inp out
  parseCallOffset inp out
  parseThunkTarget call out

def parseSpecialType (out : OutRef) (d : Char) : M Bool := do
  match d with
  | 'C' => parseConstructionVtable inp call out
  | 'T' => parseTypeOf call out "VTT for "
  | 'I' => parseTypeOf call out "typeinfo for "
  | 'S' => parseTypeOf call out "typeinfo name for "
  | 'V' => parseTypeOf call out "vtable for "
  | 'c' => parseCovariantThunk inp call out
  | 'h' =>
    advance 2
    append out "non-virtual thunk ".toList
    parseNonVirtualOffset inp out
    parseThunkTarget call out
  | 'v' =>
    advance 2
    append out "virtual thunk ".toList
    parseVirtualOffset inp out
    parseThunkTarget call out
  | _ => pure false

def parseGuardVariable (out : OutRef) : M Bool := do
  append out "guard variable for ".toList
  advance 2
  let r ← call.name out NameFlags.new
  onlyIf (!r.1) invalidName
  pure r.1

def parseSpecialName (out : OutRef) : M Bool := do
  let pos ← getPos
  if inp.size ≤ pos then
    invalidName
    pure false
  else if pos + 1 < inp.size then
    let c ← peek inp
    if c = 'G' then
      let d ← read inp (pos + 1)
      if d = 'V' then parseGuardVariable call out else pure false
    else if c = 'T' then
      let d ← read inp (pos + 1)
      parseSpecialType inp call out d
    else pure false
  else pure false

def parseReturnType (out : OutRef) (flags : NameFlags) : M Bool := do
  if flags.mayHaveReturnType then
    temporarily (fun s => { s with inPrototype := s.inPrototype + 1 })
      (fun old s => { s with inPrototype := old.inPrototype }) (do
      let out ← paramsOutput inp.noFunArgs out
      let found ← call.type out true 0 []
      onlyIf found (append out " ".toList)
      pure found)
  else pure false

/-- The parameters behind a name, which are there in any case when there is a return
type: whether to go on. -/
def parseParams (out : OutRef) (isFuncName : Bool) : M Bool := do
  if isFuncName then emitFunctionParams inp call out
  else
    let inside ← isInside inp
    if inside then
      let c ← peek inp
      if c ≠ 'E' then emitFunctionParams inp call out else pure true
    else pure true

def emitQualifiers (out : OutRef) : M Unit := do
  let s ← Traced.get
  onlyIf (!inp.noFunArgs) (appendString out (s.cvQualifiers.getD []))

/-- The part of `parse_data_or_func_name` behind the name, which stands in an output of
its own. -/
def parseFunction (out temp : OutRef) (flags : NameFlags) : M Unit := do
  let isFuncName ← parseReturnType inp call out flags
  appendOutput out temp
  let goOn ← parseParams inp call out isFuncName
  onlyIf goOn (emitQualifiers inp out)

def parseDataOrFuncName (out : OutRef) : M Unit := do
  let inside ← isInside inp
  if inside then
    temporarily (fun s => { s with cvQualifiers := some [] })
      (fun old s => { s with cvQualifiers := old.cvQualifiers }) (do
      let temp ← tempOutput
      let r ← parseName inp call temp NameFlags.new
      if r.1 then parseFunction inp call out temp r.2 else invalidName)
  else invalidName

def copyRemainder (out : OutRef) : M Unit := do
  let inside ← isInside inp
  if inside then
    let c ← peek inp
    onlyIf (c ≠ 'E') (do
      let pos ← getPos
      appendName inp out (inp.size - pos)
      moveTo inp.size)
  else pure ()

def parseEncoding (out : OutRef) : M Unit := do
  let inside ← isInside inp
  if inside then
    let special ← parseSpecialName inp call out
    if special then pure ()
    else
      parseDataOrFuncName inp call out
      copyRemainder inp out
  else invalidName

def calls : Nat → Calls
  | 0 =>
    { type := fun _ _ _ _ => Traced.fail .outOfFuel
      encoding := fun _ => Traced.fail .outOfFuel
      name := fun _ _ => Traced.fail .outOfFuel
      expression := fun _ _ => Traced.fail .outOfFuel
      sourceName := fun _ => Traced.fail .outOfFuel
      prefixLoop := fun _ _ => Traced.fail .outOfFuel
      templateArgLoop := fun _ _ => Traced.fail .outOfFuel
      paramLoop := fun _ _ => Traced.fail .outOfFuel }
  | depth + 1 =>
    { type := parseType inp (calls depth)
      encoding := parseEncoding inp (calls depth)
      name := parseName inp (calls depth)
      expression := parseExpressionAt inp (calls depth)
      sourceName := parseSourceName inp (calls depth)
      prefixLoop := parsePrefixLoop inp (calls depth)
      templateArgLoop := parseTemplateArgLoop inp (calls depth)
      paramLoop := emitParamLoop (calls depth) }

def State.new : State :=
  ⟨0, none, 0, none, [], [], 0, 0, false, false, .success, [Output.new]⟩

/-- What `parse` returns: the output's text for the status of success. -/
def result : M (Option Text) := do
  let s ← Traced.get
  let o ← output 0
  pure (if s.status = .success ∧ o.buf ≠ [] then some o.buf else none)

/-- The conditions of `parse` on names of global constructors and destructors -/
def isGlobal : M Bool := do
  let _ ← read inp (min inp.size 7)
  if inp.name.take 8 = "_GLOBAL_".toList then
    let c ← read inp 8
    if c = '.' ∨ c = '_' ∨ c = '$' then
      let c ← read inp 9
      if c = 'D' ∨ c = 'I' then
        let c ← read inp 10
        pure (c = '_')
      else pure false
    else pure false
  else pure false

def parseGlobalCtorDtor : M (Option Text) := do
  let kind ← read inp 9
  append 0 (if kind = 'I' then "global constructors keyed to " else
    "global destructors keyed to ").toList
  moveTo 11
  let c ← peek inp
  if c = '_' then
    let d ← read inp 12
    if d = 'Z' then
      advance 2
      parseEncoding inp call 0
      result
    else
      appendName inp 0 (inp.size - 11)
      result
  else
    appendName inp 0 (inp.size - 11)
    result

def parseOther : M (Option Text) := do
  let found ← isGlobal inp
  if found then parseGlobalCtorDtor inp call
  else
    invalidName
    pure none

/-- `parse`: the text it returns, or `none` for a null pointer -/
def parse : M (Option Text) := do
  let c ← read inp 0
  if c = '_' then
    let d ← read inp 1
    if d = 'Z' then
      moveTo 2
      parseEncoding inp call 0
      result
    else parseOther inp call
  else parseOther inp call

def run (depth : Nat) : List Step × Except Stop (Option Text × State) :=
  parse inp (calls inp depth) State.new

end ZeroBugs.Unmangle
