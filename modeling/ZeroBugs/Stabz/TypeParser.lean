import ZeroBugs.Lib.NumberText
import ZeroBugs.Stabz.Token

/-! # Parser of stab strings -/
namespace ZeroBugs.Stabz.Parse

open Lib Lib.NumberText

variable {α β : Type}

section Requests

variable (inp : Input)

def ask (r : Request) : M Bool := do
  let s ← Traced.get
  match inp.types s.asked r with
  | .error what => Traced.fail (.exception what)
  | .ok answer => do
    Traced.modify fun s => { s with asked := s.asked ++ [r] }
    pure answer

def withRoom (tables : List (Option Nat)) (id : TypeID) : List (Option Nat) :=
  let tables := tables ++ List.replicate (id.first + 1 - tables.length) none
  tables.set id.first (some (max ((tables.getD id.first none).getD 0) (id.second + 1)))

/-- The calls of `resize`, whose argument wraps around for the largest numbers. -/
def makeRoom (id : TypeID) : M Unit := do
  Traced.emit (.slot id)
  if id.first + 1 < 2 ^ 64 ∧ id.second + 1 < 2 ^ 64 then
    Traced.modify fun s => { s with tables := withRoom s.tables id }
  else Traced.fail .noTable

def getType (id : TypeID) (follow : Bool) : M Unit := do
  makeRoom id
  let _ ← ask inp (.getType id follow)
  pure ()

/-- `CompileUnit::add_type` for a table of the unit: `get_type` leaves null pointers
between the tables it makes. -/
def addToTable (table : Option Nat) (id : TypeID) (shape : Shape) : M Unit := do
  Traced.emit (.table table.isSome)
  match table with
  | none => Traced.fail .noTable
  | some _ => do
    makeRoom id
    let _ ← ask inp (.addType id shape)
    pure ()

def addType (id : TypeID) (shape : Shape) : M Unit := do
  let s ← Traced.get
  assert inp (id.first < s.tables.length)
  match s.tables[id.first]? with
  | none => pure ()
  | some table => addToTable inp table id shape

end Requests

section Pieces

variable (inp : Input)

def slice (first last : Nat) : Text := (inp.text.drop first).take (last - first)

def takeText (first last : Nat) : M Text := do
  Traced.emit (.token first last)
  if first ≤ last ∧ last - first ≤ 0x7fffffff then pure (slice inp first last)
  else Traced.fail (.exception "max SharedString length exceeded")

def cstring (first : Nat) : M Text := do
  Traced.emit (.cstring first)
  pure (inp.text.drop first)

def assertChar (index : Nat) (p : Char → Bool) : M Unit :=
  if inp.asserts then do
    let c ← read inp index
    assert inp (p c)
  else pure ()

def expectThat (c : Bool) (failed : α) (next : M α) : M α :=
  if c then next
  else do
    assert inp false
    pure failed

def expect (want : Token) (failed : α) (next : Item → M α) : M α := do
  let t ← nextToken inp
  expectThat inp (t.token = want) failed (next t)

/-- The rest of a function, for a result that is not `false`. -/
def parsed (f : M (Option α)) (failed : β) (next : α → M β) : M β := do
  let r ← f
  match r with
  | some a => next a
  | none => pure failed

def parseTypeID (first : Nat) : M TypeID := do
  assertChar inp first (· = '(')
  let text ← cstring inp (first + 1)
  let stop := first + 1 + (scanNumber text).used
  let c ← read inp stop
  if c = ',' then
    let rest ← cstring inp (stop + 1)
    pure ⟨strtoull text, strtoull rest⟩
  else pure ⟨strtoull text, 0⟩

def strtoint (first : Nat) : M Int := do
  let c ← read inp first
  if c = '0' then
    let d ← read inp (first + 1)
    if d = '0' then
      let e ← read inp (first + 2)
      let text ← cstring inp (first + 2)
      pure (if e = '2' then (-(strtoulIn 8 text : Int)).bmod (2 ^ 64) else strtolIn 8 text)
    else
      let text ← cstring inp (first + 1)
      pure ((strtoulIn 8 text : Int).bmod (2 ^ 64))
  else
    let text ← cstring inp first
    pure ((strtoull text : Int).bmod (2 ^ 64))

/-- `(pos[0] == '-') && (pos[1] == '1') && (pos[2] == 0 || pos[2] == ';')` -/
def isMinusOne (first : Nat) : M Bool := do
  let c ← read inp first
  if c = '-' then
    let d ← read inp (first + 1)
    if d = '1' then
      let e ← read inp (first + 2)
      pure (e = '\x00' ∨ e = ';')
    else pure false
  else pure false

/-- The upper bound of a range: for 32-bit programs `-1` has 32 bits. -/
def upperBound (first : Nat) : M Nat := do
  let text ← cstring inp first
  let minusOne ← isMinusOne inp first
  pure (if minusOne ∧ inp.wordSize = 32 then strtoull text % 2 ^ 32 else strtoull text)

def parseRange : M (Option (Int × Nat)) :=
  expect inp .number none fun t => do
    let lower ← strtoint inp t.first
    expect inp .semicolon none fun _ => expect inp .number none fun u => do
      let upper ← upperBound inp u.first
      expect inp .semicolon none fun _ => pure (some (lower, upper))

/-- `if (*str == ';' && isdigit(str[1])) ++str;` -/
def skipSemicolon : M Unit := do
  let pos ← getCursor
  let c ← read inp pos
  if c = ';' then
    let d ← read inp (pos + 1)
    if d.isDigit then advance else pure ()
  else pure ()

/-- `if (*ptr) EXPECT(T_SEMICOLON, ...)` -/
def optionalSemicolon (failed : α) (next : M α) : M α := do
  let c ← peek inp
  if c = '\x00' then next else expect inp .semicolon failed fun _ => next

end Pieces

section Simple

variable (inp : Input)

def parseNegativeTypes (first : Nat) (id : TypeID) (size : Nat) : M Unit := do
  let text ← cstring inp first
  let n := atoi text
  if n = -16 then addType inp id (.bool size)
  else if -34 ≤ n ∧ n ≤ -1 then
    Traced.fail (.exception ("STAB: unhandled negative type: " ++ toString n))
  else Traced.fail (.exception ("STAB: unspecified negative type: " ++ toString n))

def rangeBits (lower : Int) (upper : Nat) : Nat :=
  let n := ((upper - lower : Int) % 2 ^ 64).toNat
  if n = 0 then (if upper ≠ 0 then 64 else 0) else Nat.log2 n + 1

def rangeShape (name : Option Text) (lower : Int) (upper : Nat) : Shape :=
  let nbits := rangeBits lower upper
  if 0 < lower ∧ upper = 0 then .float name lower
  else if name = some "char".toList ∧ nbits = 7 then .int name 8 true
  else .int name nbits (lower < 0)

def parseRangeType (id : TypeID) (name : Option Text) : M Bool :=
  expect inp .typeKey false fun _ => expect inp .semicolon false fun _ =>
    parsed (parseRange inp) false fun range => do
      addType inp id (rangeShape name range.1 range.2)
      pure true

def parseBuiltinFpType (id : TypeID) (name : Option Text) : M Bool :=
  expect inp .number false fun _ => expect inp .semicolon false fun _ =>
    expect inp .number false fun t => do
      let text ← cstring inp t.first
      expect inp .semicolon false fun _ => expect inp .number false fun _ =>
        expect inp .semicolon false fun _ => do
          addType inp id (.float name (strtoull text))
          pure true

def parseFwdType (t : Item) (id : TypeID) : M Bool := do
  assertChar inp t.first (· = 'x')
  assertChar inp (t.first + 1) fun c => c = 's' ∨ c = 'u' ∨ c = 'e'
  Traced.emit (.forwardName t.first t.last)
  let name ← takeText inp (t.first + 2) t.last
  addType inp id (.forward name)
  let c ← peek inp
  if c = ':' then
    advance
    pure true
  else pure true

def insertValue (values : List (Int × Text)) (v : Int) (name : Text) : List (Int × Text) :=
  if values.any (·.1 = v) then values else values ++ [(v, name)]

def enumLoop : (fuel : Nat) → List (Int × Text) → M (Option (List (Int × Text)))
  | 0, _ => Traced.fail .outOfFuel
  | fuel + 1, values => do
    let c ← peek inp
    if c = '\x00' then pure (some values)
    else expect inp .ident none fun t => do
      let name ← takeText inp t.first t.last
      expect inp .colon none fun _ => expect inp .number none fun u => do
        let text ← cstring inp u.first
        let values := insertValue values (atoi text) name
        expect inp .comma none fun _ => do
          let c ← peek inp
          if c = ';' then
            advance
            pure (some values)
          else enumLoop fuel values

def parseEnum (id : TypeID) (name : Option Text) : M Bool :=
  parsed (enumLoop inp (inp.size + 1) []) false fun values => do
    addType inp id (.enum name values)
    pure true

end Simple

structure Calls where
  type : Option Text → M (Option TypeID)
  memFun : Option Text → M Bool

section Parts

variable (inp : Input) (call : Calls)

def parseTyped : M (Option TypeID) :=
  parsed (call.type none) none fun id => do
    getType inp id false
    pure (some id)

def parseArray (id : TypeID) : M Bool :=
  parsed (call.type none) false fun _ => expect inp .semicolon false fun _ =>
    parsed (parseRange inp) false fun range => parsed (call.type none) false fun elem => do
      getType inp elem false
      addType inp id (.array range.1 range.2 elem)
      pure true

def parsePointer (first : Nat) (id : TypeID) : M Bool :=
  parsed (parseTyped inp call) false fun target => do
    let c ← read inp first
    if c = '*' then
      addType inp id (.pointer target)
      pure true
    else
      assertChar inp first (· = '&')
      addType inp id (.reference target)
      pure true

def parseQualifiedType (id : TypeID) (qual : Qualifier) : M Bool :=
  parsed (parseTyped inp call) false fun target => do
    addType inp id (.qualified target qual)
    pure true

end Parts

/-- The types of a function that have been read: whether the class is among them, the
result and the parameters. -/
structure Signature where
  klass : Bool
  result : Option TypeID
  args : List TypeID

def accessOf : Char → Access
  | '0' => accessPrivate
  | '1' => accessProtected
  | _ => accessPublic

def qualifierOf : Char → Option Qualifier
  | 'A' => some .none
  | 'B' => some .const
  | 'C' => some .volatile
  | 'D' => some .constVolatile
  | _ => none

section Functions

variable (inp : Input) (call : Calls)

/-- A type of a function: the first is that of the class, the second the result. -/
def addToSignature (sig : Signature) (id : TypeID) : M Signature :=
  if sig.klass = false then pure { sig with klass := true }
  else if sig.result = none then pure { sig with result := some id }
  else do
    let void ← ask inp (.isVoid id)
    pure (if void then sig else { sig with args := sig.args ++ [id] })

def signatureLoop : (fuel : Nat) → Signature → M (Option Signature)
  | 0, _ => Traced.fail .outOfFuel
  | fuel + 1, sig => do
    let c ← peek inp
    if c = '\x00' then pure (some sig)
    else parsed (parseTyped inp call) none fun id => do
      let sig ← addToSignature inp sig id
      let c ← peek inp
      if c = ',' then
        advance
        signatureLoop fuel sig
      else expect inp .semicolon none fun _ => pure (some sig)

def parseSignature (isStatic : Bool) : M (Option Signature) := do
  let c ← peek inp
  if c = '#' then
    advance
    parsed (parseTyped inp call) none fun id =>
      expect inp .semicolon none fun _ => pure (some ⟨false, some id, []⟩)
  else if isStatic then
    parsed (parseTyped inp call) none fun id => do
      skipSemicolon inp
      pure (some ⟨false, some id, []⟩)
  else signatureLoop inp call (inp.size + 1) ⟨false, none, []⟩

def findLinkage : M (Option Text) := do
  let pos ← getCursor
  Traced.emit (.linkage pos)
  let rest ← cstring inp pos
  match rest.findIdx? (· = ';') with
  | none => do
    setCursor none
    assert inp false
    pure none
  | some len => do
    Traced.emit (.token pos (pos + len))
    setCursor (some (pos + len))
    skipSemicolon inp
    pure (some (slice inp pos (pos + len)))

def parseLinkage : M (Option Text) := do
  let c ← peek inp
  if c = ':' then
    expect inp .colon none fun _ => do
      let c ← peek inp
      if c = ';' then
        skipSemicolon inp
        pure (some [])
      else findLinkage inp
  else pure (some [])

def needsMangling (linkName : Text) : Bool :=
  linkName.head? ≠ some '_' || (linkName[1]? ≠ some 'Z' && linkName[1]? ≠ some '_')

def assertMethodName (name : Option Text) (linkName : Text) : M Unit :=
  if name.isSome && needsMangling linkName then do
    assert inp (name ≠ some "__base_ctor".toList)
    assert inp (name ≠ some "__comp_ctor".toList)
  else pure ()

def addFunType (id : TypeID) (name : Option Text) (linkName : Text) (sig : Signature)
    (access : Access) (isVirtual : Bool) (qual : Qualifier) (index : Int) : M Unit := do
  addType inp id (.function sig.result sig.args (linkName = []))
  let s ← Traced.get
  if s.klass then
    assertMethodName inp name linkName
    let _ ← ask inp (.addMethod name linkName access isVirtual qual index)
    pure ()
  else pure ()

/-- The index of a virtual function, behind which the type of a base class follows. -/
def parseVirtual : M (Option (Bool × Int)) := do
  let c ← peek inp
  if c = '*' then
    advance
    expect inp .number none fun t => do
      let text ← cstring inp t.first
      expect inp .semicolon none fun _ => parsed (call.type none) none fun _ => do
        let _ ← skip inp
        pure (some (true, strtoll text))
  else if c = '.' ∨ c = '?' then
    advance
    pure (some (false, 0))
  else pure (some (false, 0))

/-- `parse_fun_type` behind the access of a method; what becomes of other methods of the
same name is not looked at. -/
def parseMethod (id : TypeID) (name : Option Text) (linkName : Text) (sig : Signature)
    (access : Access) : M Bool := do
  let c ← skip inp
  parsed (pure (qualifierOf c)) false fun qual =>
    parsed (parseVirtual inp call) false fun virt => do
      addFunType inp id name linkName sig access virt.1 qual virt.2
      let c ← peek inp
      if c = ';' then pure true
      else
        let _ ← call.memFun name
        pure true

def parseFunType (id : TypeID) (name : Option Text) (isStatic : Bool) : M Bool :=
  parsed (parseSignature inp call isStatic) false fun sig =>
    parsed (parseLinkage inp) false fun linkName => do
      let c ← peek inp
      if c.isDigit then
        advance
        parseMethod inp call id name linkName sig (accessOf c)
      else
        addFunType inp id name linkName sig accessPublic false .none 0
        pure true

def parseMemFun (name : Option Text) : M Bool :=
  expect inp .typeKey false fun t => do
    let id ← parseTypeID inp t.first
    let c ← peek inp
    setCursor (some t.first)
    if c = ':' then parseFunType inp call id name true
    else parsed (call.type name) false fun _ => pure true

end Functions

section Classes

variable (inp : Input) (call : Calls)

def baseLoop : Nat → M Bool
  | 0 => pure true
  | count + 1 => do
    let virt ← skip inp
    let access ← skip inp
    expect inp .number false fun t => do
      let text ← cstring inp t.first
      expect inp .comma false fun _ => parsed (call.type none) false fun id =>
        expect inp .semicolon false fun _ => do
          let s ← Traced.get
          assert inp s.klass
          getType inp id false
          let _ ← ask inp (.addBase id (strtoulIn 10 text) ((access.toNat : Int) - 48) (virt = '1'))
          baseLoop count

def parseBaseClasses : M Bool :=
  expect inp .number false fun t => do
    let text ← cstring inp t.first
    expect inp .comma false fun _ => baseLoop inp call (strtoulIn 10 text)

/-- The part of `pos` that is left without colons, and then without spaces, at its end. -/
def trimmed (text : Text) : Text :=
  ((text.reverse.dropWhile (· = ':')).dropWhile (· = ' ')).reverse

def memberName (t : Item) : M Text := do
  let vptr ← startsWith inp t.first "_vptr.".toList
  if vptr then pure ".vptr".toList
  else takeText inp t.first (t.first + (trimmed (slice inp t.first t.last)).length)

/-- `*pos == '.' && pos[1] == 'v'` -/
def isOldVptr (first : Nat) : M Bool := do
  let c ← read inp first
  if c = '.' then
    let d ← read inp (first + 1)
    pure (d = 'v')
  else pure false

def oldVptrName (first : Nat) (name : Text) : M Text := do
  let c ← read inp (first + 2)
  if c = 'f' then pure ".vptr".toList
  else if c = 'b' then pure ".vbase".toList
  else pure name

/-- The access of a member: the character behind the slash is stepped over. -/
def memberAccess : M Access := do
  let c ← peek inp
  if c = '/' then
    advance
    let d ← skip inp
    pure (accessOf d)
  else pure accessPublic

def addStaticMember (name : Option Text) (linkName : Text) (id : TypeID) : M Bool := do
  let s ← Traced.get
  if s.klass then
    let _ ← ask inp (.addMember name (some linkName) 0 0 id true)
    let _ ← ask inp .indexClass
    pure true
  else Traced.fail (.exception "no class")

def memberSize (oldVptr : Bool) : M (Option Nat) :=
  if oldVptr then pure (some inp.wordSize)
  else expect inp .comma none fun _ => expect inp .number none fun t => do
    let text ← cstring inp t.first
    pure (some (strtoulIn 10 text))

def isBaseName (name : Option Text) (id : TypeID) : M Bool :=
  match name with
  | some name => ask inp (.hasName id name)
  | none => pure false

def addDataMember (name : Option Text) (access : Access) (id : TypeID) (bitOffs bitSize : Nat) :
    M Bool := do
  let s ← Traced.get
  if s.klass then
    let base ← isBaseName inp name id
    let _ ← ask inp (if base then .addBase id bitOffs access false
      else .addMember name none bitOffs bitSize id (bitSize = 0))
    pure true
  else pure true

def parseMemberEnd (name : Option Text) (oldVptr : Bool) (access : Access) (id : TypeID) :
    M Bool := do
  let c ← peek inp
  if c = ':' then
    advance
    expect inp .ident false fun t => do
      let linkName ← takeText inp t.first t.last
      addStaticMember inp name linkName id
  else if c = ',' then
    advance
    expect inp .number false fun t => do
      let text ← cstring inp t.first
      parsed (memberSize inp oldVptr) false fun bitSize =>
        addDataMember inp name access id (strtoulIn 10 text) bitSize
  else pure true

def parseDataMember (name : Option Text) (oldVptr isFunction : Bool) : M Bool := do
  assert inp !isFunction
  expect inp .colon false fun _ => do
    let access ← memberAccess inp
    parsed (parseTyped inp call) false fun id => parseMemberEnd inp name oldVptr access id

/-- `parse_member` behind a name that an opening parenthesis follows: a function, or one of
the special members of GCC 2.95 -/
def parseSpecialMember (first : Nat) (name : Text) (isFunction : Bool) : M (Bool × Bool) := do
  let old ← isOldVptr inp first
  if old then
    let name ← oldVptrName inp first name
    expect inp .typeKey (false, isFunction) fun _ => do
      let ok ← parseDataMember inp call (some name) true isFunction
      pure (ok, isFunction)
  else
    let ok ← parseMemFun inp call (some name)
    pure (ok, true)

def parseMember (isFunction : Bool) : M (Bool × Bool) := do
  let c ← peek inp
  if c = ':' then
    let ok ← parseDataMember inp call none false isFunction
    pure (ok, isFunction)
  else expect inp .ident (false, isFunction) fun t => do
    let name ← memberName inp t
    let c ← peek inp
    if c = '(' then parseSpecialMember inp call t.first name isFunction
    else
      let ok ← parseDataMember inp call (some name) false isFunction
      pure (ok, isFunction)

/-- The loop of `parse_class`: `none` where `parse_class` returns, and else whether all
members were parsed. -/
def memberLoop : (fuel : Nat) → (isFunction : Bool) → M (Option Bool)
  | 0, _ => Traced.fail .outOfFuel
  | fuel + 1, isFunction => do
    let c ← peek inp
    if c = '\x00' then pure (some true)
    else if c = ';' then
      advance
      pure (some true)
    else
      let r ← parseMember inp call isFunction
      if r.1 then expect inp .semicolon none fun _ => memberLoop fuel r.2
      else pure (some false)

/-- The base class with the `vptr`, if all members were parsed. -/
def parseTilde (ok : Bool) : M (Option Unit) :=
  if ok then do
    let c ← peek inp
    if c = '~' then
      advance
      let d ← peek inp
      expectThat inp (d = '%') none (do
        advance
        parsed (call.type none) none fun _ => expect inp .semicolon none fun _ => pure (some ()))
    else pure (some ())
  else pure (some ())

def pushClass (s : State) : State :=
  if s.klass then { s with klassStack := s.klassStack + 1 } else s

def popClass (s : State) : State := { s with klassStack := s.klassStack - 1 }

/-- The members of a class. A member that was not parsed ends the class as if it had
been the last. -/
def parseMembers (id : TypeID) : M Bool :=
  parsed (memberLoop inp call (inp.size + 1) false) false fun ok =>
    parsed (parseTilde inp call ok) false fun _ => do
      let s ← Traced.get
      assert inp s.klass
      addType inp id .klass
      Traced.modify popClass
      pure true

def parseClass (id : TypeID) (name : Option Text) (isUnion : Bool) : M Bool := do
  Traced.modify pushClass
  expect inp .number false fun t => do
    let text ← cstring inp t.first
    Traced.modify fun s => { s with klass := true }
    let _ ← ask inp (.newClass name (strtoulIn 10 text * 8 % 2 ^ 64) isUnion)
    let c ← peek inp
    if c = '!' then
      advance
      let ok ← parseBaseClasses inp call
      if ok then parseMembers inp call id else pure false
    else parseMembers inp call id

end Classes

section Parser

variable (inp : Input) (call : Calls)

def parseShape (id : TypeID) (name : Option Text) (t : Item) : M Bool :=
  match t.token with
  | .array => parseArray inp call id
  | .enum => parseEnum inp id name
  | .fun_ => parseFunType inp call id name true
  | .ident => do
    let c ← read inp t.first
    if c = 'x' then parseFwdType inp t id else pure false
  | .range => parseRangeType inp id name
  | .union => parseClass inp call id name true
  | .struct => parseClass inp call id name false
  | .reference | .pointer => parsePointer inp call t.first id
  | .memFun => parseFunType inp call id name false
  | .builtinFp => parseBuiltinFpType inp id name
  | .constQual => parseQualifiedType inp call id .const
  | .volatileQual => parseQualifiedType inp call id .volatile
  | _ => do
    Traced.emit (.token t.first t.last)
    pure false

def attributeSize (first size : Nat) : M Nat := do
  let c ← read inp (first + 1)
  if c = 's' then
    let text ← cstring inp (first + 2)
    pure (strtoull text)
  else pure size

def typeLoop (id : TypeID) (name : Option Text) : (fuel size : Nat) → M (Option TypeID)
  | 0, _ => Traced.fail .outOfFuel
  | fuel + 1, size => do
    let c ← peek inp
    if c = '\x00' then pure (some id)
    else
      let t ← nextToken inp
      if t.token = .typeAttr then
        let size ← attributeSize inp t.first size
        optionalSemicolon inp none (typeLoop id name fuel size)
      else if t.token = .number then
        parseNegativeTypes inp t.first id size
        optionalSemicolon inp none (typeLoop id name fuel size)
      else if t.token = .memType then
        parsed (call.type name) none fun _ => expect inp .comma none fun _ => call.type name
      else
        let ok ← parseShape inp call id name t
        pure (if ok then some id else none)

/-- `parse_type` for a type that is defined as another one: the void type is that of
itself. -/
def parseAlias (id : TypeID) (name : Option Text) : M (Option TypeID) :=
  parsed (call.type name) none fun other =>
    if id = other then do
      addType inp id .void
      pure (some id)
    else do
      getType inp other false
      addType inp id (.alias other)
      pure (some id)

def parseType (name : Option Text) : M (Option TypeID) :=
  expect inp .typeKey none fun key => do
    let id ← parseTypeID inp key.first
    let t ← nextToken inp
    if t.token = .equals then
      let c ← peek inp
      if c = '(' then parseAlias inp call id name
      else typeLoop inp call id name (inp.size + 1) 0
    else
      setCursor (some t.first)
      pure (some id)

/-- The functions that call each other, for calls that are nested at most so deep. -/
def calls : Nat → Calls
  | 0 => ⟨fun _ => Traced.fail .outOfFuel, fun _ => Traced.fail .outOfFuel⟩
  | depth + 1 => ⟨parseType inp (calls depth), parseMemFun inp (calls depth)⟩

end Parser

section Stabs

variable (inp : Input) (call : Calls)

def parseStart : M (Nat × Option Text) :=
  expect inp .ident (0, none) fun t => do
    assert inp (t.first < t.last)
    let name ← takeText inp t.first t.last
    expect inp .colon (t.last, none) fun u => pure (u.first, some name)

def constantShape : Char → Option Shape
  | 'b' => some (.bool 8)
  | 'i' => some (.int (some "int".toList) 32 true)
  | 'r' => some (.float (some "float".toList) 4)
  | _ => none

def parseConstant (name : Text) : M Bool := do
  let pos ← getCursor
  let c ← read inp pos
  expectThat inp (c = '=') false (do
    let d ← read inp (pos + 1)
    parsed (pure (constantShape d)) false fun shape => do
      let _ ← ask inp (.addGlobal name shape)
      pure true)

def parseGlobal (name : Text) : M Bool := do
  advance
  parsed (call.type (some name)) false fun id => do
    getType inp id true
    let _ ← ask inp (.addGlobal name (.alias id))
    pure true

def addLocalVar (name : Text) (id : TypeID) : M Unit := do
  getType inp id true
  assert inp (inp.stab ≠ .gsym ∧ inp.stab ≠ .fun_)
  let _ ← ask inp (.addLocal name id)
  pure ()

def parseLocal (name : Text) : M Bool :=
  parsed (call.type none) false fun id => do
    addLocalVar inp name id
    pure true

def parseFunction : M Bool := do
  advance
  parsed (parseTyped inp call) false fun id => do
    let _ ← ask inp (.setReturnType id)
    pure true

def parseTypeName (name : Text) : M Bool := do
  let t ← nextToken inp
  expectThat inp (t.token = .typeDef ∨ t.token = .typeTag) false
    (parsed (call.type (some name)) false fun _ => pure true)

/-- `error`, for a result of `false`: the string is printed from a place on. -/
def reporting (first : Nat) (f : M Bool) : M Bool := do
  let ok ← f
  if ok then pure true
  else
    let _ ← cstring inp first
    pure false

/-- `reporting` for functions that leave the pointer to the token at the cursor. -/
def reportingHere (f : M Bool) : M Bool := do
  let pos ← getCursor
  reporting inp pos f

def parseMarked (name : Text) : M Bool := do
  advance
  let pos ← getCursor
  assertChar inp pos (· = '(')
  reporting inp pos (parseLocal inp call name)

def parseSymbol (first : Nat) (name : Text) (c : Char) : M Bool :=
  match c with
  | 't' | 'T' => reportingHere inp (parseTypeName inp call name)
  | 'c' => do
    advance
    reporting inp first (parseConstant inp name)
  | 'S' | 'G' => reporting inp first (parseGlobal inp call name)
  | 'P' | 'r' | 'a' => do
    assert inp (inp.stab = .rsym)
    parseMarked inp call name
  | 'v' | 'p' | 'V' => do
    assert inp (c = 'V' ∨ inp.stab = .psym)
    if inp.stab = .stsym then reporting inp first (parseGlobal inp call name)
    else parseMarked inp call name
  | '(' => reportingHere inp (parseLocal inp call name)
  | 'F' | 'f' => reporting inp first (parseFunction inp call)
  | _ => reporting inp first (pure false)

def parse : M Bool := do
  let r ← parseStart inp
  match r with
  | (first, none) => reporting inp first (pure false)
  | (first, some name) => do
    let c ← peek inp
    parseSymbol inp call first name c

def run (tables : List (Option Nat)) (depth : Nat) : List Step × Except Stop (Bool × State) :=
  parse inp (calls inp depth) ⟨some 0, false, 0, tables, []⟩

end Stabs

end ZeroBugs.Stabz.Parse
