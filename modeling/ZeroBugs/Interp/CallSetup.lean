import ZeroBugs.Lib.MultiMap

/-! # Setting up a function call -/
namespace ZeroBugs.Interp
open Lib

/-- `ClassType`; `bases` are the names of all direct and indirect bases. -/
structure ClassType where
  name : String
  unqualifiedName : String
  bases : List String
  size : Nat
  deriving DecidableEq

inductive DataType where
  | int (name : String)
  | float (name : String)
  | basic (name : String)
  | klass (c : ClassType)
  | pointer (pointedType : DataType) (isReference : Bool)
  | qualified (type : DataType)
  deriving DecidableEq

def DataType.removeQualifiers : DataType → DataType
  | .qualified t => t.removeQualifiers
  | t => t

/-- A function symbol with its prototype. `isVirtual` is that of a `Method`; `value` is the name
with parameters, if it is known. -/
structure Overload where
  paramTypes : List DataType
  hasVariableArgs : Bool
  value : Option String
  addr : Nat
  isVirtual : Option Bool
  deriving DecidableEq

def Overload.paramCount (o : Overload) : Nat := o.paramTypes.length

inductive CallFault where
  | logicError (msg : String)
  | runtimeError (msg : String)
  | assertion
  deriving DecidableEq

/-- An argument: an expression of the caller, or the address of an object that
was allocated for a constructor. -/
inductive Arg (E : Type) where
  | expr (e : E)
  | this (addr : Nat) (c : ClassType)
  deriving DecidableEq

inductive Param (E : Type) where
  | arg (a : Arg E)
  | implicitCast (type : DataType) (a : Arg E)
  | staticCast (type : DataType) (a : Arg E)
  deriving DecidableEq

structure CallSetup (E : Type) where
  proto : Overload
  addr : Nat
  retAddr : Nat
  retType : Option DataType
  args : List (Param E)
  conversions : Nat
  deriving DecidableEq

/-- What is called on the interpreter's context, with state `X`. `uninitialized` is the number of
conversions in a setup made without arguments, which the constructor does not set. -/
structure Context (X E : Type) where
  isEqual : DataType → DataType → Bool
  conversionCount : X → Nat
  eval : X → E → Except CallFault (DataType × X)
  pushObject : X → ClassType → Nat × X
  passByValue : X → Arg E → ClassType → Except CallFault (Bool × X)
  uninitialized : Overload → Nat

section Setup

variable {X E : Type} (env : Context X E)

def varArgs (o : Overload) : Bool :=
  o.hasVariableArgs || (o.value.any fun name => decide ("...".toList <:+: name.toList))

def evalArg (ctx : X) : Arg E → Except CallFault (DataType × X)
  | .expr e => env.eval ctx e
  | .this _ c => .ok (.pointer (.klass c) false, ctx)

def equivalentArg (argIndex : Nat) (fun_ : Overload) : DataType → DataType → Bool × Nat
  | paramType, .pointer p2 r2 =>
    let paramType := paramType.removeQualifiers
    if env.isEqual paramType (.pointer p2 r2) then (true, 0)
    else match paramType with
    | .pointer p1 r1 =>
      if r1 = r2 then equivalentArg argIndex fun_ p1 p2
      else (r2 && env.isEqual paramType p2, 0)
    | _ => (r2 && env.isEqual paramType p2, 0)
  | paramType, .klass c2 =>
    let paramType := paramType.removeQualifiers
    if env.isEqual paramType (.klass c2) then (true, 0)
    else match paramType with
    | .klass c1 =>
      if c2.bases.contains c1.name then (true, 1)
      else (argIndex == 0 && fun_.isVirtual == some true && c1.bases.contains c2.name, 0)
    | _ => (false, 0)
  | paramType, argType => (env.isEqual paramType.removeQualifiers argType, 0)

def numericTypes : DataType → DataType → Bool
  | .int _, .int _ | .int _, .float _ | .float _, .int _ | .float _, .float _ => true
  | _, _ => false

inductive ArgResult (E : Type) where
  | pass (p : Param E) (conversions : Nat)
  | discard

def setupArg (o : Overload) (ctx : X) (i : Nat) (arg : Arg E) :
    Except CallFault (ArgResult E × X) := do
  let (argType, ctx) ← evalArg env ctx arg
  match o.paramTypes[i]? with
  | none => return (.pass (.arg arg) 0, ctx)
  | some paramType =>
    match equivalentArg env i o paramType argType, argType with
    | (true, n), .klass c =>
      let (found, ctx) ← env.passByValue ctx arg c
      if found then return (.pass (.arg arg) n, ctx)
      else throw (.runtimeError "copy constructor not found")
    | (true, n), _ => return (.pass (.arg arg) n, ctx)
    | (false, _), _ =>
      if env.conversionCount ctx ≠ 0 ∧ ¬numericTypes paramType argType then return (.discard, ctx)
      else if i = 0 ∧ o.isVirtual = some true then return (.pass (.staticCast paramType arg) 0, ctx)
      else return (.pass (.implicitCast paramType arg) 1, ctx)

/-- The loop over the arguments from the `i`-th on. -/
def setupArgs (o : Overload) : X → Nat → List (Arg E) →
    Except CallFault (Option (List (Param E) × Nat) × X)
  | ctx, _, [] => .ok (some ([], 0), ctx)
  | ctx, i, arg :: args => do
    let (result, ctx) ← setupArg env o ctx i arg
    match result with
    | .discard => return (none, ctx)
    | .pass p n =>
      let (rest, ctx) ← setupArgs o ctx (i + 1) args
      return (rest.map fun r => (p :: r.1, n + r.2), ctx)

/-- The class an overload constructs: its first parameter points to a class `C`
and its name starts with `C::C(`. -/
def Overload.constructs (o : Overload) : Option ClassType :=
  match o.value, o.paramTypes.head?.map DataType.removeQualifiers with
  | some fname, some (.pointer (.klass c) _) =>
    if (c.name ++ "::" ++ c.unqualifiedName ++ "(").toList <+: fname.toList then some c else none
  | _, _ => none

/-- The class of a constructor that is called without its `this` argument. -/
def missingThis (o : Overload) (args : Option (List (Arg E))) : Option ClassType :=
  if o.paramCount = (args.getD []).length + 1 then o.constructs else none

/-- `check_ctor_invocation`: the argument list for this overload and the object
that was allocated for it. -/
def checkCtorInvocation (o : Overload) (ctx : X) (args : Option (List (Arg E))) :
    Option (Nat × ClassType) × X × Option (List (Arg E)) :=
  match missingThis o args with
  | none => (none, ctx, args)
  | some c =>
    let (addr, ctx) := env.pushObject ctx c
    (some (addr, c), ctx, some (.this addr c :: args.getD []))

/-- `get_call_setup` for the argument list with `this` in its place, before the
return value is set. -/
def matchArgs (o : Overload) (ctx : X) (args : List (Arg E)) :
    Except CallFault (Option (CallSetup E) × X) := do
  if args.isEmpty then
    return (if o.paramCount = 0 then some ⟨o, 0, 0, none, [], env.uninitialized o⟩ else none, ctx)
  else if args.length = o.paramCount ∨ (args.length > o.paramCount ∧ varArgs o) then
    let (params, ctx) ← setupArgs env o ctx 0 args
    return (params.map fun p => ⟨o, 0, 0, none, p.1, p.2⟩, ctx)
  else return (none, ctx)

/-- `get_call_setup` for one overload. The caller's argument list is changed in
place; without one there is nothing the caller could see. -/
def getCallSetup (o : Overload) (ctx : X) (args : Option (List (Arg E))) :
    Except CallFault (Option (CallSetup E) × X × Option (List (Arg E))) := do
  if o.addr = 0 then throw .assertion
  else
    let (thisPtr, ctx, args') := checkCtorInvocation env o ctx args
    let (setup, ctx) ← matchArgs env o ctx (args'.getD [])
    let setup := setup.map fun s => match thisPtr with
      | some (addr, c) =>
        { s with addr := o.addr, retAddr := addr, retType := some (.pointer (.klass c) false) }
      | none => { s with addr := o.addr }
    return (setup, ctx, if args.isSome then args' else none)

def tryCandidates : List Overload → X → Option (List (Arg E)) → MultiMap Nat (CallSetup E) →
    Except CallFault (MultiMap Nat (CallSetup E) × X)
  | [], ctx, _, candidates => .ok (candidates, ctx)
  | o :: os, ctx, args, candidates => do
    let (setup, ctx, args) ← getCallSetup env o ctx args
    match setup with
    | none => tryCandidates os ctx args candidates
    | some s => tryCandidates os ctx args (candidates.insert s.conversions s)

def pickCandidate (candidates : MultiMap Nat (CallSetup E)) : Option (CallSetup E) :=
  candidates.entries.head?.map Prod.snd

def resolve (os : List Overload) (ctx : X) (args : Option (List (Arg E))) :
    Except CallFault (Option (CallSetup E) × X) := do
  let (candidates, ctx) ← tryCandidates env os ctx args .empty
  return (pickCandidate candidates, ctx)

end Setup

end ZeroBugs.Interp
