import Mathlib

/-! # Abstract declarators -/
namespace ZeroBugs.Interp.AbstractDecl

inductive TypeQualifier where
  | const | volatile
  deriving DecidableEq

structure Qualifier where
  isConst : Bool
  isVolatile : Bool
  deriving DecidableEq

inductive CType (B : Type) where
  | void
  | named (b : B)
  | pointer (qual : Qualifier) (target : CType B)
  | array (count : Int) (elem : CType B)
  | function (ret : CType B) (params : List (CType B))

variable {B : Type}

namespace CType

def isVoid : CType B → Bool
  | void => true
  | _ => false

def isArray : CType B → Bool
  | array _ _ => true
  | _ => false

def isFunction : CType B → Bool
  | function _ _ => true
  | _ => false

end CType

/-- `pointer`, each star with its `type_qualifier_list`. -/
inductive Pointer where
  | star (quals : List TypeQualifier)
  | more (quals : List TypeQualifier) (rest : Pointer)

mutual
inductive Declarator (B : Type) where
  | pointer (ptr : Pointer)
  | direct (decl : Declarator2 B)
  | pointerDirect (ptr : Pointer) (decl : Declarator2 B)
/-- `abstract_declarator2`. A bound is the value of its expression; a function without a
`parameter_type_list` has no parameters. -/
inductive Declarator2 (B : Type) where
  | paren (decl : Declarator B)
  | array (bound : Int)
  | arrayOf (decl : Declarator2 B) (bound : Int)
  | function (params : List (TypeName B))
  | functionOf (decl : Declarator2 B) (params : List (TypeName B))
/-- `type_name`. The specifiers have been evaluated to a type, which need not be a named
one: a typedef may stand for any. -/
inductive TypeName (B : Type) where
  | plain (base : CType B)
  | declared (base : CType B) (decl : Declarator B)
end

inductive Exn where
  | badInterfaceCast
  | assertion
  | evalError (message : String)
  deriving DecidableEq

/-- An expression that evaluates to a type: a list of specifiers, or a declarator with its
`expr_` set. -/
inductive Expr (B : Type) where
  | typeSpec (type : CType B)
  | pointer (qual : Qualifier) (expr : Expr B)
  | array (bound : Int) (expr : Expr B)
  | function (expr : Expr B) (params : List (Expr B))

inductive Part (B : Type) where
  | pointer (qual : Qualifier)
  | array (bound : Int)
  | function (params : List (Expr B))

/-- The object after `expr_` has been set. -/
def Part.of : Part B → Expr B → Expr B
  | pointer qual, expr => .pointer qual expr
  | array bound, expr => .array bound expr
  | function params, expr => .function expr params

inductive AbstractDeclarator (B : Type) where
  | last (part : Part B)
  | link (part : Part B) (right : AbstractDeclarator B)

namespace AbstractDeclarator

def setRightNode : AbstractDeclarator B → AbstractDeclarator B → AbstractDeclarator B
  | last part, decl => link part decl
  | link part right, decl => link part (right.setRightNode decl)

def apply : AbstractDeclarator B → Expr B → Expr B
  | last part, expr => part.of expr
  | link part right, expr => right.apply (part.of expr)

end AbstractDeclarator

inductive Node (B : Type) where
  | declarator (decl : AbstractDeclarator B)
  | rightAssoc (child : Node B)

def Node.cast : Node B → Except Exn (AbstractDeclarator B)
  | declarator decl => .ok decl
  | rightAssoc _ => .error .badInterfaceCast

def combineDecl : Node B → Node B → Except Exn (Node B)
  | .rightAssoc child, rhs => do
    let decl ← child.cast
    let right ← rhs.cast
    return .declarator (right.setRightNode decl)
  | .declarator lhs, .declarator rhs => .ok (.declarator (lhs.setRightNode rhs))
  -- The cast of the pointer yields null, which `set_right_node` asserts that it is not.
  | .declarator _, .rightAssoc _ => .error .assertion

def Qualifier.add (qual : Qualifier) : TypeQualifier → Qualifier
  | .const => { qual with isConst := true }
  | .volatile => { qual with isVolatile := true }

def qualifierOf (quals : List TypeQualifier) : Qualifier :=
  quals.foldl Qualifier.add ⟨false, false⟩

/-- The actions of `pointer`, where no side of `combine_decl` is parenthesised. -/
def Pointer.chain : Pointer → AbstractDeclarator B
  | star quals => .last (.pointer (qualifierOf quals))
  | more quals rest =>
    (AbstractDeclarator.last (.pointer (qualifierOf quals))).setRightNode rest.chain

mutual
def Declarator.node : Declarator B → Except Exn (Node B)
  | .pointer ptr => .ok (.declarator ptr.chain)
  | .direct decl => decl.node
  | .pointerDirect ptr decl => do combineDecl (.declarator ptr.chain) (← decl.node)
def Declarator2.node : Declarator2 B → Except Exn (Node B)
  | .paren decl => do return .rightAssoc (← decl.node)
  | .array bound => .ok (.declarator (.last (.array bound)))
  | .arrayOf decl bound => do
    combineDecl (← decl.node) (.declarator (.last (.array bound)))
  | .function params => do return .declarator (.last (.function (← exprs params)))
  | .functionOf decl params => do
    let lhs ← decl.node
    combineDecl lhs (.declarator (.last (.function (← exprs params))))
def TypeName.expr : TypeName B → Except Exn (Expr B)
  | .plain base => .ok (.typeSpec base)
  | .declared base decl => do
    let decl ← (← decl.node).cast
    return decl.apply (.typeSpec base)
def exprs : List (TypeName B) → Except Exn (List (Expr B))
  | [] => .ok []
  | name :: names => do
    let expr ← name.expr
    return expr :: (← exprs names)
end

mutual
def eval : Expr B → Except Exn (CType B)
  | .typeSpec type => .ok type
  | .pointer qual expr => do return .pointer qual (← eval expr)
  | .array bound expr => do
    let elem ← eval expr
    if bound ≤ 0 then .error (.evalError "array of zero or negative size")
    else return .array bound elem
  | .function expr params => do
    let ret ← eval expr
    if ret.isFunction then .error (.evalError "function returning function")
    else return .function ret (← evalAll params)
/-- The loop over the parameters in `FunctionDeclarator::eval_impl`. -/
def evalAll : List (Expr B) → Except Exn (List (CType B))
  | [] => .ok []
  | expr :: list => do
    let type ← eval expr
    return type :: (← evalAll list)
end

def TypeName.type (name : TypeName B) : Except Exn (CType B) := do eval (← name.expr)

def CType.arrayOf (bound : Int) (elem : CType B) : Option (CType B) :=
  if 0 < bound ∧ elem.isFunction = false ∧ elem.isVoid = false then some (.array bound elem)
  else none

def CType.functionOf (params : List (CType B)) (ret : CType B) : Option (CType B) :=
  if ret.isFunction = false ∧ ret.isArray = false then some (.function ret params) else none

def CType.adjusted : CType B → CType B
  | .array _ elem => .pointer ⟨false, false⟩ elem
  | .function ret params => .pointer ⟨false, false⟩ (.function ret params)
  | type => type

def adjustAll : List (CType B) → Option (List (CType B))
  | [.void] => some []
  | types => if types.any CType.isVoid then none else some (types.map CType.adjusted)

/-- A pointer to the type on its left, with the qualifiers that are written after the star. -/
def Pointer.cType : Pointer → CType B → CType B
  | star quals, type => .pointer ⟨quals.contains .const, quals.contains .volatile⟩ type
  | more quals rest, type =>
    rest.cType (.pointer ⟨quals.contains .const, quals.contains .volatile⟩ type)

mutual
/-- The type that a declarator makes of the type on its left, unless C forbids it. The last suffix
of a direct declarator tells what the rest is made of. -/
def Declarator.cType : Declarator B → CType B → Option (CType B)
  | .pointer ptr, type => some (ptr.cType type)
  | .direct decl, type => decl.cType type
  | .pointerDirect ptr decl, type => decl.cType (ptr.cType type)
def Declarator2.cType : Declarator2 B → CType B → Option (CType B)
  | .paren decl, type => decl.cType type
  | .array bound, type => type.arrayOf bound
  | .arrayOf decl bound, type => do decl.cType (← type.arrayOf bound)
  | .function params, type => do type.functionOf (← adjustAll (← cTypes params))
  | .functionOf decl params, type => do
    decl.cType (← type.functionOf (← adjustAll (← cTypes params)))
def TypeName.cType : TypeName B → Option (CType B)
  | .plain base => some base
  | .declared base decl => decl.cType base
def cTypes : List (TypeName B) → Option (List (CType B))
  | [] => some []
  | name :: names => do
    let type ← name.cType
    return type :: (← cTypes names)
end

end ZeroBugs.Interp.AbstractDecl
