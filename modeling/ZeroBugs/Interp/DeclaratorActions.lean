import ZeroBugs.Interp.AbstractDecl

/-! # What the actions on declarators amount to -/
namespace ZeroBugs.Interp.AbstractDecl

variable {B : Type}

theorem bind_eq_ok {α β : Type} {x : Except Exn α} {f : α → Except Exn β} {b : β} :
    x >>= f = .ok b ↔ ∃ a, x = .ok a ∧ f a = .ok b := by
  cases x with
  | error e => exact ⟨nofun, fun ⟨_, h, _⟩ => nomatch h⟩
  | ok a => exact ⟨fun h => ⟨a, rfl, h⟩, fun ⟨_, rfl, h⟩ => h⟩

def AbstractDeclarator.parts : AbstractDeclarator B → List (Part B)
  | last part => [part]
  | link part right => part :: right.parts

@[simp] theorem parts_setRightNode (d e : AbstractDeclarator B) :
    (d.setRightNode e).parts = d.parts ++ e.parts := by
  induction d with
  | last part => rfl
  | link part right ih => simp [AbstractDeclarator.setRightNode, AbstractDeclarator.parts, ih]

/-- The part's `eval_impl`, after the expression below has been evaluated. -/
def Part.eval : Part B → CType B → Except Exn (CType B)
  | pointer qual, type => .ok (.pointer qual type)
  | array bound, type =>
    if bound ≤ 0 then .error (.evalError "array of zero or negative size")
    else .ok (.array bound type)
  | function params, type =>
    if type.isFunction then .error (.evalError "function returning function")
    else do return .function type (← evalAll params)

def evalParts : List (Part B) → CType B → Except Exn (CType B)
  | [], type => .ok type
  | part :: parts, type => do evalParts parts (← part.eval type)

theorem eval_of (part : Part B) (expr : Expr B) :
    AbstractDecl.eval (part.of expr) = AbstractDecl.eval expr >>= part.eval := by
  cases part <;> rfl

theorem eval_apply (d : AbstractDeclarator B) (expr : Expr B) :
    AbstractDecl.eval (d.apply expr) = AbstractDecl.eval expr >>= evalParts d.parts := by
  induction d generalizing expr with
  | last part =>
    rw [AbstractDeclarator.apply, eval_of]
    congr 1
    funext type
    exact (bind_pure _).symm
  | link part right ih =>
    rw [AbstractDeclarator.apply, ih, eval_of, bind_assoc]
    rfl

theorem evalParts_append (L M : List (Part B)) (type : CType B) :
    evalParts (L ++ M) type = evalParts L type >>= evalParts M := by
  induction L generalizing type with
  | nil => rfl
  | cons part L ih =>
    rw [List.cons_append, evalParts, evalParts, bind_assoc]
    congr 1
    funext t
    exact ih t

def Node.wrap (inParens : Bool) (d : AbstractDeclarator B) : Node B :=
  if inParens then .rightAssoc (.declarator d) else .declarator d

def Declarator2.isParen : Declarator2 B → Bool
  | .paren _ => true
  | _ => false

def Declarator.Gives (decl : Declarator B) (type result : CType B) : Prop :=
  ∃ d, decl.node = .ok (.declarator d) ∧ evalParts d.parts type = .ok result

def Declarator2.Gives (decl : Declarator2 B) (type result : CType B) : Prop :=
  ∃ d, decl.node = .ok (Node.wrap decl.isParen d) ∧ evalParts d.parts type = .ok result

def ParamsGive (params : List (TypeName B)) (types : List (CType B)) : Prop :=
  ∃ es, exprs params = .ok es ∧ evalAll es = .ok types

theorem combineDecl_eq_ok {node : Node B} {p : AbstractDeclarator B} {n : Node B} :
    combineDecl (.declarator p) node = .ok n ↔
      ∃ d, node = .declarator d ∧ n = .declarator (p.setRightNode d) := by
  cases node with
  | declarator d => simp [combineDecl, eq_comm]
  | rightAssoc child => simp [combineDecl]

theorem combineDecl_last {node : Node B} {part : Part B} {n : Node B} :
    combineDecl node (.declarator (.last part)) = .ok n ↔
      ∃ inParens d, node = Node.wrap inParens d ∧
        n = .declarator (if inParens then .link part d else d.setRightNode (.last part)) := by
  constructor
  · intro h
    cases node with
    | declarator d => exact ⟨false, d, rfl, by simpa [combineDecl, eq_comm] using h⟩
    | rightAssoc child =>
      cases child with
      | declarator d => exact ⟨true, d, rfl, (Except.ok.inj h).symm⟩
      | rightAssoc _ => exact nomatch h
  · rintro ⟨inParens, d, rfl, rfl⟩
    cases inParens <;> rfl

theorem Declarator2.isParen_of_node {decl : Declarator2 B} {inParens : Bool}
    {d : AbstractDeclarator B} (h : decl.node = .ok (Node.wrap inParens d)) :
    inParens = decl.isParen := by
  cases decl with
  | paren D =>
    obtain ⟨n, -, hn⟩ := bind_eq_ok.mp h
    cases inParens with
    | true => rfl
    | false => cases hn
  | array bound =>
    cases inParens with
    | true => cases h
    | false => rfl
  | arrayOf decl bound =>
    obtain ⟨n, -, hn⟩ := bind_eq_ok.mp h
    obtain ⟨_, _, -, hn⟩ := combineDecl_last.mp hn
    cases inParens with
    | true => cases hn
    | false => rfl
  | function params =>
    obtain ⟨n, -, hn⟩ := bind_eq_ok.mp h
    cases inParens with
    | true => cases hn
    | false => rfl
  | functionOf decl params =>
    obtain ⟨n, -, hn⟩ := bind_eq_ok.mp h
    obtain ⟨es, -, hn⟩ := bind_eq_ok.mp hn
    obtain ⟨_, _, -, hn⟩ := combineDecl_last.mp hn
    cases inParens with
    | true => cases hn
    | false => rfl

theorem foldl_add (quals : List TypeQualifier) (qual : Qualifier) :
    quals.foldl Qualifier.add qual =
      ⟨qual.isConst || quals.contains .const, qual.isVolatile || quals.contains .volatile⟩ := by
  induction quals generalizing qual with
  | nil => simp
  | cons t quals ih =>
    rw [List.foldl_cons, ih]
    cases t <;> simp [Qualifier.add]

theorem qualifierOf_eq (quals : List TypeQualifier) :
    qualifierOf quals = ⟨quals.contains .const, quals.contains .volatile⟩ := by
  simp [qualifierOf, foldl_add]

theorem evalParts_chain (ptr : Pointer) (type : CType B) :
    evalParts ptr.chain.parts type = .ok (ptr.cType type) := by
  induction ptr generalizing type with
  | star quals => simp [Pointer.chain, AbstractDeclarator.parts, evalParts, Part.eval,
      Pointer.cType, qualifierOf_eq, bind, Except.bind]
  | more quals rest ih =>
    rw [Pointer.chain, parts_setRightNode, evalParts_append, Pointer.cType, ← ih]
    simp [AbstractDeclarator.parts, evalParts, Part.eval, qualifierOf_eq, bind, Except.bind]

theorem evalParts_single {part : Part B} {type result : CType B} :
    evalParts [part] type = .ok result ↔ part.eval type = .ok result := by
  constructor
  · intro h
    obtain ⟨t, ht, he⟩ := bind_eq_ok.mp h
    cases he
    exact ht
  · exact fun h => bind_eq_ok.mpr ⟨result, h, rfl⟩

section Gives

variable {ptr : Pointer} {D : Declarator B} {decl : Declarator2 B} {bound : Int}
  {params : List (TypeName B)} {type result : CType B}

theorem gives_pointer : (Declarator.pointer ptr).Gives type result ↔
    ptr.cType type = result := by
  constructor
  · rintro ⟨d, hd, he⟩
    cases hd
    rw [evalParts_chain] at he
    exact Except.ok.inj he
  · rintro rfl
    exact ⟨ptr.chain, rfl, evalParts_chain ptr type⟩

theorem gives_direct : (Declarator.direct decl).Gives type result ↔
    decl.isParen = false ∧ decl.Gives type result := by
  constructor
  · rintro ⟨d, hd, he⟩
    have hparen : false = decl.isParen := Declarator2.isParen_of_node hd
    exact ⟨hparen.symm, d, hparen ▸ hd, he⟩
  · rintro ⟨hparen, d, hd, he⟩
    rw [hparen] at hd
    exact ⟨d, hd, he⟩

theorem gives_pointerDirect : (Declarator.pointerDirect ptr decl).Gives type result ↔
    decl.isParen = false ∧ decl.Gives (ptr.cType type) result := by
  constructor
  · rintro ⟨d, hd, he⟩
    obtain ⟨n, hn, hd⟩ := bind_eq_ok.mp hd
    obtain ⟨d', rfl, hd⟩ := combineDecl_eq_ok.mp hd
    cases hd
    rw [parts_setRightNode, evalParts_append, evalParts_chain] at he
    have hparen : false = decl.isParen := Declarator2.isParen_of_node hn
    exact ⟨hparen.symm, d', hparen ▸ hn, he⟩
  · rintro ⟨hparen, d, hd, he⟩
    rw [hparen] at hd
    refine ⟨ptr.chain.setRightNode d, ?_, ?_⟩
    · exact bind_eq_ok.mpr ⟨_, hd, rfl⟩
    · rw [parts_setRightNode, evalParts_append, evalParts_chain]
      exact he

theorem gives_paren : (Declarator2.paren D).Gives type result ↔ D.Gives type result := by
  constructor
  · rintro ⟨d, hd, he⟩
    obtain ⟨n, hn, hd⟩ := bind_eq_ok.mp hd
    cases hd
    exact ⟨d, hn, he⟩
  · rintro ⟨d, hd, he⟩
    exact ⟨d, bind_eq_ok.mpr ⟨_, hd, rfl⟩, he⟩

theorem eval_array {elem : CType B} : (Part.array bound).eval type = .ok elem ↔
    0 < bound ∧ elem = .array bound type := by
  rw [Part.eval]
  split
  · simp; omega
  · simp [eq_comm]; omega

theorem gives_array : (Declarator2.array bound : Declarator2 B).Gives type result ↔
    0 < bound ∧ result = .array bound type := by
  rw [← eval_array, ← evalParts_single]
  constructor
  · rintro ⟨d, hd, he⟩
    cases hd
    exact he
  · exact fun he => ⟨_, rfl, he⟩

/-- What a suffix does: after parentheses it comes first in the chain, elsewhere last. -/
def Suffixed (decl : Declarator2 B) (part : Part B) (type result : CType B) : Prop :=
  if decl.isParen then ∃ t, part.eval type = .ok t ∧ decl.Gives t result
  else ∃ t, decl.Gives type t ∧ part.eval t = .ok result

theorem Suffixed.gives {part : Part B} (h : Suffixed decl part type result) :
    ∃ t r, decl.Gives t r := by
  rw [Suffixed] at h
  split at h
  · obtain ⟨t, -, hgives⟩ := h
    exact ⟨t, result, hgives⟩
  · obtain ⟨t, hgives, -⟩ := h
    exact ⟨type, t, hgives⟩

theorem combined_gives {part : Part B} :
    (∃ lhs d, decl.node = .ok lhs ∧
      combineDecl lhs (.declarator (.last part)) = .ok (.declarator d) ∧
      evalParts d.parts type = .ok result) ↔ Suffixed decl part type result := by
  constructor
  · rintro ⟨lhs, d, hlhs, hd, he⟩
    obtain ⟨inParens, d', rfl, hn⟩ := combineDecl_last.mp hd
    obtain rfl := Declarator2.isParen_of_node hlhs
    obtain rfl := Node.declarator.inj hn
    rw [Suffixed]
    split
    next hp =>
      rw [if_pos hp] at he
      obtain ⟨t, ht, he⟩ := bind_eq_ok.mp he
      exact ⟨t, ht, d', hlhs, he⟩
    next hp =>
      rw [if_neg hp, parts_setRightNode, evalParts_append] at he
      obtain ⟨t, ht, he⟩ := bind_eq_ok.mp he
      exact ⟨t, ⟨d', hlhs, ht⟩, evalParts_single.mp he⟩
  · rw [Suffixed]
    split
    next hp =>
      rintro ⟨t, ht, d, hd, he⟩
      refine ⟨_, _, hd, combineDecl_last.mpr ⟨_, _, rfl, rfl⟩, ?_⟩
      rw [if_pos hp]
      exact bind_eq_ok.mpr ⟨t, ht, he⟩
    next hp =>
      rintro ⟨t, ⟨d, hd, ht⟩, he⟩
      refine ⟨_, _, hd, combineDecl_last.mpr ⟨_, _, rfl, rfl⟩, ?_⟩
      rw [if_neg hp, parts_setRightNode, evalParts_append]
      exact bind_eq_ok.mpr ⟨t, ht, evalParts_single.mpr he⟩

theorem gives_arrayOf : (Declarator2.arrayOf decl bound).Gives type result ↔
    Suffixed decl (.array bound) type result := by
  rw [← combined_gives]
  constructor
  · rintro ⟨d, hd, he⟩
    obtain ⟨lhs, hlhs, hd⟩ := bind_eq_ok.mp hd
    exact ⟨lhs, d, hlhs, hd, he⟩
  · rintro ⟨lhs, d, hlhs, hd, he⟩
    exact ⟨d, bind_eq_ok.mpr ⟨lhs, hlhs, hd⟩, he⟩

theorem gives_function : (Declarator2.function params).Gives type result ↔
    ∃ es, exprs params = .ok es ∧ (Part.function es).eval type = .ok result := by
  constructor
  · rintro ⟨d, hd, he⟩
    obtain ⟨es, hes, hd⟩ := bind_eq_ok.mp hd
    cases hd
    exact ⟨es, hes, evalParts_single.mp he⟩
  · rintro ⟨es, hes, he⟩
    exact ⟨_, bind_eq_ok.mpr ⟨es, hes, rfl⟩, evalParts_single.mpr he⟩

theorem gives_functionOf : (Declarator2.functionOf decl params).Gives type result ↔
    ∃ es, exprs params = .ok es ∧ Suffixed decl (.function es) type result := by
  constructor
  · rintro ⟨d, hd, he⟩
    obtain ⟨lhs, hlhs, hd⟩ := bind_eq_ok.mp hd
    obtain ⟨es, hes, hd⟩ := bind_eq_ok.mp hd
    exact ⟨es, hes, combined_gives.mp ⟨lhs, d, hlhs, hd, he⟩⟩
  · rintro ⟨es, hes, he⟩
    obtain ⟨lhs, d, hlhs, hd, he⟩ := combined_gives.mpr he
    exact ⟨d, bind_eq_ok.mpr ⟨lhs, hlhs, bind_eq_ok.mpr ⟨es, hes, hd⟩⟩, he⟩

theorem eval_function {es : List (Expr B)} : (Part.function es).eval type = .ok result ↔
    type.isFunction = false ∧ ∃ types, evalAll es = .ok types ∧
      result = .function type types := by
  rw [Part.eval]
  cases type.isFunction with
  | true => simp
  | false =>
    simp only [Bool.false_eq_true, if_false, true_and, bind_eq_ok]
    simp [pure, Except.pure, eq_comm]

theorem type_declared {base : CType B} :
    (TypeName.declared base D).type = .ok result ↔ D.Gives base result := by
  constructor
  · intro h
    obtain ⟨expr, hexpr, he⟩ := bind_eq_ok.mp h
    obtain ⟨n, hn, hexpr⟩ := bind_eq_ok.mp hexpr
    obtain ⟨d, hd, hexpr⟩ := bind_eq_ok.mp hexpr
    cases n with
    | rightAssoc child => cases hd
    | declarator d' =>
      cases hd
      cases hexpr
      rw [eval_apply] at he
      exact ⟨_, hn, he⟩
  · rintro ⟨d, hd, he⟩
    refine bind_eq_ok.mpr ⟨d.apply (.typeSpec base), ?_, ?_⟩
    · exact bind_eq_ok.mpr ⟨_, hd, rfl⟩
    · rw [eval_apply]
      exact he

theorem paramsGive_nil {types : List (CType B)} :
    ParamsGive ([] : List (TypeName B)) types ↔ types = [] := by
  constructor
  · rintro ⟨es, hes, he⟩
    cases hes
    cases he
    rfl
  · rintro rfl
    exact ⟨[], rfl, rfl⟩

theorem paramsGive_cons {name : TypeName B} {types : List (CType B)} :
    ParamsGive (name :: params) types ↔
      ∃ t ts, name.type = .ok t ∧ ParamsGive params ts ∧ types = t :: ts := by
  constructor
  · rintro ⟨es, hes, he⟩
    obtain ⟨expr, hexpr, hes⟩ := bind_eq_ok.mp hes
    obtain ⟨es', hes', hes⟩ := bind_eq_ok.mp hes
    cases hes
    obtain ⟨t, ht, he⟩ := bind_eq_ok.mp he
    obtain ⟨ts, hts, he⟩ := bind_eq_ok.mp he
    cases he
    exact ⟨t, ts, bind_eq_ok.mpr ⟨expr, hexpr, ht⟩, ⟨es', hes', hts⟩, rfl⟩
  · rintro ⟨t, ts, ht, ⟨es, hes, hts⟩, rfl⟩
    obtain ⟨expr, hexpr, ht⟩ := bind_eq_ok.mp ht
    refine ⟨expr :: es, ?_, ?_⟩
    · exact bind_eq_ok.mpr ⟨expr, hexpr, bind_eq_ok.mpr ⟨es, hes, rfl⟩⟩
    · exact bind_eq_ok.mpr ⟨t, ht, bind_eq_ok.mpr ⟨ts, hts, rfl⟩⟩

end Gives

end ZeroBugs.Interp.AbstractDecl
