import ZeroBugs.Lib.NumberText
import ZeroBugs.Unmangle.Output

/-! # Partial encoder -/
namespace ZeroBugs.Unmangle.Encoder

open Lib.NumberText

inductive Scheme where
  | v3Abi
  | oldGcc
  deriving DecidableEq

inductive ComponentType where
  | normal
  | ctor
  | dtor
  | templateArg
  deriving DecidableEq

/-- `Component`. The parent is given by its place; the children are the components that
have it as their parent. -/
structure Component where
  name : Text
  type : ComponentType
  isTemplate : Bool
  parent : Option Nat
  deriving DecidableEq

inductive Fault where
  | assertion
  deriving DecidableEq

def builtinSubst : List (Text × Text) :=
  [("__float128".toList, "g".toList), ("char".toList, "c".toList), ("double".toList, "d".toList),
   ("float".toList, "f".toList), ("int".toList, "i".toList), ("std".toList, "St".toList),
   ("allocator".toList, "Sa".toList), ("basic_string".toList, "Sb".toList),
   ("basic_string<char, char_traits<char>, allocator<char> >".toList, "Ss".toList),
   ("basic_istream<char, char_traits<char> >".toList, "Si".toList),
   ("basic_ostream<char, char_traits<char> >".toList, "So".toList),
   ("basic_iostream<char, char_traits<char> >".toList, "Sd".toList)]

/-- The variables of `tokenize`, and the members that it changes. -/
structure Tokenizer where
  name : Text
  parent : Option Nat
  templateStack : List Nat
  components : List Component
  hasTemplate : Bool
  depth : Nat

def topLevel (components : List Component) : (fuel i : Nat) → Option Component
  | 0, i => components[i]?
  | fuel + 1, i =>
    match components[i]? with
    | some c =>
      match c.parent with
      | some parent => topLevel components fuel parent
      | none => some c
    | none => none

/-- The component before has the same name, so this one is its constructor. -/
def isCtorName (t : Tokenizer) (name : Text) : Bool :=
  (match t.parent with
    | some parent => (t.components[parent]?).any (·.type ≠ .templateArg)
    | none => true) &&
  (topLevel t.components t.components.length (t.components.length - 1)).any (·.name = name)

def startsComponent (c : Char) : Bool := c.isAlphanum || c = '_' || c = '*' || c = '&'

def componentOf (scheme : Scheme) (first last : Text) (t : Tokenizer) : Except Fault Component :=
  let name := first.take (first.length - last.length)
  if first.head? = some '~' then
    .ok ⟨if scheme = .oldGcc then name else "D1".toList, .dtor, false, t.parent⟩
  else if first.head?.any startsComponent = false then .error .assertion
  else if isCtorName t name then
    .ok ⟨if scheme = .oldGcc then [] else "C1".toList, .ctor, false, t.parent⟩
  else .ok ⟨name, .normal, false, t.parent⟩

def skipSeparator (first : Text) : Text :=
  if first.head? = some ':' ∨ first.head? = some ' ' then first.tail else first

def Tokenizer.push (t : Tokenizer) (c : Component) : Tokenizer :=
  { t with components := t.components ++ [c]
           depth := if t.parent = none then t.depth + 1 else t.depth }

/-- `add_component`: the place of the new component, or `none` for a null pointer -/
def addComponent (scheme : Scheme) (first last : Text) (t : Tokenizer) :
    Except Fault (Option Nat × Tokenizer) :=
  if first.length < last.length then .error .assertion
  else if first.length = last.length then .ok (none, t)
  else do
    let c ← componentOf scheme (skipSeparator first) last t
    pure (some t.components.length, t.push c)

/-- `add_component` where the result is not used -/
def addNext (scheme : Scheme) (first last : Text) (t : Tokenizer) : Except Fault Tokenizer := do
  let r ← addComponent scheme first last t
  pure r.2

/-- `add_component` under a condition -/
def addIf (scheme : Scheme) (c : Bool) (first last : Text) (t : Tokenizer) :
    Except Fault Tokenizer :=
  if c then addNext scheme first last t else .ok t

def addTemplateArg (parent : Nat) (t : Tokenizer) : Tokenizer :=
  { t with components := t.components ++ [⟨[], .templateArg, false, some parent⟩]
           templateStack := t.components.length :: t.templateStack
           parent := some t.components.length }

section Tokens

variable (scheme : Scheme)

def onColon (p rest : Text) (t : Tokenizer) : Except Fault Tokenizer := do
  let t ← addIf scheme (p.length < t.name.length) t.name p t
  pure { t with name := if rest.head? = some ':' then rest else p }

def onPointer (p rest : Text) (t : Tokenizer) : Except Fault Tokenizer := do
  let t ← addNext scheme t.name p t
  let t ← addNext scheme p rest t
  pure { t with name := rest }

def onOpen (p rest : Text) (t : Tokenizer) : Except Fault Tokenizer := do
  let r ← addComponent scheme t.name p t
  match r with
  | (none, t) => pure t
  | (some i, t) =>
    let t := { t with components := t.components.modify i fun c => { c with isTemplate := true }
                      templateStack := i :: t.templateStack }
    pure { addTemplateArg i t with name := rest, hasTemplate := true }

/-- The end of the arguments: the node of the last one and that of the template are
dropped. -/
def popTemplate (rest : Text) (t : Tokenizer) : Except Fault Tokenizer :=
  match t.templateStack with
  | _ :: _ :: stack => .ok { t with templateStack := stack, parent := stack.head?, name := rest }
  | _ => .error .assertion

def onClose (p rest : Text) (t : Tokenizer) : Except Fault Tokenizer :=
  if t.hasTemplate = false then .error .assertion
  else do
    let name := t.name.dropWhile fun c => c = '>' || c = ' '
    let t ← addIf scheme (p.length < name.length) name p t
    popTemplate rest t

/-- A node for the next argument of a template takes the place of the last one. -/
def nextTemplateArg (t : Tokenizer) : Except Fault Tokenizer :=
  if t.hasTemplate then
    match t.templateStack with
    | _ :: i :: stack => .ok (addTemplateArg i { t with templateStack := i :: stack })
    | _ => .error .assertion
  else .ok t

def onComma (p rest : Text) (t : Tokenizer) : Except Fault Tokenizer := do
  let t ← addNext scheme t.name p t
  nextTemplateArg { t with name := rest }

def onSpace (p rest : Text) (t : Tokenizer) : Except Fault Tokenizer := do
  let t ← addIf scheme
    (t.name.head? ≠ some ' ' && t.name.head? ≠ some ',' && t.name.head? ≠ some '>') t.name p t
  pure { t with name := rest }

def onChar (c : Char) (p rest : Text) (t : Tokenizer) : Except Fault Tokenizer :=
  match c with
  | ':' => onColon scheme p rest t
  | '*' | '&' => onPointer scheme p rest t
  | '<' => onOpen scheme p rest t
  | '>' => onClose scheme p rest t
  | ',' => onComma scheme p rest t
  | ' ' => onSpace scheme p rest t
  | _ => .ok t

/-- The loop of `tokenize`, which ends at the parameters of a function. -/
def tokenizeLoop : (p : Text) → Tokenizer → Except Fault Tokenizer
  | [], t => addIf scheme (t.name ≠ []) t.name [] t
  | c :: rest, t =>
    if c = '(' then addIf scheme ((c :: rest).length < t.name.length) t.name (c :: rest) t
    else do
      let t ← onChar scheme c (c :: rest) rest t
      tokenizeLoop rest t

def tokenize (symbol : Text) : Except Fault Tokenizer :=
  tokenizeLoop scheme symbol ⟨symbol, none, [], [], false, 0⟩

end Tokens

/-- A numeric template parameter, of type `double` if a period follows the number. -/
def encodeNumber (name : Text) : Text :=
  if name[(scanNumber name).used]? = some '.' then "Ld".toList ++ name ++ "E".toList
  else "Li".toList ++ name ++ "E".toList

def encodeName (name : Text) : Except Fault Text :=
  if name = [] then .error .assertion
  else if name.head?.any Char.isDigit then .ok (encodeNumber name)
  else if name = "true".toList then .ok "Lb1E".toList
  else if name = "false".toList then .ok "Lb0E".toList
  else match builtinSubst.lookup name with
    | some code => .ok code
    | none => .ok (Nat.toDigits 10 name.length ++ name)

def encodeSelf (c : Component) : Except Fault Text :=
  if c.type = .ctor ∨ c.type = .dtor then .ok c.name
  else if c.name = "const".toList ∨ c.name = "volatile".toList ∨ c.name = "*".toList ∨
    c.name = "&".toList then .error .assertion
  else encodeName c.name

/-- `encode` for a component that stands in no template argument: where it has children,
it ends with the `I` before them. -/
def encode (c : Component) (hasChildren : Bool) : Except Fault Text := do
  let name ← encodeSelf c
  pure (if hasChildren then name ++ "I".toList else name)

/-- The loop of `run`, from the component at place `i` on: the text, and whether the `E` may follow,
which it does not behind a template or before an operator. -/
def encodeAll (components : List Component) : (i : Nat) → List Component →
    Except Fault (Text × Bool)
  | _, [] => .ok ([], true)
  | i, c :: rest =>
    if c.parent ≠ none then encodeAll components (i + 1) rest
    else if "operator".toList.isPrefixOf c.name then .ok ([], false)
    else do
      let text ← encode c (components.any (·.parent = some i))
      if c.isTemplate then pure (text, false)
      else
        let r ← encodeAll components (i + 1) rest
        pure (text ++ r.1, r.2)

def runV3 (t : Tokenizer) : Except Fault Text := do
  let r ← encodeAll t.components 0 t.components
  pure ("_Z".toList ++ (if 1 < t.depth then "N".toList else []) ++ r.1 ++
    (if r.2 = true ∧ 1 < t.depth then "E".toList else []))

/-- The class in front of which the member's name stands in the old scheme. -/
def encodeOldClass (t : Tokenizer) (klass : Component) (qual : Text) : Text :=
  "__".toList ++ qual ++
  (if 2 < t.depth then
    "Q".toList ++ (if 10 < t.depth then "_".toList else []) ++ Nat.toDigits 10 (t.depth - 1)
   else []) ++
  (if klass.isTemplate then "t".toList else []) ++
  Nat.toDigits 10 klass.name.length ++ klass.name ++
  (if klass.isTemplate then
    Nat.toDigits 10 (t.components.countP (·.parent = some 0)) else [])

/-- `run` for `kOldGcc`: the last component that stands in no template argument comes
first. -/
def runOld (t : Tokenizer) (qual : Text) : Text :=
  match t.components.zipIdx.reverse.find? (·.1.parent = none), t.components.head? with
  | some (last, i), some klass =>
    last.name ++ if 0 < i then encodeOldClass t klass qual else []
  | _, _ => []

def run (scheme : Scheme) (symbol qual : Text) : Except Fault Text := do
  let t ← tokenize scheme symbol
  match scheme with
  | .v3Abi => runV3 t
  | .oldGcc => pure (runOld t qual)

end ZeroBugs.Unmangle.Encoder
