import ZeroBugs.Unmangle.Grammar
import ZeroBugs.Unmangle.QualifiedNames
import ZeroBugs.Unmangle.Substitutions

/-! # Codes of names and types -/
namespace ZeroBugs.Unmangle

def IsIdentifier (text : Text) : Prop :=
  text.head?.any isIdentStart = true ∧ text.all isIdentChar = true
  deriving Decidable

/-- An identifier without the beginning that anonymous namespaces have. -/
def IsPart (text : Text) : Prop := IsIdentifier text ∧ ¬"_GLOBAL_".toList <+: text
  deriving Decidable

section Identifiers

variable {text : Text}

theorem IsIdentifier.cons (h : IsIdentifier text) :
    ∃ c name, text = c :: name ∧ isIdentStart c = true := by
  obtain ⟨hstart, -⟩ := h
  cases text with
  | nil => exact absurd hstart (by decide)
  | cons c name => exact ⟨c, name, rfl, hstart⟩

theorem IsIdentifier.isIdentChar (h : IsIdentifier text) : ∀ c ∈ text, isIdentChar c = true :=
  List.all_eq_true.mp h.2

end Identifiers

def mangledParts (parts : List Text) : Text := parts.flatMap mangledPart

theorem mangledParts_cons (part : Text) (parts : List Text) :
    mangledParts (part :: parts) = mangledPart part ++ mangledParts parts := List.flatMap_cons

/-- What the prefixes of a nested name are recorded as, from `text` on. -/
def prefixEntries (text : Text) : List Text → List Entry
  | [] => []
  | part :: parts => ⟨text, true⟩ :: prefixEntries (text ++ "::".toList ++ part) parts

/-- A nested name, without the qualifiers that may stand in front of it. -/
structure NestedName where
  first : Text
  rest : List Text
  parts : ∀ part ∈ first :: rest, IsPart part
  deriving DecidableEq

namespace NestedName

def text (n : NestedName) : Text := n.first ++ qualifiedRest n.rest

def code (n : NestedName) : Text := mangledParts (n.first :: n.rest)

def entries (n : NestedName) : List Entry := prefixEntries n.first n.rest

end NestedName

def CvQualifier.codes (cvs : List CvQualifier) : Text := cvs.map CvQualifier.code

def Mark.code : Mark → Text
  | .indirection kind => [kind.code]
  | .qualifiers q more => CvQualifier.codes (q :: more)

def marksCode (marks : List Mark) : Text := marks.flatMap Mark.code

def Separated : List Mark → Prop
  | .qualifiers _ _ :: .qualifiers _ _ :: _ => False
  | _ :: marks => Separated marks
  | [] => True

theorem Separated.tail {m : Mark} {marks : List Mark} (h : Separated (m :: marks)) :
    Separated marks := by
  cases m with
  | indirection kind => exact h
  | qualifiers q more =>
    cases marks with
    | nil => trivial
    | cons m marks =>
      cases m with
      | indirection kind => exact h
      | qualifiers q more => exact h.elim

theorem Separated.of_initial {marks marks' : List Mark} (h : Separated marks)
    (hinitial : marks' <+: marks) : Separated marks' := by
  induction marks' generalizing marks with
  | nil => trivial
  | cons m marks' ih =>
    obtain ⟨rest, rfl⟩ := hinitial
    have htail : Separated marks' := ih h.tail (List.prefix_append _ _)
    cases m with
    | indirection kind => exact htail
    | qualifiers q more =>
      cases marks' with
      | nil => trivial
      | cons m marks' =>
        cases m with
        | indirection kind => exact htail
        | qualifiers q more => exact h.elim

structure Builtin where
  code : Char
  text : String
  known : builtinTable code = some text
  deriving DecidableEq

def builtinCodes : List Char := "abcdefghijlmnostvwxyz".toList

theorem Builtin.code_mem (b : Builtin) : b.code ∈ builtinCodes := by
  have hknown := b.known
  unfold builtinTable at hknown
  split at hknown
  case h_22 => exact absurd hknown (by simp)
  all_goals
    next hcode =>
      rw [hcode]
      decide

def builtinTexts : List Text := (builtinCodes.filterMap builtinTable).map String.toList

theorem Builtin.text_mem (b : Builtin) : b.text.toList ∈ builtinTexts :=
  List.mem_map_of_mem (List.mem_filterMap.mpr ⟨b.code, b.code_mem, b.known⟩)

inductive NamedType where
  | builtin (b : Builtin)
  | unscoped (name : Text) (identifier : IsIdentifier name)
  | nested (name : NestedName)
  deriving DecidableEq

namespace NamedType

def text : NamedType → Text
  | builtin b => b.text.toList
  | unscoped name _ => name
  | nested name => name.text

def code : NamedType → Text
  | builtin b => [b.code]
  | unscoped name _ => mangledPart name
  | nested name => 'N' :: name.code ++ ['E']

/-- The substitutions for the type and for what it is nested in. Builtin types have
none. -/
def entries : NamedType → List Entry
  | builtin _ => []
  | unscoped name _ => [⟨name, true⟩]
  | nested name => name.entries ++ [⟨name.text, true⟩]

end NamedType

def seqDigit (n : Nat) : Char := Char.ofNat (if n < 10 then 48 + n else 55 + n)

def seqDigits (n : Nat) : Text :=
  if n < 36 then [seqDigit n] else seqDigits (n / 36) ++ [seqDigit (n % 36)]
  termination_by n

def seqId : (i : Nat) → Text
  | 0 => []
  | i + 1 => seqDigits i

def substCode (i : Nat) : Text := 'S' :: (seqId i ++ ['_'])

inductive TypeBase where
  | named (type : NamedType)
  | subst (i : Nat)

namespace TypeBase

def code : TypeBase → Text
  | named type => type.code
  | subst i => substCode i

def text (dict : List Text) : TypeBase → Text
  | named type => type.text
  | subst i => dict.getD i []

def entries : TypeBase → List Entry
  | named type => type.entries
  | subst _ => []

def scopes : TypeBase → Nat
  | named (.builtin _) => 0
  | named (.unscoped _ _) => 1
  | named (.nested _) => 2
  | subst _ => 0

end TypeBase

inductive FunctionName where
  | unscoped (name : Text) (part : IsPart name)
  | nested (quals : List CvQualifier) (name : NestedName)

namespace FunctionName

def code : FunctionName → Text
  | unscoped name _ => mangledPart name
  | nested quals name => 'N' :: (CvQualifier.codes quals ++ (name.code ++ ['E']))

def text : FunctionName → Text
  | unscoped name _ => name
  | nested _ name => name.text

def quals : FunctionName → Text
  | unscoped _ _ => []
  | nested quals _ => cvText quals

def entries : FunctionName → List Entry
  | unscoped _ _ => []
  | nested _ name => name.entries

end FunctionName

end ZeroBugs.Unmangle
