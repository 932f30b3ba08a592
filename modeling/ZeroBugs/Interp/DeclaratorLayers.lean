import ZeroBugs.Interp.DeclaratorActions

/-! # The layers that a declarator puts around a type -/
namespace ZeroBugs.Interp.AbstractDecl
open List

variable {B : Type}

/-- What a part of a declarator adds to a type, but for qualifiers and parameters. -/
inductive Layer where
  | pointer
  | array (bound : Int)
  | function
  deriving DecidableEq

def Layer.isArray : Layer → Bool
  | array _ => true
  | _ => false

def CType.outer : CType B → Option (Layer × CType B)
  | void | named _ => none
  | pointer _ target => some (.pointer, target)
  | array count elem => some (.array count, elem)
  | function ret _ => some (.function, ret)

def Wraps : List Layer → CType B → CType B → Prop
  | [], base, type => type = base
  | layer :: layers, base, type => ∃ t, t.outer = some (layer, base) ∧ Wraps layers t type

theorem wraps_append {L M : List Layer} {base type : CType B} :
    Wraps (L ++ M) base type ↔ ∃ t, Wraps L base t ∧ Wraps M t type := by
  induction L generalizing base with
  | nil => simp [Wraps]
  | cons layer L ih =>
    simp only [cons_append, Wraps, ih]
    constructor
    · rintro ⟨s, hs, t, hst, ht⟩
      exact ⟨t, ⟨s, hs, hst⟩, ht⟩
    · rintro ⟨t, ⟨s, hs, hst⟩, ht⟩
      exact ⟨s, hs, t, hst, ht⟩

theorem wraps_singleton {layer : Layer} {base type : CType B} :
    Wraps [layer] base type ↔ type.outer = some (layer, base) := by
  simp [Wraps]

theorem Wraps.unique {L M : List Layer} {base base' type : CType B} (h : Wraps L base type)
    (h' : Wraps M base' type) (hlen : L.length = M.length) : L = M ∧ base = base' := by
  induction L using List.reverseRecOn generalizing M type with
  | nil =>
    obtain rfl := eq_nil_of_length_eq_zero hlen.symm
    exact ⟨rfl, h.symm.trans h'⟩
  | append_singleton L layer ih =>
    obtain rfl | ⟨M, layer', rfl⟩ := M.eq_nil_or_concat'
    · simp at hlen
    · obtain ⟨t, ht, hlast⟩ := wraps_append.mp h
      obtain ⟨t', ht', hlast'⟩ := wraps_append.mp h'
      rw [wraps_singleton] at hlast hlast'
      obtain ⟨rfl, rfl⟩ : layer = layer' ∧ t = t' := by simpa [hlast] using hlast'
      obtain ⟨rfl, rfl⟩ := ih ht ht' (by simpa using hlen)
      exact ⟨rfl, rfl⟩

def CType.depth : CType B → Nat
  | void | named _ => 0
  | pointer _ t | array _ t | function t _ => t.depth + 1

def CType.arrays : CType B → Nat
  | void | named _ => 0
  | array _ t => t.arrays + 1
  | pointer _ t | function t _ => t.arrays

theorem CType.depth_of_outer {layer : Layer} {base type : CType B}
    (h : type.outer = some (layer, base)) : type.depth = base.depth + 1 := by
  cases type <;> cases h <;> rfl

theorem CType.arrays_of_outer {layer : Layer} {base type : CType B}
    (h : type.outer = some (layer, base)) :
    type.arrays = base.arrays + (if layer.isArray then 1 else 0) := by
  cases type <;> cases h <;> rfl

theorem Wraps.depth {L : List Layer} {base type : CType B} (h : Wraps L base type) :
    type.depth = base.depth + L.length := by
  induction L generalizing base with
  | nil => exact h ▸ rfl
  | cons layer L ih =>
    obtain ⟨t, ht, h⟩ := h
    rw [ih h, CType.depth_of_outer ht, length_cons]
    omega

theorem Wraps.arrays {L : List Layer} {base type : CType B} (h : Wraps L base type) :
    type.arrays = base.arrays + L.countP Layer.isArray := by
  induction L generalizing base with
  | nil => exact h ▸ rfl
  | cons layer L ih =>
    obtain ⟨t, ht, h⟩ := h
    rw [ih h, CType.arrays_of_outer ht, countP_cons]
    omega

def Pointer.layers : Pointer → List Layer
  | star _ => [.pointer]
  | more _ rest => .pointer :: rest.layers

mutual
/-- The layers in the order of C: the suffixes from right to left, then what is in
parentheses. -/
def Declarator.layers : Declarator B → List Layer
  | .pointer ptr => ptr.layers
  | .direct decl => decl.layers
  | .pointerDirect ptr decl => ptr.layers ++ decl.layers
def Declarator2.layers : Declarator2 B → List Layer
  | .paren decl => decl.layers
  | .array bound => [.array bound]
  | .arrayOf decl bound => .array bound :: decl.layers
  | .function _ => [.function]
  | .functionOf decl _ => .function :: decl.layers
end

def chainSuffix (inParens : Bool) (layer : Layer) (chain : List Layer) : List Layer :=
  if inParens then layer :: chain else chain ++ [layer]

mutual
/-- The layers in the order of the chain: the suffix after the parentheses, what is in
them, then the other suffixes from left to right. -/
def Declarator.chained : Declarator B → List Layer
  | .pointer ptr => ptr.layers
  | .direct decl => decl.chained
  | .pointerDirect ptr decl => ptr.layers ++ decl.chained
def Declarator2.chained : Declarator2 B → List Layer
  | .paren decl => decl.chained
  | .array bound => [.array bound]
  | .arrayOf decl bound => chainSuffix decl.isParen (.array bound) decl.chained
  | .function _ => [.function]
  | .functionOf decl _ => chainSuffix decl.isParen .function decl.chained
end

theorem chainSuffix_perm (inParens : Bool) (layer : Layer) {L M : List Layer}
    (h : L.Perm M) : (chainSuffix inParens layer L).Perm (layer :: M) := by
  cases inParens with
  | true => exact h.cons layer
  | false => exact (perm_append_singleton layer L).trans (h.cons layer)

mutual
theorem Declarator.chained_perm : (decl : Declarator B) → decl.chained.Perm decl.layers
  | .pointer _ => .refl _
  | .direct decl => decl.chained_perm
  | .pointerDirect ptr decl => decl.chained_perm.append_left ptr.layers
theorem Declarator2.chained_perm : (decl : Declarator2 B) → decl.chained.Perm decl.layers
  | .paren decl => decl.chained_perm
  | .array _ | .function _ => .refl _
  | .arrayOf decl _ => chainSuffix_perm _ _ decl.chained_perm
  | .functionOf decl _ => chainSuffix_perm _ _ decl.chained_perm
end

def Part.layer : Part B → Layer
  | pointer _ => .pointer
  | array bound => .array bound
  | function _ => .function

theorem Part.outer_of_eval {part : Part B} {type result : CType B}
    (h : part.eval type = .ok result) : result.outer = some (part.layer, type) := by
  cases part with
  | pointer qual =>
    cases h
    rfl
  | array bound =>
    obtain ⟨-, rfl⟩ := eval_array.mp h
    rfl
  | function params =>
    obtain ⟨-, types, -, rfl⟩ := eval_function.mp h
    rfl

theorem Pointer.wraps (ptr : Pointer) (type : CType B) :
    Wraps ptr.layers type (ptr.cType type) := by
  induction ptr generalizing type with
  | star quals => exact wraps_singleton.mpr rfl
  | more quals rest ih => exact ⟨_, rfl, ih _⟩

theorem Suffixed.wraps {decl : Declarator2 B} {part : Part B} {type result : CType B}
    (ih : ∀ {t r}, decl.Gives t r → Wraps decl.chained t r)
    (h : Suffixed decl part type result) :
    Wraps (chainSuffix decl.isParen part.layer decl.chained) type result := by
  rw [Suffixed] at h
  rw [chainSuffix]
  split at h
  next hp =>
    obtain ⟨t, ht, hr⟩ := h
    rw [if_pos hp]
    exact ⟨t, Part.outer_of_eval ht, ih hr⟩
  next hp =>
    obtain ⟨t, ht, hr⟩ := h
    rw [if_neg hp]
    exact wraps_append.mpr ⟨t, ih ht, wraps_singleton.mpr (Part.outer_of_eval hr)⟩

mutual
theorem Declarator.wraps_of_gives : (decl : Declarator B) → {type result : CType B} →
    decl.Gives type result → Wraps decl.chained type result
  | .pointer ptr, type, _, h => by
    rw [← gives_pointer.mp h]
    exact ptr.wraps type
  | .direct decl, _, _, h => decl.wraps_of_gives (gives_direct.mp h).2
  | .pointerDirect ptr decl, type, _, h =>
    wraps_append.mpr ⟨_, ptr.wraps type, decl.wraps_of_gives (gives_pointerDirect.mp h).2⟩
theorem Declarator2.wraps_of_gives : (decl : Declarator2 B) → {type result : CType B} →
    decl.Gives type result → Wraps decl.chained type result
  | .paren decl, _, _, h => decl.wraps_of_gives (gives_paren.mp h)
  | .array bound, _, _, h => by
    obtain ⟨-, rfl⟩ := gives_array.mp h
    exact wraps_singleton.mpr rfl
  | .arrayOf decl bound, _, _, h => (gives_arrayOf.mp h).wraps decl.wraps_of_gives
  | .function params, _, _, h => by
    obtain ⟨es, -, he⟩ := gives_function.mp h
    exact wraps_singleton.mpr (Part.outer_of_eval he)
  | .functionOf decl params, _, _, h => by
    obtain ⟨es, -, he⟩ := gives_functionOf.mp h
    exact he.wraps decl.wraps_of_gives
end

theorem CType.arrayOf_eq_some {bound : Int} {elem type : CType B} :
    elem.arrayOf bound = some type ↔
      (0 < bound ∧ elem.isFunction = false ∧ elem.isVoid = false) ∧
        type = .array bound elem := by
  rw [CType.arrayOf]
  split
  next h => simp only [h, Option.some.injEq, true_and, and_self, eq_comm]
  next h => simp [h]

theorem CType.functionOf_eq_some {params : List (CType B)} {ret type : CType B} :
    ret.functionOf params = some type ↔
      (ret.isFunction = false ∧ ret.isArray = false) ∧ type = .function ret params := by
  rw [CType.functionOf]
  split
  next h => simp only [h, Option.some.injEq, true_and, and_self, eq_comm]
  next h => simp [h]

section CType

variable {decl : Declarator2 B} {bound : Int} {params : List (TypeName B)}
  {type result : CType B}

theorem cType_array (h : (Declarator2.array bound).cType type = some result) :
    0 < bound ∧ result = .array bound type := by
  obtain ⟨⟨hpos, -⟩, rfl⟩ := CType.arrayOf_eq_some.mp h
  exact ⟨hpos, rfl⟩

theorem cType_arrayOf (h : (Declarator2.arrayOf decl bound).cType type = some result) :
    0 < bound ∧ decl.cType (.array bound type) = some result := by
  obtain ⟨t, ht, h⟩ := Option.bind_eq_some_iff.mp h
  obtain ⟨⟨hpos, -⟩, rfl⟩ := CType.arrayOf_eq_some.mp ht
  exact ⟨hpos, h⟩

theorem cType_function (h : (Declarator2.function params).cType type = some result) :
    type.isFunction = false ∧ ∃ us vs, cTypes params = some us ∧ adjustAll us = some vs ∧
      result = .function type vs := by
  obtain ⟨us, hus, h⟩ := Option.bind_eq_some_iff.mp h
  obtain ⟨vs, hvs, h⟩ := Option.bind_eq_some_iff.mp h
  obtain ⟨⟨hfun, -⟩, rfl⟩ := CType.functionOf_eq_some.mp h
  exact ⟨hfun, us, vs, hus, hvs, rfl⟩

theorem cType_functionOf
    (h : (Declarator2.functionOf decl params).cType type = some result) :
    type.isFunction = false ∧ ∃ us vs, cTypes params = some us ∧ adjustAll us = some vs ∧
      decl.cType (.function type vs) = some result := by
  obtain ⟨us, hus, h⟩ := Option.bind_eq_some_iff.mp h
  obtain ⟨vs, hvs, h⟩ := Option.bind_eq_some_iff.mp h
  obtain ⟨t, ht, h⟩ := Option.bind_eq_some_iff.mp h
  obtain ⟨⟨hfun, -⟩, rfl⟩ := CType.functionOf_eq_some.mp ht
  exact ⟨hfun, us, vs, hus, hvs, h⟩

theorem isParen_of_cType_function {ret : CType B} {types : List (CType B)}
    (h : decl.cType (.function ret types) = some result) : decl.isParen = true := by
  cases decl with
  | paren D => rfl
  | array bound =>
    obtain ⟨⟨-, hfun, -⟩, -⟩ := CType.arrayOf_eq_some.mp h
    cases hfun
  | arrayOf decl bound =>
    obtain ⟨t, ht, -⟩ := Option.bind_eq_some_iff.mp h
    obtain ⟨⟨-, hfun, -⟩, -⟩ := CType.arrayOf_eq_some.mp ht
    cases hfun
  | function params => cases (cType_function h).1
  | functionOf decl params => cases (cType_functionOf h).1

end CType

mutual
theorem Declarator.wraps_of_cType : (decl : Declarator B) → {type result : CType B} →
    decl.cType type = some result → Wraps decl.layers type result
  | .pointer ptr, type, _, h => by
    cases h
    exact ptr.wraps type
  | .direct decl, _, _, h => decl.wraps_of_cType h
  | .pointerDirect ptr decl, type, _, h =>
    wraps_append.mpr ⟨_, ptr.wraps type, decl.wraps_of_cType h⟩
theorem Declarator2.wraps_of_cType : (decl : Declarator2 B) → {type result : CType B} →
    decl.cType type = some result → Wraps decl.layers type result
  | .paren decl, _, _, h => decl.wraps_of_cType h
  | .array bound, _, _, h => by
    obtain ⟨-, rfl⟩ := cType_array h
    exact wraps_singleton.mpr rfl
  | .arrayOf decl bound, _, _, h => ⟨_, rfl, decl.wraps_of_cType (cType_arrayOf h).2⟩
  | .function params, _, _, h => by
    obtain ⟨-, _, _, -, -, rfl⟩ := cType_function h
    exact wraps_singleton.mpr rfl
  | .functionOf decl params, _, _, h => by
    obtain ⟨-, _, _, -, -, h⟩ := cType_functionOf h
    exact ⟨_, rfl, decl.wraps_of_cType h⟩
end

theorem Pointer.array_notMem (ptr : Pointer) (bound : Int) : .array bound ∉ ptr.layers := by
  induction ptr with
  | star quals => simp [Pointer.layers]
  | more quals rest ih => simp [Pointer.layers, ih]

mutual
theorem Declarator.bound_pos : (decl : Declarator B) → {type result : CType B} →
    decl.cType type = some result → ∀ k, .array k ∈ decl.layers → 0 < k
  | .pointer ptr, _, _, _, k, hk => absurd hk (ptr.array_notMem k)
  | .direct decl, _, _, h, k, hk => decl.bound_pos h k hk
  | .pointerDirect ptr decl, _, _, h, k, hk => by
    rcases mem_append.mp hk with hk | hk
    · exact absurd hk (ptr.array_notMem k)
    · exact decl.bound_pos h k hk
theorem Declarator2.bound_pos : (decl : Declarator2 B) → {type result : CType B} →
    decl.cType type = some result → ∀ k, .array k ∈ decl.layers → 0 < k
  | .paren decl, _, _, h, k, hk => decl.bound_pos h k hk
  | .array bound, _, _, h, k, hk => by
    obtain rfl : k = bound := by simpa [Declarator2.layers] using hk
    exact (cType_array h).1
  | .arrayOf decl bound, _, _, h, k, hk => by
    rcases mem_cons.mp hk with hk | hk
    · cases hk
      exact (cType_arrayOf h).1
    · exact decl.bound_pos (cType_arrayOf h).2 k hk
  | .function params, _, _, _, k, hk => by simp [Declarator2.layers] at hk
  | .functionOf decl params, _, _, h, k, hk => by
    obtain ⟨-, _, _, -, -, h⟩ := cType_functionOf h
    exact decl.bound_pos h k (by simpa [Declarator2.layers] using hk)
end

def lead (L : List Layer) : Nat := (L.takeWhile Layer.isArray).length

theorem lead_array (bound : Int) (L : List Layer) : lead (.array bound :: L) = lead L + 1 := rfl

theorem lead_of_not_isArray {l : Layer} (h : l.isArray = false) (L : List Layer) :
    lead (l :: L) = 0 := by
  rw [lead, takeWhile_cons, h]
  rfl

theorem lead_append_le (L : List Layer) (layer : Layer) : lead (L ++ [layer]) ≤ lead L + 1 := by
  induction L with
  | nil => cases layer <;> exact Nat.le_of_ble_eq_true rfl
  | cons l L ih =>
    cases l with
    | array bound => exact Nat.succ_le_succ ih
    | pointer => exact Nat.zero_le _
    | function => exact Nat.zero_le _

theorem lead_append {L : List Layer} {l : Layer} (hl : l ∈ L) (h : l.isArray = false)
    (M : List Layer) : lead (L ++ M) = lead L := by
  induction L with
  | nil => cases hl
  | cons a L ih =>
    cases ha : a.isArray with
    | false => rw [cons_append, lead_of_not_isArray ha, lead_of_not_isArray ha]
    | true =>
      cases a with
      | array bound =>
        rcases mem_cons.mp hl with rfl | hl
        · cases h
        · rw [cons_append, lead_array, lead_array, ih hl]
      | pointer => cases ha
      | function => cases ha

mutual
theorem Declarator.lead_le : (decl : Declarator B) → {type result : CType B} →
    decl.cType type = some result → lead decl.chained ≤ lead decl.layers
  | .pointer _, _, _, _ => Nat.le_refl _
  | .direct decl, _, _, h => decl.lead_le h
  | .pointerDirect ptr decl, _, _, _ => by
    cases ptr <;> exact Nat.le_refl 0
theorem Declarator2.lead_le : (decl : Declarator2 B) → {type result : CType B} →
    decl.cType type = some result → lead decl.chained ≤ lead decl.layers
  | .paren decl, _, _, h => decl.lead_le h
  | .array _, _, _, _ | .function _, _, _, _ => Nat.le_refl _
  | .arrayOf decl bound, _, _, h => by
    have ih := decl.lead_le (cType_arrayOf h).2
    rw [Declarator2.chained, Declarator2.layers, lead_array, chainSuffix]
    split
    · exact Nat.succ_le_succ ih
    · exact Nat.le_trans (lead_append_le _ _) (Nat.succ_le_succ ih)
  | .functionOf decl params, _, _, h => by
    obtain ⟨-, _, _, -, -, h⟩ := cType_functionOf h
    rw [Declarator2.chained, isParen_of_cType_function h]
    exact Nat.le_refl 0
end

theorem isArray_of_rotated {L M : List Layer} {bound : Int} (hlead : lead L ≤ lead M)
    (h : L ++ [.array bound] = .array bound :: M) : ∀ l ∈ L, l.isArray = true := by
  intro l hl
  by_contra harray
  have hlead' : lead L = lead M + 1 := by
    rw [← lead_append hl (Bool.not_eq_true _ ▸ harray) [.array bound], h, lead_array]
  omega

end ZeroBugs.Interp.AbstractDecl
