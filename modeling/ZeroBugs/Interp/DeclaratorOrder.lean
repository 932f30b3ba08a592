import ZeroBugs.Interp.DeclaratorLayers

/-! # The order in which declarators are applied -/
namespace ZeroBugs.Interp.AbstractDecl
open List

variable {B : Type}

mutual
/-- The declarator has array bounds only, and no parentheses around parentheses. -/
def Declarator.OnlyBounds : Declarator B → Prop
  | .pointer _ | .pointerDirect _ _ => False
  | .direct decl => decl.isParen = false ∧ decl.OnlyBounds
def Declarator2.OnlyBounds : Declarator2 B → Prop
  | .paren decl => decl.OnlyBounds
  | .array _ => True
  | .arrayOf decl _ => decl.OnlyBounds
  | .function _ | .functionOf _ _ => False
end

def TypeName.IsKept (name : TypeName B) : Prop :=
  ∀ type, name.cType = some type → type.isArray = false ∧ type.isFunction = false

mutual
/-- Nothing is written in parentheses but what one suffix follows, no second suffix follows
unless there are array bounds only, in a suitable order, and no parameter is adjusted. -/
def Declarator.Agrees : Declarator B → Prop
  | .pointer _ => True
  | .direct decl | .pointerDirect _ decl => decl.isParen = false ∧ decl.Agrees
def Declarator2.Agrees : Declarator2 B → Prop
  | .paren decl => decl.Agrees
  | .array _ => True
  | .arrayOf decl bound =>
    if decl.isParen then decl.Agrees
    else decl.OnlyBounds ∧ decl.chained ++ [.array bound] = .array bound :: decl.layers
  | .function params => cTypes params ≠ some [.void] ∧ ParamsAgree params
  | .functionOf decl params =>
    decl.isParen = true ∧ decl.Agrees ∧ cTypes params ≠ some [.void] ∧ ParamsAgree params
def TypeName.Agrees : TypeName B → Prop
  | .plain _ => True
  | .declared _ decl => decl.Agrees
def ParamsAgree : List (TypeName B) → Prop
  | [] => True
  | name :: names => name.Agrees ∧ name.IsKept ∧ ParamsAgree names
end

mutual
theorem Declarator.onlyBounds_of_gives : (decl : Declarator B) → {type result : CType B} →
    decl.Gives type result → (∀ l ∈ decl.chained, l.isArray = true) → decl.OnlyBounds
  | .pointer ptr, _, _, _, harrays => by
    cases ptr <;> cases harrays .pointer mem_cons_self
  | .direct decl, _, _, h, harrays =>
    ⟨(gives_direct.mp h).1, decl.onlyBounds_of_gives (gives_direct.mp h).2 harrays⟩
  | .pointerDirect ptr decl, _, _, _, harrays => by
    cases ptr <;> cases harrays .pointer mem_cons_self
theorem Declarator2.onlyBounds_of_gives : (decl : Declarator2 B) → {type result : CType B} →
    decl.Gives type result → (∀ l ∈ decl.chained, l.isArray = true) → decl.OnlyBounds
  | .paren decl, _, _, h, harrays => decl.onlyBounds_of_gives (gives_paren.mp h) harrays
  | .array _, _, _, _, _ => trivial
  | .arrayOf decl bound, _, _, h, harrays => by
    have hperm := chainSuffix_perm decl.isParen (.array bound) (.refl decl.chained)
    obtain ⟨t, r, hgives⟩ := (gives_arrayOf.mp h).gives
    exact decl.onlyBounds_of_gives hgives fun l hl =>
      harrays l (hperm.mem_iff.mpr (mem_cons_of_mem _ hl))
  | .function _, _, _, _, harrays => by cases harrays .function mem_cons_self
  | .functionOf decl _, _, _, _, harrays => by
    have hperm := chainSuffix_perm decl.isParen .function (.refl decl.chained)
    cases harrays .function (hperm.mem_iff.mpr mem_cons_self)
end

theorem CType.eq_array_of_outer {bound : Int} {elem type : CType B}
    (h : type.outer = some (.array bound, elem)) : type = .array bound elem := by
  cases type <;> cases h
  rfl

mutual
theorem Declarator.gives_of_wraps : (decl : Declarator B) → {type result : CType B} →
    decl.OnlyBounds → (∀ k, .array k ∈ decl.chained → 0 < k) →
    Wraps decl.chained type result → decl.Gives type result
  | .direct decl, _, _, honly, hpos, h =>
    gives_direct.mpr ⟨honly.1, decl.gives_of_wraps honly.2 hpos h⟩
theorem Declarator2.gives_of_wraps : (decl : Declarator2 B) → {type result : CType B} →
    decl.OnlyBounds → (∀ k, .array k ∈ decl.chained → 0 < k) →
    Wraps decl.chained type result → decl.Gives type result
  | .paren decl, _, _, honly, hpos, h => gives_paren.mpr (decl.gives_of_wraps honly hpos h)
  | .array bound, _, _, _, hpos, h =>
    gives_array.mpr ⟨hpos bound mem_cons_self,
      CType.eq_array_of_outer (wraps_singleton.mp h)⟩
  | .arrayOf decl bound, _, _, honly, hpos, h => by
    have hperm := chainSuffix_perm decl.isParen (.array bound) (.refl decl.chained)
    have hbound : 0 < bound := hpos bound (hperm.mem_iff.mpr mem_cons_self)
    have ih {t r : CType B} : Wraps decl.chained t r → decl.Gives t r :=
      decl.gives_of_wraps honly fun k hk =>
        hpos k (hperm.mem_iff.mpr (mem_cons_of_mem _ hk))
    rw [gives_arrayOf, Suffixed]
    rw [Declarator2.chained, chainSuffix] at h
    split
    next hp =>
      rw [if_pos hp] at h
      obtain ⟨t, ht, h⟩ := h
      exact ⟨t, eval_array.mpr ⟨hbound, CType.eq_array_of_outer ht⟩, ih h⟩
    next hp =>
      rw [if_neg hp] at h
      obtain ⟨t, ht, h⟩ := wraps_append.mp h
      have hlast := CType.eq_array_of_outer (wraps_singleton.mp h)
      exact ⟨t, ih ht, eval_array.mpr ⟨hbound, hlast⟩⟩
end

theorem CType.adjusted_eq {type : CType B} (harray : type.isArray = false)
    (hfun : type.isFunction = false) : type.adjusted = type := by
  cases type with
  | array count elem => cases harray
  | function ret params => cases hfun
  | _ => rfl

theorem CType.kept_of_adjusted {type : CType B} (hdepth : type.adjusted.depth = type.depth)
    (harrays : type.adjusted.arrays = type.arrays) :
    type.isArray = false ∧ type.isFunction = false := by
  cases type with
  | array count elem => simp [CType.adjusted, CType.arrays] at harrays
  | function ret params => simp [CType.adjusted, CType.depth] at hdepth
  | _ => exact ⟨rfl, rfl⟩

theorem TypeName.same_measures {name : TypeName B} {built type : CType B}
    (hbuilt : name.type = .ok built) (h : name.cType = some type) :
    built.depth = type.depth ∧ built.arrays = type.arrays := by
  cases name with
  | plain base =>
    cases hbuilt
    cases h
    exact ⟨rfl, rfl⟩
  | declared base decl =>
    have hchained := decl.wraps_of_gives (type_declared.mp hbuilt)
    have hlayers := decl.wraps_of_cType h
    rw [hchained.depth, hlayers.depth, hchained.arrays, hlayers.arrays,
      decl.chained_perm.length_eq, decl.chained_perm.countP_eq]
    exact ⟨rfl, rfl⟩

theorem adjustAll_eq {types adjusted : List (CType B)} (h : adjustAll types = some adjusted) :
    (types = [.void] ∧ adjusted = []) ∨
      (types ≠ [.void] ∧ adjusted = types.map CType.adjusted) := by
  unfold adjustAll at h
  split at h
  · exact .inl ⟨rfl, (Option.some.inj h).symm⟩
  next hvoid =>
    split at h
    · cases h
    · exact .inr ⟨hvoid, (Option.some.inj h).symm⟩

theorem paramsGive_adjusted {params : List (TypeName B)} {us vs : List (CType B)}
    (hus : cTypes params = some us) (hvs : adjustAll us = some vs)
    (h : ParamsGive params (us.map CType.adjusted) ↔ ParamsAgree params) :
    ParamsGive params vs ↔ cTypes params ≠ some [.void] ∧ ParamsAgree params := by
  rcases adjustAll_eq hvs with ⟨rfl, rfl⟩ | ⟨hvoid, rfl⟩
  · constructor
    · intro hgive
      cases params with
      | nil => cases hus
      | cons name names =>
        obtain ⟨_, _, -, -, hnil⟩ := paramsGive_cons.mp hgive
        cases hnil
    · exact fun hagree => absurd hus hagree.1
  · rw [h]
    constructor
    · exact fun hagree => ⟨by rw [hus]; simpa using hvoid, hagree⟩
    · exact fun hagree => hagree.2

theorem arrayOf_gives_iff {decl : Declarator2 B} {bound : Int} {type result : CType B}
    (hparen : decl.isParen = false)
    (h : (Declarator2.arrayOf decl bound).cType type = some result) :
    (Declarator2.arrayOf decl bound).Gives type result ↔ decl.OnlyBounds ∧
      decl.chained ++ [.array bound] = .array bound :: decl.layers := by
  obtain ⟨hbound, hdecl⟩ := cType_arrayOf h
  have hlayers := (Declarator2.arrayOf decl bound).wraps_of_cType h
  have hchained : (Declarator2.arrayOf decl bound).chained =
      decl.chained ++ [.array bound] := by
    rw [Declarator2.chained, hparen]
    rfl
  constructor
  · intro hgives
    have hperm := (Declarator2.arrayOf decl bound).chained_perm
    have horder := (Declarator2.wraps_of_gives _ hgives).unique hlayers hperm.length_eq
    rw [hchained] at horder
    have harrays := isArray_of_rotated (decl.lead_le hdecl) horder.1
    obtain ⟨t, r, hpart⟩ := (gives_arrayOf.mp hgives).gives
    exact ⟨decl.onlyBounds_of_gives hpart harrays, horder.1⟩
  · rintro ⟨honly, horder⟩
    refine (Declarator2.arrayOf decl bound).gives_of_wraps honly ?_ ?_
    · intro k hk
      rw [hchained, horder] at hk
      exact (Declarator2.arrayOf decl bound).bound_pos h k hk
    · rw [hchained, horder]
      exact hlayers

mutual
theorem Declarator.gives_iff : (decl : Declarator B) → {type result : CType B} →
    decl.cType type = some result → (decl.Gives type result ↔ decl.Agrees)
  | .pointer ptr, _, _, h => by
    cases h
    exact iff_of_true (gives_pointer.mpr rfl) trivial
  | .direct decl, _, _, h => gives_direct.trans (and_congr_right fun _ => decl.gives_iff h)
  | .pointerDirect ptr decl, _, _, h =>
    gives_pointerDirect.trans (and_congr_right fun _ => decl.gives_iff h)
theorem Declarator2.gives_iff : (decl : Declarator2 B) → {type result : CType B} →
    decl.cType type = some result → (decl.Gives type result ↔ decl.Agrees)
  | .paren decl, _, _, h => gives_paren.trans (decl.gives_iff h)
  | .array bound, _, _, h => iff_of_true (gives_array.mpr (cType_array h)) trivial
  | .arrayOf decl bound, type, result, h => by
    rw [Declarator2.Agrees]
    split
    next hparen =>
      obtain ⟨hbound, hdecl⟩ := cType_arrayOf h
      rw [← decl.gives_iff hdecl, gives_arrayOf, Suffixed, if_pos hparen]
      constructor
      · rintro ⟨t, ht, hgives⟩
        obtain ⟨-, rfl⟩ := eval_array.mp ht
        exact hgives
      · exact fun hgives => ⟨_, eval_array.mpr ⟨hbound, rfl⟩, hgives⟩
    next hparen => exact arrayOf_gives_iff (Bool.not_eq_true _ ▸ hparen) h
  | .function params, type, result, h => by
    obtain ⟨hfun, us, vs, hus, hvs, rfl⟩ := cType_function h
    rw [Declarator2.Agrees, ← paramsGive_adjusted hus hvs (paramsGive_iff params hus),
      gives_function]
    constructor
    · rintro ⟨es, hes, he⟩
      obtain ⟨-, types, htypes, heq⟩ := eval_function.mp he
      cases heq
      exact ⟨es, hes, htypes⟩
    · rintro ⟨es, hes, htypes⟩
      exact ⟨es, hes, eval_function.mpr ⟨hfun, vs, htypes, rfl⟩⟩
  | .functionOf decl params, type, result, h => by
    obtain ⟨hfun, us, vs, hus, hvs, hdecl⟩ := cType_functionOf h
    have hparen := isParen_of_cType_function hdecl
    rw [Declarator2.Agrees, ← paramsGive_adjusted hus hvs (paramsGive_iff params hus),
      ← decl.gives_iff hdecl, gives_functionOf]
    simp only [Suffixed, hparen, if_true, true_and]
    constructor
    · rintro ⟨es, hes, t, ht, hgives⟩
      obtain ⟨-, types, htypes, rfl⟩ := eval_function.mp ht
      -- The layers that follow are as many in both types, so what they wrap is the same.
      have hsame := (decl.wraps_of_gives hgives).unique (decl.wraps_of_cType hdecl)
        decl.chained_perm.length_eq
      cases hsame.2
      exact ⟨hgives, es, hes, htypes⟩
    · rintro ⟨hgives, es, hes, htypes⟩
      exact ⟨es, hes, _, eval_function.mpr ⟨hfun, vs, htypes, rfl⟩, hgives⟩
theorem TypeName.type_eq_iff : (name : TypeName B) → {type : CType B} →
    name.cType = some type → (name.type = .ok type ↔ name.Agrees)
  | .plain base, _, h => by
    cases h
    exact iff_of_true rfl trivial
  | .declared base decl, _, h => type_declared.trans (decl.gives_iff h)
theorem paramsGive_iff : (params : List (TypeName B)) → {types : List (CType B)} →
    cTypes params = some types →
    (ParamsGive params (types.map CType.adjusted) ↔ ParamsAgree params)
  | [], _, h => by
    cases h
    exact iff_of_true (paramsGive_nil.mpr rfl) trivial
  | name :: names, _, h => by
    obtain ⟨u, hu, h⟩ := Option.bind_eq_some_iff.mp h
    obtain ⟨us, hus, h⟩ := Option.bind_eq_some_iff.mp h
    cases h
    rw [ParamsAgree, ← paramsGive_iff names hus, ← name.type_eq_iff hu, map_cons,
      paramsGive_cons]
    constructor
    · rintro ⟨t, ts, ht, hts, heq⟩
      cases heq
      obtain ⟨hdepth, harrays⟩ := TypeName.same_measures ht hu
      obtain ⟨harray, hfun⟩ := CType.kept_of_adjusted hdepth harrays
      refine ⟨?_, ?_, hts⟩
      · rwa [CType.adjusted_eq harray hfun] at ht
      · intro type htype
        cases hu.symm.trans htype
        exact ⟨harray, hfun⟩
    · rintro ⟨ht, hkept, hts⟩
      obtain ⟨harray, hfun⟩ := hkept u hu
      rw [CType.adjusted_eq harray hfun]
      exact ⟨u, _, ht, hts, rfl⟩
end

def TypeName.BuildsCType (name : TypeName B) : Prop :=
  ∀ type, name.cType = some type → name.type = .ok type

theorem TypeName.buildsCType_iff (name : TypeName B) :
    name.BuildsCType ↔ name.cType = none ∨ name.Agrees := by
  constructor
  · intro h
    cases htype : name.cType with
    | none => exact .inl rfl
    | some type => exact .inr ((name.type_eq_iff htype).mp (h type htype))
  · rintro (hnone | hagrees) type htype
    · rw [hnone] at htype
      cases htype
    · exact (name.type_eq_iff htype).mpr hagrees

theorem twoByThree_not_buildsCType : ¬ TypeName.BuildsCType
    (.declared (.named ()) (.direct (.arrayOf (.array 2) 3))) := by
  intro h
  have htype := h (.array 2 (.array 3 (.named ()))) rfl
  have hbuilt : Except.ok (CType.array 3 (.array 2 (.named ()))) =
      (Except.ok (CType.array 2 (.array 3 (.named ()))) : Except Exn _) := htype
  cases hbuilt

end ZeroBugs.Interp.AbstractDecl
