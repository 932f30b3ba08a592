import ZeroBugs.Interp.CallSetup

/-! # Overloads tried one after the other -/
namespace ZeroBugs.Interp
open Lib

section Resolution

variable {X E : Type} (env : Context X E)

def setupsAlone : List Overload → X → Option (List (Arg E)) →
    Except CallFault (List (CallSetup E) × X)
  | [], ctx, _ => .ok ([], ctx)
  | o :: os, ctx, args => do
    let (setup, ctx, _) ← getCallSetup env o ctx args
    let (setups, ctx) ← setupsAlone os ctx args
    return (setup.toList ++ setups, ctx)

def reference (os : List Overload) (ctx : X) (args : Option (List (Arg E))) :
    Except CallFault (Option (CallSetup E) × X) := do
  let (setups, ctx) ← setupsAlone env os ctx args
  return (setups.argmin (·.conversions), ctx)

def argsSeen : List Overload → X → Option (List (Arg E)) → List (Option (List (Arg E)))
  | [], _, _ => []
  | o :: os, ctx, args => args :: match getCallSetup env o ctx args with
    | .error _ => []
    | .ok (_, ctx, args) => argsSeen os ctx args

def Independent (os : List Overload) (ctx : X) (args : Option (List (Arg E))) : Prop :=
  resolve env os ctx args = reference env os ctx args ∧
    ∀ seen ∈ argsSeen env os ctx args, seen = args

/-- No overload tried before another is a constructor with one parameter more than there are
arguments. Without an argument list any may be. -/
def KeepsArgs : List Overload → X → Option (List (Arg E)) → Prop
  | [], _, _ | [_], _, _ => True
  | o :: o' :: os, ctx, args => match getCallSetup env o ctx args with
    | .error _ => True
    | .ok (_, ctx, _) => (args.isSome → missingThis o args = none) ∧ KeepsArgs (o' :: os) ctx args

variable {o : Overload}

theorem checkCtorInvocation_none {args : Option (List (Arg E))}
    (h : missingThis o args = none) (ctx : X) :
    checkCtorInvocation env o ctx args = (none, ctx, args) := by
  rw [checkCtorInvocation, h]

theorem checkCtorInvocation_some {args : Option (List (Arg E))} {c : ClassType}
    (h : missingThis o args = some c) (ctx : X) :
    checkCtorInvocation env o ctx args = (some ((env.pushObject ctx c).1, c),
      (env.pushObject ctx c).2, some (.this (env.pushObject ctx c).1 c :: args.getD [])) := by
  rw [checkCtorInvocation, h]

variable {env}

theorem getCallSetup_args {ctx ctx' : X} {args args' : Option (List (Arg E))}
    {setup : Option (CallSetup E)} (h : getCallSetup env o ctx args = .ok (setup, ctx', args')) :
    args' = if args.isSome then (checkCtorInvocation env o ctx args).2.2 else none := by
  unfold getCallSetup at h
  by_cases haddr : o.addr = 0
  · simp [haddr, throw, throwThe, MonadExceptOf.throw] at h
  · simp only [haddr, if_false, bind, Except.bind] at h
    split at h
    · cases h
    · cases h
      rfl

theorem getCallSetup_keeps_iff {ctx ctx' : X} {args args' : Option (List (Arg E))}
    {setup : Option (CallSetup E)} (h : getCallSetup env o ctx args = .ok (setup, ctx', args')) :
    args' = args ↔ (args.isSome → missingThis o args = none) := by
  rw [getCallSetup_args h]
  cases args with
  | none => simp
  | some l =>
    cases hthis : missingThis o (some l) with
    | none => simp [checkCtorInvocation_none env hthis]
    | some c => simp [checkCtorInvocation_some env hthis]

variable {os : List Overload}

theorem tryCandidates_eq {ctx : X} {args : Option (List (Arg E))}
    (h : KeepsArgs env os ctx args) (candidates : MultiMap Nat (CallSetup E)) :
    tryCandidates env os ctx args candidates = (setupsAlone env os ctx args).map fun r =>
      (r.1.foldl (fun m s => m.insert s.conversions s) candidates, r.2) := by
  induction os generalizing ctx candidates with
  | nil => rfl
  | cons o os ih =>
    simp only [tryCandidates, setupsAlone]
    cases hset : getCallSetup env o ctx args with
    | error e => rfl
    | ok r =>
      obtain ⟨setup, ctx', args'⟩ := r
      simp only [bind, Except.bind]
      cases os with
      | nil => cases setup <;> rfl
      | cons o' os =>
        simp only [KeepsArgs, hset] at h
        obtain ⟨hthis, hrest⟩ := h
        obtain rfl := (getCallSetup_keeps_iff hset).mpr hthis
        cases setup with
        | none =>
          rw [ih hrest]
          cases setupsAlone env (o' :: os) ctx' args' <;> rfl
        | some s =>
          simp only
          rw [ih hrest]
          cases setupsAlone env (o' :: os) ctx' args' <;> rfl

theorem resolve_eq_reference {ctx : X} {args : Option (List (Arg E))}
    (h : KeepsArgs env os ctx args) : resolve env os ctx args = reference env os ctx args := by
  rw [resolve, reference, tryCandidates_eq h]
  cases setupsAlone env os ctx args with
  | error e => rfl
  | ok r =>
    have hpick : pickCandidate (r.1.foldl (fun m s => m.insert s.conversions s) .empty) =
        r.1.argmin (·.conversions) := by
      rw [pickCandidate, MultiMap.head_foldl_insert]
      cases r.1.argmin (·.conversions) <;> rfl
    simp [Except.map, bind, Except.bind, hpick, pure, Except.pure]

theorem argsSeen_eq_iff {ctx : X} {args : Option (List (Arg E))} :
    (∀ seen ∈ argsSeen env os ctx args, seen = args) ↔ KeepsArgs env os ctx args := by
  induction os generalizing ctx with
  | nil => simp [argsSeen, KeepsArgs]
  | cons o os ih =>
    simp only [argsSeen, List.forall_mem_cons, true_and]
    cases hset : getCallSetup env o ctx args with
    | error e => cases os <;> simp [KeepsArgs, hset]
    | ok r =>
      obtain ⟨setup, ctx', args'⟩ := r
      cases os with
      | nil => simp [argsSeen, KeepsArgs]
      | cons o' os =>
        simp only [KeepsArgs, hset, ← getCallSetup_keeps_iff hset, ← ih]
        constructor
        · intro hseen
          -- the next candidate is the first to see what is left
          obtain rfl : args' = args := hseen args' (by simp [argsSeen])
          exact ⟨rfl, hseen⟩
        · rintro ⟨rfl, hseen⟩
          exact hseen

end Resolution

def stackContext : Context Nat DataType where
  isEqual t t' := t == t'
  conversionCount _ := 0
  eval sp t := .ok (t, sp)
  pushObject sp c := (sp - c.size, sp - c.size)
  passByValue sp _ _ := .ok (true, sp)
  uninitialized _ := 0

def pointClass : ClassType := ⟨"Point", "Point", [], 16⟩

def pointCtor (param : DataType) (fname : String) (addr : Nat) : Overload :=
  ⟨[.pointer (.klass pointClass) false, param], false, some fname, addr, none⟩

def pointCtors : List Overload :=
  [pointCtor (.int "int") "Point::Point(int)" 0x10,
    pointCtor (.float "double") "Point::Point(double)" 0x20]

end ZeroBugs.Interp
