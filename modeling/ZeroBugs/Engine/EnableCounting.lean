import ZeroBugs.Engine.BreakPoint

/-! # The count of `enable` and `disable` -/
namespace ZeroBugs.Engine.EnableCounting
open Lib.Runs

inductive DoEnable where
  | succeeds
  | returnsFalse
  | throws
  deriving DecidableEq

structure BreakPointBase where
  enable : Int
  doEnables : List (Bool × DoEnable)

/-- The value of an `int`, which is taken to wrap around. -/
def toInt (n : Int) : Int := n.bmod (2 ^ 32)

/-- What `enable` and `disable` have in common: the count becomes `counted`, and `do_enable` is
called if it was `start`. The first result is what is returned, if anything. -/
def count (start counted : Int) (onOff : Bool) (outcome : DoEnable) (b : BreakPointBase) :
    Option Int × BreakPointBase :=
  let saved := b.enable
  if saved = start then
    let doEnables := b.doEnables ++ [(onOff, outcome)]
    match outcome with
    | .succeeds => (some counted, ⟨counted, doEnables⟩)
    | .returnsFalse => (some counted, ⟨saved, doEnables⟩)
    | .throws => (none, ⟨saved, doEnables⟩)
  else (some counted, { b with enable := counted })

def enable (outcome : DoEnable) (b : BreakPointBase) : Option Int × BreakPointBase :=
  count 0 (toInt (b.enable + 1)) true outcome b

def disable (outcome : DoEnable) (b : BreakPointBase) : Option Int × BreakPointBase :=
  count 1 (toInt (b.enable - 1)) false outcome b

structure Call where
  onOff : Bool
  outcome : DoEnable
  deriving DecidableEq

def call (b : BreakPointBase) (c : Call) : Option Int × BreakPointBase :=
  if c.onOff then enable c.outcome b else disable c.outcome b

def step (b : BreakPointBase) (c : Call) : BreakPointBase := (call b c).2

/-! ## Software breakpoints

The two calls of a software breakpoint count in this way, for counts that an `int`
has. -/

section Software

open BreakPoint (Debuggee SoftwareBreakPoint Manager)

variable (d : Debuggee) (bp : SoftwareBreakPoint) (m : Manager)

end Software

def Call.Transition (b : BreakPointBase) (c : Call) : Prop :=
  b.enable = if c.onOff then 0 else 1
  deriving Decidable

def Call.target (b : BreakPointBase) (c : Call) : Int :=
  if c.onOff then b.enable + 1 else b.enable - 1

def Call.Fails (b : BreakPointBase) (c : Call) : Prop :=
  c.Transition b ∧ c.outcome ≠ .succeeds

def BreakPointBase.lastSet (b : BreakPointBase) : Option Bool :=
  ((b.doEnables.filter fun p => p.2 = .succeeds).getLast?).map Prod.fst

structure CountsRight (b : BreakPointBase) (c : Call) : Prop where
  counted : ¬c.Fails b → (step b c).enable = c.target b
  unchanged : c.Fails b → (step b c).enable = b.enable
  asked : (step b c).doEnables =
    if c.Transition b then b.doEnables ++ [(c.onOff, c.outcome)] else b.doEnables
  last : (step b c).lastSet = some true ↔ 0 < (step b c).enable
  value : ∀ n, (call b c).1 = some n → n = (step b c).enable

/-- A call is made in the way that is provided for: `disable` at a positive count. -/
def Call.Allowed (b : BreakPointBase) (c : Call) : Prop := c.onOff = false → 0 < b.enable
  deriving Decidable

/-- Where `do_enable` is called it does not return false, and the count is not the largest `int`
before an `enable`. -/
def Call.Sound (b : BreakPointBase) (c : Call) : Prop :=
  (c.Transition b → c.outcome ≠ .returnsFalse) ∧ (c.onOff = true → b.enable < 2 ^ 31 - 1)

/-- Between calls: the count is not negative, and positive exactly if `do_enable` was
last called with true. -/
structure BreakPointBase.Consistent (b : BreakPointBase) : Prop where
  nonneg : 0 ≤ b.enable
  bounded : b.enable < 2 ^ 31
  last : b.lastSet = some true ↔ 0 < b.enable

theorem toInt_of_range {n : Int} (hlow : -2 ^ 31 ≤ n) (hhigh : n < 2 ^ 31) : toInt n = n :=
  Int.bmod_eq_of_le (by omega) (by omega)

theorem call_eq (b : BreakPointBase) (c : Call) :
    call b c = if c.Transition b then
        (match c.outcome with
        | .succeeds => (some (toInt (c.target b)),
            ⟨toInt (c.target b), b.doEnables ++ [(c.onOff, .succeeds)]⟩)
        | .returnsFalse => (some (toInt (c.target b)),
            ⟨b.enable, b.doEnables ++ [(c.onOff, .returnsFalse)]⟩)
        | .throws => (none, ⟨b.enable, b.doEnables ++ [(c.onOff, .throws)]⟩))
      else (some (toInt (c.target b)), { b with enable := toInt (c.target b) }) := by
  obtain ⟨onOff, outcome⟩ := c
  cases onOff <;> cases outcome <;>
    simp [call, enable, disable, count, Call.Transition, Call.target]

section OneCall

variable {b : BreakPointBase} {c : Call}

theorem call_succeeds (h : ¬c.Fails b) : call b c = (some (toInt (c.target b)),
    ⟨toInt (c.target b),
      if c.Transition b then b.doEnables ++ [(c.onOff, c.outcome)] else b.doEnables⟩) := by
  rw [call_eq]
  by_cases htransition : c.Transition b
  · have houtcome : c.outcome = .succeeds := by
      by_contra hother
      exact h ⟨htransition, hother⟩
    simp [htransition, houtcome]
  · simp [htransition]

theorem step_fails (h : c.Fails b) :
    step b c = ⟨b.enable, b.doEnables ++ [(c.onOff, c.outcome)]⟩ := by
  obtain ⟨htransition, houtcome⟩ := h
  rw [step, call_eq, if_pos htransition]
  cases hc : c.outcome with
  | succeeds => exact absurd hc houtcome
  | returnsFalse => rfl
  | throws => rfl

theorem lastSet_succeeds (n : Int) (calls : List (Bool × DoEnable)) (onOff : Bool) :
    BreakPointBase.lastSet ⟨n, calls ++ [(onOff, .succeeds)]⟩ = some onOff := by
  simp [BreakPointBase.lastSet]

theorem lastSet_fails (n : Int) (calls : List (Bool × DoEnable)) (onOff : Bool)
    {outcome : DoEnable} (h : outcome ≠ .succeeds) :
    BreakPointBase.lastSet ⟨n, calls ++ [(onOff, outcome)]⟩ =
      BreakPointBase.lastSet ⟨n, calls⟩ := by
  simp [BreakPointBase.lastSet, h]

theorem target_range (hb : b.Consistent) (hallowed : c.Allowed b)
    (hmax : c.onOff = true → b.enable < 2 ^ 31 - 1) :
    0 ≤ c.target b ∧ c.target b < 2 ^ 31 := by
  have hlow := hb.nonneg
  have hhigh := hb.bounded
  unfold Call.target
  cases hon : c.onOff with
  | true =>
    have := hmax hon
    simp only [if_true]
    omega
  | false =>
    have := hallowed hon
    simp only [Bool.false_eq_true, if_false]
    omega

theorem toInt_target (hb : b.Consistent) (hallowed : c.Allowed b)
    (hmax : c.onOff = true → b.enable < 2 ^ 31 - 1) : toInt (c.target b) = c.target b := by
  obtain ⟨hlow, hhigh⟩ := target_range hb hallowed hmax
  exact toInt_of_range (by omega) hhigh

theorem target_of_transition (h : c.Transition b) : c.target b = if c.onOff then 1 else 0 := by
  have henable : b.enable = if c.onOff then 0 else 1 := h
  unfold Call.target
  rw [henable]
  cases c.onOff <;> rfl

theorem target_pos_iff (hb : b.Consistent) (hallowed : c.Allowed b) (h : ¬c.Transition b) :
    0 < c.target b ↔ 0 < b.enable := by
  have hlow := hb.nonneg
  have henable : b.enable ≠ if c.onOff then 0 else 1 := h
  unfold Call.target
  cases hon : c.onOff with
  | true =>
    simp only [hon, if_true] at henable ⊢
    omega
  | false =>
    have := hallowed hon
    simp only [hon, Bool.false_eq_true, if_false] at henable ⊢
    omega

theorem consistent_succeeds (hb : b.Consistent) (hallowed : c.Allowed b)
    (hmax : c.onOff = true → b.enable < 2 ^ 31 - 1) (h : ¬c.Fails b) :
    (step b c).Consistent := by
  rw [step, call_succeeds h, toInt_target hb hallowed hmax]
  obtain ⟨hlow, hhigh⟩ := target_range hb hallowed hmax
  refine ⟨hlow, hhigh, ?_⟩
  by_cases htransition : c.Transition b
  · have houtcome : c.outcome = .succeeds := by
      by_contra hother
      exact h ⟨htransition, hother⟩
    simp only [if_pos htransition, houtcome, lastSet_succeeds, target_of_transition htransition]
    cases c.onOff <;> simp
  · simp only [if_neg htransition]
    rw [target_pos_iff hb hallowed htransition]
    exact hb.last

theorem consistent_fails (hb : b.Consistent) (h : c.Fails b) : (step b c).Consistent := by
  rw [step_fails h]
  refine ⟨hb.nonneg, hb.bounded, ?_⟩
  rw [lastSet_fails _ _ _ h.2]
  exact hb.last

theorem consistent_step (hb : b.Consistent) (hallowed : c.Allowed b) (hsound : c.Sound b) :
    (step b c).Consistent := by
  by_cases h : c.Fails b
  · exact consistent_fails hb h
  · exact consistent_succeeds hb hallowed hsound.2 h

theorem countsRight_of_sound (hb : b.Consistent) (hallowed : c.Allowed b) (hsound : c.Sound b) :
    CountsRight b c := by
  have hlast := (consistent_step hb hallowed hsound).last
  by_cases h : c.Fails b
  · have hstep := step_fails h
    refine ⟨fun hnot => absurd h hnot, fun _ => by rw [hstep], ?_, hlast, ?_⟩
    · rw [hstep, if_pos h.1]
    · -- `do_enable` did not return false, so it threw
      intro n hn
      have hthrows : c.outcome = .throws := by
        cases hc : c.outcome with
        | succeeds => exact absurd hc h.2
        | returnsFalse => exact absurd hc (hsound.1 h.1)
        | throws => rfl
      rw [call_eq, if_pos h.1, hthrows] at hn
      cases hn
  · have hcall := call_succeeds h
    rw [toInt_target hb hallowed hsound.2] at hcall
    refine ⟨fun _ => by rw [step, hcall], fun hfails => absurd hfails h, ?_, hlast, ?_⟩
    · rw [step, hcall]
    · intro n hn
      rw [hcall] at hn
      rw [step, hcall]
      exact (Option.some.inj hn).symm

theorem not_countsRight_of_false (htransition : c.Transition b)
    (hfalse : c.outcome = .returnsFalse) : ¬CountsRight b c := by
  intro hright
  have hfails : c.Fails b := ⟨htransition, by simp [hfalse]⟩
  have hcall : (call b c).1 = some (toInt (c.target b)) := by
    rw [call_eq, if_pos htransition, hfalse]
  have hvalue := hright.value _ hcall
  rw [hright.unchanged hfails] at hvalue
  obtain ⟨onOff, outcome⟩ := c
  cases onOff with
  | true =>
    have hzero : b.enable = 0 := htransition
    simp only [Call.target, hzero] at hvalue
    exact absurd hvalue (by decide)
  | false =>
    have hone : b.enable = 1 := htransition
    simp only [Call.target, hone] at hvalue
    exact absurd hvalue (by decide)

theorem not_countsRight_of_max (hon : c.onOff = true) (hmax : b.enable = 2 ^ 31 - 1) :
    ¬CountsRight b c := by
  intro hright
  have hnot : ¬c.Fails b := by
    rintro ⟨htransition, -⟩
    simp [Call.Transition, hon, hmax] at htransition
  have hcounted := hright.counted hnot
  rw [step, call_succeeds hnot] at hcounted
  simp only [Call.target, hon, hmax] at hcounted
  exact absurd hcounted (by decide)

theorem countsRight_iff (hb : b.Consistent) (hallowed : c.Allowed b) :
    CountsRight b c ↔ c.Sound b := by
  constructor
  · intro hright
    constructor
    · exact fun htransition hfalse => not_countsRight_of_false htransition hfalse hright
    · intro hon
      have hbound := hb.bounded
      by_contra hmax
      exact not_countsRight_of_max hon (by omega) hright
  · exact countsRight_of_sound hb hallowed

end OneCall

theorem counts_right_iff {b : BreakPointBase} (hb : b.Consistent) {calls : List Call}
    (hallowed : Along step Call.Allowed b calls) :
    Along step CountsRight b calls ↔ Along step Call.Sound b calls :=
  along_iff_within BreakPointBase.Consistent
    (fun _ _ hb hc => ⟨countsRight_iff hb hc, consistent_step hb hc⟩) hb hallowed

def fresh : BreakPointBase := ⟨0, []⟩

theorem fresh_consistent : fresh.Consistent := ⟨by decide, by decide, by decide⟩

def upAndDown : List Call :=
  [⟨true, .succeeds⟩, ⟨true, .throws⟩, ⟨false, .throws⟩, ⟨false, .throws⟩, ⟨false, .succeeds⟩]

theorem counts_right_iff_upAndDown :
    Along step CountsRight fresh upAndDown ↔ Along step Call.Sound fresh upAndDown :=
  counts_right_iff fresh_consistent (by decide)

theorem refused_enable_returns_one : ¬Along step CountsRight fresh [⟨true, .returnsFalse⟩] := by
  rintro ⟨hright, -⟩
  exact absurd (hright.value 1 (by decide)) (by decide)

end ZeroBugs.Engine.EnableCounting
