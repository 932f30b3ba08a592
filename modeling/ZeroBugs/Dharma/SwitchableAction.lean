import Mathlib

/-! # Actions with a condition and a counter -/
namespace ZeroBugs.Dharma

inductive Condition where
  | false
  | true
  | pending

/-- What `execute` reads and changes, and how many times `execute_impl` ran. A new action has
no hits. -/
structure SwitchableAction where
  expr : String
  autoReset : Bool
  threshold : UInt64
  pending : Bool := false
  hits : UInt64 := 0
  evalResult : Option Bool := none
  runs : Nat := 0

namespace SwitchableAction

/-- `eval_condition`, where `evaluate` gives the value of the condition, or nothing if it
is not done. A kept value is used in its place. -/
def evalCondition (a : SwitchableAction) (evaluate : Option Bool) : Condition × SwitchableAction :=
  if a.expr.isEmpty then (.true, a)
  else
    match a.evalResult.or evaluate with
    | none => (.pending, { a with evalResult := some false })
    | some true => (.true, { a with evalResult := none })
    | some false => (.false, { a with evalResult := none })

/-- The case `COND_TRUE` of `execute_`. -/
def hit (a : SwitchableAction) : SwitchableAction :=
  let hits := a.hits + 1
  let runs := a.threshold == 0 || a.threshold ≤ hits
  { a with
    hits := if runs && a.autoReset then 0 else hits
    runs := if runs then a.runs + 1 else a.runs }

def execute' (a : SwitchableAction) (evaluate : Option Bool) : SwitchableAction :=
  match a.evalCondition evaluate with
  | (.true, a) => a.hit
  | (.false, a) => a
  | (.pending, a) => { a with pending := true }

def execute (a : SwitchableAction) (evaluate : Option Bool) : SwitchableAction :=
  let a := if a.pending then a else a.execute' evaluate
  if a.evalResult.isNone then { a with pending := false } else a

def executeAll (a : SwitchableAction) (values : List Bool) : SwitchableAction :=
  values.foldl (fun a value => a.execute (some value)) a

/-- How often the condition was true; an empty one always is. -/
def trueCount (a : SwitchableAction) (values : List Bool) : Nat :=
  values.countP fun value => a.expr.isEmpty || value

structure CountsHits (a : SwitchableAction) (values : List Bool) : Prop where
  runs : (a.executeAll values).runs =
    if a.autoReset then a.trueCount values / a.threshold.toNat
    else a.trueCount values + 1 - a.threshold.toNat
  hits : (a.executeAll values).hits.toNat =
    if a.autoReset then a.trueCount values % a.threshold.toNat else a.trueCount values
  fresh : (a.executeAll values).evalResult = none

structure Idle (a : SwitchableAction) : Prop where
  pending : a.pending = false
  evalResult : a.evalResult = none

theorem Idle.execute {a : SwitchableAction} (h : a.Idle) (value : Bool) :
    a.execute (some value) = if a.expr.isEmpty || value then a.hit else a := by
  obtain ⟨expr, autoReset, threshold, pending, hits, evalResult, runs⟩ := a
  obtain ⟨rfl, rfl⟩ : pending = false ∧ evalResult = none := ⟨h.1, h.2⟩
  cases hexpr : expr.isEmpty <;> cases value <;>
    simp [SwitchableAction.execute, execute', evalCondition, hexpr, hit]

theorem Idle.executeAll {a : SwitchableAction} (h : a.Idle) (values : List Bool) :
    a.executeAll values = hit^[a.trueCount values] a := by
  induction values generalizing a with
  | nil => rfl
  | cons value values ih =>
    rw [SwitchableAction.executeAll, List.foldl_cons, h.execute, trueCount, List.countP_cons]
    cases htrue : a.expr.isEmpty || value with
    | true => exact ih (a := a.hit) ⟨h.1, h.2⟩
    | false => exact ih h

/-- The counter after `h` hits with the threshold `t`. It has 64 bits, and starts anew. -/
def hitsAfter (autoReset : Bool) (t h : Nat) : Nat := if autoReset then h % t else h % 2 ^ 64

def runsAfter (autoReset : Bool) (t h : Nat) : Nat :=
  if autoReset then h / t else h / 2 ^ 64 * (2 ^ 64 - t) + (h % 2 ^ 64 + 1 - t)

theorem divMod_succ {t : Nat} (ht : 0 < t) (h : Nat) :
    h % t + 1 = t ∧ (h + 1) / t = h / t + 1 ∧ (h + 1) % t = 0 ∨
      h % t + 1 < t ∧ (h + 1) / t = h / t ∧ (h + 1) % t = h % t + 1 := by
  have hlt := Nat.mod_lt h ht
  have hsum := Nat.mod_add_div h t
  by_cases heq : h % t + 1 = t
  · exact .inl ⟨heq, (Nat.div_mod_unique ht).mpr ⟨by rw [Nat.mul_add]; omega, ht⟩⟩
  · exact .inr ⟨by omega, (Nat.div_mod_unique ht).mpr ⟨by omega, by omega⟩⟩

theorem runsAfter_succ {t : Nat} (ht : 1 ≤ t) (hmax : t < 2 ^ 64) (autoReset : Bool) (h : Nat) :
    let n := (hitsAfter autoReset t h + 1) % 2 ^ 64
    hitsAfter autoReset t (h + 1) = (if t ≤ n ∧ autoReset = true then 0 else n) ∧
      runsAfter autoReset t (h + 1) = runsAfter autoReset t h + if t ≤ n then 1 else 0 := by
  cases autoReset with
  | true =>
    simp only [hitsAfter, runsAfter, if_true, and_true]
    obtain ⟨heq, hdiv, hmod⟩ | ⟨hlt, hdiv, hmod⟩ := divMod_succ ht h
    · rw [hdiv, hmod, heq, Nat.mod_eq_of_lt hmax, if_pos (Nat.le_refl t), if_pos (Nat.le_refl t)]
      exact ⟨rfl, rfl⟩
    · rw [hdiv, hmod, Nat.mod_eq_of_lt (hlt.trans hmax), if_neg (by omega), if_neg (by omega)]
      exact ⟨rfl, rfl⟩
  | false =>
    simp only [hitsAfter, runsAfter, Bool.false_eq_true, if_false, and_false]
    obtain ⟨heq, hdiv, hmod⟩ | ⟨hlt, hdiv, hmod⟩ := divMod_succ (t := 2 ^ 64) (by omega) h
    · rw [hdiv, hmod, heq, Nat.mod_self, if_neg (by omega), Nat.add_mul]
      exact ⟨rfl, by omega⟩
    · rw [hdiv, hmod, Nat.mod_eq_of_lt hlt]
      refine ⟨rfl, ?_⟩
      split <;> omega

variable {a : SwitchableAction}

theorem hit_hits (ht : 1 ≤ a.threshold.toNat) :
    let n := (a.hits.toNat + 1) % 2 ^ 64
    a.hit.hits.toNat = (if a.threshold.toNat ≤ n ∧ a.autoReset = true then 0 else n) ∧
      a.hit.runs = a.runs + if a.threshold.toNat ≤ n then 1 else 0 := by
  have hzero : (a.threshold == 0) = false := by
    refine beq_eq_false_iff_ne.mpr fun heq => ?_
    rw [heq] at ht
    exact absurd ht (by decide)
  have hle : a.threshold ≤ a.hits + 1 ↔ a.threshold.toNat ≤ (a.hits.toNat + 1) % 2 ^ 64 := by
    rfl
  simp only [hit, hzero, Bool.false_or, Bool.and_eq_true, decide_eq_true_eq, hle]
  refine ⟨?_, by split <;> rfl⟩
  split
  · rfl
  · exact UInt64.toNat_add _ _

theorem iterate_hit (ht : 1 ≤ a.threshold.toNat) (hhits : a.hits = 0) (hruns : a.runs = 0)
    (hidle : a.Idle) (h : Nat) :
    (hit^[h] a).hits.toNat = hitsAfter a.autoReset a.threshold.toNat h ∧
      (hit^[h] a).runs = runsAfter a.autoReset a.threshold.toNat h ∧
      (hit^[h] a).autoReset = a.autoReset ∧ (hit^[h] a).threshold = a.threshold ∧
      (hit^[h] a).evalResult = none := by
  induction h with
  | zero =>
    refine ⟨?_, ?_, rfl, rfl, hidle.evalResult⟩
    · rw [Function.iterate_zero_apply, hhits, hitsAfter, Nat.zero_mod, Nat.zero_mod, ite_self]
      rfl
    · rw [Function.iterate_zero_apply, hruns, runsAfter]
      simp
      omega
  | succ h ih =>
    obtain ⟨hh, hr, hauto, hthreshold, heval⟩ := ih
    obtain ⟨hhits', hruns'⟩ := hit_hits (a := hit^[h] a) (hthreshold ▸ ht)
    obtain ⟨hnext, hrun⟩ := runsAfter_succ ht a.threshold.toNat_lt a.autoReset h
    rw [Function.iterate_succ_apply']
    refine ⟨?_, ?_, hauto, hthreshold, heval⟩
    · rw [hhits', hnext, hh, hauto, hthreshold]
    · rw [hruns', hrun, hh, hr, hthreshold]

theorem executeAll_counts {expr : String} {autoReset : Bool} {t : UInt64} (ht : 1 ≤ t.toNat)
    (values : List Bool) :
    let a : SwitchableAction := { expr := expr, autoReset := autoReset, threshold := t }
    let h := a.trueCount values
    (a.executeAll values).runs = (if autoReset then h / t.toNat
      else h / 2 ^ 64 * (2 ^ 64 - t.toNat) + (h % 2 ^ 64 + 1 - t.toNat)) ∧
    (a.executeAll values).hits.toNat = (if autoReset then h % t.toNat else h % 2 ^ 64) ∧
    (a.executeAll values).evalResult = none := by
  intro a h
  obtain ⟨hhits, hruns, _, _, heval⟩ := iterate_hit (a := a) ht rfl rfl ⟨rfl, rfl⟩ h
  rw [Idle.executeAll ⟨rfl, rfl⟩]
  exact ⟨hruns, hhits, heval⟩

theorem executeAll_counts_twice :
    let a : SwitchableAction := { expr := "x > 1", autoReset := true, threshold := 2 }
    (a.executeAll [true, false, true]).runs = 1 :=
  (executeAll_counts (t := 2) (by decide) [true, false, true]).1

theorem counter_comes_around :
    ¬CountsHits { expr := "x > 1", autoReset := false, threshold := 1 }
      (List.replicate (2 ^ 64) true) := by
  intro h
  have hcount : (⟨"x > 1", false, 1, false, 0, none, 0⟩ : SwitchableAction).trueCount
      (List.replicate (2 ^ 64) true) = 2 ^ 64 := by
    rw [trueCount, List.countP_replicate, if_pos (Bool.or_true _)]
  have hhits := h.hits
  rw [Idle.executeAll ⟨rfl, rfl⟩, hcount,
    (iterate_hit (by decide) rfl rfl ⟨rfl, rfl⟩ (2 ^ 64)).1, hitsAfter] at hhits
  exact absurd hhits (by decide)

end SwitchableAction
end ZeroBugs.Dharma
