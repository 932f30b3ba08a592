import Mathlib

/-! # Command line arguments -/
namespace ZeroBugs.Zdk.Argv
open List

/-- The arguments of `main`: a vector of pointers, and how many are arguments. -/
structure Args where
  argc : Nat
  argv : Nat → Option String

def shiftLoop : Nat → Nat → (Nat → Option String) → Nat → Option String
  | 0, _, argv => argv
  | left + 1, i, argv => shiftLoop left (i + 1) (Function.update argv i (argv (i + 1)))

def argvShift (args : Args) (i : Nat) : Args :=
  ⟨args.argc - 1, shiftLoop (args.argc - 1 - i) i args.argv⟩

/-- What a loop does with the argument at an index: whether it is removed, and what the loop
remembers. -/
abbrev Options (σ : Type) := σ → Nat → String → Bool × σ

variable {σ : Type} (options : Options σ)

/-- A parse loop with `left` arguments to go, or nothing if it comes to a null pointer. -/
def parseLoop : Nat → Nat → Args → σ → Option (Args × σ)
  | 0, _, args, s => some (args, s)
  | left + 1, i, args, s =>
    match args.argv i with
    | none => none
    | some arg =>
      match options s i arg with
      | (true, s) => parseLoop left i (argvShift args i) s
      | (false, s) => parseLoop left (i + 1) args s

def parse (args : List String) (s : σ) : Option (Args × σ) :=
  parseLoop options (args.length - 1) 1 ⟨args.length, fun k => args[k]?⟩ s

/-- The loop of `initialize`, up to `--help`, which ends it. It collects the debugger's arguments,
and all after `--`. -/
def engineOptions : Options (Bool × List String) := fun (passThru, args) i arg =>
  if passThru then (true, passThru, args ++ [arg])
  else if arg.toList.head? = some '-' then
    if arg = "--" then (true, true, args)
    else (arg ∈ ["-v", "--verbose", "--main", "--no-main", "--no-hw-bp", "--trace-fork",
      "--no-trace-fork", "--fork", "--spawn-on-fork", "--no-banner", "--syscall-break",
      "--syscall-trace", "--break-on-throw"], passThru, args)
  else if i ≤ 2 ∧ (arg.toList.head?.any Char.isDigit) then
    (false, passThru, args ++ ["--pid=" ++ arg])
  else (false, passThru, args ++ [arg])

/-- The arguments from the index `i` on that are not removed. -/
def unmatched : Nat → List String → σ → List String
  | _, [], _ => []
  | i, arg :: rest, s =>
    match options s i arg with
    | (true, s) => unmatched i rest s
    | (false, s) => arg :: unmatched (i + 1) rest s

structure Holds (v : Args) (args : List String) : Prop where
  argc : v.argc = args.length
  entries : ∀ k < args.length, v.argv k = args[k]?

/-- After the loop the vector holds what was not removed, and a null pointer behind it. -/
def RemovesMatched (args : List String) (s : σ) : Prop :=
  ∃ v s', parse options args s = some (v, s') ∧
    Holds v (args.take 1 ++ unmatched options 1 (args.drop 1) s) ∧ v.argv v.argc = none

theorem length_unmatched (i : Nat) (args : List String) (s : σ) :
    (unmatched options i args s).length ≤ args.length := by
  induction args generalizing i s with
  | nil => exact Nat.le_refl 0
  | cons arg rest ih =>
    rw [unmatched]
    split
    · exact Nat.le_succ_of_le (ih _ _)
    · exact Nat.succ_le_succ (ih _ _)

theorem shiftLoop_eq (left i : Nat) (argv : Nat → Option String) (k : Nat) :
    shiftLoop left i argv k = if i ≤ k ∧ k < i + left then argv (k + 1) else argv k := by
  induction left generalizing i argv with
  | zero => rw [shiftLoop, if_neg (by omega)]
  | succ left ih =>
    rw [shiftLoop, ih]
    by_cases hk : k = i
    · subst hk
      rw [if_neg (by omega), Function.update_self, if_pos (by omega)]
    · by_cases hin : i + 1 ≤ k ∧ k < i + 1 + left
      · rw [if_pos hin, Function.update_of_ne (by omega), if_pos (by omega)]
      · rw [if_neg hin, Function.update_of_ne hk, if_neg (by omega)]

theorem Holds.shift {v : Args} {before after : List String} {arg : String}
    (h : Holds v (before ++ arg :: after)) :
    Holds (argvShift v before.length) (before ++ after) ∧
      (argvShift v before.length).argv (argvShift v before.length).argc ≠ none := by
  have hargc := h.argc
  simp only [length_append, length_cons] at hargc
  refine ⟨⟨?_, fun k hk => ?_⟩, ?_⟩
  · simp only [argvShift, length_append]
    omega
  · rw [length_append] at hk
    simp only [argvShift, shiftLoop_eq]
    split
    · rw [h.entries _ (by simp; omega), getElem?_append_right (by omega),
        getElem?_append_right (by omega), show k + 1 - before.length = k - before.length + 1 by
        omega,
        getElem?_cons_succ]
    · rw [h.entries _ (by simp; omega), getElem?_append_left (by omega),
        getElem?_append_left (by omega)]
  · simp only [argvShift, shiftLoop_eq]
    rw [if_neg (by omega), h.entries _ (by simp; omega), ← Option.isSome_iff_ne_none,
      Option.isSome_iff_exists]
    exact ⟨_, getElem?_eq_getElem (by simp; omega)⟩

theorem parseLoop_holds {v : Args} (before after : List String) (h : Holds v (before ++ after))
    (s : σ) :
    ∃ v' s', parseLoop options after.length before.length v s = some (v', s') ∧
      Holds v' (before ++ unmatched options before.length after s) ∧
      (v'.argv v'.argc = none ↔
        v.argv v.argc = none ∧ unmatched options before.length after s = after) := by
  induction after generalizing before v s with
  | nil => exact ⟨v, s, rfl, h, by simp [unmatched]⟩
  | cons arg after ih =>
    have hentry : v.argv before.length = some arg := by
      rw [h.entries _ (by simp)]
      simp
    rw [length_cons, parseLoop, hentry, unmatched]
    dsimp only
    rcases options s before.length arg with ⟨removed, s'⟩
    cases removed with
    | true =>
      obtain ⟨hholds, hlast⟩ := h.shift
      obtain ⟨v', s'', hrun, hv', hend⟩ := ih before hholds s'
      refine ⟨v', s'', hrun, hv', ?_⟩
      rw [hend]
      refine iff_of_false (fun hnone => hlast hnone.1) fun hsame => ?_
      have hlen := length_unmatched options before.length after s'
      have heq := congrArg List.length hsame.2
      simp only [length_cons] at heq
      omega
    | false =>
      obtain ⟨v', s'', hrun, hv', hend⟩ := ih (before ++ [arg]) (by simpa using h) s'
      rw [length_append, length_singleton] at hrun hv' hend
      refine ⟨v', s'', hrun, by simpa using hv', ?_⟩
      rw [hend, cons_inj_right]

theorem removesMatched_iff (args : List String) (s : σ) :
    RemovesMatched options args s ↔ unmatched options 1 (args.drop 1) s = args.drop 1 := by
  cases args with
  | nil => exact iff_of_true ⟨_, _, rfl, ⟨rfl, nofun⟩, rfl⟩ rfl
  | cons program args =>
    obtain ⟨v, s', hrun, hholds, hend⟩ := parseLoop_holds options [program] args
      (v := ⟨_, fun k => (program :: args)[k]?⟩) ⟨rfl, fun _ _ => rfl⟩ s
    have hnull : (program :: args)[(program :: args).length]? = none := by simp
    refine ⟨fun ⟨v', s'', hrun', _, hnone⟩ => ?_, fun hsame =>
      ⟨v, s', hrun, hholds, hend.mpr ⟨hnull, hsame⟩⟩⟩
    cases hrun.symm.trans hrun'
    exact (hend.mp hnone).2

theorem verbose_not_removed :
    ¬RemovesMatched engineOptions ["zero", "-v", "a.out"] (false, []) := by
  intro ⟨v, s', hrun, _, hnone⟩
  cases hrun
  cases hnone

end ZeroBugs.Zdk.Argv
