import ZeroBugs.Dharma.Stream

/-! # Environment files -/
namespace ZeroBugs.Dharma.Environ
open List
open Dharma.Stream (CString)

def equalsSign : UInt8 := 61

/-- The locals of `env::read`, and the array. -/
structure Reader where
  str : List UInt8
  hasEquals : Bool
  env : List (List UInt8)

def Reader.next (r : Reader) (c : UInt8) : Reader :=
  if c ≠ 0 then
    { r with
      hasEquals := if c = equalsSign ∧ r.str ≠ [] then true else r.hasEquals
      str := r.str ++ [c] }
  else ⟨[], false, if r.hasEquals then r.env ++ [r.str] else r.env⟩

def read (file : List UInt8) (env : List (List UInt8)) : List (List UInt8) :=
  let r := file.foldl Reader.next ⟨[], false, env⟩
  if r.str ≠ [] ∧ r.hasEquals then r.env ++ [r.str] else r.env

def write (env : List CString) : List UInt8 := env.flatMap fun s => s.bytes ++ [0]

/-- There is a `=` behind the first character. -/
def HasValue (str : List UInt8) : Prop := equalsSign ∈ str.tail
  deriving Decidable

theorem hasValue_snoc (str : List UInt8) (c : UInt8) :
    HasValue (str ++ [c]) ↔ (c = equalsSign ∧ str ≠ []) ∨ HasValue str := by
  cases str with
  | nil => simp [HasValue]
  | cons d str => simp [HasValue, or_comm, eq_comm]

theorem foldl_string {s : List UInt8} (hs : 0 ∉ s) (str : List UInt8) (env : List (List UInt8)) :
    s.foldl Reader.next ⟨str, decide (HasValue str), env⟩ =
      ⟨str ++ s, decide (HasValue (str ++ s)), env⟩ := by
  induction s generalizing str with
  | nil => simp
  | cons c s ih =>
    obtain ⟨hc, hs⟩ := not_or.mp (mt mem_cons.mpr hs)
    have hnext : Reader.next ⟨str, decide (HasValue str), env⟩ c =
        ⟨str ++ [c], decide (HasValue (str ++ [c])), env⟩ := by
      simp only [Reader.next, ne_eq, Ne.symm hc, not_false_eq_true, if_true, hasValue_snoc]
      split <;> simp_all
    rw [foldl_cons, hnext, ih hs, append_assoc, singleton_append]

theorem foldl_write (strs : List CString) (env : List (List UInt8)) :
    (write strs).foldl Reader.next ⟨[], false, env⟩ =
      ⟨[], false, env ++ (strs.map CString.bytes).filter (HasValue ·)⟩ := by
  induction strs generalizing env with
  | nil => simp [write]
  | cons s strs ih =>
    have hstring := foldl_string s.no_nul [] env
    rw [show decide (HasValue []) = false from rfl] at hstring
    have hend (flag : Bool) : Reader.next ⟨s.bytes, flag, env⟩ 0 =
        ⟨[], false, if flag then env ++ [s.bytes] else env⟩ := rfl
    rw [write, flatMap_cons, foldl_append, foldl_append, hstring, nil_append,
      foldl_cons, foldl_nil, hend]
    refine (ih _).trans ?_
    by_cases hvalue : HasValue s.bytes
    · simp [hvalue]
    · simp [hvalue]

theorem read_written (strs : List CString) (env : List (List UInt8)) :
    read (write strs) env = env ++ (strs.map CString.bytes).filter (HasValue ·) := by
  rw [read, foldl_write]
  rfl

end ZeroBugs.Dharma.Environ
