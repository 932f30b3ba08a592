import ZeroBugs.Target.TargetManager

/-! # The threads of a target -/
namespace ZeroBugs.Target.Threads
open Function
open TargetList (Call)

variable {α : Type*} (lwpid : α → Nat)

/-- The asserts, by what they rule out. -/
inductive Fault where
  | lwpidInUse
  | notManaged
  | stillManaged
  | noIterator

/-- `threads_` of `UnixTarget`, and that of `LinuxTarget`, which is by `lwpid`. -/
structure LinuxTarget (α : Type*) where
  threads : Finset α
  threadMap : Nat → Option α
  iterCount : Nat
  threadsToAdd : List α
  threadsToDelete : List α

namespace LinuxTarget

def start : LinuxTarget α := ⟨∅, fun _ => none, 0, [], []⟩

variable [DecidableEq α] (s : LinuxTarget α) (t : α)

def manageThread : Except Fault (LinuxTarget α) :=
  let threads := insert t s.threads
  -- `add_thread_internal`
  if s.threadMap (lwpid t) = none then
    .ok { s with threads := threads, threadMap := update s.threadMap (lwpid t) (some t) }
  else .error .lwpidInUse

def unmanageThread : Except Fault (LinuxTarget α) :=
  -- `remove_thread_internal`
  if s.threadMap (lwpid t) = some t then
    let threadMap := update s.threadMap (lwpid t) none
    if t ∈ s.threads then .ok { s with threadMap := threadMap, threads := s.threads.erase t }
    else .error .notManaged
  else if t ∈ s.threads then .error .stillManaged
  else .ok s

def decrementIterCount : Except Fault (LinuxTarget α) :=
  if s.iterCount = 0 then .error .noIterator
  else if s.iterCount - 1 = 0 then do
    let s' ← s.threadsToDelete.foldlM (unmanageThread lwpid) s
    let s' ← s.threadsToAdd.foldlM (manageThread lwpid) s'
    return { s' with iterCount := 0, threadsToAdd := [], threadsToDelete := [] }
  else .ok { s with iterCount := s.iterCount - 1 }

def step : Call α → Except Fault (LinuxTarget α)
  | .request (.add t) =>
    if s.iterCount = 0 then s.manageThread lwpid t
    else .ok { s with threadsToAdd := s.threadsToAdd ++ [t] }
  | .request (.remove t) =>
    if s.iterCount ≠ 0 then .ok { s with threadsToDelete := s.threadsToDelete ++ [t] }
    else s.unmanageThread lwpid t
  | .acquire => .ok { s with iterCount := s.iterCount + 1 }
  | .release => s.decrementIterCount lwpid

def getThread (pid : Nat) : Option α := (s.threadMap pid).filter (· ∉ s.threadsToDelete)

def Agrees : Prop := ∀ t, t ∈ s.threads ↔ s.threadMap (lwpid t) = some t

end LinuxTarget

open LinuxTarget

/-- Both collections agree, or the caller has broken a rule. -/
def Sound : Except Fault (LinuxTarget α) → Prop
  | .error f => f = .lwpidInUse ∨ f = .noIterator
  | .ok s => s.Agrees lwpid

variable {lwpid} {s : LinuxTarget α} {t : α}

theorem Sound.bind {r : Except Fault (LinuxTarget α)} (h : Sound lwpid r)
    {f : LinuxTarget α → Except Fault (LinuxTarget α)}
    (hf : ∀ s, s.Agrees lwpid → Sound lwpid (f s)) : Sound lwpid (r >>= f) := by
  cases r with
  | error f => exact h
  | ok s => exact hf s h

theorem sound_foldlM {β : Type*} {f : LinuxTarget α → β → Except Fault (LinuxTarget α)}
    (hf : ∀ b s, s.Agrees lwpid → Sound lwpid (f s b)) (l : List β) (h : s.Agrees lwpid) :
    Sound lwpid (l.foldlM f s) := by
  induction l generalizing s with
  | nil => exact h
  | cons b l ih => exact (hf b s h).bind fun _ => ih

variable [DecidableEq α]

theorem manageThread_sound (t : α) (h : s.Agrees lwpid) :
    Sound lwpid (s.manageThread lwpid t) := by
  unfold manageThread
  split
  · next hfree =>
    intro u
    by_cases hu : lwpid u = lwpid t
    · have hout : u ∉ s.threads := fun hu' => by simp [hu ▸ (h u).mp hu'] at hfree
      simp [hu, hout, eq_comm]
    · simp [hu, ne_of_apply_ne lwpid hu, h u]
  · exact .inl rfl

theorem unmanageThread_ok (t : α) (h : s.Agrees lwpid) :
    ∃ s', s.unmanageThread lwpid t = .ok s' ∧ s'.Agrees lwpid ∧
      s'.threadMap (lwpid t) ≠ some t := by
  unfold unmanageThread
  split
  · next hmap =>
    refine ⟨_, if_pos ((h t).mpr hmap), fun u => ?_, by simp⟩
    by_cases hu : lwpid u = lwpid t
    · have hut : u ∈ s.threads → u = t := fun hu' =>
        Option.some.inj (((h u).mp hu').symm.trans (hu ▸ hmap))
      simpa [hu] using mt hut
    · simp [hu, ne_of_apply_ne lwpid hu, h u]
  · next hmap => exact ⟨s, if_neg fun ht => hmap ((h t).mp ht), h, hmap⟩

theorem unmanageThread_sound (t : α) (h : s.Agrees lwpid) :
    Sound lwpid (s.unmanageThread lwpid t) := by
  obtain ⟨s', hs', hagrees, -⟩ := unmanageThread_ok t h
  rwa [hs']

theorem step_sound (c : Call α) (h : s.Agrees lwpid) : Sound lwpid (s.step lwpid c) := by
  cases c with
  | request r =>
    cases r with
    | add t =>
      rw [step]
      split
      · exact manageThread_sound t h
      · exact h
    | remove t =>
      rw [step]
      split
      · exact h
      · exact unmanageThread_sound t h
  | acquire => exact h
  | release =>
    rw [step, decrementIterCount]
    split_ifs
    · exact .inr rfl
    · refine (sound_foldlM (fun t _ => unmanageThread_sound t) _ h).bind fun _ h' => ?_
      exact (sound_foldlM (fun t _ => manageThread_sound t) _ h').bind fun _ h'' => h''
    · exact h

theorem getThread_removed (h : s.Agrees lwpid) {s' : LinuxTarget α}
    (hs' : s.step lwpid (.request (.remove t)) = .ok s') : s'.getThread (lwpid t) ≠ some t := by
  rw [step] at hs'
  split at hs'
  · cases hs'
    simp [getThread, Option.filter_eq_some_iff]
  · obtain ⟨s'', hok, -, hmap⟩ := unmanageThread_ok t h
    cases hok.symm.trans hs'
    exact fun hget => hmap (Option.filter_eq_some_iff.mp hget).1

theorem threads_agree (calls : List (Call α)) :
    Sound lwpid (calls.foldlM (step lwpid) start) ∧
      ∀ s t s', calls.foldlM (step lwpid) start = .ok s →
        s.step lwpid (.request (.remove t)) = .ok s' → s'.getThread (lwpid t) ≠ some t := by
  have hsound : Sound lwpid (calls.foldlM (step lwpid) start) :=
    sound_foldlM (fun c _ => step_sound c) calls fun t => by simp [start]
  refine ⟨hsound, fun s t s' heq hs' => getThread_removed ?_ hs'⟩
  rwa [heq] at hsound

end ZeroBugs.Target.Threads
