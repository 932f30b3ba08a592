import ZeroBugs.Engine.BreakPointContainers
import ZeroBugs.Lib.LocalSteps

/-! # Removing breakpoint actions -/
namespace ZeroBugs.Engine.RemoveActions
open Engine.BreakPointManager List
open Lib.LocalSteps

structure Call where
  pid : Nat
  lwpid : Nat
  addr : Nat
  name : Option String

namespace Call

def matchesName (c : Call) (action : Action) : Bool := c.name.all fun name => action.name == name

def matchesAddr (c : Call) (addr : Nat) : Bool := c.addr == 0 || c.addr == addr

end Call

def removeActions (c : Call) (b : BreakPointBase) : BreakPointBase × Nat :=
  ({ b with actions := b.actions.filter fun a => !c.matchesName a },
    b.actions.countP c.matchesName)

/-- A map, what has been removed from it, and the breakpoints that `onRemove_` was called
with. -/
structure Removal where
  map : BreakPointMap
  removedCount : Nat
  announced : List Nat

def removeActionsAt (c : Call) (r : Removal) (addr : Nat) : Removal :=
  match r.map.lookup addr with
  | none => r
  | some b =>
    let (b', count) := removeActions c b
    if b'.actions.length = 0 then
      ⟨r.map.erase addr, r.removedCount + count, r.announced ++ [b.id]⟩
    else ⟨r.map.insert addr b', r.removedCount + count, r.announced⟩

def removeFromMap (c : Call) (m : BreakPointMap) : Removal :=
  if c.addr ≠ 0 then removeActionsAt c ⟨m, 0, []⟩ c.addr
  else m.keys.foldl (removeActionsAt c) ⟨m, 0, []⟩

/-- The manager, the result so far and the breakpoints that were announced. -/
structure Outcome where
  manager : Manager
  removedCount : Nat
  announced : List Nat

def Outcome.sweep (c : Call) (o : Outcome) (scope : Option Nat) : Outcome :=
  let r := removeFromMap c (o.manager.map scope)
  ⟨o.manager.setMap scope r.map, o.removedCount + r.removedCount, o.announced ++ r.announced⟩

section
-- whether `thread()` of an object is not null
variable (hasThread : Nat → Bool)

def Call.reachesDeferred (c : Call) (b : BreakPointBase) : Bool :=
  c.matchesAddr b.addr && (c.lwpid == 0 || !hasThread b.id || b.thread.lwpid == c.lwpid)

def deferredLoop (c : Call) : List BreakPointBase → List BreakPointBase × List Nat
  | [] => ([], [])
  | b :: rest =>
    let (kept, announced) := deferredLoop c rest
    if c.reachesDeferred hasThread b then
      let (b', count) := removeActions c b
      if count ≠ 0 ∧ b'.actions.length = 0 then (kept, b.id :: announced)
      else (b' :: kept, announced)
    else (b :: kept, announced)

def sweepMaps (s : Manager) (c : Call) : Outcome :=
  if c.lwpid ≠ 0 then
    if c.lwpid ∈ s.perThreadBreakPoints then (⟨s, 0, []⟩ : Outcome).sweep c (some c.lwpid)
    else ⟨s, 0, []⟩
  else
    let o : Outcome :=
      if c.pid = 0 then
        s.perThreadBreakPoints.keys.foldl (fun o lwpid => o.sweep c (some lwpid)) ⟨s, 0, []⟩
      else ⟨s, 0, []⟩
    o.sweep c none

def removeBreakpointActions (s : Manager) (c : Call) : Outcome :=
  let o := sweepMaps s c
  if o.removedCount = 0 then
    let (kept, announced) := deferredLoop hasThread c o.manager.deferred
    ⟨{ o.manager with deferred := kept }, o.removedCount, o.announced ++ announced⟩
  else o

def groupRemoveBreakpointActions (c : Call) : List Manager → List Manager × Nat
  | [] => ([], 0)
  | s :: group =>
    let (group', removedCount) := groupRemoveBreakpointActions c group
    if c.pid ≠ 0 ∧ s.pid ≠ c.pid then (s :: group', removedCount)
    else
      let o := removeBreakpointActions hasThread s c
      (o.manager :: group', o.removedCount + removedCount)

def Call.Touches (c : Call) (b : BreakPointBase) : Prop := ∃ a ∈ b.actions, c.matchesName a = true

/-- The breakpoint without the actions that match; `none` if it lost its last one. -/
def Call.keep (c : Call) (b : BreakPointBase) : Option BreakPointBase :=
  if b.actions ≠ [] ∧ (removeActions c b).1.actions = [] then none
  else some (removeActions c b).1

/-- The map is the global one and no thread is given, or that of a matching thread. -/
def Call.matchesScope (c : Call) : Option Nat → Bool
  | none => c.lwpid == 0
  | some lwpid => c.lwpid == 0 || c.lwpid == lwpid

/-- A deferred breakpoint with matching address and thread; without thread, if none is
given. -/
def Call.matchesDeferred (c : Call) (b : BreakPointBase) : Bool :=
  c.matchesAddr b.addr && (c.lwpid == 0 || hasThread b.id && b.thread.lwpid == c.lwpid)

def Call.countAt (c : Call) (b : Option BreakPointBase) : Nat :=
  (b.map fun b => (removeActions c b).2).getD 0

def Call.countIn (c : Call) (m : BreakPointMap) : Nat :=
  ((m.keys.filter c.matchesAddr).map fun addr => c.countAt (m.lookup addr)).sum

def scopes (s : Manager) : List (Option Nat) := s.perThreadBreakPoints.keys.map some ++ [none]

def Call.total (c : Call) (s : Manager) : Nat :=
  (((scopes s).filter c.matchesScope).map fun scope => c.countIn (s.map scope)).sum +
    ((s.deferred.filter (c.matchesDeferred hasThread)).map fun b => (removeActions c b).2).sum

/-- The actions that match are removed, breakpoints that lost their last one are gone, all else is
as it was, and the result is the number of actions removed. -/
structure RemovesExactly (s : Manager) (c : Call) (o : Outcome) : Prop where
  maps : ∀ scope addr, (o.manager.map scope).lookup addr =
    ((s.map scope).lookup addr).bind fun b =>
      if c.matchesScope scope && c.matchesAddr addr then c.keep b else some b
  deferred : o.manager.deferred = s.deferred.filterMap fun b =>
    if c.matchesDeferred hasThread b then c.keep b else some b
  count : o.removedCount = c.total hasThread s

def Call.sweeps (c : Call) : Option Nat → Bool
  | none => c.lwpid == 0
  | some lwpid => if c.lwpid = 0 then c.pid == 0 else c.lwpid == lwpid

structure Complete (s : Manager) (c : Call) : Prop where
  threads : c.lwpid = 0 → c.pid ≠ 0 → ∀ lwpid addr b, s.Stores (some lwpid) addr b →
    c.matchesAddr addr = true → ¬c.Touches b
  /-- Where a map is swept, each breakpoint at a matching address has actions. -/
  inUse : ∀ scope addr b, c.sweeps scope = true → s.Stores scope addr b →
    c.matchesAddr addr = true → b.actions ≠ []
  deferred : ∀ b ∈ s.deferred, c.matchesDeferred hasThread b = true → ¬c.Touches b
  /-- A deferred breakpoint without thread has nothing to remove when a thread is given,
  unless something is removed from the map of that thread. -/
  threadless : c.lwpid ≠ 0 →
    (∃ addr b, s.Stores (some c.lwpid) addr b ∧ c.matchesAddr addr = true ∧ c.Touches b) ∨
      ∀ b ∈ s.deferred, c.matchesAddr b.addr = true → hasThread b.id = false → ¬c.Touches b

end

section
variable {c : Call} {b : BreakPointBase}

theorem touches_iff : c.Touches b ↔ (removeActions c b).2 ≠ 0 := by
  rw [← Nat.pos_iff_ne_zero, removeActions, countP_pos_iff, Call.Touches]

theorem removeActions_of_not_touches (h : ¬c.Touches b) : (removeActions c b).1 = b := by
  have hall : b.actions.filter (fun a => !c.matchesName a) = b.actions := by
    rw [filter_eq_self]
    intro a ha
    rw [Bool.not_eq_true', Bool.eq_false_iff]
    exact fun hmatch => h ⟨a, ha, hmatch⟩
  rw [removeActions, hall]

theorem keep_of_not_touches (h : ¬c.Touches b) : c.keep b = some b := by
  rw [Call.keep, removeActions_of_not_touches h]
  exact if_neg fun hboth => hboth.1 hboth.2

theorem keep_eq_some_self_iff : c.keep b = some b ↔ ¬c.Touches b := by
  constructor
  · intro hkeep htouches
    obtain ⟨a, ha, hmatch⟩ := htouches
    rw [Call.keep] at hkeep
    split at hkeep
    · cases hkeep
    · have hsame := congrArg BreakPointBase.actions (Option.some.inj hkeep)
      rw [← hsame, removeActions, mem_filter] at ha
      simp [hmatch] at ha
  · exact keep_of_not_touches

def Call.leave (c : Call) (b : BreakPointBase) : Option BreakPointBase :=
  if (removeActions c b).1.actions = [] then none else some (removeActions c b).1

theorem leave_of_ne_nil (h : b.actions ≠ []) : c.leave b = c.keep b := by
  simp [Call.leave, Call.keep, h]

theorem leave_of_nil (h : b.actions = []) : c.leave b = none := by
  simp [Call.leave, removeActions, h]

end

theorem localStep_removeActionsAt (c : Call) :
    LocalStep (fun (r : Removal) addr => r.map.lookup addr) (removeActionsAt c)
      (·.bind c.leave) where
  here := by
    intro r addr
    unfold removeActionsAt
    cases hlookup : r.map.lookup addr with
    | none => simp [hlookup]
    | some b =>
      by_cases hnil : (removeActions c b).1.actions = [] <;> simp [Call.leave, hnil]
  elsewhere := by
    intro r addr addr' hne
    unfold removeActionsAt
    cases r.map.lookup addr with
    | none => rfl
    | some b =>
      by_cases hnil : (removeActions c b).1.actions = [] <;> simp [hnil, hne]

theorem removedCount_removeActionsAt (c : Call) (r : Removal) (addr : Nat) :
    (removeActionsAt c r addr).removedCount = r.removedCount + c.countAt (r.map.lookup addr) := by
  unfold removeActionsAt Call.countAt
  cases r.map.lookup addr with
  | none => rfl
  | some b => by_cases hnil : (removeActions c b).1.actions = [] <;> simp [hnil]

theorem filter_eq_of_nodup {ks : List Nat} (h : ks.Nodup) (k : Nat) :
    ks.filter (k == ·) = if k ∈ ks then [k] else [] := by
  have hreplicate : ks.filter (k == ·) = List.replicate (ks.count k) k := by
    rw [← filter_beq]
    exact filter_congr fun _ _ => Bool.beq_comm
  rw [hreplicate]
  split
  · next hmem => rw [count_eq_one_of_mem h hmem, replicate_one]
  · next hmem => rw [count_eq_zero_of_not_mem hmem, replicate_zero]

theorem removeFromMap_eq (c : Call) (m : BreakPointMap) :
    removeFromMap c m = (m.keys.filter c.matchesAddr).foldl (removeActionsAt c) ⟨m, 0, []⟩ := by
  rw [removeFromMap]
  split
  · next haddr =>
    have hfilter : m.keys.filter c.matchesAddr = m.keys.filter (c.addr == ·) := by
      refine filter_congr fun addr _ => ?_
      simp [Call.matchesAddr, haddr]
    rw [hfilter, filter_eq_of_nodup m.keys_nodup]
    split
    · rfl
    · next hmem =>
      have hnone : m.lookup c.addr = none := AList.lookup_eq_none.mpr hmem
      simp [removeActionsAt, hnone]
  · next haddr =>
    have hall : m.keys.filter c.matchesAddr = m.keys := by
      rw [filter_eq_self]
      simp [Call.matchesAddr, not_not.mp haddr]
    rw [hall]

theorem mem_keys_of_lookup {m : BreakPointMap} {addr : Nat} {b : BreakPointBase}
    (h : m.lookup addr = some b) : addr ∈ m.keys :=
  AList.mem_keys.mp (AList.lookup_isSome.mp (by simp [h]))

theorem removeFromMap_lookup (c : Call) (m : BreakPointMap) (addr : Nat) :
    (removeFromMap c m).map.lookup addr =
      (m.lookup addr).bind fun b => if c.matchesAddr addr then c.leave b else some b := by
  have hlocal := localStep_removeActionsAt c
  have hnodup : (m.keys.filter c.matchesAddr).Nodup := m.keys_nodup.filter _
  rw [removeFromMap_eq]
  by_cases hmem : addr ∈ m.keys.filter c.matchesAddr
  · have hmatch := (mem_filter.mp hmem).2
    rw [hlocal.get_foldl_of_mem hnodup hmem]
    simp [hmatch]
  · rw [hlocal.get_foldl_of_not_mem hmem]
    cases hlookup : m.lookup addr with
    | none => rfl
    | some b =>
      have hkey : addr ∈ m.keys := mem_keys_of_lookup hlookup
      have hmatch : c.matchesAddr addr = false := by
        rw [Bool.eq_false_iff]
        exact fun hmatch => hmem (mem_filter.mpr ⟨hkey, hmatch⟩)
      simp [hmatch]

theorem removeFromMap_count (c : Call) (m : BreakPointMap) :
    (removeFromMap c m).removedCount = c.countIn m := by
  have hnodup : (m.keys.filter c.matchesAddr).Nodup := m.keys_nodup.filter _
  rw [removeFromMap_eq, (localStep_removeActionsAt c).count_foldl
    (removedCount_removeActionsAt c) hnodup, Nat.zero_add]
  rfl

theorem countIn_eq_zero_iff (c : Call) (m : BreakPointMap) :
    c.countIn m = 0 ↔
      ∀ addr b, m.lookup addr = some b → c.matchesAddr addr = true → ¬c.Touches b := by
  rw [Call.countIn, List.sum_eq_zero_iff_forall_eq_nat]
  simp only [mem_map, mem_filter, forall_exists_index, and_imp, touches_iff, not_not]
  constructor
  · intro h addr b hlookup hmatch
    have hkey : addr ∈ m.keys := mem_keys_of_lookup hlookup
    simpa [hlookup, Call.countAt] using h _ addr hkey hmatch rfl
  · intro h n addr _ hmatch heq
    rw [← heq]
    cases hlookup : m.lookup addr with
    | none => rfl
    | some b => exact h addr b hlookup hmatch

theorem localStep_sweep (c : Call) :
    LocalStep (fun (o : Outcome) scope => o.manager.map scope) (Outcome.sweep c)
      (fun m => (removeFromMap c m).map) where
  here := by
    simp [Outcome.sweep, map_setMap]
  elsewhere := by
    intro o scope scope' hne
    simp [Outcome.sweep, map_setMap, hne]

def sweptScopes (s : Manager) (c : Call) : List (Option Nat) := (scopes s).filter c.sweeps

theorem scopes_nodup (s : Manager) : (scopes s).Nodup := by
  rw [scopes, nodup_append]
  refine ⟨s.perThreadBreakPoints.keys_nodup.map fun _ _ h => Option.some.inj h, by simp, ?_⟩
  simp

theorem sweptScopes_nodup (s : Manager) (c : Call) : (sweptScopes s c).Nodup :=
  (scopes_nodup s).filter _

theorem sweepMaps_eq (s : Manager) (c : Call) :
    sweepMaps s c = (sweptScopes s c).foldl (Outcome.sweep c) ⟨s, 0, []⟩ := by
  rw [sweepMaps, sweptScopes, scopes, filter_append, filter_map]
  by_cases hlwpid : c.lwpid = 0
  · by_cases hpid : c.pid = 0
    · have hall : s.perThreadBreakPoints.keys.filter (c.sweeps ∘ some) =
          s.perThreadBreakPoints.keys := by
        rw [filter_eq_self]
        simp [Call.sweeps, hlwpid, hpid]
      rw [hall]
      simp [hlwpid, hpid, Call.sweeps, foldl_map]
    · have hnone : s.perThreadBreakPoints.keys.filter (c.sweeps ∘ some) = [] := by
        rw [filter_eq_nil_iff]
        simp [Call.sweeps, hlwpid, hpid]
      rw [hnone]
      simp [hlwpid, hpid, Call.sweeps]
  · have hone : s.perThreadBreakPoints.keys.filter (c.sweeps ∘ some) =
        s.perThreadBreakPoints.keys.filter (c.lwpid == ·) := by
      refine filter_congr fun lwpid _ => ?_
      simp [Call.sweeps, hlwpid]
    rw [hone, filter_eq_of_nodup s.perThreadBreakPoints.keys_nodup]
    by_cases hmem : c.lwpid ∈ s.perThreadBreakPoints
    · simp [hlwpid, hmem, AList.mem_keys.mp hmem, Call.sweeps]
    · simp [hlwpid, hmem, AList.mem_keys.not.mp hmem, Call.sweeps]

theorem sweepMaps_deferred (s : Manager) (c : Call) :
    (sweepMaps s c).manager.deferred = s.deferred := by
  rw [sweepMaps_eq]
  have hfold : ∀ (ks : List (Option Nat)) (o : Outcome),
      (ks.foldl (Outcome.sweep c) o).manager.deferred = o.manager.deferred := by
    intro ks
    induction ks with
    | nil => exact fun _ => rfl
    | cons k ks ih =>
      intro o
      rw [foldl_cons, ih]
      exact deferred_setMap _ _ _
  exact hfold _ _

theorem mem_scopes_of_stores {s : Manager} {scope : Option Nat} {addr : Nat}
    {b : BreakPointBase} (h : s.Stores scope addr b) : scope ∈ scopes s := by
  cases scope with
  | none => simp [scopes]
  | some lwpid =>
    have hmem : lwpid ∈ s.perThreadBreakPoints := by
      by_contra hnot
      rw [Manager.Stores, Manager.map, AList.lookup_eq_none.mpr hnot] at h
      simp at h
    exact mem_append_left _ (mem_map_of_mem hmem)

theorem sweepMaps_lookup (s : Manager) (c : Call) (scope : Option Nat) (addr : Nat) :
    ((sweepMaps s c).manager.map scope).lookup addr = ((s.map scope).lookup addr).bind fun b =>
      if c.sweeps scope && c.matchesAddr addr then c.leave b else some b := by
  have hlocal := localStep_sweep c
  rw [sweepMaps_eq]
  by_cases hmem : scope ∈ sweptScopes s c
  · have hsweeps := (mem_filter.mp hmem).2
    rw [hlocal.get_foldl_of_mem (sweptScopes_nodup s c) hmem, removeFromMap_lookup]
    simp [hsweeps]
  · rw [hlocal.get_foldl_of_not_mem hmem]
    cases hlookup : (s.map scope).lookup addr with
    | none => rfl
    | some b =>
      have hsweeps : c.sweeps scope = false := by
        rw [Bool.eq_false_iff]
        exact fun hsweeps => hmem (mem_filter.mpr ⟨mem_scopes_of_stores hlookup, hsweeps⟩)
      simp [hsweeps]

theorem removedCount_sweep (c : Call) (o : Outcome) (scope : Option Nat) :
    (o.sweep c scope).removedCount = o.removedCount + c.countIn (o.manager.map scope) := by
  rw [← removeFromMap_count]
  rfl

theorem sweepMaps_count (s : Manager) (c : Call) :
    (sweepMaps s c).removedCount =
      ((sweptScopes s c).map fun scope => c.countIn (s.map scope)).sum := by
  rw [sweepMaps_eq, (localStep_sweep c).count_foldl (removedCount_sweep c)
    (sweptScopes_nodup s c), Nat.zero_add]

end ZeroBugs.Engine.RemoveActions
