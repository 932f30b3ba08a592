import ZeroBugs.Engine.BreakPointManagerRuns

/-! # Breakpoints of a forked process -/
namespace ZeroBugs.Engine.BreakPointManager
open Lib.Runs List Function

/-- Every entry is under its address, and what is in the global map and not deferred
is a software breakpoint, what is in the map of a thread is none. -/
structure Manager.WellFormed (s : Manager) : Prop where
  stored : ∀ scope a b, s.Stores scope a b →
    b.addr = a ∧ (b.isDeferred = false → (b.type = .software ↔ scope = none))
  deferred : ∀ d ∈ s.deferred, d.isDeferred = true

theorem wellFormed_empty (pid : Nat) : (Manager.empty pid).WellFormed where
  stored _ _ _ h := (not_stores_empty _ _ _ _ h).elim
  deferred := by simp [Manager.empty]

variable {s s' : Manager} {a : Nat} {b : BreakPointBase}

theorem Manager.WellFormed.insert (h : s.WellFormed) {scope : Option Nat}
    (hmap : s'.map = update s.map scope ((s.map scope).insert a b))
    (hd : s'.deferred = s.deferred) (haddr : b.addr = a)
    (hscope : b.isDeferred = false → (b.type = .software ↔ scope = none)) : s'.WellFormed where
  stored scope' a' b' hb := by
    rcases stores_insert hmap hb with ⟨rfl, rfl, rfl⟩ | hold
    · exact ⟨haddr, hscope⟩
    · exact h.stored _ _ _ hold
  deferred := hd ▸ h.deferred

theorem mem_values {m : BreakPointMap} :
    b ∈ m.values ↔ ∃ a, m.lookup a = some b := by
  constructor
  · intro h
    obtain ⟨⟨a, b⟩, he, rfl⟩ := mem_map.mp h
    exact ⟨a, AList.mem_lookup_iff.mpr he⟩
  · rintro ⟨a, h⟩
    exact mem_map.mpr ⟨⟨a, b⟩, AList.mem_lookup_iff.mp h, rfl⟩

theorem mem_perThread :
    b ∈ s.perThread ↔ ∃ p a, s.Stores (some p) a b := by
  constructor
  · intro h
    obtain ⟨⟨p, m⟩, he, hb⟩ := List.mem_flatMap.mp h
    obtain ⟨a, ha⟩ := mem_values.mp hb
    refine ⟨p, a, ?_⟩
    rw [Manager.Stores, Manager.map, Option.mem_def.mp (AList.mem_lookup_iff.mpr he)]
    exact ha
  · rintro ⟨p, a, h⟩
    rw [Manager.Stores, Manager.map] at h
    cases hm : s.perThreadBreakPoints.lookup p with
    | none => simp [hm] at h
    | some m =>
      rw [hm] at h
      exact List.mem_flatMap.mpr ⟨⟨p, m⟩, AList.mem_lookup_iff.mp hm, mem_values.mpr ⟨a, h⟩⟩

structure IsClone (b b' : BreakPointBase) : Prop where
  addr : b'.addr = b.addr
  actions : b'.actions = b.actions
  isDeferred : b'.isDeferred = b.isDeferred
  type : b.isDeferred = false → (b'.type = .software ↔ b.type = .software)
  notHardware : b'.type ≠ .hardware

variable {env : Env} {thread : Thread}

theorem clone_isClone {id : Nat} {b' : BreakPointBase}
    (h : b.clone env id thread = .ok b') : IsClone b b' := by
  unfold BreakPointBase.clone at h
  split at h
  · rename_i hk
    cases h
    refine ⟨rfl, rfl, rfl, fun _ => Iff.rfl, ?_⟩
    simp [BreakPointBase.type, hk]
  · rename_i hk
    cases h
    refine ⟨rfl, rfl, rfl, fun _ => Iff.rfl, ?_⟩
    simp [BreakPointBase.type, hk]
  · rename_i hk
    cases h
    refine ⟨rfl, rfl, ?_, ?_, ?_⟩ <;> simp [BreakPointBase.isDeferred, BreakPointBase.type, hk]
  · rename_i hk
    split at h
    · cases henable : env.enable thread b.addr with
      | error e =>
        rw [henable] at h
        cases h
      | ok r =>
        rw [henable] at h
        cases h
        refine ⟨rfl, rfl, ?_, ?_, ?_⟩ <;> simp [BreakPointBase.isDeferred, BreakPointBase.type, hk]
    · cases h
      refine ⟨rfl, rfl, ?_, ?_, ?_⟩ <;> simp [BreakPointBase.isDeferred, BreakPointBase.type, hk]

theorem lookup_insertNew (m : BreakPointMap) (b : BreakPointBase) (a : Nat) :
    (insertNew m b).lookup a = (m.lookup a).or (if b.addr = a then some b else none) := by
  unfold insertNew
  split
  · rename_i hmem
    by_cases ha : b.addr = a
    · subst ha
      obtain ⟨b', hb'⟩ := Option.isSome_iff_exists.mp (AList.lookup_isSome.mpr hmem)
      simp [hb']
    · simp [ha]
  · rename_i hmem
    by_cases ha : b.addr = a
    · subst ha
      simp [AList.lookup_eq_none.mpr hmem]
    · simp [ha, AList.lookup_insert_ne (Ne.symm ha)]

theorem cloneBreakpoint_spec
    (h : cloneBreakpoint env thread s b = .ok s') :
    s'.deferred = s.deferred ∧ s'.pid = s.pid ∧ ∃ b', IsClone b b' ∧ s'.map =
      update s.map (scopeOf b.type s.pid)
        (insertNew (s.map (scopeOf b.type s.pid)) b') := by
  unfold cloneBreakpoint at h
  split at h
  · cases h
  · cases hclone : b.clone env s.created thread with
    | error e =>
      rw [hclone] at h
      cases h
    | ok b' =>
      rw [hclone] at h
      cases h
      exact ⟨deferred_setMap .., pid_setMap .., b', clone_isClone hclone, map_setMap ..⟩

def landsAt (pid : Nat) (scope : Option Nat) (a : Nat) (b : BreakPointBase) : Bool :=
  scopeOf b.type pid = scope ∧ b.addr = a

theorem landsAt_iff {pid : Nat} {scope : Option Nat} :
    landsAt pid scope a b = true ↔ scopeOf b.type pid = scope ∧ b.addr = a :=
  decide_eq_true_iff

theorem lookup_cloneBreakpoint {pid : Nat} {b' : BreakPointBase}
    (hclone : IsClone b b') (hmap : s'.map = update s.map (scopeOf b.type pid)
      (insertNew (s.map (scopeOf b.type pid)) b')) (scope : Option Nat) (a : Nat) :
    (s'.map scope).lookup a =
      ((s.map scope).lookup a).or (if landsAt pid scope a b then some b' else none) := by
  rw [hmap]
  by_cases hscope : scopeOf b.type pid = scope
  · subst hscope
    rw [update_self, lookup_insertNew, hclone.addr]
    simp [landsAt]
  · rw [update_of_ne (Ne.symm hscope)]
    simp [landsAt, hscope]

theorem cloneBreakpoints_spec
    {bs : List BreakPointBase} (h : bs.foldlM (cloneBreakpoint env thread) s = .ok s') :
    s'.deferred = s.deferred ∧ s'.pid = s.pid ∧
      (∀ scope a b, s.Stores scope a b → s'.Stores scope a b) ∧
      ∀ scope a, (s.map scope).lookup a = none →
        Option.Rel IsClone (bs.find? (landsAt s.pid scope a)) ((s'.map scope).lookup a) := by
  induction bs generalizing s with
  | nil =>
    cases h
    refine ⟨rfl, rfl, fun _ _ _ h => h, fun scope a hfree => ?_⟩
    rw [hfree]
    exact .none
  | cons b bs ih =>
    rw [foldlM_cons] at h
    cases hstep : cloneBreakpoint env thread s b with
    | error e =>
      rw [hstep] at h
      cases h
    | ok s₁ =>
      rw [hstep] at h
      obtain ⟨hd₁, hpid₁, b', hclone, hmap₁⟩ := cloneBreakpoint_spec hstep
      have hlookup := lookup_cloneBreakpoint hclone hmap₁
      obtain ⟨hd, hpid, hkeep, hnew⟩ := ih h
      refine ⟨hd.trans hd₁, hpid.trans hpid₁, ?_, ?_⟩
      · intro scope a c hc
        refine hkeep scope a c ?_
        rw [Manager.Stores, hlookup, hc]
        rfl
      · intro scope a hfree
        cases hlands : landsAt s.pid scope a b with
        | true =>
          have hstored : s'.Stores scope a b' := by
            refine hkeep scope a b' ?_
            rw [Manager.Stores, hlookup, hfree, hlands]
            rfl
          rw [find?_cons_of_pos hlands, show (s'.map scope).lookup a = some b' from hstored]
          exact .some hclone
        | false =>
          rw [find?_cons_of_neg (by simp [hlands]), ← hpid₁]
          refine hnew scope a ?_
          rw [hlookup, hfree, hlands]
          rfl

/-- Global breakpoints are global with the same actions, deferred ones are deferred and in no
map, and the one of the child's thread at an address has the actions of all the parent's threads
there. -/
structure Mirrors (parent child : Manager) : Prop where
  global : ∀ a b, parent.Stores none a b →
    ∃ c, child.Stores none a c ∧ c.type = .software ∧ c.actions = b.actions
  deferred : ∀ b ∈ parent.enumBreakpoints, b.isDeferred = true →
    ∃ c ∈ child.deferred, c.addr = b.addr ∧ c.actions = b.actions
  maps : ∀ scope a c, child.Stores scope a c → c.isDeferred = false
  perThread : ∀ a action, (∃ c, child.Stores (some child.pid) a c ∧ action ∈ c.actions) ↔
    ∃ p b, parent.Stores (some p) a b ∧ action ∈ b.actions

structure Mergeable (parent : Manager) : Prop where
  none_deferred : ∀ b ∈ parent.enumBreakpoints, b.isDeferred = false
  first_has_all : ∀ a b, parent.perThread.find? (·.addr = a) = some b →
    ∀ b' ∈ parent.perThread, b'.addr = a → b'.actions ⊆ b.actions

section Mirror

variable {parent : Manager} (hwf : parent.WellFormed)
  (hnone : ∀ b ∈ parent.enumBreakpoints, b.isDeferred = false) (pid : Nat)

include hwf hnone

theorem deferred_eq_nil : parent.deferred = [] := by
  refine eq_nil_iff_forall_not_mem.mpr fun d hd => ?_
  have hno := hnone d (mem_append_right _ hd)
  rw [hwf.deferred d hd] at hno
  cases hno

theorem global_type (hb : b ∈ parent.globalBreakPoints.values) :
    b.type = .software := by
  obtain ⟨a, ha⟩ := mem_values.mp hb
  have hno := hnone b (mem_append_left _ (mem_append_left _ hb))
  exact ((hwf.stored none a b ha).2 hno).mpr rfl

theorem perThread_type (hb : b ∈ parent.perThread) :
    b.type ≠ .software := by
  obtain ⟨p, a, ha⟩ := mem_perThread.mp hb
  have hno := hnone b (mem_append_left _ (mem_append_right _ hb))
  intro htype
  cases ((hwf.stored (some p) a b ha).2 hno).mp htype

theorem find_global (hb : parent.Stores none a b) :
    parent.enumBreakpoints.find? (landsAt pid none a) = some b := by
  have hmem : b ∈ parent.globalBreakPoints.values := mem_values.mpr ⟨a, hb⟩
  have hlands : landsAt pid none a b = true :=
    landsAt_iff.mpr ⟨by simp [scopeOf, global_type hwf hnone hmem], (hwf.stored none a b hb).1⟩
  have hfind : parent.globalBreakPoints.values.find? (landsAt pid none a) = some b := by
    cases hf : parent.globalBreakPoints.values.find? (landsAt pid none a) with
    | none => exact absurd hlands (find?_eq_none.mp hf b hmem)
    | some x =>
      obtain ⟨a', hx⟩ := mem_values.mp (mem_of_find?_eq_some hf)
      obtain ⟨-, haddr⟩ := landsAt_iff.mp (find?_some hf)
      obtain rfl : a' = a := ((hwf.stored none a' x hx).1.symm.trans haddr)
      exact hx.symm.trans hb
  rw [Manager.enumBreakpoints, find?_append, find?_append, hfind]
  rfl

theorem find_perThread (a : Nat) :
    parent.enumBreakpoints.find? (landsAt pid (some pid) a) =
      parent.perThread.find? (·.addr = a) := by
  have hglobal : parent.globalBreakPoints.values.find? (landsAt pid (some pid) a) = none := by
    refine find?_eq_none.mpr fun b hb hlands => ?_
    obtain ⟨hscope, -⟩ := landsAt_iff.mp hlands
    simp [scopeOf, global_type hwf hnone hb] at hscope
  have hthreads : parent.perThread.find? (landsAt pid (some pid) a) =
      parent.perThread.find? (·.addr = a) := by
    rw [← head?_filter, ← head?_filter]
    refine congrArg List.head? (filter_congr fun b hb => ?_)
    simp [landsAt, scopeOf, perThread_type hwf hnone hb]
  rw [Manager.enumBreakpoints, deferred_eq_nil hwf hnone, append_nil, find?_append,
    hglobal, hthreads]
  rfl

end Mirror

theorem exists_right_of_rel {R : BreakPointBase → BreakPointBase → Prop}
    {o : Option BreakPointBase} (h : Option.Rel R (some b) o) : ∃ c, o = some c ∧ R b c := by
  cases h with
  | some h => exact ⟨_, rfl, h⟩

theorem exists_left_of_rel {R : BreakPointBase → BreakPointBase → Prop} {c : BreakPointBase}
    {o : Option BreakPointBase} (h : Option.Rel R o (some c)) : ∃ b, o = some b ∧ R b c := by
  cases h with
  | some h => exact ⟨_, rfl, h⟩

/-- The child has no deferred breakpoints, and at each place of its maps the clone of
the first breakpoint that lands there. -/
structure ClonedInto (parent child : Manager) : Prop where
  deferred : child.deferred = []
  places : ∀ scope a, Option.Rel IsClone
    (parent.enumBreakpoints.find? (landsAt child.pid scope a)) ((child.map scope).lookup a)

theorem replicateBreakpoints_clonedInto {group : List Manager} {ppid pid : Nat}
    {parent child : Manager} (hparent : group.find? (·.pid = ppid) = some parent)
    (hrun : replicateBreakpoints env group ppid thread (.empty pid) = .ok child) :
    ClonedInto parent child := by
  rw [replicateBreakpoints, hparent] at hrun
  obtain ⟨hd, hpid, -, hclones⟩ := cloneBreakpoints_spec hrun
  refine ⟨hd, fun scope a => ?_⟩
  rw [hpid]
  refine hclones scope a (Option.eq_none_iff_forall_ne_some.mpr fun b hb => ?_)
  exact not_stores_empty pid scope a b hb

namespace ClonedInto

variable {parent child : Manager}

theorem none_deferred (hcloned : ClonedInto parent child) (hmirrors : Mirrors parent child) :
    ∀ b ∈ parent.enumBreakpoints, b.isDeferred = false := by
  intro b hb
  cases hdef : b.isDeferred with
  | false => rfl
  | true =>
    obtain ⟨c, hc, -⟩ := hmirrors.deferred b hb hdef
    rw [hcloned.deferred] at hc
    cases hc

section

variable (hcloned : ClonedInto parent child) (hwf : parent.WellFormed)
include hcloned hwf

theorem perThread_actions
    (hnone : ∀ b ∈ parent.enumBreakpoints, b.isDeferred = false) (a : Nat) (action : Action) :
    (∃ c, child.Stores (some child.pid) a c ∧ action ∈ c.actions) ↔
      ∃ b, parent.perThread.find? (·.addr = a) = some b ∧ action ∈ b.actions := by
  have hrel := hcloned.places (some child.pid) a
  rw [find_perThread hwf hnone] at hrel
  constructor
  · rintro ⟨c, hc, haction⟩
    obtain ⟨b, hb, hclone⟩ := exists_left_of_rel (Eq.mp (congrArg _ hc) hrel)
    exact ⟨b, hb, hclone.actions ▸ haction⟩
  · rintro ⟨b, hb, haction⟩
    rw [hb] at hrel
    obtain ⟨c, hc, hclone⟩ := exists_right_of_rel hrel
    exact ⟨c, hc, hclone.actions.symm ▸ haction⟩

theorem mergeable
    (hmirrors : Mirrors parent child) : Mergeable parent := by
  have hnone := hcloned.none_deferred hmirrors
  refine ⟨hnone, fun a b hfirst b' hb' haddr action haction => ?_⟩
  obtain ⟨p, a', hstored⟩ := mem_perThread.mp hb'
  obtain rfl : a' = a := (hwf.stored _ _ _ hstored).1.symm.trans haddr
  have hchild := (hmirrors.perThread a' action).mpr ⟨p, b', hstored, haction⟩
  obtain ⟨first, hfind, hmem⟩ := (hcloned.perThread_actions hwf hnone a' action).mp hchild
  rw [hfirst] at hfind
  cases hfind
  exact hmem

theorem mirrors
    (hmerge : Mergeable parent) : Mirrors parent child := by
  have hnone := hmerge.none_deferred
  refine ⟨?_, ?_, ?_, ?_⟩
  · intro a b hb
    have hrel := hcloned.places none a
    rw [find_global hwf hnone _ hb] at hrel
    obtain ⟨c, hc, hclone⟩ := exists_right_of_rel hrel
    have hmem : b ∈ parent.globalBreakPoints.values := mem_values.mpr ⟨a, hb⟩
    have hno := hnone b (mem_append_left _ (mem_append_left _ hmem))
    exact ⟨c, hc, (hclone.type hno).mpr (global_type hwf hnone hmem), hclone.actions⟩
  · intro b hb hdef
    rw [hnone b hb] at hdef
    cases hdef
  · intro scope a c hc
    obtain ⟨b, hb, hclone⟩ := exists_left_of_rel (Eq.mp (congrArg _ hc) (hcloned.places scope a))
    rw [hclone.isDeferred, hnone b (mem_of_find?_eq_some hb)]
  · intro a action
    rw [hcloned.perThread_actions hwf hnone]
    constructor
    · rintro ⟨b, hfirst, haction⟩
      obtain ⟨p, a', hstored⟩ := mem_perThread.mp (mem_of_find?_eq_some hfirst)
      have haddr : b.addr = a := by simpa using find?_some hfirst
      obtain rfl : a' = a := (hwf.stored _ _ _ hstored).1.symm.trans haddr
      exact ⟨p, b, hstored, haction⟩
    · rintro ⟨p, b', hb', haction⟩
      have hmem : b' ∈ parent.perThread := mem_perThread.mpr ⟨p, a, hb'⟩
      have haddr : b'.addr = a := (hwf.stored _ _ _ hb').1
      -- some breakpoint is at the address, so there is a first one
      cases hfirst : parent.perThread.find? (·.addr = a) with
      | none => exact absurd (decide_eq_true haddr) (find?_eq_none.mp hfirst b' hmem)
      | some b => exact ⟨b, rfl, hmerge.first_has_all a b hfirst b' hmem haddr haction⟩

end

end ClonedInto

theorem wellFormed_setBreakpoint (hwf : s.WellFormed) (env : Env) (r : Request) :
    (setBreakpoint env r s).2.WellFormed := by
  cases setBreakpoint_effect env r s with
  | same hmap hd =>
    exact ⟨fun _ _ _ h => hwf.stored _ _ _ (stores_of_map_eq hmap h), hd ▸ hwf.deferred⟩
  | found b hb hmap hd =>
    obtain ⟨haddr, hscope⟩ := hwf.stored _ _ _ hb
    exact hwf.insert hmap hd (by rw [addActions_addr, haddr]) (by simpa using hscope)
  | foundDeferred id hmap hd =>
    refine ⟨fun _ _ _ h => hwf.stored _ _ _ (stores_of_map_eq hmap h), fun d hmem => ?_⟩
    rw [hd] at hmem
    obtain ⟨d, hd', rfl⟩ := mem_map.mp hmem
    split
    · rw [addActions_isDeferred, hwf.deferred d hd']
    · exact hwf.deferred d hd'
  | deferred hnew h id hmap hd =>
    refine ⟨fun _ _ _ h => hwf.stored _ _ _ (stores_of_map_eq hmap h), fun d hmem => ?_⟩
    rw [hd, mem_append, mem_singleton] at hmem
    rcases hmem with hold | rfl
    · exact hwf.deferred d hold
    · rw [addActions_isDeferred]
      rfl
  | created hnew h id b hb hmap hd =>
    rcases createBreakpoint_cases hb with ⟨htype, reg, rfl⟩ | ⟨-, count, thread, -, rfl⟩
    · refine hwf.insert hmap hd (by simp) fun _ => ?_
      simp [BreakPointBase.type, Request.scope, scopeOf, htype]
    · refine hwf.insert hmap hd (by simp) fun _ => ?_
      by_cases hsoft : r.type = .software <;>
        simp [BreakPointBase.type, Request.scope, scopeOf, hsoft]

theorem wellFormed_erase (hwf : s.WellFormed) (env : Env) (b : BreakPointBase) :
    (erase env b s).2.WellFormed := by
  unfold erase
  split
  · exact hwf
  · split
    · exact hwf
    · split
      · exact ⟨hwf.stored, fun d hd => hwf.deferred d (mem_of_mem_eraseP hd)⟩
      · refine ⟨fun _ _ _ h => hwf.stored _ _ _ (stores_erase (map_setMap ..) h), ?_⟩
        rw [deferred_setMap]
        exact hwf.deferred

theorem ClonedInto.wellFormed {parent child : Manager} (hcloned : ClonedInto parent child) :
    child.WellFormed := by
  refine ⟨fun scope a c hc => ?_, by simp [hcloned.deferred]⟩
  obtain ⟨b, hb, hclone⟩ := exists_left_of_rel (Eq.mp (congrArg _ hc) (hcloned.places scope a))
  obtain ⟨hscope, haddr⟩ := landsAt_iff.mp (find?_some hb)
  refine ⟨hclone.addr.trans haddr, fun hdef => ?_⟩
  rw [hclone.type (hclone.isDeferred ▸ hdef), ← hscope, scopeOf]
  by_cases hsoft : b.type = .software <;> simp [hsoft]

inductive Reachable : Manager → Prop where
  | empty (pid : Nat) : Reachable (.empty pid)
  | step {s : Manager} (h : Reachable s) (op : Op) : Reachable (op.step s)
  | fork {env : Env} {group : List Manager} {ppid pid : Nat} {thread : Thread}
      {parent child : Manager} (hparent : group.find? (·.pid = ppid) = some parent)
      (hrun : replicateBreakpoints env group ppid thread (.empty pid) = .ok child) :
      Reachable child

theorem Reachable.run (h : Reachable s) (ops : List Op) :
    Reachable (run Op.step s ops) := by
  induction ops generalizing s with
  | nil => exact h
  | cons op ops ih => exact ih (h.step op)

theorem Reachable.wellFormed (h : Reachable s) : s.WellFormed := by
  induction h with
  | empty pid => exact wellFormed_empty pid
  | step _ op ih =>
    cases op with
    | set env r => exact wellFormed_setBreakpoint ih env r
    | erase env b => exact wellFormed_erase ih env b
  | fork hparent hrun => exact (replicateBreakpoints_clonedInto hparent hrun).wellFormed

theorem mirrors_iff {env : Env} {group : List Manager} {ppid pid : Nat} {thread : Thread}
    {parent child : Manager} (hparent : group.find? (·.pid = ppid) = some parent)
    (hwf : parent.WellFormed)
    (hrun : replicateBreakpoints env group ppid thread (.empty pid) = .ok child) :
    Mirrors parent child ↔ Mergeable parent := by
  have hcloned := replicateBreakpoints_clonedInto hparent hrun
  exact ⟨hcloned.mergeable hwf, hcloned.mirrors hwf⟩

/-! Two threads of the parent stop at one address, each with an action of its own. -/

def twoThreadOps : List Op :=
  [.set softOnly ⟨⟨1, 100⟩, .emulated, 0x4000, some ⟨1, "log", 1⟩, false⟩,
    .set softOnly ⟨⟨2, 101⟩, .emulated, 0x4000, some ⟨2, "stop", 2⟩, false⟩]

def twoThreads : Manager := run Op.step (.empty 100) twoThreadOps

theorem twoThreads_wellFormed : twoThreads.WellFormed :=
  ((Reachable.empty 100).run twoThreadOps).wellFormed

def forkedChild : Manager :=
  ⟨200, ∅, AList.singleton 200 (AList.singleton 0x4000
    ⟨0, .emulated, ⟨3, 200⟩, 0x4000, 1, [⟨2, "stop", 2⟩]⟩), [], 2⟩

theorem mirrors_iff_twoThreads : Mirrors twoThreads forkedChild ↔ Mergeable twoThreads := by
  have hparent : [twoThreads].find? (·.pid = 100) = some twoThreads := rfl
  have hrun : replicateBreakpoints softOnly [twoThreads] 100 ⟨3, 200⟩ (.empty 200) =
      .ok forkedChild := rfl
  exact mirrors_iff hparent twoThreads_wellFormed hrun

theorem action_lost_in_fork :
    replicateBreakpoints softOnly [twoThreads] 100 ⟨3, 200⟩ (.empty 200) = .ok forkedChild ∧
      ¬Mirrors twoThreads forkedChild := by
  refine ⟨rfl, fun hmirrors => ?_⟩
  obtain ⟨c, hc, haction⟩ := (hmirrors.perThread 0x4000 ⟨1, "log", 1⟩).mpr
    ⟨100, ⟨0, .emulated, ⟨1, 100⟩, 0x4000, 1, [⟨1, "log", 1⟩]⟩, rfl, .head _⟩
  cases hc
  cases haction with
  | tail _ h => cases h

theorem fork_places {group : List Manager} {ppid pid : Nat} {parent child : Manager}
    (hparent : group.find? (·.pid = ppid) = some parent)
    (hrun : replicateBreakpoints env group ppid thread (.empty pid) = .ok child) :
    (∀ scope a c, child.Stores scope a c → ∃ b ∈ parent.enumBreakpoints,
      landsAt child.pid scope a b ∧ IsClone b c) ∧
    ∀ b ∈ parent.enumBreakpoints, ∃ c, child.Stores (scopeOf b.type child.pid) b.addr c := by
  have hplaces := (replicateBreakpoints_clonedInto hparent hrun).places
  refine ⟨fun scope a c hc => ?_, fun b hb => ?_⟩
  · obtain ⟨b, hfind, hclone⟩ := exists_left_of_rel (hc ▸ hplaces scope a)
    exact ⟨b, List.mem_of_find?_eq_some hfind, List.find?_some hfind, hclone⟩
  · have hlands : landsAt child.pid (scopeOf b.type child.pid) b.addr b :=
      landsAt_iff.mpr ⟨rfl, rfl⟩
    obtain ⟨b', hfind⟩ := Option.isSome_iff_exists.mp (List.find?_isSome.mpr ⟨b, hb, hlands⟩)
    obtain ⟨c, hc, -⟩ := exists_right_of_rel (hfind ▸ hplaces _ _)
    exact ⟨c, hc⟩

theorem fork_places_twoThreads : ∃ c, forkedChild.Stores (some 200) 0x4000 c := by
  have hparent : [twoThreads].find? (·.pid = 100) = some twoThreads := rfl
  have hrun : replicateBreakpoints softOnly [twoThreads] 100 ⟨3, 200⟩ (.empty 200) =
      .ok forkedChild := rfl
  have hb : ⟨1, .emulated, ⟨2, 101⟩, 0x4000, 1, [⟨2, "stop", 2⟩]⟩ ∈ twoThreads.enumBreakpoints :=
    .head _
  exact (fork_places hparent hrun).2 _ hb

end ZeroBugs.Engine.BreakPointManager
