import ZeroBugs.Engine.BreakPointContainers

/-! # The breakpoint manager over a run -/
namespace ZeroBugs.Engine.BreakPointManager
open Lib.Runs

structure Request.New (env : Env) (s : Manager) (r : Request) : Prop where
  accepted : checkSetBreakpointContractIn env r.thread r.type = .ok ()
  free : (s.map r.scope).lookup r.addr = none
  unclaimed : s.findDeferred r = none

/-- The type of the breakpoint that is made without a debug register. -/
def Request.softType (r : Request) : BreakPointType :=
  if r.type = .software then .software else .emulated

inductive Request.Clashes (env : Env) (s : Manager) (r : Request) : Prop where
  | mapped (hnew : r.New env s) (immediate : r.deferred = false)
      (noRegister : r.type = .hardware → env.useHardware = true →
        env.setHardwareBreakpoint r.thread r.addr = none)
      (count : Int) (thread : Thread) (enabled : env.enable r.thread r.addr = .ok (count, thread))
      (d : BreakPointBase) (waiting : d ∈ s.deferred) (hthread : d.thread = thread)
      (htype : d.type = r.softType) (haddr : d.addr = r.addr)
  | deferred (hnew : r.New env s) (hdeferred : r.deferred = true)
      (scope : Option Nat) (a : Nat) (b : BreakPointBase) (stored : s.Stores scope a b)
      (hthread : b.thread = r.thread) (htype : b.type = r.type) (haddr : b.addr = r.addr)

inductive SetEffect (env : Env) (r : Request) (s s' : Manager) : Prop where
  | same (hmap : s'.map = s.map) (hd : s'.deferred = s.deferred)
  | found (b : BreakPointBase) (hb : s.Stores r.scope r.addr b)
      (hmap : s'.map = Function.update s.map r.scope
        ((s.map r.scope).insert r.addr (b.addActions r.action)))
      (hd : s'.deferred = s.deferred)
  | foundDeferred (id : Nat) (hmap : s'.map = s.map)
      (hd : s'.deferred = s.deferred.map fun d => if d.id = id then d.addActions r.action else d)
  | deferred (hnew : r.New env s) (h : r.deferred = true) (id : Nat) (hmap : s'.map = s.map)
      (hd : s'.deferred = s.deferred ++
        [(⟨id, .deferred r.type, r.thread, r.addr, 0, []⟩ : BreakPointBase).addActions r.action])
  | created (hnew : r.New env s) (h : r.deferred = false) (id : Nat) (b : BreakPointBase)
      (hb : createBreakpoint env id r = .ok b)
      (hmap : s'.map = Function.update s.map r.scope
        ((s.map r.scope).insert r.addr (b.addActions r.action)))
      (hd : s'.deferred = s.deferred)

theorem createBreakpoint_soft {env : Env} {r : Request}
    (noRegister : r.type = .hardware → env.useHardware = true →
      env.setHardwareBreakpoint r.thread r.addr = none)
    {count : Int} {thread : Thread} (enabled : env.enable r.thread r.addr = .ok (count, thread))
    (id : Nat) : createBreakpoint env id r =
      .ok ⟨id, if r.type = .software then .software else .emulated, thread, r.addr, count, []⟩ := by
  have hreg : (if r.type = .hardware ∧ env.useHardware = true
      then env.setHardwareBreakpoint r.thread r.addr else none) = none := by
    split
    · rename_i h
      exact noRegister h.1 h.2
    · rfl
  rw [createBreakpoint, hreg, enabled]
  rfl

theorem createBreakpoint_cases {env : Env} {id : Nat} {r : Request} {b : BreakPointBase}
    (h : createBreakpoint env id r = .ok b) :
    (r.type = .hardware ∧ ∃ reg, b = ⟨id, .hardware reg, r.thread, r.addr, 1, []⟩) ∨
      ((r.type = .hardware → env.useHardware = true →
          env.setHardwareBreakpoint r.thread r.addr = none) ∧
        ∃ count thread, env.enable r.thread r.addr = .ok (count, thread) ∧
          b = ⟨id, if r.type = .software then .software else .emulated, thread, r.addr, count,
            []⟩) := by
  unfold createBreakpoint at h
  split at h
  · rename_i reg hreg
    cases h
    by_cases hhard : r.type = .hardware ∧ env.useHardware = true
    · exact .inl ⟨hhard.1, reg, rfl⟩
    · simp [hhard] at hreg
  · rename_i hreg
    refine .inr ⟨fun htype huse => by simpa [htype, huse] using hreg, ?_⟩
    cases henable : env.enable r.thread r.addr with
    | error e =>
      rw [henable] at h
      cases h
    | ok res =>
      rw [henable] at h
      cases h
      exact ⟨res.1, res.2, rfl, rfl⟩

section Calls

variable {env : Env} {r : Request} {s : Manager}

theorem setBreakpoint_unmapped
    (haccepted : checkSetBreakpointContractIn env r.thread r.type = .ok ())
    (hfree : (s.map r.scope).lookup r.addr = none) :
    setBreakpoint env r s = setUnmapped env r (s.setMap r.scope (s.map r.scope)) := by
  simp only [setBreakpoint, haccepted, Manager.findBreakpoint, hfree]

theorem findDeferred_setMap (m : BreakPointMap) (scope : Option Nat) :
    (s.setMap scope m).findDeferred r = s.findDeferred r := by
  rw [Manager.findDeferred, deferred_setMap, Manager.findDeferred]

theorem setBreakpoint_deferred (hnew : r.New env s) (h : r.deferred = true) :
    (setBreakpoint env r s).2.map = s.map ∧ (setBreakpoint env r s).2.deferred = s.deferred ++
      [(⟨s.created, .deferred r.type, r.thread, r.addr, 0, []⟩ :
        BreakPointBase).addActions r.action] := by
  rw [setBreakpoint_unmapped hnew.accepted hnew.free, setUnmapped, findDeferred_setMap,
    hnew.unclaimed]
  simp only [h, if_true, deferred_setMap, created_setMap, and_true]
  exact map_setMap_map s r.scope

theorem setBreakpoint_created (hnew : r.New env s) (h : r.deferred = false) {b : BreakPointBase}
    (hb : createBreakpoint env s.created r = .ok b) :
    (setBreakpoint env r s).2.map = Function.update s.map r.scope
        ((s.map r.scope).insert r.addr (b.addActions r.action)) ∧
      (setBreakpoint env r s).2.deferred = s.deferred := by
  rw [setBreakpoint_unmapped hnew.accepted hnew.free, setUnmapped, findDeferred_setMap,
    hnew.unclaimed]
  simp only [h, Bool.false_eq_true, if_false, created_setMap, hb, deferred_setMap, and_true]
  refine (map_setMap _ r.scope _).trans ?_
  rw [map_setMap_map]

theorem setBreakpoint_effect (env : Env) (r : Request) (s : Manager) :
    SetEffect env r s (setBreakpoint env r s).2 := by
  cases haccepted : checkSetBreakpointContractIn env r.thread r.type with
  | error e =>
    rw [setBreakpoint, haccepted]
    exact .same rfl rfl
  | ok _ =>
    cases hmapped : (s.map r.scope).lookup r.addr with
    | some b =>
      simp only [setBreakpoint, haccepted, Manager.findBreakpoint, hmapped]
      refine .found b hmapped ?_ (by simp)
      rw [map_setMap, map_setMap_map]
    | none =>
      cases hdeferred : s.findDeferred r with
      | some b =>
        rw [setBreakpoint_unmapped haccepted hmapped, setUnmapped, findDeferred_setMap, hdeferred]
        refine .foundDeferred b.id (map_setMap_map s r.scope) ?_
        simp only [deferred_setMap]
      | none =>
        have hnew : r.New env s := ⟨haccepted, hmapped, hdeferred⟩
        cases h : r.deferred with
        | true =>
          obtain ⟨hmap, hd⟩ := setBreakpoint_deferred hnew h
          exact .deferred hnew h s.created hmap hd
        | false =>
          cases hb : createBreakpoint env s.created r with
          | ok b =>
            obtain ⟨hmap, hd⟩ := setBreakpoint_created hnew h hb
            exact .created hnew h s.created b hb hmap hd
          | error e =>
            rw [setBreakpoint_unmapped haccepted hmapped, setUnmapped, findDeferred_setMap,
              hdeferred]
            simp only [h, Bool.false_eq_true, if_false, created_setMap, hb]
            exact .same (map_setMap_map s r.scope) (deferred_setMap ..)

theorem not_samePlace_of_unclaimed (h : s.findDeferred r = none) {d b : BreakPointBase}
    (hd : d ∈ s.deferred) (hthread : b.thread = r.thread) (htype : b.type = r.type)
    (haddr : b.addr = r.addr) : ¬SamePlace d b := by
  rintro ⟨hthread', htype', haddr'⟩
  have hno := List.find?_eq_none.mp h d hd
  simp [breakpointMatches, hthread', htype', haddr', hthread, htype, haddr] at hno

theorem SamePlace.symm {b b' : BreakPointBase} (h : SamePlace b b') : SamePlace b' b :=
  ⟨h.1.symm, h.2.1.symm, h.2.2.symm⟩

theorem not_inv_of_clashes (hclash : r.Clashes env s) : ¬Inv (setBreakpoint env r s).2 := by
  intro hafter
  cases hclash with
  | mapped hnew himm hreg count thread henabled d hwaiting hthread htype haddr =>
    obtain ⟨hmap, hd⟩ := setBreakpoint_created hnew himm (createBreakpoint_soft hreg henabled _)
    refine hafter.apart _ _ _ (stores_insert_self hmap) d (hd ▸ hwaiting) ?_
    rw [samePlace_addActions_left]
    refine ⟨hthread.symm, ?_, haddr.symm⟩
    rw [htype, Request.softType]
    by_cases hsoft : r.type = .software <;> simp [BreakPointBase.type, hsoft]
  | deferred hnew hdeferred scope a b hstored hthread htype haddr =>
    obtain ⟨hmap, hd⟩ := setBreakpoint_deferred hnew hdeferred
    have hstored' : (setBreakpoint env r s).2.Stores scope a b := by
      rwa [Manager.Stores, hmap]
    refine hafter.apart _ _ _ hstored' _ (hd ▸ List.mem_append_right _ (.head _)) ?_
    refine ⟨?_, ?_, ?_⟩
    · rw [addActions_thread, hthread]
    · rw [addActions_type, htype]
      rfl
    · rw [addActions_addr, haddr]

theorem inv_of_not_clashes (hinv : Inv s) (hclash : ¬r.Clashes env s) :
    Inv (setBreakpoint env r s).2 := by
  cases setBreakpoint_effect env r s with
  | same hmap hd => exact hinv.congr hmap hd
  | found b hb hmap hd =>
    refine hinv.insert hmap hd ?_ ((hinv.actions _ _ _ hb).addActions _) ?_
    · rw [addActions_addr, hinv.stored _ _ _ hb]
    · intro d hmem hsame
      exact hinv.apart _ _ _ hb d hmem (samePlace_addActions_left.mp hsame)
  | foundDeferred id hmap hd => exact hinv.addActions hmap _ _ hd
  | deferred hnew h id hmap hd =>
    refine hinv.append hmap hd ((actionsApart_of_nil rfl).addActions _) ?_ ?_
    · intro d hmem
      exact not_samePlace_of_unclaimed hnew.unclaimed hmem (by simp)
        (by rw [addActions_type]; rfl) (by simp)
    · rintro scope a b hstored ⟨hthread, htype, haddr⟩
      rw [addActions_thread] at hthread
      rw [addActions_type] at htype
      rw [addActions_addr] at haddr
      exact hclash (.deferred hnew h scope a b hstored hthread htype haddr)
  | created hnew h id b hb hmap hd =>
    rcases createBreakpoint_cases hb with ⟨htype, reg, rfl⟩ | ⟨hreg, count, thread, henabled, rfl⟩
    · refine hinv.insert hmap hd (by simp) ((actionsApart_of_nil rfl).addActions _) ?_
      intro d hmem hsame
      refine not_samePlace_of_unclaimed hnew.unclaimed hmem rfl ?_ rfl
        (samePlace_addActions_left.mp hsame).symm
      rw [htype]
      rfl
    · refine hinv.insert hmap hd (by simp) ((actionsApart_of_nil rfl).addActions _) ?_
      intro d hmem hsame
      obtain ⟨hthread, htype, haddr⟩ := samePlace_addActions_left.mp hsame
      refine hclash (.mapped hnew h hreg count thread henabled d hmem hthread.symm ?_ haddr.symm)
      rw [← htype, Request.softType]
      by_cases hsoft : r.type = .software <;> simp [BreakPointBase.type, hsoft]

theorem inv_setBreakpoint_iff (hinv : Inv s) :
    Inv (setBreakpoint env r s).2 ↔ ¬r.Clashes env s :=
  ⟨fun hafter hclash => not_inv_of_clashes hclash hafter, inv_of_not_clashes hinv⟩

end Calls

theorem inv_erase {s : Manager} (hinv : Inv s) (env : Env) (b : BreakPointBase) :
    Inv (erase env b s).2 := by
  unfold erase
  split
  · exact hinv
  · split
    · exact hinv
    · split
      · exact hinv.mono (fun _ _ _ h => h) (List.eraseP_sublist ..)
      · refine hinv.mono (fun _ _ _ h => stores_erase (map_setMap ..) h) ?_
        rw [deferred_setMap]

inductive Op where
  | set (env : Env) (r : Request)
  | erase (env : Env) (b : BreakPointBase)

def Op.step (s : Manager) : Op → Manager
  | .set env r => (setBreakpoint env r s).2
  | .erase env b => (BreakPointManager.erase env b s).2

def Op.Clashes (s : Manager) : Op → Prop
  | .set env r => r.Clashes env s
  | .erase _ _ => False

theorem manager_invariant_iff (pid : Nat) (ops : List Op) :
    Inv (.empty pid) ∧ After Op.step Inv (.empty pid) ops ↔
      Along Op.step (fun s op => ¬op.Clashes s) (.empty pid) ops := by
  have hstep : ∀ s op, Inv s → (Inv (Op.step s op) ↔ ¬op.Clashes s) := by
    intro s op hinv
    cases op with
    | set env r => exact inv_setBreakpoint_iff hinv
    | erase env b => exact iff_of_true (inv_erase hinv env b) not_false
  have hrun := along_iff_of_invariant Inv hstep (fun s op hinv hok => (hstep s op hinv).mpr hok)
    (inv_empty pid) ops
  exact ⟨fun h => hrun.mp h.2, fun h => ⟨inv_empty pid, hrun.mpr h⟩⟩

def softOnly : Env where
  isLive _ := true
  isAttached _ := true
  inProcess _ := true
  useHardware := false
  setHardwareBreakpoint _ _ := none
  enable thread _ := .ok (1, thread)

def fallbackOps : List Op :=
  [.set softOnly ⟨⟨1, 100⟩, .emulated, 0x4000, none, true⟩,
    .set softOnly ⟨⟨1, 100⟩, .hardware, 0x4000, none, false⟩]

theorem emulated_beside_deferred :
    ¬After Op.step Inv (.empty 100) fallbackOps := by
  rintro ⟨-, hinv, -⟩
  exact hinv.apart (some 100) 0x4000 ⟨1, .emulated, ⟨1, 100⟩, 0x4000, 1, []⟩ rfl
    ⟨0, .deferred .emulated, ⟨1, 100⟩, 0x4000, 0, []⟩ (.head _) ⟨rfl, rfl, rfl⟩

end ZeroBugs.Engine.BreakPointManager
