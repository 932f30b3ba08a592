import ZeroBugs.Engine.BreakPointSoundness

/-! # Switching one breakpoint on and off -/
namespace ZeroBugs.Engine.BreakPoint
open Lib.Runs

variable {ι : Type}

/-- `n` calls on one object that alternate, the next one being `enable` or not. -/
def alternating (i : ι) : Bool → Nat → List (Call ι)
  | _, 0 => []
  | true, n + 1 => .enable i :: alternating i false n
  | false, n + 1 => .disable i :: alternating i true n

/-- A call does not throw; after `disable` the word at `a` is the original one, and after `enable`
it differs in the byte of the trap instruction at most. -/
structure GivesBack [DecidableEq ι] (d : Debuggee) (orig : Mem) (a : Nat) (s : System ι)
    (c : Call ι) : Prop where
  returns : ∃ count, (s.call d c).1 = .ok count
  restored : c.onOff = false → readWord (s.step d c).mgr.mem a = readWord orig a
  trapped : c.onOff = true → ∀ k : Fin wordSize, k.val ≠ 0 →
    readWord (s.step d c).mgr.mem a k = readWord orig a k

theorem call_reaches [DecidableEq ι] {d : Debuggee} (hd : d.Accessible) {s : System ι}
    {c : Call ι} (hreaches : s.Reaches c) (hlive : (s.objs c.obj).mgr = true)
    (hsaved : (s.mgr.map (s.objs c.obj).addr).origCode = 0 →
      (s.mgr.map (s.objs c.obj).addr).enabled = false) :
    ∃ t, s.call d c = (.ok (c.count (s.objs c.obj).enable),
      { objs := Function.update s.objs c.obj { s.objs c.obj with
          thread := t, enable := c.count (s.objs c.obj).enable }
        mgr := s.mgr.request (s.objs c.obj).addr c.onOff }) := by
  obtain ⟨t, ht⟩ := doEnable_ok hd c.onOff (s.objs c.obj) s.mgr hlive hsaved
  refine ⟨t, ?_⟩
  cases c with
  | enable i =>
    have h0 : (s.objs i).enable = 0 := hreaches
    simp only [Call.onOff, Call.obj] at ht
    simp [System.call, SoftwareBreakPoint.enableCall, h0, ht, Call.obj, Call.count, Call.onOff]
  | disable i =>
    have h1 : (s.objs i).enable = 1 := hreaches
    simp only [Call.onOff, Call.obj] at ht
    simp [System.call, SoftwareBreakPoint.disableCall, h1, ht, Call.obj, Call.count, Call.onOff]

theorem disable_throws [DecidableEq ι] (d : Debuggee) {s : System ι} {i : ι}
    (hcount : (s.objs i).enable = 1) (hlive : (s.objs i).mgr = true)
    (hcode : (s.mgr.map (s.objs i).addr).origCode = 0)
    (henabled : (s.mgr.map (s.objs i).addr).enabled = true) :
    (s.call d (.disable i)).1 =
      .error (.logicError (alreadyEnabledMsg d (s.objs i).addr)) := by
  have hfetch : fetchOrigCode d (s.objs i).thread (s.objs i).addr s.mgr =
      (.error (.logicError (alreadyEnabledMsg d (s.objs i).addr)), s.mgr) := by
    rw [fetchOrigCode, if_pos ⟨hcode, henabled⟩]
  have hrequest : ((s.objs i).doEnable d false s.mgr).1 =
      .error (.logicError (alreadyEnabledMsg d (s.objs i).addr)) := by
    by_cases hfinished : (s.objs i).thread.finished = true <;>
      simp [SoftwareBreakPoint.doEnable, hfinished, hlive, enableSoftwareBreakpoint, hfetch]
  simp only [System.call, SoftwareBreakPoint.disableCall, hcount, if_true]
  cases hr : (s.objs i).doEnable d false s.mgr with
  | mk r rest =>
    rw [hr] at hrequest
    rw [show r = _ from hrequest]

/-- The object is on or off, and the manager's record and the memory agree with it.
The record has the original word once the object was on. -/
structure Switched (orig : Mem) (a : Nat) (i : ι) (on : Bool) (s : System ι) : Prop where
  addr : (s.objs i).addr = a
  live : (s.objs i).mgr = true
  count : (s.objs i).enable = if on then 1 else 0
  flag : (s.mgr.map a).enabled = on
  code : (s.mgr.map a).origCode = readWord orig a ∨
    (on = false ∧ (s.mgr.map a).origCode = 0)
  word : readWord s.mgr.mem a = pokedWord on (readWord orig a)

theorem Switched.fresh (orig : Mem) (thread : ι → Thread) (addr : ι → Nat) (i : ι) :
    Switched orig (addr i) i false (System.fresh orig thread addr) :=
  ⟨rfl, rfl, rfl, rfl, .inr ⟨rfl, rfl⟩, rfl⟩

def Call.switch (i : ι) : Bool → Call ι
  | true => .disable i
  | false => .enable i

theorem alternating_succ (i : ι) (on : Bool) (n : Nat) :
    alternating i (!on) (n + 1) = .switch i on :: alternating i on n := by
  cases on <;> rfl

section Switch

variable {d : Debuggee} {orig : Mem} {a : Nat} {i : ι} {on : Bool} {s : System ι}

theorem Switched.saved_eq (h : Switched orig a i on s) (hword : on = true → readWord orig a ≠ 0) :
    s.mgr.saved a = readWord orig a := by
  unfold Manager.saved
  cases on with
  | true =>
    have hcode : (s.mgr.map a).origCode = readWord orig a := by simpa using h.code
    rw [hcode, if_neg (hword rfl)]
  | false =>
    have hmem : readWord s.mgr.mem a = readWord orig a := h.word
    rcases h.code with hcode | ⟨-, hcode⟩
    · rw [hcode, hmem, ite_self]
    · rw [if_pos hcode, hmem]

theorem Switched.reaches (h : Switched orig a i on s) : s.Reaches (.switch i on) := by
  have hcount := h.count
  cases on <;> exact hcount

theorem Switched.request (h : Switched orig a i on s) (hword : on = true → readWord orig a ≠ 0) :
    s.mgr.request a (!on) =
      { map := Function.update s.mgr.map a { origCode := readWord orig a, enabled := !on }
        mem := writeWord s.mgr.mem a (pokedWord (!on) (readWord orig a)) } := by
  have hpoked : pokedWord (!on) (readWord orig a) ≠ 0 := by
    cases on with
    | true => exact hword rfl
    | false => exact x86GetBreakpointOpcode_ne_zero _
  simp [Manager.request, h.saved_eq hword, hpoked, h.flag]

variable [DecidableEq ι]

section

variable (hd : d.Accessible) (h : Switched orig a i on s)
include hd h

theorem Switched.call
    (hword : on = true → readWord orig a ≠ 0) :
    (∃ count, (s.call d (.switch i on)).1 = .ok count) ∧
      Switched orig a i (!on) (s.step d (.switch i on)) := by
  have hobj : (Call.switch i on).obj = i := by cases on <;> rfl
  have honOff : (Call.switch i on).onOff = !on := by cases on <;> rfl
  have hsaved : (s.mgr.map a).origCode = 0 → (s.mgr.map a).enabled = false := by
    intro hzero
    rw [h.flag]
    by_contra hon
    rcases h.code with hcode | ⟨hoff, -⟩
    · exact hword (by simpa using hon) (hcode.symm.trans hzero)
    · exact hon hoff
  obtain ⟨t, hcall⟩ := call_reaches hd h.reaches (by rw [hobj]; exact h.live) (by
    rw [hobj, h.addr]
    exact hsaved)
  rw [hobj, honOff, h.addr, h.request hword] at hcall
  refine ⟨⟨_, congrArg Prod.fst hcall⟩, ?_⟩
  rw [System.step, hcall]
  refine ⟨?_, ?_, ?_, ?_, .inl ?_, readWord_writeWord _ _ _⟩
  · simp [h.addr]
  · simp [h.live]
  · have hcount := h.count
    cases on <;> simp_all [Call.switch, Call.count]
  · simp
  · simp

theorem Switched.givesBack
    (hword : on = true → readWord orig a ≠ 0) : GivesBack d orig a s (.switch i on) := by
  obtain ⟨hreturns, hafter⟩ := h.call hd hword
  refine ⟨hreturns, ?_, ?_⟩
  · intro hoff
    rw [hafter.word]
    cases on with
    | true => rfl
    | false => cases hoff
  · intro hon k hk
    rw [hafter.word]
    cases on with
    | true => cases hon
    | false => simp [pokedWord, x86GetBreakpointOpcode, hk]

theorem Switched.along
    (hword : readWord orig a ≠ 0) (n : Nat) :
    Along (System.step d) (GivesBack d orig a) s (alternating i (!on) n) := by
  induction n generalizing on s with
  | zero =>
    cases on <;> trivial
  | succ n ih =>
    rw [alternating_succ]
    refine ⟨h.givesBack hd fun _ => hword, ?_⟩
    simpa using ih (h.call hd fun _ => hword).2

end

theorem code_given_back_iff (hd : d.Accessible) (orig : Mem) (thread : ι → Thread)
    (addr : ι → Nat) (i : ι) (n : Nat) :
    Along (System.step d) (GivesBack d orig (addr i)) (.fresh orig thread addr)
        (alternating i true n) ↔
      readWord orig (addr i) ≠ 0 ∨ n ≤ 1 := by
  have hfresh := Switched.fresh orig thread addr i
  have hon := (hfresh.call hd (fun h => nomatch h)).2
  constructor
  · intro halong
    by_contra hnot
    obtain ⟨hzero, hn⟩ := not_or.mp hnot
    obtain ⟨m, rfl⟩ : ∃ m, n = m + 2 := ⟨n - 2, by omega⟩
    obtain ⟨-, hdisable, -⟩ := halong
    obtain ⟨count, hcount⟩ := hdisable.returns
    have hcode := hon.code.resolve_right fun h => nomatch h.1
    have hthrows := disable_throws d hon.count hon.live
      (by rw [hon.addr, hcode]; exact not_not.mp hzero) (by rw [hon.addr]; exact hon.flag)
    cases hthrows.symm.trans hcount
  · intro hok
    by_cases hword : readWord orig (addr i) = 0
    · have hn : n ≤ 1 := hok.resolve_left (not_not.mpr hword)
      match n, hn with
      | 0, _ => trivial
      | 1, _ => exact ⟨hfresh.givesBack hd (fun h => nomatch h), trivial⟩
    · exact hfresh.along hd hword n

end Switch

theorem code_given_back_iff_nops :
    Along (System.step plainDebuggee) (GivesBack plainDebuggee nops 0)
        (.fresh nops (fun _ => ⟨1, 1, false⟩) fun _ => 0) (alternating () true 4) ↔
      readWord nops 0 ≠ 0 ∨ 4 ≤ 1 :=
  code_given_back_iff plainDebuggee_accessible nops (fun _ => ⟨1, 1, false⟩) (fun _ => 0) () 4

theorem zero_word_not_given_back :
    ¬Along (System.step plainDebuggee) (GivesBack plainDebuggee 0 0)
        (.fresh 0 (fun _ => ⟨1, 1, false⟩) fun _ => 0) (alternating () true 2) := by
  rintro ⟨-, hdisable, -⟩
  obtain ⟨count, hcount⟩ := hdisable.returns
  have hthrows := disable_throws plainDebuggee (i := ()) (s := System.step plainDebuggee
    (.fresh 0 (fun _ => ⟨1, 1, false⟩) fun _ => 0) (.enable ())) rfl rfl (by decide) (by decide)
  cases hthrows.symm.trans hcount

end ZeroBugs.Engine.BreakPoint
