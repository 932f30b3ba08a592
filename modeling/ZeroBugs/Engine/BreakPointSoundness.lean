import ZeroBugs.Engine.BreakPoint

/-! # Logical and physical breakpoints -/
namespace ZeroBugs.Engine.BreakPoint
open Lib.Runs

variable {ι : Type}

variable {d : Debuggee}

theorem doEnable_ok (hd : d.Accessible) (onOff : Bool) (bp : SoftwareBreakPoint)
    (s : Manager) (hm : bp.mgr = true)
    (h : (s.map bp.addr).origCode = 0 → (s.map bp.addr).enabled = false) :
    ∃ t, bp.doEnable d onOff s = (.ok true, { bp with thread := t }, s.request bp.addr onOff) := by
  obtain ⟨thread, a, n, m⟩ := bp
  have hreq := enableSoftwareBreakpoint_ok hd thread a onOff s h
  cases hm
  by_cases hf : thread.finished = true
  · refine ⟨d.threads.foldl (EnumThreadCallback.notify d a) thread, ?_⟩
    simp [SoftwareBreakPoint.doEnable, hf, hreq]
  · refine ⟨thread, ?_⟩
    simp [SoftwareBreakPoint.doEnable, hf, hreq]

/-- The system after a call: addresses and managers stay, the object's count moves by one, and the
manager sees the request only at the transitions between 0 and 1. -/
structure StepSpec [DecidableEq ι] (s t : System ι) (c : Call ι) : Prop where
  addr : ∀ j, (t.objs j).addr = (s.objs j).addr
  live : ∀ j, (t.objs j).mgr = (s.objs j).mgr
  count : ∀ j, (t.objs j).enable =
    if j = c.obj then c.count (s.objs j).enable else (s.objs j).enable
  reaches : s.Reaches c → t.mgr = s.mgr.request (s.objs c.obj).addr c.onOff
  quiet : ¬s.Reaches c → t.mgr = s.mgr

theorem step_spec [DecidableEq ι] (hd : d.Accessible) (s : System ι) (c : Call ι)
    (hm : ∀ i, (s.objs i).mgr = true)
    (h : ∀ i, (s.mgr.map (s.objs i).addr).origCode = 0 →
      (s.mgr.map (s.objs i).addr).enabled = false) :
    StepSpec s (s.step d c) c := by
  have upd : ∀ (bp : SoftwareBreakPoint) (m : Manager), bp.addr = (s.objs c.obj).addr →
      bp.mgr = (s.objs c.obj).mgr → bp.enable = c.count (s.objs c.obj).enable →
      (s.Reaches c → m = s.mgr.request (s.objs c.obj).addr c.onOff) →
      (¬s.Reaches c → m = s.mgr) →
      StepSpec s { objs := Function.update s.objs c.obj bp, mgr := m } c := by
    intro bp m ha hl hc hr hq
    refine ⟨fun j => ?_, fun j => ?_, fun j => ?_, hr, hq⟩ <;>
      by_cases hj : j = c.obj <;> simp_all
  cases c with
  | enable i =>
    by_cases h0 : (s.objs i).enable = 0
    · obtain ⟨t, ht⟩ := doEnable_ok hd true (s.objs i) s.mgr (hm i) (h i)
      simp only [System.step, System.call, SoftwareBreakPoint.enableCall, h0, if_true, ht]
      exact upd _ _ rfl rfl (by simp [Call.count, Call.obj, h0]) (fun _ => rfl)
        (fun hn => absurd h0 hn)
    · simp only [System.step, System.call, SoftwareBreakPoint.enableCall, h0, if_false]
      exact upd _ _ rfl rfl rfl (fun hr => absurd hr h0) (fun _ => rfl)
  | disable i =>
    by_cases h1 : (s.objs i).enable = 1
    · obtain ⟨t, ht⟩ := doEnable_ok hd false (s.objs i) s.mgr (hm i) (h i)
      simp only [System.step, System.call, SoftwareBreakPoint.disableCall, h1, if_true, ht]
      exact upd _ _ rfl rfl (by simp [Call.count, Call.obj, h1]) (fun _ => rfl)
        (fun hn => absurd h1 hn)
    · simp only [System.step, System.call, SoftwareBreakPoint.disableCall, h1, if_false]
      exact upd _ _ rfl rfl rfl (fun hr => absurd hr h1) (fun _ => rfl)

def System.On (s : System ι) (i : ι) : Prop := 0 < (s.objs i).enable

variable {c : Call ι}

theorem StepSpec.on_quiet [DecidableEq ι] {s t : System ι} (h : StepSpec s t c)
    (hq : ¬s.Reaches c) (j : ι) : t.On j ↔ s.On j := by
  unfold System.On
  rw [h.count j]
  split
  next hj =>
    subst hj
    cases c <;> simp only [System.Reaches, Call.Reaches, Call.count, Call.obj] at hq ⊢ <;> omega
  next => exact Iff.rfl

theorem StepSpec.on_reaches [DecidableEq ι] {s t : System ι} (h : StepSpec s t c)
    (hr : s.Reaches c) (j : ι) :
    t.On j ↔ if j = c.obj then c.onOff = true else s.On j := by
  unfold System.On
  rw [h.count j]
  split
  next hj =>
    cases c <;> simp_all [System.Reaches, Call.Reaches, Call.count, Call.obj, Call.onOff]
  next => exact Iff.rfl

theorem pokedWord_ne_zero {w : Word} (h : w ≠ 0) (e : Bool) : pokedWord e w ≠ 0 := by
  unfold pokedWord
  split
  · exact x86GetBreakpointOpcode_ne_zero w
  · exact h

theorem Manager.request_eq (s : Manager) (a : Nat) (e : Bool) (h : s.saved a ≠ 0) :
    s.request a e =
      { map := Function.update s.map a { origCode := s.saved a, enabled := e }
        mem := if e = (s.map a).enabled then s.mem
          else writeWord s.mem a (pokedWord e (s.saved a)) } := by
  simp [Manager.request, pokedWord_ne_zero h e]

/-- The trap word stands at an object's address exactly when some object there is enabled, and
every byte outside the words of enabled objects is the original one. -/
structure Agree (orig : Mem) (s : System ι) : Prop where
  trap_iff : ∀ i, readWord s.mgr.mem (s.objs i).addr =
      x86GetBreakpointOpcode (readWord orig (s.objs i).addr) ↔
    ∃ j, (s.objs j).addr = (s.objs i).addr ∧ s.On j
  other : ∀ x, (∀ j, s.On j → x < (s.objs j).addr ∨ (s.objs j).addr + wordSize ≤ x) →
    s.mgr.mem x = orig x

/-- The condition on a call: an object's last `disable` finds no other object
at its address enabled. -/
def SoleDisable (s : System ι) : Call ι → Prop
  | .enable _ => True
  | .disable i => (s.objs i).enable = 1 →
      ∀ j, j ≠ i → (s.objs j).addr = (s.objs i).addr → ¬s.On j

/-- The invariant that carries `Agree`: the flag of a record is the disjunction
of its objects, and the saved word, once there, is the original one. -/
structure SharedInv (orig : Mem) (addr : ι → Nat) (s : System ι) : Prop where
  addr_eq : ∀ i, (s.objs i).addr = addr i
  live : ∀ i, (s.objs i).mgr = true
  flag : ∀ i, (s.mgr.map (addr i)).enabled = true ↔ ∃ j, addr j = addr i ∧ s.On j
  saved : ∀ i, (s.mgr.map (addr i)).origCode = readWord orig (addr i) ∨
    (s.mgr.map (addr i)).origCode = 0 ∧ (s.mgr.map (addr i)).enabled = false
  trapped : ∀ i, (s.mgr.map (addr i)).enabled = true →
    readWord s.mgr.mem (addr i) = x86GetBreakpointOpcode (readWord orig (addr i))
  untouched : ∀ x, (∀ i, (s.mgr.map (addr i)).enabled = true →
    x < addr i ∨ addr i + wordSize ≤ x) → s.mgr.mem x = orig x

section Shared

variable {orig : Mem} {addr : ι → Nat} {s t : System ι}

theorem SharedInv.fresh (orig : Mem) (thread : ι → Thread) (addr : ι → Nat) :
    SharedInv orig addr (System.fresh orig thread addr) where
  addr_eq _ := rfl
  live _ := rfl
  flag i := by simp [System.fresh, System.On]
  saved _ := Or.inr ⟨rfl, rfl⟩
  trapped _ h := by cases h
  untouched _ _ := rfl

theorem SharedInv.consistent (h : SharedInv orig addr s)
    (nonzero : ∀ i, readWord orig (addr i) ≠ 0) (i : ι)
    (h0 : (s.mgr.map (s.objs i).addr).origCode = 0) :
    (s.mgr.map (s.objs i).addr).enabled = false := by
  rw [h.addr_eq i] at h0 ⊢
  rcases h.saved i with hs | ⟨_, he⟩
  · exact absurd (hs.symm.trans h0) (nonzero i)
  · exact he

variable
  (apart : ∀ i j, addr i ≠ addr j → addr i + wordSize ≤ addr j ∨ addr j + wordSize ≤ addr i)

include apart

section

variable (h : SharedInv orig addr s)
include h

theorem SharedInv.readWord_off {i : ι}
    (he : (s.mgr.map (addr i)).enabled = false) :
    readWord s.mgr.mem (addr i) = readWord orig (addr i) := by
  funext k
  apply h.untouched
  intro j hj
  have hne : addr i ≠ addr j := by
    intro heq
    rw [← heq, he] at hj
    cases hj
  have := k.isLt
  rcases apart i j hne with hd | hd <;> omega

theorem SharedInv.saved_eq
    (nonzero : ∀ i, readWord orig (addr i) ≠ 0) (i : ι) :
    s.mgr.saved (addr i) = readWord orig (addr i) := by
  unfold Manager.saved
  rcases h.saved i with hs | ⟨h0, he⟩
  · rw [hs, if_neg (nonzero i)]
  · rw [if_pos h0, h.readWord_off apart he]

theorem SharedInv.agree
    (trap_ne : ∀ i, x86GetBreakpointOpcode (readWord orig (addr i)) ≠ readWord orig (addr i)) :
    Agree orig s := by
  refine ⟨fun i => ?_, fun x hx => ?_⟩
  · simp only [h.addr_eq]
    rw [← h.flag i]
    cases he : (s.mgr.map (addr i)).enabled with
    | true => simp [h.trapped i he]
    | false =>
      rw [h.readWord_off apart he]
      simp only [Bool.false_eq_true, iff_false]
      exact fun heq => trap_ne i heq.symm
  · apply h.untouched
    intro i hi
    obtain ⟨j, hj, hon⟩ := (h.flag i).mp hi
    rw [← hj, ← h.addr_eq j]
    exact hx j hon

theorem SharedInv.request_eq
    (nonzero : ∀ i, readWord orig (addr i) ≠ 0) (k : ι) (e : Bool) :
    s.mgr.request (addr k) e =
      { map := Function.update s.mgr.map (addr k)
          { origCode := readWord orig (addr k), enabled := e }
        mem := if e = (s.mgr.map (addr k)).enabled then s.mgr.mem
          else writeWord s.mgr.mem (addr k) (pokedWord e (readWord orig (addr k))) } := by
  have hs := h.saved_eq apart nonzero k
  rw [Manager.request_eq _ _ _ (hs ▸ nonzero k), hs]

theorem SharedInv.request_trapped (k : ι) {e : Bool} {i : ι}
    (hi : (if addr i = addr k then e else (s.mgr.map (addr i)).enabled) = true) :
    readWord (if e = (s.mgr.map (addr k)).enabled then s.mgr.mem
      else writeWord s.mgr.mem (addr k) (pokedWord e (readWord orig (addr k)))) (addr i) =
      x86GetBreakpointOpcode (readWord orig (addr i)) := by
  split at hi
  next heq =>
    rw [heq]
    split
    next hsame => exact h.trapped k (hsame ▸ hi)
    next => rw [readWord_writeWord, hi]; rfl
  next hne =>
    split
    next => exact h.trapped i hi
    next =>
      rw [readWord_writeWord_of_disjoint _ _ _ _ (apart k i fun he => hne he.symm)]
      exact h.trapped i hi

end

omit apart in
theorem SharedInv.request_untouched (h : SharedInv orig addr s) (k : ι) {e : Bool} {x : Nat}
    (hx : ∀ i, (if addr i = addr k then e else (s.mgr.map (addr i)).enabled) = true →
      x < addr i ∨ addr i + wordSize ≤ x) :
    (if e = (s.mgr.map (addr k)).enabled then s.mgr.mem
      else writeWord s.mgr.mem (addr k) (pokedWord e (readWord orig (addr k)))) x = orig x := by
  split
  next hsame =>
    refine h.untouched x fun i hi => hx i ?_
    split
    next heq => rw [hsame, ← heq]; exact hi
    next => exact hi
  next hdiff =>
    by_cases hin : x < addr k ∨ addr k + wordSize ≤ x
    · rw [writeWord_outside _ _ _ hin]
      refine h.untouched x fun i hi => ?_
      by_cases heq : addr i = addr k
      · rw [heq]; exact hin
      · exact hx i (by rw [if_neg heq]; exact hi)
    · -- inside the word: the request is a disable, which puts the original bytes back
      have hoff : e = false := by
        cases ho : e with
        | false => rfl
        | true => exact absurd (hx k (by rw [if_pos rfl, ho])) hin
      obtain ⟨n, rfl⟩ : ∃ n : Fin wordSize, x = addr k + n :=
        ⟨⟨x - addr k, by omega⟩, by simp only; omega⟩
      rw [writeWord_inside, hoff]
      rfl

theorem SharedInv.reaches [DecidableEq ι] (h : SharedInv orig addr s)
    (nonzero : ∀ i, readWord orig (addr i) ≠ 0) (hspec : StepSpec s t c)
    (hr : s.Reaches c)
    (hflag : ∀ i, (if addr i = addr c.obj then c.onOff else (s.mgr.map (addr i)).enabled) = true ↔
      ∃ j, addr j = addr i ∧ t.On j) : SharedInv orig addr t := by
  have hreq := hspec.reaches hr
  rw [h.addr_eq, h.request_eq apart nonzero] at hreq
  have hmap : ∀ i, t.mgr.map (addr i) = if addr i = addr c.obj then
      { origCode := readWord orig (addr c.obj), enabled := c.onOff } else s.mgr.map (addr i) := by
    intro i
    rw [hreq]
    exact Function.update_apply ..
  have hen : ∀ i, (t.mgr.map (addr i)).enabled =
      if addr i = addr c.obj then c.onOff else (s.mgr.map (addr i)).enabled := by
    intro i
    rw [hmap i]
    split <;> rfl
  refine ⟨fun i => (hspec.addr i).trans (h.addr_eq i), fun i => (hspec.live i).trans (h.live i),
    fun i => by rw [hen i, hflag i], fun i => ?_, fun i hi => ?_, fun x hx => ?_⟩
  · rw [hmap i]
    split
    next heq => exact Or.inl (by rw [heq])
    next => exact h.saved i
  · rw [hen i] at hi
    rw [hreq]
    exact h.request_trapped apart c.obj hi
  · simp only [hen] at hx
    rw [hreq]
    exact h.request_untouched c.obj hx

theorem SharedInv.step [DecidableEq ι] (hd : d.Accessible)
    (h : SharedInv orig addr s) (nonzero : ∀ i, readWord orig (addr i) ≠ 0) (c : Call ι)
    (hok : SoleDisable s c) : SharedInv orig addr (s.step d c) := by
  have hspec := step_spec hd s c h.live (h.consistent nonzero)
  by_cases hr : s.Reaches c
  · refine h.reaches apart nonzero hspec hr fun i => ?_
    simp only [hspec.on_reaches hr]
    split
    next heq =>
      cases c with
      | enable k => exact ⟨fun _ => ⟨k, heq.symm, by simp [Call.obj, Call.onOff]⟩, fun _ => rfl⟩
      | disable k =>
        simp only [Call.obj, Call.onOff, Bool.false_eq_true, false_iff, not_exists, not_and]
        intro j hj
        split
        next => exact id
        next hne =>
          refine hok hr j hne ?_
          rw [h.addr_eq, h.addr_eq]
          exact hj.trans heq
    next hne =>
      rw [h.flag i]
      refine exists_congr fun j => and_congr_right fun hj => ?_
      rw [if_neg]
      rintro rfl
      exact hne hj.symm
  · have hm := hspec.quiet hr
    refine ⟨fun i => (hspec.addr i).trans (h.addr_eq i),
      fun i => (hspec.live i).trans (h.live i), fun i => ?_, ?_, ?_, ?_⟩
    · simp only [hm, h.flag i, hspec.on_quiet hr]
    all_goals rw [hm]
    exacts [h.saved, h.trapped, h.untouched]

theorem SharedInv.not_agree [DecidableEq ι] (hd : d.Accessible)
    (h : SharedInv orig addr s) (nonzero : ∀ i, readWord orig (addr i) ≠ 0)
    (trap_ne : ∀ i, x86GetBreakpointOpcode (readWord orig (addr i)) ≠ readWord orig (addr i))
    (c : Call ι) (hbad : ¬SoleDisable s c) : ¬Agree orig (s.step d c) := by
  have hspec := step_spec hd s c h.live (h.consistent nonzero)
  cases c with
  | enable k => exact absurd trivial hbad
  | disable k =>
    simp only [SoleDisable, h.addr_eq, not_forall, not_not] at hbad
    obtain ⟨hr, j, hne, hj, hon⟩ := hbad
    intro hagree
    have haddr : ∀ i, ((s.step d (.disable k)).objs i).addr = addr i := fun i =>
      (hspec.addr i).trans (h.addr_eq i)
    have hon' : (s.step d (.disable k)).On j := by
      rw [hspec.on_reaches hr]
      simpa [Call.obj, hne] using hon
    have htrap := (hagree.trap_iff k).mpr ⟨j, by rw [haddr, haddr, hj], hon'⟩
    have hflag : (s.mgr.map (addr k)).enabled = true := (h.flag k).mpr ⟨j, hj, hon⟩
    have hreq := hspec.reaches hr
    rw [h.addr_eq, h.request_eq apart nonzero] at hreq
    rw [haddr, hreq] at htrap
    simp only [Call.obj, Call.onOff, hflag, Bool.false_eq_true, if_false,
      readWord_writeWord] at htrap
    exact trap_ne k htrap.symm

theorem breakpoints_agree_iff [DecidableEq ι] {d : Debuggee} (hd : d.Accessible)
    (nonzero : ∀ i, readWord orig (addr i) ≠ 0)
    (trap_ne : ∀ i, x86GetBreakpointOpcode (readWord orig (addr i)) ≠ readWord orig (addr i))
    (thread : ι → Thread) (calls : List (Call ι)) :
    After (System.step d) (Agree orig) (System.fresh orig thread addr) calls ↔
      Along (System.step d) SoleDisable (System.fresh orig thread addr) calls := by
  refine along_iff_of_invariant (SharedInv orig addr) ?_ ?_
    (SharedInv.fresh orig thread addr) calls
  · intro s c h
    refine ⟨fun hagree => ?_, fun hok => (h.step apart hd nonzero c hok).agree apart trap_ne⟩
    by_contra hbad
    exact h.not_agree apart hd nonzero trap_ne c hbad hagree
  · intro s c h hok
    exact h.step apart hd nonzero c hok

end Shared

def plainDebuggee : Debuggee where
  threads := [⟨1, 1, false⟩]
  stepUntilSafe t _ := t
  lookupSymbol _ := none
  threadReadCode _ _ := true
  processReadCode _ := true
  threadWriteCode _ _ := true
  processWriteCode _ := true

theorem plainDebuggee_accessible : plainDebuggee.Accessible :=
  ⟨fun _ _ => rfl, fun _ => rfl, fun _ _ => rfl, fun _ => rfl⟩

def nops : Mem := fun _ => 0x90

def twins : System (Fin 2) := System.fresh nops (fun _ => ⟨1, 1, false⟩) fun _ => 0

theorem breakpoints_agree_iff_twins :
    After (System.step plainDebuggee) (Agree nops) twins
      [.enable 0, .enable 1, .enable 0, .disable 0] :=
  (breakpoints_agree_iff (fun _ _ h => absurd rfl h) plainDebuggee_accessible
    (fun _ => by decide) (fun _ => by decide) _ _).mpr
    ⟨trivial, trivial, trivial, fun h => absurd h (by decide), trivial⟩

theorem disable_takes_shared_trap :
    ¬After (System.step plainDebuggee) (Agree nops) twins
      [.enable 0, .enable 1, .disable 0] := by
  rintro ⟨-, -, h, -⟩
  have htrap := (h.trap_iff 0).mpr ⟨1, rfl, by unfold System.On; decide⟩
  exact absurd (congrFun htrap ⟨0, by decide⟩) (by decide)

end ZeroBugs.Engine.BreakPoint
