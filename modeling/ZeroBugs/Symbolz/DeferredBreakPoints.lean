import ZeroBugs.Engine.BreakPointManager
import ZeroBugs.Lib.MultiMap
import ZeroBugs.Lib.Runs

/-! # Deferred breakpoints -/
namespace ZeroBugs.Symbolz.Deferred
open List

open Engine.BreakPointManager (Thread BreakPointType Action)
open Lib Lib.Runs

/-- A deferred breakpoint. One that was asked for without a `Runnable` has no thread. -/
structure BreakPoint where
  type : BreakPointType
  thread : Option Thread
  actions : List Action
  deriving DecidableEq

def Known (action : Action) (actions : List Action) : Prop :=
  action.cookie ≠ 0 ∧ ∃ a ∈ actions, a.cookie = action.cookie ∧ a.name = action.name
  deriving Decidable

def BreakPoint.addAction (b : BreakPoint) : Option Action → BreakPoint
  | none => b
  | some action =>
    if Known action b.actions then b else { b with actions := b.actions ++ [action] }

structure Request where
  addr : Nat
  type : BreakPointType
  runnable : Option Thread
  action : Option Action
  deriving DecidableEq

abbrev DeferredMap := MultiMap Nat BreakPoint

/-- The breakpoint takes the request: any one does if no thread is asked for. -/
def Request.Fits (req : Request) (b : BreakPoint) : Prop :=
  req.runnable = none ∨ b.thread = req.runnable
  deriving Decidable

inductive Scan where
  | found
  | notFound
  | pastEnd
  deriving DecidableEq

def scan (req : Request) : List (Nat × BreakPoint) → Scan
  | [] => .pastEnd
  | e :: es =>
    if e.1 = req.addr then if req.Fits e.2 then .found else scan req es else .notFound

/-- The breakpoint that the event sink creates: for the thread that is asked for, and
with the interactive action if none is given. -/
def create (user : Action) (req : Request) : BreakPoint :=
  ⟨req.type, req.runnable, [req.action.getD user]⟩

/-- The first breakpoint of the address that takes the request gets its action. -/
def addTo (m : DeferredMap) (req : Request) : DeferredMap :=
  m.modify (fun e => decide (e.1 = req.addr ∧ req.Fits e.2)) (·.addAction req.action)

def search (m : DeferredMap) (req : Request) : Scan :=
  match m.from_ req.addr with
  | [] => .notFound
  | e :: es => if e.1 = req.addr then scan req (e :: es) else .notFound

/-- `set_deferred_breakpoint`. What is read at the end of the map is no address of the
map, or the test for the end comes next: the loop is over. -/
def setDeferredBreakpoint (user : Action) (m : DeferredMap) (req : Request) : DeferredMap :=
  match search m req with
  | .found => addTo m req
  | .notFound | .pastEnd => m.insert req.addr (create user req)

def OnePerThread (m : DeferredMap) : Prop :=
  (m.entries.map fun e => (e.1, e.2.thread)).Nodup

/-- An action that is given with a thread is in the breakpoint of its address and
thread. -/
def Recorded (m : DeferredMap) (req : Request) : Prop :=
  ∀ thread action, req.runnable = some thread → req.action = some action →
    ∃ b, (req.addr, b) ∈ m.entries ∧ b.thread = some thread ∧
      (action ∈ b.actions ∨ Known action b.actions)

structure Good (user : Action) (m : DeferredMap) (req : Request) : Prop where
  inside : search m req ≠ .pastEnd
  onePerThread : OnePerThread (setDeferredBreakpoint user m req)
  recorded : Recorded (setDeferredBreakpoint user m req) req

def Bounded (m : DeferredMap) (req : Request) : Prop :=
  m.HasKey req.addr → (∃ b ∈ m.group req.addr, req.Fits b) ∨ ∃ k, m.HasKey k ∧ req.addr < k

theorem scan_eq_pastEnd_iff (req : Request) (l : List (Nat × BreakPoint)) :
    scan req l = .pastEnd ↔ ∀ e ∈ l, e.1 = req.addr ∧ ¬req.Fits e.2 := by
  induction l with
  | nil => exact iff_of_true rfl nofun
  | cons e es ih =>
    rw [forall_mem_cons, ← ih, scan]
    by_cases hkey : e.1 = req.addr
    · by_cases hfits : req.Fits e.2 <;> simp [hkey, hfits]
    · simp [hkey]

theorem scan_eq_found_iff (req : Request) {l : List (Nat × BreakPoint)}
    (hsorted : l.Pairwise (·.1 ≤ ·.1)) (hfrom : ∀ e ∈ l, req.addr ≤ e.1) :
    scan req l = .found ↔ ∃ e ∈ l, e.1 = req.addr ∧ req.Fits e.2 := by
  induction l with
  | nil => simp [scan]
  | cons e es ih =>
    obtain ⟨hfirst, htail⟩ := List.pairwise_cons.mp hsorted
    obtain ⟨hle, hrest⟩ := forall_mem_cons.mp hfrom
    rw [scan]
    by_cases hkey : e.1 = req.addr
    · by_cases hfits : req.Fits e.2
      · simp [hkey, hfits]
      · simp [hkey, hfits, ih htail hrest]
    · -- all entries from here on are for greater addresses
      rw [if_neg hkey]
      refine iff_of_false Scan.noConfusion fun h => ?_
      obtain ⟨x, hx, hxkey, -⟩ := h
      rcases mem_cons.mp hx with rfl | hx
      · exact hkey hxkey
      · have hge := hfirst x hx
        omega

section Search

variable {m : DeferredMap} {req : Request}

theorem search_eq_scan (h : m.HasKey req.addr) : search m req = scan req (m.from_ req.addr) := by
  obtain ⟨e, hhead, hkey⟩ := MultiMap.hasKey_iff_head.mp h
  unfold search
  cases hfrom : m.from_ req.addr with
  | nil =>
    rw [hfrom] at hhead
    cases hhead
  | cons x xs =>
    rw [hfrom] at hhead
    obtain rfl := Option.some.inj hhead
    exact if_pos hkey

theorem search_of_not_hasKey (h : ¬m.HasKey req.addr) : search m req = .notFound := by
  unfold search
  split
  · rfl
  · next e es hfrom =>
    refine if_neg fun hkey => h (MultiMap.hasKey_iff_head.mpr ⟨e, ?_, hkey⟩)
    rw [hfrom]
    rfl

theorem mem_from_of_le {e : Nat × BreakPoint} (he : e ∈ m.entries) (hle : req.addr ≤ e.1) :
    e ∈ m.from_ req.addr := by
  rw [← m.below_append_from req.addr, mem_append] at he
  exact he.resolve_left fun hb => absurd (MultiMap.lt_of_mem_below hb) (Nat.not_lt.mpr hle)

theorem mem_of_mem_from {e : Nat × BreakPoint} (he : e ∈ m.from_ req.addr) : e ∈ m.entries := by
  rw [← m.below_append_from req.addr]
  exact mem_append_right _ he

theorem search_eq_found_iff :
    search m req = .found ↔ ∃ e ∈ m.entries, e.1 = req.addr ∧ req.Fits e.2 := by
  by_cases hkey : m.HasKey req.addr
  · rw [search_eq_scan hkey, scan_eq_found_iff req (m.from_sorted req.addr)
      fun e he => MultiMap.le_of_mem_from he]
    constructor
    · intro h
      obtain ⟨e, he, hfits⟩ := h
      exact ⟨e, mem_of_mem_from he, hfits⟩
    · intro h
      obtain ⟨e, he, hfits⟩ := h
      exact ⟨e, mem_from_of_le he hfits.1.ge, hfits⟩
  · rw [search_of_not_hasKey hkey]
    refine iff_of_false Scan.noConfusion fun h => hkey ?_
    obtain ⟨e, he, haddr, -⟩ := h
    exact ⟨e, he, haddr⟩

theorem search_eq_pastEnd_iff : search m req = .pastEnd ↔ ¬Bounded m req := by
  by_cases hkey : m.HasKey req.addr
  · rw [search_eq_scan hkey, scan_eq_pastEnd_iff]
    constructor
    · intro hall hbounded
      rcases hbounded hkey with ⟨b, hb, hfits⟩ | ⟨k, ⟨e, he, rfl⟩, hlt⟩
      · exact (hall (req.addr, b) (mem_from_of_le (MultiMap.mem_group.mp hb) (le_refl _))).2 hfits
      · exact absurd (hall e (mem_from_of_le he hlt.le)).1 (Nat.ne_of_gt hlt)
    · intro hnot e he
      have hmem := mem_of_mem_from he
      have hle := MultiMap.le_of_mem_from he
      have haddr : e.1 = req.addr := by
        by_contra hne
        exact hnot fun _ => Or.inr ⟨e.1, ⟨e, hmem, rfl⟩, by omega⟩
      refine ⟨haddr, fun hfits => hnot fun _ => Or.inl ⟨e.2, ?_, hfits⟩⟩
      exact MultiMap.mem_group.mpr (haddr ▸ hmem)
  · rw [search_of_not_hasKey hkey]
    exact iff_of_false Scan.noConfusion (not_not.mpr fun h => absurd h hkey)

end Search

@[simp] theorem thread_addAction (b : BreakPoint) (action : Option Action) :
    (b.addAction action).thread = b.thread := by
  cases action with
  | none => rfl
  | some action =>
    unfold BreakPoint.addAction
    dsimp only
    split <;> rfl

theorem mem_actions_addAction (b : BreakPoint) (action : Action) :
    action ∈ (b.addAction (some action)).actions ∨
      Known action (b.addAction (some action)).actions := by
  unfold BreakPoint.addAction
  dsimp only
  by_cases h : Known action b.actions
  · rw [if_pos h]
    exact Or.inr h
  · rw [if_neg h]
    exact Or.inl (mem_append_right _ mem_cons_self)

theorem Request.Fits.thread_eq {req : Request} {b : BreakPoint} (h : req.Fits b)
    {thread : Thread} (ht : req.runnable = some thread) : b.thread = some thread := by
  rcases h with hnone | heq
  · rw [hnone] at ht
    cases ht
  · rw [heq, ht]

section Call

variable {user : Action} {m : DeferredMap} {req : Request}

theorem setDeferredBreakpoint_of_found (h : search m req = .found) :
    setDeferredBreakpoint user m req = addTo m req := by
  rw [setDeferredBreakpoint, h]

theorem setDeferredBreakpoint_of_not_found (h : search m req ≠ .found) :
    setDeferredBreakpoint user m req = m.insert req.addr (create user req) := by
  unfold setDeferredBreakpoint
  split
  · next hfound => exact absurd hfound h
  · rfl
  · rfl

theorem OnePerThread.call (h : OnePerThread m) :
    OnePerThread (setDeferredBreakpoint user m req) := by
  by_cases hfound : search m req = .found
  · rw [setDeferredBreakpoint_of_found hfound, OnePerThread, addTo,
      MultiMap.map_modify fun e => by simp]
    exact h
  · rw [setDeferredBreakpoint_of_not_found hfound, OnePerThread,
      ((m.insert_perm req.addr (create user req)).map _).nodup_iff, map_cons,
      nodup_cons]
    refine ⟨fun hmem => hfound (search_eq_found_iff.mpr ?_), h⟩
    obtain ⟨e, he, heq⟩ := mem_map.mp hmem
    obtain ⟨haddr, hthread⟩ := Prod.mk.inj heq
    exact ⟨e, he, haddr, Or.inr hthread⟩

theorem recorded_call : Recorded (setDeferredBreakpoint user m req) req := by
  intro thread action hthread haction
  by_cases hfound : search m req = .found
  · obtain ⟨x, hx, haddr, hfits⟩ := search_eq_found_iff.mp hfound
    obtain ⟨e, -, htest, hmem⟩ := MultiMap.mem_modify
      (p := fun e => decide (e.1 = req.addr ∧ req.Fits e.2)) (f := (·.addAction req.action))
      ⟨x, hx, decide_eq_true ⟨haddr, hfits⟩⟩
    obtain ⟨hekey, hefits⟩ := of_decide_eq_true htest
    rw [setDeferredBreakpoint_of_found hfound]
    refine ⟨e.2.addAction req.action, hekey ▸ hmem, ?_, ?_⟩
    · rw [thread_addAction, hefits.thread_eq hthread]
    · rw [haction]
      exact mem_actions_addAction e.2 action
  · rw [setDeferredBreakpoint_of_not_found hfound]
    refine ⟨create user req, MultiMap.mem_insert.mpr (Or.inl rfl), hthread, Or.inl ?_⟩
    rw [create, haction]
    exact mem_cons_self

end Call

theorem along_good_iff (user : Action) (calls : List Request) :
    Along (setDeferredBreakpoint user) (Good user) MultiMap.empty calls ↔
      Along (setDeferredBreakpoint user) Bounded MultiMap.empty calls := by
  have hempty : OnePerThread MultiMap.empty := nodup_nil
  refine along_iff_of_invariant OnePerThread (fun m req h => ?_) (fun m req h _ => h.call)
    hempty calls
  constructor
  · intro hgood
    by_contra hnot
    exact hgood.inside (search_eq_pastEnd_iff.mpr hnot)
  · intro hbounded
    exact ⟨fun hpast => search_eq_pastEnd_iff.mp hpast hbounded, h.call, recorded_call⟩

def request (thread : Thread) : Request := ⟨16, .software, some thread, none⟩

theorem second_thread_reads_past_end :
    search (setDeferredBreakpoint ⟨0, "USER", 0⟩ MultiMap.empty (request ⟨1, 1⟩))
      (request ⟨2, 2⟩) = .pastEnd := by
  decide

end ZeroBugs.Symbolz.Deferred
