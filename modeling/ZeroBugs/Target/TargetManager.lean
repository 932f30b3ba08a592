import ZeroBugs.Lib.Runs

/-! # The list of targets -/
namespace ZeroBugs.Target.TargetList
open Lib.Runs List

variable {α : Type*} [DecidableEq α]

structure TargetManager (α : Type*) where
  iterCount : Nat
  targets : List α
  pendingAddition : List α
  pendingRemoval : List α

def addTargetInternal (targets : List α) (t : α) : List α :=
  if t ∈ targets then targets else targets ++ [t]

def removeTargetInternal (targets : List α) (t : α) : List α := targets.erase t

namespace TargetManager

def empty : TargetManager α := ⟨0, [], [], []⟩

def addTarget (m : TargetManager α) (t : α) : TargetManager α :=
  if m.iterCount = 0 then { m with targets := addTargetInternal m.targets t }
  else { m with pendingAddition := m.pendingAddition ++ [t] }

def removeTarget (m : TargetManager α) (t : α) : TargetManager α :=
  if m.iterCount = 0 then { m with targets := removeTargetInternal m.targets t }
  else { m with pendingRemoval := m.pendingRemoval ++ [t] }

def incrementIterCount (m : TargetManager α) : TargetManager α :=
  { m with iterCount := m.iterCount + 1 }

def decrementIterCount (m : TargetManager α) : TargetManager α :=
  if m.iterCount - 1 = 0 then
    { iterCount := 0
      targets := m.pendingRemoval.foldl removeTargetInternal
        (m.pendingAddition.foldl addTargetInternal m.targets)
      pendingAddition := []
      pendingRemoval := [] }
  else { m with iterCount := m.iterCount - 1 }

end TargetManager

inductive Request (α : Type*) where
  | add (t : α)
  | remove (t : α)
  deriving DecidableEq

inductive Call (α : Type*) where
  | request (r : Request α)
  | acquire
  | release
  deriving DecidableEq

def TargetManager.step (m : TargetManager α) : Call α → TargetManager α
  | .request (.add t) => m.addTarget t
  | .request (.remove t) => m.removeTarget t
  | .acquire => m.incrementIterCount
  | .release => m.decrementIterCount

/-- Every request applied at once. `period` has the requests made since the list was
last free of iterators. -/
structure Reference (α : Type*) where
  present : Finset α
  iterCount : Nat
  period : List (Request α)

def Request.apply (present : Finset α) : Request α → Finset α
  | .add t => insert t present
  | .remove t => present.erase t

def Reference.empty : Reference α := ⟨∅, 0, []⟩

def Reference.step (r : Reference α) : Call α → Reference α
  | .request q => { r with
      present := q.apply r.present
      period := if r.iterCount = 0 then [] else r.period ++ [q] }
  | .acquire => { r with iterCount := r.iterCount + 1 }
  | .release => { r with
      iterCount := r.iterCount - 1
      period := if r.iterCount - 1 = 0 then [] else r.period }

def step : TargetManager α × Reference α → Call α → TargetManager α × Reference α :=
  both TargetManager.step Reference.step

def start : TargetManager α × Reference α := (.empty, .empty)

structure Linearized (s : TargetManager α × Reference α) (c : Call α) : Prop where
  same : (step s c).1.iterCount = 0 →
    (step s c).1.targets.Nodup ∧ ∀ t, t ∈ (step s c).1.targets ↔ t ∈ (step s c).2.present
  kept : (step s c).1.iterCount ≠ 0 → (step s c).1.targets = s.1.targets

def Counted (s : TargetManager α × Reference α) (c : Call α) : Prop :=
  c = .release → s.1.iterCount ≠ 0

def Request.asks (t : α) : Request α → Option Bool
  | .add u => if u = t then some true else none
  | .remove u => if u = t then some false else none

def lastRequest (t : α) (period : List (Request α)) : Option Bool :=
  (period.filterMap (Request.asks t)).getLast?

/-- The condition: when the last iterator goes, no target is last to be added that was
to be removed in the same period. -/
def InOrder (s : TargetManager α × Reference α) (c : Call α) : Prop :=
  c = .release → s.1.iterCount = 1 →
    ∀ t, .remove t ∈ s.2.period → lastRequest t s.2.period ≠ some true

variable {targets : List α} {t : α}

theorem mem_addTargetInternal {u : α} :
    u ∈ addTargetInternal targets t ↔ u ∈ targets ∨ u = t := by
  unfold addTargetInternal
  split
  · rename_i h
    constructor
    · exact .inl
    · rintro (hu | rfl)
      · exact hu
      · exact h
  · simp

theorem nodup_addTargetInternal (h : targets.Nodup) (t : α) :
    (addTargetInternal targets t).Nodup := by
  unfold addTargetInternal
  split
  · exact h
  · rename_i hnew
    refine List.Nodup.append h (by simp) ?_
    simpa using hnew

theorem mem_removeTargetInternal (h : targets.Nodup) {u : α} :
    u ∈ removeTargetInternal targets t ↔ u ≠ t ∧ u ∈ targets :=
  h.mem_erase_iff

theorem foldl_addTargetInternal (pending : List α) (h : targets.Nodup) :
    (pending.foldl addTargetInternal targets).Nodup ∧
      ∀ t, t ∈ pending.foldl addTargetInternal targets ↔ t ∈ targets ∨ t ∈ pending := by
  induction pending generalizing targets with
  | nil => simpa using h
  | cons u pending ih =>
    obtain ⟨hnodup, hmem⟩ := ih (nodup_addTargetInternal h u)
    refine ⟨hnodup, fun t => ?_⟩
    rw [foldl_cons, hmem, mem_addTargetInternal, mem_cons, or_assoc]

theorem foldl_removeTargetInternal (pending : List α) (h : targets.Nodup) :
    (pending.foldl removeTargetInternal targets).Nodup ∧
      ∀ t, t ∈ pending.foldl removeTargetInternal targets ↔ t ∈ targets ∧ t ∉ pending := by
  induction pending generalizing targets with
  | nil => simpa using h
  | cons u pending ih =>
    obtain ⟨hnodup, hmem⟩ := ih (show (removeTargetInternal targets u).Nodup from h.erase u)
    refine ⟨hnodup, fun t => ?_⟩
    rw [foldl_cons, hmem, mem_removeTargetInternal h, mem_cons, not_or]
    tauto

theorem lastRequest_concat (t : α) (period : List (Request α)) (q : Request α) :
    lastRequest t (period ++ [q]) = (q.asks t).or (lastRequest t period) := by
  rw [lastRequest, filterMap_append]
  cases hq : q.asks t with
  | none => simp [hq, lastRequest]
  | some b => simp [hq]

theorem asks_eq_true {q : Request α} : q.asks t = some true ↔ q = .add t := by
  cases q <;> simp [Request.asks]

theorem asks_eq_false {q : Request α} : q.asks t = some false ↔ q = .remove t := by
  cases q <;> simp [Request.asks]

theorem mem_of_lastRequest {period : List (Request α)} {b : Bool}
    (h : lastRequest t period = some b) : ∃ q ∈ period, q.asks t = some b :=
  List.mem_filterMap.mp (mem_of_getLast? h)

theorem asks_of_lastRequest_none {period : List (Request α)}
    (h : lastRequest t period = none) : ∀ q ∈ period, q.asks t = none := by
  rw [lastRequest, getLast?_eq_none_iff] at h
  exact List.filterMap_eq_nil_iff.mp h

structure Tracks (s : TargetManager α × Reference α) : Prop where
  count : s.2.iterCount = s.1.iterCount
  nodup : s.1.targets.Nodup
  additions : ∀ t, t ∈ s.1.pendingAddition ↔ .add t ∈ s.2.period
  removals : ∀ t, t ∈ s.1.pendingRemoval ↔ .remove t ∈ s.2.period
  present : ∀ t, t ∈ s.2.present ↔
    (lastRequest t s.2.period).getD (decide (t ∈ s.1.targets)) = true
  idle : s.1.iterCount = 0 → s.2.period = []

theorem Tracks.start : Tracks (start : TargetManager α × Reference α) where
  count := rfl
  nodup := nodup_nil
  additions := by simp [TargetList.start, TargetManager.empty, Reference.empty]
  removals := by simp [TargetList.start, TargetManager.empty, Reference.empty]
  present := by
    simp [TargetList.start, TargetManager.empty, Reference.empty, lastRequest]
  idle _ := rfl

theorem mem_apply {present : Finset α} (q : Request α) :
    t ∈ q.apply present ↔ (q.asks t).getD (decide (t ∈ present)) = true := by
  cases q with
  | add u =>
    by_cases h : t = u
    · simp [Request.apply, Request.asks, h]
    · simp [Request.apply, Request.asks, h, Ne.symm h]
  | remove u =>
    by_cases h : t = u
    · simp [Request.apply, Request.asks, h]
    · simp [Request.apply, Request.asks, h, Ne.symm h]

section Steps

variable {s : TargetManager α × Reference α}

section

variable (h : Tracks s)
include h

theorem Tracks.same (hfree : s.1.iterCount = 0) (t : α) :
    t ∈ s.1.targets ↔ t ∈ s.2.present := by
  simp [h.present, h.idle hfree, lastRequest]

theorem Tracks.request_free (hfree : s.1.iterCount = 0) (q : Request α) :
    Tracks (step s (.request q)) ∧ (step s (.request q)).1.iterCount = 0 := by
  have hperiod := h.idle hfree
  have hcount : s.2.iterCount = 0 := h.count.trans hfree
  have hadd : ∀ t, t ∉ s.1.pendingAddition := fun t => by simp [h.additions, hperiod]
  have hrem : ∀ t, t ∉ s.1.pendingRemoval := fun t => by simp [h.removals, hperiod]
  cases q with
  | add u =>
    simp only [step, both, TargetManager.step, Reference.step, TargetManager.addTarget, hfree,
      hcount, if_true]
    refine ⟨⟨rfl, nodup_addTargetInternal h.nodup u, ?_, ?_, ?_, fun _ => rfl⟩, trivial⟩
    · simp [hadd]
    · simp [hrem]
    · simp only [mem_addTargetInternal, Request.apply, Finset.mem_insert, ← h.same hfree]
      simp [lastRequest, or_comm]
  | remove u =>
    simp only [step, both, TargetManager.step, Reference.step, TargetManager.removeTarget, hfree,
      hcount, if_true]
    refine ⟨⟨rfl, h.nodup.erase u, ?_, ?_, ?_, fun _ => rfl⟩, trivial⟩
    · simp [hadd]
    · simp [hrem]
    · simp only [mem_removeTargetInternal h.nodup, Request.apply, Finset.mem_erase,
        ← h.same hfree]
      simp [lastRequest]

theorem Tracks.request_busy (hbusy : s.1.iterCount ≠ 0) (q : Request α) :
    Tracks (step s (.request q)) ∧ (step s (.request q)).1.targets = s.1.targets ∧
      (step s (.request q)).1.iterCount = s.1.iterCount := by
  have hcount : s.2.iterCount ≠ 0 := h.count ▸ hbusy
  have hpresent : ∀ t, t ∈ q.apply s.2.present ↔
      (lastRequest t (s.2.period ++ [q])).getD (decide (t ∈ s.1.targets)) = true := by
    intro t
    rw [mem_apply, lastRequest_concat]
    cases q.asks t with
    | none => simpa using h.present t
    | some b => simp
  cases q with
  | add u =>
    simp only [step, both, TargetManager.step, Reference.step, TargetManager.addTarget, hbusy,
      hcount, if_false]
    refine ⟨⟨h.count, h.nodup, ?_, ?_, hpresent, fun hfree => absurd hfree hbusy⟩, trivial, trivial⟩
    · simp [h.additions]
    · simp [h.removals]
  | remove u =>
    simp only [step, both, TargetManager.step, Reference.step, TargetManager.removeTarget, hbusy,
      hcount, if_false]
    refine ⟨⟨h.count, h.nodup, ?_, ?_, hpresent, fun hfree => absurd hfree hbusy⟩, trivial, trivial⟩
    · simp [h.additions]
    · simp [h.removals]

theorem Tracks.acquire : Tracks (step s .acquire) :=
  ⟨congrArg (· + 1) h.count, h.nodup, h.additions, h.removals, h.present,
    fun hfree => absurd hfree (Nat.succ_ne_zero _)⟩

theorem Tracks.release_busy (hmore : s.1.iterCount - 1 ≠ 0) :
    Tracks (step s .release) ∧ (step s .release).1.targets = s.1.targets := by
  have hcount : s.2.iterCount - 1 ≠ 0 := by rwa [h.count]
  simp only [step, both, TargetManager.step, Reference.step, TargetManager.decrementIterCount,
    hmore, hcount, if_false]
  exact ⟨⟨congrArg (· - 1) h.count, h.nodup, h.additions, h.removals, h.present,
    fun hfree => absurd hfree hmore⟩, trivial⟩

theorem Tracks.release_last (hlast : s.1.iterCount = 1) :
    (step s .release).1.targets.Nodup ∧
      ∀ t, t ∈ (step s .release).1.targets ↔
        (t ∈ s.1.targets ∨ .add t ∈ s.2.period) ∧ .remove t ∉ s.2.period := by
  obtain ⟨hadded, hmemAdded⟩ := foldl_addTargetInternal s.1.pendingAddition h.nodup
  obtain ⟨hnodup, hmem⟩ := foldl_removeTargetInternal s.1.pendingRemoval hadded
  simp only [step, both, TargetManager.step, TargetManager.decrementIterCount, hlast,
    Nat.sub_self, if_true]
  refine ⟨hnodup, fun t => ?_⟩
  rw [hmem, hmemAdded, h.additions, h.removals]

theorem Tracks.release_agrees (t : α) :
    ((t ∈ s.1.targets ∨ .add t ∈ s.2.period) ∧ .remove t ∉ s.2.period ↔ t ∈ s.2.present) ↔
      (.remove t ∈ s.2.period → lastRequest t s.2.period ≠ some true) := by
  rw [h.present]
  cases hlast : lastRequest t s.2.period with
  | none =>
    have hnone := asks_of_lastRequest_none hlast
    have hadd : .add t ∉ s.2.period := fun hmem => by simpa [Request.asks] using hnone _ hmem
    have hrem : .remove t ∉ s.2.period := fun hmem => by simpa [Request.asks] using hnone _ hmem
    simp [hadd, hrem]
  | some b =>
    obtain ⟨q, hq, hasks⟩ := mem_of_lastRequest hlast
    cases b with
    | true =>
      rw [asks_eq_true] at hasks
      subst hasks
      simp [hq]
    | false =>
      rw [asks_eq_false] at hasks
      subst hasks
      simp [hq]

theorem Tracks.release (hlast : s.1.iterCount = 1)
    (hsame : ∀ t, t ∈ (step s .release).1.targets ↔ t ∈ s.2.present) :
    Tracks (step s .release) := by
  have hcount : s.2.iterCount = 1 := h.count.trans hlast
  have hlist := h.release_last hlast
  simp only [step, both, TargetManager.step, Reference.step, TargetManager.decrementIterCount,
    hlast, hcount, Nat.sub_self, if_true] at hlist hsame ⊢
  exact ⟨rfl, hlist.1, by simp, by simp, fun t => by simp [lastRequest, hsame], fun _ => rfl⟩

theorem Tracks.call_iff {c : Call α} (hcounted : Counted s c) :
    (Linearized s c ↔ InOrder s c) ∧ (InOrder s c → Tracks (step s c)) := by
  cases c with
  | request q =>
    have hok : InOrder s (.request q) := fun hc => nomatch hc
    by_cases hfree : s.1.iterCount = 0
    · obtain ⟨hnext, hcount⟩ := h.request_free hfree q
      refine ⟨iff_of_true ⟨fun _ => ⟨hnext.nodup, hnext.same hcount⟩, ?_⟩ hok, fun _ => hnext⟩
      exact fun hbusy => absurd hcount hbusy
    · obtain ⟨hnext, htargets, hcount⟩ := h.request_busy hfree q
      refine ⟨iff_of_true ⟨?_, fun _ => htargets⟩ hok, fun _ => hnext⟩
      exact fun hzero => absurd (hcount.symm.trans hzero) hfree
  | acquire =>
    have hok : InOrder s .acquire := fun hc => nomatch hc
    refine ⟨iff_of_true ⟨fun hzero => absurd hzero (Nat.succ_ne_zero _), fun _ => rfl⟩ hok, ?_⟩
    exact fun _ => h.acquire
  | release =>
    have hpos := hcounted rfl
    by_cases hlast : s.1.iterCount = 1
    · obtain ⟨hnodup, hmem⟩ := h.release_last hlast
      have hzero : (step s .release).1.iterCount = 0 := by
        simp [step, both, TargetManager.step, TargetManager.decrementIterCount, hlast]
      have hsame : (∀ t, t ∈ (step s .release).1.targets ↔ t ∈ s.2.present) ↔
          InOrder s .release := by
        simp only [hmem, h.release_agrees, InOrder, hlast, true_imp_iff]
      refine ⟨⟨fun hgood => hsame.mp (hgood.same hzero).2, fun hok => ?_⟩, fun hok => ?_⟩
      · exact ⟨fun _ => ⟨hnodup, hsame.mpr hok⟩, fun hbusy => absurd hzero hbusy⟩
      · exact h.release hlast (hsame.mpr hok)
    · have hmore : s.1.iterCount - 1 ≠ 0 := by omega
      have hok : InOrder s .release := fun _ hone => absurd hone hlast
      obtain ⟨hnext, htargets⟩ := h.release_busy hmore
      refine ⟨iff_of_true ⟨fun hzero => ?_, fun _ => htargets⟩ hok, fun _ => hnext⟩
      simp [step, both, TargetManager.step, TargetManager.decrementIterCount, hmore] at hzero

end

end Steps

theorem linearized_iff {calls : List (Call α)} (hcounted : Along step Counted start calls) :
    Along step Linearized (start : TargetManager α × Reference α) calls ↔
      Along step InOrder start calls :=
  along_iff_within Tracks (fun _ _ h hc => h.call_iff hc) Tracks.start hcounted

def quietIteration : List (Call Nat) :=
  [.request (.add 1), .acquire, .request (.add 2), .request (.remove 1), .release]

theorem linearized_iff_quietIteration :
    Along step Linearized start quietIteration ↔ Along step InOrder start quietIteration :=
  linearized_iff ⟨nofun, nofun, nofun, nofun, fun _ => by decide, trivial⟩

theorem readded_target_is_lost :
    ¬Along step Linearized start
      ([.request (.add 1), .acquire, .request (.remove 1), .request (.add 1), .release] :
        List (Call Nat)) := by
  rintro ⟨-, -, -, -, hrelease, -⟩
  exact absurd ((hrelease.same rfl).2 1) (by decide)

end ZeroBugs.Target.TargetList
