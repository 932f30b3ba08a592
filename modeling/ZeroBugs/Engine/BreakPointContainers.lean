import ZeroBugs.Engine.BreakPointManager
import ZeroBugs.Lib.Runs

/-! # What the breakpoint manager's containers hold -/
namespace ZeroBugs.Engine.BreakPointManager
open Lib.Runs List Function

def Manager.Stores (s : Manager) (scope : Option Nat) (a : Nat) (b : BreakPointBase) : Prop :=
  (s.map scope).lookup a = some b

section

variable (s : Manager) (scope : Option Nat)

theorem map_setMap (m : BreakPointMap) :
    (s.setMap scope m).map = update s.map scope m := by
  funext scope'
  cases scope with
  | none => cases scope' <;> simp [Manager.setMap, Manager.map, update]
  | some p =>
    cases scope' with
    | none => simp [Manager.setMap, Manager.map, update]
    | some q =>
      by_cases h : q = p
      · subst h
        simp [Manager.setMap, Manager.map]
      · simp [Manager.setMap, Manager.map, update, h]

theorem map_setMap_map :
    (s.setMap scope (s.map scope)).map = s.map := by
  rw [map_setMap, update_eq_self]

@[simp] theorem deferred_setMap (m : BreakPointMap) :
    (s.setMap scope m).deferred = s.deferred := by
  cases scope <;> rfl

@[simp] theorem pid_setMap (m : BreakPointMap) :
    (s.setMap scope m).pid = s.pid := by
  cases scope <;> rfl

@[simp] theorem created_setMap (m : BreakPointMap) :
    (s.setMap scope m).created = s.created := by
  cases scope <;> rfl

end

variable {scope : Option Nat} {a : Nat} {b : BreakPointBase}

theorem stores_of_map_eq {s s' : Manager} (hmap : s'.map = s.map) (h : s'.Stores scope a b) :
    s.Stores scope a b := by
  rwa [Manager.Stores, hmap] at h

theorem stores_insert {s s' : Manager}
    (hmap : s'.map = update s.map scope ((s.map scope).insert a b))
    {scope' : Option Nat} {a' : Nat} {b' : BreakPointBase} (h : s'.Stores scope' a' b') :
    (scope' = scope ∧ a' = a ∧ b' = b) ∨ s.Stores scope' a' b' := by
  rw [Manager.Stores, hmap] at h
  by_cases hscope : scope' = scope
  · subst hscope
    rw [update_self] at h
    by_cases ha : a' = a
    · subst ha
      rw [AList.lookup_insert, Option.some.injEq] at h
      exact .inl ⟨rfl, rfl, h.symm⟩
    · rw [AList.lookup_insert_ne ha] at h
      exact .inr h
  · rw [update_of_ne hscope] at h
    exact .inr h

theorem stores_insert_self {s s' : Manager}
    (hmap : s'.map = update s.map scope ((s.map scope).insert a b)) :
    s'.Stores scope a b := by
  rw [Manager.Stores, hmap, update_self, AList.lookup_insert]

theorem stores_erase {s s' : Manager}
    (hmap : s'.map = update s.map scope ((s.map scope).erase a))
    {scope' : Option Nat} {a' : Nat} {b' : BreakPointBase} (h : s'.Stores scope' a' b') :
    s.Stores scope' a' b' := by
  rw [Manager.Stores, hmap] at h
  by_cases hscope : scope' = scope
  · subst hscope
    rw [update_self] at h
    by_cases ha : a' = a
    · subst ha
      simp at h
    · rw [AList.lookup_erase_ne ha] at h
      exact h
  · rw [update_of_ne hscope] at h
    exact h

theorem not_stores_empty (pid : Nat) (scope : Option Nat) (a : Nat) (b : BreakPointBase) :
    ¬(Manager.empty pid).Stores scope a b := by
  cases scope <;> simp [Manager.Stores, Manager.empty, Manager.map]

def SameAction (x y : Action) : Prop := x.name = y.name ∧ x.cookie = y.cookie ∧ x.cookie ≠ 0

def ActionsApart (b : BreakPointBase) : Prop := b.actions.Pairwise fun x y => ¬SameAction x y

def SamePlace (b b' : BreakPointBase) : Prop :=
  b.thread = b'.thread ∧ b.type = b'.type ∧ b.addr = b'.addr

section

variable (b : BreakPointBase) (action : Option Action)

theorem addActions_eq :
    b.addActions action = { b with actions := (b.addActions action).actions } := by
  cases action with
  | none => rfl
  | some action =>
    simp only [BreakPointBase.addActions, Option.elim, BreakPointBase.addAction]
    split <;> rfl

@[simp] theorem addActions_kind :
    (b.addActions action).kind = b.kind := by
  rw [addActions_eq]

@[simp] theorem addActions_thread :
    (b.addActions action).thread = b.thread := by
  rw [addActions_eq]

@[simp] theorem addActions_addr :
    (b.addActions action).addr = b.addr := by
  rw [addActions_eq]

@[simp] theorem addActions_type :
    (b.addActions action).type = b.type := by
  rw [addActions_eq]
  rfl

@[simp] theorem addActions_isDeferred :
    (b.addActions action).isDeferred = b.isDeferred := by
  rw [addActions_eq]
  rfl

end

theorem samePlace_addActions_left {d : BreakPointBase} {action : Option Action} :
    SamePlace (b.addActions action) d ↔ SamePlace b d := by
  simp [SamePlace]

theorem ActionsApart.addActions (h : ActionsApart b)
    (action : Option Action) : ActionsApart (b.addActions action) := by
  cases action with
  | none => exact h
  | some action =>
    simp only [BreakPointBase.addActions, Option.elim, BreakPointBase.addAction]
    split
    · exact h
    · rename_i hnew
      refine pairwise_append.mpr ⟨h, pairwise_singleton .., ?_⟩
      rintro x hx y hy ⟨hname, hcookie, hne⟩
      obtain rfl := mem_singleton.mp hy
      exact hnew ⟨hcookie ▸ hne, x, hx, hcookie, hname⟩

theorem actionsApart_of_nil (h : b.actions = []) : ActionsApart b := by
  rw [ActionsApart, h]
  exact .nil

structure Inv (s : Manager) : Prop where
  stored : ∀ scope a b, s.Stores scope a b → b.addr = a
  deferredApart : s.deferred.Pairwise fun b b' => ¬SamePlace b b'
  apart : ∀ scope a b, s.Stores scope a b → ∀ d ∈ s.deferred, ¬SamePlace b d
  actions : ∀ scope a b, s.Stores scope a b → ActionsApart b
  deferredActions : ∀ d ∈ s.deferred, ActionsApart d

theorem inv_empty (pid : Nat) : Inv (.empty pid) where
  stored _ _ _ h := (not_stores_empty _ _ _ _ h).elim
  deferredApart := .nil
  apart _ _ _ h := (not_stores_empty _ _ _ _ h).elim
  actions _ _ _ h := (not_stores_empty _ _ _ _ h).elim
  deferredActions := by simp [Manager.empty]

namespace Inv

variable {s s' : Manager}

theorem mono (h : Inv s) (hmap : ∀ scope a b, s'.Stores scope a b → s.Stores scope a b)
    (hd : s'.deferred.Sublist s.deferred) : Inv s' where
  stored scope a b hb := h.stored scope a b (hmap scope a b hb)
  deferredApart := h.deferredApart.sublist hd
  apart scope a b hb d hmem := h.apart scope a b (hmap scope a b hb) d (hd.subset hmem)
  actions scope a b hb := h.actions scope a b (hmap scope a b hb)
  deferredActions d hmem := h.deferredActions d (hd.subset hmem)

theorem congr (h : Inv s) (hmap : s'.map = s.map) (hd : s'.deferred = s.deferred) : Inv s' := by
  exact h.mono (fun _ _ _ hb => stores_of_map_eq hmap hb) (hd ▸ List.Sublist.refl _)

theorem insert (h : Inv s)
    (hmap : s'.map = update s.map scope ((s.map scope).insert a b))
    (hd : s'.deferred = s.deferred) (haddr : b.addr = a) (hact : ActionsApart b)
    (hplace : ∀ d ∈ s.deferred, ¬SamePlace b d) : Inv s' where
  stored scope' a' b' hb := by
    rcases stores_insert hmap hb with ⟨-, rfl, rfl⟩ | hold
    · exact haddr
    · exact h.stored _ _ _ hold
  deferredApart := hd ▸ h.deferredApart
  apart scope' a' b' hb d hmem := by
    rw [hd] at hmem
    rcases stores_insert hmap hb with ⟨-, -, rfl⟩ | hold
    · exact hplace d hmem
    · exact h.apart _ _ _ hold d hmem
  actions scope' a' b' hb := by
    rcases stores_insert hmap hb with ⟨-, -, rfl⟩ | hold
    · exact hact
    · exact h.actions _ _ _ hold
  deferredActions := hd ▸ h.deferredActions

theorem addActions (h : Inv s) (hmap : s'.map = s.map) (p : BreakPointBase → Prop)
    [DecidablePred p] (action : Option Action)
    (hd : s'.deferred = s.deferred.map fun d => if p d then d.addActions action else d) :
    Inv s' := by
  have hplace : ∀ b d : BreakPointBase,
      SamePlace b (if p d then d.addActions action else d) ↔ SamePlace b d := by
    intro b d
    split <;> simp [SamePlace]
  refine ⟨fun scope a b hb => h.stored _ _ _ (stores_of_map_eq hmap hb), ?_, ?_,
    fun scope a b hb => h.actions _ _ _ (stores_of_map_eq hmap hb), ?_⟩
  · rw [hd, pairwise_map]
    refine h.deferredApart.imp fun {x y} hxy hsame => hxy ?_
    rw [hplace] at hsame
    split at hsame
    · exact samePlace_addActions_left.mp hsame
    · exact hsame
  · intro scope a b hb d hmem
    rw [hd] at hmem
    obtain ⟨d, hd', rfl⟩ := mem_map.mp hmem
    rw [hplace]
    exact h.apart _ _ _ (stores_of_map_eq hmap hb) d hd'
  · intro d hmem
    rw [hd] at hmem
    obtain ⟨d, hd', rfl⟩ := mem_map.mp hmem
    split
    · exact (h.deferredActions d hd').addActions action
    · exact h.deferredActions d hd'

theorem append (h : Inv s) (hmap : s'.map = s.map)
    (hd : s'.deferred = s.deferred ++ [b]) (hact : ActionsApart b)
    (hnew : ∀ d ∈ s.deferred, ¬SamePlace d b)
    (hplace : ∀ scope a b', s.Stores scope a b' → ¬SamePlace b' b) : Inv s' := by
  have hcases : ∀ d, d ∈ s'.deferred → d ∈ s.deferred ∨ d = b := by
    intro d hmem
    rwa [hd, mem_append, mem_singleton] at hmem
  refine ⟨fun scope a b hb => h.stored _ _ _ (stores_of_map_eq hmap hb), ?_, ?_,
    fun scope a b hb => h.actions _ _ _ (stores_of_map_eq hmap hb), ?_⟩
  · rw [hd]
    refine pairwise_append.mpr ⟨h.deferredApart, pairwise_singleton .., ?_⟩
    intro d hmem d' hd'
    obtain rfl := mem_singleton.mp hd'
    exact hnew d hmem
  · intro scope a b' hb d hmem
    rcases hcases d hmem with hold | rfl
    · exact h.apart _ _ _ (stores_of_map_eq hmap hb) d hold
    · exact hplace scope a b' (stores_of_map_eq hmap hb)
  · intro d hmem
    rcases hcases d hmem with hold | rfl
    · exact h.deferredActions d hold
    · exact hact

end Inv

end ZeroBugs.Engine.BreakPointManager
