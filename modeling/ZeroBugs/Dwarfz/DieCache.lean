import ZeroBugs.Lib.Runs

/-! # Lookup of debug entries by offset -/
namespace ZeroBugs.Dwarfz.DieCache
open Lib.Runs List

/-- What a lookup reads of a debug entry; an entry without a tag has tag zero. -/
structure DieEntry where
  tag : Nat
  abstractOrigin : Option Nat
  specification : Option Nat

abbrev Entries := Nat → Option DieEntry

structure State where
  cache : List Nat
  creators : List Nat

structure Call where
  off : Nat
  useSpec : Bool
  indirect : Bool
  deriving DecidableEq

section Model

variable (dies : Entries)

/-- `dwarf_offdie` and `Factory::create`: for a tag without a creator there is no
object, but the next time there will be. -/
def create (s : State) (off : Nat) : State × Option Nat :=
  match dies off with
  | none => (s, none)
  | some die =>
    if die.tag = 0 then (s, none)
    else if die.tag ∈ s.creators then (s, some off)
    else ({ s with creators := die.tag :: s.creators }, none)

def getIndirect (getObject : State → Nat → Option (State × Option Nat)) (s : State) :
    Option Nat → Option (State × Option Nat)
  | none => some (s, none)
  | some offs => getObject s offs

def checkIndirect (getObject : State → Nat → Option (State × Option Nat)) (s : State)
    (off : Nat) (useSpec : Bool) : Option (State × Option Nat) := do
  let die := dies off
  let (s, indirect) ← getIndirect getObject s (die.bind (·.abstractOrigin))
  if indirect.isNone && useSpec then getIndirect getObject s (die.bind (·.specification))
  else some (s, indirect)

/-- `Debug::get_object`; `none` is a recursion deeper than the fuel. -/
def getObject : Nat → State → Nat → Bool → Bool → Option (State × Option Nat)
  | 0, _, _, _, _ => none
  | fuel + 1, s, off, useSpec, indirect =>
    if off ∈ s.cache then some (s, some off)
    else match create dies s off with
    | (s, none) => some (s, none)
    | (s, some object) =>
      let s := { s with cache := off :: s.cache }
      if indirect then do
        let (s, tmp) ← checkIndirect dies (fun s offs => getObject fuel s offs false false) s
          object useSpec
        match tmp with
        | some t => getObject fuel s t false true
        | none => some (s, some object)
      else some (s, some object)

/-- A call of `get_object`, with the fuel it needs (`getObject_fuel`). -/
def call (s : State) (c : Call) : State × Option Nat :=
  (getObject dies 2 s c.off c.useSpec c.indirect).getD (s, none)

end Model

section Calls

variable {dies : Entries} {s s' : State} {off t : Nat}

def Available (dies : Entries) (s : State) (off : Nat) : Prop :=
  off ∈ s.cache ∨ ∃ die, dies off = some die ∧ die.tag ≠ 0 ∧ die.tag ∈ s.creators

def HasTag (dies : Entries) (off : Nat) : Prop := ∃ die, dies off = some die ∧ die.tag ≠ 0

structure Grows (dies : Entries) (s s' : State) : Prop where
  cache : ∀ o ∈ s.cache, o ∈ s'.cache
  creators : ∀ tag ∈ s.creators, tag ∈ s'.creators
  exist : ∀ o ∈ s'.cache, o ∈ s.cache ∨ HasTag dies o

theorem Grows.refl (dies : Entries) (s : State) : Grows dies s s :=
  ⟨fun _ h => h, fun _ h => h, fun _ h => Or.inl h⟩

theorem Grows.trans {s'' : State} (h : Grows dies s s') (h' : Grows dies s' s'') :
    Grows dies s s'' where
  cache := fun o ho => h'.cache o (h.cache o ho)
  creators := fun tag ht => h'.creators tag (h.creators tag ht)
  exist := by
    intro o ho
    rcases h'.exist o ho with ho | hdie
    · exact h.exist o ho
    · exact Or.inr hdie

theorem Grows.insert (h : HasTag dies off) :
    Grows dies s { s with cache := off :: s.cache } where
  cache := fun _ ho => mem_cons_of_mem _ ho
  creators := fun _ ht => ht
  exist := by
    intro o ho
    rcases mem_cons.mp ho with rfl | ho
    · exact Or.inr h
    · exact Or.inl ho

theorem Grows.register (tag : Nat) :
    Grows dies s { s with creators := tag :: s.creators } where
  cache := fun _ ho => ho
  creators := fun _ ht => mem_cons_of_mem _ ht
  exist := fun _ ho => Or.inl ho

def plain (dies : Entries) (s : State) (off : Nat) : State × Option Nat :=
  if off ∈ s.cache then (s, some off)
  else match create dies s off with
  | (s, none) => (s, none)
  | (s, some object) => ({ s with cache := off :: s.cache }, some object)

theorem getObject_plain (n : Nat) (s : State) (off : Nat) (useSpec : Bool) :
    getObject dies (n + 1) s off useSpec false = some (plain dies s off) := by
  unfold getObject plain
  split
  · rfl
  · rcases create dies s off with ⟨s', _ | object⟩ <;> rfl

theorem create_cases (dies : Entries) (s : State) (off : Nat) :
    (create dies s off = (s, some off) ∧
        ∃ die, dies off = some die ∧ die.tag ≠ 0 ∧ die.tag ∈ s.creators) ∨
      (create dies s off = (s, none) ∧ ∀ die, dies off = some die → die.tag = 0) ∨
      ∃ die, dies off = some die ∧ die.tag ≠ 0 ∧ die.tag ∉ s.creators ∧
        create dies s off = ({ s with creators := die.tag :: s.creators }, none) := by
  unfold create
  cases hdie : dies off with
  | none => exact Or.inr (Or.inl ⟨rfl, fun die h => by cases h⟩)
  | some die =>
    by_cases hzero : die.tag = 0
    · refine Or.inr (Or.inl ⟨if_pos hzero, fun die' h => ?_⟩)
      obtain rfl := Option.some.inj h
      exact hzero
    · by_cases hknown : die.tag ∈ s.creators
      · exact Or.inl ⟨by simp [hzero, hknown], die, rfl, hzero, hknown⟩
      · exact Or.inr (Or.inr ⟨die, rfl, hzero, hknown, by simp [hzero, hknown]⟩)

theorem plain_grows (dies : Entries) (s : State) (off : Nat) :
    Grows dies s (plain dies s off).1 := by
  unfold plain
  split
  · exact .refl dies s
  · rcases create_cases dies s off with ⟨h, die, hdie, hzero, -⟩ | ⟨h, -⟩ | ⟨die, -, -, -, h⟩
    · rw [h]
      exact .insert ⟨die, hdie, hzero⟩
    · rw [h]
      exact .refl dies s
    · rw [h]
      exact .register die.tag

theorem plain_some (h : (plain dies s off).2 = some t) :
    t = off ∧ Available dies s off ∧ off ∈ (plain dies s off).1.cache := by
  unfold plain at h ⊢
  split at h
  · next hmem => exact ⟨(Option.some.inj h).symm, Or.inl hmem, by rw [if_pos hmem]; exact hmem⟩
  · next hmem =>
    rw [if_neg hmem]
    rcases create_cases dies s off with ⟨hc, hdie⟩ | ⟨hc, -⟩ | ⟨die, -, -, -, hc⟩
    · rw [hc] at h ⊢
      exact ⟨(Option.some.inj h).symm, Or.inr hdie, mem_cons_self⟩
    · rw [hc] at h
      cases h
    · rw [hc] at h
      cases h

theorem plain_available (h : Available dies s off) : (plain dies s off).2 = some off := by
  unfold plain
  split
  · rfl
  · next hmem =>
    obtain ⟨die, hdie, hzero, hknown⟩ := h.resolve_left hmem
    have hc : create dies s off = (s, some off) := by simp [create, hdie, hzero, hknown]
    rw [hc]

def follow (dies : Entries) (s : State) : Option Nat → State × Option Nat
  | none => (s, none)
  | some offs => plain dies s offs

/-- `check_indirect` -/
def linked (dies : Entries) (s : State) (off : Nat) (useSpec : Bool) : State × Option Nat :=
  let r := follow dies s ((dies off).bind (·.abstractOrigin))
  if r.2.isNone && useSpec then follow dies r.1 ((dies off).bind (·.specification)) else r

theorem follow_grows (dies : Entries) (s : State) (attr : Option Nat) :
    Grows dies s (follow dies s attr).1 := by
  cases attr with
  | none => exact .refl dies s
  | some offs => exact plain_grows dies s offs

theorem linked_grows (dies : Entries) (s : State) (off : Nat) (useSpec : Bool) :
    Grows dies s (linked dies s off useSpec).1 := by
  unfold linked
  dsimp only
  split
  · exact (follow_grows dies s _).trans (follow_grows dies _ _)
  · exact follow_grows dies s _

theorem follow_some_iff {attr : Option Nat} :
    (follow dies s attr).2 = some t ↔ attr = some t ∧ Available dies s t := by
  cases attr with
  | none => simp [follow]
  | some offs =>
    constructor
    · intro h
      obtain ⟨rfl, havailable, -⟩ := plain_some h
      exact ⟨rfl, havailable⟩
    · rintro ⟨⟨⟩, havailable⟩
      exact plain_available havailable

theorem follow_cached {attr : Option Nat} (h : (follow dies s attr).2 = some t) :
    t ∈ (follow dies s attr).1.cache := by
  cases attr with
  | none => cases h
  | some offs =>
    obtain ⟨rfl, -, hcached⟩ := plain_some h
    exact hcached

theorem linked_cached {useSpec : Bool} (h : (linked dies s off useSpec).2 = some t) :
    t ∈ (linked dies s off useSpec).1.cache := by
  unfold linked at h ⊢
  dsimp only at h ⊢
  split at h
  · next hspec =>
    rw [if_pos hspec]
    exact follow_cached h
  · next hspec =>
    rw [if_neg hspec]
    exact follow_cached h

/-- Where an entry's attributes lead: its abstract origin or, if that is not asked for or not there,
its specification. -/
def LeadsTo (dies : Entries) (s : State) (off : Nat) (useSpec : Bool) (t : Nat) : Prop :=
  ((dies off).bind (·.abstractOrigin) = some t ∧ Available dies s t) ∨
    (useSpec = true ∧
      (∀ a, (dies off).bind (·.abstractOrigin) = some a → ¬Available dies s a) ∧
      (dies off).bind (·.specification) = some t ∧
      Available dies (follow dies s ((dies off).bind (·.abstractOrigin))).1 t)

theorem linked_some_iff {useSpec : Bool} :
    (linked dies s off useSpec).2 = some t ↔ LeadsTo dies s off useSpec t := by
  unfold linked LeadsTo
  dsimp only
  cases horigin : (follow dies s ((dies off).bind (·.abstractOrigin))).2 with
  | none =>
    have hnone : ∀ a, (dies off).bind (·.abstractOrigin) = some a → ¬Available dies s a := by
      intro a ha havailable
      rw [follow_some_iff.mpr ⟨ha, havailable⟩] at horigin
      cases horigin
    cases useSpec with
    | false =>
      refine iff_of_false (by simp [horigin]) fun h => ?_
      rcases h with ⟨ha, havailable⟩ | ⟨hspec, -⟩
      · exact hnone t ha havailable
      · cases hspec
    | true =>
      rw [if_pos (by simp), follow_some_iff]
      constructor
      · intro h
        exact Or.inr ⟨rfl, hnone, h⟩
      · intro h
        rcases h with ⟨ha, havailable⟩ | ⟨-, -, h⟩
        · exact absurd havailable (hnone t ha)
        · exact h
  | some a =>
    obtain ⟨ha, havailable⟩ := follow_some_iff.mp horigin
    rw [if_neg (by simp), horigin]
    constructor
    · intro h
      obtain rfl := Option.some.inj h
      exact Or.inl ⟨ha, havailable⟩
    · intro h
      rcases h with ⟨ha', -⟩ | ⟨-, hnone, -⟩
      · rw [← ha, ha']
      · exact absurd havailable (hnone a ha)

/-- `get_object` without its recursion: what is referred to is in the cache by then. -/
def lookup (dies : Entries) (s : State) (c : Call) : State × Option Nat :=
  if c.off ∈ s.cache then (s, some c.off)
  else match create dies s c.off with
  | (s, none) => (s, none)
  | (s, some object) =>
    let s := { s with cache := c.off :: s.cache }
    if c.indirect then
      let r := linked dies s object c.useSpec
      (r.1, some (r.2.getD object))
    else (s, some object)

theorem checkIndirect_eq (n : Nat) (s : State) (off : Nat) (useSpec : Bool) :
    checkIndirect dies (fun s offs => getObject dies (n + 1) s offs false false) s off useSpec =
      some (linked dies s off useSpec) := by
  have hfollow : ∀ s attr, getIndirect (fun s offs => getObject dies (n + 1) s offs false false) s
      attr = some (follow dies s attr) := by
    intro s attr
    cases attr with
    | none => rfl
    | some offs => exact getObject_plain n s offs false
  unfold checkIndirect linked
  simp only [hfollow, Option.bind_eq_bind, Option.bind_some]
  split <;> rfl

theorem getObject_fuel (n : Nat) (s : State) (c : Call) :
    getObject dies (n + 2) s c.off c.useSpec c.indirect = some (lookup dies s c) := by
  unfold getObject lookup
  split
  · rfl
  · rcases create dies s c.off with ⟨s', _ | object⟩
    · rfl
    · dsimp only
      split
      · rw [checkIndirect_eq]
        rcases hlinked : linked dies { s' with cache := c.off :: s'.cache } object c.useSpec with
          ⟨s'', _ | t⟩
        · rfl
        · have hmem : t ∈ s''.cache := by
            have hcached := linked_cached (congrArg Prod.snd hlinked)
            rwa [hlinked] at hcached
          simp only [Option.bind_eq_bind, Option.bind_some]
          rw [getObject, if_pos hmem]
          rfl
      · rfl

theorem call_eq (s : State) (c : Call) : call dies s c = lookup dies s c := by
  rw [call, getObject_fuel 0 s c]
  rfl

end Calls

def step (dies : Entries) (s : State) (c : Call) : State := (call dies s c).1

def answer (dies : Entries) (s : State) (c : Call) : Option Nat := (call dies s c).2

def SameAnswers (dies : Entries) (s : State) (calls : List Call) : Prop :=
  ∀ before c between after, calls = before ++ c :: (between ++ c :: after) →
    answer dies (run (step dies) s before) c =
      answer dies (run (step dies) s (before ++ c :: between)) c

/-- The answer is settled: its entry is in the cache, or there is none, or its tag has a creator
and, if links are followed, it leads to no other entry. -/
def Settled (dies : Entries) (s : State) (c : Call) : Prop :=
  c.off ∈ s.cache ∨ ∀ die, dies c.off = some die → die.tag = 0 ∨
    (die.tag ∈ s.creators ∧ (c.indirect = true → ∀ t,
      LeadsTo dies { s with cache := c.off :: s.cache } c.off c.useSpec t → t = c.off))

section Repeated

variable {dies : Entries} {s s' : State} {c : Call}

theorem lookup_cached (h : c.off ∈ s.cache) : lookup dies s c = (s, some c.off) := by
  rw [lookup, if_pos h]

theorem lookup_missing (hmem : c.off ∉ s.cache)
    (h : ∀ die, dies c.off = some die → die.tag = 0) : lookup dies s c = (s, none) := by
  rw [lookup, if_neg hmem]
  rcases create_cases dies s c.off with ⟨-, die, hdie, hzero, -⟩ | ⟨hc, -⟩ | ⟨die, hdie, hzero, -⟩
  · exact absurd (h die hdie) hzero
  · rw [hc]
  · exact absurd (h die hdie) hzero

theorem lookup_unknown {die : DieEntry} (hmem : c.off ∉ s.cache) (hdie : dies c.off = some die)
    (hzero : die.tag ≠ 0) (hnew : die.tag ∉ s.creators) :
    lookup dies s c = ({ s with creators := die.tag :: s.creators }, none) := by
  have hc : create dies s c.off = ({ s with creators := die.tag :: s.creators }, none) := by
    simp [create, hdie, hzero, hnew]
  rw [lookup, if_neg hmem, hc]

theorem lookup_created {die : DieEntry} (hmem : c.off ∉ s.cache) (hdie : dies c.off = some die)
    (hzero : die.tag ≠ 0) (hknown : die.tag ∈ s.creators) :
    c.off ∈ (lookup dies s c).1.cache ∧
      ∃ t, (lookup dies s c).2 = some t ∧
        (t = c.off ↔ (c.indirect = true → ∀ t',
          LeadsTo dies { s with cache := c.off :: s.cache } c.off c.useSpec t' → t' = c.off)) := by
  have hc : create dies s c.off = (s, some c.off) := by simp [create, hdie, hzero, hknown]
  rw [lookup, if_neg hmem, hc]
  dsimp only
  split
  · next hindirect =>
    refine ⟨(linked_grows dies _ _ _).cache _ mem_cons_self, _, rfl, ?_⟩
    rw [forall_prop_of_true hindirect]
    simp only [← linked_some_iff]
    cases (linked dies { s with cache := c.off :: s.cache } c.off c.useSpec).2 with
    | none => simp
    | some t => simp
  · next hindirect =>
    exact ⟨mem_cons_self, _, rfl, iff_of_true rfl fun h => absurd h hindirect⟩

theorem step_grows (s : State) (c : Call) : Grows dies s (step dies s c) := by
  rw [step, call_eq]
  by_cases hmem : c.off ∈ s.cache
  · rw [lookup_cached hmem]
    exact .refl dies s
  · rw [lookup, if_neg hmem]
    rcases create_cases dies s c.off with ⟨h, die, hdie, hzero, -⟩ | ⟨h, -⟩ | ⟨die, -, -, -, h⟩
    · rw [h]
      dsimp only
      have hinsert : Grows dies s { s with cache := c.off :: s.cache } :=
        .insert ⟨die, hdie, hzero⟩
      split
      · exact hinsert.trans (linked_grows dies _ _ _)
      · exact hinsert
    · rw [h]
      exact .refl dies s
    · rw [h]
      exact .register die.tag

theorem run_grows (s : State) (calls : List Call) : Grows dies s (run (step dies) s calls) := by
  induction calls generalizing s with
  | nil => exact .refl dies s
  | cons c calls ih => exact (step_grows s c).trans (ih (step dies s c))

theorem answer_ne_none {die : DieEntry} (hdie : dies c.off = some die) (hzero : die.tag ≠ 0)
    (hknown : die.tag ∈ s.creators) : answer dies s c ≠ none := by
  rw [answer, call_eq]
  by_cases hmem : c.off ∈ s.cache
  · rw [lookup_cached hmem]
    exact Option.some_ne_none _
  · obtain ⟨-, t, ht, -⟩ := lookup_created hmem hdie hzero hknown
    rw [ht]
    exact Option.some_ne_none t

theorem answer_again_iff (h : Grows dies (step dies s c) s') :
    answer dies s c = answer dies s' c ↔ Settled dies s c := by
  have hgrows : Grows dies s s' := (step_grows s c).trans h
  by_cases hmem : c.off ∈ s.cache
  · refine iff_of_true ?_ (Or.inl hmem)
    rw [answer, answer, call_eq, call_eq, lookup_cached hmem,
      lookup_cached (hgrows.cache _ hmem)]
  by_cases htag : HasTag dies c.off
  · obtain ⟨die, hdie, hzero⟩ := htag
    have hsettled : Settled dies s c ↔ die.tag ∈ s.creators ∧ (c.indirect = true → ∀ t,
        LeadsTo dies { s with cache := c.off :: s.cache } c.off c.useSpec t → t = c.off) := by
      simp [Settled, hmem, hdie, hzero]
    rw [hsettled]
    by_cases hknown : die.tag ∈ s.creators
    · -- the second answer comes from the cache
      obtain ⟨hcached, t, ht, hleads⟩ := lookup_created hmem hdie hzero hknown
      have hlater : c.off ∈ s'.cache := h.cache _ (by rw [step, call_eq]; exact hcached)
      rw [answer, answer, call_eq, call_eq, lookup_cached hlater, ht, Option.some.injEq, hleads]
      simp [hknown]
    · -- the second answer finds the creator that the first one registered
      have hfirst := lookup_unknown hmem hdie hzero hknown
      have hlater : die.tag ∈ s'.creators := by
        refine h.creators _ ?_
        rw [step, call_eq, hfirst]
        exact mem_cons_self
      refine iff_of_false (fun heq => ?_) fun hboth => hknown hboth.1
      have hnone : answer dies s c = none := by rw [answer, call_eq, hfirst]
      exact answer_ne_none hdie hzero hlater (heq ▸ hnone)
  · have hmissing : ∀ die, dies c.off = some die → die.tag = 0 := fun die hdie =>
      not_not.mp fun hzero => htag ⟨die, hdie, hzero⟩
    have hlater : c.off ∉ s'.cache := fun hin => (hgrows.exist _ hin).elim hmem htag
    refine iff_of_true ?_ (Or.inr fun die hdie => Or.inl (hmissing die hdie))
    rw [answer, answer, call_eq, call_eq, lookup_missing hmem hmissing,
      lookup_missing hlater hmissing]

end Repeated

theorem same_answers_iff (dies : Entries) (s : State) (calls : List Call) :
    SameAnswers dies s calls ↔
      ∀ before c between after, calls = before ++ c :: (between ++ c :: after) →
        Settled dies (run (step dies) s before) c := by
  refine forall_congr' fun before => forall_congr' fun c => forall_congr' fun between =>
    forall_congr' fun after => imp_congr_right fun _ => ?_
  have hrun : run (step dies) s (before ++ c :: between) =
      run (step dies) (step dies (run (step dies) s before) c) between := foldl_append
  rw [hrun]
  exact answer_again_iff (run_grows _ between)

/-! A member function whose definition refers to its declaration. -/

/-- A subprogram at `0x40` whose abstract origin is at `0x20`. -/
def inlinedDies : Entries := fun off =>
  if off = 0x40 then some ⟨0x2e, some 0x20, none⟩
  else if off = 0x20 then some ⟨0x2e, none, none⟩
  else none

theorem answer_depends_on_cache :
    ¬SameAnswers inlinedDies ⟨[], [0x2e]⟩ [⟨0x40, false, true⟩, ⟨0x40, false, true⟩] := by
  intro h
  have hsame := h [] ⟨0x40, false, true⟩ [] [] rfl
  have hfirst : answer inlinedDies ⟨[], [0x2e]⟩ ⟨0x40, false, true⟩ = some 0x20 := by decide
  have hsecond : answer inlinedDies (run (step inlinedDies) ⟨[], [0x2e]⟩ [⟨0x40, false, true⟩])
      ⟨0x40, false, true⟩ = some 0x40 := by decide
  exact absurd hsame (by decide)

end ZeroBugs.Dwarfz.DieCache
