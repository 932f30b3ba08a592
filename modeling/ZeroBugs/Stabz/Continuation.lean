import ZeroBugs.Stabz.Descriptor

/-! # Continued stab strings -/
namespace ZeroBugs.Stabz.Descriptor
open List

structure Entry where
  stab : Stab
  str : List UInt8
  deriving DecidableEq

def runs : List Entry → List (List Entry)
  | [] => []
  | x :: rest =>
    if continued x.str then
      match runs rest with
      | [] => [[x]]
      | r :: rs => (x :: r) :: rs
    else [x] :: runs rest

def fragment (str : List UInt8) : List UInt8 := if continued str then str.dropLast else str

def joined (run : List Entry) : List UInt8 := run.flatMap fun x => fragment x.str

def delivery (index : Nat) (run : List Entry) : Option Event :=
  run.getLast?.map fun last => ⟨index + run.length - 1, last.stab, joined run⟩

def deliveries : Nat → List (List Entry) → List Event
  | _, [] => []
  | index, run :: rest => (delivery index run).toList ++ deliveries (index + run.length) rest

/-- The condition on a run: its last entry is there, and either that entry's
string is empty or all the continued ones are a lone backslash. -/
def RunOk (run : List Entry) : Prop :=
  ∃ last, run.getLast? = some last ∧ continued last.str = false ∧
    (last.str = [] ∨ ∀ x ∈ run.dropLast, x.str = [backslash])

theorem runs_cons_of_continued {x : Entry} (h : continued x.str = true) {rest r : List Entry}
    {rs : List (List Entry)} (hrest : runs rest = r :: rs) :
    runs (x :: rest) = (x :: r) :: rs := by
  simp [runs, h, hrest]

variable {pre : List Entry} {last : Entry}

theorem runs_closed (hpre : ∀ x ∈ pre, continued x.str = true)
    (hlast : continued last.str = false) (rest : List Entry) :
    runs (pre ++ last :: rest) = (pre ++ [last]) :: runs rest := by
  induction pre with
  | nil => simp [runs, hlast]
  | cons x pre ih =>
    exact runs_cons_of_continued (hpre x mem_cons_self)
      (ih fun y hy => hpre y (mem_cons_of_mem x hy))

theorem runs_open {x : Entry} (hx : continued x.str = true)
    (hpre : ∀ y ∈ pre, continued y.str = true) : runs (x :: pre) = [x :: pre] := by
  induction pre generalizing x with
  | nil => simp [runs, hx]
  | cons y pre ih =>
    exact runs_cons_of_continued hx
      (ih (hpre y mem_cons_self) fun z hz => hpre z (mem_cons_of_mem y hz))

theorem entries_cases (xs : List Entry) :
    xs = [] ∨ (∃ x pre, xs = x :: pre ∧ continued x.str = true ∧
      ∀ y ∈ pre, continued y.str = true) ∨
    ∃ pre last rest, xs = pre ++ last :: rest ∧ (∀ y ∈ pre, continued y.str = true) ∧
      continued last.str = false := by
  induction xs with
  | nil => exact Or.inl rfl
  | cons x xs ih =>
    by_cases hx : continued x.str = true
    · rcases ih with rfl | ⟨y, pre, rfl, hy, hpre⟩ | ⟨pre, last, rest, rfl, hpre, hlast⟩
      · exact Or.inr (Or.inl ⟨x, [], rfl, hx, fun y hy => absurd hy not_mem_nil⟩)
      · exact Or.inr (Or.inl ⟨x, y :: pre, rfl, hx, forall_mem_cons.mpr ⟨hy, hpre⟩⟩)
      · exact Or.inr (Or.inr ⟨x :: pre, last, rest, rfl, forall_mem_cons.mpr ⟨hx, hpre⟩,
          hlast⟩)
    · exact Or.inr (Or.inr ⟨[], x, xs, rfl, fun y hy => absurd hy not_mem_nil,
        by simpa using hx⟩)

theorem delivery_closed (index : Nat)
    (hpre : ∀ x ∈ pre, continued x.str = true)
    (hlast : continued last.str = false) :
    delivery index (pre ++ [last]) = some ⟨index + pre.length, last.stab,
      (pre.flatMap fun x => x.str.dropLast) ++ last.str⟩ := by
  have hfrag : (pre.flatMap fun x => fragment x.str) = pre.flatMap fun x => x.str.dropLast := by
    refine flatMap_congr fun x hx => ?_
    simp [fragment, hpre x hx]
  have hend : fragment last.str = last.str := by simp [fragment, hlast]
  simp [delivery, joined, hfrag, hend]

theorem dropLast_eq_nil_iff {str : List UInt8} (h : continued str = true) :
    str.dropLast = [] ↔ str = [backslash] := by
  have hlast : str.getLast? = some backslash := by simpa [continued] using h
  constructor
  · intro hnil
    have hsplit := dropLast_append_getLast? backslash hlast
    rw [hnil] at hsplit
    exact hsplit.symm
  · intro hone
    rw [hone]
    rfl

theorem runOk_closed_iff (hpre : ∀ x ∈ pre, continued x.str = true)
    (hlast : continued last.str = false) :
    RunOk (pre ++ [last]) ↔
      last.str = [] ∨ (pre.flatMap fun x => x.str.dropLast) = [] := by
  have hnil : (pre.flatMap fun x => x.str.dropLast) = [] ↔ ∀ x ∈ pre, x.str = [backslash] := by
    rw [flatMap_eq_nil_iff]
    exact forall₂_congr fun x hx => dropLast_eq_nil_iff (hpre x hx)
  rw [hnil]
  constructor
  · intro hok
    obtain ⟨l, hl, -, hor⟩ := hok
    simp only [getLast?_concat, Option.some.injEq, dropLast_concat] at hl hor
    exact hl ▸ hor
  · intro hor
    exact ⟨last, by simp, hlast, by simpa using hor⟩

def raised : Nat → List UInt8 → List Entry → List Event
  | _, _, [] => []
  | index, buf, x :: rest =>
    if continued x.str then raised (index + 1) (buf ++ x.str.dropLast) rest
    else ⟨index, x.stab, if buf ≠ [] then buf else x.str⟩ :: raised (index + 1) [] rest

theorem raised_closed (hpre : ∀ x ∈ pre, continued x.str = true)
    (hlast : continued last.str = false) (rest : List Entry) (index : Nat)
    (buf : List UInt8) :
    raised index buf (pre ++ last :: rest) =
      ⟨index + pre.length, last.stab,
        if buf ++ (pre.flatMap fun x => x.str.dropLast) ≠ []
        then buf ++ (pre.flatMap fun x => x.str.dropLast) else last.str⟩ ::
      raised (index + pre.length + 1) [] rest := by
  induction pre generalizing index buf with
  | nil => simp [raised, hlast]
  | cons x pre ih =>
    have hx := hpre x mem_cons_self
    have htail := ih (fun y hy => hpre y (mem_cons_of_mem x hy)) (index + 1)
      (buf ++ x.str.dropLast)
    simp only [cons_append, raised, hx, if_true, htail, length_cons,
      flatMap_cons, append_assoc]
    rw [show index + 1 + pre.length = index + (pre.length + 1) by omega]

theorem raised_open (hpre : ∀ x ∈ pre, continued x.str = true) (index : Nat)
    (buf : List UInt8) : raised index buf pre = [] := by
  induction pre generalizing index buf with
  | nil => rfl
  | cons x pre ih =>
    have hx := hpre x mem_cons_self
    simp only [raised, hx, if_true]
    exact ih (fun y hy => hpre y (mem_cons_of_mem x hy)) _ _

theorem buffer_eq_iff (buf str : List UInt8) :
    (if buf ≠ [] then buf else str) = buf ++ str ↔ str = [] ∨ buf = [] := by
  by_cases hbuf : buf = []
  · simp [hbuf]
  · simp [hbuf]

theorem raised_eq_iff (index : Nat) (xs : List Entry) :
    raised index [] xs = deliveries index (runs xs) ↔ ∀ run ∈ runs xs, RunOk run := by
  induction hn : xs.length using Nat.strong_induction_on generalizing index xs with
  | _ n ih =>
    rcases entries_cases xs with rfl | ⟨x, pre, rfl, hx, hpre⟩ | ⟨pre, last, rest, rfl, hpre, hlast⟩
    · simp [raised, runs, deliveries]
    · -- an open run has an event, but none is raised
      have hall : ∀ y ∈ x :: pre, continued y.str = true := forall_mem_cons.mpr ⟨hx, hpre⟩
      obtain ⟨last, hlast⟩ : ∃ last, (x :: pre).getLast? = some last :=
        Option.isSome_iff_exists.mp (by simp)
      rw [raised_open hall, runs_open hx hpre]
      constructor
      · intro h
        simp [deliveries, delivery, hlast] at h
      · intro h
        obtain ⟨l, hl, hclosed, -⟩ := h _ mem_cons_self
        have hopen := hall l (mem_of_getLast? hl)
        rw [hclosed] at hopen
        exact absurd hopen Bool.false_ne_true
    · have hrest := ih rest.length (by simp at hn; omega) (index + pre.length + 1) rest rfl
      rw [raised_closed hpre hlast, runs_closed hpre hlast]
      simp only [deliveries, delivery_closed index hpre hlast, nil_append,
        Option.toList_some, singleton_append, List.cons.injEq, Event.mk.injEq, true_and,
        buffer_eq_iff, length_append, length_cons, length_nil, ← Nat.add_assoc,
        Nat.zero_add, hrest, forall_mem_cons, runOk_closed_iff hpre hlast]

def entryOf (strData : List UInt8) (stab : Stab) : Entry :=
  ⟨stab, (strData.drop stab.strindex.toNat).takeWhile (· != 0)⟩

/-- A section that can be read: the strings end in a NUL, and each entry's string
starts inside them. -/
structure Readable (strData : List UInt8) (stabs : List Stab) : Prop where
  terminated : strData.getLast? = some 0
  inside : ∀ stab ∈ stabs, stab.strindex.toNat < strData.length

def Accepting (sinks : List Sink) : Prop := ∀ sink ∈ sinks, ∀ e, sink e = true

theorem stringAt_of_lt {strData : List UInt8} (hnul : strData.getLast? = some 0) {index : Nat}
    (h : index < strData.length) :
    stringAt strData index = .ok ((strData.drop index).takeWhile (· != 0)) := by
  have hlast : (strData.drop index).getLast? = some 0 := by
    rw [getLast?_drop, if_neg (by omega), hnul]
  simp [stringAt, mem_of_getLast? hlast]

section Step

variable {strData : List UInt8} {stabs : List Stab} (hread : Readable strData stabs)
  (sinks : List Sink) (index : Nat) {stab : Stab} (hstab : stab ∈ stabs) (buf : List UInt8)

include hread hstab

theorem processStab_continued (hcont : continued (entryOf strData stab).str = true) :
    processStab strData sinks index stab buf =
      .ok (true, buf ++ (entryOf strData stab).str.dropLast, []) := by
  have hlt := hread.inside stab hstab
  simp only [entryOf] at hcont ⊢
  simp only [processStab, if_neg (Nat.not_le.mpr hlt), stringAt_of_lt hread.terminated hlt,
    if_pos hcont]

theorem processStab_closed (hcont : ¬continued (entryOf strData stab).str = true)
    {calls : List (Nat × Event)}
    (hann : announce ⟨index, stab, if buf ≠ [] then buf else (entryOf strData stab).str⟩ 0 sinks =
      (true, calls)) :
    processStab strData sinks index stab buf = .ok (true, [], calls) := by
  have hlt := hread.inside stab hstab
  simp only [entryOf] at hcont hann
  simp only [processStab, if_neg (Nat.not_le.mpr hlt), stringAt_of_lt hread.terminated hlt,
    if_neg hcont, hann]

end Step

theorem received_announce {sinks : List Sink} (hacc : Accepting sinks) (e : Event) (k : Nat) :
    (announce e k sinks).1 = true ∧ ∀ j, received j (announce e k sinks).2 =
      if k ≤ j ∧ j < k + sinks.length then [e] else [] := by
  induction sinks generalizing k with
  | nil =>
    refine ⟨rfl, fun j => ?_⟩
    rw [if_neg (by simp only [length_nil]; omega)]
    rfl
  | cons sink rest ih =>
    have hsink := hacc sink mem_cons_self e
    obtain ⟨hmore, hcalls⟩ := ih (fun s hs => hacc s (mem_cons_of_mem sink hs)) (k + 1)
    refine ⟨by simp [announce, hsink, hmore], fun j => ?_⟩
    have hcons : received j (announce e k (sink :: rest)).2 =
        (if k = j then [e] else []) ++ received j (announce e (k + 1) rest).2 := by
      by_cases hkj : k = j <;> simp [announce, hsink, received, hkj]
    rw [hcons, hcalls j, length_cons]
    by_cases hkj : k = j
    · rw [if_pos hkj, if_neg (by omega), if_pos (by omega), append_nil]
    · rw [if_neg hkj, nil_append]
      exact if_congr (by omega) rfl rfl

theorem received_append (k : Nat) (xs ys : List (Nat × Event)) :
    received k (xs ++ ys) = received k xs ++ received k ys := by
  simp [received]

theorem stabLoop_raises {strData : List UInt8} {stabs : List Stab}
    (hread : Readable strData stabs) {sinks : List Sink} (hacc : Accepting sinks) (n index : Nat)
    (buf : List UInt8) (hn : index + n ≤ stabs.length) :
    ∃ calls, stabLoop strData sinks stabs n index buf = .ok (index + n, calls) ∧
      ∀ k < sinks.length, received k calls =
        raised index buf (((stabs.drop index).take n).map (entryOf strData)) := by
  induction n generalizing index buf with
  | zero => exact ⟨[], rfl, fun k hk => by simp [received, raised]⟩
  | succ n ih =>
    have hlt : index < stabs.length := by omega
    have hdrop : (stabs.drop index).take (n + 1) =
        stabs[index] :: (stabs.drop (index + 1)).take n := by
      rw [drop_eq_getElem_cons hlt, take_succ_cons]
    rw [hdrop, map_cons]
    by_cases hcont : continued (entryOf strData stabs[index]).str = true
    · obtain ⟨calls, hloop, hrec⟩ :=
        ih (index + 1) (buf ++ (entryOf strData stabs[index]).str.dropLast) (by omega)
      have hstep := processStab_continued hread sinks index (getElem_mem hlt) buf hcont
      refine ⟨calls, ?_, fun k hk => ?_⟩
      · simp only [stabLoop, getElem?_eq_getElem hlt, hstep, hloop, nil_append]
        rw [show index + 1 + n = index + (n + 1) by omega]
      · rw [hrec k hk, raised, if_pos hcont]
    · obtain ⟨more, hloop, hrec⟩ := ih (index + 1) [] (by omega)
      obtain ⟨hgo, hone⟩ := received_announce hacc
        ⟨index, stabs[index], if buf ≠ [] then buf else (entryOf strData stabs[index]).str⟩ 0
      obtain ⟨calls, hann⟩ : ∃ calls, announce ⟨index, stabs[index],
          if buf ≠ [] then buf else (entryOf strData stabs[index]).str⟩ 0 sinks = (true, calls) :=
        ⟨_, Prod.ext hgo rfl⟩
      rw [hann] at hone
      have hstep := processStab_closed hread sinks index (getElem_mem hlt) buf hcont hann
      refine ⟨calls ++ more, ?_, fun k hk => ?_⟩
      · simp only [stabLoop, getElem?_eq_getElem hlt, hstep, hloop]
        rw [show index + 1 + n = index + (n + 1) by omega]
      · rw [received_append, hone k, if_pos (by omega), hrec k hk, raised, if_neg hcont]
        rfl

theorem delivered_iff {strData : List UInt8} {stabs : List Stab}
    (hread : Readable strData stabs) {sinks : List Sink} (hacc : Accepting sinks) {k : Nat}
    (hk : k < sinks.length) :
    (∃ n calls, forEachStab strData sinks stabs = .ok (n, calls) ∧
      received k calls = deliveries 0 (runs (stabs.map (entryOf strData)))) ↔
    ∀ run ∈ runs (stabs.map (entryOf strData)), RunOk run := by
  obtain ⟨calls, hloop, hrec⟩ := stabLoop_raises hread hacc stabs.length 0 [] (by omega)
  rw [drop_zero, take_length] at hrec
  rw [← raised_eq_iff 0, ← hrec k hk, forEachStab, hloop]
  constructor
  · intro h
    obtain ⟨_, _, heq, hright⟩ := h
    cases heq
    exact hright
  · intro hright
    exact ⟨_, calls, rfl, hright⟩

def plainStab (strindex : UInt32) : Stab := ⟨strindex, 0x80, 0, 0, 0⟩

theorem delivered_iff_lone_backslash :
    ∃ n calls, forEachStab [92, 0, 98, 0] [fun _ => true] [plainStab 0, plainStab 2] =
        .ok (n, calls) ∧
      received 0 calls = deliveries 0
        (runs ([plainStab 0, plainStab 2].map (entryOf [92, 0, 98, 0]))) := by
  refine (delivered_iff ⟨rfl, by decide⟩ ?_ Nat.zero_lt_one).mpr ?_
  · intro sink hsink e
    rw [mem_singleton.mp hsink]
  · intro run hrun
    have heq : run = [⟨plainStab 0, [92]⟩, ⟨plainStab 2, [98]⟩] := mem_singleton.mp hrun
    subst heq
    exact ⟨⟨plainStab 2, [98]⟩, rfl, rfl, Or.inr (by decide)⟩

theorem last_fragment_lost :
    (forEachStab [97, 92, 0, 98, 0] [fun _ => true] [plainStab 0, plainStab 3]).map
        (fun r => received 0 r.2) = .ok [⟨1, plainStab 3, [97]⟩] ∧
      deliveries 0 (runs ([plainStab 0, plainStab 3].map (entryOf [97, 92, 0, 98, 0]))) =
        [⟨1, plainStab 3, [97, 98]⟩] := by
  exact ⟨rfl, rfl⟩

end ZeroBugs.Stabz.Descriptor
