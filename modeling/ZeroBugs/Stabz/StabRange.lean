import ZeroBugs.Stabz.Continuation

/-! # Ranges of stab entries -/
namespace ZeroBugs.Stabz.Descriptor
open List

/-- The data of a stab section: its entries, and its size in bytes, of which the last ones
may be too few for an entry. -/
structure SectionData where
  stabs : List Stab
  size : Nat
  size_div : size / stabSize = stabs.length

/-- What a call does: the entries it reads, by their index, and how it ends. -/
structure Visit where
  read : List Nat
  result : Except Exn (List (Nat × Event))

def visitLoop (strData : List UInt8) (sinks : List Sink) (stabs : List Stab) :
    (n first : Nat) → (buf : List UInt8) → Visit
  | 0, _, _ => ⟨[], .ok []⟩
  | n + 1, first, buf =>
    match stabs[first]? with
    | none => ⟨[first], .error .overread⟩
    | some stab =>
      match processStab strData sinks first stab buf with
      | .error e => ⟨[first], .error e⟩
      | .ok (false, _, calls) => ⟨[first], .ok calls⟩
      | .ok (true, buf, calls) =>
        let rest := visitLoop strData sinks stabs n (first + 1) buf
        ⟨first :: rest.read, rest.result.map (calls ++ ·)⟩

/-- `for_each_stab` over the entries from `first` to `last`, once the sections are found. -/
def SectionData.forEachStab (data : SectionData) (strData : List UInt8) (sinks : List Sink)
    (first last : Nat) : Visit :=
  if last < first then ⟨[], .error (.invalidArgument "for_each_stab: last < first")⟩
  else if data.size ≤ last then ⟨[], .error (.outOfRange "range exceeds section's data")⟩
  else visitLoop strData sinks data.stabs (last - first) first []

def Answers (sinks : List Sink) (call : Nat × Event) (answer : Bool) : Prop :=
  ∃ sink, sinks[call.1]? = some sink ∧ sink call.2 = answer

/-- The entries from `first` on are read in order: all of them, or those up to the one that a
receiver stops at. -/
inductive Processed (sinks : List Sink) (first last : Nat) :
    List Nat → List (Nat × Event) → Prop
  | all {calls : List (Nat × Event)} (accepted : ∀ c ∈ calls, Answers sinks c true) :
    Processed sinks first last (List.range' first (last - first)) calls
  | stopped {calls : List (Nat × Event)} {c : Nat × Event}
    (inside : first ≤ c.2.index ∧ c.2.index < last)
    (accepted : ∀ c ∈ calls, Answers sinks c true) (refused : Answers sinks c false) :
    Processed sinks first last (List.range' first (c.2.index + 1 - first)) (calls ++ [c])

structure BoundsChecked (data : SectionData) (strData : List UInt8) (sinks : List Sink)
    (first last : Nat) : Prop where
  inside : last ≤ data.stabs.length →
    ∃ calls, (data.forEachStab strData sinks first last).result = .ok calls ∧
      Processed sinks first last (data.forEachStab strData sinks first last).read calls
  outside : data.stabs.length < last →
    (data.forEachStab strData sinks first last).read = [] ∧
      ∃ msg, (data.forEachStab strData sinks first last).result = .error (.outOfRange msg)

/-- The calls for one event: all receivers accept it, or one stops the loop. -/
def Announced (sinks : List Sink) (e : Event) (more : Bool) (calls : List (Nat × Event)) : Prop :=
  if more then ∀ c ∈ calls, Answers sinks c true
  else ∃ accepted c, calls = accepted ++ [c] ∧ c.2 = e ∧ Answers sinks c false ∧
    ∀ c ∈ accepted, Answers sinks c true

theorem announced_announce (sinks : List Sink) (e : Event) (rest : List Sink) (k : Nat)
    (hrest : sinks.drop k = rest) :
    Announced sinks e (announce e k rest).1 (announce e k rest).2 := by
  induction rest generalizing k with
  | nil =>
    intro c hc
    cases hc
  | cons sink rest ih =>
    have hsink : sinks[k]? = some sink := by
      rw [← Nat.add_zero k, ← getElem?_drop, hrest]
      rfl
    have htail : sinks.drop (k + 1) = rest := by
      rw [← tail_drop, hrest]
      rfl
    have hnext := ih (k + 1) htail
    unfold announce
    cases hs : sink e with
    | false => exact ⟨[], (k, e), rfl, rfl, ⟨sink, hsink, hs⟩, forall_mem_nil _⟩
    | true =>
      have hhead : Answers sinks (k, e) true := ⟨sink, hsink, hs⟩
      dsimp only
      cases hm : (announce e (k + 1) rest).1 with
      | true =>
        rw [hm] at hnext
        exact forall_mem_cons.mpr ⟨hhead, hnext⟩
      | false =>
        rw [hm] at hnext
        obtain ⟨accepted, c, hcalls, hc, hno, hyes⟩ := hnext
        exact ⟨(k, e) :: accepted, c, by rw [hcalls]; rfl, hc, hno,
          forall_mem_cons.mpr ⟨hhead, hyes⟩⟩

section Step

variable {strData : List UInt8} {stabs : List Stab} (hread : Readable strData stabs)
  (sinks : List Sink) (index : Nat) {stab : Stab} (hstab : stab ∈ stabs) (buf : List UInt8)

include hread hstab

theorem processStab_ok : ∃ more buf' calls,
    processStab strData sinks index stab buf = .ok (more, buf', calls) ∧
      ∃ e : Event, e.index = index ∧ Announced sinks e more calls := by
  by_cases hcont : continued (entryOf strData stab).str = true
  · exact ⟨true, _, [], processStab_continued hread sinks index hstab buf hcont,
      ⟨index, stab, []⟩, rfl, forall_mem_nil _⟩
  · have hlt := hread.inside stab hstab
    let e : Event := ⟨index, stab, if buf ≠ [] then buf else (entryOf strData stab).str⟩
    have hann := announced_announce sinks e sinks 0 rfl
    rcases hcalls : announce e 0 sinks with ⟨more, calls⟩
    rw [hcalls] at hann
    have hrun : processStab strData sinks index stab buf =
        .ok (more, if more then [] else buf, calls) := by
      simp only [e, entryOf] at hcalls hcont
      simp only [processStab, if_neg (Nat.not_le.mpr hlt), stringAt_of_lt hread.terminated hlt,
        if_neg hcont, hcalls]
      cases more <;> rfl
    exact ⟨more, _, calls, hrun, e, rfl, hann⟩

end Step

theorem Processed.cons {sinks : List Sink} {first last : Nat} {read : List Nat}
    {calls rest : List (Nat × Event)} (hlt : first < last)
    (hhead : ∀ c ∈ calls, Answers sinks c true) (h : Processed sinks (first + 1) last read rest) :
    Processed sinks first last (first :: read) (calls ++ rest) := by
  cases h with
  | all accepted =>
    have hrange : first :: List.range' (first + 1) (last - (first + 1)) =
        List.range' first (last - first) := by
      rw [show last - first = last - (first + 1) + 1 by omega, range'_succ]
    rw [hrange]
    exact .all (forall_mem_append.mpr ⟨hhead, accepted⟩)
  | @stopped accepted c inside haccepted hrefused =>
    have hrange : first :: List.range' (first + 1) (c.2.index + 1 - (first + 1)) =
        List.range' first (c.2.index + 1 - first) := by
      rw [show c.2.index + 1 - first = c.2.index + 1 - (first + 1) + 1 by omega,
        range'_succ]
    rw [hrange, ← append_assoc]
    exact .stopped ⟨by omega, inside.2⟩ (forall_mem_append.mpr ⟨hhead, haccepted⟩) hrefused

theorem visitLoop_processed {strData : List UInt8} {stabs : List Stab}
    (hread : Readable strData stabs) (sinks : List Sink) (n first : Nat) (buf : List UInt8)
    (hlast : first + n ≤ stabs.length) :
    ∃ calls, (visitLoop strData sinks stabs n first buf).result = .ok calls ∧
      Processed sinks first (first + n) (visitLoop strData sinks stabs n first buf).read calls := by
  induction n generalizing first buf with
  | zero =>
    refine ⟨[], rfl, ?_⟩
    have hnone : [] = List.range' first (first + 0 - first) := by simp
    rw [visitLoop, hnone]
    exact .all nofun
  | succ n ih =>
    have hlt : first < stabs.length := by omega
    obtain ⟨more, buf', calls, hstep, e, hindex, hann⟩ :=
      processStab_ok hread sinks first (getElem_mem hlt) buf
    simp only [visitLoop, getElem?_eq_getElem hlt, hstep]
    cases more with
    | false =>
      obtain ⟨accepted, c, hcalls, hc, hrefused, haccepted⟩ := hann
      have hc' : c.2.index = first := by rw [hc, hindex]
      refine ⟨calls, rfl, ?_⟩
      have hone : [first] = List.range' first (c.2.index + 1 - first) := by
        rw [hc', show first + 1 - first = 1 by omega]
        rfl
      rw [hone, hcalls]
      exact .stopped ⟨by omega, by omega⟩ haccepted hrefused
    | true =>
      obtain ⟨rest, hrest, hproc⟩ := ih (first + 1) buf' (by omega)
      refine ⟨calls ++ rest, ?_, ?_⟩
      · dsimp only
        rw [hrest]
        rfl
      · rw [show first + 1 + n = first + (n + 1) by omega] at hproc
        exact hproc.cons (by omega) hann

theorem read_visitLoop_ne_nil (strData : List UInt8) (sinks : List Sink) (stabs : List Stab)
    (n first : Nat) (buf : List UInt8) :
    (visitLoop strData sinks stabs (n + 1) first buf).read ≠ [] := by
  unfold visitLoop
  split
  · exact cons_ne_nil _ _
  · split <;> exact cons_ne_nil _ _

theorem boundsChecked_iff (data : SectionData) (strData : List UInt8) (sinks : List Sink)
    (first last : Nat) (hread : Readable strData data.stabs) (hle : first ≤ last) :
    BoundsChecked data strData sinks first last ↔
      if last ≤ data.stabs.length then 0 < data.size else data.size ≤ last := by
  have hdiv := data.size_div
  unfold stabSize at hdiv
  by_cases hin : last ≤ data.stabs.length
  · rw [if_pos hin]
    constructor
    · intro h
      obtain ⟨calls, hok, -⟩ := h.inside hin
      by_contra h0
      rw [SectionData.forEachStab, if_neg (by omega), if_pos (by omega)] at hok
      cases hok
    · intro h0
      refine ⟨fun _ => ?_, fun hout => absurd hout (by omega)⟩
      rw [SectionData.forEachStab, if_neg (by omega), if_neg (by omega)]
      have hproc := visitLoop_processed hread sinks (last - first) first [] (by omega)
      rwa [Nat.add_sub_cancel' hle] at hproc
  · rw [if_neg hin]
    constructor
    · intro h
      obtain ⟨hnone, msg, herr⟩ := h.outside (by omega)
      by_contra hsize
      rw [SectionData.forEachStab, if_neg (by omega), if_neg hsize] at hnone herr
      -- an empty range is not refused, and any other one reads an entry
      rcases hn : last - first with _ | n
      · rw [hn] at herr
        cases herr
      · rw [hn] at hnone
        exact read_visitLoop_ne_nil _ _ _ _ _ _ hnone
    · intro hsize
      refine ⟨fun h => absurd h hin, fun _ => ?_⟩
      rw [SectionData.forEachStab, if_neg (by omega), if_pos hsize]
      exact ⟨rfl, _, rfl⟩

def twoEntries : SectionData := ⟨[⟨0, 0, 0, 0, 0⟩, ⟨0, 0, 0, 0, 0⟩], 24, rfl⟩

theorem boundsChecked_first_entry : BoundsChecked twoEntries [0] [] 0 1 :=
  (boundsChecked_iff twoEntries [0] [] 0 1 ⟨rfl, by decide⟩ (by decide)).mpr (by decide)

theorem range_past_the_end :
    (twoEntries.forEachStab [0] [] 1 3).read = [1, 2] ∧
    (twoEntries.forEachStab [0] [] 1 3).result = .error .overread := by
  decide

end ZeroBugs.Stabz.Descriptor
