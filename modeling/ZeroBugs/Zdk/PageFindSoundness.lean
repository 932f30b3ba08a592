import ZeroBugs.Zdk.PageFind

/-! # When the search of a page is right -/
namespace ZeroBugs.Zdk.PageFind
open List

theorem Accepts.length_eq {ts : List Item} {w : List UInt8} (h : Accepts ts w) :
    ts.length = w.length := List.Forall₂.length_eq h

theorem Accepts.split {ts₁ : List Item} {u : Item} {ts₂ : List Item} {w : List UInt8}
    (h : Accepts (ts₁ ++ u :: ts₂) w) :
    ∃ w₁ a w₂, w = w₁ ++ a :: w₂ ∧ w₁.length = ts₁.length ∧ u.accepts a = true := by
  induction ts₁ generalizing w with
  | nil =>
    obtain ⟨a, w', ha, -, rfl⟩ := List.forall₂_cons_left_iff.mp h
    exact ⟨[], a, w', rfl, rfl, ha⟩
  | cons t ts₁ ih =>
    obtain ⟨b, w', -, hw', rfl⟩ := List.forall₂_cons_left_iff.mp h
    obtain ⟨w₁, a, w₂, rfl, hlength, ha⟩ := ih hw'
    exact ⟨b :: w₁, a, w₂, rfl, by simp [hlength], ha⟩

theorem earlyMatch_of_found {t : Item} {ts : List Item} {buf skip : List UInt8} {b : UInt8}
    {tail : List UInt8} (h : FirstAt t buf skip b tail) {w₁ : List UInt8} {a : UInt8}
    {w₂ : List UInt8} (htail : tail.dropLast = w₁ ++ a :: w₂) (haccepts : Accepts ts w₁) :
    EarlyMatch (t :: ts) buf skip.length := by
  have hne : tail ≠ [] := by
    rintro rfl
    simp at htail
  obtain ⟨last, hsplit⟩ : ∃ last, tail = w₁ ++ a :: w₂ ++ [last] :=
    ⟨tail.getLast hne, by rw [← htail, dropLast_append_getLast hne]⟩
  constructor
  · refine ⟨skip, b :: w₁, a :: w₂ ++ [last], ?_, rfl, .cons h.here haccepts⟩
    rw [h.eq, hsplit]
    simp
  · have hlength := haccepts.length_eq
    rw [h.eq, hsplit]
    simp only [length_append, length_cons, length_nil]
    omega

theorem not_matchAt_of_mismatch {t : Item} {ts₁ : List Item} {u : Item} (ts₂ : List Item)
    {buf skip : List UInt8} {b : UInt8} {tail : List UInt8} (h : FirstAt t buf skip b tail)
    {w₁ : List UInt8} {a : UInt8} {w₂ : List UInt8} (htail : tail.dropLast = w₁ ++ a :: w₂)
    (haccepts : Accepts ts₁ w₁) (ha : u.accepts a = false) :
    ¬MatchAt (t :: (ts₁ ++ u :: ts₂)) buf skip.length := by
  intro hmatch
  obtain ⟨before, word, after, hbuf, hbefore, hword⟩ := hmatch
  obtain ⟨b', w, -, hw, rfl⟩ := List.forall₂_cons_left_iff.mp hword
  obtain ⟨v₁, a', v₂, rfl, hlength, ha'⟩ := Accepts.split hw
  obtain ⟨-, hrest⟩ := append_inj (h.eq.symm.trans hbuf) hbefore.symm
  obtain ⟨last, htail'⟩ : ∃ last, tail = w₁ ++ (a :: w₂ ++ last) := by
    refine ⟨tail.drop (w₁ ++ a :: w₂).length, ?_⟩
    rw [← append_assoc, ← htail]
    conv_lhs => rw [← take_append_drop tail.dropLast.length tail]
    rw [length_dropLast, ← dropLast_eq_take]
  rw [cons_append, List.cons.injEq, htail', append_assoc] at hrest
  obtain ⟨-, hsame⟩ := append_inj hrest.2 (haccepts.length_eq.symm.trans hlength.symm)
  rw [cons_append, cons_append, List.cons.injEq] at hsame
  rw [hsame.1, ha'] at ha
  cases ha

theorem length_of_ranOut {t : Item} {buf skip : List UInt8} {b : UInt8} {tail : List UInt8}
    (h : FirstAt t buf skip b tail) {ts₁ : List Item} (haccepts : Accepts ts₁ tail.dropLast)
    (ts₂ : List Item) : buf.length < skip.length + (t :: (ts₁ ++ ts₂)).length + 2 := by
  have hlength := haccepts.length_eq
  rw [length_dropLast] at hlength
  rw [h.eq]
  simp only [length_append, length_cons]
  omega

theorem MatchAt.cons {items : List Item} {buf : List UInt8} {o : Nat} (h : MatchAt items buf o)
    (a : UInt8) : MatchAt items (a :: buf) (o + 1) := by
  obtain ⟨before, word, after, rfl, rfl, haccepts⟩ := h
  exact ⟨a :: before, word, after, rfl, rfl, haccepts⟩

theorem MatchAt.tail {items : List Item} {a : UInt8} {buf : List UInt8} {o : Nat}
    (h : MatchAt items (a :: buf) (o + 1)) : MatchAt items buf o := by
  obtain ⟨before, word, after, heq, hlength, haccepts⟩ := h
  cases before with
  | nil => simp at hlength
  | cons a' before =>
    rw [cons_append, List.cons.injEq] at heq
    exact ⟨before, word, after, heq.2, by simpa using hlength, haccepts⟩

theorem MatchAt.first_le {t : Item} {ts : List Item} {buf : List UInt8} {o : Nat}
    (hmatch : MatchAt (t :: ts) buf o) {skip : List UInt8} {b : UInt8} {tail : List UInt8}
    (h : FirstAt t buf skip b tail) : skip.length ≤ o := by
  obtain ⟨before, word, after, hbuf, rfl, haccepts⟩ := hmatch
  obtain ⟨b', w, hb', -, rfl⟩ := List.forall₂_cons_left_iff.mp haccepts
  by_contra hlt
  have hget : buf[before.length]? = some b' := by
    rw [hbuf]
    simp
  rw [h.eq, getElem?_append_left (by omega)] at hget
  have hfalse := h.skipped b' (mem_of_getElem? hget)
  rw [hb'] at hfalse
  cases hfalse

theorem MatchAt.exists_accepts {t : Item} {ts : List Item} {buf : List UInt8} {o : Nat}
    (hmatch : MatchAt (t :: ts) buf o) : ∃ b ∈ buf, t.accepts b = true := by
  obtain ⟨before, word, after, hbuf, -, haccepts⟩ := hmatch
  obtain ⟨b, w, hb, -, rfl⟩ := List.forall₂_cons_left_iff.mp haccepts
  exact ⟨b, by rw [hbuf]; simp, hb⟩

theorem Ends.cases {searchPattern : List Char} {result : Option (Nat × Nat)} {s : Search}
    {t : Item} {ts : List Item} (hends : Ends searchPattern s result) (hreads : s.Reads t ts)
    (haccepts : ∃ b ∈ s.buf, t.accepts b = true) :
    FailsOn s.buf (t :: ts) ∨
      (∃ o, result = some (o, ts.length + 1)) ∧ (∃ offset, EarlyMatch (t :: ts) s.buf offset) ∨
      ∃ o count, result = some (o, count) ∧ count ≤ ts.length := by
  -- a comparison that runs out of bytes leaves fewer items
  induction hlength : ts.length using Nat.strong_induction_on generalizing s t ts with
  | _ n ih =>
    subst hlength
    obtain ⟨skip, b, tail, hat⟩ := exists_firstAt haccepts
    rcases compared_cases ts tail.dropLast with ⟨w₁, a, w₂, htail, hw⟩ |
      ⟨ts₁, u, ts₂, w₁, a, w₂, rfl, htail, hw, ha⟩ | ⟨ts₁, ts₂, rfl, hw⟩
    · have hresult := (ends_of_done (turn_found hreads hat htail hw)).mp hends
      exact Or.inr (Or.inl ⟨⟨_, hresult⟩, _, earlyMatch_of_found hat htail hw⟩)
    · exact Or.inl (.mismatch hat htail hw ha)
    · rcases eq_nil_or_concat' ts₁ with rfl | ⟨ts₀, u, rfl⟩
      · have hnil : tail.dropLast = [] := List.forall₂_nil_left_iff.mp hw
        exact absurd hends (not_ends_of_stuck (turn_stuck hreads hat hnil))
      · simp only [append_assoc, singleton_append] at hreads ih ⊢
        obtain ⟨s', hturn, hbuf, -, hreads'⟩ := turn_ranOut hreads hat hw
        have hends' := (ends_of_goOn hturn).mp hends
        have hu : ∃ a ∈ s'.buf, u.accepts a = true := by
          obtain ⟨w₁, a, w₂, hdrop, -, ha⟩ := Accepts.split hw
          have hmem : a ∈ tail := dropLast_subset _ (by rw [hdrop]; simp)
          refine ⟨a, ?_, ha⟩
          rw [hbuf, hat.eq]
          simp [hmem]
        have hshorter : ts₂.length < (ts₀ ++ u :: ts₂).length := by simp; omega
        rcases ih _ hshorter hends' hreads' hu rfl with hfails | ⟨⟨o, hresult⟩, -⟩ |
          ⟨o, count, hresult, hcount⟩
        · rw [hbuf] at hfails
          exact Or.inl (.goesOn hat hw hfails)
        · exact Or.inr (Or.inr ⟨o, _, hresult, hshorter⟩)
        · exact Or.inr (Or.inr ⟨o, count, hresult, by omega⟩)

section
variable {searchPattern text : List Char} {first : Item} {items : List Item}
  (hfirst : nextChar searchPattern = .ok (some (first.code, text)))
  (hitems : WellFormed text items)
include hitems

theorem ends_of_no_first {buf : List UInt8} (h : ¬∃ b ∈ buf, first.accepts b = true) (k : Nat)
    {result : Option (Nat × Nat)} :
    Ends searchPattern (freshSearch first text buf k) result ↔ result = none := by
  have hnone : ∀ b ∈ buf, first.accepts b = false := by simpa using h
  exact ends_of_done (turn_of_none (freshSearch_reads first hitems buf k) hnone)

include hfirst

theorem earlyMatch_of_ends {buf : List UInt8} {k n : Nat}
    (h : Ends searchPattern (freshSearch first text buf k) (some (n, items.length + 1))) :
    ∃ offset, EarlyMatch (first :: items) buf offset := by
  induction buf generalizing k with
  | nil => cases (ends_of_no_first hitems (by simp) k).mp h
  | cons a buf ih =>
    have hreads := freshSearch_reads first hitems (a :: buf) k
    by_cases haccepts : ∃ b ∈ a :: buf, first.accepts b = true
    · rcases h.cases hreads haccepts with hfails | ⟨-, hearly⟩ | ⟨o, count, hresult, hcount⟩
      · have htail := (ends_iff_of_failsOn hfirst hfails rfl rfl hreads).mp h
        obtain ⟨offset, hmatch, hroom⟩ := ih htail
        refine ⟨offset + 1, hmatch.cons a, ?_⟩
        simp only [length_cons] at hroom ⊢
        omega
      · exact hearly
      · cases hresult
        omega
    · cases (ends_of_no_first hitems haccepts k).mp h

theorem ends_none_iff (buf : List UInt8) (k : Nat) :
    Ends searchPattern (freshSearch first text buf k) none ↔
      ∀ p, (∃ b ∈ buf.drop p, first.accepts b = true) → FailsOn (buf.drop p) (first :: items) := by
  induction buf generalizing k with
  | nil =>
    rw [ends_of_no_first hitems (by simp)]
    simp
  | cons a buf ih =>
    have hreads := freshSearch_reads first hitems (a :: buf) k
    by_cases haccepts : ∃ b ∈ a :: buf, first.accepts b = true
    · constructor
      · intro h p hp
        rcases h.cases hreads haccepts with hfails | ⟨⟨o, hresult⟩, -⟩ | ⟨o, count, hresult, -⟩
        · cases p with
          | zero => exact hfails
          | succ p =>
            have htail := (ends_iff_of_failsOn hfirst hfails rfl rfl hreads).mp h
            exact (ih (k + 1)).mp htail p hp
        · cases hresult
        · cases hresult
      · intro h
        rw [ends_iff_of_failsOn hfirst (h 0 haccepts) rfl rfl hreads]
        exact (ih (k + 1)).mpr fun p hp => h (p + 1) hp
    · rw [ends_of_no_first hitems haccepts]
      refine iff_of_true rfl fun p hp => ?_
      obtain ⟨b, hb, hb'⟩ := hp
      exact absurd ⟨b, mem_of_mem_drop hb, hb'⟩ haccepts

theorem ends_of_earlyMatch {buf : List UInt8} (k : Nat)
    (h : ∃ offset, EarlyMatch (first :: items) buf offset) :
    ∃ offset, Ends searchPattern (freshSearch first text buf k)
        (some (offset + k, items.length + 1)) ∧
      MatchAt (first :: items) buf offset ∧ ∀ o < offset, ¬MatchAt (first :: items) buf o := by
  induction buf generalizing k with
  | nil =>
    obtain ⟨offset, -, hroom⟩ := h
    simp at hroom
  | cons a buf ih =>
    have hreads := freshSearch_reads first hitems (a :: buf) k
    obtain ⟨offset, hearly⟩ := h
    obtain ⟨skip, b, tail, hat⟩ := exists_firstAt hearly.1.exists_accepts
    rcases compared_cases items tail.dropLast with ⟨w₁, x, w₂, htail, hw⟩ |
      ⟨ts₁, u, ts₂, w₁, x, w₂, rfl, htail, hw, hx⟩ | ⟨ts₁, ts₂, rfl, hw⟩
    · refine ⟨skip.length, ?_, (earlyMatch_of_found hat htail hw).1, ?_⟩
      · exact (ends_of_done (turn_found hreads hat htail hw)).mpr rfl
      · intro o ho hmatch
        have hle := hmatch.first_le hat
        omega
    · have hnot := not_matchAt_of_mismatch ts₂ hat htail hw hx
      have hzero : ∀ o, MatchAt (first :: (ts₁ ++ u :: ts₂)) (a :: buf) o → o ≠ 0 := by
        rintro o hmatch rfl
        have hle := hmatch.first_le hat
        rw [Nat.le_zero.mp hle] at hnot
        exact hnot hmatch
      obtain ⟨o, rfl⟩ := Nat.exists_eq_succ_of_ne_zero (hzero offset hearly.1)
      have hroom := hearly.2
      simp only [length_cons] at hroom
      have hearly' : EarlyMatch (first :: (ts₁ ++ u :: ts₂)) buf o :=
        ⟨hearly.1.tail, by simp only [length_cons]; omega⟩
      obtain ⟨o', hends, hmatch, hleast⟩ := ih (k + 1) ⟨o, hearly'⟩
      refine ⟨o' + 1, ?_, hmatch.cons a, ?_⟩
      · rw [ends_of_goOn (turn_mismatch hfirst hreads hat htail hw hx), Nat.add_assoc,
          Nat.add_comm 1]
        exact hends
      · intro p hp hmatch'
        obtain ⟨q, rfl⟩ := Nat.exists_eq_succ_of_ne_zero (hzero p hmatch')
        exact hleast q (by omega) hmatch'.tail
    · have hshort := length_of_ranOut hat hw ts₂
      have hle := hearly.1.first_le hat
      have hroom := hearly.2
      omega

end

theorem matchAt_nil (bytes : List UInt8) : MatchAt [] bytes 0 := ⟨[], [], bytes, rfl, rfl, .nil⟩

def located (addr : UInt64) (found : Option (Nat × Nat)) : Option (UInt64 × Nat) :=
  found.map fun (n, count) => (addr + .ofNat n, count)

theorem threadPageFind_iff {fuel : Nat} {thread : Thread} {addr : UInt64} {pattern : List Char}
    {result : Option (UInt64 × Nat)} :
    threadPageFind fuel thread addr pattern = .ok (some result) ↔
      ∃ found, find fuel (thread.readbuf addr) pattern = .ok (some found) ∧
        located addr found = result := by
  rw [threadPageFind]
  cases find fuel (thread.readbuf addr) pattern with
  | error e => simp [Except.map]
  | ok found => cases found <;> simp [Except.map, located]

theorem findsFirst_iff_ends {thread : Thread} {addr : UInt64} {p : Pattern} {first : Item}
    {text : List Char} (hfirst : nextChar p.text = .ok (some (first.code, text))) :
    FindsFirst thread addr p ↔
      ∃ found, Ends p.text (freshSearch first text (thread.readbuf addr) 0) found ∧
        RightAnswer p.items (thread.readbuf addr) addr (located addr found) := by
  have hfind : ∀ fuel, find fuel (thread.readbuf addr) p.text =
      searchLoop p.text fuel (freshSearch first text (thread.readbuf addr) 0) := by
    intro fuel
    rw [find, hfirst]
    rfl
  simp only [FindsFirst, threadPageFind_iff, hfind]
  constructor
  · intro h
    obtain ⟨fuel, result, ⟨found, hends, rfl⟩, hright⟩ := h
    exact ⟨found, ⟨fuel, hends⟩, hright⟩
  · intro h
    obtain ⟨found, ⟨fuel, hends⟩, hright⟩ := h
    exact ⟨fuel, _, ⟨found, hends, rfl⟩, hright⟩

theorem findsFirst_iff (thread : Thread) (addr : UInt64) (p : Pattern) :
    FindsFirst thread addr p ↔ Settled p.items (thread.readbuf addr) := by
  cases hitems : p.items with
  | nil =>
    have hread := nextChar_nil (hitems ▸ p.wellFormed)
    refine iff_of_true ⟨0, some (addr, 0), ?_, ?_⟩ (Or.inl rfl)
    · simp [threadPageFind, find, hread, Except.map]
    · rw [hitems]
      exact ⟨0, matchAt_nil _, fun o ho => absurd ho (Nat.not_lt_zero o), by simp, rfl⟩
  | cons first items =>
    obtain ⟨text, hfirst, hrest⟩ := nextChar_cons (hitems ▸ p.wellFormed)
    rw [findsFirst_iff_ends hfirst, hitems]
    constructor
    · intro h
      obtain ⟨found, hends, hright⟩ := h
      cases found with
      | none =>
        refine Or.inr (Or.inr ⟨hright, fun q t ht => ?_⟩)
        rw [head?_cons, Option.some.injEq] at ht
        subst ht
        exact (ends_none_iff hfirst hrest _ 0).mp hends q
      | some answer =>
        obtain ⟨n, count⟩ := answer
        obtain ⟨offset, -, -, -, hcount⟩ := hright
        subst hcount
        exact Or.inr (Or.inl (earlyMatch_of_ends hfirst hrest hends))
    · intro h
      rcases h with hnil | hearly | ⟨hnone, hfails⟩
      · cases hnil
      · obtain ⟨offset, hends, hmatch, hleast⟩ := ends_of_earlyMatch hfirst hrest 0 hearly
        exact ⟨_, hends, offset, hmatch, hleast, rfl, rfl⟩
      · exact ⟨none, (ends_none_iff hfirst hrest _ 0).mpr fun q => hfails q first rfl, hnone⟩

section
variable {first : Item} {items : List Item} {bytes : List UInt8}

end

def oneWord (word : UInt64) : Thread where
  readData _ n := [word].take n
  readData_length _ n := length_take_le n _

def singleByte : Pattern where
  text := ['4', '1']
  items := [.byte 0x41]
  wellFormed := by
    have hspaces : Spaces [] := by simp [Spaces]
    exact .digits (x := 4) (y := 1) rfl rfl hspaces (Or.inl rfl) .nil

def twoBytes : Pattern where
  text := ['4', '1', ' ', '4', '2']
  items := [.byte 0x41, .byte 0x42]
  wellFormed := by
    have hspaces : Spaces [] := by simp [Spaces]
    have hblank : Spaces [' '] := by simp [Spaces, isspace]
    exact .digits (x := 4) (y := 1) rfl rfl hblank (Or.inr (by simp))
      (.digits (x := 4) (y := 2) rfl rfl hspaces (Or.inl rfl) .nil)

theorem threadPageFind_at_end :
    (MatchAt singleByte.items ((oneWord 0x4100000000000000).readbuf 0x1000) 7 ∧
      (∀ fuel result, threadPageFind fuel (oneWord 0x4100000000000000) 0x1000 singleByte.text ≠
        .ok (some result)) ∧
      ¬FindsFirst (oneWord 0x4100000000000000) 0x1000 singleByte) ∧
    (threadPageFind 2 (oneWord 0x0042410000000042) 0x1000 twoBytes.text =
        .ok (some (some (0x1000, 1))) ∧
      ¬FindsFirst (oneWord 0x0042410000000042) 0x1000 twoBytes) := by
  have hblock : (oneWord 0x4100000000000000).readbuf 0x1000 = [0, 0, 0, 0, 0, 0, 0, 0x41] := by
    decide
  have hblock' : (oneWord 0x0042410000000042).readbuf 0x1000 =
      [0x42, 0, 0, 0, 0, 0x41, 0x42, 0] := by
    decide
  have hstuck : turn singleByte.text
      (freshSearch (.byte 0x41) [] [0, 0, 0, 0, 0, 0, 0, 0x41] 0) =
        .ok (.goOn (freshSearch (.byte 0x41) [] [0, 0, 0, 0, 0, 0, 0, 0x41] 0)) := by
    rfl
  have hread : nextChar singleByte.text = .ok (some ((Item.byte 0x41).code, [])) := rfl
  have hread' : nextChar twoBytes.text = .ok (some ((Item.byte 0x41).code, ['4', '2'])) := rfl
  have hnever : ∀ fuel result, threadPageFind fuel (oneWord 0x4100000000000000) 0x1000
      singleByte.text ≠ .ok (some result) := by
    intro fuel result h
    obtain ⟨found, hfind, -⟩ := threadPageFind_iff.mp h
    exact not_ends_of_stuck hstuck ⟨fuel, hfind⟩
  refine ⟨⟨?_, hnever, ?_⟩, ?_, ?_⟩
  · exact ⟨[0, 0, 0, 0, 0, 0, 0], [0x41], [], rfl, rfl, .cons rfl .nil⟩
  · intro h
    obtain ⟨fuel, result, hfind, -⟩ := h
    exact hnever fuel result hfind
  · rfl
  · rw [findsFirst_iff_ends hread', hblock']
    intro h
    obtain ⟨found, hends, hright⟩ := h
    have hlast : turn twoBytes.text
        (freshSearch (.byte 0x42) [] [0x42, 0, 0, 0, 0, 0x41, 0x42, 0] 0) =
          .ok (.done (some (0, 1))) := rfl
    have hranOut : turn twoBytes.text
        (freshSearch (.byte 0x41) ['4', '2'] [0x42, 0, 0, 0, 0, 0x41, 0x42, 0] 0) =
          .ok (.goOn (freshSearch (.byte 0x42) [] [0x42, 0, 0, 0, 0, 0x41, 0x42, 0] 0)) := rfl
    rw [ends_of_goOn hranOut, ends_of_done hlast] at hends
    subst hends
    obtain ⟨offset, -, -, -, hlength⟩ := hright
    cases hlength

end ZeroBugs.Zdk.PageFind
