import ZeroBugs.Lib.LittleEndian
import ZeroBugs.Zdk.BytePattern

/-! # Searching a page for a byte pattern -/
namespace ZeroBugs.Zdk.PageFind
open Lib List

def scan : List UInt8 → Int → Option Nat
  | [], _ => none
  | a :: buf, b => if matchByte a b then some 0 else (scan buf b).map (· + 1)

/-- How the inner loop of `find` ends: the pattern is exhausted, a byte does not match, or no bytes
are left. -/
inductive Compared where
  | found (count : Nat)
  | mismatch (c : Int)
  | ranOut (c : Int) (pattern : List Char)

def compareBytes : List UInt8 → Int → List Char → Nat → Except String Compared
  | [], c, pattern, _ => .ok (.ranOut c pattern)
  | a :: bytes, _, pattern, count =>
    match nextChar pattern with
    | .error e => .error e
    | .ok none => .ok (.found count)
    | .ok (some (c, pattern)) =>
      if matchByte a c then compareBytes bytes c pattern (count + 1) else .ok (.mismatch c)

/-- The variables of the outer loop; `count` is set anew in each turn. -/
structure Search where
  /-- From `buf` to the end of the block, `size` bytes. -/
  buf : List UInt8
  /-- `buf - base` -/
  skipped : Nat
  c : Int
  pattern : List Char

inductive Turn where
  | goOn (s : Search)
  | done (result : Option (Nat × Nat))

def Search.startOver (searchPattern : List Char) (s : Search) (c : Int) :
    Except String Search :=
  match nextChar searchPattern with
  | .error e => .error e
  | .ok none => .ok ⟨s.buf.tail, s.skipped + 1, c, searchPattern⟩
  | .ok (some (c, pattern)) => .ok ⟨s.buf.tail, s.skipped + 1, c, pattern⟩

/-- The body of the outer loop of `find`, or its end. -/
def turn (searchPattern : List Char) (s : Search) : Except String Turn :=
  if s.buf = [] then .ok (.done none)
  else match scan s.buf s.c with
  | none => .ok (.done none)
  | some n =>
    match compareBytes (s.buf.drop (n + 1)).dropLast s.c s.pattern 1 with
    | .error e => .error e
    | .ok (.found count) => .ok (.done (some (n + s.skipped, count)))
    | .ok (.mismatch c) => (s.startOver searchPattern c).map .goOn
    | .ok (.ranOut c pattern) => .ok (.goOn { s with c := c, pattern := pattern })

/-- The outer loop of `find`; `none` if the fuel does not last. -/
def searchLoop (searchPattern : List Char) : Nat → Search →
    Except String (Option (Option (Nat × Nat)))
  | 0, _ => .ok none
  | fuel + 1, s =>
    match turn searchPattern s with
    | .error e => .error e
    | .ok (.done result) => .ok (some result)
    | .ok (.goOn s) => searchLoop searchPattern fuel s

/-- `find`: the offset and the count, or `none` for -1. -/
def find (fuel : Nat) (bytes : List UInt8) (pattern : List Char) :
    Except String (Option (Option (Nat × Nat))) :=
  match nextChar pattern with
  | .error e => .error e
  | .ok none => .ok (some (some (0, 0)))
  | .ok (some (c, rest)) => searchLoop pattern fuel ⟨bytes, 0, c, rest⟩

/-- `Thread::read_data`: the words that were read, at most as many as asked for. -/
structure Thread where
  readData : UInt64 → Nat → List UInt64
  readData_length : ∀ addr n, (readData addr n).length ≤ n

/-- The bytes of the buffer of `readbuf`: 4096 at most. -/
def Thread.readbuf (thread : Thread) (addr : UInt64) : List UInt8 :=
  (thread.readData addr 512).flatMap fun word => LittleEndian.encode 8 word.toNat

def threadPageFind (fuel : Nat) (thread : Thread) (addr : UInt64) (pattern : List Char) :
    Except String (Option (Option (UInt64 × Nat))) :=
  (find fuel (thread.readbuf addr) pattern).map fun result =>
    result.map fun found => found.map fun (n, count) => (addr + .ofNat n, count)

abbrev Accepts : List Item → List UInt8 → Prop := List.Forall₂ fun t b => t.accepts b = true

def MatchAt (items : List Item) (bytes : List UInt8) (offset : Nat) : Prop :=
  ∃ before word after, bytes = before ++ (word ++ after) ∧ before.length = offset ∧
    Accepts items word

def RightAnswer (items : List Item) (bytes : List UInt8) (addr : UInt64) :
    Option (UInt64 × Nat) → Prop
  | none => ∀ offset, ¬MatchAt items bytes offset
  | some (retAddr, length) => ∃ offset, MatchAt items bytes offset ∧
      (∀ o < offset, ¬MatchAt items bytes o) ∧ retAddr = addr + .ofNat offset ∧
      length = items.length

def FindsFirst (thread : Thread) (addr : UInt64) (p : Pattern) : Prop :=
  ∃ fuel result, threadPageFind fuel thread addr p.text = .ok (some result) ∧
    RightAnswer p.items (thread.readbuf addr) addr result

/-- The first byte that an item accepts, with the bytes before and after it. -/
structure FirstAt (t : Item) (buf skip : List UInt8) (b : UInt8) (tail : List UInt8) : Prop where
  eq : buf = skip ++ b :: tail
  skipped : ∀ a ∈ skip, t.accepts a = false
  here : t.accepts b = true

/-- From the first byte that the first item accepts, the items fail on a byte before the
last one. If they reach the last byte without, those from the last item read on have to
fail in turn, from the start of the buffer. -/
inductive FailsOn (buf : List UInt8) : List Item → Prop
  | mismatch {t ts₁ u ts₂ skip b tail w₁ a w₂} : FirstAt t buf skip b tail →
      tail.dropLast = w₁ ++ a :: w₂ → Accepts ts₁ w₁ → u.accepts a = false →
      FailsOn buf (t :: (ts₁ ++ u :: ts₂))
  | goesOn {t ts₁ u ts₂ skip b tail} : FirstAt t buf skip b tail →
      Accepts (ts₁ ++ [u]) tail.dropLast → FailsOn buf (u :: ts₂) →
      FailsOn buf (t :: (ts₁ ++ u :: ts₂))

def EarlyMatch (items : List Item) (bytes : List UInt8) (offset : Nat) : Prop :=
  MatchAt items bytes offset ∧ offset + items.length + 2 ≤ bytes.length

/-- There is no item, or an early match, or no match at all and wherever the search
starts in the block it fails on a byte. -/
def Settled (items : List Item) (bytes : List UInt8) : Prop :=
  items = [] ∨ (∃ offset, EarlyMatch items bytes offset) ∨
    (∀ offset, ¬MatchAt items bytes offset) ∧
      ∀ p t, items.head? = some t → (∃ b ∈ bytes.drop p, t.accepts b = true) →
        FailsOn (bytes.drop p) items

variable {pattern : List Char}

theorem compareBytes_accepts {t : Item} {ts : List Item}
    (hread : WellFormed pattern (t :: ts)) {b : UInt8} (h : t.accepts b = true) :
    ∃ pattern', WellFormed pattern' ts ∧ ∀ bytes c count,
      compareBytes (b :: bytes) c pattern count =
        compareBytes bytes t.code pattern' (count + 1) := by
  obtain ⟨pattern', hnext, hrest⟩ := nextChar_cons hread
  refine ⟨pattern', hrest, fun bytes c count => ?_⟩
  rw [compareBytes, hnext]
  simp only [matchByte_code, h, if_true]

variable {w₁ : List UInt8}

theorem compareBytes_found {ts : List Item} (h : Accepts ts w₁) (hread : WellFormed pattern ts)
    (a : UInt8) (w₂ : List UInt8) (c : Int)
    (count : Nat) :
    compareBytes (w₁ ++ a :: w₂) c pattern count = .ok (.found (count + ts.length)) := by
  induction h generalizing pattern c count with
  | nil => simp [compareBytes, nextChar_nil hread]
  | @cons t b ts w₁ haccepts _ ih =>
    obtain ⟨pattern', hrest, hstep⟩ := compareBytes_accepts hread haccepts
    rw [cons_append, hstep, ih hrest, length_cons, Nat.add_assoc,
      Nat.add_comm 1 ts.length]

variable {ts₁ ts₂ : List Item} {u : Item} {a : UInt8}

theorem compareBytes_mismatch (h : Accepts ts₁ w₁) (hread : WellFormed pattern (ts₁ ++ u :: ts₂))
    (ha : u.accepts a = false) (w₂ : List UInt8) (c : Int) (count : Nat) :
    compareBytes (w₁ ++ a :: w₂) c pattern count = .ok (.mismatch u.code) := by
  induction h generalizing pattern c count with
  | nil =>
    obtain ⟨pattern', hnext, -⟩ := nextChar_cons hread
    simp [compareBytes, hnext, ha]
  | @cons t b ts w₁ haccepts _ ih =>
    obtain ⟨pattern', hrest, hstep⟩ := compareBytes_accepts hread haccepts
    rw [cons_append, hstep, ih hrest]

theorem compareBytes_ranOut {w : List UInt8}
    (h : Accepts (ts₁ ++ [u]) w)
    (hread : WellFormed pattern (ts₁ ++ u :: ts₂)) (c : Int) (count : Nat) :
    ∃ pattern', compareBytes w c pattern count = .ok (.ranOut u.code pattern') ∧
      WellFormed pattern' ts₂ := by
  induction ts₁ generalizing w pattern c count with
  | nil =>
    obtain ⟨b, w', haccepts, hnil, rfl⟩ := List.forall₂_cons_left_iff.mp h
    obtain ⟨pattern', hrest, hstep⟩ := compareBytes_accepts hread haccepts
    refine ⟨pattern', ?_, hrest⟩
    rw [List.forall₂_nil_left_iff.mp hnil, hstep]
    rfl
  | cons t ts₁ ih =>
    obtain ⟨b, w', haccepts, hw, rfl⟩ := List.forall₂_cons_left_iff.mp h
    obtain ⟨pattern₁, hrest, hstep⟩ := compareBytes_accepts hread haccepts
    rw [hstep]
    exact ih hw hrest t.code (count + 1)

theorem compared_cases (ts : List Item) (w : List UInt8) :
    (∃ w₁ a w₂, w = w₁ ++ a :: w₂ ∧ Accepts ts w₁) ∨
    (∃ ts₁ u ts₂ w₁ a w₂, ts = ts₁ ++ u :: ts₂ ∧ w = w₁ ++ a :: w₂ ∧ Accepts ts₁ w₁ ∧
      u.accepts a = false) ∨
    ∃ ts₁ ts₂, ts = ts₁ ++ ts₂ ∧ Accepts ts₁ w := by
  induction w generalizing ts with
  | nil => exact Or.inr (Or.inr ⟨[], ts, rfl, .nil⟩)
  | cons b w ih =>
    cases ts with
    | nil => exact Or.inl ⟨[], b, w, rfl, .nil⟩
    | cons t ts =>
      cases haccepts : t.accepts b with
      | false => exact Or.inr (Or.inl ⟨[], t, ts, [], b, w, rfl, rfl, .nil, haccepts⟩)
      | true =>
        rcases ih ts with ⟨w₁, a, w₂, rfl, h⟩ | ⟨ts₁, u, ts₂, w₁, a, w₂, rfl, rfl, h, ha⟩ |
          ⟨ts₁, ts₂, rfl, h⟩
        · exact Or.inl ⟨b :: w₁, a, w₂, rfl, .cons haccepts h⟩
        · exact Or.inr (Or.inl ⟨t :: ts₁, u, ts₂, b :: w₁, a, w₂, rfl, rfl, .cons haccepts h, ha⟩)
        · exact Or.inr (Or.inr ⟨t :: ts₁, ts₂, rfl, .cons haccepts h⟩)

variable {buf : List UInt8}

theorem scan_of_none {t : Item} (h : ∀ a ∈ buf, t.accepts a = false) :
    scan buf t.code = none := by
  induction buf with
  | nil => rfl
  | cons a buf ih =>
    rw [scan, matchByte_code, h a (by simp), ih fun b hb => h b (mem_cons_of_mem _ hb)]
    rfl

theorem FirstAt.scan {t : Item} {skip : List UInt8} {b : UInt8} {tail : List UInt8}
    (h : FirstAt t buf skip b tail) : scan buf t.code = some skip.length := by
  obtain ⟨rfl, hskipped, hhere⟩ := h
  induction skip with
  | nil => simp [PageFind.scan, hhere]
  | cons a skip ih =>
    rw [cons_append, PageFind.scan, matchByte_code, hskipped a (by simp),
      ih fun b hb => hskipped b (mem_cons_of_mem _ hb)]
    rfl

theorem exists_firstAt {t : Item} (h : ∃ b ∈ buf, t.accepts b = true) :
    ∃ skip b tail, FirstAt t buf skip b tail := by
  induction buf with
  | nil => simp at h
  | cons a buf ih =>
    cases haccepts : t.accepts a with
    | true => exact ⟨[], a, buf, rfl, by simp, haccepts⟩
    | false =>
      obtain ⟨b, hb, hb'⟩ := h
      have hmem : b ∈ buf := by
        refine (mem_cons.mp hb).resolve_left fun heq => ?_
        rw [heq, haccepts] at hb'
        cases hb'
      obtain ⟨skip, b, tail, hfirst⟩ := ih ⟨b, hmem, hb'⟩
      refine ⟨a :: skip, b, tail, by rw [hfirst.eq]; rfl, ?_, hfirst.here⟩
      intro x hx
      cases mem_cons.mp hx with
      | inl heq => rw [heq, haccepts]
      | inr hmem => exact hfirst.skipped x hmem

theorem FirstAt.drop_tail {t : Item} {skip : List UInt8} {b : UInt8} {tail : List UInt8}
    (h : FirstAt t buf skip b tail) : buf.drop (skip.length + 1) = tail := by
  rw [h.eq, drop_append, drop_eq_nil_of_le (Nat.le_succ _)]
  simp

structure Search.Reads (s : Search) (t : Item) (ts : List Item) : Prop where
  current : s.c = t.code
  rest : WellFormed s.pattern ts

section
variable {searchPattern : List Char} {s : Search} {t : Item} {ts : List Item}

theorem turn_of_none (hreads : s.Reads t ts) (h : ∀ a ∈ s.buf, t.accepts a = false) :
    turn searchPattern s = .ok (.done none) := by
  rw [turn, hreads.current, scan_of_none h]
  split <;> rfl

theorem turn_of_firstAt (hreads : s.Reads t ts) {skip : List UInt8} {b : UInt8}
    {tail : List UInt8} (h : FirstAt t s.buf skip b tail) :
    turn searchPattern s =
      match compareBytes tail.dropLast s.c s.pattern 1 with
      | .error e => .error e
      | .ok (.found count) => .ok (.done (some (skip.length + s.skipped, count)))
      | .ok (.mismatch c) => (s.startOver searchPattern c).map .goOn
      | .ok (.ranOut c pattern) => .ok (.goOn { s with c := c, pattern := pattern }) := by
  have hne : s.buf ≠ [] := by
    rw [h.eq]
    simp
  rw [turn, if_neg hne, hreads.current, h.scan]
  simp only [h.drop_tail]

variable {skip : List UInt8} {b : UInt8} {tail : List UInt8}

theorem turn_found (hreads : s.Reads t ts) (h : FirstAt t s.buf skip b tail) {w₂ : List UInt8}
    (htail : tail.dropLast = w₁ ++ a :: w₂)
    (haccepts : Accepts ts w₁) :
    turn searchPattern s =
      .ok (.done (some (skip.length + s.skipped, ts.length + 1))) := by
  rw [turn_of_firstAt hreads h, htail, compareBytes_found haccepts hreads.rest, Nat.add_comm 1]

theorem turn_ranOut
    (hreads : s.Reads t (ts₁ ++ u :: ts₂)) (h : FirstAt t s.buf skip b tail)
    (haccepts : Accepts (ts₁ ++ [u]) tail.dropLast) :
    ∃ s' : Search, turn searchPattern s = .ok (.goOn s') ∧ s'.buf = s.buf ∧
      s'.skipped = s.skipped ∧ s'.Reads u ts₂ := by
  obtain ⟨pattern', hcompare, hrest⟩ := compareBytes_ranOut haccepts hreads.rest s.c 1
  refine ⟨{ s with c := u.code, pattern := pattern' }, ?_, rfl, rfl, rfl, hrest⟩
  rw [turn_of_firstAt hreads h, hcompare]

theorem turn_stuck (hreads : s.Reads t ts) (h : FirstAt t s.buf skip b tail)
    (htail : tail.dropLast = []) : turn searchPattern s = .ok (.goOn s) := by
  rw [turn_of_firstAt hreads h, htail]
  rfl

end

def Ends (searchPattern : List Char) (s : Search) (result : Option (Nat × Nat)) : Prop :=
  ∃ fuel, searchLoop searchPattern fuel s = .ok (some result)

section
variable {searchPattern : List Char} {s s' : Search} {result r : Option (Nat × Nat)}

theorem ends_of_done (h : turn searchPattern s = .ok (.done r)) :
    Ends searchPattern s result ↔ result = r := by
  constructor
  · intro hends
    obtain ⟨fuel, hfuel⟩ := hends
    cases fuel with
    | zero => cases hfuel
    | succ fuel =>
      rw [searchLoop, h] at hfuel
      exact (Option.some.inj (Except.ok.inj hfuel)).symm
  · intro heq
    refine ⟨1, ?_⟩
    rw [searchLoop, h, heq]

theorem ends_of_goOn (h : turn searchPattern s = .ok (.goOn s')) :
    Ends searchPattern s result ↔ Ends searchPattern s' result := by
  constructor
  · intro hends
    obtain ⟨fuel, hfuel⟩ := hends
    cases fuel with
    | zero => cases hfuel
    | succ fuel =>
      rw [searchLoop, h] at hfuel
      exact ⟨fuel, hfuel⟩
  · intro hends
    obtain ⟨fuel, hfuel⟩ := hends
    refine ⟨fuel + 1, ?_⟩
    rw [searchLoop, h]
    exact hfuel

theorem not_ends_of_stuck (h : turn searchPattern s = .ok (.goOn s)) :
    ¬Ends searchPattern s result := by
  intro hends
  obtain ⟨fuel, hfuel⟩ := hends
  induction fuel with
  | zero => cases hfuel
  | succ fuel ih =>
    rw [searchLoop, h] at hfuel
    exact ih hfuel

end

section
-- the pattern has a first item; after it the cursor is at `text`
variable {searchPattern text : List Char} {first : Item} {items : List Item}
  (hfirst : nextChar searchPattern = .ok (some (first.code, text)))
  (hitems : WellFormed text items)

def freshSearch (first : Item) (text : List Char) (buf : List UInt8) (skipped : Nat) : Search :=
  ⟨buf, skipped, first.code, text⟩

include hitems in
variable (first) in
theorem freshSearch_reads (buf : List UInt8) (skipped : Nat) :
    (freshSearch first text buf skipped).Reads first items := ⟨rfl, hitems⟩

include hfirst in
theorem turn_mismatch {s : Search} {t : Item}
    (hreads : s.Reads t (ts₁ ++ u :: ts₂)) {skip : List UInt8} {b : UInt8} {tail : List UInt8}
    (h : FirstAt t s.buf skip b tail) {w₂ : List UInt8}
    (htail : tail.dropLast = w₁ ++ a :: w₂) (haccepts : Accepts ts₁ w₁)
    (ha : u.accepts a = false) :
    turn searchPattern s = .ok (.goOn (freshSearch first text s.buf.tail (s.skipped + 1))) := by
  rw [turn_of_firstAt hreads h, htail, compareBytes_mismatch haccepts hreads.rest ha]
  simp only [Search.startOver, hfirst]
  rfl

include hfirst in
theorem ends_iff_of_failsOn {ts : List Item} (h : FailsOn buf ts)
    {t : Item} {rest : List Item} (hts : ts = t :: rest) {s : Search} (hbuf : s.buf = buf)
    (hreads : s.Reads t rest) {result : Option (Nat × Nat)} :
    Ends searchPattern s result ↔
      Ends searchPattern (freshSearch first text buf.tail (s.skipped + 1)) result := by
  induction h generalizing t rest s with
  | mismatch hat htail haccepts ha =>
    obtain ⟨rfl, rfl⟩ := List.cons.inj hts
    subst hbuf
    exact ends_of_goOn (turn_mismatch hfirst hreads hat htail haccepts ha)
  | goesOn hat haccepts _ ih =>
    obtain ⟨rfl, rfl⟩ := List.cons.inj hts
    subst hbuf
    obtain ⟨s', hturn, hbuf', hskipped, hreads'⟩ := turn_ranOut hreads hat haccepts
    rw [ends_of_goOn hturn, ih rfl hbuf' hreads', hskipped]

end

end ZeroBugs.Zdk.PageFind
