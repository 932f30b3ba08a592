import Mathlib

/-! # Reading the memory of the debuggee -/
namespace ZeroBugs.Target.Memory

inductive WordSize where
  | w32
  | w64

/-- `sizeof(Long)` -/
def WordSize.bytes : WordSize → Nat
  | .w32 => 4
  | .w64 => 8

/-- The memory of the debuggee, and the system calls of one read. `transfer` is what `read` returns
for a number of bytes, or nothing for an error. -/
structure System where
  mem : UInt64 → UInt8
  descriptor : Int
  seeks : Bool
  transfer : Nat → Option Nat
  transfer_le : ∀ {n k}, transfer n = some k → k ≤ n
  peeks : Nat → Bool

abbrev Buffer := Nat → Option UInt8

variable (sys : System) (w : WordSize) (addr : UInt64)

/-- `count` bytes of memory are written to the buffer at their distance from `addr`. -/
def fill (buf : Buffer) (start count : Nat) : Buffer := fun i =>
  if start ≤ i ∧ i < start + count then some (sys.mem (addr + .ofNat i)) else buf i

/-- `read_using_proc`: the words it reports, if it returns true. `lseek` fails on the
descriptor of a file that was not opened. -/
def readUsingProc (buf : Buffer) (len : Nat) : Option (Nat × Buffer) :=
  if sys.descriptor ≠ 0 ∧ 0 ≤ sys.descriptor ∧ sys.seeks then
    (sys.transfer (len * w.bytes)).map fun n => (n / w.bytes, fill sys addr buf 0 n)
  else none

/-- The loop of `read_using_ptrace` with `left` words to go: the words that were read, and
whether an exception was thrown. -/
def peekLoop : Nat → Nat → Buffer → Nat × Buffer × Bool
  | 0, i, buf => (i, buf, false)
  | left + 1, i, buf =>
    if sys.peeks i then peekLoop left (i + 1) (fill sys addr buf (i * w.bytes) w.bytes)
    else (i, buf, true)

structure Outcome where
  buf : Buffer
  readlen : Option Nat
  threw : Bool

def readUsingPtrace (buf : Buffer) (len : Nat) (counts : Bool) : Outcome :=
  let (i, buf, threw) := peekLoop sys w addr len 0 buf
  ⟨buf, if counts then some i else none, threw && !counts⟩

def read (len : Nat) (counts : Bool) : Outcome :=
  if addr = 0 ∧ counts then ⟨fun _ => none, some 0, false⟩
  else
    match if 2 < len then readUsingProc sys w addr (fun _ => none) len else none with
    | some (n, buf) => ⟨buf, if counts then some n else none, false⟩
    | none => readUsingPtrace sys w addr (fun _ => none) len counts

def Filled (buf : Buffer) (j : Nat) : Prop :=
  ∀ i, j * w.bytes ≤ i → i < (j + 1) * w.bytes → buf i = some (sys.mem (addr + .ofNat i))

def ReportsShortReads (len : Nat) (counts : Bool) : Prop :=
  let out := read sys w addr len counts
  if counts then
    out.threw = false ∧ ∃ n, out.readlen = some n ∧ n ≤ len ∧ (∀ j < n, Filled sys w addr out.buf j)
    ∧
      (n < len → ¬Filled sys w addr out.buf n)
  else out.threw = false → ∀ j < len, Filled sys w addr out.buf j

def upTo (n : Nat) : Buffer := fill sys addr (fun _ => none) 0 n

variable {sys w addr}

theorem bytes_pos : 0 < w.bytes := by cases w <;> decide

theorem fill_upTo (n count : Nat) :
    fill sys addr (upTo sys addr n) n count = upTo sys addr (n + count) := by
  funext i
  simp only [upTo, fill, Nat.zero_le, true_and, Nat.zero_add]
  by_cases h : i < n
  · rw [if_neg (by omega), if_pos h, if_pos (by omega)]
  · rw [if_neg h]
    exact if_congr (by omega) rfl rfl

theorem filled_upTo {n j : Nat} : Filled sys w addr (upTo sys addr n) j ↔ (j + 1) * w.bytes ≤ n :=
    by
  have hpos := bytes_pos (w := w)
  have hnext : (j + 1) * w.bytes = j * w.bytes + w.bytes := by ring
  refine ⟨fun h => ?_, fun h i _ hi => ?_⟩
  · by_contra hlt
    have hlast := h ((j + 1) * w.bytes - 1) (by omega) (by omega)
    simp only [upTo, fill] at hlast
    rw [if_neg (by omega)] at hlast
    cases hlast
  · exact if_pos ⟨Nat.zero_le i, by omega⟩

theorem upTo_zero (sys : System) (addr : UInt64) : upTo sys addr 0 = fun _ => none := by
  funext i
  simp [upTo, fill]

theorem peekLoop_eq (sys : System) (w : WordSize) (addr : UInt64) (left i : Nat) :
    ∃ n threw, peekLoop sys w addr left i (upTo sys addr (i * w.bytes)) =
        (n, upTo sys addr (n * w.bytes), threw) ∧ n ≤ i + left ∧ (threw = false → n = i + left) :=
        by
  induction left generalizing i with
  | zero => exact ⟨i, false, rfl, Nat.le_refl i, fun _ => rfl⟩
  | succ left ih =>
    rw [peekLoop]
    by_cases h : sys.peeks i
    · obtain ⟨n, threw, hrun, hle, hall⟩ := ih (i + 1)
      rw [if_pos h, fill_upTo, ← Nat.succ_mul, hrun]
      exact ⟨n, threw, rfl, by omega, fun ht => by rw [hall ht]; omega⟩
    · rw [if_neg h]
      exact ⟨i, true, rfl, by omega, nofun⟩

theorem count_upTo {n k len : Nat} (hle : n ≤ len) (hn : n * w.bytes ≤ k)
    (hk : n < len → k < (n + 1) * w.bytes) :
    ∃ m, some n = some m ∧ m ≤ len ∧ (∀ j < m, Filled sys w addr (upTo sys addr k) j) ∧
      (m < len → ¬Filled sys w addr (upTo sys addr k) m) := by
  refine ⟨n, rfl, hle, fun j hj => filled_upTo.mpr ?_, fun hlt h => ?_⟩
  · exact (Nat.mul_le_mul_right _ hj).trans hn
  · exact absurd (filled_upTo.mp h) (Nat.not_le.mpr (hk hlt))

theorem reports_ptrace {len : Nat} {counts : Bool}
    (hread : read sys w addr len counts = readUsingPtrace sys w addr (fun _ => none) len counts) :
    ReportsShortReads sys w addr len counts := by
  have hpos := bytes_pos (w := w)
  obtain ⟨n, threw, hrun, hle, hall⟩ := peekLoop_eq sys w addr len 0
  rw [Nat.zero_mul, upTo_zero] at hrun
  unfold ReportsShortReads
  simp only [hread, readUsingPtrace, hrun]
  cases counts with
  | true =>
    refine ⟨Bool.and_false _, count_upTo (by omega) (Nat.le_refl _) fun _ => ?_⟩
    exact Nat.mul_lt_mul_of_pos_right (Nat.lt_succ_self n) hpos
  | false =>
    intro ht j hj
    rw [hall (by simpa using ht), Nat.zero_add]
    exact filled_upTo.mpr (Nat.mul_le_mul_right _ hj)

theorem reports_proc {len k : Nat} {counts : Bool} (hle : k ≤ len * w.bytes)
    (hread : read sys w addr len counts =
      ⟨upTo sys addr k, if counts then some (k / w.bytes) else none, false⟩) :
    ReportsShortReads sys w addr len counts ↔ counts = true ∨ k = len * w.bytes := by
  have hpos := bytes_pos (w := w)
  unfold ReportsShortReads
  simp only [hread]
  cases counts with
  | true =>
    refine iff_of_true ⟨trivial, ?_⟩ (.inl rfl)
    refine count_upTo (Nat.div_le_of_le_mul (Nat.mul_comm .. ▸ hle)) (Nat.div_mul_le_self ..) fun _
      => ?_
    exact Nat.lt_mul_of_div_lt (Nat.lt_succ_self _) hpos
  | false =>
    simp only [Bool.false_eq_true, if_false, false_or, forall_const, filled_upTo]
    refine ⟨fun h => ?_, fun h j hj => h ▸ Nat.mul_le_mul_right _ hj⟩
    cases len with
    | zero => omega
    | succ n => exact Nat.le_antisymm hle (h n (Nat.lt_succ_self n))

theorem reportsShortReads_iff (len : Nat) (counts : Bool) :
    ReportsShortReads sys w addr len counts ↔ counts = true ∨ len ≤ 2 ∨
      ¬(0 < sys.descriptor ∧ sys.seeks = true) ∨ sys.transfer (len * w.bytes) = none ∨
      sys.transfer (len * w.bytes) = some (len * w.bytes) := by
  have hproc : (sys.descriptor ≠ 0 ∧ 0 ≤ sys.descriptor ∧ sys.seeks = true) ↔
      0 < sys.descriptor ∧ sys.seeks = true := by
    rw [← and_assoc]
    exact and_congr_left fun _ => by omega
  by_cases hnull : addr = 0 ∧ counts = true
  · have hread : read sys w addr len counts = ⟨fun _ => none, some 0, false⟩ := if_pos hnull
    refine iff_of_true ?_ (.inl hnull.2)
    unfold ReportsShortReads
    rw [hread, if_pos hnull.2, ← upTo_zero sys addr]
    refine ⟨rfl, count_upTo (Nat.zero_le len) (Nat.zero_mul _).le fun _ => ?_⟩
    rw [Nat.zero_add, Nat.one_mul]
    exact bytes_pos
  have hread : read sys w addr len counts =
      match if 2 < len then readUsingProc sys w addr (fun _ => none) len else none with
      | some (n, buf) => ⟨buf, if counts then some n else none, false⟩
      | none => readUsingPtrace sys w addr (fun _ => none) len counts := if_neg hnull
  by_cases hlen : 2 < len
  · rw [if_pos hlen, readUsingProc] at hread
    by_cases hopen : 0 < sys.descriptor ∧ sys.seeks = true
    · rw [if_pos (hproc.mpr hopen)] at hread
      cases hk : sys.transfer (len * w.bytes) with
      | none =>
        rw [hk] at hread
        exact iff_of_true (reports_ptrace hread) (.inr (.inr (.inr (.inl rfl))))
      | some k =>
        rw [hk] at hread
        rw [reports_proc (sys.transfer_le hk) hread]
        simp [hopen, Nat.not_le.mpr hlen]
    · rw [if_neg (mt hproc.mp hopen)] at hread
      exact iff_of_true (reports_ptrace hread) (.inr (.inr (.inl hopen)))
  · rw [if_neg hlen] at hread
    exact iff_of_true (reports_ptrace hread) (.inr (.inl (by omega)))

def endOfMapping : System := ⟨fun _ => 7, 3, true, fun n => some (min 1 n), by grind, fun _ => true⟩

theorem short_read_not_reported : ¬ReportsShortReads endOfMapping .w64 0x1000 3 false := by
  intro h
  have hread : read endOfMapping .w64 0x1000 3 false = ⟨upTo endOfMapping 0x1000 1, none, false⟩ :=
    rfl
  exact absurd ((reports_proc (by decide) hread).mp h) (by decide)

end ZeroBugs.Target.Memory
