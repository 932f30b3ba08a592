import ZeroBugs.Lib.MultiMap

/-! # Memory in a core file -/
namespace ZeroBugs.Elfz

open Lib List

inductive Exn where
  /-- `runtime_error(strerror(errno))` -/
  | errno (code : Int)
  | runtimeError (msg : String)
  /-- A `Binary` cannot be made from the file. -/
  | open_ (filename : String)
  | endless
  deriving DecidableEq

abbrev Buf := Nat → UInt8

def Buf.write (buf : Buf) (bytes : List UInt8) : Buf := fun i => bytes[i]?.getD (buf i)

def Buf.zero (buf : Buf) (start n : Nat) : Buf := fun i =>
  if start ≤ i ∧ i < start + n then 0 else buf i

/-- The system: how many bytes `read` transfers at most, and the error number that
earlier calls have left. -/
structure Os where
  maxCount : Nat
  errno : Int
  maxCount_pos : 0 < maxCount

def eintr : Int := 4

def einval : Int := 22

/-- `File::readbuf`. A count that is too small is an error, whose number is the one left
by an earlier call. -/
def readbuf (os : Os) (file : List UInt8) (offs : Nat) (buf : Buf) (len : Nat) :
    Except Exn (Nat × Buf) :=
  if 2 ^ 63 ≤ offs then .error (.errno einval)
  else
    let count := min (min len os.maxCount) (file.length - offs)
    let buf := buf.write ((file.drop offs).take count)
    if count = 0 then .ok (0, buf)
    else if count ≠ len then
      if os.errno = eintr then .error .endless else .error (.errno os.errno)
    else .ok (len, buf)

def Gives (r : Except Exn (Nat × Buf)) (n : Nat) (expected : Nat → Option UInt8) : Prop :=
  ∃ buf, r = .ok (n, buf) ∧ ∀ i < n, expected i = some (buf i)

def Served (os : Os) (file : List UInt8) (offs n : Nat) : Prop :=
  offs < 2 ^ 63 ∧ (n = 0 ∨ offs + n ≤ file.length ∧ n ≤ os.maxCount)

theorem not_gives_error (e : Exn) (n : Nat) (expected : Nat → Option UInt8) :
    ¬Gives (.error e) n expected := by
  intro h
  obtain ⟨buf, hbuf, -⟩ := h
  cases hbuf

theorem gives_ok_iff {m n : Nat} {buf : Buf} {expected : Nat → Option UInt8} :
    Gives (.ok (m, buf)) n expected ↔ m = n ∧ ∀ i < n, expected i = some (buf i) := by
  constructor
  · intro h
    obtain ⟨buf', hok, hbytes⟩ := h
    cases hok
    exact ⟨rfl, hbytes⟩
  · intro h
    obtain ⟨rfl, hbytes⟩ := h
    exact ⟨buf, rfl, hbytes⟩

inductive Reading (os : Os) (file : List UInt8) (offs : Nat) (buf : Buf) (n : Nat) :
    Except Exn (Nat × Buf) → Prop where
  | nothing (hoffs : offs < 2 ^ 63) (h : n = 0 ∨ file.length ≤ offs) :
      Reading os file offs buf n (.ok (0, buf))
  | all (hoffs : offs < 2 ^ 63) (hn : 0 < n) (hfile : offs + n ≤ file.length)
      (hmax : n ≤ os.maxCount) :
      Reading os file offs buf n (.ok (n, buf.write ((file.drop offs).take n)))
  | fails (e : Exn) (h : offs < 2 ^ 63 → 0 < n ∧ offs < file.length ∧
      (file.length < offs + n ∨ os.maxCount < n)) : Reading os file offs buf n (.error e)

section Readbuf

variable (os : Os) (file : List UInt8) {offs : Nat} (buf : Buf) {n : Nat}

theorem reading_readbuf (offs n : Nat) :
    Reading os file offs buf n (readbuf os file offs buf n) := by
  have hpos := os.maxCount_pos
  fun_cases readbuf os file offs buf n with
  | case1 hoffs => exact .fails _ (by omega)
  | case2 hoffs count buf' hcount =>
    have hbuf : buf' = buf := by
      simp only [buf', hcount]
      rfl
    exact hbuf ▸ .nothing (by omega) (by omega)
  | case3 => exact .fails _ (by omega)
  | case4 => exact .fails _ (by omega)
  | case5 hoffs count buf' hcount hlen =>
    simp only [buf', not_not.mp hlen]
    exact .all (by omega) (by omega) (by omega) (by omega)

theorem getElem?_write (hfile : offs + n ≤ file.length) {i : Nat} (hi : i < n) :
    file[offs + i]? = some (buf.write ((file.drop offs).take n) i) := by
  have hin : offs + i < file.length := by omega
  have htake : ((file.drop offs).take n)[i]? = file[offs + i]? := by
    rw [getElem?_take_of_lt hi, getElem?_drop]
  rw [Buf.write, htake, getElem?_eq_getElem hin]
  rfl

theorem gives_readbuf_iff {expected : Nat → Option UInt8}
    (hexp : ∀ i < n, offs + i < file.length → expected i = file[offs + i]?) :
    Gives (readbuf os file offs buf n) n expected ↔ Served os file offs n := by
  have hread := reading_readbuf os file buf offs n
  generalize readbuf os file offs buf n = r at hread ⊢
  unfold Served
  cases hread with
  | nothing hoffs h =>
    rw [gives_ok_iff]
    exact ⟨fun hg => ⟨hoffs, Or.inl hg.1.symm⟩, fun hs => ⟨by omega, fun i hi => by omega⟩⟩
  | all hoffs hn hfile hmax =>
    refine iff_of_true (gives_ok_iff.mpr ⟨rfl, fun i hi => ?_⟩) ⟨hoffs, Or.inr ⟨hfile, hmax⟩⟩
    rw [hexp i hi (by omega), getElem?_write file buf hfile hi]
  | fails e h => exact iff_of_false (not_gives_error e _ _) (by omega)

end Readbuf

structure Segment where
  offs : Nat
  msize : Nat
  fsize : Nat
  flags : Nat
  filename : String
  deriving DecidableEq

/-- `SegmentMap`: segments that do not overlap. `read_segment` leaves out those without
memory. -/
structure SegmentMap where
  map : MultiMap Nat Segment
  msize_pos : ∀ e ∈ map.entries, 0 < e.2.msize
  fsize_le : ∀ e ∈ map.entries, e.2.fsize ≤ e.2.msize
  msize_lt : ∀ e ∈ map.entries, e.2.msize < 2 ^ 64
  end_le : ∀ e ∈ map.entries, e.1 + e.2.msize ≤ 2 ^ 64
  disjoint : map.entries.Pairwise fun x y => x.1 + x.2.msize ≤ y.1

structure CoreFile where
  bytes : List UInt8
  bytes_length : bytes.length < 2 ^ 63
  segments : SegmentMap
  procname : String
  files : String → Option (List UInt8)

def pfX : Nat := 1

namespace CoreFile

def findSegment (core : CoreFile) (addr : Nat) : Option (Nat × Segment) :=
  match (core.segments.map.from_ addr).head? with
  | some e => if e.1 ≠ addr then (core.segments.map.below addr).getLast? else some e
  | none => (core.segments.map.below addr).getLast?

def filename (core : CoreFile) (seg : Segment) : String :=
  if seg.filename = "" then core.procname else seg.filename

def readImage (core : CoreFile) (os : Os) (filename : String) (offs : Nat) (buf : Buf)
    (len : Nat) : Except Exn (Nat × Buf) :=
  match core.files filename with
  | none => .error (.open_ filename)
  | some file => readbuf os file offs buf len

def notEnoughData (req read : Nat) : Exn :=
  .runtimeError ("throw_not_enough_data: requested " ++ toString req ++ ", read " ++ toString read)

def readCore (core : CoreFile) (os : Os) (seg : Segment) (offs : Nat) (buf : Buf)
    (bytesToRead : Nat) : Except Exn (Nat × Buf) :=
  if offs < seg.fsize then do
    let readFromFile := min bytesToRead (seg.fsize - offs)
    let (tmp, buf) ← readbuf os core.bytes ((seg.offs + offs) % 2 ^ 64) buf readFromFile
    if tmp ≠ readFromFile then throw (notEnoughData readFromFile tmp)
    return (tmp, buf)
  else .ok (0, buf)

/-- The part that is not: `readFromFile` bytes have been read. The image is read to the
start of the buffer, and what it gives is added to the result. -/
def readRest (core : CoreFile) (os : Os) (seg : Segment) (offs : Nat) (buf : Buf)
    (bytesToRead readFromFile : Nat) : Except Exn (Nat × Buf) := do
  let result := readFromFile
  if readFromFile < bytesToRead then
    if core.filename seg ≠ "" then
      let (readFromFile, buf) ← core.readImage os (core.filename seg) offs buf bytesToRead
      return ((result + readFromFile + (bytesToRead - readFromFile)) % 2 ^ 64,
        buf.zero readFromFile (bytesToRead - readFromFile))
    else
      return ((result + (bytesToRead - readFromFile)) % 2 ^ 64,
        buf.zero readFromFile (bytesToRead - readFromFile))
  else return (result, buf)

def Locked (seg : Segment) : Prop :=
  seg.fsize = 0 ∧ seg.msize ≠ 0 ∧ seg.flags &&& pfX ≠ 0
  deriving Decidable

def readSegment (core : CoreFile) (os : Os) (seg : Segment) (offs : Nat) (buf : Buf)
    (bytesToRead : Nat) : Except Exn (Nat × Buf) :=
  if Locked seg then
    if core.filename seg ≠ "" then core.readImage os (core.filename seg) offs buf bytesToRead
    else .ok (0, buf)
  else do
    let (readFromFile, buf) ← core.readCore os seg offs buf bytesToRead
    core.readRest os seg offs buf bytesToRead readFromFile

/-- `readbuf_`. The sum of offset and length has 64 bits. -/
def readbuf_ (core : CoreFile) (os : Os) (addr : Nat) (buf : Buf) (len : Nat) :
    Except Exn (Nat × Buf) :=
  match core.findSegment addr with
  | none => .ok (0, buf)
  | some (segAddr, seg) =>
    let offs := addr - segAddr
    if seg.msize < (offs + len) % 2 ^ 64 then
      if offs < seg.msize then core.readSegment os seg offs buf (seg.msize - offs)
      else .ok (0, buf)
    else core.readSegment os seg offs buf len

variable {core : CoreFile} {e : Nat × Segment} {addr : Nat}

def Apart (x y : Nat × Segment) : Prop := x.1 + x.2.msize ≤ y.1 ∨ y.1 + y.2.msize ≤ x.1

instance : Std.Symm Apart := ⟨fun _ _ => Or.symm⟩

theorem eq_of_inside (he : e ∈ core.segments.map.entries) (haddr : addr < e.1 + e.2.msize)
    {x : Nat × Segment} (hx : x ∈ core.segments.map.entries) (hle : x.1 ≤ addr)
    (hge : e.1 ≤ x.1) : x = e := by
  by_contra hne
  have hapart : core.segments.map.entries.Pairwise Apart := core.segments.disjoint.imp Or.inl
  have hpos := core.segments.msize_pos x hx
  rcases hapart.forall hx he hne with h | h
  · omega
  · omega

theorem findSegment_eq (he : e ∈ core.segments.map.entries) (hle : e.1 ≤ addr)
    (haddr : addr < e.1 + e.2.msize) : core.findSegment addr = some e := by
  have hmem := (core.segments.map.below_append_from addr).symm ▸ he
  have hlast : e ∈ core.segments.map.below addr →
      (core.segments.map.below addr).getLast? = some e := by
    intro hb
    cases hg : (core.segments.map.below addr).getLast? with
    | none =>
      rw [getLast?_eq_none_iff.mp hg] at hb
      exact absurd hb not_mem_nil
    | some x =>
      have hxb := mem_of_getLast? hg
      have hx : x ∈ core.segments.map.entries := by
        rw [← core.segments.map.below_append_from addr]
        exact mem_append_left _ hxb
      rw [eq_of_inside he haddr hx (MultiMap.lt_of_mem_below hxb).le
        (MultiMap.le_of_getLast (core.segments.map.below_sorted addr) hg e hb)]
  unfold findSegment
  cases hf : core.segments.map.from_ addr with
  | nil =>
    rw [hf, append_nil] at hmem
    exact hlast hmem
  | cons x xs =>
    have hxf : x ∈ core.segments.map.from_ addr := hf ▸ mem_cons_self
    have hx : x ∈ core.segments.map.entries := by
      rw [← core.segments.map.below_append_from addr]
      exact mem_append_right _ hxf
    rw [head?_cons]
    by_cases hkey : x.1 = addr
    · dsimp only
      rw [if_neg (not_not.mpr hkey), eq_of_inside he haddr hx hkey.le (by omega)]
    · dsimp only
      rw [if_pos hkey]
      refine hlast ((mem_append.mp hmem).resolve_right fun hef => hkey ?_)
      have hfirst : x.1 ≤ e.1 := by
        have hsorted := core.segments.map.from_sorted addr
        rw [hf] at hsorted hef
        rcases mem_cons.mp hef with rfl | htail
        · exact le_rfl
        · exact (List.pairwise_cons.mp hsorted).1 e htail
      exact le_antisymm (hfirst.trans hle) (MultiMap.le_of_mem_from hxf)

end CoreFile

end ZeroBugs.Elfz
