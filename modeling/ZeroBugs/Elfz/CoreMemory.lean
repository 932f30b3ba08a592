import ZeroBugs.Elfz.CoreFile

/-! # What is read from a core file -/
namespace ZeroBugs.Elfz

open Lib

namespace CoreFile

variable {core : CoreFile}

def image (core : CoreFile) (seg : Segment) : List UInt8 :=
  if core.filename seg = "" then [] else (core.files (core.filename seg)).getD []

/-- The byte at an offset in the segment: that of the core file below the size in the
file, and else that of the image, or zero. -/
def expected (core : CoreFile) (seg : Segment) (o : Nat) : Option UInt8 :=
  if o < seg.fsize then core.bytes[seg.offs + o]? else some ((core.image seg)[o]?.getD 0)

def corePart (seg : Segment) (offs n : Nat) : Nat :=
  if offs < seg.fsize then min n (seg.fsize - offs) else 0

def Padded (core : CoreFile) (os : Os) (seg : Segment) (offs n : Nat) : Prop :=
  ∃ file, core.files (core.filename seg) = some file ∧ offs < 2 ^ 63 ∧
    (file.length ≤ offs ∨ offs + n ≤ file.length ∧ n ≤ os.maxCount)

/-- The requests of `n` bytes that are served right. Locked executable memory needs an image with
all of the bytes. Else a request beyond the core file's part is all beyond it, with an image read as
a whole or not at all, or there is no image. -/
def Sound (core : CoreFile) (os : Os) (seg : Segment) (offs n : Nat) : Prop :=
  if Locked seg then
    if core.filename seg = "" then n = 0
    else ∃ file, core.files (core.filename seg) = some file ∧ Served os file offs n
  else
    (offs < seg.fsize →
      n = 0 ∧ (seg.offs + offs) % 2 ^ 64 < 2 ^ 63 ∨
      seg.offs + offs + corePart seg offs n ≤ core.bytes.length ∧
        corePart seg offs n ≤ os.maxCount) ∧
    (0 < n → seg.fsize < offs + n → core.filename seg ≠ "" →
      seg.fsize ≤ offs ∧ core.Padded os seg offs n)

section Segment

variable {os : Os} {seg : Segment} {offs : Nat} {buf : Buf} {n : Nat}

theorem expected_of_le {o : Nat} (h : seg.fsize ≤ o) :
    core.expected seg o = some ((core.image seg)[o]?.getD 0) := if_neg (by omega)

theorem image_eq {file : List UInt8} (hname : core.filename seg ≠ "")
    (hfile : core.files (core.filename seg) = some file) : core.image seg = file := by
  rw [image, if_neg hname, hfile]
  rfl

theorem gives_readSegment_locked (hlocked : Locked seg) :
    Gives (core.readSegment os seg offs buf n) n (fun i => core.expected seg (offs + i)) ↔
      core.Sound os seg offs n := by
  rw [readSegment, if_pos hlocked, Sound, if_pos hlocked]
  have hexp : ∀ i, core.expected seg (offs + i) = some ((core.image seg)[offs + i]?.getD 0) :=
    fun i => expected_of_le (by rw [hlocked.1]; omega)
  by_cases hname : core.filename seg = ""
  · rw [if_neg (not_not.mpr hname), if_pos hname, gives_ok_iff]
    constructor
    · intro h
      exact h.1.symm
    · intro h
      exact ⟨h.symm, fun i hi => absurd hi (by omega)⟩
  · rw [if_pos hname, if_neg hname, readImage]
    cases hfile : core.files (core.filename seg) with
    | none => simp [not_gives_error]
    | some file =>
      rw [gives_readbuf_iff]
      · simp
      · intro i _ hi
        rw [hexp, image_eq hname hfile, List.getElem?_eq_getElem hi]
        rfl

def CoreHolds (core : CoreFile) (os : Os) (seg : Segment) (offs n : Nat) : Prop :=
  offs < seg.fsize →
    n = 0 ∧ (seg.offs + offs) % 2 ^ 64 < 2 ^ 63 ∨
    seg.offs + offs + corePart seg offs n ≤ core.bytes.length ∧ corePart seg offs n ≤ os.maxCount

theorem corePart_le (seg : Segment) (offs n : Nat) : corePart seg offs n ≤ n := by
  unfold corePart
  split <;> omega

theorem readCore_of_lt (h : offs < seg.fsize) :
    core.readCore os seg offs buf n =
      (readbuf os core.bytes ((seg.offs + offs) % 2 ^ 64) buf (corePart seg offs n)).bind
        fun r => if r.1 ≠ corePart seg offs n then
          .error (notEnoughData (corePart seg offs n) r.1) else .ok r := by
  rw [readCore, if_pos h, corePart, if_pos h]
  rfl

theorem readCore_of_holds (h : core.CoreHolds os seg offs n) (buf : Buf) :
    ∃ buf', core.readCore os seg offs buf n = .ok (corePart seg offs n, buf') ∧
      ∀ i < corePart seg offs n, core.bytes[seg.offs + (offs + i)]? = some (buf' i) := by
  by_cases hlt : offs < seg.fsize
  · have hlen := core.bytes_length
    have hserved : Served os core.bytes ((seg.offs + offs) % 2 ^ 64) (corePart seg offs n) := by
      have hle := corePart_le seg offs n
      rcases h hlt with ⟨h0, hpos⟩ | ⟨hend, hmax⟩
      · exact ⟨hpos, Or.inl (by omega)⟩
      · exact ⟨by omega, Or.inr ⟨by omega, hmax⟩⟩
    have hexp : ∀ i < corePart seg offs n,
        (seg.offs + offs) % 2 ^ 64 + i < core.bytes.length →
        core.bytes[seg.offs + (offs + i)]? = core.bytes[(seg.offs + offs) % 2 ^ 64 + i]? := by
      intro i hi _
      have hle := corePart_le seg offs n
      rcases h hlt with ⟨h0, -⟩ | ⟨hend, -⟩
      · omega
      · rw [Nat.mod_eq_of_lt (by omega), Nat.add_assoc]
    obtain ⟨buf', hok, hbytes⟩ := (gives_readbuf_iff os core.bytes buf hexp).mpr hserved
    refine ⟨buf', ?_, hbytes⟩
    rw [readCore_of_lt hlt, hok]
    exact if_neg (not_not.mpr rfl)
  · have h0 : corePart seg offs n = 0 := if_neg hlt
    rw [h0]
    exact ⟨buf, by rw [readCore, if_neg hlt], fun i hi => absurd hi (Nat.not_lt_zero i)⟩

theorem holds_of_gives (hlocked : ¬Locked seg)
    (h : Gives (core.readSegment os seg offs buf n) n fun i => core.expected seg (offs + i)) :
    core.CoreHolds os seg offs n := by
  intro hlt
  obtain ⟨buf', hok, hbytes⟩ := h
  have hlast : 0 < n → seg.offs + (offs + (corePart seg offs n - 1)) < core.bytes.length := by
    intro hn
    have hc : corePart seg offs n = min n (seg.fsize - offs) := if_pos hlt
    have hbyte : core.expected seg (offs + (corePart seg offs n - 1)) = _ :=
      hbytes (corePart seg offs n - 1) (by omega)
    rw [expected, if_pos (by omega)] at hbyte
    exact (List.getElem?_eq_some_iff.mp hbyte).1
  have hlen := core.bytes_length
  have hle := corePart_le seg offs n
  rw [readSegment, if_neg hlocked, readCore_of_lt hlt] at hok
  have hread := reading_readbuf os core.bytes buf ((seg.offs + offs) % 2 ^ 64) (corePart seg offs n)
  generalize readbuf os core.bytes _ buf (corePart seg offs n) = r at hread hok
  cases hread with
  | nothing hoffs h =>
    by_cases hn : n = 0
    · exact Or.inl ⟨hn, hoffs⟩
    · have := hlast (by omega)
      have hc : corePart seg offs n = min n (seg.fsize - offs) := if_pos hlt
      omega
  | all hoffs hn hfile hmax =>
    have := hlast (by omega)
    exact Or.inr ⟨by omega, hmax⟩
  | fails e h => cases hok

theorem corePart_eq_zero_iff (hn : 0 < n) : corePart seg offs n = 0 ↔ seg.fsize ≤ offs := by
  unfold corePart
  split <;> omega

theorem gives_image_iff {c : Nat} (hn : n < 2 ^ 64) (hpos : 0 < n)
    (hname : core.filename seg ≠ "") (hc : c ≤ n) (hzero : c = 0 → seg.fsize ≤ offs) :
    Gives ((core.readImage os (core.filename seg) offs buf n).bind fun r =>
        .ok ((c + r.1 + (n - r.1)) % 2 ^ 64, r.2.zero r.1 (n - r.1))) n
        (fun i => core.expected seg (offs + i)) ↔
      c = 0 ∧ core.Padded os seg offs n := by
  unfold readImage Padded
  cases hfile : core.files (core.filename seg) with
  | none => simp [Except.bind, not_gives_error]
  | some file =>
    have himage (h0 : c = 0) (i : Nat) :
        core.expected seg (offs + i) = some (file[offs + i]?.getD 0) := by
      have hle := hzero h0
      rw [expected_of_le (by omega), image_eq hname hfile]
    dsimp only
    have hread := reading_readbuf os file buf offs n
    generalize readbuf os file offs buf n = r at hread ⊢
    cases hread with
    | nothing hoffs h =>
      have hend : file.length ≤ offs := by omega
      refine gives_ok_iff.trans ⟨fun h => ?_, fun h => ⟨by dsimp only; omega, fun i hi => ?_⟩⟩
      · exact ⟨by dsimp only at h; omega, file, rfl, hoffs, Or.inl hend⟩
      · rw [himage h.1, List.getElem?_eq_none (by omega), Buf.zero, if_pos (by dsimp only; omega)]
        rfl
    | all hoffs _ hfile hmax =>
      refine gives_ok_iff.trans ⟨fun h => ?_, fun h => ⟨by dsimp only; omega, fun i hi => ?_⟩⟩
      · exact ⟨by dsimp only at h; omega, file, rfl, hoffs, Or.inr ⟨hfile, hmax⟩⟩
      · rw [himage h.1, getElem?_write file buf hfile hi, Buf.zero, if_neg (by dsimp only; omega)]
        rfl
    | fails e hfails =>
      refine iff_of_false (not_gives_error e _ _) fun h => ?_
      obtain ⟨-, file', hfile', hoffs, hor⟩ := h
      obtain rfl := Option.some.inj hfile'
      omega

theorem gives_readRest_iff (hn : n < 2 ^ 64)
    (hbytes : ∀ i < corePart seg offs n, core.bytes[seg.offs + (offs + i)]? = some (buf i)) :
    Gives (core.readRest os seg offs buf n (corePart seg offs n)) n
        (fun i => core.expected seg (offs + i)) ↔
      (0 < n → seg.fsize < offs + n → core.filename seg ≠ "" →
        seg.fsize ≤ offs ∧ core.Padded os seg offs n) := by
  have hcore : ∀ i < corePart seg offs n, core.expected seg (offs + i) = some (buf i) := by
    intro i hi
    rw [expected, if_pos, hbytes i hi]
    unfold corePart at hi
    split at hi <;> omega
  have hrest : ∀ i, corePart seg offs n ≤ i → i < n → seg.fsize ≤ offs + i := by
    intro i hle hlt
    unfold corePart at hle
    split at hle <;> omega
  have hle := corePart_le seg offs n
  unfold readRest
  by_cases hfull : corePart seg offs n < n
  · -- something is missing
    have hpos : 0 < n := by omega
    have hbeyond : seg.fsize < offs + n := by
      have hlast := hrest (n - 1) (by omega) (by omega)
      omega
    rw [if_pos hfull]
    by_cases hname : core.filename seg = ""
    · rw [if_neg (not_not.mpr hname)]
      refine iff_of_true ?_ fun _ _ h => absurd hname h
      refine gives_ok_iff.mpr ⟨by omega, fun i hi => ?_⟩
      by_cases hc : i < corePart seg offs n
      · rw [hcore i hc, Buf.zero, if_neg (by omega)]
      · rw [expected_of_le (hrest i (by omega) hi), image, if_pos hname, Buf.zero,
          if_pos (by omega)]
        rfl
    · rw [if_pos hname]
      refine (gives_image_iff hn hpos hname hle (corePart_eq_zero_iff hpos).mp).trans ?_
      rw [corePart_eq_zero_iff hpos]
      exact ⟨fun h _ _ _ => h, fun h => h hpos hbeyond hname⟩
  · rw [if_neg hfull]
    refine iff_of_true ?_ fun h0 hbeyond _ => absurd hfull (not_not.mpr ?_)
    · exact gives_ok_iff.mpr ⟨by omega, fun i hi => hcore i (by omega)⟩
    · unfold corePart
      split <;> omega

theorem gives_readSegment_iff (hn : n < 2 ^ 64) :
    Gives (core.readSegment os seg offs buf n) n (fun i => core.expected seg (offs + i)) ↔
      core.Sound os seg offs n := by
  by_cases hlocked : Locked seg
  · exact gives_readSegment_locked hlocked
  · have hsplit (h : core.CoreHolds os seg offs n) :
        Gives (core.readSegment os seg offs buf n) n (fun i => core.expected seg (offs + i)) ↔
          (0 < n → seg.fsize < offs + n → core.filename seg ≠ "" →
            seg.fsize ≤ offs ∧ core.Padded os seg offs n) := by
      obtain ⟨buf', hok, hbytes⟩ := readCore_of_holds h buf
      rw [readSegment, if_neg hlocked, hok]
      exact gives_readRest_iff hn hbytes
    rw [Sound, if_neg hlocked]
    constructor
    · intro h
      have hholds := holds_of_gives hlocked h
      exact ⟨hholds, (hsplit hholds).mp h⟩
    · intro h
      exact (hsplit h.1).mpr h.2

theorem count_readImage {name : String} {m : Nat} {buf' : Buf}
    (h : core.readImage os name offs buf n = .ok (m, buf')) : m = 0 ∨ m = n := by
  unfold readImage at h
  split at h
  · cases h
  · next file _ =>
    have hread := reading_readbuf os file buf offs n
    rw [h] at hread
    cases hread with
    | nothing => exact Or.inl rfl
    | all => exact Or.inr rfl

theorem count_readCore {c : Nat} {buf' : Buf}
    (h : core.readCore os seg offs buf n = .ok (c, buf')) : c = corePart seg offs n := by
  by_cases hlt : offs < seg.fsize
  · rw [readCore_of_lt hlt] at h
    cases hr : readbuf os core.bytes ((seg.offs + offs) % 2 ^ 64) buf (corePart seg offs n) with
    | error e =>
      rw [hr] at h
      cases h
    | ok r =>
      rw [hr] at h
      simp only [Except.bind] at h
      split at h
      · cases h
      · next hc =>
        cases h
        exact not_not.mp hc
  · rw [readCore, if_neg hlt] at h
    cases h
    exact (if_neg hlt).symm

theorem count_readSegment (hn : n < 2 ^ 64) {m : Nat} {buf' : Buf}
    (h : core.readSegment os seg offs buf n = .ok (m, buf')) :
    m = n ∨ m = 0 ∨ m = (corePart seg offs n + n) % 2 ^ 64 := by
  have hle := corePart_le seg offs n
  unfold readSegment at h
  split at h
  · split at h
    · have hcount := count_readImage h
      omega
    · cases h
      exact Or.inr (Or.inl rfl)
  · cases hcore : core.readCore os seg offs buf n with
    | error e =>
      rw [hcore] at h
      cases h
    | ok r =>
      obtain ⟨c, buf₁⟩ := r
      obtain rfl := count_readCore hcore
      rw [hcore] at h
      simp only [bind, Except.bind, readRest] at h
      split at h
      · split at h
        · cases himage : core.readImage os (core.filename seg) offs buf₁ n with
          | error e =>
            rw [himage] at h
            cases h
          | ok r =>
            obtain ⟨k, buf₂⟩ := r
            have hcount := count_readImage himage
            rw [himage] at h
            cases h
            omega
        · cases h
          omega
      · cases h
        omega

end Segment

theorem readbuf_gives_iff (core : CoreFile) (os : Os) (e : Nat × Segment) (addr len : Nat)
    (buf : Buf) (he : e ∈ core.segments.map.entries) (hle : e.1 ≤ addr)
    (haddr : addr < e.1 + e.2.msize) (hlen : len < 2 ^ 64) :
    Gives (core.readbuf_ os addr buf len) (min len (e.1 + e.2.msize - addr))
        (fun i => core.expected e.2 (addr - e.1 + i)) ↔
      addr - e.1 + len < 2 ^ 64 ∧
        core.Sound os e.2 (addr - e.1) (min len (e.1 + e.2.msize - addr)) := by
  have hmsize := core.segments.msize_lt e he
  have hfsize := core.segments.fsize_le e he
  rw [readbuf_, findSegment_eq he hle haddr]
  dsimp only
  by_cases hover : addr - e.1 + len < 2 ^ 64
  · rw [Nat.mod_eq_of_lt hover]
    by_cases hspan : e.2.msize < addr - e.1 + len
    · rw [if_pos hspan, if_pos (by omega),
        show min len (e.1 + e.2.msize - addr) = e.2.msize - (addr - e.1) by omega,
        gives_readSegment_iff (by omega)]
      exact ⟨fun h => ⟨hover, h⟩, fun h => h.2⟩
    · rw [if_neg hspan, show min len (e.1 + e.2.msize - addr) = len by omega,
        gives_readSegment_iff hlen]
      exact ⟨fun h => ⟨hover, h⟩, fun h => h.2⟩
  · -- the sum wraps around, so that the whole length is asked for
    rw [if_neg (by omega)]
    refine iff_of_false (fun h => ?_) fun h => hover h.1
    obtain ⟨buf', hok, -⟩ := h
    have hpart : corePart e.2 (addr - e.1) len ≤ e.2.fsize - (addr - e.1) := by
      unfold corePart
      split <;> omega
    rcases count_readSegment hlen hok with h | h | h <;> omega

def linux : Os := ⟨0x7ffff000, 0, by decide⟩

/-- A core file with one segment at 4096, which has two bytes in the file and four in
memory, and the files that can be opened. -/
def oneSegment (filename : String) (files : String → Option (List UInt8)) : CoreFile where
  bytes := [7, 1, 2]
  bytes_length := by decide
  segments :=
    { map := ⟨[(4096, ⟨1, 4, 2, 6, filename⟩)], List.pairwise_singleton _ _⟩
      msize_pos := by simp
      fsize_le := by simp
      msize_lt := by simp
      end_le := by simp
      disjoint := List.pairwise_singleton _ _ }
  procname := ""
  files := files

theorem readbuf_gives_padded :
    Gives ((oneSegment "" fun _ => none).readbuf_ linux 4097 (fun _ => 255) 8) 3 fun i =>
      (oneSegment "" fun _ => none).expected ⟨1, 4, 2, 6, ""⟩ (1 + i) :=
  (readbuf_gives_iff (oneSegment "" fun _ => none) linux (4096, ⟨1, 4, 2, 6, ""⟩) 4097 8
    (fun _ => 255) List.mem_cons_self (by decide) (by decide) (by decide)).mpr
    ⟨by decide, fun _ => Or.inr (by decide), fun _ _ h => absurd rfl h⟩

def mappedSegment : CoreFile := oneSegment "/bin/a" fun _ => some [9, 9, 9, 9]

theorem readbuf_counts_twice :
    (mappedSegment.readbuf_ linux 4096 (fun _ => 255) 4).map (fun r => (r.1, r.2 0, r.2 1)) =
      .ok (6, 9, 9) ∧
    mappedSegment.expected ⟨1, 4, 2, 6, "/bin/a"⟩ 0 = some 1 ∧
    mappedSegment.expected ⟨1, 4, 2, 6, "/bin/a"⟩ 1 = some 2 := by
  decide

end CoreFile

end ZeroBugs.Elfz
