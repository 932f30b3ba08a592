import ZeroBugs.Lib.LittleEndian

/-! # Notes of a core file -/
namespace ZeroBugs.Elfz

open Lib

/-- `EI_CLASS` of the file. -/
inductive Klass where
  | elf32 | elf64
  deriving DecidableEq

/-- The sizes of `elf_prstatus_` and `elf_prpsinfo_` in each class, and of `fpregset_t`. -/
structure Platform where
  prstatusSize : Klass → Nat
  prpsinfoSize : Klass → Nat
  fpregsSize : Nat

/-- An access to `len` bytes of a buffer that holds `size`. -/
structure Access where
  size : Nat
  start : Nat
  len : Nat
  deriving DecidableEq

def Access.Inside (a : Access) : Prop := a.len = 0 ∨ a.start + a.len ≤ a.size
  deriving Decidable

abbrev Memory := Nat → UInt8

def wordAt (mem : Memory) (i n : Nat) : Nat :=
  LittleEndian.decode ((List.range n).map fun k => mem (i + k))

/-- `sizeof(ElfW(Nhdr))` -/
def headerSize : Nat := 12

def align4 (n : Nat) : Nat := (n + 3) / 4 * 4

structure Note where
  pos : Nat
  namesz : Nat
  descsz : Nat
  type : Nat
  deriving DecidableEq

def noteAt (mem : Memory) (pos : Nat) : Note :=
  ⟨pos, wordAt mem pos 4, wordAt mem (pos + 4) 4, wordAt mem (pos + 8) 4⟩

def Note.desc (note : Note) : Nat := note.pos + headerSize + align4 note.namesz

def Note.totalRoundedSize (note : Note) : Nat :=
  headerSize + align4 note.namesz + align4 note.descsz

/-- The constructor of `Note` reads the header, the name and the descriptor. -/
def Note.accesses (size : Nat) (note : Note) : List Access :=
  [⟨size, note.pos, headerSize⟩, ⟨size, note.pos + headerSize, note.namesz⟩,
    ⟨size, note.desc, note.descsz⟩]

/-- `data()`: the copy of the descriptor, and whatever lies beyond it. -/
def Note.data (mem : Memory) (beyond : Nat → Memory) (note : Note) : Memory := fun j =>
  if j < note.descsz then mem (note.desc + j) else beyond note.pos j

def Klass.auxSize : Klass → Nat
  | .elf32 => 4
  | .elf64 => 8

abbrev Trace := List Access × List (Nat × Nat)

def readAuxv (w : Nat) (data : Memory) (size : Nat) : (fuel i : Nat) → Option Trace
  | 0, _ => none
  | fuel + 1, i =>
    if i < size then
      let type := wordAt data i w
      if type = 0 then some ([⟨size, i, w⟩], [(0, 0)])
      else
        let read := if i + w < size then [⟨size, i + w, w⟩] else []
        let value := if i + w < size then wordAt data (i + w) w else 0
        match readAuxv w data size fuel (i + w + w) with
        | none => none
        | some (accesses, auxv) => some (⟨size, i, w⟩ :: read ++ accesses, (type, value) :: auxv)
    else some ([], [])

/-- The readers of `read_notes` by the type of the note. An empty descriptor has no
address, for which `read_prstatus` tests. -/
def readNote (plat : Platform) (klass : Klass) (note : Note) (data : Memory) : Option Trace :=
  match note.type with
  | 1 =>
    some (if note.descsz = 0 then [] else [⟨note.descsz, 0, plat.prstatusSize klass⟩], [])
  | 2 =>
    some (if note.descsz ≠ plat.fpregsSize then [] else [⟨note.descsz, 0, plat.fpregsSize⟩], [])
  | 3 => some ([⟨note.descsz, 0, plat.prpsinfoSize klass⟩], [])
  | 6 => readAuxv klass.auxSize data note.descsz (note.descsz + 1) 0
  | _ => some ([], [])

section Loop

variable (plat : Platform) (klass : Klass) (mem : Memory) (beyond : Nat → Memory) (size : Nat)

def readNotes : (fuel pos : Nat) → Option Trace
  | 0, _ => none
  | fuel + 1, pos =>
    if size - pos < headerSize then some ([], [])
    else
      let note := noteAt mem pos
      match readNote plat klass note (note.data mem beyond) with
      | none => none
      | some (accesses, auxv) =>
        if size ≤ pos + note.totalRoundedSize then some (note.accesses size ++ accesses, auxv)
        else
          match readNotes fuel (pos + note.totalRoundedSize) with
          | none => none
          | some (more, auxv') =>
            some (note.accesses size ++ accesses ++ more, auxv ++ auxv')

def StaysInside : Prop :=
  ∃ trace, (∀ fuel, size < fuel → readNotes plat klass mem beyond size fuel 0 = some trace) ∧
    ∀ a ∈ trace.1, a.Inside

inductive Reached : Nat → Nat → Prop
  | here (pos : Nat) : Reached pos pos
  | later {pos q : Nat} (header : pos + headerSize ≤ size)
    (rest : pos + (noteAt mem pos).totalRoundedSize < size)
    (reached : Reached (pos + (noteAt mem pos).totalRoundedSize) q) : Reached pos q

def AuxvInside (w : Nat) (data : Memory) (size : Nat) : Prop :=
  w ∣ size ∨ ∃ k, 2 * w * k + w ≤ size ∧ wordAt data (2 * w * k) w = 0

/-- Name and descriptor are in the buffer, and the descriptor is as large as its reader
takes it to be. -/
structure NoteInside (note : Note) : Prop where
  name : note.namesz = 0 ∨ note.pos + headerSize + note.namesz ≤ size
  desc : note.descsz = 0 ∨ note.desc + note.descsz ≤ size
  prstatus : note.type = 1 → note.descsz = 0 ∨ plat.prstatusSize klass ≤ note.descsz
  prpsinfo : note.type = 3 → plat.prpsinfoSize klass ≤ note.descsz
  auxv : note.type = 6 → AuxvInside klass.auxSize (note.data mem beyond) note.descsz

end Loop

section Auxv

variable {w size m : Nat}

/-- From the element `m` on the vector is over, or whole, or has an end mark. -/
def WholeFrom (ends : Nat → Prop) (w size m : Nat) : Prop :=
  size ≤ 2 * w * m ∨ w ∣ size ∨ ∃ k, m ≤ k ∧ 2 * w * k + w ≤ size ∧ ends k

theorem wholeFrom_of_end {ends : Nat → Prop} (hw : w = 4 ∨ w = 8) (hlt : 2 * w * m < size)
    (hend : ends m) : WholeFrom ends w size m ↔ 2 * w * m + w ≤ size := by
  constructor
  · intro h
    rcases h with h | h | ⟨k, hk, hle, -⟩
    · omega
    · rcases hw with rfl | rfl <;> omega
    · rcases hw with rfl | rfl <;> omega
  · intro h
    exact Or.inr (Or.inr ⟨m, Nat.le_refl m, h, hend⟩)

theorem wholeFrom_of_not_end {ends : Nat → Prop} (hw : w = 4 ∨ w = 8) (hlt : 2 * w * m < size)
    (hend : ¬ends m) : WholeFrom ends w size m ↔
      2 * w * m + w ≤ size ∧ (2 * w * m + w < size → 2 * w * m + w + w ≤ size) ∧
        WholeFrom ends w size (m + 1) := by
  constructor
  · intro h
    rcases h with h | h | ⟨k, hk, hle, hmark⟩
    · omega
    · refine ⟨?_, ?_, Or.inr (Or.inl h)⟩
      · rcases hw with rfl | rfl <;> omega
      · rcases hw with rfl | rfl <;> omega
    · have hne : k ≠ m := fun heq => hend (heq ▸ hmark)
      refine ⟨?_, ?_, Or.inr (Or.inr ⟨k, by omega, hle, hmark⟩)⟩
      · rcases hw with rfl | rfl <;> omega
      · rcases hw with rfl | rfl <;> omega
  · intro h
    obtain ⟨htype, hvalue, h | h | ⟨k, hk, hle, hmark⟩⟩ := h
    · -- the last element is read to its end, or has no value
      refine Or.inr (Or.inl ?_)
      rcases hw with rfl | rfl <;> omega
    · exact Or.inr (Or.inl h)
    · exact Or.inr (Or.inr ⟨k, by omega, hle, hmark⟩)

theorem readAuxv_inside (hw : w = 4 ∨ w = 8) (data : Memory) (size fuel m : Nat)
    (hfuel : size - 2 * w * m < fuel) :
    ∃ trace, readAuxv w data size fuel (2 * w * m) = some trace ∧
      ((∀ a ∈ trace.1, a.Inside) ↔
        WholeFrom (fun k => wordAt data (2 * w * k) w = 0) w size m) := by
  induction fuel generalizing m with
  | zero => omega
  | succ fuel ih =>
    have hpos : w ≠ 0 := by omega
    unfold readAuxv
    by_cases hlt : 2 * w * m < size
    · rw [if_pos hlt]
      by_cases hend : wordAt data (2 * w * m) w = 0
      · rw [if_pos hend]
        refine ⟨_, rfl, ?_⟩
        rw [wholeFrom_of_end hw hlt hend]
        simp [Access.Inside, hpos]
      · rw [if_neg hend]
        have hnext : 2 * w * m + w + w = 2 * w * (m + 1) := by
          rw [Nat.mul_add]
          omega
        obtain ⟨trace, htrace, hinside⟩ := ih (m + 1) (by omega)
        rw [hnext, htrace]
        refine ⟨_, rfl, ?_⟩
        rw [wholeFrom_of_not_end hw hlt hend, ← hinside]
        by_cases hvalue : 2 * w * m + w < size
        · simp [Access.Inside, hpos, hvalue]
        · simp [Access.Inside, hpos, hvalue]
    · rw [if_neg hlt]
      exact ⟨_, rfl, iff_of_true nofun (Or.inl (by omega))⟩

end Auxv

section Notes

variable {plat : Platform} {klass : Klass} {mem : Memory} {beyond : Nat → Memory} {size : Nat}

theorem wholeFrom_zero_iff (data : Memory) (w size : Nat) :
    WholeFrom (fun k => wordAt data (2 * w * k) w = 0) w size 0 ↔ AuxvInside w data size := by
  constructor
  · intro h
    rcases h with h | h | ⟨k, -, h⟩
    · have h0 : size = 0 := by omega
      exact Or.inl (h0 ▸ Nat.dvd_zero w)
    · exact Or.inl h
    · exact Or.inr ⟨k, h⟩
  · intro h
    rcases h with h | ⟨k, h⟩
    · exact Or.inr (Or.inl h)
    · exact Or.inr (Or.inr ⟨k, Nat.zero_le k, h⟩)

def DescInside (plat : Platform) (klass : Klass) (note : Note) (data : Memory) : Prop :=
  (note.type = 1 → note.descsz = 0 ∨ plat.prstatusSize klass ≤ note.descsz) ∧
  (note.type = 3 → plat.prpsinfoSize klass ≤ note.descsz) ∧
  (note.type = 6 → AuxvInside klass.auxSize data note.descsz)

theorem inside_desc_iff (descsz len : Nat) : (⟨descsz, 0, len⟩ : Access).Inside ↔ len ≤ descsz := by
  show len = 0 ∨ 0 + len ≤ descsz ↔ _
  omega

theorem readNote_inside (plat : Platform) (klass : Klass) (note : Note) (data : Memory) :
    ∃ trace, readNote plat klass note data = some trace ∧
      ((∀ a ∈ trace.1, a.Inside) ↔ DescInside plat klass note data) := by
  have hw : klass.auxSize = 4 ∨ klass.auxSize = 8 := by cases klass <;> simp [Klass.auxSize]
  unfold readNote DescInside
  split
  · next htype =>
    refine ⟨_, rfl, ?_⟩
    by_cases h0 : note.descsz = 0
    · simp [htype, h0]
    · simp [htype, h0, inside_desc_iff]
  · next htype =>
    refine ⟨_, rfl, ?_⟩
    by_cases h : note.descsz = plat.fpregsSize
    · simp [htype, h, inside_desc_iff]
    · simp [htype, h]
  · next htype =>
    refine ⟨_, rfl, ?_⟩
    simp [htype, inside_desc_iff]
  · next htype =>
    obtain ⟨trace, htrace, hinside⟩ := readAuxv_inside hw data note.descsz (note.descsz + 1) 0
      (by omega)
    refine ⟨trace, htrace, hinside.trans ?_⟩
    rw [wholeFrom_zero_iff]
    simp [htype]
  · next h1 _ h3 h6 =>
    exact ⟨_, rfl, iff_of_true nofun
      ⟨fun h => absurd h h1, fun h => absurd h h3, fun h => absurd h h6⟩⟩

theorem accesses_inside (note : Note) (hheader : note.pos + headerSize ≤ size) :
    (∀ a ∈ note.accesses size, a.Inside) ↔
      (note.namesz = 0 ∨ note.pos + headerSize + note.namesz ≤ size) ∧
      (note.descsz = 0 ∨ note.desc + note.descsz ≤ size) := by
  simp [Note.accesses, Access.Inside, hheader]

theorem noteInside_iff (note : Note) :
    NoteInside plat klass mem beyond size note ↔
      ((note.namesz = 0 ∨ note.pos + headerSize + note.namesz ≤ size) ∧
        (note.descsz = 0 ∨ note.desc + note.descsz ≤ size)) ∧
      DescInside plat klass note (note.data mem beyond) :=
  ⟨fun h => ⟨⟨h.name, h.desc⟩, h.prstatus, h.prpsinfo, h.auxv⟩,
    fun h => ⟨h.1.1, h.1.2, h.2.1, h.2.2.1, h.2.2.2⟩⟩

def InsideFrom (plat : Platform) (klass : Klass) (mem : Memory) (beyond : Nat → Memory)
    (size pos : Nat) : Prop :=
  ∀ q, Reached mem size pos q → q + headerSize ≤ size →
    NoteInside plat klass mem beyond size (noteAt mem q)

theorem insideFrom_of_end {pos : Nat} (h : size - pos < headerSize) :
    InsideFrom plat klass mem beyond size pos := by
  intro q hq hheader
  cases hq with
  | here => omega
  | later hhead => omega

theorem insideFrom_iff {pos : Nat} (h : pos + headerSize ≤ size) :
    InsideFrom plat klass mem beyond size pos ↔
      NoteInside plat klass mem beyond size (noteAt mem pos) ∧
      (pos + (noteAt mem pos).totalRoundedSize < size →
        InsideFrom plat klass mem beyond size (pos + (noteAt mem pos).totalRoundedSize)) := by
  constructor
  · intro hall
    exact ⟨hall pos (.here pos) h, fun hrest q hq => hall q (.later h hrest hq)⟩
  · intro hall q hq hheader
    cases hq with
    | here => exact hall.1
    | later _ hrest hreached => exact hall.2 hrest q hreached hheader

theorem readNotes_inside (plat : Platform) (klass : Klass) (mem : Memory)
    (beyond : Nat → Memory) (size pos : Nat) :
    ∃ trace, (∀ fuel, size - pos < fuel →
        readNotes plat klass mem beyond size fuel pos = some trace) ∧
      ((∀ a ∈ trace.1, a.Inside) ↔ InsideFrom plat klass mem beyond size pos) := by
  induction hd : size - pos using Nat.strongRecOn generalizing pos with
  | ind d ih =>
    by_cases hend : size - pos < headerSize
    · refine ⟨([], []), fun fuel hfuel => ?_, iff_of_true nofun (insideFrom_of_end hend)⟩
      obtain ⟨fuel, rfl⟩ : ∃ f, fuel = f + 1 := ⟨fuel - 1, by omega⟩
      rw [readNotes, if_pos hend]
    · have hheader : pos + headerSize ≤ size := by
        have h12 : headerSize = 12 := rfl
        omega
      have hforward : headerSize ≤ (noteAt mem pos).totalRoundedSize := by
        unfold Note.totalRoundedSize
        omega
      obtain ⟨⟨accesses, auxv⟩, hread, hdesc⟩ :=
        readNote_inside plat klass (noteAt mem pos) ((noteAt mem pos).data mem beyond)
      have hnote : (∀ a ∈ (noteAt mem pos).accesses size ++ accesses, a.Inside) ↔
          NoteInside plat klass mem beyond size (noteAt mem pos) := by
        rw [noteInside_iff, List.forall_mem_append, accesses_inside _ hheader, hdesc]
      rw [insideFrom_iff hheader]
      by_cases hlast : size ≤ pos + (noteAt mem pos).totalRoundedSize
      · refine ⟨((noteAt mem pos).accesses size ++ accesses, auxv), fun fuel hfuel => ?_, ?_⟩
        · obtain ⟨fuel, rfl⟩ : ∃ f, fuel = f + 1 := ⟨fuel - 1, by omega⟩
          simp only [readNotes, if_neg hend, hread, if_pos hlast]
        · rw [hnote]
          exact ⟨fun h => ⟨h, fun hlt => absurd hlt (by omega)⟩, fun h => h.1⟩
      · have h12 : headerSize = 12 := rfl
        obtain ⟨⟨more, auxv'⟩, hrest, hinside⟩ := ih _ (by omega)
          (pos + (noteAt mem pos).totalRoundedSize) rfl
        refine ⟨((noteAt mem pos).accesses size ++ accesses ++ more, auxv ++ auxv'),
          fun fuel hfuel => ?_, ?_⟩
        · obtain ⟨fuel, rfl⟩ : ∃ f, fuel = f + 1 := ⟨fuel - 1, by omega⟩
          simp only [readNotes, if_neg hend, hread, if_neg hlast, hrest fuel (by omega)]
        · rw [List.forall_mem_append, hnote, hinside]
          exact ⟨fun h => ⟨h.1, fun _ => h.2⟩, fun h => ⟨h.1, h.2 (by omega)⟩⟩

end Notes

def linux64 : Platform := ⟨fun _ => 336, fun _ => 136, 512⟩

def longName : Memory := fun i => if i = 0 then 100 else 0

end ZeroBugs.Elfz
