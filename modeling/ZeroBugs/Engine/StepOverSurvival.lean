import ZeroBugs.Engine.StepOver
import ZeroBugs.Lib.Runs

/-! # Step-over preferences survive a restart -/
namespace ZeroBugs.Engine.StepOver
open Lib Lib.NumberText Lib.Runs List

/-- A file with a whole-file entry has no other, nothing is there twice, and every path
has a name. -/
structure StepOverManager.Sound (m : StepOverManager) : Prop where
  whole : ∀ file, (file, 0) ∈ m.stepOverMap.entries →
    ∀ line, (file, line) ∈ m.stepOverMap.entries → line = 0
  nodup : m.stepOverMap.entries.Nodup
  dirsNodup : m.stepOverDirSet.Nodup
  named : ∀ e ∈ m.stepOverMap.entries, e.1 ≠ [] ∧ e.2 < 2 ^ 32
  dirsNamed : ∀ dir ∈ m.stepOverDirSet, dir ≠ []

def Whole (entries : List (Text × Nat)) : Prop :=
  ∀ file, (file, 0) ∈ entries → ∀ line, (file, line) ∈ entries → line = 0

structure Fits (entries : List (Text × Nat)) (file : Text) (line : Nat) : Prop where
  new : (file, line) ∉ entries
  whole : ∀ n, (file, n) ∈ entries → n ≠ 0 ∧ line ≠ 0

section Fits

variable {entries l : List (Text × Nat)} {file : Text} {line : Nat}

theorem Fits.of_perm (hperm : l.Perm ((file, line) :: entries)) (hnodup : l.Nodup)
    (hwhole : Whole l) : Fits entries file line := by
  have hnew := (nodup_cons.mp (hperm.nodup_iff.mp hnodup)).1
  have hmem : (file, line) ∈ l := hperm.mem_iff.mpr mem_cons_self
  refine ⟨hnew, fun n hn => ?_⟩
  have hmem' : (file, n) ∈ l := hperm.mem_iff.mpr (mem_cons_of_mem _ hn)
  -- if one of the two is for the whole file, they are the same
  constructor
  · rintro rfl
    obtain rfl := hwhole file hmem' line hmem
    exact hnew hn
  · rintro rfl
    obtain rfl := hwhole file hmem n hmem'
    exact hnew hn

theorem Fits.whole_perm (h : Fits entries file line) (hwhole : Whole entries)
    (hperm : l.Perm ((file, line) :: entries)) : Whole l := by
  intro f hzero n hn
  rw [hperm.mem_iff, mem_cons] at hzero hn
  rcases hzero with heq | hzero
  · obtain ⟨rfl, rfl⟩ := Prod.mk.inj heq
    rcases hn with heq | hn
    · exact (Prod.mk.inj heq).2
    · exact absurd rfl (h.whole n hn).2
  · rcases hn with heq | hn
    · obtain ⟨rfl, -⟩ := Prod.mk.inj heq
      exact absurd rfl (h.whole 0 hzero).1
    · exact hwhole f hzero n hn

end Fits

variable {dirs : List Text}

theorem mem_insertDir {dir other : Text} :
    other ∈ insertDir dir dirs ↔ other = dir ∨ other ∈ dirs := by
  unfold insertDir
  split
  · rename_i h
    constructor
    · exact .inr
    · rintro (rfl | hother)
      · exact h
      · exact hother
  · simp

theorem nodup_insertDir (h : dirs.Nodup) (dir : Text) :
    (insertDir dir dirs).Nodup := by
  unfold insertDir
  split
  · exact h
  · rename_i hnew
    exact (perm_orderedInsert _ _ _).nodup_iff.mpr (nodup_cons.mpr ⟨hnew, h⟩)

theorem addEntry_dir (reading : Bool) (file : Text) (m : StepOverManager) :
    m.addEntry reading file (-1) = (true, { m with
      stepOverDirSet := insertDir (if reading then file else dirname file) m.stepOverDirSet }) :=
  rfl

variable {reading : Bool} {line : Int}

theorem addEntry_dirSet {file : Text} {m : StepOverManager}
    (h : line ≠ -1) : (m.addEntry reading file line).2.stepOverDirSet = m.stepOverDirSet := by
  simp only [StepOverManager.addEntry, h, if_false]
  split <;> split <;> rfl

theorem addEntry_whole (reading : Bool) (file : Text) (m : StepOverManager) :
    m.addEntry reading file 0 = (true, { m with
      stepOverMap := (m.stepOverMap.filter (·.1 ≠ file)).insert file 0 }) := by
  have hgroup : (m.stepOverMap.filter (·.1 ≠ file)).group file = [] := by
    simp [MultiMap.group, MultiMap.filter, filter_filter]
  have hne : (0 : Int) ≠ -1 := by decide
  simp only [StepOverManager.addEntry, hne, if_false, if_true, hgroup, not_mem_nil,
    false_and, exists_false]
  rfl

def StepOverManager.Covers (m : StepOverManager) (file : Text) (line : Int) : Prop :=
  ∃ second, (file, second) ∈ m.stepOverMap.entries ∧ (second = 0 ∨ (second : Int) = line)

theorem addEntry_line {file : Text} (hline : 0 < line) {m : StepOverManager}
    [Decidable (m.Covers file line)] :
    m.addEntry reading file line = if m.Covers file line then (false, m) else
      (true, { m with stepOverMap := m.stepOverMap.insert file (toUnsigned line) }) := by
  have hne : line ≠ -1 := by omega
  have hzero : line ≠ 0 := by omega
  have hgroup : (∃ second ∈ m.stepOverMap.group file, second = 0 ∨ (second : Int) = line) ↔
      m.Covers file line := by simp [MultiMap.mem_group, StepOverManager.Covers]
  simp only [StepOverManager.addEntry, hne, hzero, if_false, hgroup]

theorem toUnsigned_of_lt {n : Nat} (h : n < 2 ^ 32) : toUnsigned n = n := by
  unfold toUnsigned
  omega

def readBack (e : Text × Int) (m : StepOverManager) : StepOverManager :=
  if e.1 = [] then m else (m.addEntry true e.1 (max (min e.2 (2 ^ 63 - 1)) (-2 ^ 63))).2

variable {p : Properties} {count : Nat}

theorem restoreEntry_eq {e : Text × Int}
    (h : p.stringMap.lookup (propertyName count) = some (entryText e)) (m : StepOverManager) :
    restoreEntry p count m = some (readBack e m) := by
  obtain ⟨hnumber, hpath⟩ := scan_entryText e
  have hval : p.getString (propertyName count) [] = entryText e := by
    rw [Properties.getString, h, Option.getD_some]
  simp only [restoreEntry, hval, hpath, hnumber, readBack]

theorem restoreLoop_eq {entries : List (Text × Int)}
    (h : ∀ i, p.stringMap.lookup (propertyName (i + 1)) = (entries.map entryText)[i]?)
    {n : Nat} (hn : n ≤ entries.length) (m : StepOverManager) :
    restoreLoop p n m = some ((entries.take n).foldr readBack m) := by
  induction n generalizing m with
  | zero => rfl
  | succ n ih =>
    have hlt : n < entries.length := hn
    have hlookup : p.stringMap.lookup (propertyName (n + 1)) = some (entryText entries[n]) := by
      rw [h n]
      simp [hlt]
    rw [restoreLoop, restoreEntry_eq hlookup, Option.bind_some, ih (Nat.le_of_lt hlt),
      take_succ_eq_append_getElem hlt, foldr_append]
    rfl

theorem restore_written {m : StepOverManager} (h : Written p m.texts)
    (start : StepOverManager) :
    ∃ p', restoreFromProperties (start, p) = some (m.enumStepOver.foldr readBack start, p') := by
  have hloop := restoreLoop_eq (p := p.setWord countName 0) h.value le_rfl start
  rw [take_length] at hloop
  have hcount : p.getWord countName 0 = m.enumStepOver.length := by
    rw [h.count, StepOverManager.texts, length_map]
  exact ⟨_, by rw [restoreFromProperties, hcount, hloop]; rfl⟩

theorem readBack_dirs (hnamed : ∀ dir ∈ dirs, dir ≠ []) (m : StepOverManager) :
    (dirs.foldr (fun dir => readBack (dir, -1)) m).stepOverMap = m.stepOverMap ∧
      ∀ dir, dir ∈ (dirs.foldr (fun dir => readBack (dir, -1)) m).stepOverDirSet ↔
        dir ∈ dirs ∨ dir ∈ m.stepOverDirSet := by
  induction dirs with
  | nil => simp
  | cons d dirs ih =>
    obtain ⟨hd, hrest⟩ := forall_mem_cons.mp hnamed
    obtain ⟨hmap, hdirs⟩ := ih hrest
    rw [foldr_cons, readBack, if_neg hd,
      show max (min (-1 : Int) (2 ^ 63 - 1)) (-2 ^ 63) = -1 by decide, addEntry_dir]
    refine ⟨hmap, fun dir => ?_⟩
    rw [if_pos rfl, mem_insertDir, hdirs, mem_cons, or_assoc]

theorem readBack_entry {file : Text} {line : Nat} {m : StepOverManager} (hname : file ≠ [])
    (hline : line < 2 ^ 32) (hfits : Fits m.stepOverMap.entries file line) :
    (readBack (file, line) m).stepOverDirSet = m.stepOverDirSet ∧
      ∀ x, x ∈ (readBack (file, line) m).stepOverMap.entries ↔
        x = (file, line) ∨ x ∈ m.stepOverMap.entries := by
  classical
  have hclamp : max (min (line : Int) (2 ^ 63 - 1)) (-2 ^ 63) = line := by omega
  rw [readBack, if_neg hname, hclamp]
  by_cases hzero : line = 0
  · subst hzero
    rw [show ((0 : Nat) : Int) = 0 from rfl, addEntry_whole]
    refine ⟨rfl, fun x => ?_⟩
    have hother : ∀ x ∈ m.stepOverMap.entries, x.1 ≠ file := fun x hx hfile =>
      (hfits.whole x.2 (hfile ▸ hx)).2 rfl
    have hkept : m.stepOverMap.entries.filter (·.1 ≠ file) = m.stepOverMap.entries :=
      filter_eq_self.mpr fun x hx => by simpa using hother x hx
    rw [MultiMap.mem_insert]
    simp only [MultiMap.filter, hkept]
  · have hpos : (0 : Int) < line := by omega
    have hnew : ¬m.Covers file line := by
      rintro ⟨second, hmem, hsecond | hsecond⟩
      · exact (hfits.whole second hmem).1 hsecond
      · exact hfits.new (Int.ofNat_inj.mp hsecond ▸ hmem)
    rw [addEntry_line hpos, if_neg hnew, toUnsigned_of_lt hline]
    exact ⟨rfl, fun x => MultiMap.mem_insert⟩

theorem readBack_entries {entries : List (Text × Nat)} (hwhole : Whole entries)
    (hnodup : entries.Nodup) (hnamed : ∀ e ∈ entries, e.1 ≠ [] ∧ e.2 < 2 ^ 32)
    {m : StepOverManager} (hempty : m.stepOverMap.entries = []) :
    (entries.foldr (fun e => readBack (e.1, e.2)) m).stepOverDirSet = m.stepOverDirSet ∧
      ∀ x, x ∈ (entries.foldr (fun e => readBack (e.1, e.2)) m).stepOverMap.entries ↔
        x ∈ entries := by
  induction entries with
  | nil => simp [hempty]
  | cons e entries ih =>
    obtain ⟨hname, hnamed⟩ := forall_mem_cons.mp hnamed
    obtain ⟨hdirs, hentries⟩ := ih
      (fun file hfile line hline =>
        hwhole file (mem_cons_of_mem _ hfile) line (mem_cons_of_mem _ hline))
      hnodup.of_cons hnamed
    have hfits := Fits.of_perm (List.Perm.refl _) hnodup hwhole
    obtain ⟨hstep, hmem⟩ := readBack_entry
      (m := entries.foldr (fun e => readBack (e.1, e.2)) m) hname.1 hname.2
      ⟨by rw [hentries]; exact hfits.new, fun n hn => hfits.whole n ((hentries _).mp hn)⟩
    refine ⟨hstep.trans hdirs, fun x => ?_⟩
    rw [foldr_cons, hmem, hentries, mem_cons]

inductive Op where
  | add (file : Text) (line : Int)
  | remove (file : Option Text) (line : Int)

abbrev State := StepOverManager × Properties

def step (s : State) : Op → State
  | .add file line => addStepOver (some file) line s
  | .remove file line => removeStepOver file line s

def start : State := (.empty, .empty)

structure Survives (s : State) : Prop where
  whole : ∀ file, (file, 0) ∈ s.1.stepOverMap.entries →
    ∀ line, (file, line) ∈ s.1.stepOverMap.entries → line = 0
  nodup : s.1.stepOverMap.entries.Nodup
  dirsNodup : s.1.stepOverDirSet.Nodup
  keys : ∀ key, key ∈ s.2.stringMap ↔
    ∃ n, 1 ≤ n ∧ n ≤ s.1.stepOverMap.entries.length + s.1.stepOverDirSet.length ∧
      key = propertyName n
  restored : ∃ s', restoreFromProperties (.empty, s.2) = some s' ∧
    (∀ e, e ∈ s'.1.stepOverMap.entries ↔ e ∈ s.1.stepOverMap.entries) ∧
    ∀ dir, dir ∈ s'.1.stepOverDirSet ↔ dir ∈ s.1.stepOverDirSet

def Op.Allowed : State → Op → Prop
  | _, .add file line => file ≠ [] ∧ -1 ≤ line
  | _, .remove _ _ => True

def InRoot (file : Text) : Prop := ∃ name, file = '/' :: name ∧ '/' ∉ name

/-- A directory is not that of a file in the root, and a line from 2^32 on is covered by the whole
file, or new when cut to 32 bits; if nothing is left of it, the file has no entry. -/
def Op.Distinct : State → Op → Prop
  | s, .add file line => (line = -1 → ¬InRoot file) ∧
    (2 ^ 32 ≤ line → (file, 0) ∈ s.1.stepOverMap.entries ∨
      (file, (line % 2 ^ 32).toNat) ∉ s.1.stepOverMap.entries ∧
        (line % 2 ^ 32 = 0 → ∀ n, (file, n) ∉ s.1.stepOverMap.entries))
  | _, .remove _ _ => True

structure Saved (s : State) : Prop where
  sound : s.1.Sound
  written : Written s.2 s.1.texts

theorem saved_start : Saved start where
  sound := ⟨nofun, nodup_nil, nodup_nil, nofun, nofun⟩
  written := written_empty

theorem length_texts (m : StepOverManager) :
    m.texts.length = m.stepOverMap.entries.length + m.stepOverDirSet.length := by
  simp [StepOverManager.texts, StepOverManager.enumStepOver]

theorem Saved.survives {s : State} (h : Saved s) : Survives s where
  whole := h.sound.whole
  nodup := h.sound.nodup
  dirsNodup := h.sound.dirsNodup
  keys key := by rw [h.written.mem_iff, length_texts]
  restored := by
    obtain ⟨p', hrestore⟩ := restore_written h.written .empty
    refine ⟨_, hrestore, ?_⟩
    obtain ⟨hmap, hdirs⟩ := readBack_dirs h.sound.dirsNamed .empty
    obtain ⟨hsame, hentries⟩ := readBack_entries h.sound.whole h.sound.nodup h.sound.named
      (m := s.1.stepOverDirSet.foldr (fun dir => readBack (dir, -1)) .empty) (by rw [hmap]; rfl)
    rw [StepOverManager.enumStepOver, foldr_append, foldr_map, foldr_map]
    refine ⟨hentries, fun dir => ?_⟩
    rw [hsame, hdirs]
    simp [StepOverManager.empty]

theorem addEntry_fst {file : Text} {m : StepOverManager}
    (h : (m.addEntry reading file line).1 = false) : (m.addEntry reading file line).2 = m := by
  by_cases hdir : line = -1
  · subst hdir
    cases h
  · by_cases hzero : line = 0
    · subst hzero
      rw [addEntry_whole] at h
      cases h
    · simp only [StepOverManager.addEntry, hdir, hzero, if_false] at h ⊢
      split at h
      · rename_i hcovered
        rw [if_pos hcovered]
      · cases h

theorem written_step {s : State} (h : Written s.2 s.1.texts) (op : Op) :
    Written (step s op).2 (step s op).1.texts := by
  cases op with
  | add file line =>
    simp only [step, addStepOver]
    split
    · exact h.update _
    · rename_i hsame
      rw [addEntry_fst (by simpa using hsame)]
      exact h
  | remove file line => exact h.update _

section Sound

variable {m : StepOverManager}

theorem StepOverManager.Sound.filter (h : m.Sound) (p : Text × Nat → Bool) :
    StepOverManager.Sound { m with stepOverMap := m.stepOverMap.filter p } where
  whole file hfile line hline := h.whole file (mem_of_mem_filter hfile) line
    (mem_of_mem_filter hline)
  nodup := h.nodup.filter p
  dirsNodup := h.dirsNodup
  named e he := h.named e (mem_of_mem_filter he)
  dirsNamed := h.dirsNamed

theorem StepOverManager.Sound.insert (h : m.Sound) {file : Text} {line : Nat}
    (hname : file ≠ []) (hline : line < 2 ^ 32) (hfits : Fits m.stepOverMap.entries file line) :
    StepOverManager.Sound { m with stepOverMap := m.stepOverMap.insert file line } where
  whole := hfits.whole_perm h.whole (MultiMap.insert_perm _ _ _)
  nodup := (MultiMap.insert_perm _ _ _).nodup_iff.mpr (nodup_cons.mpr ⟨hfits.new, h.nodup⟩)
  dirsNodup := h.dirsNodup
  named e he := by
    rcases MultiMap.mem_insert.mp he with rfl | he
    · exact ⟨hname, hline⟩
    · exact h.named e he
  dirsNamed := h.dirsNamed

theorem StepOverManager.Sound.removeEntry (h : m.Sound) (file : Option Text) (line : Int) :
    (m.removeEntry file line).Sound := by
  unfold StepOverManager.removeEntry
  split
  · exact saved_start.sound
  · split
    · exact h.filter _
    · split
      · exact { h with
          dirsNodup := h.dirsNodup.erase _
          dirsNamed := fun dir hdir => h.dirsNamed dir (mem_of_mem_erase hdir) }
      · exact h.filter _

end Sound

theorem dirname_eq_nil_iff (file : Text) : dirname file = [] ↔ InRoot file := by
  have hsplit := takeWhile_append_dropWhile (p := fun c : Char => decide (c ≠ '/'))
    (l := file.reverse)
  have hfront : '/' ∉ file.reverse.takeWhile (fun c => decide (c ≠ '/')) := by
    intro hmem
    simpa using mem_takeWhile_imp hmem
  unfold dirname
  cases hdrop : file.reverse.dropWhile (fun c => decide (c ≠ '/')) with
  | nil =>
    refine iff_of_false (by decide) ?_
    rintro ⟨name, rfl, -⟩
    rw [hdrop, append_nil] at hsplit
    rw [hsplit] at hfront
    exact hfront (by simp)
  | cons c front =>
    have hslash : c = '/' := by
      have hhead := head?_dropWhile_not (fun c : Char => decide (c ≠ '/')) file.reverse
      rw [hdrop] at hhead
      simpa using hhead
    subst hslash
    have hfile : file = front.reverse ++
        '/' :: (file.reverse.takeWhile fun c => decide (c ≠ '/')).reverse := by
      rw [hdrop] at hsplit
      have := congrArg List.reverse hsplit
      simpa using this.symm
    simp only [reverse_eq_nil_iff]
    constructor
    · rintro rfl
      exact ⟨_, hfile, by simpa using hfront⟩
    · rintro ⟨name, hname, hslash⟩
      rw [hfile] at hname
      cases hrev : front.reverse with
      | nil => simpa using hrev
      | cons d rest =>
        rw [hrev, cons_append] at hname
        obtain ⟨-, rfl⟩ := List.cons.inj hname
        exact absurd (by simp) hslash

theorem restoreEntry_named {m m' : StepOverManager}
    (h : restoreEntry p count m = some m') (hnamed : [] ∉ m.stepOverDirSet) :
    [] ∉ m'.stepOverDirSet := by
  simp only [restoreEntry] at h
  split at h
  · cases h
  · cases h
    split
    · exact hnamed
    · rename_i hpath
      by_cases hdir : strtoll (p.getString (propertyName count) []) = -1
      · rw [hdir, addEntry_dir]
        simp only [if_true, mem_insertDir, not_or]
        exact ⟨Ne.symm hpath, hnamed⟩
      · rwa [addEntry_dirSet hdir]

theorem restoreLoop_named {m m' : StepOverManager}
    (h : restoreLoop p count m = some m') (hnamed : [] ∉ m.stepOverDirSet) :
    [] ∉ m'.stepOverDirSet := by
  induction count generalizing m with
  | zero =>
    cases h
    exact hnamed
  | succ count ih =>
    obtain ⟨next, hnext, hrest⟩ := Option.bind_eq_some_iff.mp h
    exact ih hrest (restoreEntry_named hnext hnamed)

theorem not_survives_of_unnamed {s : State} (h : [] ∈ s.1.stepOverDirSet) : ¬Survives s := by
  intro hsurvives
  obtain ⟨s', hrestore, -, hdirs⟩ := hsurvives.restored
  obtain ⟨m', hloop, rfl⟩ := Option.map_eq_some_iff.mp hrestore
  exact restoreLoop_named hloop (by simp [StepOverManager.empty]) ((hdirs []).mpr h)

section OneCall

variable {s : State} {file : Text}

theorem Saved.of_sound (h : Saved s) {op : Op} (hsound : (step s op).1.Sound) :
    Saved (step s op) :=
  ⟨hsound, written_step h.written op⟩

/-- The call keeps the entries safe exactly if `c`. -/
structure Turns (s : State) (op : Op) (c : Prop) : Prop where
  only : Survives (step s op) → c
  saved : c → Saved (step s op)

theorem Turns.of_saved {op : Op} {c : Prop} (h : Saved (step s op)) (hc : c) : Turns s op c :=
  ⟨fun _ => hc, fun _ => h⟩

theorem Saved.add_dir (h : Saved s) (file : Text) : Turns s (.add file (-1)) (¬InRoot file) := by
  rw [← dirname_eq_nil_iff]
  constructor
  · intro hsurvives hroot
    exact not_survives_of_unnamed (mem_insertDir.mpr (.inl hroot.symm)) hsurvives
  · intro hroot
    refine h.of_sound { h.sound with
      dirsNodup := nodup_insertDir h.sound.dirsNodup _
      dirsNamed := fun dir hdir => ?_ }
    rcases mem_insertDir.mp hdir with rfl | hdir
    · exact hroot
    · exact h.sound.dirsNamed dir hdir

theorem Saved.add_whole (h : Saved s) (hname : file ≠ []) : Saved (step s (.add file 0)) := by
  apply h.of_sound
  have hstep : (step s (.add file 0)).1 = (s.1.addEntry false file 0).2 := rfl
  have hnone : ∀ n, (file, n) ∉ (s.1.stepOverMap.filter (·.1 ≠ file)).entries := by
    intro n hn
    simpa using of_mem_filter hn
  rw [hstep, addEntry_whole]
  exact (h.sound.filter _).insert hname (by decide) ⟨hnone 0, fun n hn => absurd hn (hnone n)⟩

open Classical in
theorem step_add_line (hline : 0 < line) :
    (step s (.add file line)).1 = if s.1.Covers file line then s.1 else
      { s.1 with stepOverMap := s.1.stepOverMap.insert file (toUnsigned line) } := by
  rw [show (step s (.add file line)).1 = (s.1.addEntry false file line).2 from rfl,
    addEntry_line hline, apply_ite Prod.snd]

theorem Saved.add_covered (h : Saved s) (hline : 0 < line) (hcovered : s.1.Covers file line) :
    Saved (step s (.add file line)) := by
  apply h.of_sound
  rw [step_add_line hline, if_pos hcovered]
  exact h.sound

theorem Saved.add_line (h : Saved s) (hname : file ≠ []) (hline : 0 < line)
    (hnew : ¬s.1.Covers file line) :
    Turns s (.add file line) (Fits s.1.stepOverMap.entries file (toUnsigned line)) := by
  have hstep : (step s (.add file line)).1 = _ := step_add_line hline
  rw [if_neg hnew] at hstep
  constructor
  · intro hsurvives
    have hnodup := hsurvives.nodup
    have hwhole := hsurvives.whole
    rw [hstep] at hnodup hwhole
    exact .of_perm (MultiMap.insert_perm _ _ _) hnodup hwhole
  · intro hfits
    apply h.of_sound
    rw [hstep]
    exact h.sound.insert hname (by unfold toUnsigned; omega) hfits

theorem Saved.turns (h : Saved s) {op : Op} (hallowed : op.Allowed s) :
    Turns s op (op.Distinct s) := by
  cases op with
  | remove file line => exact .of_saved (h.of_sound (h.sound.removeEntry file line)) trivial
  | add file line =>
    obtain ⟨hname, hmin⟩ := hallowed
    rcases lt_trichotomy line 0 with hneg | rfl | hpos
    · obtain rfl : line = -1 := by omega
      have hok : Op.Distinct s (.add file (-1)) = ¬InRoot file := by simp [Op.Distinct]
      exact hok ▸ h.add_dir file
    · exact .of_saved (h.add_whole hname) ⟨fun hc => absurd hc (by decide),
        fun hc => absurd hc (by decide)⟩
    · have hdir : line ≠ -1 := by omega
      by_cases hcovered : s.1.Covers file line
      · refine .of_saved (h.add_covered hpos hcovered) ⟨fun hc => absurd hc hdir, fun hbig => ?_⟩
        obtain ⟨second, hmem, rfl | hsecond⟩ := hcovered
        · exact .inl hmem
        · have hlt : second < 2 ^ 32 := (h.sound.named _ hmem).2
          omega
      · have hadd := h.add_line hname hpos hcovered
        have hzero : ∀ n, (file, n) ∈ s.1.stepOverMap.entries → n ≠ 0 := fun n hn hn0 =>
          hcovered ⟨n, hn, .inl hn0⟩
        by_cases hbig : 2 ^ 32 ≤ line
        · have hcut : toUnsigned line = 0 ↔ line % 2 ^ 32 = 0 := by
            unfold toUnsigned
            omega
          refine ⟨fun hsurvives => ⟨fun hc => absurd hc hdir, fun _ => .inr ?_⟩, fun hc => ?_⟩
          · have hfits := hadd.only hsurvives
            exact ⟨hfits.new, fun hc n hn => (hfits.whole n hn).2 (hcut.mpr hc)⟩
          · obtain ⟨hnew, hempty⟩ := (hc.2 hbig).resolve_left fun hmem => hzero 0 hmem rfl
            exact hadd.saved ⟨hnew, fun n hn => ⟨hzero n hn, fun hc => hempty (hcut.mp hc) n hn⟩⟩
        · -- a line of 32 bits is stored as it is
          have hsame : (toUnsigned line : Int) = line := by
            unfold toUnsigned
            omega
          refine .of_saved (hadd.saved ⟨fun hmem => hcovered ⟨_, hmem, .inr hsame⟩, fun n hn => ?_⟩)
            ⟨fun hc => absurd hc hdir, fun hc => absurd hc hbig⟩
          exact ⟨hzero n hn, by omega⟩

theorem Saved.call_iff (h : Saved s) {op : Op} (hallowed : op.Allowed s) :
    (Survives (step s op) ↔ op.Distinct s) ∧ (op.Distinct s → Saved (step s op)) :=
  have hturns := h.turns hallowed
  ⟨⟨hturns.only, fun hc => (hturns.saved hc).survives⟩, hturns.saved⟩

end OneCall

theorem survives_iff {ops : List Op} (hallowed : Along step Op.Allowed start ops) :
    After step Survives start ops ↔ Along step Op.Distinct start ops :=
  along_iff_within Saved (fun _ _ h hc => h.call_iff hc) saved_start hallowed

def threePreferences : List Op :=
  [.add "a.h".toList 7, .add "a.h".toList 0, .add "lib/b.h".toList (-1),
    .remove (some "a.h".toList) 0]

theorem survives_iff_threePreferences :
    After step Survives start threePreferences ↔ Along step Op.Distinct start threePreferences :=
  survives_iff ⟨⟨by decide, by decide⟩, ⟨by decide, by decide⟩, ⟨by decide, by decide⟩, trivial,
    trivial⟩

theorem root_directory_is_lost :
    ¬After step Survives start [.add "/x".toList (-1)] ∧
      ¬After step Survives start [.add "a.h".toList 7, .add "a.h".toList (2 ^ 32 + 7)] := by
  constructor
  · rintro ⟨hsurvives, -⟩
    exact not_survives_of_unnamed (by decide) hsurvives
  · rintro ⟨-, hsurvives, -⟩
    exact absurd hsurvives.nodup (by decide)

end ZeroBugs.Engine.StepOver
