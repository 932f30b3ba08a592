import ZeroBugs.Lib.MultiMap
import ZeroBugs.Lib.NumberText

/-! # What is always stepped over -/
namespace ZeroBugs.Engine.StepOver
open Lib Lib.NumberText List

abbrev Text := List Char

structure Properties where
  wordMap : AList fun _ : Text => Nat
  stringMap : AList fun _ : Text => Text

namespace Properties

def empty : Properties := ⟨∅, ∅⟩

def getWord (p : Properties) (name : Text) (defaultVal : Nat) : Nat :=
  (p.wordMap.lookup name).getD defaultVal

def setWord (p : Properties) (name : Text) (val : Nat) : Properties :=
  { p with wordMap := p.wordMap.insert name val }

def getString (p : Properties) (name defaultVal : Text) : Text :=
  (p.stringMap.lookup name).getD defaultVal

def setString (p : Properties) (name : Text) : Option Text → Properties
  | none => { p with stringMap := p.stringMap.erase name }
  | some value => { p with stringMap := p.stringMap.insert name value }

end Properties

/-- `stepOverMap_` has the lines of each file, as `unsigned int`. -/
structure StepOverManager where
  stepOverMap : MultiMap Text Nat
  stepOverDirSet : List Text

def dirname (path : Text) : Text :=
  match path.reverse.dropWhile (· ≠ '/') with
  | [] => ".".toList
  | _ :: front => front.reverse

def insertDir (dir : Text) (dirs : List Text) : List Text :=
  if dir ∈ dirs then dirs else dirs.orderedInsert (· ≤ ·) dir

def toUnsigned (line : Int) : Nat := (line % 2 ^ 32).toNat

namespace StepOverManager

def empty : StepOverManager := ⟨.empty, []⟩

/-- `add_step_over` up to the update of the properties, which is left out if the entry
is there already. `reading` is `readingProperties_`. -/
def addEntry (reading : Bool) (file : Text) (line : Int) (m : StepOverManager) :
    Bool × StepOverManager :=
  if line = -1 then
    let dir := if reading then file else dirname file
    (true, { m with stepOverDirSet := insertDir dir m.stepOverDirSet })
  else
    let map := if line = 0 then m.stepOverMap.filter (·.1 ≠ file) else m.stepOverMap
    if ∃ second ∈ map.group file, second = 0 ∨ (second : Int) = line then
      (false, { m with stepOverMap := map })
    else (true, { m with stepOverMap := map.insert file (toUnsigned line) })

/-- `remove_step_over` up to the update of the properties. A `line` is compared as
`size_t`. -/
def removeEntry (file : Option Text) (line : Int) (m : StepOverManager) : StepOverManager :=
  match file with
  | none => empty
  | some file =>
    if line = 0 then { m with stepOverMap := m.stepOverMap.filter (·.1 ≠ file) }
    else if line = -1 then { m with stepOverDirSet := m.stepOverDirSet.erase file }
    else { m with stepOverMap := m.stepOverMap.filter fun e =>
      ¬(e.1 = file ∧ (e.2 : Int) = line % 2 ^ 64) }

def enumStepOver (m : StepOverManager) : List (Text × Int) :=
  m.stepOverMap.entries.map (fun e => (e.1, (e.2 : Int))) ++
    m.stepOverDirSet.map (fun dir => (dir, -1))

end StepOverManager

def countName : Text := "step_over".toList

def propertyName (count : Nat) : Text := "step_over_".toList ++ decimal count

def entryText (e : Text × Int) : Text := decimal e.2 ++ '!' :: e.1

def notify (st : Properties × Nat) (e : Text × Int) : Properties × Nat :=
  (st.1.setString (propertyName (st.2 + 1)) (some (entryText e)), st.2 + 1)

def sync (m : StepOverManager) (p : Properties) : Properties :=
  let st := m.enumStepOver.foldl notify (p, 0)
  st.1.setWord countName st.2

/-- The first pass of `update_properties`. -/
def removeAll : Nat → Properties → Properties
  | 0, p => p
  | count + 1, p => removeAll count (p.setString (propertyName (count + 1)) none)

def updateProperties (m : StepOverManager) (p : Properties) : Properties :=
  sync m (removeAll (p.getWord countName 0) p)

def addStepOver (file : Option Text) (line : Int) (s : StepOverManager × Properties) :
    StepOverManager × Properties :=
  match file with
  | none => s
  | some file =>
    let (update, m) := s.1.addEntry false file line
    (m, if update then updateProperties m s.2 else s.2)

def removeStepOver (file : Option Text) (line : Int) (s : StepOverManager × Properties) :
    StepOverManager × Properties :=
  let m := s.1.removeEntry file line
  (m, updateProperties m s.2)

/-- One turn of the loop in `restore_from_properties`. Without a result, the character
behind the number is the NUL, and the one after it is read. -/
def restoreEntry (p : Properties) (count : Nat) (m : StepOverManager) : Option StepOverManager :=
  let val := p.getString (propertyName count) []
  match val.drop (scanNumber val).used with
  | [] => none
  | _ :: path => some (if path = [] then m else (m.addEntry true path (strtoll val)).2)

def restoreLoop (p : Properties) : Nat → StepOverManager → Option StepOverManager
  | 0, m => some m
  | count + 1, m => (restoreEntry p (count + 1) m).bind (restoreLoop p count)

def restoreFromProperties (s : StepOverManager × Properties) :
    Option (StepOverManager × Properties) :=
  let p := s.2.setWord countName 0
  (restoreLoop p (s.2.getWord countName 0) s.1).map fun m => (m, sync m p)

theorem propertyName_injective : Function.Injective propertyName := by
  intro a b h
  exact Int.ofNat_inj.mp (decimal_injective (append_cancel_left h))

theorem scan_entryText (e : Text × Int) :
    strtoll (entryText e) = max (min e.2 (2 ^ 63 - 1)) (-2 ^ 63) ∧
      (entryText e).drop (scanNumber (entryText e)).used = '!' :: e.1 := by
  have hends : EndsNumber ('!' :: e.1) := by
    rintro c hc
    cases hc
    decide
  refine ⟨strtoll_of_scan (scanNumber_decimal_append e.2 hends), ?_⟩
  rw [entryText, scanNumber_decimal_append e.2 hends, drop_left]

structure Holds (p : Properties) (texts : List Text) : Prop where
  value : ∀ i, p.stringMap.lookup (propertyName (i + 1)) = texts[i]?
  only : ∀ key ∈ p.stringMap, ∃ i, key = propertyName (i + 1)

structure Written (p : Properties) (texts : List Text) : Prop extends Holds p texts where
  count : p.getWord countName 0 = texts.length

theorem written_empty : Written Properties.empty [] where
  value _ := rfl
  only := by simp [Properties.empty]
  count := rfl

theorem lookup_removeAll (count : Nat) (p : Properties) (key : Text) :
    (removeAll count p).stringMap.lookup key =
      if ∃ i < count, key = propertyName (i + 1) then none else p.stringMap.lookup key := by
  induction count generalizing p with
  | zero => simp [removeAll]
  | succ count ih =>
    rw [removeAll, ih]
    by_cases hkey : key = propertyName (count + 1)
    · have hlast : ∃ i < count + 1, key = propertyName (i + 1) := ⟨count, by omega, hkey⟩
      rw [if_pos hlast, hkey]
      simp [Properties.setString]
    · have hiff : (∃ i < count, key = propertyName (i + 1)) ↔
          ∃ i < count + 1, key = propertyName (i + 1) := by
        constructor
        · rintro ⟨i, hi, rfl⟩
          exact ⟨i, by omega, rfl⟩
        · rintro ⟨i, hi, rfl⟩
          have hne : i ≠ count := fun h => hkey (by rw [h])
          exact ⟨i, by omega, rfl⟩
      simp only [hiff, Properties.setString, AList.lookup_erase_ne hkey]

theorem Written.removeAll {p : Properties} {texts : List Text} (h : Written p texts) :
    Holds (removeAll (p.getWord countName 0) p) [] := by
  have hnone : ∀ key, (StepOver.removeAll (p.getWord countName 0) p).stringMap.lookup key =
      none := by
    intro key
    rw [lookup_removeAll, h.count]
    split
    · rfl
    · rename_i hother
      by_contra hsome
      obtain ⟨i, rfl⟩ := h.only key
        (AList.lookup_isSome.mp (Option.isSome_iff_ne_none.mpr hsome))
      rw [h.value i] at hsome
      have hi : i < texts.length := by
        by_contra hlen
        exact hsome (getElem?_eq_none (not_lt.mp hlen))
      exact hother ⟨i, hi, rfl⟩
  refine ⟨fun i => hnone _, fun key hkey => ?_⟩
  rw [← AList.lookup_isSome, hnone key] at hkey
  cases hkey

theorem Holds.notify {p : Properties} {texts : List Text} (h : Holds p texts) (e : Text × Int) :
    Holds (notify (p, texts.length) e).1 (texts ++ [entryText e]) where
  value i := by
    by_cases hi : i = texts.length
    · subst hi
      simp [StepOver.notify, Properties.setString]
    · have hne : propertyName (i + 1) ≠ propertyName (texts.length + 1) := fun heq =>
        hi (Nat.succ.inj (propertyName_injective heq))
      simp only [StepOver.notify, Properties.setString, AList.lookup_insert_ne hne, h.value]
      rcases Nat.lt_or_gt_of_ne hi with hlt | hgt
      · rw [getElem?_append_left hlt]
      · rw [getElem?_eq_none hgt.le, getElem?_eq_none]
        simpa using Nat.succ_le_of_lt hgt
  only key hkey := by
    rcases AList.mem_insert _ |>.mp hkey with rfl | hkey
    · exact ⟨texts.length, rfl⟩
    · exact h.only key hkey

theorem Holds.foldl_notify {p : Properties} {texts : List Text} (h : Holds p texts)
    (entries : List (Text × Int)) :
    Holds (entries.foldl StepOver.notify (p, texts.length)).1 (texts ++ entries.map entryText) ∧
      (entries.foldl StepOver.notify (p, texts.length)).2 = texts.length + entries.length := by
  induction entries generalizing p texts with
  | nil => simpa using h
  | cons e entries ih =>
    have hnext := ih (h.notify e)
    rw [length_append, length_singleton] at hnext
    obtain ⟨hholds, hcount⟩ := hnext
    rw [append_assoc] at hholds
    refine ⟨hholds, hcount.trans ?_⟩
    rw [length_cons]
    omega

def StepOverManager.texts (m : StepOverManager) : List Text := m.enumStepOver.map entryText

theorem written_sync {p : Properties} (h : Holds p []) (m : StepOverManager) :
    Written (sync m p) m.texts := by
  obtain ⟨hholds, hcount⟩ := h.foldl_notify m.enumStepOver
  refine ⟨⟨hholds.value, hholds.only⟩, ?_⟩
  simp only [sync, Properties.getWord, Properties.setWord, AList.lookup_insert, Option.getD_some]
  rw [StepOverManager.texts, length_map]
  simpa using hcount

theorem Written.update {p : Properties} {texts : List Text} (h : Written p texts)
    (m : StepOverManager) : Written (updateProperties m p) m.texts :=
  written_sync h.removeAll m

theorem Holds.mem_iff {p : Properties} {texts : List Text} (h : Holds p texts) (key : Text) :
    key ∈ p.stringMap ↔ ∃ n, 1 ≤ n ∧ n ≤ texts.length ∧ key = propertyName n := by
  have hmem : ∀ i, propertyName (i + 1) ∈ p.stringMap ↔ i < texts.length := by
    intro i
    rw [← AList.lookup_isSome, h.value i]
    simp
  constructor
  · intro hkey
    obtain ⟨i, rfl⟩ := h.only key hkey
    exact ⟨i + 1, by omega, (hmem i).mp hkey, rfl⟩
  · rintro ⟨n, hpos, hle, rfl⟩
    obtain ⟨i, rfl⟩ := Nat.exists_eq_add_of_le' hpos
    exact (hmem i).mpr hle

end ZeroBugs.Engine.StepOver
