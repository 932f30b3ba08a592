import Mathlib

/-! # Addresses of a source line -/
namespace ZeroBugs.Engine.LineToAddr
open List

abbrev Text := List Char

structure Module where
  filename : Text
  adjustment : UInt64
  deriving DecidableEq

/-- `DebugInfoReader::line_to_addr`: the addresses that a reader tells for a module, a
source file and a line. It returns their number. -/
abbrev DebugInfoReader := Module → Text → Nat → List UInt64

abbrev Plugin := Option DebugInfoReader

structure SymbolMap where
  fileList : List Module
  neededTables : List (Text × Module)
  isMapped : Text → Bool
  originCore : Bool

structure Thread where
  symbols : SymbolMap
  currentFile : Option Text
  lookupUnit : Text → Option (Option Text)

structure DebuggerEngine where
  plugins : List Plugin
  defaultThread : Option Thread

structure Answer where
  result : Nat
  notified : List (Module × UInt64)
  deriving DecidableEq

structure Query where
  sourceFile : Text
  line : Nat
  moduleName : Option Text

def Query.excludes (q : Query) (m : Module) : Bool :=
  match q.moduleName with
  | none => false
  | some name => decide (m.filename ≠ name)

def Query.told (q : Query) (m : Module) (reader : DebugInfoReader) : List (Module × UInt64) :=
  (reader m q.sourceFile q.line).map fun addr => (m, addr)

def Answer.add (a : Answer) (told : List (Module × UInt64)) : Answer :=
  ⟨a.result + told.length, a.notified ++ told⟩

structure Pass where
  debugInfoReaders : List DebugInfoReader
  answer : Answer

def askPlugin (q : Query) (link : Module) (p : Pass) (plugin : Plugin) : Pass :=
  match plugin with
  | none => p
  | some debugInfo =>
    let p := { p with debugInfoReaders := p.debugInfoReaders ++ [debugInfo] }
    if q.excludes link then p
    else { p with answer := p.answer.add (q.told link debugInfo) }

def firstPass (q : Query) (plugins : List Plugin) (links : List Module) : Pass :=
  links.foldl (fun p link => plugins.foldl (askPlugin q link) p) ⟨[], ⟨0, []⟩⟩

def helperNotify (q : Query) (debugInfo : List DebugInfoReader) (a : Answer) (table : Module) :
    Answer :=
  if q.excludes table then a
  else debugInfo.foldl (fun a reader => a.add (q.told table reader)) a

def SymbolMap.enumNeededTables (symbols : SymbolMap) : List Module :=
  if symbols.originCore then []
  else (symbols.neededTables.filter fun entry => !symbols.isMapped entry.1).map Prod.snd

def getFullBuildPath (currentFile : Option Text) (sourceFile : Text) : Text :=
  match currentFile with
  | none => sourceFile
  | some path => (path.reverse.dropWhile fun c => c ≠ '/').reverse ++ sourceFile

def Thread.query (thread : Thread) (sourceFile : Text) (line : Nat) : Query :=
  let sourceFile :=
    if sourceFile.head? = some '/' then sourceFile
    else getFullBuildPath thread.currentFile sourceFile
  ⟨sourceFile, line, (thread.lookupUnit sourceFile).join⟩

def DebuggerEngine.lineToAddr (e : DebuggerEngine) (sourceFile : Text) (line : Nat)
    (thread : Option Thread) : Answer :=
  match thread.or e.defaultThread with
  | none => ⟨0, []⟩
  | some thread =>
    let q := thread.query sourceFile line
    let p := firstPass q e.plugins thread.symbols.fileList
    if p.answer.result = 0 then
      thread.symbols.enumNeededTables.foldl (helperNotify q p.debugInfoReaders) ⟨0, []⟩
    else p.answer

def DebuggerEngine.readers (e : DebuggerEngine) : List DebugInfoReader := e.plugins.filterMap id

def Query.once (q : Query) (modules : List Module) (readers : List DebugInfoReader) :
    List (Module × UInt64) :=
  (modules.filter fun m => !q.excludes m).flatMap fun m => readers.flatMap (q.told m)

/-- What is to be told: about the loaded modules, or else about the needed tables. -/
def DebuggerEngine.expected (e : DebuggerEngine) (sourceFile : Text) (line : Nat)
    (thread : Option Thread) : List (Module × UInt64) :=
  match thread.or e.defaultThread with
  | none => []
  | some thread =>
    let q := thread.query sourceFile line
    let loaded := q.once thread.symbols.fileList e.readers
    if loaded = [] then q.once thread.symbols.enumNeededTables e.readers else loaded

structure DebuggerEngine.ReportsOnce (e : DebuggerEngine) (sourceFile : Text) (line : Nat)
    (thread : Option Thread) : Prop where
  notified : (e.lineToAddr sourceFile line thread).notified = e.expected sourceFile line thread
  result : (e.lineToAddr sourceFile line thread).result =
    (e.lineToAddr sourceFile line thread).notified.length

def Query.Finds (q : Query) (modules : List Module) (readers : List DebugInfoReader) : Prop :=
  ∃ m ∈ modules, q.excludes m = false ∧ ∃ reader ∈ readers, reader m q.sourceFile q.line ≠ []

/-- Something is found in the loaded modules, or there is exactly one of them, or nothing is to be
found in the needed tables. -/
def Thread.Settled (thread : Thread) (readers : List DebugInfoReader) (sourceFile : Text)
    (line : Nat) : Prop :=
  (thread.query sourceFile line).Finds thread.symbols.fileList readers ∨
    thread.symbols.fileList.length = 1 ∨
    ¬(thread.query sourceFile line).Finds thread.symbols.enumNeededTables readers

@[simp] theorem add_nil (a : Answer) : a.add [] = a := by simp [Answer.add]

theorem add_add (a : Answer) (xs ys : List (Module × UInt64)) :
    (a.add xs).add ys = a.add (xs ++ ys) := by
  simp [Answer.add, Nat.add_assoc]

theorem foldl_add {α : Type} (told : α → List (Module × UInt64)) (xs : List α) (a : Answer) :
    xs.foldl (fun a x => a.add (told x)) a = a.add (xs.flatMap told) := by
  induction xs generalizing a with
  | nil => simp
  | cons x xs ih => rw [foldl_cons, ih, add_add, flatMap_cons]

def Query.toldAbout (q : Query) (readers : List DebugInfoReader) (m : Module) :
    List (Module × UInt64) :=
  if q.excludes m then [] else readers.flatMap (q.told m)

theorem once_eq_flatMap (q : Query) (modules : List Module) (readers : List DebugInfoReader) :
    q.once modules readers = modules.flatMap (q.toldAbout readers) := by
  induction modules with
  | nil => rfl
  | cons m modules ih =>
    rw [Query.once] at ih ⊢
    rw [flatMap_cons, ← ih, filter_cons, Query.toldAbout]
    cases q.excludes m <;> simp

theorem helperNotify_eq (q : Query) (debugInfo : List DebugInfoReader) (a : Answer)
    (table : Module) : helperNotify q debugInfo a table = a.add (q.toldAbout debugInfo table) := by
  rw [helperNotify, Query.toldAbout]
  split
  · rw [add_nil]
  · rw [foldl_add]

theorem askPlugins_eq (q : Query) (link : Module) (e : DebuggerEngine) (p : Pass) :
    e.plugins.foldl (askPlugin q link) p =
      ⟨p.debugInfoReaders ++ e.readers, p.answer.add (q.toldAbout e.readers link)⟩ := by
  rw [DebuggerEngine.readers]
  induction e.plugins generalizing p with
  | nil => simp [Query.toldAbout]
  | cons plugin plugins ih =>
    rw [foldl_cons, ih]
    cases plugin with
    | none => simp [askPlugin]
    | some reader =>
      cases hexcludes : q.excludes link <;>
        simp [askPlugin, Query.toldAbout, hexcludes, add_add]

theorem firstPass_eq (q : Query) (e : DebuggerEngine) (links : List Module) :
    firstPass q e.plugins links =
      ⟨(List.replicate links.length e.readers).flatten,
        (⟨0, []⟩ : Answer).add (q.once links e.readers)⟩ := by
  have hrun : ∀ p : Pass, links.foldl (fun p link => e.plugins.foldl (askPlugin q link) p) p =
      ⟨p.debugInfoReaders ++ (List.replicate links.length e.readers).flatten,
        p.answer.add (links.flatMap (q.toldAbout e.readers))⟩ := by
    induction links with
    | nil => simp
    | cons link links ih =>
      intro p
      rw [foldl_cons, ih, askPlugins_eq]
      simp [add_add, replicate_succ]
  rw [firstPass, hrun, once_eq_flatMap]
  simp

theorem secondPass_eq (q : Query) (debugInfo : List DebugInfoReader) (tables : List Module) :
    tables.foldl (helperNotify q debugInfo) ⟨0, []⟩ =
      (⟨0, []⟩ : Answer).add (q.once tables debugInfo) := by
  have hbody : helperNotify q debugInfo = fun a table => a.add (q.toldAbout debugInfo table) :=
    funext fun a => funext fun table => helperNotify_eq q debugInfo a table
  rw [hbody, foldl_add, once_eq_flatMap]

section

variable (q : Query) (modules : List Module) (readers : List DebugInfoReader)

theorem once_eq_nil_iff :
    q.once modules readers = [] ↔ ¬q.Finds modules readers := by
  simp only [Query.once, Query.told, Query.Finds, flatMap_eq_nil_iff, mem_filter,
    map_eq_nil_iff, Bool.not_eq_true', and_imp, not_exists, not_and, not_not, ne_eq]

theorem length_once_replicate (n : Nat) :
    (q.once modules (List.replicate n readers).flatten).length =
      n * (q.once modules readers).length := by
  have hmodule : ∀ m, ((List.replicate n readers).flatten.flatMap (q.told m)).length =
      n * (readers.flatMap (q.told m)).length := by
    intro m
    induction n with
    | zero => simp
    | succ n ih =>
      rw [replicate_succ, flatten_cons, flatMap_append, length_append, ih,
        Nat.succ_mul, Nat.add_comm]
  rw [Query.once, Query.once]
  induction modules.filter fun m => !q.excludes m with
  | nil => simp
  | cons m modules ih =>
    rw [flatMap_cons, length_append, ih, hmodule, flatMap_cons,
      length_append, Nat.mul_add]

theorem once_replicate_eq_iff (n : Nat) :
    q.once modules (List.replicate n readers).flatten = q.once modules readers ↔
      n = 1 ∨ q.once modules readers = [] := by
  constructor
  · intro h
    have hlength := congrArg List.length h
    rw [length_once_replicate] at hlength
    rcases Nat.eq_zero_or_pos (q.once modules readers).length with hzero | hpos
    · exact Or.inr (length_eq_zero_iff.mp hzero)
    · exact Or.inl (Nat.eq_of_mul_eq_mul_right hpos (by rw [hlength, Nat.one_mul]))
  · intro h
    cases h with
    | inl hone => simp [hone]
    | inr hnil =>
      rw [hnil]
      exact length_eq_zero_iff.mp (by rw [length_once_replicate, hnil]; simp)

end

section
variable {e : DebuggerEngine} {sourceFile : Text} {line : Nat} {thread : Option Thread}
  {t : Thread}

theorem lineToAddr_loaded (h : thread.or e.defaultThread = some t)
    (hfinds : (t.query sourceFile line).Finds t.symbols.fileList e.readers) :
    e.lineToAddr sourceFile line thread =
        (⟨0, []⟩ : Answer).add (e.expected sourceFile line thread) := by
  have hloaded : (t.query sourceFile line).once t.symbols.fileList e.readers ≠ [] :=
    fun hnil => (once_eq_nil_iff _ _ _).mp hnil hfinds
  have hcount : ((⟨0, []⟩ : Answer).add
      ((t.query sourceFile line).once t.symbols.fileList e.readers)).result ≠ 0 := by
    simpa [Answer.add] using hloaded
  simp only [DebuggerEngine.lineToAddr, DebuggerEngine.expected, h, firstPass_eq]
  rw [if_neg hcount, if_neg hloaded]

theorem lineToAddr_needed (h : thread.or e.defaultThread = some t)
    (hfinds : ¬(t.query sourceFile line).Finds t.symbols.fileList e.readers) :
    e.lineToAddr sourceFile line thread = (⟨0, []⟩ : Answer).add
        ((t.query sourceFile line).once t.symbols.enumNeededTables
          (List.replicate t.symbols.fileList.length e.readers).flatten) ∧
      e.expected sourceFile line thread =
        (t.query sourceFile line).once t.symbols.enumNeededTables e.readers := by
  have hloaded := (once_eq_nil_iff _ _ _).mpr hfinds
  simp only [DebuggerEngine.lineToAddr, DebuggerEngine.expected, h, firstPass_eq, hloaded,
    secondPass_eq]
  exact ⟨rfl, rfl⟩

theorem reportsOnce_iff_settled (h : thread.or e.defaultThread = some t) :
    e.ReportsOnce sourceFile line thread ↔ t.Settled e.readers sourceFile line := by
  by_cases hfinds : (t.query sourceFile line).Finds t.symbols.fileList e.readers
  · have hadd := lineToAddr_loaded h hfinds
    refine iff_of_true ⟨?_, ?_⟩ (Or.inl hfinds)
    · rw [hadd, Answer.add, nil_append]
    · rw [hadd, Answer.add, Nat.zero_add, nil_append]
  · obtain ⟨hadd, hexpected⟩ := lineToAddr_needed h hfinds
    rw [Thread.Settled, or_iff_right hfinds, ← once_eq_nil_iff, ← once_replicate_eq_iff,
      ← hexpected]
    constructor
    · intro honce
      have hnotified := honce.notified
      rwa [hadd, Answer.add, nil_append] at hnotified
    · intro hsame
      refine ⟨?_, ?_⟩
      · rw [hadd, Answer.add, nil_append, hsame]
      · rw [hadd, Answer.add, Nat.zero_add, nil_append]

end

theorem reportsOnce_iff (e : DebuggerEngine) (sourceFile : Text) (line : Nat)
    (thread : Option Thread) :
    e.ReportsOnce sourceFile line thread ↔
      ∀ t, thread.or e.defaultThread = some t → t.Settled e.readers sourceFile line := by
  cases hthread : thread.or e.defaultThread with
  | none =>
    constructor
    · intro _ t ht
      cases ht
    · intro _
      constructor <;> simp [DebuggerEngine.lineToAddr, DebuggerEngine.expected, hthread]
  | some t =>
    rw [reportsOnce_iff_settled hthread]
    constructor
    · intro hsettled t' ht'
      cases ht'
      exact hsettled
    · intro hall
      exact hall t rfl

/-! A reader that knows line 7 of `a.c` in the library `l`, which is needed and not
loaded. -/

def lineReader : DebugInfoReader := fun m file line =>
  if m.filename = ['l'] ∧ file = ['/', 'a', '.', 'c'] ∧ line = 7 then [0x10] else []

/-- A process with the given files mapped, which needs `l`. -/
def needingThread (files : List Module) : Thread where
  symbols := ⟨files, [(['l'], ⟨['l'], 0⟩)], fun _ => false, false⟩
  currentFile := none
  lookupUnit := fun _ => none

def readingEngine : DebuggerEngine := ⟨[none, some lineReader], none⟩

def lineSeven (files : List Module) : Answer :=
  readingEngine.lineToAddr ['/', 'a', '.', 'c'] 7 (some (needingThread files))

theorem lineToAddr_needed_twice :
    (lineSeven [⟨['p'], 0⟩, ⟨['q'], 0⟩] = ⟨2, [(⟨['l'], 0⟩, 0x10), (⟨['l'], 0⟩, 0x10)]⟩ ∧
      ¬readingEngine.ReportsOnce ['/', 'a', '.', 'c'] 7
        (some (needingThread [⟨['p'], 0⟩, ⟨['q'], 0⟩]))) ∧
    (lineSeven [] = ⟨0, []⟩ ∧
      ¬readingEngine.ReportsOnce ['/', 'a', '.', 'c'] 7 (some (needingThread []))) := by
  refine ⟨⟨by decide, ?_⟩, by decide, ?_⟩
  · intro honce
    exact absurd honce.notified (by decide)
  · intro honce
    exact absurd honce.notified (by decide)

end ZeroBugs.Engine.LineToAddr
