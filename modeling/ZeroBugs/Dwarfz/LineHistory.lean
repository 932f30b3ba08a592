import ZeroBugs.Dwarfz.SrcLineMap
import ZeroBugs.Lib.Runs

/-! # Line queries and their history -/
namespace ZeroBugs.Dwarfz
open Lib Lib.Runs List

def fileLines (file : String) (rows : List LineRow) : List (Nat × Nat) :=
  (rows.filter (·.file = some file)).map fun row => (row.line, row.addr)

/-- The entry of a file with the given lines, inserted one after the other. -/
def addLines (m : Option (MultiMap Nat Nat)) (lines : List (Nat × Nat)) :
    Option (MultiMap Nat Nat) :=
  lines.foldl (fun m l => some ((m.getD .empty).insert l.1 l.2)) m

theorem addrByFile_onSrcline (map : SrcLineMap) (row : LineRow) (file : String) :
    (map.onSrcline row).addrByFile file =
      addLines (map.addrByFile file) (fileLines file [row]) := by
  unfold SrcLineMap.onSrcline
  cases hrow : row.file with
  | none => simp [fileLines, addLines, hrow]
  | some path =>
    by_cases hpath : path = file
    · subst hpath
      simp [fileLines, addLines, hrow]
    · simp [fileLines, addLines, hrow, hpath, Ne.symm hpath]

theorem fileLines_append (file : String) (rows rows' : List LineRow) :
    fileLines file (rows ++ rows') = fileLines file rows ++ fileLines file rows' := by
  simp [fileLines]

theorem addLines_append (m : Option (MultiMap Nat Nat)) (lines lines' : List (Nat × Nat)) :
    addLines m (lines ++ lines') = addLines (addLines m lines) lines' :=
  foldl_append

theorem addrByFile_foldl (map : SrcLineMap) (rows : List LineRow) (file : String) :
    (rows.foldl SrcLineMap.onSrcline map).addrByFile file =
      addLines (map.addrByFile file) (fileLines file rows) := by
  induction rows generalizing map with
  | nil => rfl
  | cons row rows ih =>
    rw [foldl_cons, ih, addrByFile_onSrcline, ← addLines_append, ← fileLines_append]
    rfl

theorem addrByFile_ofUnit (unit : CompileUnit) (file : String) :
    (SrcLineMap.ofUnit unit).addrByFile file = addLines none (fileLines file unit.exported) :=
  addrByFile_foldl _ _ _

def moduleRows (units : List CompileUnit) : List LineRow := units.flatMap CompileUnit.exported

theorem ofModule_eq (units : List CompileUnit) : SrcLineMap.ofModule units =
    (moduleRows units).foldl SrcLineMap.onSrcline ⟨none, fun _ => none, false⟩ := by
  rw [moduleRows, foldl_flatMap]
  rfl

theorem addrByFile_ofModule (units : List CompileUnit) (file : String) :
    (SrcLineMap.ofModule units).addrByFile file =
      addLines none (fileLines file (moduleRows units)) := by
  rw [ofModule_eq, addrByFile_foldl]

/-! Building a map leaves its name alone, and nothing stops it. -/

theorem foldl_onSrcline_fields (map : SrcLineMap) (rows : List LineRow) :
    (rows.foldl SrcLineMap.onSrcline map).unitFileName = map.unitFileName ∧
      (rows.foldl SrcLineMap.onSrcline map).cancelled = map.cancelled := by
  induction rows generalizing map with
  | nil => exact ⟨rfl, rfl⟩
  | cons row rows ih =>
    rw [foldl_cons, (ih _).1, (ih _).2]
    unfold SrcLineMap.onSrcline
    cases row.file <;> exact ⟨rfl, rfl⟩

theorem addLines_entries_perm (m : Option (MultiMap Nat Nat)) (lines : List (Nat × Nat)) :
    ((addLines m lines).getD .empty).entries.Perm ((m.getD .empty).entries ++ lines) := by
  induction lines generalizing m with
  | nil => simp [addLines]
  | cons l lines ih =>
    have hinsert : ((m.getD .empty).insert l.1 l.2).entries.Perm
        ((m.getD .empty).entries ++ [l]) := by
      conv_rhs => rw [← MultiMap.upTo_append_above (m.getD .empty) l.1, append_assoc]
      exact List.Perm.append_left _ (perm_append_singleton _ _).symm
    have hrest := ih (some ((m.getD .empty).insert l.1 l.2))
    refine hrest.trans ?_
    simpa using hinsert.append_right lines

variable {lines : List (Nat × Nat)}

theorem addLines_nonempty {m : Option (MultiMap Nat Nat)}
    {m' : MultiMap Nat Nat} (hm : m = none) (h : addLines m lines = some m') :
    m'.entries ≠ [] := by
  have hperm := addLines_entries_perm m lines
  rw [h, hm] at hperm
  intro hnil
  simp only [Option.getD_some, Option.getD_none, MultiMap.empty, nil_append, hnil,
    nil_perm] at hperm
  subst hm
  rw [hperm] at h
  cases h

def reply (entry : Option (MultiMap Nat Nat)) (q : LineQuery) : Bool × List (Nat × Nat) :=
  match entry with
  | none => (true, [])
  | some m => if m.entries.isEmpty then (false, []) else notifyLines q.goesOn (nearest m q.line) []

variable {map : SrcLineMap}

theorem lineToAddr_eq_reply (h : map.cancelled = false) (q : LineQuery) :
    (map.lineToAddr q).1 = reply (map.addrByFile q.file) q := by
  simp only [SrcLineMap.lineToAddr, h, reply]
  cases map.addrByFile q.file with
  | none => rfl
  | some m => by_cases hm : m.entries.isEmpty <;> simp [hm]

def wholeQuery (file : String) (line : Nat) : LineQuery := ⟨file, line, fun _ => true⟩

theorem notifyLines_all (lines told : List (Nat × Nat)) :
    notifyLines (fun _ => true) lines told = (true, told ++ lines) := by
  induction lines generalizing told with
  | nil => simp [notifyLines]
  | cons l lines ih => simp [notifyLines, ih]

theorem nearest_filter (m : MultiMap Nat Nat) (line : Nat) :
    (nearest m line).filter (·.1 = line) = m.entries.filter (·.1 = line) := by
  have hbelow : (m.below line).filter (·.1 = line) = [] := by
    rw [filter_eq_nil_iff]
    intro e he
    simpa using (MultiMap.lt_of_mem_below he).ne
  have hsplit : m.entries.filter (·.1 = line) = (m.from_ line).filter (·.1 = line) := by
    rw [← MultiMap.below_append_from m line, filter_append, hbelow, nil_append]
  rw [hsplit]
  unfold nearest
  cases hfrom : m.from_ line with
  | nil =>
    -- the last entry is before the line
    have hall : m.below line = m.entries := by
      rw [← MultiMap.below_append_from m line, hfrom, append_nil]
    rw [filter_nil, filter_eq_nil_iff]
    intro e he
    have hmem : e ∈ m.below line := by
      rw [hall]
      exact mem_of_getLast? (Option.mem_toList.mp he)
    simpa using (MultiMap.lt_of_mem_below hmem).ne
  | cons e es =>
    have hle : ∀ x ∈ e :: es, line ≤ x.1 := fun x hx => MultiMap.le_of_mem_from (hfrom ▸ hx)
    have hsorted : (e :: es).Pairwise (·.1 ≤ ·.1) := hfrom ▸ MultiMap.from_sorted m line
    obtain ⟨hfirst, hes⟩ := List.pairwise_cons.mp hsorted
    change (e :: es.takeWhile (·.1 = e.1)).filter (·.1 = line) = _
    rw [← MultiMap.filter_eq_takeWhile hes hfirst]
    by_cases heq : e.1 = line
    · simp [heq]
    · have hlt : ∀ x ∈ es, x.1 ≠ line := fun x hx =>
        ((lt_of_le_of_ne (hle e mem_cons_self) (Ne.symm heq)).trans_le (hfirst x hx)).ne'
      have hnone : es.filter (·.1 = line) = [] := by
        rw [filter_eq_nil_iff]
        intro x hx
        simpa using hlt x hx
      rw [filter_cons_of_neg (by simpa using heq),
        filter_cons_of_neg (by simpa using heq), hnone, filter_filter,
        filter_eq_nil_iff]
      intro x hx
      simp [hlt x hx]

theorem reply_filter (file : String) (line : Nat) :
    (reply (addLines none lines) (wholeQuery file line)).2.filter (·.1 = line) =
      ((addLines none lines).getD .empty).entries.filter (·.1 = line) := by
  cases h : addLines none lines with
  | none => rfl
  | some m =>
    have hne : m.entries.isEmpty = false := by simpa using addLines_nonempty rfl h
    simp [reply, hne, wholeQuery, notifyLines_all, nearest_filter]

theorem lines_perm_of_reply_eq (file : String) {lines' : List (Nat × Nat)}
    (h : ∀ line, reply (addLines none lines) (wholeQuery file line) =
      reply (addLines none lines') (wholeQuery file line)) : lines.Perm lines' := by
  have hentries : ((addLines none lines).getD .empty).entries.Perm
      ((addLines none lines').getD .empty).entries := by
    rw [perm_iff_count]
    intro e
    have hfilter : ∀ l : List (Nat × Nat), l.count e = (l.filter (·.1 = e.1)).count e := by
      intro l
      rw [count_filter (by simp)]
    rw [hfilter, ← reply_filter file e.1, h e.1, reply_filter, ← hfilter]
  have h1 := addLines_entries_perm none lines
  have h2 := addLines_entries_perm none lines'
  exact h1.symm.trans (hentries.trans h2)

def freshLineMap (units : List CompileUnit) (file : String) : SrcLineMap :=
  ((lookupUnit units file).map SrcLineMap.ofUnit).getD (.ofModule units)

def lineStep (units : List CompileUnit) (srcLineMap : Option SrcLineMap) (q : LineQuery) :
    Option SrcLineMap := (lineToAddr units srcLineMap q).2

def HistoryIndependent (units : List CompileUnit) : Prop :=
  ∀ queries, Along (lineStep units)
    (fun map q => (lineToAddr units map q).1 = (lineToAddr units none q).1) none queries

/-- The lines of a unit's own file are in no other unit's table; and if there is
a unit without a path, no other unit has any lines. -/
structure OwnLines (units : List CompileUnit) : Prop where
  own : ∀ file unit, lookupUnit units file = some unit →
    fileLines file (moduleRows units) = fileLines file unit.exported
  unnamed : ∀ unit, lookupUnit units "" = some unit → ∀ file,
    fileLines file (moduleRows units) = fileLines file unit.exported

section Queries

variable {units : List CompileUnit}

theorem ofUnit_fields (unit : CompileUnit) :
    (SrcLineMap.ofUnit unit).unitFileName = some unit.fullPath ∧
      (SrcLineMap.ofUnit unit).cancelled = false :=
  foldl_onSrcline_fields _ _

theorem ofModule_fields (units : List CompileUnit) :
    (SrcLineMap.ofModule units).unitFileName = none ∧
      (SrcLineMap.ofModule units).cancelled = false := by
  rw [ofModule_eq]
  exact foldl_onSrcline_fields _ _

variable {file : String}

theorem lookupUnit_fullPath {unit : CompileUnit}
    (h : lookupUnit units file = some unit) : unit.fullPath = file ∧ unit ∈ units :=
  ⟨by simpa using find?_some h, mem_of_find?_eq_some h⟩

theorem validateLineMap_keep (hc : map.cancelled = false)
    (hm : map.matches_ file = true) : validateLineMap (some map) file = some map := by
  simp [validateLineMap, Option.filter_some, hc, hm]

theorem currentLineMap_keep (hc : map.cancelled = false)
    (hm : map.matches_ file = true) : currentLineMap units (some map) file = map := by
  simp [currentLineMap, validateLineMap_keep hc hm]

theorem currentLineMap_replace {map : Option SrcLineMap}
    (h : validateLineMap map file = none) :
    currentLineMap units map file = freshLineMap units file := by
  unfold currentLineMap freshLineMap
  rw [h]
  cases hunit : lookupUnit units file with
  | none => rfl
  | some unit =>
    obtain ⟨hname, hc⟩ := ofUnit_fields unit
    obtain ⟨rfl, -⟩ := lookupUnit_fullPath hunit
    have hm : (SrcLineMap.ofUnit unit).matches_ unit.fullPath = true := by
      simp [SrcLineMap.matches_, hname]
    simp [validateLineMap_keep hc hm]

theorem currentLineMap_none (file : String) :
    currentLineMap units none file = freshLineMap units file :=
  currentLineMap_replace rfl

theorem freshLineMap_fields (file : String) :
    (freshLineMap units file).cancelled = false ∧
      (freshLineMap units file).matches_ file = true := by
  unfold freshLineMap
  cases hunit : lookupUnit units file with
  | none =>
    obtain ⟨hname, hc⟩ := ofModule_fields units
    simp [hc, SrcLineMap.matches_, hname]
  | some unit =>
    obtain ⟨hname, hc⟩ := ofUnit_fields unit
    obtain ⟨rfl, -⟩ := lookupUnit_fullPath hunit
    simp [hc, SrcLineMap.matches_, hname]

theorem answer_none (q : LineQuery) : (lineToAddr units none q).1 =
    reply ((freshLineMap units q.file).addrByFile q.file) q := by
  simp only [lineToAddr, currentLineMap_none]
  exact lineToAddr_eq_reply (freshLineMap_fields q.file).1 q

theorem lineStep_eq (map : Option SrcLineMap) (q : LineQuery) :
    ∃ c, lineStep units map q =
      some { currentLineMap units map q.file with cancelled := c } := by
  unfold lineStep lineToAddr SrcLineMap.lineToAddr
  by_cases hc : (currentLineMap units map q.file).cancelled
  · exact ⟨_, by rw [if_pos hc]⟩
  · rw [if_neg hc]
    cases (currentLineMap units map q.file).addrByFile q.file with
    | none => exact ⟨_, rfl⟩
    | some m =>
      by_cases hm : m.entries.isEmpty
      · exact ⟨(currentLineMap units map q.file).cancelled, by simp only [hm, if_true]⟩
      · exact ⟨!(notifyLines q.goesOn (nearest m q.line) []).1, by simp only [hm]; rfl⟩

theorem lineToAddr_whole (hc : map.cancelled = false) (file : String)
    (line : Nat) : (map.lineToAddr (wholeQuery file line)).2 = map := by
  obtain ⟨name, addrByFile, cancelled⟩ := map
  obtain rfl : cancelled = false := hc
  simp only [SrcLineMap.lineToAddr, wholeQuery, if_neg Bool.false_ne_true, notifyLines_all]
  cases addrByFile file with
  | none => rfl
  | some m => by_cases hm : m.entries.isEmpty <;> simp [hm]

theorem lineStep_whole (file : String) (line : Nat) :
    lineStep units none (wholeQuery file line) = some (freshLineMap units file) := by
  have hstep : lineStep units none (wholeQuery file line) =
      some ((currentLineMap units none file).lineToAddr (wholeQuery file line)).2 := rfl
  rw [hstep, currentLineMap_none, lineToAddr_whole (freshLineMap_fields file).1]

def MapAgrees (units : List CompileUnit) (map : SrcLineMap) : Prop :=
  ∀ file, map.matches_ file = true →
    map.addrByFile file = (freshLineMap units file).addrByFile file

theorem fresh_addrByFile (hown : OwnLines units) (file : String) :
    (freshLineMap units file).addrByFile file = (SrcLineMap.ofModule units).addrByFile file := by
  unfold freshLineMap
  cases hunit : lookupUnit units file with
  | none => rfl
  | some unit =>
    rw [addrByFile_ofModule, hown.own file unit hunit, ← addrByFile_ofUnit]
    rfl

theorem mapAgrees_fresh (hown : OwnLines units) (file : String) :
    MapAgrees units (freshLineMap units file) := by
  intro other hm
  rw [fresh_addrByFile hown]
  unfold freshLineMap at hm ⊢
  cases hunit : lookupUnit units file with
  | none => rfl
  | some unit =>
    rw [hunit] at hm
    obtain ⟨hname, -⟩ := ofUnit_fields unit
    obtain ⟨rfl, -⟩ := lookupUnit_fullPath hunit
    have hlines : fileLines other (moduleRows units) = fileLines other unit.exported := by
      have hpath : unit.fullPath = "" ∨ unit.fullPath = other := by
        simpa [SrcLineMap.matches_, hname] using hm
      rcases hpath with hempty | rfl
      · exact hown.unnamed unit (hempty ▸ hunit) other
      · exact hown.own _ unit hunit
    rw [addrByFile_ofModule, hlines, ← addrByFile_ofUnit]
    rfl

theorem currentLineMap_cases (map : Option SrcLineMap) (file : String) :
    (∃ m, map = some m ∧ currentLineMap units map file = m ∧ m.cancelled = false ∧
      m.matches_ file = true) ∨ currentLineMap units map file = freshLineMap units file := by
  cases hval : validateLineMap map file with
  | none => exact Or.inr (currentLineMap_replace hval)
  | some m =>
    obtain ⟨hmap, hok⟩ := Option.filter_eq_some_iff.mp hval
    simp only [Bool.and_eq_true, Bool.not_eq_true'] at hok
    subst hmap
    exact Or.inl ⟨m, rfl, currentLineMap_keep hok.1 hok.2, hok⟩

def StateAgrees (units : List CompileUnit) (map : Option SrcLineMap) : Prop :=
  ∀ m, map = some m → MapAgrees units m

theorem current_agrees (hown : OwnLines units) {map : Option SrcLineMap}
    (h : StateAgrees units map) (file : String) :
    MapAgrees units (currentLineMap units map file) ∧
      (currentLineMap units map file).cancelled = false ∧
      (currentLineMap units map file).matches_ file = true := by
  rcases currentLineMap_cases map file with ⟨m, hmap, hcur, hc, hm⟩ | hcur
  · rw [hcur]
    exact ⟨h m hmap, hc, hm⟩
  · rw [hcur]
    exact ⟨mapAgrees_fresh hown file, freshLineMap_fields file⟩

section

variable (hown : OwnLines units) (map : Option SrcLineMap) (q : LineQuery)
  (h : StateAgrees units map)
include hown h

theorem answer_of_agrees : (lineToAddr units map q).1 = (lineToAddr units none q).1 := by
  obtain ⟨hagrees, hc, hm⟩ := current_agrees hown h q.file
  rw [answer_none, ← hagrees q.file hm]
  exact lineToAddr_eq_reply hc q

theorem lineStep_agrees : StateAgrees units (lineStep units map q) := by
  obtain ⟨c, hstep⟩ := lineStep_eq map q
  rw [hstep]
  rintro m ⟨⟩
  exact (current_agrees hown h q.file).1

end

theorem lines_perm_of_independent (hind : HistoryIndependent units) {first : String}
    (hm : (freshLineMap units first).matches_ file = true) {lines' : List (Nat × Nat)}
    (hfirst : (freshLineMap units first).addrByFile file = addLines none lines)
    (hfile : (freshLineMap units file).addrByFile file = addLines none lines') :
    lines.Perm lines' := by
  refine lines_perm_of_reply_eq file fun line => ?_
  obtain ⟨-, hanswer, -⟩ := hind [wholeQuery first 0, wholeQuery file line]
  have hc : (freshLineMap units first).cancelled = false := (freshLineMap_fields first).1
  have hkept : (lineToAddr units (some (freshLineMap units first)) (wholeQuery file line)).1 =
      reply ((freshLineMap units first).addrByFile file) (wholeQuery file line) := by
    change ((currentLineMap units (some (freshLineMap units first)) file).lineToAddr _).1 = _
    rw [currentLineMap_keep hc hm]
    exact lineToAddr_eq_reply hc _
  rw [lineStep_whole, hkept, answer_none] at hanswer
  rwa [← hfirst, ← hfile]

theorem fileLines_sublist {unit : CompileUnit} (h : unit ∈ units) (file : String) :
    (fileLines file unit.exported).Sublist (fileLines file (moduleRows units)) := by
  refine List.Sublist.map _ (List.Sublist.filter _ ?_)
  exact sublist_flatten_of_mem (mem_map_of_mem h)

theorem ownLines_of_independent (hind : HistoryIndependent units) : OwnLines units := by
  have hown : ∀ file unit, lookupUnit units file = some unit →
      fileLines file (moduleRows units) = fileLines file unit.exported := by
    intro file unit hunit
    -- a file without a unit of its own leaves the map of the module
    obtain ⟨other, hother⟩ := Infinite.exists_notMem_finset (units.map (·.fullPath)).toFinset
    have hnone : lookupUnit units other = none := by
      rw [lookupUnit, find?_eq_none]
      intro u hu hpath
      refine hother (List.mem_toFinset.mpr (mem_map.mpr ⟨u, hu, ?_⟩))
      simpa using hpath
    have hfirst : freshLineMap units other = .ofModule units := by simp [freshLineMap, hnone]
    have hfile : freshLineMap units file = .ofUnit unit := by simp [freshLineMap, hunit]
    have hm : (freshLineMap units other).matches_ file = true := by
      rw [hfirst, SrcLineMap.matches_, (ofModule_fields units).1]
      rfl
    have hperm := lines_perm_of_independent hind hm (hfirst ▸ addrByFile_ofModule units file)
      (hfile ▸ addrByFile_ofUnit unit file)
    exact ((fileLines_sublist (lookupUnit_fullPath hunit).2 file).eq_of_length
      hperm.length_eq.symm).symm
  refine ⟨hown, fun unit hunit file => ?_⟩
  have hfirst : freshLineMap units "" = .ofUnit unit := by simp [freshLineMap, hunit]
  have hm : (freshLineMap units "").matches_ file = true := by
    rw [hfirst, SrcLineMap.matches_, (ofUnit_fields unit).1, (lookupUnit_fullPath hunit).1]
    rfl
  have hfile : (freshLineMap units file).addrByFile file =
      addLines none (fileLines file (moduleRows units)) := by
    unfold freshLineMap
    cases hother : lookupUnit units file with
    | none => exact addrByFile_ofModule units file
    | some other =>
      rw [hown file other hother]
      exact addrByFile_ofUnit other file
  have hperm := lines_perm_of_independent hind hm (hfirst ▸ addrByFile_ofUnit unit file) hfile
  exact ((fileLines_sublist (lookupUnit_fullPath hunit).2 file).eq_of_length
    hperm.length_eq).symm

end Queries

theorem history_independent_iff (units : List CompileUnit) :
    HistoryIndependent units ↔ OwnLines units := by
  constructor
  · exact ownLines_of_independent
  · intro hown queries
    exact along_of_invariant (StateAgrees units) (answer_of_agrees hown) (lineStep_agrees hown)
      (fun m h => absurd h (by simp)) queries

/-! A header with code in two units, and one of them a unit of its own. -/

/-- `/a.c` at `0x10`, which includes the source file `/b.c` at `0x20`. -/
def includingUnit : CompileUnit :=
  ⟨"/a.c", 0, 0, [⟨some "/a.c", 1, 0x10, false⟩, ⟨some "/b.c", 5, 0x20, false⟩]⟩

def includedUnit : CompileUnit := ⟨"/b.c", 0, 0, [⟨some "/b.c", 5, 0x30, false⟩]⟩

theorem answer_depends_on_history : ¬HistoryIndependent [includingUnit, includedUnit] := by
  intro h
  obtain ⟨-, hanswer, -⟩ := h [wholeQuery "/c.h" 1, wholeQuery "/b.c" 5]
  have hsecond : (lineToAddr [includingUnit, includedUnit]
      (lineStep [includingUnit, includedUnit] none (wholeQuery "/c.h" 1))
      (wholeQuery "/b.c" 5)).1 = (true, [(5, 0x20), (5, 0x30)]) := by decide
  have hfresh : (lineToAddr [includingUnit, includedUnit] none (wholeQuery "/b.c" 5)).1 =
      (true, [(5, 0x30)]) := by decide
  exact absurd hanswer (by decide)

end ZeroBugs.Dwarfz
