import Mathlib

/-! # The symbol map and the dynamic linker's list -/
namespace ZeroBugs.Symbolz.SymbolMap
open Function

abbrev Text := List Char

/-- The first table of a file; `id` is the identity of the object. -/
structure Table where
  id : Nat
  filename : Text
  addr : UInt64
  upper : UInt64
  deriving DecidableEq

/-- `LinkDataImpl`: an entry of the list. The main program has an empty file name. -/
structure LinkData where
  addr : UInt64
  filename : Text

structure Files where
  mapPath : Text → Option Text
  canonicalPath : Text → Text
  ensureAbsLibPath : Text → Text
  /-- `ELF::Binary::get_load_addr`, with the size in memory. -/
  loadAddr : Text → UInt64
  memSize : Text → UInt64
  /-- The same for the file that `get_symbol_tables_binary` opens. -/
  tablesLoadAddr : Text → UInt64
  tablesMemSize : Text → UInt64
  pageSize : UInt64
  /-- The load address in the file of the process, or 0 if it has no name. -/
  programLoadAddr : UInt64

/-- `next` is the identity of the next object. -/
structure SymbolMapImpl where
  map : UInt64 → Option Table
  neededTables : Text → Option Table
  loadAddr : UInt64
  next : Nat

def insert (map : UInt64 → Option Table) (addr : UInt64) (t : Table) : UInt64 → Option Table :=
  if (map addr).isSome then map else update map addr (some t)

def Files.path (f : Files) (filename : Text) : Text :=
  f.ensureAbsLibPath ((f.mapPath filename).getD (f.canonicalPath filename))

def Table.setAddr (t : Table) (addr : UInt64) : Table :=
  { t with addr := addr, upper := t.upper + (addr - t.addr) }

def Table.setUpper (t : Table) (upper : UInt64) : Table := { t with upper := upper }

namespace SymbolMapImpl

def getLoadAddr (s : SymbolMapImpl) (f : Files) : UInt64 :=
  if s.loadAddr = 0 then f.programLoadAddr else s.loadAddr

def memoLoadAddr (s : SymbolMapImpl) (f : Files) : SymbolMapImpl :=
  { s with loadAddr := s.getLoadAddr f }

def mapLibrary (s : SymbolMapImpl) (path : Text) (loadAddr size : UInt64) : Option SymbolMapImpl :=
  (s.neededTables path).map fun tbl =>
    { s with
      map := insert s.map loadAddr ((tbl.setAddr loadAddr).setUpper (loadAddr + size))
      neededTables := update s.neededTables path none }

def readTables (s : SymbolMapImpl) (f : Files) (addr size : UInt64) (path : Text) :
    SymbolMapImpl :=
  let memsz := f.tablesMemSize path
  let size := if size ≠ 0 then size
    else if memsz % f.pageSize ≠ 0 then memsz + (f.pageSize - memsz % f.pageSize) else memsz
  let addr := if addr = 0 then f.tablesLoadAddr path else addr
  { s with
    map := insert s.map addr ⟨s.next, path, addr, addr + size⟩
    next := s.next + 1 }

def load (s : SymbolMapImpl) (f : Files) (path : Text) (loadAddr : UInt64) : SymbolMapImpl :=
  (s.mapLibrary path loadAddr (f.memSize path)).getD
    (s.readTables f loadAddr (f.memSize path) path)

def erase (s : SymbolMapImpl) (addr : UInt64) : SymbolMapImpl :=
  { s with map := update s.map addr none }

end SymbolMapImpl

def Files.libraryAddr (f : Files) (e : LinkData) : UInt64 :=
  e.addr + f.loadAddr (f.path e.filename)

namespace SymbolMapImpl

def updateLibrary (s : SymbolMapImpl) (f : Files) (e : LinkData) : SymbolMapImpl :=
  let path := f.path e.filename
  let loadAddr := f.libraryAddr e
  match s.map loadAddr with
  | none => s.load f path loadAddr
  | some table =>
    if table.filename = path then s
    -- not the same library
    else (s.erase loadAddr).load f path loadAddr

/-- A turn of the loop in `update`, with the set `tmp` of load addresses. -/
def updateOne (f : Files) (p : SymbolMapImpl × List UInt64) (e : LinkData) :
    SymbolMapImpl × List UInt64 :=
  if e.filename = [] then (p.1.memoLoadAddr f, p.1.getLoadAddr f :: p.2)
  else (p.1.updateLibrary f e, f.libraryAddr e :: p.2)

def discardUnused (s : SymbolMapImpl) (tmp : List UInt64) : SymbolMapImpl :=
  { s with map := fun addr => if addr ∈ tmp then s.map addr else none }

def update (s : SymbolMapImpl) (f : Files) (linkData : List LinkData) : SymbolMapImpl :=
  let p := linkData.foldl (updateOne f) (s, [])
  (p.1.memoLoadAddr f).discardUnused p.2

end SymbolMapImpl

/-! ## Objects

A table is mapped at an address, or needed. -/

inductive Place where
  | mapped (addr : UInt64)
  | needed (path : Text)

namespace SymbolMapImpl

def tableAt (s : SymbolMapImpl) : Place → Option Table
  | .mapped addr => s.map addr
  | .needed path => s.neededTables path

end SymbolMapImpl

open SymbolMapImpl

/-- States that the functions make: each object is in one place, and needed tables are
found by their file names (`add_needed_tables`). -/
structure Sound (s : SymbolMapImpl) : Prop where
  once : ∀ x y t u, s.tableAt x = some t → s.tableAt y = some u → t.id = u.id → x = y
  old : ∀ x t, s.tableAt x = some t → t.id < s.next
  keyed : ∀ path t, s.neededTables path = some t → t.filename = path

structure Gone (s : SymbolMapImpl) (id : Nat) : Prop where
  old : id < s.next
  nowhere : ∀ x t, s.tableAt x = some t → t.id ≠ id

section Objects

variable {s : SymbolMapImpl} {a : UInt64} {path : Text} {id : Nat}

theorem insert_of_none {map : UInt64 → Option Table} (h : map a = none) (t : Table) :
    insert map a t = update map a (some t) :=
  if_neg (by simp [h])

theorem update_eq_some {K : Type} [DecidableEq K] {m : K → Option Table} {k q : K}
    {o : Option Table} {v : Table} (h : update m k o q = some v) :
    q = k ∧ o = some v ∨ q ≠ k ∧ m q = some v := by
  by_cases hq : q = k
  · rw [hq, update_self] at h
    exact .inl ⟨hq, h⟩
  · rw [update_of_ne hq] at h
    exact .inr ⟨hq, h⟩

theorem Sound.restrict (h : Sound s) {s' : SymbolMapImpl}
    (hsub : ∀ x t, s'.tableAt x = some t → s.tableAt x = some t) (hnext : s'.next = s.next) :
    Sound s' where
  once x y t u hx hy := h.once x y t u (hsub x t hx) (hsub y u hy)
  old x t hx := hnext ▸ h.old x t (hsub x t hx)
  keyed path t hp := h.keyed path t (hsub (.needed path) t hp)

theorem Gone.restrict (h : Gone s id) {s' : SymbolMapImpl}
    (hsub : ∀ x t, s'.tableAt x = some t → s.tableAt x = some t) (hnext : s'.next = s.next) :
    Gone s' id :=
  ⟨hnext ▸ h.old, fun x t hx => h.nowhere x t (hsub x t hx)⟩

theorem tableAt_erase {x : Place} {t : Table} (h : (s.erase a).tableAt x = some t) :
    s.tableAt x = some t := by
  cases x with
  | needed => exact h
  | mapped b =>
    obtain ⟨-, hnone⟩ | ⟨-, hold⟩ := update_eq_some h
    · cases hnone
    · exact hold

theorem Sound.gone_erase (h : Sound s) {t : Table} (ht : s.map a = some t) :
    Gone (s.erase a) t.id := by
  refine ⟨h.old (.mapped a) t ht, fun x u hx hid => ?_⟩
  have hplace := h.once x (.mapped a) u t (tableAt_erase hx) ht hid
  subst hplace
  simp [tableAt, erase] at hx

/-- What `load` does: a table of the file is put at the address, and it is an object that
was needed, or a new one. -/
structure Loaded (s s' : SymbolMapImpl) (path : Text) (a : UInt64) (u : Table) : Prop where
  filename : u.filename = path
  map : s'.map = update s.map a (some u)
  loadAddr : s'.loadAddr = s.loadAddr
  next : s.next ≤ s'.next
  origin : ∀ x v, s'.tableAt x = some v →
    x = .mapped a ∧ v = u ∨ s.tableAt x = some v ∧ v.id ≠ u.id
  old : u.id < s'.next
  present : u.id = s.next ∨ ∃ x t, s.tableAt x = some t ∧ t.id = u.id

theorem Sound.load (h : Sound s) (f : Files) (hnone : s.map a = none)
    (hread : a = 0 → f.tablesLoadAddr path = 0) :
    ∃ u, Loaded s (s.load f path a) path a u := by
  unfold SymbolMapImpl.load mapLibrary
  cases hneeded : s.neededTables path with
  | some t =>
    simp only [Option.map_some, Option.getD_some, insert_of_none hnone]
    refine ⟨(t.setAddr a).setUpper (a + f.memSize path), h.keyed path t hneeded, rfl, rfl, le_rfl,
      ?_, h.old (.needed path) t hneeded, .inr ⟨.needed path, t, hneeded, rfl⟩⟩
    rintro x v hx
    cases x with
    | mapped b =>
      obtain ⟨rfl, hnew⟩ | ⟨-, hold⟩ := update_eq_some hx
      · exact .inl ⟨rfl, (Option.some.inj hnew).symm⟩
      · exact .inr ⟨hold, fun hid => nomatch h.once (.mapped b) (.needed path) v t hold hneeded hid⟩
    | needed q =>
      obtain ⟨-, hnone⟩ | ⟨hq, hold⟩ := update_eq_some hx
      · cases hnone
      · refine .inr ⟨hold, fun hid => hq ?_⟩
        exact Place.needed.inj (h.once (.needed q) (.needed path) v t hold hneeded hid)
  | none =>
    have haddr : (if a = 0 then f.tablesLoadAddr path else a) = a := by
      split
      · rename_i hzero
        rw [hread hzero, hzero]
      · rfl
    simp only [Option.map_none, Option.getD_none, readTables, haddr, insert_of_none hnone]
    refine ⟨_, rfl, rfl, rfl, Nat.le_succ _, ?_, Nat.lt_succ_self _, .inl rfl⟩
    rintro x v hx
    cases x with
    | mapped b =>
      obtain ⟨rfl, hnew⟩ | ⟨-, hold⟩ := update_eq_some hx
      · exact .inl ⟨rfl, (Option.some.inj hnew).symm⟩
      · exact .inr ⟨hold, (h.old (.mapped b) v hold).ne⟩
    | needed q => exact .inr ⟨hx, (h.old (.needed q) v hx).ne⟩

section Loading

variable {s' : SymbolMapImpl} {u : Table}

theorem Loaded.sound (hload : Loaded s s' path a u) (h : Sound s) : Sound s' where
  once x y t v hx hy hid := by
    rcases hload.origin x t hx with ⟨rfl, rfl⟩ | ⟨hx, hxu⟩
    · rcases hload.origin y v hy with ⟨rfl, -⟩ | ⟨-, hyu⟩
      · rfl
      · exact absurd hid.symm hyu
    · rcases hload.origin y v hy with ⟨rfl, rfl⟩ | ⟨hy, -⟩
      · exact absurd hid hxu
      · exact h.once x y t v hx hy hid
  old x t hx := by
    rcases hload.origin x t hx with ⟨-, rfl⟩ | ⟨hx, -⟩
    · exact hload.old
    · exact (h.old x t hx).trans_le hload.next
  keyed q t hq := by
    rcases hload.origin (.needed q) t hq with ⟨hplace, -⟩ | ⟨hq, -⟩
    · cases hplace
    · exact h.keyed q t hq

theorem Loaded.gone (hload : Loaded s s' path a u) (h : Gone s id) : Gone s' id := by
  refine ⟨h.old.trans_le hload.next, fun x t hx => ?_⟩
  rcases hload.origin x t hx with ⟨-, rfl⟩ | ⟨hx, -⟩
  · rcases hload.present with hnew | ⟨y, v, hy, hid⟩
    · exact hnew ▸ h.old.ne'
    · exact hid ▸ h.nowhere y v hy
  · exact h.nowhere x t hx

end Loading

end Objects

section OneEntry

variable {s : SymbolMapImpl} {f : Files} {e : LinkData}

/-- `read_tables` puts the table where it is told to. Address 0 means that of the file. -/
def Files.ReadsAt (f : Files) (e : LinkData) : Prop :=
  f.libraryAddr e = 0 → f.tablesLoadAddr (f.path e.filename) = 0

def InMap (s : SymbolMapImpl) (f : Files) (e : LinkData) : Prop :=
  ∃ t, s.map (f.libraryAddr e) = some t ∧ t.filename = f.path e.filename

theorem updateLibrary_of_inMap (h : InMap s f e) : s.updateLibrary f e = s := by
  obtain ⟨t, ht, hname⟩ := h
  simp only [updateLibrary, ht, hname, if_true]

theorem Sound.updateLibrary_loads (h : Sound s) (hread : f.ReadsAt e) (hnot : ¬InMap s f e) :
    ∃ u, Loaded (s.erase (f.libraryAddr e)) (s.updateLibrary f e) (f.path e.filename)
      (f.libraryAddr e) u := by
  have herase : s.updateLibrary f e =
      (s.erase (f.libraryAddr e)).load f (f.path e.filename) (f.libraryAddr e) := by
    cases ht : s.map (f.libraryAddr e) with
    | none =>
      have hsame : s.erase (f.libraryAddr e) = s := by
        unfold erase
        rw [← ht, update_eq_self]
      simp only [SymbolMapImpl.updateLibrary, ht, hsame]
    | some t =>
      have hname : t.filename ≠ f.path e.filename := fun hname => hnot ⟨t, ht, hname⟩
      simp only [SymbolMapImpl.updateLibrary, ht, hname, if_false]
  rw [herase]
  exact (h.restrict (fun _ _ => tableAt_erase) rfl).load f (update_self _ _ _) hread

structure Updated (s s' : SymbolMapImpl) (f : Files) (e : LinkData) : Prop where
  sound : Sound s'
  inMap : InMap s' f e
  other : ∀ b ≠ f.libraryAddr e, s'.map b = s.map b
  loadAddr : s'.loadAddr = s.loadAddr
  gone : ∀ id, Gone s id → Gone s' id
  replaced : ∀ t, s.map (f.libraryAddr e) = some t → t.filename ≠ f.path e.filename →
    Gone s' t.id

theorem Sound.updateLibrary (h : Sound s) (hread : f.ReadsAt e) :
    Updated s (s.updateLibrary f e) f e := by
  by_cases hin : InMap s f e
  · rw [updateLibrary_of_inMap hin]
    refine ⟨h, hin, fun _ _ => rfl, rfl, fun _ => id, fun t ht hname => absurd ?_ hname⟩
    obtain ⟨u, hu, huname⟩ := hin
    rwa [← Option.some.inj (hu.symm.trans ht)]
  · obtain ⟨u, hload⟩ := h.updateLibrary_loads hread hin
    have herased : Sound (s.erase (f.libraryAddr e)) := h.restrict (fun _ _ => tableAt_erase) rfl
    refine ⟨hload.sound herased, ⟨u, ?_, hload.filename⟩, fun b hb => ?_, hload.loadAddr,
      fun id hid => ?_, fun t ht _ => ?_⟩
    · rw [hload.map, update_self]
    · rw [hload.map, update_of_ne hb]
      exact update_of_ne hb _ _
    · exact hload.gone (hid.restrict (fun _ _ => tableAt_erase) rfl)
    · exact hload.gone (h.gone_erase ht)

end OneEntry

end ZeroBugs.Symbolz.SymbolMap
