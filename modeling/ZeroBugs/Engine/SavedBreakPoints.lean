import ZeroBugs.Engine.PersistedObjects

/-! # Breakpoints in the history -/
namespace ZeroBugs.Engine.SavedBreakPoints
open Dharma.Stream List

structure Switchable where
  activationExpr : CString
  activationCounter : UInt64
  autoReset : Bool

structure Symbol where
  name : CString
  line : UInt64
  file : Option CString

/-- What an image is made of; `switchable` is the first action that is one. -/
structure BreakPoint where
  addr : UInt64
  hasEnabledActions : Bool
  isDeferred : Bool
  lwpid : UInt32
  type : UInt32
  symbol : Option Symbol
  switchable : Option Switchable

def autoResetBit : UInt64 := 0x8000000000000000

def image (bpnt : BreakPoint) : BreakPointImage where
  addr := bpnt.addr
  enabled := if bpnt.hasEnabledActions then 1 else 0
  deferred := if bpnt.isDeferred then 1 else 0
  symName := bpnt.symbol.map (·.name)
  file := bpnt.symbol.bind (·.file)
  line := (bpnt.symbol.map (·.line)).getD 0
  activationCount :=
    match bpnt.switchable with
    | none => 0
    | some sw =>
      if sw.autoReset then sw.activationCounter ||| autoResetBit else sw.activationCounter
  lwpid := bpnt.lwpid
  condition := (bpnt.switchable.map (·.activationExpr)).getD (.ofBuffer [])
  type := bpnt.type

def newImage (line : UInt64) : BreakPointImage := { line := line }

def literal (text : String) : CString := .ofBuffer (text.toList.map fun c => UInt8.ofNat c.toNat)

def word (name : String) (value : UInt64) : List Field := [.word (literal name) value]

def wordUnlessZero (name : String) (value : UInt64) : List Field :=
  if value = 0 then [] else word name value

def string (name : String) (value : Option CString) : List Field :=
  (value.map fun s => Field.string (literal name) s).toList

def pidWord (pid : UInt32) : UInt64 := .ofBitVec (pid.toBitVec.signExtend 64)

def write (img : BreakPointImage) : List Field :=
  word "addr" img.addr ++ word "enbl" img.enabled ++ word "defer" img.deferred ++
    wordUnlessZero "line" img.line ++ string "sym" img.symName ++ string "file" img.file ++
    string "cond" (if img.condition.bytes.isEmpty then none else some img.condition) ++
    wordUnlessZero "actc" img.activationCount ++ wordUnlessZero "lwpid" (pidWord img.lwpid) ++
    word "type" img.type.toUInt64

/-- The fields as the stream hands them to an image: `read_leaf` says so of the bytes of
each. -/
def read (h : Except Fault BreakPointImage) (fields : List Field) : Except Fault BreakPointImage :=
  fields.foldl (notify (some imageReader.events)) h

theorem toUInt32_pidWord (pid : UInt32) : (pidWord pid).toUInt32 = pid := by
  apply UInt32.eq_of_toBitVec_eq
  rw [UInt64.toBitVec_toUInt32, pidWord]
  apply BitVec.eq_of_getLsbD_eq
  intro i hi
  simp only [BitVec.getLsbD_setWidth, BitVec.getLsbD_signExtend, hi, decide_true, Bool.true_and,
    if_true]
  exact Bool.and_eq_right_iff_imp.mpr fun _ => decide_eq_true (by omega)

theorem pidWord_eq_zero (pid : UInt32) : pidWord pid = 0 ↔ pid = 0 := by
  refine ⟨fun h => ?_, fun h => h ▸ rfl⟩
  rw [← toUInt32_pidWord pid, h]
  rfl

theorem read_append (h : Except Fault BreakPointImage) (fs gs : List Field) :
    read h (fs ++ gs) = read (read h fs) gs := foldl_append

section Members

variable (b : BreakPointImage) (v : UInt64) (s : Option CString)

theorem read_line : read (.ok b) (wordUnlessZero "line" v) =
    .ok { b with line := if v = 0 then b.line else v } := by
  unfold wordUnlessZero
  split
  · rfl
  · rfl

theorem read_actc (h : b.activationCount = 0) :
    read (.ok b) (wordUnlessZero "actc" v) = .ok { b with activationCount := v } := by
  unfold wordUnlessZero
  split
  · next hv => rw [hv, ← h]; rfl
  · exact if_pos (beq_iff_eq.mpr h)

theorem read_lwpid (h : b.lwpid = 0) (pid : UInt32) :
    read (.ok b) (wordUnlessZero "lwpid" (pidWord pid)) = .ok { b with lwpid := pid } := by
  unfold wordUnlessZero
  split
  · next hv => rw [(pidWord_eq_zero pid).mp hv, ← h]; rfl
  · refine (if_pos (beq_iff_eq.mpr h)).trans ?_
    rw [toUInt32_pidWord]

theorem read_type (h : b.type = 1) (type : UInt32) :
    read (.ok b) (word "type" type.toUInt64) = .ok { b with type := type } := by
  refine (if_pos (beq_iff_eq.mpr h)).trans ?_
  rw [UInt32.toUInt32_toUInt64]

theorem read_sym (h : b.symName = none) :
    read (.ok b) (string "sym" s) = .ok { b with symName := s } := by
  cases s with
  | none => exact congrArg Except.ok (by rw [← h])
  | some s => exact if_pos (by rw [h]; rfl)

theorem read_file (h : b.file = none) :
    read (.ok b) (string "file" s) = .ok { b with file := s } := by
  cases s with
  | none => exact congrArg Except.ok (by rw [← h])
  | some s => exact if_pos (by rw [h]; rfl)

theorem read_cond (h : b.condition = .ofBuffer []) (s : CString) :
    read (.ok b) (string "cond" (if s.bytes.isEmpty then none else some s)) =
      .ok { b with condition := s } := by
  split
  · next hs =>
    obtain ⟨bytes, hnul⟩ := s
    obtain rfl := List.isEmpty_iff.mp hs
    rw [← show b.condition = ⟨[], hnul⟩ from h]
    rfl
  · exact if_pos (by rw [h]; rfl)

end Members

theorem read_write (g : UInt64) (img : BreakPointImage) :
    read (.ok (newImage g)) (write img) =
      .ok { img with line := if img.line = 0 then g else img.line } := by
  have hfirst : read (.ok (newImage g))
      (word "addr" img.addr ++ word "enbl" img.enabled ++ word "defer" img.deferred) =
      .ok { newImage g with
        addr := img.addr, enabled := img.enabled, deferred := img.deferred } := rfl
  rw [write, read_append, read_append, read_append, read_append, read_append, read_append,
    read_append, hfirst, read_line, read_sym, read_file, read_cond, read_actc, read_lwpid,
    read_type]
  all_goals rfl

theorem read_image_iff (bpnt : BreakPoint) (g : UInt64) :
    read (.ok (newImage g)) (write (image bpnt)) = .ok (image bpnt) ↔
      (image bpnt).line ≠ 0 ∨ g = 0 := by
  rw [read_write]
  refine ⟨fun h => ?_, fun h => ?_⟩
  · have hline := congrArg BreakPointImage.line (Except.ok.inj h)
    by_cases hzero : (image bpnt).line = 0
    · rw [if_pos hzero] at hline
      exact .inr (hline.trans hzero)
    · exact .inl hzero
  · split
    · next hzero =>
      rw [h.resolve_left (not_not.mpr hzero), ← hzero]
    · rfl

def atLine (line : UInt64) : BreakPoint :=
  ⟨0x400000, true, false, 1, 1, some ⟨literal "main", line, none⟩, none⟩

theorem line_not_read_back :
    ¬(read (.ok (newImage 7)) (write (image (atLine 0))) = .ok (image (atLine 0))) := by
  intro h
  exact absurd (congrArg BreakPointImage.line (Except.ok.inj h)) (by decide)

/-- A module of an entry of the history, with its range of addresses. -/
structure Module where
  name : CString
  addr : UInt64
  upper : UInt64
  ordered : addr ≤ upper

def Module.Contains (m : Module) (addr : UInt64) : Prop := m.addr ≤ addr ∧ addr < m.upper

/-- `modules_` of a `HistoryEntryImpl`, in the order in which they are iterated. -/
structure Entry where
  modules : List Module
  names : (modules.map (·.name)).Nodup
  disjoint : modules.Pairwise fun m m' => ∀ addr, ¬(m.Contains addr ∧ m'.Contains addr)

namespace Entry

def getModule (entry : Entry) (name : CString) : Option Module :=
  entry.modules.find? (·.name = name)

def getModuleAt (entry : Entry) (addr : UInt64) : Option Module :=
  entry.modules.find? fun m => m.addr ≥ addr ∧ m.upper < addr

end Entry

/-- The breakpoints that are enumerated: whether one has a `USER` action, and the file of the
table its symbol is in, if that is known. -/
structure Enumerated (β : Type) where
  addr : β → UInt64
  user : β → Bool
  table : β → Option CString

/-- The images in each module, by address: the breakpoint each was made of. -/
abbrev Images (β : Type) := CString → UInt64 → Option β

def addBreakpointImage {β : Type} (images : Images β) (name : CString) (addr : UInt64) (bpnt : β) :
    Images β := fun n a =>
  if n = name ∧ a = addr then (images n a).or (some bpnt) else images n a

variable {β : Type} (entry : Entry) (e : Enumerated β)

def notify (images : Images β) (bpnt : β) : Images β :=
  if e.user bpnt then
    match ((e.table bpnt).bind entry.getModule).or (entry.getModuleAt (e.addr bpnt)) with
    | none => images
    | some m => addBreakpointImage images m.name (e.addr bpnt) bpnt
  else images

/-- The images after the enumeration; `ModuleListBuilder` erased what was there. -/
def build (bpnts : List β) : Images β :=
  bpnts.foldl (SavedBreakPoints.notify entry e) fun _ _ => none

def Named (bpnt : β) (m : Module) : Prop := m ∈ entry.modules ∧ e.table bpnt = some m.name

def Belongs (bpnt : β) (m : Module) : Prop :=
  e.user bpnt = true ∧ (Named entry e bpnt m ∨
    (∀ m', ¬Named entry e bpnt m') ∧ m ∈ entry.modules ∧ m.Contains (e.addr bpnt))

/-- A breakpoint has one image, under its address in the module it belongs to, or none. -/
def SavedWithModule (bpnts : List β) : Prop :=
  ∀ bpnt, ∀ m ∈ entry.modules, ∀ a, build entry e bpnts m.name a = some bpnt ↔
    bpnt ∈ bpnts ∧ Belongs entry e bpnt m ∧ a = e.addr bpnt

variable {entry e}

theorem getModuleAt_eq_none (addr : UInt64) : entry.getModuleAt addr = none := by
  refine find?_eq_none.mpr fun m _ => ?_
  have := m.ordered
  simp only [ge_iff_le, decide_eq_true_eq, UInt64.le_iff_toNat_le, UInt64.lt_iff_toNat_lt] at *
  omega

theorem getModule_eq_some {name : CString} {m : Module} :
    entry.getModule name = some m ↔ m ∈ entry.modules ∧ m.name = name := by
  refine ⟨fun h => ⟨mem_of_find?_eq_some h, by simpa using find?_some h⟩, ?_⟩
  intro ⟨hmem, hname⟩
  have hsome : (entry.getModule name).isSome := find?_isSome.mpr
    ⟨m, hmem, decide_eq_true hname⟩
  obtain ⟨m', hm'⟩ := Option.isSome_iff_exists.mp hsome
  have hsame : m'.name = m.name := by
    rw [hname]
    simpa using find?_some hm'
  rw [hm', inj_on_of_nodup_map entry.names (mem_of_find?_eq_some hm')
    hmem hsame]

/-- What is saved under an address of a module: the first breakpoint there whose symbol is in
the module. -/
def savedAt (entry : Entry) (e : Enumerated β) (n : CString) (a : UInt64) (bpnt : β) : Bool :=
  e.user bpnt && (((e.table bpnt).bind entry.getModule).any (·.name = n) && a == e.addr bpnt)

theorem notify_eq (images : Images β) (bpnt : β) (n : CString) (a : UInt64) :
    SavedBreakPoints.notify entry e images bpnt n a =
      (images n a).or (if savedAt entry e n a bpnt then some bpnt else none) := by
  unfold SavedBreakPoints.notify savedAt
  rw [getModuleAt_eq_none]
  cases e.user bpnt with
  | false => simp
  | true =>
    cases (e.table bpnt).bind entry.getModule with
    | none => simp
    | some m =>
      by_cases hname : n = m.name
      · by_cases haddr : a = e.addr bpnt <;> simp [addBreakpointImage, hname, haddr]
      · simp [addBreakpointImage, hname, Ne.symm hname]

theorem build_eq (bpnts : List β) (n : CString) (a : UInt64) :
    build entry e bpnts n a = bpnts.find? (savedAt entry e n a) := by
  suffices h : ∀ images : Images β, bpnts.foldl (SavedBreakPoints.notify entry e) images n a =
      (images n a).or (bpnts.find? (savedAt entry e n a)) from h _
  induction bpnts with
  | nil => exact fun images => Option.or_none.symm
  | cons bpnt bpnts ih =>
    intro images
    rw [foldl_cons, ih, notify_eq, Option.or_assoc, find?_cons]
    cases savedAt entry e n a bpnt <;> rfl

theorem savedAt_iff {m : Module} (hm : m ∈ entry.modules) {a : UInt64} {bpnt : β} :
    savedAt entry e m.name a bpnt = true ↔
      e.user bpnt = true ∧ Named entry e bpnt m ∧ a = e.addr bpnt := by
  have hnamed : ((e.table bpnt).bind entry.getModule).any (·.name = m.name) = true ↔
      e.table bpnt = some m.name := by
    simp only [Option.any_eq_true, Option.bind_eq_some_iff, getModule_eq_some, decide_eq_true_eq]
    refine ⟨?_, fun h => ⟨m, ⟨m.name, h, hm, rfl⟩, rfl⟩⟩
    intro ⟨m', ⟨name, htable, _, hname'⟩, hname⟩
    rw [htable, ← hname', hname]
  simp only [savedAt, Bool.and_eq_true, hnamed, beq_iff_eq, Named, hm, true_and]

theorem savedWithModule_iff (bpnts : List β) : SavedWithModule entry e bpnts ↔
    (∀ bpnt ∈ bpnts, e.user bpnt = true → (∀ m, ¬Named entry e bpnt m) →
      ∀ m ∈ entry.modules, ¬m.Contains (e.addr bpnt)) ∧
    ∀ b ∈ bpnts, ∀ b' ∈ bpnts, e.user b = true → e.user b' = true →
      ∀ m, Named entry e b m → Named entry e b' m → e.addr b = e.addr b' → b = b' := by
  refine ⟨fun h => ⟨?_, ?_⟩, fun ⟨hrange, haddr⟩ bpnt m hm a => ?_⟩
  · intro bpnt hmem huser hnone m hm hin
    have hsaved := (h bpnt m hm (e.addr bpnt)).mpr ⟨hmem, ⟨huser, .inr ⟨hnone, hm, hin⟩⟩, rfl⟩
    rw [build_eq] at hsaved
    exact hnone m ((savedAt_iff hm).mp (find?_some hsaved)).2.1
  · intro b hb b' hb' huser huser' m hm hm' heq
    have hsaved := (h b m hm.1 (e.addr b)).mpr ⟨hb, ⟨huser, .inl hm⟩, rfl⟩
    have hsaved' := (h b' m hm.1 (e.addr b)).mpr ⟨hb', ⟨huser', .inl hm'⟩, heq⟩
    exact Option.some.inj (hsaved.symm.trans hsaved')
  · rw [build_eq]
    refine ⟨fun hfind => ?_, fun ⟨hmem, ⟨huser, hbelongs⟩, ha⟩ => ?_⟩
    · obtain ⟨huser, hnamed, ha⟩ := (savedAt_iff hm).mp (find?_some hfind)
      exact ⟨mem_of_find?_eq_some hfind, ⟨huser, .inl hnamed⟩, ha⟩
    · have hnamed : Named entry e bpnt m :=
        hbelongs.resolve_right fun ⟨hnone, _, hin⟩ => hrange bpnt hmem huser hnone m hm hin
      obtain ⟨b, hb⟩ := Option.isSome_iff_exists.mp
        (find?_isSome.mpr ⟨bpnt, hmem, (savedAt_iff hm).mpr ⟨huser, hnamed, ha⟩⟩)
      obtain ⟨huser', hnamed', ha'⟩ := (savedAt_iff hm).mp (find?_some hb)
      rw [hb, haddr b (mem_of_find?_eq_some hb) bpnt hmem huser' huser m hnamed' hnamed
        (ha'.symm.trans ha)]

def oneModule : Entry := ⟨[⟨literal "a.out", 0x1000, 0x2000, by decide⟩], by decide, by simp⟩

theorem stripped_not_saved :
    ¬SavedWithModule oneModule ⟨fun () => 0x1800, fun _ => true, fun _ => none⟩ [()] := by
  intro h
  have hin : Module.Contains ⟨literal "a.out", 0x1000, 0x2000, by decide⟩ 0x1800 :=
    ⟨by decide, by decide⟩
  have hsaved := (h () _ mem_cons_self 0x1800).mpr
    ⟨mem_cons_self, ⟨rfl, .inr ⟨fun _ hm => (nomatch hm.2), mem_cons_self, hin⟩⟩, rfl⟩
  cases hsaved

end ZeroBugs.Engine.SavedBreakPoints
