import ZeroBugs.Lib.LittleEndian
import ZeroBugs.Symbolz.NameComparators

/-! # Shared strings -/
namespace ZeroBugs.Zdk.SharedString
open Lib.LittleEndian Lib.Runs Symbolz List Function
open Symbolz.SymbolTable (compared strcmpIgnoreSpace strcmpIgnoreSpace_spec)

abbrev Text := List UInt8

abbrev Heap := UInt64 → Text

/-- The union in the representation, by `small_`. -/
inductive Impl where
  | small (length : Nat) (buf : List UInt8)
  | large (length : Nat) (str : UInt64) (hash : UInt32)

def bufSize : Nat := 15

def maxLen : Nat := 0x7fffffff

namespace Impl

def null : Impl := .large 0 0 0

/-- The bytes of `atom0_` and `atom1_`; `small_` is the lowest bit. -/
def atoms : Impl → List UInt8
  | .small n buf => UInt8.ofNat (1 + 2 * n) :: buf
  | .large n str h => encode 4 (2 * n) ++ (encode 8 str.toNat ++ encode 4 h.toNat)

variable (heap : Heap)

def cStr : Impl → Text
  | .small _ buf => buf.takeWhile (· ≠ 0)
  | .large _ str _ => if str = 0 then [] else heap str

/-- `length`, with the object it leaves, or nothing for a `range_error`. -/
def length : Impl → Option (Nat × Impl)
  | .small n buf => some (n, .small n buf)
  | .large n str h =>
    if n = 0 ∧ str ≠ 0 then
      let len := (heap str).length
      if maxLen < len then none else some (len, .large len str h)
    else some (n, .large n str h)

def hash (o : Impl) : UInt32 × Impl :=
  match o with
  | .small .. => (SymbolTable.hash (o.cStr heap), o)
  | .large n str h =>
    if h = 0 then
      let h := SymbolTable.hash (o.cStr heap)
      (h, .large n str h)
    else (h, o)

/-- `is_equal` with the `c_str` of another object; one pointer would have one text. -/
def isEqual (o : Impl) (str : Text) (ignoreSpace : Bool) : Bool :=
  if ignoreSpace then strcmpIgnoreSpace (o.cStr heap) str == 0 else o.cStr heap == str

def isEqual2 (same : Bool) (o impl : Impl) (ignspc : Bool) : Bool :=
  same || o.atoms == impl.atoms ||
    ((o.hash heap).1 == (impl.hash heap).1 && o.isEqual heap (impl.cStr heap) ignspc)

def allocate (text : Text) (addr : UInt64) : Option (Impl × Heap) :=
  if maxLen < text.length then none
  else if addr = 0 then some (null, heap)
  else some (.large text.length addr 0, update heap addr text)

def init (str : Text) (addr : UInt64) : Option (Impl × Heap) :=
  if str = [] then some (null, heap)
  else if str.length < bufSize then
    some (.small str.length (str ++ replicate (bufSize - str.length) 0), heap)
  else allocate heap str addr

/-- What `append` and `prepend` do with the whole text. -/
def concat (text : Text) (addr : UInt64) : Option (Impl × Heap) :=
  if text.length < bufSize then init heap text addr else allocate heap text addr

end Impl

structure State where
  heap : Heap
  objects : List Impl

/-- The constructors, and the calls that change or make an object. The address is what `malloc`
returns, or that of the string to be owned. -/
inductive Op where
  | create (str : Text) (addr : UInt64)
  | takeOwnership (str : Text) (addr : UInt64) (len : Nat)
  | append (i : Nat) (str : Text) (addr : UInt64)
  | prepend (i : Nat) (str : Text) (addr : UInt64)
  | length (i : Nat)
  | hash (i : Nat)

namespace State

def start : State := ⟨fun _ => [], []⟩

variable (s : State)

def concat (i : Nat) (addr : UInt64) (f : Text → Text) : Option State :=
  match s.objects[i]? with
  | none => some s
  | some o => do
    let (n, o') ← o.length s.heap
    let (new, heap) ← Impl.concat s.heap (f ((o.cStr s.heap).take n)) addr
    return ⟨heap, s.objects.set i o' ++ [new]⟩

def change (i : Nat) (f : Impl → Option Impl) : Option State :=
  match s.objects[i]? with
  | none => some s
  | some o => (f o).map fun o => { s with objects := s.objects.set i o }

def step : Op → Option State
  | .create str addr =>
    (Impl.init s.heap str addr).map fun (o, heap) => ⟨heap, s.objects ++ [o]⟩
  | .takeOwnership str addr len =>
    if maxLen < len then none
    else some ⟨update s.heap addr str, s.objects ++ [.large len addr 0]⟩
  | .append i str addr => s.concat i addr (· ++ str)
  | .prepend i str addr => s.concat i addr (str ++ ·)
  | .length i => s.change i fun o => (o.length s.heap).map Prod.snd
  | .hash i => s.change i fun o => some (o.hash s.heap).2

end State

/-- The contents of the objects, and the addresses that are in use. -/
structure Contents where
  texts : List Text
  used : List UInt64

namespace Contents

variable (c : Contents)

def concat (i : Nat) (addr : UInt64) (f : Text → Text) : Contents :=
  match c.texts[i]? with
  | none => c
  | some t => ⟨c.texts ++ [f t], addr :: c.used⟩

def step : Op → Contents
  | .create str addr | .takeOwnership str addr _ => ⟨c.texts ++ [str], addr :: c.used⟩
  | .append i str addr => c.concat i addr (· ++ str)
  | .prepend i str addr => c.concat i addr (str ++ ·)
  | _ => c

structure Fits (text : Text) (addr : UInt64) : Prop where
  noNul : 0 ∉ text
  length : text.length < 2 ^ 31
  addr_ne : addr ≠ 0
  fresh : addr ∉ c.used

def Allowed : Op → Prop
  | .create str addr => c.Fits str addr
  | .takeOwnership str addr len => c.Fits str addr ∧ (len = 0 ∨ len = str.length)
  | .append i str addr => ∀ t, c.texts[i]? = some t → c.Fits (t ++ str) addr
  | .prepend i str addr => ∀ t, c.texts[i]? = some t → c.Fits (str ++ t) addr
  | _ => True

end Contents

/-- Nothing is seen of the objects but their contents. An object is compared with itself where
`same` is set. -/
structure Behaves (s : State) (texts : List Text) : Prop where
  size : s.objects.length = texts.length
  content : ∀ x ∈ s.objects.zip texts,
    x.1.cStr s.heap = x.2 ∧ (x.1.length s.heap).map Prod.fst = some x.2.length
  equal : ∀ x ∈ s.objects.zip texts, ∀ y ∈ s.objects.zip texts, ∀ same ignspc,
    (same = true → x = y) →
    (x.1.isEqual2 s.heap same y.1 ignspc = true ↔ compared ignspc x.2 = compared ignspc y.2)
  hashes : ∀ x ∈ s.objects.zip texts, ∀ y ∈ s.objects.zip texts,
    compared true x.2 = compared true y.2 → (x.1.hash s.heap).1 = (y.1.hash s.heap).1

/-- The object has this content, and its string is at an address in use. -/
inductive Holds (heap : Heap) (used : List UInt64) : Impl → Text → Prop
  | null : Holds heap used .null []
  | small {t : Text} (hlen : t.length < bufSize) (hnul : 0 ∉ t) :
    Holds heap used (.small t.length (t ++ replicate (bufSize - t.length) 0)) t
  | large {n : Nat} {str : UInt64} {h : UInt32} (hne : str ≠ 0) (hused : str ∈ used)
    (hlen : (heap str).length < 2 ^ 31) (hn : n = 0 ∨ n = (heap str).length)
    (hh : h = 0 ∨ h = SymbolTable.hash (heap str)) :
    Holds heap used (.large n str h) (heap str)

section

variable {heap heap' : Heap} {used : List UInt64} {o p : Impl} {t u : Text}

theorem Holds.cStr (h : Holds heap used o t) : o.cStr heap = t := by
  cases h with
  | null => rfl
  | small hlen hnul =>
    have hall : ∀ c ∈ t, decide (c ≠ 0) = true := fun c hc =>
      decide_eq_true fun h0 => hnul (h0 ▸ hc)
    have hzeros : (replicate (bufSize - t.length) (0 : UInt8)).takeWhile (· ≠ 0) = [] := by
      simp
    rw [Impl.cStr, takeWhile_append_of_pos hall, hzeros, append_nil]
  | large hne => rw [Impl.cStr, if_neg hne]

theorem Holds.length (h : Holds heap used o t) :
    ∃ o', o.length heap = some (t.length, o') ∧ Holds heap used o' t := by
  cases h with
  | null => exact ⟨_, rfl, .null⟩
  | small hlen hnul => exact ⟨_, rfl, .small hlen hnul⟩
  | large hne hused hlen hn hh =>
    have hmax : ¬maxLen < (heap _).length := Nat.not_lt.mpr (Nat.le_of_lt_succ hlen)
    rw [Impl.length]
    rcases hn with rfl | rfl
    · rw [if_pos ⟨rfl, hne⟩, if_neg hmax]
      exact ⟨_, rfl, .large hne hused hlen (.inr rfl) hh⟩
    · split
      · exact ⟨_, if_neg hmax, .large hne hused hlen (.inr rfl) hh⟩
      · exact ⟨_, rfl, .large hne hused hlen (.inr rfl) hh⟩

theorem Holds.hash (h : Holds heap used o t) :
    (o.hash heap).1 = SymbolTable.hash t ∧ Holds heap used (o.hash heap).2 t := by
  have hstr := h.cStr
  cases h with
  | null => exact ⟨rfl, .null⟩
  | small hlen hnul => exact ⟨congrArg SymbolTable.hash hstr, .small hlen hnul⟩
  | large hne hused hlen hn hh =>
    simp only [Impl.hash, hstr]
    split
    · exact ⟨rfl, .large hne hused hlen hn (.inr rfl)⟩
    · next hzero => exact ⟨hh.resolve_left hzero, .large hne hused hlen hn hh⟩

theorem Holds.mono {addr : UInt64} (h : Holds heap used o t) (hfresh : addr ∉ used)
    (hheap : ∀ a, a ≠ addr → heap' a = heap a) : Holds heap' (addr :: used) o t := by
  cases h with
  | null => exact .null
  | small hlen hnul => exact .small hlen hnul
  | large hne hused hlen hn hh =>
    have heq := hheap _ (ne_of_mem_of_not_mem hused hfresh)
    rw [← heq] at hlen hn hh ⊢
    exact .large hne (mem_cons_of_mem _ hused) hlen hn hh

/-- The lowest bit tells small strings from the others, and in these the address tells the text. -/
theorem Holds.eq_of_atoms (ho : Holds heap used o t) (hp : Holds heap used p u)
    (h : o.atoms = p.atoms) : t = u := by
  have hparity (n m : Nat) : UInt8.ofNat (1 + 2 * n) ≠ UInt8.ofNat (2 * m) := by
    intro heq
    have := congrArg UInt8.toNat heq
    simp only [UInt8.toNat_ofNat'] at this
    omega
  have hlow {n m : Nat} {buf rest : List UInt8} :
      UInt8.ofNat (1 + 2 * n) :: buf ≠ encode 4 (2 * m) ++ rest :=
    fun heq => hparity n m (cons_eq_cons.mp heq).1
  have haddr {n m : Nat} {str str' : UInt64} {h h' : UInt32}
      (heq : (Impl.large n str h).atoms = (Impl.large m str' h').atoms) : str = str' := by
    have hmid := (append_inj (append_inj heq (by simp)).2 (by simp)).1
    have hdec := congrArg decode hmid
    rw [decode_encode_of_lt str.toNat_lt, decode_encode_of_lt str'.toNat_lt] at hdec
    exact UInt64.toNat_inj.mp hdec
  cases ho with
  | small hlen hnul =>
    cases hp with
    | small hlen' hnul' =>
      have ht : _ = t := (Holds.small hlen hnul : Holds heap used _ t).cStr
      have hu : _ = u := (Holds.small hlen' hnul' : Holds heap used _ u).cStr
      rw [Impl.cStr] at ht hu
      rw [← ht, ← hu, (cons_eq_cons.mp h).2]
    | null | large => exact absurd h hlow
  | null =>
    cases hp with
    | small => exact absurd h.symm hlow
    | null => rfl
    | large hne => exact absurd (haddr h).symm hne
  | large hne =>
    cases hp with
    | small => exact absurd h.symm hlow
    | null => exact absurd (haddr h) hne
    | large => rw [haddr h]

theorem hash_compared (t : Text) : SymbolTable.hash (compared true t) = SymbolTable.hash t := by
  simp only [SymbolTable.hash, compared, if_true, foldl_filter]
  congr 2
  funext h c
  cases SymbolTable.isSpace c <;> rfl

theorem isEqual_iff {str : Text} {ignspc : Bool} (h : Holds heap used o t) :
    o.isEqual heap str ignspc = true ↔ compared ignspc t = compared ignspc str := by
  rw [Impl.isEqual, h.cStr]
  cases ignspc with
  | false => simp [compared]
  | true =>
    have hinj : Injective SymbolTable.signedChar := fun _ _ => SymbolTable.signedChar_inj
    rw [if_pos rfl, beq_iff_eq, (strcmpIgnoreSpace_spec t str).2, SymbolTable.spacelessKey,
      SymbolTable.spacelessKey, (map_injective_iff.mpr hinj).eq_iff]
    rfl

theorem isEqual2_iff {same ignspc : Bool} (ho : Holds heap used o t) (hp : Holds heap used p u)
    (hsame : same = true → t = u) :
    o.isEqual2 heap same p ignspc = true ↔ compared ignspc t = compared ignspc u := by
  simp only [Impl.isEqual2, Bool.or_eq_true, Bool.and_eq_true, beq_iff_eq, isEqual_iff ho,
    ho.hash.1, hp.hash.1, hp.cStr]
  constructor
  · rintro ((h | h) | ⟨-, h⟩)
    · rw [hsame h]
    · rw [ho.eq_of_atoms hp h]
    · exact h
  · refine fun h => .inr ⟨?_, h⟩
    cases ignspc with
    | false => exact congrArg SymbolTable.hash h
    | true => rw [← hash_compared t, ← hash_compared u, h]

variable {s : State} {c : Contents} {text : Text} {addr : UInt64}

/-- A new object with its content, beside those that are there. -/
structure Made (heap : Heap) (used : List UInt64) (text : Text) (addr : UInt64)
    (r : Impl × Heap) : Prop where
  holds : Holds r.2 (addr :: used) r.1 text
  kept : ∀ a, a ≠ addr → r.2 a = heap a

theorem made_large (h : c.Fits text addr) {n : Nat} (hn : n = 0 ∨ n = text.length) :
    Made heap c.used text addr (.large n addr 0, update heap addr text) := by
  have hself : update heap addr text addr = text := update_self ..
  have hlarge : Holds (update heap addr text) (addr :: c.used) (.large n addr 0)
      (update heap addr text addr) :=
    .large h.addr_ne mem_cons_self (hself.symm ▸ h.length) (hself.symm ▸ hn) (.inl rfl)
  rw [hself] at hlarge
  exact ⟨hlarge, fun a ha => update_of_ne ha ..⟩

theorem allocate_made (heap : Heap) (h : c.Fits text addr) :
    ∃ r, Impl.allocate heap text addr = some r ∧ Made heap c.used text addr r := by
  have hmax : ¬maxLen < text.length := Nat.not_lt.mpr (Nat.le_of_lt_succ h.length)
  rw [Impl.allocate, if_neg hmax, if_neg h.addr_ne]
  exact ⟨_, rfl, made_large h (.inr rfl)⟩

theorem init_made (heap : Heap) (h : c.Fits text addr) :
    ∃ r, Impl.init heap text addr = some r ∧ Made heap c.used text addr r := by
  rw [Impl.init]
  split_ifs with hnil hsmall
  · subst hnil
    exact ⟨_, rfl, .null, fun _ _ => rfl⟩
  · exact ⟨_, rfl, .small hsmall h.noNul, fun _ _ => rfl⟩
  · exact allocate_made heap h

theorem concat_made (heap : Heap) (h : c.Fits text addr) :
    ∃ r, Impl.concat heap text addr = some r ∧ Made heap c.used text addr r := by
  rw [Impl.concat]
  split
  · exact init_made heap h
  · exact allocate_made heap h

def Inv (s : State) (c : Contents) : Prop := Forall₂ (Holds s.heap c.used) s.objects c.texts

theorem Inv.push (h : Inv s c) (hfits : c.Fits text addr) {r : Impl × Heap}
    (hr : Made s.heap c.used text addr r) :
    Inv ⟨r.2, s.objects ++ [r.1]⟩ ⟨c.texts ++ [text], addr :: c.used⟩ :=
  rel_append (h.imp fun _ _ ho => ho.mono hfits.fresh hr.kept) (.cons hr.holds .nil)

theorem forall₂_at {α β : Type*} {R : α → β → Prop} {l : List α} {l' : List β}
    (h : Forall₂ R l l') {i : Nat} {a : α} (hi : l[i]? = some a) :
    ∃ b, l'[i]? = some b ∧ R a b ∧ ∀ a', R a' b → Forall₂ R (l.set i a') l' := by
  induction h generalizing i with
  | nil => cases hi
  | @cons a₀ b l l' hab htail ih =>
    cases i with
    | zero =>
      cases hi
      exact ⟨b, rfl, hab, fun a' ha' => .cons ha' htail⟩
    | succ i =>
      obtain ⟨b', hb, hab', hset⟩ := ih hi
      exact ⟨b', hb, hab', fun a' ha' => .cons hab (hset a' ha')⟩

theorem Inv.change (h : Inv s c) {i : Nat} {f : Impl → Option Impl}
    (hf : ∀ o t, Holds s.heap c.used o t → ∃ o', f o = some o' ∧ Holds s.heap c.used o' t) :
    ∃ s', s.change i f = some s' ∧ Inv s' c := by
  unfold State.change
  cases hi : s.objects[i]? with
  | none => exact ⟨s, rfl, h⟩
  | some o =>
    obtain ⟨t, -, ho, hset⟩ := forall₂_at h hi
    obtain ⟨o', hf, ho'⟩ := hf o t ho
    exact ⟨_, congrArg (Option.map _) hf, hset o' ho'⟩

theorem Inv.concat (h : Inv s c) {i : Nat} {f : Text → Text}
    (hfits : ∀ t, c.texts[i]? = some t → c.Fits (f t) addr) :
    ∃ s', s.concat i addr f = some s' ∧ Inv s' (c.concat i addr f) := by
  unfold State.concat Contents.concat
  cases hi : s.objects[i]? with
  | none =>
    rw [getElem?_eq_none_iff.mpr (h.length_eq ▸ getElem?_eq_none_iff.mp hi)]
    exact ⟨s, rfl, h⟩
  | some o =>
    obtain ⟨t, ht, ho, hset⟩ := forall₂_at h hi
    obtain ⟨o', hlen, ho'⟩ := ho.length
    obtain ⟨r, hr, hmade⟩ := concat_made s.heap (hfits t ht)
    simp only [hlen, ho.cStr, take_length, hr, ht, Option.bind_eq_bind, Option.bind_some]
    have hinv : Inv ⟨s.heap, s.objects.set i o'⟩ c := hset o' ho'
    exact ⟨_, rfl, hinv.push (hfits t ht) hmade⟩

theorem Inv.step (h : Inv s c) {op : Op} (hop : c.Allowed op) :
    ∃ s', s.step op = some s' ∧ Inv s' (c.step op) := by
  cases op with
  | create str addr =>
    obtain ⟨r, hr, hmade⟩ := init_made s.heap hop
    exact ⟨_, by rw [State.step, hr]; rfl, h.push hop hmade⟩
  | takeOwnership str addr len =>
    obtain ⟨hfits, hlen⟩ := hop
    have hmax : ¬maxLen < len := by
      have := hfits.length
      rcases hlen with rfl | rfl <;> simp only [maxLen] <;> omega
    exact ⟨_, if_neg hmax, h.push hfits (made_large hfits hlen)⟩
  | append i str addr => exact h.concat hop
  | prepend i str addr => exact h.concat hop
  | length i =>
    refine h.change fun o t ho => ?_
    obtain ⟨o', hlen, ho'⟩ := ho.length
    exact ⟨o', by rw [hlen]; rfl, ho'⟩
  | hash i => exact h.change fun o t ho => ⟨_, rfl, ho.hash.2⟩

theorem Inv.run (h : Inv s c) {ops : List Op}
    (hops : Along Contents.step Contents.Allowed c ops) :
    ∃ s', ops.foldlM State.step s = some s' ∧ Inv s' (run Contents.step c ops) := by
  induction ops generalizing s c with
  | nil => exact ⟨s, rfl, h⟩
  | cons op ops ih =>
    obtain ⟨hop, hops⟩ := hops
    obtain ⟨s', hstep, hs'⟩ := h.step hop
    rw [foldlM_cons, hstep]
    exact ih hs' hops

theorem Inv.behaves (h : Inv s c) : Behaves s c.texts := by
  obtain ⟨hsize, hall⟩ := forall₂_iff_zip.mp h
  refine ⟨hsize, fun x hx => ?_, fun x hx y hy same ignspc hsame => ?_, fun x hx y hy heq => ?_⟩
  · obtain ⟨o', hlen, -⟩ := (hall hx).length
    exact ⟨(hall hx).cStr, by rw [hlen]; rfl⟩
  · exact isEqual2_iff (hall hx) (hall hy) fun h => congrArg Prod.snd (hsame h)
  · rw [(hall hx).hash.1, (hall hy).hash.1, ← hash_compared x.2, ← hash_compared y.2, heq]

end

theorem run_behaves {ops : List Op} (h : Along Contents.step Contents.Allowed ⟨[], []⟩ ops) :
    ∃ s, ops.foldlM State.step State.start = some s ∧
      Behaves s (run Contents.step ⟨[], []⟩ ops).texts := by
  have hstart : Inv .start ⟨[], []⟩ := .nil
  obtain ⟨s, hs, hinv⟩ := hstart.run h
  exact ⟨s, hs, hinv.behaves⟩

theorem run_behaves_append :
    ∃ s, [Op.create [97, 32] 16, .append 0 [98] 32].foldlM State.step State.start = some s ∧
      Behaves s [[97, 32], [97, 32, 98]] := by
  refine run_behaves ⟨⟨by decide, by decide, by decide, by decide⟩, ?_, trivial⟩
  rintro t ⟨⟩
  exact ⟨by decide, by decide, by decide, by decide⟩

end ZeroBugs.Zdk.SharedString
