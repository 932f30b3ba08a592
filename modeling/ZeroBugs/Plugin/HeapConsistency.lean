import ZeroBugs.Lib.Runs
import ZeroBugs.Plugin.HeapTracker

/-! # The heap tracker and the live blocks -/
namespace ZeroBugs.Plugin.Heap
open Lib.Runs List

abbrev Live := List (Nat × Nat)

inductive Call where
  | add (hasTrace : Bool) (addr size : Nat)
  | remove (addr : Nat)
  | enum (option : EnumOption)

/-- A call on the plugin. One that erases the end of an index does not return. -/
def HeapPlugin.step (c : Containers) (s : HeapPlugin) : Call → HeapPlugin
  | .add hasTrace addr size => s.addHeapBlock c hasTrace addr size
  | .remove addr => s.removeHeapBlock addr
  | .enum option => (s.enumBlocks option).elim s Prod.snd

def Live.step (live : Live) : Call → Live
  | .add _ addr size => (addr, size) :: live
  | .remove addr => live.filter (·.1 ≠ addr)
  | .enum _ => live

abbrev State := HeapPlugin × Live

def step (c : Containers) : State → Call → State := both (HeapPlugin.step c) Live.step

def start : State := (.empty, [])

def Block.entry (b : Block) : Nat × Nat := (b.addr, b.size)

def Live.size (live : Live) : Nat := (live.map Prod.snd).sum

def Ordered : EnumOption → List Block → Prop
  | .none, blocks => blocks.Pairwise (·.addr < ·.addr)
  | .sortSizeIncreasing, blocks => blocks.Pairwise (·.size ≤ ·.size)
  | .sortSizeDecreasing, blocks => blocks.Pairwise (·.size ≥ ·.size)

def Notifies (s : HeapPlugin) (live : Live) (option : EnumOption) : Prop :=
  ∃ r, s.enumBlocks option = some r ∧ (r.1.map Block.entry).Perm live ∧
    r.1.length = live.length

/-- A call leaves the right total, an enumeration notifies the live blocks in order, and one by size
that followed would find them all. -/
structure Consistent (c : Containers) (s : State) (call : Call) : Prop where
  total : (step c s call).1.total = (step c s call).2.size
  notifies : ∀ option, call = .enum option → Notifies s.1 s.2 option
  ordered : ∀ option r, call = .enum option → s.1.enumBlocks option = some r →
    Ordered option r.1
  next : Notifies (step c s call).1 (step c s call).2 .sortSizeIncreasing

def Call.Allowed (s : State) : Call → Prop
  | .add _ addr size => addr ∉ s.2.map Prod.fst ∧ size < 2 ^ 64
  | _ => True

def Call.Sound (s : State) : Call → Prop
  | .add hasTrace _ size => hasTrace = true ∧ size < 2 ^ 63 ∧ s.2.size + size < 2 ^ 64
  | .remove _ => True
  | .enum .none => s.1.blocksByAddr.Pairwise (·.addr < ·.addr)
  | .enum .sortSizeIncreasing =>
    (s.1.blocksBySize.filter fun b => !s.1.isFree b.id).Pairwise (·.size ≤ ·.size)
  | .enum .sortSizeDecreasing =>
    (∀ b ∈ s.1.blocksBySize, s.1.isFree b.id = false) ∧
      s.1.blocksBySize.Pairwise (·.size ≤ ·.size)

/-- The blocks of the index by size that are not free are those of the index by address,
and these are the live blocks. -/
structure Tracks (s : State) : Prop where
  index : (s.1.blocksBySize.filter fun b => !s.1.isFree b.id).Perm s.1.blocksByAddr
  live : (s.1.blocksByAddr.map Block.entry).Perm s.2
  addrs : (s.2.map Prod.fst).Nodup
  ids : (s.1.blocksBySize.map Block.id).Nodup
  fresh : ∀ b ∈ s.1.blocksBySize, b.id < s.1.next
  sizes : ∀ b ∈ s.1.blocksByAddr, b.size < 2 ^ 63
  total : s.1.total = s.2.size
  bounded : s.2.size < 2 ^ 64

theorem Tracks.start : Tracks start :=
  ⟨.nil, .nil, nodup_nil, nodup_nil, nofun, nofun, rfl, by decide⟩

section Facts

variable {s : State}

theorem Tracks.length (h : Tracks s) : s.1.blocksByAddr.length = s.2.length := by
  simpa using h.live.length_eq

theorem Tracks.notifies_increasing (h : Tracks s) : Notifies s.1 s.2 .sortSizeIncreasing :=
  ⟨_, rfl, (h.index.map _).trans h.live, h.index.length_eq.trans h.length⟩

theorem Tracks.mem_index (h : Tracks s) {b : Block} (hb : b ∈ s.1.blocksByAddr) :
    b ∈ s.1.blocksBySize ∧ s.1.isFree b.id = false := by
  simpa using h.index.mem_iff.mpr hb

theorem Tracks.addrs_nodup (h : Tracks s) : (s.1.blocksByAddr.map Block.addr).Nodup := by
  have hperm := h.live.map Prod.fst
  rw [map_map] at hperm
  exact hperm.nodup_iff.mpr h.addrs

theorem Tracks.eq_of_addr (h : Tracks s) {a b : Block} (ha : a ∈ s.1.blocksByAddr)
    (hb : b ∈ s.1.blocksByAddr) (heq : a.addr = b.addr) : a = b :=
  inj_on_of_nodup_map h.addrs_nodup ha hb heq

theorem Tracks.eq_of_id (h : Tracks s) {a b : Block} (ha : a ∈ s.1.blocksByAddr)
    (hb : b ∈ s.1.blocksByAddr) (heq : a.id = b.id) : a = b :=
  inj_on_of_nodup_map h.ids (h.mem_index ha).1 (h.mem_index hb).1 heq

theorem size_perm {l₁ l₂ : Live} (h : l₁.Perm l₂) : l₁.size = l₂.size :=
  (h.map Prod.snd).sum_eq

end Facts

section Add

variable {s : State} {c : Containers} {addr size : Nat}

theorem Tracks.setAddr (h : Tracks s) (hnew : addr ∉ s.2.map Prod.fst) (id n : Nat) :
    HeapPlugin.setAddr c s.1.blocksByAddr ⟨id, addr, n⟩ =
      c.byAddr s.1.blocksByAddr ⟨id, addr, n⟩ := by
  apply if_neg
  rintro ⟨x, hx, hxaddr⟩
  exact hnew (mem_map.mpr ⟨x.entry, h.live.mem_iff.mp (mem_map_of_mem hx), hxaddr⟩)

theorem Tracks.add_index (h : Tracks s) (c : Containers) (size : Nat)
    (hnew : addr ∉ s.2.map Prod.fst) :
    let s' := s.1.addHeapBlock c true addr size
    let b : Block := ⟨s.1.next, addr, size % 2 ^ 63⟩
    s'.blocksByAddr.Perm (b :: s.1.blocksByAddr) ∧
      s'.blocksBySize.Perm (b :: s.1.blocksBySize) ∧
      (s'.blocksBySize.filter fun x => !s'.isFree x.id).Perm (b :: s.1.blocksByAddr) := by
  intro s' b
  have hsize : s'.blocksBySize.Perm (b :: s.1.blocksBySize) := c.bySize_perm _ _
  refine ⟨?_, hsize, ?_⟩
  · have haddr : s'.blocksByAddr = c.byAddr s.1.blocksByAddr b := h.setAddr hnew _ _
    rw [haddr]
    exact c.byAddr_perm _ _
  · have hother : s.1.blocksBySize.filter (fun x => !s'.isFree x.id) =
        s.1.blocksBySize.filter fun x => !s.1.isFree x.id := by
      refine filter_congr fun x hx => ?_
      have hne : x.id ≠ s.1.next := (h.fresh x hx).ne
      simp [s', HeapPlugin.addHeapBlock, hne]
    have hfree : s'.isFree b.id = false := Function.update_self _ _ _
    refine (hsize.filter _).trans ?_
    rw [filter_cons_of_pos (by simp [hfree]), hother]
    exact h.index.cons b

theorem Tracks.add (h : Tracks s) (hnew : addr ∉ s.2.map Prod.fst) (hsize : size < 2 ^ 63)
    (hsum : s.2.size + size < 2 ^ 64) : Tracks (step c s (.add true addr size)) := by
  obtain ⟨haddr, hindex, hlive⟩ := h.add_index c size hnew
  rw [Nat.mod_eq_of_lt hsize] at haddr hindex hlive
  have hnext : Live.size ((addr, size) :: s.2) = s.2.size + size := by
    simp [Live.size, Nat.add_comm]
  refine ⟨hlive.trans haddr.symm, (haddr.map _).trans (h.live.cons _), ?_, ?_, ?_, ?_, ?_, ?_⟩
  · exact nodup_cons.mpr ⟨hnew, h.addrs⟩
  · refine ((hindex.map _).nodup_iff).mpr (nodup_cons.mpr ⟨?_, h.ids⟩)
    rintro hmem
    obtain ⟨x, hx, hid⟩ := mem_map.mp hmem
    exact (h.fresh x hx).ne hid
  · intro b hb
    rcases mem_cons.mp (hindex.mem_iff.mp hb) with rfl | hb
    · exact Nat.lt_succ_self _
    · exact (h.fresh b hb).trans (Nat.lt_succ_self _)
  · intro b hb
    rcases mem_cons.mp (haddr.mem_iff.mp hb) with rfl | hb
    · exact hsize
    · exact h.sizes b hb
  · have htotal : (step c s (.add true addr size)).1.total = (s.1.total + size) % 2 ^ 64 := rfl
    rw [htotal, h.total, Nat.mod_eq_of_lt hsum]
    exact hnext.symm
  · exact hnext ▸ hsum

theorem Tracks.not_add {hasTrace : Bool} (h : Tracks s)
    (hallowed : Call.Allowed s (.add hasTrace addr size))
    (hbad : ¬Call.Sound s (.add hasTrace addr size)) :
    ¬Consistent c s (.add hasTrace addr size) := by
  intro hgood
  obtain ⟨r, henum, hperm, hlength⟩ := hgood.next
  cases hasTrace with
  | false =>
    -- the plugin has not changed
    obtain ⟨r', henum', -, hlength'⟩ := h.notifies_increasing
    obtain rfl := Option.some.inj (henum.symm.trans henum')
    have hmore : (step c s (.add false addr size)).2.length = s.2.length + 1 := rfl
    omega
  | true =>
    obtain ⟨hnew, -⟩ := hallowed
    obtain ⟨-, -, hlive⟩ := h.add_index c size hnew
    cases henum
    by_cases hsize : size < 2 ^ 63
    · have hsum : ¬s.2.size + size < 2 ^ 64 := fun hsum => hbad ⟨rfl, hsize, hsum⟩
      have htotal : (s.1.total + size) % 2 ^ 64 = Live.size ((addr, size) :: s.2) := hgood.total
      have hnext : Live.size ((addr, size) :: s.2) = s.2.size + size := by
        simp [Live.size, Nat.add_comm]
      have hmod := Nat.mod_lt (s.1.total + size) (Nat.two_pow_pos 64)
      omega
    · have hmem : (addr, size) ∈ (step c s (.add true addr size)).2 := mem_cons_self
      obtain ⟨b, hb, hentry⟩ := mem_map.mp (hperm.mem_iff.mpr hmem)
      have hbsize : b.size = size := congrArg Prod.snd hentry
      rcases mem_cons.mp (hlive.mem_iff.mp hb) with rfl | hb
      · have := Nat.mod_lt size (Nat.two_pow_pos 63)
        simp only at hbsize
        omega
      · have := h.sizes b hb
        omega

end Add

section Remove

variable {s : State} {c : Containers} {addr : Nat}

theorem Tracks.remove_none (h : Tracks s)
    (hfind : s.1.blocksByAddr.find? (·.addr = addr) = none) :
    Tracks (step c s (.remove addr)) := by
  have hnone : ∀ e ∈ s.2, e.1 ≠ addr := by
    intro e he heq
    obtain ⟨b, hb, rfl⟩ := mem_map.mp (h.live.mem_iff.mpr he)
    exact absurd (by simpa [Block.entry] using heq) (find?_eq_none.mp hfind b hb)
  have hlive : s.2.filter (fun e => decide (e.1 ≠ addr)) = s.2 :=
    filter_eq_self.mpr fun e he => decide_eq_true (hnone e he)
  have hstep : step c s (.remove addr) = s := by
    simp only [step, both, HeapPlugin.step, Live.step, HeapPlugin.removeHeapBlock, hfind, hlive]
  rwa [hstep]

theorem erase_eq_filter_key {α β : Type*} [DecidableEq α] [DecidableEq β] {l : List α}
    (hnodup : l.Nodup) {b : α} (key : α → β) (hkey : ∀ x ∈ l, key x = key b → x = b) :
    l.erase b = l.filter fun x => decide (key x ≠ key b) := by
  rw [hnodup.erase_eq_filter b]
  refine filter_congr fun x hx => ?_
  rw [Bool.eq_iff_iff, bne_iff_ne, decide_eq_true_iff]
  exact ⟨fun hne heq => hne (hkey x hx heq), fun hne heq => hne (heq ▸ rfl)⟩

variable {b : Block}

section

variable (h : Tracks s) (hb : b ∈ s.1.blocksByAddr)
include h hb

theorem Tracks.live_erase :
    ((s.1.blocksByAddr.erase b).map Block.entry).Perm
      (s.2.filter fun e => decide (e.1 ≠ b.addr)) := by
  have herase := erase_eq_filter_key h.addrs_nodup.of_map Block.addr
    fun x hx heq => h.eq_of_addr hx hb heq
  have hmap : (s.1.blocksByAddr.erase b).map Block.entry =
      (s.1.blocksByAddr.map Block.entry).filter fun e => decide (e.1 ≠ b.addr) := by
    rw [herase, filter_map]
    rfl
  rw [hmap]
  exact h.live.filter _

theorem Tracks.index_erase :
    (s.1.blocksBySize.filter fun x => !Function.update s.1.isFree b.id true x.id).Perm
      (s.1.blocksByAddr.erase b) := by
  have hmarked : s.1.blocksBySize.filter (fun x => !Function.update s.1.isFree b.id true x.id) =
      (s.1.blocksBySize.filter fun x => !s.1.isFree x.id).filter fun x =>
        decide (x.id ≠ b.id) := by
    rw [filter_filter]
    refine filter_congr fun x _ => ?_
    by_cases hid : x.id = b.id <;> simp [hid]
  rw [hmarked, erase_eq_filter_key h.addrs_nodup.of_map Block.id
    fun x hx heq => h.eq_of_id hx hb heq]
  exact h.index.filter _

theorem Tracks.size_erase :
    s.2.size = b.size + Live.size (s.2.filter fun e => decide (e.1 ≠ b.addr)) := by
  have hsplit := (perm_cons_erase hb).map Block.entry
  have hsize := size_perm (h.live.symm.trans (hsplit.trans ((h.live_erase hb).cons _)))
  simpa [Live.size, Block.entry] using hsize

end

theorem Tracks.remove_some (h : Tracks s)
    (hfind : s.1.blocksByAddr.find? (·.addr = addr) = some b) :
    Tracks (step c s (.remove addr)) := by
  have hb : b ∈ s.1.blocksByAddr := mem_of_find?_eq_some hfind
  obtain rfl : b.addr = addr := by simpa using find?_some hfind
  have hstep : step c s (.remove b.addr) =
      ({ s.1 with
        blocksByAddr := s.1.blocksByAddr.erase b
        isFree := Function.update s.1.isFree b.id true
        total := (s.1.total + 2 ^ 64 - b.size) % 2 ^ 64 },
      s.2.filter (fun e => decide (e.1 ≠ b.addr))) := by
    simp only [step, both, HeapPlugin.step, Live.step, HeapPlugin.removeHeapBlock, hfind]
  have hsum := h.size_erase hb
  have hbound := h.bounded
  have htotal := h.total
  rw [hstep]
  refine ⟨h.index_erase hb, h.live_erase hb, ?_, h.ids, h.fresh, ?_, ?_, ?_⟩
  · exact h.addrs.sublist ((filter_sublist).map _)
  · exact fun x hx => h.sizes x (mem_of_mem_erase hx)
  · simp only
    omega
  · simp only
    omega

theorem Tracks.remove (h : Tracks s) : Tracks (step c s (.remove addr)) := by
  cases hfind : s.1.blocksByAddr.find? (·.addr = addr) with
  | none => exact h.remove_none hfind
  | some b => exact h.remove_some hfind

end Remove

section Enum

variable {s : State} {c : Containers}

theorem Tracks.notifies_none (h : Tracks s) : Notifies s.1 s.2 .none :=
  ⟨_, rfl, h.live, h.length⟩

theorem Tracks.increasing (h : Tracks s) : Tracks (step c s (.enum .sortSizeIncreasing)) := by
  have hkept : (step c s (.enum .sortSizeIncreasing)).1.blocksBySize =
      s.1.blocksBySize.filter fun b => !s.1.isFree b.id := rfl
  refine ⟨?_, h.live, h.addrs, ?_, ?_, h.sizes, h.total, h.bounded⟩
  · refine List.Perm.trans (List.Perm.of_eq ?_) h.index
    exact filter_eq_self.mpr fun b hb => (mem_filter.mp hb).2
  · exact h.ids.sublist (filter_sublist.map _)
  · exact fun b hb => h.fresh b (mem_of_mem_filter hb)

theorem Tracks.decreasing (h : Tracks s)
    (hlive : ∀ b ∈ s.1.blocksBySize, s.1.isFree b.id = false) :
    s.1.enumBlocks .sortSizeDecreasing = some (s.1.blocksBySize.reverse, s.1) ∧
      Notifies s.1 s.2 .sortSizeDecreasing ∧ step c s (.enum .sortSizeDecreasing) = s := by
  have henum : s.1.enumBlocks .sortSizeDecreasing = some (s.1.blocksBySize.reverse, s.1) := by
    rw [HeapPlugin.enumBlocks, decreasingLoop_live le_rfl hlive, take_length]
    rfl
  have hall : s.1.blocksBySize.filter (fun b => !s.1.isFree b.id) = s.1.blocksBySize :=
    filter_eq_self.mpr fun b hb => by simp [hlive b hb]
  have hperm : s.1.blocksBySize.Perm s.1.blocksByAddr := by
    have := h.index
    rwa [hall] at this
  refine ⟨henum, ⟨_, henum, ?_, ?_⟩, ?_⟩
  · exact ((reverse_perm _).map _).trans ((hperm.map _).trans h.live)
  · rw [length_reverse, hperm.length_eq, h.length]
  · simp [step, both, HeapPlugin.step, Live.step, henum]

theorem Tracks.not_decreasing (h : Tracks s) {b : Block} (hb : b ∈ s.1.blocksBySize)
    (hfree : s.1.isFree b.id = true) : ¬Consistent c s (.enum .sortSizeDecreasing) := by
  intro hgood
  obtain ⟨r, henum, -, -⟩ := hgood.notifies _ rfl
  obtain ⟨⟨notified, index⟩, hloop, rfl⟩ := Option.map_eq_some_iff.mp henum
  obtain ⟨r', hnext, -, hlength⟩ := hgood.next
  have hstep : (step c s (.enum .sortSizeDecreasing)).1 = { s.1 with blocksBySize := index } := by
    simp [step, both, HeapPlugin.step, henum]
  rw [hstep] at hnext
  cases hnext
  obtain ⟨i, hi, hget⟩ := getElem_of_mem hb
  have hloses : liveCount s.1.isFree index < liveCount s.1.isFree s.1.blocksBySize :=
    decreasingLoop_loses hloop (fun j x hj hx => by
      rw [getElem?_eq_none hj] at hx
      cases hx)
    ⟨i, b, hi, by rw [getElem?_eq_getElem hi, hget], hfree⟩
  have hbefore : liveCount s.1.isFree s.1.blocksBySize = s.2.length := by
    rw [liveCount, countP_eq_length_filter, h.index.length_eq, h.length]
  have hafter : liveCount s.1.isFree index = s.2.length := by
    rw [liveCount, countP_eq_length_filter]
    exact hlength
  omega

end Enum

section Runs

variable {c : Containers} {s : State}

theorem consistent_of_tracks {call : Call} (hnext : Tracks (step c s call))
    (hnotifies : ∀ option, call = .enum option → Notifies s.1 s.2 option)
    (hordered : ∀ option r, call = .enum option → s.1.enumBlocks option = some r →
      Ordered option r.1) : Consistent c s call :=
  ⟨hnext.total, hnotifies, hordered, hnext.notifies_increasing⟩

theorem Tracks.call_iff (h : Tracks s) {call : Call} (hallowed : call.Allowed s) :
    (Consistent c s call ↔ call.Sound s) ∧ (call.Sound s → Tracks (step c s call)) := by
  cases call with
  | add hasTrace addr size =>
    have hadd : Call.Sound s (.add hasTrace addr size) →
        Tracks (step c s (.add hasTrace addr size)) := by
      rintro ⟨rfl, hsize, hsum⟩
      exact h.add hallowed.1 hsize hsum
    refine ⟨⟨fun hgood => ?_, fun hsound => ?_⟩, hadd⟩
    · by_contra hbad
      exact h.not_add hallowed hbad hgood
    · exact consistent_of_tracks (hadd hsound) nofun nofun
  | remove addr =>
    exact ⟨iff_of_true (consistent_of_tracks h.remove nofun nofun) trivial, fun _ => h.remove⟩
  | enum option =>
    cases option with
    | none =>
      have hnext : Tracks (step c s (.enum .none)) := h
      refine ⟨⟨fun hgood => hgood.ordered _ _ rfl rfl, fun hsorted => ?_⟩, fun _ => hnext⟩
      refine consistent_of_tracks hnext ?_ ?_
      · rintro _ ⟨⟩
        exact h.notifies_none
      · rintro _ _ ⟨⟩ ⟨⟩
        exact hsorted
    | sortSizeIncreasing =>
      refine ⟨⟨fun hgood => hgood.ordered _ _ rfl rfl, fun hsorted => ?_⟩, fun _ => h.increasing⟩
      refine consistent_of_tracks h.increasing ?_ ?_
      · rintro _ ⟨⟩
        exact h.notifies_increasing
      · rintro _ _ ⟨⟩ ⟨⟩
        exact hsorted
    | sortSizeDecreasing =>
      by_cases hlive : ∀ b ∈ s.1.blocksBySize, s.1.isFree b.id = false
      · obtain ⟨henum, hnotifies, hstep⟩ := h.decreasing (c := c) hlive
        have hnext : Tracks (step c s (.enum .sortSizeDecreasing)) := by rwa [hstep]
        refine ⟨⟨fun hgood => ⟨hlive, ?_⟩, fun hsound => ?_⟩, fun _ => hnext⟩
        · exact pairwise_reverse.mp (hgood.ordered _ _ rfl henum)
        · refine consistent_of_tracks hnext ?_ ?_
          · rintro _ ⟨⟩
            exact hnotifies
          · rintro _ r ⟨⟩ hr
            obtain rfl := Option.some.inj (henum.symm.trans hr)
            exact pairwise_reverse.mpr hsound.2
      · have hbad : ¬Call.Sound s (.enum .sortSizeDecreasing) := fun hsound => hlive hsound.1
        refine ⟨iff_of_false (fun hgood => ?_) hbad, fun hsound => absurd hsound hbad⟩
        obtain ⟨b, hb, hfree⟩ : ∃ b ∈ s.1.blocksBySize, s.1.isFree b.id = true := by
          simpa using hlive
        exact h.not_decreasing hb hfree hgood

end Runs

/-- Containers that keep their keys in order, with the latest of equal keys last. -/
def trees : Containers where
  byAddr blocks b := blocks.orderedInsert (·.addr < ·.addr) b
  bySize blocks b := blocks.orderedInsert (·.size < ·.size) b
  byAddr_perm _ _ := perm_orderedInsert _ _ _
  bySize_perm _ _ := perm_orderedInsert _ _ _

def hashTables : Containers where
  byAddr blocks b := blocks.orderedInsert (fun x y => x.addr % 193 ≤ y.addr % 193) b
  bySize blocks b := blocks.orderedInsert (fun x y => x.size % 193 ≤ y.size % 193) b
  byAddr_perm _ _ := perm_orderedInsert _ _ _
  bySize_perm _ _ := perm_orderedInsert _ _ _

def twoBlocks : List Call :=
  [.add true 0x5000 16, .add true 0x4000 32, .enum .none, .remove 0x5000,
    .enum .sortSizeIncreasing, .enum .sortSizeDecreasing]

end ZeroBugs.Plugin.Heap
