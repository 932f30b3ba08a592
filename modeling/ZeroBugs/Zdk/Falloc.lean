import ZeroBugs.Lib.Runs

/-! # The block allocator -/
namespace ZeroBugs.Zdk.Allocator
open Lib.Runs List Function

structure BlockSize where
  bytes : Nat
  powerOfTwo : ∃ k, bytes = 2 ^ k
  header : 24 < bytes

def userArea : Nat := 16

def BlockSize.maxSize (S : BlockSize) : Nat := S.bytes - userArea

def BlockSize.align (S : BlockSize) (p : Nat) : Nat := p - (p &&& (S.bytes - 1))

/-- The members, with `chunks_` and `next_` of the blocks in memory. -/
structure Falloc where
  usedBlks : Nat
  freeBlks : Nat
  current : Nat
  free : Nat
  drop : Bool
  chunks : Nat → Nat
  next : Nat → Nat

namespace Falloc

def new : Falloc := ⟨0, 0, 0, 0, false, fun _ => 0, fun _ => 0⟩

def freeBytes (a : Falloc) (S : BlockSize) : Nat :=
  if a.current ≠ 0 then S.bytes - (a.free - a.current) else 0

/-- `Block::alloc` in the current block. -/
def alloc (a : Falloc) (size : Nat) : Nat × Falloc :=
  (a.free, { a with
    chunks := update a.chunks a.current (a.chunks a.current + 1)
    free := a.free + size })

def start (a : Falloc) (block : Nat) : Falloc :=
  { a with current := block, free := block + userArea, usedBlks := a.usedBlks + 1 }

def allocate (a : Falloc) (S : BlockSize) (size base : Nat) : Nat × Falloc :=
  if S.maxSize < size then (base, a)
  else if a.freeBytes S < size then
    if a.freeBlks ≠ 0 then
      let block := a.freeBlks
      ({ a with freeBlks := a.next block }.start block).alloc size
    else if base ≠ 0 then
      -- the constructor of `Block`
      ({ a with chunks := update a.chunks base 0 }.start base).alloc size
    else (0, { a with current := 0 })
  else a.alloc size

/-- A block without chunks goes to the list. If it is the current one, there is none. -/
def retire (a : Falloc) (block : Nat) : Falloc :=
  let a := if block = a.current then { a with current := 0, free := 0 } else a
  { a with
    next := update a.next block a.freeBlks
    freeBlks := block
    usedBlks := a.usedBlks - 1 }

def dealocate (a : Falloc) (S : BlockSize) (p size : Nat) : Falloc :=
  if a.drop then a
  else if size = 0 ∨ p = 0 ∨ S.maxSize < size then a
  else
    let block := S.align p
    let n := a.chunks block - 1
    let a := { a with chunks := update a.chunks block n }
    if n = 0 then a.retire block
    -- the boundary is that of the current block, whatever the block of `p` is
    else if p + size = a.free then { a with free := p } else a

end Falloc

structure Chunk where
  ptr : Nat
  size : Nat
  deriving DecidableEq

def Chunk.Disjoint (c d : Chunk) : Prop := c.ptr + c.size ≤ d.ptr ∨ d.ptr + d.size ≤ c.ptr
  deriving Decidable

/-- The allocator, with the chunks in use and the blocks that the base allocator has given. Chunks
that fit in no block are those of the base allocator. -/
structure State where
  falloc : Falloc
  small : List Chunk
  large : List Chunk
  blocks : List Nat

/-- Calls, and writes of the clients to their chunks: `next_` is in the user area. -/
inductive Op where
  | allocate (size base : Nat)
  | dealocate (c : Chunk)
  | write (block value : Nat)

def Falloc.Asks (a : Falloc) (S : BlockSize) (size : Nat) : Prop :=
  size ≤ S.maxSize ∧ a.freeBytes S < size ∧ a.freeBlks = 0
  deriving Decidable

def step (S : BlockSize) (s : State) : Op → State
  | .allocate size base =>
    let (p, falloc) := s.falloc.allocate S size base
    { falloc := falloc
      small := if p ≠ 0 ∧ size ≤ S.maxSize then ⟨p, size⟩ :: s.small else s.small
      large := if p ≠ 0 ∧ S.maxSize < size then ⟨p, size⟩ :: s.large else s.large
      blocks := if base ≠ 0 ∧ s.falloc.Asks S size then base :: s.blocks else s.blocks }
  | .dealocate c =>
    { s with
      falloc := s.falloc.dealocate S c.ptr c.size
      small := s.small.erase c
      large := s.large.erase c }
  | .write block value =>
    { s with falloc := { s.falloc with next := update s.falloc.next block value } }

def start : State := ⟨.new, [], [], []⟩

/-- The base allocator gives aligned blocks, away from the other blocks and chunks, and clients
write in their chunks. -/
def Op.Allowed (S : BlockSize) (s : State) : Op → Prop
  | .allocate size base => 0 < size ∧ (base ≠ 0 →
      (S.maxSize < size → ∀ b ∈ s.blocks, Chunk.Disjoint ⟨base, size⟩ ⟨b, S.bytes⟩) ∧
      (s.falloc.Asks S size → S.bytes ∣ base ∧
        (∀ b ∈ s.blocks, Chunk.Disjoint ⟨base, S.bytes⟩ ⟨b, S.bytes⟩) ∧
        ∀ c ∈ s.large, Chunk.Disjoint c ⟨base, S.bytes⟩))
  | .dealocate c => c ∈ s.small ∨ c ∈ s.large
  | .write block _ => ∃ c ∈ s.small, S.align c.ptr = block ∧ c.ptr < block + userArea + 8

instance (S : BlockSize) (s : State) : (op : Op) → Decidable (op.Allowed S s)
  | .allocate .. => inferInstanceAs (Decidable (_ ∧ (_ → _)))
  | .dealocate _ => inferInstanceAs (Decidable (_ ∨ _))
  | .write .. => inferInstanceAs (Decidable (∃ c ∈ s.small, _ ∧ _))

def Linked (next : Nat → Nat) : Nat → List Nat → Prop
  | head, [] => head = 0
  | head, b :: l => head = b ∧ b ≠ 0 ∧ Linked next (next b) l

structure Laid (S : BlockSize) (s : State) : Prop where
  disjoint : s.small.Pairwise Chunk.Disjoint
  inBlock : ∀ c ∈ s.small, S.align c.ptr ∈ s.blocks ∧
    S.align c.ptr + userArea ≤ c.ptr ∧ c.ptr + c.size ≤ S.align c.ptr + S.bytes
  freeList : ∃ l, Linked s.falloc.next s.falloc.freeBlks l ∧
    ∀ b ∈ l, b ∈ s.blocks ∧ ∀ c ∈ s.small ++ s.large, c.Disjoint ⟨b, S.bytes⟩
  counts : ∀ b ∈ s.blocks, s.falloc.chunks b = s.small.countP fun c => S.align c.ptr = b
  used : s.falloc.usedBlks = s.blocks.countP fun b => s.falloc.chunks b ≠ 0

section Masks

variable {S : BlockSize} {a b p : Nat}

theorem align_eq_sub_mod (S : BlockSize) (p : Nat) : S.align p = p - p % S.bytes := by
  obtain ⟨k, hk⟩ := S.powerOfTwo
  unfold BlockSize.align
  rw [hk, Nat.and_two_pow_sub_one_eq_mod]

theorem userArea_lt (S : BlockSize) : userArea < S.bytes := Nat.lt_trans (by decide) S.header

theorem align_eq_iff (hb : S.bytes ∣ b) : S.align p = b ↔ b ≤ p ∧ p < b + S.bytes := by
  have hpos : 0 < S.bytes := Nat.lt_trans (by decide) S.header
  have hlt := Nat.mod_lt p hpos
  have hle := Nat.mod_le p S.bytes
  rw [align_eq_sub_mod]
  constructor
  · omega
  · rintro ⟨hle', hlt'⟩
    obtain ⟨q, rfl⟩ := hb
    obtain ⟨r, rfl⟩ := Nat.exists_eq_add_of_le hle'
    rw [Nat.mul_add_mod, Nat.mod_eq_of_lt (by omega)]
    omega

theorem eq_of_mem_block (ha : S.bytes ∣ a) (hb : S.bytes ∣ b) (hle : a ≤ b)
    (hlt : b < a + S.bytes) : a = b := by
  have hself : S.align b = b := by
    rw [align_eq_iff hb]
    have := S.header
    omega
  exact ((align_eq_iff ha).mpr ⟨hle, hlt⟩).symm.trans hself

theorem blocks_apart (ha : S.bytes ∣ a) (hb : S.bytes ∣ b) (hne : a ≠ b) :
    a + S.bytes ≤ b ∨ b + S.bytes ≤ a := by
  by_contra hover
  rcases Nat.le_total a b with hle | hle
  · exact hne (eq_of_mem_block ha hb hle (by omega))
  · exact hne (eq_of_mem_block hb ha hle (by omega)).symm

end Masks

section Counting

theorem countP_update {blocks : List Nat} (hnodup : blocks.Nodup) {b : Nat} (hb : b ∈ blocks)
    (f : Nat → Nat) (n : Nat) :
    (blocks.countP fun x => update f b n x ≠ 0) + (if f b = 0 then 0 else 1) =
      (blocks.countP fun x => f x ≠ 0) + if n = 0 then 0 else 1 := by
  have hperm := perm_cons_erase hb
  have hrest : ((blocks.erase b).countP fun x => update f b n x ≠ 0) =
      (blocks.erase b).countP fun x => f x ≠ 0 := by
    refine countP_congr fun x hx => ?_
    have hne : x ≠ b := fun heq => hnodup.not_mem_erase (heq ▸ hx)
    rw [update_of_ne hne]
  rw [hperm.countP_eq, hperm.countP_eq, countP_cons, countP_cons, hrest,
    update_self]
  by_cases hf : f b = 0 <;> by_cases hn : n = 0 <;> simp [hf, hn]

theorem linked_update {next : Nat → Nat} {head b v : Nat} {l : List Nat} (hb : b ∉ l)
    (h : Linked next head l) : Linked (update next b v) head l := by
  induction l generalizing head with
  | nil => exact h
  | cons x l ih =>
    obtain ⟨hhead, hx, hrest⟩ := h
    refine ⟨hhead, hx, ?_⟩
    rw [update_of_ne fun heq : x = b => hb (heq ▸ mem_cons_self)]
    exact ih (fun hmem => hb (mem_cons_of_mem x hmem)) hrest

end Counting

structure Core (S : BlockSize) (s : State) (l : List Nat) : Prop where
  linked : Linked s.falloc.next s.falloc.freeBlks l
  listed : ∀ b ∈ l, b ∈ s.blocks ∧ s.falloc.chunks b = 0
  nodup : l.Nodup
  aligned : ∀ b ∈ s.blocks, b ≠ 0 ∧ S.bytes ∣ b
  blocksNodup : s.blocks.Nodup
  disjoint : s.small.Pairwise Chunk.Disjoint
  inBlock : ∀ c ∈ s.small, S.align c.ptr ∈ s.blocks ∧
    S.align c.ptr + userArea ≤ c.ptr ∧ c.ptr + c.size ≤ S.align c.ptr + S.bytes
  sized : ∀ c ∈ s.small, 0 < c.size ∧ c.size ≤ S.maxSize
  large : ∀ c ∈ s.large, S.maxSize < c.size ∧ ∀ b ∈ s.blocks, c.Disjoint ⟨b, S.bytes⟩
  counts : ∀ b ∈ s.blocks, s.falloc.chunks b = s.small.countP fun c => S.align c.ptr = b
  drop : s.falloc.drop = false

structure Current (S : BlockSize) (s : State) : Prop where
  mem : s.falloc.current ∈ s.blocks
  user : s.falloc.current + userArea ≤ s.falloc.free
  upper : s.falloc.free ≤ s.falloc.current + S.bytes
  behind : ∀ c ∈ s.small, S.align c.ptr = s.falloc.current → c.ptr + c.size ≤ s.falloc.free

structure Inv (S : BlockSize) (s : State) (l : List Nat) : Prop extends Core S s l where
  used : s.falloc.usedBlks = s.blocks.countP fun b => s.falloc.chunks b ≠ 0
  current : s.falloc.current ≠ 0 → Current S s ∧ s.falloc.chunks s.falloc.current ≠ 0

theorem inv_start (S : BlockSize) : Inv S start [] := by
  refine { linked := rfl, listed := nofun, nodup := nodup_nil, aligned := nofun,
           blocksNodup := nodup_nil, disjoint := .nil, inBlock := nofun, sized := nofun,
           large := nofun, counts := nofun, drop := rfl, used := rfl, current := ?_ }
  exact fun h => absurd rfl h

section Invariant

variable {S : BlockSize} {s : State} {l : List Nat}

theorem Core.not_mem_of_zero (h : Core S s l) {b : Nat} (hb : b ∈ s.blocks)
    (hzero : s.falloc.chunks b = 0) {c : Chunk} (hc : c ∈ s.small) : S.align c.ptr ≠ b := by
  have hcount := (h.counts b hb).symm.trans hzero
  simpa using countP_eq_zero.mp hcount c hc

theorem Core.apart (h : Core S s l) {b : Nat} (hb : b ∈ s.blocks) {c : Chunk} (hc : c ∈ s.small)
    (hne : S.align c.ptr ≠ b) : c.Disjoint ⟨b, S.bytes⟩ := by
  obtain ⟨hmem, huser, hupper⟩ := h.inBlock c hc
  have hapart := blocks_apart (h.aligned _ hmem).2 (h.aligned b hb).2 hne
  unfold Chunk.Disjoint
  simp only
  omega

theorem Inv.laid (h : Inv S s l) : Laid S s where
  disjoint := h.disjoint
  inBlock := h.inBlock
  freeList := by
    refine ⟨l, h.linked, fun b hb => ?_⟩
    obtain ⟨hmem, hzero⟩ := h.listed b hb
    refine ⟨hmem, fun c hc => ?_⟩
    rcases mem_append.mp hc with hc | hc
    · exact h.apart hmem hc (h.not_mem_of_zero hmem hzero hc)
    · exact (h.large c hc).2 b hmem
  counts := h.counts
  used := h.used

end Invariant

/-- There is a current block, and it is counted as used before it has a chunk. -/
structure Ready (S : BlockSize) (s : State) (l : List Nat) : Prop extends Core S s l where
  current : Current S s
  unlisted : s.falloc.current ∉ l
  used : s.falloc.usedBlks = (s.blocks.countP fun b => s.falloc.chunks b ≠ 0) +
    if s.falloc.chunks s.falloc.current = 0 then 1 else 0

section Allocate

variable {S : BlockSize} {s : State} {l : List Nat} {size base : Nat}

def State.take (s : State) (size : Nat) : State :=
  { s with falloc := (s.falloc.alloc size).2, small := ⟨s.falloc.free, size⟩ :: s.small }

section

variable (h : Ready S s l) (hpos : 0 < size) (hmax : size ≤ S.maxSize)
  (hroom : s.falloc.free + size ≤ s.falloc.current + S.bytes)
include h hpos hmax hroom

theorem Ready.core_take : Core S (s.take size) l := by
  obtain ⟨hmem, huser, -, hbehind⟩ := h.current
  have hdvd := (h.aligned _ hmem).2
  have halign : S.align s.falloc.free = s.falloc.current :=
    (align_eq_iff hdvd).mpr ⟨Nat.le_trans (Nat.le_add_right _ _) huser, by omega⟩
  have hchunks : ∀ b, b ≠ s.falloc.current →
      (s.take size).falloc.chunks b = s.falloc.chunks b :=
    fun b hb => update_of_ne hb _ _
  refine { linked := h.linked, listed := fun b hb => ?_, nodup := h.nodup, aligned := h.aligned,
           blocksNodup := h.blocksNodup, disjoint := ?_, inBlock := ?_, sized := ?_,
           large := h.large, counts := fun b hb => ?_, drop := h.drop }
  · have hne : b ≠ s.falloc.current := fun heq => h.unlisted (heq ▸ hb)
    rw [hchunks b hne]
    exact h.listed b hb
  · refine List.pairwise_cons.mpr ⟨fun c hc => ?_, h.disjoint⟩
    by_cases hblock : S.align c.ptr = s.falloc.current
    · exact .inr (hbehind c hc hblock)
    · -- a chunk of another block
      have hapart := h.apart hmem hc hblock
      unfold Chunk.Disjoint at *
      simp only at *
      omega
  · refine forall_mem_cons.mpr ⟨?_, h.inBlock⟩
    simp only [halign]
    exact ⟨hmem, huser, hroom⟩
  · exact forall_mem_cons.mpr ⟨⟨hpos, hmax⟩, h.sized⟩
  · show update s.falloc.chunks s.falloc.current _ b = List.countP _ (_ :: s.small)
    rw [countP_cons, ← h.counts b hb, halign]
    by_cases hb' : b = s.falloc.current
    · subst hb'
      simp
    · rw [update_of_ne hb']
      simp [Ne.symm hb']

theorem Ready.take : Inv S (s.take size) l := by
  obtain ⟨hmem, huser, -, hbehind⟩ := h.current
  have hone : (s.take size).falloc.chunks s.falloc.current = s.falloc.chunks s.falloc.current + 1 :=
    update_self _ _ _
  refine { h.core_take hpos hmax hroom with used := ?_, current := fun _ => ⟨?_, ?_⟩ }
  · have hcount := countP_update h.blocksNodup hmem s.falloc.chunks
      (s.falloc.chunks s.falloc.current + 1)
    show s.falloc.usedBlks =
      List.countP (fun b => update s.falloc.chunks _ _ b ≠ 0) s.blocks
    rw [h.used]
    by_cases hzero : s.falloc.chunks s.falloc.current = 0
    · simp only [hzero, if_true, Nat.zero_add, Nat.one_ne_zero, if_false, Nat.add_zero]
        at hcount ⊢
      exact hcount.symm
    · simp only [hzero, if_false, Nat.add_one_ne_zero] at hcount ⊢
      omega
  · refine ⟨hmem, Nat.le_trans huser (Nat.le_add_right _ _), hroom, ?_⟩
    refine forall_mem_cons.mpr ⟨fun _ => Nat.le_refl _, fun c hc hblock => ?_⟩
    exact Nat.le_trans (hbehind c hc hblock) (Nat.le_add_right _ _)
  · show (s.take size).falloc.chunks s.falloc.current ≠ 0
    rw [hone]
    exact Nat.succ_ne_zero _

end

theorem Inv.ready (h : Inv S s l) (hcurrent : s.falloc.current ≠ 0) : Ready S s l := by
  obtain ⟨hcur, hne⟩ := h.current hcurrent
  refine { h.toCore with current := hcur, unlisted := fun hmem => ?_, used := ?_ }
  · exact hne (h.listed _ hmem).2
  · rw [if_neg hne]
    exact h.used

theorem Inv.pop {b : Nat} (h : Inv S s (b :: l)) :
    Ready S { s with falloc :=
      { s.falloc with freeBlks := s.falloc.next b }.start b } l := by
  obtain ⟨-, -, hrest⟩ := h.linked
  obtain ⟨hb, hzero⟩ := h.listed b mem_cons_self
  obtain ⟨hnot, hnodup⟩ := nodup_cons.mp h.nodup
  refine { h.toCore with
    linked := hrest, listed := fun x hx => h.listed x (mem_cons_of_mem b hx),
    nodup := hnodup, unlisted := hnot, used := ?_, current := ⟨hb, Nat.le_refl _, ?_, ?_⟩ }
  · exact Nat.add_le_add_left (Nat.le_of_lt (userArea_lt S)) b
  · exact fun c hc hblock => absurd hblock (h.not_mem_of_zero hb hzero hc)
  · show s.falloc.usedBlks + 1 = _
    rw [h.used]
    exact congrArg _ (if_pos hzero).symm

def State.grow (s : State) (base : Nat) : State :=
  { s with
    falloc := { s.falloc with chunks := update s.falloc.chunks base 0 }.start base
    blocks := base :: s.blocks }

theorem not_mem_of_disjoint
    (h : ∀ b ∈ s.blocks, Chunk.Disjoint ⟨base, S.bytes⟩ ⟨b, S.bytes⟩) : base ∉ s.blocks := by
  intro hmem
  have hover := h base hmem
  have hheader := S.header
  unfold Chunk.Disjoint at hover
  simp only at hover
  omega

theorem grow_chunks (hnew : base ∉ s.blocks) {b : Nat} (hb : b ∈ s.blocks) :
    (s.grow base).falloc.chunks b = s.falloc.chunks b := by
  have hne : b ≠ base := fun heq => hnew (heq ▸ hb)
  exact update_of_ne hne _ _

theorem Core.grow (h : Core S s []) (hbase : base ≠ 0) (hdvd : S.bytes ∣ base)
    (hnew : base ∉ s.blocks) (hlarge : ∀ c ∈ s.large, Chunk.Disjoint c ⟨base, S.bytes⟩) :
    Core S (s.grow base) [] := by
  refine { h with
    listed := nofun, aligned := ?_, blocksNodup := nodup_cons.mpr ⟨hnew, h.blocksNodup⟩,
    inBlock := ?_, large := ?_, counts := ?_ }
  · exact forall_mem_cons.mpr ⟨⟨hbase, hdvd⟩, h.aligned⟩
  · intro c hc
    obtain ⟨hmem, hrest⟩ := h.inBlock c hc
    exact ⟨mem_cons_of_mem base hmem, hrest⟩
  · intro c hc
    obtain ⟨hsize, hapart⟩ := h.large c hc
    exact ⟨hsize, forall_mem_cons.mpr ⟨hlarge c hc, hapart⟩⟩
  · intro b hb
    rcases mem_cons.mp hb with rfl | hb
    · have hnone : s.small.countP (fun c => S.align c.ptr = b) = 0 := by
        rw [countP_eq_zero]
        intro c hc
        have hne : S.align c.ptr ≠ b := fun heq => hnew (heq ▸ (h.inBlock c hc).1)
        simpa using hne
      exact (update_self _ _ _).trans hnone.symm
    · exact (grow_chunks hnew hb).trans (h.counts b hb)

theorem Inv.grow (h : Inv S s []) (hbase : base ≠ 0) (hdvd : S.bytes ∣ base)
    (hnew : base ∉ s.blocks) (hlarge : ∀ c ∈ s.large, Chunk.Disjoint c ⟨base, S.bytes⟩) :
    Ready S (s.grow base) [] := by
  have hzero : (s.grow base).falloc.chunks base = 0 := update_self _ _ _
  refine { h.toCore.grow hbase hdvd hnew hlarge with
    current := ⟨mem_cons_self, Nat.le_refl _, ?_, ?_⟩, unlisted := nofun, used := ?_ }
  · exact Nat.add_le_add_left (Nat.le_of_lt (userArea_lt S)) base
  · intro c hc (hblock : S.align c.ptr = base)
    exact absurd (hblock ▸ (h.inBlock c hc).1) hnew
  · show s.falloc.usedBlks + 1 =
      (List.countP (fun b => (s.grow base).falloc.chunks b ≠ 0) (base :: s.blocks)) +
        if (s.grow base).falloc.chunks base = 0 then 1 else 0
    have hcount : (s.blocks.countP fun b => (s.grow base).falloc.chunks b ≠ 0) =
        s.blocks.countP fun b => s.falloc.chunks b ≠ 0 :=
      countP_congr fun b hb => by rw [grow_chunks hnew hb]
    rw [countP_cons, hcount, hzero, h.used]
    simp

theorem Ready.take_start {a : Falloc} {b : Nat} {blocks : List Nat}
    (h : Ready S { s with falloc := a.start b, blocks := blocks } l) (hpos : 0 < size)
    (hmax : size ≤ S.maxSize) :
    Inv S (State.take { s with falloc := a.start b, blocks := blocks } size) l := by
  refine h.take hpos hmax ?_
  show b + userArea + size ≤ b + S.bytes
  have harea := userArea_lt S
  unfold BlockSize.maxSize at hmax
  omega

theorem Inv.allocate_large (h : Inv S s l) (hlarge : S.maxSize < size)
    (hbase : base ≠ 0 → ∀ b ∈ s.blocks, Chunk.Disjoint ⟨base, size⟩ ⟨b, S.bytes⟩) :
    Inv S (step S s (.allocate size base)) l := by
  have hstep : step S s (.allocate size base) =
      { s with large := if base ≠ 0 then ⟨base, size⟩ :: s.large else s.large } := by
    simp [step, Falloc.allocate, Falloc.Asks, hlarge, Nat.not_le.mpr hlarge]
  rw [hstep]
  refine { h with large := fun c hc => ?_, current := fun hcur => ?_ }
  · split at hc
    · rename_i hne
      rcases mem_cons.mp hc with rfl | hc
      · exact ⟨hlarge, hbase hne⟩
      · exact h.large c hc
    · exact h.large c hc
  · obtain ⟨hcurrent, hne⟩ := h.current hcur
    exact ⟨{ hcurrent with }, hne⟩

theorem Inv.allocate_pop (h : Inv S s l) (hpos : 0 < size) (hmax : size ≤ S.maxSize)
    (hfull : s.falloc.freeBytes S < size) (hfree : s.falloc.freeBlks ≠ 0) :
    ∃ l', Inv S (step S s (.allocate size base)) l' := by
  cases l with
  | nil => exact absurd h.linked hfree
  | cons b l =>
    obtain ⟨hhead, hb, -⟩ := h.linked
    have hstep : step S s (.allocate size base) =
        State.take { s with falloc := { s.falloc with freeBlks := s.falloc.next b }.start b }
          size := by
      simp [step, Falloc.allocate, Falloc.Asks, Falloc.alloc, Falloc.start, State.take, hmax,
        Nat.not_lt.mpr hmax, hfull, hhead, hb]
    exact ⟨l, hstep ▸ h.pop.take_start hpos hmax⟩

theorem Inv.allocate_ask (h : Inv S s l) (hpos : 0 < size) (hasks : s.falloc.Asks S size)
    (hbase : base ≠ 0) (hdvd : S.bytes ∣ base)
    (hblocks : ∀ b ∈ s.blocks, Chunk.Disjoint ⟨base, S.bytes⟩ ⟨b, S.bytes⟩)
    (hlarge : ∀ c ∈ s.large, Chunk.Disjoint c ⟨base, S.bytes⟩) :
    ∃ l', Inv S (step S s (.allocate size base)) l' := by
  obtain ⟨hmax, hfull, hfree⟩ := hasks
  cases l with
  | cons b l => exact absurd (h.linked.1.symm.trans hfree) h.linked.2.1
  | nil =>
    have hstep : step S s (.allocate size base) = (s.grow base).take size := by
      simp [step, Falloc.allocate, Falloc.Asks, Falloc.alloc, Falloc.start, State.take, State.grow,
        hmax, Nat.not_lt.mpr hmax, hfull, hfree, hbase]
    have hready := h.grow hbase hdvd (not_mem_of_disjoint hblocks) hlarge
    exact ⟨[], hstep ▸ hready.take_start hpos hmax⟩

theorem Inv.allocate_fail (h : Inv S s l) (hasks : s.falloc.Asks S size) :
    Inv S (step S s (.allocate size 0)) l := by
  obtain ⟨hmax, hfull, hfree⟩ := hasks
  have hstep : step S s (.allocate size 0) =
      { s with falloc := { s.falloc with current := 0 } } := by
    simp [step, Falloc.allocate, Nat.not_lt.mpr hmax, hfull, hfree]
  rw [hstep]
  exact { h with current := fun hcur => absurd rfl hcur }

theorem Inv.allocate_room (h : Inv S s l) (hpos : 0 < size) (hmax : size ≤ S.maxSize)
    (hroom : ¬s.falloc.freeBytes S < size) : Inv S (step S s (.allocate size base)) l := by
  have hcur : s.falloc.current ≠ 0 := by
    intro hzero
    simp [Falloc.freeBytes, hzero, hpos] at hroom
  have hready := h.ready hcur
  have hptr : s.falloc.free ≠ 0 := by
    have := hready.current.user
    omega
  have hstep : step S s (.allocate size base) = s.take size := by
    simp [step, Falloc.allocate, Falloc.Asks, Falloc.alloc, State.take, hmax, Nat.not_lt.mpr hmax,
      hroom, hptr]
  rw [hstep]
  refine hready.take hpos hmax ?_
  have hupper := hready.current.upper
  have huser := hready.current.user
  simp only [Falloc.freeBytes, hcur, ne_eq, not_false_eq_true, if_true] at hroom
  omega

theorem Inv.allocate (h : Inv S s l) (hallowed : (Op.allocate size base).Allowed S s) :
    ∃ l', Inv S (step S s (.allocate size base)) l' := by
  obtain ⟨hpos, hbase⟩ := hallowed
  by_cases hlarge : S.maxSize < size
  · exact ⟨l, h.allocate_large hlarge fun hne => (hbase hne).1 hlarge⟩
  have hmax := Nat.not_lt.mp hlarge
  by_cases hfull : s.falloc.freeBytes S < size
  · by_cases hfree : s.falloc.freeBlks = 0
    · have hasks : s.falloc.Asks S size := ⟨hmax, hfull, hfree⟩
      by_cases hne : base = 0
      · exact ⟨l, hne ▸ h.allocate_fail hasks⟩
      · obtain ⟨hdvd, hblocks, hapart⟩ := (hbase hne).2 hasks
        exact h.allocate_ask hpos hasks hne hdvd hblocks hapart
    · exact h.allocate_pop hpos hmax hfull hfree
  · exact ⟨l, h.allocate_room hpos hmax hfull⟩

end Allocate

section Dealocate

variable {S : BlockSize} {s : State} {l : List Nat} {c : Chunk}

theorem Core.not_mem_large (h : Core S s l) (hc : c ∈ s.small) : c ∉ s.large :=
  fun hlarge => absurd (h.large c hlarge).1 (Nat.not_lt.mpr (h.sized c hc).2)

theorem Inv.dealocate_large (h : Inv S s l) (hc : c ∈ s.large) :
    Inv S (step S s (.dealocate c)) l := by
  have hsize := (h.large c hc).1
  have hnot : c ∉ s.small := fun hmem => h.not_mem_large hmem hc
  have hstep : step S s (.dealocate c) = { s with large := s.large.erase c } := by
    simp [step, Falloc.dealocate, h.drop, hsize, erase_of_not_mem hnot]
  rw [hstep]
  refine { h with large := fun d hd => h.large d (mem_of_mem_erase hd), current := ?_ }
  intro hcur
  obtain ⟨hcurrent, hne⟩ := h.current hcur
  exact ⟨{ hcurrent with }, hne⟩

theorem retire_eq (a : Falloc) (block : Nat) :
    a.retire block = { a with
      current := if block = a.current then 0 else a.current
      free := if block = a.current then 0 else a.free
      next := update a.next block a.freeBlks
      freeBlks := block
      usedBlks := a.usedBlks - 1 } := by
  unfold Falloc.retire
  split <;> rfl

def State.giveBack (S : BlockSize) (s : State) (c : Chunk) : State :=
  { s with
    falloc := { s.falloc with
      chunks := update s.falloc.chunks (S.align c.ptr)
        (s.falloc.chunks (S.align c.ptr) - 1) }
    small := s.small.erase c }

section

variable (h : Core S s l) (hc : c ∈ s.small)
include h hc

theorem Core.chunks_pos :
    s.falloc.chunks (S.align c.ptr) ≠ 0 :=
  fun hzero => h.not_mem_of_zero (h.inBlock c hc).1 hzero hc rfl

theorem Core.not_listed : S.align c.ptr ∉ l :=
  fun hmem => h.chunks_pos hc (h.listed _ hmem).2

theorem Core.giveBack : Core S (s.giveBack S c) l := by
  have hsub : ∀ d ∈ s.small.erase c, d ∈ s.small := fun d hd => mem_of_mem_erase hd
  refine { h with
    listed := fun b hb => ?_, disjoint := h.disjoint.sublist erase_sublist,
    inBlock := fun d hd => h.inBlock d (hsub d hd), sized := fun d hd => h.sized d (hsub d hd),
    counts := fun b hb => ?_ }
  · have hne : b ≠ S.align c.ptr := fun heq => h.not_listed hc (heq ▸ hb)
    refine ⟨(h.listed b hb).1, ?_⟩
    exact (update_of_ne hne _ _).trans (h.listed b hb).2
  · have hcount := h.counts b hb
    rw [(perm_cons_erase hc).countP_eq, countP_cons] at hcount
    show update s.falloc.chunks (S.align c.ptr) _ b = List.countP _ (s.small.erase c)
    by_cases hb' : b = S.align c.ptr
    · subst hb'
      rw [update_self, hcount]
      simp
    · rw [update_of_ne hb', hcount]
      simp [Ne.symm hb']

theorem Core.disjoint_erase {d : Chunk}
    (hd : d ∈ s.small.erase c) : c.Disjoint d := by
  have hsymm : ∀ {x y : Chunk}, x.Disjoint y → y.Disjoint x := fun hxy => hxy.symm
  have hall := ((perm_cons_erase hc).pairwise_iff hsymm).mp h.disjoint
  exact (List.pairwise_cons.mp hall).1 d hd

theorem Core.dealocate_small :
    step S s (.dealocate c) = { s.giveBack S c with
      falloc :=
        let a := (s.giveBack S c).falloc
        if s.falloc.chunks (S.align c.ptr) - 1 = 0 then a.retire (S.align c.ptr)
        else if c.ptr + c.size = a.free then { a with free := c.ptr } else a } := by
  obtain ⟨hpos, hmax⟩ := h.sized c hc
  have hptr : c.ptr ≠ 0 := by
    have huser := (h.inBlock c hc).2.1
    unfold userArea at huser
    omega
  have hin : ¬(c.size = 0 ∨ c.ptr = 0 ∨ S.maxSize < c.size) := by omega
  simp only [step, Falloc.dealocate, h.drop, Bool.false_eq_true, if_false, hin, State.giveBack,
    erase_of_not_mem (h.not_mem_large hc)]

end

theorem Inv.dealocate_last (h : Inv S s l) (hc : c ∈ s.small)
    (hlast : s.falloc.chunks (S.align c.ptr) - 1 = 0) :
    Inv S (step S s (.dealocate c)) (S.align c.ptr :: l) := by
  obtain ⟨hmem, -⟩ := h.inBlock c hc
  have hcore := h.toCore.giveBack hc
  rw [h.dealocate_small hc, if_pos hlast, retire_eq]
  refine { hcore with
    linked := ⟨rfl, (h.aligned _ hmem).1, ?_⟩, listed := ?_,
    nodup := nodup_cons.mpr ⟨h.not_listed hc, h.nodup⟩, used := ?_, current := ?_ }
  · show Linked _ (update s.falloc.next (S.align c.ptr) s.falloc.freeBlks _) l
    rw [update_self]
    exact linked_update (h.not_listed hc) h.linked
  · exact forall_mem_cons.mpr ⟨⟨hmem, (update_self _ _ _).trans hlast⟩, hcore.listed⟩
  · have hcount := countP_update h.blocksNodup hmem s.falloc.chunks
      (s.falloc.chunks (S.align c.ptr) - 1)
    rw [if_neg (h.chunks_pos hc), if_pos hlast, ← h.used] at hcount
    show s.falloc.usedBlks - 1 =
      List.countP (fun b => update s.falloc.chunks (S.align c.ptr) _ b ≠ 0) s.blocks
    omega
  · intro hcur
    by_cases hblock : S.align c.ptr = s.falloc.current
    · exact absurd (if_pos hblock) hcur
    · simp only [State.giveBack, hblock, if_false] at hcur ⊢
      obtain ⟨hold, hchunks⟩ := h.current hcur
      refine ⟨{ hold with behind := fun d hd => hold.behind d (mem_of_mem_erase hd) }, ?_⟩
      rwa [update_of_ne (Ne.symm hblock)]

theorem Core.boundary (h : Core S s l) (hcur : Current S s) (hc : c ∈ s.small)
    (hend : c.ptr + c.size = s.falloc.free) :
    S.align c.ptr = s.falloc.current ∧
      ∀ d ∈ s.small.erase c, S.align d.ptr = s.falloc.current → d.ptr + d.size ≤ c.ptr := by
  obtain ⟨hmem, huser, hupper, hbehind⟩ := hcur
  have hpos := (h.sized c hc).1
  have hblock : S.align c.ptr = s.falloc.current := by
    by_contra hne
    have hapart := h.apart hmem hc hne
    unfold Chunk.Disjoint at hapart
    unfold userArea at huser
    simp only at hapart
    omega
  refine ⟨hblock, fun d hd hdblock => ?_⟩
  have hdmem := mem_of_mem_erase hd
  have hdpos := (h.sized d hdmem).1
  have hdend := hbehind d hdmem hdblock
  rcases h.disjoint_erase hc hd with hle | hle
  · omega
  · exact hle

theorem Inv.dealocate_other (h : Inv S s l) (hc : c ∈ s.small)
    (hother : s.falloc.chunks (S.align c.ptr) - 1 ≠ 0) :
    Inv S (step S s (.dealocate c)) l := by
  obtain ⟨hmem, huser, hupper⟩ := h.inBlock c hc
  have hcore := h.toCore.giveBack hc
  have hused : s.falloc.usedBlks =
      s.blocks.countP fun b => (s.giveBack S c).falloc.chunks b ≠ 0 := by
    show _ = List.countP (fun b => update s.falloc.chunks (S.align c.ptr) _ b ≠ 0) _
    have hcount := countP_update h.blocksNodup hmem s.falloc.chunks
      (s.falloc.chunks (S.align c.ptr) - 1)
    rw [if_neg (h.chunks_pos hc), if_neg hother, ← h.used] at hcount
    omega
  have hchunks : s.falloc.current ≠ 0 →
      (s.giveBack S c).falloc.chunks s.falloc.current ≠ 0 := by
    intro hcur
    by_cases hblock : s.falloc.current = S.align c.ptr
    · rw [hblock]
      exact (update_self _ _ _).trans_ne hother
    · exact (update_of_ne hblock _ _).trans_ne (h.current hcur).2
  rw [h.dealocate_small hc, if_neg hother]
  by_cases hend : c.ptr + c.size = (s.giveBack S c).falloc.free
  · rw [if_pos hend]
    refine { hcore with used := hused, current := fun hcur => ⟨?_, hchunks hcur⟩ }
    obtain ⟨hold, -⟩ := h.current hcur
    obtain ⟨hblock, hbehind⟩ := h.boundary hold hc hend
    refine ⟨hold.mem, hblock ▸ huser, ?_, hbehind⟩
    exact Nat.le_trans (Nat.le_add_right _ _) (hblock ▸ hupper)
  · rw [if_neg hend]
    refine { hcore with used := hused, current := fun hcur => ⟨?_, hchunks hcur⟩ }
    obtain ⟨hold, -⟩ := h.current hcur
    exact { hold with behind := fun d hd => hold.behind d (mem_of_mem_erase hd) }

end Dealocate

theorem Inv.step {S : BlockSize} {s : State} {l : List Nat} (h : Inv S s l) {op : Op}
    (hallowed : op.Allowed S s) : ∃ l', Inv S (step S s op) l' := by
  cases op with
  | allocate size base => exact h.allocate hallowed
  | dealocate c =>
    rcases hallowed with hc | hc
    · by_cases hlast : s.falloc.chunks (S.align c.ptr) - 1 = 0
      · exact ⟨_, h.dealocate_last hc hlast⟩
      · exact ⟨_, h.dealocate_other hc hlast⟩
    · exact ⟨l, h.dealocate_large hc⟩
  | write block value =>
    -- the block has a chunk, so it is not in the list
    obtain ⟨c, hc, rfl, -⟩ := hallowed
    refine ⟨l, { h with linked := linked_update (h.not_listed hc) h.linked, current := ?_ }⟩
    intro hcur
    obtain ⟨hold, hchunks⟩ := h.current hcur
    exact ⟨{ hold with }, hchunks⟩

theorem laid_always (S : BlockSize) (ops : List Op)
    (hallowed : Along (step S) (fun s op => op.Allowed S s) start ops) :
    Laid S start ∧ After (step S) (Laid S) start ops := by
  refine ⟨(inv_start S).laid, ?_⟩
  refine along_within (fun s => ∃ l, Inv S s l) ?_ ?_ ⟨[], inv_start S⟩ hallowed
  · rintro s op ⟨l, h⟩ hop
    obtain ⟨l', h'⟩ := h.step hop
    exact h'.laid
  · rintro s op ⟨l, h⟩ hop
    exact h.step hop

def smallBlocks : BlockSize := ⟨64, ⟨6, rfl⟩, by decide⟩

def twoBlocks : List Op :=
  [.allocate 16 0x1000, .allocate 20 0, .write 0x1000 7, .allocate 40 0x2000, .allocate 100 0x3000,
    .dealocate ⟨0x1020, 20⟩, .dealocate ⟨0x1010, 16⟩, .dealocate ⟨0x2010, 40⟩, .allocate 8 0,
    .dealocate ⟨0x3000, 100⟩]

theorem laid_always_twoBlocks :
    Along (step smallBlocks) (fun s op => op.Allowed smallBlocks s) start twoBlocks ∧
      Laid smallBlocks start ∧ After (step smallBlocks) (Laid smallBlocks) start twoBlocks := by
  have hallowed :
      Along (step smallBlocks) (fun s op => op.Allowed smallBlocks s) start twoBlocks := by
    decide
  exact ⟨hallowed, laid_always smallBlocks twoBlocks hallowed⟩

end ZeroBugs.Zdk.Allocator
