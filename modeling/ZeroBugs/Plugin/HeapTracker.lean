import Mathlib

/-! # The heap tracker -/
namespace ZeroBugs.Plugin.Heap
open List

structure Block where
  id : Nat
  addr : Nat
  size : Nat
  deriving DecidableEq

structure Containers where
  byAddr : List Block → Block → List Block
  bySize : List Block → Block → List Block
  byAddr_perm : ∀ blocks b, (byAddr blocks b).Perm (b :: blocks)
  bySize_perm : ∀ blocks b, (bySize blocks b).Perm (b :: blocks)

/-- `isFree` is the mark in each block object, and `next` the address of the next new
object. -/
structure HeapPlugin where
  blocksByAddr : List Block
  blocksBySize : List Block
  isFree : Nat → Bool
  total : Nat
  next : Nat

namespace HeapPlugin

def empty : HeapPlugin := ⟨[], [], fun _ => false, 0, 0⟩

def setAddr (c : Containers) (blocks : List Block) (b : Block) : List Block :=
  if ∃ x ∈ blocks, x.addr = b.addr then blocks.map fun x => if x.addr = b.addr then b else x
  else c.byAddr blocks b

/-- `HeapPlugin::add_heap_block`, with a thread that has a stack trace or not. The size
in the block is a field of 63 bits. -/
def addHeapBlock (c : Containers) (hasTrace : Bool) (addr size : Nat) (s : HeapPlugin) :
    HeapPlugin :=
  if hasTrace then
    let blk : Block := ⟨s.next, addr, size % 2 ^ 63⟩
    { blocksByAddr := setAddr c s.blocksByAddr blk
      blocksBySize := c.bySize s.blocksBySize blk
      isFree := Function.update s.isFree s.next false
      total := (s.total + size) % 2 ^ 64
      next := s.next + 1 }
  else s

def removeHeapBlock (addr : Nat) (s : HeapPlugin) : HeapPlugin :=
  match s.blocksByAddr.find? (·.addr = addr) with
  | none => s
  | some b => { s with
      blocksByAddr := s.blocksByAddr.erase b
      isFree := Function.update s.isFree b.id true
      total := (s.total + 2 ^ 64 - b.size) % 2 ^ 64 }

end HeapPlugin

inductive EnumOption where
  | none
  | sortSizeIncreasing
  | sortSizeDecreasing
  deriving DecidableEq

/-- The loop for `SORT_SIZE_DECREASING`. The reverse iterator stands before the block at position `k
- 1`, and its `base()` is `k`, which is erased for a free block; there is no result if that is the
end of the index. -/
def decreasingLoop (isFree : Nat → Bool) : Nat → List Block → List Block →
    Option (List Block × List Block)
  | 0, index, notified => some (notified, index)
  | k + 1, index, notified =>
    match index[k]? with
    | none => none
    | some b =>
      if isFree b.id then
        if k + 1 < index.length then decreasingLoop isFree k (index.eraseIdx (k + 1)) notified
        else none
      else decreasingLoop isFree k index (notified ++ [b])

/-- `HeapPlugin::enum_blocks`: the blocks notified, and the plugin after it. The number
that is returned is that of the notifications. -/
def HeapPlugin.enumBlocks (s : HeapPlugin) : EnumOption → Option (List Block × HeapPlugin)
  | .none => some (s.blocksByAddr, s)
  | .sortSizeIncreasing =>
    let kept := s.blocksBySize.filter fun b => !s.isFree b.id
    some (kept, { s with blocksBySize := kept })
  | .sortSizeDecreasing =>
    (decreasingLoop s.isFree s.blocksBySize.length s.blocksBySize []).map fun r =>
      (r.1, { s with blocksBySize := r.2 })

section Loop

variable {isFree : Nat → Bool} {k : Nat} {index notified : List Block}

theorem decreasingLoop_live (hk : k ≤ index.length) (hlive : ∀ b ∈ index, isFree b.id = false) :
    decreasingLoop isFree k index notified =
      some (notified ++ (index.take k).reverse, index) := by
  induction k generalizing notified with
  | zero => simp [decreasingLoop]
  | succ k ih =>
    have hlt : k < index.length := hk
    have hget : index[k]? = some index[k] := getElem?_eq_getElem hlt
    have hb := hlive index[k] (getElem_mem hlt)
    rw [decreasingLoop, hget]
    simp only [hb, Bool.false_eq_true, if_false]
    rw [ih hlt.le, take_succ_eq_append_getElem hlt, reverse_append]
    simp

theorem decreasingLoop_sublist {r : List Block × List Block}
    (h : decreasingLoop isFree k index notified = some r) : r.2.Sublist index := by
  induction k generalizing index notified with
  | zero =>
    cases h
    exact .refl _
  | succ k ih =>
    rw [decreasingLoop] at h
    split at h
    · cases h
    · split at h
      · split at h
        · exact (ih h).trans (eraseIdx_sublist _ _)
        · cases h
      · exact ih h

def liveCount (isFree : Nat → Bool) (index : List Block) : Nat :=
  index.countP fun b => !isFree b.id

theorem decreasingLoop_loses {r : List Block × List Block}
    (h : decreasingLoop isFree k index notified = some r)
    (habove : ∀ i b, k ≤ i → index[i]? = some b → isFree b.id = false)
    (hfree : ∃ i b, i < k ∧ index[i]? = some b ∧ isFree b.id = true) :
    liveCount isFree r.2 < liveCount isFree index := by
  induction k generalizing notified with
  | zero =>
    obtain ⟨i, b, hi, -⟩ := hfree
    omega
  | succ k ih =>
    rw [decreasingLoop] at h
    split at h
    · cases h
    · rename_i b hget
      split at h
      · split at h
        · rename_i hlt
          have hlive := habove (k + 1) _ le_rfl (getElem?_eq_getElem hlt)
          have hsub := (decreasingLoop_sublist h).countP_le (p := fun b => !isFree b.id)
          have herased : liveCount isFree (index.eraseIdx (k + 1)) + 1 =
              liveCount isFree index := by
            have hperm := getElem_cons_eraseIdx_perm hlt
            have hcount := hperm.countP_eq (fun b => !isFree b.id)
            simpa [liveCount, hlive] using hcount
          unfold liveCount at *
          omega
        · cases h
      · rename_i hb
        have hb : isFree b.id = false := by simpa using hb
        refine ih h ?_ ?_
        · intro i x hi hx
          rcases hi.lt_or_eq with hlt | rfl
          · exact habove i x hlt hx
          · rw [hget] at hx
            cases hx
            exact hb
        · obtain ⟨i, x, hi, hx, hfree⟩ := hfree
          refine ⟨i, x, ?_, hx, hfree⟩
          have hne : i ≠ k := by
            rintro rfl
            rw [hget] at hx
            cases hx
            rw [hb] at hfree
            cases hfree
          omega

end Loop

end ZeroBugs.Plugin.Heap
