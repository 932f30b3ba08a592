import Mathlib

/-! # Files read from a remote host -/
namespace ZeroBugs.Rpc
open List

def bufferSize : Nat := 1024

def putbackAreaSize : Nat := 64

/-- What the server sends of a file: never more than it was asked for. -/
structure Chunk where
  bytes : List UInt8
  nonempty : bytes ≠ []
  bounded : bytes.length ≤ bufferSize - putbackAreaSize - 1

/-- `buffer_`, with the pointers of the get area as offsets. -/
structure RemoteFileBuf where
  buffer : Nat → UInt8
  eback : Nat
  gptr : Nat
  egptr : Nat

def charValue (c : UInt8) : Int := if c < 128 then c.toNat else (c.toNat : Int) - 256

def eof : Int := -1

/-- `memcpy` -/
def copy (buffer : Nat → UInt8) (dst : Nat) (src : Nat → UInt8) (n : Nat) : Nat → UInt8 := fun i =>
  if dst ≤ i ∧ i < dst + n then src (i - dst) else buffer i

namespace RemoteFileBuf

def new (buffer : Nat → UInt8) : RemoteFileBuf :=
  ⟨buffer, putbackAreaSize, putbackAreaSize, putbackAreaSize⟩

/-- `underflow`, with what the server has left to send, which is empty replies after the last
chunk; nothing if an assertion fails. -/
def underflow (b : RemoteFileBuf) (file : List Chunk) :
    Option (Int × RemoteFileBuf × List Chunk) :=
  if bufferSize < b.gptr then none
  else if b.gptr < b.egptr then some (charValue (b.buffer b.gptr), b, file)
  else
    let nPutback := min (b.gptr - b.eback) putbackAreaSize
    if b.gptr < nPutback then none
    else
      let kept := copy b.buffer (putbackAreaSize - nPutback)
        (fun i => b.buffer (b.gptr - nPutback + i)) nPutback
      match file with
      | [] => some (eof, { b with buffer := kept }, [])
      | chunk :: rest =>
        let filled := copy kept putbackAreaSize (fun i => chunk.bytes.getD i 0) chunk.bytes.length
        some (charValue (filled putbackAreaSize), ⟨filled, putbackAreaSize - nPutback,
          putbackAreaSize, putbackAreaSize + chunk.bytes.length⟩, rest)

/-- `sbumpc` of `std::streambuf`, with `uflow` for an empty get area: the next byte, if there
is one. -/
def sbumpc (b : RemoteFileBuf) (file : List Chunk) :
    Option (Option UInt8 × RemoteFileBuf × List Chunk) :=
  if b.gptr < b.egptr then some (some (b.buffer b.gptr), { b with gptr := b.gptr + 1 }, file)
  else (b.underflow file).map fun (c, b, file) =>
    if c = eof then (none, b, file)
    else (some (b.buffer b.gptr), { b with gptr := b.gptr + 1 }, file)

def readToEnd : Nat → RemoteFileBuf → List Chunk → Option (List UInt8)
  | 0, _, _ => none
  | fuel + 1, b, file =>
    match b.sbumpc file with
    | none => none
    | some (none, _, _) => some []
    | some (some c, b, file) => (readToEnd fuel b file).map (c :: ·)

end RemoteFileBuf

def content (file : List Chunk) : List UInt8 := (file.map (·.bytes)).flatten

theorem content_cons (chunk : Chunk) (file : List Chunk) :
    content (chunk :: file) = chunk.bytes ++ content file := rfl

theorem content_append (file file' : List Chunk) :
    content (file ++ file') = content file ++ content file' := by
  rw [content, map_append, flatten_append]
  rfl

/-- The chunk is not taken for the end of the file. -/
def Chunk.readable (chunk : Chunk) : Bool := chunk.bytes.head? != some 0xFF

structure Holds (b : RemoteFileBuf) (pending : List UInt8) : Prop where
  size : b.egptr = b.gptr + pending.length
  bytes : ∀ i c, pending[i]? = some c → b.buffer (b.gptr + i) = c
  inside : b.egptr ≤ bufferSize

theorem charValue_eq_eof (c : UInt8) : charValue c = eof ↔ c = 0xFF := by
  have := c.toNat_lt
  rw [charValue, eof, ← UInt8.toNat_inj]
  simp only [UInt8.lt_iff_toNat_lt]
  split <;> simp at * <;> omega

variable {b : RemoteFileBuf}

variable {c : UInt8} {pending : List UInt8}

theorem Holds.next (h : Holds b (c :: pending)) :
    Holds { b with gptr := b.gptr + 1 } pending := by
  refine ⟨?_, fun i c hc => ?_, h.inside⟩
  · simpa [Nat.add_assoc, Nat.add_comm 1] using h.size
  · simpa [Nat.add_assoc, Nat.add_comm 1] using h.bytes (i + 1) c hc

theorem sbumpc_cons (h : Holds b (c :: pending))
    (file : List Chunk) :
    b.sbumpc file = some (some c, { b with gptr := b.gptr + 1 }, file) := by
  have hbyte : b.buffer b.gptr = c := h.bytes 0 c rfl
  have hsize := h.size
  rw [RemoteFileBuf.sbumpc, if_pos (by simp at hsize; omega), hbyte]

theorem sbumpc_end (h : Holds b []) : ∃ b', b.sbumpc [] = some (none, b', []) := by
  have hsize := h.size
  have hinside := h.inside
  simp only [length_nil, Nat.add_zero] at hsize
  rw [RemoteFileBuf.sbumpc, if_neg (by omega), RemoteFileBuf.underflow, if_neg (by omega),
    if_neg (by omega)]
  rw [if_neg (by omega)]
  exact ⟨_, rfl⟩

theorem sbumpc_chunk (h : Holds b []) {chunk : Chunk}
    (hbytes : chunk.bytes = c :: pending) (rest : List Chunk) :
    ∃ b', Holds b' (c :: pending) ∧ b.sbumpc (chunk :: rest) =
      some (if c = 0xFF then (none, b', rest)
        else (some c, { b' with gptr := b'.gptr + 1 }, rest)) := by
  have hsize := h.size
  have hinside := h.inside
  simp only [length_nil, Nat.add_zero] at hsize
  rw [RemoteFileBuf.sbumpc, if_neg (by omega), RemoteFileBuf.underflow, if_neg (by omega),
    if_neg (by omega)]
  simp only
  rw [if_neg (by omega)]
  generalize copy b.buffer _ _ _ = kept
  have hfilled (i : Nat) (x : UInt8) (hx : (c :: pending)[i]? = some x) :
      copy kept putbackAreaSize (fun i => chunk.bytes.getD i 0) chunk.bytes.length
        (putbackAreaSize + i) = x := by
    obtain ⟨hlt, -⟩ := List.getElem?_eq_some_iff.mp hx
    rw [copy, if_pos ⟨Nat.le_add_right _ _, by rw [hbytes]; omega⟩, Nat.add_sub_cancel_left,
      getD_eq_getElem?_getD, hbytes, hx, Option.getD_some]
  generalize copy kept putbackAreaSize _ _ = filled at hfilled ⊢
  generalize putbackAreaSize - _ = eback
  have hfirst := hfilled 0 c rfl
  have hroom := chunk.bounded
  refine ⟨⟨filled, eback, putbackAreaSize, putbackAreaSize + chunk.bytes.length⟩,
    ⟨by rw [hbytes], hfilled, ?_⟩, ?_⟩
  · simp only [bufferSize, putbackAreaSize] at hroom ⊢
    omega
  · simp only [Nat.add_zero] at hfirst
    simp only [Option.map_some, hfirst, charValue_eq_eof]

theorem readToEnd_eq (fuel : Nat) (file : List Chunk) (h : Holds b pending)
    (hfuel : pending.length + (content file).length < fuel) :
    b.readToEnd fuel file = some (pending ++ content (file.takeWhile Chunk.readable)) := by
  induction fuel generalizing b pending file with
  | zero => omega
  | succ fuel ih =>
    rw [RemoteFileBuf.readToEnd]
    cases pending with
    | cons c pending =>
      rw [sbumpc_cons h]
      simp only [ih file h.next (by simp at hfuel; omega), Option.map_some, cons_append]
    | nil =>
      cases file with
      | nil =>
        obtain ⟨b', hend⟩ := sbumpc_end h
        rw [hend]
        rfl
      | cons chunk rest =>
        obtain ⟨c, pending, hbytes⟩ := exists_cons_of_ne_nil chunk.nonempty
        obtain ⟨b', hb', hnext⟩ := sbumpc_chunk h hbytes rest
        rw [hnext]
        by_cases hc : c = 0xFF
        · rw [if_pos hc, takeWhile_cons_of_neg (by simp [Chunk.readable, hbytes, hc])]
          rfl
        · rw [if_neg hc, takeWhile_cons_of_pos (by simp [Chunk.readable, hbytes, hc])]
          rw [content_cons, hbytes] at hfuel
          simp only [ih rest hb'.next (by simp at hfuel; omega), Option.map_some, content_cons,
            hbytes, nil_append, cons_append]

theorem readToEnd_iff (buffer : Nat → UInt8) (file : List Chunk) :
    (∀ fuel, (content file).length < fuel →
        (RemoteFileBuf.new buffer).readToEnd fuel file = some (content file)) ↔
      ∀ chunk ∈ file, chunk.bytes.head? ≠ some 0xFF := by
  have hnew : Holds (RemoteFileBuf.new buffer) [] := ⟨rfl, nofun, Nat.le_of_ble_eq_true rfl⟩
  have hread (fuel : Nat) (hfuel : (content file).length < fuel) :=
    readToEnd_eq fuel file hnew (by simpa using hfuel)
  refine ⟨fun h chunk hmem heq => ?_, fun h fuel hfuel => ?_⟩
  · have hall := (hread _ (Nat.lt_succ_self _)).symm.trans (h _ (Nat.lt_succ_self _))
    rw [Option.some_inj, nil_append] at hall
    -- The chunks from the one that ends the file on would have no bytes.
    have hsplit := content_append (file.takeWhile Chunk.readable) (file.dropWhile Chunk.readable)
    rw [takeWhile_append_dropWhile, hall] at hsplit
    have hrest := self_eq_append_right.mp hsplit
    cases hdrop : file.dropWhile Chunk.readable with
    | nil => exact bne_iff_ne.mp (dropWhile_eq_nil_iff.mp hdrop chunk hmem) heq
    | cons last rest =>
      rw [hdrop, content_cons] at hrest
      exact last.nonempty (List.append_eq_nil_iff.mp hrest).1
  · rw [hread fuel hfuel, takeWhile_eq_self_iff.mpr fun chunk hmem => ?_]
    · rfl
    · exact bne_iff_ne.mpr (h chunk hmem)

def ones : Chunk := ⟨[0xFF], cons_ne_nil _ _, by decide⟩

theorem ones_not_read : ¬∀ fuel, (content [ones]).length < fuel →
    (RemoteFileBuf.new fun _ => 0).readToEnd fuel [ones] = some (content [ones]) :=
  fun h => absurd (h 2 (by decide)) (by decide)

end ZeroBugs.Rpc
