import Mathlib

/-! # Stack traces -/
namespace ZeroBugs.Engine.StackTrace
open List

structure FrameImpl where
  pc : UInt64
  sp : UInt64
  fp : UInt64
  realPC : UInt64
  index : Nat
  sigHandler : Bool
  skip : Bool

namespace FrameImpl

def realProgramCount (f : FrameImpl) : UInt64 := if f.realPC = 0 then f.pc else f.realPC

def setProgramCount (f : FrameImpl) (pc : UInt64) : FrameImpl :=
  { f with pc := pc, realPC := if f.realPC = 0 then pc else f.realPC }

def copy (f : FrameImpl) (index : Nat) : FrameImpl :=
  { f with index := index, sigHandler := false, skip := false }

end FrameImpl

/-- What is asked of a thread. `read` is `thread_read` of one word. The check for a
trampoline and the frame handlers give the frame they moved, if they did. -/
structure Thread where
  pc : UInt64
  sp : UInt64
  fp : UInt64
  is32Bit : Bool
  read : UInt64 → Option UInt64
  isSyscallPending : UInt64 → Bool
  checkTrampolineFrame64 : FrameImpl → Option FrameImpl
  unwindFrameHandlers : FrameImpl → Option FrameImpl

def setProgramCount (f : FrameImpl) (pc : UInt64) : FrameImpl :=
  if pc ≠ f.pc then f.setProgramCount pc else f

/-- `unwind_frame`: what it returns, with the frame it leaves, or nothing if its
assertion fails. -/
def unwindFrame (t : Thread) (f : FrameImpl) : Option (Bool × FrameImpl) :=
  if f.fp = 0 then some (false, f)
  else
    let wordSize : UInt64 := if t.is32Bit then 4 else 8
    let mask : UInt64 := if t.is32Bit then 0xffffffff else 0xffffffffffffffff
    match t.checkTrampolineFrame64 f with
    | some g => some (true, g)
    | none =>
      if t.isSyscallPending f.pc then
        match t.read (f.sp + wordSize) with
        | none => some (false, f)
        | some reg =>
          let g := setProgramCount f (reg &&& mask)
          match t.read f.sp with
          | none => some (false, g)
          | some reg => some (true, { g with fp := reg &&& mask, sp := g.sp + 2 * wordSize })
      else
        match t.read (f.fp + wordSize) with
        | none => some (false, f)
        | some reg =>
          let g := setProgramCount f (reg &&& mask)
          if g.realProgramCount ≠ g.pc then none
          else
            match t.read g.fp with
            | none => some (false, g)
            | some reg => some (true, { g with sp := g.fp + 2 * wordSize, fp := reg &&& mask })

/-- One turn of the loop of `unwind` up to the test for a zero program counter: the
frame that is reached, if one is. -/
def advance (t : Thread) (useFrameHandlers : Bool) (f : FrameImpl) : Option (Option FrameImpl) :=
  let moved :=
    match if useFrameHandlers then t.unwindFrameHandlers f else none with
    | some next =>
      let g := { f.setProgramCount next.pc with sp := next.sp, fp := next.fp }
      if g.realProgramCount = 0 ∧ g.pc ≠ 0 then none
      else some (true, { g with realPC := next.realProgramCount })
    | none => unwindFrame t { f with realPC := 0 }
  moved.map fun (ok, g) => if ok && g.pc != 0 then some g else none

/-- The loop of `unwind`: the frames, and whether the end of the stack was reached. -/
def walk (t : Thread) (useFrameHandlers : Bool) (depth : Nat) :
    Nat → FrameImpl → List FrameImpl → Option (List FrameImpl × Bool)
  | 0, _, _ => none
  | fuel + 1, f, frames =>
    if frames.length < depth then
      match advance t useFrameHandlers f with
      | none => none
      | some none => some (frames, true)
      | some (some g) =>
        -- A frame of a signal handler marks the frame below it.
        let marks := g.sigHandler && !frames.isEmpty
        let frames := if marks then frames.modifyLast fun last => { last with sigHandler := true }
          else frames
        let g := { g with sigHandler := g.sigHandler && !marks }
        walk t useFrameHandlers depth fuel g
          (if g.skip then frames else frames ++ [g.copy frames.length])
    else some (frames, false)

/-- `StackTraceImpl::unwind` of a new trace, up to the symbols copied from an old one;
`maxDepth` is `ZERO_MAX_STACK`. -/
def unwind (t : Thread) (useFrameHandlers : Bool) (maxDepth fuel depth : Nat) :
    Option (List FrameImpl × Bool) :=
  let depth := min depth maxDepth
  let f : FrameImpl := ⟨t.pc, t.sp, t.fp, t.pc, 0, false, false⟩
  let frames := [f.copy 0]
  if ¬frames.length < depth ∨ f.pc = 0 then some (frames, true)
  else (walk t useFrameHandlers depth fuel f frames).map fun (frames, complete) =>
    (frames, complete || frames.length == maxDepth)

structure Called (t : Thread) (f g : FrameImpl) : Prop where
  pc : t.read (f.fp + 8) = some g.pc
  fp : t.read f.fp = some g.fp
  sp : g.sp = f.fp + 16

def Outermost (t : Thread) (f : FrameImpl) : Prop :=
  f.fp = 0 ∨ t.read (f.fp + 8) = none ∨ t.read f.fp = none ∨ t.read (f.fp + 8) = some 0

structure Linked (t : Thread) (d : Nat) (frames : List FrameImpl) : Prop where
  bounded : frames.length ≤ d
  first : ∃ f, frames.head? = some f ∧ f.pc = t.pc ∧ f.sp = t.sp ∧ f.fp = t.fp
  numbered : frames.map (·.index) = List.range frames.length
  called : frames.IsChain (Called t)

structure Unwound (t : Thread) (d : Nat) (frames : List FrameImpl) : Prop
    extends Linked t d frames where
  ended : frames.length < d → ∀ f ∈ frames.getLast?, Outermost t f

/-- A 64-bit thread with no trampoline frame and no system call pending. -/
structure Thread.Plain (t : Thread) : Prop where
  is64Bit : t.is32Bit = false
  trampoline : ∀ f, t.checkTrampolineFrame64 f = none
  syscall : ∀ pc, t.isSyscallPending pc = false

/-- The frame with the saved program counter. The real one was cleared before. -/
def FrameImpl.returned (f : FrameImpl) (pc : UInt64) : FrameImpl :=
  { f with pc := pc, realPC := if pc = f.pc then 0 else pc }

theorem setProgramCount_cleared (f : FrameImpl) (pc : UInt64) :
    setProgramCount { f with realPC := 0 } pc = f.returned pc := by
  by_cases h : pc = f.pc
  · simp [setProgramCount, FrameImpl.returned, h]
  · simp [setProgramCount, FrameImpl.setProgramCount, FrameImpl.returned, h]

theorem realProgramCount_returned (f : FrameImpl) (pc : UInt64) :
    (f.returned pc).realProgramCount = (f.returned pc).pc := by
  unfold FrameImpl.realProgramCount
  split
  · rfl
  · next h => exact (if_neg fun heq => h (if_pos heq))

theorem advance_plain {t : Thread} (h : t.Plain) (f : FrameImpl) :
    (advance t false f = some none ∧ Outermost t f) ∨
      ∃ g, advance t false f = some (some g) ∧ Called t f g ∧ g.sigHandler = f.sigHandler ∧
        g.skip = f.skip := by
  have hmask : ∀ reg : UInt64, reg &&& 0xffffffffffffffff = reg := fun reg => UInt64.and_neg_one
  simp only [advance, unwindFrame, h.is64Bit, h.trampoline, h.syscall, Bool.false_eq_true,
    if_false, hmask, setProgramCount_cleared, realProgramCount_returned, ne_eq, not_true_eq_false]
  by_cases hfp : f.fp = 0
  · exact .inl ⟨by rw [if_pos hfp]; rfl, .inl hfp⟩
  rw [if_neg hfp]
  cases hpc : t.read (f.fp + 8) with
  | none => exact .inl ⟨rfl, .inr (.inl hpc)⟩
  | some pc =>
    cases hfp' : t.read f.fp with
    | none => exact .inl ⟨by simp [FrameImpl.returned, hfp'], .inr (.inr (.inl hfp'))⟩
    | some fp =>
      by_cases hzero : pc = 0
      · refine .inl ⟨by simp [FrameImpl.returned, hfp', hzero], ?_⟩
        exact .inr (.inr (.inr (hzero ▸ hpc)))
      · refine .inr ⟨{ f.returned pc with sp := f.fp + 16, fp := fp }, ?_, ⟨hpc, hfp', rfl⟩, rfl,
        rfl⟩
        simp [FrameImpl.returned, hfp', hzero]
/-- The loop invariant. The frame that is moved has the registers of the last one, and
no flags. -/
structure Walked (t : Thread) (d : Nat) (f : FrameImpl) (frames : List FrameImpl) : Prop
    extends Linked t d frames where
  last : ∃ n, frames.getLast? = some (f.copy n)
  sigHandler : f.sigHandler = false
  skip : f.skip = false

theorem Walked.push {t : Thread} {d : Nat} {f g : FrameImpl} {frames : List FrameImpl}
    (h : Walked t d f frames) (hlt : frames.length < d) (hcalled : Called t f g)
    (hsig : g.sigHandler = false) (hskip : g.skip = false) :
    Walked t d g (frames ++ [g.copy frames.length]) := by
  obtain ⟨n, hlast⟩ := h.last
  refine ⟨⟨by simp; omega, ?_, ?_, ?_⟩, ⟨_, getLast?_concat⟩, hsig, hskip⟩
  · obtain ⟨first, hhead, hregs⟩ := h.first
    exact ⟨first, by rw [head?_append, hhead]; rfl, hregs⟩
  · rw [map_append, h.numbered, length_append, length_singleton, range_succ]
    rfl
  · refine h.called.append (.singleton _) fun x hx y hy => ?_
    rw [hlast] at hx
    obtain rfl := Option.mem_some_iff.mp hx
    obtain rfl := Option.mem_some_iff.mp hy
    exact ⟨hcalled.pc, hcalled.fp, hcalled.sp⟩

theorem walk_unwound {t : Thread} (hplain : t.Plain) {d : Nat} :
    ∀ (fuel : Nat) {f : FrameImpl} {frames : List FrameImpl}, Walked t d f frames →
      d < frames.length + fuel →
        ∃ frames' complete, walk t false d fuel f frames = some (frames', complete) ∧
          Unwound t d frames'
  | 0, _, _, h, hfuel => absurd h.bounded (by omega)
  | fuel + 1, f, frames, h, hfuel => by
    rw [walk]
    by_cases hlt : frames.length < d
    · rw [if_pos hlt]
      obtain ⟨hend, hout⟩ | ⟨g, hnext, hcalled, hsig, hskip⟩ := advance_plain hplain f
      · refine ⟨frames, true, by rw [hend], h.toLinked, ?_⟩
        obtain ⟨n, hlast⟩ := h.last
        intro _ last hmem
        rw [hlast] at hmem
        obtain rfl := Option.mem_some_iff.mp hmem
        exact hout
      · rw [h.sigHandler] at hsig
        rw [h.skip] at hskip
        have hpush := h.push hlt hcalled hsig hskip
        obtain ⟨frames', complete, hrun, hunwound⟩ :=
          walk_unwound hplain fuel hpush (by simp; omega)
        refine ⟨frames', complete, ?_, hunwound⟩
        rw [hnext]
        obtain ⟨pc, sp, fp, realPC, index, sigHandler, skip⟩ := g
        obtain rfl : sigHandler = false := hsig
        obtain rfl : skip = false := hskip
        exact hrun
    · exact ⟨frames, false, if_neg hlt, h.toLinked, fun hshort => absurd hshort hlt⟩

theorem unwind_unwound {t : Thread} (hplain : t.Plain) (hpc : t.pc ≠ 0) {maxDepth d fuel : Nat}
    (hpos : 1 ≤ d) (hmax : d ≤ maxDepth) (hfuel : d ≤ fuel) :
    ∃ frames complete, unwind t false maxDepth fuel d = some (frames, complete) ∧
      Unwound t d frames := by
  have hstart : Walked t d ⟨t.pc, t.sp, t.fp, t.pc, 0, false, false⟩
      [⟨t.pc, t.sp, t.fp, t.pc, 0, false, false⟩] :=
    ⟨⟨hpos, ⟨_, rfl, rfl, rfl, rfl⟩, rfl, .singleton _⟩, ⟨0, rfl⟩, rfl, rfl⟩
  simp only [unwind, Nat.min_eq_left hmax, FrameImpl.copy, hpc, or_false, length_singleton]
  by_cases hone : 1 < d
  · obtain ⟨frames, complete, hrun, hunwound⟩ :=
      walk_unwound hplain fuel hstart (by simp; omega)
    exact ⟨frames, _, by rw [if_neg (not_not.mpr hone), hrun]; rfl, hunwound⟩
  · exact ⟨_, _, if_pos hone, hstart.toLinked, fun hlt => absurd hlt hone⟩

/-- A stack whose second frame is its own caller. -/
def cyclic : Thread where
  pc := 0x400000
  sp := 0x7000
  fp := 0x7010
  is32Bit := false
  read addr := some (if addr = 0x7018 then 0x400000 else if addr = 0x7010 then 0x7010 else 0)
  isSyscallPending _ := false
  checkTrampolineFrame64 _ := none
  unwindFrameHandlers _ := none

theorem unwind_unwound_cyclic : ∃ frames complete,
    unwind cyclic false 1024 3 3 = some (frames, complete) ∧ Unwound cyclic 3 frames :=
  unwind_unwound ⟨rfl, fun _ => rfl, fun _ => rfl⟩ (by decide) (by omega) (by omega) (by omega)

structure Symbol where
  addr : UInt64
  offset : UInt64

/-- A trace with frames, one of them selected. `function` is the symbol at the program
counter of a frame, if one is known. -/
structure StackTraceImpl where
  frames : List FrameImpl
  sel : Fin frames.length
  function : FrameImpl → Option Symbol

/-- The loop of `WatchPoint::in_scope` with `left` indices up to the size of the trace. A frame
without a function is not replaced by the next one. -/
def scopeLoop (scope : UInt64) (trace : StackTraceImpl) : Nat → FrameImpl → Option Bool
  | 0, _ => some false
  | left + 1, f =>
    match trace.function f with
    | none => scopeLoop scope trace left f
    | some fn =>
      if fn.addr - fn.offset = scope then some true
      else if left = 0 then some false
      else
        match trace.frames[trace.frames.length - left]? with
        | none => none
        | some g => scopeLoop scope trace left g

def inScope (scope : UInt64) (trace : StackTraceImpl) : Option Bool :=
  if scope = 0 then some true
  else scopeLoop scope trace (trace.frames.length - trace.sel) (trace.frames.get trace.sel)

def isScope (scope : UInt64) (trace : StackTraceImpl) (f : FrameImpl) : Bool :=
  (trace.function f).any fun fn => fn.addr - fn.offset == scope

def StackTraceImpl.outward (trace : StackTraceImpl) : List FrameImpl :=
  trace.frames.drop trace.sel

variable {scope : UInt64} {trace : StackTraceImpl}

theorem scopeLoop_unknown {f : FrameImpl} (h : trace.function f = none) :
    ∀ left, scopeLoop scope trace left f = some false
  | 0 => rfl
  | left + 1 => by rw [scopeLoop, h, scopeLoop_unknown h left]

theorem scopeLoop_eq {f : FrameImpl} {before after : List FrameImpl}
    (h : trace.frames = before ++ f :: after) :
    scopeLoop scope trace (after.length + 1) f =
      some (((f :: after).takeWhile fun g => (trace.function g).isSome).any
        (isScope scope trace)) := by
  induction after generalizing before f with
  | nil =>
    cases hfn : trace.function f with
    | none => simp [scopeLoop, hfn]
    | some fn => by_cases heq : fn.addr - fn.offset = scope <;> simp [scopeLoop, isScope, hfn, heq]
  | cons g after ih =>
    cases hfn : trace.function f with
    | none => simp [scopeLoop_unknown hfn, hfn]
    | some fn =>
      have hnext : trace.frames[trace.frames.length - (g :: after).length]? = some g := by
        rw [h, length_append, length_cons,
          show before.length + ((g :: after).length + 1) - (g :: after).length =
            before.length + 1 by omega]
        simp
      have hrest := ih (f := g) (h.trans (append_cons before f _))
      rw [scopeLoop, hfn]
      simp only [hnext]
      by_cases heq : fn.addr - fn.offset = scope
      · simp [isScope, hfn, heq]
      · simpa [isScope, hfn, heq, beq_eq_false_iff_ne.mpr heq] using hrest

theorem inScope_eq (h : scope ≠ 0) : inScope scope trace =
    some ((trace.outward.takeWhile fun g => (trace.function g).isSome).any
      (isScope scope trace)) := by
  have hdrop := drop_eq_getElem_cons trace.sel.isLt
  have hsplit := (take_append_drop trace.sel.val trace.frames).symm
  rw [hdrop] at hsplit
  rw [inScope, if_neg h, StackTraceImpl.outward, hdrop, ← scopeLoop_eq hsplit, length_drop]
  congr 1
  omega

theorem inScope_iff (h : scope ≠ 0) :
    inScope scope trace = some (trace.outward.any (isScope scope trace)) ↔
      (∀ f ∈ trace.outward, isScope scope trace f = false) ∨
        ∃ f ∈ trace.outward.takeWhile fun g => (trace.function g).isSome,
          isScope scope trace f = true := by
  rw [inScope_eq h, Option.some_inj]
  have hsub := takeWhile_subset (p := fun g => (trace.function g).isSome)
    (l := trace.outward)
  cases hany : (trace.outward.takeWhile fun g => (trace.function g).isSome).any
      (isScope scope trace) with
  | true =>
    obtain ⟨f, hf, hscope⟩ := List.any_eq_true.mp hany
    exact iff_of_true (List.any_eq_true.mpr ⟨f, hsub hf, hscope⟩).symm (.inr ⟨f, hf, hscope⟩)
  | false =>
    have hnone : ¬∃ f ∈ trace.outward.takeWhile fun g => (trace.function g).isSome,
        isScope scope trace f = true := fun hex => by
      rw [List.any_eq_true.mpr hex] at hany
      cases hany
    rw [eq_comm, any_eq_false]
    simp only [hnone, or_false, Bool.not_eq_true]

/-- A frame without a function below one that is in the scope. -/
def strippedFrame : StackTraceImpl where
  frames := [⟨0x10, 0, 0, 0, 0, false, false⟩, ⟨0x24, 0, 0, 0, 1, false, false⟩]
  sel := ⟨0, by decide⟩
  function f := if f.pc = 0x24 then some ⟨0x24, 4⟩ else none

theorem inScope_iff_stripped : inScope 0x30 strippedFrame =
    some (strippedFrame.outward.any (isScope 0x30 strippedFrame)) :=
  (inScope_iff (by decide)).mpr (.inl (by decide))

theorem stripped_not_inScope : ¬(inScope 0x20 strippedFrame =
    some (strippedFrame.outward.any (isScope 0x20 strippedFrame))) := by decide

end ZeroBugs.Engine.StackTrace
