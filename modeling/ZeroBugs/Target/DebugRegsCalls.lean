import ZeroBugs.Target.DebugRegs

/-! # Sequences of calls on the debug registers -/
namespace ZeroBugs.Target.DebugRegs
open List

structure EnableCall where
  reg : Register
  on : Bool
  global : Bool
  cond : Condition
  len : Length

def EnableCall.apply (control : Word) (call : EnableCall) : Word :=
  if call.on then activate control call.reg call.global call.cond call.len
  else deactivate control call.reg

def controlAfter (calls : List EnableCall) : Word := calls.foldl EnableCall.apply 0

/-- The enable bits after the last call for the register: 2 is global, 1 is local. -/
def enabledBy (calls : List EnableCall) (i : Register) : Word :=
  match calls.reverse.find? (·.reg = i) with
  | none => 0
  | some call => if call.on then (if call.global then 2 else 1) else 0

def fieldBits (n : Length) (c : Condition) : Word :=
  (n.value.setWidth 64 <<< 2) ||| (c.value.setWidth 64 &&& 3)

def activatedBy (calls : List EnableCall) (i : Register) : Word :=
  match calls.reverse.find? fun call => call.reg = i ∧ call.on with
  | none => 0
  | some call => fieldBits call.len call.cond

structure Controls (calls : List EnableCall) (control : Word) : Prop where
  enable : ∀ i : Register, part control (i.val * 2) 3 = enabledBy calls i
  fields : ∀ i : Register, part control (16 + i.val * 4) 0xF = activatedBy calls i
  exact : part control 8 3 = if ∃ i, enabledBy calls i ≠ 0 then 3 else 0
  other : control &&& 0xFFFFFFFF0000FC00 = 0

/-- An activation with a condition that the hardware has, and not the last register with the
greatest length. -/
def EnableCall.Fits (call : EnableCall) : Prop :=
  call.on = true → call.cond ≠ .any ∧ ¬(call.reg = 3 ∧ call.len = .fourByte)

theorem enabledBy_concat (calls : List EnableCall) (call : EnableCall) (i : Register) :
    enabledBy (calls ++ [call]) i = if call.reg = i then
      (if call.on then (if call.global then 2 else 1) else 0) else enabledBy calls i := by
  by_cases h : call.reg = i <;> simp [enabledBy, h]

theorem activatedBy_concat (calls : List EnableCall) (call : EnableCall) (i : Register) :
    activatedBy (calls ++ [call]) i = if call.reg = i ∧ call.on then
      fieldBits call.len call.cond else activatedBy calls i := by
  by_cases h : call.reg = i ∧ call.on = true
  · simp [activatedBy, h]
  · simp only [activatedBy, reverse_append, reverse_singleton, singleton_append]
    rw [find?_cons_of_neg (by simpa using h), if_neg h]

/-! The parts of the masks. -/

theorem mask_parts : ∀ i j : Register,
    let m := ~~~(enableAll i ||| lenType .fourByte .dataReadWrite i)
    part m (j.val * 2) 3 = (if i = j then 0 else 3) ∧
      part m (16 + j.val * 4) 0xF = if i = j then 0 else 0xF := by
  decide

theorem enable_parts : ∀ i j : Register, ∀ global : Bool,
    let bits := if global then enableGlobal i else enableLocal i
    part bits (j.val * 2) 3 = (if i = j then (if global then 2 else 1) else 0) ∧
      part bits (16 + j.val * 4) 0xF = 0 ∧ bits &&& 0xFFFFFFFF0000FC00 = 0 := by
  decide

theorem lenType_parts (n : Length) (c : Condition) : ∀ i j : Register,
    part (lenType n c i) (j.val * 2) 3 = 0 ∧
      (c ≠ .any → part (lenType n c i) (16 + j.val * 4) 0xF =
        if i = j then fieldBits n c else 0) ∧
      (lenType n c i &&& 0xFFFFFFFF0000FC00 = 0 ↔ c ≠ .any ∧ ¬(i = 3 ∧ n = .fourByte)) := by
  cases n <;> cases c <;> decide

theorem disable_parts : ∀ i j : Register,
    let m := ~~~(enableGlobal i ||| enableLocal i)
    part m (j.val * 2) 3 = (if i = j then 0 else 3) ∧ part m (16 + j.val * 4) 0xF = 0xF ∧
      part m 8 3 = 3 := by
  decide

theorem exact_parts : ∀ j : Register,
    (part exact (j.val * 2) 3 = 0 ∧ part exact (16 + j.val * 4) 0xF = 0) ∧
      part (~~~exact) (j.val * 2) 3 = 3 ∧ part (~~~exact) (16 + j.val * 4) 0xF = 0xF := by
  decide

theorem lowByte_eq_zero (x : Word) : x &&& 0xFF = 0 ↔ ∀ i : Register, part x (i.val * 2) 3 = 0 := by
  refine ⟨fun h i => ?_, fun h => ?_⟩
  · have hpart : part 0xFF (i.val * 2) 3 = 3 := by revert i; decide
    have := part_and x 0xFF (i.val * 2) 3
    rw [h, hpart] at this
    exact this.symm.trans (by simp [part])
  · apply BitVec.eq_of_getLsbD_eq
    intro k _
    by_cases hk : k < 8
    · have hbit := congrArg (·.getLsbD (k % 2)) (h ⟨k / 2, by omega⟩)
      have hindex : k / 2 * 2 + k % 2 = k := by omega
      have hthree : (3 : Word).getLsbD (k % 2) = true := by
        obtain h | h : k % 2 = 0 ∨ k % 2 = 1 := by omega
        all_goals rw [h]; rfl
      simp only [part, BitVec.getLsbD_and, BitVec.getLsbD_ushiftRight, hindex, hthree,
        Bool.and_true] at hbit
      rw [BitVec.getLsbD_and, hbit]
      simp
    · have hmask : (0xFF : Word).getLsbD k = false := by
        rw [show (0xFF : Word) = (255#8).setWidth 64 from rfl, BitVec.getLsbD_setWidth,
          BitVec.getLsbD_of_ge _ _ (by omega), Bool.and_false]
      rw [BitVec.getLsbD_and, hmask, Bool.and_false]
      simp

section

variable (control : Word) (i : Register) (global : Bool) (c : Condition) (n : Length)

theorem part_activate
    (k : Nat) (m : Word) : part (activate control i global c n) k m =
      ((control >>> k) &&& part (~~~(enableAll i ||| lenType .fourByte .dataReadWrite i)) k m) |||
        (part (lenType n c i) k m ||| part (if global then enableGlobal i else enableLocal i) k m)
        |||
        part exact k m := by
  rw [activate, part_or, part_or, part_or, part_and]

theorem other_activate (h : control &&& 0xFFFFFFFF0000FC00 = 0) :
    activate control i global c n &&& 0xFFFFFFFF0000FC00 = lenType n c i &&& 0xFFFFFFFF0000FC00 :=
    by
  have hcleared : (control &&& ~~~(enableAll i ||| lenType .fourByte .dataReadWrite i)) &&&
      0xFFFFFFFF0000FC00 = 0 := by
    rw [BitVec.and_assoc, BitVec.and_comm (~~~_), ← BitVec.and_assoc, h]
    exact BitVec.zero_and
  simp only [activate, BitVec.and_or_distrib_right, hcleared, (enable_parts i i global).2.2]
  exact (congrArg (· ||| _) (BitVec.zero_or.trans BitVec.or_zero)).trans BitVec.or_zero

end

variable {calls : List EnableCall} {control : Word} {call : EnableCall}

theorem Controls.activate (h : Controls calls control) (hon : call.on = true) (hfits : call.Fits) :
    Controls (calls ++ [call]) (activate control call.reg call.global call.cond call.len) := by
  obtain ⟨hany, hlast⟩ := hfits hon
  refine ⟨fun j => ?_, fun j => ?_, ?_, ?_⟩
  · rw [part_activate, (mask_parts _ j).1, (lenType_parts _ _ _ j).1, (enable_parts _ j _).1,
      (exact_parts j).1.1, enabledBy_concat, ← h.enable, hon]
    by_cases hj : call.reg = j
    · simp [hj]
    · simp [hj, part]
  · rw [part_activate, (mask_parts _ j).2, (lenType_parts _ _ _ j).2.1 hany,
      (enable_parts _ j _).2.1, (exact_parts j).1.2, activatedBy_concat, ← h.fields, hon]
    by_cases hj : call.reg = j
    · simp [hj]
    · simp [hj, part]
  · have hset : ∃ i, enabledBy (calls ++ [call]) i ≠ 0 := by
      refine ⟨call.reg, ?_⟩
      rw [enabledBy_concat, if_pos rfl, hon]
      cases call.global <;> decide
    rw [if_pos hset, DebugRegs.activate, part_or]
    exact field_or_three _ 8
  · rw [other_activate _ _ _ _ _ h.other]
    exact (lenType_parts _ _ _ 0).2.2.mpr ⟨hany, hlast⟩

theorem Controls.deactivate (h : Controls calls control) (hon : call.on = false) :
    Controls (calls ++ [call]) (deactivate control call.reg) := by
  unfold DebugRegs.deactivate
  generalize hcontrol : control &&& ~~~(enableGlobal call.reg ||| enableLocal call.reg) = left
  have henable (j : Register) : part left (j.val * 2) 3 = enabledBy (calls ++ [call]) j := by
    rw [← hcontrol, part_and, (disable_parts _ j).1, enabledBy_concat, ← h.enable, hon]
    by_cases hj : call.reg = j
    · simp [hj]
    · simp [hj, part]
  have hfields (j : Register) :
      part left (16 + j.val * 4) 0xF = activatedBy (calls ++ [call]) j := by
    rw [← hcontrol, part_and, (disable_parts _ j).2.1, activatedBy_concat, ← h.fields, hon]
    simp [part]
  have hother : left &&& 0xFFFFFFFF0000FC00 = 0 := by
    rw [← hcontrol, BitVec.and_assoc, BitVec.and_comm (~~~_), ← BitVec.and_assoc, h.other]
    exact BitVec.zero_and
  have hlow : left &&& 0xFF = 0 ↔ ¬∃ i, enabledBy (calls ++ [call]) i ≠ 0 := by
    rw [lowByte_eq_zero, not_exists]
    exact forall_congr' fun i => by rw [henable, not_not]
  dsimp only
  split
  · next hzero =>
    refine ⟨fun j => ?_, fun j => ?_, ?_, ?_⟩
    · rw [part_and, (exact_parts j).2.1, ← henable, part]
    · rw [part_and, (exact_parts j).2.2, ← hfields, part]
    · rw [if_neg (hlow.mp hzero), part_and]
      exact BitVec.and_zero
    · rw [BitVec.and_assoc, BitVec.and_comm (~~~_), ← BitVec.and_assoc, hother]
      exact BitVec.zero_and
  · next hzero =>
    refine ⟨henable, hfields, ?_, hother⟩
    have hset := not_not.mp (mt hlow.mpr hzero)
    -- A register that is still enabled was so before.
    have hbefore : ∃ i, enabledBy calls i ≠ 0 := by
      obtain ⟨i, hi⟩ := hset
      refine ⟨i, fun h0 => hi ?_⟩
      rw [enabledBy_concat, hon, h0]
      exact ite_self 0
    have hexact := h.exact
    rw [if_pos hbefore] at hexact
    rw [if_pos hset, ← hcontrol, part_and, (disable_parts _ 0).2.2]
    exact hexact

theorem Controls.apply (h : Controls calls control) (hfits : call.Fits) :
    Controls (calls ++ [call]) (call.apply control) := by
  unfold EnableCall.apply
  cases hon : call.on with
  | true => exact h.activate hon hfits
  | false => exact h.deactivate hon

theorem controls_controlAfter (calls : List EnableCall) (h : ∀ call ∈ calls, call.Fits) :
    Controls calls (controlAfter calls) := by
  induction calls using List.reverseRecOn with
  | nil => exact ⟨by decide, by decide, by decide, rfl⟩
  | append_singleton calls call ih =>
    rw [forall_mem_append, forall_mem_singleton] at h
    rw [controlAfter, foldl_concat]
    exact (ih h.1).apply h.2

theorem controls_iff (calls : List EnableCall) :
    (∀ k, Controls (calls.take k) (controlAfter (calls.take k))) ↔ ∀ call ∈ calls, call.Fits := by
  refine ⟨fun h call hmem hon => ?_, fun h k => ?_⟩
  · obtain ⟨before, after, rfl⟩ := append_of_mem hmem
    have hprefix := h before.length
    have hnext := (h (before.length + 1)).other
    rw [take_left] at hprefix
    rw [take_append, take_of_length_le (Nat.le_succ _), Nat.add_sub_cancel_left,
      controlAfter, take_one, head?_cons, Option.toList_some, foldl_concat] at hnext
    change EnableCall.apply (controlAfter before) call &&& _ = 0 at hnext
    rw [EnableCall.apply, hon, if_pos rfl, other_activate _ _ _ _ _ hprefix.other] at hnext
    exact (lenType_parts _ _ _ 0).2.2.mp hnext
  · exact controls_controlAfter _ fun call hmem => h call (mem_of_mem_take hmem)

theorem wide_last_register_not_controls :
    ¬∀ k, Controls ([⟨3, true, false, .dataWrite, .fourByte⟩].take k)
      (controlAfter ([⟨3, true, false, .dataWrite, .fourByte⟩].take k)) :=
  fun h => absurd (h 1).other (by decide)

namespace DebugRegs386

/-- `DebugRegs386::hit`: the address and the condition, and the registers after the call. The
status is written back only with an address. -/
def hit (d : DebugRegs386) : (Word × Option Word) × DebugRegs386 :=
  let flags := d.debugreg 6 &&& 0xF
  match (List.finRange 4).find? fun i => flags.getLsbD i.val with
  | none => ((0, none), d)
  | some i =>
    if d.reg i = 0 then ((0, none), d)
    else ((d.reg i, some (getCondition d.control i)),
      d.poke 6 (flags &&& ~~~((1 : Word) <<< i.val)))

def hits (d : DebugRegs386) : Nat → List (Word × Option Word)
  | 0 => []
  | n + 1 => d.hit.1 :: d.hit.2.hits n

def isPending (d : DebugRegs386) (i : Register) : Bool := (d.debugreg 6).getLsbD i.val

def inUse (d : DebugRegs386) (i : Register) : Bool := d.reg i ≠ 0

def pending (d : DebugRegs386) : List Register := (List.finRange 4).filter d.isPending

def report (d : DebugRegs386) (i : Register) : Word × Option Word :=
  (d.reg i, some (getCondition d.control i))

/-- The pending hits of registers in use, each once and in order, and then zero. -/
def ReportsOnce (d : DebugRegs386) : Prop :=
  let expected := (d.pending.filter d.inUse).map d.report
  d.hits (expected.length + 1) = expected ++ [(0, none)]

end DebugRegs386

variable {d : DebugRegs386}

theorem flag_eq (i : Register) : (d.debugreg 6 &&& 0xF).getLsbD i.val = d.isPending i := by
  have hmask : (0xF : Word).getLsbD i.val = true := by revert i; decide
  rw [BitVec.getLsbD_and, hmask, Bool.and_true, DebugRegs386.isPending]

theorem head?_pending : (List.finRange 4).find? (fun i => (d.debugreg 6 &&& 0xF).getLsbD i.val) =
    d.pending.head? := by
  rw [DebugRegs386.pending, head?_filter]
  exact congrArg (List.find? · _) (funext flag_eq)

theorem pending_poke {i : Register} {rest : List Register} (h : d.pending = i :: rest) :
    (d.poke 6 (d.debugreg 6 &&& 0xF &&& ~~~((1 : Word) <<< i.val))).pending = rest := by
  have hbit : ∀ i j : Register, (~~~((1 : Word) <<< i.val)).getLsbD j.val = decide (i ≠ j) := by
    decide
  have hnodup : (i :: rest).Nodup := h ▸ (nodup_finRange 4).filter _
  have hpending : (d.poke 6 (d.debugreg 6 &&& 0xF &&& ~~~((1 : Word) <<< i.val))).isPending =
      fun j => decide (i ≠ j) && d.isPending j := by
    funext j
    simp only [DebugRegs386.isPending, DebugRegs386.poke, Function.update_self]
    rw [BitVec.getLsbD_and, flag_eq, hbit, Bool.and_comm]
    rfl
  rw [DebugRegs386.pending, hpending, ← filter_filter]
  change d.pending.filter _ = rest
  rw [h, filter_cons_of_neg (by simp)]
  exact filter_eq_self.mpr fun j hj =>
    decide_eq_true fun heq => (nodup_cons.mp hnodup).1 (heq ▸ hj)

theorem hits_eq (n : Nat) : d.hits n =
    (((d.pending.takeWhile d.inUse).map d.report) ++ List.replicate n (0, none)).take n := by
  induction n generalizing d with
  | zero => rfl
  | succ n ih =>
    have hhit : d.hit = match d.pending.head? with
      | none => ((0, none), d)
      | some i =>
        if d.reg i = 0 then ((0, none), d)
        else (d.report i, d.poke 6 (d.debugreg 6 &&& 0xF &&& ~~~((1 : Word) <<< i.val))) := by
      rw [← head?_pending]
      rfl
    have hstop : d.pending.takeWhile d.inUse = [] → d.hit = ((0, none), d) →
        d.hits (n + 1) = ((d.pending.takeWhile d.inUse).map d.report ++
          List.replicate (n + 1) (0, none)).take (n + 1) := by
      intro hnone hd
      rw [DebugRegs386.hits, hd, ih, hnone]
      simp [replicate_succ]
    cases hp : d.pending with
    | nil =>
      rw [hp] at hhit hstop
      exact hstop rfl hhit
    | cons i rest =>
      rw [hp] at hhit hstop
      by_cases huse : d.reg i = 0
      · refine hstop (takeWhile_cons_of_neg (by simp [DebugRegs386.inUse, huse])) ?_
        rw [hhit]
        exact if_pos huse
      · have hd := hhit.trans (if_neg huse)
        have hin : d.inUse i = true := decide_eq_true huse
        have hpad (L : List (Word × Option Word)) : (L ++ List.replicate (n + 1) (0, none)).take n =
            (L ++ List.replicate n (0, none)).take n := by
          rw [replicate_succ', ← append_assoc, take_append_of_le_length (by simp)]
        rw [DebugRegs386.hits, hd, ih, pending_poke hp, takeWhile_cons_of_pos hin,
          map_cons, cons_append, take_succ_cons, hpad]
        rfl

theorem takeWhile_eq_filter_iff : ∀ b u : Register → Bool,
    ((List.finRange 4).filter b).takeWhile u = ((List.finRange 4).filter b).filter u ↔
      ∀ i j, i < j → b i = true → u i = false → b j = true → u j = false := by
  decide +kernel

theorem hits_reportsOnce_iff : d.ReportsOnce ↔ ∀ i j : Register, i < j → d.isPending i = true →
    d.inUse i = false → d.isPending j = true → d.inUse j = false := by
  rw [← takeWhile_eq_filter_iff]
  change _ ↔ d.pending.takeWhile d.inUse = d.pending.filter d.inUse
  -- What is expected begins with what is reported.
  have hsplit : d.pending.filter d.inUse =
      d.pending.takeWhile d.inUse ++ (d.pending.dropWhile d.inUse).filter d.inUse := by
    conv_lhs => rw [← takeWhile_append_dropWhile (p := d.inUse) (l := d.pending)]
    rw [filter_append, filter_eq_self.mpr fun i hi => mem_takeWhile_imp hi]
  unfold DebugRegs386.ReportsOnce
  simp only
  rw [hits_eq, hsplit]
  generalize d.pending.takeWhile d.inUse = T
  generalize (d.pending.dropWhile d.inUse).filter d.inUse = F
  rw [self_eq_append_right, map_append, append_assoc, take_append,
    take_of_length_le (by simp; omega), append_cancel_left_eq, take_replicate]
  cases F with
  | nil => simp
  | cons i F =>
    have hcount : min ((T.map d.report ++ (i :: F).map d.report).length + 1 -
      (T.map d.report).length)
        ((T.map d.report ++ (i :: F).map d.report).length + 1) = F.length + 2 := by
      simp
      omega
    rw [hcount]
    refine iff_of_false (fun h => ?_) (cons_ne_nil i F)
    cases congrArg Prod.snd (List.cons.inj h).1

/-- The second register is in use, the first one not; both are pending. -/
def staleStatus : DebugRegs386 :=
  ⟨fun i => if i = 1 then 0x1000 else 0, 0, fun i => if i = 6 then 3 else 0⟩

theorem staleStatus_not_reportsOnce : ¬staleStatus.ReportsOnce := by
  unfold DebugRegs386.ReportsOnce
  decide

end ZeroBugs.Target.DebugRegs
