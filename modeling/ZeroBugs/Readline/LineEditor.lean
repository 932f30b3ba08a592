import ZeroBugs.Readline.ReadLine

/-! # Editing a line -/
namespace ZeroBugs.Readline
open List

/-- The text before the cursor, from there on, and the text behind it. -/
structure Line where
  before : Text
  behind : Text
  hist : Nat

namespace Line

variable (l : Line) (history : List Text)

def text : Text := l.before.reverse ++ l.behind

def setText (text : Text) (hist : Nat) : Line := ⟨text.reverse, [], hist⟩

def edit : Key → Line
  | .up => if l.hist = 0 then l else setText (history.getD (l.hist - 1) []) (l.hist - 1)
  | .down =>
    if l.hist + 1 < history.length then setText (history.getD (l.hist + 1) []) (l.hist + 1) else l
  | .left =>
    match l.before with
    | [] => l
    | c :: before => { l with before := before, behind := c :: l.behind }
  | .right =>
    match l.behind with
    | [] => l
    | c :: behind => { l with before := c :: l.before, behind := behind }
  | .delete => { l with behind := l.behind.tail }
  | .deletePrev => { l with before := l.before.tail }
  | .home => { l with before := [], behind := l.text }
  | .toEnd => setText l.text l.hist
  | .other ch =>
    { l with
      before := if 32 ≤ ch ∧ ch < 127 then Char.ofNat ch.toNat :: l.before else l.before
      hist := history.length }
  | _ => l

def after (keys : List Int) : Line :=
  keys.foldl (fun l ch => l.edit history (.of ch)) ⟨[], [], history.length⟩

end Line

variable {rl : ReadLine}

structure Shows (rl : ReadLine) (s : State) (l : Line) : Prop where
  buffer : s.buffer = l.text
  pos : s.pos = l.before.length
  histIter : s.histIter = l.hist
  hist : l.hist ≤ rl.history.length
  mode : s.mode = .editing

theorem Shows.pos_le {s : State} {l : Line} (h : Shows rl s l) : s.pos ≤ s.buffer.length := by
  rw [h.pos, h.buffer, Line.text, length_append, length_reverse]
  exact Nat.le_add_right _ _

theorem Shows.edit {s : State} {l : Line} (h : Shows rl s l) {k : Key} (henter : k ≠ .enter)
    (htab : k ≠ .tab) : Shows rl (s.edit rl k) (l.edit rl.history k) := by
  obtain ⟨buffer, pos, cache, histIter, mode, shown⟩ := s
  obtain ⟨before, behind, hist⟩ := l
  obtain ⟨hbuffer, hpos, hiter, hhist, hmode⟩ := h
  simp only at hbuffer hpos hiter hhist hmode
  subst hbuffer hpos hiter hmode
  have hlen (t : Text) : (before.reverse ++ t).length = before.length + t.length := by simp
  cases k with
  | enter => exact absurd rfl henter
  | tab => exact absurd rfl htab
  | up =>
    simp only [State.edit, State.showPrevHistoryEntry, Line.edit, ne_eq, ite_not]
    split
    · exact ⟨rfl, rfl, rfl, hhist, rfl⟩
    · exact ⟨by simp [State.setBuffer, Line.setText, Line.text],
        by simp [State.setBuffer, Line.setText], rfl, (Nat.sub_le _ 1).trans hhist, rfl⟩
  | down =>
    have hiff : histIter ≠ rl.history.length ∧ histIter + 1 ≠ rl.history.length ↔
        histIter + 1 < rl.history.length := by omega
    simp only [State.edit, State.showNextHistoryEntry, Line.edit, hiff]
    split
    · next hlt =>
      exact ⟨by simp [State.setBuffer, Line.setText, Line.text],
        by simp [State.setBuffer, Line.setText], rfl, hlt.le, rfl⟩
    · exact ⟨rfl, rfl, rfl, hhist, rfl⟩
  | left =>
    cases before with
    | nil => exact ⟨rfl, rfl, rfl, hhist, rfl⟩
    | cons c before => exact ⟨by simp [State.edit, State.moveCursorLeft, Line.edit, Line.text],
        rfl, rfl, hhist, rfl⟩
  | right =>
    cases behind with
    | nil =>
      simp only [State.edit, State.moveCursorRight, Line.text, hlen, length_nil, Nat.add_zero,
        Nat.lt_irrefl, if_false]
      exact ⟨rfl, rfl, rfl, hhist, rfl⟩
    | cons c behind =>
      have hlt : before.length < before.length + (c :: behind).length := by simp
      simp only [State.edit, State.moveCursorRight, Line.text, hlen, hlt, if_true]
      exact ⟨by simp [Line.edit, Line.text], rfl, rfl, hhist, rfl⟩
  | delete =>
    cases behind with
    | nil =>
      simp only [State.edit, State.deleteCurrentChar, Line.text, hlen, length_nil,
        Nat.add_zero, Nat.lt_irrefl, if_false]
      exact ⟨rfl, rfl, rfl, hhist, rfl⟩
    | cons c behind =>
      have hlt : before.length < before.length + (c :: behind).length := by simp
      simp only [State.edit, State.deleteCurrentChar, Line.text, hlen, hlt, if_true]
      refine ⟨?_, rfl, rfl, hhist, rfl⟩
      rw [eraseIdx_append_of_length_le (by simp)]
      simp [Line.edit, Line.text]
  | deletePrev =>
    cases before with
    | nil => exact ⟨rfl, rfl, rfl, hhist, rfl⟩
    | cons c before =>
      refine ⟨?_, rfl, rfl, hhist, rfl⟩
      simp only [State.edit, State.deletePrevChar, Line.edit, Line.text, length_cons,
        Nat.zero_lt_succ, if_true, reverse_cons, append_assoc]
      rw [eraseIdx_append_of_length_le (by simp)]
      simp
  | home => exact ⟨rfl, rfl, rfl, hhist, rfl⟩
  | toEnd => exact ⟨by simp [State.edit, Line.edit, Line.setText, Line.text],
      by simp [State.edit, Line.edit, Line.setText], rfl, hhist, rfl⟩
  | other ch =>
    by_cases hprint : 32 ≤ ch ∧ ch < 127
    · simp only [State.edit, Line.edit, hprint, and_self, if_true]
      cases behind with
      | nil =>
        simp only [State.insertChar, Line.text, hlen, length_nil, Nat.add_zero,
          Nat.lt_irrefl, if_false]
        exact ⟨by simp [Line.text], rfl, rfl, le_rfl, rfl⟩
      | cons c behind =>
        have hlt : before.length < before.length + (c :: behind).length := by simp
        simp only [State.insertChar, Line.text, hlen, hlt, if_true]
        refine ⟨?_, rfl, rfl, le_rfl, rfl⟩
        simp [Line.text]
    · simp only [State.edit, Line.edit, hprint, if_false]
      exact ⟨rfl, rfl, rfl, le_rfl, rfl⟩

theorem Key.of_ne {ch : Int} (henter : ch ≠ keyEnter) (htab : ch ≠ keyTab) :
    Key.of ch ≠ .enter ∧ Key.of ch ≠ .tab := by
  rw [Key.of, if_neg henter, if_neg htab]
  split_ifs <;> simp

theorem shows_after {keys : List Int} (h : ∀ ch ∈ keys, ch ≠ keyEnter ∧ ch ≠ keyTab) :
    Shows rl (rl.after keys) (Line.after rl.history keys) := by
  induction keys using List.reverseRecOn with
  | nil => exact ⟨rfl, rfl, rfl, le_rfl, rfl⟩
  | append_singleton keys ch ih =>
    have hs := ih fun k hk => h k (mem_append_left _ hk)
    obtain ⟨henter, htab⟩ := h ch (by simp)
    obtain ⟨hne, hne'⟩ := Key.of_ne henter htab
    rw [after_editing hs.mode, Line.after, foldl_concat]
    exact hs.edit hne hne'

theorem after_refines (rl : ReadLine) {keys : List Int}
    (h : ∀ ch ∈ keys, ch ≠ keyEnter ∧ ch ≠ keyTab) :
    (rl.after (keys ++ [keyEnter])).mode = .returned ∧
      (rl.after (keys ++ [keyEnter])).buffer = (Line.after rl.history keys).text ∧
      ∀ pre, pre <+: keys → (rl.after pre).pos ≤ (rl.after pre).buffer.length := by
  have hs : Shows rl _ _ := shows_after h
  rw [after_editing hs.mode]
  exact ⟨rfl, hs.buffer, fun pre hpre => (shows_after fun k hk => h k (hpre.subset hk)).pos_le⟩

theorem after_refines_history :
    ((⟨["run".toList], none⟩ : ReadLine).after
      ([97, 98, 0x445B, 99, 0x415B, 1, 0x425B] ++ [keyEnter])).buffer = "run".toList := by
  rw [(after_refines _ (by decide)).2.1]
  rfl

def ReadLine.reads (rl : ReadLine) (bytes : List UInt8) : Nat → List UInt8 × State
  | 0 => (bytes, rl.start)
  | n + 1 =>
    let (bytes, s) := rl.reads bytes n
    ((readkey bytes).2, s.press rl (readkey bytes).1)

def ReadLine.Returns (rl : ReadLine) (bytes : List UInt8) : Prop :=
  ∃ n, (rl.reads bytes n).2.mode = .returned

section Returns

variable {s : State} {bytes : List UInt8}

theorem mode_complete (hs : s.mode = .editing) (found : List Text) :
    (s.complete found).mode ≠ .returned := by
  unfold State.complete
  split
  · exact fun h => nomatch hs.symm.trans h
  · exact fun h => nomatch hs.symm.trans h
  · split
    · exact nofun
    · rcases mode_finish (s := { s with cache := found }) true with h | h <;>
        exact fun h' => nomatch h.symm.trans h'

theorem mode_edit (hs : s.mode = .editing) {k : Key} (h : (s.edit rl k).mode = .returned) :
    k = .enter := by
  by_contra henter
  by_cases htab : k = .tab
  · subst htab
    simp only [State.edit, State.handleAutoComplete] at h
    split at h
    · cases hs.symm.trans h
    · exact mode_complete hs _ h
  · cases hs.symm.trans ((edit_of_ne rl henter htab).1.symm.trans h)

theorem press_returned {ch : Int} (h : (s.press rl ch).mode = .returned) :
    s.mode = .returned ∨ s.mode = .editing ∧ ch = keyEnter := by
  unfold State.press at h
  split at h
  · next hs =>
    refine .inr ⟨hs, ?_⟩
    by_contra hne
    have henter := mode_edit hs h
    rw [Key.of, if_neg hne] at henter
    split_ifs at henter
  · split_ifs at h
    · rcases mode_finish (s := s) true with h' | h' <;> exact nomatch h'.symm.trans h
    · rcases mode_finish (s := s) false with h' | h' <;> exact nomatch h'.symm.trans h
    · exact .inl h
  · exact .inl h

theorem readkey_length (hne : bytes ≠ []) : (readkey bytes).2.length < bytes.length := by
  unfold readkey
  split
  · exact absurd rfl hne
  · simp only [length_drop, length_cons]
    omega
  · exact Nat.lt_succ_self _

theorem reads_length (n : Nat) (h : (rl.reads bytes n).1 ≠ []) :
    (rl.reads bytes n).1.length + n ≤ bytes.length := by
  induction n with
  | zero => exact le_rfl
  | succ n ih =>
    have hnext : (rl.reads bytes (n + 1)).1 = (readkey (rl.reads bytes n).1).2 := rfl
    rw [hnext] at h ⊢
    have hne : (rl.reads bytes n).1 ≠ [] := fun hnil => h (by rw [hnil]; rfl)
    have hlt := readkey_length hne
    have hle := ih hne
    omega

theorem enter_of_returned {n : Nat} (h : (rl.reads bytes n).2.mode = .returned) :
    ∃ k < bytes.length, (rl.reads bytes k).2.mode = .editing ∧
      (readkey (rl.reads bytes k).1).1 = keyEnter := by
  induction n with
  | zero => exact nomatch h
  | succ n ih =>
    rcases press_returned h with hold | ⟨hmode, hkey⟩
    · exact ih hold
    · refine ⟨n, ?_, hmode, hkey⟩
      have hne : (rl.reads bytes n).1 ≠ [] := by
        intro hnil
        rw [hnil] at hkey
        exact absurd hkey (by decide)
      have hlen := reads_length n hne
      have hpos := length_pos_iff.mpr hne
      omega

end Returns

end ZeroBugs.Readline
