import ZeroBugs.Dwarfz.LineHistory

/-! # The addresses of a source line -/
namespace ZeroBugs.Dwarfz
open Lib List

/-- The line that answers a query: the smallest registered one not below it, or the greatest of
all. -/
def AnswersLine (lines : List (Nat × Nat)) (line l : Nat) : Prop :=
  (∃ e ∈ lines, e.1 = l) ∧
    ((line ≤ l ∧ ∀ e ∈ lines, line ≤ e.1 → l ≤ e.1) ∨
      ((∀ e ∈ lines, e.1 < line) ∧ ∀ e ∈ lines, e.1 ≤ l))

/-- What was told is all that is registered for the line that answers the query. -/
def TellsLine (lines : List (Nat × Nat)) (line : Nat) (told : List (Nat × Nat)) : Prop :=
  ∃ l, AnswersLine lines line l ∧ told.Perm (lines.filter (·.1 = l))

def GreatestLineOnce (lines : List (Nat × Nat)) (line : Nat) : Prop :=
  (∃ e ∈ lines, line ≤ e.1) ∨
    ∃ e ∈ lines, (∀ x ∈ lines, x.1 ≤ e.1) ∧ (lines.filter (·.1 = e.1)).length = 1

variable {lines : List (Nat × Nat)}

section Nearest

variable {m : MultiMap Nat Nat} {line : Nat} {e : Nat × Nat} {es : List (Nat × Nat)}

theorem nearest_eq_filter (h : m.from_ line = e :: es) :
    nearest m line = m.entries.filter (·.1 = e.1) := by
  have hsorted : (e :: es).Pairwise (·.1 ≤ ·.1) := h ▸ MultiMap.from_sorted m line
  obtain ⟨hfirst, hes⟩ := List.pairwise_cons.mp hsorted
  have hle : line ≤ e.1 := MultiMap.le_of_mem_from (h ▸ mem_cons_self)
  have hbelow : (m.below line).filter (·.1 = e.1) = [] := by
    rw [filter_eq_nil_iff]
    intro x hx
    simpa using ((MultiMap.lt_of_mem_below hx).trans_le hle).ne
  rw [← MultiMap.below_append_from m line, filter_append, hbelow, nil_append, h,
    filter_cons_of_pos (by simp), MultiMap.filter_eq_takeWhile hes hfirst, nearest, h]

theorem answersLine_of_from (h : m.from_ line = e :: es) : AnswersLine m.entries line e.1 := by
  have hsorted : (e :: es).Pairwise (·.1 ≤ ·.1) := h ▸ MultiMap.from_sorted m line
  have hmem : e ∈ m.entries := by
    rw [← MultiMap.below_append_from m line, h]
    exact mem_append_right _ mem_cons_self
  have hle : line ≤ e.1 := MultiMap.le_of_mem_from (h ▸ mem_cons_self)
  refine ⟨⟨e, hmem, rfl⟩, Or.inl ⟨hle, fun x hx hline => ?_⟩⟩
  rw [← MultiMap.below_append_from m line, mem_append, h] at hx
  rcases hx with hx | hx
  · exact absurd hline (Nat.not_le.mpr (MultiMap.lt_of_mem_below hx))
  · rcases mem_cons.mp hx with rfl | hx
    · exact le_rfl
    · exact (List.pairwise_cons.mp hsorted).1 x hx

theorem nearest_eq_last (h : m.from_ line = []) (hlast : m.entries.getLast? = some e) :
    nearest m line = [e] := by
  simp [nearest, h, hlast]

theorem lt_of_from_nil (h : m.from_ line = []) : ∀ x ∈ m.entries, x.1 < line := by
  intro x hx
  rw [← MultiMap.below_append_from m line, h, append_nil] at hx
  exact MultiMap.lt_of_mem_below hx

theorem AnswersLine.unique {l l' : Nat}
    (h : AnswersLine lines line l) (h' : AnswersLine lines line l') : l = l' := by
  obtain ⟨⟨x, hx, rfl⟩, h⟩ := h
  obtain ⟨⟨y, hy, rfl⟩, h'⟩ := h'
  rcases h with ⟨hle, hmin⟩ | ⟨hnone, hmax⟩
  · rcases h' with ⟨hle', hmin'⟩ | ⟨hnone', -⟩
    · exact le_antisymm (hmin y hy hle') (hmin' x hx hle)
    · exact absurd hle (Nat.not_le.mpr (hnone' x hx))
  · rcases h' with ⟨hle', -⟩ | ⟨-, hmax'⟩
    · exact absurd hle' (Nat.not_le.mpr (hnone y hy))
    · exact le_antisymm (hmax' x hx) (hmax y hy)

theorem tellsLine_nearest_iff (hne : m.entries ≠ []) :
    TellsLine m.entries line (nearest m line) ↔ GreatestLineOnce m.entries line := by
  cases h : m.from_ line with
  | cons e es =>
    have hanswers := answersLine_of_from h
    obtain ⟨x, hx, hkey⟩ := hanswers.1
    have hle : line ≤ e.1 := MultiMap.le_of_mem_from (h ▸ mem_cons_self)
    exact iff_of_true ⟨e.1, hanswers, by rw [nearest_eq_filter h]⟩
      (Or.inl ⟨x, hx, hkey ▸ hle⟩)
  | nil =>
    have hlast := getLast?_eq_some_getLast hne
    have hmax := MultiMap.le_of_getLast m.sorted hlast
    have hmem := mem_of_getLast? hlast
    have hlt := lt_of_from_nil h
    generalize m.entries.getLast hne = e at hlast hmax hmem
    have hanswers : AnswersLine m.entries line e.1 := ⟨⟨e, hmem, rfl⟩, Or.inr ⟨hlt, hmax⟩⟩
    have hin : e ∈ m.entries.filter (·.1 = e.1) := mem_filter.mpr ⟨hmem, by simp⟩
    rw [nearest_eq_last h hlast]
    constructor
    · intro htells
      obtain ⟨l, hl, hperm⟩ := htells
      obtain rfl := hanswers.unique hl
      exact Or.inr ⟨e, hmem, hmax, hperm.length_eq.symm⟩
    · intro honce
      rcases honce with ⟨x, hx, hle⟩ | ⟨x, hx, hxmax, hlength⟩
      · exact absurd (hlt x hx) (Nat.not_lt.mpr hle)
      · have hkey : x.1 = e.1 := le_antisymm (hmax x hx) (hxmax e hmem)
        rw [hkey] at hlength
        obtain ⟨y, hy⟩ := List.length_eq_one_iff.mp hlength
        rw [hy, mem_singleton] at hin
        exact ⟨e.1, hanswers, by rw [hy, hin]⟩

end Nearest

/-! Both sides of the law are about the registrations, whatever their order. -/

variable {lines' : List (Nat × Nat)}

theorem AnswersLine.perm (h : lines.Perm lines')
    {line l : Nat} (ha : AnswersLine lines line l) : AnswersLine lines' line l := by
  simpa only [AnswersLine, h.mem_iff] using ha

theorem tellsLine_perm (h : lines.Perm lines') (line : Nat)
    (told : List (Nat × Nat)) : TellsLine lines line told ↔ TellsLine lines' line told := by
  constructor
  · intro htells
    obtain ⟨l, ha, ht⟩ := htells
    exact ⟨l, ha.perm h, ht.trans (h.filter _)⟩
  · intro htells
    obtain ⟨l, ha, ht⟩ := htells
    exact ⟨l, ha.perm h.symm, ht.trans (h.symm.filter _)⟩

theorem greatestLineOnce_perm (h : lines.Perm lines')
    (line : Nat) : GreatestLineOnce lines line ↔ GreatestLineOnce lines' line := by
  simp only [GreatestLineOnce, h.mem_iff, (h.filter _).length_eq]

def registered (unitFileName : Option String) (rows : List LineRow) : SrcLineMap :=
  rows.foldl SrcLineMap.onSrcline ⟨unitFileName, fun _ => none, false⟩

theorem lineToAddr_group_iff (unitFileName : Option String) (rows : List LineRow) (file : String)
    (line : Nat) (hfile : fileLines file rows ≠ []) :
    TellsLine (fileLines file rows) line
        ((registered unitFileName rows).lineToAddr (wholeQuery file line)).1.2 ↔
      GreatestLineOnce (fileLines file rows) line := by
  have hcancelled : (registered unitFileName rows).cancelled = false :=
    (foldl_onSrcline_fields _ rows).2
  have hentry : (registered unitFileName rows).addrByFile file =
      addLines none (fileLines file rows) := addrByFile_foldl _ rows file
  have hperm := addLines_entries_perm none (fileLines file rows)
  rw [lineToAddr_eq_reply hcancelled]
  change TellsLine _ _ (reply ((registered unitFileName rows).addrByFile file) _).2 ↔ _
  rw [hentry]
  cases hlines : addLines none (fileLines file rows) with
  | none =>
    rw [hlines] at hperm
    exact absurd (nil_perm.mp hperm) hfile
  | some m =>
    rw [hlines] at hperm
    change m.entries.Perm (fileLines file rows) at hperm
    have hne : m.entries.isEmpty = false := by simpa using addLines_nonempty rfl hlines
    have htold : (reply (some m) (wholeQuery file line)).2 = nearest m line := by
      simp [reply, hne, wholeQuery, notifyLines_all]
    rw [htold, ← tellsLine_perm hperm, ← greatestLineOnce_perm hperm]
    exact tellsLine_nearest_iff (by simpa using hne)

/-! A line with two addresses, which is the last one of its file. -/

def lastLineRows : List LineRow :=
  [⟨some "/a.c", 7, 0x10, false⟩, ⟨some "/a.c", 7, 0x20, false⟩]

theorem lineToAddr_group_seven :
    TellsLine (fileLines "/a.c" lastLineRows) 7
      ((registered none lastLineRows).lineToAddr (wholeQuery "/a.c" 7)).1.2 :=
  (lineToAddr_group_iff none lastLineRows "/a.c" 7 (by decide)).mpr
    (Or.inl ⟨(7, 0x10), by decide, by decide⟩)

theorem lineToAddr_past_last_line :
    ¬TellsLine (fileLines "/a.c" lastLineRows) 8
      ((registered none lastLineRows).lineToAddr (wholeQuery "/a.c" 8)).1.2 := by
  have htold : ((registered none lastLineRows).lineToAddr (wholeQuery "/a.c" 8)).1.2 =
      [(7, 0x20)] := by decide
  have hlines : fileLines "/a.c" lastLineRows = [(7, 0x10), (7, 0x20)] := by decide
  intro htells
  obtain ⟨l, ⟨⟨e, he, rfl⟩, -⟩, hperm⟩ := htells
  have hkey : e.1 = 7 := by
    rcases mem_cons.mp he with rfl | he
    · rfl
    · rw [mem_singleton.mp he]
  rw [hkey] at hperm
  exact absurd hperm.length_eq (by decide)

end ZeroBugs.Dwarfz
