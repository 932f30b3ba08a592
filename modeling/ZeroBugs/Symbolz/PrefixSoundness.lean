import ZeroBugs.Symbolz.PrefixLookup

/-! # When a lookup by the start of a name is complete -/
namespace ZeroBugs.Symbolz.SymbolTable
open Lib.BinarySearch Lib.PrefixRange List

variable {Sym : Type} {ignoreSpace : Bool}

def SortedTable.nameKey (t : SortedTable ignoreSpace Sym) (sym : Sym) : List Int :=
  key ignoreSpace (t.symbolName sym)

def SortedTable.matching (t : SortedTable ignoreSpace Sym) (query : Query) : List Sym :=
  startingWith ignoreSpace t.symbolName t.symbols query.text

def SortedTable.EndsRight (t : SortedTable ignoreSpace Sym) (query : Query) : Prop :=
  isSpace (query.last + 1) = false ∧
    if isSpace query.last then
      ∀ sym ∈ t.matching query, ∀ c : UInt8,
        compared ignoreSpace query.text ++ [c] <+: compared ignoreSpace (t.symbolName sym) →
          c ≤ query.last
    else query.last ≠ 0x7F

def SortedTable.Complete (t : SortedTable ignoreSpace Sym) (query : Query) : Prop :=
  ignoreSpace = false ∨ t.matching query = [] ∨
    ((t.matching query).head?.any fun sym => query.text.isPrefixOf (t.symbolName sym)) = true ∧
      t.EndsRight query

theorem SortedTable.hash_ne (t : SortedTable ignoreSpace Sym) {x y : Sym} (hx : x ∈ t.symbols)
    (hy : y ∈ t.symbols) (h : t.nameKey x ≠ t.nameKey y) :
    hash (t.symbolName x) ≠ hash (t.symbolName y) :=
  fun hhash => h (key_congr (t.hashed x hx y hy hhash))

theorem SortedTable.key_sorted (t : SortedTable ignoreSpace Sym) :
    t.symbols.Pairwise fun x y => ¬t.nameKey y < t.nameKey x := by
  refine t.sorted.imp_of_mem fun {x y} hx hy hless hlt => ?_
  have htrue := isLessShared_iff.mpr
    ⟨t.hash_ne hy hx (ne_of_lt hlt), isLess_iff.mpr (Or.inl hlt)⟩
  rw [hless] at htrue
  cases htrue

variable {sym : Sym}

theorem mem_matching {t : SortedTable ignoreSpace Sym} {query : Query} :
    sym ∈ t.matching query ↔ sym ∈ t.symbols ∧ key ignoreSpace query.text <+: t.nameKey sym := by
  rw [SortedTable.matching, startingWith, mem_filter, SortedTable.nameKey, key_isPrefix_iff,
    isPrefixOf_iff_prefix]

theorem matching_eq (t : SortedTable ignoreSpace Sym) (query : Query) :
    t.matching query =
      t.symbols.filter fun sym => decide (key ignoreSpace query.text <+: t.nameKey sym) := by
  refine filter_congr fun sym _ => ?_
  rw [Bool.eq_iff_iff, isPrefixOf_iff_prefix, decide_eq_true_eq, SortedTable.nameKey,
    key_isPrefix_iff]

variable {c : UInt8}

theorem toNat_add_one (h : c ≠ 0xFF) : (c + 1).toNat = c.toNat + 1 := by
  have hc := c.toNat_lt
  have hne : c.toNat ≠ 255 := fun heq => h (UInt8.toNat_inj.mp heq)
  rw [UInt8.toNat_add]
  simp only [UInt8.reduceToNat]
  omega

theorem signedChar_add_one (h : c ≠ 0xFF) (h7f : c ≠ 0x7F) :
    signedChar (c + 1) = signedChar c + 1 := by
  have hne : c.toNat ≠ 127 := fun heq => h7f (UInt8.toNat_inj.mp heq)
  simp only [signedChar, UInt8.lt_iff_toNat_lt, toNat_add_one h, UInt8.reduceToNat]
  split <;> split <;> omega

theorem isSpace_iff : isSpace c = true ↔ c.toNat = 32 ∨ 9 ≤ c.toNat ∧ c.toNat ≤ 13 := by
  simp [isSpace, UInt8.le_iff_toNat_le, ← UInt8.toNat_inj]

theorem endsInSpace_concat (stem : List UInt8) (c : UInt8) :
    endsInSpace (stem ++ [c]) = isSpace c := by
  simp [endsInSpace]

theorem spacelessKey_concat (stem : List UInt8) (c : UInt8) :
    spacelessKey (stem ++ [c]) =
      spacelessKey stem ++ if isSpace c then [] else [signedChar c] := by
  rw [← key_true, key_append, key_true, key_true, spacelessKey_cons]
  rfl

theorem not_runsOut_increment {query : Query} {name : List UInt8}
    (hlow : ¬spacelessKey name < spacelessKey query.text) (hreg : ¬RunsOut name query.text) :
    ¬RunsOut name (query.stem ++ [query.last + 1]) := by
  intro ⟨hend, x, t, heq, hx⟩
  rw [endsInSpace_concat] at hend
  rw [spacelessKey_concat, if_pos hend, append_nil] at heq
  rw [Query.text, spacelessKey_concat] at hlow
  by_cases hlast : isSpace query.last = true
  · refine hreg ⟨?_, x, t, ?_, hx⟩
    · rw [Query.text, endsInSpace_concat, hlast]
    · rw [Query.text, spacelessKey_concat, if_pos hlast, append_nil, heq]
  · rw [if_neg hlast, heq] at hlow
    refine hlow (append_lt_concat_iff.mpr fun y hy => ?_)
    cases hy
    rw [isSpace_iff, toNat_add_one query.last_ne] at hend
    have hpos : 0 ≤ signedChar query.last := by
      simp only [signedChar, UInt8.lt_iff_toNat_lt, UInt8.reduceToNat]
      split <;> omega
    omega

theorem SortedTable.keyed (t : SortedTable ignoreSpace Sym) (query : Query)
    (hreg : ignoreSpace = true → ∀ sym ∈ t.symbols, ¬RunsOut (t.symbolName sym) query.text) :
    Keyed ignoreSpace t.symbolName t.symbols query.text t.nameKey (key ignoreSpace query.text)
      (key ignoreSpace (query.stem ++ [query.last + 1])) where
  sorted := t.key_sorted
  low_iff sym hsym := by
    rw [Bool.eq_iff_iff, isLess_iff, decide_eq_true_eq, SortedTable.nameKey,
      or_iff_left fun h => hreg h.1 sym hsym h.2]
  high_iff sym hsym hlow := by
    rw [increment_text, Bool.eq_iff_iff, isLess_iff, decide_eq_true_eq, SortedTable.nameKey,
      or_iff_left]
    rintro ⟨rfl, hout⟩
    exact not_runsOut_increment hlow (hreg rfl sym hsym) hout
  of_plain sym _ hplain := by
    rw [SortedTable.nameKey, key_isPrefix_iff]
    cases ignoreSpace with
    | false => exact hplain
    | true => exact hplain.filter _

theorem increment_cuts_plain (query : Query) (name : List UInt8)
    (hlow : ¬key false name < key false query.text) :
    key false name < key false (query.stem ++ [query.last + 1]) ↔
      key false query.text <+: key false name := by
  have hnext : ∀ x : Int, x < (query.last + 1).toNat ↔ x ≤ query.last.toNat := by
    rw [toNat_add_one query.last_ne]
    omega
  have hiff := concat_isPrefix_iff (w := key false query.stem) (s := key false name) hnext
  have hconcat : ∀ c : UInt8, key false query.stem ++ [(c.toNat : Int)] =
      key false (query.stem ++ [c]) := fun c => (key_append false query.stem [c]).symm
  rw [hconcat, hconcat] at hiff
  rw [Query.text] at hlow ⊢
  rw [hiff, and_iff_right hlow]

/-- The increment divides the symbols not below the query into those that start
with it and the others. -/
def SortedTable.Cuts (t : SortedTable ignoreSpace Sym) (query : Query) : Prop :=
  ∀ sym ∈ t.symbols, ¬t.nameKey sym < key ignoreSpace query.text →
    (t.nameKey sym < key ignoreSpace (query.stem ++ [query.last + 1]) ↔
      key ignoreSpace query.text <+: t.nameKey sym)

section Demangled

variable {t : SortedTable true Sym} {query : Query}

variable {first : Sym}

theorem increment_cuts_of_not_space (hlast : isSpace query.last = false)
    (hfirst : first ∈ t.matching query) :
    t.Cuts query ↔ t.EndsRight query := by
  obtain ⟨hmem, hstart⟩ := mem_matching.mp hfirst
  have hnot := not_lt_of_isPrefix hstart
  rw [SortedTable.Cuts, SortedTable.EndsRight, hlast]
  simp only [key_true, Query.text, spacelessKey_concat, hlast] at hstart hnot ⊢
  by_cases hnext : isSpace (query.last + 1) = true
  · -- the increment is the stem for the comparator, and below the query
    simp only [hnext, Bool.true_eq_false, false_and, iff_false, if_true, append_nil]
    intro hcuts
    exact hnot (((hcuts first hmem hnot).mpr hstart).trans (lt_append_cons _ _ []))
  · simp only [hnext, Bool.false_eq_true, if_false, true_and]
    constructor
    · -- the increment of 0x7F is negative, and below the query
      intro hcuts h7f
      have hlt := (hcuts first hmem hnot).mpr hstart
      refine hnot (hlt.trans (append_lt_concat_iff.mpr fun x hx => ?_))
      cases hx
      rw [h7f]
      decide
    · intro h7f sym _ hlow
      have hiff := concat_isPrefix_iff (w := spacelessKey query.stem) (s := t.nameKey sym)
        (fun x => (signedChar_add_one query.last_ne h7f).symm ▸ Int.lt_add_one_iff)
      rw [hiff, and_iff_right hlow]

theorem exists_rest (h : sym ∈ t.matching query) :
    ∃ rest : List UInt8, compared true (t.symbolName sym) = compared true query.text ++ rest ∧
      t.nameKey sym = key true query.text ++ rest.map signedChar := by
  obtain ⟨rest, hrest⟩ := key_isPrefix_iff.mp (mem_matching.mp h).2
  refine ⟨rest, hrest.symm, ?_⟩
  have hmap := congrArg (List.map signedChar) hrest
  rw [map_append] at hmap
  exact hmap.symm

theorem signedChar_lt_increment {last : UInt8} (hlast : isSpace last = true)
    (hnot : ¬signedChar c < 0) : signedChar c < signedChar (last + 1) ↔ c ≤ last := by
  have hnat : last.toNat < 127 := by
    rw [isSpace_iff] at hlast
    omega
  have hff : last ≠ 0xFF := by
    rintro rfl
    exact absurd hnat (by decide)
  have hc := c.toNat_lt
  simp only [signedChar, UInt8.lt_iff_toNat_lt, UInt8.le_iff_toNat_le, toNat_add_one hff,
    UInt8.reduceToNat] at hnot ⊢
  split at hnot <;> split <;> omega

theorem increment_cuts_of_space (hlast : isSpace query.last = true)
    (hreg : ∀ sym ∈ t.symbols, ¬RunsOut (t.symbolName sym) query.text)
    (hfirst : first ∈ t.matching query) :
    t.Cuts query ↔ t.EndsRight query := by
  obtain ⟨hmem, hstart⟩ := mem_matching.mp hfirst
  have hlow : key true query.text = spacelessKey query.stem := by
    rw [key_true, Query.text, spacelessKey_concat, if_pos hlast, append_nil]
  -- no name goes on with a negative byte
  have hnonneg : ∀ sym ∈ t.matching query, ∀ c rest,
      t.nameKey sym = key true query.text ++ signedChar c :: rest → ¬signedChar c < 0 := by
    intro sym hsym c rest heq hneg
    refine hreg sym (mem_matching.mp hsym).1 ⟨?_, signedChar c, rest, heq, hneg⟩
    rw [Query.text, endsInSpace_concat, hlast]
  rw [SortedTable.Cuts, SortedTable.EndsRight, if_pos hlast]
  by_cases hnext : isSpace (query.last + 1) = true
  · -- the increment is the query for the comparator
    have hhigh : key true (query.stem ++ [query.last + 1]) = key true query.text := by
      rw [hlow, key_true, spacelessKey_concat, if_pos hnext, append_nil]
    rw [hhigh]
    have hnot := not_lt_of_isPrefix hstart
    simp only [hnext, Bool.true_eq_false, false_and, iff_false]
    exact fun hcuts => hnot ((hcuts first hmem hnot).mpr hstart)
  · have hhigh : key true (query.stem ++ [query.last + 1]) =
        key true query.text ++ [signedChar (query.last + 1)] := by
      rw [hlow, key_true, spacelessKey_concat, if_neg hnext]
    rw [hhigh, and_iff_right (by simpa using hnext)]
    constructor
    · intro hcuts sym hsym c hc
      obtain ⟨hin, hstarts⟩ := mem_matching.mp hsym
      have hlt := (hcuts sym hin (not_lt_of_isPrefix hstarts)).mpr hstarts
      obtain ⟨rest, hrest, hkey⟩ := exists_rest hsym
      rw [hrest, prefix_append_right_inj] at hc
      obtain ⟨tail, rfl⟩ := hc
      rw [hkey, append_lt_concat_iff] at hlt
      exact (signedChar_lt_increment hlast (hnonneg sym hsym c _ hkey)).mp (hlt _ rfl)
    · intro hle sym hin hge
      constructor
      · intro hlt
        by_contra hstarts
        exact lt_asymm hlt (append_lt_of_not_isPrefix hge hstarts _)
      · intro hstarts
        have hsym := mem_matching.mpr ⟨hin, hstarts⟩
        obtain ⟨rest, hrest, hkey⟩ := exists_rest hsym
        rw [hkey, append_lt_concat_iff]
        intro x hx
        cases rest with
        | nil => cases hx
        | cons c rest =>
          cases hx
          refine (signedChar_lt_increment hlast (hnonneg sym hsym c _ hkey)).mpr ?_
          refine hle sym hsym c ?_
          rw [hrest, prefix_append_right_inj]
          exact ⟨rest, rfl⟩

theorem increment_cuts_iff (hreg : ∀ sym ∈ t.symbols, ¬RunsOut (t.symbolName sym) query.text)
    (hfirst : first ∈ t.matching query) :
    t.Cuts query ↔ t.EndsRight query := by
  cases hlast : isSpace query.last with
  | false => exact increment_cuts_of_not_space hlast hfirst
  | true => exact increment_cuts_of_space hlast hreg hfirst

/-! ## Where the query runs out

If the query ends in white space and a name that starts with it goes on with a
negative byte, the lookup is incomplete wherever the search stops. -/

theorem not_endsRight_of_runsOut (hsym : sym ∈ t.symbols)
    (hout : RunsOut (t.symbolName sym) query.text) :
    sym ∈ t.matching query ∧ ¬t.EndsRight query := by
  obtain ⟨hend, x, rest, hkey, hneg⟩ := hout
  rw [Query.text, endsInSpace_concat] at hend
  have hin : sym ∈ t.matching query := mem_matching.mpr ⟨hsym, x :: rest, hkey.symm⟩
  refine ⟨hin, fun hends => ?_⟩
  obtain ⟨tail, htail, hkey'⟩ := exists_rest hin
  have heq := append_cancel_left (hkey'.symm.trans hkey)
  cases tail with
  | nil => cases heq
  | cons c tail =>
    rw [map_cons, List.cons.injEq] at heq
    have hle := hends.2
    rw [if_pos hend] at hle
    have hc := hle sym hin c (by rw [htail, prefix_append_right_inj]; exact ⟨tail, rfl⟩)
    have hlast := isSpace_iff.mp hend
    rw [UInt8.le_iff_toNat_le] at hc
    have hpos : signedChar c = c.toNat := by
      rw [signedChar, if_pos (UInt8.lt_iff_toNat_lt.mpr (by simp only [UInt8.reduceToNat]; omega))]
    omega

theorem SortedTable.not_both_less (t : SortedTable ignoreSpace Sym) {x y : Sym}
    (hx : x ∈ t.symbols) (hy : y ∈ t.symbols) (hkey : t.nameKey x ≠ t.nameKey y)
    (hxy : isLess ignoreSpace (t.symbolName x) (t.symbolName y) = true)
    (hyx : isLess ignoreSpace (t.symbolName y) (t.symbolName x) = true) : False := by
  have hless := isLessShared_iff.mpr ⟨t.hash_ne hx hy hkey, hxy⟩
  have hless' := isLessShared_iff.mpr ⟨t.hash_ne hy hx hkey.symm, hyx⟩
  obtain ⟨i, hi, rfl⟩ := List.mem_iff_getElem.mp hx
  obtain ⟨j, hj, rfl⟩ := List.mem_iff_getElem.mp hy
  have hsorted := List.pairwise_iff_getElem.mp t.sorted
  rcases Nat.lt_trichotomy i j with hij | rfl | hji
  · exact Bool.false_ne_true ((hsorted i j hi hj hij).symm.trans hless')
  · exact hkey rfl
  · exact Bool.false_ne_true ((hsorted j i hj hi hji).symm.trans hless)

theorem endsInSpace_append {x y : List UInt8} (hx : endsInSpace x = true)
    (hy : spacelessKey y = []) : endsInSpace (x ++ y) = true := by
  rcases eq_nil_or_concat' y with rfl | ⟨front, c, rfl⟩
  · rwa [append_nil]
  · rw [spacelessKey_concat] at hy
    rw [← append_assoc, endsInSpace_concat]
    by_contra hc
    simp [hc] at hy

theorem not_complete_of_runsOut (hsym : sym ∈ t.symbols)
    (hout : RunsOut (t.symbolName sym) query.text) :
    lookupNameRange true t.symbolName t.symbols query.text ≠ t.matching query := by
  intro hlookup
  have hin := (not_endsRight_of_runsOut hsym hout).1
  obtain ⟨hend, x, rest, hkey, hneg⟩ := hout
  obtain ⟨first, others, hcons⟩ := exists_cons_of_ne_nil (ne_nil_of_mem hin)
  obtain ⟨⟨tail, htail⟩, hless⟩ := head_lookupNameRange (hlookup.trans hcons ▸ rfl :
    (lookupNameRange true t.symbolName t.symbols query.text).head? = some first)
  have hfirst : first ∈ t.symbols :=
    (mem_matching.mp (hcons ▸ mem_cons_self : first ∈ t.matching query)).1
  have hfirstKey : t.nameKey first = spacelessKey query.text ++ spacelessKey tail := by
    rw [SortedTable.nameKey, ← htail, key_append]
    rfl
  cases htailKey : spacelessKey tail with
  | nil =>
    -- the first name ends in white space too: it and `sym` are each less than the other
    rw [htailKey, append_nil] at hfirstKey
    have hlt : t.nameKey first < t.nameKey sym := by
      rw [hfirstKey, SortedTable.nameKey, key_true, hkey]
      exact lt_append_cons _ x rest
    refine t.not_both_less hfirst hsym (ne_of_lt hlt) (isLess_iff.mpr (Or.inl hlt)) ?_
    refine isLess_iff.mpr (Or.inr ⟨rfl, ?_, x, rest, ?_, hneg⟩)
    · rw [← htail]
      exact endsInSpace_append hend htailKey
    · rw [hkey]
      exact congrArg (· ++ x :: rest) hfirstKey.symm
  | cons y tail' =>
    -- the first name goes on with a byte that is not negative: `sym` stands before it
    rw [htailKey] at hfirstKey
    have hy : ¬y < 0 := by
      intro hlt
      rw [isLess_iff.mpr (Or.inr ⟨rfl, hend, y, tail', hfirstKey, hlt⟩)] at hless
      cases hless
    have hlt : t.nameKey sym < t.nameKey first := by
      rw [hfirstKey, SortedTable.nameKey, key_true, hkey]
      exact append_cons_lt _ _ _ (by omega)
    have hsorted : (t.matching query).Pairwise fun x y => ¬t.nameKey y < t.nameKey x :=
      t.key_sorted.sublist filter_sublist
    rw [hcons] at hsorted hin
    rcases mem_cons.mp hin with rfl | hlater
    · exact lt_irrefl _ hlt
    · exact (List.pairwise_cons.mp hsorted).1 sym hlater hlt

end Demangled

theorem lookupNameRange_iff (t : SortedTable ignoreSpace Sym) (query : Query) :
    lookupNameRange ignoreSpace t.symbolName t.symbols query.text = t.matching query ↔
      t.Complete query := by
  cases ignoreSpace with
  | false =>
    have hkeyed := t.keyed query (fun h => absurd h Bool.false_ne_true)
    rw [matching_eq, hkeyed.lookup_eq_iff]
    refine iff_of_true ?_ (Or.inl rfl)
    rw [← matching_eq]
    rcases hmatch : t.matching query with _ | ⟨first, others⟩
    · exact Or.inl rfl
    · refine Or.inr ⟨?_, fun sym _ hlow => increment_cuts_plain query _ hlow⟩
      have hfirst : first ∈ t.matching query := hmatch ▸ mem_cons_self
      exact isPrefixOf_iff_prefix.mpr (key_isPrefix_iff.mp (mem_matching.mp hfirst).2)
  | true =>
    rw [SortedTable.Complete, or_iff_right Bool.true_eq_false.mp]
    by_cases hreg : ∀ sym ∈ t.symbols, ¬RunsOut (t.symbolName sym) query.text
    · have hkeyed := t.keyed query fun _ => hreg
      rw [matching_eq, hkeyed.lookup_eq_iff, ← matching_eq]
      rcases hmatch : t.matching query with _ | ⟨first, others⟩
      · exact iff_of_true (Or.inl rfl) (Or.inl rfl)
      · have hfirst : first ∈ t.matching query := hmatch ▸ mem_cons_self
        exact or_congr_right (and_congr_right fun _ => increment_cuts_iff hreg hfirst)
    · push Not at hreg
      obtain ⟨sym, hsym, hout⟩ := hreg
      obtain ⟨hin, hends⟩ := not_endsRight_of_runsOut hsym hout
      refine iff_of_false (not_complete_of_runsOut hsym hout) ?_
      rintro (hnil | hcomplete)
      · exact ne_nil_of_mem hin hnil
      · exact hends hcomplete.2

def spacedTable : SortedTable true Unit where
  symbolName _ := [102, 111, 111, 32, 40, 105, 110, 116, 41]
  symbols := [()]
  sorted := pairwise_singleton _ _
  hashed _ _ _ _ _ := rfl

def unspacedQuery : Query := ⟨[102, 111, 111], 40, by decide, by decide⟩

theorem spaced_name_not_notified :
    spacedTable.matching unspacedQuery = [()] ∧
      lookupNameRange true spacedTable.symbolName spacedTable.symbols unspacedQuery.text = [] := by
  constructor
  · decide
  · have hfirst : lowerBound (fun i => (spacedTable.symbols[i]?).any fun sym =>
        isLess true (spacedTable.symbolName sym) unspacedQuery.text) 0 1 = 0 :=
      lowerBound_eq ⟨Nat.le_refl 0, by decide, fun i _ hi => absurd hi (Nat.not_lt_zero i),
        by decide⟩
    simp only [lookupNameRange, lookupRange, show spacedTable.symbols.length = 1 from rfl, hfirst]
    decide

end ZeroBugs.Symbolz.SymbolTable
