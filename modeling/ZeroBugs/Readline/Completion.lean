import ZeroBugs.Readline.ReadLine

/-! # Completing a word -/
namespace ZeroBugs.Readline
open Lib List

theorem mem_stringSet {strings : List Text} {m : Text} : m ∈ stringSet strings ↔ m ∈ strings := by
  rw [stringSet, (perm_insertionSort _ _).mem_iff, mem_dedup]

theorem nodup_stringSet (strings : List Text) : (stringSet strings).Nodup :=
  (perm_insertionSort _ _).nodup_iff.mpr (nodup_dedup strings)

theorem sorted_stringSet (strings : List Text) : (stringSet strings).Pairwise (· ≤ ·) :=
  pairwise_insertionSort _ _

section Found

variable {set : List Text} {text m : Text}

theorem mem_takeWhile_iff (hsorted : set.Pairwise (· ≤ ·)) (hle : ∀ m ∈ set, text ≤ m) :
    m ∈ set.takeWhile text.isPrefixOf ↔ m ∈ set ∧ text <+: m := by
  induction set with
  | nil => simp
  | cons a set ih =>
    obtain ⟨ha, hsorted⟩ := List.pairwise_cons.mp hsorted
    obtain ⟨hta, hle⟩ := forall_mem_cons.mp hle
    by_cases hp : text <+: a
    · rw [takeWhile_cons_of_pos ( isPrefixOf_iff_prefix.mpr hp), mem_cons,
        ih hsorted hle, mem_cons, or_and_right]
      exact or_congr_left ⟨fun h => ⟨h, h ▸ hp⟩, And.left⟩
    · rw [takeWhile_cons_of_neg (mt isPrefixOf_iff_prefix.mp hp)]
      refine iff_of_false not_mem_nil ?_
      rintro ⟨hm, t, rfl⟩
      have hlt := PrefixRange.append_lt_of_not_isPrefix (not_lt.mpr hta) hp t
      rcases mem_cons.mp hm with heq | hm
      · exact hp ⟨t, heq⟩
      · exact absurd hlt (not_lt.mpr (ha _ hm))

theorem mem_findMatches (hsorted : set.Pairwise (· ≤ ·)) :
    m ∈ findMatches set text ↔ m ∈ set ∧ text <+: m := by
  unfold findMatches
  induction set with
  | nil => simp
  | cons a set ih =>
    obtain ⟨ha, hrest⟩ := List.pairwise_cons.mp hsorted
    by_cases hlt : a < text
    · rw [dropWhile_cons_of_pos (by simpa using hlt), ih hrest, mem_cons, or_and_right]
      exact (or_iff_right fun h => PrefixRange.not_lt_of_isPrefix h.2 (h.1 ▸ hlt)).symm
    · rw [dropWhile_cons_of_neg (by simpa using hlt)]
      have hta := not_lt.mp hlt
      exact mem_takeWhile_iff hsorted (forall_mem_cons.mpr ⟨hta, fun m hm => hta.trans (ha m hm)⟩)

theorem findMatches_sublist : (findMatches set text).Sublist set :=
  (takeWhile_sublist _).trans (dropWhile_sublist _)

end Found

structure IsLongestCommonPrefix (s : Text) (strings : List Text) : Prop where
  common : ∀ m ∈ strings, s <+: m
  longest : ∀ t, (∀ m ∈ strings, t <+: m) → t <+: s

section Longest

variable {q m first : Text} {rest : List Text} {c : Char}

theorem charAt_of_isPrefix {n : Nat} (h : q <+: m) (hn : n < q.length) : charAt m n = q[n]? := by
  obtain ⟨t, rfl⟩ := h
  rw [charAt, append_assoc, getElem?_append_left hn]

theorem charAt_length (t : Text) : charAt (q ++ t) q.length = some (t.head?.getD '\x00') := by
  rw [charAt, append_assoc, getElem?_append_right le_rfl, Nat.sub_self]
  cases t <;> rfl

theorem scanColumn_eq (h : ∀ m ∈ rest, q <+: m) :
    scanColumn c q.length rest =
      if ∀ m ∈ rest, charAt m q.length = some c then some [] else some q := by
  induction rest with
  | nil => simp [scanColumn]
  | cons m rest ih =>
    obtain ⟨⟨t, rfl⟩, hrest⟩ := forall_mem_cons.mp h
    rw [scanColumn, charAt_length, Option.bind_some]
    by_cases hc : t.head?.getD '\x00' = c
    · simp [hc, ih hrest, charAt_length]
    · simp [hc, charAt_length]

theorem isLongest_of_ne {strings : List Text} {m m' : Text} (h : ∀ m ∈ strings, q <+: m)
    (hm : m ∈ strings) (hm' : m' ∈ strings) (hne : charAt m q.length ≠ charAt m' q.length) :
    IsLongestCommonPrefix q strings := by
  refine ⟨h, fun t ht => ?_⟩
  by_cases hlen : t.length ≤ q.length
  · exact prefix_of_prefix_length_le (ht m hm) (h m hm) hlen
  · have hlt := Nat.lt_of_not_le hlen
    have hq := charAt_of_isPrefix (ht m hm) hlt
    exact absurd (hq.trans (charAt_of_isPrefix (ht m' hm') hlt).symm) hne

theorem exists_next (h : ∀ m ∈ first :: rest, q <+: m) (hnul : ∀ m ∈ first :: rest, '\x00' ∉ m)
    (hne : ∃ m ∈ rest, m ≠ first)
    (hall : ∀ m ∈ rest, charAt m q.length = charAt first q.length) :
    ∃ c, ∀ m ∈ first :: rest, q ++ [c] <+: m := by
  obtain ⟨t, rfl⟩ := h first mem_cons_self
  rw [charAt_length] at hall
  cases t with
  | nil =>
    obtain ⟨m, hm, hmne⟩ := hne
    obtain ⟨u, rfl⟩ := h m (mem_cons_of_mem _ hm)
    have hu := hall _ hm
    rw [charAt_length] at hu
    cases u with
    | nil => exact absurd rfl hmne
    | cons d u =>
      obtain rfl : d = '\x00' := Option.some.inj hu
      exact absurd (by simp) (hnul _ (mem_cons_of_mem _ hm))
  | cons c t =>
    refine ⟨c, forall_mem_cons.mpr ⟨⟨t, by simp⟩, fun m hm => ?_⟩⟩
    obtain ⟨u, rfl⟩ := h m (mem_cons_of_mem _ hm)
    have hu := hall _ hm
    rw [charAt_length] at hu
    cases u with
    | nil =>
      obtain rfl : '\x00' = c := Option.some.inj hu
      exact absurd (by simp) (hnul _ mem_cons_self)
    | cons d u =>
      obtain rfl : d = c := Option.some.inj hu
      exact ⟨u, by simp⟩

theorem longestLoop_eq {fuel : Nat} (hq : q ≠ []) (h : ∀ m ∈ first :: rest, q <+: m)
    (hnul : ∀ m ∈ first :: rest, '\x00' ∉ m) (hne : ∃ m ∈ rest, m ≠ first)
    (hfuel : first.length + 2 ≤ fuel + q.length) :
    ∃ s, longestLoop first rest fuel q.length = some s ∧
      IsLongestCommonPrefix s (first :: rest) := by
  obtain ⟨hfirst, hrest⟩ := forall_mem_cons.mp h
  induction fuel generalizing q with
  | zero =>
    have hlen := hfirst.length_le
    omega
  | succ fuel ih =>
    obtain ⟨c, hc⟩ : ∃ c, charAt first q.length = some c := by
      obtain ⟨t, rfl⟩ := hfirst
      exact ⟨_, charAt_length t⟩
    rw [longestLoop, hc, Option.bind_some, scanColumn_eq hrest]
    by_cases hall : ∀ m ∈ rest, charAt m q.length = some c
    · rw [if_pos hall, Option.bind_some, if_neg (not_not.mpr rfl)]
      obtain ⟨d, hd⟩ := exists_next h hnul hne (hc ▸ hall)
      obtain ⟨hfirst', hrest'⟩ := forall_mem_cons.mp hd
      have hlen : (q ++ [d]).length = q.length + 1 := by simp
      exact hlen ▸ ih (by simp) hd (by omega) hfirst' hrest'
    · rw [if_neg hall, Option.bind_some, if_pos hq]
      push Not at hall
      obtain ⟨m, hm, hmc⟩ := hall
      exact ⟨q, rfl, isLongest_of_ne h (mem_cons_of_mem _ hm) mem_cons_self (hc ▸ hmc)⟩

theorem longestLoop_ne_nil {fuel n : Nat} {s : Text} (h : longestLoop first rest fuel n = some s) :
    s ≠ [] := by
  induction fuel generalizing n with
  | zero => cases h
  | succ fuel ih =>
    obtain ⟨c, -, h⟩ := Option.bind_eq_some_iff.mp h
    obtain ⟨t, -, h⟩ := Option.bind_eq_some_iff.mp h
    split at h
    · next ht => exact Option.some.inj h ▸ ht
    · exact ih h

end Longest

structure Expected (cands : List Text) (word w : Text) : Prop where
  none : (∀ c ∈ cands, ¬word <+: c) → w = word
  one : ∀ c ∈ cands, word <+: c → (∀ d ∈ cands, word <+: d → d = c) → w = c
  more : ∀ c ∈ cands, ∀ d ∈ cands, word <+: c → word <+: d → c ≠ d →
    IsLongestCommonPrefix w (cands.filter (word.isPrefixOf ·))

/-- The right candidates are kept, and the word becomes what it should. -/
structure Completes (cands : List Text) (word : Text) : Prop where
  keeps : ∀ c, c ∈ findMatches (stringSet cands) word ↔ c ∈ cands ∧ word <+: c
  expected : ∃ w, completeWord (findMatches (stringSet cands) word) word = some w ∧
    Expected cands word w

section Word

variable {cands : List Text}

theorem mem_found {word c : Text} :
    c ∈ findMatches (stringSet cands) word ↔ c ∈ cands ∧ word <+: c := by
  rw [mem_findMatches (sorted_stringSet cands), mem_stringSet]

theorem prefix_singleton_iff {x : Char} {c : Text} : [x] <+: c ↔ c.head? = some x := by
  cases c <;> simp [eq_comm]

section More

variable {word front next : Text} {rest : List Text}
  (hfound : findMatches (stringSet cands) word = front :: next :: rest)
include hfound

theorem exists_other : ∃ c ∈ next :: rest, c ≠ front := by
  have hnodup : (front :: next :: rest).Nodup :=
    hfound ▸ findMatches_sublist.nodup (nodup_stringSet cands)
  refine ⟨next, List.mem_cons_self, fun h => ?_⟩
  exact (List.nodup_cons.mp hnodup).1 (h ▸ List.mem_cons_self)

theorem front_eq_nil (h : [] ∈ cands) (hword : word = []) : front = [] := by
  have hsorted : (front :: next :: rest).Pairwise (· ≤ ·) :=
    hfound ▸ (sorted_stringSet cands).sublist findMatches_sublist
  have hmem : [] ∈ front :: next :: rest := hfound ▸ mem_found.mpr ⟨h, hword ▸ List.nil_prefix⟩
  rcases List.mem_cons.mp hmem with heq | hrest
  · exact heq.symm
  · cases front with
    | nil => rfl
    | cons c front =>
      have hle := (List.pairwise_cons.mp hsorted).1 _ hrest
      exact absurd (List.nil_lt_cons c front) (not_lt.mpr hle)

theorem longestMatch_isLongest_iff (hnul : ∀ c ∈ cands, '\x00' ∉ c) :
    (∃ w, longestMatch (front :: next :: rest) = some w ∧
        IsLongestCommonPrefix w (front :: next :: rest)) ↔
      ∃ x, ∀ c ∈ front :: next :: rest, [x] <+: c := by
  have hscan (x : Char) : scanColumn x 0 (next :: rest) = some [] := by
    simpa using scanColumn_eq (q := []) (c := x) fun m _ => List.nil_prefix
  obtain ⟨x, hx⟩ : ∃ x, charAt front 0 = some x := ⟨_, charAt_length (q := []) front⟩
  rw [longestMatch, longestLoop, hx, Option.bind_some, hscan, Option.bind_some,
    if_neg (not_not.mpr rfl)]
  constructor
  · rintro ⟨w, hw, hlongest⟩
    cases w with
    | nil => exact absurd rfl (longestLoop_ne_nil hw)
    | cons y w => exact ⟨y, fun c hc => List.IsPrefix.trans ⟨w, rfl⟩ (hlongest.common c hc)⟩
  · rintro ⟨y, hy⟩
    exact longestLoop_eq (List.cons_ne_nil y []) hy
      (fun c hc => hnul c (mem_found.mp (hfound ▸ hc)).1) (exists_other hfound) (by simp)

theorem expected_iff {w : Text} :
    Expected cands word w ↔ IsLongestCommonPrefix w (front :: next :: rest) := by
  have hmem (c : Text) : c ∈ front :: next :: rest ↔ c ∈ cands ∧ word <+: c := hfound ▸ mem_found
  have hsame : IsLongestCommonPrefix w (cands.filter (word.isPrefixOf ·)) ↔
      IsLongestCommonPrefix w (front :: next :: rest) := by
    constructor <;> rintro ⟨hcommon, hlongest⟩ <;>
      exact ⟨by simpa [hmem] using hcommon, fun t ht => hlongest t (by simpa [hmem] using ht)⟩
  obtain ⟨c, hc, hne⟩ := exists_other hfound
  have hc := (hmem c).mp (List.mem_cons_of_mem _ hc)
  have hfront := (hmem front).mp List.mem_cons_self
  constructor
  · exact fun h => hsame.mp (h.more c hc.1 front hfront.1 hc.2 hfront.2 hne)
  · intro h
    refine ⟨fun hnone => absurd hfront.2 (hnone front hfront.1), fun d hd hd' hall => ?_,
      fun _ _ _ _ _ _ _ => hsame.mpr h⟩
    exact absurd ((hall c hc.1 hc.2).trans (hall front hfront.1 hfront.2).symm) hne

theorem completeWord_expected_iff (hnul : ∀ c ∈ cands, '\x00' ∉ c) :
    (∃ w, completeWord (front :: next :: rest) word = some w ∧ Expected cands word w) ↔
      (word = [] → [] ∈ cands ∨ ∃ x, ∀ c ∈ cands, c.head? = some x) := by
  have hmem (c : Text) : c ∈ front :: next :: rest ↔ c ∈ cands ∧ word <+: c := hfound ▸ mem_found
  have hfront := (hmem front).mp List.mem_cons_self
  simp only [expected_iff hfound, completeWord]
  split
  · next hlt =>
    rw [longestMatch_isLongest_iff hfound hnul]
    cases word with
    | cons x word =>
      exact iff_of_true ⟨x, fun c hc => List.IsPrefix.trans ⟨word, rfl⟩ ((hmem c).mp hc).2⟩ nofun
    | nil =>
      simp only [hmem, List.nil_prefix, and_true, prefix_singleton_iff, true_imp_iff]
      refine (or_iff_right fun hnil => ?_).symm
      have hnil := front_eq_nil hfound hnil rfl
      subst hnil
      exact absurd hlt (Nat.lt_irrefl 0)
  · next hle =>
    have heq : word = front := hfront.2.eq_of_length_le (Nat.le_of_not_lt hle)
    refine iff_of_true ⟨word, rfl, fun c hc => ((hmem c).mp hc).2, fun t ht => ?_⟩ fun h => ?_
    · exact heq ▸ ht front List.mem_cons_self
    · exact .inl (h ▸ heq ▸ hfront.1)

end More

end Word

def State.offered (s : State) : List Text := if s.mode = .asking then s.cache else s.shown

def State.seen (s : State) : Text × List Text := (s.buffer, s.offered)

abbrev Generator := Text → Text → List Text

/-- The candidates for a buffer when none are kept. -/
def fresh (f : Generator) (buffer : Text) : List Text :=
  findMatches (stringSet (f (matchWord buffer) buffer)) (matchWord buffer)

/-- What is seen of a buffer when the key is pressed, and these candidates start with the word. -/
def outcome (buffer : Text) (found : List Text) : Text × List Text :=
  (State.complete ⟨buffer, buffer.length, [], 0, .editing, []⟩ found).seen

/-- The completion key does the same wherever the buffer and the cursor come from. -/
def HasNoMemory (f : Generator) : Prop :=
  ∀ history keys keys', let rl : ReadLine := ⟨history, some f⟩
    (rl.after keys).mode = .editing → (rl.after keys').mode = .editing →
    (rl.after keys).buffer = (rl.after keys').buffer → (rl.after keys).pos = (rl.after keys').pos →
    (rl.after (keys ++ [keyTab])).seen = (rl.after (keys' ++ [keyTab])).seen

structure Kept (f : Generator) (buffer : Text) (cache : List Text) : Prop where
  eq : cache = fresh f buffer
  two : 2 ≤ cache.length
  defined : completeWord cache (matchWord buffer) ≠ none

/-- The candidates that are kept for any buffer do for any other. -/
def Coherent (f : Generator) : Prop :=
  ∀ b cache, Kept f b cache → ∀ b',
    outcome b' (findMatches (stringSet cache) (matchWord b')) = outcome b' (fresh f b')

section Memory

variable {f : Generator} {s : State} {found : List Text}

theorem seen_complete (hs : s.mode = .editing) :
    (s.complete found).seen = outcome s.buffer found := by
  unfold outcome State.complete
  split
  · simp [State.seen, State.offered, hs]
  · simp [State.seen, State.offered, State.setBuffer, hs]
  · split
    · simp [State.seen, State.offered]
    · unfold State.finish
      dsimp only
      split
      · simp [State.seen, State.offered]
      · split <;> simp [State.seen, State.offered, State.setBuffer]

theorem outcome_two {b : Text} (h : 2 ≤ found.length) : (outcome b found).2 = found := by
  match found with
  | front :: next :: rest =>
    unfold outcome State.complete
    dsimp only
    split
    · simp [State.seen, State.offered]
    · unfold State.finish
      dsimp only
      split
      · simp [State.seen, State.offered]
      · split <;> simp [State.seen, State.offered, State.setBuffer]

theorem two_of_outcome {b : Text} (h : 2 ≤ (outcome b found).2.length) : 2 ≤ found.length := by
  match found with
  | [] => simp [outcome, State.complete, State.seen, State.offered] at h
  | [m] => simp [outcome, State.complete, State.seen, State.offered, State.setBuffer] at h
  | front :: next :: rest => simp

/-- What is kept is for some buffer, and while the question is asked for the one that is there. -/
def Consistent (f : Generator) (s : State) : Prop :=
  match s.mode with
  | .editing => s.cache = [] ∨ ∃ b, Kept f b s.cache
  | .asking => s.cache = fresh f s.buffer ∧ 2 ≤ s.cache.length
  | _ => True

theorem finish_kept (h : completeWord s.cache (matchWord s.buffer) ≠ none) (answer : Bool) :
    (s.finish answer).mode = .editing ∧ (s.finish answer).cache = s.cache ∧
      (s.finish answer).histIter = s.histIter := by
  unfold State.finish
  dsimp only
  split
  · next hnone => exact absurd hnone h
  · split <;> exact ⟨rfl, rfl, rfl⟩

theorem consistent_finish (heq : s.cache = fresh f s.buffer) (htwo : 2 ≤ s.cache.length)
    (answer : Bool) : Consistent f (s.finish answer) := by
  by_cases h : completeWord s.cache (matchWord s.buffer) = none
  · simp [Consistent, State.finish, h]
  · obtain ⟨hmode, hcache, -⟩ := finish_kept h answer
    rw [Consistent, hmode, hcache]
    exact .inr ⟨s.buffer, heq, htwo, h⟩

theorem consistent_complete (hs : s.mode = .editing)
    (h : 2 ≤ found.length → found = fresh f s.buffer) : Consistent f (s.complete found) := by
  match found with
  | [] => simp [Consistent, State.complete, hs]
  | [m] => simp [Consistent, State.complete, State.setBuffer, hs]
  | front :: next :: rest =>
    have heq := h (by simp)
    simp only [State.complete]
    split
    · exact ⟨heq, by simp⟩
    · exact consistent_finish heq (by simp) true

variable {rl : ReadLine}

theorem found_eq (hcoherent : Coherent f) (hs : s.mode = .editing) (h : Consistent f s) :
    ∃ found, s.handleAutoComplete (some f) = s.complete found ∧
      outcome s.buffer found = outcome s.buffer (fresh f s.buffer) := by
  simp only [Consistent, hs] at h
  refine ⟨_, rfl, ?_⟩
  rcases h with hnil | ⟨b, hkept⟩
  · rw [if_pos hnil]
    rfl
  · rw [if_neg (List.length_pos_iff.mp (Nat.zero_lt_of_lt hkept.two))]
    exact hcoherent b _ hkept s.buffer

theorem consistent_press (hcoherent : Coherent f) (hrl : rl.autoCompleteFunc = some f)
    (h : Consistent f s) (ch : Int) : Consistent f (s.press rl ch) := by
  unfold State.press
  split
  · next hs =>
    by_cases hk : Key.of ch = .tab
    · rw [hk, State.edit, hrl]
      obtain ⟨found, heq, hsame⟩ := found_eq hcoherent hs h
      rw [heq]
      refine consistent_complete hs fun htwo => ?_
      have hlist := congrArg Prod.snd hsame
      rw [outcome_two htwo] at hlist
      rw [hlist, outcome_two (two_of_outcome (hlist ▸ htwo))]
    · by_cases henter : Key.of ch = .enter
      · rw [henter]
        trivial
      · obtain ⟨hmode, hcache⟩ := edit_of_ne rl henter hk (s := s)
        simp only [Consistent, hs] at h
        rw [Consistent, hmode, hs]
        rcases hcache with hcache | hcache
        · rwa [hcache]
        · exact .inl hcache
  · next hs =>
    rw [Consistent, hs] at h
    split_ifs
    · exact consistent_finish h.1 h.2 true
    · exact consistent_finish h.1 h.2 false
    · rwa [Consistent, hs]
  · exact h

theorem consistent_after (hcoherent : Coherent f) (hrl : rl.autoCompleteFunc = some f)
    (keys : List Int) : Consistent f (rl.after keys) := by
  induction keys using List.reverseRecOn with
  | nil => exact .inl rfl
  | append_singleton keys ch ih =>
    rw [after_concat]
    exact consistent_press hcoherent hrl ih ch

theorem seen_tab {keys : List Int} (hs : (rl.after keys).mode = .editing)
    (hrl : rl.autoCompleteFunc = some f) {found : List Text}
    (h : (rl.after keys).handleAutoComplete (some f) = (rl.after keys).complete found) :
    (rl.after (keys ++ [keyTab])).seen = outcome (rl.after keys).buffer found := by
  rw [after_editing hs, show Key.of keyTab = .tab from rfl, State.edit, hrl, h, seen_complete hs]

theorem exists_keys {cache : List Text} {first : Text} (second : Text)
    (hkept : Kept f first cache) (hrl : rl = ⟨[first, second], some f⟩) :
    ∃ keys, (rl.after keys).mode = .editing ∧ (rl.after keys).cache = cache ∧
      (rl.after keys).buffer = second ∧ (rl.after keys).pos = second.length := by
  subst hrl
  have htab : (⟨[first, second], some f⟩ : ReadLine).after [0x415B, 0x415B, keyTab] =
      State.complete ⟨first, first.length, [], 0, .editing, []⟩ cache := by
    rw [hkept.eq]
    rfl
  obtain ⟨keys, hmode, hcache, hiter⟩ : ∃ keys,
      ((⟨[first, second], some f⟩ : ReadLine).after keys).mode = .editing ∧
      ((⟨[first, second], some f⟩ : ReadLine).after keys).cache = cache ∧
      ((⟨[first, second], some f⟩ : ReadLine).after keys).histIter = 0 := by
    obtain ⟨-, htwo, hdefined⟩ := hkept
    match cache, htwo with
    | front :: next :: rest, _ =>
      by_cases hmany : kMaxDisplayEntries < (front :: next :: rest).length
      · refine ⟨[0x415B, 0x415B, keyTab] ++ [110], ?_⟩
        rw [after_concat, htab]
        simp only [State.complete, hmany, if_true]
        exact finish_kept hdefined false
      · refine ⟨[0x415B, 0x415B, keyTab], ?_⟩
        rw [htab]
        simp only [State.complete, hmany, if_false]
        exact finish_kept hdefined true
  refine ⟨keys ++ [0x425B], ?_⟩
  rw [after_editing hmode, show Key.of 0x425B = .down from rfl, State.edit,
    State.showNextHistoryEntry, hiter]
  exact ⟨hmode, hcache, rfl, rfl⟩

end Memory

/-- There are candidates for `a` only, and they are still offered for `ab`. -/
def forgetful : Generator := fun _ buffer =>
  if buffer = "a".toList then ["ab1".toList, "ab2".toList, "ac".toList] else []

end ZeroBugs.Readline
