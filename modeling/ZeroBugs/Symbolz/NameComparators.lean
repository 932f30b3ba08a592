import ZeroBugs.Symbolz.SymbolTable

/-! # Comparing names -/
namespace ZeroBugs.Symbolz.SymbolTable
open List

def signedChar (c : UInt8) : Int := if c < 128 then c.toNat else c.toNat - 256

def strcmpIgnoreSpace : List UInt8 → List UInt8 → Int
  | [], r => if r.dropWhile isSpace = [] then 0 else -1
  | c :: p, r =>
    if isSpace c then strcmpIgnoreSpace p r
    else if r = [] then 1
    else
      match r.dropWhile isSpace with
      -- `*r` is the terminating 0 here, and `c` is not
      | [] => if signedChar c < 0 then -1 else 1
      | d :: r =>
        if signedChar c < signedChar d then -1
        else if signedChar d < signedChar c then 1
        else strcmpIgnoreSpace p r

def isLess (ignoreSpace : Bool) (lstr rstr : List UInt8) : Bool :=
  if ignoreSpace then decide (strcmpIgnoreSpace lstr rstr < 0) else decide (lstr < rstr)

def isLessShared (ignoreSpace : Bool) (lname rname : List UInt8) : Bool :=
  if hash lname = hash rname then false else isLess ignoreSpace lname rname

def compared (ignoreSpace : Bool) (text : List UInt8) : List UInt8 :=
  if ignoreSpace then text.filter fun c => !isSpace c else text

def spacelessKey (text : List UInt8) : List Int :=
  (text.filter fun c => !isSpace c).map signedChar

def endsInSpace (text : List UInt8) : Bool := text.getLast?.any isSpace

/-- The left text goes on with a negative byte where only white space is left of
the right one. -/
def RunsOut (p r : List UInt8) : Prop :=
  endsInSpace r = true ∧ ∃ x t, spacelessKey p = spacelessKey r ++ x :: t ∧ x < 0

theorem signedChar_inj {c d : UInt8} (h : signedChar c = signedChar d) : c = d := by
  have hc := c.toNat_lt
  have hd := d.toNat_lt
  rw [← UInt8.toNat_inj]
  simp only [signedChar, UInt8.lt_iff_toNat_lt, UInt8.reduceToNat] at h
  split at h <;> split at h <;> omega

theorem spacelessKey_cons (c : UInt8) (text : List UInt8) :
    spacelessKey (c :: text) =
      if isSpace c then spacelessKey text else signedChar c :: spacelessKey text := by
  by_cases hc : isSpace c = true
  · simp [spacelessKey, hc]
  · simp [spacelessKey, hc]

theorem spacelessKey_dropWhile (text : List UInt8) :
    spacelessKey (text.dropWhile isSpace) = spacelessKey text := by
  induction text with
  | nil => rfl
  | cons c text ih =>
    by_cases hc : isSpace c = true
    · rw [dropWhile_cons_of_pos hc, ih, spacelessKey_cons, if_pos hc]
    · rw [dropWhile_cons_of_neg hc]

theorem of_dropWhile_cons {text : List UInt8} {d : UInt8} {rest : List UInt8}
    (h : text.dropWhile isSpace = d :: rest) :
    spacelessKey text = signedChar d :: spacelessKey rest ∧
      endsInSpace text = endsInSpace rest := by
  have hd : isSpace d = false := by
    have hhead := head?_dropWhile_not isSpace text
    rw [h] at hhead
    simpa using hhead
  constructor
  · rw [← spacelessKey_dropWhile, h, spacelessKey_cons, hd]
    rfl
  · have hsplit := takeWhile_append_dropWhile (p := isSpace) (l := text)
    rw [h] at hsplit
    rw [← hsplit]
    cases rest with
    | nil => simp [endsInSpace, hd]
    | cons e rest => simp [endsInSpace, getLast?_append, getLast?_cons]

theorem of_dropWhile_nil {text : List UInt8} (h : text.dropWhile isSpace = []) :
    spacelessKey text = [] ∧ (text ≠ [] → endsInSpace text = true) := by
  constructor
  · rw [← spacelessKey_dropWhile, h]
    rfl
  · intro hne
    have hall : ∀ c ∈ text, isSpace c = true := dropWhile_eq_nil_iff.mp h
    have hlast := hall _ (getLast_mem hne)
    simp [endsInSpace, getLast?_eq_getLast_of_ne_nil hne, hlast]

theorem strcmpIgnoreSpace_spec (p r : List UInt8) :
    (strcmpIgnoreSpace p r < 0 ↔ spacelessKey p < spacelessKey r ∨ RunsOut p r) ∧
      (strcmpIgnoreSpace p r = 0 ↔ spacelessKey p = spacelessKey r) := by
  induction p generalizing r with
  | nil =>
    have hnot : ¬RunsOut [] r := by
      rintro ⟨-, x, t, heq, -⟩
      simp [spacelessKey] at heq
    rw [or_iff_left hnot, strcmpIgnoreSpace]
    cases hdrop : r.dropWhile isSpace with
    | nil => simp [(of_dropWhile_nil hdrop).1, show spacelessKey [] = [] from rfl]
    | cons d rest => simp [(of_dropWhile_cons hdrop).1, show spacelessKey [] = [] from rfl]
  | cons c p ih =>
    rw [strcmpIgnoreSpace]
    by_cases hc : isSpace c = true
    · simpa [RunsOut, spacelessKey_cons, hc] using ih r
    · have hkey : spacelessKey (c :: p) = signedChar c :: spacelessKey p := by
        rw [spacelessKey_cons, if_neg hc]
      rw [if_neg hc, hkey, RunsOut, hkey]
      by_cases hr : r = []
      · simp [hr, endsInSpace, spacelessKey]
      · rw [if_neg hr]
        cases hdrop : r.dropWhile isSpace with
        | nil =>
          obtain ⟨hnil, hend⟩ := of_dropWhile_nil hdrop
          simp only [hnil, hend hr]
          split <;> simp_all
        | cons d rest =>
          obtain ⟨hcons, hend⟩ := of_dropWhile_cons hdrop
          simp only [hcons, hend, cons_lt_cons_iff, cons_append, List.cons.injEq]
          rcases Int.lt_trichotomy (signedChar c) (signedChar d) with hlt | heq | hgt
          · simp [hlt, Int.ne_of_lt hlt]
          · simpa [heq, RunsOut] using ih rest
          · simp [hgt, Int.lt_asymm hgt, Int.ne_of_gt hgt]

def key (ignoreSpace : Bool) (text : List UInt8) : List Int :=
  if ignoreSpace then spacelessKey text else text.map fun c => (c.toNat : Int)

theorem key_true (text : List UInt8) : key true text = spacelessKey text := rfl

theorem key_false (text : List UInt8) : key false text = text.map fun c => (c.toNat : Int) := rfl

theorem toNat_injective : Function.Injective fun c : UInt8 => (c.toNat : Int) := by
  intro c d h
  exact UInt8.toNat_inj.mp (Int.ofNat_inj.mp h)

theorem key_append (ignoreSpace : Bool) (x y : List UInt8) :
    key ignoreSpace (x ++ y) = key ignoreSpace x ++ key ignoreSpace y := by
  cases ignoreSpace with
  | false => exact map_append
  | true => simp only [key_true, spacelessKey, filter_append, map_append]

variable {ignoreSpace : Bool}

theorem key_congr {x y : List UInt8}
    (h : compared ignoreSpace x = compared ignoreSpace y) :
    key ignoreSpace x = key ignoreSpace y := by
  cases ignoreSpace with
  | false => exact congrArg (key false) h
  | true => exact congrArg (List.map signedChar) h

theorem key_isPrefix_iff {x y : List UInt8} :
    key ignoreSpace x <+: key ignoreSpace y ↔
      compared ignoreSpace x <+: compared ignoreSpace y := by
  cases ignoreSpace with
  | false => exact prefix_map_iff_of_injective toNat_injective
  | true => exact prefix_map_iff_of_injective fun _ _ => signedChar_inj

theorem map_toNat_lt_iff (x y : List UInt8) :
    (x.map fun c => (c.toNat : Int)) < (y.map fun c => (c.toNat : Int)) ↔ x < y := by
  induction x generalizing y with
  | nil => cases y <;> simp
  | cons c x ih =>
    cases y with
    | nil => simp
    | cons d y =>
      simp only [map_cons, cons_lt_cons_iff, ih, Int.ofNat_lt, Int.ofNat_inj,
        UInt8.toNat_inj, UInt8.lt_iff_toNat_lt]

theorem isLess_iff {lstr rstr : List UInt8} :
    isLess ignoreSpace lstr rstr = true ↔
      key ignoreSpace lstr < key ignoreSpace rstr ∨ ignoreSpace = true ∧ RunsOut lstr rstr := by
  cases ignoreSpace with
  | false => simp [isLess, key_false, map_toNat_lt_iff]
  | true => simp [isLess, key_true, (strcmpIgnoreSpace_spec lstr rstr).1]

abbrev AsciiText := { text : List UInt8 // ∀ c ∈ text, c < 128 }

theorem AsciiText.spacelessKey_eq (p : AsciiText) :
    spacelessKey p = (compared true p).map fun c => (c.toNat : Int) := by
  refine map_congr_left fun c hc => ?_
  rw [signedChar, if_pos (p.2 c (mem_of_mem_filter hc))]

theorem AsciiText.lt_zero_iff (p r : AsciiText) :
    strcmpIgnoreSpace p r < 0 ↔ spacelessKey p < spacelessKey r := by
  rw [(strcmpIgnoreSpace_spec p r).1]
  refine or_iff_left ?_
  rintro ⟨-, x, t, heq, hneg⟩
  have hx : x ∈ spacelessKey p := heq ▸ mem_append_right _ mem_cons_self
  rw [p.spacelessKey_eq] at hx
  obtain ⟨c, -, rfl⟩ := mem_map.mp hx
  omega

theorem AsciiText.le_zero_iff (p r : AsciiText) :
    strcmpIgnoreSpace p r ≤ 0 ↔ spacelessKey p ≤ spacelessKey r := by
  rw [Int.le_iff_lt_or_eq, p.lt_zero_iff, (strcmpIgnoreSpace_spec p r).2, le_iff_lt_or_eq]

theorem strcmpIgnoreSpace_ascii :
    (∀ p r : AsciiText, (strcmpIgnoreSpace p r).sign =
      if compared true p < compared true r then -1
      else if compared true p = compared true r then 0 else 1) ∧
    (∀ p r : AsciiText, isLess true p r = true ↔ compared true p < compared true r) ∧
    (∀ p r : AsciiText, strcmpIgnoreSpace p r ≤ 0 ∨ strcmpIgnoreSpace r p ≤ 0) ∧
    ∀ p q r : AsciiText, strcmpIgnoreSpace p q ≤ 0 → strcmpIgnoreSpace q r ≤ 0 →
      strcmpIgnoreSpace p r ≤ 0 := by
  have hlt (p r : AsciiText) : strcmpIgnoreSpace p r < 0 ↔ compared true p < compared true r := by
    rw [p.lt_zero_iff, p.spacelessKey_eq, r.spacelessKey_eq, map_toNat_lt_iff]
  refine ⟨fun p r => ?_, fun p r => ?_, fun p r => ?_, fun p q r => ?_⟩
  · have hzero : strcmpIgnoreSpace p r = 0 ↔ compared true p = compared true r := by
      rw [(strcmpIgnoreSpace_spec p r).2, p.spacelessKey_eq, r.spacelessKey_eq,
        (List.map_injective_iff.mpr toNat_injective).eq_iff]
    simp only [← hlt, ← hzero]
    rcases Int.lt_trichotomy (strcmpIgnoreSpace p r) 0 with h | h | h
    · rw [if_pos h, Int.sign_eq_neg_one_of_neg h]
    · rw [h, if_neg (Int.lt_irrefl 0), if_pos rfl, Int.sign_zero]
    · rw [if_neg (Int.lt_asymm h), if_neg (Int.ne_of_gt h), Int.sign_eq_one_of_pos h]
  · rw [isLess, if_pos rfl, decide_eq_true_iff, hlt]
  · rw [p.le_zero_iff, r.le_zero_iff]
    exact le_total _ _
  · rw [p.le_zero_iff, q.le_zero_iff, p.le_zero_iff]
    exact le_trans

theorem isLessShared_iff {lname rname : List UInt8} :
    isLessShared ignoreSpace lname rname = true ↔
      hash lname ≠ hash rname ∧ isLess ignoreSpace lname rname = true := by
  unfold isLessShared
  split <;> simp_all

end ZeroBugs.Symbolz.SymbolTable
