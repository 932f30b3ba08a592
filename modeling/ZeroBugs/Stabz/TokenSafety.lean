import ZeroBugs.Stabz.Token

/-! # Tokens stay inside the string -/
namespace ZeroBugs.Stabz.Parse

open Lib

variable {inp : Input} {α β : Type}

/-- Characters are read from the first to the NUL, and a token ends behind its beginning. -/
def Step.Safe (inp : Input) : Step → Prop
  | .read index => 0 ≤ index ∧ index ≤ inp.size
  | .cstring start => start ≤ inp.size
  | .token first last => first ≤ last ∧ last ≤ inp.size
  | _ => True

/-- What is asked of the steps: there is a character before a token that is looked behind, there
are eight from the start of one compared with `operator`, `decltype` does not end the string,
nothing is stepped over at its end, the name of a forward type has its two characters in front, a
linkage name ends, asserts hold, and type tables are there and do not wrap around. -/
def Step.Guarded (inp : Input) : Step → Prop
  | .lookBehind first => 0 < first
  | .operatorTest first => first + 7 ≤ inp.size
  | .decltype pos => pos + 8 < inp.size
  | .skip pos => pos < inp.size
  | .forwardName first last => first + 2 ≤ last
  | .linkage pos => ';' ∈ inp.text.drop pos
  | .assertion holds => holds = true
  | .slot id => id.first + 1 < 2 ^ 64 ∧ id.second + 1 < 2 ^ 64
  | .table present => present = true
  | _ => True

def Stop.Thrown : Stop → Prop
  | .exception _ => True
  | _ => False

instance (inp : Input) : DecidablePred (Step.Safe inp) := fun w => by
  cases w <;> unfold Step.Safe <;> infer_instance

instance (inp : Input) : DecidablePred (Step.Guarded inp) := fun w => by
  cases w <;> unfold Step.Guarded <;> infer_instance

def cursor (inp : Input) : Traced.Monitor Step Stop State (Option Nat) where
  view := State.str
  Meets := Step.Guarded inp
  Safe := Step.Safe inp
  Ended := Stop.Thrown

/-- From a cursor `v`, guarded runs of `f` are safe and end as `post` says. -/
abbrev Holds (inp : Input) (v : Option Nat) (f : M α) (post : α → Option Nat → Prop) : Prop :=
  Traced.Triple (cursor inp) v f post

/-- Guarded runs are safe, leave the cursor alone, and have results that fit `post`. -/
def Keeps (inp : Input) (f : M α) (post : α → Prop) : Prop :=
  ∀ v, Holds inp v f fun a v' => post a ∧ v' = v

variable {i : Nat} {c : Char}

theorem Input.lt_size_of_char (h : inp.char i = c) (hc : c ≠ '\x00') :
    i < inp.size := by
  by_contra hi
  have hnul : inp.char i = '\x00' := by
    rw [Input.char, List.getD_eq_getElem?_getD, List.getElem?_eq_none (Nat.le_of_not_lt hi),
      Option.getD_none]
  exact hc (h.symm.trans hnul)

theorem Input.lt_size_of_isDigit (h : (inp.char i).isDigit = true) : i < inp.size := by
  refine Input.lt_size_of_char rfl fun hnul => ?_
  rw [hnul] at h
  exact absurd h (by decide)

section Rules

variable {f : M α} {g : α → M β} {post : α → Prop} {post' : β → Prop}

theorem Keeps.pure {a : α} (h : post a) : Keeps inp (Pure.pure a) post :=
  fun _ => .pure ⟨h, rfl⟩

theorem Keeps.fail {e : Stop} (h : e.Thrown) : Keeps inp (Traced.fail e) post :=
  fun _ => .fail h

theorem Keeps.bind (hf : Keeps inp f post) (hg : ∀ a, post a → Keeps inp (g a) post') :
    Keeps inp (f >>= g) post' := by
  intro v
  refine .bind (hf v) fun a v' ha => ?_
  obtain ⟨ha, rfl⟩ := ha
  exact hg a ha v'

theorem Keeps.mono (hf : Keeps inp f post) {weaker : α → Prop} (h : ∀ a, post a → weaker a) :
    Keeps inp f weaker :=
  fun v => (hf v).mono fun a _ ha => ⟨h a ha.1, ha.2⟩

theorem Keeps.ite {c : Prop} [Decidable c] {f' : M α} (hf : c → Keeps inp f post)
    (hf' : ¬c → Keeps inp f' post) : Keeps inp (if c then f else f') post :=
  fun v => .ite (fun h => hf h v) fun h => hf' h v

theorem Keeps.bind_emit {w : Step} {g : Unit → M β} (hsafe : w.Guarded inp → w.Safe inp)
    (h : w.Guarded inp → Keeps inp (g ()) post') : Keeps inp (Traced.emit w >>= g) post' :=
  fun v => .bind_emit fun hw => ⟨hsafe hw, h hw v⟩

theorem keeps_read (hi : i ≤ inp.size) : Keeps inp (read inp i) (· = inp.char i) := by
  refine .bind_emit (fun _ => ⟨by omega, by omega⟩) fun _ => ?_
  exact .ite (fun _ => .pure rfl) fun h => absurd hi h

theorem Keeps.bind_read {g : Char → M β} (hi : i ≤ inp.size)
    (h : Keeps inp (g (inp.char i)) post') : Keeps inp (read inp i >>= g) post' :=
  .bind (keeps_read hi) fun _ hc => hc ▸ h

theorem keeps_assert (c : Bool) : Keeps inp (assert inp c) fun _ => True := by
  refine .ite (fun _ => ?_) fun _ => .pure trivial
  refine .bind_emit (fun _ => trivial) fun hc => ?_
  exact .ite (fun _ => .pure trivial) fun h => absurd hc h

theorem keeps_readBehind {first : Nat} (hle : first ≤ inp.size) :
    Keeps inp (readBehind inp first) fun _ => True := by
  refine .bind_emit (fun _ => trivial) fun hpos => ?_
  have hpos : 0 < first := hpos
  refine .bind_emit (fun _ => ⟨by omega, by omega⟩) fun _ => ?_
  cases first with
  | zero => exact absurd hpos (Nat.lt_irrefl 0)
  | succ i => exact .pure trivial

theorem keeps_startsWith {text : Text} (htext : '\x00' ∉ text) : ∀ {i : Nat}, i ≤ inp.size →
    Keeps inp (startsWith inp i text) fun found => found = true → i + text.length ≤ inp.size := by
  induction text with
  | nil => exact fun hi => .pure fun _ => hi
  | cons c rest ih =>
    intro i hi
    rw [List.mem_cons, not_or] at htext
    refine .bind_read hi (.ite (fun hc => ?_) fun _ => .pure fun h => absurd h (by decide))
    have hlt := Input.lt_size_of_char hc (Ne.symm htext.1)
    refine (ih htext.2 hlt).mono fun found hfound h => ?_
    have hle := hfound h
    rw [List.length_cons]
    omega

theorem keeps_readBlock (count : Nat) : ∀ {i : Nat}, i + count ≤ inp.size + 1 →
    Keeps inp (readBlock inp i count) fun _ => True := by
  induction count with
  | zero => exact fun _ => .pure trivial
  | succ count ih => exact fun hi => .bind_read (by omega) (ih (by omega))

end Rules

section Tokens

variable {first last pos : Nat}

/-- A token that `get_token` finds is not empty, and it does not go beyond `last`. -/
def Inside (first last : Nat) (t : Token × Nat) : Prop := first < t.2 ∧ t.2 ≤ last

section

variable (hlt : first < last) (hle : last ≤ inp.size)
include hlt hle

theorem keeps_enumToken :
    Keeps inp (enumToken inp first last) (Inside first last) := by
  have hident : Inside first last (.ident, last) := ⟨hlt, le_rfl⟩
  refine .bind (keeps_readBehind (by omega)) fun before _ =>
    .ite (fun _ => ?_) fun _ => .pure hident
  refine .bind_read hle (.ite (fun hc => ?_) fun _ => .pure hident)
  have hend := Input.lt_size_of_char hc (by decide)
  refine .bind_read hend (.pure ?_)
  split
  · exact ⟨Nat.lt_succ_self first, hlt⟩
  · exact hident

theorem keeps_classToken :
    Keeps inp (classToken inp c first last) (Inside first last) := by
  refine .bind (keeps_readBehind (by omega)) fun before _ => .pure ?_
  split
  · exact ⟨Nat.lt_succ_self first, hlt⟩
  · exact ⟨hlt, le_rfl⟩

theorem keeps_getToken :
    Keeps inp (getToken inp first last) (Inside first last) := by
  have hall (t : Token) : Keeps inp (pure (t, last)) (Inside first last) := .pure ⟨hlt, le_rfl⟩
  refine .bind_read (by omega) (.ite (fun _ => hall _) fun _ => .ite (fun _ => ?_) fun _ => hall _)
  refine .bind_read (by omega) (.ite (fun _ => .ite (fun _ => hall _) fun _ => ?_) fun _ => ?_)
  · exact .ite (fun _ => keeps_classToken hlt hle) fun _ => hall _
  · exact .ite (fun _ => hall _) fun _ => .ite (fun _ => keeps_enumToken hlt hle) fun _ => hall _

end

theorem keeps_isPair {d : Char} (hle : last ≤ inp.size) :
    Keeps inp (isPair inp d first last) fun _ => True :=
  .ite (fun h => .bind_read (by omega) (.pure trivial)) fun _ => .pure trivial

theorem keeps_plainDescriptor (hlt : first < last) (hle : last ≤ inp.size) :
    Keeps inp (plainDescriptor inp c first last) (Inside first last) := by
  unfold plainDescriptor
  cases Token.ofDescriptor c with
  | some t => exact .ite (fun _ => .pure ⟨hlt, le_rfl⟩) fun _ => keeps_getToken hlt hle
  | none => exact keeps_getToken hlt hle

theorem keeps_stabDescriptor (hlt : first < last) (hle : last ≤ inp.size) :
    Keeps inp (stabDescriptor inp first last) (Inside first last) := by
  have hall (t : Token) : Keeps inp (pure (t, last)) (Inside first last) := .pure ⟨hlt, le_rfl⟩
  refine .bind_read (by omega) (.ite (fun _ => ?_) fun _ => .ite (fun _ => ?_) fun _ => ?_)
  · exact .bind (keeps_isPair hle) fun _ _ =>
      .ite (fun _ => hall _) fun _ => keeps_plainDescriptor hlt hle
  · exact .bind (keeps_isPair hle) fun _ _ => .ite (fun _ => hall _) fun _ => keeps_getToken hlt hle
  · refine .ite (fun _ => .bind_read (by omega) ?_) fun _ => keeps_plainDescriptor hlt hle
    exact .ite (fun _ => hall _) fun _ => keeps_getToken hlt hle

theorem keeps_isOperator : Keeps inp (isOperator inp first) fun _ => True := by
  refine .bind_emit (fun _ => trivial) fun hroom => ?_
  have hroom : first + 7 ≤ inp.size := hroom
  exact .bind (keeps_readBlock 8 (by omega)) fun _ _ => .pure trivial

/-- The search goes on inside the string, or it has found a token that is not empty. -/
def Scan.Inside (inp : Input) (first pos : Nat) : Scan → Prop
  | .goOn next => pos < next ∧ next ≤ inp.size
  | .found _ last => first < last ∧ last ≤ inp.size

theorem keeps_foundToken {find : M (Token × Nat)} (h : Keeps inp find (Inside first last))
    (hle : last ≤ inp.size) : Keeps inp (foundToken find) (Scan.Inside inp first pos) :=
  .bind h fun _ ht => .pure ⟨ht.1, ht.2.trans hle⟩

theorem keeps_goOn (hlt : pos < inp.size) :
    Keeps inp (pure (.goOn (pos + 1))) (Scan.Inside inp first pos) :=
  .pure ⟨Nat.lt_succ_self pos, hlt⟩

theorem keeps_scanDelimiter (hge : first ≤ pos) (hlt : pos < inp.size) :
    Keeps inp (scanDelimiter inp first pos c) (Scan.Inside inp first pos) := by
  refine .ite (fun h => .pure ⟨by omega, hlt⟩) fun hne => ?_
  have htoken : Keeps inp (foundToken (getToken inp first pos)) (Scan.Inside inp first pos) :=
    keeps_foundToken (keeps_getToken (by omega) hlt.le) hlt.le
  refine .ite (fun _ => htoken) fun _ => .bind keeps_isOperator fun _ _ => ?_
  exact .ite (fun _ => keeps_goOn hlt) fun _ => htoken

theorem keeps_isShift (hlt : pos < inp.size) : Keeps inp (isShift inp pos) fun _ => True := by
  refine .bind_read hlt (.ite (fun hc => ?_) fun _ => .pure trivial)
  have hnext : pos + 1 < inp.size := by
    rcases hc with hc | hc <;> exact Input.lt_size_of_char hc (by decide)
  exact .bind_read hnext (.pure trivial)

theorem keeps_skipBrackets (fuel : Nat) : ∀ {pos depth : Nat}, pos ≤ inp.size →
    inp.size - pos < fuel →
    Keeps inp (skipBrackets inp first fuel pos depth) fun last => pos ≤ last ∧ last ≤ inp.size := by
  induction fuel with
  | zero => exact fun _ h => absurd h (Nat.not_lt_zero _)
  | succ fuel ih =>
    intro pos depth hle hfuel
    refine .bind_read hle (.ite (fun hc => ?_) fun _ => .pure ⟨le_rfl, hle⟩)
    have hlt := Input.lt_size_of_char rfl hc.1
    exact (ih hlt (by omega)).mono fun last hlast => ⟨by omega, hlast.2⟩

theorem keeps_scanTemplate (hlt : pos < inp.size) :
    Keeps inp (scanTemplate inp first pos) (Scan.Inside inp first pos) := by
  refine .bind (keeps_isShift hlt) fun _ _ => .ite (fun _ => keeps_goOn hlt) fun _ => ?_
  refine .bind (keeps_skipBrackets _ (by omega) (by omega)) fun last hlast => .pure ?_
  exact ⟨hlast.1, hlast.2⟩

section

variable (hge : first ≤ pos) (hlt : pos < inp.size)
include hge hlt

theorem keeps_scanColon :
    Keeps inp (scanColon inp first pos) (Scan.Inside inp first pos) := by
  refine .bind_read hlt (.ite (fun hc => .pure ?_) fun _ => keeps_scanDelimiter hge hlt)
  have hnext := Input.lt_size_of_char hc (by decide)
  exact ⟨by omega, hnext⟩

theorem keeps_scanComma :
    Keeps inp (scanComma inp first pos) (Scan.Inside inp first pos) :=
  .bind_read (by omega) (.ite (fun _ => keeps_goOn hlt) fun _ => keeps_scanDelimiter hge hlt)

theorem keeps_scanOpen :
    Keeps inp (scanOpen inp first pos) (Scan.Inside inp first pos) := by
  refine .ite (fun _ => keeps_goOn hlt) fun hne => .bind_read hlt ?_
  refine .ite (fun _ => keeps_goOn hlt) fun _ => ?_
  exact keeps_foundToken (keeps_stabDescriptor (by omega) hlt.le) hlt.le

theorem keeps_scanClose :
    Keeps inp (scanClose inp first pos) (Scan.Inside inp first pos) := by
  refine .bind_read (by omega) (.pure ?_)
  split
  · exact ⟨by omega, hlt⟩
  · exact ⟨Nat.lt_succ_self pos, hlt⟩

theorem keeps_scanBuiltin :
    Keeps inp (scanBuiltin inp pos) (Scan.Inside inp first pos) := by
  refine .bind_read hlt (.ite (fun hd => ?_) fun _ => keeps_goOn hlt)
  refine .bind_read (Input.lt_size_of_isDigit hd) (.pure ?_)
  split
  · exact ⟨by omega, hlt⟩
  · exact ⟨Nat.lt_succ_self pos, hlt⟩

theorem keeps_scanOther
    (hfirst : (inp.char first).isDigit = true → c.isDigit = false → first < pos) :
    Keeps inp (scanOther inp first pos c) (Scan.Inside inp first pos) := by
  refine .bind (keeps_startsWith (by decide) hlt.le) fun word _ => .ite (fun _ => ?_) fun _ => ?_
  · refine .bind_emit (fun _ => trivial) fun hroom => .pure ?_
    have hroom : pos + 8 < inp.size := hroom
    exact ⟨by omega, hroom⟩
  · refine .bind_read (by omega) (.ite (fun h => ?_) fun _ => keeps_goOn hlt)
    have hpos := hfirst h.1 (Bool.eq_false_iff.mpr h.2)
    exact keeps_foundToken (keeps_getToken hpos hlt.le) hlt.le

theorem keeps_scanChar
    (hc : inp.char pos = c) :
    Keeps inp (scanChar inp first pos c) (Scan.Inside inp first pos) := by
  have hfirst : (inp.char first).isDigit = true → c.isDigit = false → first < pos := by
    intro hdigit hnot
    refine lt_of_le_of_ne hge fun heq => ?_
    rw [heq, hc, hnot] at hdigit
    exact absurd hdigit (by decide)
  unfold scanChar
  split
  · exact keeps_scanTemplate hlt
  · exact keeps_scanColon hge hlt
  iterate 6 exact keeps_scanDelimiter hge hlt
  · exact keeps_scanComma hge hlt
  · exact keeps_scanOpen hge hlt
  · exact keeps_scanClose hge hlt
  · exact keeps_scanBuiltin hge hlt
  · exact keeps_scanOther hge hlt hfirst

end

/-- A token starts at the cursor and ends in the string, and only the end of the string is
an empty one. -/
def Found (inp : Input) (first : Nat) (t : Token × Nat) : Prop :=
  first ≤ t.2 ∧ t.2 ≤ inp.size ∧ (t.1 ≠ .end_ → first < t.2)

theorem keeps_scan (fuel : Nat) : ∀ {pos : Nat}, first ≤ pos → pos ≤ inp.size →
    inp.size - pos < fuel → Keeps inp (scan inp first fuel pos) (Found inp first) := by
  induction fuel with
  | zero => exact fun _ _ h => absurd h (Nat.not_lt_zero _)
  | succ fuel ih =>
    intro pos hge hle hfuel
    refine .bind_read hle (.ite (fun _ => .pure ?_) fun hc => ?_)
    · exact ⟨le_rfl, hge.trans hle, fun h => absurd rfl h⟩
    · have hlt := Input.lt_size_of_char rfl hc
      refine .bind (keeps_scanChar hge hlt rfl) fun r hr => ?_
      cases r with
      | goOn next => exact ih (hge.trans hr.1.le) hr.2 (by have := hr.1; omega)
      | found t last => exact .pure ⟨hr.1.le, hr.2, fun _ => hr.1⟩

theorem keeps_skipDigits (fuel : Nat) : ∀ {pos : Nat}, pos ≤ inp.size → inp.size - pos < fuel →
    Keeps inp (skipDigits inp fuel pos) fun last => pos ≤ last ∧ last ≤ inp.size := by
  induction fuel with
  | zero => exact fun _ h => absurd h (Nat.not_lt_zero _)
  | succ fuel ih =>
    intro pos hle hfuel
    refine .bind_read hle (.ite (fun hd => ?_) fun _ => .pure ⟨le_rfl, hle⟩)
    have hlt := Input.lt_size_of_isDigit hd
    exact (ih hlt (by omega)).mono fun last hlast => ⟨by omega, hlast.2⟩

theorem keeps_isNegative (hc : inp.char first = c) :
    Keeps inp (isNegative inp first c) fun negative => negative = true → first < inp.size := by
  refine .ite (fun h => ?_) fun _ => .pure fun h => absurd h (by decide)
  have hlt := Input.lt_size_of_char (hc.trans h) (by decide)
  exact .bind_read hlt (.pure fun _ => hlt)

theorem keeps_findToken (hle : first ≤ inp.size) :
    Keeps inp (findToken inp first) (Found inp first) := by
  refine .bind_read hle (.bind (keeps_assert _) fun _ _ => ?_)
  refine .bind (keeps_isNegative rfl) fun negative hneg => .ite (fun h => ?_) fun _ => ?_
  · have hlt := hneg h
    refine .bind (keeps_skipDigits _ hlt (by omega)) fun last hlast => .pure ?_
    exact ⟨by have := hlast.1; omega, hlast.2, fun _ => hlast.1⟩
  · exact keeps_scan _ le_rfl hle (by omega)

theorem holds_getCursor {x : Nat} {g : Nat → M β} {post : β → Option Nat → Prop}
    (h : Holds inp (some x) (g x) post) : Holds inp (some x) (getCursor >>= g) post := by
  intro s hs
  have hstr : s.str = some x := hs
  have hrun : getCursor s = ([], .ok (x, s)) := by
    rw [getCursor, Traced.bind_of_ok (f := Traced.get) (s := s) rfl, hstr]
    rfl
  rw [Traced.bind_of_ok hrun, List.nil_append]
  exact h s hs

theorem nextToken_spec {x : Nat} (hx : x ≤ inp.size) :
    Holds inp (some x) (nextToken inp) fun t v =>
      v = some t.last ∧ t.first = x ∧ Found inp x (t.token, t.last) := by
  refine holds_getCursor ?_
  refine .bind (keeps_findToken hx _) fun t v ht => ?_
  obtain ⟨ht, rfl⟩ := ht
  refine .bind_emit fun _ => ⟨⟨ht.1, ht.2.1⟩, ?_⟩
  intro s _ _
  exact ⟨fun _ hw => absurd hw List.not_mem_nil, rfl, rfl, ht⟩

end Tokens

end ZeroBugs.Stabz.Parse
