import ZeroBugs.Stabz.TokenSafety
import ZeroBugs.Stabz.TypeParser

/-! # The parser stays inside the string -/
namespace ZeroBugs.Stabz.Parse

open Lib Lib.NumberText

-- the instance for a function is as large as its body
set_option synthInstance.maxSize 100000

variable {inp : Input} {x lo : Nat} {α β : Type}

/-- The cursor is at `x` or behind it, and in the string. -/
def Stays (inp : Input) (x : Nat) (v : Option Nat) : Prop :=
  ∃ y, v = some y ∧ x ≤ y ∧ y ≤ inp.size

/-- From a cursor at `x`, guarded runs are safe and leave the cursor there or behind. -/
def Moves (inp : Input) (x : Nat) (f : M α) : Prop :=
  Holds inp (some x) f fun _ v => Stays inp x v

variable {y : Nat} {want : Token}

section Rules

variable {f : M α} {g : α → M β} {next : Unit → M β} {post : α → Prop}

theorem Stays.mono {v : Option Nat} (h : Stays inp y v) (hle : x ≤ y) :
    Stays inp x v := by
  obtain ⟨z, hv, hz⟩ := h
  exact ⟨z, hv, hle.trans hz.1, hz.2⟩

theorem Moves.holds (h : Moves inp y f) (hle : x ≤ y) :
    Holds inp (some y) f fun _ v => Stays inp x v :=
  h.mono fun _ _ hv => hv.mono hle

theorem Moves.pure {a : α} (hx : x ≤ inp.size) : Moves inp x (Pure.pure a) :=
  Traced.Triple.pure ⟨x, rfl, le_rfl, hx⟩

theorem Moves.bind (hf : Moves inp x f)
    (hg : ∀ a y, x ≤ y → y ≤ inp.size → Moves inp y (g a)) : Moves inp x (f >>= g) := by
  refine Traced.Triple.bind hf fun a v hv => ?_
  obtain ⟨y, rfl, hle, hy⟩ := hv
  exact (hg a y hle hy).holds hle

theorem Moves.ite {c : Prop} [Decidable c] {f' : M α} (hf : c → Moves inp x f)
    (hf' : ¬c → Moves inp x f') : Moves inp x (if c then f else f') :=
  Traced.Triple.ite hf hf'

theorem Keeps.then (hf : Keeps inp f post) (hg : ∀ a, post a → Moves inp x (g a)) :
    Moves inp x (f >>= g) := by
  refine Traced.Triple.bind (hf _) fun a v ha => ?_
  obtain ⟨ha, rfl⟩ := ha
  exact hg a ha

theorem Keeps.moves (hf : Keeps inp f post) (hx : x ≤ inp.size) : Moves inp x f :=
  (hf _).mono fun _ _ ha => ⟨x, ha.2, le_rfl, hx⟩

theorem moves_emit {w : Step} (hsafe : w.Guarded inp → w.Safe inp)
    (h : w.Guarded inp → Moves inp x (next ())) : Moves inp x (Traced.emit w >>= next) :=
  Traced.Triple.bind_emit fun hw => ⟨hsafe hw, h hw⟩

theorem moves_read {g : Char → M β} {i : Nat} (hi : i ≤ inp.size)
    (h : Moves inp x (g (inp.char i))) : Moves inp x (read inp i >>= g) :=
  (keeps_read hi).then fun _ hc => hc ▸ h

theorem moves_getCursor {g : Nat → M β} (h : Moves inp x (g x)) :
    Moves inp x (getCursor >>= g) :=
  holds_getCursor h

theorem moves_peek {g : Char → M β} (hx : x ≤ inp.size) (h : Moves inp x (g (inp.char x))) :
    Moves inp x (peek inp >>= g) := by
  have hpeek : Holds inp (some x) (peek inp) fun c v => c = inp.char x ∧ v = some x :=
    holds_getCursor (keeps_read hx _)
  refine Traced.Triple.bind hpeek fun c v hc => ?_
  obtain ⟨rfl, rfl⟩ := hc
  exact h

theorem holds_setCursor {v v' : Option Nat} {post : β → Option Nat → Prop}
    (h : Holds inp v' (next ()) post) : Holds inp v (setCursor v' >>= next) post := by
  have hset : Holds inp v (setCursor v') fun _ w => w = v' :=
    fun _ _ _ => ⟨fun _ hw => absurd hw List.not_mem_nil, rfl⟩
  refine .bind hset fun _ w hw => ?_
  obtain rfl := hw
  exact h

theorem advance_spec : Holds inp (some x) advance fun _ v => v = some (x + 1) :=
  holds_getCursor fun _ _ _ => ⟨fun _ hw => absurd hw List.not_mem_nil, rfl⟩

theorem moves_advance (h : Moves inp (x + 1) (next ())) : Moves inp x (advance >>= next) := by
  refine Traced.Triple.bind advance_spec fun _ v hv => ?_
  obtain rfl := hv
  exact h.holds (Nat.le_succ x)

theorem holds_nextToken {g : Item → M β} {post : β → Option Nat → Prop} (hx : x ≤ inp.size)
    (h : ∀ t, t.first = x → Found inp x (t.token, t.last) →
      Holds inp (some t.last) (g t) post) : Holds inp (some x) (nextToken inp >>= g) post := by
  refine .bind (nextToken_spec hx) fun t v ht => ?_
  obtain ⟨rfl, hfirst, hfound⟩ := ht
  exact h t hfirst hfound

theorem holds_expect {failed : α} {next : Item → M α} (hx : x ≤ inp.size)
    (hwant : want ≠ .end_)
    (h : ∀ t, t.first = x → x < t.last → t.last ≤ inp.size →
      Holds inp (some t.last) (next t) fun _ v => Stays inp x v) :
    Moves inp x (expect inp want failed next) := by
  refine holds_nextToken hx fun t hfirst hfound => .ite (fun htoken => ?_) fun _ => ?_
  · have hne : t.token ≠ .end_ := of_decide_eq_true htoken ▸ hwant
    exact h t hfirst (hfound.2.2 hne) hfound.2.1
  · have hstop : Moves inp t.last (do
        assert inp false
        Pure.pure failed) := (keeps_assert false).then fun _ _ => .pure hfound.2.1
    exact hstop.holds hfound.1

theorem moves_expect {failed : α} {next : Item → M α} (hx : x ≤ inp.size)
    (hwant : want ≠ .end_)
    (h : ∀ t, t.first = x → x < t.last → t.last ≤ inp.size → Moves inp t.last (next t)) :
    Moves inp x (expect inp want failed next) :=
  holds_expect hx hwant fun t hfirst hlt hle => (h t hfirst hlt hle).holds hlt.le

theorem moves_parsed {f : M (Option α)} {failed : β} {next : α → M β} (hf : Moves inp x f)
    (h : ∀ a y, x ≤ y → y ≤ inp.size → Moves inp y (next a)) :
    Moves inp x (parsed f failed next) := by
  refine hf.bind fun r y hle hy => ?_
  cases r with
  | some a => exact h a y hle hy
  | none => exact .pure hy

end Rules

def Forward (inp : Input) (v w : Option Nat) : Prop := ∃ x, v = some x ∧ Stays inp x w

instance : Trans (Forward inp) (Forward inp) (Forward inp) := by
  refine ⟨fun {u v w} huv hvw => ?_⟩
  obtain ⟨x, rfl, y, rfl, hle, -⟩ := huv
  obtain ⟨z, hz, hstays⟩ := hvw
  obtain rfl := Option.some.inj hz
  exact ⟨x, rfl, hstays.mono hle⟩

instance : Traced.Settles (Forward inp) := by
  refine ⟨fun {u v} huv => ?_⟩
  obtain ⟨x, rfl, y, rfl, -, hy⟩ := huv
  exact ⟨y, rfl, y, rfl, le_rfl, hy⟩

abbrev Goes (inp : Input) (lo : Nat) (f : M α) : Prop :=
  Traced.Roams (cursor inp) (Forward inp) (some lo) f

theorem Goes.of {f : M α} (h : ∀ y, lo ≤ y → y ≤ inp.size → Moves inp y f) : Goes inp lo f := by
  refine ⟨fun v hv => ?_⟩
  obtain ⟨z, hz, y, rfl, hle, hy⟩ := hv
  obtain rfl := Option.some.inj hz
  exact (h y hle hy).mono fun _ _ hw => ⟨y, rfl, hw⟩

theorem Goes.of_keeps {f : M α} (h : Keeps inp f fun _ => True) : Goes inp lo f :=
  .of fun _ _ hy => h.moves hy

theorem moves {f : M α} [hf : Goes inp lo f] (hle : lo ≤ x) (hx : x ≤ inp.size) :
    Moves inp x f := by
  refine (hf.roams (some x) ⟨lo, rfl, x, rfl, hle, hx⟩).mono fun _ v hv => ?_
  obtain ⟨z, hz, hstays⟩ := hv
  exact Option.some.inj hz ▸ hstays

abbrev Taken (inp : Input) := { t : Item // t.first < t.last ∧ t.last ≤ inp.size }

section Goes

instance (t : Taken inp) : Fact (t.1.first < inp.size) := ⟨t.2.1.trans_le t.2.2⟩

instance (t : Taken inp) : Fact (t.1.first ≤ inp.size) := ⟨t.2.1.le.trans t.2.2⟩

instance : Fact (Token.number ≠ .end_) := ⟨by decide⟩

instance : Fact (Token.semicolon ≠ .end_) := ⟨by decide⟩

instance : Fact (Token.colon ≠ .end_) := ⟨by decide⟩

instance : Fact (Token.comma ≠ .end_) := ⟨by decide⟩

instance : Fact (Token.typeKey ≠ .end_) := ⟨by decide⟩

instance : Fact (Token.ident ≠ .end_) := ⟨by decide⟩

variable {failed : α} {next : M α}

instance (what : String) : Fact (Stop.exception what).Thrown := ⟨trivial⟩

def SameCursor (s s' : State) : Prop := s'.str = s.str

instance : Std.Refl SameCursor := ⟨fun _ => rfl⟩

instance : Trans SameCursor SameCursor SameCursor := ⟨fun h h' => h'.trans h⟩

instance {klass : State → Bool} {stack : State → Nat} {tables : State → List (Option Nat)}
    {asked : State → List Request} :
    Traced.Relates SameCursor fun s => ⟨s.str, klass s, stack s, tables s, asked s⟩ :=
  ⟨fun _ => rfl⟩

instance {f : M α} [hf : Traced.Plain Stop.Thrown SameCursor f] :
    Traced.IsQuiet (cursor inp) f :=
  hf.isQuiet fun _ _ h => h

instance (c : Bool) : Goes inp lo (assert inp c) := .of_keeps (keeps_assert c)

instance (i : Nat) [h : Fact (i ≤ inp.size)] : Goes inp lo (read inp i) :=
  .of fun _ _ hy => (keeps_read h.out).moves hy

instance : Goes inp lo (peek inp) :=
  .of fun _ _ hy => moves_getCursor ((keeps_read hy).moves hy)

instance : Goes inp lo (skip inp) := by
  refine .of fun y _ hy => moves_getCursor (moves_emit (fun _ => trivial) fun hlt => ?_)
  refine moves_read hy (holds_setCursor (.pure ⟨y + 1, rfl, Nat.le_succ y, hlt⟩))

instance : Goes inp lo (nextToken inp) :=
  .of fun _ _ hy => (nextToken_spec hy).mono fun t _ ht => ⟨t.last, ht.1, ht.2.2.1, ht.2.2.2.1⟩

instance (c : Bool) [Goes inp lo next] : Goes inp lo (expectThat inp c failed next) := by
  unfold expectThat
  infer_instance

instance {next : Item → M α} [hwant : Fact (want ≠ .end_)]
    [h : ∀ t : Taken inp, Goes inp lo (next t)] : Goes inp lo (expect inp want failed next) := by
  refine .of fun y hle hy => moves_expect hy hwant.out fun t hfirst hlt ht => ?_
  have := h ⟨t, hfirst ▸ hlt, ht⟩
  exact moves (hle.trans hlt.le) ht

instance {f : M (Option α)} {failed : β} {next : α → M β} [Goes inp lo f]
    [∀ a, Goes inp lo (next a)] : Goes inp lo (parsed f failed next) :=
  .of fun _ hle hy => moves_parsed (moves hle hy) fun _ _ hle' hz => moves (hle.trans hle') hz

instance [Goes inp lo next] : Goes inp lo (optionalSemicolon inp failed next) := by
  unfold optionalSemicolon
  infer_instance

/-- What is done with the character at the cursor goes forward. -/
class Looked (inp : Input) (lo : Nat) (g : Char → M α) : Prop where
  moves : ∀ y, lo ≤ y → y ≤ inp.size → Moves inp y (g (inp.char y))

instance (priority := low) {g : Char → M α} [∀ c, Goes inp lo (g c)] : Looked inp lo g :=
  ⟨fun _ hle hy => moves hle hy⟩

instance colon_ne : Fact (':' ≠ '\x00') := ⟨by decide⟩

instance comma_ne : Fact (',' ≠ '\x00') := ⟨by decide⟩

instance slash_ne : Fact ('/' ≠ '\x00') := ⟨by decide⟩

instance bang_ne : Fact ('!' ≠ '\x00') := ⟨by decide⟩

instance hash_ne : Fact ('#' ≠ '\x00') := ⟨by decide⟩

instance star_ne : Fact ('*' ≠ '\x00') := ⟨by decide⟩

instance {k : Char} [hk : Fact (k ≠ '\x00')] {f : Unit → M α} {g : Char → M α}
    [Goes inp lo (f ())] [hg : Looked inp lo g] :
    Looked inp lo fun c => if c = k then advance >>= f else g c := by
  refine ⟨fun y hle hy => .ite (fun hc => ?_) fun _ => hg.moves y hle hy⟩
  exact moves_advance (moves (hle.trans (Nat.le_succ y)) (Input.lt_size_of_char hc hk.out))

instance {g : Char → M α} [hg : Looked inp lo g] : Goes inp lo (peek inp >>= g) :=
  .of fun y hle hy => moves_peek hy (hg.moves y hle hy)

end Goes

section Pieces

variable {first last : Nat} {id : TypeID} {name : Option Text}

instance (r : Request) : Goes inp lo (ask inp r) := by
  have hask : Traced.Plain Stop.Thrown SameCursor (ask inp r) := by
    refine .bind fun s => ?_
    cases inp.types s.asked r <;> infer_instance
  infer_instance

instance : Goes inp lo (makeRoom id) := by
  refine .of fun y _ hy => moves_emit (fun _ => trivial) fun hroom => .ite (fun _ => ?_) ?_
  · exact moves le_rfl hy
  · exact fun h => absurd hroom h

instance (follow : Bool) : Goes inp lo (getType inp id follow) := by
  unfold getType
  infer_instance

instance (table : Option Nat) (shape : Shape) : Goes inp lo (addToTable inp table id shape) := by
  refine .of fun y _ hy => moves_emit (fun _ => trivial) fun hpresent => ?_
  cases table with
  | none => exact absurd hpresent Bool.false_ne_true
  | some _ => exact moves le_rfl hy

instance (shape : Shape) : Goes inp lo (addType inp id shape) := by
  refine .of fun y _ hy => Moves.bind (moves le_rfl hy) fun s z _ hz => ?_
  refine Moves.bind (moves le_rfl hz) fun _ w _ hw => ?_
  cases s.tables[id.first]? <;> exact moves le_rfl hw

theorem keeps_takeText (hle : first ≤ last) (hlast : last ≤ inp.size) :
    Keeps inp (takeText inp first last) fun _ => True :=
  .bind_emit (fun _ => ⟨hle, hlast⟩) fun _ =>
    .ite (fun _ => .pure trivial) fun _ => .fail trivial

instance (t : Taken inp) : Goes inp lo (takeText inp t.1.first t.1.last) :=
  .of_keeps (keeps_takeText t.2.1.le t.2.2)

theorem keeps_cstring (hle : first ≤ inp.size) :
    Keeps inp (cstring inp first) (· = inp.text.drop first) :=
  .bind_emit (fun _ => hle) fun _ => .pure rfl

instance [h : Fact (first ≤ inp.size)] : Goes inp lo (cstring inp first) :=
  .of fun _ _ hy => (keeps_cstring h.out).moves hy

instance (p : Char → Bool) [Fact (first ≤ inp.size)] : Goes inp lo (assertChar inp first p) := by
  unfold assertChar
  infer_instance

theorem keeps_assertChar {p : Char → Bool} (hle : first ≤ inp.size) :
    Keeps inp (assertChar inp first p) fun _ => True :=
  .ite (fun _ => .bind_read hle (keeps_assert _)) fun _ => .pure trivial

theorem keeps_parseTypeID (hlt : first < inp.size) :
    Keeps inp (parseTypeID inp first) fun _ => True := by
  refine .bind (keeps_assertChar hlt.le) fun _ _ => .bind (keeps_cstring hlt) fun text htext => ?_
  have hstop : first + 1 + (scanNumber text).used ≤ inp.size := by
    have hused : (scanNumber text).used ≤ inp.size - (first + 1) := by
      have hlen : text.length = inp.size - (first + 1) := by rw [htext, List.length_drop]; rfl
      exact hlen ▸ scanNumber_used_le text
    omega
  refine .bind_read hstop (.ite (fun hc => ?_) fun _ => .pure trivial)
  have hnext := Input.lt_size_of_char hc (by decide)
  exact .bind (keeps_cstring hnext) fun _ _ => .pure trivial

instance [h : Fact (first ≤ inp.size)] : Goes inp lo (strtoint inp first) := by
  refine .of_keeps (.bind_read h.out (.ite (fun hc => ?_) fun _ => ?_))
  · have hnext := Input.lt_size_of_char hc (by decide)
    refine .bind_read hnext (.ite (fun hd => ?_) fun _ => ?_)
    · have hnext' := Input.lt_size_of_char hd (by decide)
      exact .bind_read hnext' (.bind (keeps_cstring hnext') fun _ _ => .pure trivial)
    · exact .bind (keeps_cstring hnext) fun _ _ => .pure trivial
  · exact .bind (keeps_cstring h.out) fun _ _ => .pure trivial

instance [h : Fact (first ≤ inp.size)] : Goes inp lo (isMinusOne inp first) := by
  refine .of_keeps (.bind_read h.out (.ite (fun hc => ?_) fun _ => .pure trivial))
  have hnext := Input.lt_size_of_char hc (by decide)
  refine .bind_read hnext (.ite (fun hd => ?_) fun _ => .pure trivial)
  exact .bind_read (Input.lt_size_of_char hd (by decide)) (.pure trivial)

instance : Goes inp lo (parseRange inp) := by
  unfold parseRange upperBound
  infer_instance

instance : Goes inp lo (skipSemicolon inp) := by
  refine .of fun y _ hy => moves_getCursor (moves_read hy (.ite (fun hc => ?_) fun _ => .pure hy))
  have hlt := Input.lt_size_of_char hc (by decide)
  refine moves_read hlt (.ite (fun _ => ?_) fun _ => .pure hy)
  exact advance_spec.mono fun _ _ hv => ⟨y + 1, hv, Nat.le_succ y, hlt⟩

instance [Fact (first ≤ inp.size)] (size : Nat) :
    Goes inp lo (parseNegativeTypes inp first id size) := by
  unfold parseNegativeTypes
  infer_instance

instance : Goes inp lo (parseRangeType inp id name) := by
  unfold parseRangeType
  infer_instance

instance : Goes inp lo (parseBuiltinFpType inp id name) := by
  unfold parseBuiltinFpType
  infer_instance

instance goes_parseFwdType (t : Taken inp) : Goes inp lo (parseFwdType inp t id) := by
  obtain ⟨t, hlt, hle⟩ := t
  have hlt' := hlt.trans_le hle
  refine .of fun y _ hy => (keeps_assertChar hlt'.le).then fun _ _ => ?_
  refine (keeps_assertChar hlt').then fun _ _ => moves_emit (fun _ => trivial) fun hname => ?_
  exact (keeps_takeText hname hle).then fun name _ => moves le_rfl hy

theorem moves_enumLoop (fuel : Nat) : ∀ {x : Nat} {values : List (Int × Text)}, x ≤ inp.size →
    inp.size - x < fuel → Moves inp x (enumLoop inp fuel values) := by
  induction fuel with
  | zero => exact fun _ h => absurd h (Nat.not_lt_zero _)
  | succ fuel ih =>
    intro x values hx hfuel
    refine moves_peek hx (.ite (fun _ => .pure hx) fun _ => ?_)
    refine moves_expect hx (by decide) fun t hfirst hlt ht => ?_
    refine (keeps_takeText (hfirst ▸ hlt.le) ht).then fun name _ => ?_
    refine moves_expect ht (by decide) fun c _ hc hcle => ?_
    refine moves_expect hcle (by decide) fun u hfirst' hu hule => ?_
    refine (keeps_cstring (hfirst' ▸ hcle)).then fun text _ => ?_
    refine moves_expect hule (by decide) fun v _ hv hvle => ?_
    refine moves_peek hvle (.ite (fun hend => ?_) fun _ => ih hvle (by omega))
    exact moves_advance (.pure (Input.lt_size_of_char hend (by decide)))

instance : Goes inp lo (parseEnum inp id name) :=
  .of fun _ _ hy => moves_parsed (moves_enumLoop _ hy (by omega)) fun _ _ _ hz => moves le_rfl hz

end Pieces

def Calls.TypesFrom (call : Calls) (inp : Input) (x : Nat) : Prop :=
  ∀ y, x ≤ y → y ≤ inp.size → ∀ name, Moves inp y (call.type name)

def Calls.MemFunsFrom (call : Calls) (inp : Input) (x : Nat) : Prop :=
  ∀ y, x ≤ y → y ≤ inp.size → ∀ name, Moves inp y (call.memFun name)

theorem Calls.TypesFrom.mono {call : Calls} (h : call.TypesFrom inp x) (hle : x ≤ y) :
    call.TypesFrom inp y :=
  fun z hz => h z (hle.trans hz)

theorem Calls.MemFunsFrom.mono {call : Calls} (h : call.MemFunsFrom inp x)
    (hle : x ≤ y) : call.MemFunsFrom inp y :=
  fun z hz => h z (hle.trans hz)

section Parts

variable {call : Calls} {id : TypeID} {name : Option Text} [h : Fact (call.TypesFrom inp lo)]

instance : Goes inp lo (call.type name) := .of fun y hle hy => h.out y hle hy name

omit h in
instance [hmem : Fact (call.MemFunsFrom inp lo)] : Goes inp lo (call.memFun name) :=
  .of fun y hle hy => hmem.out y hle hy name

instance : Goes inp lo (parseTyped inp call) := by
  unfold parseTyped
  infer_instance

instance : Goes inp lo (parseArray inp call id) := by
  unfold parseArray
  infer_instance

instance (first : Nat) [Fact (first ≤ inp.size)] : Goes inp lo (parsePointer inp call first id) :=
    by
  unfold parsePointer
  infer_instance

instance (qual : Qualifier) : Goes inp lo (parseQualifiedType inp call id qual) := by
  unfold parseQualifiedType
  infer_instance

omit h in
instance (sig : Signature) : Goes inp lo (addToSignature inp sig id) := by
  unfold addToSignature
  infer_instance

theorem moves_signatureLoop (fuel : Nat) : ∀ {x : Nat} {sig : Signature}, lo ≤ x →
    x ≤ inp.size → inp.size - x < fuel → Moves inp x (signatureLoop inp call fuel sig) := by
  induction fuel with
  | zero => exact fun _ _ h => absurd h (Nat.not_lt_zero _)
  | succ fuel ih =>
    intro x sig hlo hx hfuel
    refine moves_peek hx (.ite (fun _ => .pure hx) fun _ => ?_)
    refine moves_parsed (moves hlo hx) fun id y hle hy => ?_
    refine Moves.bind (moves le_rfl hy) fun sig z hz hzle => moves_peek hzle
      (.ite (fun hc => ?_) ?_)
    · have hlt := Input.lt_size_of_char hc (by decide)
      exact moves_advance (ih (by omega) hlt (by omega))
    · exact fun _ => moves le_rfl hzle

instance (isStatic : Bool) : Goes inp lo (parseSignature inp call isStatic) := by
  have : Goes inp lo (signatureLoop inp call (inp.size + 1) ⟨false, none, []⟩) :=
    .of fun _ hle hy => moves_signatureLoop _ hle hy (by omega)
  unfold parseSignature
  infer_instance

omit h in
/-- There is an end of the linkage name, by what is asked of the step. -/
instance : Goes inp lo (findLinkage inp) := by
  refine .of fun y _ hy => moves_getCursor (moves_emit (fun _ => trivial) fun hend => ?_)
  refine (keeps_cstring hy).then fun rest hrest => ?_
  have hmem : ';' ∈ rest := hrest ▸ hend
  rcases hfind : rest.findIdx? (· = ';') with _ | len
  · exact absurd (List.findIdx?_eq_none_iff.mp hfind ';' hmem) (by decide)
  · have hlen : len < inp.size - y := by
      have hlt := (List.findIdx?_eq_some_iff_getElem.mp hfind).1
      rwa [hrest, List.length_drop] at hlt
    have hle : y + len ≤ inp.size := by omega
    refine moves_emit (fun _ => ⟨Nat.le_add_right y len, hle⟩) fun _ => ?_
    exact holds_setCursor (Moves.holds (moves le_rfl hle) (Nat.le_add_right y len))

omit h in
instance : Goes inp lo (parseLinkage inp) := by
  unfold parseLinkage
  infer_instance

omit h in
instance (linkName : Text) (sig : Signature) (access : Access) (isVirtual : Bool)
    (qual : Qualifier) (index : Int) :
    Goes inp lo (addFunType inp id name linkName sig access isVirtual qual index) := by
  unfold addFunType assertMethodName
  infer_instance

instance : Goes inp lo (parseVirtual inp call) := by
  have : Looked inp lo fun c => if c = '.' ∨ c = '?' then do
      advance
      pure (some (false, 0))
    else pure (some (false, (0 : Int))) := by
    refine ⟨fun y _ hy => .ite (fun hc => ?_) fun _ => .pure hy⟩
    have hlt : y < inp.size := by
      rcases hc with hc | hc <;> exact Input.lt_size_of_char hc (by decide)
    exact moves_advance (.pure hlt)
  unfold parseVirtual
  infer_instance

instance (linkName : Text) (sig : Signature) (access : Access)
    [Fact (call.MemFunsFrom inp lo)] :
    Goes inp lo (parseMethod inp call id name linkName sig access) := by
  unfold parseMethod
  infer_instance

omit h in
theorem moves_parseFunType {isStatic : Bool} (h : call.TypesFrom inp x)
    (hmem : call.MemFunsFrom inp (x + 1)) (hx : x ≤ inp.size) :
    Moves inp x (parseFunType inp call id name isStatic) := by
  have : Fact (call.TypesFrom inp x) := ⟨h⟩
  have : Fact (call.TypesFrom inp (x + 1)) := ⟨h.mono (Nat.le_succ x)⟩
  have : Fact (call.MemFunsFrom inp (x + 1)) := ⟨hmem⟩
  refine moves_parsed (moves le_rfl hx) fun sig y hle hy => ?_
  refine moves_parsed (moves le_rfl hy) fun linkName z hz hzle => ?_
  refine moves_peek hzle (.ite (fun hd => ?_) fun _ => moves le_rfl hzle)
  have hlater : x + 1 ≤ z + 1 := by omega
  exact moves_advance (moves hlater (Input.lt_size_of_isDigit hd))

omit h in
theorem moves_parseMemFun (h : call.TypesFrom inp x) (hmem : call.MemFunsFrom inp (x + 1))
    (hx : x ≤ inp.size) : Moves inp x (parseMemFun inp call name) := by
  have : Fact (call.TypesFrom inp x) := ⟨h⟩
  refine holds_expect hx (by decide) fun t hfirst hlt hle => ?_
  obtain rfl := hfirst
  refine .bind (keeps_parseTypeID (by omega) _) fun id v hv => ?_
  obtain ⟨-, rfl⟩ := hv
  have hpeek : Holds inp (some t.last) (peek inp) fun _ v => v = some t.last :=
    holds_getCursor ((keeps_read hle _).mono fun _ _ h => h.2)
  refine .bind hpeek fun c v hv => ?_
  obtain rfl := hv
  exact holds_setCursor (.ite (fun _ => moves_parseFunType h hmem hx) fun _ => moves le_rfl hx)

instance [hmem : Fact (call.MemFunsFrom inp lo)] (isStatic : Bool) :
    Goes inp lo (parseFunType inp call id name isStatic) :=
  .of fun _ hle hy => moves_parseFunType (h.out.mono hle) (hmem.out.mono (Nat.le_succ_of_le hle)) hy

instance [hmem : Fact (call.MemFunsFrom inp lo)] : Goes inp lo (parseMemFun inp call name) :=
  .of fun _ hle hy => moves_parseMemFun (h.out.mono hle) (hmem.out.mono (Nat.le_succ_of_le hle)) hy

end Parts

end ZeroBugs.Stabz.Parse
