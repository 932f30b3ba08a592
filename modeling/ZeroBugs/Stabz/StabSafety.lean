import ZeroBugs.Stabz.ParserSafety

/-! # Stab strings are parsed inside their bounds -/
namespace ZeroBugs.Stabz.Parse

open Lib

-- the instance for a function is as large as its body
set_option synthInstance.maxSize 100000

variable {inp : Input} {call : Calls} {x lo : Nat} {id : TypeID} {name : Option Text}

section Classes

variable [h : Fact (call.TypesFrom inp lo)]

instance (count : Nat) : Goes inp lo (baseLoop inp call count) := by
  induction count with
  | zero => exact inferInstanceAs (Goes inp lo (pure true))
  | succ count ih =>
    unfold baseLoop
    infer_instance

instance : Goes inp lo (parseBaseClasses inp call) := by
  unfold parseBaseClasses
  infer_instance

theorem trimmed_length_le (text : Text) : (trimmed text).length ≤ text.length := by
  rw [trimmed, List.length_reverse]
  calc (List.dropWhile _ (List.dropWhile _ text.reverse)).length
      ≤ (List.dropWhile _ text.reverse).length := (List.dropWhile_suffix _).length_le
    _ ≤ text.reverse.length := (List.dropWhile_suffix _).length_le
    _ = text.length := List.length_reverse

omit h

instance (t : Taken inp) : Goes inp lo (memberName inp t) := by
  obtain ⟨t, hlt, hle⟩ := t
  have hend : t.first + (trimmed (slice inp t.first t.last)).length ≤ inp.size := by
    have htrim := trimmed_length_le (slice inp t.first t.last)
    have hslice : (slice inp t.first t.last).length ≤ t.last - t.first := List.length_take_le _ _
    omega
  refine .of_keeps (.bind (keeps_startsWith (by decide) (hlt.le.trans hle)) fun vptr _ => ?_)
  exact .ite (fun _ => .pure trivial) fun _ => keeps_takeText (Nat.le_add_right _ _) hend

theorem keeps_isOldVptr {first : Nat} (hle : first ≤ inp.size) :
    Keeps inp (isOldVptr inp first) fun old => old = true → first + 2 ≤ inp.size := by
  refine .bind_read hle (.ite (fun hc => ?_) fun _ => .pure fun h => absurd h (by decide))
  have hlt := Input.lt_size_of_char hc (by decide)
  refine .bind_read hlt (.pure fun hd => ?_)
  exact Input.lt_size_of_char (of_decide_eq_true hd) (by decide)

instance (first : Nat) (text : Text) [Fact (first + 2 ≤ inp.size)] :
    Goes inp lo (oldVptrName inp first text) := by
  unfold oldVptrName
  infer_instance

instance : Goes inp lo (memberAccess inp) := by
  unfold memberAccess
  infer_instance

instance (linkName : Text) : Goes inp lo (addStaticMember inp name linkName id) := by
  unfold addStaticMember
  infer_instance

instance (oldVptr : Bool) : Goes inp lo (memberSize inp oldVptr) := by
  unfold memberSize
  infer_instance

instance : Goes inp lo (isBaseName inp name id) := by
  cases name <;> unfold isBaseName <;> infer_instance

instance (access : Access) (bitOffs bitSize : Nat) :
    Goes inp lo (addDataMember inp name access id bitOffs bitSize) := by
  unfold addDataMember
  infer_instance

instance (oldVptr : Bool) (access : Access) :
    Goes inp lo (parseMemberEnd inp name oldVptr access id) := by
  unfold parseMemberEnd
  infer_instance

include h

instance (oldVptr isFunction : Bool) :
    Goes inp lo (parseDataMember inp call name oldVptr isFunction) := by
  unfold parseDataMember
  infer_instance

variable [hmem : Fact (call.MemFunsFrom inp lo)]

instance (first : Nat) (text : Text) (isFunction : Bool) [hfirst : Fact (first ≤ inp.size)] :
    Goes inp lo (parseSpecialMember inp call first text isFunction) := by
  refine .of fun y hle hy => (keeps_isOldVptr hfirst.out).then fun old hold => ?_
  refine .ite (fun h' => ?_) fun _ => moves hle hy
  have : Fact (first + 2 ≤ inp.size) := ⟨hold h'⟩
  exact moves hle hy

instance (isFunction : Bool) : Goes inp lo (parseMember inp call isFunction) := by
  unfold parseMember
  infer_instance

theorem moves_memberLoop (fuel : Nat) : ∀ {x : Nat} {isFunction : Bool}, lo ≤ x →
    x ≤ inp.size → inp.size - x < fuel → Moves inp x (memberLoop inp call fuel isFunction) := by
  induction fuel with
  | zero => exact fun _ _ h => absurd h (Nat.not_lt_zero _)
  | succ fuel ih =>
    intro x isFunction hlo hx hfuel
    refine moves_peek hx (.ite (fun _ => .pure hx) fun _ => .ite (fun hc => ?_) fun _ => ?_)
    · exact moves_advance (.pure (Input.lt_size_of_char hc (by decide)))
    · refine Moves.bind (moves hlo hx) fun r y hle hy => ?_
      refine .ite (fun _ => moves_expect hy (by decide) fun t _ hlt ht => ?_) fun _ => .pure hy
      exact ih (by omega) ht (by omega)

omit hmem in
instance (ok : Bool) : Goes inp lo (parseTilde inp call ok) := by
  refine .of fun x hle hx => .ite (fun _ => moves_peek hx (.ite (fun hc => ?_) ?_)) ?_
  · have hlt := Input.lt_size_of_char hc (by decide)
    refine moves_advance (moves_peek hlt (.ite (fun hd => ?_) fun _ => moves le_rfl hlt))
    have hlt' := Input.lt_size_of_char (of_decide_eq_true hd) (by decide)
    exact moves_advance (moves (hle.trans (Nat.le_add_right x 2)) hlt')
  · exact fun _ => .pure hx
  · exact fun _ => .pure hx

instance : Goes inp lo (parseMembers inp call id) := by
  have : Goes inp lo (memberLoop inp call (inp.size + 1) false) :=
    .of fun _ hle hy => moves_memberLoop _ hle hy (by omega)
  unfold parseMembers popClass
  infer_instance

omit h hmem in
instance : Traced.Relates SameCursor pushClass := by
  refine ⟨fun s => ?_⟩
  unfold pushClass
  split <;> rfl

instance (isUnion : Bool) : Goes inp lo (parseClass inp call id name isUnion) := by
  unfold parseClass
  infer_instance

end Classes

section Types

theorem goes_parseShape {t : Item} [Fact (call.TypesFrom inp lo)]
    [Fact (call.MemFunsFrom inp lo)] (hle : t.last ≤ inp.size)
    (htoken : t.first ≤ t.last ∧ (t.token ≠ .end_ → t.first < t.last)) :
    Goes inp lo (parseShape inp call id name t) := by
  have : Fact (t.first ≤ inp.size) := ⟨htoken.1.trans hle⟩
  unfold parseShape
  split
  case h_4 hident =>
    have hlt : t.first < t.last := htoken.2 (by rw [hident]; decide)
    have : Goes inp lo (parseFwdType inp t id) := goes_parseFwdType ⟨t, hlt, hle⟩
    infer_instance
  case h_14 => exact .of fun _ _ hy => moves_emit (fun _ => ⟨htoken.1, hle⟩) fun _ => .pure hy
  all_goals infer_instance

theorem keeps_attributeSize {first size : Nat} (hlt : first < inp.size) :
    Keeps inp (attributeSize inp first size) fun _ => True := by
  refine .bind_read hlt (.ite (fun hc => ?_) fun _ => .pure trivial)
  have hlt' := Input.lt_size_of_char hc (by decide)
  exact .bind (keeps_cstring hlt') fun _ _ => .pure trivial

theorem moves_typeLoop [h : Fact (call.TypesFrom inp lo)] [Fact (call.MemFunsFrom inp lo)]
    (fuel : Nat) : ∀ {x size : Nat}, lo ≤ x → x ≤ inp.size → inp.size - x < fuel →
    Moves inp x (typeLoop inp call id name fuel size) := by
  induction fuel with
  | zero => exact fun _ _ h => absurd h (Nat.not_lt_zero _)
  | succ fuel ih =>
    intro x size hlo hx hfuel
    refine moves_peek hx (.ite (fun _ => .pure hx) fun _ => ?_)
    refine holds_nextToken hx fun t hfirst hfound => ?_
    obtain ⟨hle, hlast, hlt⟩ := hfound
    dsimp only at hle hlast hlt
    have : Fact (t.first ≤ inp.size) := ⟨hfirst ▸ hx⟩
    -- behind an attribute or a negative type, the loop goes on with a shorter string
    have hloop (size : Nat) (hpos : x < t.last) :
        Goes inp t.last (typeLoop inp call id name fuel size) :=
      .of fun y hy hyle => ih (by omega) hyle (by omega)
    refine Moves.holds (.ite (fun htoken => ?_) fun _ => .ite (fun htoken => ?_) fun _ =>
      .ite (fun _ => moves (hlo.trans hle) hlast) fun _ => ?_) hle
    · have hpos := hlt (by rw [htoken]; decide)
      refine (keeps_attributeSize (by omega)).then fun size _ => ?_
      have := hloop size hpos
      exact moves le_rfl hlast
    · have hpos := hlt (by rw [htoken]; decide)
      have := hloop size hpos
      exact moves le_rfl hlast
    · have : Goes inp lo (parseShape inp call id name t) :=
        goes_parseShape hlast ⟨hfirst ▸ hle, fun hne => hfirst ▸ hlt hne⟩
      exact moves (hlo.trans hle) hlast

instance [Fact (call.TypesFrom inp lo)] : Goes inp lo (parseAlias inp call id name) := by
  unfold parseAlias
  infer_instance

theorem moves_parseType (h : call.TypesFrom inp (x + 1)) (hmem : call.MemFunsFrom inp (x + 1))
    (hx : x ≤ inp.size) : Moves inp x (parseType inp call name) := by
  have : Fact (call.TypesFrom inp (x + 1)) := ⟨h⟩
  have : Fact (call.MemFunsFrom inp (x + 1)) := ⟨hmem⟩
  refine moves_expect hx (by decide) fun key hfirst hlt hkey => ?_
  refine (keeps_parseTypeID (by omega)).then fun id _ => ?_
  refine holds_nextToken hkey fun t hfirst' hfound => .ite (fun _ => ?_) fun _ => ?_
  · obtain ⟨hle, hlast, -⟩ := hfound
    refine Moves.holds (moves_peek hlast (.ite (fun _ => ?_) fun _ => ?_)) hle
    · exact moves (hlt.trans_le hle) hlast
    · exact moves_typeLoop _ (hlt.trans_le hle) hlast (by omega)
  · exact holds_setCursor (.pure ⟨key.last, congrArg some hfirst', le_rfl, hkey⟩)

theorem calls_safe (depth : Nat) : ∀ x ≤ inp.size,
    (2 * (inp.size - x) < depth → ∀ name, Moves inp x ((calls inp depth).type name)) ∧
      (2 * (inp.size - x) + 1 < depth → ∀ name, Moves inp x ((calls inp depth).memFun name)) := by
  induction depth with
  | zero => exact fun x _ => ⟨fun h => absurd h (Nat.not_lt_zero _), fun h => by omega⟩
  | succ depth ih =>
    intro x hx
    have htypes (h : 2 * (inp.size - x) < depth + 1) : (calls inp depth).TypesFrom inp (x + 1) :=
      fun y hy hyle => (ih y hyle).1 (by omega)
    have hmems (h : 2 * (inp.size - x) < depth + 1) : (calls inp depth).MemFunsFrom inp (x + 1) :=
      fun y hy hyle => (ih y hyle).2 (by omega)
    refine ⟨fun h name => moves_parseType (htypes h) (hmems h) hx, fun h name => ?_⟩
    refine moves_parseMemFun (fun y hy hyle => ?_) (hmems (by omega)) hx
    exact (ih y hyle).1 (by omega)

end Types

section Runs

variable {text : Text}

theorem parseStart_spec : Holds inp (some 0) (parseStart inp) fun r v =>
    r.1 ≤ inp.size ∧ Stays inp 0 v := by
  have h0 : 0 ≤ inp.size := Nat.zero_le _
  refine holds_nextToken h0 fun t hfirst hfound => ?_
  obtain ⟨-, hlast, hlt⟩ := hfound
  dsimp only at hlast hlt
  have hstop {first : Nat} {y : Nat} (hf : first ≤ inp.size) (hy : y ≤ inp.size) :
      Holds inp (some y) (do
        assert inp false
        pure ((first, none) : Nat × Option Text)) fun r v => r.1 ≤ inp.size ∧ Stays inp 0 v := by
    refine .bind (keeps_assert false _) fun _ v hv => ?_
    obtain ⟨-, rfl⟩ := hv
    exact .pure ⟨hf, y, rfl, Nat.zero_le y, hy⟩
  refine .ite (fun htoken => ?_) fun _ => hstop h0 hlast
  have hpos := hlt (by rw [of_decide_eq_true htoken]; decide)
  refine .bind (keeps_assert _ _) fun _ v hv => ?_
  obtain ⟨-, rfl⟩ := hv
  refine .bind (keeps_takeText (by omega) hlast _) fun name v hv => ?_
  obtain ⟨-, rfl⟩ := hv
  refine holds_nextToken hlast fun u hfirst' hfound' => .ite (fun _ => ?_) fun _ => ?_
  · exact .pure ⟨hfirst' ▸ hlast, u.last, rfl, Nat.zero_le _, hfound'.2.1⟩
  · exact hstop hlast hfound'.2.1

theorem moves_reporting {first : Nat} {f : M Bool} (hfirst : first ≤ inp.size)
    (hf : Moves inp x f) : Moves inp x (reporting inp first f) := by
  refine hf.bind fun ok y _ hy => .ite (fun _ => .pure hy) fun _ => ?_
  exact (keeps_cstring hfirst).then fun _ _ => .pure hy

instance : Goes inp lo (parseConstant inp text) := by
  refine .of fun x _ hx => moves_getCursor (moves_read hx (.ite (fun hc => ?_) ?_))
  · have hlt := Input.lt_size_of_char (of_decide_eq_true hc) (by decide)
    exact moves_read hlt (moves_parsed (.pure hx) fun _ _ _ hy => moves le_rfl hy)
  · exact fun _ => moves le_rfl hx

section Symbols

variable [h : Fact (call.TypesFrom inp lo)]

instance : Goes inp lo (parseLocal inp call text) := by
  unfold parseLocal addLocalVar
  infer_instance

instance : Goes inp lo (parseTypeName inp call text) := by
  unfold parseTypeName
  infer_instance

theorem moves_reportingHere {f : M Bool} [Goes inp lo f] (hlo : lo ≤ x) (hx : x ≤ inp.size) :
    Moves inp x (reportingHere inp f) :=
  moves_getCursor (moves_reporting hx (moves hlo hx))

theorem moves_parseMarked (hlo : lo ≤ x) (hlt : x < inp.size) :
    Moves inp x (parseMarked inp call text) := by
  refine moves_advance (moves_getCursor ((keeps_assertChar hlt).then fun _ _ => ?_))
  exact moves_reporting hlt (moves (Nat.le_succ_of_le hlo) hlt)

theorem moves_parseSymbol {first : Nat} {c : Char} (hlo : lo ≤ x) (hx : x ≤ inp.size)
    (hfirst : first ≤ inp.size) (hc : inp.char x = c) :
    Moves inp x (parseSymbol inp call first text c) := by
  have hlt (hne : c ≠ '\x00') : x < inp.size := Input.lt_size_of_char hc hne
  have hbehind {f : Unit → M Bool} [Goes inp lo (f ())] (hne : c ≠ '\x00') :
      Moves inp x (reporting inp first (advance >>= f)) :=
    moves_reporting hfirst (moves_advance (moves (Nat.le_succ_of_le hlo) (hlt hne)))
  have hregister (hne : c ≠ '\x00') : Moves inp x (do
      assert inp (inp.stab = .rsym)
      parseMarked inp call text) :=
    (keeps_assert _).then fun _ _ => moves_parseMarked hlo (hlt hne)
  have hparam {b : Bool} (hne : c ≠ '\x00') : Moves inp x (do
      assert inp b
      if inp.stab = .stsym then reporting inp first (parseGlobal inp call text)
      else parseMarked inp call text) :=
    (keeps_assert _).then fun _ _ =>
      .ite (fun _ => hbehind hne) fun _ => moves_parseMarked hlo (hlt hne)
  unfold parseSymbol
  split
  · exact moves_reportingHere hlo hx
  · exact moves_reportingHere hlo hx
  · exact moves_advance (moves_reporting hfirst (moves le_rfl (hlt (by decide))))
  · exact hbehind (by decide)
  · exact hbehind (by decide)
  · exact hregister (by decide)
  · exact hregister (by decide)
  · exact hregister (by decide)
  · exact hparam (by decide)
  · exact hparam (by decide)
  · exact hparam (by decide)
  · exact moves_reportingHere hlo hx
  · exact hbehind (by decide)
  · exact hbehind (by decide)
  · exact moves_reporting hfirst (.pure hx)

end Symbols

theorem parse_spec (h : call.TypesFrom inp 0) :
    Holds inp (some 0) (parse inp call) fun _ _ => True := by
  refine .bind parseStart_spec fun r v hr => ?_
  obtain ⟨hfirst, y, rfl, -, hy⟩ := hr
  obtain ⟨first, _ | text⟩ := r
  · exact (moves_reporting hfirst (.pure hy)).mono fun _ _ _ => trivial
  · have : Fact (call.TypesFrom inp 0) := ⟨h⟩
    have hsymbol : Moves inp y (do
        let c ← peek inp
        parseSymbol inp call first text c) :=
      moves_peek hy (moves_parseSymbol (Nat.zero_le y) hy hfirst rfl)
    exact hsymbol.mono fun _ _ _ => trivial

/-- A stab of type `N_LSYM`, for a type system that throws nothing. -/
def Input.ofText (text : Text) (h : '\x00' ∉ text) (asserts : Bool) : Input :=
  ⟨text, h, .lsym, asserts, 64, fun _ _ => .ok false⟩

def localVariable : Input := .ofText "count:(0,1)".toList (by decide) true

def structLikeName : Input := .ofText "s1:(0,1)".toList (by decide) true

def charType : Input := .ofText "char:t(0,2)=r(0,2);0;127;".toList (by decide) true

def bareForwardType : Input := .ofText "a:t(0,1)=x:".toList (by decide) false

def pointerInGap : Input := .ofText "a:t(1,1)=*(2,1)".toList (by decide) true

end Runs

end ZeroBugs.Stabz.Parse
