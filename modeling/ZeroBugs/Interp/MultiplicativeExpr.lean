import ZeroBugs.Interp.BinaryExpr

/-! # Multiplication, division and remainder of integers -/
namespace ZeroBugs.Interp.MultiplicativeExpr

open Typez

inductive Oper where
  | mul | div | mod
  deriving DecidableEq

abbrev u64 (x : Int) : Int := Tag.uint64.convert x
abbrev i64 (x : Int) : Int := Tag.int64.convert x

def divisionByZero : Exn := .evalError "division by zero"

/-- The branches of `eval_int_by_int`: the type they set and the number they leave.
The operators on numbers from 0 up are those of `uint64_t`. -/
def branch (oper : Oper) (lval rval : Variant) : Except Exn (Tag × Int) :=
  if lval.tag = .uint64 then do
    let v ← uint64 lval
    if rval.tag = .uint64 then
      let d ← uint64 rval
      match oper with
      | .mul => return (lval.tag, u64 (v * d))
      | .mod => if d ≠ 0 then return (lval.tag, v % d) else throw divisionByZero
      | .div => if d ≠ 0 then return (lval.tag, v / d) else throw divisionByZero
    else
      let d ← int64 rval
      match oper with
      | .mul => return (lval.tag, u64 (v * u64 d))
      -- no break: the remainder goes on to be divided
      | .mod => if d ≠ 0 then return (lval.tag, v % u64 d / u64 d) else throw divisionByZero
      | .div => if d ≠ 0 then return (lval.tag, v / u64 d) else throw divisionByZero
  else do
    let v ← int64 lval
    if rval.tag = .uint64 then
      let d ← uint64 rval
      match oper with
      | .mul => return (rval.tag, i64 (u64 (u64 v * d)))
      | .mod => if d ≠ 0 then return (rval.tag, i64 (u64 v % d)) else throw .sigfpe
      | .div => if d ≠ 0 then return (rval.tag, i64 (u64 v / d)) else throw divisionByZero
    else
      let d ← int64 rval
      let type := setIntType lval rval
      match oper with
      | .mul => return (type, i64 (v * d))
      | .mod =>
        if d = 0 ∨ v = -2 ^ 63 ∧ d = -1 then throw .sigfpe else return (type, v.tmod d)
      -- the divisor is a uint64_t
      | .div => if d ≠ 0 then return (type, i64 (u64 v / u64 d)) else throw divisionByZero

def evalIntByInt (oper : Oper) (lval rval : Variant) : Except Exn Variant := do
  let (type, v) ← branch oper lval rval
  return variantAssign type v

def exact : Oper → Int → Int → Int
  | .mul, l, r => l * r
  | .div, l, r => l.tdiv r
  | .mod, l, r => l.tmod r

def resultType (lval rval : Variant) : Tag :=
  if lval.tag = .uint64 then lval.tag
  else if rval.tag = .uint64 then rval.tag
  else setIntType lval rval

def InScope (oper : Oper) (lval rval : Variant) : Prop :=
  (resultType lval rval).Represents lval.value ∧ (resultType lval rval).Represents rval.value ∧
    (resultType lval rval).Represents (exact oper lval.value rval.value)

/-- Division by zero is an `EvalError`, and a result in scope is the mathematical one. -/
def Right (oper : Oper) (lval rval : Variant) : Prop :=
  if oper ≠ .mul ∧ rval.value = 0 then
    ∃ msg, evalIntByInt oper lval rval = .error (.evalError msg)
  else InScope oper lval rval → ∃ x, evalIntByInt oper lval rval = .ok x ∧
    x.tag = resultType lval rval ∧ x.value = exact oper lval.value rval.value

/-- The unsigned quotient of the 64-bit patterns is the signed one, modulo two to `w`. -/
def SameQuotient (w : Nat) (l r : Int) : Prop :=
  0 ≤ l ∧ 0 ≤ r ∨ 0 ≤ l ∧ r < 0 ∧ l < -r ∨ l < 0 ∧ r < 0 ∧ l = r ∨
    l < 0 ∧ 0 ≤ r ∧
      if -l % r ≤ 2 ^ 64 % r then (2 ^ w : Int) ∣ 2 ^ 64 / r else (2 ^ w : Int) ∣ 2 ^ 64 / r - 1

def Sound : Oper → Variant → Variant → Prop
  | .mul, _, _ => True
  | .div, lval, rval => rval.value ≠ 0 → InScope .div lval rval →
    SameQuotient (resultType lval rval).width lval.value rval.value
  | .mod, lval, rval =>
    if rval.value = 0 then lval.tag = .uint64
    else InScope .mod lval rval →
      (lval.tag = .uint64 → rval.tag ≠ .uint64 → lval.value % rval.value = 0) ∧
        ¬(lval.value = -2 ^ 63 ∧ rval.value = -1)

variable {x : Int}

theorem dvd_sub_iff_eq {t : Tag} {y : Int} (hx : t.Represents x) (hy : t.Represents y) :
    (2 ^ t.width : Int) ∣ x - y ↔ x = y := by
  rw [← Tag.convert_eq_iff hy, Tag.convert_of_represents hx]

theorem dvd_i64_sub (t : Tag) (x y : Int) :
    (2 ^ t.width : Int) ∣ i64 x - y ↔ (2 ^ t.width : Int) ∣ x - y := by
  cases t <;> simp only [Tag.convert, Tag.width, Tag.isSigned, if_true] <;> omega

theorem dvd_u64_sub (t : Tag) (x y : Int) :
    (2 ^ t.width : Int) ∣ u64 x - y ↔ (2 ^ t.width : Int) ∣ x - y := by
  cases t <;> simp only [Tag.convert, Tag.width, Tag.isSigned, Bool.false_eq_true, if_false]
    <;> omega

section

variable (hx : Tag.int64.Represents x)
include hx

theorem u64_eq :
    u64 x = if x < 0 then 2 ^ 64 + x else x := by
  simp only [Tag.Represents, Tag.convert, Tag.width, Tag.isSigned, Bool.false_eq_true, if_true,
    if_false] at hx ⊢
  split <;> omega

theorem u64_of_nonneg (h0 : 0 ≤ x) : u64 x = x := by
  rw [u64_eq hx, if_neg (Int.not_lt.mpr h0)]

theorem u64_of_neg (h0 : x < 0) :
    u64 x = 2 ^ 64 + x := by
  rw [u64_eq hx, if_pos h0]

theorem u64_pos (h0 : x ≠ 0) : 0 < u64 x := by
  have hlo : -2 ^ 63 ≤ x := hx.1
  rw [u64_eq hx]
  split <;> omega

end

theorem represents_tmod {l r : Int} (hr : Tag.int64.Represents r) (hr0 : r ≠ 0) :
    Tag.int64.Represents (l.tmod r) := by
  have habs := Int.natAbs_tmod l r
  have hlt := Nat.mod_lt l.natAbs (show 0 < r.natAbs by omega)
  simp only [Tag.Represents, Tag.width, Tag.isSigned, if_true] at hr ⊢
  omega

theorem represents_zero (t : Tag) : t.Represents 0 := by cases t <;> decide

theorem represents_one (t : Tag) : t.Represents 1 := by cases t <;> decide

variable {v : Variant}

theorem represents_int64 (h : v.tag ≠ .uint64) : Tag.int64.Represents v.value := by
  obtain ⟨tag, value, hv⟩ := v
  cases tag <;> simp only [Tag.Represents, Tag.width, Tag.isSigned, Bool.false_eq_true, if_true,
    if_false, ne_eq, not_true_eq_false] at hv h ⊢ <;> omega

theorem represents_uint64 (h : v.tag = .uint64) : Tag.uint64.Represents v.value :=
  h ▸ v.represents

theorem u64_of_tag (h : v.tag = .uint64) : u64 v.value = v.value :=
  Tag.convert_of_represents (represents_uint64 h)

theorem u64_value (h0 : 0 ≤ v.value) : u64 v.value = v.value := by
  by_cases h : v.tag = .uint64
  · exact u64_of_tag h
  · exact u64_of_nonneg (represents_int64 h) h0

theorem sub_ediv (m a : Int) {r : Int} (hr : 0 < r) :
    (m - a) / r + a / r = if a % r ≤ m % r then m / r else m / r - 1 := by
  have hr0 : r ≠ 0 := by omega
  have hm := Int.mul_ediv_add_emod m r
  have ha := Int.mul_ediv_add_emod a r
  have hm0 := Int.emod_nonneg m hr0
  have ha0 := Int.emod_nonneg a hr0
  have hmr := Int.emod_lt_of_pos m hr
  have har := Int.emod_lt_of_pos a hr
  have hsplit : m - a = m % r - a % r + (m / r - a / r) * r := by
    rw [Int.sub_mul, Int.mul_comm (m / r), Int.mul_comm (a / r)]
    omega
  rw [hsplit, Int.add_mul_ediv_right _ _ hr0]
  by_cases hle : a % r ≤ m % r
  · rw [if_pos hle, Int.ediv_eq_zero_of_lt (by omega) (by omega)]
    omega
  · rw [if_neg hle, Int.ediv_eq_neg_one_of_neg_of_le (by omega) (by omega)]
    omega

theorem one_le_ediv {a b : Int} (hb : 0 < b) (h : b ≤ a) : 1 ≤ a / b :=
  (Int.le_ediv_iff_mul_le hb).mpr (by omega)

section Quotient

variable {t : Tag} {l r : Int} (hl : Tag.int64.Represents l) (hr : Tag.int64.Represents r)

include hl hr

theorem quotient_nonneg_nonneg (hl0 : 0 ≤ l) (hr0 : 0 ≤ r) : u64 l / u64 r = l.tdiv r := by
  rw [u64_of_nonneg hl hl0, u64_of_nonneg hr hr0, Int.tdiv_eq_ediv_of_nonneg hl0]

theorem quotient_nonneg_neg (hq : t.Represents (l.tdiv r)) (hl0 : 0 ≤ l) (hr0 : r < 0) :
    (2 ^ t.width : Int) ∣ u64 l / u64 r - l.tdiv r ↔ l < -r := by
  have hzero : u64 l / u64 r = 0 := by
    rw [u64_of_nonneg hl hl0, u64_of_neg hr hr0]
    obtain ⟨-, hlt⟩ := hl
    obtain ⟨hge, -⟩ := hr
    simp only [Tag.width] at hlt hge
    exact Int.ediv_eq_zero_of_lt hl0 (by omega)
  have hdiv : l.tdiv r = -(l / -r) := by
    rw [← Int.tdiv_eq_ediv_of_nonneg hl0, Int.tdiv_neg, Int.neg_neg]
  rw [hzero, dvd_sub_iff_eq (represents_zero t) hq, hdiv]
  constructor
  · intro h
    by_contra hge
    have hone := one_le_ediv (show 0 < -r by omega) (Int.not_lt.mp hge)
    omega
  · intro h
    rw [Int.ediv_eq_zero_of_lt hl0 h]
    rfl

theorem quotient_neg_neg (hq : t.Represents (l.tdiv r)) (hl0 : l < 0) (hr0 : r < 0) :
    (2 ^ t.width : Int) ∣ u64 l / u64 r - l.tdiv r ↔ l = r := by
  have hdiv : l.tdiv r = -l / -r := by
    rw [← Int.tdiv_eq_ediv_of_nonneg (by omega), Int.tdiv_neg, Int.neg_tdiv, Int.neg_neg]
  rw [hdiv] at hq ⊢
  rw [u64_of_neg hl hl0, u64_of_neg hr hr0]
  obtain ⟨hlo, -⟩ := hl
  obtain ⟨hro, -⟩ := hr
  simp only [Tag.width] at hlo hro
  by_cases hle : r ≤ l
  · have hone : (2 ^ 64 + l) / (2 ^ 64 + r) = 1 := by
      refine Int.le_antisymm ?_ (one_le_ediv (by omega) (by omega))
      have h := (Int.ediv_lt_iff_lt_mul (show 0 < 2 ^ 64 + r by omega)).mpr
        (show 2 ^ 64 + l < 2 * (2 ^ 64 + r) by omega)
      omega
    rw [hone, dvd_sub_iff_eq (represents_one t) hq]
    constructor
    · intro h
      by_contra hne
      rw [Int.ediv_eq_zero_of_lt (by omega) (by omega)] at h
      exact absurd h (by decide)
    · intro h
      rw [h, Int.ediv_self (by omega)]
  · rw [Int.ediv_eq_zero_of_lt (by omega) (by omega), dvd_sub_iff_eq (represents_zero t) hq]
    have hone := one_le_ediv (show 0 < -r by omega) (show -r ≤ -l by omega)
    omega

theorem quotient_neg_nonneg (hl0 : l < 0) (hr0 : 0 < r) :
    u64 l / u64 r - l.tdiv r =
      if -l % r ≤ 2 ^ 64 % r then 2 ^ 64 / r else 2 ^ 64 / r - 1 := by
  have hdiv : l.tdiv r = -(-l / r) := by
    rw [← Int.tdiv_eq_ediv_of_nonneg (by omega), Int.neg_tdiv, Int.neg_neg]
  rw [u64_of_neg hl hl0, u64_of_nonneg hr (by omega), hdiv, ← sub_ediv (2 ^ 64) (-l) hr0]
  rw [Int.sub_neg, Int.sub_neg]

theorem sameQuotient_iff (hq : t.Represents (l.tdiv r)) (hr0 : r ≠ 0) :
    (2 ^ t.width : Int) ∣ u64 l / u64 r - l.tdiv r ↔ SameQuotient t.width l r := by
  unfold SameQuotient
  rcases Int.lt_or_le l 0 with hl0 | hl0
  · rcases Int.lt_or_le r 0 with hr0 | hr0
    · rw [quotient_neg_neg hl hr hq hl0 hr0]
      omega
    · rw [quotient_neg_nonneg hl hr hl0 (by omega)]
      have hsplit : ∀ c : Prop, (0 ≤ l ∧ 0 ≤ r ∨ 0 ≤ l ∧ r < 0 ∧ l < -r ∨ l < 0 ∧ r < 0 ∧ l = r ∨
          l < 0 ∧ 0 ≤ r ∧ c) ↔ c := by
        intro c
        by_cases hc : c
        · simp only [hc, and_true, iff_true]
          omega
        · simp only [hc, and_false, or_false, iff_false]
          omega
      rw [hsplit]
      split <;> rfl
  · rcases Int.lt_or_le r 0 with hr0 | hr0
    · rw [quotient_nonneg_neg hl hr hq hl0 hr0]
      omega
    · rw [quotient_nonneg_nonneg hl hr hl0 hr0, Int.sub_self]
      exact ⟨fun _ => Or.inl ⟨hl0, hr0⟩, fun _ => Int.dvd_zero _⟩

end Quotient

section Branches

variable {oper : Oper} {l r : Variant}

theorem branch_unsigned (hl : l.tag = .uint64) :
    branch oper l r = match oper with
      | .mul => .ok (.uint64, u64 (l.value * u64 r.value))
      | .mod => if r.value ≠ 0 then .ok (.uint64, if r.tag = .uint64 then l.value % u64 r.value
          else l.value % u64 r.value / u64 r.value)
        else .error divisionByZero
      | .div => if r.value ≠ 0 then .ok (.uint64, l.value / u64 r.value)
        else .error divisionByZero := by
  by_cases hr : r.tag = .uint64
  · cases oper <;> simp [branch, hl, hr, u64_of_tag hr, bind, Except.bind, pure, Except.pure,
      throw, throwThe, MonadExceptOf.throw]
  · cases oper <;> simp [branch, hl, hr, bind, Except.bind, pure, Except.pure, throw, throwThe,
      MonadExceptOf.throw]

theorem branch_other_unsigned (hl : l.tag ≠ .uint64) (hr : r.tag = .uint64) :
    branch oper l r = match oper with
      | .mul => .ok (.uint64, i64 (u64 (u64 l.value * r.value)))
      | .mod => if r.value ≠ 0 then .ok (.uint64, i64 (u64 l.value % r.value)) else .error .sigfpe
      | .div => if r.value ≠ 0 then .ok (.uint64, i64 (u64 l.value / r.value))
        else .error divisionByZero := by
  cases oper <;> simp [branch, hl, hr, bind, Except.bind, pure, Except.pure, throw, throwThe,
    MonadExceptOf.throw]

theorem branch_other_other (hl : l.tag ≠ .uint64) (hr : r.tag ≠ .uint64) :
    branch oper l r = match oper with
      | .mul => .ok (setIntType l r, i64 (l.value * r.value))
      | .mod => if r.value = 0 ∨ l.value = -2 ^ 63 ∧ r.value = -1 then .error .sigfpe
        else .ok (setIntType l r, l.value.tmod r.value)
      | .div => if r.value ≠ 0 then .ok (setIntType l r, i64 (u64 l.value / u64 r.value))
        else .error divisionByZero := by
  cases oper <;> simp [branch, hl, hr, bind, Except.bind, pure, Except.pure, throw, throwThe,
    MonadExceptOf.throw]

theorem eval_of_error {e : Exn} (h : branch oper l r = .error e) :
    evalIntByInt oper l r = .error e := by
  rw [evalIntByInt, h]
  rfl

theorem right_iff_of_ok {t : Tag} (ht : resultType l r = t) {v : Int}
    (hz : oper = .mul ∨ r.value ≠ 0) (hb : branch oper l r = .ok (t, v)) (hs : Storable t v) :
    Right oper l r ↔ (InScope oper l r →
      (2 ^ t.width : Int) ∣ v - exact oper l.value r.value) := by
  subst ht
  have heval : evalIntByInt oper l r =
      .ok ⟨resultType l r, (resultType l r).convert v, Tag.represents_convert _ _⟩ := by
    rw [evalIntByInt, hb, ← variantAssign_eq hs]
    rfl
  have hcase : ¬(oper ≠ .mul ∧ r.value = 0) := by
    intro h
    rcases hz with hmul | hne
    · exact h.1 hmul
    · exact hne h.2
  rw [Right, if_neg hcase, heval]
  refine forall_congr' fun hin => ?_
  rw [← Tag.convert_eq_iff hin.2.2]
  constructor
  · intro h
    obtain ⟨x, hx, -, hval⟩ := h
    cases hx
    exact hval
  · intro h
    exact ⟨_, rfl, rfl, h⟩

theorem right_zero_iff (hz : oper ≠ .mul ∧ r.value = 0) {e : Exn}
    (hb : branch oper l r = .error e) : Right oper l r ↔ ∃ msg, e = .evalError msg := by
  rw [Right, if_pos hz, eval_of_error hb]
  simp only [Except.error.injEq]

theorem resultType_unsigned (hu : l.tag = .uint64 ∨ r.tag = .uint64) :
    resultType l r = .uint64 := by
  by_cases hl : l.tag = .uint64
  · rw [resultType, if_pos hl, hl]
  · have hr := hu.resolve_left hl
    rw [resultType, if_neg hl, if_pos hr, hr]

theorem resultType_neither (hl : l.tag ≠ .uint64) (hr : r.tag ≠ .uint64) :
    resultType l r = setIntType l r := by
  rw [resultType, if_neg hl, if_neg hr]

theorem InScope.nonneg (h : InScope oper l r) (ht : resultType l r = .uint64) :
    0 ≤ l.value ∧ 0 ≤ r.value := by
  obtain ⟨hl, hr, -⟩ := h
  rw [ht] at hl hr
  exact ⟨hl.1, hr.1⟩

theorem storable_i64 (t : Tag) (x : Int) : Storable t (i64 x) :=
  Or.inl (Tag.represents_convert _ _)

theorem storable_u64 (x : Int) : Storable .uint64 (u64 x) :=
  Or.inr ⟨rfl, Tag.represents_convert _ _⟩

theorem dvd_u64_self (t : Tag) (x : Int) : (2 ^ t.width : Int) ∣ u64 x - x := by
  rw [dvd_u64_sub, Int.sub_self]
  exact Int.dvd_zero _

theorem right_mul : Right .mul l r := by
  by_cases hl : l.tag = .uint64
  · have hb : branch .mul l r = _ := branch_unsigned hl
    rw [right_iff_of_ok (resultType_unsigned (Or.inl hl)) (Or.inl rfl) hb (storable_u64 _),
      dvd_u64_sub, exact, ← Int.mul_sub]
    intro _
    exact Int.dvd_mul_of_dvd_right (dvd_u64_self .uint64 _)
  · by_cases hr : r.tag = .uint64
    · have hb : branch .mul l r = _ := branch_other_unsigned hl hr
      rw [right_iff_of_ok (resultType_unsigned (Or.inr hr)) (Or.inl rfl) hb (storable_i64 _ _),
        dvd_i64_sub, dvd_u64_sub, exact, ← Int.sub_mul]
      intro _
      exact Int.dvd_mul_of_dvd_left (dvd_u64_self .uint64 _)
    · have hb : branch .mul l r = _ := branch_other_other hl hr
      rw [right_iff_of_ok (resultType_neither hl hr) (Or.inl rfl) hb (storable_i64 _ _),
        dvd_i64_sub, exact, Int.sub_self]
      intro _
      exact Int.dvd_zero _

theorem branch_zero (hoper : oper ≠ .mul) (hr0 : r.value = 0) : branch oper l r =
    .error (if oper = .mod ∧ l.tag ≠ .uint64 then .sigfpe else divisionByZero) := by
  by_cases hl : l.tag = .uint64
  · cases oper <;> simp_all [branch_unsigned hl]
  · by_cases hr : r.tag = .uint64
    · cases oper <;> simp_all [branch_other_unsigned hl hr]
    · cases oper <;> simp_all [branch_other_other hl hr]

theorem storable_ediv (x y : Int) : Storable .uint64 (u64 x / u64 y) := by
  obtain ⟨hlo, hhi⟩ : Tag.uint64.Represents (u64 x) := Tag.represents_convert _ _
  refine Or.inr ⟨rfl, Int.ediv_nonneg hlo (Tag.represents_convert .uint64 y).1, ?_⟩
  exact Int.lt_of_le_of_lt (Int.ediv_le_self _ hlo) hhi

theorem branch_div (hr0 : r.value ≠ 0) : ∃ v, branch .div l r = .ok (resultType l r, v) ∧
    Storable (resultType l r) v ∧ ∀ x, (2 ^ (resultType l r).width : Int) ∣ v - x ↔
      (2 ^ (resultType l r).width : Int) ∣ u64 l.value / u64 r.value - x := by
  by_cases hl : l.tag = .uint64
  · refine ⟨u64 l.value / u64 r.value, ?_, ?_, fun _ => Iff.rfl⟩
    · rw [branch_unsigned hl, resultType_unsigned (Or.inl hl), u64_of_tag hl]
      exact if_pos hr0
    · rw [resultType_unsigned (Or.inl hl)]
      exact storable_ediv _ _
  · refine ⟨i64 (u64 l.value / u64 r.value), ?_, storable_i64 _ _, dvd_i64_sub _ _⟩
    by_cases hr : r.tag = .uint64
    · rw [branch_other_unsigned hl hr, resultType_unsigned (Or.inr hr), u64_of_tag hr]
      exact if_pos hr0
    · rw [branch_other_other hl hr, resultType_neither hl hr]
      exact if_pos hr0

theorem right_div_iff : Right .div l r ↔ Sound .div l r := by
  by_cases hr0 : r.value = 0
  · rw [right_zero_iff ⟨by decide, hr0⟩ (branch_zero (by decide) hr0)]
    exact ⟨fun _ h => absurd hr0 h, fun _ => ⟨_, rfl⟩⟩
  obtain ⟨v, hb, hs, hv⟩ := branch_div (l := l) hr0
  rw [right_iff_of_ok rfl (Or.inr hr0) hb hs, hv, exact, Sound, forall_prop_of_true hr0]
  refine forall_congr' fun hin => ?_
  by_cases hu : l.tag = .uint64 ∨ r.tag = .uint64
  · have hpos := hin.nonneg (resultType_unsigned hu)
    rw [u64_value hpos.1, u64_value hpos.2, Int.tdiv_eq_ediv_of_nonneg hpos.1, Int.sub_self]
    exact iff_of_true (Int.dvd_zero _) (Or.inl hpos)
  · obtain ⟨hl, hr⟩ := not_or.mp hu
    exact sameQuotient_iff (represents_int64 hl) (represents_int64 hr) hin.2.2 hr0

theorem right_mod_by_unsigned (hr : r.tag = .uint64) (hr0 : r.value ≠ 0) : Right .mod l r := by
  have ht := resultType_unsigned (l := l) (Or.inr hr)
  have hsame : InScope .mod l r →
      (2 ^ Tag.uint64.width : Int) ∣ u64 l.value % r.value - exact .mod l.value r.value := by
    intro hin
    obtain ⟨hl0, -⟩ := hin.nonneg ht
    rw [u64_value hl0, exact, Int.tmod_eq_emod_of_nonneg hl0, Int.sub_self]
    exact Int.dvd_zero _
  by_cases hl : l.tag = .uint64
  · have hb : branch .mod l r = .ok (.uint64, u64 l.value % r.value) := by
      rw [branch_unsigned hl, u64_of_tag hl, u64_of_tag hr]
      simp [hr0, hr]
    obtain ⟨hlo, hhi⟩ := represents_uint64 hr
    have hlt := Int.emod_lt_of_pos (u64 l.value) (show 0 < r.value by omega)
    have hs : Storable .uint64 (u64 l.value % r.value) :=
      Or.inr ⟨rfl, Int.emod_nonneg _ hr0, Int.lt_trans hlt hhi⟩
    rwa [right_iff_of_ok ht (Or.inr hr0) hb hs]
  · have hb : branch .mod l r = .ok (.uint64, i64 (u64 l.value % r.value)) := by
      rw [branch_other_unsigned hl hr]
      exact if_pos hr0
    rwa [right_iff_of_ok ht (Or.inr hr0) hb (storable_i64 _ _), dvd_i64_sub]

theorem right_mod_unsigned_other (hl : l.tag = .uint64) (hr : r.tag ≠ .uint64)
    (hr0 : r.value ≠ 0) :
    Right .mod l r ↔ (InScope .mod l r → l.value % r.value = 0) := by
  have ht := resultType_unsigned (r := r) (Or.inl hl)
  have hpos := u64_pos (represents_int64 hr) hr0
  have hb : branch .mod l r = .ok (.uint64, 0) := by
    rw [branch_unsigned hl]
    simp [hr0, hr, Int.ediv_eq_zero_of_lt (Int.emod_nonneg _ (Int.ne_of_gt hpos))
      (Int.emod_lt_of_pos _ hpos)]
  rw [right_iff_of_ok ht (Or.inr hr0) hb (Or.inl (represents_zero _))]
  refine forall_congr' fun hin => ?_
  have hrep := hin.2.2
  rw [ht] at hrep
  rw [dvd_sub_iff_eq (represents_zero _) hrep, exact,
    Int.tmod_eq_emod_of_nonneg (represents_uint64 hl).1]
  exact eq_comm

theorem right_mod_other_other (hl : l.tag ≠ .uint64) (hr : r.tag ≠ .uint64)
    (hr0 : r.value ≠ 0) :
    Right .mod l r ↔ (InScope .mod l r → ¬(l.value = -2 ^ 63 ∧ r.value = -1)) := by
  by_cases htrap : l.value = -2 ^ 63 ∧ r.value = -1
  · have hb : branch .mod l r = .error .sigfpe := by
      rw [branch_other_other hl hr]
      exact if_pos (Or.inr htrap)
    rw [Right, if_neg fun h => hr0 h.2, eval_of_error hb]
    simp [htrap]
  · have hb : branch .mod l r = .ok (setIntType l r, l.value.tmod r.value) := by
      rw [branch_other_other hl hr]
      exact if_neg (not_or.mpr ⟨hr0, htrap⟩)
    have hs : Storable (setIntType l r) (l.value.tmod r.value) :=
      Or.inl (represents_tmod (represents_int64 hr) hr0)
    rw [right_iff_of_ok (resultType_neither hl hr) (Or.inr hr0) hb hs, exact, Int.sub_self]
    exact iff_of_true (fun _ => Int.dvd_zero _) fun _ => htrap

theorem right_mod_iff : Right .mod l r ↔ Sound .mod l r := by
  by_cases hr0 : r.value = 0
  · rw [right_zero_iff ⟨by decide, hr0⟩ (branch_zero (by decide) hr0)]
    simp only [Sound, if_pos hr0]
    by_cases hl : l.tag = .uint64 <;> simp [hl, divisionByZero]
  simp only [Sound, if_neg hr0]
  have hnotrap : l.tag = .uint64 ∨ r.tag = .uint64 → ¬(l.value = -2 ^ 63 ∧ r.value = -1) := by
    rintro (h | h) htrap
    · exact absurd (represents_uint64 h).1 (by omega)
    · exact absurd (represents_uint64 h).1 (by omega)
  by_cases hr : r.tag = .uint64
  · exact iff_of_true (right_mod_by_unsigned hr hr0)
      fun _ => ⟨fun _ h => absurd hr h, hnotrap (Or.inr hr)⟩
  by_cases hl : l.tag = .uint64
  · rw [right_mod_unsigned_other hl hr hr0]
    exact ⟨fun h hin => ⟨fun _ _ => h hin, hnotrap (Or.inl hl)⟩, fun h hin => (h hin).1 hl hr⟩
  · rw [right_mod_other_other hl hr hr0]
    exact ⟨fun h hin => ⟨fun h' => absurd h' hl, h hin⟩, fun h hin => (h hin).2⟩

end Branches

theorem eval_right_iff (oper : Oper) (l r : Variant) : Right oper l r ↔ Sound oper l r := by
  cases oper with
  | mul => exact iff_of_true right_mul trivial
  | div => exact right_div_iff
  | mod => exact right_mod_iff

def ofInt (t : Tag) (x : Int) : Variant := ⟨t, t.convert x, Tag.represents_convert t x⟩

theorem division_not_exact :
    evalIntByInt .div (ofInt .int32 (-7)) (ofInt .int32 2) = .ok (ofInt .int32 (-4)) ∧
    InScope .div (ofInt .int32 (-7)) (ofInt .int32 2) ∧ exact .div (-7) 2 = -3 ∧
    evalIntByInt .mod (ofInt .int32 7) (ofInt .int32 0) = .error .sigfpe ∧
    evalIntByInt .mod (ofInt .uint64 7) (ofInt .int32 4) = .ok (ofInt .uint64 0) ∧
    InScope .mod (ofInt .uint64 7) (ofInt .int32 4) ∧ exact .mod 7 4 = 3 := by
  refine ⟨by decide +kernel, ⟨by decide, by decide, by decide⟩, rfl, rfl, by decide +kernel,
    ⟨by decide, by decide, by decide⟩, rfl⟩

end ZeroBugs.Interp.MultiplicativeExpr
