import ZeroBugs.Interp.MultiplicativeExpr
import ZeroBugs.Typez.PointerType

/-! # Addition and subtraction -/
namespace ZeroBugs.Interp.AdditiveExpr

open Typez
open Interp.MultiplicativeExpr (u64 i64 dvd_i64_sub dvd_u64_sub dvd_sub_iff_eq
  dvd_u64_self storable_i64)

inductive Oper where
  | plus | minus
  deriving DecidableEq

def Oper.name : Oper → String
  | .plus => "+"
  | .minus => "-"

inductive Operand where
  | int (v : Variant)
  | pointer (type : PointerType) (v : PointerVariant)
  deriving DecidableEq

inductive Failure where
  | exn (e : Exn)
  | runtimeError (msg : String)
  | pointer (e : PointerError)
  deriving DecidableEq

def invalidTypes (oper : Oper) (names : String × String) : Failure :=
  .exn (.evalError ("invalid operands of types " ++ names.1 ++ " and " ++ names.2 ++
    " to operator " ++ oper.name))

/-- The accessor that fits the tag: each branch of the source tests for it first. -/
def integer (v : Variant) : Except Exn Int := if v.tag = .uint64 then uint64 v else int64 v

def addUint64Int (oper : Oper) (type : Tag) (lval rval : Variant) (negate : Bool) :
    Except Exn Variant := do
  let value ← uint64 lval
  let d ← integer rval
  match oper with
  | .plus => return variantAssign type (u64 (value + d))
  | .minus =>
    let value := u64 (value - d)
    return variantAssign type (if negate then u64 (-value) else value)

def addIntegers (oper : Oper) (lval rval : Variant) : Except Exn Variant := do
  let type := setIntType lval rval
  let value ← int64 lval
  let d ← int64 rval
  match oper with
  | .plus => return variantAssign type (i64 (value + d))
  | .minus => return variantAssign type (i64 (value - d))

def liftExn {α : Type} (x : Except Exn α) : Except Failure α := x.mapError .exn

def liftPointer {α : Type} (x : Except PointerError α) : Except Failure α := x.mapError .pointer

/-- `add_pointer_int`: the variant on the left is a pointer of the type. The difference
of two is a `size_t`, which has no use for the encoding. -/
def addPointerInt (errno : Int) (oper : Oper) (lval : PointerVariant) (rval : Operand)
    (type : PointerType) : Except Failure Operand := do
  let size : Int := type.pointedSize
  if size = 0 then throw (.runtimeError "pointer of type ‘void *’ used in arithmetic")
  let factor : Int := if oper = .plus then 1 else -1
  let value ← liftPointer (lval.pointer errno)
  match rval with
  | .pointer _ r =>
    let other ← liftPointer (r.pointer errno)
    return .int (variantAssign .uint64 (u64 (value - other) / size))
  | .int r =>
    let n ← liftExn (integer r)
    let result := type.variantAssign (u64 (value + factor * n * size))
    return .pointer type { result with encoding := lval.encoding }

def evalImpl (errno : Int) (names : String × String) (oper : Oper) (lval rval : Operand) :
    Except Failure Operand :=
  match lval, rval with
  | .pointer type l, .pointer _ _ =>
    if oper ≠ .minus then .error (invalidTypes oper names)
    else addPointerInt errno oper l rval type
  | .pointer type l, .int _ => addPointerInt errno oper l rval type
  | .int _, .pointer type r =>
    if oper = .minus then .error (invalidTypes oper names)
    else addPointerInt errno oper r lval type
  | .int l, .int r =>
    .int <$> liftExn (
      if l.tag = .uint64 then addUint64Int oper l.tag l r false
      else if r.tag = .uint64 then addUint64Int oper r.tag r l true
      else addIntegers oper l r)

def exact : Oper → Int → Int → Int
  | .plus, l, r => l + r
  | .minus, l, r => l - r

/-- The type of the wider operand, and of two of one width an unsigned one if there is
one. -/
structure IsResultType (l r t : Tag) : Prop where
  width_eq : t.width = max l.width r.width
  isSigned_eq : t.isSigned =
    if l.width = r.width then l.isSigned && r.isSigned
    else if l.width < r.width then r.isSigned else l.isSigned

def IsResidue (t : Tag) (x value : Int) : Prop :=
  ∀ y, t.Represents y ∧ (2 ^ t.width : Int) ∣ y - x ↔ y = value

theorem isResultType_setIntType (l r : Variant) :
    IsResultType l.tag r.tag (setIntType l r) := by
  obtain ⟨lt, lv, hl⟩ := l
  obtain ⟨rt, rv, hr⟩ := r
  cases lt <;> cases rt <;> exact ⟨rfl, rfl⟩

theorem isResultType_left {l r : Tag} (h : l = .uint64) : IsResultType l r l := by
  subst h
  cases r <;> exact ⟨rfl, rfl⟩

theorem isResultType_right {l r : Tag} (h : r = .uint64) : IsResultType l r r := by
  subst h
  cases l <;> exact ⟨rfl, rfl⟩

variable {t : Tag}

theorem isResultType_unique {l r t' : Tag} (h : IsResultType l r t) (h' : IsResultType r l t') :
    t = t' := by
  have hw : t.width = t'.width := by rw [h.width_eq, h'.width_eq, Nat.max_comm]
  have hs : t.isSigned = t'.isSigned := by
    rw [h.isSigned_eq, h'.isSigned_eq]
    rcases Nat.lt_trichotomy l.width r.width with hlt | heq | hlt
    · simp [hlt, Nat.ne_of_lt hlt, Nat.ne_of_gt hlt, Nat.lt_asymm hlt]
    · simp [heq, Bool.and_comm]
    · simp [hlt, Nat.ne_of_lt hlt, Nat.ne_of_gt hlt, Nat.lt_asymm hlt]
  have htype : t.type = t'.type := by rw [Tag.type, Tag.type, hw, hs]
  rw [← holder_type t, htype, holder_type]

theorem isResidue_convert {x y : Int} (h : (2 ^ t.width : Int) ∣ y - x) :
    IsResidue t x (t.convert y) := by
  intro z
  have hconv : (2 ^ t.width : Int) ∣ t.convert y - y := by
    have hself := (Tag.convert_eq_iff (Tag.represents_convert t y)).mp rfl
    rw [← Int.neg_sub]
    exact (Int.dvd_neg).mpr hself
  have hx : (2 ^ t.width : Int) ∣ t.convert y - x := by
    have hsum := Int.dvd_add hconv h
    rwa [show t.convert y - y + (y - x) = t.convert y - x by omega] at hsum
  constructor
  · intro hz
    obtain ⟨hz, hdvd⟩ := hz
    rw [← dvd_sub_iff_eq hz (Tag.represents_convert t y)]
    have hsub := Int.dvd_sub hdvd hx
    rwa [show z - x - (t.convert y - x) = z - t.convert y by omega] at hsub
  · intro hz
    subst hz
    exact ⟨Tag.represents_convert t y, hx⟩

def IsSum (oper : Oper) (l r x : Variant) : Prop :=
  IsResultType l.tag r.tag x.tag ∧ IsResidue x.tag (exact oper l.value r.value) x.value

variable {l r : Variant}

theorem isSum_variantAssign {oper : Oper} {v : Int}
    (ht : IsResultType l.tag r.tag t) (hs : Storable t v)
    (hv : (2 ^ t.width : Int) ∣ v - exact oper l.value r.value) :
    IsSum oper l r (variantAssign t v) := by
  rw [variantAssign_eq hs]
  exact ⟨ht, isResidue_convert hv⟩

theorem storable_u64 (ht : t = .uint64) (x : Int) : Storable t (u64 x) :=
  Or.inr ⟨ht, Tag.represents_convert _ _⟩

@[simp] theorem integer_eq (v : Variant) : integer v = .ok v.value := by
  unfold integer
  by_cases h : v.tag = .uint64
  · rw [if_pos h, uint64_of_tag h]
  · rw [if_neg h, int64_of_tag h]

theorem addUint64Int_eq (oper : Oper) (type : Tag) {lval : Variant} (rval : Variant)
    (negate : Bool) (h : lval.tag = .uint64) :
    addUint64Int oper type lval rval negate = .ok (variantAssign type (match oper with
      | .plus => u64 (lval.value + rval.value)
      | .minus => if negate then u64 (-u64 (lval.value - rval.value))
        else u64 (lval.value - rval.value))) := by
  rw [addUint64Int, uint64_of_tag h, integer_eq]
  cases oper <;> rfl

theorem isSum_addUint64Int_left (oper : Oper) (h : l.tag = .uint64) :
    ∃ x, addUint64Int oper l.tag l r false = .ok x ∧ IsSum oper l r x := by
  refine ⟨_, addUint64Int_eq oper _ r false h, isSum_variantAssign (isResultType_left h) ?_ ?_⟩
  · cases oper <;> exact storable_u64 h _
  · cases oper <;> exact dvd_u64_self _ _

theorem dvd_neg_u64_sub (t : Tag) (l r : Int) :
    (2 ^ t.width : Int) ∣ u64 (-u64 (r - l)) - (l - r) := by
  rw [dvd_u64_sub, ← Int.dvd_neg, show -(-u64 (r - l) - (l - r)) = u64 (r - l) - (r - l) by omega,
    dvd_u64_sub, Int.sub_self]
  exact Int.dvd_zero _

theorem isSum_addUint64Int_right (oper : Oper) (h : r.tag = .uint64) :
    ∃ x, addUint64Int oper r.tag r l true = .ok x ∧ IsSum oper l r x := by
  refine ⟨_, addUint64Int_eq oper _ l true h, isSum_variantAssign (isResultType_right h) ?_ ?_⟩
  · cases oper <;> exact storable_u64 h _
  · cases oper with
    | plus => exact Int.add_comm l.value _ ▸ dvd_u64_self _ _
    | minus => exact dvd_neg_u64_sub _ _ _

theorem isSum_addIntegers (oper : Oper) (hl : l.tag ≠ .uint64)
    (hr : r.tag ≠ .uint64) : ∃ x, addIntegers oper l r = .ok x ∧ IsSum oper l r x := by
  unfold addIntegers
  rw [int64_of_tag hl, int64_of_tag hr]
  have hsame : ∀ x : Int, (2 ^ (setIntType l r).width : Int) ∣ i64 x - x := fun x => by
    rw [dvd_i64_sub, Int.sub_self]
    exact Int.dvd_zero _
  cases oper <;> exact ⟨_, rfl, isSum_variantAssign (isResultType_setIntType l r)
    (storable_i64 _ _) (hsame _)⟩

theorem evalImpl_int_int (errno : Int) (names : String × String) (oper : Oper) (l r : Variant) :
    ∃ x, evalImpl errno names oper (.int l) (.int r) = .ok (.int x) ∧ IsSum oper l r x := by
  have hpath : ∃ x, (if l.tag = .uint64 then addUint64Int oper l.tag l r false
      else if r.tag = .uint64 then addUint64Int oper r.tag r l true
      else addIntegers oper l r) = .ok x ∧ IsSum oper l r x := by
    by_cases hl : l.tag = .uint64
    · rw [if_pos hl]
      exact isSum_addUint64Int_left oper hl
    · by_cases hr : r.tag = .uint64
      · rw [if_neg hl, if_pos hr]
        exact isSum_addUint64Int_right oper hr
      · rw [if_neg hl, if_neg hr]
        exact isSum_addIntegers oper hl hr
  obtain ⟨x, hx, hsum⟩ := hpath
  refine ⟨x, ?_, hsum⟩
  rw [evalImpl, hx]
  rfl

theorem isSum_plus_unique {x y : Variant} (hx : IsSum .plus l r x) (hy : IsSum .plus r l y) :
    x = y := by
  have htag := isResultType_unique hx.1 hy.1
  have hself := (hy.2 y.value).mpr rfl
  refine Variant.ext htag (((hx.2 y.value).mp ?_).symm)
  rw [htag, exact, Int.add_comm]
  exact hself

theorem evalImpl_int_sum (errno : Int) (names : String × String) (l r : Variant) :
    (∀ oper, ∃ x, evalImpl errno names oper (.int l) (.int r) = .ok (.int x) ∧
      IsResultType l.tag r.tag x.tag ∧ IsResidue x.tag (exact oper l.value r.value) x.value) ∧
    ∃ x, evalImpl errno names .plus (.int l) (.int r) = .ok (.int x) ∧
      evalImpl errno names .plus (.int r) (.int l) = .ok (.int x) := by
  refine ⟨fun oper => evalImpl_int_int errno names oper l r, ?_⟩
  obtain ⟨x, hx, hsum⟩ := evalImpl_int_int errno names .plus l r
  obtain ⟨y, hy, hsum'⟩ := evalImpl_int_int errno names .plus r l
  obtain rfl := isSum_plus_unique hsum hsum'
  exact ⟨x, hx, hy⟩

/-- The variant holds the address `p` as a pointer of the type. Only a null pointer to
characters that is read from the text `NULL` has another encoding than its type. -/
structure Holds (errno : Int) (type : PointerType) (v : PointerVariant) (p : Int) : Prop where
  encoding_eq : v.encoding = type.encoding
  pointer_eq : v.pointer errno = .ok p
  represents : Tag.uint64.Represents p

def Readable (errno : Int) (type : PointerType) (p : Int) : Prop :=
  ¬(type.isCString = true ∧ errno ≠ 0 ∧ p = 2 ^ 64 - 1)
  deriving Decidable

structure Laws (errno : Int) (names : String × String) (type : PointerType)
    (v : PointerVariant) (n : Variant) (p : Int) : Prop where
  add_sub_cancel : ∃ x, evalImpl errno names .plus (.pointer type v) (.int n) = .ok x ∧
    ∃ y, evalImpl errno names .minus x (.int n) = .ok (.pointer type y) ∧ Holds errno type y p
  add_comm : evalImpl errno names .plus (.int n) (.pointer type v) =
    evalImpl errno names .plus (.pointer type v) (.int n)
  add_sub_self : ∃ x, evalImpl errno names .plus (.pointer type v) (.int n) = .ok x ∧
    ∃ d, evalImpl errno names .minus x (.pointer type v) = .ok (.int d) ∧
      i64 d.value = i64 n.value

theorem holds_variantAssign {errno : Int} {type : PointerType} {p : Int}
    (hp : Tag.uint64.Represents p) :
    Holds errno type (type.variantAssign p) p ↔ Readable errno type p := by
  have hread := pointer_variantAssign errno type hp
  constructor
  · intro h hlast
    rw [if_pos hlast, h.pointer_eq] at hread
    cases hread
  · intro h
    rw [if_neg h] at hread
    exact ⟨encoding_variantAssign type p, hread, hp⟩

theorem pointer_of_not_readable {errno : Int} {type : PointerType} {p : Int}
    (hp : Tag.uint64.Represents p) (h : ¬Readable errno type p) :
    (type.variantAssign p).pointer errno = .error (.systemError "pointer" errno) := by
  rw [pointer_variantAssign errno type hp, if_pos (not_not.mp h)]

section Pointer

variable {errno : Int} {type : PointerType} {v w : PointerVariant} {p q : Int}

theorem addPointerInt_int (oper : Oper) (n : Variant) (hs : 0 < type.pointedSize)
    (hv : Holds errno type v p) :
    addPointerInt errno oper v (.int n) type = .ok (.pointer type
      (type.variantAssign (u64 (exact oper p (n.value * type.pointedSize))))) := by
  have hsize : ¬(type.pointedSize : Int) = 0 := by omega
  have hstored : ∀ a, { type.variantAssign a with encoding := v.encoding } =
      type.variantAssign a := by
    intro a
    rw [hv.encoding_eq, ← encoding_variantAssign type a]
  unfold addPointerInt
  rw [hv.pointer_eq]
  simp only [if_neg hsize, integer_eq]
  show Except.ok (Operand.pointer type { type.variantAssign _ with encoding := v.encoding }) = _
  rw [hstored]
  cases oper <;> simp [exact, Int.sub_eq_add_neg, Int.neg_mul]

theorem addPointerInt_pointer (hs : 0 < type.pointedSize) (hv : Holds errno type v p)
    (hw : Holds errno type w q) :
    addPointerInt errno .minus v (.pointer type w) type =
      .ok (.int (variantAssign .uint64 (u64 (p - q) / type.pointedSize))) := by
  have hsize : ¬(type.pointedSize : Int) = 0 := by omega
  unfold addPointerInt
  rw [hv.pointer_eq]
  simp only [if_neg hsize, hw.pointer_eq]
  rfl

theorem evalImpl_of_not_readable (names : String × String) (oper : Oper) (rval : Operand)
    (hs : 0 < type.pointedSize) (hp : Tag.uint64.Represents p) (h : ¬Readable errno type p)
    (hrval : ∀ t w, rval = .pointer t w → oper = .minus) :
    evalImpl errno names oper (.pointer type (type.variantAssign p)) rval =
      .error (.pointer (.systemError "pointer" errno)) := by
  have hsize : ¬(type.pointedSize : Int) = 0 := by omega
  have hadd : addPointerInt errno oper (type.variantAssign p) rval type =
      .error (.pointer (.systemError "pointer" errno)) := by
    unfold addPointerInt
    rw [pointer_of_not_readable hp h]
    simp only [if_neg hsize]
    rfl
  cases rval with
  | int n => exact hadd
  | pointer t w =>
    rw [evalImpl, if_neg (not_not.mpr (hrval t w rfl)), hadd]

theorem i64_quotient_iff {n s : Int} (hs : 0 < s) (hlo : -2 ^ 63 ≤ n * s) (hhi : n * s < 2 ^ 64) :
    i64 (u64 (n * s) / s) = i64 n ↔ 0 ≤ n ∨ s = 1 := by
  have hu : u64 (n * s) = n * s % 2 ^ 64 := rfl
  by_cases hn : 0 ≤ n
  · have hpos : 0 ≤ n * s := Int.mul_nonneg hn (Int.le_of_lt hs)
    rw [hu, Int.emod_eq_of_lt hpos hhi, Int.mul_ediv_cancel n (Int.ne_of_gt hs)]
    exact iff_of_true rfl (Or.inl hn)
  · have hneg : n * s ≤ -s := by
      have hle := Int.mul_le_mul_of_nonneg_right (show n ≤ -1 by omega) (Int.le_of_lt hs)
      omega
    have hmod : n * s % 2 ^ 64 = 2 ^ 64 + n * s := by omega
    rw [hu, hmod, Int.add_mul_ediv_right _ _ (Int.ne_of_gt hs)]
    have hconv : i64 (2 ^ 64 / s + n) = i64 n ↔ (2 ^ 64 : Int) ∣ 2 ^ 64 / s := by
      simp only [Tag.convert, Tag.width, Tag.isSigned, if_true]
      omega
    rw [hconv]
    constructor
    · intro hdvd
      refine Or.inr ?_
      by_contra hne
      have hle : 2 ^ 64 / s ≤ 2 ^ 63 := by
        have hlt := (Int.ediv_lt_iff_lt_mul hs).mpr (show (2 : Int) ^ 64 < (2 ^ 63 + 1) * s by
          have hmul := Int.mul_le_mul_of_nonneg_left (show 2 ≤ s by omega)
            (show (0 : Int) ≤ 2 ^ 63 + 1 by decide)
          omega)
        omega
      have hge : 1 ≤ 2 ^ 64 / s := MultiplicativeExpr.one_le_ediv hs (by omega)
      have hbound := Int.le_of_dvd (by omega) hdvd
      omega
    · intro h
      have h1 : s = 1 := h.resolve_left hn
      rw [h1]
      decide

theorem represents_quotient (x : Int) (hs : 0 < type.pointedSize) :
    Tag.uint64.Represents (u64 x / type.pointedSize) := by
  obtain ⟨hlo, hhi⟩ : Tag.uint64.Represents (u64 x) := Tag.represents_convert _ _
  exact ⟨Int.ediv_nonneg hlo (by omega), Int.lt_of_le_of_lt (Int.ediv_le_self _ hlo) hhi⟩

theorem value_quotient (x : Int) (hs : 0 < type.pointedSize) :
    (variantAssign .uint64 (u64 x / type.pointedSize)).value = u64 x / type.pointedSize := by
  have hrep := represents_quotient x hs
  rw [variantAssign_eq (Or.inr ⟨rfl, hrep⟩)]
  exact Tag.convert_of_represents hrep

end Pointer

def intPointer : PointerType := ⟨4, false⟩

theorem holds_intPointer : Holds 0 intPointer (intPointer.variantAssign 4096) 4096 :=
  (holds_variantAssign (by decide)).mpr (by decide)

end ZeroBugs.Interp.AdditiveExpr
