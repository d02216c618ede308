import ScuDb.Lib.MachineInt
import ScuDb.Type.Value

/-!
# Integer arithmetic

The templates of `IntegerParentType` compute in the promoted type of their operands and test the
result afterwards.  For operands that are not NULL the tests find exactly the results that the wider
type does not have; they let its least integer pass, which is the NULL constant.
-/

namespace ScuDb

open ByteMem LittleEndian MachineInt

/-- The arithmetic operators. -/
inductive Operator
  | add
  | subtract
  | multiply
  | divide
  | modulo
deriving DecidableEq, Repr

/-- What an operator means for integers. -/
def Operator.exact : Operator → ℤ → ℤ → ℤ
  | .add => (· + ·)
  | .subtract => (· - ·)
  | .multiply => (· * ·)
  | .divide => Int.tdiv
  | .modulo => Int.tmod

/-- TINYINT, SMALLINT, INTEGER and BIGINT. -/
def TypeId.IsInteger (type : TypeId) : Prop :=
  type = .tinyint ∨ type = .smallint ∨ type = .integer ∨ type = .bigint

/-- The wider of two types. -/
def TypeId.wider (s t : TypeId) : TypeId := if t.width ≤ s.width then s else t

namespace Value

/-- `CheckInteger`. -/
def checkInteger (v : Value) : Bool :=
  match v.typeId with
  | .tinyint | .smallint | .integer | .bigint => true
  | _ => false

/-- `CheckComparable`. -/
def checkComparable (v o : Value) : Bool :=
  match v.typeId with
  | .boolean =>
    match o.typeId with
    | .boolean | .varchar => true
    | _ => false
  | .tinyint | .smallint | .integer | .bigint | .decimal =>
    match o.typeId with
    | .tinyint | .smallint | .integer | .bigint | .decimal | .varchar => true
    | _ => false
  | .varchar => true
  | _ => false

/-- `IsZero`, which VARCHAR does not implement; a DECIMAL has two zeros. -/
def isZero (v : Value) : Except Failure Bool :=
  match v.typeId with
  | .tinyint | .smallint | .integer | .bigint => .ok (v.getAs v.typeId.width = 0)
  | .decimal => .ok (v.getAs 8 = 0 ∨ v.getAs 8 = -2 ^ 63)
  | .timestamp => .error (.fault .nullDeref)
  | _ => .error (.exception .notImplemented)

/-- `OperateNull` of the integer types: the NULL of the wider type. -/
def operateNull (left right : Value) (old : Mem 8) : Except Failure Value :=
  match right.typeId with
  | .tinyint | .smallint | .integer | .bigint =>
    let type := left.typeId.wider right.typeId
    ofInteger type type.null old
  | .decimal => ofDouble .decimal 18442240474082181119 old
  | _ => .error (.exception .invalid)

/-! ## The templates -/

/-- The width of `x + y`: both operands are promoted, to `int` at least. -/
def promoted (w1 w2 : ℕ) : ℕ := max 4 (max w1 w2)

/-- The body of `AddValue`, `SubtractValue` and `MultiplyValue` for operands of `w1` and `w2` bytes;
`overflow x y r` is the test on the result `r`. -/
def checkedValue (op : ℤ → ℤ → ℤ) (overflow : ℤ → ℤ → ℤ → Bool) (w1 w2 : ℕ) (left right : Value)
    (old : Mem 8) : Except Failure Value :=
  let x := left.getAs w1
  let y := right.getAs w2
  let r := wrap (promoted w1 w2) (op x y)
  let r1 := wrap w1 r
  let r2 := wrap w2 r
  if r ≠ r1 ∧ r ≠ r2 then .error (.exception .outOfRange)
  else if w2 ≤ w1 then
    if overflow x y r1 then .error (.exception .outOfRange)
    else ofInteger left.typeId r1 old
  else if overflow x y r2 then .error (.exception .outOfRange)
  else ofInteger right.typeId r2 old

/-- `AddValue`. -/
def addValue : ℕ → ℕ → Value → Value → Mem 8 → Except Failure Value :=
  checkedValue (· + ·) fun x y sum =>
    decide (0 < x ∧ 0 < y ∧ sum < 0 ∨ x < 0 ∧ y < 0 ∧ 0 < sum)

/-- `SubtractValue`. -/
def subtractValue : ℕ → ℕ → Value → Value → Mem 8 → Except Failure Value :=
  checkedValue (· - ·) fun x y diff =>
    decide (0 < x ∧ y < 0 ∧ diff < 0 ∨ x < 0 ∧ 0 < y ∧ 0 < diff)

/-- `MultiplyValue`. -/
def multiplyValue : ℕ → ℕ → Value → Value → Mem 8 → Except Failure Value :=
  checkedValue (· * ·) fun x y prod => decide (y ≠ 0 ∧ prod.tdiv y ≠ x)

/-- The body of `DivideValue` and `ModuloValue`. -/
def quotientValue (op : ℤ → ℤ → ℤ) (w1 w2 : ℕ) (left right : Value) (old : Mem 8) :
    Except Failure Value :=
  let x := left.getAs w1
  let y := right.getAs w2
  if y = 0 then .error (.exception .divideByZero)
  else
    let quot := wrap (promoted w1 w2) (op x y)
    if w2 ≤ w1 then ofInteger left.typeId (wrap w1 quot) old
    else ofInteger right.typeId (wrap w2 quot) old

/-- `DivideValue`. -/
def divideValue : ℕ → ℕ → Value → Value → Mem 8 → Except Failure Value := quotientValue Int.tdiv

/-- `ModuloValue`. -/
def moduloValue : ℕ → ℕ → Value → Value → Mem 8 → Except Failure Value := quotientValue Int.tmod

/-! ## The calls -/

/-- What a call does with operands that are not integers: the arithmetic of `double`, `CastAs` of a
VARCHAR, and the classes of the other left operands. -/
structure OtherTypes where
  decimal : Operator → Value → Value → Except Failure Value
  castAs : Value → TypeId → Except Failure Value
  call : Operator → Value → Value → Except Failure Value

variable (other : OtherTypes) (old : Mem 8)

/-- `TINYINT_MODIFY_FUNC`, `SMALLINT_MODIFY_FUNC`, `INT_MODIFY_FUNC` and `BIGINT_MODIFY_FUNC`, and
the switch of `Modulo`: `self` is the type of the class. -/
def modifyFunc (self : TypeId) (op : Operator)
    (method : ℕ → ℕ → Value → Value → Mem 8 → Except Failure Value) (left right : Value) :
    Except Failure Value :=
  match right.typeId with
  | .tinyint => method self.width 1 left right old
  | .smallint => method self.width 2 left right old
  | .integer => method self.width 4 left right old
  | .bigint => method self.width 8 left right old
  | .decimal => other.decimal op left right
  | .varchar => do
    let rValue ← other.castAs right self
    method self.width self.width left rValue old
  | _ => .error (.exception .invalid)

/-- `Add`, `Subtract` and `Multiply` of the integer classes. -/
def integerCall (op : Operator) (method : ℕ → ℕ → Value → Value → Mem 8 → Except Failure Value)
    (left right : Value) : Except Failure Value :=
  if ¬ (left.checkInteger ∧ left.checkComparable right) then .error (.fault .assertion)
  else if left.isNull ∨ right.isNull then left.operateNull right old
  else modifyFunc other old left.typeId op method left right

/-- `Divide` and `Modulo` of the integer classes. -/
def integerQuotient (op : Operator)
    (method : ℕ → ℕ → Value → Value → Mem 8 → Except Failure Value) (left right : Value) :
    Except Failure Value :=
  if ¬ (left.checkInteger ∧ left.checkComparable right) then .error (.fault .assertion)
  else if left.isNull ∨ right.isNull then left.operateNull right old
  else do
    if ← right.isZero then .error (.exception .divideByZero)
    else modifyFunc other old left.typeId op method left right

/-- A call on the class of the left operand. -/
def dispatch (op : Operator) (call : Value → Value → Except Failure Value) (left right : Value) :
    Except Failure Value :=
  if left.checkInteger then call left right else other.call op left right

/-- `Add`. -/
def add : Value → Value → Except Failure Value :=
  dispatch other .add (integerCall other old .add addValue)

/-- `Subtract`. -/
def subtract : Value → Value → Except Failure Value :=
  dispatch other .subtract (integerCall other old .subtract subtractValue)

/-- `Multiply`. -/
def multiply : Value → Value → Except Failure Value :=
  dispatch other .multiply (integerCall other old .multiply multiplyValue)

/-- `Divide`. -/
def divide : Value → Value → Except Failure Value :=
  dispatch other .divide (integerQuotient other old .divide divideValue)

/-- `Modulo`. -/
def modulo : Value → Value → Except Failure Value :=
  dispatch other .modulo (integerQuotient other old .modulo moduloValue)

/-- The function of an operator. -/
def operate : Operator → Value → Value → Except Failure Value
  | .add => add other old
  | .subtract => subtract other old
  | .multiply => multiply other old
  | .divide => divide other old
  | .modulo => modulo other old

/-! ## Exact results -/

/-- The number that a value of a fixed width stores. -/
def number (v : Value) : ℤ := v.getAs v.typeId.width

/-- A non-NULL integer: its number lies in `[PELOTON_INTw_MIN, PELOTON_INTw_MAX]`. -/
structure NonNull (v : Value) : Prop where
  integer : v.checkInteger
  flag : v.isNull = false
  number : NonMin v.typeId.width v.number

variable {other : OtherTypes} {old : Mem 8} {left right : Value}

/-- The tests of the templates find the results that the wider type does not have. -/
theorem checkedValue_eq {op : ℤ → ℤ → ℤ} {overflow : ℤ → ℤ → ℤ → Bool} {w1 w2 : ℕ}
    (width : max w1 w2 ≤ 2 ∨ 4 ≤ max w1 w2) {x y : ℤ} (hx : left.getAs w1 = x)
    (hy : right.getAs w2 = y) (narrow : max w1 w2 ≤ 2 → IsInt 4 (op x y))
    (detect : overflow x y (wrap (max w1 w2) (op x y)) = true ↔ ¬ IsInt (max w1 w2) (op x y)) :
    checkedValue op overflow w1 w2 left right old =
      if IsInt (max w1 w2) (op x y) then
        ofInteger (if w2 ≤ w1 then left.typeId else right.typeId) (op x y) old
      else .error (.exception .outOfRange) := by
  unfold checkedValue
  simp only [hx, hy]
  generalize op x y = z at *
  by_cases fits : IsInt (max w1 w2) z
  · have quiet : overflow x y z = false := by
      rw [wrap_of_isInt fits] at detect
      simpa [fits] using detect
    have exact' : wrap (promoted w1 w2) z = z := wrap_of_isInt (fits.mono (le_max_right _ _))
    rw [if_pos fits, exact']
    by_cases le : w2 ≤ w1
    · rw [max_eq_left le] at fits
      simp only [wrap_of_isInt fits, le, quiet, if_true]
      simp
    · rw [max_eq_right (not_le.1 le).le] at fits
      simp only [wrap_of_isInt fits, le, quiet, if_false]
      simp
  · rw [if_neg fits]
    rcases width with small | large
    · have exact' : wrap (promoted w1 w2) z = z := by
        rw [promoted, max_eq_left (small.trans (by decide))]
        exact wrap_of_isInt (narrow small)
      have first : z ≠ wrap w1 z := fun e =>
        fits ((wrap_eq_iff.1 e.symm).mono (le_max_left _ _))
      have second : z ≠ wrap w2 z := fun e =>
        fits ((wrap_eq_iff.1 e.symm).mono (le_max_right _ _))
      rw [exact', if_pos ⟨first, second⟩]
    · have wide : promoted w1 w2 = max w1 w2 := max_eq_right large
      have found := detect.2 fits
      rw [wide]
      by_cases le : w2 ≤ w1
      · rw [max_eq_left le] at found ⊢
        simp only [wrap_wrap, le, found, if_true]
        simp
      · rw [max_eq_right (not_le.1 le).le] at found ⊢
        simp only [wrap_wrap, le, found, if_true, if_false]
        simp

/-- Quotients and remainders fit the wider type. -/
theorem quotientValue_eq {op : ℤ → ℤ → ℤ} {w1 w2 : ℕ} {x y : ℤ} (hx : left.getAs w1 = x)
    (hy : right.getAs w2 = y) (nonzero : y ≠ 0) (fits : IsInt w1 (op x y)) :
    quotientValue op w1 w2 left right old =
      ofInteger (if w2 ≤ w1 then left.typeId else right.typeId) (op x y) old := by
  unfold quotientValue
  simp only [hx, hy, if_neg nonzero]
  have wide : wrap (promoted w1 w2) (op x y) = op x y :=
    wrap_of_isInt (fits.mono ((le_max_left _ _).trans (le_max_right _ _)))
  rw [wide]
  by_cases le : w2 ≤ w1
  · simp only [le, if_true, wrap_of_isInt fits]
  · simp only [le, if_false, wrap_of_isInt (fits.mono (not_le.1 le).le)]

/-! ## The integer types -/

theorem checkInteger_iff (v : Value) : v.checkInteger = true ↔ v.typeId.IsInteger := by
  unfold checkInteger TypeId.IsInteger
  cases v.typeId <;> simp

theorem two_mul_null {v : Value} (h : v.checkInteger) :
    2 * v.typeId.null = -256 ^ v.typeId.width := by
  rcases (checkInteger_iff v).1 h with e | e | e | e <;> rw [e] <;> decide

theorem getAs_isInt (v : Value) (w : ℕ) : IsInt w (v.getAs w) := by
  have length : (v.member w).length = w := by
    unfold member
    rw [Mem.length_slice]
  unfold getAs intValue
  rw [length]
  exact wrap_isInt w _

/-- A flag that agrees with the number. -/
theorem nonNull_iff {v : Value} (h : v.checkInteger) (agrees : v.FlagAgrees) :
    v.NonNull ↔ v.number ≠ v.typeId.null := by
  have fixed : v.typeId ≠ .varchar := by
    rcases (checkInteger_iff v).1 h with e | e | e | e <;> simp [e]
  have flag := agrees fixed
  constructor
  · intro nonNull null
    have marked := flag.2 null
    rw [nonNull.flag] at marked
    cases marked
  · intro ne
    refine ⟨h, ?_, (getAs_isInt v _).nonMin fun least => ne ?_⟩
    · rw [← Bool.not_eq_true, flag]
      exact ne
    · have null := two_mul_null h
      unfold number
      omega

/-- A number of an integer type as a value. -/
theorem ofInteger_number (old : Mem 8) {type : TypeId} (h : type.IsInteger) {i : ℤ}
    (fits : IsInt type.width i) :
    ∃ v, ofInteger type i old = .ok v ∧ v.typeId = type ∧ v.number = i ∧
      (v.NonNull ↔ i ≠ type.null) := by
  have stored : (setMember type type i old).number = i := by
    change intValue ((setMember type type i old).member type.width) = i
    rw [member_setMember, intValue_intBytes]
    exact wrap_of_isInt fits
  refine ⟨setMember type type i old, ?_, rfl, stored, ?_⟩
  · rcases h with rfl | rfl | rfl | rfl <;> rfl
  · rw [nonNull_iff ((checkInteger_iff _).2 h) (flagAgrees_setMember type i old), stored]
    rfl

theorem NonNull.comparable (hl : left.NonNull) (hr : right.NonNull) :
    left.checkInteger ∧ left.checkComparable right := by
  refine ⟨hl.integer, ?_⟩
  unfold checkComparable
  rcases (checkInteger_iff left).1 hl.integer with e | e | e | e <;>
    rcases (checkInteger_iff right).1 hr.integer with e' | e' | e' | e' <;> rw [e, e']

theorem modifyFunc_eq (hr : right.checkInteger) (self : TypeId) (op : Operator)
    (method : ℕ → ℕ → Value → Value → Mem 8 → Except Failure Value) :
    modifyFunc other old self op method left right =
      method self.width right.typeId.width left right old := by
  unfold modifyFunc
  rcases (checkInteger_iff right).1 hr with e | e | e | e <;> rw [e] <;> rfl

theorem integerCall_eq (hl : left.NonNull) (hr : right.NonNull) (op : Operator)
    (method : ℕ → ℕ → Value → Value → Mem 8 → Except Failure Value) :
    dispatch other op (integerCall other old op method) left right =
      method left.typeId.width right.typeId.width left right old := by
  unfold dispatch integerCall
  rw [if_pos hl.integer, if_neg (not_not.2 (hl.comparable hr)), modifyFunc_eq hr.integer, if_neg]
  rw [hl.flag, hr.flag]
  decide

theorem integerQuotient_eq (hl : left.NonNull) (hr : right.NonNull) (op : Operator)
    (method : ℕ → ℕ → Value → Value → Mem 8 → Except Failure Value) :
    dispatch other op (integerQuotient other old op method) left right =
      if right.number = 0 then .error (.exception .divideByZero)
      else method left.typeId.width right.typeId.width left right old := by
  have zero : right.isZero = .ok (decide (right.number = 0)) := by
    unfold isZero number
    rcases (checkInteger_iff right).1 hr.integer with e | e | e | e <;> rw [e]
  unfold dispatch integerQuotient
  rw [if_pos hl.integer, if_neg (not_not.2 (hl.comparable hr)), modifyFunc_eq hr.integer, if_neg,
    zero]
  · change (if decide (right.number = 0) = true then _ else _) = _
    simp only [decide_eq_true_eq]
  · rw [hl.flag, hr.flag]
    decide

/-! ## The five operators -/

theorem width_wider (s t : TypeId) : (s.wider t).width = max s.width t.width := by
  unfold TypeId.wider
  split_ifs with le
  · exact (max_eq_left le).symm
  · exact (max_eq_right (not_le.1 le).le).symm

theorem isInteger_wider {s t : TypeId} (hs : s.IsInteger) (ht : t.IsInteger) :
    (s.wider t).IsInteger := by
  unfold TypeId.wider
  split_ifs
  · exact hs
  · exact ht

/-- Widths below four bytes are promoted to at least twice the bytes. -/
theorem narrow_or_wide {s t : TypeId} (hs : s.IsInteger) (ht : t.IsInteger) :
    max s.width t.width ≤ 2 ∨ 4 ≤ max s.width t.width := by
  rcases hs with rfl | rfl | rfl | rfl <;> rcases ht with rfl | rfl | rfl | rfl <;> decide

/-- `Add`, `Subtract` and `Multiply`, given what their test finds. -/
theorem checkedCall_eq (hl : left.NonNull) (hr : right.NonNull) (o : Operator) {op : ℤ → ℤ → ℤ}
    {overflow : ℤ → ℤ → ℤ → Bool}
    (narrow : ∀ w ≤ 2, NonMin w left.number → NonMin w right.number →
      IsInt 4 (op left.number right.number))
    (detect : ∀ w, NonMin w left.number → NonMin w right.number →
      (overflow left.number right.number (wrap w (op left.number right.number)) = true ↔
        ¬ IsInt w (op left.number right.number))) :
    dispatch other o (integerCall other old o (checkedValue op overflow)) left right =
      if IsInt (left.typeId.wider right.typeId).width (op left.number right.number) then
        ofInteger (left.typeId.wider right.typeId) (op left.number right.number) old
      else .error (.exception .outOfRange) := by
  have il := (checkInteger_iff left).1 hl.integer
  have ir := (checkInteger_iff right).1 hr.integer
  have bl := hl.number.mono (le_max_left left.typeId.width right.typeId.width)
  have br := hr.number.mono (le_max_right left.typeId.width right.typeId.width)
  rw [integerCall_eq hl hr, width_wider]
  exact checkedValue_eq (narrow_or_wide il ir) rfl rfl (fun small => narrow _ small bl br)
    (detect _ bl br)

theorem add_eq (hl : left.NonNull) (hr : right.NonNull) :
    add other old left right =
      if IsInt (left.typeId.wider right.typeId).width (left.number + right.number) then
        ofInteger (left.typeId.wider right.typeId) (left.number + right.number) old
      else .error (.exception .outOfRange) := by
  apply checkedCall_eq hl hr
  · intro w small hx hy
    exact hx.add hy (by omega)
  · intro w hx hy
    rw [decide_eq_true_eq]
    exact add_overflow_iff hx hy

theorem subtract_eq (hl : left.NonNull) (hr : right.NonNull) :
    subtract other old left right =
      if IsInt (left.typeId.wider right.typeId).width (left.number - right.number) then
        ofInteger (left.typeId.wider right.typeId) (left.number - right.number) old
      else .error (.exception .outOfRange) := by
  apply checkedCall_eq hl hr
  · intro w small hx hy
    exact hx.sub hy (by omega)
  · intro w hx hy
    rw [decide_eq_true_eq]
    exact sub_overflow_iff hx hy

theorem multiply_eq (hl : left.NonNull) (hr : right.NonNull) :
    multiply other old left right =
      if IsInt (left.typeId.wider right.typeId).width (left.number * right.number) then
        ofInteger (left.typeId.wider right.typeId) (left.number * right.number) old
      else .error (.exception .outOfRange) := by
  apply checkedCall_eq hl hr
  · intro w small hx hy
    exact hx.mul hy (by omega)
  · intro w hx hy
    rw [decide_eq_true_eq]
    exact mul_overflow_iff hy.isInt

/-- `Divide` and `Modulo`. -/
theorem quotientCall_eq (hl : left.NonNull) (hr : right.NonNull) (o : Operator) {op : ℤ → ℤ → ℤ}
    (fits : IsInt left.typeId.width (op left.number right.number)) :
    dispatch other o (integerQuotient other old o (quotientValue op)) left right =
      if right.number = 0 then .error (.exception .divideByZero)
      else ofInteger (left.typeId.wider right.typeId) (op left.number right.number) old := by
  rw [integerQuotient_eq hl hr]
  split_ifs with zero
  · rfl
  · exact quotientValue_eq rfl rfl zero fits

theorem divide_eq (hl : left.NonNull) (hr : right.NonNull) :
    divide other old left right =
      if right.number = 0 then .error (.exception .divideByZero)
      else ofInteger (left.typeId.wider right.typeId) (left.number.tdiv right.number) old :=
  quotientCall_eq hl hr .divide (hl.number.tdiv _).isInt

theorem modulo_eq (hl : left.NonNull) (hr : right.NonNull) :
    modulo other old left right =
      if right.number = 0 then .error (.exception .divideByZero)
      else ofInteger (left.typeId.wider right.typeId) (left.number.tmod right.number) old :=
  quotientCall_eq hl hr .modulo (hl.number.tmod _).isInt

/-- The call returns a value of the type with the number `i`. -/
def Returns (call : Except Failure Value) (type : TypeId) (i : ℤ) : Prop :=
  ∃ v, call = .ok v ∧ v.typeId = type ∧ v.number = i

/-- The call throws OUT_OF_RANGE if and only if the type does not have the number, and otherwise
returns it. -/
def Computes (call : Except Failure Value) (type : TypeId) (i : ℤ) : Prop :=
  (call = .error (.exception .outOfRange) ↔ ¬ IsInt type.width i) ∧
    (IsInt type.width i → Returns call type i)

/-- The call throws DIVIDE_BY_ZERO if and only if the divisor is zero, and otherwise returns the
number. -/
def Divides (call : Except Failure Value) (type : TypeId) (divisor i : ℤ) : Prop :=
  (call = .error (.exception .divideByZero) ↔ divisor = 0) ∧
    (divisor ≠ 0 → Returns call type i)

theorem computes_of_eq {call : Except Failure Value} {type : TypeId} {i : ℤ}
    (integer : type.IsInteger) (h : call = if IsInt type.width i then ofInteger type i old
      else .error (.exception .outOfRange)) : Computes call type i := by
  by_cases fits : IsInt type.width i
  · obtain ⟨v, hv, typed, stored, -⟩ := ofInteger_number old integer fits
    rw [if_pos fits, hv] at h
    exact ⟨by simp [h, fits], fun _ => ⟨v, h, typed, stored⟩⟩
  · rw [if_neg fits] at h
    exact ⟨by simp [h, fits], fun e => absurd e fits⟩

theorem divides_of_eq {call : Except Failure Value} {type : TypeId} {divisor i : ℤ}
    (integer : type.IsInteger) (fits : IsInt type.width i)
    (h : call = if divisor = 0 then .error (.exception .divideByZero) else ofInteger type i old) :
    Divides call type divisor i := by
  by_cases zero : divisor = 0
  · rw [if_pos zero] at h
    exact ⟨by simp [h, zero], fun e => absurd zero e⟩
  · obtain ⟨v, hv, typed, stored, -⟩ := ofInteger_number old integer fits
    rw [if_neg zero, hv] at h
    exact ⟨by simp [h, zero], fun _ => ⟨v, h, typed, stored⟩⟩

/-- For all pairs of integer types and all non-NULL operands the five functions compute exactly. -/
theorem arithmetic_exact (hl : left.NonNull) (hr : right.NonNull) :
    Computes (add other old left right) (left.typeId.wider right.typeId)
      (left.number + right.number) ∧
    Computes (subtract other old left right) (left.typeId.wider right.typeId)
      (left.number - right.number) ∧
    Computes (multiply other old left right) (left.typeId.wider right.typeId)
      (left.number * right.number) ∧
    Divides (divide other old left right) (left.typeId.wider right.typeId) right.number
      (left.number.tdiv right.number) ∧
    Divides (modulo other old left right) (left.typeId.wider right.typeId) right.number
      (left.number.tmod right.number) := by
  have integer : (left.typeId.wider right.typeId).IsInteger :=
    isInteger_wider ((checkInteger_iff left).1 hl.integer) ((checkInteger_iff right).1 hr.integer)
  have le : left.typeId.width ≤ (left.typeId.wider right.typeId).width := by
    rw [width_wider]
    exact le_max_left _ _
  refine ⟨computes_of_eq integer (add_eq hl hr), computes_of_eq integer (subtract_eq hl hr),
    computes_of_eq integer (multiply_eq hl hr), ?_, ?_⟩
  · exact divides_of_eq integer ((hl.number.tdiv _).mono le).isInt (divide_eq hl hr)
  · exact divides_of_eq integer ((hl.number.tmod _).mono le).isInt (modulo_eq hl hr)

/-- `TINYINT 100 * SMALLINT -3`, and its quotient. -/
theorem arithmetic_exact_tinyint : ∃ left right,
    ofInteger .tinyint 100 Mem.zero = .ok left ∧ ofInteger .smallint (-3) Mem.zero = .ok right ∧
    ∀ other : OtherTypes, Computes (multiply other Mem.zero left right) .smallint (-300) ∧
      Divides (divide other Mem.zero left right) .smallint (-3) (-33) := by
  have tinyint : IsInt TypeId.tinyint.width 100 := by decide
  have smallint : IsInt TypeId.smallint.width (-3) := by decide
  obtain ⟨left, hl, lt, ln, lnull⟩ := ofInteger_number Mem.zero (.inl rfl) tinyint
  obtain ⟨right, hr, rt, rn, rnull⟩ := ofInteger_number Mem.zero (.inr (.inl rfl)) smallint
  refine ⟨left, right, hl, hr, fun other => ?_⟩
  obtain ⟨-, -, product, quotient, -⟩ := @arithmetic_exact other Mem.zero left right
    (lnull.2 (by decide)) (rnull.2 (by decide))
  rw [lt, rt, ln, rn] at product quotient
  exact ⟨product, quotient⟩

/-! ## Results that are NULL -/

theorem isInt_null {type : TypeId} (h : type.IsInteger) : IsInt type.width type.null := by
  rcases h with rfl | rfl | rfl | rfl <;> decide

theorem nonNull_of_checked {call : Except Failure Value} {type : TypeId} {i : ℤ}
    (integer : type.IsInteger) (h : call = if IsInt type.width i then ofInteger type i old
      else .error (.exception .outOfRange)) : (∀ v, call = .ok v → v.NonNull) ↔ i ≠ type.null := by
  by_cases fits : IsInt type.width i
  · obtain ⟨v, hv, -, -, nonNull⟩ := ofInteger_number old integer fits
    rw [if_pos fits, hv] at h
    simp only [h, Except.ok.injEq, forall_eq']
    exact nonNull
  · rw [if_neg fits] at h
    apply iff_of_true
    · simp [h]
    · rintro rfl
      exact fits (isInt_null integer)

theorem nonNull_of_quotient {call : Except Failure Value} {type : TypeId} {divisor i : ℤ}
    (integer : type.IsInteger) (fits : NonMin type.width i)
    (h : call = if divisor = 0 then .error (.exception .divideByZero) else ofInteger type i old) :
    (∀ v, call = .ok v → v.NonNull) ↔ i ≠ type.null := by
  obtain ⟨v, hv, -, -, nonNull⟩ := ofInteger_number old integer fits.isInt
  have ne : i ≠ type.null := by
    rintro rfl
    have null := fits.1
    rcases integer with rfl | rfl | rfl | rfl <;> exact absurd null (by decide)
  apply iff_of_true
  · intro w hw
    rw [h, hv] at hw
    split_ifs at hw
    cases hw
    exact nonNull.2 ne
  · exact ne

/-- What an operator returns for non-NULL operands is not NULL, exactly if the result is not the
NULL constant of the wider type. -/
theorem operate_nonNull_iff (hl : left.NonNull) (hr : right.NonNull) (op : Operator) :
    (∀ v, operate other old op left right = .ok v → v.NonNull) ↔
      op.exact left.number right.number ≠ (left.typeId.wider right.typeId).null := by
  have integer : (left.typeId.wider right.typeId).IsInteger :=
    isInteger_wider ((checkInteger_iff left).1 hl.integer) ((checkInteger_iff right).1 hr.integer)
  have le : left.typeId.width ≤ (left.typeId.wider right.typeId).width := by
    rw [width_wider]
    exact le_max_left _ _
  cases op with
  | add => exact nonNull_of_checked integer (add_eq hl hr)
  | subtract => exact nonNull_of_checked integer (subtract_eq hl hr)
  | multiply => exact nonNull_of_checked integer (multiply_eq hl hr)
  | divide => exact nonNull_of_quotient integer ((hl.number.tdiv _).mono le) (divide_eq hl hr)
  | modulo => exact nonNull_of_quotient integer ((hl.number.tmod _).mono le) (modulo_eq hl hr)

/-- `TINYINT -127 - TINYINT 1`. -/
theorem not_operate_nonNull : ¬ ∀ (other : OtherTypes) (left right v : Value), left.NonNull →
    right.NonNull → ∀ op, operate other Mem.zero op left right = .ok v → v.NonNull := by
  intro claim
  have other : OtherTypes := ⟨fun _ v _ => .ok v, fun v _ => .ok v, fun _ v _ => .ok v⟩
  have least : IsInt TypeId.tinyint.width (-127) := by decide
  have one : IsInt TypeId.tinyint.width 1 := by decide
  have null : IsInt TypeId.tinyint.width (-128) := by decide
  obtain ⟨left, -, lt, ln, lnull⟩ := ofInteger_number Mem.zero (.inl rfl) least
  obtain ⟨right, -, rt, rn, rnull⟩ := ofInteger_number Mem.zero (.inl rfl) one
  obtain ⟨v, hv, -, -, vnull⟩ := ofInteger_number Mem.zero (.inl rfl) null
  have nonNullLeft := lnull.2 (by decide)
  have nonNullRight := rnull.2 (by decide)
  have difference : subtract other Mem.zero left right = _ :=
    subtract_eq nonNullLeft nonNullRight
  rw [lt, rt, ln, rn] at difference
  exact vnull.1 (claim other left right v nonNullLeft nonNullRight .subtract
    (difference.trans hv)) rfl

theorem operate_nonNull_tinyint : ∃ left right,
    ofInteger .tinyint (-127) Mem.zero = .ok left ∧ ofInteger .smallint 1 Mem.zero = .ok right ∧
    ∀ (other : OtherTypes) (v : Value), operate other Mem.zero .subtract left right = .ok v →
      v.NonNull := by
  have tinyint : IsInt TypeId.tinyint.width (-127) := by decide
  have smallint : IsInt TypeId.smallint.width 1 := by decide
  obtain ⟨left, hl, lt, ln, lnull⟩ := ofInteger_number Mem.zero (.inl rfl) tinyint
  obtain ⟨right, hr, rt, rn, rnull⟩ := ofInteger_number Mem.zero (.inr (.inl rfl)) smallint
  refine ⟨left, right, hl, hr, fun other => ?_⟩
  apply (operate_nonNull_iff (lnull.2 (by decide)) (rnull.2 (by decide)) .subtract).2
  rw [lt, rt, ln, rn]
  decide

end Value

end ScuDb
