import ScuDb.Type.Cast

/-!
# Comparisons

The six comparisons of the integer types and of VARCHAR.  The left operand decides how a mixed pair
is compared: an integer compares numbers, a VARCHAR compares texts.  So the comparisons of a mixed
pair fit together if and only if its numbers and its texts are in the same order.
-/

namespace ScuDb

open ByteMem LittleEndian MachineInt ByteString

/-- `CmpBool`. -/
inductive CmpBool
  | cmpFalse
  | cmpTrue
  | cmpNull
deriving DecidableEq

/-- `GetCmpBool`. -/
def getCmpBool (boolean : Bool) : CmpBool := if boolean then .cmpTrue else .cmpFalse

/-- The comparison functions. -/
inductive Comparison
  | equals
  | notEquals
  | lessThan
  | lessThanEquals
  | greaterThan
  | greaterThanEquals
deriving DecidableEq

/-- The operator that the macro of a comparison gets. -/
def Comparison.op : Comparison → ℤ → ℤ → Bool
  | .equals, x, y => x = y
  | .notEquals, x, y => x ≠ y
  | .lessThan, x, y => x < y
  | .lessThanEquals, x, y => x ≤ y
  | .greaterThan, x, y => x > y
  | .greaterThanEquals, x, y => x ≥ y

/-- `TypeUtil::CompareStrings`. -/
def compareStrings (str1 : Option Str) (len1 : ℤ) (str2 : Option Str) (len2 : ℤ) :
    Except Failure ℤ :=
  match str1, str2 with
  | some str1, some str2 =>
    let count := (min len1 len2).toNat
    if len1 < 0 ∨ len2 < 0 then .error (.fault .assertion)
    else if str1.length < count ∨ str2.length < count then .error (.fault .outOfBounds)
    else
      let ret := memcmp (str1.take count) (str2.take count)
      .ok (if ret = 0 ∧ len1 ≠ len2 then len1 - len2 else ret)
  | _, _ => .error (.fault .assertion)

namespace Value

/-- What the comparisons do with the other types: a DECIMAL on the right, the casts of the other
classes, and the classes of the other left operands. -/
structure OtherClasses where
  decimal : Comparison → Value → Value → Except Failure CmpBool
  castAs : Value → TypeId → Except Failure Value
  call : Comparison → Value → Value → Except Failure CmpBool

variable (other : OtherClasses) (old : Mem 8)

/-- `TINYINT_COMPARE_FUNC`, `SMALLINT_COMPARE_FUNC`, `INT_COMPARE_FUNC` and `BIGINT_COMPARE_FUNC`:
`self` is the type of the class. -/
def compareFunc (self : TypeId) (c : Comparison) (left right : Value) : Except Failure CmpBool :=
  match right.typeId with
  | .tinyint => .ok (getCmpBool (c.op (left.getAs self.width) (right.getAs 1)))
  | .smallint => .ok (getCmpBool (c.op (left.getAs self.width) (right.getAs 2)))
  | .integer => .ok (getCmpBool (c.op (left.getAs self.width) (right.getAs 4)))
  | .bigint => .ok (getCmpBool (c.op (left.getAs self.width) (right.getAs 8)))
  | .decimal => other.decimal c left right
  | .varchar => do
    let rValue ← right.castAs other.castAs old self
    return getCmpBool (c.op (left.getAs self.width) (rValue.getAs self.width))
  | _ => .error (.exception .invalid)

/-- A comparison of the integer classes. -/
def integerCompare (c : Comparison) (left right : Value) : Except Failure CmpBool :=
  if ¬ (left.checkInteger ∧ left.checkComparable right) then .error (.fault .assertion)
  else if left.isNull ∨ right.isNull then .ok .cmpNull
  else compareFunc other old left.typeId c left right

/-- The `int` that `CompareStrings` gets for `GetLength(v) - 1`. -/
def dataLength (v : Value) : ℤ := wrap 4 (v.len - 1).toNat

/-- The right operand of `VARLEN_COMPARE_FUNC`. -/
def asVarchar (right : Value) : Except Failure Value :=
  if right.typeId = .varchar then .ok right else right.castAs other.castAs old .varchar

/-- `VARLEN_COMPARE_FUNC`. -/
def varlenCompareFunc (c : Comparison) (left right : Value) : Except Failure CmpBool := do
  let rValue ← asVarchar other old right
  let ret ← compareStrings left.varlen left.dataLength rValue.varlen rValue.dataLength
  return getCmpBool (c.op ret 0)

/-- A comparison of `VarlenType`. -/
def varlenCompare (c : Comparison) (left right : Value) : Except Failure CmpBool :=
  if ¬ left.checkComparable right then .error (.fault .assertion)
  else if left.isNull ∨ right.isNull then .ok .cmpNull
  else if left.len = varcharMaxLen ∨ right.len = varcharMaxLen then
    .ok (getCmpBool (c.op left.len.toNat right.len.toNat))
  else varlenCompareFunc other old c left right

/-- A comparison on the class of the left operand. -/
def compare (c : Comparison) (left right : Value) : Except Failure CmpBool :=
  match left.typeId with
  | .tinyint | .smallint | .integer | .bigint => integerCompare other old c left right
  | .varchar => varlenCompare other old c left right
  | _ => other.call c left right

/-- `CompareEquals`. -/
def compareEquals : Value → Value → Except Failure CmpBool := compare other old .equals

/-- `CompareNotEquals`. -/
def compareNotEquals : Value → Value → Except Failure CmpBool := compare other old .notEquals

/-- `CompareLessThan`. -/
def compareLessThan : Value → Value → Except Failure CmpBool := compare other old .lessThan

/-- `CompareLessThanEquals`. -/
def compareLessThanEquals : Value → Value → Except Failure CmpBool :=
  compare other old .lessThanEquals

/-- `CompareGreaterThan`. -/
def compareGreaterThan : Value → Value → Except Failure CmpBool := compare other old .greaterThan

/-- `CompareGreaterThanEquals`. -/
def compareGreaterThanEquals : Value → Value → Except Failure CmpBool :=
  compare other old .greaterThanEquals

/-! ## The laws -/

/-- The result is `CMP_TRUE`. -/
def Holds (result : Except Failure CmpBool) : Prop := result = .ok .cmpTrue

/-- The comparisons of a pair fit together as they would if they were derived from
`CompareLessThan`. -/
structure Lawful (a b : Value) : Prop where
  equals : Holds (compareEquals other old a b) ↔
    ¬ Holds (compareLessThan other old a b) ∧ ¬ Holds (compareLessThan other old b a)
  notEquals : Holds (compareNotEquals other old a b) ↔ ¬ Holds (compareEquals other old a b)
  lessThanEquals : Holds (compareLessThanEquals other old a b) ↔
    Holds (compareLessThan other old a b) ∨ Holds (compareEquals other old a b)
  greaterThan : Holds (compareGreaterThan other old a b) ↔
    ¬ Holds (compareLessThanEquals other old a b)
  swap : Holds (compareLessThan other old a b) ↔ Holds (compareGreaterThan other old b a)

/-- Every comparison of the pair returns, in both directions. -/
def BothReturn (a b : Value) : Prop :=
  ∀ c, (∃ r, compare other old c a b = .ok r) ∧ ∃ r, compare other old c b a = .ok r

/-- The comparisons of `a` with `b` compare `x` with `y`. -/
def Compares (a b : Value) (x y : ℤ) : Prop :=
  ∀ c : Comparison, compare other old c a b = .ok (getCmpBool (c.op x y))

variable {other : OtherClasses} {old : Mem 8} {a b : Value} {x y x' y' : ℤ}

theorem Compares.holds_iff (h : Compares other old a b x y) (c : Comparison) :
    Holds (compare other old c a b) ↔ c.op x y = true := by
  unfold Holds
  rw [h c]
  cases c.op x y <;> simp [getCmpBool]

/-- The two directions must agree about which operand is less. -/
theorem lawful_iff (h : Compares other old a b x y) (h' : Compares other old b a x' y') :
    Lawful other old a b ↔ (x < y ↔ y' < x') ∧ (y < x ↔ x' < y') := by
  have eq : Holds (compareEquals other old a b) ↔ x = y :=
    (h.holds_iff .equals).trans decide_eq_true_iff
  have ne : Holds (compareNotEquals other old a b) ↔ x ≠ y :=
    (h.holds_iff .notEquals).trans decide_eq_true_iff
  have lt : Holds (compareLessThan other old a b) ↔ x < y :=
    (h.holds_iff .lessThan).trans decide_eq_true_iff
  have le : Holds (compareLessThanEquals other old a b) ↔ x ≤ y :=
    (h.holds_iff .lessThanEquals).trans decide_eq_true_iff
  have gt : Holds (compareGreaterThan other old a b) ↔ y < x :=
    (h.holds_iff .greaterThan).trans decide_eq_true_iff
  have lt' : Holds (compareLessThan other old b a) ↔ x' < y' :=
    (h'.holds_iff .lessThan).trans decide_eq_true_iff
  have gt' : Holds (compareGreaterThan other old b a) ↔ y' < x' :=
    (h'.holds_iff .greaterThan).trans decide_eq_true_iff
  constructor
  · intro laws
    have equals := laws.equals
    have swap := laws.swap
    rw [eq, lt, lt'] at equals
    rw [lt, gt'] at swap
    omega
  · rintro ⟨less, more⟩
    constructor
    · rw [eq, lt, lt']
      omega
    · rw [ne, eq]
    · rw [le, lt, eq]
      omega
    · rw [gt, le]
      omega
    · rw [lt, gt']
      exact less

/-! ## Integers -/

theorem compares_integer (ha : a.checkInteger) (hb : b.checkInteger) (na : a.isNull = false)
    (nb : b.isNull = false) : Compares other old a b a.number b.number := by
  intro c
  unfold compare integerCompare compareFunc checkComparable number
  rcases (checkInteger_iff a).1 ha with e | e | e | e <;>
    rcases (checkInteger_iff b).1 hb with e' | e' | e' | e' <;>
      simp [e, e', ha, na, nb, TypeId.width]

/-! ## Texts -/

/-- `CompareStrings` the other way round. -/
theorem compareStrings_swap {str1 str2 : Option Str} {len1 len2 ret : ℤ}
    (h : compareStrings str1 len1 str2 len2 = .ok ret) :
    compareStrings str2 len2 str1 len1 = .ok (-ret) := by
  unfold compareStrings at *
  cases str1 with
  | none => cases h
  | some s =>
    cases str2 with
    | none => cases h
    | some t =>
      dsimp only at *
      rw [min_comm len2 len1, memcmp_swap]
      split_ifs at h with negative short differ
      · cases h
        rw [if_neg (by omega), if_neg (by omega), if_pos (by omega)]
        simp
      · cases h
        rw [if_neg (by omega), if_neg (by omega), if_neg (by omega)]

/-- `CompareStrings` of whole texts. -/
theorem compareStrings_eq {s t str1 str2 : Str} (hs : str1.take s.length = s)
    (ht : str2.take t.length = t) :
    compareStrings (some str1) s.length (some str2) t.length = .ok (order s t) := by
  have length1 := congrArg List.length hs
  have length2 := congrArg List.length ht
  rw [List.length_take] at length1 length2
  have count : (min (s.length : ℤ) t.length).toNat = min s.length t.length := by omega
  have cut1 := congrArg (List.take (min s.length t.length)) hs
  have cut2 := congrArg (List.take (min s.length t.length)) ht
  rw [List.take_take, min_eq_left (min_le_left _ _)] at cut1
  rw [List.take_take, min_eq_left (min_le_right _ _)] at cut2
  unfold compareStrings order
  simp only [count, cut1, cut2, ne_eq, Nat.cast_inj]
  rw [if_neg (by omega), if_neg (by omega)]

theorem compare_varchar (ha : a.typeId = .varchar) (na : a.isNull = false) (nb : b.isNull = false)
    (c : Comparison) : compare other old c a b = varlenCompareFunc other old c a b := by
  have lena : a.len ≠ varcharMaxLen := of_decide_eq_false na
  have lenb : b.len ≠ varcharMaxLen := of_decide_eq_false nb
  unfold compare varlenCompare checkComparable
  rw [ha]
  simp [na, nb, lena, lenb]

theorem varlenCompareFunc_eq {r : Value} {ret : ℤ} (text : asVarchar other old b = .ok r)
    (compared : compareStrings a.varlen a.dataLength r.varlen r.dataLength = .ok ret)
    (c : Comparison) : varlenCompareFunc other old c a b = .ok (getCmpBool (c.op ret 0)) := by
  unfold varlenCompareFunc
  rw [text]
  change (compareStrings a.varlen a.dataLength r.varlen r.dataLength >>= _) = _
  rw [compared]
  rfl

/-- A comparison that returns has called `CompareStrings`. -/
theorem exists_compareStrings {r : Value} (text : asVarchar other old b = .ok r) {c : Comparison}
    {result : CmpBool} (h : varlenCompareFunc other old c a b = .ok result) :
    ∃ ret, compareStrings a.varlen a.dataLength r.varlen r.dataLength = .ok ret := by
  unfold varlenCompareFunc at h
  rw [text] at h
  change (compareStrings a.varlen a.dataLength r.varlen r.dataLength >>= _) = _ at h
  cases compared : compareStrings a.varlen a.dataLength r.varlen r.dataLength with
  | error e =>
    rw [compared] at h
    cases h
  | ok ret => exact ⟨ret, rfl⟩

/-- Two VARCHARs compare one result of `CompareStrings` with zero, in both directions. -/
theorem compares_varchar (ha : a.typeId = .varchar) (hb : b.typeId = .varchar)
    (na : a.isNull = false) (nb : b.isNull = false) (returns : BothReturn other old a b) :
    ∃ r, Compares other old a b r 0 ∧ Compares other old b a (-r) 0 := by
  obtain ⟨⟨result, ran⟩, -⟩ := returns .equals
  rw [compare_varchar ha na nb] at ran
  obtain ⟨ret, compared⟩ := exists_compareStrings (if_pos hb) ran
  refine ⟨ret, fun c => ?_, fun c => ?_⟩
  · rw [compare_varchar ha na nb]
    exact varlenCompareFunc_eq (if_pos hb) compared c
  · rw [compare_varchar hb nb na]
    exact varlenCompareFunc_eq (if_pos ha) (compareStrings_swap compared) c

/-! ## Mixed pairs -/

/-- The number that the integer `a` is compared with when the text of `b` starts with `y`. -/
def parsedAs (a : Value) (y : ℤ) : ℤ := wrap a.typeId.width y

/-- The numbers of an integer and of a VARCHAR are in the order of their texts. -/
def SameOrder (a b : Value) : Prop :=
  ∀ s y, b.varlenToString = .ok s → strtol s = some y →
    (a.number < parsedAs a y ↔ ByteString.toString a.number < s) ∧
      (parsedAs a y < a.number ↔ s < ByteString.toString a.number)

theorem castAs_parsed (ha : a.checkInteger) (hb : b.typeId = .varchar) {r : Value}
    (h : castAs other.castAs old b a.typeId = .ok r) :
    ∃ s y, b.varlenToString = .ok s ∧ strtol s = some y ∧
      r.getAs a.typeId.width = parsedAs a y := by
  have integer := (checkInteger_iff a).1 ha
  have cast : castAs other.castAs old b a.typeId = varlenCastAs other.castAs old b a.typeId := by
    unfold castAs
    rw [hb]
  have parsed : ∃ w outside, parseAs old (parseInt w) outside b a.typeId = .ok r := by
    rw [cast] at h
    rcases integer with e | e | e | e <;> rw [e] at h ⊢ <;> exact ⟨_, _, h⟩
  obtain ⟨w, outside, ran⟩ := parsed
  obtain ⟨s, y, text, number, typeId, stored⟩ := parseAs_ok integer ran
  refine ⟨s, y, text, number, ?_⟩
  change r.getAs a.typeId.width = wrap a.typeId.width y
  rw [← typeId] at stored ⊢
  exact stored

/-- The length of a text that `CompareStrings` accepts. -/
theorem dataLength_eq (nonneg : 0 ≤ b.dataLength) : b.dataLength = (b.len - 1).toNat := by
  obtain ⟨k, hk⟩ := exists_wrap 4 ((b.len - 1).toNat : ℤ)
  obtain ⟨lo, hi⟩ := wrap_isInt 4 ((b.len - 1).toNat : ℤ)
  have bound := (b.len - 1).toNat_lt
  unfold dataLength at *
  omega

/-- The text of a VARCHAR that is not empty. -/
theorem varlenToString_eq {s : Str} (nonNull : b.isNull = false) (ne : s ≠ [])
    (text : b.varlenToString = .ok s) :
    ∃ bytes, b.varlen = some bytes ∧ bytes.take s.length = s ∧ (b.len - 1).toNat = s.length := by
  unfold varlenToString at text
  rw [if_neg (by simp [nonNull])] at text
  have len : b.len ≠ varcharMaxLen := of_decide_eq_false nonNull
  rw [if_neg len] at text
  split_ifs at text with zero
  · cases text
    exact absurd rfl ne
  · cases hv : b.varlen with
    | none =>
      rw [hv] at text
      cases text
    | some bytes =>
      rw [hv] at text
      dsimp only at text
      split_ifs at text with short
      cases text
      have pos : b.len.toNat ≠ 0 := fun e => zero (UInt32.toNat_inj.1 e)
      have length : (b.len - 1).toNat = b.len.toNat - 1 := by
        apply UInt32.toNat_sub_of_le
        rw [UInt32.le_iff_toNat_le]
        exact Nat.one_le_iff_ne_zero.2 pos
      refine ⟨bytes, rfl, ?_, ?_⟩
      · rw [List.length_take, min_eq_left (by omega)]
      · rw [List.length_take, min_eq_left (by omega), length]

/-- The text of an integer, as the VARCHAR it is cast to. -/
theorem castAs_text (ha : a.checkInteger) (na : a.isNull = false) :
    ∃ r bytes, castAs other.castAs old a .varchar = .ok r ∧ r.varlen = some bytes ∧
      bytes.take (ByteString.toString a.number).length = ByteString.toString a.number ∧
      r.dataLength = (ByteString.toString a.number).length := by
  have cast : castAs other.castAs old a .varchar = ofString .varchar (ByteString.toString a.number) := by
    unfold castAs integerCastAs integerToString
    rcases (checkInteger_iff a).1 ha with e | e | e | e <;> simp [e, na, number]
  have fits : IsInt 8 a.number := (getAs_isInt a a.typeId.width).mono a.typeId.width_le
  have short := length_toString fits
  set text := ByteString.toString a.number
  have len : (UInt32.ofNat (text.length + 1)).toNat = text.length + 1 := by
    rw [UInt32.toNat_ofNat']
    omega
  refine ⟨_, _, cast, rfl, ?_, ?_⟩
  · rw [len, List.take_take, min_eq_left (by omega), List.take_left]
  · have data : (UInt32.ofNat (text.length + 1) - 1).toNat = text.length := by
      rw [UInt32.toNat_sub_of_le, len]
      · rfl
      · rw [UInt32.le_iff_toNat_le, len]
        exact Nat.le_add_left 1 _
    change wrap 4 ((UInt32.ofNat (text.length + 1) - 1).toNat : ℤ) = _
    rw [data, wrap_of_isInt]
    constructor <;> omega

theorem compares_mixed (ha : a.checkInteger) (hb : b.typeId = .varchar) (na : a.isNull = false)
    (nb : b.isNull = false) (returns : BothReturn other old a b) :
    ∃ s y, b.varlenToString = .ok s ∧ strtol s = some y ∧
      Compares other old a b a.number (parsedAs a y) ∧
      Compares other old b a (order s (ByteString.toString a.number)) 0 := by
  obtain ⟨⟨forward, ran⟩, backward, ran'⟩ := returns .equals
  -- the integer on the left casts the text
  have left (c : Comparison) : compare other old c a b =
      castAs other.castAs old b a.typeId >>= fun r =>
        .ok (getCmpBool (c.op (a.getAs a.typeId.width) (r.getAs a.typeId.width))) := by
    unfold compare integerCompare compareFunc checkComparable
    rcases (checkInteger_iff a).1 ha with e | e | e | e <;> simp [e, hb, ha, na, nb] <;> rfl
  cases cast : castAs other.castAs old b a.typeId with
  | error e =>
    rw [left, cast] at ran
    cases ran
  | ok r =>
    obtain ⟨s, y, text, parsed, stored⟩ := castAs_parsed ha hb cast
    refine ⟨s, y, text, parsed, fun c => ?_, ?_⟩
    · rw [left, cast, ← stored]
      rfl
    · -- the VARCHAR on the left casts the number
      have ne : s ≠ [] := by
        rintro rfl
        cases parsed
      obtain ⟨bytes, varlen, taken, length⟩ := varlenToString_eq nb ne text
      obtain ⟨t, bytes', made, varlen', taken', length'⟩ := @castAs_text other old a ha na
      have right : asVarchar other old a = .ok t := by
        have fixed : a.typeId ≠ .varchar := by
          rcases (checkInteger_iff a).1 ha with e | e | e | e <;> simp [e]
        rw [asVarchar, if_neg fixed, made]
      rw [compare_varchar hb nb na] at ran'
      obtain ⟨ret, compared⟩ := exists_compareStrings right ran'
      rw [varlen, varlen', length'] at compared
      have nonneg : 0 ≤ b.dataLength := by
        by_contra negative
        rw [compareStrings, if_pos (.inl (not_le.1 negative))] at compared
        cases compared
      intro c
      rw [compare_varchar hb nb na]
      apply varlenCompareFunc_eq right
      rw [varlen, varlen', length', dataLength_eq nonneg, length]
      exact compareStrings_eq taken taken'

/-! ## Exactly the lawful pairs -/

/-- TINYINT, SMALLINT, INTEGER, BIGINT and VARCHAR. -/
def IsOrdered (v : Value) : Prop := v.checkInteger ∨ v.typeId = .varchar

/-- The mixed pairs are those whose numbers and texts are ordered alike. -/
def OrderedAlike (a b : Value) : Prop :=
  (a.checkInteger → b.typeId = .varchar → SameOrder a b) ∧
    (b.checkInteger → a.typeId = .varchar → SameOrder b a)

theorem not_varchar (h : a.checkInteger) : a.typeId ≠ .varchar := by
  rcases (checkInteger_iff a).1 h with e | e | e | e <;> simp [e]

theorem sameOrder_iff {s : Str} {y : ℤ} (text : b.varlenToString = .ok s)
    (parsed : strtol s = some y) : SameOrder a b ↔
      (a.number < parsedAs a y ↔ ByteString.toString a.number < s) ∧
        (parsedAs a y < a.number ↔ s < ByteString.toString a.number) := by
  constructor
  · exact fun h => h s y text parsed
  · intro h s' y' text' parsed'
    rw [text] at text'
    cases text'
    rw [parsed] at parsed'
    cases parsed'
    exact h

/-- An integer and a VARCHAR. -/
theorem lawful_mixed_iff (ha : a.checkInteger) (hb : b.typeId = .varchar) (na : a.isNull = false)
    (nb : b.isNull = false) (returns : BothReturn other old a b) :
    (Lawful other old a b ↔ SameOrder a b) ∧ (Lawful other old b a ↔ SameOrder a b) := by
  obtain ⟨s, y, text, parsed, forward, backward⟩ := compares_mixed ha hb na nb returns
  have less := order_neg_iff s (ByteString.toString a.number)
  have more := order_neg_iff (ByteString.toString a.number) s
  rw [order_swap s] at more
  have more' : 0 < order s (ByteString.toString a.number) ↔ ByteString.toString a.number < s := by
    rw [← more]
    omega
  rw [lawful_iff forward backward, lawful_iff backward forward, sameOrder_iff text parsed, less,
    more']
  constructor
  · exact Iff.rfl
  · constructor
    · rintro ⟨h₁, h₂⟩
      exact ⟨h₂.symm, h₁.symm⟩
    · rintro ⟨h₁, h₂⟩
      exact ⟨h₂.symm, h₁.symm⟩

/-- The comparisons of two non-NULL values fit together unless one is an integer, the other a
VARCHAR, and their numbers are in another order than their texts. -/
theorem lawful_pair_iff (oa : a.IsOrdered) (ob : b.IsOrdered) (na : a.isNull = false)
    (nb : b.isNull = false) (returns : BothReturn other old a b) :
    Lawful other old a b ↔ OrderedAlike a b := by
  unfold OrderedAlike
  rcases oa with ha | ha <;> rcases ob with hb | hb
  · rw [lawful_iff (compares_integer ha hb na nb) (compares_integer hb ha nb na)]
    simp [not_varchar ha, not_varchar hb]
  · rw [(lawful_mixed_iff ha hb na nb returns).1]
    constructor
    · exact fun h => ⟨fun _ _ => h, fun hb' => absurd hb (not_varchar hb')⟩
    · exact fun h => h.1 ha hb
  · rw [(lawful_mixed_iff hb ha nb na fun c => (returns c).symm).2]
    constructor
    · exact fun h => ⟨fun ha' => absurd ha (not_varchar ha'), fun _ _ => h⟩
    · exact fun h => h.2 hb ha
  · obtain ⟨r, forward, backward⟩ := compares_varchar ha hb na nb returns
    rw [lawful_iff forward backward]
    apply iff_of_true
    · omega
    · exact ⟨fun ha' => absurd ha (not_varchar ha'), fun hb' => absurd hb (not_varchar hb')⟩

/-! ## Two mixed pairs -/

/-- An INTEGER. -/
def integerOf (i : ℤ) : Value := setMember .integer .integer i Mem.zero

/-- A VARCHAR. -/
def varcharOf (s : Str) : Value :=
  { typeId := .varchar, varlen := some (s ++ [0]), len := UInt32.ofNat (s.length + 1) }

/-- No values of other types. -/
def noOthers : OtherClasses where
  decimal _ _ _ := .error (.exception .invalid)
  castAs _ _ := .error (.exception .invalid)
  call _ _ _ := .error (.exception .invalid)

theorem bothReturn_of_toBool
    (h : ∀ c, (compare other old c a b).toBool ∧ (compare other old c b a).toBool) :
    BothReturn other old a b := by
  have ok {r : Except Failure CmpBool} (h : r.toBool) : ∃ x, r = .ok x := by
    cases r with
    | error e => cases h
    | ok x => exact ⟨x, rfl⟩
  exact fun c => ⟨ok (h c).1, ok (h c).2⟩

/-- 5 and `"7"`. -/
theorem lawful_pair_digits :
    Lawful noOthers Mem.zero (integerOf 5) (varcharOf [55]) := by
  have returns : BothReturn noOthers Mem.zero (integerOf 5) (varcharOf [55]) := by
    apply bothReturn_of_toBool
    intro c
    cases c <;> decide +kernel
  apply (lawful_pair_iff (.inl rfl) (.inr rfl) (by decide +kernel) (by decide +kernel) returns).2
  refine ⟨fun _ _ => ?_, fun h => absurd rfl (not_varchar h)⟩
  rw [sameOrder_iff (s := [55]) (y := 7) rfl rfl]
  decide +kernel

/-- 9 is less than `"10"`, but `"10"` is not greater than 9. -/
theorem not_lawful : ¬ ∀ a b : Value, a.IsOrdered → b.IsOrdered → a.isNull = false →
    b.isNull = false → BothReturn noOthers Mem.zero a b → Lawful noOthers Mem.zero a b := by
  intro h
  have returns : BothReturn noOthers Mem.zero (integerOf 9) (varcharOf [49, 48]) := by
    apply bothReturn_of_toBool
    intro c
    cases c <;> decide +kernel
  have laws := h (integerOf 9) (varcharOf [49, 48]) (.inl rfl) (.inr rfl) (by decide +kernel)
    (by decide +kernel) returns
  have less : Holds (compareLessThan noOthers Mem.zero (integerOf 9) (varcharOf [49, 48])) := by
    unfold Holds
    decide +kernel
  have greater := laws.swap.1 less
  revert greater
  unfold Holds
  decide +kernel

end Value

end ScuDb
