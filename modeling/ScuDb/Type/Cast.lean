import ScuDb.Lib.ByteString
import ScuDb.Type.Arithmetic

/-!
# Casts

`CastAs` of the integer types and of VARCHAR.  An integer is tested against the range of the target
before it is narrowed.  A VARCHAR is parsed as an `int` and narrowed first, so that the test sees
only what is left of the number.
-/

namespace ScuDb

open ByteMem LittleEndian MachineInt ByteString

namespace TypeId

/-- `PELOTON_INT8_MIN`, `PELOTON_INT16_MIN`, `PELOTON_INT32_MIN` and `PELOTON_INT64_MIN`. -/
def minValue (type : TypeId) : ℤ := type.null + 1

/-- `PELOTON_INT8_MAX`, `PELOTON_INT16_MAX`, `PELOTON_INT32_MAX` and `PELOTON_INT64_MAX`. -/
def maxValue (type : TypeId) : ℤ := -(type.null + 1)

/-- `i` is a number of the type. -/
def InRange (type : TypeId) (i : ℤ) : Prop := type.minValue ≤ i ∧ i ≤ type.maxValue

instance (type : TypeId) (i : ℤ) : Decidable (type.InRange i) :=
  inferInstanceAs (Decidable (_ ∧ _))

/-- What `ToString` prints for NULL. -/
def nullText : TypeId → String
  | tinyint => "tinyint_null"
  | smallint => "smallint_null"
  | integer => "integer_null"
  | bigint => "bigint_null"
  | varchar => "varlen_null"
  | _ => ""

end TypeId

namespace Value

/-! ## The calls -/

/-- `ToString` of the integer types. -/
def integerToString (v : Value) : Str :=
  if v.isNull then ofText v.typeId.nullText else ByteString.toString (v.getAs v.typeId.width)

/-- `VarlenType::ToString`: the bytes without the terminating zero. -/
def varlenToString (v : Value) : Except Failure Str :=
  if v.isNull then .ok (ofText v.typeId.nullText)
  else if v.len = varcharMaxLen then .ok (ofText "varlen_max")
  else if v.len = 0 then .ok []
  else
    match v.varlen with
    | none => .error (.fault .nullDeref)
    | some bytes =>
      if bytes.length < v.len.toNat - 1 then .error (.fault .outOfBounds)
      else .ok (bytes.take (v.len.toNat - 1))

variable (other : Value → TypeId → Except Failure Value) (old : Mem 8)

/-- A cast between integer types: the range is tested when the target is narrower. -/
def castInteger (self : TypeId) (v : Value) (type : TypeId) : Except Failure Value :=
  if v.isNull then ofInteger type type.null old
  else if type.width < self.width ∧
      (v.getAs self.width > type.maxValue ∨ v.getAs self.width < type.minValue) then
    .error (.exception .outOfRange)
  else ofInteger type (v.getAs self.width) old

/-- `CastAs` of TINYINT, SMALLINT, INTEGER and BIGINT: `self` is the type of the class, and `other`
casts to DECIMAL. -/
def integerCastAs (self : TypeId) (v : Value) (type : TypeId) : Except Failure Value :=
  match type with
  | .tinyint | .smallint | .integer | .bigint => castInteger old self v type
  | .decimal => other v type
  | .varchar => if v.isNull then ofData .varchar none 0 false else ofString .varchar v.integerToString
  | _ => .error (.exception .invalid)

/-- A parsed number is stored in a variable of the type, and what is left of it is tested. -/
def narrow (outside : ℤ → Bool) (type : TypeId) (parsed : ℤ) : Except Failure Value :=
  let number := wrap type.width parsed
  if outside number then .error (.exception .outOfRange) else ofInteger type number old

/-- A cast of a VARCHAR to an integer type. -/
def parseAs (parse : Str → Except StdException ℤ) (outside : ℤ → Bool) (v : Value)
    (type : TypeId) : Except Failure Value := do
  let str ← v.varlenToString
  match parse str with
  | .error .outOfRange => .error (.exception .outOfRange)
  | .error .invalidArgument => .error (.fault .exception)
  | .ok parsed => narrow old outside type parsed

/-- A cast of a VARCHAR to BOOLEAN. -/
def parseBoolean (v : Value) : Except Failure Value := do
  let str := (← v.varlenToString).map toLower
  if str = ofText "true" ∨ str = ofText "1" ∨ str = ofText "t" then ofInteger .boolean 1 old
  else if str = ofText "false" ∨ str = ofText "0" ∨ str = ofText "f" then ofInteger .boolean 0 old
  else throw (.exception .invalid)

/-- `VarlenType::CastAs`. -/
def varlenCastAs (v : Value) (type : TypeId) : Except Failure Value :=
  match type with
  | .boolean => parseBoolean old v
  | .tinyint => parseAs old stoi (fun tinyint => tinyint < TypeId.tinyint.minValue) v .tinyint
  | .smallint => parseAs old stoi (fun smallint => smallint < TypeId.smallint.minValue) v .smallint
  | .integer => parseAs old stoi (fun integer => integer > TypeId.integer.maxValue ∨
      integer < TypeId.integer.minValue) v .integer
  | .bigint => parseAs old stoll (fun bigint => bigint > TypeId.bigint.maxValue ∨
      bigint < TypeId.bigint.minValue) v .bigint
  | .decimal => other v type
  | .varchar => .ok v
  | _ => .error (.exception .invalid)

/-- `CastAs` on the class of the value; `other` stands for the classes of the other types. -/
def castAs (v : Value) (type : TypeId) : Except Failure Value :=
  match v.typeId with
  | .tinyint | .smallint | .integer | .bigint => integerCastAs other old v.typeId v type
  | .varchar => varlenCastAs other old v type
  | _ => other v type

/-! ## Exact casts -/

/-- A non-NULL integer with the number `i`, or a VARCHAR that spells it. -/
def Denotes (v : Value) (i : ℤ) : Prop :=
  v.NonNull ∧ v.number = i ∨
    v.typeId = .varchar ∧ v.isNull = false ∧ ∃ s, v.varlenToString = .ok s ∧ Spells s i

/-- A cast of `i` gives the value of the target type with this number, or throws because there is
none. -/
def CastsExactly (i : ℤ) (type : TypeId) (result : Except Failure Value) : Prop :=
  if type.InRange i then ∃ w, result = .ok w ∧ w.typeId = type ∧ w.NonNull ∧ w.number = i
  else result = .error (.exception .outOfRange)

variable {other : Value → TypeId → Except Failure Value} {old : Mem 8} {v : Value} {type : TypeId}
  {i : ℤ}

theorem inRange_iff (h : type.IsInteger) : type.InRange i ↔ NonMin type.width i := by
  unfold TypeId.InRange NonMin TypeId.minValue TypeId.maxValue
  rcases h with rfl | rfl | rfl | rfl <;> simp only [TypeId.null, TypeId.width] <;> omega

/-- A number in range as a value. -/
theorem ofInteger_inRange (old : Mem 8) (h : type.IsInteger) (inRange : type.InRange i) :
    CastsExactly i type (ofInteger type i old) := by
  have nonMin := (inRange_iff h).1 inRange
  obtain ⟨w, made, typeId, number, nonNull⟩ := ofInteger_number old h nonMin.isInt
  unfold CastsExactly
  rw [if_pos inRange]
  refine ⟨w, made, typeId, nonNull.2 ?_, number⟩
  rintro rfl
  have := inRange.1
  unfold TypeId.minValue at this
  omega

theorem castsExactly_outOfRange (outside : ¬ type.InRange i) {result : Except Failure Value} :
    CastsExactly i type result ↔ result = .error (.exception .outOfRange) := by
  unfold CastsExactly
  rw [if_neg outside]

/-- The one number of the width that is no number of the type is NULL. -/
theorem not_inRange_iff (h : type.IsInteger) (fits : IsInt type.width i) :
    ¬ type.InRange i ↔ i = type.null := by
  obtain ⟨lo, hi⟩ := fits
  unfold TypeId.InRange TypeId.minValue TypeId.maxValue
  rcases h with rfl | rfl | rfl | rfl <;> simp only [TypeId.null, TypeId.width] at * <;> omega

/-- Among the numbers of the width, the test against the lower bound alone finds NULL. -/
theorem lt_minValue_iff (h : type.IsInteger) (fits : IsInt type.width i) :
    i < type.minValue ↔ ¬ type.InRange i := by
  obtain ⟨lo, hi⟩ := fits
  unfold TypeId.InRange TypeId.minValue TypeId.maxValue
  rcases h with rfl | rfl | rfl | rfl <;> simp only [TypeId.null, TypeId.width] at * <;> omega

/-- A number that fits the width is in range, or the NULL constant. -/
theorem inRange_or_null (h : type.IsInteger) (fits : IsInt type.width i) :
    type.InRange i ∨ wrap type.width i = type.null := by
  rw [or_iff_not_imp_left, not_inRange_iff h fits, wrap_of_isInt fits]
  exact id

theorem castAs_null (h : type.IsInteger) (integer : v.checkInteger) (null : v.isNull) :
    ∃ w, castAs other old v type = .ok w ∧ w.typeId = type ∧ w.isNull := by
  have fits : IsInt type.width type.null := by rcases h with rfl | rfl | rfl | rfl <;> decide
  obtain ⟨w, made, typeId, number, -⟩ := ofInteger_number old h fits
  refine ⟨w, ?_, typeId, ?_⟩
  · have cast : castAs other old v type = castInteger old v.typeId v type := by
      unfold castAs integerCastAs
      rcases (checkInteger_iff v).1 integer with e | e | e | e <;>
        rcases h with rfl | rfl | rfl | rfl <;> rw [e]
    rw [cast, castInteger, if_pos null, made]
  · have set : setMember type type type.null old = w := by
      rcases h with rfl | rfl | rfl | rfl <;> exact Except.ok.inj made
    rw [← set, isNull_setMember, set]
    rw [← typeId] at number ⊢
    exact number

theorem castAs_integer (h : type.IsInteger) (nonNull : v.NonNull) :
    CastsExactly v.number type (castAs other old v type) := by
  have cast : castAs other old v type = castInteger old v.typeId v type := by
    unfold castAs integerCastAs
    rcases (checkInteger_iff v).1 nonNull.integer with e | e | e | e <;>
      rcases h with rfl | rfl | rfl | rfl <;> rw [e]
  have same : v.getAs v.typeId.width = v.number := rfl
  rw [cast, castInteger, if_neg (by simp [nonNull.flag]), same]
  by_cases inRange : type.InRange v.number
  · obtain ⟨lo, hi⟩ := inRange
    rw [if_neg (by omega)]
    exact ofInteger_inRange old h ⟨lo, hi⟩
  · -- only a narrower type has not got the number
    have narrow : type.width < v.typeId.width := by
      by_contra wide
      exact inRange ((inRange_iff h).2 (nonNull.number.mono (not_lt.1 wide)))
    rw [castsExactly_outOfRange inRange, if_pos]
    unfold TypeId.InRange at inRange
    refine ⟨narrow, ?_⟩
    omega

theorem parseAs_eq {s : Str} (text : v.varlenToString = .ok s) (spells : Spells s i) (w : ℕ)
    (outside : ℤ → Bool) : parseAs old (parseInt w) outside v type =
      if IsInt w i then narrow old outside type i else .error (.exception .outOfRange) := by
  simp only [parseAs, text, bind, Except.bind, parseInt, spells.strtol]
  by_cases fits : IsInt w i
  · rw [if_pos fits, if_pos fits]
  · rw [if_neg fits, if_neg fits]

/-- A cast of a VARCHAR that returns has parsed its text and keeps what fits the type. -/
theorem parseAs_ok (h : type.IsInteger) {w : ℕ} {outside : ℤ → Bool} {r : Value}
    (ran : parseAs old (parseInt w) outside v type = .ok r) :
    ∃ s y, v.varlenToString = .ok s ∧ strtol s = some y ∧ r.typeId = type ∧
      r.number = wrap type.width y := by
  unfold parseAs at ran
  cases text : v.varlenToString with
  | error e =>
    rw [text] at ran
    cases ran
  | ok s =>
    simp only [text, bind, Except.bind, parseInt] at ran
    cases parsed : strtol s with
    | none =>
      rw [parsed] at ran
      cases ran
    | some y =>
      simp only [parsed] at ran
      by_cases fits : IsInt w y
      · rw [if_pos fits] at ran
        simp only [narrow] at ran
        split_ifs at ran
        obtain ⟨u, made, typeId, number, -⟩ := ofInteger_number old h (wrap_isInt type.width y)
        rw [made] at ran
        cases ran
        exact ⟨s, y, rfl, parsed, typeId, number⟩
      · rw [if_neg fits] at ran
        cases ran

/-- A parsed number that the type has not got must look out of range after the narrowing, too. -/
theorem castsExactly_parseAs (h : type.IsInteger) {s : Str} (text : v.varlenToString = .ok s)
    (spells : Spells s i) {w : ℕ} (wide : type.width ≤ w) {outside : ℤ → Bool}
    (tests : ∀ x, IsInt type.width x → (outside x = true ↔ ¬ type.InRange x)) :
    CastsExactly i type (parseAs old (parseInt w) outside v type) ↔
      (IsInt w i → type.InRange i ∨ wrap type.width i = type.null) := by
  have narrowed := wrap_isInt type.width i
  rw [parseAs_eq text spells]
  by_cases fits : IsInt w i
  · rw [if_pos fits, narrow]
    simp only [tests _ narrowed, fits, true_imp_iff]
    by_cases inRange : type.InRange i
    · have kept : wrap type.width i = i := wrap_of_isInt ((inRange_iff h).1 inRange).isInt
      rw [kept, if_neg (not_not.2 inRange)]
      exact iff_of_true (ofInteger_inRange old h inRange) (.inl inRange)
    · rw [castsExactly_outOfRange inRange, ← not_inRange_iff h narrowed]
      by_cases seen : type.InRange (wrap type.width i)
      · obtain ⟨u, made, -⟩ := ofInteger_number old h narrowed
        rw [if_neg (not_not.2 seen), made]
        simp [inRange, seen]
      · rw [if_pos seen]
        exact iff_of_true rfl (.inr seen)
  · have outOfRange : ¬ type.InRange i := fun inRange =>
      fits (((inRange_iff h).1 inRange).isInt.mono wide)
    rw [if_neg fits, castsExactly_outOfRange outOfRange]
    exact iff_of_true rfl fun fits' => absurd fits' fits

/-- The casts of a VARCHAR that spells `i`. -/
theorem castAs_varchar (h : type.IsInteger) (varchar : v.typeId = .varchar) {s : Str}
    (text : v.varlenToString = .ok s) (spells : Spells s i) :
    CastsExactly i type (castAs other old v type) ↔
      (IsInt 4 i → type.InRange i ∨ wrap type.width i = type.null) := by
  have cast : castAs other old v type = varlenCastAs other old v type := by
    unfold castAs
    rw [varchar]
  rw [cast]
  rcases id h with rfl | rfl | rfl | rfl
  · apply castsExactly_parseAs h text spells (by decide)
    intro x fits
    rw [decide_eq_true_iff]
    exact lt_minValue_iff h fits
  · apply castsExactly_parseAs h text spells (by decide)
    intro x fits
    rw [decide_eq_true_iff]
    exact lt_minValue_iff h fits
  · apply castsExactly_parseAs h text spells (by decide)
    intro x fits
    simp only [TypeId.InRange, decide_eq_true_eq]
    omega
  · have wide := inRange_or_null (i := i) h
    refine (castsExactly_parseAs h text spells (w := 8) (by decide) ?_).trans ?_
    · intro x fits
      simp only [TypeId.InRange, decide_eq_true_eq]
      omega
    · exact iff_of_true wide fun short => wide (short.mono (by decide))

/-- Casts to an integer type keep NULL, and they keep the number or throw when there is none in
range, except for VARCHARs whose number is lost before it is tested. -/
theorem castAs_exact_iff (other : Value → TypeId → Except Failure Value) (old : Mem 8)
    (h : type.IsInteger) (v : Value) :
    (v.checkInteger → v.isNull → ∃ w, castAs other old v type = .ok w ∧ w.typeId = type ∧
      w.isNull) ∧
    ∀ i, v.Denotes i → (CastsExactly i type (castAs other old v type) ↔
      (v.typeId = .varchar → IsInt 4 i → type.InRange i ∨ wrap type.width i = type.null)) := by
  refine ⟨castAs_null h, fun i denotes => ?_⟩
  rcases denotes with ⟨nonNull, rfl⟩ | ⟨varchar, -, s, text, spells⟩
  · have fixed : v.typeId ≠ .varchar := by
      rcases (checkInteger_iff v).1 nonNull.integer with e | e | e | e <;> simp [e]
    exact iff_of_true (castAs_integer h nonNull) fun varchar => absurd varchar fixed
  · rw [castAs_varchar h varchar text spells]
    simp only [varchar, true_imp_iff]

/-- The VARCHAR `"300"`. -/
def threeHundred : Value :=
  { typeId := .varchar, varlen := some [51, 48, 48, 0], len := 4 }

theorem spells_threeHundred : Spells [51, 48, 48] 300 := by
  have value : digitsValue [51, 48, 48] = 300 := rfl
  refine ⟨[51, 48, 48], by simp, by simp [isDigit], .inl ⟨.inl rfl, ?_⟩⟩
  rw [value]
  rfl

theorem denotes_threeHundred : threeHundred.Denotes 300 :=
  .inr ⟨rfl, by decide, [51, 48, 48], rfl, spells_threeHundred⟩

/-- `"300"` as a SMALLINT. -/
theorem castAs_exact_smallint : CastsExactly 300 .smallint
    (castAs (fun _ _ => .error (.exception .invalid)) Mem.zero threeHundred .smallint) :=
  ((castAs_exact_iff _ _ (.inr (.inl rfl)) threeHundred).2 300 denotes_threeHundred).2
    fun _ _ => .inl (by decide)

/-- `"300"` as a TINYINT is 44. -/
theorem not_castsExactly : ¬ ∀ (v : Value) (i : ℤ), v.Denotes i → CastsExactly i .tinyint
    (castAs (fun _ _ => .error (.exception .invalid)) Mem.zero v .tinyint) := by
  intro h
  have cast := h threeHundred 300 denotes_threeHundred
  rw [castAs_varchar (.inl rfl) rfl rfl spells_threeHundred] at cast
  exact absurd (cast (by decide)) (by decide)

end Value

end ScuDb
