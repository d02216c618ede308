import Mathlib.Data.List.Lex
import Mathlib.Data.Prod.Lex
import ScuDb.Lib.NullableOrder
import ScuDb.Type.Comparison
import ScuDb.Vtable.ConstructTuple

/-!
# The order of index keys

`GenericComparator` reads the columns of two keys and takes the first column that is less or
greater.  A NULL is neither, so a column that is NULL in one key and not in the other makes keys
equal that are not.
-/

namespace ScuDb

open ByteMem LittleEndian MachineInt ByteString

/-! ## BOOLEAN -/

namespace Value

variable (other : OtherClasses) (old : Mem 8)

/-- `BooleanType::ToString`. -/
def booleanToString (v : Value) : Str :=
  if v.getAs 1 = 1 then ofText "true" else if v.getAs 1 = 0 then ofText "false"
  else ofText "boolean_null"

/-- `BooleanType::CastAs`; a cast to BOOLEAN is `Copy`. -/
def booleanCastAs (v : Value) (type : TypeId) : Except Failure Value :=
  match type with
  | .boolean => ofInteger .boolean (v.getAs 1) old
  | .varchar => if v.isNull then ofData .varchar none 0 false else ofString .varchar v.booleanToString
  | _ => .error (.exception .invalid)

/-- The casts of the other classes with those of BOOLEAN. -/
def OtherClasses.castWithBoolean (v : Value) (type : TypeId) : Except Failure Value :=
  if v.typeId = .boolean then booleanCastAs old v type else other.castAs v type

/-- A comparison of `BooleanType`, with `BOOLEAN_COMPARE_FUNC`. -/
def booleanCompare (c : Comparison) (left right : Value) : Except Failure CmpBool :=
  if ¬ left.checkComparable right then .error (.fault .assertion)
  else if left.isNull ∨ right.isNull then .ok .cmpNull
  else do
    let rValue ← right.castAs (other.castWithBoolean old) old .boolean
    return getCmpBool (c.op (left.getAs 1) (rValue.getAs 1))

/-- The other classes with BOOLEAN. -/
def OtherClasses.withBoolean : OtherClasses where
  decimal := other.decimal
  castAs := other.castWithBoolean old
  call c left right :=
    if left.typeId = .boolean then booleanCompare other old c left right
    else other.call c left right

end Value

namespace GenericKey

open Value Schema TupleData NullableOrder

variable {n : ℕ}

/-! ## Keys -/

/-- `ToValue`. -/
def toValue (data : Mem n) (schema : Schema) (columnId : ℕ) (old : Mem 8) : Except Failure Value :=
  match schema.columns[columnId]? with
  | some column => readColumn data column old
  | none => .error (.fault .outOfBounds)

/-- What the unions of the values held before that one round of a comparison makes: those of the two
columns and that of a cast. -/
structure Unions where
  lhs : Mem 8
  rhs : Mem 8
  cast : Mem 8

/-- The loop of `GenericComparator::operator()` from column `i` on, with that many columns left. -/
def compareFrom (other : OtherClasses) (keySchema : Schema) (lhs rhs : Mem n) (old : ℕ → Unions)
    (i : ℕ) : ℕ → Except Failure ℤ
  | 0 => .ok 0
  | left + 1 => do
    let lhsValue ← toValue lhs keySchema i (old i).lhs
    let rhsValue ← toValue rhs keySchema i (old i).rhs
    let classes := other.withBoolean (old i).cast
    if (← compareLessThan classes (old i).cast lhsValue rhsValue) = .cmpTrue then return -1
    else if (← compareGreaterThan classes (old i).cast lhsValue rhsValue) = .cmpTrue then return 1
    else compareFrom other keySchema lhs rhs old (i + 1) left

/-- `GenericComparator::operator()`. -/
def genericComparator (other : OtherClasses) (keySchema : Schema) (old : ℕ → Unions)
    (lhs rhs : Mem n) : Except Failure ℤ :=
  compareFrom other keySchema lhs rhs old 0 keySchema.getColumnCount

/-- `SetFromKey` of the tuple that `ConstructTuple` builds from the arguments. -/
def Built (keySchema : Schema) (argv : List SqliteValue) (key : Mem n) : Prop :=
  ∃ old fresh tuple, constructTuple keySchema argv old fresh = .ok tuple ∧
    setFromKey n tuple = .ok key

/-- The keys agree on every column. -/
def Agree (keySchema : Schema) (a b : Mem n) : Prop :=
  ∀ i < keySchema.getColumnCount, ∀ old old', ∃ v w, toValue a keySchema i old = .ok v ∧
    toValue b keySchema i old' = .ok w ∧ Same v w

/-- On the keys, the comparator is a total preorder in which only keys that agree are equal. -/
structure Ordered (other : OtherClasses) (keySchema : Schema) (keys : Set (Mem n)) : Prop where
  swap : ∀ a ∈ keys, ∀ b ∈ keys, ∀ old old', ∃ r,
    genericComparator other keySchema old a b = .ok r ∧
      genericComparator other keySchema old' b a = .ok (-r)
  trans : ∀ a ∈ keys, ∀ b ∈ keys, ∀ c ∈ keys, ∀ old old' old'' r r' r'',
    genericComparator other keySchema old a b = .ok r →
    genericComparator other keySchema old' b c = .ok r' →
    genericComparator other keySchema old'' a c = .ok r'' → r ≤ 0 → r' ≤ 0 → r'' ≤ 0
  agree : ∀ a ∈ keys, ∀ b ∈ keys, ∀ old, genericComparator other keySchema old a b = .ok 0 →
    Agree keySchema a b

/-- The integer that `ConstructTuple` reads for a column of a fixed width. -/
def argument (type : TypeId) (arg : SqliteValue) : ℤ :=
  if type = .bigint then arg.int64.toInt else arg.int.toInt

/-- The argument of a column makes it NULL: cut to the width of the column it is the NULL
constant. -/
def StoresNull (c : Column) (arg : SqliteValue) : Prop :=
  c.columnType ≠ .varchar ∧
    wrap c.columnType.width (argument c.columnType arg) = c.columnType.null

instance (c : Column) (arg : SqliteValue) : Decidable (StoresNull c arg) :=
  inferInstanceAs (Decidable (_ ∧ _))

/-! ## The columns of a key -/

/-- A column of an index key: no DECIMAL. -/
structure KeyColumn (c : Column) : Prop where
  parsed : Parsed c
  notDecimal : c.columnType ≠ .decimal

/-- The bytes that a column gets for an argument. -/
def columnBytes (type : TypeId) (arg : SqliteValue) : List UInt8 :=
  if type = .varchar then arg.text.getD [] ++ [0] else intBytes type.width (argument type arg)

/-- What a column is ordered by: its number or its text. -/
def rank (c : Column) (arg : SqliteValue) : ℤ ×ₗ List ℕ :=
  if c.columnType = .varchar then toLex (0, (arg.text.getD []).map UInt8.toNat)
  else toLex (wrap c.columnType.width (argument c.columnType arg), [])

/-- The rank of a column that is not NULL. -/
def entry (c : Column) (arg : SqliteValue) : Option (ℤ ×ₗ List ℕ) :=
  if StoresNull c arg then none else some (rank c arg)

/-- What `ToValue` shows of a column that got an argument. -/
structure Shown (c : Column) (arg : SqliteValue) (v : Value) : Prop where
  type : v.typeId = c.columnType
  proper : v.Proper
  flagAgrees : v.FlagAgrees
  payload : v.payload = columnBytes c.columnType arg

variable {c : Column} {arg arg' : SqliteValue} {u v w : Value} {old : Mem 8}

theorem KeyColumn.types (h : KeyColumn c) : c.columnType = .boolean ∨ c.columnType.IsInteger ∨
    c.columnType = .varchar := by
  obtain ⟨⟨-, invalid, timestamp⟩, decimal⟩ := h
  unfold TypeId.IsInteger
  cases type : c.columnType <;> simp_all

/-- The value of a column of a fixed width. -/
theorem columnValue_fixed (key : KeyColumn c) (fixed : c.columnType ≠ .varchar) :
    columnValue c.columnType arg v old =
      .ok (setMember c.columnType c.columnType (argument c.columnType arg) old) := by
  rcases key.types with e | (e | e | e | e) | e <;> rw [e] at fixed ⊢ <;> first | rfl | simp at fixed

theorem payload_columnValue (key : KeyColumn c) (h : columnValue c.columnType arg v old = .ok w) :
    w.payload = columnBytes c.columnType arg := by
  unfold columnBytes
  split_ifs with varchar
  · rw [varchar] at h
    unfold columnValue at h
    cases text : arg.text with
    | none => simp [text] at h
    | some s =>
      simp only [text] at h
      have short := arg.short s text
      have len : (UInt32.ofNat (s.length + 1)).toNat = s.length + 1 := by
        rw [UInt32.toNat_ofNat']
        exact Nat.mod_eq_of_lt (by omega)
      cases h
      change ((s ++ [0]).take _).take _ = _
      rw [len, List.take_take, min_self, List.take_of_length_le (by simp)]
      rfl
  · rw [columnValue_fixed key varchar] at h
    cases h
    exact (if_neg varchar).trans (member_setMember _ _ _ _)

theorem text_columnValue (varchar : c.columnType = .varchar)
    (h : columnValue c.columnType arg v old = .ok w) : ∃ s, arg.text = some s := by
  rw [varchar] at h
  unfold columnValue at h
  cases text : arg.text with
  | none => simp [text] at h
  | some s => exact ⟨s, rfl⟩

namespace Shown

/-- What is read back of a value. -/
theorem of_readsBack (key : KeyColumn c) (made : columnValue c.columnType arg v old = .ok w)
    (back : ReadsBack u w) : Shown c arg u where
  type := back.typeId.trans (holds_columnValue key.parsed made).fits.type.symm
  proper := back.proper
  flagAgrees := back.flagAgrees
  payload := back.payload.trans (payload_columnValue key made)

theorem number (h : Shown c arg v) (fixed : c.columnType ≠ .varchar) :
    v.number = wrap c.columnType.width (argument c.columnType arg) := by
  unfold Value.number getAs
  rw [← payload_of_fixed (h.type ▸ fixed), h.payload, columnBytes, if_neg fixed, intValue_intBytes]
  rfl

theorem isNull_iff (h : Shown c arg v) : v.isNull = true ↔ StoresNull c arg := by
  by_cases varchar : c.columnType = .varchar
  · rw [h.proper.nonNull (h.type.trans varchar)]
    exact iff_of_false nofun fun null => null.1 varchar
  · have agrees := h.flagAgrees (h.type ▸ varchar)
    have number := h.number varchar
    unfold Value.number at number
    rw [h.type] at agrees number
    rw [agrees, number]
    exact ⟨fun null => ⟨varchar, null⟩, fun null => null.2⟩

/-- Columns with the same entry show the same value. -/
theorem same (hv : Shown c arg v) (hw : Shown c arg' w) (eq : entry c arg = entry c arg') :
    Same v w := by
  have null : StoresNull c arg ↔ StoresNull c arg' := by
    unfold entry at eq
    split_ifs at eq with null null' null'
    · exact iff_of_true null null'
    · exact iff_of_false null null'
  refine ⟨hv.type.trans hw.type.symm, ?_, ?_⟩
  · rw [Bool.eq_iff_iff, hv.isNull_iff, hw.isNull_iff, null]
  · rw [hv.payload, hw.payload]
    unfold columnBytes
    by_cases varchar : c.columnType = .varchar
    · have notNull (a : SqliteValue) : ¬ StoresNull c a := fun null => null.1 varchar
      rw [entry, entry, if_neg (notNull _), if_neg (notNull _), rank, rank, if_pos varchar,
        if_pos varchar] at eq
      have codes : (arg.text.getD []).map UInt8.toNat = (arg'.text.getD []).map UInt8.toNat :=
        (Prod.ext_iff.1 (toLex_inj.1 (Option.some.inj eq))).2
      have texts := List.map_injective_iff.2 (fun _ _ => UInt8.toNat_inj.1) codes
      rw [if_pos varchar, if_pos varchar, texts]
    · have numbers : wrap c.columnType.width (argument c.columnType arg) =
          wrap c.columnType.width (argument c.columnType arg') := by
        unfold entry rank at eq
        split_ifs at eq with null₁ null₂
        · rw [null₁.2, null₂.2]
        · exact (Prod.ext_iff.1 (toLex_inj.1 (Option.some.inj eq))).1
      rw [if_neg varchar, if_neg varchar]
      apply intValue_inj
      · simp
      · rw [intValue_intBytes, intValue_intBytes]
        exact numbers

/-! ## One column -/

variable {other : OtherClasses}

/-- The bytes of a VARCHAR without the one behind its text. -/
theorem chars (h : Shown c arg v) (varchar : c.columnType = .varchar) :
    ∃ bytes, v.varlen = some bytes ∧
      bytes.take (arg.text.getD []).length = arg.text.getD [] ∧
      v.dataLength = (arg.text.getD []).length := by
  have short : (arg.text.getD []).length < 2147483648 := by
    cases text : arg.text with
    | none => decide
    | some s => exact arg.short s text
  have type := h.type.trans varchar
  have payload := h.payload
  rw [columnBytes, if_pos varchar] at payload
  have read := h.proper.chars type
  have length := h.proper.length_payload type
  rw [payload, List.length_append, List.length_singleton] at length
  rw [payload] at read
  unfold Value.chars at read
  cases hv : v.varlen with
  | none =>
    rw [hv] at read
    cases read
  | some bytes =>
    rw [hv] at read
    dsimp only at read
    split_ifs at read with enough
    refine ⟨bytes, rfl, ?_, ?_⟩
    · have taken := congrArg (List.take (arg.text.getD []).length) (Except.ok.inj read)
      rwa [List.take_take, min_eq_left (by omega), List.take_left'] at taken
      rfl
    · have data : (v.len - 1).toNat = (arg.text.getD []).length := by
        rw [UInt32.toNat_sub_of_le, ← length]
        · rfl
        · rw [UInt32.le_iff_toNat_le, ← length]
          exact Nat.le_add_left 1 _
      unfold dataLength
      rw [data, wrap_of_isInt]
      constructor <;> omega

theorem compares_boolean (hv : v.typeId = .boolean) (hw : w.typeId = .boolean)
    (nv : v.isNull = false) (nw : w.isNull = false) :
    Compares (other.withBoolean old) old v w v.number w.number := by
  intro c
  have copied : (setMember .boolean .boolean (w.getAs 1) old).getAs 1 = w.getAs 1 := by
    have member := member_setMember .boolean .boolean (w.getAs 1) old
    unfold getAs at *
    change (setMember .boolean .boolean _ old).member 1 = _ at member
    rw [member, intValue_intBytes]
    exact wrap_of_isInt (getAs_isInt w 1)
  have comparable : v.checkComparable w = true := by simp [checkComparable, hv, hw]
  have cast : w.castAs (other.castWithBoolean old) old .boolean =
      .ok (setMember .boolean .boolean (w.getAs 1) old) := by
    simp [castAs, OtherClasses.castWithBoolean, hw, booleanCastAs, ofInteger]
  have call : Value.compare (other.withBoolean old) old c v w = booleanCompare other old c v w := by
    simp [Value.compare, OtherClasses.withBoolean, hv]
  rw [call, booleanCompare, if_neg (by simp [comparable]), if_neg (by simp [nv, nw]), cast]
  change Except.ok (getCmpBool (c.op (v.getAs 1) ((setMember .boolean .boolean _ old).getAs 1))) = _
  rw [copied, Value.number, Value.number, hv, hw]
  rfl

/-- A NULL compares with nothing. -/
theorem compare_null (hv : Shown c arg v) (hw : Shown c arg' w) (key : KeyColumn c)
    (null : v.isNull = true ∨ w.isNull = true) (op : Comparison) :
    Value.compare (other.withBoolean old) old op v w = .ok .cmpNull := by
  have tv := hv.type
  have tw := hw.type
  rcases key.types with e | (e | e | e | e) | e <;> rw [e] at tv tw <;>
    simp [Value.compare, integerCompare, varlenCompare, OtherClasses.withBoolean, booleanCompare,
      checkComparable, checkInteger, tv, tw, null]

/-- Two columns that are not NULL are compared by their ranks. -/
theorem compares (hv : Shown c arg v) (hw : Shown c arg' w) (key : KeyColumn c)
    (nv : ¬ StoresNull c arg) (nw : ¬ StoresNull c arg') :
    ∃ x y : ℤ, Compares (other.withBoolean old) old v w x y ∧
      (x < y ↔ rank c arg < rank c arg') ∧ (y < x ↔ rank c arg' < rank c arg) := by
  rw [← hv.isNull_iff, Bool.not_eq_true] at nv
  rw [← hw.isNull_iff, Bool.not_eq_true] at nw
  by_cases varchar : c.columnType = .varchar
  · obtain ⟨bytes, hbytes, taken, length⟩ := hv.chars varchar
    obtain ⟨bytes', hbytes', taken', length'⟩ := hw.chars varchar
    have ran : compareStrings v.varlen v.dataLength w.varlen w.dataLength =
        .ok (order (arg.text.getD []) (arg'.text.getD [])) := by
      rw [hbytes, hbytes', length, length']
      exact compareStrings_eq taken taken'
    have less (s t : Str) : order s t < 0 ↔
        toLex ((0 : ℤ), s.map UInt8.toNat) < toLex (0, t.map UInt8.toNat) := by
      rw [order_neg_iff, lt_iff_map_toNat, Prod.Lex.toLex_lt_toLex]
      simp
    refine ⟨order (arg.text.getD []) (arg'.text.getD []), 0, fun op => ?_, ?_, ?_⟩
    · rw [compare_varchar (hv.type.trans varchar) nv nw]
      exact varlenCompareFunc_eq (if_pos (hw.type.trans varchar)) ran op
    · rw [rank, rank, if_pos varchar, if_pos varchar]
      exact less _ _
    · rw [rank, rank, if_pos varchar, if_pos varchar, ← less, order_swap (arg.text.getD [])]
      omega
  · have less (x y : ℤ) : x < y ↔ toLex (x, ([] : List ℕ)) < toLex (y, []) := by
      rw [Prod.Lex.toLex_lt_toLex]
      simp
    have numbers : Compares (other.withBoolean old) old v w v.number w.number := by
      rcases key.types with e | e | e
      · exact compares_boolean (hv.type.trans e) (hw.type.trans e) nv nw
      · apply compares_integer _ _ nv nw
        · exact (checkInteger_iff v).2 (hv.type ▸ e)
        · exact (checkInteger_iff w).2 (hw.type ▸ e)
      · exact absurd e varchar
    rw [rank, rank, if_neg varchar, if_neg varchar, ← hv.number varchar, ← hw.number varchar]
    exact ⟨_, _, numbers, less _ _, less _ _⟩

/-- The two comparisons of a round. -/
theorem round (hv : Shown c arg v) (hw : Shown c arg' w) (key : KeyColumn c) :
    ∃ less greater, compareLessThan (other.withBoolean old) old v w = .ok less ∧
      compareGreaterThan (other.withBoolean old) old v w = .ok greater ∧
      compareEntries (entry c arg) (entry c arg') =
        if less = .cmpTrue then -1 else if greater = .cmpTrue then 1 else 0 := by
  by_cases null : StoresNull c arg ∨ StoresNull c arg'
  · have flag : v.isNull = true ∨ w.isNull = true := by rwa [hv.isNull_iff, hw.isNull_iff]
    refine ⟨_, _, compare_null hv hw key flag .lessThan, compare_null hv hw key flag .greaterThan, ?_⟩
    rcases null with null | null <;> simp [entry, null]
  · rw [not_or] at null
    obtain ⟨x, y, compared, less, more⟩ := @compares _ _ _ _ _ old other hv hw key null.1 null.2
    refine ⟨_, _, compared .lessThan, compared .greaterThan, ?_⟩
    rw [entry, entry, if_neg null.1, if_neg null.2]
    simp [compareEntries, Comparison.op, getCmpBool, ← less, ← more]

end Shown

/-! ## The loop -/

/-- The columns of `pairs` can be read from column `i` of the key on. -/
def Reads (keySchema : Schema) (key : Mem n) (i : ℕ) (pairs : List (Column × SqliteValue)) : Prop :=
  ∀ (j : ℕ) p, pairs[j]? = some p → ∀ old, ∃ v, toValue key keySchema (i + j) old = .ok v ∧
    Shown p.1 p.2 v

/-- The entries of the columns. -/
def row (pairs : List (Column × SqliteValue)) : List (Option (ℤ ×ₗ List ℕ)) :=
  pairs.map fun p => entry p.1 p.2

variable {keySchema : Schema} {key key' : Mem n} {i : ℕ} {other : OtherClasses}

theorem Reads.tail {p : Column × SqliteValue} {pairs : List (Column × SqliteValue)}
    (h : Reads keySchema key i (p :: pairs)) : Reads keySchema key (i + 1) pairs := by
  intro j q hq old
  rw [add_assoc, add_comm 1 j]
  exact h (j + 1) q hq old

/-- The loop compares the entries. -/
theorem compareFrom_eq (old : ℕ → Unions) {cs : List Column} (keys : ∀ c ∈ cs, KeyColumn c) :
    ∀ {as bs : List SqliteValue} {i : ℕ}, cs.length ≤ as.length → cs.length ≤ bs.length →
      Reads keySchema key i (cs.zip as) → Reads keySchema key' i (cs.zip bs) →
      compareFrom other keySchema key key' old i cs.length =
        .ok (compareRows (row (cs.zip as)) (row (cs.zip bs))) := by
  induction cs with
  | nil => exact fun _ _ _ _ => rfl
  | cons c cs ih =>
    intro as bs i longA longB readsA readsB
    obtain ⟨here, rest⟩ := List.forall_mem_cons.1 keys
    cases as with
    | nil => cases longA
    | cons a as =>
      cases bs with
      | nil => cases longB
      | cons b bs =>
        obtain ⟨v, hv, shownA⟩ := readsA 0 _ rfl (old i).lhs
        obtain ⟨w, hw, shownB⟩ := readsB 0 _ rfl (old i).rhs
        obtain ⟨less, greater, ranLess, ranGreater, decided⟩ :=
          @Shown.round _ _ _ _ _ (old i).cast other shownA shownB here
        have later := ih rest (Nat.le_of_succ_le_succ longA) (Nat.le_of_succ_le_succ longB)
          readsA.tail readsB.tail
        rw [List.zip_cons_cons, List.zip_cons_cons, row, row, List.map_cons, List.map_cons,
          compareRows_cons, decided]
        simp only [add_zero] at hv hw
        simp only [List.length_cons, compareFrom, hv, hw, ranLess, ranGreater, bind, Except.bind,
          pure, Except.pure]
        by_cases isLess : less = .cmpTrue
        · simp [isLess]
        · by_cases isGreater : greater = .cmpTrue
          · simp [isLess, isGreater]
          · simp only [isLess, isGreater, if_false, if_true]
            exact later

/-! ## The keys -/

/-- What can be read from the tuple can be read from the key. -/
theorem load_setFromKey {tuple : TupleData} (copied : setFromKey n tuple = .ok key) {a : ℤ}
    {len : ℕ} {bytes : List UInt8} (h : load tuple.data a len = .ok bytes) :
    load key a len = .ok bytes := by
  unfold setFromKey store at copied
  split_ifs at copied with inside
  cases copied
  rw [Mem.length_slice] at inside
  unfold load at *
  split_ifs at h with there
  cases h
  rw [if_pos (by omega)]
  congr 1
  apply List.map_congr_left
  intro i hi
  have lt := List.mem_range.1 hi
  have size := Mem.length_slice tuple.data 0 tuple.size
  rw [Mem.get_write_inside _ (by omega) (by omega) (by omega), Mem.getD_slice _ (by omega)]
  congr 1
  omega

theorem deserializeFrom_setFromKey {tuple : TupleData} (copied : setFromKey n tuple = .ok key)
    {a : ℤ} {type : TypeId} (h : deserializeFrom tuple.data a type old = .ok v) :
    deserializeFrom key a type old = .ok v := by
  have loads {a : ℤ} {len : ℕ} {f : List UInt8 → Except Failure Value}
      (h : (load tuple.data a len >>= f) = .ok v) :
      ∃ bytes, load key a len = .ok bytes ∧ f bytes = .ok v := by
    cases read : load tuple.data a len with
    | error e =>
      rw [read] at h
      cases h
    | ok bytes =>
      rw [read] at h
      exact ⟨bytes, load_setFromKey copied read, h⟩
  unfold deserializeFrom at h ⊢
  cases type with
  | invalid => cases h
  | timestamp => cases h
  | varchar =>
    obtain ⟨head, read, h⟩ := loads h
    change (load key a 4 >>= _) = _
    rw [read]
    change (if UInt32.ofNat (wordValue head) = valueNull then _ else _) = _ at h ⊢
    split_ifs at h with null
    · rw [if_pos null]
      exact h
    · rw [if_neg null]
      obtain ⟨bytes, read', h⟩ := loads h
      rw [read']
      exact h
  | _ =>
    obtain ⟨bytes, read, h⟩ := loads h
    change (load key a _ >>= _) = _
    rw [read]
    exact h

theorem readColumn_setFromKey {tuple : TupleData} (copied : setFromKey n tuple = .ok key)
    (h : readColumn tuple.data c old = .ok v) : readColumn key c old = .ok v := by
  unfold readColumn at h ⊢
  split_ifs at h ⊢ with inlined
  · exact deserializeFrom_setFromKey copied h
  · cases read : load tuple.data c.columnOffset 4 with
    | error e =>
      rw [read] at h
      cases h
    | ok bytes =>
      rw [read] at h
      rw [load_setFromKey copied read]
      exact deserializeFrom_setFromKey copied h

end GenericKey

end ScuDb
