import ScuDb.Config
import ScuDb.Lib.LittleEndian

/-!
# SQL values

A `Value` is a type id, the union `value_` as its eight bytes, the bytes a VARCHAR points to, and
the length field that doubles as the NULL mark.  A constructor writes one member of the union and
leaves its other bytes as they were (`old`).  A DECIMAL is the 64-bit pattern of its `double`.
-/

namespace ScuDb

open ByteMem LittleEndian

/-- `TypeId`. -/
inductive TypeId
  | invalid
  | boolean
  | tinyint
  | smallint
  | integer
  | bigint
  | decimal
  | varchar
  | timestamp
deriving DecidableEq, Repr

/-- `ExceptionType`. -/
inductive ExceptionType
  | invalid
  | outOfRange
  | unknownType
  | divideByZero
  | incompatibleType
  | notImplemented
  | constraint
deriving DecidableEq, Repr

/-- What stops a call on values: an `Exception`, or a step that C++ gives no meaning. -/
inductive Failure
  | exception (type : ExceptionType)
  | fault (reason : Fault)
deriving DecidableEq, Repr

namespace TypeId

/-- The bytes of the union member of a type. -/
def width : TypeId → ℕ
  | boolean | tinyint => 1
  | smallint => 2
  | integer => 4
  | bigint | decimal | timestamp => 8
  | invalid | varchar => 0

/-- `Type::GetTypeSize`. -/
def getTypeSize : TypeId → Except Failure ℕ
  | invalid => .error (.exception .unknownType)
  | type => .ok type.width

/-- The NULL constants of `limits.h`, read as two's complement: `PELOTON_DECIMAL_NULL` is the
pattern of the lowest `double`, `PELOTON_TIMESTAMP_NULL` has all bits set. -/
def null : TypeId → ℤ
  | boolean | tinyint => -128
  | smallint => -32768
  | integer => -2147483648
  | bigint => -9223372036854775808
  | decimal => -4503599627370497
  | timestamp => -1
  | invalid | varchar => 0

theorem width_le (type : TypeId) : type.width ≤ 8 := by
  cases type <;> decide

end TypeId

/-- `PELOTON_VALUE_NULL`. -/
def valueNull : UInt32 := 4294967295

/-- `PELOTON_VARCHAR_MAX_LEN`. -/
def varcharMaxLen : UInt32 := 4294967295

/-- `Value`; `varlen` is `none` for a null pointer. -/
structure Value where
  typeId : TypeId
  value : Mem 8 := Mem.zero
  varlen : Option (List UInt8) := none
  len : UInt32 := valueNull

namespace Value

/-- The first `width` bytes of the union. -/
def member (v : Value) (width : ℕ) : List UInt8 := v.value.slice 0 width

/-- `GetAs` of a signed integer of `width` bytes. -/
def getAs (v : Value) (width : ℕ) : ℤ := intValue (v.member width)

/-- `IsNull`. -/
def isNull (v : Value) : Bool := v.len = valueNull

/-! ## Constructors -/

/-- Store `i` in the union member of the type `member`, and mark the value NULL if the member then
holds that type's NULL constant. -/
def setMember (type member : TypeId) (i : ℤ) (old : Mem 8) : Value :=
  let value := old.write 0 (intBytes member.width i)
  { typeId := type
    value := value
    len := if intValue (value.slice 0 member.width) = member.null then valueNull else 0 }

/-- The body that the constructors from signed integers share. -/
def ofInteger (type : TypeId) (i : ℤ) (old : Mem 8) : Except Failure Value :=
  match type with
  | .boolean | .tinyint | .smallint | .integer | .bigint | .timestamp =>
    .ok (setMember type type i old)
  | .invalid | .decimal | .varchar => .error (.exception .incompatibleType)

/-- `Value(TypeId, int8_t)`. -/
def ofInt8 (type : TypeId) (i : Int8) (old : Mem 8) : Except Failure Value :=
  ofInteger type i.toInt old

/-- `Value(TypeId, int16_t)`. -/
def ofInt16 (type : TypeId) (i : Int16) (old : Mem 8) : Except Failure Value :=
  ofInteger type i.toInt old

/-- `Value(TypeId, int32_t)`. -/
def ofInt32 (type : TypeId) (i : Int32) (old : Mem 8) : Except Failure Value :=
  ofInteger type i.toInt old

/-- `Value(TypeId, int64_t)`. -/
def ofInt64 (type : TypeId) (i : Int64) (old : Mem 8) : Except Failure Value :=
  ofInteger type i.toInt old

/-- `Value(TypeId, uint64_t)`: for a BIGINT it assigns the member `boolean`. -/
def ofUInt64 (type : TypeId) (i : UInt64) (old : Mem 8) : Except Failure Value :=
  match type with
  | .bigint => .ok (setMember .bigint .boolean i.toNat old)
  | .timestamp => .ok (setMember .timestamp .timestamp i.toNat old)
  | _ => .error (.exception .incompatibleType)

/-- `Value(TypeId, double)`, given the bits of the `double`. -/
def ofDouble (type : TypeId) (d : UInt64) (old : Mem 8) : Except Failure Value :=
  match type with
  | .decimal => .ok (setMember .decimal .decimal d.toNat old)
  | _ => .error (.exception .incompatibleType)

/-- `Value(TypeId, float)`, given the bits of the `double` that the `float` converts to. -/
def ofFloat (type : TypeId) (f : UInt64) (old : Mem 8) : Except Failure Value :=
  ofDouble type f old

/-- `Value(TypeId, const char *, uint32_t, bool)`: a null pointer gives NULL, managed data is
copied. -/
def ofData (type : TypeId) (data : Option (List UInt8)) (len : UInt32) (manageData : Bool) :
    Except Failure Value :=
  match type with
  | .varchar =>
    match data with
    | none => .ok { typeId := .varchar }
    | some bytes =>
      if manageData then
        if ¬ len < varcharMaxLen then .error (.fault .assertion)
        else if bytes.length < len.toNat then .error (.fault .outOfBounds)
        else .ok { typeId := .varchar, varlen := some (bytes.take len.toNat), len := len }
      else .ok { typeId := .varchar, varlen := some bytes, len := len }
  | _ => .error (.exception .incompatibleType)

/-- `Value(TypeId, const std::string &)`: the string with its terminating zero. -/
def ofString (type : TypeId) (data : List UInt8) : Except Failure Value :=
  match type with
  | .varchar =>
    let len := UInt32.ofNat (data.length + 1)
    .ok { typeId := .varchar, varlen := some ((data ++ [0]).take len.toNat), len := len }
  | _ => .error (.exception .incompatibleType)

/-! ## Serialization -/

/-- `GetLength`, which only VARCHAR implements; there is no type object for TIMESTAMP. -/
def getLength (v : Value) : Except Failure UInt32 :=
  match v.typeId with
  | .varchar => .ok v.len
  | .timestamp => .error (.fault .nullDeref)
  | _ => .error (.exception .notImplemented)

/-- The `len` bytes that `memcpy` reads behind `value_.varlen`. -/
def chars (v : Value) : Except Failure (List UInt8) :=
  match v.varlen with
  | none => .error (.fault .nullDeref)
  | some bytes =>
    if bytes.length < v.len.toNat then .error (.fault .outOfBounds)
    else .ok (bytes.take v.len.toNat)

/-- Bytes stored through a `char *` into `n` allocated bytes. -/
def store {n : ℕ} (m : Mem n) (storage : ℤ) (bytes : List UInt8) : Except Failure (Mem n) :=
  if 0 ≤ storage ∧ storage + bytes.length ≤ n then .ok (m.write storage.toNat bytes)
  else .error (.fault .outOfBounds)

/-- Bytes read through a `char *` from `n` allocated bytes. -/
def load {n : ℕ} (m : Mem n) (storage : ℤ) (len : ℕ) : Except Failure (List UInt8) :=
  if 0 ≤ storage ∧ storage + len ≤ n then .ok (m.slice storage.toNat len)
  else .error (.fault .outOfBounds)

/-- `SerializeTo`. -/
def serializeTo {n : ℕ} (v : Value) (m : Mem n) (storage : ℤ) : Except Failure (Mem n) :=
  match v.typeId with
  | .boolean | .tinyint | .smallint | .integer | .bigint | .decimal =>
    store m storage (v.member v.typeId.width)
  | .varchar =>
    if v.isNull then store m storage (wordBytes 4 v.len.toNat)
    else do
      let m ← store m storage (wordBytes 4 v.len.toNat)
      store m (storage + 4) (← v.chars)
  | .invalid => .error (.exception .notImplemented)
  | .timestamp => .error (.fault .nullDeref)

/-- `DeserializeFrom`; `old` is what the union of the new value held. -/
def deserializeFrom {n : ℕ} (m : Mem n) (storage : ℤ) (type : TypeId) (old : Mem 8) :
    Except Failure Value :=
  match type with
  | .boolean | .tinyint | .smallint | .integer | .bigint => do
    ofInteger type (intValue (← load m storage type.width)) old
  | .decimal => do
    ofDouble .decimal (UInt64.ofNat (wordValue (← load m storage type.width))) old
  | .varchar => do
    let len := UInt32.ofNat (wordValue (← load m storage 4))
    if len = valueNull then ofData .varchar none len false
    else ofData .varchar (some (← load m (storage + 4) len.toNat)) len true
  | .invalid => .error (.exception .notImplemented)
  | .timestamp => .error (.fault .nullDeref)

/-! ## Equality of values -/

/-- The payload: the union member of the type, or the bytes of a VARCHAR. -/
def payload (v : Value) : List UInt8 :=
  if v.typeId = .varchar then (v.varlen.getD []).take v.len.toNat else v.member v.typeId.width

/-- Two values agree in type, NULL flag and payload. -/
structure Same (v w : Value) : Prop where
  typeId : v.typeId = w.typeId
  isNull : v.isNull = w.isNull
  payload : v.payload = w.payload

/-- The NULL flag of a fixed-width value says whether it holds the NULL constant. -/
def FlagAgrees (v : Value) : Prop :=
  v.typeId ≠ .varchar → (v.isNull = true ↔ v.getAs v.typeId.width = v.typeId.null)

/-- What a member holds that was just assigned. -/
theorem member_setMember (type member : TypeId) (i : ℤ) (old : Mem 8) :
    (setMember type member i old).member member.width = intBytes member.width i := by
  have fits : 0 + (intBytes member.width i).length ≤ 8 := by
    rw [length_intBytes, zero_add]
    exact member.width_le
  have := Mem.slice_write_self old fits
  rwa [length_intBytes] at this

theorem isNull_setMember (type member : TypeId) (i : ℤ) (old : Mem 8) :
    (setMember type member i old).isNull = true ↔
      (setMember type member i old).getAs member.width = member.null := by
  change decide ((if (setMember type member i old).getAs member.width = member.null then valueNull
    else 0) = valueNull) = true ↔ _
  split_ifs with h <;> simp [h, valueNull]

theorem flagAgrees_setMember (type : TypeId) (i : ℤ) (old : Mem 8) :
    (setMember type type i old).FlagAgrees := fun _ => isNull_setMember type type i old

theorem Same.trans {u v w : Value} (h : Same u v) (h' : Same v w) : Same u w :=
  ⟨h.typeId.trans h'.typeId, h.isNull.trans h'.isNull, h.payload.trans h'.payload⟩

end Value

end ScuDb
