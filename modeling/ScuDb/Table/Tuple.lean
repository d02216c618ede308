import ScuDb.Catalog.Schema

/-!
# Tuples

A tuple holds the fixed parts of its columns at the schema's offsets and behind them, one after
another, the VARCHARs with their lengths.  `fresh` is what `new char[size_]` happens to contain.
-/

namespace ScuDb

open ByteMem LittleEndian

/-- `offset += len + sizeof(uint32_t)` in an `int32_t`. -/
def addLength (offset : ℤ) (len : UInt32) : ℤ := Int.bmod (offset + (len.toNat + 4)) 4294967296

/-- The size and the bytes of a `Tuple`. -/
structure TupleData where
  size : ℕ
  data : Mem size

namespace TupleData

/-- Step 1 of the constructor: the size of the tuple. -/
def tupleSize (values : List Value) (schema : Schema) : Except Failure ℤ :=
  schema.uninlinedColumns.foldlM (fun size i =>
    match values[i]? with
    | some value => do return addLength size (← value.getLength)
    | none => .error (.fault .outOfBounds)) schema.length

/-- Step 2 of the constructor: the columns from the current one on, the next VARCHAR going to
`offset`. -/
def serializeColumns {n : ℕ} : List (Column × Value) → Mem n → ℤ → Except Failure (Mem n)
  | [], data, _ => .ok data
  | (column, value) :: rest, data, offset =>
    if column.isInlined then do
      let data ← value.serializeTo data column.columnOffset
      serializeColumns rest data offset
    else do
      let data ← Value.store data column.columnOffset (intBytes 4 offset)
      let data ← value.serializeTo data offset
      serializeColumns rest data (addLength offset (← value.getLength))

/-- The constructor from values. -/
def new (values : List Value) (schema : Schema) (fresh : (n : ℕ) → Mem n) :
    Except Failure TupleData := do
  if values.length ≠ schema.getColumnCount then throw (.fault .assertion)
  let size ← tupleSize values schema
  if size < 0 then throw (.fault .overflow)
  let data ← serializeColumns (schema.columns.zip values) (fresh size.toNat) schema.length
  return { size := size.toNat, data := data }

/-- The value of a column in the bytes of a tuple: at the column's offset, or for a VARCHAR at the
offset stored there. -/
def readColumn {n : ℕ} (data : Mem n) (column : Column) (old : Mem 8) : Except Failure Value :=
  if column.isInlined then
    Value.deserializeFrom data column.columnOffset column.columnType old
  else do
    let offset := intValue (← Value.load data column.columnOffset 4)
    Value.deserializeFrom data offset column.columnType old

/-- `GetValue`. -/
def getValue (t : TupleData) (schema : Schema) (columnId : ℕ) (old : Mem 8) : Except Failure Value :=
  match schema.columns[columnId]? with
  | some column => readColumn t.data column old
  | none => .error (.fault .outOfBounds)

end TupleData

end ScuDb
