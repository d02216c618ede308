import ScuDb.Type.Value

/-!
# Columns and schemas

A schema lays the fixed parts of its columns out one after another: the value itself for an inlined
column, a four-byte offset for a VARCHAR.
-/

namespace ScuDb

/-- `Column`. -/
structure Column where
  columnType : TypeId := .invalid
  fixedLength : ℤ := -1
  variableLength : ℤ := -1
  columnName : String := ""
  isInlined : Bool := false
  columnOffset : ℤ := -1

namespace Column

/-- `SetInlined`: only a VARCHAR is not stored inline. -/
def setInlined (c : Column) : Column := { c with isInlined := c.columnType ≠ .varchar }

/-- `SetLength`. -/
def setLength (c : Column) (columnLength : ℤ) : Column :=
  if c.isInlined then { c with fixedLength := columnLength, variableLength := 0 }
  else { c with fixedLength := 4, variableLength := columnLength }

/-- The constructor: an inlined column must have a positive length. -/
def new (valueType : TypeId) (columnLength : ℤ) (columnName : String) : Except Failure Column :=
  let c := setInlined { columnType := valueType, columnName := columnName }
  if c.isInlined ∧ columnLength ≤ 0 then .error (.exception .constraint)
  else .ok (c.setLength columnLength)

/-- A column as `ParseCreateStatement` makes it, or wider: inlined unless it is a VARCHAR, and with
room for its value or for an offset. -/
structure Sized (c : Column) : Prop where
  inlined : c.isInlined = true ↔ c.columnType ≠ .varchar
  offset : c.isInlined = false → c.fixedLength = 4
  fits : c.isInlined = true → c.columnType.width ≤ c.fixedLength

theorem Sized.nonneg {c : Column} (h : c.Sized) : 0 ≤ c.fixedLength := by
  cases hi : c.isInlined with
  | false => simp [h.offset hi]
  | true => exact le_trans (Int.natCast_nonneg _) (h.fits hi)

/-- A column that gets the size of its type is sized. -/
theorem sized_new {type : TypeId} {columnLength : ℤ} {columnName : String} {c : Column}
    (hc : new type columnLength columnName = .ok c)
    (length : type ≠ .varchar → type.width ≤ columnLength) : c.Sized := by
  unfold new at hc
  by_cases hv : type = .varchar
  · subst hv
    simp only [setInlined, setLength] at hc
    cases hc
    exact ⟨by simp, by simp, by simp⟩
  · simp only [setInlined, setLength, hv, ne_eq, not_false_eq_true, decide_true, true_and,
      if_true] at hc
    split_ifs at hc
    cases hc
    exact ⟨by simp [hv], by simp, fun _ => length hv⟩

end Column

/-- `Schema`, of less than 2^31 bytes: the `int32_t` offsets have no bound here. -/
structure Schema where
  length : ℤ := 0
  columns : List Column := []
  tupleIsInlined : Bool := true
  uninlinedColumns : List ℕ := []

namespace Schema

/-- One round of the loop of the constructor, which keeps `column_offset` in `length`. -/
def addColumn (s : Schema) (column : Column) : Schema where
  length := s.length + column.fixedLength
  columns := s.columns ++ [{ column with columnOffset := s.length }]
  tupleIsInlined := s.tupleIsInlined && column.isInlined
  uninlinedColumns :=
    if column.isInlined then s.uninlinedColumns else s.uninlinedColumns ++ [s.columns.length]

/-- The constructor. -/
def new (columns : List Column) : Schema := columns.foldl addColumn {}

/-- `GetColumnCount`. -/
def getColumnCount (s : Schema) : ℕ := s.columns.length

/-- `CopySchema`. -/
def copySchema (schema : Schema) (ids : List ℕ) : Except Failure Schema := do
  let columnList ← ids.mapM fun id =>
    match schema.columns[id]? with
    | some column => .ok column
    | none => .error (.fault .assertion)
  return new columnList

/-- The columns from `offset` on, each behind the one before it. -/
def placed (offset : ℤ) : List Column → List Column
  | [] => []
  | c :: cs => { c with columnOffset := offset } :: placed (offset + c.fixedLength) cs

/-- The bytes of the fixed parts. -/
def fixedSize (columns : List Column) : ℤ := (columns.map Column.fixedLength).sum

/-- The positions of the uninlined columns, counted from `k`. -/
def uninlinedFrom (k : ℕ) : List Column → List ℕ
  | [] => []
  | c :: cs => if c.isInlined then uninlinedFrom (k + 1) cs else k :: uninlinedFrom (k + 1) cs

theorem map_fixedLength_placed (cs : List Column) : ∀ base,
    (placed base cs).map Column.fixedLength = cs.map Column.fixedLength := by
  induction cs with
  | nil => exact fun _ => rfl
  | cons c cs ih => exact fun base => congrArg (c.fixedLength :: ·) (ih _)

theorem foldl_addColumn (columns : List Column) (s : Schema) :
    columns.foldl addColumn s =
      { length := s.length + fixedSize columns
        columns := s.columns ++ placed s.length columns
        tupleIsInlined := s.tupleIsInlined && columns.all Column.isInlined
        uninlinedColumns := s.uninlinedColumns ++ uninlinedFrom s.columns.length columns } := by
  induction columns generalizing s with
  | nil => simp [fixedSize, placed, uninlinedFrom]
  | cons c cs ih =>
    rw [List.foldl_cons, ih]
    simp only [addColumn, fixedSize, placed, uninlinedFrom, List.map_cons, List.sum_cons,
      List.length_append, List.length_singleton, List.append_assoc, List.singleton_append,
      List.all_cons, Bool.and_assoc, Schema.mk.injEq, true_and]
    refine ⟨by ring, ?_⟩
    split_ifs <;> simp

/-- What the constructor computes: prefix sums as offsets, and the positions of the VARCHARs. -/
theorem new_eq (columns : List Column) :
    new columns =
      { length := fixedSize columns
        columns := placed 0 columns
        tupleIsInlined := columns.all Column.isInlined
        uninlinedColumns := uninlinedFrom 0 columns } := by
  unfold new
  rw [foldl_addColumn]
  simp

end Schema

end ScuDb
