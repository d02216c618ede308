import ScuDb.Catalog.Schema
import ScuDb.Lib.ByteString

/-!
# Parsing a create statement

`ParseCreateStatement` cuts the lower-cased statement at its commas, an item at its first blank, and
a type at its first parenthesis, behind which `stoi` reads the length.  It inverts the printing of a
list of columns.
-/

namespace ScuDb

open ByteString

/-- The text with the bytes of a string as its characters. -/
def textOf (s : Str) : String := String.ofList (s.map fun c => Char.ofNat c.toNat)

/-! ## The parser -/

/-- The type that a name stands for. -/
def typeNamed (columnType : Str) : TypeId :=
  if columnType = ofText "bool" ∨ columnType = ofText "boolean" then .boolean
  else if columnType = ofText "tinyint" then .tinyint
  else if columnType = ofText "smallint" then .smallint
  else if columnType = ofText "int" ∨ columnType = ofText "integer" then .integer
  else if columnType = ofText "bigint" then .bigint
  else if columnType = ofText "double" ∨ columnType = ofText "float" then .decimal
  else if columnType = ofText "varchar" ∨ columnType = ofText "char" then .varchar
  else .invalid

/-- The name of a type and the length in parentheses behind it, or zero. -/
def typeAndLength (columnType : Str) : Except Failure (Str × ℤ) :=
  let n := findFirstOf columnType 40
  if n.isSome then
    match stoi (after columnType n) with
    | .ok columnLength => .ok (upTo columnType n, columnLength)
    | .error _ => .error (.fault .exception)
  else .ok (columnType, 0)

/-- The column of a type; a VARCHAR without a length gets 32. -/
def columnOf (type : TypeId) (columnLength : ℤ) (columnName : Str) : Except Failure Column :=
  match type with
  | .invalid => .error (.exception .unknownType)
  | .varchar => Column.new type (if columnLength = 0 then 32 else columnLength) (textOf columnName)
  | _ => do
    let size ← type.getTypeSize
    Column.new type size (textOf columnName)

/-- One item of the statement. -/
def parseColumn (t : Str) : Except Failure Column := do
  let n := findFirstOf t 32
  let columnName := upTo t n
  let (columnType, columnLength) ← typeAndLength (after t n)
  columnOf (typeNamed columnType) columnLength columnName

/-- `ParseCreateStatement`. -/
def parseCreateStatement (sqlBase : Str) : Except Failure Schema := do
  let sql := sqlBase.map toLower
  let v ← (split sql 44).mapM parseColumn
  return Schema.new v

/-! ## Printing -/

/-- The types a statement can name, a `varchar` or `char` with an optional length. -/
inductive ColumnType
  | bool
  | boolean
  | tinyint
  | smallint
  | int
  | integer
  | bigint
  | double
  | float
  | varchar (n : Option ℕ)
  | char (n : Option ℕ)

namespace ColumnType

/-- The name without a length. -/
def name : ColumnType → Str
  | bool => ofText "bool"
  | boolean => ofText "boolean"
  | tinyint => ofText "tinyint"
  | smallint => ofText "smallint"
  | int => ofText "int"
  | integer => ofText "integer"
  | bigint => ofText "bigint"
  | double => ofText "double"
  | float => ofText "float"
  | varchar _ => ofText "varchar"
  | char _ => ofText "char"

/-- The length as it is written. -/
def length? : ColumnType → Option ℕ
  | varchar n | char n => n
  | _ => none

/-- The type with its length. -/
def text (t : ColumnType) : Str :=
  match t.length? with
  | some n => t.name ++ 40 :: (decimal n ++ [41])
  | none => t.name

/-- The denoted type. -/
def typeId : ColumnType → TypeId
  | bool | boolean => .boolean
  | tinyint => .tinyint
  | smallint => .smallint
  | int | integer => .integer
  | bigint => .bigint
  | double | float => .decimal
  | varchar _ | char _ => .varchar

/-- A written length is positive and fits an `int`. -/
def WellFormed (t : ColumnType) : Prop := ∀ n ∈ t.length?, 1 ≤ n ∧ n < 2147483648

end ColumnType

/-- A column in a statement, with the white space around it. -/
structure ColumnText where
  before : Str
  name : Str
  type : ColumnType
  behind : Str

namespace ColumnText

/-- Name, blank, type. -/
def core (c : ColumnText) : Str := c.name ++ 32 :: c.type.text

def text (c : ColumnText) : Str := c.before ++ (c.core ++ c.behind)

/-- The name is not empty and has no white space, comma or upper-case letter. -/
structure WellFormed (c : ColumnText) : Prop where
  before : ∀ x ∈ c.before, isSpace x
  behind : ∀ x ∈ c.behind, isSpace x
  nonempty : c.name ≠ []
  visible : ∀ x ∈ c.name, isSpace x = false
  comma : 44 ∉ c.name
  lower : ∀ x ∈ c.name, isUpper x = false
  type : c.type.WellFormed

end ColumnText

/-- A statement: the columns, joined by commas. -/
def createStatement (columns : List ColumnText) : Str :=
  [44].intercalate (columns.map ColumnText.text)

/-! ## The round trip -/

/-- A lower-case letter. -/
def isLetter (c : UInt8) : Bool := 97 ≤ c ∧ c ≤ 122

/-- A character that no step of the parser takes for something else. -/
def isPlain (c : UInt8) : Bool := !isSpace c && !isUpper c && c != 44

theorem isPlain_of_isLetter {c : UInt8} (h : isLetter c) : isPlain c ∧ c ≠ 40 := by
  simp only [isLetter, isPlain, isSpace, isUpper, UInt8.le_iff_toNat_le, ← UInt8.toNat_inj,
    decide_eq_true_eq, Bool.and_eq_true, Bool.not_eq_true', decide_eq_false_iff_not, bne_iff_ne,
    ne_eq] at *
  simp at *
  omega

theorem isPlain_of_isDigit {c : UInt8} (h : isDigit c) : isPlain c := by
  simp only [isDigit, isPlain, isSpace, isUpper, UInt8.le_iff_toNat_le, ← UInt8.toNat_inj,
    decide_eq_true_eq, Bool.and_eq_true, Bool.not_eq_true', decide_eq_false_iff_not, bne_iff_ne,
    ne_eq] at *
  simp at *
  omega

namespace ColumnType

variable (t : ColumnType)

theorem typeNamed_name : typeNamed t.name = t.typeId := by
  cases t <;> rfl

theorem isLetter_name {c : UInt8} (h : c ∈ t.name) : isLetter c := by
  have letters : t.name.all isLetter := by cases t <;> rfl
  exact List.all_eq_true.1 letters c h

theorem name_ne_nil : t.name ≠ [] := by
  cases t <;> exact List.cons_ne_nil _ _

theorem isPlain_text {c : UInt8} (h : c ∈ t.text) : isPlain c := by
  unfold text at h
  cases hn : t.length? with
  | none =>
    rw [hn] at h
    exact (isPlain_of_isLetter (t.isLetter_name h)).1
  | some n =>
    simp only [hn, List.mem_append, List.mem_cons, List.not_mem_nil, or_false] at h
    rcases h with letter | rfl | digit | rfl
    · exact (isPlain_of_isLetter (t.isLetter_name letter)).1
    · rfl
    · exact isPlain_of_isDigit (isDigit_decimal digit)
    · rfl

/-- The name and the length of a printed type. -/
theorem typeAndLength_text {t : ColumnType} (h : t.WellFormed) :
    typeAndLength t.text = .ok (t.name, (t.length?.getD 0 : ℕ)) := by
  have absent : (40 : UInt8) ∉ t.name := fun mem =>
    (isPlain_of_isLetter (t.isLetter_name mem)).2 rfl
  unfold typeAndLength text
  cases hn : t.length? with
  | none =>
    simp only [findFirstOf_eq_none absent]
    rfl
  | some n =>
    obtain ⟨-, small⟩ := h n hn
    have number : stoi (decimal n ++ [41]) = .ok (n : ℤ) := by
      have value := @strtol_digits _ (decimal_ne_nil n) (fun c => isDigit_decimal) [41] (by
        rintro c ⟨⟩
        rfl)
      unfold stoi parseInt
      rw [value, digitsValue_decimal]
      apply if_pos
      constructor <;> omega
    simp only [findFirstOf_append absent, Option.isSome_some, if_true, after_append, number,
      upTo_append]
    rfl

end ColumnType

namespace ColumnText

/-- The column that the text describes. -/
def column (c : ColumnText) : Column where
  columnType := c.type.typeId
  fixedLength := if c.type.typeId = .varchar then 4 else c.type.typeId.width
  variableLength := if c.type.typeId = .varchar then (c.type.length?.getD 32 : ℕ) else 0
  columnName := textOf c.name
  isInlined := c.type.typeId ≠ .varchar

theorem columnOf_eq {c : ColumnText} (h : c.type.WellFormed) :
    columnOf c.type.typeId (c.type.length?.getD 0 : ℕ) c.name = .ok c.column := by
  obtain ⟨before, name, type, behind⟩ := c
  cases type with
  | varchar n | char n =>
    cases n with
    | none => rfl
    | some n =>
      have pos : n ≠ 0 := Nat.one_le_iff_ne_zero.1 (h n rfl).1
      simp [columnOf, ColumnType.typeId, ColumnType.length?, column, Column.new, Column.setInlined,
        Column.setLength, pos]
  | _ => rfl

theorem parseColumn_core {c : ColumnText} (h : c.WellFormed) : parseColumn c.core = .ok c.column := by
  have absent : (32 : UInt8) ∉ c.name := fun mem => by
    have := h.visible 32 mem
    cases this
  unfold parseColumn core
  simp only [findFirstOf_append absent, upTo_append, after_append]
  rw [ColumnType.typeAndLength_text h.type]
  change columnOf (typeNamed c.type.name) _ _ = _
  rw [ColumnType.typeNamed_name]
  exact columnOf_eq h.type

variable {c : ColumnText} (h : c.WellFormed)

include h

theorem WellFormed.isPlain_name {x : UInt8} (hx : x ∈ c.name) : isPlain x := by
  have comma : x ≠ 44 := fun e => h.comma (e ▸ hx)
  simp [isPlain, h.visible x hx, h.lower x hx, comma]

/-- `Trim` leaves the printed column. -/
theorem WellFormed.trim_text : trim c.text = c.core := by
  have text : c.type.text ≠ [] := by
    unfold ColumnType.text
    split
    · simp
    · exact c.type.name_ne_nil
  apply trim_padded h.before h.behind
  · simp [core]
  · intro y hy
    unfold core at hy
    rw [List.head?_append_of_ne_nil _ h.nonempty] at hy
    exact h.visible y (List.mem_of_head? hy)
  · intro y hy
    have split : c.core = (c.name ++ [32]) ++ c.type.text := by simp [core]
    rw [split, List.getLast?_append_of_ne_nil _ text] at hy
    have last : y ∈ c.type.text := List.mem_of_getLast? hy
    have plain := c.type.isPlain_text last
    simp only [isPlain, Bool.and_eq_true, Bool.not_eq_true'] at plain
    exact plain.1.1

/-- No character of a printed column is a comma or an upper-case letter. -/
theorem WellFormed.plain_text {x : UInt8} (hx : x ∈ c.text) : isUpper x = false ∧ x ≠ 44 := by
  have space {y : UInt8} (hy : isSpace y) : isUpper y = false ∧ y ≠ 44 := by
    simp only [isSpace, isUpper, UInt8.le_iff_toNat_le, ← UInt8.toNat_inj, decide_eq_true_eq,
      decide_eq_false_iff_not, ne_eq] at *
    simp at *
    omega
  have plain {y : UInt8} (hy : isPlain y) : isUpper y = false ∧ y ≠ 44 := by
    simp only [isPlain, Bool.and_eq_true, Bool.not_eq_true', bne_iff_ne] at hy
    exact ⟨hy.1.2, hy.2⟩
  simp only [text, core, List.mem_append, List.mem_cons] at hx
  rcases hx with hx | ((hx | rfl | hx) | hx)
  · exact space (h.before x hx)
  · exact plain (h.isPlain_name hx)
  · exact ⟨rfl, by decide⟩
  · exact plain (c.type.isPlain_text hx)
  · exact space (h.behind x hx)

omit h

theorem text_ne_nil (c : ColumnText) : c.text ≠ [] := by
  simp [text, core]

/-- The parsed column has the name, the type and the lengths of the text. -/
structure Describes (c : ColumnText) (column : Column) : Prop where
  columnName : column.columnName = textOf c.name
  columnType : column.columnType = c.type.typeId
  variableLength : c.type.typeId = .varchar → column.variableLength = (c.type.length?.getD 32 : ℕ)
  fixedLength : column.fixedLength =
    if c.type.typeId = .varchar then (4 : ℤ) else (c.type.typeId.width : ℤ)

end ColumnText

theorem mem_createStatement {x : UInt8} : ∀ {columns : List ColumnText},
    x ∈ createStatement columns → x = 44 ∨ ∃ c ∈ columns, x ∈ c.text
  | [], h => by simp [createStatement] at h
  | [c], h => .inr ⟨c, List.mem_singleton.2 rfl, by simpa [createStatement] using h⟩
  | c :: c' :: columns, h => by
    have split : createStatement (c :: c' :: columns) =
        c.text ++ 44 :: createStatement (c' :: columns) := by
      simp [createStatement, List.intercalate_cons_cons]
    rw [split, List.mem_append, List.mem_cons] at h
    rcases h with here | comma | rest
    · exact .inr ⟨c, List.mem_cons_self, here⟩
    · exact .inl comma
    · rcases mem_createStatement rest with comma | ⟨d, hd, hx⟩
      · exact .inl comma
      · exact .inr ⟨d, List.mem_cons_of_mem _ hd, hx⟩

theorem map_toLower_createStatement {columns : List ColumnText}
    (h : ∀ c ∈ columns, c.WellFormed) :
    (createStatement columns).map toLower = createStatement columns := by
  apply map_toLower
  intro x hx
  rcases mem_createStatement hx with rfl | ⟨c, hc, hx⟩
  · rfl
  · exact ((h c hc).plain_text hx).1

/-- The items of a printed statement. -/
theorem split_createStatement {columns : List ColumnText} (ne : columns ≠ [])
    (h : ∀ c ∈ columns, c.WellFormed) :
    split (createStatement columns) 44 = columns.map ColumnText.core := by
  unfold createStatement
  rw [split_intercalate, List.map_map]
  · exact List.map_congr_left fun c hc => (h c hc).trim_text
  · intro l hl mem
    obtain ⟨c, hc, rfl⟩ := List.mem_map.1 hl
    exact ((h c hc).plain_text mem).2 rfl
  · intro l hl
    obtain ⟨c, hc, rfl⟩ := List.mem_map.1 hl
    exact c.text_ne_nil
  · simpa using ne

theorem mapM_parseColumn {columns : List ColumnText} (h : ∀ c ∈ columns, c.WellFormed) :
    (columns.map ColumnText.core).mapM parseColumn = .ok (columns.map ColumnText.column) := by
  induction columns with
  | nil => rfl
  | cons c columns ih =>
    obtain ⟨here, rest⟩ := List.forall_mem_cons.1 h
    rw [List.map_cons, List.mapM_cons, ColumnText.parseColumn_core here, ih rest]
    rfl

/-- A printed statement is parsed as the schema of its columns. -/
theorem parseCreateStatement_eq {columns : List ColumnText} (ne : columns ≠ [])
    (h : ∀ c ∈ columns, c.WellFormed) :
    parseCreateStatement (createStatement columns) =
      .ok (Schema.new (columns.map ColumnText.column)) := by
  unfold parseCreateStatement
  simp only [map_toLower_createStatement h, split_createStatement ne h, mapM_parseColumn h]
  rfl

namespace Schema

theorem getElem?_placed (cs : List Column) : ∀ (base : ℤ) (i : ℕ), (placed base cs)[i]? =
    cs[i]?.map fun c => { c with columnOffset := base + fixedSize (cs.take i) } := by
  induction cs with
  | nil => simp [placed]
  | cons c cs ih =>
    intro base i
    cases i with
    | zero => simp [placed, fixedSize]
    | succ i =>
      simp only [placed, List.getElem?_cons_succ, ih, List.take_succ_cons, fixedSize, List.map_cons,
        List.sum_cons, add_assoc]

theorem uninlinedFrom_eq (cs : List Column) : ∀ k, uninlinedFrom k cs =
    ((List.range cs.length).filter fun i => cs[i]?.any fun c => !c.isInlined).map (k + ·) := by
  induction cs with
  | nil => simp [uninlinedFrom]
  | cons c cs ih =>
    intro k
    have later : ((List.range cs.length).map Nat.succ).filter
          (fun i => (c :: cs)[i]?.any fun c => !c.isInlined) =
        ((List.range cs.length).filter fun i => cs[i]?.any fun c => !c.isInlined).map Nat.succ := by
      rw [List.filter_map]
      rfl
    rw [uninlinedFrom, ih, List.length_cons, List.range_succ_eq_map, List.filter_cons, later]
    cases hc : c.isInlined with
    | true => simp [hc, Function.comp_def, Nat.add_assoc, Nat.add_comm 1]
    | false => simp [hc, Function.comp_def, Nat.add_assoc, Nat.add_comm 1]

end Schema

theorem ColumnText.describes_placed (columns : List ColumnText) : ∀ base,
    List.Forall₂ Describes columns (Schema.placed base (columns.map column)) := by
  induction columns with
  | nil => exact fun _ => .nil
  | cons c columns ih =>
    intro base
    exact .cons ⟨rfl, rfl, fun varchar => if_pos varchar, rfl⟩ (ih _)

/-- `ParseCreateStatement` inverts printing: the columns in order, with prefix sums as offsets, and
exactly the VARCHARs uninlined. -/
theorem parseCreateStatement_print {columns : List ColumnText} (ne : columns ≠ [])
    (h : ∀ c ∈ columns, c.WellFormed) :
    ∃ schema, parseCreateStatement (createStatement columns) = .ok schema ∧
      List.Forall₂ ColumnText.Describes columns schema.columns ∧
      (∀ i c, schema.columns[i]? = some c →
        c.columnOffset = Schema.fixedSize (schema.columns.take i)) ∧
      schema.uninlinedColumns = (List.range columns.length).filter fun i =>
        columns[i]?.any fun c => c.type.typeId = .varchar := by
  refine ⟨_, parseCreateStatement_eq ne h, ?_, ?_, ?_⟩
  · rw [Schema.new_eq]
    exact ColumnText.describes_placed columns 0
  · intro i c hc
    rw [Schema.new_eq] at hc ⊢
    rw [Schema.getElem?_placed, Option.map_eq_some_iff] at hc
    obtain ⟨d, -, rfl⟩ := hc
    change 0 + Schema.fixedSize _ = _
    unfold Schema.fixedSize
    rw [zero_add, List.map_take, List.map_take, Schema.map_fixedLength_placed]
  · rw [Schema.new_eq]
    change Schema.uninlinedFrom 0 (columns.map ColumnText.column) = _
    rw [Schema.uninlinedFrom_eq, List.length_map]
    simp only [Nat.zero_add, List.map_id']
    apply List.filter_congr
    intro i _
    rw [List.getElem?_map, Option.any_map]
    congr 1
    funext c
    simp [ColumnText.column]

/-- `" a int , b varchar(7)"`. -/
theorem parseCreateStatement_print_two : ∃ schema,
    parseCreateStatement (createStatement
      [⟨[32], [97], .int, [32]⟩, ⟨[32], [98], .varchar (some 7), []⟩]) = .ok schema ∧
      schema.uninlinedColumns = [1] := by
  obtain ⟨schema, parsed, -, -, uninlined⟩ := @parseCreateStatement_print
    [⟨[32], [97], .int, [32]⟩, ⟨[32], [98], .varchar (some 7), []⟩] (by simp) (by
      intro c hc
      rcases List.mem_pair.1 hc with rfl | rfl
      · exact ⟨by simp [isSpace], by simp [isSpace], by simp, by simp [isSpace], by simp,
          by simp [isUpper], fun n hn => by cases hn⟩
      · exact ⟨by simp [isSpace], by simp, by simp, by simp [isSpace], by simp,
          by simp [isUpper], fun n hn => by cases hn; decide⟩)
  exact ⟨schema, parsed, uninlined.trans (by decide)⟩

end ScuDb
