import ScuDb.Table.TupleLayout

/-!
# Rows and index keys as tuples

`ConstructTuple` makes a tuple from the values SQLite passes.  The size of an index key is chosen
once, for VARCHARs of at most sixteen bytes and up to 64 bytes in all; the key of a row is copied
into it whatever its length is.
-/

namespace ScuDb

open ByteMem

/-- A `sqlite3_value` as its accessors show it; `text` is what stands before the NUL byte, or `none`
for a null pointer.  SQLite has no string of more than `2 ^ 31 - 1` bytes. -/
structure SqliteValue where
  int : Int32
  int64 : Int64
  double : UInt64
  text : Option (List UInt8)
  short : ∀ s ∈ text, s.length < 2147483648

/-- The value of one column; `v` is the value of the column before. -/
def columnValue (type : TypeId) (arg : SqliteValue) (v : Value) (old : Mem 8) :
    Except Failure Value :=
  match type with
  | .boolean | .integer | .smallint | .tinyint => Value.ofInt32 type arg.int old
  | .bigint => Value.ofInt64 type arg.int64 old
  | .decimal => Value.ofDouble type arg.double old
  | .varchar =>
    match arg.text with
    | some s => Value.ofString type s
    | none => .error (.fault .nullDeref)
  | .invalid | .timestamp => .ok v

/-- The loop of `ConstructTuple` from column `i` on; `old` is what the unions of the new values
hold. -/
def columnValues (old : ℕ → Mem 8) : ℕ → List Column → List SqliteValue → Value →
    Except Failure (List Value)
  | _, [], _, _ => .ok []
  | _, _ :: _, [], _ => .error (.fault .outOfBounds)
  | i, column :: columns, arg :: argv, v => do
    let v ← columnValue column.columnType arg v (old i)
    let values ← columnValues old (i + 1) columns argv v
    return v :: values

/-- `ConstructTuple`. -/
def constructTuple (schema : Schema) (argv : List SqliteValue) (old : ℕ → Mem 8)
    (fresh : (n : ℕ) → Mem n) : Except Failure TupleData := do
  let values ← columnValues old 0 schema.columns argv { typeId := .invalid }
  TupleData.new values schema fresh

/-- The `KeySize` of the index that `ConstructIndex` makes. -/
def indexKeySize (keySchema : Schema) : ℕ :=
  let keySize := keySchema.length + 16 * keySchema.uninlinedColumns.length
  if keySize ≤ 4 then 4
  else if keySize ≤ 8 then 8
  else if keySize ≤ 16 then 16
  else if keySize ≤ 32 then 32
  else 64

/-- `SetFromKey` of a `GenericKey`. -/
def setFromKey (keySize : ℕ) (tuple : TupleData) : Except Failure (Mem keySize) :=
  Value.store Mem.zero 0 (tuple.data.slice 0 tuple.size)

/-- The key tuple of `InsertEntry` and `DeleteEntry`. -/
def keyTuple (schema keySchema : Schema) (keyAttrs : List ℕ) (tuple : TupleData)
    (old : ℕ → Mem 8) (fresh : (n : ℕ) → Mem n) : Except Failure TupleData := do
  let keyValues ← keyAttrs.mapM fun i => tuple.getValue schema i (old i)
  TupleData.new keyValues keySchema fresh

/-! ## The length of a key -/

open Schema TupleData

/-- The bytes of text in the VARCHARs. -/
def textBytes (pairs : List (Column × SqliteValue)) : ℕ :=
  (pairs.map fun p => if p.1.isInlined then 0 else (p.2.text.getD []).length).sum

/-- The bytes of a key that are left for text. -/
def textRoom (keySchema : Schema) : ℤ :=
  indexKeySize keySchema - keySchema.length - 5 * keySchema.uninlinedColumns.length

/-- The value of a column that got `a`. -/
structure Holds (c : Column) (a : SqliteValue) (v : Value) : Prop where
  fits : Fits c v
  text : c.isInlined = false → v.len.toNat = (a.text.getD []).length + 1

/-- A column that `ParseCreateStatement` makes. -/
structure Parsed (c : Column) : Prop where
  sized : c.Sized
  type : c.columnType ≠ .invalid ∧ c.columnType ≠ .timestamp

variable {c : Column} {arg : SqliteValue} {v w : Value} {old : Mem 8}

theorem length_uninlinedFrom (cs : List Column) : ∀ k,
    (uninlinedFrom k cs).length = cs.countP fun c => !c.isInlined := by
  induction cs with
  | nil => exact fun _ => rfl
  | cons c cs ih =>
    intro k
    unfold uninlinedFrom
    cases hc : c.isInlined with
    | true => simp [hc, ih]
    | false => simp [hc, ih]

/-- Every VARCHAR takes its text, the NUL byte, and four bytes for the length. -/
theorem varSize_eq {pairs : List (Column × SqliteValue)} {vs : List Value}
    (h : List.Forall₂ (fun p v => Holds p.1 p.2 v) pairs vs) :
    varSize ((pairs.map Prod.fst).zip vs) =
      textBytes pairs + 5 * (pairs.map Prod.fst).countP fun c => !c.isInlined := by
  induction h with
  | nil => rfl
  | @cons p v pairs vs head rest ih =>
    rw [List.map_cons, List.zip_cons_cons, varSize_cons, ih]
    cases hc : p.1.isInlined with
    | true => simp [textBytes, hc]
    | false =>
      have text := head.text hc
      simp only [textBytes, List.map_cons, List.sum_cons, hc, List.countP_cons, Bool.false_eq_true,
        if_false, Bool.not_false, if_true]
      push_cast
      omega

theorem Parsed.fits_fixed (parsed : Parsed c) (fixed : c.columnType ≠ .varchar)
    (type : w.typeId = c.columnType) : Fits c w where
  sized := parsed.sized
  type := type.symm
  proper := ⟨type ▸ parsed.type, fun hv => absurd (type.symm.trans hv) fixed,
    fun hv => absurd (type.symm.trans hv) fixed⟩

theorem holds_ofString (parsed : Parsed c) (varchar : c.columnType = .varchar) {s : List UInt8}
    (text : arg.text = some s) (h : Value.ofString .varchar s = .ok w) : Holds c arg w := by
  have short := arg.short s text
  have len : (UInt32.ofNat (s.length + 1)).toNat = s.length + 1 := by
    rw [UInt32.toNat_ofNat']
    exact Nat.mod_eq_of_lt (by omega)
  cases h
  refine ⟨⟨parsed.sized, varchar, by simp, fun _ => ?_, fun _ => ?_⟩, fun _ => ?_⟩
  · rw [← Bool.not_eq_true]
    intro null
    have mark : UInt32.ofNat (s.length + 1) = valueNull := of_decide_eq_true null
    have := congrArg UInt32.toNat mark
    rw [len] at this
    change s.length + 1 = 4294967295 at this
    omega
  · apply chars_of_varlen rfl rfl
    rw [len, List.length_take, List.length_append, List.length_singleton, min_self]
  · rw [text]
    exact len

/-- The values `ConstructTuple` makes. -/
theorem holds_columnValue (parsed : Parsed c) (h : columnValue c.columnType arg v old = .ok w) :
    Holds c arg w := by
  have inlined (fixed : c.columnType ≠ .varchar) (type : w.typeId = c.columnType) :
      Holds c arg w := by
    refine ⟨parsed.fits_fixed fixed type, fun hc => ?_⟩
    rw [parsed.sized.inlined.2 fixed] at hc
    cases hc
  unfold columnValue at h
  cases type : c.columnType with
  | varchar =>
    simp only [type] at h
    cases text : arg.text with
    | none => simp [text] at h
    | some s =>
      simp only [text] at h
      exact holds_ofString parsed type text h
  | invalid => exact absurd type parsed.type.1
  | timestamp => exact absurd type parsed.type.2
  | _ =>
    simp only [type] at h
    cases h
    exact inlined (by simp [type]) type.symm

/-- What holds of every value holds of the values of a loop. -/
theorem forall₂_columnValues (old : ℕ → Mem 8) {P : Column → SqliteValue → Value → Prop}
    (cs : List Column) (made : ∀ c ∈ cs, ∀ {arg v old w},
      columnValue c.columnType arg v old = .ok w → P c arg w) :
    ∀ {i : ℕ} {argv : List SqliteValue} {v : Value} {vs : List Value},
      columnValues old i cs argv v = .ok vs → (cs.zip argv).map Prod.fst = cs ∧
        List.Forall₂ (fun p v => P p.1 p.2 v) (cs.zip argv) vs := by
  induction cs with
  | nil =>
    intro i argv v vs h
    cases h
    exact ⟨rfl, .nil⟩
  | cons c cs ih =>
    intro i argv v vs h
    obtain ⟨here, rest⟩ := List.forall_mem_cons.1 made
    cases argv with
    | nil => cases h
    | cons arg argv =>
      simp only [columnValues, bind, Except.bind, pure, Except.pure] at h
      cases first : columnValue c.columnType arg v (old i) with
      | error e => simp [first] at h
      | ok w =>
        cases later : columnValues old (i + 1) cs argv w with
        | error e => simp [first, later] at h
        | ok ws =>
          simp only [first, later, Except.ok.injEq] at h
          obtain ⟨columns, held⟩ := ih rest later
          rw [List.zip_cons_cons, List.map_cons, columns]
          exact ⟨rfl, h ▸ .cons (here first) held⟩

theorem holds_columnValues (old : ℕ → Mem 8) (cs : List Column) (parsed : ∀ c ∈ cs, Parsed c)
    {i : ℕ} {argv : List SqliteValue} {v : Value} {vs : List Value}
    (h : columnValues old i cs argv v = .ok vs) : (cs.zip argv).map Prod.fst = cs ∧
      List.Forall₂ (fun p v => Holds p.1 p.2 v) (cs.zip argv) vs := by
  apply forall₂_columnValues old cs _ h
  intro c hc arg v old w made
  exact holds_columnValue (parsed c hc) made

/-! ## Keys that fit -/

section Keys

variable {pairs : List (Column × SqliteValue)} {vs : List Value}

theorem indexKeySize_le (keySchema : Schema) : indexKeySize keySchema ≤ 64 := by
  unfold indexKeySize
  dsimp only
  split_ifs <;> decide

theorem setFromKey_ok_iff (keySize : ℕ) (tuple : TupleData) :
    (∃ data, setFromKey keySize tuple = .ok data) ↔ tuple.size ≤ keySize := by
  unfold setFromKey Value.store
  rw [Mem.length_slice]
  split_ifs with inside
  · exact iff_of_true ⟨_, rfl⟩ (by omega)
  · exact iff_of_false (by simp) (by omega)

/-- The key is made and copied inside its array exactly if its texts are short enough. -/
theorem copied_iff (h : List.Forall₂ (fun p v => Holds p.1 p.2 v) pairs vs)
    (small : fixedSize (pairs.map Prod.fst) < 2147483648) (fresh : (n : ℕ) → Mem n) :
    (∃ key data, TupleData.new vs (Schema.new (pairs.map Prod.fst)) fresh = .ok key ∧
      setFromKey (indexKeySize (Schema.new (pairs.map Prod.fst))) key = .ok data) ↔
      textBytes pairs ≤ textRoom (Schema.new (pairs.map Prod.fst)) := by
  have fits : List.Forall₂ Fits (pairs.map Prod.fst) vs :=
    List.forall₂_map_left_iff.2 (h.imp fun _ _ h => h.fits)
  have bound := indexKeySize_le (Schema.new (pairs.map Prod.fst))
  have total := varSize_eq h
  have room : textRoom (Schema.new (pairs.map Prod.fst)) =
      indexKeySize (Schema.new (pairs.map Prod.fst)) - fixedSize (pairs.map Prod.fst) -
        5 * (pairs.map Prod.fst).countP fun c => !c.isInlined := by
    unfold textRoom
    rw [Schema.new_eq]
    simp only [length_uninlinedFrom]
  generalize indexKeySize (Schema.new (pairs.map Prod.fst)) = keySize at *
  rw [room]
  constructor
  · rintro ⟨key, data, run, copy⟩
    have le := (setFromKey_ok_iff keySize key).1 ⟨data, copy⟩
    have size := (size_eq fits small run).1
    omega
  · intro le
    obtain ⟨key, run, size, -⟩ := new_ok fits (by omega) fresh
    obtain ⟨data, copy⟩ := (setFromKey_ok_iff keySize key).2 (by omega)
    exact ⟨key, data, run, copy⟩

end Keys

/-- The columns of the key are columns of the table. -/
theorem mem_placed {cs : List Column} {c : Column} : ∀ {base : ℤ}, c ∈ placed base cs →
    ∃ c' ∈ cs, ∃ offset, c = { c' with columnOffset := offset } := by
  induction cs with
  | nil => exact nofun
  | cons c' cs ih =>
    intro base h
    rcases List.mem_cons.1 h with rfl | h
    · exact ⟨c', List.mem_cons_self, base, rfl⟩
    · obtain ⟨d, hd, rest⟩ := ih h
      exact ⟨d, List.mem_cons_of_mem _ hd, rest⟩

theorem parsed_placed {cs : List Column} (parsed : ∀ c ∈ cs, Parsed c) (base : ℤ) :
    ∀ c ∈ placed base cs, Parsed c := by
  intro c hc
  obtain ⟨c', hc', offset, rfl⟩ := mem_placed hc
  obtain ⟨sized, type⟩ := parsed c' hc'
  exact ⟨⟨sized.inlined, sized.offset, sized.fits⟩, type⟩

/-- A schema made of columns that already have their offsets. -/
theorem new_placed (cs : List Column) : Schema.new (placed 0 cs) = Schema.new cs := by
  have fold : ∀ (base : ℤ) (s : Schema),
      (placed base cs).foldl addColumn s = cs.foldl addColumn s := by
    induction cs with
    | nil => exact fun _ _ => rfl
    | cons c cs ih => exact fun base s => ih (base + c.fixedLength) (s.addColumn c)
  exact fold 0 {}

theorem fixedSize_placed (cs : List Column) : fixedSize (placed 0 cs) = fixedSize cs :=
  congrArg List.sum (map_fixedLength_placed cs 0)

/-- The key values hold what the row got for the key columns. -/
theorem holds_key {pairs : List (Column × SqliteValue)} {vs ws : List Value}
    (held : List.Forall₂ (fun p v => Holds p.1 p.2 v) pairs vs) {ids : List ℕ} {ks : List Column}
    (columns : List.Forall₂ (fun i k => (pairs.map Prod.fst)[i]? = some k) ids ks)
    (fits : List.Forall₂ Fits ks ws)
    (backs : List.Forall₂ (fun i w => ∃ v, vs[i]? = some v ∧ Value.ReadsBack w v) ids ws) :
    (ids.filterMap fun i => pairs[i]?).map Prod.fst = ks ∧
      List.Forall₂ (fun p w => Holds p.1 p.2 w) (ids.filterMap fun i => pairs[i]?) ws := by
  induction columns generalizing ws with
  | nil =>
    cases backs
    exact ⟨rfl, .nil⟩
  | @cons i k ids ks hk _ ih =>
    obtain _ | ⟨⟨v, hv, back⟩, restBacks⟩ := backs
    obtain _ | ⟨fit, restFits⟩ := fits
    obtain ⟨p, hp, rfl⟩ : ∃ p, pairs[i]? = some p ∧ p.1 = k := by
      rw [List.getElem?_map] at hk
      exact Option.map_eq_some_iff.1 hk
    obtain ⟨same, rest⟩ := ih restFits restBacks
    rw [List.filterMap_cons_some hp, List.map_cons, same]
    refine ⟨rfl, .cons ⟨fit, fun uninlined => ?_⟩ rest⟩
    have holds : Holds p.1 p.2 v := by
      obtain ⟨hi, rfl⟩ := List.getElem?_eq_some_iff.1 hp
      obtain ⟨hi', rfl⟩ := List.getElem?_eq_some_iff.1 hv
      exact held.get hi hi'
    have varchar : p.1.columnType = .varchar := by
      by_contra fixed
      rw [fit.sized.inlined.2 fixed] at uninlined
      cases uninlined
    rw [← holds.text uninlined]
    have read := back.proper.length_payload (fit.type.symm.trans varchar)
    rw [back.payload, holds.fits.proper.length_payload (holds.fits.type.symm.trans varchar)] at read
    exact read.symm

theorem mapM_ok_of_forall {α β ε : Type} {f : α → Except ε β} {l : List α}
    (h : ∀ a ∈ l, ∃ b, f a = .ok b) : ∃ r, l.mapM f = .ok r := by
  induction l with
  | nil => exact ⟨[], rfl⟩
  | cons a l ih =>
    obtain ⟨⟨b, hb⟩, rest⟩ := List.forall_mem_cons.1 h
    obtain ⟨r, hr⟩ := ih rest
    exact ⟨b :: r, by rw [List.mapM_cons, hb, hr]; rfl⟩

/-- `InsertEntry` and `DeleteEntry` copy the key of `row` inside the array of the key. -/
def RowKeyCopied (schema keySchema : Schema) (keyAttrs : List ℕ) (row : TupleData)
    (old : ℕ → Mem 8) (fresh : (n : ℕ) → Mem n) : Prop :=
  ∃ key data, keyTuple schema keySchema keyAttrs row old fresh = .ok key ∧
    setFromKey (indexKeySize keySchema) key = .ok data

/-- So does `VtabFilter` with the key of a scan. -/
def ScanKeyCopied (keySchema : Schema) (argv : List SqliteValue) (old : ℕ → Mem 8)
    (fresh : (n : ℕ) → Mem n) : Prop :=
  ∃ key data, constructTuple keySchema argv old fresh = .ok key ∧
    setFromKey (indexKeySize keySchema) key = .ok data

section Row

variable {ps : List Column} {argv : List SqliteValue} {vs : List Value} {row : TupleData}
  {fresh : (n : ℕ) → Mem n} {ids : List ℕ} {ks : List Column}

/-- Every key column of a row can be read. -/
theorem getValue_ok (fits : List.Forall₂ Fits ps vs) (laid : placed 0 ps = ps)
    (chosen : List.Forall₂ (fun i k => ps[i]? = some k) ids ks)
    (reads : ∀ (i : ℕ) v, vs[i]? = some v → ∀ old,
      ∃ w, row.getValue (Schema.new ps) i old = .ok w ∧ Value.ReadsBack w v) (old : ℕ → Mem 8) :
    ∃ ws, ids.mapM (fun i => row.getValue (Schema.new ps) i (old i)) = .ok ws ∧
      List.Forall₂ Fits ks ws ∧
        List.Forall₂ (fun i w => ∃ v, vs[i]? = some v ∧ Value.ReadsBack w v) ids ws := by
  obtain ⟨ws, read⟩ : ∃ ws, ids.mapM (fun i => row.getValue (Schema.new ps) i (old i)) = .ok ws := by
    apply mapM_ok_of_forall
    intro i hi
    obtain ⟨k, hk⟩ : ∃ k, ps[i]? = some k := by
      obtain ⟨n, hn, rfl⟩ := List.getElem_of_mem hi
      exact ⟨_, chosen.get hn (chosen.length_eq ▸ hn)⟩
    have inside : i < vs.length := by
      rw [← fits.length_eq]
      exact (List.getElem?_eq_some_iff.1 hk).1
    obtain ⟨w, hw, -⟩ := reads i _ (List.getElem?_eq_getElem inside) (old i)
    exact ⟨w, hw⟩
  refine ⟨ws, read, ?_⟩
  rw [← laid] at chosen
  apply fits_key fits reads chosen
  exact (forall₂_of_mapM read).imp fun i w h => ⟨old i, h⟩

/-- The key of a row, when the columns have their offsets. -/
theorem rowKeyCopied_of_laid (parsed : ∀ c ∈ ps, Parsed c) (laid : placed 0 ps = ps)
    (small : fixedSize ps < 2147483648) (keySmall : fixedSize ks < 2147483648)
    (chosen : List.Forall₂ (fun i k => ps[i]? = some k) ids ks) {old : ℕ → Mem 8} {v : Value}
    (run : columnValues old 0 ps argv v = .ok vs)
    (made : TupleData.new vs (Schema.new ps) fresh = .ok row) (old' : ℕ → Mem 8)
    (fresh' : (n : ℕ) → Mem n) :
    RowKeyCopied (Schema.new ps) (Schema.new ks) ids row old' fresh' ↔
      textBytes (ids.filterMap fun i => (ps.zip argv)[i]?) ≤ textRoom (Schema.new ks) := by
  obtain ⟨firsts, held⟩ := holds_columnValues old _ parsed run
  have fits : List.Forall₂ Fits ps vs := by
    rw [← firsts]
    exact List.forall₂_map_left_iff.2 (held.imp fun _ _ h => h.fits)
  obtain ⟨size, short⟩ := size_eq fits small made
  obtain ⟨row', made', -, reads⟩ := new_ok fits (size ▸ short) fresh
  cases made.symm.trans made'
  obtain ⟨ws, read, keyFits, backs⟩ := getValue_ok fits laid chosen reads old'
  rw [← firsts] at chosen
  obtain ⟨keyFirsts, keyHeld⟩ := holds_key held chosen keyFits backs
  have made : keyTuple (Schema.new ps) (Schema.new ks) ids row old' fresh' =
      TupleData.new ws (Schema.new ks) fresh' := by
    unfold keyTuple
    rw [read]
    rfl
  unfold RowKeyCopied
  rw [made]
  subst keyFirsts
  exact copied_iff keyHeld keySmall fresh'

end Row

theorem rowKeyCopied_iff {columns : List Column} (parsed : ∀ c ∈ columns, Parsed c)
    (small : (Schema.new columns).length < 2147483648) {keyAttrs : List ℕ} {keySchema : Schema}
    (copied : (Schema.new columns).copySchema keyAttrs = .ok keySchema)
    (keySmall : keySchema.length < 2147483648) {argv : List SqliteValue} {row : TupleData}
    {old : ℕ → Mem 8} {fresh : (n : ℕ) → Mem n}
    (made : constructTuple (Schema.new columns) argv old fresh = .ok row) (old' : ℕ → Mem 8)
    (fresh' : (n : ℕ) → Mem n) :
    RowKeyCopied (Schema.new columns) keySchema keyAttrs row old' fresh' ↔
      textBytes (keyAttrs.filterMap fun i => ((Schema.new columns).columns.zip argv)[i]?) ≤
        textRoom keySchema := by
  have laid : placed 0 (placed 0 columns) = placed 0 columns := by
    have same := congrArg Schema.columns (new_placed columns)
    rwa [Schema.new_eq, Schema.new_eq] at same
  have shape : (Schema.new columns).columns = placed 0 columns := by rw [Schema.new_eq]
  obtain ⟨ks, chosen, rfl⟩ := copySchema_ok copied
  rw [← new_placed, Schema.new_eq] at small
  rw [Schema.new_eq] at keySmall
  unfold constructTuple at made
  rw [shape, ← new_placed] at made
  rw [shape, ← new_placed]
  cases run : columnValues old 0 (placed 0 columns) argv { typeId := .invalid } with
  | error e =>
    rw [run] at made
    cases made
  | ok vs =>
    rw [run] at made
    apply rowKeyCopied_of_laid (parsed_placed parsed 0) laid small keySmall chosen run made

theorem scanKeyCopied_iff {ks : List Column} (parsed : ∀ c ∈ ks, Parsed c)
    (small : (Schema.new ks).length < 2147483648) {argv : List SqliteValue} {values : List Value}
    {old : ℕ → Mem 8} (run : columnValues old 0 (Schema.new ks).columns argv
      { typeId := .invalid } = .ok values) (fresh : (n : ℕ) → Mem n) :
    ScanKeyCopied (Schema.new ks) argv old fresh ↔
      textBytes ((Schema.new ks).columns.zip argv) ≤ textRoom (Schema.new ks) := by
  have columns : (Schema.new ks).columns = placed 0 ks := by rw [Schema.new_eq]
  have length : (Schema.new ks).length = fixedSize ks := by rw [Schema.new_eq]
  have made : constructTuple (Schema.new ks) argv old fresh =
      TupleData.new values (Schema.new ks) fresh := by
    unfold constructTuple
    rw [run]
    rfl
  rw [columns] at run ⊢
  rw [length] at small
  obtain ⟨firsts, held⟩ := holds_columnValues old _ (parsed_placed parsed 0) run
  have fit := copied_iff held (by rwa [firsts, fixedSize_placed]) fresh
  rw [firsts, new_placed] at fit
  unfold ScanKeyCopied
  rw [made]
  exact fit

/-- A key is copied inside its array exactly if its texts are no longer than the room for them. -/
theorem keyCopied_iff {columns : List Column} (parsed : ∀ c ∈ columns, Parsed c)
    (small : (Schema.new columns).length < 2147483648) {keyAttrs : List ℕ} {keySchema : Schema}
    (copied : (Schema.new columns).copySchema keyAttrs = .ok keySchema)
    (keySmall : keySchema.length < 2147483648) (old : ℕ → Mem 8) (fresh : (n : ℕ) → Mem n) :
    (∀ argv row old' fresh', constructTuple (Schema.new columns) argv old' fresh' = .ok row →
      (RowKeyCopied (Schema.new columns) keySchema keyAttrs row old fresh ↔
        textBytes (keyAttrs.filterMap fun i => ((Schema.new columns).columns.zip argv)[i]?) ≤
          textRoom keySchema)) ∧
    ∀ argv values, columnValues old 0 keySchema.columns argv { typeId := .invalid } = .ok values →
      (ScanKeyCopied keySchema argv old fresh ↔
        textBytes (keySchema.columns.zip argv) ≤ textRoom keySchema) := by
  constructor
  · intro argv row old' fresh' made
    exact rowKeyCopied_iff parsed small copied keySmall made old fresh
  · intro argv values run
    obtain ⟨ks, chosen, rfl⟩ := copySchema_ok copied
    have shape : (Schema.new columns).columns = placed 0 columns := by rw [Schema.new_eq]
    have keyParsed : ∀ c ∈ ks, Parsed c := by
      intro c hc
      obtain ⟨n, hn, rfl⟩ := List.getElem_of_mem hc
      have chosen_n := chosen.get (chosen.length_eq ▸ hn) hn
      exact parsed_placed parsed 0 _ (List.mem_of_getElem? chosen_n)
    exact scanKeyCopied_iff keyParsed keySmall run fresh

def textValue (n : Fin 100) : SqliteValue where
  int := 0
  int64 := 0
  double := 0
  text := some (List.replicate n 97)
  short := by
    rintro s ⟨⟩
    rw [List.length_replicate]
    omega

theorem parsed_varcharColumn : ∀ c ∈ [varcharColumn], Parsed c := by
  intro c hc
  rw [List.mem_singleton.1 hc]
  exact ⟨⟨by decide, by decide, by decide⟩, by decide⟩

/-- The index on one VARCHAR has keys of 32 bytes; a text of 24 bytes makes a key of 33. -/
theorem not_keyCopied : ¬ ∀ (columns : List Column), (∀ c ∈ columns, Parsed c) →
    (Schema.new columns).length < 2147483648 → ∀ keyAttrs keySchema,
      (Schema.new columns).copySchema keyAttrs = .ok keySchema → keySchema.length < 2147483648 →
      ∀ argv row old fresh, constructTuple (Schema.new columns) argv old fresh = .ok row →
        RowKeyCopied (Schema.new columns) keySchema keyAttrs row old fresh := by
  intro claim
  have copied : (Schema.new [varcharColumn]).copySchema [0] =
      .ok (Schema.new (Schema.new [varcharColumn]).columns) := rfl
  obtain ⟨row, made⟩ : ∃ row, constructTuple (Schema.new [varcharColumn]) [textValue 24]
      (fun _ => Mem.zero) (fun _ => Mem.zero) = .ok row := ⟨_, rfl⟩
  have inside := claim _ parsed_varcharColumn (by decide) _ _ copied (by decide) _ _ _ _ made
  have room := rowKeyCopied_iff parsed_varcharColumn (by decide) copied (by decide) made
    (fun _ => Mem.zero) fun _ => Mem.zero
  have short := room.1 inside
  revert short
  decide

theorem keyCopied_varchar : ∃ row, constructTuple (Schema.new [varcharColumn]) [textValue 23]
    (fun _ => Mem.zero) (fun _ => Mem.zero) = .ok row ∧
      RowKeyCopied (Schema.new [varcharColumn]) (Schema.new (Schema.new [varcharColumn]).columns)
        [0] row (fun _ => Mem.zero) fun _ => Mem.zero := by
  obtain ⟨row, made⟩ : ∃ row, constructTuple (Schema.new [varcharColumn]) [textValue 23]
      (fun _ => Mem.zero) (fun _ => Mem.zero) = .ok row := ⟨_, rfl⟩
  have copied : (Schema.new [varcharColumn]).copySchema [0] =
      .ok (Schema.new (Schema.new [varcharColumn]).columns) := rfl
  have room := keyCopied_iff parsed_varcharColumn (by decide) copied (by decide)
    (fun _ => Mem.zero) fun _ => Mem.zero
  refine ⟨row, made, ?_⟩
  apply (room.1 _ _ _ _ made).2
  decide

end ScuDb
