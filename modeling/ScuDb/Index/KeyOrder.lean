import ScuDb.Index.GenericKey

/-!
# Keys from `ConstructTuple`

The keys of a schema are ordered exactly when no column is NULL in one of them and not in another.
-/

namespace ScuDb

open ByteMem LittleEndian

namespace GenericKey

open Value Schema TupleData NullableOrder

variable {n i : ℕ} {c : Column} {v : Value} {arg : SqliteValue} {key key' : Mem n}
  {other : OtherClasses}

section Laid

/-! Columns that have their offsets. -/

variable {ps : List Column} {argv : List SqliteValue}

theorem columns_laid (laid : placed 0 ps = ps) : (Schema.new ps).columns = ps := by
  rw [Schema.new_eq]
  exact laid

/-- The arguments that `ConstructTuple` takes for the columns. -/
def Takes (cs : List Column) (argv : List SqliteValue) : Prop :=
  cs.length ≤ argv.length ∧ ∀ p ∈ cs.zip argv, p.1.columnType = .varchar → p.2.text ≠ none

/-- The bytes of the key. -/
def keyLength (cs : List Column) (argv : List SqliteValue) : ℤ :=
  fixedSize cs + (textBytes (cs.zip argv) + 5 * cs.countP fun c => !c.isInlined)

theorem columnValues_iff (old : ℕ → Mem 8) {cs : List Column} (keys : ∀ c ∈ cs, KeyColumn c) :
    ∀ {i : ℕ} {argv : List SqliteValue} {v : Value},
      (∃ vs, columnValues old i cs argv v = .ok vs) ↔ Takes cs argv := by
  induction cs with
  | nil => exact fun {_ _ _} => iff_of_true ⟨_, rfl⟩ ⟨Nat.zero_le _, nofun⟩
  | cons c cs ih =>
    intro i argv v
    obtain ⟨here, rest⟩ := List.forall_mem_cons.1 keys
    cases argv with
    | nil =>
      apply iff_of_false
      · rintro ⟨vs, ⟨⟩⟩
      · rintro ⟨⟨⟩, -⟩
    | cons a argv =>
      have takes : Takes (c :: cs) (a :: argv) ↔
          (c.columnType = .varchar → a.text ≠ none) ∧ Takes cs argv := by
        simp [Takes, and_left_comm]
      have first : (∃ w, columnValue c.columnType a v (old i) = .ok w) ↔
          (c.columnType = .varchar → a.text ≠ none) := by
        by_cases varchar : c.columnType = .varchar
        · constructor
          · rintro ⟨w, made⟩ -
            obtain ⟨s, text⟩ := text_columnValue varchar made
            rw [text]
            exact nofun
          · intro some
            obtain ⟨s, text⟩ := Option.ne_none_iff_exists'.1 (some varchar)
            exact ⟨_, by rw [varchar, columnValue, text]; rfl⟩
        · exact iff_of_true ⟨_, columnValue_fixed here varchar⟩ fun e => absurd e varchar
      rw [takes, ← first]
      constructor
      · rintro ⟨vs, made⟩
        simp only [columnValues] at made
        cases value : columnValue c.columnType a v (old i) with
        | error e =>
          rw [value] at made
          cases made
        | ok w =>
          rw [value] at made
          cases later : columnValues old (i + 1) cs argv w with
          | error e =>
            simp only [later, bind, Except.bind] at made
            cases made
          | ok ws => exact ⟨⟨w, rfl⟩, (ih rest).1 ⟨ws, later⟩⟩
      · rintro ⟨⟨w, value⟩, more⟩
        obtain ⟨ws, later⟩ := (ih rest).2 more
        refine ⟨w :: ws, ?_⟩
        simp only [columnValues, value, bind, Except.bind]
        rw [later]
        rfl

/-- A key is built from the arguments if they are taken and their bytes fit. -/
theorem exists_built (keys : ∀ c ∈ ps, KeyColumn c) (laid : placed 0 ps = ps)
    (small : fixedSize ps < 2147483648) :
    (∃ key : Mem n, Built (Schema.new ps) argv key) ↔
      Takes ps argv ∧ keyLength ps argv ≤ n ∧ keyLength ps argv < 2147483648 := by
  have made {old : ℕ → Mem 8} {vs : List Value}
      (run : columnValues old 0 ps argv { typeId := .invalid } = .ok vs) :
      List.Forall₂ Fits ps vs ∧ fixedSize ps + varSize (ps.zip vs) = keyLength ps argv := by
    obtain ⟨firsts, held⟩ := holds_columnValues old _ (fun c hc => (keys c hc).parsed) run
    have fits : List.Forall₂ Fits ps vs := by
      rw [← firsts]
      exact List.forall₂_map_left_iff.2 (held.imp fun _ _ h => h.fits)
    have size := varSize_eq held
    rw [firsts] at size
    exact ⟨fits, by rw [size, keyLength]⟩
  have unfolded (old : ℕ → Mem 8) (fresh : (n : ℕ) → Mem n) :
      constructTuple (Schema.new ps) argv old fresh =
        columnValues old 0 ps argv { typeId := .invalid } >>= fun vs =>
          TupleData.new vs (Schema.new ps) fresh := by
    rw [constructTuple, columns_laid laid]
  constructor
  · rintro ⟨key, old, fresh, tuple, built, copy⟩
    rw [unfolded] at built
    cases run : columnValues old 0 ps argv { typeId := .invalid } with
    | error e =>
      rw [run] at built
      cases built
    | ok vs =>
      rw [run] at built
      obtain ⟨fits, length⟩ := made run
      obtain ⟨size, short⟩ := size_eq fits small built
      have le := (setFromKey_ok_iff n tuple).1 ⟨key, copy⟩
      exact ⟨(columnValues_iff old keys).1 ⟨vs, run⟩, by omega, by omega⟩
  · rintro ⟨takes, le, short⟩
    obtain ⟨vs, run⟩ := (columnValues_iff (fun _ => Mem.zero) keys).2 takes
    obtain ⟨fits, length⟩ := made run
    obtain ⟨tuple, built, size, -⟩ := new_ok fits (by omega) fun _ => Mem.zero
    obtain ⟨key, copy⟩ := (setFromKey_ok_iff n tuple).2 (by omega)
    refine ⟨key, fun _ => Mem.zero, fun _ => Mem.zero, tuple, ?_, copy⟩
    rw [unfolded, run]
    exact built

/-- Every column of a built key shows its argument. -/
theorem Built.reads (h : Built (Schema.new ps) argv key) (keys : ∀ c ∈ ps, KeyColumn c)
    (laid : placed 0 ps = ps) (small : fixedSize ps < 2147483648) :
    Reads (Schema.new ps) key 0 (ps.zip argv) := by
  obtain ⟨old, fresh, tuple, built, copied⟩ := h
  rw [constructTuple, columns_laid laid] at built
  cases run : columnValues old 0 ps argv { typeId := .invalid } with
  | error e =>
    rw [run] at built
    cases built
  | ok vs =>
    rw [run] at built
    obtain ⟨firsts, held⟩ := forall₂_columnValues old
      (P := fun c a w => Holds c a w ∧ ∃ v old, columnValue c.columnType a v old = .ok w) ps
      (fun c hc _ _ _ _ made => ⟨holds_columnValue (keys c hc).parsed made, _, _, made⟩) run
    have fits : List.Forall₂ Fits ps vs := by
      rw [← firsts]
      exact List.forall₂_map_left_iff.2 (held.imp fun _ _ h => h.1.fits)
    obtain ⟨size, short⟩ := size_eq fits small built
    obtain ⟨tuple', built', -, reads⟩ := new_ok fits (size ▸ short) fresh
    cases built.symm.trans built'
    intro j p hp old'
    obtain ⟨inside, rfl⟩ := List.getElem?_eq_some_iff.1 hp
    have inside' : j < vs.length := by rwa [← held.length_eq]
    obtain ⟨-, v, old'', made⟩ := held.get inside inside'
    obtain ⟨w, read, back⟩ := reads j _ (List.getElem?_eq_getElem inside') old'
    have column : (Schema.new ps).columns[j]? = some ((ps.zip argv)[j]).1 := by
      rw [columns_laid laid, List.getElem_zip]
      exact List.getElem?_eq_getElem _
    refine ⟨w, ?_, Shown.of_readsBack (keys _ ?_) made back⟩
    · unfold TupleData.getValue at read
      unfold toValue
      rw [column] at read
      rw [zero_add, column]
      exact readColumn_setFromKey copied read
    · rw [List.getElem_zip]
      exact List.getElem_mem _

/-! ## The order -/

theorem zip_set {cs : List Column} : ∀ {argv : List SqliteValue} {i : ℕ}, cs[i]? = some c →
    cs.zip (argv.set i arg) = (cs.zip argv).set i (c, arg) := by
  induction cs with
  | nil => exact nofun
  | cons d cs ih =>
    intro argv i here
    cases argv with
    | nil => rfl
    | cons a argv =>
      cases i with
      | zero =>
        cases here
        rfl
      | succ i =>
        rw [List.set_cons_succ, List.zip_cons_cons, List.zip_cons_cons, List.set_cons_succ,
          ih here]

/-- Another argument for a column of a fixed width. -/
theorem exists_built_set (keys : ∀ c ∈ ps, KeyColumn c) (laid : placed 0 ps = ps)
    (small : fixedSize ps < 2147483648) (built : Built (Schema.new ps) argv key)
    (column : ps[i]? = some c) (fixed : c.columnType ≠ .varchar) (arg : SqliteValue) :
    ∃ key' : Mem n, Built (Schema.new ps) (argv.set i arg) key' := by
  obtain ⟨⟨long, texts⟩, fits⟩ := (exists_built keys laid small).1 ⟨key, built⟩
  have inside : i < ps.length := (List.getElem?_eq_some_iff.1 column).1
  have old : (ps.zip argv)[i]? = some (c, argv[i]) := by
    rw [List.getElem?_zip_eq_some]
    exact ⟨column, List.getElem?_eq_getElem _⟩
  have inlined : c.isInlined = true :=
    (keys c (List.mem_of_getElem? column)).parsed.sized.inlined.2 fixed
  have same : textBytes (ps.zip (argv.set i arg)) = textBytes (ps.zip argv) := by
    rw [zip_set column, textBytes, textBytes]
    congr 1
    apply List.ext_getElem?
    intro j
    rw [List.getElem?_map, List.getElem?_map, List.getElem?_set]
    split_ifs with here there
    · rw [← here, old]
      simp [inlined]
    · rw [← here, List.getElem?_eq_none (not_lt.1 (here ▸ there))]
    · rfl
  apply (exists_built keys laid small).2
  rw [keyLength, same]
  refine ⟨⟨?_, fun p hp => ?_⟩, fits⟩
  · rwa [List.length_set]
  · rw [zip_set column] at hp
    rcases List.mem_or_eq_of_mem_set hp with hp | rfl
    · exact texts p hp
    · exact fun varchar => absurd varchar fixed

/-- The comparator compares the entries of the arguments. -/
theorem genericComparator_eq (keys : ∀ c ∈ ps, KeyColumn c) (laid : placed 0 ps = ps)
    (small : fixedSize ps < 2147483648) {as bs : List SqliteValue}
    (ha : Built (Schema.new ps) as key) (hb : Built (Schema.new ps) bs key') (old : ℕ → Unions) :
    genericComparator other (Schema.new ps) old key key' =
      .ok (compareRows (row (ps.zip as)) (row (ps.zip bs))) := by
  have longA := ((exists_built keys laid small).1 ⟨key, ha⟩).1.1
  have longB := ((exists_built keys laid small).1 ⟨key', hb⟩).1.1
  unfold genericComparator getColumnCount
  rw [columns_laid laid]
  exact compareFrom_eq old keys longA longB (ha.reads keys laid small) (hb.reads keys laid small)

theorem Built.zip (keys : ∀ c ∈ ps, KeyColumn c) (laid : placed 0 ps = ps)
    (small : fixedSize ps < 2147483648) (h : Built (Schema.new ps) argv key) (inside : i < ps.length) :
    ∃ c a, ps[i]? = some c ∧ argv[i]? = some a ∧ (ps.zip argv)[i]? = some (c, a) := by
  have long := ((exists_built keys laid small).1 ⟨key, h⟩).1.1
  have there : i < argv.length := by omega
  refine ⟨ps[i], argv[i], List.getElem?_eq_getElem _, List.getElem?_eq_getElem _, ?_⟩
  rw [List.getElem?_zip_eq_some]
  exact ⟨List.getElem?_eq_getElem _, List.getElem?_eq_getElem _⟩

/-- Keys with the same entries agree. -/
theorem agree_of_row_eq (keys : ∀ c ∈ ps, KeyColumn c) (laid : placed 0 ps = ps)
    (small : fixedSize ps < 2147483648) {as bs : List SqliteValue}
    (ha : Built (Schema.new ps) as key) (hb : Built (Schema.new ps) bs key')
    (eq : row (ps.zip as) = row (ps.zip bs)) : Agree (Schema.new ps) key key' := by
  intro i inside old old'
  rw [getColumnCount, columns_laid laid] at inside
  obtain ⟨c, a, column, -, pairA⟩ := ha.zip keys laid small inside
  obtain ⟨c', b, column', -, pairB⟩ := hb.zip keys laid small inside
  cases column.symm.trans column'
  obtain ⟨v, readV, shownV⟩ := ha.reads keys laid small i _ pairA old
  obtain ⟨w, readW, shownW⟩ := hb.reads keys laid small i _ pairB old'
  rw [zero_add] at readV readW
  have entries := congrArg (fun r => r[i]?) eq
  simp only [row, List.getElem?_map, pairA, pairB, Option.map_some, Option.some.injEq] at entries
  exact ⟨v, w, readV, readW, shownV.same shownW entries⟩

/-- Keys that agree are NULL in the same columns. -/
theorem Agree.storesNull (h : Agree (Schema.new ps) key key') (keys : ∀ c ∈ ps, KeyColumn c)
    (laid : placed 0 ps = ps) (small : fixedSize ps < 2147483648) {as bs : List SqliteValue}
    (ha : Built (Schema.new ps) as key) (hb : Built (Schema.new ps) bs key') {a b : SqliteValue}
    (column : ps[i]? = some c) (argA : as[i]? = some a) (argB : bs[i]? = some b) :
    StoresNull c a ↔ StoresNull c b := by
  have inside := (List.getElem?_eq_some_iff.1 column).1
  obtain ⟨v, w, readV, readW, same⟩ := h i (by rwa [getColumnCount, columns_laid laid])
    Mem.zero Mem.zero
  have pairA : (ps.zip as)[i]? = some (c, a) := List.getElem?_zip_eq_some.2 ⟨column, argA⟩
  have pairB : (ps.zip bs)[i]? = some (c, b) := List.getElem?_zip_eq_some.2 ⟨column, argB⟩
  obtain ⟨v', readV', shownV⟩ := ha.reads keys laid small i _ pairA Mem.zero
  obtain ⟨w', readW', shownW⟩ := hb.reads keys laid small i _ pairB Mem.zero
  rw [zero_add] at readV' readW'
  cases readV.symm.trans readV'
  cases readW.symm.trans readW'
  rw [← shownV.isNull_iff, ← shownW.isNull_iff, same.isNull]

/-- The keys that arguments of the allowed sets make. -/
def keysOf (keySchema : Schema) (allowed : ℕ → Set SqliteValue) : Set (Mem n) :=
  fun key => ∃ argv, Built keySchema argv key ∧ ∀ (i : ℕ) a, argv[i]? = some a → a ∈ allowed i

/-- No column is NULL in one key and not in another. -/
def UniformNulls (n : ℕ) (keySchema : Schema) (allowed : ℕ → Set SqliteValue) : Prop :=
  ∀ argv (key : Mem n), Built keySchema argv key →
    (∀ (i : ℕ) a, argv[i]? = some a → a ∈ allowed i) →
    ∀ (i : ℕ) c a, keySchema.columns[i]? = some c → argv[i]? = some a → StoresNull c a →
      ∀ b ∈ allowed i, StoresNull c b

theorem sameUnknown (keys : ∀ c ∈ ps, KeyColumn c) (laid : placed 0 ps = ps)
    (small : fixedSize ps < 2147483648) {allowed : ℕ → Set SqliteValue}
    (uniform : UniformNulls n (Schema.new ps) allowed) {as bs : List SqliteValue}
    (ha : Built (Schema.new ps) as key) (allowedA : ∀ (i : ℕ) a, as[i]? = some a → a ∈ allowed i)
    (hb : Built (Schema.new ps) bs key') (allowedB : ∀ (i : ℕ) b, bs[i]? = some b → b ∈ allowed i) :
    SameUnknown (row (ps.zip as)) (row (ps.zip bs)) := by
  have longA := ((exists_built keys laid small).1 ⟨key, ha⟩).1.1
  have longB := ((exists_built keys laid small).1 ⟨key', hb⟩).1.1
  have unknown (c : Column) (a : SqliteValue) : entry c a = none ↔ StoresNull c a := by
    unfold entry
    split_ifs with null <;> simp [null]
  have same {i : ℕ} {c : Column} {a b : SqliteValue} (column : ps[i]? = some c)
      (argA : as[i]? = some a) (argB : bs[i]? = some b) : StoresNull c a ↔ StoresNull c b := by
    rw [← columns_laid laid] at column
    constructor
    · intro null
      exact uniform as key ha allowedA i c a column argA null b (allowedB i b argB)
    · intro null
      exact uniform bs key' hb allowedB i c b column argB null a (allowedA i a argA)
  rw [SameUnknown, List.forall₂_iff_get]
  constructor
  · simp only [row, List.length_map, List.length_zip]
    omega
  · intro i inA inB
    simp only [row, List.length_map, List.length_zip] at inA inB
    simp only [row, List.get_eq_getElem, List.getElem_map, List.getElem_zip, unknown]
    apply same <;> exact List.getElem?_eq_getElem _

/-- The order of the keys of laid-out columns. -/
theorem ordered_keysOf_iff (keys : ∀ c ∈ ps, KeyColumn c) (laid : placed 0 ps = ps)
    (small : fixedSize ps < 2147483648) (other : OtherClasses) (n : ℕ)
    (allowed : ℕ → Set SqliteValue) :
    Ordered other (Schema.new ps) (keysOf (n := n) (Schema.new ps) allowed) ↔
      UniformNulls n (Schema.new ps) allowed := by
  constructor
  · -- a key with a NULL ties with the key that has another value there
    intro ordered argv key built allowedA i c a column argA null b hb
    by_contra notNull
    rw [columns_laid laid] at column
    have fixed := null.1
    obtain ⟨key', built'⟩ := exists_built_set keys laid small built column fixed b
    have inside := (List.getElem?_eq_some_iff.1 argA).1
    have argB : (argv.set i b)[i]? = some b := List.getElem?_set_self inside
    have allowedB : ∀ (j : ℕ) x, (argv.set i b)[j]? = some x → x ∈ allowed j := by
      intro j x hx
      rw [List.getElem?_set] at hx
      split_ifs at hx with here
      · cases hx
        exact here ▸ hb
      · exact allowedA j x hx
    have unknown : (row (ps.zip argv))[i]? = some none := by
      have pair : (ps.zip argv)[i]? = some (c, a) := List.getElem?_zip_eq_some.2 ⟨column, argA⟩
      rw [row, List.getElem?_map, pair, Option.map_some, entry, if_pos null]
    have tie : genericComparator other (Schema.new ps) (fun _ => ⟨Mem.zero, Mem.zero, Mem.zero⟩)
        key key' = _ := genericComparator_eq keys laid small built built' _
    rw [zip_set column, row, row, List.map_set, ← row, compareRows_set _ unknown] at tie
    have agree := ordered.agree key ⟨argv, built, allowedA⟩ key' ⟨_, built', allowedB⟩ _ tie
    exact notNull ((agree.storesNull keys laid small built built' column argA argB).1 null)
  · intro uniform
    constructor
    · rintro a ⟨as, ha, -⟩ b ⟨bs, hb, -⟩ old old'
      refine ⟨_, genericComparator_eq keys laid small ha hb old, ?_⟩
      rw [genericComparator_eq keys laid small hb ha, compareRows_swap]
    · rintro a ⟨as, ha, allowedA⟩ b ⟨bs, hb, allowedB⟩ c ⟨cs, hc, allowedC⟩ old old' old'' r r' r''
        ab bc ac le le'
      rw [genericComparator_eq keys laid small ha hb] at ab
      rw [genericComparator_eq keys laid small hb hc] at bc
      rw [genericComparator_eq keys laid small ha hc] at ac
      cases ab
      cases bc
      cases ac
      apply compareRows_trans _ _ le le'
      · exact sameUnknown keys laid small uniform ha allowedA hb allowedB
      · exact sameUnknown keys laid small uniform hb allowedB hc allowedC
    · rintro a ⟨as, ha, allowedA⟩ b ⟨bs, hb, allowedB⟩ old tie
      rw [genericComparator_eq keys laid small ha hb] at tie
      apply agree_of_row_eq keys laid small ha hb
      apply compareRows_eq_zero _ (Except.ok.inj tie)
      exact sameUnknown keys laid small uniform ha allowedA hb allowedB

end Laid

/-- The comparator orders the keys exactly when no column is NULL in one and not in another. -/
theorem keys_ordered_iff {columns : List Column} (keys : ∀ c ∈ columns, KeyColumn c)
    (small : (Schema.new columns).length < 2147483648) (other : OtherClasses) (n : ℕ)
    (allowed : ℕ → Set SqliteValue) :
    Ordered other (Schema.new columns) (keysOf (n := n) (Schema.new columns) allowed) ↔
      UniformNulls n (Schema.new columns) allowed := by
  have laid : placed 0 (placed 0 columns) = placed 0 columns := by
    have same := congrArg Schema.columns (new_placed columns)
    rwa [Schema.new_eq, Schema.new_eq] at same
  have placedKeys : ∀ c ∈ placed 0 columns, KeyColumn c := by
    intro c hc
    obtain ⟨c', hc', offset, rfl⟩ := mem_placed hc
    exact ⟨parsed_placed (fun d hd => (keys d hd).parsed) 0 _ hc, (keys c' hc').notDecimal⟩
  rw [Schema.new_eq] at small
  rw [← new_placed]
  apply ordered_keysOf_iff placedKeys laid
  rwa [fixedSize_placed]

/-- An INTEGER column. -/
def integerColumn : Column :=
  { columnType := .integer, fixedLength := 4, variableLength := 0, columnName := "a",
    isInlined := true, columnOffset := 0 }

theorem keyColumn_integerColumn : ∀ c ∈ [integerColumn], KeyColumn c := by
  intro c hc
  rw [List.mem_singleton.1 hc]
  exact ⟨⟨⟨by decide, by decide, by decide⟩, by decide⟩, by decide⟩

/-- Integers that are not the NULL constant. -/
theorem keys_ordered_integers : Ordered noOthers (Schema.new [integerColumn])
    (keysOf (n := 4) (Schema.new [integerColumn]) fun _ arg => arg.int ≠ Int32.minValue) := by
  apply (keys_ordered_iff keyColumn_integerColumn (by decide) noOthers 4 _).2
  intro argv key built allowed i c a column argA null
  exfalso
  obtain rfl : c = integerColumn := by
    have mem := List.mem_of_getElem? column
    exact List.mem_singleton.1 mem
  have fits : MachineInt.IsInt 4 a.int.toInt := by
    have lo := a.int.le_toInt
    have hi := a.int.toInt_lt
    constructor <;> omega
  have least : a.int.toInt = Int32.minValue.toInt := (MachineInt.wrap_of_isInt fits).symm.trans null.2
  exact allowed i a argA (Int32.toInt_inj.1 least)

def integerValue (i : Int32) : SqliteValue where
  int := i
  int64 := 0
  double := 0
  text := none
  short := nofun

/-- The key of one INTEGER. -/
def integerKey (i : Int32) : Mem 4 := Mem.zero.write 0 (intBytes 4 i.toInt)

theorem built_integerKey (i : Int32) :
    Built (Schema.new [integerColumn]) [integerValue i] (integerKey i) := by
  refine ⟨fun _ => Mem.zero, fun _ => Mem.zero, _, rfl, ?_⟩
  have member := member_setMember .integer .integer i.toInt Mem.zero
  have data : (Mem.zero.write 0 (intBytes 4 i.toInt) : Mem 4).slice 0 4 = intBytes 4 i.toInt :=
    Mem.slice_write_self Mem.zero (le_of_eq (length_intBytes 4 i.toInt))
  change Except.ok (Mem.zero.write 0 ((Mem.zero.write 0
    ((setMember .integer .integer i.toInt Mem.zero).member TypeId.integer.width)).slice 0 4)) = _
  rw [member]
  exact congrArg (fun bytes => Except.ok (Mem.zero.write 0 bytes)) data

/-- NULL ties with 1 and with 0, but 1 is greater than 0. -/
theorem not_keys_ordered : ¬ ∀ columns : List Column, (∀ c ∈ columns, KeyColumn c) →
    (Schema.new columns).length < 2147483648 → ∀ (other : OtherClasses) (n : ℕ),
      Ordered other (Schema.new columns)
        (keysOf (n := n) (Schema.new columns) fun _ => Set.univ) := by
  intro claim
  have ordered := claim [integerColumn] keyColumn_integerColumn (by decide) noOthers 4
  have mem (i : Int32) : integerKey i ∈ keysOf (n := 4) (Schema.new [integerColumn])
      fun _ => Set.univ := ⟨_, built_integerKey i, fun _ _ _ => trivial⟩
  have le := ordered.trans _ (mem 1) _ (mem Int32.minValue) _ (mem 0)
    (fun _ => ⟨Mem.zero, Mem.zero, Mem.zero⟩) (fun _ => ⟨Mem.zero, Mem.zero, Mem.zero⟩)
    (fun _ => ⟨Mem.zero, Mem.zero, Mem.zero⟩) 0 0 1
    (by decide +kernel) (by decide +kernel) (by decide +kernel) le_rfl le_rfl
  revert le
  decide

end GenericKey

end ScuDb
