import ScuDb.Table.TupleRoundTrip

/-!
# The bytes a tuple is written to

The constructor of a tuple sums the lengths of its values and writes them one behind the other.  A
NULL VARCHAR counts as three bytes there, because its length wraps, but writes four; and a column
may be declared shorter than the values of its type.  Either makes the constructor write over a
neighbour or behind the end.
-/

namespace ScuDb

open ByteMem LittleEndian

/-- What a constructor makes of its arguments. -/
def Column.Made (c : Column) : Prop := ∃ type length name, Column.new type length name = .ok c

/-- The bytes that `SerializeTo` writes. -/
def Value.serializedLength (v : Value) : ℕ :=
  if v.typeId = .varchar then if v.isNull then 4 else 4 + v.len.toNat else v.typeId.width

namespace TupleData

open Schema Value

/-- The byte ranges, as address and length, that are written for a column when the next VARCHAR
goes to `offset`. -/
def written (column : Column) (value : Value) (offset : ℤ) : List (ℤ × ℕ) :=
  if column.isInlined then [(column.columnOffset, value.serializedLength)]
  else [(column.columnOffset, 4), (offset, value.serializedLength)]

/-- The ranges that `serializeColumns` writes, column by column. -/
def writes : List (Column × Value) → ℤ → List (List (ℤ × ℕ))
  | [], _ => []
  | (column, value) :: rest, offset =>
    written column value offset ::
      writes rest (if column.isInlined then offset else addLength offset value.len)

/-- The ranges of two columns have no byte in common. -/
def Apart (r s : List (ℤ × ℕ)) : Prop :=
  ∀ a ∈ r, ∀ b ∈ s, a.1 + a.2 ≤ b.1 ∨ b.1 + b.2 ≤ a.1

instance : Std.Symm Apart := ⟨fun _ _ h b hb a ha => (h a ha b hb).symm⟩

/-- The ranges of a column lie in the first `n` bytes. -/
def Inside (n : ℕ) (r : List (ℤ × ℕ)) : Prop := ∀ a ∈ r, 0 ≤ a.1 ∧ a.1 + a.2 ≤ n

/-- A value of the column's type; the characters of a VARCHAR can be read unless it is NULL. -/
structure Matches (c : Column) (v : Value) : Prop where
  made : c.Made
  type : c.columnType = v.typeId
  valid : v.typeId ≠ .invalid ∧ v.typeId ≠ .timestamp
  chars : v.typeId = .varchar → v.isNull = false → v.chars = .ok v.payload

/-- The constructor returns a tuple, the ranges it writes for distinct columns lie apart and in the
tuple, and every NULL VARCHAR reads back as NULL. -/
structure Safe (values : List Value) (schema : Schema) (fresh : (n : ℕ) → Mem n) : Prop where
  built : ∃ t, new values schema fresh = .ok t ∧
    (∀ r ∈ writes (schema.columns.zip values) schema.length, Inside t.size r) ∧
    ∀ (i : ℕ) v, values[i]? = some v → v.typeId = .varchar → v.isNull = true → ∀ old,
      ∃ w, t.getValue schema i old = .ok w ∧ w.isNull = true
  apart : (writes (schema.columns.zip values) schema.length).Pairwise Apart

/-! ## The ranges are those of the constructor -/

section Writes

variable {n : ℕ} {m m' data data' : Mem n} {offset : ℤ} {v : Value}

/-- `m'` is `m` but for the ranges, which lie inside. -/
def Wrote (m m' : Mem n) (r : List (ℤ × ℕ)) : Prop :=
  Inside n r ∧ ∀ x : ℕ, (∀ a ∈ r, (x : ℤ) < a.1 ∨ a.1 + a.2 ≤ x) → m'.get x = m.get x

theorem Wrote.trans {m'' : Mem n} {r s : List (ℤ × ℕ)} (h : Wrote m m' r) (h' : Wrote m' m'' s) :
    Wrote m m'' (r ++ s) := by
  refine ⟨fun a ha => ?_, fun x out => ?_⟩
  · rcases List.mem_append.1 ha with ha | ha
    · exact h.1 a ha
    · exact h'.1 a ha
  · rw [h'.2 x fun a ha => out a (List.mem_append_right _ ha)]
    exact h.2 x fun a ha => out a (List.mem_append_left _ ha)

theorem wrote_store {bytes : List UInt8} (h : store m offset bytes = .ok m') :
    Wrote m m' [(offset, bytes.length)] := by
  unfold store at h
  split_ifs at h with inside
  cases h
  refine ⟨fun a ha => ?_, fun x out => ?_⟩
  · obtain rfl := List.mem_singleton.1 ha
    exact inside
  · have := out _ List.mem_cons_self
    exact Mem.get_write_outside _ (by omega)

theorem length_chars {cs : List UInt8} (h : v.chars = .ok cs) : cs.length = v.len.toNat := by
  unfold Value.chars at h
  split at h
  · cases h
  · split_ifs at h with short
    cases h
    rw [List.length_take]
    omega

theorem getLength_eq {len : UInt32} (h : v.getLength = .ok len) : len = v.len := by
  unfold Value.getLength at h
  split at h <;> cases h
  rfl

theorem wrote_serializeTo (h : v.serializeTo m offset = .ok m') :
    Wrote m m' [(offset, v.serializedLength)] := by
  have fixed (hv : v.typeId ≠ .varchar)
      (h : store m offset (v.member v.typeId.width) = .ok m') :
      Wrote m m' [(offset, v.serializedLength)] := by
    have wrote := wrote_store h
    rw [Value.member, Mem.length_slice] at wrote
    rwa [serializedLength, if_neg hv]
  unfold Value.serializeTo at h
  cases ht : v.typeId with
  | varchar =>
    simp only [ht] at h
    by_cases null : v.isNull = true
    · rw [if_pos null] at h
      have wrote := wrote_store h
      rw [length_wordBytes] at wrote
      rwa [serializedLength, if_pos ht, if_pos null]
    · rw [if_neg null] at h
      cases chars : v.chars with
      | error e =>
        simp only [chars, bind, Except.bind] at h
        split at h <;> cases h
      | ok cs =>
        simp only [chars] at h
        have one := store_append m offset (wordBytes 4 v.len.toNat) cs
        rw [length_wordBytes] at one
        have wrote := wrote_store (one.symm.trans h)
        rw [List.length_append, length_wordBytes, length_chars chars] at wrote
        unfold serializedLength
        rwa [if_pos ht, if_neg null]
  | invalid => simp [ht] at h
  | timestamp => simp [ht] at h
  | _ =>
    apply fixed
    · simp [ht]
    · simpa [ht] using h

/-- `serializeColumns` writes the ranges, which lie in the tuple, and nothing else. -/
theorem wrote_serializeColumns (pairs : List (Column × Value)) : ∀ {data : Mem n} {offset : ℤ},
    serializeColumns pairs data offset = .ok data' → Wrote data data' (writes pairs offset).flatten := by
  induction pairs with
  | nil =>
    intro data offset h
    cases h
    exact ⟨by simp [Inside, writes], fun _ _ => rfl⟩
  | cons p pairs ih =>
    obtain ⟨column, value⟩ := p
    intro data offset h
    simp only [serializeColumns] at h
    simp only [writes, written, List.flatten_cons]
    by_cases hc : column.isInlined = true
    · rw [if_pos hc] at h ⊢
      rw [if_pos hc]
      cases run : value.serializeTo data column.columnOffset with
      | error e =>
        rw [run] at h
        cases h
      | ok data₁ =>
        rw [run] at h
        exact (wrote_serializeTo run).trans (ih h)
    · rw [if_neg hc] at h ⊢
      rw [if_neg hc]
      cases first : store data column.columnOffset (intBytes 4 offset) with
      | error e =>
        rw [first] at h
        cases h
      | ok data₁ =>
        rw [first] at h
        cases second : value.serializeTo data₁ offset with
        | error e =>
          simp only [second, bind, Except.bind] at h
          cases h
        | ok data₂ =>
          simp only [second, bind, Except.bind] at h
          cases length : value.getLength with
          | error e =>
            simp only [length] at h
            cases h
          | ok len =>
            simp only [length] at h
            have wrote := wrote_store first
            rw [length_intBytes] at wrote
            rw [← getLength_eq length]
            exact (wrote.trans (wrote_serializeTo second)).trans (ih h)

end Writes

/-! ## Layouts without a defect -/

/-- The columns are wide enough for their types. -/
def Wide (columns : List Column) : Prop :=
  ∀ c ∈ columns, c.isInlined = true → c.columnType.width ≤ c.fixedLength

/-- No value is a NULL VARCHAR. -/
def NoNull (values : List Value) : Prop := ∀ v ∈ values, v.typeId = .varchar → v.isNull = false

/-- What the constructor makes of the arguments of a column. -/
theorem column_made {c : Column} (h : c.Made) : (c.isInlined = true ↔ c.columnType ≠ .varchar) ∧
    (c.isInlined = true → 0 < c.fixedLength) ∧ (c.isInlined = false → c.fixedLength = 4) := by
  obtain ⟨type, length, name, hc⟩ := h
  unfold Column.new at hc
  by_cases hv : type = .varchar
  · subst hv
    simp only [Column.setInlined, Column.setLength] at hc
    cases hc
    simp
  · simp only [Column.setInlined, Column.setLength, hv, ne_eq, not_false_eq_true, decide_true,
      true_and, if_true] at hc
    split_ifs at hc with positive
    cases hc
    simp [hv]
    omega

variable {c : Column} {v : Value} {cs : List Column} {vs : List Value}

theorem Matches.fits (h : Matches c v) (wide : c.isInlined = true → c.columnType.width ≤ c.fixedLength)
    (nonNull : v.typeId = .varchar → v.isNull = false) : Fits c v where
  sized := ⟨(column_made h.made).1, (column_made h.made).2.2, wide⟩
  type := h.type
  proper := ⟨h.valid, nonNull, fun hv => h.chars hv (nonNull hv)⟩

theorem Fits.serializedLength (h : Fits c v) : v.serializedLength = v.image.length := by
  unfold Value.serializedLength
  split_ifs with hv null
  · rw [h.proper.nonNull hv] at null
    cases null
  · rw [image_of_varchar hv, List.length_append, length_wordBytes, h.proper.length_payload hv]
  · rw [image_of_fixed hv, length_payload_of_fixed hv]

/-- The ranges of columns that fit lie in their part of the fixed area or of the area behind it. -/
theorem writes_bounds (h : List.Forall₂ Fits cs vs) : ∀ {base offset : ℤ}, 0 ≤ base →
    base + fixedSize cs ≤ offset → offset + varSize (cs.zip vs) < 2147483648 →
    (∀ r ∈ writes ((placed base cs).zip vs) offset, ∀ a ∈ r,
      base ≤ a.1 ∧ a.1 + a.2 ≤ base + fixedSize cs ∨
      offset ≤ a.1 ∧ a.1 + a.2 ≤ offset + varSize (cs.zip vs)) ∧
    (writes ((placed base cs).zip vs) offset).Pairwise Apart := by
  induction h with
  | nil => simp [placed, writes]
  | @cons c v cs vs head rest ih =>
    intro base offset lo fixed small
    have fixedNonneg := fixedSize_nonneg rest
    have varNonneg := varSize_nonneg (cs.zip vs)
    have sizeNonneg := head.sized.nonneg
    rw [fixedSize_cons] at fixed ⊢
    rw [List.zip_cons_cons, varSize_cons] at small ⊢
    simp only [placed, List.zip_cons_cons, writes, written]
    by_cases hc : c.isInlined = true
    · have width := head.length_image_fixed hc
      rw [← head.serializedLength] at width
      simp only [hc, if_true] at small ⊢
      obtain ⟨bounds, apart⟩ := @ih (base + c.fixedLength) offset (by omega) (by omega) (by omega)
      refine ⟨List.forall_mem_cons.2 ⟨fun a ha => ?_, fun r hr a ha => ?_⟩,
        List.pairwise_cons.2 ⟨fun r hr a ha b hb => ?_, apart⟩⟩
      · obtain rfl := List.mem_singleton.1 ha
        left
        dsimp only
        omega
      · rcases bounds r hr a ha with part | part <;> omega
      · obtain rfl := List.mem_singleton.1 ha
        have part := bounds r hr b hb
        dsimp only
        omega
    · rw [Bool.not_eq_true] at hc
      have four := head.sized.offset hc
      have length := head.length_image_varchar hc
      rw [← head.serializedLength] at length
      simp only [hc, Bool.false_eq_true, if_false] at small ⊢
      have next : addLength offset v.len = offset + (v.len.toNat + 4) :=
        addLength_eq (by omega) (by omega)
      rw [next]
      obtain ⟨bounds, apart⟩ := @ih (base + c.fixedLength) (offset + (v.len.toNat + 4)) (by omega)
        (by omega) (by omega)
      refine ⟨List.forall_mem_cons.2 ⟨fun a ha => ?_, fun r hr a ha => ?_⟩,
        List.pairwise_cons.2 ⟨fun r hr a ha b hb => ?_, apart⟩⟩
      · rcases List.mem_pair.1 ha with rfl | rfl
        · left
          dsimp only
          omega
        · right
          dsimp only
          omega
      · rcases bounds r hr a ha with part | part <;> omega
      · have part := bounds r hr b hb
        rcases List.mem_pair.1 ha with rfl | rfl <;> dsimp only <;> omega

/-! ## Layouts with a defect -/

/-- Where the VARCHARs of the columns end, as the constructor counts. -/
def endOffset : List (Column × Value) → ℤ → ℤ
  | [], offset => offset
  | (column, value) :: rest, offset =>
    endOffset rest (if column.isInlined then offset else addLength offset value.len)

theorem Matches.varchar (h : Matches c v) (hc : c.isInlined = false) : v.typeId = .varchar := by
  by_contra hv
  rw [← h.type, ← ne_eq, ← (column_made h.made).1, hc] at hv
  cases hv

theorem Matches.fixed (h : Matches c v) (hc : c.isInlined = true) : v.typeId ≠ .varchar :=
  h.type ▸ (column_made h.made).1.1 hc

theorem Matches.serializedLength_pos (h : Matches c v) : 0 < v.serializedLength := by
  obtain ⟨invalid, timestamp⟩ := h.valid
  unfold Value.serializedLength
  split_ifs with hv null
  · decide
  · omega
  · cases ht : v.typeId with
    | varchar => exact absurd ht hv
    | invalid => exact absurd ht invalid
    | timestamp => exact absurd ht timestamp
    | _ => decide

theorem four_le_serializedLength (hv : v.typeId = .varchar) : 4 ≤ v.serializedLength := by
  unfold Value.serializedLength
  rw [if_pos hv]
  split_ifs <;> omega

/-- The ranges of the first column start where the fixed parts do. -/
theorem written_first (h : Matches c v) (base offset : ℤ) :
    ∃ k : ℕ, 0 < k ∧ (base, k) ∈ written { c with columnOffset := base } v offset := by
  unfold written
  by_cases hc : c.isInlined = true
  · rw [if_pos hc]
    exact ⟨_, h.serializedLength_pos, List.mem_singleton_self _⟩
  · rw [if_neg hc]
    exact ⟨4, by decide, List.mem_cons_self⟩

/-- The ranges of the first VARCHAR start where the next VARCHAR goes. -/
theorem writes_varchar (h : List.Forall₂ Matches cs vs) (uninlined : ∃ c ∈ cs, c.isInlined = false) :
    ∀ base offset, ∃ r ∈ writes ((placed base cs).zip vs) offset, r.length = 2 ∧
      ∃ k : ℕ, 0 < k ∧ (offset, k) ∈ r := by
  induction h with
  | nil => simp at uninlined
  | @cons c v cs vs head rest ih =>
    intro base offset
    simp only [placed, List.zip_cons_cons, writes]
    by_cases hc : c.isInlined = true
    · have later : ∃ c ∈ cs, c.isInlined = false := by simpa [hc] using uninlined
      obtain ⟨r, hr, two, k, pos, hk⟩ := ih later (base + c.fixedLength) offset
      rw [if_pos hc]
      exact ⟨r, List.mem_cons_of_mem _ hr, two, k, pos, hk⟩
    · refine ⟨_, List.mem_cons_self, ?_, v.serializedLength, head.serializedLength_pos, ?_⟩
      · simp [written, hc]
      · simp [written, hc]

/-- Columns whose ranges lie apart and do not reach over the end of the fixed parts are wide
enough. -/
theorem wide_of_apart (h : List.Forall₂ Matches cs vs) : ∀ {base offset : ℤ},
    (writes ((placed base cs).zip vs) offset).Pairwise Apart →
    (∀ r ∈ writes ((placed base cs).zip vs) offset, r.length = 1 → ∀ a ∈ r,
      a.1 + a.2 ≤ base + fixedSize cs ∨ base + fixedSize cs ≤ a.1) → Wide cs := by
  induction h with
  | nil => exact fun _ _ => nofun
  | @cons c v cs vs head rest ih =>
    intro base offset apart wall
    have positive := (column_made head.made).2.1
    simp only [placed, List.zip_cons_cons, writes, fixedSize_cons] at apart wall
    obtain ⟨first, apart⟩ := List.pairwise_cons.1 apart
    refine List.forall_mem_cons.2 ⟨fun hc => ?_, ?_⟩
    · have mine : (base, v.serializedLength) ∈ written { c with columnOffset := base } v offset := by
        simp [written, hc]
      have length : v.serializedLength = c.columnType.width := by
        rw [Value.serializedLength, if_neg (head.fixed hc), head.type]
      rw [← length]
      cases rest with
      | nil =>
        have ends := wall _ List.mem_cons_self (by simp [written, hc]) _ mine
        simp only [fixedSize, List.map_nil, List.sum_nil] at ends
        have := positive hc
        omega
      | @cons c' v' cs vs head' rest =>
        obtain ⟨k, pos, next⟩ := written_first head' (base + c.fixedLength)
          (if c.isInlined = true then offset else addLength offset v.len)
        have ends := first _ List.mem_cons_self _ mine _ next
        have := positive hc
        dsimp only at ends
        omega
    · refine ih apart fun r hr one a ha => ?_
      have ends := wall r (List.mem_cons_of_mem _ hr) one a ha
      omega

theorem addLength_lt (offset : ℤ) (len : UInt32) : addLength offset len < 2147483648 := by
  have := Int.bmod_lt (x := offset + (len.toNat + 4)) (m := 4294967296) (by decide)
  unfold addLength
  omega

theorem endOffset_lt (pairs : List (Column × Value)) : ∀ {offset : ℤ}, offset < 2147483648 →
    endOffset pairs offset < 2147483648 := by
  induction pairs with
  | nil => exact fun h => h
  | cons p pairs ih =>
    intro offset h
    unfold endOffset
    split_ifs
    · exact ih h
    · exact ih (addLength_lt _ _)

theorem endOffset_inlined (h : List.Forall₂ Matches cs vs) (inlined : ∀ c ∈ cs, c.isInlined = true)
    (offset : ℤ) : endOffset (cs.zip vs) offset = offset := by
  induction h with
  | nil => rfl
  | cons head rest ih =>
    obtain ⟨hc, inlined⟩ := List.forall_mem_cons.1 inlined
    rw [List.zip_cons_cons, endOffset, if_pos hc]
    exact ih inlined

/-- A NULL VARCHAR counts as three bytes. -/
theorem addLength_null {offset : ℤ} (lo : 0 ≤ offset) (hi : offset + 3 < 2147483648) :
    addLength offset valueNull = offset + 3 := by
  have len : (valueNull.toNat : ℤ) = 4294967295 := rfl
  unfold addLength
  rw [len, Int.bmod_def]
  split_ifs <;> omega

/-- Columns whose ranges lie apart and in the tuple hold no NULL VARCHAR. -/
theorem noNull_of_apart (h : List.Forall₂ Matches cs vs) {n : ℕ} (small : (n : ℤ) < 2147483648) :
    ∀ {base offset : ℤ}, endOffset (cs.zip vs) offset = n →
    (writes ((placed base cs).zip vs) offset).Pairwise Apart →
    (∀ r ∈ writes ((placed base cs).zip vs) offset, Inside n r) → NoNull vs := by
  induction h with
  | nil => exact fun _ _ _ => nofun
  | @cons c v cs vs head rest ih =>
    intro base offset ends apart inside
    simp only [placed, List.zip_cons_cons, writes, endOffset] at ends apart inside
    obtain ⟨first, apart'⟩ := List.pairwise_cons.1 apart
    obtain ⟨here, inside'⟩ := List.forall_mem_cons.1 inside
    refine List.forall_mem_cons.2 ⟨fun hv => ?_, ih ends apart' inside'⟩
    rw [← Bool.not_eq_true]
    intro null
    have hc : ¬ c.isInlined = true := fun hc => head.fixed hc hv
    rw [if_neg hc] at ends first
    have mine : (offset, v.serializedLength) ∈ written { c with columnOffset := base } v offset := by
      simp [written, hc]
    have four := four_le_serializedLength hv
    have bounds := here _ mine
    dsimp only at bounds
    have len : v.len = valueNull := of_decide_eq_true null
    rw [len, addLength_null bounds.1 (by omega)] at ends first
    by_cases more : ∃ c ∈ cs, c.isInlined = false
    · obtain ⟨r, hr, -, k, pos, next⟩ := writes_varchar rest more (base + c.fixedLength) (offset + 3)
      have clash := first r hr _ mine _ next
      dsimp only at clash
      omega
    · have inlined : ∀ c ∈ cs, c.isInlined = true := by simpa using more
      rw [endOffset_inlined rest inlined] at ends
      omega

/-- Nothing wraps while the ranges of columns that fit stay in the tuple. -/
theorem endOffset_eq (h : List.Forall₂ Fits cs vs) {n : ℕ} (small : (n : ℤ) < 2147483648) :
    ∀ (base : ℤ) {offset : ℤ}, (∀ r ∈ writes ((placed base cs).zip vs) offset, Inside n r) →
    endOffset (cs.zip vs) offset = offset + varSize (cs.zip vs) := by
  induction h with
  | nil =>
    intro base offset _
    simp [endOffset, varSize]
  | @cons c v cs vs head rest ih =>
    intro base offset inside
    simp only [placed, List.zip_cons_cons, writes, endOffset, varSize_cons] at inside ⊢
    obtain ⟨here, inside⟩ := List.forall_mem_cons.1 inside
    by_cases hc : c.isInlined = true
    · rw [if_pos hc] at inside ⊢
      rw [if_pos hc, ih _ inside, zero_add]
    · rw [if_neg hc] at inside ⊢
      rw [if_neg hc]
      rw [Bool.not_eq_true] at hc
      have mine : (offset, v.serializedLength) ∈ written { c with columnOffset := base } v offset := by
        simp [written, hc]
      have bounds := here _ mine
      dsimp only at bounds
      rw [head.serializedLength, head.length_image_varchar hc] at bounds
      have next : addLength offset v.len = offset + (v.len.toNat + 4) :=
        addLength_eq bounds.1 (by omega)
      rw [next] at inside ⊢
      rw [ih _ inside]
      omega

/-- What the size loop of the constructor does with column `i`. -/
def addLengthAt (values : List Value) (size : ℤ) (i : ℕ) : Except Failure ℤ :=
  match values[i]? with
  | some value => do return addLength size (← value.getLength)
  | none => .error (.fault .outOfBounds)

/-- The size the constructor computes, for any values of the right types. -/
theorem tupleSize_endOffset
    (h : List.Forall₂ (fun c v => c.isInlined = false → v.typeId = .varchar) cs vs) :
    tupleSize vs (Schema.new cs) = .ok (endOffset (cs.zip vs) (fixedSize cs)) := by
  have fold : ∀ (before : List Value) (size : ℤ),
      (uninlinedFrom before.length cs).foldlM (addLengthAt (before ++ vs)) size =
        .ok (endOffset (cs.zip vs) size) := by
    induction h with
    | nil => exact fun _ _ => rfl
    | @cons c v cs vs head rest ih =>
      intro before size
      have shift : before ++ v :: vs = (before ++ [v]) ++ vs := by simp
      have len : (before ++ [v]).length = before.length + 1 := by simp
      rw [List.zip_cons_cons, endOffset]
      unfold uninlinedFrom
      by_cases hc : c.isInlined = true
      · rw [if_pos hc, if_pos hc, shift, ← len, ih (before ++ [v]) size]
      · rw [if_neg hc, if_neg hc]
        rw [Bool.not_eq_true] at hc
        have here : (before ++ v :: vs)[before.length]? = some v := by simp
        have more := ih (before ++ [v]) (addLength size v.len)
        rw [← shift, len] at more
        simp only [List.foldlM_cons, addLengthAt, here, Value.getLength, head hc, bind, Except.bind, pure,
          Except.pure] at more ⊢
        exact more
  unfold tupleSize
  rw [Schema.new_eq]
  exact fold [] _

/-- What the constructor did if it returned. -/
theorem new_cases {values : List Value} {schema : Schema} {fresh : (n : ℕ) → Mem n} {t : TupleData}
    (h : new values schema fresh = .ok t) :
    tupleSize values schema = .ok (t.size : ℤ) ∧
      serializeColumns (schema.columns.zip values) (fresh t.size) schema.length = .ok t.data := by
  unfold new at h
  by_cases count : values.length ≠ schema.getColumnCount
  · rw [if_pos count] at h
    cases h
  rw [if_neg count] at h
  cases run : tupleSize values schema with
  | error e =>
    rw [run] at h
    cases h
  | ok size =>
    simp only [run, bind, Except.bind, pure, Except.pure] at h
    by_cases negative : size < 0
    · rw [if_pos negative] at h
      cases h
    rw [if_neg negative] at h
    cases wrote : serializeColumns (schema.columns.zip values) (fresh size.toNat) schema.length with
    | error e =>
      simp only [wrote] at h
      cases h
    | ok data =>
      simp only [wrote] at h
      cases h
      refine ⟨congrArg Except.ok ?_, wrote⟩
      dsimp only
      omega

/-- The size of a tuple of values that fit. -/
theorem size_eq (h : List.Forall₂ Fits cs vs) (small : fixedSize cs < 2147483648)
    {fresh : (n : ℕ) → Mem n} {t : TupleData} (run : new vs (Schema.new cs) fresh = .ok t) :
    (t.size : ℤ) = fixedSize cs + varSize (cs.zip vs) ∧ (t.size : ℤ) < 2147483648 := by
  have columns : (Schema.new cs).columns = placed 0 cs := by rw [Schema.new_eq]
  have length : (Schema.new cs).length = fixedSize cs := by rw [Schema.new_eq]
  obtain ⟨size, wrote⟩ := new_cases run
  rw [tupleSize_endOffset (h.imp fun _ _ h => h.varchar)] at size
  have ends := Except.ok.inj size
  have short : (t.size : ℤ) < 2147483648 := ends ▸ endOffset_lt _ small
  rw [columns, length] at wrote
  have inside := (wrote_serializeColumns _ wrote).1
  rw [← ends]
  refine ⟨endOffset_eq h short 0 fun r hr a ha => ?_, ends ▸ short⟩
  exact inside a (List.mem_flatten.2 ⟨r, hr, ha⟩)

theorem Matches.forall_fits (h : List.Forall₂ Matches cs vs) (wide : Wide cs)
    (noNull : NoNull vs) : List.Forall₂ Fits cs vs := by
  apply List.forall₂_iff_zip.2
  refine ⟨h.length_eq, fun {c v} hp => ?_⟩
  obtain ⟨hc, hv⟩ := List.of_mem_zip hp
  exact ((List.forall₂_iff_zip.1 h).2 hp).fits (wide c hc) (noNull v hv)

/-! ## Safe layouts -/

theorem noNull_of_safe (h : List.Forall₂ Matches cs vs) (small : fixedSize cs < 2147483648)
    {fresh : (n : ℕ) → Mem n} (safe : Safe vs (Schema.new cs) fresh) :
    Wide cs ∧ NoNull vs ∧ fixedSize cs + varSize (cs.zip vs) < 2147483648 := by
  obtain ⟨⟨t, run, inside, -⟩, apart⟩ := safe
  have columns : (Schema.new cs).columns = placed 0 cs := by rw [Schema.new_eq]
  have length : (Schema.new cs).length = fixedSize cs := by rw [Schema.new_eq]
  rw [columns, length] at inside apart
  have size := (new_cases run).1
  rw [tupleSize_endOffset (h.imp fun _ _ h => h.varchar)] at size
  have ends : endOffset (cs.zip vs) (fixedSize cs) = t.size := Except.ok.inj size
  have short : (t.size : ℤ) < 2147483648 := ends ▸ endOffset_lt _ small
  have noNull : NoNull vs := noNull_of_apart h short ends apart inside
  have wide : Wide cs := by
    refine wide_of_apart h apart fun r hr one a ha => ?_
    rw [zero_add]
    by_cases more : ∃ c ∈ cs, c.isInlined = false
    · -- the first VARCHAR stands at the end of the fixed parts
      obtain ⟨s, hs, two, k, pos, start⟩ := writes_varchar h more 0 (fixedSize cs)
      have ne : r ≠ s := by
        rintro rfl
        omega
      have clear := apart.forall hr hs ne a ha _ start
      dsimp only at clear
      omega
    · have inlined : ∀ c ∈ cs, c.isInlined = true := by simpa using more
      rw [endOffset_inlined h inlined] at ends
      have := (inside r hr a ha).2
      omega
  obtain ⟨total, short⟩ := size_eq (Matches.forall_fits h wide noNull) small run
  exact ⟨wide, noNull, total ▸ short⟩

theorem safe_of_noNull (h : List.Forall₂ Matches cs vs) (wide : Wide cs) (noNull : NoNull vs)
    (small : fixedSize cs + varSize (cs.zip vs) < 2147483648) (fresh : (n : ℕ) → Mem n) :
    Safe vs (Schema.new cs) fresh := by
  have fits := Matches.forall_fits h wide noNull
  have columns : (Schema.new cs).columns = placed 0 cs := by rw [Schema.new_eq]
  have length : (Schema.new cs).length = fixedSize cs := by rw [Schema.new_eq]
  obtain ⟨t, run, -, -⟩ := new_ok fits small fresh
  have wrote := wrote_serializeColumns _ (new_cases run).2
  refine ⟨⟨t, run, fun r hr a ha => ?_, fun i v hi hv null => ?_⟩, ?_⟩
  · exact wrote.1 a (List.mem_flatten.2 ⟨r, hr, ha⟩)
  · rw [noNull v (List.mem_of_getElem? hi) hv] at null
    cases null
  · rw [columns, length]
    exact (writes_bounds fits le_rfl (by omega) small).2

/-- The ranges that the constructor writes for distinct columns lie apart and in the tuple, and NULL
VARCHARs read back, exactly if every inlined column has room for its type, no value is a NULL VARCHAR
and the size fits an `int32_t`. -/
theorem safe_iff (h : List.Forall₂ Matches cs vs) (small : fixedSize cs < 2147483648)
    (fresh : (n : ℕ) → Mem n) :
    Safe vs (Schema.new cs) fresh ↔
      Wide cs ∧ NoNull vs ∧ fixedSize cs + varSize (cs.zip vs) < 2147483648 :=
  ⟨noNull_of_safe h small, fun ⟨wide, noNull, total⟩ => safe_of_noNull h wide noNull total fresh⟩

def varcharColumn : Column :=
  { columnType := .varchar, fixedLength := 4, variableLength := 32, columnName := "b" }

theorem made_varcharColumn : varcharColumn.Made := ⟨.varchar, 32, "b", rfl⟩

/-- A tuple of one NULL VARCHAR: seven bytes, of which the fixed part takes four. -/
theorem not_safe : ¬ ∀ (cs : List Column) (vs : List Value), List.Forall₂ Matches cs vs →
    fixedSize cs < 2147483648 → ∀ fresh, Safe vs (Schema.new cs) fresh := by
  intro claim
  have matched : List.Forall₂ Matches [varcharColumn] [{ typeId := .varchar }] := by
    apply List.Forall₂.cons _ .nil
    exact ⟨made_varcharColumn, rfl, by decide, fun _ null => by cases null⟩
  have fixed : fixedSize [varcharColumn] < 2147483648 := by decide
  have safe := claim _ _ matched fixed fun _ => Mem.zero
  have nonNull := (noNull_of_safe matched fixed safe).2.1 _ List.mem_cons_self rfl
  cases nonNull

theorem safe_iff_two : Safe twoValues (Schema.new twoColumns) fun _ => Mem.zero := by
  have matched : List.Forall₂ Matches twoColumns twoValues := by
    apply List.Forall₂.cons
    · exact ⟨⟨.integer, 4, "a", rfl⟩, rfl, by decide, fun hv => by cases hv⟩
    · apply List.Forall₂.cons _ .nil
      exact ⟨made_varcharColumn, rfl, by decide, fun _ _ => rfl⟩
  apply (safe_iff matched (by decide) _).2
  refine ⟨fun c hc => (sized_twoColumns c hc).fits, fun v hv => ?_, by decide⟩
  rcases List.mem_pair.1 hv with rfl | rfl
  · exact fun e => by cases e
  · exact fun _ => rfl

end TupleData

end ScuDb
