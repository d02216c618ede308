import ScuDb.Table.Tuple

/-!
# The tuple codec

`SerializeTo` writes the `image` of a value in one piece, and `DeserializeFrom` reads a value back
from its image; only a NULL flag that the payload does not show is lost (`FlagAgrees`).  The
constructor puts the images of all columns at disjoint places (`serializeColumns_ok`), so every
column reads back.
-/

namespace ScuDb

open ByteMem LittleEndian

namespace Value

/-! ## Loads and stores -/

section Storage

variable {n : ℕ} {m m' : Mem n} {a b : ℤ} {bs cs : List UInt8} {len : ℕ}

theorem load_store_self (h : store m a bs = .ok m') : load m' a bs.length = .ok bs := by
  unfold store at h
  split_ifs at h with inside
  cases h
  unfold load
  rw [if_pos inside, Mem.slice_write_self _ (by omega)]

theorem load_store_disjoint (h : store m a bs = .ok m')
    (apart : b + len ≤ a ∨ a + bs.length ≤ b) : load m' b len = load m b len := by
  unfold store at h
  split_ifs at h with inside
  cases h
  unfold load
  split_ifs with there
  · rw [Mem.slice_write_disjoint _ (by omega)]
  · rfl

/-- Two stores one behind the other are one store. -/
theorem store_append (m : Mem n) (a : ℤ) (bs cs : List UInt8) :
    (store m a bs >>= fun m' => store m' (a + bs.length) cs) = store m a (bs ++ cs) := by
  unfold store
  by_cases first : 0 ≤ a ∧ a + bs.length ≤ n
  · rw [if_pos first]
    change (if 0 ≤ a + bs.length ∧ a + bs.length + cs.length ≤ n then _ else _) = _
    have shift : (a + bs.length).toNat = a.toNat + bs.length := by omega
    rw [shift, Mem.write_write_append]
    refine if_congr ?_ rfl rfl
    rw [List.length_append]
    omega
  · rw [if_neg first, if_neg (by rw [List.length_append]; omega)]
    rfl

/-- A range that loads as two byte strings loads as each of them. -/
theorem load_append (h : load m a (bs ++ cs).length = .ok (bs ++ cs)) :
    load m a bs.length = .ok bs ∧ load m (a + bs.length) cs.length = .ok cs := by
  unfold load at h ⊢
  rw [List.length_append] at h
  split_ifs at h with inside
  have shift : (a + bs.length).toNat = a.toNat + bs.length := by omega
  have split := Except.ok.inj h
  rw [Mem.slice_add] at split
  obtain ⟨first, second⟩ := List.append_inj split (Mem.length_slice _ _ _)
  rw [if_pos (by omega), if_pos (by omega), shift, first, second]
  exact ⟨rfl, rfl⟩

end Storage

/-! ## One value -/

/-- A value of one of the seven column types, not a NULL VARCHAR, whose characters can be read. -/
structure Proper (v : Value) : Prop where
  type : v.typeId ≠ .invalid ∧ v.typeId ≠ .timestamp
  nonNull : v.typeId = .varchar → v.isNull = false
  chars : v.typeId = .varchar → v.chars = .ok v.payload

/-- What `SerializeTo` writes. -/
def image (v : Value) : List UInt8 :=
  if v.typeId = .varchar then wordBytes 4 v.len.toNat ++ v.payload else v.payload

theorem payload_of_fixed {v : Value} (h : v.typeId ≠ .varchar) :
    v.payload = v.member v.typeId.width := if_neg h

theorem length_payload_of_fixed {v : Value} (h : v.typeId ≠ .varchar) :
    v.payload.length = v.typeId.width := by
  rw [payload_of_fixed h]
  exact Mem.length_slice _ _ _

theorem Proper.length_payload {v : Value} (h : v.Proper) (hv : v.typeId = .varchar) :
    v.payload.length = v.len.toNat := by
  have chars := h.chars hv
  unfold Value.chars at chars
  split at chars
  · cases chars
  · split_ifs at chars with short
    rw [← Except.ok.inj chars, List.length_take]
    omega

theorem image_of_fixed {v : Value} (h : v.typeId ≠ .varchar) : v.image = v.payload := if_neg h

theorem image_of_varchar {v : Value} (h : v.typeId = .varchar) :
    v.image = wordBytes 4 v.len.toNat ++ v.payload := if_pos h

theorem serializeTo_eq {n : ℕ} {v : Value} (h : v.Proper) (m : Mem n) (a : ℤ) :
    v.serializeTo m a = store m a v.image := by
  by_cases hv : v.typeId = .varchar
  · rw [image_of_varchar hv, ← store_append, length_wordBytes]
    unfold serializeTo
    simp only [hv, h.nonNull hv, h.chars hv, Bool.false_eq_true, if_false]
    rfl
  · have fixed := payload_of_fixed hv
    rw [image_of_fixed hv, fixed]
    unfold serializeTo
    cases ht : v.typeId with
    | varchar => exact absurd ht hv
    | invalid => exact absurd ht h.type.1
    | timestamp => exact absurd ht h.type.2
    | _ => rfl

/-- A value reads back from its image, up to a NULL flag that the image does not show. -/
structure ReadsBack (w v : Value) : Prop where
  proper : w.Proper
  flagAgrees : w.FlagAgrees
  typeId : w.typeId = v.typeId
  payload : w.payload = v.payload
  isNull : v.typeId = .varchar → w.isNull = v.isNull

theorem readsBack_setMember {v : Value} (fixed : v.typeId ≠ .varchar)
    (type : v.typeId ≠ .invalid ∧ v.typeId ≠ .timestamp) {i : ℤ}
    (bytes : intBytes v.typeId.width i = v.payload) (old : Mem 8) :
    ReadsBack (setMember v.typeId v.typeId i old) v where
  proper := ⟨type, fun h => absurd h fixed, fun h => absurd h fixed⟩
  flagAgrees := flagAgrees_setMember v.typeId i old
  typeId := rfl
  payload := by
    rw [payload_of_fixed fixed, ← payload_of_fixed fixed, ← bytes]
    exact (if_neg fixed).trans (member_setMember v.typeId v.typeId i old)
  isNull h := absurd h fixed

section Varchar

variable {bytes : List UInt8} {len : UInt32}

theorem ofData_managed (short : len < varcharMaxLen) (size : bytes.length = len.toNat) :
    ofData .varchar (some bytes) len true =
      .ok { typeId := .varchar, varlen := some bytes, len := len } := by
  simp only [ofData, if_true, short, not_true_eq_false, if_false]
  rw [if_neg (by omega), List.take_of_length_le size.le]

theorem payload_varchar (size : bytes.length = len.toNat) :
    payload { typeId := .varchar, varlen := some bytes, len := len } = bytes :=
  (if_pos rfl).trans (List.take_of_length_le size.le)

theorem chars_varchar (size : bytes.length = len.toNat) :
    chars { typeId := .varchar, varlen := some bytes, len := len } = .ok bytes := by
  unfold chars
  dsimp only
  rw [if_neg (by omega), List.take_of_length_le size.le]

end Varchar

theorem deserializeFrom_image {n : ℕ} {m : Mem n} {a : ℤ} {v : Value} (h : v.Proper)
    (stored : load m a v.image.length = .ok v.image) (old : Mem 8) :
    ∃ w, deserializeFrom m a v.typeId old = .ok w ∧ ReadsBack w v := by
  by_cases hv : v.typeId = .varchar
  · rw [image_of_varchar hv] at stored
    obtain ⟨hlen, hchars⟩ := load_append stored
    rw [length_wordBytes] at hlen hchars
    rw [h.length_payload hv] at hchars
    have len : UInt32.ofNat (wordValue (wordBytes 4 v.len.toNat)) = v.len := by
      rw [wordValue_wordBytes, Nat.mod_eq_of_lt (show v.len.toNat < 256 ^ 4 from v.len.toNat_lt),
        UInt32.ofNat_toNat]
    have nonNull : v.len ≠ valueNull := by
      have := h.nonNull hv
      simpa [Value.isNull] using this
    have short : v.len < varcharMaxLen := by
      have := v.len.toNat_lt
      have ne : v.len.toNat ≠ varcharMaxLen.toNat := fun e => nonNull (UInt32.toNat_inj.1 e)
      rw [UInt32.lt_iff_toNat_lt]
      have top : varcharMaxLen.toNat = 4294967295 := by decide
      omega
    have size := h.length_payload hv
    refine ⟨{ typeId := .varchar, varlen := some v.payload, len := v.len }, ?_, ?_⟩
    · unfold deserializeFrom
      rw [hv]
      change load m (a + 4) v.len.toNat = .ok v.payload at hchars
      simp only [hlen, bind, Except.bind, len, nonNull, if_false, hchars]
      exact ofData_managed short size
    · refine ⟨⟨⟨by simp, by simp⟩, fun _ => ?_, fun _ => ?_⟩, fun e => absurd rfl e, hv.symm, ?_,
        fun _ => rfl⟩
      · simpa [Value.isNull] using nonNull
      · rw [chars_varchar size, payload_varchar size]
      · exact payload_varchar size
  · have fixed := image_of_fixed hv
    rw [fixed] at stored
    have width := length_payload_of_fixed hv
    rw [width] at stored
    have signed : intBytes v.typeId.width (intValue v.payload) = v.payload := by
      rw [← width]
      exact intBytes_intValue _
    have unsigned : intBytes v.typeId.width (wordValue v.payload) = v.payload := by
      rw [← width]
      exact intBytes_wordValue _
    have pattern (h8 : v.typeId.width = 8) :
        (UInt64.ofNat (wordValue v.payload)).toNat = wordValue v.payload := by
      have lt := wordValue_lt v.payload
      rw [width, h8] at lt
      rw [UInt64.toNat_ofNat', Nat.mod_eq_of_lt (by simpa using lt)]
    cases ht : v.typeId with
    | varchar => exact absurd ht hv
    | invalid => exact absurd ht h.type.1
    | timestamp => exact absurd ht h.type.2
    | decimal =>
      have back := readsBack_setMember hv h.type unsigned old
      rw [ht] at stored back
      rw [ht] at pattern
      refine ⟨_, ?_, back⟩
      simp only [deserializeFrom, stored, bind, Except.bind, ofDouble, pattern rfl]
    | _ =>
      have back := readsBack_setMember hv h.type signed old
      rw [ht] at stored back
      exact ⟨_, by simp only [deserializeFrom, stored, bind, Except.bind, ofInteger], back⟩

/-- What was read back is the value if and only if its NULL flag says what its payload says. -/
theorem ReadsBack.same_iff {w v : Value} (h : ReadsBack w v) : Same w v ↔ v.FlagAgrees := by
  by_cases hv : v.typeId = .varchar
  · exact ⟨fun _ e => absurd hv e, fun _ => ⟨h.typeId, h.isNull hv, h.payload⟩⟩
  · have hw : w.typeId ≠ .varchar := h.typeId ▸ hv
    have member : w.getAs w.typeId.width = v.getAs v.typeId.width := by
      unfold getAs
      rw [← payload_of_fixed hw, ← payload_of_fixed hv, h.payload]
    have null : w.isNull = true ↔ v.getAs v.typeId.width = v.typeId.null := by
      rw [h.flagAgrees hw, member, h.typeId]
    constructor
    · intro same _
      rw [← same.isNull]
      exact null
    · intro agrees
      refine ⟨h.typeId, ?_, h.payload⟩
      rw [Bool.eq_iff_iff, null, agrees hv]

end Value

namespace TupleData

open Schema Value

/-! ## The layout -/

/-- A value that a column takes. -/
structure Fits (c : Column) (v : Value) : Prop where
  sized : c.Sized
  type : c.columnType = v.typeId
  proper : v.Proper

/-- The bytes behind the fixed parts. -/
def varSize (pairs : List (Column × Value)) : ℤ :=
  (pairs.map fun p => if p.1.isInlined then 0 else (p.2.len.toNat + 4 : ℤ)).sum

/-- The image of `v` is where the column `c` looks for it: `offset` if `c` is a VARCHAR. -/
def Stored {n : ℕ} (data : Mem n) (c : Column) (v : Value) (offset : ℤ) : Prop :=
  if c.isInlined then load data c.columnOffset v.image.length = .ok v.image
  else load data c.columnOffset 4 = .ok (intBytes 4 offset) ∧
    load data offset v.image.length = .ok v.image

section Layout

variable {n : ℕ} {data : Mem n} {c : Column} {v : Value}

theorem Fits.fixed (h : Fits c v) (hi : c.isInlined = true) : v.typeId ≠ .varchar :=
  h.type ▸ h.sized.inlined.1 hi

theorem Fits.varchar (h : Fits c v) (hi : c.isInlined = false) : v.typeId = .varchar := by
  by_contra hv
  rw [← h.type, ← ne_eq, ← h.sized.inlined, hi] at hv
  cases hv

theorem Fits.length_image_fixed (h : Fits c v) (hi : c.isInlined = true) :
    (v.image.length : ℤ) ≤ c.fixedLength := by
  rw [image_of_fixed (h.fixed hi), length_payload_of_fixed (h.fixed hi), ← h.type]
  exact h.sized.fits hi

theorem Fits.length_image_varchar (h : Fits c v) (hi : c.isInlined = false) :
    v.image.length = v.len.toNat + 4 := by
  have hv := h.varchar hi
  rw [image_of_varchar hv, List.length_append, length_wordBytes, h.proper.length_payload hv]
  omega

theorem Fits.place (h : Fits c v) (offset : ℤ) : Fits { c with columnOffset := offset } v :=
  ⟨⟨h.sized.inlined, h.sized.offset, h.sized.fits⟩, h.type, h.proper⟩

theorem forall₂_placed {cs : List Column} {vs : List Value} (h : List.Forall₂ Fits cs vs) :
    ∀ base, List.Forall₂ Fits (placed base cs) vs := by
  induction h with
  | nil => exact fun _ => .nil
  | cons head _ ih => exact fun base => .cons (head.place base) (ih _)

theorem fixedSize_cons (c : Column) (cs : List Column) :
    fixedSize (c :: cs) = c.fixedLength + fixedSize cs := rfl

theorem varSize_cons (c : Column) (v : Value) (pairs : List (Column × Value)) :
    varSize ((c, v) :: pairs) =
      (if c.isInlined then 0 else (v.len.toNat + 4 : ℤ)) + varSize pairs := rfl

theorem fixedSize_nonneg {cs : List Column} {vs : List Value} (h : List.Forall₂ Fits cs vs) :
    0 ≤ fixedSize cs := by
  induction h with
  | nil => exact le_rfl
  | cons head _ ih => exact add_nonneg head.sized.nonneg ih

theorem varSize_nonneg (pairs : List (Column × Value)) : 0 ≤ varSize pairs := by
  refine List.sum_nonneg fun x hx => ?_
  obtain ⟨p, -, rfl⟩ := List.mem_map.1 hx
  split_ifs
  · exact le_rfl
  · positivity

theorem addLength_eq {offset : ℤ} {len : UInt32} (lo : 0 ≤ offset)
    (hi : offset + (len.toNat + 4) < 2147483648) :
    addLength offset len = offset + (len.toNat + 4) :=
  Int.bmod_eq_of_le (by omega) (by omega)

/-- A column reads back the value stored for it. -/
theorem readColumn_of_stored {offset : ℤ} (fits : Fits c v) (lo : 0 ≤ offset)
    (hi : offset < 2147483648) (h : Stored data c v offset) (old : Mem 8) :
    ∃ w, readColumn data c old = .ok w ∧ ReadsBack w v := by
  unfold Stored at h
  unfold readColumn
  rw [fits.type]
  by_cases hc : c.isInlined = true
  · rw [if_pos hc] at h ⊢
    exact deserializeFrom_image fits.proper h old
  · rw [if_neg hc] at h ⊢
    obtain ⟨there, image⟩ := h
    have value : intValue (intBytes 4 offset) = offset :=
      (intValue_intBytes 4 offset).trans (Int.bmod_eq_of_le (by omega) (by omega))
    simp only [there, bind, Except.bind, value]
    exact deserializeFrom_image fits.proper image old

/-- The columns are stored one after another, and nothing else is written. -/
theorem serializeColumns_ok {cs : List Column} {vs : List Value} (h : List.Forall₂ Fits cs vs) :
    ∀ (base offset : ℤ) (data : Mem n), 0 ≤ base → base + fixedSize cs ≤ offset →
      offset + varSize (cs.zip vs) ≤ n → n < 2147483648 →
      ∃ data', serializeColumns ((placed base cs).zip vs) data offset = .ok data' ∧
        (∀ p ∈ (placed base cs).zip vs, ∃ a, 0 ≤ a ∧ a < 2147483648 ∧ Stored data' p.1 p.2 a) ∧
        ∀ a (len : ℕ), (a + len ≤ base ∨ base + fixedSize cs ≤ a) →
          (a + len ≤ offset ∨ offset + varSize (cs.zip vs) ≤ a) →
          load data' a len = load data a len := by
  induction h with
  | nil => exact fun _ _ _ _ _ _ _ => ⟨_, rfl, by simp [placed], fun _ _ _ _ => rfl⟩
  | @cons c v cs vs head rest ih =>
    intro base offset data lo fixed var small
    have fixedNonneg := fixedSize_nonneg rest
    have varNonneg := varSize_nonneg (cs.zip vs)
    have sizeNonneg := head.sized.nonneg
    rw [fixedSize_cons] at fixed ⊢
    rw [List.zip_cons_cons, varSize_cons] at var ⊢
    simp only [placed, List.zip_cons_cons, serializeColumns]
    by_cases hc : c.isInlined = true
    · -- the value itself goes to the fixed part
      rw [if_pos hc] at var
      rw [if_pos hc, if_pos hc]
      have width := head.length_image_fixed hc
      have bounded : 0 ≤ base ∧ base + (v.image.length : ℤ) ≤ n := by omega
      obtain ⟨m₁, stored⟩ : ∃ m₁, store data base v.image = .ok m₁ := ⟨_, if_pos bounded⟩
      obtain ⟨data', run, all, same⟩ :=
        ih (base + c.fixedLength) offset m₁ (by omega) (by omega) (by omega) small
      refine ⟨data', ?_, ?_, ?_⟩
      · simp only [serializeTo_eq head.proper, stored, bind, Except.bind]
        exact run
      · intro p hp
        obtain rfl | hp := List.mem_cons.1 hp
        · refine ⟨0, le_rfl, by decide, ?_⟩
          unfold Stored
          rw [if_pos hc]
          change load data' base v.image.length = _
          rw [same _ _ (by omega) (by omega)]
          exact load_store_self stored
        · exact all p hp
      · intro a len outFixed outVar
        rw [same a len (by omega) (by omega)]
        exact load_store_disjoint stored (by omega)
    · -- the fixed part gets the offset, and the value goes there
      rw [if_neg hc] at var
      rw [if_neg hc, if_neg hc]
      rw [Bool.not_eq_true] at hc
      have four := head.sized.offset hc
      have length := head.length_image_varchar hc
      have hv := head.varchar hc
      obtain ⟨m₁, stored₁⟩ : ∃ m₁, store data base (intBytes 4 offset) = .ok m₁ :=
        ⟨_, if_pos (by rw [length_intBytes]; omega)⟩
      obtain ⟨m₂, stored₂⟩ : ∃ m₂, store m₁ offset v.image = .ok m₂ := ⟨_, if_pos (by omega)⟩
      have next : addLength offset v.len = offset + (v.len.toNat + 4) :=
        addLength_eq (by omega) (by omega)
      obtain ⟨data', run, all, same⟩ := ih (base + c.fixedLength)
        (offset + (v.len.toNat + 4)) m₂ (by omega) (by omega) (by omega) small
      have four₁ := length_intBytes 4 offset
      refine ⟨data', ?_, ?_, ?_⟩
      · simp only [stored₁, serializeTo_eq head.proper, stored₂, getLength, hv, next, bind,
          Except.bind]
        exact run
      · intro p hp
        obtain rfl | hp := List.mem_cons.1 hp
        · refine ⟨offset, by omega, by omega, ?_⟩
          unfold Stored
          simp only [hc, Bool.false_eq_true, if_false]
          constructor
          · rw [same _ _ (by omega) (by omega), load_store_disjoint stored₂ (by omega), ← four₁]
            exact load_store_self stored₁
          · rw [same _ _ (by omega) (by omega)]
            exact load_store_self stored₂
        · exact all p hp
      · intro a len outFixed outVar
        rw [same a len (by omega) (by omega), load_store_disjoint stored₂ (by omega)]
        exact load_store_disjoint stored₁ (by omega)

/-- The size the constructor computes. -/
theorem foldlM_uninlined {cs : List Column} {vs : List Value} (h : List.Forall₂ Fits cs vs) :
    ∀ (before : List Value) (size : ℤ), 0 ≤ size → size + varSize (cs.zip vs) < 2147483648 →
      (uninlinedFrom before.length cs).foldlM (fun size i =>
        match (before ++ vs)[i]? with
        | some value => do return addLength size (← value.getLength)
        | none => .error (.fault .outOfBounds)) size =
      (.ok (size + varSize (cs.zip vs)) : Except Failure ℤ) := by
  induction h with
  | nil =>
    intro before size _ _
    simp [uninlinedFrom, varSize]
    rfl
  | @cons c v cs vs head rest ih =>
    intro before size lo small
    have varNonneg := varSize_nonneg (cs.zip vs)
    rw [List.zip_cons_cons, varSize_cons] at small ⊢
    have shift : before ++ v :: vs = (before ++ [v]) ++ vs := by simp
    have len : (before ++ [v]).length = before.length + 1 := by simp
    unfold uninlinedFrom
    by_cases hc : c.isInlined = true
    · rw [if_pos hc] at small ⊢
      rw [if_pos hc, shift, ← len, ih (before ++ [v]) size lo (by omega), zero_add]
    · rw [if_neg hc] at small ⊢
      rw [Bool.not_eq_true] at hc
      have next : addLength size v.len = size + (v.len.toNat + 4) := addLength_eq lo (by omega)
      have here : (before ++ v :: vs)[before.length]? = some v := by simp
      have more := ih (before ++ [v]) (size + (v.len.toNat + 4)) (by omega) (by omega)
      rw [← shift, len] at more
      simp only [hc, Bool.false_eq_true, if_false, List.foldlM_cons, here, getLength,
        head.varchar hc, next, bind, Except.bind, pure, Except.pure] at more ⊢
      rw [more, add_assoc]

theorem tupleSize_eq {cs : List Column} {vs : List Value} (h : List.Forall₂ Fits cs vs)
    (small : fixedSize cs + varSize (cs.zip vs) < 2147483648) :
    tupleSize vs (Schema.new cs) = .ok (fixedSize cs + varSize (cs.zip vs)) := by
  unfold tupleSize
  rw [Schema.new_eq]
  exact foldlM_uninlined h [] _ (fixedSize_nonneg h) small

theorem length_placed (cs : List Column) : ∀ base, (placed base cs).length = cs.length := by
  induction cs with
  | nil => exact fun _ => rfl
  | cons c cs ih => exact fun base => congrArg (· + 1) (ih _)

/-- The constructor returns, and every column of the tuple reads its value back. -/
theorem new_ok {cs : List Column} {vs : List Value} (h : List.Forall₂ Fits cs vs)
    (small : fixedSize cs + varSize (cs.zip vs) < 2147483648) (fresh : (n : ℕ) → Mem n) :
    ∃ t, new vs (Schema.new cs) fresh = .ok t ∧
      (t.size : ℤ) = fixedSize cs + varSize (cs.zip vs) ∧
      ∀ (i : ℕ) v, vs[i]? = some v → ∀ old,
        ∃ w, t.getValue (Schema.new cs) i old = .ok w ∧ ReadsBack w v := by
  have fixedNonneg := fixedSize_nonneg h
  have varNonneg := varSize_nonneg (cs.zip vs)
  set size := fixedSize cs + varSize (cs.zip vs) with hsize
  have columns : (Schema.new cs).columns = placed 0 cs := by rw [Schema.new_eq]
  have length : (Schema.new cs).length = fixedSize cs := by rw [Schema.new_eq]
  have count : vs.length = (Schema.new cs).getColumnCount := by
    rw [Schema.getColumnCount, columns, length_placed, h.length_eq]
  obtain ⟨data, run, all, -⟩ := serializeColumns_ok h 0 (fixedSize cs)
    (fresh size.toNat) le_rfl (by omega) (by omega) (by omega)
  refine ⟨⟨size.toNat, data⟩, ?_, by simp; omega, fun i v hv old => ?_⟩
  · unfold new
    have computed : tupleSize vs (Schema.new cs) = .ok size := tupleSize_eq h small
    have nonneg : ¬ size < 0 := by omega
    simp only [count, computed, columns, length, ne_eq, not_true_eq_false, nonneg, if_false, bind,
      Except.bind, pure, Except.pure, run]
  · obtain ⟨hi, rfl⟩ := List.getElem?_eq_some_iff.1 hv
    have fits := forall₂_placed h 0
    have hi' : i < (placed 0 cs).length := by rw [length_placed, h.length_eq]; exact hi
    have mem : ((placed 0 cs)[i], vs[i]) ∈ (placed 0 cs).zip vs := by
      rw [List.mem_iff_getElem?]
      exact ⟨i, by simp [hi, hi']⟩
    obtain ⟨a, lo, hi'', stored⟩ := all _ mem
    obtain ⟨w, hw, back⟩ := readColumn_of_stored (fits.get hi' hi) lo hi'' stored old
    refine ⟨w, ?_, back⟩
    unfold getValue
    rw [columns, List.getElem?_eq_getElem hi']
    exact hw

end Layout

/-! ## Tuples of constructed values -/

/-- A call of a constructor that takes a payload; `readable` says that a pointer points to `len`
characters. -/
inductive Init
  | int8 (type : TypeId) (i : Int8)
  | int16 (type : TypeId) (i : Int16)
  | int32 (type : TypeId) (i : Int32)
  | int64 (type : TypeId) (i : Int64)
  | uint64 (type : TypeId) (i : UInt64)
  | double (type : TypeId) (d : UInt64)
  | float (type : TypeId) (f : UInt64)
  | data (type : TypeId) (bytes : Option (List UInt8)) (len : UInt32) (manageData : Bool)
      (readable : ∀ bs ∈ bytes, len.toNat ≤ bs.length)
  | string (type : TypeId) (s : List UInt8)

/-- The constructed value; `old` is what its union held before. -/
def Init.value (old : Mem 8) : Init → Except Failure Value
  | .int8 type i => ofInt8 type i old
  | .int16 type i => ofInt16 type i old
  | .int32 type i => ofInt32 type i old
  | .int64 type i => ofInt64 type i old
  | .uint64 type i => ofUInt64 type i old
  | .double type d => ofDouble type d old
  | .float type f => ofFloat type f old
  | .data type bytes len manageData _ => ofData type bytes len manageData
  | .string type s => ofString type s

/-- A BIGINT from a `uint64_t` gets one byte assigned: that byte is not the NULL of a BOOLEAN, nor
are the eight bytes of the union the NULL of a BIGINT. -/
def Init.KeepsNull (old : Mem 8) : Init → Prop
  | .uint64 .bigint i =>
    i.toNat % 256 ≠ 128 ∧ intValue (i.toUInt8 :: old.slice 1 7) ≠ TypeId.bigint.null
  | _ => True

theorem intBytes_uint64 (i : UInt64) : intBytes 1 (i.toNat : ℤ) = [i.toUInt8] := by
  have low : ((i.toNat : ℤ) % (256 ^ 1 : ℕ)).toNat = i.toNat % 256 := by omega
  have byte : UInt8.ofNat (i.toNat % 256) = i.toUInt8 := by
    apply UInt8.toNat_inj.1
    rw [UInt8.toNat_ofNat', UInt64.toNat_toUInt8]
    omega
  unfold intBytes
  rw [low, wordBytes_succ, byte]
  rfl

theorem member_uint64 (i : UInt64) (old : Mem 8) :
    (setMember .bigint .boolean i.toNat old).member 8 = i.toUInt8 :: old.slice 1 7 := by
  change (old.write 0 (intBytes 1 i.toNat)).slice 0 (1 + 7) = _
  have first := Mem.slice_write_self old (show 0 + (intBytes 1 (i.toNat : ℤ)).length ≤ 8 by simp)
  rw [length_intBytes] at first
  rw [Mem.slice_add, first, Mem.slice_write_disjoint _ (by simp), intBytes_uint64]
  rfl

/-- Eight bytes that hold the NULL of a BIGINT start with a zero. -/
theorem head_of_bigint_null {b : UInt8} {rest : List UInt8} (len : rest.length = 7)
    (h : intValue (b :: rest) = TypeId.bigint.null) : b = 0 := by
  have null : intValue [0, 0, 0, 0, 0, 0, 0, 128] = TypeId.bigint.null := by decide
  have bytes : b :: rest = [0, 0, 0, 0, 0, 0, 0, 128] :=
    intValue_inj (by simp [len]) (h.trans null.symm)
  exact (List.cons.inj bytes).1

theorem flagAgrees_uint64 (i : UInt64) (old : Mem 8) :
    (setMember .bigint .boolean i.toNat old).FlagAgrees ↔ (Init.uint64 .bigint i).KeepsNull old := by
  have flag := isNull_setMember .bigint .boolean i.toNat old
  have byte : (setMember .bigint .boolean i.toNat old).getAs 1 = TypeId.boolean.null ↔
      i.toNat % 256 = 128 := by
    have member : (setMember .bigint .boolean i.toNat old).member 1 = [i.toUInt8] :=
      (member_setMember .bigint .boolean i.toNat old).trans (intBytes_uint64 i)
    have null : intValue [128] = TypeId.boolean.null := by decide
    unfold getAs
    rw [member, ← null]
    constructor
    · intro h
      have bytes : [i.toUInt8] = [128] := intValue_inj rfl h
      have := congrArg UInt8.toNat (List.cons.inj bytes).1
      rwa [UInt64.toNat_toUInt8] at this
    · intro h
      have : i.toUInt8 = 128 := by
        apply UInt8.toNat_inj.1
        rw [UInt64.toNat_toUInt8]
        exact h
      rw [this]
  have whole : (setMember .bigint .boolean i.toNat old).getAs 8 =
      intValue (i.toUInt8 :: old.slice 1 7) := congrArg intValue (member_uint64 i old)
  have agrees : (setMember .bigint .boolean i.toNat old).FlagAgrees ↔
      (i.toNat % 256 = 128 ↔ intValue (i.toUInt8 :: old.slice 1 7) = TypeId.bigint.null) := by
    rw [← byte, ← whole]
    exact ⟨fun h => flag.symm.trans (h TypeId.noConfusion), fun h _ => flag.trans h⟩
  rw [agrees]
  change _ ↔ _ ∧ _
  constructor
  · intro iff
    have low : i.toNat % 256 ≠ 128 := by
      intro h
      have zero := head_of_bigint_null (Mem.length_slice _ _ _) (iff.1 h)
      have := congrArg UInt8.toNat zero
      rw [UInt64.toNat_toUInt8] at this
      change i.toNat % 256 = 0 at this
      omega
    exact ⟨low, fun h => low (iff.2 h)⟩
  · rintro ⟨low, high⟩
    exact ⟨fun h => absurd h low, fun h => absurd h high⟩

theorem flagAgrees_ofInteger {type : TypeId} {i : ℤ} {old : Mem 8} {v : Value}
    (h : ofInteger type i old = .ok v) : v.FlagAgrees := by
  cases type <;> cases h <;> exact flagAgrees_setMember _ i old

theorem flagAgrees_ofDouble {type : TypeId} {d : UInt64} {old : Mem 8} {v : Value}
    (h : ofDouble type d old = .ok v) : v.FlagAgrees := by
  cases type <;> cases h
  exact flagAgrees_setMember _ _ old

/-- Only the constructor from a `uint64_t` can set the flag of a value against its payload. -/
theorem flagAgrees_iff {init : Init} {old : Mem 8} {v : Value} (h : init.value old = .ok v) :
    v.FlagAgrees ↔ init.KeepsNull old := by
  cases init with
  | int8 type i => exact iff_of_true (flagAgrees_ofInteger h) trivial
  | int16 type i => exact iff_of_true (flagAgrees_ofInteger h) trivial
  | int32 type i => exact iff_of_true (flagAgrees_ofInteger h) trivial
  | int64 type i => exact iff_of_true (flagAgrees_ofInteger h) trivial
  | double type d => exact iff_of_true (flagAgrees_ofDouble h) trivial
  | float type f => exact iff_of_true (flagAgrees_ofDouble h) trivial
  | uint64 type i =>
    cases type with
    | bigint =>
      cases h
      exact flagAgrees_uint64 i old
    | timestamp =>
      cases h
      exact iff_of_true (flagAgrees_setMember _ _ old) trivial
    | _ => cases h
  | data type bytes len manageData readable =>
    refine iff_of_true (fun fixed => absurd ?_ fixed) trivial
    simp only [Init.value, ofData] at h
    split at h
    · split at h
      · cases h
        rfl
      · split_ifs at h <;> cases h <;> rfl
    · cases h
  | string type s =>
    refine iff_of_true (fun fixed => absurd ?_ fixed) trivial
    simp only [Init.value, ofString] at h
    split at h <;> cases h
    rfl

theorem chars_of_varlen {v : Value} {bytes : List UInt8} (hv : v.typeId = .varchar)
    (h : v.varlen = some bytes) (fits : v.len.toNat ≤ bytes.length) : v.chars = .ok v.payload := by
  unfold chars payload
  rw [h, if_pos hv]
  exact if_neg (not_lt.2 fits)

theorem chars_of_init {init : Init} {old : Mem 8} {v : Value} (h : init.value old = .ok v)
    (hv : v.typeId = .varchar) (nonNull : v.isNull = false) : v.chars = .ok v.payload := by
  have ofInteger_fixed {type : TypeId} {i : ℤ} (h : ofInteger type i old = .ok v) : False := by
    cases type <;> cases h <;> cases hv
  have ofDouble_fixed {type : TypeId} {d : UInt64} (h : ofDouble type d old = .ok v) : False := by
    cases type <;> cases h
    cases hv
  cases init with
  | int8 type i => exact (ofInteger_fixed h).elim
  | int16 type i => exact (ofInteger_fixed h).elim
  | int32 type i => exact (ofInteger_fixed h).elim
  | int64 type i => exact (ofInteger_fixed h).elim
  | double type d => exact (ofDouble_fixed h).elim
  | float type f => exact (ofDouble_fixed h).elim
  | uint64 type i => cases type <;> cases h <;> cases hv
  | data type bytes len manageData readable =>
    simp only [Init.value, ofData] at h
    split at h
    · split at h
      · cases h
        cases nonNull
      · have enough := readable _ rfl
        split_ifs at h <;> cases h
        · exact chars_of_varlen hv rfl (by simp [enough])
        · exact chars_of_varlen hv rfl enough
    · cases h
  | string type s =>
    simp only [Init.value, ofString] at h
    split at h <;> cases h
    refine chars_of_varlen hv rfl ?_
    have : (UInt32.ofNat (s.length + 1)).toNat ≤ s.length + 1 := by
      rw [UInt32.toNat_ofNat']
      exact Nat.mod_le _ _
    simpa using this

/-! ## Key tuples -/

theorem forall₂_of_mapM {α β : Type} {f : α → Except Failure β} {l : List α} {r : List β}
    (h : l.mapM f = .ok r) : List.Forall₂ (fun a b => f a = .ok b) l r := by
  induction l generalizing r with
  | nil =>
    cases h
    exact .nil
  | cons a l ih =>
    rw [List.mapM_cons] at h
    cases ha : f a with
    | error e => simp [ha, bind, Except.bind] at h
    | ok b =>
      cases hl : l.mapM f with
      | error e => simp [ha, hl, bind, Except.bind] at h
      | ok bs =>
        simp only [ha, hl, bind, Except.bind, pure, Except.pure, Except.ok.injEq] at h
        exact h ▸ .cons ha (ih hl)

/-- `CopySchema` lays the chosen columns out anew. -/
theorem copySchema_ok {cs : List Column} {ids : List ℕ} {keySchema : Schema}
    (h : (Schema.new cs).copySchema ids = .ok keySchema) :
    ∃ ks, List.Forall₂ (fun i k => (placed 0 cs)[i]? = some k) ids ks ∧
      keySchema = Schema.new ks := by
  have columns : (Schema.new cs).columns = placed 0 cs := by rw [Schema.new_eq]
  unfold copySchema at h
  rw [columns] at h
  simp only [bind, Except.bind, pure, Except.pure] at h
  split at h
  · cases h
  · rename_i ks hm
    refine ⟨ks, ?_, (Except.ok.inj h).symm⟩
    refine (forall₂_of_mapM hm).imp fun i k hk => ?_
    split at hk
    · cases hk
      assumption
    · cases hk

theorem varSize_placed (ks : List Column) (vs : List Value) :
    ∀ base, varSize ((placed base ks).zip vs) = varSize (ks.zip vs) := by
  induction ks generalizing vs with
  | nil => exact fun _ => rfl
  | cons k ks ih =>
    intro base
    cases vs with
    | nil => rfl
    | cons v vs =>
      simp only [placed, List.zip_cons_cons, varSize_cons]
      rw [ih]

/-- The values read for the key columns fit the key schema. -/
theorem fits_key {cs : List Column} {vs : List Value} (h : List.Forall₂ Fits cs vs) {t : TupleData}
    (reads : ∀ (i : ℕ) v, vs[i]? = some v → ∀ old,
      ∃ w, t.getValue (Schema.new cs) i old = .ok w ∧ ReadsBack w v)
    {ids : List ℕ} {ks : List Column} {ws : List Value}
    (columns : List.Forall₂ (fun i k => (placed 0 cs)[i]? = some k) ids ks)
    (values : List.Forall₂ (fun i w => ∃ old, t.getValue (Schema.new cs) i old = .ok w) ids ws) :
    List.Forall₂ Fits ks ws ∧
      List.Forall₂ (fun i w => ∃ v, vs[i]? = some v ∧ ReadsBack w v) ids ws := by
  induction columns generalizing ws with
  | nil =>
    cases values
    exact ⟨.nil, .nil⟩
  | @cons i k ids ks hk _ ih =>
    obtain _ | ⟨⟨old, hw⟩, restValues⟩ := values
    rename_i w ws
    obtain ⟨hi, rfl⟩ := List.getElem?_eq_some_iff.1 hk
    have hi' : i < vs.length := by
      rw [← h.length_eq, ← length_placed cs 0]
      exact hi
    have fits := (forall₂_placed h 0).get hi hi'
    simp only [List.get_eq_getElem] at fits
    obtain ⟨w', hw', back⟩ := reads i vs[i] (List.getElem?_eq_getElem hi') old
    cases hw.symm.trans hw'
    obtain ⟨allFit, allBack⟩ := ih restValues
    exact ⟨.cons ⟨fits.sized, fits.type.trans back.typeId.symm, back.proper⟩ allFit,
      .cons ⟨vs[i], List.getElem?_eq_getElem hi', back⟩ allBack⟩

/-! ## The round trip -/

/-- Every column of the tuple reads back as its value, and so does every column of every key tuple
that is built from it. -/
def RoundTrips (columns : List Column) (values : List Value) (fresh : (n : ℕ) → Mem n) : Prop :=
  ∃ t, new values (Schema.new columns) fresh = .ok t ∧
    (∀ (i : ℕ) v, values[i]? = some v → ∀ old,
      ∃ w, t.getValue (Schema.new columns) i old = .ok w ∧ Same w v) ∧
    ∀ (keyAttrs : List ℕ) (keySchema : Schema) (keyValues : List Value),
      (Schema.new columns).copySchema keyAttrs = .ok keySchema →
      List.Forall₂ (fun i w => ∃ old, t.getValue (Schema.new columns) i old = .ok w) keyAttrs
        keyValues →
      keySchema.length + varSize (keySchema.columns.zip keyValues) < 2147483648 →
      ∃ key, new keyValues keySchema fresh = .ok key ∧
        ∀ (j i : ℕ) v, keyAttrs[j]? = some i → values[i]? = some v → ∀ old,
          ∃ w, key.getValue keySchema j old = .ok w ∧ Same w v

theorem roundTrips_iff_flagAgrees {cs : List Column} {vs : List Value}
    (h : List.Forall₂ Fits cs vs) (small : fixedSize cs + varSize (cs.zip vs) < 2147483648)
    (fresh : (n : ℕ) → Mem n) : RoundTrips cs vs fresh ↔ ∀ v ∈ vs, v.FlagAgrees := by
  obtain ⟨t, built, -, reads⟩ := new_ok h small fresh
  constructor
  · rintro ⟨t', built', same, -⟩ v mem
    cases built.symm.trans built'
    obtain ⟨i, hv⟩ := List.mem_iff_getElem?.1 mem
    obtain ⟨w, hw, back⟩ := reads i v hv Mem.zero
    obtain ⟨w', hw', agree⟩ := same i v hv Mem.zero
    cases hw.symm.trans hw'
    exact back.same_iff.1 agree
  · intro agrees
    refine ⟨t, built, fun i v hv old => ?_, fun ids keySchema ws copied read fitsSize => ?_⟩
    · obtain ⟨w, hw, back⟩ := reads i v hv old
      exact ⟨w, hw, back.same_iff.2 (agrees v (List.mem_of_getElem? hv))⟩
    · obtain ⟨ks, columns, rfl⟩ := copySchema_ok copied
      obtain ⟨fits, backs⟩ := fits_key h reads columns read
      rw [Schema.new_eq] at fitsSize
      simp only [varSize_placed] at fitsSize
      obtain ⟨key, hkey, -, readsKey⟩ := new_ok fits fitsSize fresh
      refine ⟨key, hkey, fun j i v hj hv old => ?_⟩
      obtain ⟨hj', rfl⟩ := List.getElem?_eq_some_iff.1 hj
      have hw : j < ws.length := by rwa [← backs.length_eq]
      obtain ⟨v', hv', back⟩ := backs.get hj' hw
      simp only [List.get_eq_getElem] at hv' back
      cases hv.symm.trans hv'
      obtain ⟨w', hw', back'⟩ := readsKey j _ (List.getElem?_eq_getElem hw) old
      exact ⟨w', hw', (back'.same_iff.2 back.flagAgrees).trans
        (back.same_iff.2 (agrees v (List.mem_of_getElem? hv)))⟩

/-- For values that constructors make, columns that have room for their values and no NULL VARCHAR,
the tuple and its keys give every value back if and only if no BIGINT came with a wrong NULL flag
from the `uint64_t` constructor. -/
theorem roundTrips_iff {columns : List Column} {values : List Value} {calls : List (Init × Mem 8)}
    (built : List.Forall₂ (fun call v => call.1.value call.2 = .ok v) calls values)
    (type : ∀ c ∈ columns, c.columnType ≠ .invalid ∧ c.columnType ≠ .timestamp)
    (sized : ∀ c ∈ columns, c.Sized)
    (match_ : columns.map Column.columnType = values.map Value.typeId)
    (nonNull : ∀ v ∈ values, v.typeId = .varchar → v.isNull = false)
    (small : fixedSize columns + varSize (columns.zip values) < 2147483648)
    (fresh : (n : ℕ) → Mem n) :
    RoundTrips columns values fresh ↔ ∀ call ∈ calls, call.1.KeepsNull call.2 := by
  have fits : List.Forall₂ Fits columns values := by
    rw [List.forall₂_iff_get]
    have length : columns.length = values.length := by
      simpa using congrArg List.length match_
    refine ⟨length, fun i hc hv => ?_⟩
    have same : columns[i].columnType = values[i].typeId := by
      have := congrArg (fun l => l[i]?) match_
      simpa [hc, hv] using this
    have column := List.getElem_mem hc
    have value := List.getElem_mem hv
    have hcall : i < calls.length := by rwa [built.length_eq]
    refine ⟨sized _ column, same, same ▸ type _ column, nonNull _ value, fun varchar => ?_⟩
    exact chars_of_init (built.get hcall hv) varchar (nonNull _ value varchar)
  rw [roundTrips_iff_flagAgrees fits small fresh]
  clear fits small match_ nonNull
  induction built with
  | nil => simp
  | cons head _ ih => simp only [List.forall_mem_cons, flagAgrees_iff head, ih]

/-- An INTEGER column and a VARCHAR column, as `ParseCreateStatement` makes them. -/
def twoColumns : List Column :=
  [{ columnType := .integer, fixedLength := 4, variableLength := 0, columnName := "a",
     isInlined := true },
   { columnType := .varchar, fixedLength := 4, variableLength := 32, columnName := "b" }]

def twoCalls : List (Init × Mem 8) :=
  [(.int32 .integer (-5), Mem.zero), (.string .varchar [104, 105], Mem.zero)]

def twoValues : List Value :=
  [setMember .integer .integer (Int32.toInt (-5)) Mem.zero,
   { typeId := .varchar, varlen := some [104, 105, 0], len := 3 }]

theorem sized_twoColumns : ∀ c ∈ twoColumns, c.Sized := by
  intro c hc
  simp only [twoColumns, List.mem_cons, List.not_mem_nil, or_false] at hc
  obtain rfl | rfl := hc <;> exact ⟨by decide, by decide, by decide⟩

theorem built_two :
    List.Forall₂ (fun call v => call.1.value call.2 = .ok v) twoCalls twoValues :=
  .cons rfl (.cons rfl .nil)

theorem roundTrips_iff_two : RoundTrips twoColumns twoValues fun _ => Mem.zero :=
  (roundTrips_iff built_two (by decide) sized_twoColumns (by decide) (by decide) (by decide) _).2
    (by simp [twoCalls, Init.KeepsNull])

/-- A BIGINT column. -/
def bigintColumn : Column :=
  { columnType := .bigint, fixedLength := 8, variableLength := 0, columnName := "a",
    isInlined := true }

theorem sized_bigintColumn : bigintColumn.Sized := ⟨by decide, by decide, by decide⟩

/-- `Value(BIGINT, (uint64_t)128)` is NULL, but its 64-bit integer reads back as 128. -/
theorem not_roundTrips_of_match :
    ¬ ∀ (columns : List Column) (values : List Value) (calls : List (Init × Mem 8)),
      List.Forall₂ (fun call v => call.1.value call.2 = .ok v) calls values →
      (∀ c ∈ columns, c.columnType ≠ .invalid ∧ c.columnType ≠ .timestamp) →
      (∀ c ∈ columns, c.Sized) → columns.map Column.columnType = values.map Value.typeId →
      (∀ v ∈ values, v.typeId = .varchar → v.isNull = false) →
      fixedSize columns + varSize (columns.zip values) < 2147483648 →
      ∀ fresh, RoundTrips columns values fresh := by
  intro claim
  have proper : (setMember .bigint .boolean ((128 : UInt64).toNat) Mem.zero).Proper :=
    ⟨by decide, fun h => absurd h (by decide), fun h => absurd h (by decide)⟩
  have fits : List.Forall₂ Fits [bigintColumn]
      [setMember .bigint .boolean ((128 : UInt64).toNat) Mem.zero] :=
    .cons ⟨sized_bigintColumn, rfl, proper⟩ .nil
  have trips := claim [bigintColumn]
    [setMember .bigint .boolean ((128 : UInt64).toNat) Mem.zero] [(.uint64 .bigint 128, Mem.zero)]
    (.cons rfl .nil) (by decide)
    (fun c hc => by rw [List.mem_singleton.1 hc]; exact sized_bigintColumn) (by decide) (by decide)
    (by decide) fun _ => Mem.zero
  have flags := (roundTrips_iff_flagAgrees fits (by decide) _).1 trips _ List.mem_cons_self
  exact absurd ((flagAgrees_uint64 128 Mem.zero).1 flags).1 (by decide)

end TupleData

end ScuDb
