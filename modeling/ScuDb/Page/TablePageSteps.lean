import ScuDb.Page.TablePage

/-!
# What the table page operations change

For each operation of `TablePage` that changes the page, one structure says how the header, the
slot directory and the tuple area of the new page follow from the old one, and one lemma says when
the operation succeeds and that it then changes the page so.  Nothing here needs more of the page
than that the directory ends below the free space pointer (`Sound`).
-/

namespace ScuDb

open ByteMem

namespace TablePage

/-- The directory lies below the free space pointer, and that inside the page. -/
structure Sound (p : PageData) : Prop where
  count : 0 ≤ getTupleCount p
  directory : 24 + 8 * getTupleCount p ≤ getFreeSpacePointer p
  free : getFreeSpacePointer p ≤ pageSize

/-! ## Words -/

theorem get_setInt32_outside (p : PageData) {off a : ℕ} {v : ℤ} (h : a < off ∨ off + 4 ≤ a) :
    (p.setInt32 off v).get a = p.get a :=
  Mem.get_write_outside p (by rwa [Mem.length_encodeInt32])

theorem getTupleSize_congr {p q : PageData} {j : ℕ}
    (h : ∀ a, 28 + 8 * j ≤ a → a < 32 + 8 * j → q.get a = p.get a) :
    getTupleSize q j = getTupleSize p j :=
  Mem.getInt32_congr fun a lo hi => h a lo (by omega)

theorem getTupleOffset_congr {p q : PageData} {j : ℕ}
    (h : ∀ a, 24 + 8 * j ≤ a → a < 28 + 8 * j → q.get a = p.get a) :
    getTupleOffset q j = getTupleOffset p j :=
  Mem.getInt32_congr fun a lo hi => h a lo (by omega)

theorem getTupleSize_setTupleSize {p : PageData} {i j : ℕ} {v : ℤ} (inside : 32 + 8 * i ≤ 512)
    (h : Mem.IsInt32 v) :
    getTupleSize (setTupleSize p i v) j = if j = i then v else getTupleSize p j := by
  unfold getTupleSize setTupleSize
  split_ifs with hji
  · subst hji
    exact Mem.getInt32_setInt32_self p (show 28 + 8 * j + 4 ≤ 512 by omega) h
  · exact Mem.getInt32_setInt32_disjoint p (by omega)

theorem getTupleOffset_setTupleOffset {p : PageData} {i j : ℕ} {v : ℤ}
    (inside : 28 + 8 * i ≤ 512) (h : Mem.IsInt32 v) :
    getTupleOffset (setTupleOffset p i v) j = if j = i then v else getTupleOffset p j := by
  unfold getTupleOffset setTupleOffset
  split_ifs with hji
  · subst hji
    exact Mem.getInt32_setInt32_self p (show 24 + 8 * j + 4 ≤ 512 by omega) h
  · exact Mem.getInt32_setInt32_disjoint p (by omega)

@[simp] theorem getTupleSize_setTupleOffset (p : PageData) (i j : ℕ) (v : ℤ) :
    getTupleSize (setTupleOffset p i v) j = getTupleSize p j :=
  Mem.getInt32_setInt32_disjoint p (by omega)

@[simp] theorem getTupleOffset_setTupleSize (p : PageData) (i j : ℕ) (v : ℤ) :
    getTupleOffset (setTupleSize p i v) j = getTupleOffset p j :=
  Mem.getInt32_setInt32_disjoint p (by omega)

/-! ## Slots -/

theorem findSlot_some {p : PageData} {test : ℤ → Bool} {start i : ℕ}
    (h : findSlot p test start = some i) :
    start ≤ i ∧ (i : ℤ) < getTupleCount p ∧ test (getTupleSize p i) = true ∧
      ∀ j, start ≤ j → j < i → test (getTupleSize p j) = false := by
  unfold findSlot at h
  rw [List.find?_range'_eq_some] at h
  obtain ⟨ht, hmem, hmin⟩ := h
  simp only [List.mem_range'_1] at hmem
  refine ⟨hmem.1, by omega, ht, fun j lo hi => ?_⟩
  simpa using hmin j lo hi

/-- The shifting loop touches only the offsets of the slots it visits. -/
theorem shiftOffsets_get (test : ℤ → ℤ → Bool) (delta : ℤ) (p : PageData) (a : ℕ) :
    ∀ k, a < 24 ∨ 24 + 8 * k ≤ a → (shiftOffsets test delta k p).get a = p.get a
  | 0, _ => rfl
  | k + 1, h => by
    have ih := shiftOffsets_get test delta p a k (by omega)
    simp only [shiftOffsets]
    split_ifs
    · rw [setTupleOffset, get_setInt32_outside _ (by omega), ih]
    · exact ih

theorem shiftOffsets_size (test : ℤ → ℤ → Bool) (delta : ℤ) (p : PageData) (j : ℕ) :
    ∀ k, getTupleSize (shiftOffsets test delta k p) j = getTupleSize p j
  | 0 => rfl
  | k + 1 => by
    have ih := shiftOffsets_size test delta p j k
    simp only [shiftOffsets]
    split_ifs
    · rw [getTupleSize_setTupleOffset, ih]
    · exact ih

theorem shiftOffsets_offset (test : ℤ → ℤ → Bool) (delta : ℤ) (p : PageData) {j : ℕ}
    (fits : test (getTupleSize p j) (getTupleOffset p j) = true →
      Mem.IsInt32 (getTupleOffset p j + delta)) :
    ∀ k, 24 + 8 * k ≤ 512 → getTupleOffset (shiftOffsets test delta k p) j =
      if j < k ∧ test (getTupleSize p j) (getTupleOffset p j) then getTupleOffset p j + delta
      else getTupleOffset p j
  | 0, _ => by simp [shiftOffsets]
  | k + 1, hk => by
    have ih := shiftOffsets_offset test delta p fits k (by omega)
    -- slot `k` still has its own offset when the loop reaches it
    have hsame : getTupleOffset (shiftOffsets test delta k p) k = getTupleOffset p k :=
      getTupleOffset_congr fun a lo _ => shiftOffsets_get test delta p a k (by omega)
    simp only [shiftOffsets, shiftOffsets_size, hsame]
    by_cases hjk : j = k
    · subst hjk
      split_ifs with ht hn hn
      · rw [getTupleOffset_setTupleOffset (by omega) (fits ht), if_pos rfl]
      · exact absurd ⟨by omega, ht⟩ hn
      · exact absurd hn.2 ht
      · exact hsame
    · have hlt : (j < k + 1 ↔ j < k) := by omega
      simp only [hlt]
      rw [← ih]
      split_ifs
      · rw [setTupleOffset, getTupleOffset]
        exact Mem.getInt32_setInt32_disjoint _ (by omega)
      · rfl

/-! ## InsertTuple -/

/-- `q` is `p` with `tuple` stored in slot `i`. -/
structure Inserted (p : PageData) (tuple : List UInt8) (i : ℕ) (q : PageData) : Prop where
  slot : (i : ℤ) = getTupleCount p ∨ (i : ℤ) < getTupleCount p ∧ getTupleSize p i = 0
  header : ∀ a < 16, q.get a = p.get a
  free : getFreeSpacePointer q = getFreeSpacePointer p - tuple.length
  count : getTupleCount q = max (getTupleCount p) (i + 1)
  room : 24 + 8 * getTupleCount q ≤ getFreeSpacePointer q
  offset : getTupleOffset q i = getFreeSpacePointer q
  size : getTupleSize q i = tuple.length
  others : ∀ j ≠ i, (j : ℤ) < getTupleCount q →
    getTupleOffset q j = getTupleOffset p j ∧ getTupleSize q j = getTupleSize p j
  bytes : ∀ a : ℕ, getFreeSpacePointer p ≤ a → q.get a = p.get a
  tuple : q.slice (getFreeSpacePointer q).toNat tuple.length = tuple

theorem getFreeSpacePointer_congr {p q : PageData}
    (h : ∀ a, 16 ≤ a → a < 20 → q.get a = p.get a) :
    getFreeSpacePointer q = getFreeSpacePointer p :=
  Mem.getInt32_congr h

theorem getTupleCount_congr {p q : PageData} (h : ∀ a, 20 ≤ a → a < 24 → q.get a = p.get a) :
    getTupleCount q = getTupleCount p :=
  Mem.getInt32_congr h

/-- The page after the tuple is stored in slot `i` and before the count is looked at. -/
def storeTuple (p : PageData) (tuple : List UInt8) (i : ℕ) (free : ℤ) : PageData :=
  setTupleSize (setTupleOffset ((setFreeSpacePointer p free).write free.toNat tuple) i free) i
    tuple.length

theorem storeTuple_get (p : PageData) {tuple : List UInt8} {i : ℕ} {free : ℤ} {a : ℕ}
    (low : a < 16 ∨ 20 ≤ a) (slot : a < 24 + 8 * i ∨ 32 + 8 * i ≤ a)
    (area : a < free.toNat ∨ free.toNat + tuple.length ≤ a) :
    (storeTuple p tuple i free).get a = p.get a := by
  unfold storeTuple setTupleSize setTupleOffset setFreeSpacePointer
  rw [get_setInt32_outside _ (by omega), get_setInt32_outside _ (by omega),
    Mem.get_write_outside _ (by omega), get_setInt32_outside _ (by omega)]

theorem storeTuple_free (p : PageData) {tuple : List UInt8} {i : ℕ} {free : ℤ}
    (low : 24 ≤ free) (high : free ≤ 512) :
    getFreeSpacePointer (storeTuple p tuple i free) = free := by
  unfold storeTuple setTupleSize setTupleOffset setFreeSpacePointer getFreeSpacePointer
  rw [Mem.getInt32_setInt32_disjoint _ (by omega), Mem.getInt32_setInt32_disjoint _ (by omega),
    Mem.getInt32_write_disjoint _ (by omega),
    Mem.getInt32_setInt32_self _ (by decide) ⟨by omega, by omega⟩]

theorem storeTuple_tuple (p : PageData) {tuple : List UInt8} {i : ℕ} {free : ℤ}
    (low : 32 + 8 * i ≤ free) (high : free + tuple.length ≤ 512) :
    (storeTuple p tuple i free).slice free.toNat tuple.length = tuple := by
  unfold storeTuple setTupleSize setTupleOffset
  rw [Mem.slice_setInt32_disjoint _ (by omega), Mem.slice_setInt32_disjoint _ (by omega),
    Mem.slice_write_self _ (show free.toNat + tuple.length ≤ 512 by omega)]

theorem getFirst_slot (p : PageData) (nonneg : 0 ≤ getTupleCount p) :
    ∃ i : ℕ, (findSlot p (· == 0) 0).getD (getTupleCount p).toNat = i ∧
      ((i : ℤ) = getTupleCount p ∨ (i : ℤ) < getTupleCount p ∧ getTupleSize p i = 0) := by
  rcases hf : findSlot p (· == 0) 0 with _ | i
  · exact ⟨_, rfl, .inl (by simp [nonneg])⟩
  · obtain ⟨-, lt, empty, -⟩ := findSlot_some hf
    exact ⟨i, rfl, .inr ⟨lt, by simpa using empty⟩⟩

theorem storeTuple_inserted {p q : PageData} (h : Sound p) {tuple : List UInt8} {i : ℕ}
    (slot : (i : ℤ) = getTupleCount p ∨ (i : ℤ) < getTupleCount p ∧ getTupleSize p i = 0)
    {free : ℤ} (hfree : free = getFreeSpacePointer p - tuple.length)
    (room : 24 + 8 * max (getTupleCount p) (i + 1) ≤ free)
    (outside : ∀ a, a < 20 ∨ 24 ≤ a → q.get a = (storeTuple p tuple i free).get a)
    (hcount : getTupleCount q = max (getTupleCount p) (i + 1)) : Inserted p tuple i q := by
  have nonneg := h.count
  have hpage : getFreeSpacePointer p ≤ 512 := h.free
  have inside : 32 + 8 * (i : ℤ) ≤ free := by omega
  have hfsp : getFreeSpacePointer q = free := by
    rw [getFreeSpacePointer_congr fun a lo hi => outside a (by omega)]
    exact storeTuple_free p (by omega) (by omega)
  refine ⟨slot, ?_, ?_, hcount, ?_, ?_, ?_, ?_, ?_, ?_⟩
  · intro a ha
    rw [outside a (by omega), storeTuple_get p (by omega) (by omega) (by omega)]
  · rw [hfsp, hfree]
  · rw [hcount, hfsp]
    exact room
  · rw [hfsp, getTupleOffset_congr fun a lo hi => outside a (by omega), storeTuple,
      getTupleOffset_setTupleSize,
      getTupleOffset_setTupleOffset (by omega) ⟨by omega, by omega⟩, if_pos rfl]
  · rw [getTupleSize_congr fun a lo hi => outside a (by omega), storeTuple,
      getTupleSize_setTupleSize (by omega) ⟨by omega, by omega⟩, if_pos rfl]
  · intro j hj lt
    rw [hcount] at lt
    refine ⟨getTupleOffset_congr fun a lo hi => ?_, getTupleSize_congr fun a lo hi => ?_⟩ <;>
      rw [outside a (by omega), storeTuple_get p (by omega) (by omega) (by omega)]
  · intro a ha
    rw [outside a (by omega), storeTuple_get p (by omega) (by omega) (by omega)]
  · rw [hfsp, Mem.slice_congr fun a ha => outside (free.toNat + a) (by omega)]
    exact storeTuple_tuple p inside (by omega)

/-- On a sound page `InsertTuple` of a non-empty tuple returns: either there is no room for the
tuple and a new slot, and nothing changes, or the tuple is stored. -/
theorem insertTuple_cases {p : PageData} (h : Sound p) {tuple : List UInt8}
    (pos : 0 < tuple.length) :
    (insertTuple p tuple = .ok (none, p) ∧ getFreeSpaceSize p < tuple.length + 8) ∨
      ∃ (i : ℕ) (q : PageData), insertTuple p tuple = .ok (some ⟨getPageId p, i⟩, q) ∧
        Inserted p tuple i q := by
  obtain ⟨i, hi, slot⟩ := getFirst_slot p h.count
  have hcount := h.count
  have hdir := h.directory
  have hfree : getFreeSpacePointer p ≤ 512 := h.free
  unfold insertTuple
  rw [assert_pos pos, hi]
  simp only [bind, Except.bind, pure, Except.pure]
  by_cases hsmall : getFreeSpaceSize p < tuple.length
  · rw [if_pos hsmall]
    exact .inl ⟨rfl, by omega⟩
  rw [if_neg hsmall]
  by_cases hnew : (i : ℤ) = getTupleCount p ∧ getFreeSpaceSize p < tuple.length + 8
  · rw [if_pos hnew]
    exact .inl ⟨rfl, hnew.2⟩
  rw [if_neg hnew]
  obtain ⟨free, hf⟩ : ∃ free, free = getFreeSpacePointer p - (tuple.length : ℤ) := ⟨_, rfl⟩
  have room : 24 + 8 * max (getTupleCount p) (i + 1) ≤ free := by
    unfold getFreeSpaceSize at hsmall hnew
    omega
  have hcnt : getTupleCount (storeTuple p tuple i free) = getTupleCount p :=
    getTupleCount_congr fun a lo hi => storeTuple_get p (by omega) (by omega) (by omega)
  have hpid : getPageId (storeTuple p tuple i free) = getPageId p :=
    Mem.getInt32_congr fun a lo hi => storeTuple_get p (by omega) (by omega) (by omega)
  have hset : getFreeSpacePointer (setFreeSpacePointer p free) = free :=
    Mem.getInt32_setInt32_self _ (by decide) ⟨by omega, by omega⟩
  have hcopy : copyIn (setFreeSpacePointer p free) free tuple =
      .ok ((setFreeSpacePointer p free).write free.toNat tuple) :=
    if_pos ⟨by omega, show free + tuple.length ≤ 512 by omega⟩
  have hwrite : getFreeSpacePointer ((setFreeSpacePointer p free).write free.toNat tuple) = free := by
    rw [getFreeSpacePointer, Mem.getInt32_write_disjoint _ (by omega)]
    exact hset
  right
  simp only [← hf, hset, hcopy, hwrite]
  change ∃ (j : ℕ) (q : PageData),
    (if (i : ℤ) = getTupleCount (storeTuple p tuple i free) then _ else _) = _ ∧ _
  rw [hcnt, ← hpid]
  split_ifs with hlast
  · refine ⟨i, _, rfl, storeTuple_inserted h slot hf room
      (fun a ha => get_setInt32_outside _ (by omega)) ?_⟩
    change getTupleCount (setTupleCount _ (getTupleCount (storeTuple p tuple i free) + 1)) = _
    rw [hcnt, getTupleCount, setTupleCount,
      Mem.getInt32_setInt32_self _ (by decide) ⟨by omega, by omega⟩]
    omega
  · exact ⟨i, _, rfl, storeTuple_inserted h slot hf room (fun a _ => rfl)
      (hcnt.trans (by omega))⟩

/-! ## MarkDelete and RollbackDelete -/

/-- `q` is `p` with another size in slot `i`. -/
structure Resized (p : PageData) (i : ℕ) (size : ℤ) (q : PageData) : Prop where
  slot : (i : ℤ) < getTupleCount p
  below : ∀ a < 24, q.get a = p.get a
  free : getFreeSpacePointer q = getFreeSpacePointer p
  count : getTupleCount q = getTupleCount p
  offset : ∀ j, getTupleOffset q j = getTupleOffset p j
  size : ∀ j, getTupleSize q j = if j = i then size else getTupleSize p j
  bytes : ∀ a : ℕ, getFreeSpacePointer p ≤ a → q.get a = p.get a

theorem resized_setTupleSize {p : PageData} (h : Sound p) {i : ℕ} (lt : (i : ℤ) < getTupleCount p)
    {v : ℤ} (fits : Mem.IsInt32 v) : Resized p i v (setTupleSize p i v) := by
  have hdir := h.directory
  have hfree : getFreeSpacePointer p ≤ 512 := h.free
  refine ⟨lt, ?_, ?_, ?_, ?_, ?_, ?_⟩
  · intro a ha
    exact get_setInt32_outside p (by omega)
  · exact getFreeSpacePointer_congr fun a lo hi => get_setInt32_outside p (by omega)
  · exact getTupleCount_congr fun a lo hi => get_setInt32_outside p (by omega)
  · intro j
    exact getTupleOffset_setTupleSize p i j v
  · intro j
    exact getTupleSize_setTupleSize (by omega) fits
  · intro a ha
    exact get_setInt32_outside p (by omega)

theorem isInt32_neg_getTupleSize {p : PageData} {i : ℕ} (h : |getTupleSize p i| ≤ 512) :
    Mem.IsInt32 (-getTupleSize p i) := by
  rw [abs_le] at h
  exact ⟨by omega, by omega⟩

theorem slotIndex_ofNat (i : ℕ) : slotIndex (i : ℤ) = .ok i := by
  simp [slotIndex]

theorem markDelete_eq {p : PageData} {i : ℕ} (lt : (i : ℤ) < getTupleCount p) :
    markDelete p i = .ok (decide (0 ≤ getTupleSize p i),
      if 0 < getTupleSize p i then setTupleSize p i (-getTupleSize p i) else p) := by
  unfold markDelete
  rw [if_neg (not_le.2 lt), slotIndex_ofNat]
  simp only [bind, Except.bind, pure, Except.pure]
  by_cases hneg : getTupleSize p i < 0
  · rw [if_pos hneg, if_neg (by omega), decide_eq_false (by omega)]
  · rw [if_neg hneg, decide_eq_true (by omega)]

theorem rollbackDelete_eq {p : PageData} {i : ℕ} (lt : (i : ℤ) < getTupleCount p) :
    rollbackDelete p i = .ok
      (if getTupleSize p i < 0 then setTupleSize p i (-getTupleSize p i) else p) := by
  unfold rollbackDelete
  rw [assert_pos lt, slotIndex_ofNat]
  rfl

/-! ## ApplyDelete -/

/-- `q` is `p` without the tuple of slot `i`; the tuples below it moved up over it. -/
structure Removed (p : PageData) (i : ℕ) (q : PageData) : Prop where
  slot : (i : ℤ) < getTupleCount p
  above : getFreeSpacePointer p ≤ getTupleOffset p i
  inside : getTupleOffset p i + |getTupleSize p i| ≤ pageSize
  header : ∀ a < 16, q.get a = p.get a
  free : getFreeSpacePointer q = getFreeSpacePointer p + |getTupleSize p i|
  count : getTupleCount q = getTupleCount p
  size : ∀ j : ℕ, (j : ℤ) < getTupleCount p →
    getTupleSize q j = if j = i then 0 else getTupleSize p j
  offset : ∀ j : ℕ, (j : ℤ) < getTupleCount p → j ≠ i → -512 ≤ getTupleOffset p j →
    getTupleOffset q j = if getTupleSize p j ≠ 0 ∧ getTupleOffset p j < getTupleOffset p i then
      getTupleOffset p j + |getTupleSize p i| else getTupleOffset p j
  moved : ∀ a : ℕ, getFreeSpacePointer p ≤ a → (a : ℤ) < getTupleOffset p i →
    q.get (a + |getTupleSize p i|.toNat) = p.get a
  bytes : ∀ a : ℕ, getTupleOffset p i + |getTupleSize p i| ≤ a → q.get a = p.get a

/-- The page of `ApplyDelete` before the offsets are corrected. -/
def closeGap (p : PageData) (i : ℕ) (free offset size : ℤ) : PageData :=
  setTupleOffset (setTupleSize (setFreeSpacePointer
    (p.write (free + size).toNat (p.slice free.toNat (offset - free).toNat)) (free + size)) i 0) i 0

theorem closeGap_get (p : PageData) {i : ℕ} {free offset size : ℤ} {a : ℕ}
    (low : a < 16 ∨ 20 ≤ a) (slot : a < 24 + 8 * i ∨ 32 + 8 * i ≤ a)
    (area : a < (free + size).toNat ∨ (free + size).toNat + (offset - free).toNat ≤ a) :
    (closeGap p i free offset size).get a = p.get a := by
  unfold closeGap setTupleSize setTupleOffset setFreeSpacePointer
  rw [get_setInt32_outside _ (by omega), get_setInt32_outside _ (by omega),
    get_setInt32_outside _ (by omega), Mem.get_write_outside _ (by rwa [Mem.length_slice])]

theorem closeGap_moved (p : PageData) {i : ℕ} {free offset size : ℤ} {a : ℕ}
    (slot : 32 + 8 * (i : ℤ) ≤ free) (nonneg : 0 ≤ size) (inside : offset + size ≤ 512)
    (low : free ≤ a) (high : (a : ℤ) < offset) :
    (closeGap p i free offset size).get (a + size.toNat) = p.get a := by
  unfold closeGap setTupleSize setTupleOffset setFreeSpacePointer
  rw [get_setInt32_outside _ (by omega), get_setInt32_outside _ (by omega),
    get_setInt32_outside _ (by omega), Mem.get_write_inside _ (by omega)
      (by rw [Mem.length_slice]; omega) (show a + size.toNat < 512 by omega),
    Mem.getD_slice _ (by omega)]
  congr 1
  omega

theorem applyDelete_eq {p : PageData} {i : ℕ} (lt : (i : ℤ) < getTupleCount p) (h : Sound p) :
    applyDelete p i =
      if 0 ≤ getTupleOffset p i ∧ getTupleOffset p i + |getTupleSize p i| ≤ pageSize then
        if getFreeSpacePointer p ≤ getTupleOffset p i then
          .ok (shiftOffsets (fun size offset => size ≠ 0 ∧ offset < getTupleOffset p i)
            |getTupleSize p i| (getTupleCount p).toNat (closeGap p i (getFreeSpacePointer p)
              (getTupleOffset p i) |getTupleSize p i|))
        else .error .assertion
      else .error .outOfBounds := by
  have hdir := h.directory
  have hfree : getFreeSpacePointer p ≤ 512 := h.free
  have hcount := h.count
  obtain ⟨size, hsize⟩ : ∃ size, size = |getTupleSize p i| := ⟨_, rfl⟩
  have nonneg : 0 ≤ size := hsize ▸ abs_nonneg _
  obtain ⟨offset, hoffset⟩ : ∃ offset, offset = getTupleOffset p i := ⟨_, rfl⟩
  obtain ⟨free, hf⟩ : ∃ free, free = getFreeSpacePointer p := ⟨_, rfl⟩
  unfold applyDelete
  rw [assert_pos lt, slotIndex_ofNat]
  simp only [bind, Except.bind, pure, Except.pure, ← hsize, ← hoffset, ← hf]
  by_cases hin : 0 ≤ offset ∧ offset + size ≤ pageSize
  · rw [if_pos hin, copyOut, if_pos ⟨hin.1, nonneg, hin.2⟩]
    have hin' : offset + size ≤ 512 := hin.2
    by_cases habove : free ≤ offset
    · have hcopy : copyOut p free (offset - free) =
          .ok (p.slice free.toNat (offset - free).toNat) :=
        if_pos ⟨by omega, by omega, show free + (offset - free) ≤ 512 by omega⟩
      have hmove : memmove p (free + size) free (offset - free) =
          .ok (p.write (free + size).toNat (p.slice free.toNat (offset - free).toNat)) := by
        unfold memmove
        rw [hcopy]
        refine if_pos ⟨by omega, ?_⟩
        rw [Mem.length_slice]
        change free + size + _ ≤ 512
        omega
      have hcnt : getTupleCount (closeGap p i free offset size) = getTupleCount p :=
        getTupleCount_congr fun a lo hi => closeGap_get p (by omega) (by omega) (by omega)
      rw [if_pos habove, assert_pos habove, hmove, ← hcnt]
      rfl
    · rw [if_neg habove, assert_neg habove]
  · rw [if_neg hin, copyOut, if_neg (fun hc => hin ⟨hc.1, hc.2.2⟩)]

/-- A successful `ApplyDelete` removes the tuple of its slot. -/
theorem removed_of_applyDelete {p q : PageData} (h : Sound p) {i : ℕ}
    (lt : (i : ℤ) < getTupleCount p) (hq : applyDelete p i = .ok q) : Removed p i q := by
  have hdir := h.directory
  have hcount := h.count
  rw [applyDelete_eq lt h] at hq
  split_ifs at hq with hin habove
  obtain ⟨size, hsize⟩ : ∃ size, size = |getTupleSize p i| := ⟨_, rfl⟩
  have nonneg : 0 ≤ size := hsize ▸ abs_nonneg _
  obtain ⟨offset, hoffset⟩ : ∃ offset, offset = getTupleOffset p i := ⟨_, rfl⟩
  obtain ⟨free, hf⟩ : ∃ free, free = getFreeSpacePointer p := ⟨_, rfl⟩
  rw [← hsize, ← hoffset] at hin
  rw [← hoffset, ← hf] at habove
  rw [← hsize, ← hoffset, ← hf, Except.ok.injEq] at hq
  have hin' : offset + size ≤ 512 := hin.2
  have outside {a : ℕ} (low : a < 16 ∨ 20 ≤ a) (slot : a < 24 ∨ 24 + 8 * getTupleCount p ≤ a)
      (area : a < (free + size).toNat ∨ (free + size).toNat + (offset - free).toNat ≤ a) :
      q.get a = p.get a := by
    rw [← hq, shiftOffsets_get _ _ _ _ _ (by omega), closeGap_get p low (by omega) area]
  have hsizes {j : ℕ} (hj : (j : ℤ) < getTupleCount p) : getTupleSize q j =
      if j = i then 0 else getTupleSize p j := by
    rw [← hq, shiftOffsets_size, closeGap, getTupleSize_setTupleOffset,
      getTupleSize_setTupleSize (by omega) ⟨by decide, by decide⟩]
    split_ifs
    · rfl
    · refine getTupleSize_congr fun a lo hi => ?_
      rw [setFreeSpacePointer, get_setInt32_outside _ (by omega),
        Mem.get_write_outside _ (by rw [Mem.length_slice]; omega)]
  have hoffsets {j : ℕ} (hj : (j : ℤ) < getTupleCount p) (hji : j ≠ i) :
      getTupleOffset (closeGap p i free offset size) j = getTupleOffset p j :=
    getTupleOffset_congr fun a lo hi => closeGap_get p (by omega) (by omega) (by omega)
  have hgap {j : ℕ} (hj : (j : ℤ) < getTupleCount p) :
      getTupleSize (closeGap p i free offset size) j = getTupleSize q j := by
    rw [← hq, shiftOffsets_size]
  refine ⟨lt, hf ▸ hoffset ▸ habove, hsize ▸ hoffset ▸ hin.2, ?_, ?_, ?_, fun j hj => hsizes hj,
    ?_, ?_, ?_⟩
  · intro a ha
    exact outside (by omega) (by omega) (by omega)
  · rw [← hsize, ← hf, ← hq,
      getFreeSpacePointer_congr fun a lo hi => shiftOffsets_get _ _ _ _ _ (by omega)]
    unfold closeGap setTupleSize setTupleOffset setFreeSpacePointer getFreeSpacePointer
    rw [Mem.getInt32_setInt32_disjoint _ (by omega), Mem.getInt32_setInt32_disjoint _ (by omega),
      Mem.getInt32_setInt32_self _ (by decide) ⟨by omega, by omega⟩]
  · exact getTupleCount_congr fun a lo hi => outside (by omega) (by omega) (by omega)
  · intro j hj hji low
    have fits : decide (getTupleSize (closeGap p i free offset size) j ≠ 0 ∧
        getTupleOffset (closeGap p i free offset size) j < offset) = true →
        Mem.IsInt32 (getTupleOffset (closeGap p i free offset size) j + size) := by
      rw [hoffsets hj hji, decide_eq_true_eq]
      exact fun ht => ⟨by omega, by omega⟩
    rw [← hq, shiftOffsets_offset _ _ _ fits _ (by omega), hgap hj, hsizes hj, hoffsets hj hji,
      if_neg hji, ← hsize, ← hoffset]
    simp only [decide_eq_true_eq, show j < (getTupleCount p).toNat from by omega, true_and]
  · intro a lo hi
    rw [← hf] at lo
    rw [← hoffset] at hi
    rw [← hsize, ← hq, shiftOffsets_get _ _ _ _ _ (by omega)]
    exact closeGap_moved p (by omega) nonneg hin' lo hi
  · intro a ha
    rw [← hoffset, ← hsize] at ha
    exact outside (by omega) (by omega) (by omega)

/-! ## UpdateTuple -/

/-- `q` is `p` with `tuple` in slot `i`; the tuples below it moved by the difference in size, and
the offsets of the live ones among them follow. -/
structure Updated (p : PageData) (tuple : List UInt8) (i : ℕ) (q : PageData) : Prop where
  slot : (i : ℤ) < getTupleCount p
  live : 0 < getTupleSize p i
  above : getFreeSpacePointer p ≤ getTupleOffset p i
  inside : getTupleOffset p i + getTupleSize p i ≤ pageSize
  room : 24 + 8 * getTupleCount p ≤ getFreeSpacePointer p + getTupleSize p i - tuple.length
  header : ∀ a < 16, q.get a = p.get a
  free : getFreeSpacePointer q = getFreeSpacePointer p + getTupleSize p i - tuple.length
  count : getTupleCount q = getTupleCount p
  size : ∀ j : ℕ, (j : ℤ) < getTupleCount p →
    getTupleSize q j = if j = i then (tuple.length : ℤ) else getTupleSize p j
  offset : ∀ j : ℕ, (j : ℤ) < getTupleCount p → -512 ≤ getTupleOffset p j →
    getTupleOffset q j =
      if 0 < getTupleSize q j ∧ getTupleOffset p j < getTupleOffset p i + getTupleSize p i then
        getTupleOffset p j + getTupleSize p i - tuple.length else getTupleOffset p j
  moved : ∀ a b : ℕ, getFreeSpacePointer p ≤ a → (a : ℤ) < getTupleOffset p i →
    (b : ℤ) = a + getTupleSize p i - tuple.length → q.get b = p.get a
  tuple : q.slice (getTupleOffset p i + getTupleSize p i - tuple.length).toNat tuple.length = tuple
  bytes : ∀ a : ℕ, getTupleOffset p i + getTupleSize p i ≤ a → q.get a = p.get a

/-- The page of `UpdateTuple` before the offsets are corrected. -/
def replaceTuple (p : PageData) (tuple : List UInt8) (i : ℕ) (free offset delta : ℤ) : PageData :=
  setTupleSize ((setFreeSpacePointer
    (p.write (free + delta).toNat (p.slice free.toNat (offset - free).toNat)) (free + delta)).write
      (offset + delta).toNat tuple) i tuple.length

theorem replaceTuple_get (p : PageData) {tuple : List UInt8} {i : ℕ} {free offset delta : ℤ}
    {a : ℕ} (low : a < 16 ∨ 20 ≤ a) (slot : a < 28 + 8 * i ∨ 32 + 8 * i ≤ a)
    (area : a < (free + delta).toNat ∨ (free + delta).toNat + (offset - free).toNat ≤ a)
    (new : a < (offset + delta).toNat ∨ (offset + delta).toNat + tuple.length ≤ a) :
    (replaceTuple p tuple i free offset delta).get a = p.get a := by
  unfold replaceTuple setTupleSize setFreeSpacePointer
  rw [get_setInt32_outside _ (by omega), Mem.get_write_outside _ (by omega),
    get_setInt32_outside _ (by omega), Mem.get_write_outside _ (by rwa [Mem.length_slice])]

theorem replaceTuple_moved (p : PageData) {tuple : List UInt8} {i : ℕ} {free offset delta : ℤ}
    {a b : ℕ} (slot : 32 + 8 * (i : ℤ) ≤ free + delta) (inside : offset + delta ≤ 512)
    (nonneg : 0 ≤ free) (low : free ≤ a) (high : (a : ℤ) < offset) (hb : (b : ℤ) = a + delta) :
    (replaceTuple p tuple i free offset delta).get b = p.get a := by
  unfold replaceTuple setTupleSize setFreeSpacePointer
  rw [get_setInt32_outside _ (by omega), Mem.get_write_outside _ (by omega),
    get_setInt32_outside _ (by omega), Mem.get_write_inside _ (by omega)
      (by rw [Mem.length_slice]; omega) (show b < 512 by omega), Mem.getD_slice _ (by omega)]
  congr 1
  omega

theorem replaceTuple_tuple (p : PageData) {tuple : List UInt8} {i : ℕ} {free offset delta : ℤ}
    (slot : 32 + 8 * (i : ℤ) ≤ offset + delta) (inside : offset + delta + tuple.length ≤ 512) :
    (replaceTuple p tuple i free offset delta).slice (offset + delta).toNat tuple.length =
      tuple := by
  unfold replaceTuple setTupleSize
  rw [Mem.slice_setInt32_disjoint _ (by omega),
    Mem.slice_write_self _ (show (offset + delta).toNat + tuple.length ≤ 512 by omega)]

/-- Whether `UpdateTuple` finds a live slot and enough room. -/
def Fits (p : PageData) (tuple : List UInt8) (i : ℕ) : Prop :=
  0 < getTupleSize p i ∧ (tuple.length : ℤ) - getTupleSize p i ≤ getFreeSpaceSize p

theorem updateTuple_eq {p : PageData} {tuple : List UInt8} {i : ℕ}
    (lt : (i : ℤ) < getTupleCount p) (h : Sound p) (fits : Fits p tuple i) :
    updateTuple p tuple i =
      if 0 ≤ getTupleOffset p i ∧ getTupleOffset p i + getTupleSize p i ≤ pageSize then
        if getFreeSpacePointer p ≤ getTupleOffset p i then
          .ok (some (p.slice (getTupleOffset p i).toNat (getTupleSize p i).toNat),
            shiftOffsets (fun size offset => size > 0 ∧
                offset < getTupleOffset p i + getTupleSize p i)
              (getTupleSize p i - tuple.length) (getTupleCount p).toNat
              (replaceTuple p tuple i (getFreeSpacePointer p) (getTupleOffset p i)
                (getTupleSize p i - tuple.length)))
        else .error .assertion
      else .error .outOfBounds := by
  have hdir := h.directory
  have hfree : getFreeSpacePointer p ≤ 512 := h.free
  have hcount := h.count
  obtain ⟨live, room⟩ := fits
  unfold getFreeSpaceSize at room
  unfold updateTuple
  rw [if_neg (not_le.2 lt), slotIndex_ofNat]
  simp only [bind, Except.bind, pure, Except.pure]
  rw [if_neg (not_le.2 live), if_neg (by unfold getFreeSpaceSize; omega)]
  obtain ⟨size, hsize⟩ : ∃ size, size = getTupleSize p i := ⟨_, rfl⟩
  obtain ⟨offset, hoffset⟩ : ∃ offset, offset = getTupleOffset p i := ⟨_, rfl⟩
  obtain ⟨free, hf⟩ : ∃ free, free = getFreeSpacePointer p := ⟨_, rfl⟩
  obtain ⟨delta, hdelta⟩ : ∃ delta, delta = size - (tuple.length : ℤ) := ⟨_, rfl⟩
  simp only [← hsize, ← hoffset, ← hf, ← hdelta] at live room ⊢
  by_cases hin : 0 ≤ offset ∧ offset + size ≤ pageSize
  · rw [if_pos hin, copyOut, if_pos ⟨hin.1, by omega, hin.2⟩]
    have hin' : offset + size ≤ 512 := hin.2
    by_cases habove : free ≤ offset
    · have hcopy : copyOut p free (offset - free) =
          .ok (p.slice free.toNat (offset - free).toNat) :=
        if_pos ⟨by omega, by omega, show free + (offset - free) ≤ 512 by omega⟩
      have hmove : memmove p (free + delta) free (offset - free) =
          .ok (p.write (free + delta).toNat (p.slice free.toNat (offset - free).toNat)) := by
        unfold memmove
        rw [hcopy]
        refine if_pos ⟨by omega, ?_⟩
        rw [Mem.length_slice]
        change free + delta + _ ≤ 512
        omega
      have hnew (m : PageData) : copyIn m (offset + delta) tuple =
          .ok (m.write (offset + delta).toNat tuple) :=
        if_pos ⟨by omega, show offset + delta + tuple.length ≤ 512 by omega⟩
      have hcnt : getTupleCount (replaceTuple p tuple i free offset delta) = getTupleCount p :=
        getTupleCount_congr fun a lo hi =>
          replaceTuple_get p (by omega) (by omega) (by omega) (by omega)
      rw [if_pos habove, assert_pos habove]
      simp only [hmove, hnew]
      rw [← hcnt]
      rfl
    · rw [if_neg habove, assert_neg habove]
  · rw [if_neg hin, copyOut, if_neg (fun hc => hin ⟨hc.1, hc.2.2⟩)]

theorem updateTuple_refused {p : PageData} {tuple : List UInt8} {i : ℕ}
    (lt : (i : ℤ) < getTupleCount p) (fits : ¬ Fits p tuple i) :
    updateTuple p tuple i = .ok (none, p) := by
  unfold updateTuple
  rw [if_neg (not_le.2 lt), slotIndex_ofNat]
  simp only [bind, Except.bind, pure, Except.pure]
  by_cases live : getTupleSize p i ≤ 0
  · rw [if_pos live]
  · rw [if_neg live, if_pos]
    by_contra room
    exact fits ⟨by omega, by omega⟩

/-- A successful `UpdateTuple` replaces the tuple of its slot and returns the old one. -/
theorem updated_of_updateTuple {p q : PageData} (h : Sound p) {tuple old : List UInt8} {i : ℕ}
    (lt : (i : ℤ) < getTupleCount p) (hq : updateTuple p tuple i = .ok (some old, q)) :
    Updated p tuple i q ∧ old = p.slice (getTupleOffset p i).toNat (getTupleSize p i).toNat := by
  have hdir := h.directory
  have hfree : getFreeSpacePointer p ≤ 512 := h.free
  have hcount := h.count
  have fits : Fits p tuple i := by
    by_contra hn
    rw [updateTuple_refused lt hn] at hq
    cases hq
  rw [updateTuple_eq lt h fits] at hq
  split_ifs at hq with hin habove
  obtain ⟨live, room⟩ := fits
  unfold getFreeSpaceSize at room
  obtain ⟨size, hsize⟩ : ∃ size, size = getTupleSize p i := ⟨_, rfl⟩
  obtain ⟨offset, hoffset⟩ : ∃ offset, offset = getTupleOffset p i := ⟨_, rfl⟩
  obtain ⟨free, hf⟩ : ∃ free, free = getFreeSpacePointer p := ⟨_, rfl⟩
  obtain ⟨delta, hdelta⟩ : ∃ delta, delta = size - (tuple.length : ℤ) := ⟨_, rfl⟩
  simp only [← hsize, ← hoffset, ← hf, ← hdelta] at live room hin habove hq hdir
  simp only [Except.ok.injEq, Prod.mk.injEq, Option.some.injEq] at hq
  obtain ⟨hold, hq⟩ := hq
  refine ⟨?_, by rw [← hold, hsize, hoffset]⟩
  have hin' : offset + size ≤ 512 := hin.2
  have outside {a : ℕ} (low : a < 16 ∨ 20 ≤ a) (slot : a < 24 ∨ 24 + 8 * getTupleCount p ≤ a)
      (area : a < (free + delta).toNat ∨ offset + size ≤ a) : q.get a = p.get a := by
    rw [← hq, shiftOffsets_get _ _ _ _ _ (by omega),
      replaceTuple_get p low (by omega) (by omega) (by omega)]
  have hsizes {j : ℕ} (hj : (j : ℤ) < getTupleCount p) : getTupleSize q j =
      if j = i then (tuple.length : ℤ) else getTupleSize p j := by
    rw [← hq, shiftOffsets_size, replaceTuple,
      getTupleSize_setTupleSize (by omega) ⟨by omega, by omega⟩]
    split_ifs
    · rfl
    · refine getTupleSize_congr fun a lo hi => ?_
      rw [Mem.get_write_outside _ (by omega), setFreeSpacePointer,
        get_setInt32_outside _ (by omega), Mem.get_write_outside _
          (by rw [Mem.length_slice]; omega)]
  have hoffsets {j : ℕ} (hj : (j : ℤ) < getTupleCount p) :
      getTupleOffset (replaceTuple p tuple i free offset delta) j = getTupleOffset p j :=
    getTupleOffset_congr fun a lo hi =>
      replaceTuple_get p (by omega) (by omega) (by omega) (by omega)
  have hnew (j : ℕ) : getTupleSize (replaceTuple p tuple i free offset delta) j =
      getTupleSize q j := by
    rw [← hq, shiftOffsets_size]
  refine ⟨lt, hsize ▸ live, hf ▸ hoffset ▸ habove, hsize ▸ hoffset ▸ hin.2, by omega, ?_, ?_, ?_,
    fun j hj => hsizes hj, ?_, ?_, ?_, ?_⟩
  · intro a ha
    exact outside (by omega) (by omega) (by omega)
  · rw [← hsize, ← hf, ← hq,
      getFreeSpacePointer_congr fun a lo hi => shiftOffsets_get _ _ _ _ _ (by omega)]
    unfold replaceTuple setTupleSize setFreeSpacePointer getFreeSpacePointer
    rw [Mem.getInt32_setInt32_disjoint _ (by omega), Mem.getInt32_write_disjoint _ (by omega),
      Mem.getInt32_setInt32_self _ (by decide) ⟨by omega, by omega⟩]
    omega
  · exact getTupleCount_congr fun a lo hi => outside (by omega) (by omega) (by omega)
  · intro j hj low
    have fits : decide (getTupleSize (replaceTuple p tuple i free offset delta) j > 0 ∧
        getTupleOffset (replaceTuple p tuple i free offset delta) j < offset + size) = true →
        Mem.IsInt32 (getTupleOffset (replaceTuple p tuple i free offset delta) j + delta) := by
      rw [hoffsets hj, decide_eq_true_eq]
      exact fun ht => ⟨by omega, by omega⟩
    rw [← hq, shiftOffsets_offset _ _ _ fits _ (by omega), hnew, hoffsets hj, shiftOffsets_size,
      hnew, ← hsize, ← hoffset, show getTupleOffset p j + delta =
        getTupleOffset p j + size - tuple.length by omega]
    simp only [decide_eq_true_eq, show j < (getTupleCount p).toNat from by omega, true_and,
      gt_iff_lt]
  · intro a b lo hi hb
    rw [← hf] at lo
    rw [← hoffset] at hi
    rw [← hsize] at hb
    rw [← hq, shiftOffsets_get _ _ _ _ _ (by omega)]
    exact replaceTuple_moved p (by omega) (by omega) (by omega) lo hi (by omega)
  · rw [← hsize, ← hoffset, show offset + size - (tuple.length : ℤ) = offset + delta by omega,
      ← hq, Mem.slice_congr fun a ha => shiftOffsets_get _ _ _ _ _ (by omega)]
    exact replaceTuple_tuple p (by omega) (by omega)
  · intro a ha
    rw [← hoffset, ← hsize] at ha
    exact outside (by omega) (by omega) (by omega)

/-! ## The operations keep pages sound -/

theorem Inserted.sound {p q : PageData} {tuple : List UInt8} {i : ℕ} (h : Sound p)
    (hq : Inserted p tuple i q) : Sound q := by
  have := h.free
  exact ⟨by rw [hq.count]; omega, hq.room, by rw [hq.free]; omega⟩

theorem Resized.sound {p q : PageData} {i : ℕ} {size : ℤ} (h : Sound p)
    (hq : Resized p i size q) : Sound q :=
  ⟨by rw [hq.count]; exact h.count, by rw [hq.count, hq.free]; exact h.directory,
    by rw [hq.free]; exact h.free⟩

theorem Removed.sound {p q : PageData} {i : ℕ} (h : Sound p) (hq : Removed p i q) : Sound q := by
  have hdir := h.directory
  have habove := hq.above
  have hinside := hq.inside
  have nonneg := abs_nonneg (getTupleSize p i)
  exact ⟨by rw [hq.count]; exact h.count, by rw [hq.count, hq.free]; omega,
    by rw [hq.free]; omega⟩

theorem Updated.sound {p q : PageData} {tuple : List UInt8} {i : ℕ} (h : Sound p)
    (hq : Updated p tuple i q) : Sound q := by
  have habove := hq.above
  have hinside := hq.inside
  exact ⟨by rw [hq.count]; exact h.count, by rw [hq.count, hq.free]; exact hq.room,
    by rw [hq.free]; omega⟩

end TablePage

end ScuDb
