import ScuDb.Page.TablePage

/-!
# The header page

The page that holds the root ids of tables and indexes: a record count, and records of 36 bytes,
a NUL-terminated name of less than 32 bytes and a root id.  Names are compared with `strcmp`;
a byte read or written behind the end of the page is the fault `outOfBounds`.
-/

namespace ScuDb

open ByteMem

namespace HeaderPage

def getRecordCount (p : PageData) : ℤ := p.getInt32 0

def setRecordCount (p : PageData) (recordCount : ℤ) : PageData := p.setInt32 0 recordCount

/-- `strcmp(data + off, str) == 0` for a string that ends with its NUL byte. -/
def strcmpEq (p : PageData) : ℕ → List UInt8 → Except Fault Bool
  | _, [] => .ok true
  | off, b :: bs =>
    if pageSize ≤ off then .error .outOfBounds
    else if p.get off ≠ b then .ok false
    else if b = 0 then .ok true
    else strcmpEq p (off + 1) bs

/-- The loop of `FindRecord` from record `i` on, with `n` records left. -/
def findRecordFrom (p : PageData) (name : List UInt8) : ℕ → ℕ → Except Fault (Option ℕ)
  | 0, _ => .ok none
  | n + 1, i => do
    if ← strcmpEq p (4 + i * 36) (name ++ [0]) then return some i
    else findRecordFrom p name n (i + 1)

/-- `FindRecord`: the index of the record, or `none` for `-1`. -/
def findRecord (p : PageData) (name : List UInt8) : Except Fault (Option ℕ) :=
  findRecordFrom p name (getRecordCount p).toNat 0

/-- `InsertRecord`. -/
def insertRecord (p : PageData) (name : List UInt8) (rootId : PageId) :
    Except Fault (Bool × PageData) := do
  assert (name.length < 32)
  assert (rootId > invalidPageId)
  let recordNum := getRecordCount p
  let offset := 4 + recordNum * 36
  if (← findRecord p name) ≠ none then return (false, p)
  let p ← copyIn p offset (name ++ [0])
  let p ← copyIn p (offset + 32) (Mem.encodeInt32 rootId)
  return (true, setRecordCount p (recordNum + 1))

/-- `DeleteRecord`: the records behind the deleted one move up. -/
def deleteRecord (p : PageData) (name : List UInt8) : Except Fault (Bool × PageData) := do
  let recordNum := getRecordCount p
  assert (recordNum > 0)
  match ← findRecord p name with
  | none => return (false, p)
  | some index =>
    let offset : ℤ := index * 36 + 4
    let p ← memmove p offset (offset + 36) ((recordNum - index - 1) * 36)
    return (true, setRecordCount p (recordNum - 1))

/-- `UpdateRecord`. -/
def updateRecord (p : PageData) (name : List UInt8) (rootId : PageId) :
    Except Fault (Bool × PageData) := do
  assert (name.length < 32)
  match ← findRecord p name with
  | none => return (false, p)
  | some index =>
    let offset : ℤ := index * 36 + 4
    let p ← copyIn p (offset + 32) (Mem.encodeInt32 rootId)
    return (true, p)

/-- `GetRootId`: the root id, or `none` for `false`. -/
def getRootId (p : PageData) (name : List UInt8) : Except Fault (Option PageId) := do
  assert (name.length < 32)
  match ← findRecord p name with
  | none => return none
  | some index => return some (p.getInt32 ((index + 1) * 36))

/-! ## Names -/

/-- The string `bytes` with its NUL byte is at address `off`. -/
def StringAt (p : PageData) (off : ℕ) (bytes : List UInt8) : Prop :=
  ∀ i < bytes.length + 1, p.get (off + i) = (bytes ++ [0]).getD i 0

/-- A comparison that stays inside the page returns, and depends only on the bytes it covers. -/
theorem strcmpEq_congr {p p' : PageData} (bs : List UInt8) : ∀ {off : ℕ}, off + bs.length ≤ pageSize →
    (∀ i, off ≤ i → i < off + bs.length → p'.get i = p.get i) →
    strcmpEq p' off bs = strcmpEq p off bs := by
  induction bs with
  | nil => exact fun _ _ => rfl
  | cons b bs ih =>
    intro off inside same
    simp only [List.length_cons] at inside same
    simp only [strcmpEq]
    rw [same off le_rfl (by omega), ih (by omega) fun i lo hi => same i (by omega) (by omega)]

theorem strcmpEq_ok (p : PageData) (bs : List UInt8) : ∀ {off : ℕ}, off + bs.length ≤ pageSize →
    ∃ r, strcmpEq p off bs = .ok r := by
  induction bs with
  | nil => exact fun _ => ⟨true, rfl⟩
  | cons b bs ih =>
    intro off inside
    simp only [List.length_cons] at inside
    simp only [strcmpEq]
    rw [if_neg (by omega)]
    split_ifs
    · exact ⟨_, rfl⟩
    · exact ⟨_, rfl⟩
    · exact ih (by omega)

/-- The bytes of a string compare equal to it. -/
theorem strcmpEq_self (p : PageData) (bs : List UInt8) : ∀ {off : ℕ}, off + bs.length ≤ pageSize →
    (∀ i, i < bs.length → p.get (off + i) = bs.getD i 0) → strcmpEq p off bs = .ok true := by
  induction bs with
  | nil => exact fun _ _ => rfl
  | cons b bs ih =>
    intro off inside stored
    simp only [List.length_cons] at inside stored
    simp only [strcmpEq]
    have first := stored 0 (by omega)
    simp only [Nat.add_zero, List.getD_cons_zero] at first
    rw [if_neg (by omega), if_neg (by simpa using first)]
    split_ifs
    · rfl
    · refine ih (by omega) fun i hi => ?_
      have next := stored (i + 1) (by omega)
      rw [List.getD_cons_succ] at next
      rw [← next]
      congr 1
      omega

/-! ## Records -/

theorem findRecordFrom_ok (p : PageData) {name : List UInt8} (short : name.length < 32) (n : ℕ) :
    ∀ {i : ℕ}, i + n ≤ 14 → ∃ r, findRecordFrom p name n i = .ok r ∧ ∀ j, r = some j → j < i + n := by
  induction n with
  | zero => exact fun _ => ⟨none, rfl, by simp⟩
  | succ n ih =>
    intro i bound
    have inside : 4 + i * 36 + (name ++ [0]).length ≤ pageSize := by
      simp only [List.length_append, List.length_singleton]
      show _ ≤ 512
      omega
    obtain ⟨r, hr⟩ := strcmpEq_ok p (name ++ [0]) inside
    simp only [findRecordFrom, hr]
    cases r with
    | true =>
      refine ⟨some i, rfl, fun j hj => ?_⟩
      cases hj
      omega
    | false =>
      obtain ⟨r, hr, hlt⟩ := ih (i := i + 1) (by omega)
      refine ⟨r, hr, fun j hj => ?_⟩
      have := hlt j hj
      omega

/-- The search sees only the names. -/
theorem findRecordFrom_congr {p p' : PageData} {name : List UInt8} (short : name.length < 32)
    (n : ℕ) : ∀ {i : ℕ}, i + n ≤ 14 →
    (∀ j, i ≤ j → j < i + n → ∀ k, 4 + j * 36 ≤ k → k < 4 + j * 36 + 32 → p'.get k = p.get k) →
    findRecordFrom p' name n i = findRecordFrom p name n i := by
  induction n with
  | zero => exact fun _ _ => rfl
  | succ n ih =>
    intro i bound same
    have length : (name ++ [0]).length ≤ 32 := by
      simp only [List.length_append, List.length_singleton]
      omega
    have inside : 4 + i * 36 + (name ++ [0]).length ≤ pageSize := by
      show _ ≤ 512
      omega
    have head : strcmpEq p' (4 + i * 36) (name ++ [0]) = strcmpEq p (4 + i * 36) (name ++ [0]) :=
      strcmpEq_congr _ inside fun k lo hi => same i le_rfl (by omega) k lo (by omega)
    simp only [findRecordFrom, head]
    rw [ih (i := i + 1) (by omega) fun j lo hi => same j (by omega) (by omega)]

/-- A header page with whole records that has the name or has room for it. -/
structure Valid (p : PageData) (name : List UInt8) : Prop where
  short : name.length < 32
  count_nonneg : 0 ≤ getRecordCount p
  count_le : getRecordCount p ≤ 14
  room : findRecord p name = .ok none → getRecordCount p ≤ 13

variable {p : PageData} {name : List UInt8}

theorem Valid.findRecord_ok (h : Valid p name) :
    ∃ r, findRecord p name = .ok r ∧ ∀ i : ℕ, r = some i → (i : ℤ) < getRecordCount p := by
  have lo := h.count_nonneg
  have hi := h.count_le
  obtain ⟨r, hr, hlt⟩ := findRecordFrom_ok p h.short (getRecordCount p).toNat (i := 0) (by omega)
  refine ⟨r, hr, fun i e => ?_⟩
  have := hlt i e
  omega

theorem getRootId_of_findRecord (short : name.length < 32) {i : ℕ}
    (found : findRecord p name = .ok (some i)) :
    getRootId p name = .ok (some (p.getInt32 ((i + 1) * 36))) := by
  unfold getRootId
  rw [assert_pos short]
  change (findRecord p name >>= _) = _
  rw [found]
  rfl

/-- The page of `UpdateRecord` that found the name in record `i`. -/
theorem updateRecord_found (short : name.length < 32) {i : ℕ} (small : i < 14)
    (found : findRecord p name = .ok (some i)) (rootId : PageId) :
    updateRecord p name rootId = .ok (true, p.setInt32 ((i + 1) * 36) rootId) := by
  have copy : copyIn p ((i : ℤ) * 36 + 4 + 32) (Mem.encodeInt32 rootId) =
      .ok (p.setInt32 ((i + 1) * 36) rootId) := by
    unfold copyIn
    rw [if_pos (by rw [Mem.length_encodeInt32]; show _ ∧ _ ≤ (512 : ℤ); omega),
      show ((i : ℤ) * 36 + 4 + 32).toNat = (i + 1) * 36 by omega]
    rfl
  simp only [updateRecord, assert_pos short, found, copy, bind, Except.bind, pure, Except.pure]

/-- `UpdateRecord` of a stored name. -/
theorem Valid.updateRecord_ok (h : Valid p name) {i : ℕ} (found : findRecord p name = .ok (some i))
    {rootId : PageId} (range : Mem.IsInt32 rootId) :
    ∃ p', updateRecord p name rootId = .ok (true, p') ∧ Valid p' name ∧
      findRecord p' name = .ok (some i) ∧ getRootId p' name = .ok (some rootId) := by
  have lo := h.count_nonneg
  have hi := h.count_le
  have inside : (i : ℤ) < getRecordCount p := by
    obtain ⟨r, hr, hlt⟩ := h.findRecord_ok
    rw [found] at hr
    cases hr
    exact hlt i rfl
  set p' : PageData := p.setInt32 ((i + 1) * 36) rootId with hp'
  have count : getRecordCount p' = getRecordCount p :=
    Mem.getInt32_setInt32_disjoint p (.inl (by omega))
  have found' : findRecord p' name = .ok (some i) := by
    unfold findRecord at found ⊢
    rw [count, ← found]
    refine findRecordFrom_congr h.short _ (by omega) fun j _ _ k lo hi => ?_
    exact Mem.get_write_outside _ (by rw [Mem.length_encodeInt32]; omega)
  refine ⟨p', updateRecord_found h.short (by omega) found rootId,
    ⟨h.short, count ▸ lo, count ▸ hi, ?_⟩, found', ?_⟩
  · rw [found']
    exact fun e => nomatch e
  · rw [getRootId_of_findRecord h.short found']
    rw [hp', Mem.getInt32_setInt32_self _ (by show _ ≤ 512; omega) range]

/-- `UpdateRecord` of another name. -/
theorem Valid.updateRecord_none (h : Valid p name) (absent : findRecord p name = .ok none)
    (rootId : PageId) : updateRecord p name rootId = .ok (false, p) := by
  unfold updateRecord
  rw [assert_pos h.short]
  change (findRecord p name >>= _) = _
  rw [absent]
  rfl

/-- `InsertRecord` of a stored name. -/
theorem Valid.insertRecord_stored (h : Valid p name) {i : ℕ}
    (found : findRecord p name = .ok (some i)) {rootId : PageId} (valid : rootId > invalidPageId) :
    insertRecord p name rootId = .ok (false, p) := by
  unfold insertRecord
  rw [assert_pos h.short, assert_pos valid]
  change (findRecord p name >>= _) = _
  rw [found]
  rfl

theorem findRecordFrom_skip (n : ℕ) : ∀ {i : ℕ}, findRecordFrom p name n i = .ok none →
    findRecordFrom p name (n + 1) i = findRecordFrom p name 1 (i + n) := by
  induction n with
  | zero => exact fun _ => rfl
  | succ n ih =>
    intro i h
    rw [findRecordFrom] at h ⊢
    cases hc : strcmpEq p (4 + i * 36) (name ++ [0]) with
    | error e =>
      rw [hc] at h
      cases h
    | ok r =>
      rw [hc] at h
      cases r with
      | true => cases h
      | false =>
        change findRecordFrom p name n (i + 1) = .ok none at h
        change findRecordFrom p name (n + 1) (i + 1) = _
        rw [ih h, Nat.add_assoc, Nat.add_comm 1 n]

/-- The page with a record behind its `n` records. -/
def appended (p : PageData) (n : ℕ) (name : List UInt8) (rootId : PageId) : PageData :=
  setRecordCount ((p.write (4 + n * 36) (name ++ [0])).setInt32 ((n + 1) * 36) rootId) (n + 1)

section Appended

variable {n : ℕ} {rootId : PageId}

theorem appended_count (p : PageData) (small : n ≤ 13) :
    getRecordCount (appended p n name rootId) = (n : ℤ) + 1 :=
  Mem.getInt32_setInt32_self _ (by decide) ⟨by omega, by omega⟩

theorem appended_get (p : PageData) {k : ℕ} (lo : 4 ≤ k) (hi : k < 4 + n * 36) :
    (appended p n name rootId).get k = p.get k := by
  have len : (name ++ [0]).length = name.length + 1 := by simp
  unfold appended setRecordCount
  rw [Mem.setInt32, Mem.get_write_outside _ (by rw [Mem.length_encodeInt32]; omega), Mem.setInt32,
    Mem.get_write_outside _ (by rw [Mem.length_encodeInt32]; omega),
    Mem.get_write_outside _ (by omega)]

theorem appended_name (p : PageData) (short : name.length < 32) (small : n ≤ 13) :
    StringAt (appended p n name rootId) (4 + n * 36) name := by
  have len : (name ++ [0]).length = name.length + 1 := by simp
  intro k hk
  unfold appended setRecordCount
  rw [Mem.setInt32, Mem.get_write_outside _ (by rw [Mem.length_encodeInt32]; omega), Mem.setInt32,
    Mem.get_write_outside _ (by rw [Mem.length_encodeInt32]; omega),
    Mem.get_write_inside _ (by omega) (by omega) (by show _ < 512; omega), Nat.add_sub_cancel_left]

theorem appended_root (p : PageData) (small : n ≤ 13) (range : Mem.IsInt32 rootId) :
    (appended p n name rootId).getInt32 ((n + 1) * 36) = rootId := by
  unfold appended setRecordCount
  rw [Mem.getInt32_setInt32_disjoint _ (.inr (by omega)),
    Mem.getInt32_setInt32_self _ (by show _ ≤ 512; omega) range]

theorem insertRecord_absent (short : name.length < 32) (count : getRecordCount p = n)
    (small : n ≤ 13) (absent : findRecord p name = .ok none) (valid : rootId > invalidPageId) :
    insertRecord p name rootId = .ok (true, appended p n name rootId) := by
  have len : (name ++ [0]).length = name.length + 1 := by simp
  have first : copyIn p (4 + (n : ℤ) * 36) (name ++ [0]) =
      .ok (p.write (4 + n * 36) (name ++ [0])) := by
    unfold copyIn
    rw [if_pos (by show _ ∧ _ ≤ (512 : ℤ); omega), show (4 + (n : ℤ) * 36).toNat = 4 + n * 36 by omega]
  have second (q : PageData) : copyIn q (4 + (n : ℤ) * 36 + 32) (Mem.encodeInt32 rootId) =
      .ok (q.setInt32 ((n + 1) * 36) rootId) := by
    unfold copyIn
    rw [if_pos (by rw [Mem.length_encodeInt32]; show _ ∧ _ ≤ (512 : ℤ); omega),
      show (4 + (n : ℤ) * 36 + 32).toNat = (n + 1) * 36 by omega]
    rfl
  simp only [insertRecord, assert_pos short, assert_pos valid, absent, count, first, second, bind,
    Except.bind, pure, Except.pure, ne_eq, not_true_eq_false, if_false, appended]

end Appended

/-- `InsertRecord` of a new name. -/
theorem Valid.insertRecord_new (h : Valid p name) (absent : findRecord p name = .ok none)
    {rootId : PageId} (valid : rootId > invalidPageId) (range : Mem.IsInt32 rootId) :
    ∃ p' i, insertRecord p name rootId = .ok (true, p') ∧ Valid p' name ∧
      findRecord p' name = .ok (some i) ∧ getRootId p' name = .ok (some rootId) := by
  have room := h.room absent
  have short := h.short
  obtain ⟨n, hn⟩ := Int.eq_ofNat_of_zero_le h.count_nonneg
  have small : n ≤ 13 := by omega
  have count : getRecordCount (appended p n name rootId) = (n : ℤ) + 1 := appended_count p small
  have found : findRecord (appended p n name rootId) name = .ok (some n) := by
    have none : findRecordFrom (appended p n name rootId) name n 0 = .ok none := by
      rw [← absent, findRecord, hn, Int.toNat_natCast]
      exact findRecordFrom_congr short n (by omega) fun j _ hj k lo hi =>
        appended_get p (by omega) (by omega)
    have len : (name ++ [0]).length = name.length + 1 := by simp
    have hit : strcmpEq (appended p n name rootId) (4 + n * 36) (name ++ [0]) = .ok true :=
      strcmpEq_self _ _ (by show _ ≤ 512; omega) fun k hk =>
        appended_name p short small k (by omega)
    unfold findRecord
    rw [count, show ((n : ℤ) + 1).toNat = n + 1 by omega, findRecordFrom_skip n none, Nat.zero_add,
      findRecordFrom, hit]
    rfl
  refine ⟨_, n, insertRecord_absent short hn small absent valid,
    ⟨short, by omega, by omega, ?_⟩, found, ?_⟩
  · rw [found]
    exact fun e => nomatch e
  · rw [getRootId_of_findRecord short found, appended_root p small range]

/-! ## The recorded root id -/

theorem Valid.findRecord_of_getRootId (h : Valid p name) {r : PageId}
    (hr : getRootId p name = .ok (some r)) : ∃ i, findRecord p name = .ok (some i) := by
  obtain ⟨i, hi, -⟩ := h.findRecord_ok
  cases i with
  | some i => exact ⟨i, hi⟩
  | none =>
    simp [getRootId, assert_pos h.short, hi, bind, Except.bind, pure, Except.pure] at hr

theorem Valid.findRecord_of_getRootId_none (h : Valid p name)
    (hr : getRootId p name = .ok none) : findRecord p name = .ok none := by
  obtain ⟨i, hi, -⟩ := h.findRecord_ok
  cases i with
  | none => exact hi
  | some i =>
    rw [getRootId_of_findRecord h.short hi] at hr
    cases hr

/-- `UpdateRecord` changes the recorded root id, if there is one. -/
theorem Valid.updateRecord_rule (h : Valid p name) {recorded : Option PageId} {root : PageId}
    (hr : getRootId p name = .ok recorded) (range : Mem.IsInt32 root) :
    ∃ b p', updateRecord p name root = .ok (b, p') ∧ Valid p' name ∧
      getRootId p' name = .ok (recorded.map fun _ => root) := by
  cases recorded with
  | none =>
    have absent := h.findRecord_of_getRootId_none hr
    exact ⟨false, p, h.updateRecord_none absent root, h, hr⟩
  | some r =>
    obtain ⟨i, found⟩ := h.findRecord_of_getRootId hr
    obtain ⟨p', run, valid, -, root'⟩ := h.updateRecord_ok found range
    exact ⟨true, p', run, valid, root'⟩

/-- `InsertRecord` records a root id only if there is none. -/
theorem Valid.insertRecord_rule (h : Valid p name) {recorded : Option PageId} {root : PageId}
    (hr : getRootId p name = .ok recorded) (valid : root > invalidPageId)
    (range : Mem.IsInt32 root) :
    ∃ b p', insertRecord p name root = .ok (b, p') ∧ Valid p' name ∧
      getRootId p' name = .ok (recorded.or (some root)) := by
  cases recorded with
  | none =>
    have absent := h.findRecord_of_getRootId_none hr
    obtain ⟨p', i, run, valid', -, root'⟩ := h.insertRecord_new absent valid range
    exact ⟨true, p', run, valid', root'⟩
  | some r =>
    obtain ⟨i, found⟩ := h.findRecord_of_getRootId hr
    exact ⟨false, p, h.insertRecord_stored found valid, h, hr⟩

end HeaderPage

end ScuDb
