import ScuDb.Page.HeaderPage

/-!
# The header page as a finite map

The records of a header page, in the order of the page, as a list of names and root ids.  On a page
with whole records every operation does to that list what it does to the bytes, so that a run of
calls on a zeroed page returns what the same operations on a finite map return.
-/

namespace ScuDb

open ByteMem

namespace HeaderPage

/-- A record name: less than 32 bytes, none of them NUL. -/
abbrev Name := { bytes : List UInt8 // bytes.length < 32 ∧ 0 ∉ bytes }

/-- `(PAGE_SIZE - 4) / 36`, the records that fit a page. -/
def maxRecords : ℕ := (pageSize - 4) / 36

/-- The page holds the records, one behind the other, each name once. -/
structure Holds (p : PageData) (records : List (Name × PageId)) : Prop where
  count : getRecordCount p = records.length
  fits : records.length ≤ maxRecords
  nodup : (records.map Prod.fst).Nodup
  name : ∀ (i : ℕ) (r : Name × PageId), records[i]? = some r → StringAt p (4 + i * 36) r.1
  root : ∀ (i : ℕ) (r : Name × PageId), records[i]? = some r → p.getInt32 ((i + 1) * 36) = r.2

variable {p q : PageData} {records : List (Name × PageId)} {name : Name}

/-! ## Searching -/

theorem StringAt.head {off : ℕ} {bytes : List UInt8} (h : StringAt p off bytes) :
    p.get off = (bytes ++ [0]).getD 0 0 := h 0 (by omega)

theorem StringAt.tail {off : ℕ} {b : UInt8} {bytes : List UInt8} (h : StringAt p off (b :: bytes)) :
    StringAt p (off + 1) bytes := by
  intro i hi
  have := h (i + 1) (by simp only [List.length_cons]; omega)
  rwa [List.cons_append, List.getD_cons_succ, show off + (i + 1) = off + 1 + i by omega] at this

theorem StringAt.congr {off : ℕ} {bytes : List UInt8} (h : StringAt p off bytes)
    (same : ∀ i, off ≤ i → i < off + (bytes.length + 1) → q.get i = p.get i) :
    StringAt q off bytes := by
  intro i hi
  rw [same (off + i) (by omega) (by omega)]
  exact h i hi

/-- Strings without NUL bytes compare equal when they are. -/
theorem StringAt.strcmpEq_eq {stored : List UInt8} (hs : 0 ∉ stored) (bytes : List UInt8) :
    ∀ {off : ℕ}, 0 ∉ bytes → StringAt p off stored → off + stored.length + 1 ≤ pageSize →
      strcmpEq p off (bytes ++ [0]) = .ok (decide (stored = bytes)) := by
  induction stored generalizing bytes with
  | nil =>
    intro off hb h inside
    have head : p.get off = 0 := h.head
    cases bytes with
    | nil =>
      simp only [List.nil_append, strcmpEq]
      rw [if_neg (by omega), if_neg (by rw [head]; simp)]
      rfl
    | cons b bytes =>
      have nonzero : b ≠ 0 := fun e => hb (by simp [e])
      simp only [List.cons_append, strcmpEq]
      rw [if_neg (by omega), if_pos (by rw [head]; exact nonzero.symm)]
      rfl
  | cons c stored ih =>
    intro off hb h inside
    simp only [List.length_cons] at inside
    have head : p.get off = c := h.head
    have nonzero : c ≠ 0 := fun e => hs (by simp [e])
    cases bytes with
    | nil =>
      simp only [List.nil_append, strcmpEq]
      rw [if_neg (by omega), if_pos (by rw [head]; exact nonzero)]
      rfl
    | cons b bytes =>
      simp only [List.cons_append, strcmpEq]
      rw [if_neg (by omega), head]
      by_cases same : c = b
      · subst same
        rw [if_neg (by simp), if_neg nonzero,
          ih (fun hm => hs (List.mem_cons_of_mem _ hm)) bytes
            (fun hm => hb (List.mem_cons_of_mem _ hm)) h.tail (by omega)]
        simp
      · rw [if_pos same]
        simp [same]

theorem Holds.index_lt (h : Holds p records) {i : ℕ} {r : Name × PageId}
    (hr : records[i]? = some r) : i < records.length ∧ i < 14 := by
  have lt := (List.getElem?_eq_some_iff.1 hr).1
  have fits : records.length ≤ 14 := h.fits
  omega

/-- The search compares the names in order. -/
theorem Holds.findRecordFrom_eq (h : Holds p records) (n : ℕ) : ∀ {i : ℕ}, i + n = records.length →
    findRecordFrom p name n i =
      .ok (((records.drop i).findIdx? fun r => r.1 = name).map (· + i)) := by
  induction n with
  | zero =>
    intro i hi
    rw [List.drop_eq_nil_of_le (by omega)]
    rfl
  | succ n ih =>
    intro i hi
    have hr : records[i]? = some records[i] := List.getElem?_eq_getElem (by omega)
    have bound := (h.index_lt hr).2
    have short := records[i].1.2.1
    have hcmp := (h.name i _ hr).strcmpEq_eq records[i].1.2.2 name.1 name.2.2
      (show _ ≤ 512 by omega)
    rw [List.drop_eq_getElem_cons (by omega), List.findIdx?_cons, findRecordFrom, hcmp]
    by_cases same : records[i].1 = name
    · simp [same, bind, Except.bind, pure, Except.pure]
    · have differ : ¬ records[i].1.1 = name.1 := fun e => same (Subtype.ext e)
      simp only [differ, same, decide_false, bind, Except.bind, Bool.false_eq_true, if_false]
      rw [ih (by omega), Option.map_map]
      congr 2
      funext k
      simp only [Function.comp_apply]
      omega

theorem Holds.findRecord_eq (h : Holds p records) :
    findRecord p name = .ok (records.findIdx? fun r => r.1 = name) := by
  unfold findRecord
  rw [h.count, Int.toNat_natCast, h.findRecordFrom_eq records.length (by omega)]
  simp

/-! ## The operations on the records -/

theorem getElem?_snoc {r r' : Name × PageId} {i : ℕ} (h : (records ++ [r])[i]? = some r') :
    records[i]? = some r' ∨ i = records.length ∧ r' = r := by
  rw [List.getElem?_append] at h
  split_ifs at h with lt
  · exact .inl h
  · rw [List.getElem?_singleton] at h
    split_ifs at h with last
    exact .inr ⟨by omega, (Option.some.inj h).symm⟩

theorem Holds.getRootId_eq (h : Holds p records) {i : ℕ} {rootId : PageId}
    (found : records.findIdx? (fun r => r.1 = name) = some i)
    (hr : records[i]? = some (name, rootId)) : getRootId p name = .ok (some rootId) := by
  rw [getRootId_of_findRecord name.2.1 (h.findRecord_eq.trans (by rw [found])), h.root i _ hr]

theorem Holds.getRootId_absent (h : Holds p records)
    (absent : records.findIdx? (fun r => r.1 = name) = none) : getRootId p name = .ok none := by
  simp only [getRootId, assert_pos name.2.1, h.findRecord_eq, absent, bind, Except.bind, pure,
    Except.pure]

theorem Holds.insertRecord_stored (h : Holds p records) {i : ℕ} {rootId : PageId}
    (found : records.findIdx? (fun r => r.1 = name) = some i) (valid : 0 ≤ rootId) :
    insertRecord p name rootId = .ok (false, p) := by
  have valid' : rootId > invalidPageId := lt_of_lt_of_le (by decide) valid
  simp only [insertRecord, assert_pos name.2.1, assert_pos valid', h.findRecord_eq, found, bind,
    Except.bind, pure, Except.pure, ne_eq, reduceCtorEq, not_false_eq_true, if_true]

theorem Holds.insertRecord_new (h : Holds p records) {rootId : PageId}
    (absent : records.findIdx? (fun r => r.1 = name) = none) (room : records.length < maxRecords)
    (valid : 0 ≤ rootId) (range : Mem.IsInt32 rootId) :
    ∃ q, insertRecord p name rootId = .ok (true, q) ∧ Holds q (records ++ [(name, rootId)]) := by
  have valid' : rootId > invalidPageId := lt_of_lt_of_le (by decide) valid
  have small : records.length ≤ 13 := Nat.le_of_lt_succ room
  refine ⟨_, insertRecord_absent name.2.1 h.count small (h.findRecord_eq.trans (by rw [absent]))
    valid', ?_, ?_, ?_, fun i r hr => ?_, fun i r hr => ?_⟩
  · rw [appended_count p small]
    simp
  · simpa using room
  · rw [List.map_append, List.map_singleton, List.nodup_append]
    refine ⟨h.nodup, List.nodup_singleton _, fun a ha b hb => ?_⟩
    obtain ⟨r, hr, rfl⟩ := List.mem_map.1 ha
    obtain rfl := List.mem_singleton.1 hb
    exact of_decide_eq_false (List.findIdx?_eq_none_iff.1 absent r hr)
  · rcases getElem?_snoc hr with hr | ⟨rfl, rfl⟩
    · have bound := h.index_lt hr
      have short := r.1.2.1
      exact (h.name i r hr).congr fun k lo hi => appended_get p (by omega) (by omega)
    · exact appended_name p name.2.1 small
  · rcases getElem?_snoc hr with hr | ⟨rfl, rfl⟩
    · have bound := h.index_lt hr
      rw [← h.root i r hr]
      exact Mem.getInt32_congr fun k lo hi => appended_get p (by omega) (by omega)
    · exact appended_root p small range

theorem Holds.updateRecord_stored (h : Holds p records) {i : ℕ} {old rootId : PageId}
    (found : records.findIdx? (fun r => r.1 = name) = some i)
    (hr : records[i]? = some (name, old)) (range : Mem.IsInt32 rootId) :
    ∃ q, updateRecord p name rootId = .ok (true, q) ∧ Holds q (records.set i (name, rootId)) := by
  have bound := h.index_lt hr
  refine ⟨_, updateRecord_found name.2.1 bound.2 (h.findRecord_eq.trans (by rw [found])) rootId,
    ?_, ?_, ?_, fun j r hj => ?_, fun j r hj => ?_⟩
  · rw [List.length_set, ← h.count]
    exact Mem.getInt32_setInt32_disjoint p (.inl (by omega))
  · rw [List.length_set]
    exact h.fits
  · have same : (records.set i (name, rootId)).map Prod.fst = records.map Prod.fst := by
      apply List.ext_getElem?
      intro j
      rw [List.map_set, List.getElem?_set, List.length_map]
      split_ifs with same inside
      · rw [← same, List.getElem?_map, hr]
        rfl
      · exact absurd bound.1 inside
      · rfl
    rw [same]
    exact h.nodup
  · rw [List.getElem?_set] at hj
    have stored : ∃ id, records[j]? = some (r.1, id) := by
      split_ifs at hj with same
      · subst same
        cases hj
        exact ⟨old, hr⟩
      · exact ⟨r.2, hj⟩
    obtain ⟨id, hid⟩ := stored
    have short := r.1.2.1
    refine (h.name j _ hid).congr fun k lo hi => Mem.get_write_outside _ ?_
    rw [Mem.length_encodeInt32]
    simp only at hi
    omega
  · rw [List.getElem?_set] at hj
    split_ifs at hj with same
    · subst same
      cases hj
      exact Mem.getInt32_setInt32_self p (show _ ≤ 512 by omega) range
    · rw [← h.root j r hj]
      exact Mem.getInt32_setInt32_disjoint p (by omega)

theorem Holds.updateRecord_absent (h : Holds p records)
    (absent : records.findIdx? (fun r => r.1 = name) = none) (rootId : PageId) :
    updateRecord p name rootId = .ok (false, p) := by
  simp only [updateRecord, assert_pos name.2.1, h.findRecord_eq, absent, bind, Except.bind, pure,
    Except.pure]

/-- Words of the same four bytes are equal. -/
theorem getInt32_moved (off off' : ℕ) (h : ∀ k < 4, q.get (off' + k) = p.get (off + k)) :
    q.getInt32 off' = p.getInt32 off := by
  unfold Mem.getInt32
  rw [h 1 (by decide), h 2 (by decide), h 3 (by decide),
    show q.get off' = p.get off from h 0 (by decide)]

/-- The page with the records behind record `i` of `n` moved over it. -/
def closed (p : PageData) (n i : ℕ) : PageData :=
  setRecordCount (p.write (4 + i * 36) (p.slice (4 + (i + 1) * 36) ((n - i - 1) * 36)))
    ((n : ℤ) - 1)

theorem closed_count {n : ℕ} (p : PageData) (i : ℕ) (pos : 0 < n) (small : n ≤ 14) :
    getRecordCount (closed p n i) = (n : ℤ) - 1 :=
  Mem.getInt32_setInt32_self _ (by decide) ⟨by omega, by omega⟩

theorem closed_get {n i k : ℕ} (p : PageData) (lo : 4 ≤ k) (hi : k < 4 + (n - 1) * 36)
    (small : n ≤ 14) :
    (closed p n i).get k = p.get (if k < 4 + i * 36 then k else k + 36) := by
  unfold closed setRecordCount
  rw [Mem.setInt32, Mem.get_write_outside _ (by rw [Mem.length_encodeInt32]; omega)]
  split_ifs with before
  · rw [Mem.get_write_outside _ (by rw [Mem.length_slice]; omega)]
  · rw [Mem.get_write_inside _ (by omega) (by rw [Mem.length_slice]; omega)
      (by show _ < 512; omega), Mem.getD_slice _ (by omega)]
    congr 1
    omega

theorem deleteRecord_found {n i : ℕ} {bytes : List UInt8} (count : getRecordCount p = n)
    (small : n ≤ 14) (lt : i < n) (found : findRecord p bytes = .ok (some i)) :
    deleteRecord p bytes = .ok (true, closed p n i) := by
  have out : copyOut p ((i : ℤ) * 36 + 4 + 36) (((n : ℤ) - i - 1) * 36) =
      .ok (p.slice (4 + (i + 1) * 36) ((n - i - 1) * 36)) := by
    unfold copyOut
    rw [if_pos (by show _ ∧ _ ∧ _ ≤ (512 : ℤ); omega),
      show ((i : ℤ) * 36 + 4 + 36).toNat = 4 + (i + 1) * 36 by omega,
      show (((n : ℤ) - i - 1) * 36).toNat = (n - i - 1) * 36 by omega]
  have into : copyIn p ((i : ℤ) * 36 + 4) (p.slice (4 + (i + 1) * 36) ((n - i - 1) * 36)) =
      .ok (p.write (4 + i * 36) (p.slice (4 + (i + 1) * 36) ((n - i - 1) * 36))) := by
    unfold copyIn
    rw [if_pos (by rw [Mem.length_slice]; show _ ∧ _ ≤ (512 : ℤ); omega),
      show ((i : ℤ) * 36 + 4).toNat = 4 + i * 36 by omega]
  have pos : (n : ℤ) > 0 := by omega
  simp only [deleteRecord, count, assert_pos pos, found, memmove, out, into, bind, Except.bind, pure,
    Except.pure, closed]

theorem Holds.deleteRecord_absent (h : Holds p records)
    (absent : records.findIdx? (fun r => r.1 = name) = none) (pos : 0 < records.length) :
    deleteRecord p name = .ok (false, p) := by
  have pos' : (records.length : ℤ) > 0 := by omega
  simp only [deleteRecord, h.count, assert_pos pos', h.findRecord_eq, absent, bind, Except.bind,
    pure, Except.pure]

theorem Holds.deleteRecord_stored (h : Holds p records) {i : ℕ} {rootId : PageId}
    (found : records.findIdx? (fun r => r.1 = name) = some i)
    (hr : records[i]? = some (name, rootId)) :
    ∃ q, deleteRecord p name = .ok (true, q) ∧ Holds q (records.eraseIdx i) := by
  have bound := h.index_lt hr
  have small : records.length ≤ 14 := h.fits
  have len : (records.eraseIdx i).length = records.length - 1 := List.length_eraseIdx_of_lt bound.1
  refine ⟨_, deleteRecord_found h.count small bound.1 (h.findRecord_eq.trans (by rw [found])),
    ?_, ?_, ?_, fun j r hj => ?_, fun j r hj => ?_⟩
  · rw [closed_count p i (by omega) small, len]
    omega
  · rw [len]
    show _ ≤ 14
    omega
  · rw [← List.eraseIdx_map]
    exact h.nodup.sublist (List.eraseIdx_sublist _ _)
  · have lt := (List.getElem?_eq_some_iff.1 hj).1
    have short := r.1.2.1
    rw [List.getElem?_eraseIdx] at hj
    intro k hk
    rw [closed_get p (by omega) (by omega) small]
    split_ifs at hj with before
    · rw [if_pos (by omega)]
      exact h.name j r hj k hk
    · rw [if_neg (by omega), ← h.name (j + 1) r hj k hk]
      congr 1
      omega
  · have lt := (List.getElem?_eq_some_iff.1 hj).1
    rw [List.getElem?_eraseIdx] at hj
    split_ifs at hj with before
    · rw [← h.root j r hj]
      refine Mem.getInt32_congr fun k lo hi => ?_
      rw [closed_get p (by omega) (by omega) small, if_pos (by omega)]
    · rw [← h.root (j + 1) r hj]
      refine getInt32_moved ((j + 1 + 1) * 36) ((j + 1) * 36) fun k hk => ?_
      rw [closed_get p (by omega) (by omega) small, if_neg (by omega),
        show (j + 1) * 36 + k + 36 = (j + 1 + 1) * 36 + k by omega]

/-! ## The finite map -/

/-- A finite map from names to root ids. -/
abbrev RootMap := Finmap fun _ : Name => PageId

/-- A call on the header page. -/
inductive Call
  | insertRecord (name : Name) (rootId : PageId)
  | updateRecord (name : Name) (rootId : PageId)
  | deleteRecord (name : Name)
  | getRootId (name : Name)

/-- What a call returns: a success flag, or the root id of `GetRootId`. -/
inductive Reply
  | flag (b : Bool)
  | rootId (id : Option PageId)
deriving DecidableEq

/-- A call on the page. -/
def Call.run (p : PageData) : Call → Except Fault (Reply × PageData)
  | .insertRecord name rootId => do
    let (b, p) ← HeaderPage.insertRecord p name rootId
    return (.flag b, p)
  | .updateRecord name rootId => do
    let (b, p) ← HeaderPage.updateRecord p name rootId
    return (.flag b, p)
  | .deleteRecord name => do
    let (b, p) ← HeaderPage.deleteRecord p name
    return (.flag b, p)
  | .getRootId name => do
    let r ← HeaderPage.getRootId p name
    return (.rootId r, p)

/-- Calls one after the other, with what each returned. -/
def run (p : PageData) : List Call → Except Fault (List Reply × PageData)
  | [] => .ok ([], p)
  | c :: calls => do
    let (r, p) ← c.run p
    let (rs, p) ← run p calls
    return (r :: rs, p)

/-- What the call means for the map. -/
def Call.onMap (m : RootMap) : Call → Reply × RootMap
  | .insertRecord name rootId =>
    if name ∈ m then (.flag false, m) else (.flag true, m.insert name rootId)
  | .updateRecord name rootId =>
    if name ∈ m then (.flag true, m.insert name rootId) else (.flag false, m)
  | .deleteRecord name => if name ∈ m then (.flag true, m.erase name) else (.flag false, m)
  | .getRootId name => (.rootId (m.lookup name), m)

def runOnMap (m : RootMap) : List Call → List Reply × RootMap
  | [] => ([], m)
  | c :: calls =>
    let (r, m) := c.onMap m
    let (rs, m) := runOnMap m calls
    (r :: rs, m)

/-- A call that may be made when the map holds `m`: root ids are 32-bit numbers, an inserted one
is not negative, and a record is deleted from a page that has one. -/
def Call.Legal (m : RootMap) : Call → Prop
  | .insertRecord _ rootId => 0 ≤ rootId ∧ Mem.IsInt32 rootId
  | .updateRecord _ rootId => Mem.IsInt32 rootId
  | .deleteRecord _ => 0 < m.keys.card
  | .getRootId _ => True

/-- Legal calls between which at most `maxRecords` records exist. -/
def LegalRun (m : RootMap) : List Call → Prop
  | [] => True
  | c :: calls => c.Legal m ∧ (c.onMap m).2.keys.card ≤ maxRecords ∧ LegalRun (c.onMap m).2 calls

/-- The map binds exactly the records. -/
def Agrees (records : List (Name × PageId)) (m : RootMap) : Prop :=
  ∀ name id, m.lookup name = some id ↔ (name, id) ∈ records

/-- The page represents the map. -/
def Represents (p : PageData) (m : RootMap) : Prop := ∃ records, Holds p records ∧ Agrees records m

variable {m : RootMap} {rootId : PageId}

theorem Agrees.mem_iff (h : Agrees records m) : name ∈ m ↔ name ∈ records.map Prod.fst := by
  rw [Finmap.mem_iff, List.mem_map]
  constructor
  · rintro ⟨id, hid⟩
    exact ⟨_, (h name id).1 hid, rfl⟩
  · rintro ⟨⟨name, id⟩, hr, rfl⟩
    exact ⟨id, (h name id).2 hr⟩

theorem Agrees.card_keys (h : Agrees records m) (nodup : (records.map Prod.fst).Nodup) :
    m.keys.card = records.length := by
  have keys : m.keys = (records.map Prod.fst).toFinset := by
    ext name
    rw [Finmap.mem_keys, h.mem_iff, List.mem_toFinset]
  rw [keys, List.toFinset_card_of_nodup nodup, List.length_map]

/-- A name is unbound and not found, or bound in the record where it is found. -/
theorem Agrees.cases (h : Agrees records m) (name : Name) :
    (name ∉ m ∧ records.findIdx? (fun r => r.1 = name) = none) ∨
      ∃ i id, name ∈ m ∧ m.lookup name = some id ∧
        records.findIdx? (fun r => r.1 = name) = some i ∧ records[i]? = some (name, id) := by
  cases found : records.findIdx? (fun r => r.1 = name) with
  | none =>
    refine .inl ⟨fun hm => ?_, rfl⟩
    obtain ⟨r, hr, hname⟩ := List.mem_map.1 (h.mem_iff.1 hm)
    exact of_decide_eq_false (List.findIdx?_eq_none_iff.1 found r hr) hname
  | some i =>
    obtain ⟨lt, same, -⟩ := List.findIdx?_eq_some_iff_getElem.1 found
    have name_eq : records[i].1 = name := of_decide_eq_true same
    have hr : records[i]? = some (name, records[i].2) := by
      rw [List.getElem?_eq_getElem lt, ← name_eq]
    have bound := (h name records[i].2).2 (List.mem_of_getElem? hr)
    exact .inr ⟨i, _, Finmap.mem_iff.2 ⟨_, bound⟩, bound, rfl, hr⟩

theorem Agrees.insert (h : Agrees records m) (absent : name ∉ m) :
    Agrees (records ++ [(name, rootId)]) (m.insert name rootId) := by
  intro other id
  rw [List.mem_append, List.mem_singleton, ← h other id]
  by_cases same : other = name
  · subst same
    rw [Finmap.lookup_insert, Finmap.lookup_eq_none.2 absent]
    simp [eq_comm]
  · rw [Finmap.lookup_insert_of_ne _ same]
    simp [same]

/-- A name is in one record only. -/
theorem index_unique (nodup : (records.map Prod.fst).Nodup) {i j : ℕ} {r r' : Name × PageId}
    (hi : records[i]? = some r) (hj : records[j]? = some r') (same : r.1 = r'.1) : i = j := by
  have lt : i < (records.map Prod.fst).length := by
    rw [List.length_map]
    exact (List.getElem?_eq_some_iff.1 hi).1
  refine (List.getElem?_inj lt nodup).1 ?_
  rw [List.getElem?_map, List.getElem?_map, hi, hj, Option.map_some, Option.map_some, same]

theorem Agrees.update (h : Agrees records m) (nodup : (records.map Prod.fst).Nodup) {i : ℕ}
    {old : PageId} (hr : records[i]? = some (name, old)) :
    Agrees (records.set i (name, rootId)) (m.insert name rootId) := by
  have lt := (List.getElem?_eq_some_iff.1 hr).1
  intro other id
  rw [List.mem_iff_getElem?]
  by_cases same : other = name
  · subst same
    rw [Finmap.lookup_insert, Option.some.injEq]
    constructor
    · rintro rfl
      exact ⟨i, by rw [List.getElem?_set_self lt]⟩
    · rintro ⟨j, hj⟩
      rw [List.getElem?_set] at hj
      split_ifs at hj with hij
      · exact congrArg Prod.snd (Option.some.inj hj)
      · exact absurd (index_unique nodup hr hj rfl) hij
  · rw [Finmap.lookup_insert_of_ne _ same, h other id, List.mem_iff_getElem?]
    refine exists_congr fun j => ?_
    rw [List.getElem?_set]
    split_ifs with hij
    · subst hij
      rw [hr]
      simp [Ne.symm same]
    · rfl

theorem Agrees.erase (h : Agrees records m) (nodup : (records.map Prod.fst).Nodup) {i : ℕ}
    {old : PageId} (hr : records[i]? = some (name, old)) :
    Agrees (records.eraseIdx i) (m.erase name) := by
  intro other id
  rw [List.mem_eraseIdx_iff_getElem?]
  by_cases same : other = name
  · subst same
    rw [Finmap.lookup_erase]
    refine iff_of_false nofun ?_
    rintro ⟨j, hij, hj⟩
    exact hij (index_unique nodup hj hr rfl)
  · rw [Finmap.lookup_erase_ne same, h other id, List.mem_iff_getElem?]
    refine exists_congr fun j => ⟨fun hj => ⟨?_, hj⟩, And.right⟩
    rintro rfl
    rw [hr] at hj
    exact same (congrArg Prod.fst (Option.some.inj hj)).symm

/-- Every legal call returns what the map returns, and keeps the page a representation. -/
theorem Represents.call (h : Represents p m) (c : Call) (legal : c.Legal m)
    (room : (c.onMap m).2.keys.card ≤ maxRecords) :
    ∃ q, c.run p = .ok ((c.onMap m).1, q) ∧ Represents q (c.onMap m).2 := by
  obtain ⟨records, holds, agrees⟩ := h
  cases c with
  | insertRecord name rootId =>
    obtain ⟨valid, range⟩ := legal
    rcases agrees.cases name with ⟨unbound, absent⟩ | ⟨i, id, bound, -, found, hr⟩
    · simp only [Call.onMap, if_neg unbound] at room ⊢
      have agrees' : Agrees (records ++ [(name, rootId)]) (m.insert name rootId) :=
        agrees.insert unbound
      have nodup : ((records ++ [(name, rootId)]).map Prod.fst).Nodup := by
        rw [List.map_append, List.map_singleton]
        exact List.Nodup.append holds.nodup (List.nodup_singleton _)
          (List.disjoint_singleton.2 (fun hm => unbound (agrees.mem_iff.2 hm)))
      rw [agrees'.card_keys nodup, List.length_append, List.length_singleton] at room
      obtain ⟨q, hq, holds'⟩ := holds.insertRecord_new absent room valid range
      exact ⟨q, by simp only [Call.run, hq, bind, Except.bind, pure, Except.pure], _, holds',
        agrees'⟩
    · simp only [Call.onMap, if_pos bound]
      have hq := holds.insertRecord_stored found valid
      exact ⟨p, by simp only [Call.run, hq, bind, Except.bind, pure, Except.pure], _, holds, agrees⟩
  | updateRecord name rootId =>
    rcases agrees.cases name with ⟨unbound, absent⟩ | ⟨i, id, bound, -, found, hr⟩
    · simp only [Call.onMap, if_neg unbound]
      have hq := holds.updateRecord_absent absent rootId
      exact ⟨p, by simp only [Call.run, hq, bind, Except.bind, pure, Except.pure], _, holds, agrees⟩
    · simp only [Call.onMap, if_pos bound]
      obtain ⟨q, hq, holds'⟩ := holds.updateRecord_stored found hr legal
      exact ⟨q, by simp only [Call.run, hq, bind, Except.bind, pure, Except.pure], _, holds',
        agrees.update holds.nodup hr⟩
  | deleteRecord name =>
    have pos : 0 < records.length := by
      rw [← agrees.card_keys holds.nodup]
      exact legal
    rcases agrees.cases name with ⟨unbound, absent⟩ | ⟨i, id, bound, -, found, hr⟩
    · simp only [Call.onMap, if_neg unbound]
      have hq := holds.deleteRecord_absent absent pos
      exact ⟨p, by simp only [Call.run, hq, bind, Except.bind, pure, Except.pure], _, holds, agrees⟩
    · simp only [Call.onMap, if_pos bound]
      obtain ⟨q, hq, holds'⟩ := holds.deleteRecord_stored found hr
      exact ⟨q, by simp only [Call.run, hq, bind, Except.bind, pure, Except.pure], _, holds',
        agrees.erase holds.nodup hr⟩
  | getRootId name =>
    refine ⟨p, ?_, records, holds, agrees⟩
    rcases agrees.cases name with ⟨unbound, absent⟩ | ⟨i, id, -, lookup, found, hr⟩
    · simp only [Call.run, Call.onMap, holds.getRootId_absent absent,
        Finmap.lookup_eq_none.2 unbound, bind, Except.bind, pure, Except.pure]
    · simp only [Call.run, Call.onMap, holds.getRootId_eq found hr, lookup, bind, Except.bind, pure,
        Except.pure]

theorem Represents.run (calls : List Call) : ∀ {p : PageData} {m : RootMap}, Represents p m →
    LegalRun m calls →
      ∃ q, HeaderPage.run p calls = .ok ((runOnMap m calls).1, q) ∧
        Represents q (runOnMap m calls).2 := by
  induction calls with
  | nil => exact fun h _ => ⟨_, rfl, h⟩
  | cons c calls ih =>
    intro p m h legal
    obtain ⟨q, hq, h'⟩ := h.call c legal.1 legal.2.1
    obtain ⟨q', hq', h''⟩ := ih h' legal.2.2
    refine ⟨q', ?_, h''⟩
    simp only [HeaderPage.run, hq, hq', runOnMap, bind, Except.bind, pure, Except.pure]

theorem represents_zero : Represents Mem.zero ∅ := by
  refine ⟨[], ⟨by simp [getRecordCount], by decide, List.nodup_nil, ?_, ?_⟩, ?_⟩
  · intro i r hr
    cases hr
  · intro i r hr
    cases hr
  · intro name id
    simp

/-- On a zeroed page every legal sequence of calls returns what the finite map returns. -/
theorem run_refines_map (calls : List Call) (legal : LegalRun ∅ calls) :
    ∃ q, run Mem.zero calls = .ok ((runOnMap ∅ calls).1, q) := by
  obtain ⟨q, hq, -⟩ := represents_zero.run calls legal
  exact ⟨q, hq⟩

/-- A longer name leaves bytes behind its successor in the page. -/
theorem run_refines_map_reused : ∃ q, run Mem.zero
    [.insertRecord ⟨[97, 98, 99], by decide⟩ 3, .deleteRecord ⟨[97, 98, 99], by decide⟩,
      .insertRecord ⟨[97], by decide⟩ 4, .getRootId ⟨[97], by decide⟩] =
      .ok ([.flag true, .flag true, .flag true, .rootId (some 4)], q) := by
  obtain ⟨q, hq⟩ := run_refines_map [.insertRecord ⟨[97, 98, 99], by decide⟩ 3,
    .deleteRecord ⟨[97, 98, 99], by decide⟩, .insertRecord ⟨[97], by decide⟩ 4,
    .getRootId ⟨[97], by decide⟩]
    ⟨⟨by decide, by decide, by decide⟩, by decide, Nat.zero_lt_one, by decide,
      ⟨by decide, by decide, by decide⟩, by decide, trivial, by decide, trivial⟩
  exact ⟨q, hq⟩

end HeaderPage

end ScuDb
