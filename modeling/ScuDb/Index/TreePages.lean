import ScuDb.Index.TreeShape

/-!
# Page operations on entries

What the operations of leaf and internal pages do to the lists of their entries, and that they
stay inside the page.
-/

namespace ScuDb

open SlotArray

variable {K V : Type} {n : KeySize} {parent : PageId}

theorem liftExcept_ok {α β : Type} {x : Except Fault α} {a : α} (h : x = .ok a)
    (f : α → Except Fault β) : (x >>= f) = f a := by
  rw [h]
  rfl

/-! ## Leaves -/

namespace LeafNode

variable (comparator : K → K → ℤ) (key : K) (value : V) (t : LeafNode K V)

/-- `KeyIndex` on the entries of a leaf. -/
def index : ℕ :=
  BinarySearch.search (fun i => (t.entries[i]?).any fun x => comparator x.1 key < 0)
    t.entries.length 0 t.entries.length

/-- `Lookup` on the entries of a leaf. -/
def find : Option V :=
  match t.entries[t.index comparator key]? with
  | some x => if comparator x.1 key = 0 then some x.2 else none
  | none => none

/-- `Insert` on the entries of a leaf. -/
def inserted : LeafNode K V :=
  { t with entries := t.entries.take (t.index comparator key) ++
      (key, value) :: t.entries.drop (t.index comparator key) }

/-- `RemoveAndDeleteRecord` on the entries of a leaf. -/
def erased : LeafNode K V :=
  if (t.entries[t.index comparator key]?).any fun x => comparator key x.1 = 0 then
    { t with entries := t.entries.eraseIdx (t.index comparator key) }
  else t

theorem index_le : t.index comparator key ≤ t.entries.length :=
  (BinarySearch.search_le _ _ (Nat.zero_le _)).2

theorem id_erased : (t.erased comparator key).id = t.id := by
  unfold erased
  split_ifs <;> rfl

theorem next_erased : (t.erased comparator key).next = t.next := by
  unfold erased
  split_ifs <;> rfl

theorem length_inserted : (t.inserted comparator key value).entries.length = t.entries.length + 1 := by
  have := t.index_le comparator key
  simp [inserted]
  omega

end LeafNode

/-! ## Leaf pages -/

namespace LeafPage

variable {p r : LeafPage K V} {t u : LeafNode K V} {comparator : K → K → ℤ} {key : K} {value : V}

theorem Holds.size (h : p.Holds n parent t) : p.size = t.entries.length := h.fields.size

theorem Holds.array (h : p.Holds n parent t) {i : ℕ} (hi : i < t.entries.length) :
    p.array i = t.entries[i] := by
  simp only [← h.items, getElem_entries]

/-- `KeyIndex` looks at the entries of the page only. -/
theorem keyIndex_eq (items : entries p.array p.size = t.entries) :
    p.keyIndex comparator key = t.index comparator key := by
  unfold LeafPage.keyIndex LeafNode.index
  rw [← items, length_entries]
  refine BinarySearch.search_congr _ fun i _ hi => ?_
  rw [List.getElem?_eq_getElem (by simpa using hi), getElem_entries]
  rfl

theorem Holds.keyIndex (h : p.Holds n parent t) :
    p.keyIndex comparator key = t.index comparator key := keyIndex_eq h.items

theorem Holds.lookup (h : p.Holds n parent t) : p.lookup comparator key = t.find comparator key := by
  unfold LeafPage.lookup LeafNode.find
  rw [h.keyIndex, h.size]
  dsimp only
  by_cases hi : t.index comparator key < t.entries.length
  · rw [h.array hi, List.getElem?_eq_getElem hi]
    simp [hi]
  · rw [List.getElem?_eq_none (not_lt.1 hi), if_neg (by simp [hi])]

theorem Holds.insert (h : p.Holds n parent t) (comparator : K → K → ℤ) (key : K) (value : V)
    (fits : t.entries.length ≤ n.leafMax) :
    ∃ p', p.insert n comparator key value = .ok p' ∧
      p'.Holds n parent (t.inserted comparator key value) := by
  have room : p.size < n.leafSlots := by
    rw [h.size, ← n.leafMax_add_one]
    omega
  have le := t.index_le comparator key
  refine ⟨_, if_pos room, ⟨h.fields.pageId, h.fields.parentPageId, ?_, h.fields.maxSize⟩,
    h.nextPageId, ?_⟩
  · rw [LeafNode.length_inserted]
    exact congrArg (· + 1) h.size
  · have := entries_insertAt p.array p.size (i := t.index comparator key) (h.size ▸ le) (key, value)
    rw [h.items] at this
    rw [h.keyIndex]
    exact this

theorem entries_removeAndDeleteRecord (items : entries p.array p.size = t.entries) :
    entries (p.removeAndDeleteRecord comparator key).array
        (p.removeAndDeleteRecord comparator key).size = (t.erased comparator key).entries := by
  have size : p.size = t.entries.length := by rw [← items, length_entries]
  unfold removeAndDeleteRecord LeafNode.erased
  rw [keyIndex_eq items]
  dsimp only
  by_cases hi : t.index comparator key < t.entries.length
  · have entry : p.array (t.index comparator key) = t.entries[t.index comparator key] := by
      simp only [← items, getElem_entries]
    rw [entry, List.getElem?_eq_getElem hi]
    by_cases hk : comparator key t.entries[t.index comparator key].1 = 0
    · obtain ⟨m, hm⟩ : ∃ m, p.size = m + 1 := ⟨p.size - 1, by omega⟩
      rw [if_neg (by simp [hk, size, hi]), Option.any_some, if_pos (by simpa using hk)]
      rw [hm] at items
      simp only [hm, Nat.add_sub_cancel]
      rw [entries_removeAt _ _ (by omega), items]
    · rw [if_pos (.inr hk), Option.any_some, if_neg (by simpa using hk)]
      exact items
  · rw [if_pos (.inl (by omega)), List.getElem?_eq_none (not_lt.1 hi)]
    exact items

theorem Holds.remove (h : p.Holds n parent t) :
    (p.removeAndDeleteRecord comparator key).Holds n parent (t.erased comparator key) := by
  have items := @entries_removeAndDeleteRecord K V p t comparator key h.items
  have size := congrArg List.length items
  rw [length_entries] at size
  have kept : (p.removeAndDeleteRecord comparator key).pageId = p.pageId ∧
      (p.removeAndDeleteRecord comparator key).parentPageId = p.parentPageId ∧
      (p.removeAndDeleteRecord comparator key).maxSize = p.maxSize ∧
      (p.removeAndDeleteRecord comparator key).nextPageId = p.nextPageId := by
    unfold removeAndDeleteRecord
    dsimp only
    split <;> exact ⟨rfl, rfl, rfl, rfl⟩
  obtain ⟨pageId, parentPageId, maxSize, nextPageId⟩ := kept
  refine ⟨⟨?_, parentPageId.trans h.fields.parentPageId, size, maxSize.trans h.fields.maxSize⟩,
    ?_, items⟩
  · rw [t.id_erased]
    exact pageId.trans h.fields.pageId
  · rw [t.next_erased]
    exact nextPageId.trans h.nextPageId

theorem Holds.moveHalfTo (h : p.Holds n parent t) (full : t.entries.length = n.leafMax + 1)
    [Inhabited K] [Inhabited V] (new : PageId) :
    ∃ p' r', p.moveHalfTo n (init n new p.parentPageId) = .ok (p', r') ∧
      p'.Holds n parent ⟨t.id, new, t.entries.take ((n.leafMax + 1) / 2)⟩ ∧
      r'.Holds n parent ⟨new, t.next, t.entries.drop ((n.leafMax + 1) / 2)⟩ := by
  have max : p.maxSize = n.leafMax := h.fields.maxSize
  have size : p.size = n.leafMax + 1 := h.size.trans full
  have items : entries p.array (n.leafMax + 1) = t.entries := by rw [← h.items, size]
  refine ⟨_, _, if_pos (by rw [max, n.leafMax_add_one]), ⟨⟨h.fields.pageId,
    h.fields.parentPageId, ?_, max⟩, rfl, ?_⟩, ⟨⟨rfl, h.fields.parentPageId, ?_, rfl⟩,
    h.nextPageId, ?_⟩⟩
  · simp only [List.length_take, max, full]
    omega
  · simp only [max, ← items]
    exact entries_take _ _ (by omega)
  · simp only [List.length_drop, max, full]
  · have copied := entries_copyTo (init n new p.parentPageId : LeafPage K V).array 0 p.array
      ((n.leafMax + 1) / 2) (n.leafMax + 1 - (n.leafMax + 1) / 2)
    rw [Nat.zero_add, Nat.add_sub_cancel' (by omega), items] at copied
    simp only [max]
    rw [copied]
    rfl

theorem Holds.moveAllTo (h : p.Holds n parent t) (hr : r.Holds n parent u)
    (fits : u.entries.length + t.entries.length ≤ n.leafMax) :
    ∃ p' r', p.moveAllTo n r = .ok (p', r') ∧ p'.pageId = t.id ∧
      r'.Holds n parent ⟨u.id, t.next, u.entries ++ t.entries⟩ := by
  have room : r.size + p.size ≤ n.leafSlots := by
    rw [h.size, hr.size, ← n.leafMax_add_one]
    omega
  refine ⟨_, _, if_pos room, h.fields.pageId, ⟨hr.fields.pageId, hr.fields.parentPageId, ?_,
    hr.fields.maxSize⟩, h.nextPageId, ?_⟩
  · simp [h.size, hr.size]
  · have copied := entries_copyTo r.array r.size p.array 0 p.size
    rw [Nat.zero_add, List.drop_zero, h.items, hr.items] at copied
    exact copied

/-- The first entry of the right page goes to the end of the left one. -/
theorem Holds.moveFirstToEndOf (h : p.Holds n parent t) (hr : r.Holds n parent u)
    {x : K × V} {rest : List (K × V)} (ht : t.entries = x :: rest)
    (fits : u.entries.length < n.leafMax) :
    ∃ p' r', p.moveFirstToEndOf n r = .ok (p', r') ∧ p'.Holds n parent { t with entries := rest } ∧
      r'.Holds n parent { u with entries := u.entries ++ [x] } := by
  have size : p.size = rest.length + 1 := by rw [h.size, ht, List.length_cons]
  have room : r.size < n.leafSlots := by
    rw [hr.size, ← n.leafMax_add_one]
    omega
  have first : p.array 0 = x := by
    rw [h.array (by simp [ht])]
    simp [ht]
  have copy : r.copyLastFrom n (p.array 0) = .ok { r with
      size := r.size + 1, array := Function.update r.array r.size x } := by
    unfold copyLastFrom
    rw [liftExcept_ok (assert_pos (by rw [hr.size, hr.fields.maxSize]; exact fits)), if_pos room,
      first]
    rfl
  refine ⟨{ p with size := p.size - 1, array := removeAt p.array p.size 0 },
    { r with size := r.size + 1, array := Function.update r.array r.size x }, ?_,
    ⟨⟨h.fields.pageId, h.fields.parentPageId, ?_, h.fields.maxSize⟩, h.nextPageId, ?_⟩,
    ⟨⟨hr.fields.pageId, hr.fields.parentPageId, ?_, hr.fields.maxSize⟩, hr.nextPageId, ?_⟩⟩
  · unfold LeafPage.moveFirstToEndOf
    rw [if_neg (by omega)]
    change (r.copyLastFrom n (p.array 0) >>= _) = _
    rw [liftExcept_ok copy]
    rfl
  · simp [size]
  · have items := h.items
    rw [size, ht] at items
    simp only [size, Nat.add_sub_cancel]
    rw [entries_removeAt _ _ (by omega), items]
    rfl
  · simp [hr.size]
  · rw [← hr.items]
    exact entries_push _ _ x

/-- The last entry of the left page goes to the front of the right one. -/
theorem Holds.moveLastToFrontOf (h : p.Holds n parent t) (hr : r.Holds n parent u)
    {x : K × V} {rest : List (K × V)} (ht : t.entries = rest ++ [x])
    (fits : u.entries.length < n.leafMax) :
    ∃ p' r', p.moveLastToFrontOf n r = .ok (p', r') ∧ p'.Holds n parent { t with entries := rest } ∧
      r'.Holds n parent { u with entries := x :: u.entries } := by
  have size : p.size = rest.length + 1 := by simp [h.size, ht]
  have room : r.size < n.leafSlots := by
    rw [hr.size, ← n.leafMax_add_one]
    omega
  have last : p.array (p.size - 1) = x := by
    rw [h.array (by simp [ht, size])]
    simp [ht, size]
  refine ⟨{ p with size := p.size - 1 },
    { r with size := r.size + 1, array := insertAt r.array r.size 0 x }, ?_,
    ⟨⟨h.fields.pageId, h.fields.parentPageId, ?_, h.fields.maxSize⟩, h.nextPageId, ?_⟩,
    ⟨⟨hr.fields.pageId, hr.fields.parentPageId, ?_, hr.fields.maxSize⟩, hr.nextPageId, ?_⟩⟩
  · unfold LeafPage.moveLastToFrontOf
    rw [if_neg (by omega)]
    change (r.copyFirstFrom n (p.array (p.size - 1)) >>= _) = _
    unfold copyFirstFrom
    rw [if_pos room, last]
    rfl
  · simp [size]
  · have taken := entries_take p.array p.size (m := rest.length) (by omega)
    rw [h.items, ht, List.take_left' rfl] at taken
    simp only [size, Nat.add_sub_cancel]
    exact taken
  · simp [hr.size]
  · rw [entries_insertAt _ _ (Nat.zero_le _), hr.items]
    rfl

end LeafPage

/-! ## Internal pages -/

/-- The slot that `Lookup` picks among the keys of an internal page. -/
def childIndex (comparator : K → K → ℤ) (key : K) (keys : List K) : ℕ :=
  BinarySearch.search (fun i => (keys[i]?).any fun k => comparator k key ≤ 0) keys.length 1
    keys.length - 1

theorem childIndex_lt (comparator : K → K → ℤ) (key : K) {keys : List K} (h : keys ≠ []) :
    childIndex comparator key keys < keys.length := by
  have pos : 1 ≤ keys.length := List.length_pos_of_ne_nil h
  have := BinarySearch.search_le (fun i => (keys[i]?).any fun k => comparator k key ≤ 0)
    keys.length pos
  unfold childIndex
  omega

namespace InternalPage

variable {p r : InternalPage K} {id id' : PageId} {slots slots' l l' : List (K × PageId)}
  {comparator : K → K → ℤ} {key : K} {q q' : PageId}

theorem Holds.size (h : p.Holds n id parent slots) : p.size = slots.length := h.fields.size

theorem Holds.array (h : p.Holds n id parent slots) {i : ℕ} (hi : i < slots.length) :
    p.array i = slots[i] := by
  simp only [← h.items, getElem_entries]

theorem slot_ok {i : ℕ} (h : i < n.internalSlots) : slot n (i : ℤ) = .ok i := by
  unfold slot
  rw [if_pos (by omega), Int.toNat_natCast]

theorem Holds.valueIndex (h : p.Holds n id parent (l ++ (key, q) :: l'))
    (out : ∀ x ∈ l, x.2 ≠ q) : p.valueIndex q = l.length := by
  have size : p.size = l.length + (l'.length + 1) := by simp [h.size]
  have found : (List.range p.size).find? (fun i => (p.array i).2 = q) = some l.length := by
    rw [List.find?_range_eq_some]
    refine ⟨?_, List.mem_range.2 (by omega), fun j hj => ?_⟩
    · rw [h.array (by simp)]
      simp
    · rw [h.array (by simp; omega), List.getElem_append_left hj]
      simpa using out _ (List.getElem_mem hj)
  unfold InternalPage.valueIndex
  rw [found]

theorem Holds.keyAt (h : p.Holds n id parent (l ++ (key, q) :: l'))
    (fits : (l ++ (key, q) :: l').length ≤ n.internalMax + 1) : p.keyAt n l.length = .ok key := by
  unfold InternalPage.keyAt
  rw [liftExcept_ok (slot_ok (by rw [← n.internalMax_add_one]; simp at fits; omega)),
    h.array (by simp)]
  simp
  rfl

theorem Holds.valueAt (h : p.Holds n id parent (l ++ (key, q) :: l'))
    (fits : (l ++ (key, q) :: l').length ≤ n.internalMax + 1) : p.valueAt n l.length = .ok q := by
  unfold InternalPage.valueAt
  rw [liftExcept_ok (slot_ok (by rw [← n.internalMax_add_one]; simp at fits; omega)),
    h.array (by simp)]
  simp
  rfl

theorem Holds.setKeyAt (h : p.Holds n id parent (l ++ (key, q) :: l'))
    (fits : (l ++ (key, q) :: l').length ≤ n.internalMax + 1) (new : K) :
    ∃ p', p.setKeyAt n l.length new = .ok p' ∧ p'.Holds n id parent (l ++ (new, q) :: l') := by
  have value : (p.array l.length).2 = q := by
    rw [h.array (by simp)]
    simp
  refine ⟨{ p with array := Function.update p.array l.length (new, q) }, ?_,
    ⟨h.fields.pageId, h.fields.parentPageId, ?_, h.fields.maxSize⟩, ?_⟩
  · unfold InternalPage.setKeyAt
    rw [liftExcept_ok (slot_ok (by rw [← n.internalMax_add_one]; simp at fits; omega)), value]
    rfl
  · simp [h.size]
  · dsimp only
    rw [entries_update, h.items]
    simp

/-- `Lookup` on a page with at least two slots. -/
theorem Holds.lookup (h : p.Holds n id parent slots) (comparator : K → K → ℤ) (key : K)
    (two : 2 ≤ slots.length) :
    ∃ x, slots[childIndex comparator key (slots.map Prod.fst)]? = some x ∧
      p.lookup comparator key = .ok x.2 := by
  have size := h.size
  have keys : (slots.map Prod.fst) ≠ [] := by
    intro e
    have := congrArg List.length e
    simp at this
    simp [this] at two
  have lt := childIndex_lt comparator key keys
  rw [List.length_map] at lt
  refine ⟨slots[childIndex comparator key (slots.map Prod.fst)],
    List.getElem?_eq_getElem lt, ?_⟩
  have same : BinarySearch.search (fun i => comparator (p.array i).1 key ≤ 0) p.size 1 p.size =
      BinarySearch.search (fun i => ((slots.map Prod.fst)[i]?).any fun k => comparator k key ≤ 0)
        (slots.map Prod.fst).length 1 (slots.map Prod.fst).length := by
    rw [List.length_map, ← size]
    refine BinarySearch.search_congr _ fun i _ hi => ?_
    rw [h.array (by omega), List.getElem?_map, List.getElem?_eq_getElem (by omega)]
    rfl
  unfold InternalPage.lookup
  rw [liftExcept_ok (assert_pos (by omega))]
  dsimp only
  rw [same]
  change Except.ok (p.array (childIndex comparator key (slots.map Prod.fst))).2 = _
  rw [h.array lt]

theorem Holds.insertNodeAfter (h : p.Holds n id parent (l ++ (key, q) :: l'))
    (out : ∀ x ∈ l, x.2 ≠ q) (fits : (l ++ (key, q) :: l').length ≤ n.internalMax) (q' : PageId)
    (new : K) : ∃ p', p.insertNodeAfter n q new q' = .ok p' ∧
      p'.Holds n id parent (l ++ (key, q) :: (new, q') :: l') := by
  have size := h.size
  have index := h.valueIndex out
  simp only [List.length_append, List.length_cons] at fits size
  refine ⟨{ p with
    size := p.size + 1, array := insertAt p.array p.size (l.length + 1) (new, q') }, ?_,
    ⟨h.fields.pageId, h.fields.parentPageId, ?_, h.fields.maxSize⟩, ?_⟩
  · unfold InternalPage.insertNodeAfter
    rw [index, liftExcept_ok (assert_pos (by omega)),
      if_pos (by rw [← n.internalMax_add_one]; omega)]
    have : ((l.length : ℤ) + 1).toNat = l.length + 1 := by omega
    rw [this]
    rfl
  · simp only [size, List.length_append, List.length_cons]
    omega
  · dsimp only
    rw [entries_insertAt _ _ (by omega), h.items, List.take_append, List.drop_append,
      List.take_of_length_le (Nat.le_succ _), List.drop_eq_nil_of_le (Nat.le_succ _)]
    simp

/-- The children that `MoveHalfTo` moves. -/
theorem Holds.movedHalf (h : p.Holds n id parent slots) (full : slots.length = n.internalMax + 1) :
    p.movedHalf n = .ok ((slots.drop ((n.internalMax + 1) / 2)).map Prod.snd) := by
  have max : p.maxSize = n.internalMax := h.fields.maxSize
  have size : p.size = n.internalMax + 1 := h.size.trans full
  unfold InternalPage.movedHalf
  dsimp only
  rw [max, liftExcept_ok (assert_pos size), if_pos n.internalMax_add_one.le, ← size, h.items]
  rfl

theorem Holds.moveHalfTo [Inhabited K] (h : p.Holds n id parent slots)
    (full : slots.length = n.internalMax + 1) (new : PageId) :
    (p.moveHalfTo (init n new p.parentPageId)).1.Holds n id parent
        (slots.take ((n.internalMax + 1) / 2)) ∧
      (p.moveHalfTo (init n new p.parentPageId)).2.Holds n new parent
        (slots.drop ((n.internalMax + 1) / 2)) := by
  have max : p.maxSize = n.internalMax := h.fields.maxSize
  have size : p.size = n.internalMax + 1 := h.size.trans full
  have items : entries p.array (n.internalMax + 1) = slots := by rw [← h.items, size]
  unfold InternalPage.moveHalfTo
  refine ⟨⟨⟨h.fields.pageId, h.fields.parentPageId, ?_, max⟩, ?_⟩,
    ⟨⟨rfl, h.fields.parentPageId, ?_, rfl⟩, ?_⟩⟩
  · simp only [List.length_take, max, full]
    omega
  · simp only [max, ← items]
    exact entries_take _ _ (by omega)
  · simp only [List.length_drop, max, full]
  · have copied := entries_copyTo (init n new p.parentPageId : InternalPage K).array 0 p.array
      ((n.internalMax + 1) / 2) (n.internalMax + 1 - (n.internalMax + 1) / 2)
    rw [Nat.zero_add, Nat.add_sub_cancel' (by omega), items] at copied
    simp only [max]
    rw [copied]
    rfl

theorem Holds.remove (h : p.Holds n id parent (l ++ (key, q) :: l')) :
    ∃ p', p.remove l.length = .ok p' ∧ p'.Holds n id parent (l ++ l') := by
  have size : p.size = l.length + l'.length + 1 := by simp [h.size]; omega
  refine ⟨{ p with size := p.size - 1, array := removeAt p.array p.size l.length }, ?_,
    ⟨h.fields.pageId, h.fields.parentPageId, ?_, h.fields.maxSize⟩, ?_⟩
  · unfold InternalPage.remove
    rw [liftExcept_ok (assert_pos (by omega)), Int.toNat_natCast]
    rfl
  · simp [size]
  · have items := h.items
    rw [size] at items
    simp only [size, Nat.add_sub_cancel]
    rw [entries_removeAt _ _ (by omega), items, List.eraseIdx_append_of_length_le le_rfl]
    simp

theorem Holds.removeAndReturnOnlyChild (h : p.Holds n id parent [(key, q)]) :
    p.removeAndReturnOnlyChild = .ok (q, { p with size := 0 }) := by
  unfold InternalPage.removeAndReturnOnlyChild
  have one : p.size = 1 := h.size
  rw [liftExcept_ok (assert_pos one), h.array (by simp)]
  rfl

theorem Holds.moveAllTo (h : p.Holds n id parent slots) (hr : r.Holds n id' parent slots')
    (fits : slots'.length + slots.length ≤ n.internalMax) :
    ∃ p' r', p.moveAllTo n r = .ok (p', r') ∧ p'.pageId = id ∧
      r'.Holds n id' parent (slots' ++ slots) := by
  have room : r.size + p.size ≤ n.internalSlots := by
    rw [h.size, hr.size, ← n.internalMax_add_one]
    omega
  refine ⟨{ p with size := 0 }, { r with
    size := r.size + p.size, array := copyTo r.array r.size p.array 0 p.size }, ?_,
    h.fields.pageId, ⟨hr.fields.pageId, hr.fields.parentPageId, ?_, hr.fields.maxSize⟩, ?_⟩
  · unfold InternalPage.moveAllTo
    dsimp only
    rw [if_pos room, liftExcept_ok (assert_pos (by rw [h.size, hr.size, h.fields.maxSize]; exact fits))]
    rfl
  · simp [h.size, hr.size]
  · have copied := entries_copyTo r.array r.size p.array 0 p.size
    rw [Nat.zero_add, List.drop_zero, h.items, hr.items] at copied
    exact copied

/-- The first slot of the right page goes to the end of the left one. -/
theorem Holds.moveFirstToEndOf (h : p.Holds n id parent ((key, q) :: slots))
    (hr : r.Holds n id' parent slots') (fits : slots'.length < n.internalMax) :
    ∃ p' r', p.moveFirstToEndOf n r = .ok (p', r') ∧ p'.Holds n id parent slots ∧
      r'.Holds n id' parent (slots' ++ [(key, q)]) := by
  have size : p.size = slots.length + 1 := h.size
  have room : r.size < n.internalSlots := by
    rw [hr.size, ← n.internalMax_add_one]
    omega
  have first : p.array 0 = (key, q) := h.array (by simp)
  have copy : r.copyLastFrom n (p.array 0) = .ok { r with
      size := r.size + 1, array := Function.update r.array r.size (key, q) } := by
    unfold copyLastFrom
    rw [liftExcept_ok (assert_pos (by rw [hr.size, hr.fields.maxSize]; exact fits)), if_pos room,
      first]
    rfl
  refine ⟨{ p with size := p.size - 1, array := removeAt p.array p.size 0 },
    { r with size := r.size + 1, array := Function.update r.array r.size (key, q) }, ?_,
    ⟨⟨h.fields.pageId, h.fields.parentPageId, ?_, h.fields.maxSize⟩, ?_⟩,
    ⟨⟨hr.fields.pageId, hr.fields.parentPageId, ?_, hr.fields.maxSize⟩, ?_⟩⟩
  · unfold InternalPage.moveFirstToEndOf
    rw [if_neg (by omega)]
    change (r.copyLastFrom n (p.array 0) >>= _) = _
    rw [liftExcept_ok copy]
    rfl
  · simp [size]
  · have items := h.items
    rw [size] at items
    simp only [size, Nat.add_sub_cancel]
    rw [entries_removeAt _ _ (by omega), items]
    rfl
  · simp [hr.size]
  · rw [← hr.items]
    exact entries_push _ _ _

/-- The last slot of the left page goes to the front of the right one. -/
theorem Holds.moveLastToFrontOf (h : p.Holds n id parent (slots ++ [(key, q)]))
    (hr : r.Holds n id' parent slots') (fits : slots'.length + 1 < n.internalMax) :
    ∃ p' r', p.moveLastToFrontOf n r = .ok (p', r') ∧ p'.Holds n id parent slots ∧
      r'.Holds n id' parent ((key, q) :: slots') ∧ r'.array 0 = (key, q) := by
  have size : p.size = slots.length + 1 := by simp [h.size]
  have room : r.size < n.internalSlots := by
    rw [hr.size, ← n.internalMax_add_one]
    omega
  have last : p.array (p.size - 1) = (key, q) := by
    rw [h.array (by simp [size])]
    simp [size]
  refine ⟨{ p with size := p.size - 1 },
    { r with size := r.size + 1, array := insertAt r.array r.size 0 (key, q) }, ?_,
    ⟨⟨h.fields.pageId, h.fields.parentPageId, ?_, h.fields.maxSize⟩, ?_⟩,
    ⟨⟨hr.fields.pageId, hr.fields.parentPageId, ?_, hr.fields.maxSize⟩, ?_⟩, ?_⟩
  · unfold InternalPage.moveLastToFrontOf
    rw [if_neg (by omega)]
    change (r.copyFirstFrom n (p.array (p.size - 1)) >>= _) = _
    have copy : r.copyFirstFrom n (p.array (p.size - 1)) = .ok { r with
        size := r.size + 1, array := insertAt r.array r.size 0 (key, q) } := by
      unfold copyFirstFrom
      rw [liftExcept_ok (assert_pos (by rw [hr.size, hr.fields.maxSize]; exact fits)),
        if_pos room, last]
      rfl
    rw [liftExcept_ok copy]
    rfl
  · simp [size]
  · have taken := entries_take p.array p.size (m := slots.length) (by omega)
    rw [h.items, List.take_left' rfl] at taken
    simp only [size, Nat.add_sub_cancel]
    exact taken
  · simp [hr.size]
  · rw [entries_insertAt _ _ (Nat.zero_le _), hr.items]
    rfl
  · simp [insertAt]

end InternalPage

end ScuDb
