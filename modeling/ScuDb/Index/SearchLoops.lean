import ScuDb.Index.Search

/-!
# The binary searches of a page

The loops of `KeyIndex` and of the internal `Lookup` with signed positions, in which a key outside
the searched slots is the fault `outOfBounds`.  They end without a fault with what the page
operations use, the place of the key among the keys of the page.
-/

namespace ScuDb

open SlotArray

variable {K V : Type}

namespace LeafPage

variable (comparator : K → K → ℤ) (p : LeafPage K V) (key : K)

/-- The key of `array[index]`, for an entry of the page. -/
def readKey (index : ℤ) : Except Fault K :=
  if 0 ≤ index ∧ index < p.size then .ok (p.array index.toNat).1 else .error .outOfBounds

/-- The test of `KeyIndex` at `mid`: whether it goes on to the right. -/
def keyBelow (mid : ℤ) : Except Fault Bool := do
  return !decide (comparator (← p.readKey mid) key ≥ 0)

/-- The loop of `KeyIndex`. -/
def keyIndexLoop : Except Fault ℤ := do
  let (_, ending) ← BinarySearch.run (p.keyBelow comparator key) 0 (p.size - 1)
  return ending + 1

variable {comparator p key}

theorem keyBelow_eq {m : ℕ} (hm : m < p.size) :
    p.keyBelow comparator key m = .ok (decide (comparator (p.array m).1 key < 0)) := by
  unfold keyBelow readKey
  rw [if_pos (by omega), Int.toNat_natCast]
  change Except.ok (!decide (comparator (p.array m).1 key ≥ 0)) = _
  simp only [ge_iff_le, ← decide_not, not_le]

theorem keyIndexLoop_eq : p.keyIndexLoop comparator key = .ok (p.keyIndex comparator key : ℤ) := by
  have loop := BinarySearch.run_eq p.size (Nat.zero_le _) (by omega)
    fun m _ hm => @keyBelow_eq K V comparator p key m hm
  unfold keyIndexLoop
  rw [Nat.cast_zero] at loop
  rw [loop]
  change Except.ok (_ - 1 + 1) = _
  rw [sub_add_cancel]
  rfl

variable [LinearOrder K] (orders : Orders comparator)
  (sorted : ∀ i j, i < j → j < p.size → (p.array i).1 < (p.array j).1)

include sorted

theorem sorted_entries : ((entries p.array p.size).map Prod.fst).Pairwise (· < ·) := by
  rw [map_entries, pairwise_entries]
  exact sorted

include orders

/-- `KeyIndex` splits the entries at the key. -/
theorem keyIndex_split (key : K) : ∃ l r, entries p.array p.size = l ++ r ∧
    p.keyIndex comparator key = l.length ∧ (∀ e ∈ l, e.1 < key) ∧ ∀ e ∈ r, key ≤ e.1 := by
  obtain ⟨l, r, split, index, bounds⟩ := @LeafNode.index_split K V _ comparator key
    ⟨p.pageId, p.nextPageId, entries p.array p.size⟩ orders (sorted_entries sorted)
  exact ⟨l, r, split, (keyIndex_eq rfl).trans index, bounds⟩

theorem keyIndex_eq_countP (key : K) :
    p.keyIndex comparator key = (entries p.array p.size).countP fun e => e.1 < key := by
  obtain ⟨l, r, split, index, below, above⟩ := keyIndex_split orders sorted key
  have left : l.countP (fun e => e.1 < key) = l.length :=
    List.countP_eq_length.2 fun e he => by simpa using below e he
  have right : r.countP (fun e => e.1 < key) = 0 :=
    List.countP_eq_zero.2 fun e he => by simpa using above e he
  rw [split, List.countP_append, left, right, index, Nat.add_zero]

/-- `Insert` keeps the page sorted; the keys stay distinct if the key is new. -/
theorem insert_sorted (n : KeySize) (value : V) (room : p.size < n.leafSlots) (key : K) :
    ∃ p', p.insert n comparator key value = .ok p' ∧ p'.size = p.size + 1 ∧
      (entries p'.array p'.size).Perm ((key, value) :: entries p.array p.size) ∧
      ((entries p'.array p'.size).map Prod.fst).Pairwise (· ≤ ·) ∧
      ((∀ e ∈ entries p.array p.size, e.1 ≠ key) →
        ((entries p'.array p'.size).map Prod.fst).Pairwise (· < ·)) := by
  obtain ⟨l, r, split, index, below, above⟩ := keyIndex_split orders sorted key
  have le : p.keyIndex comparator key ≤ p.size := (BinarySearch.search_le _ _ (Nat.zero_le _)).2
  have inserted := entries_insertAt p.array p.size le (key, value)
  rw [index, split, List.take_left, List.drop_left, ← index] at inserted
  have strict := sorted_entries sorted
  rw [split, List.map_append, List.pairwise_append] at strict
  obtain ⟨strictL, strictR, across⟩ := strict
  refine ⟨_, if_pos room, rfl, ?_, ?_, fun new => ?_⟩
  · rw [inserted, split]
    exact List.perm_middle
  · rw [inserted, List.map_append, List.map_cons, List.pairwise_append, List.pairwise_cons]
    refine ⟨strictL.imp fun lt => lt.le, ⟨?_, strictR.imp fun lt => lt.le⟩, fun i hi j hj => ?_⟩
    · rintro j hj
      obtain ⟨e, he, rfl⟩ := List.mem_map.1 hj
      exact above e he
    · rcases List.mem_cons.1 hj with rfl | hj
      · obtain ⟨e, he, rfl⟩ := List.mem_map.1 hi
        exact (below e he).le
      · exact (across i hi j hj).le
  · rw [inserted, List.map_append, List.map_cons, List.pairwise_append, List.pairwise_cons]
    refine ⟨strictL, ⟨?_, strictR⟩, fun i hi j hj => ?_⟩
    · rintro j hj
      obtain ⟨e, he, rfl⟩ := List.mem_map.1 hj
      apply lt_of_le_of_ne (above e he)
      apply Ne.symm
      apply new
      rw [split]
      exact List.mem_append_right _ he
    · rcases List.mem_cons.1 hj with rfl | hj
      · obtain ⟨e, he, rfl⟩ := List.mem_map.1 hi
        exact below e he
      · exact across i hi j hj

/-- `RemoveAndDeleteRecord` takes away exactly the entry with the key. -/
theorem entries_remove (key : K) :
    entries (p.removeAndDeleteRecord comparator key).array
        (p.removeAndDeleteRecord comparator key).size =
      (entries p.array p.size).filter fun e => e.1 ≠ key := by
  rw [@entries_removeAndDeleteRecord K V p ⟨p.pageId, p.nextPageId, entries p.array p.size⟩ _ _ rfl]
  exact LeafNode.entries_erased orders (sorted_entries sorted)

end LeafPage

namespace InternalPage

variable (comparator : K → K → ℤ) (p : InternalPage K) (key : K)

/-- The key of `array[index]`, for an entry of the page behind the first. -/
def readKey (index : ℤ) : Except Fault K :=
  if 1 ≤ index ∧ index < p.size then .ok (p.array index.toNat).1 else .error .outOfBounds

/-- The child of `array[index]`, for an entry of the page. -/
def readValue (index : ℤ) : Except Fault PageId :=
  if 0 ≤ index ∧ index < p.size then .ok (p.array index.toNat).2 else .error .outOfBounds

/-- The test of `Lookup` at `mid`: whether it goes on to the right. -/
def keyAtMost (mid : ℤ) : Except Fault Bool := do
  return decide (comparator (← p.readKey mid) key ≤ 0)

/-- `Lookup` with its loop. -/
def lookupLoop : Except Fault PageId := do
  assert (p.size > 1)
  let (beginning, _) ← BinarySearch.run (p.keyAtMost comparator key) 1 (p.size - 1)
  p.readValue (beginning - 1)

variable {comparator p key}

theorem keyAtMost_eq {m : ℕ} (one : 1 ≤ m) (hm : m < p.size) :
    p.keyAtMost comparator key m = .ok (decide (comparator (p.array m).1 key ≤ 0)) := by
  unfold keyAtMost readKey
  rw [if_pos (by omega), Int.toNat_natCast]
  rfl

theorem lookupLoop_eq : p.lookupLoop comparator key = p.lookup comparator key := by
  unfold lookupLoop lookup
  by_cases two : p.size > 1
  · have loop := BinarySearch.run_eq p.size (by omega : 1 ≤ p.size) (by omega)
      fun m one hm => @keyAtMost_eq K comparator p key m one hm
    obtain ⟨lo, hi⟩ := BinarySearch.search_le (fun i => comparator (p.array i).1 key ≤ 0) p.size
      (by omega : 1 ≤ p.size)
    rw [Nat.cast_one] at loop
    rw [assert_pos two, loop]
    change p.readValue _ = Except.ok _
    unfold readValue
    rw [if_pos (by omega)]
    congr 4
    omega
  · rw [assert_neg two]
    rfl

/-- The child `Lookup` chooses. -/
theorem lookup_spec [LinearOrder K] (orders : Orders comparator)
    (size : 2 ≤ p.size)
    (sorted : ∀ i j, 1 ≤ i → i < j → j < p.size → (p.array i).1 < (p.array j).1) (k : K) :
    ∃ i < p.size, p.lookup comparator k = .ok (p.array i).2 ∧
      (∀ j, 1 ≤ j → j ≤ i → (p.array j).1 ≤ k) ∧
        ∀ j, i < j → j < p.size → k < (p.array j).1 := by
  set right : ℕ → Bool := fun i => comparator (p.array i).1 k ≤ 0 with hright
  have right_iff (i : ℕ) : right i = true ↔ (p.array i).1 ≤ k := by
    rw [hright, decide_eq_true_iff]
    exact orders.nonpos_iff _ _
  obtain ⟨lo, hi⟩ := BinarySearch.search_le right p.size (show 1 ≤ p.size by omega)
  obtain ⟨below, above⟩ := @BinarySearch.search_spec right p.size 1 p.size (by omega)
    (by omega) fun m m' h₁ h₂ h₃ hm => by
      rw [right_iff] at hm ⊢
      rcases h₂.eq_or_lt with rfl | lt
      · exact hm
      · exact (sorted m m' h₁ lt h₃).le.trans hm
  refine ⟨BinarySearch.search right p.size 1 p.size - 1, by omega, ?_, ?_, ?_⟩
  · unfold InternalPage.lookup
    rw [assert_pos (by omega)]
    rfl
  · exact fun j h₁ h₂ => (right_iff j).1 (below j h₁ (by omega))
  · intro j h₁ h₂
    have wrong := above j (by omega) h₂
    rw [← Bool.not_eq_true, right_iff] at wrong
    exact not_le.1 wrong

/-- `Lookup` picks the largest slot that is the first or has a key at most the searched one. -/
theorem lookupLoop_greatest [LinearOrder K] (orders : Orders comparator) (size : 2 ≤ p.size)
    (sorted : ∀ i j, 1 ≤ i → i < j → j < p.size → (p.array i).1 < (p.array j).1) (key : K) :
    ∃ i, IsGreatest {i | i < p.size ∧ (i = 0 ∨ (p.array i).1 ≤ key)} i ∧
      p.lookupLoop comparator key = .ok (p.array i).2 := by
  obtain ⟨i, hi, run, below, above⟩ := lookup_spec orders size sorted key
  refine ⟨i, ⟨⟨hi, ?_⟩, ?_⟩, lookupLoop_eq.trans run⟩
  · rcases Nat.eq_zero_or_pos i with zero | pos
    · exact .inl zero
    · exact .inr (below i pos le_rfl)
  · rintro j ⟨hj, zero | le⟩
    · omega
    · by_contra lt
      exact absurd le (not_le.2 (above j (not_le.1 lt) hj))

end InternalPage

/-- The binary searches of both page types end inside the page with the place of the key, so
`Insert` keeps a leaf sorted and `RemoveAndDeleteRecord` takes away exactly its entry. -/
theorem searches_exact [LinearOrder K] {comparator : K → K → ℤ} (orders : Orders comparator)
    (n : KeySize) (key : K) (value : V) :
    (∀ p : LeafPage K V, (∀ i j, i < j → j < p.size → (p.array i).1 < (p.array j).1) →
      p.keyIndexLoop comparator key =
          .ok ((entries p.array p.size).countP fun e => e.1 < key : ℕ) ∧
        (p.size < n.leafSlots → ∃ p', p.insert n comparator key value = .ok p' ∧
          p'.size = p.size + 1 ∧
          (entries p'.array p'.size).Perm ((key, value) :: entries p.array p.size) ∧
          ((entries p'.array p'.size).map Prod.fst).Pairwise (· ≤ ·) ∧
          ((∀ e ∈ entries p.array p.size, e.1 ≠ key) →
            ((entries p'.array p'.size).map Prod.fst).Pairwise (· < ·))) ∧
        entries (p.removeAndDeleteRecord comparator key).array
            (p.removeAndDeleteRecord comparator key).size =
          (entries p.array p.size).filter fun e => e.1 ≠ key) ∧
    ∀ p : InternalPage K, 2 ≤ p.size →
      (∀ i j, 1 ≤ i → i < j → j < p.size → (p.array i).1 < (p.array j).1) →
      ∃ i, IsGreatest {i | i < p.size ∧ (i = 0 ∨ (p.array i).1 ≤ key)} i ∧
        p.lookupLoop comparator key = .ok (p.array i).2 := by
  constructor
  · intro p sorted
    refine ⟨?_, fun room => LeafPage.insert_sorted orders sorted n value room key,
      LeafPage.entries_remove orders sorted key⟩
    rw [LeafPage.keyIndexLoop_eq, LeafPage.keyIndex_eq_countP orders sorted]
  · intro p size sorted
    exact InternalPage.lookupLoop_greatest orders size sorted key

/-- A search for a key of the page. -/
theorem searches_exact_present :
    (⟨⟨3, 30, 1, 2⟩, 4, fun i => (10 * i, ⟨2, i⟩)⟩ : LeafPage ℤ RID).keyIndexLoop (· - ·) 10 =
      .ok 1 := by
  have orders : Orders (fun a b : ℤ => a - b) :=
    ⟨fun a b => by simp, fun a b => by simp [sub_eq_zero]⟩
  refine ((searches_exact orders .eight 10 (⟨1, 0⟩ : RID)).1 _ ?_).1.trans (by decide)
  intro i j lt _
  simpa using lt

end ScuDb
