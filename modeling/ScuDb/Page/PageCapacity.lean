import ScuDb.Page.BPlusTreePage

/-!
# Page operations stay inside their pages

What each operation of a leaf or an internal page leaves of the slots behind the last one the page
has: nothing there changes, and the entries fit.  A page may hold one entry more than `max_size_`
between an insertion and the split that follows; there is a slot for it.
-/

namespace ScuDb

open SlotArray

variable {K V : Type} {n : KeySize}

namespace IndexPage

/-- The page has at most as many entries as slots. -/
def InCapacity (n : KeySize) : IndexPage K V → Prop
  | .raw _ => True
  | .leaf p => p.size ≤ n.leafSlots
  | .internal p => p.size ≤ n.internalSlots

/-- Two states of a page that differ in its slots and its header only. -/
def SameBehind (n : KeySize) : IndexPage K V → IndexPage K V → Prop
  | .raw _, .raw _ => True
  | .leaf a, .leaf b => ∀ i, n.leafSlots ≤ i → a.array i = b.array i
  | .internal a, .internal b => ∀ i, n.internalSlots ≤ i → a.array i = b.array i
  | _, _ => False

theorem SameBehind.refl : ∀ page : IndexPage K V, page.SameBehind n page
  | .raw _ => trivial
  | .leaf _ => fun _ _ => rfl
  | .internal _ => fun _ _ => rfl

theorem SameBehind.trans : ∀ {a b c : IndexPage K V}, a.SameBehind n b → b.SameBehind n c →
    a.SameBehind n c
  | .raw _, .raw _, .raw _, _, _ => trivial
  | .leaf _, .leaf _, .leaf _, h, h' => fun i hi => (h i hi).trans (h' i hi)
  | .internal _, .internal _, .internal _, h, h' => fun i hi => (h i hi).trans (h' i hi)

theorem SameBehind.symm : ∀ {a b : IndexPage K V}, a.SameBehind n b → b.SameBehind n a
  | .raw _, .raw _, _ => trivial
  | .leaf _, .leaf _, h => fun i hi => (h i hi).symm
  | .internal _, .internal _, h => fun i hi => (h i hi).symm

theorem SameBehind.of_raw : ∀ {data : PageData} {page : IndexPage K V},
    SameBehind n (.raw data) page → ∃ data, page = .raw data
  | _, .raw data, _ => ⟨data, rfl⟩

end IndexPage

/-! ## Page operations -/

theorem of_assert_bind {α : Type} {c : Prop} [Decidable c] {f : Unit → Except Fault α} {a : α}
    (h : (assert c >>= f) = .ok a) : c ∧ f () = .ok a := by
  by_cases hc : c
  · rw [assert_pos hc] at h
    exact ⟨hc, h⟩
  · rw [assert_neg hc] at h
    cases h

theorem of_except_bind {α β : Type} {x : Except Fault α} {f : α → Except Fault β} {b : β}
    (h : (x >>= f) = .ok b) : ∃ a, x = .ok a ∧ f a = .ok b := by
  cases x with
  | error e => cases h
  | ok a => exact ⟨a, rfl, h⟩

section Arrays

variable {α : Type} {a b : ℕ → α} {m i j : ℕ} {x : α}

theorem insertAt_behind (hi : i ≤ m) (hj : m < j) : insertAt a m i x j = a j := by
  unfold insertAt
  rw [if_neg (by omega), if_neg (by omega)]

theorem removeAt_behind (hj : m ≤ j) : removeAt a m i j = a j := by
  unfold removeAt
  rw [if_neg (by omega)]

theorem copyTo_behind {pos start k : ℕ} (hj : pos + k ≤ j) : copyTo a pos b start k j = a j := by
  unfold copyTo
  rw [if_neg (by omega)]

end Arrays

/-- What an operation makes of a page: the entries fit, and nothing behind the slots changed. -/
def Contained (n : KeySize) (a b : IndexPage K V) : Prop := b.InCapacity n ∧ a.SameBehind n b

namespace LeafPage

variable {comparator : K → K → ℤ} {p r p' r' : LeafPage K V} {key : K} {value : V} {item : K × V}

theorem insert_contained (h : p.insert n comparator key value = .ok p') :
    Contained n (.leaf p) (.leaf p') := by
  unfold LeafPage.insert at h
  split_ifs at h with room
  cases h
  refine ⟨room, fun i hi => ?_⟩
  have le := (BinarySearch.search_le (fun i => decide (comparator (p.array i).1 key < 0)) p.size
    p.size.zero_le).2
  exact (insertAt_behind le (room.trans_le hi)).symm

theorem moveHalfTo_contained (h : p.moveHalfTo n r = .ok (p', r')) :
    Contained n (.leaf p) (.leaf p') ∧ Contained n (.leaf r) (.leaf r') := by
  unfold LeafPage.moveHalfTo at h
  dsimp only at h
  split_ifs at h with room
  cases h
  refine ⟨⟨?_, fun i _ => rfl⟩, ⟨?_, fun i hi => (copyTo_behind ?_).symm⟩⟩
  · change (p.maxSize + 1) / 2 ≤ n.leafSlots
    omega
  · change p.maxSize + 1 - (p.maxSize + 1) / 2 ≤ n.leafSlots
    omega
  · omega

theorem remove_contained (fits : p.size ≤ n.leafSlots) :
    Contained n (.leaf p) (.leaf (p.removeAndDeleteRecord comparator key)) := by
  unfold removeAndDeleteRecord
  dsimp only
  split_ifs
  · exact ⟨fits, fun i _ => rfl⟩
  · exact ⟨(Nat.sub_le _ _).trans fits, fun i hi => (removeAt_behind (fits.trans hi)).symm⟩

theorem moveAllTo_contained (h : p.moveAllTo n r = .ok (p', r')) :
    Contained n (.leaf p) (.leaf p') ∧ Contained n (.leaf r) (.leaf r') := by
  unfold LeafPage.moveAllTo at h
  dsimp only at h
  split_ifs at h with room
  cases h
  exact ⟨⟨Nat.zero_le _, fun i _ => rfl⟩, room, fun i hi => (copyTo_behind (room.trans hi)).symm⟩

theorem copyLastFrom_contained (h : p.copyLastFrom n item = .ok p') :
    Contained n (.leaf p) (.leaf p') := by
  obtain ⟨-, h⟩ := of_assert_bind h
  split_ifs at h with room
  cases h
  exact ⟨room, fun i hi => (Function.update_of_ne (by omega) _ _).symm⟩

theorem copyFirstFrom_contained (h : p.copyFirstFrom n item = .ok p') :
    Contained n (.leaf p) (.leaf p') := by
  unfold LeafPage.copyFirstFrom at h
  split_ifs at h with room
  cases h
  exact ⟨room, fun i hi => (insertAt_behind (Nat.zero_le _) (room.trans_le hi)).symm⟩

theorem moveFirstToEndOf_contained (fits : p.size ≤ n.leafSlots)
    (h : p.moveFirstToEndOf n r = .ok (p', r')) :
    Contained n (.leaf p) (.leaf p') ∧ Contained n (.leaf r) (.leaf r') := by
  unfold LeafPage.moveFirstToEndOf at h
  split_ifs at h with none
  · cases h
  · obtain ⟨q, copy, h⟩ := of_except_bind h
    cases h
    refine ⟨⟨(Nat.sub_le _ _).trans fits, fun i hi => ?_⟩, copyLastFrom_contained copy⟩
    exact (removeAt_behind (fits.trans hi)).symm

theorem moveLastToFrontOf_contained (fits : p.size ≤ n.leafSlots)
    (h : p.moveLastToFrontOf n r = .ok (p', r')) :
    Contained n (.leaf p) (.leaf p') ∧ Contained n (.leaf r) (.leaf r') := by
  unfold LeafPage.moveLastToFrontOf at h
  split_ifs at h with none
  · cases h
  · obtain ⟨q, copy, h⟩ := of_except_bind h
    cases h
    exact ⟨⟨(Nat.sub_le _ _).trans fits, fun i _ => rfl⟩, copyFirstFrom_contained copy⟩

end LeafPage

namespace InternalPage

variable {p r p' r' : InternalPage K} {key : K} {child q : PageId} {pair : K × PageId} {index : ℤ}

theorem slot_lt {i : ℕ} (h : slot n index = .ok i) : i < n.internalSlots := by
  unfold slot at h
  split_ifs at h with inside
  cases h
  omega

theorem valueIndex_lt (p : InternalPage K) (value : PageId) : p.valueIndex value < p.size ∨
    p.valueIndex value = -1 := by
  unfold valueIndex
  split
  · next i found =>
    have := List.mem_range.1 (List.mem_of_find?_eq_some found)
    exact .inl (by exact_mod_cast this)
  · exact .inr rfl

theorem setKeyAt_contained (fits : p.size ≤ n.internalSlots)
    (h : p.setKeyAt n index key = .ok p') : Contained (V := V) n (.internal p) (.internal p') := by
  obtain ⟨i, place, h⟩ := of_except_bind h
  cases h
  have lt := slot_lt place
  exact ⟨fits, fun j hj => (Function.update_of_ne (by omega) _ _).symm⟩

theorem insertNodeAfter_contained (h : p.insertNodeAfter n child key q = .ok p') :
    Contained (V := V) n (.internal p) (.internal p') := by
  obtain ⟨-, h⟩ := of_assert_bind h
  split_ifs at h with room
  cases h
  refine ⟨room, fun i hi => (insertAt_behind ?_ (room.trans_le hi)).symm⟩
  have := p.valueIndex_lt child
  omega

theorem populateNewRoot_contained (p : InternalPage K) (empty : p.size = 0) (old : PageId) (key : K)
    (new : PageId) :
    Contained (V := V) n (.internal p) (.internal (p.populateNewRoot old key new)) := by
  have slots := n.internalMax_add_one
  have six := n.six_le_internalMax
  constructor
  · change p.size + 1 ≤ n.internalSlots
    omega
  · intro i hi
    change p.array i = Function.update (Function.update p.array 0 _) 1 _ i
    rw [Function.update_of_ne (by omega), Function.update_of_ne (by omega)]

theorem moveHalfTo_contained {children : List PageId} (h : p.movedHalf n = .ok children)
    (r : InternalPage K) : Contained (V := V) n (.internal p) (.internal (p.moveHalfTo r).1) ∧
      Contained (V := V) n (.internal r) (.internal (p.moveHalfTo r).2) := by
  obtain ⟨-, h⟩ := of_assert_bind h
  split_ifs at h with room
  refine ⟨⟨?_, fun i _ => rfl⟩, ⟨?_, fun i hi => (copyTo_behind ?_).symm⟩⟩
  · change (p.maxSize + 1) / 2 ≤ n.internalSlots
    omega
  · change p.maxSize + 1 - (p.maxSize + 1) / 2 ≤ n.internalSlots
    omega
  · omega

theorem remove_contained (fits : p.size ≤ n.internalSlots) (h : p.remove index = .ok p') :
    Contained (V := V) n (.internal p) (.internal p') := by
  obtain ⟨-, h⟩ := of_assert_bind h
  cases h
  exact ⟨(Nat.sub_le _ _).trans fits, fun i hi => (removeAt_behind (fits.trans hi)).symm⟩

theorem removeAndReturnOnlyChild_contained (h : p.removeAndReturnOnlyChild = .ok (q, p')) :
    Contained (V := V) n (.internal p) (.internal p') := by
  obtain ⟨-, h⟩ := of_assert_bind h
  cases h
  exact ⟨Nat.zero_le _, fun i _ => rfl⟩

theorem moveAllTo_contained (h : p.moveAllTo n r = .ok (p', r')) :
    Contained (V := V) n (.internal p) (.internal p') ∧
      Contained (V := V) n (.internal r) (.internal r') := by
  unfold InternalPage.moveAllTo at h
  dsimp only at h
  split_ifs at h with room
  obtain ⟨-, h⟩ := of_assert_bind h
  cases h
  exact ⟨⟨Nat.zero_le _, fun i _ => rfl⟩, room,
    fun i hi => (copyTo_behind (room.trans hi)).symm⟩

theorem copyLastFrom_contained (h : p.copyLastFrom n pair = .ok p') :
    Contained (V := V) n (.internal p) (.internal p') := by
  obtain ⟨-, h⟩ := of_assert_bind h
  split_ifs at h with room
  cases h
  exact ⟨room, fun i hi => (Function.update_of_ne (by omega) _ _).symm⟩

theorem copyFirstFrom_contained (h : p.copyFirstFrom n pair = .ok p') :
    Contained (V := V) n (.internal p) (.internal p') := by
  obtain ⟨-, h⟩ := of_assert_bind h
  split_ifs at h with room
  cases h
  exact ⟨room, fun i hi => (insertAt_behind (Nat.zero_le _) (room.trans_le hi)).symm⟩

theorem moveFirstToEndOf_contained (fits : p.size ≤ n.internalSlots)
    (h : p.moveFirstToEndOf n r = .ok (p', r')) :
    Contained (V := V) n (.internal p) (.internal p') ∧
      Contained (V := V) n (.internal r) (.internal r') := by
  unfold InternalPage.moveFirstToEndOf at h
  split_ifs at h with none
  · cases h
  · obtain ⟨q, copy, h⟩ := of_except_bind h
    cases h
    refine ⟨⟨(Nat.sub_le _ _).trans fits, fun i hi => ?_⟩, copyLastFrom_contained copy⟩
    exact (removeAt_behind (fits.trans hi)).symm

theorem moveLastToFrontOf_contained (fits : p.size ≤ n.internalSlots)
    (h : p.moveLastToFrontOf n r = .ok (p', r')) :
    Contained (V := V) n (.internal p) (.internal p') ∧
      Contained (V := V) n (.internal r) (.internal r') := by
  unfold InternalPage.moveLastToFrontOf at h
  split_ifs at h with none
  · cases h
  · obtain ⟨q, copy, h⟩ := of_except_bind h
    cases h
    exact ⟨⟨(Nat.sub_le _ _).trans fits, fun i _ => rfl⟩, copyFirstFrom_contained copy⟩

end InternalPage

end ScuDb
