import ScuDb.Lib.Tiling
import ScuDb.Page.TablePageSteps

/-!
# Well-formed table pages

A page is well-formed when its directory lies below the free space pointer and the byte ranges of
its non-empty slots tile the tuple area.  All operations keep it so, and keep the size and the
bytes of every slot but the one they work on; for `UpdateTuple` this needs that no mark-deleted
tuple lies below the updated one when the size changes.
-/

namespace ScuDb

open ByteMem Tiling

namespace TablePage

/-- Slot `j` holds a tuple, live or mark-deleted. -/
def Used (p : PageData) (j : ℕ) : Prop := (j : ℤ) < getTupleCount p ∧ getTupleSize p j ≠ 0

/-- The directory fits below the free space pointer, and the ranges of the non-empty slots are
disjoint and together are exactly the tuple area. -/
structure WellFormed (p : PageData) : Prop extends Sound p where
  tiles : Tiles (Used p) (getTupleOffset p) (fun j => |getTupleSize p j|)
    (getFreeSpacePointer p) pageSize

/-- The bytes of the tuple in slot `j`. -/
def tupleBytes (p : PageData) (j : ℕ) : List UInt8 :=
  p.slice (getTupleOffset p j).toNat (getTupleSize p j).natAbs

/-- Every non-empty slot but `i` has in `q` the size and the bytes it had in `p`. -/
def KeepsOthers (p : PageData) (i : ℤ) (q : PageData) : Prop :=
  ∀ j : ℕ, (j : ℤ) ≠ i → Used p j →
    Used q j ∧ getTupleSize q j = getTupleSize p j ∧ tupleBytes q j = tupleBytes p j

variable {p q : PageData} {tuple : List UInt8} {i j : ℕ}

theorem WellFormed.bounds (h : WellFormed p) (hj : Used p j) :
    getFreeSpacePointer p ≤ getTupleOffset p j ∧
      getTupleOffset p j + |getTupleSize p j| ≤ 512 := h.tiles.bounds hj

theorem WellFormed.size_le (h : WellFormed p) (hj : (j : ℤ) < getTupleCount p) :
    |getTupleSize p j| ≤ 512 := by
  by_cases hz : getTupleSize p j = 0
  · rw [hz]
    decide
  · have hdir := h.directory
    have hcount := h.count
    have := h.bounds ⟨hj, hz⟩
    omega

/-! ## A new page -/

section Init

variable (m : PageData) (pageId prevPageId : PageId)

theorem init_count : getTupleCount (init m pageId pageSize prevPageId) = 0 :=
  Mem.getInt32_setInt32_self _ (by decide) ⟨by decide, by decide⟩

theorem init_free : getFreeSpacePointer (init m pageId pageSize prevPageId) = 512 := by
  unfold getFreeSpacePointer init setTupleCount setFreeSpacePointer
  rw [Mem.getInt32_setInt32_disjoint _ (by omega)]
  exact Mem.getInt32_setInt32_self _ (by decide) ⟨by decide, by decide⟩

theorem init_next : getNextPageId (init m pageId pageSize prevPageId) = invalidPageId := by
  unfold getNextPageId init setTupleCount setFreeSpacePointer setNextPageId
  rw [Mem.getInt32_setInt32_disjoint _ (by omega), Mem.getInt32_setInt32_disjoint _ (by omega)]
  exact Mem.getInt32_setInt32_self _ (by decide) ⟨by decide, by decide⟩

theorem init_pageId (fits : Mem.IsInt32 pageId) :
    getPageId (init m pageId pageSize prevPageId) = pageId := by
  unfold getPageId init setTupleCount setFreeSpacePointer setNextPageId setPrevPageId
  rw [Mem.getInt32_setInt32_disjoint _ (by omega), Mem.getInt32_setInt32_disjoint _ (by omega),
    Mem.getInt32_setInt32_disjoint _ (by omega), Mem.getInt32_setInt32_disjoint _ (by omega)]
  exact Mem.getInt32_setInt32_self _ (by decide) fits

theorem wellFormed_init : WellFormed (init m pageId pageSize prevPageId) := by
  refine ⟨⟨by rw [init_count], by rw [init_count, init_free]; decide,
    by rw [init_free]; decide⟩, ?_⟩
  rw [init_free]
  refine Tiles.empty fun j hj => ?_
  have := hj.1
  rw [init_count] at this
  omega

end Init

/-! ## Insertion -/

theorem Inserted.used (h : Sound p) (hq : Inserted p tuple i q) (pos : 0 < tuple.length) :
    Used q j ↔ j = i ∨ Used p j := by
  have hcount := h.count
  unfold Used
  by_cases hji : j = i
  · subst hji
    rw [hq.count, hq.size]
    constructor
    · exact fun _ => .inl rfl
    · exact fun _ => ⟨by omega, by omega⟩
  · have hslot := hq.slot
    constructor
    · intro hj
      have hs := (hq.others j hji hj.1).2
      have hlt := hj.1
      rw [hq.count] at hlt
      rw [hs] at hj
      exact .inr ⟨by omega, hj.2⟩
    · rintro (hj | hj)
      · exact absurd hj hji
      · have hlt : (j : ℤ) < getTupleCount q := by
          rw [hq.count]
          omega
        rw [(hq.others j hji hlt).2]
        exact ⟨hlt, hj.2⟩

theorem Inserted.not_used (hq : Inserted p tuple i q) : ¬ Used p i := by
  intro hi
  have := hi.1
  rcases hq.slot with hs | hs
  · omega
  · exact hi.2 hs.2

theorem Inserted.wellFormed (h : WellFormed p) (hq : Inserted p tuple i q)
    (pos : 0 < tuple.length) : WellFormed q := by
  have hsize : |getTupleSize q i| = tuple.length := by
    rw [hq.size, abs_of_nonneg (by omega)]
  have others (j : ℕ) (hj : Used p j) : getTupleOffset q j = getTupleOffset p j ∧
      getTupleSize q j = getTupleSize p j := by
    refine hq.others j ?_ ?_
    · rintro rfl
      exact hq.not_used hj
    · have := hj.1
      rw [hq.count]
      omega
  refine ⟨hq.sound h.toSound, ?_⟩
  have tiles : Tiles (Used q) (getTupleOffset q) (fun j => |getTupleSize q j|)
      (getFreeSpacePointer p - |getTupleSize q i|) pageSize :=
    h.tiles.push hq.not_used (fun j => hq.used h.toSound pos) (by simp only [hsize]; omega)
      (by simp only [hsize]; rw [hq.offset, hq.free]) (fun j hj => (others j hj).1)
      (fun j hj => by simp only [(others j hj).2]) h.free
  rwa [hsize, ← hq.free] at tiles

theorem Inserted.keepsOthers (h : WellFormed p) (hq : Inserted p tuple i q)
    (pos : 0 < tuple.length) : KeepsOthers p i q := by
  intro j hji hj
  have hne : j ≠ i := fun e => hji (by rw [e])
  have hused : Used q j := (hq.used h.toSound pos).2 (.inr hj)
  obtain ⟨hoff, hsize⟩ := hq.others j hne hused.1
  refine ⟨hused, hsize, ?_⟩
  unfold tupleBytes
  rw [hoff, hsize]
  have hdir := h.directory
  have hcount := h.count
  have := (h.bounds hj).1
  exact Mem.slice_congr fun a ha => hq.bytes _ (by omega)

theorem Inserted.tupleBytes (hq : Inserted p tuple i q) : tupleBytes q i = tuple := by
  unfold TablePage.tupleBytes
  rw [hq.offset, hq.size, Int.natAbs_natCast]
  exact hq.tuple

/-! ## Marking and unmarking -/

theorem Resized.used {size : ℤ} (hq : Resized p i size q) (keeps : size ≠ 0 ↔ getTupleSize p i ≠ 0) :
    Used q j ↔ Used p j := by
  unfold Used
  rw [hq.count, hq.size]
  split_ifs with hji
  · rw [hji, keeps]
  · rfl

theorem Resized.wellFormed {size : ℤ} (h : WellFormed p) (hq : Resized p i size q)
    (abs_eq : |size| = |getTupleSize p i|) : WellFormed q := by
  have keeps : size ≠ 0 ↔ getTupleSize p i ≠ 0 := by
    rw [← abs_ne_zero, abs_eq, abs_ne_zero]
  refine ⟨hq.sound h.toSound, ?_⟩
  rw [hq.free]
  refine h.tiles.congr (fun j => hq.used keeps) (fun j _ => hq.offset j) (fun j _ => ?_)
  simp only [hq.size]
  split_ifs with hji
  · rw [hji, abs_eq]
  · rfl

theorem Resized.keepsOthers {size : ℤ} (h : WellFormed p) (hq : Resized p i size q) :
    KeepsOthers p i q := by
  intro j hji hj
  have hne : j ≠ i := fun e => hji (by rw [e])
  have hsize : getTupleSize q j = getTupleSize p j := by
    rw [hq.size, if_neg hne]
  refine ⟨⟨by rw [hq.count]; exact hj.1, by rw [hsize]; exact hj.2⟩, hsize, ?_⟩
  unfold tupleBytes
  rw [hq.offset, hsize]
  have hdir := h.directory
  have hcount := h.count
  have := (h.bounds hj).1
  exact Mem.slice_congr fun a ha => hq.bytes _ (by omega)

/-! ## Removal -/

theorem Removed.used (hq : Removed p i q) : Used q j ↔ j ≠ i ∧ Used p j := by
  unfold Used
  rw [hq.count]
  by_cases hji : j = i
  · subst hji
    rw [hq.size j hq.slot, if_pos rfl]
    tauto
  · constructor
    · rintro ⟨hlt, hs⟩
      rw [hq.size j hlt, if_neg hji] at hs
      exact ⟨hji, hlt, hs⟩
    · rintro ⟨-, hlt, hs⟩
      rw [hq.size j hlt, if_neg hji]
      exact ⟨hlt, hs⟩

theorem Removed.offset_used (h : WellFormed p) (hq : Removed p i q) (hji : j ≠ i)
    (hj : Used p j) : getTupleOffset q j = if getTupleOffset p j < getTupleOffset p i then
      getTupleOffset p j + |getTupleSize p i| else getTupleOffset p j := by
  have hdir := h.directory
  have hcount := h.count
  have := (h.bounds hj).1
  rw [hq.offset j hj.1 hji (by omega)]
  simp only [hj.2, ne_eq, not_false_eq_true, true_and]

theorem Removed.wellFormed (h : WellFormed p) (hq : Removed p i q) (used : Used p i) :
    WellFormed q := by
  refine ⟨hq.sound h.toSound, ?_⟩
  rw [hq.free]
  refine h.tiles.remove used (fun j => hq.used) (fun j hji hj => hq.offset_used h hji hj)
    (fun j hji hj => ?_)
  simp only [hq.size j hj.1, if_neg hji]

theorem Removed.keepsOthers (h : WellFormed p) (hq : Removed p i q) (used : Used p i) :
    KeepsOthers p i q := by
  intro j hji hj
  have hne : j ≠ i := fun e => hji (by rw [e])
  have hsize : getTupleSize q j = getTupleSize p j := by
    rw [hq.size j hj.1, if_neg hne]
  refine ⟨hq.used.2 ⟨hne, hj⟩, hsize, ?_⟩
  have hdir := h.directory
  have hcount := h.count
  have nonneg := abs_nonneg (getTupleSize p i)
  have hb := h.bounds hj
  have hnat : |getTupleSize p j| = (getTupleSize p j).natAbs := Int.abs_eq_natAbs _
  unfold tupleBytes
  rw [hsize, hq.offset_used h hne hj]
  rcases h.tiles.below_or_behind used hj hne with ⟨hlt, hend⟩ | ⟨hlt, hend⟩
  · rw [if_pos hlt]
    refine Mem.slice_congr fun a ha => ?_
    have moved := hq.moved ((getTupleOffset p j).toNat + a) (by omega) (by omega)
    rw [← moved]
    congr 1
    omega
  · rw [if_neg hlt]
    exact Mem.slice_congr fun a ha => hq.bytes _ (by omega)

/-! ## Update -/

/-- The update keeps the size of slot `i`, or no mark-deleted tuple lies below it. -/
def NoMarkBelow (p : PageData) (tuple : List UInt8) (i : ℕ) : Prop :=
  getTupleSize p i = tuple.length ∨
    ∀ j : ℕ, (j : ℤ) < getTupleCount p → getTupleSize p j < 0 →
      getTupleOffset p i ≤ getTupleOffset p j

theorem Updated.used_self (hq : Updated p tuple i q) : Used p i :=
  ⟨hq.slot, by have := hq.live; omega⟩

theorem Updated.used (hq : Updated p tuple i q) (pos : 0 < tuple.length) :
    Used q j ↔ Used p j := by
  unfold Used
  rw [hq.count]
  by_cases hji : j = i
  · subst hji
    rw [hq.size j hq.slot, if_pos rfl]
    have := hq.live
    exact ⟨fun h => ⟨h.1, by omega⟩, fun h => ⟨h.1, by omega⟩⟩
  · refine and_congr_right fun hlt => ?_
    rw [hq.size j hlt, if_neg hji]

theorem Updated.offset_self (h : WellFormed p) (hq : Updated p tuple i q)
    (pos : 0 < tuple.length) :
    getTupleOffset q i = getTupleOffset p i + getTupleSize p i - tuple.length := by
  have hdir := h.directory
  have hcount := h.count
  have habove := hq.above
  have live := hq.live
  rw [hq.offset i hq.slot (by omega), hq.size i hq.slot, if_pos rfl, if_pos ⟨by omega, by omega⟩]

theorem Updated.offset_used (h : WellFormed p) (hq : Updated p tuple i q)
    (below : NoMarkBelow p tuple i) (hji : j ≠ i) (hj : Used p j) :
    getTupleOffset q j = if getTupleOffset p j < getTupleOffset p i then
      getTupleOffset p j + getTupleSize p i - tuple.length else getTupleOffset p j := by
  have hdir := h.directory
  have hcount := h.count
  have hb := (h.bounds hj).1
  have live := hq.live
  have habs : |getTupleSize p i| = getTupleSize p i := abs_of_pos live
  have side := h.tiles.below_or_behind hq.used_self hj hji
  simp only [habs] at side
  rw [hq.offset j hj.1 (by omega), hq.size j hj.1, if_neg hji]
  by_cases hpos : 0 < getTupleSize p j
  · simp only [hpos, true_and]
    split_ifs <;> omega
  · -- a mark-deleted tuple keeps its offset
    have hneg : getTupleSize p j < 0 := by
      have := hj.2
      omega
    rw [if_neg (fun hc => hpos hc.1)]
    rcases below with same | below
    · split_ifs <;> omega
    · rw [if_neg (not_lt.2 (below j hj.1 hneg))]

theorem Updated.wellFormed (h : WellFormed p) (hq : Updated p tuple i q)
    (below : NoMarkBelow p tuple i) (pos : 0 < tuple.length) : WellFormed q := by
  have habs : |getTupleSize p i| = getTupleSize p i := abs_of_pos hq.live
  have hlen : |getTupleSize q i| = tuple.length := by
    rw [hq.size i hq.slot, if_pos rfl, abs_of_nonneg (by omega)]
  refine ⟨hq.sound h.toSound, ?_⟩
  have tiles : Tiles (Used q) (getTupleOffset q) (fun j => |getTupleSize q j|)
      (getFreeSpacePointer p + |getTupleSize p i| - |getTupleSize q i|) pageSize := by
    refine h.tiles.resize hq.used_self (fun j => hq.used pos) ?_ ?_ (fun j hji hj => ?_)
      (fun j hji hj => ?_)
    · simp only [hlen]
      omega
    · simp only [hlen, habs]
      exact hq.offset_self h pos
    · simp only [hlen, habs]
      exact hq.offset_used h below hji hj
    · simp only [hq.size j hj.1, if_neg hji]
  rwa [habs, hlen, ← hq.free] at tiles

theorem Updated.keepsOthers (h : WellFormed p) (hq : Updated p tuple i q)
    (below : NoMarkBelow p tuple i) (pos : 0 < tuple.length) : KeepsOthers p i q := by
  intro j hji hj
  have hne : j ≠ i := fun e => hji (by rw [e])
  have hsize : getTupleSize q j = getTupleSize p j := by
    rw [hq.size j hj.1, if_neg hne]
  refine ⟨(hq.used pos).2 hj, hsize, ?_⟩
  have hdir := h.directory
  have hcount := h.count
  have hroom := hq.room
  have hb := h.bounds hj
  have live := hq.live
  have habs : |getTupleSize p i| = getTupleSize p i := abs_of_pos live
  have hnat : |getTupleSize p j| = (getTupleSize p j).natAbs := Int.abs_eq_natAbs _
  unfold tupleBytes
  rw [hsize, hq.offset_used h below hne hj]
  rcases h.tiles.below_or_behind hq.used_self hj hne with ⟨hlt, hend⟩ | ⟨hlt, hend⟩
  · rw [if_pos hlt]
    exact Mem.slice_congr fun a ha =>
      hq.moved ((getTupleOffset p j).toNat + a) _ (by omega) (by omega) (by omega)
  · rw [if_neg hlt]
    simp only [habs] at hend
    exact Mem.slice_congr fun a ha => hq.bytes _ (by omega)

theorem Updated.tupleBytes (h : WellFormed p) (hq : Updated p tuple i q)
    (pos : 0 < tuple.length) : tupleBytes q i = tuple := by
  unfold TablePage.tupleBytes
  rw [hq.offset_self h pos, hq.size i hq.slot, if_pos rfl, Int.natAbs_natCast]
  exact hq.tuple

/-! ## The operations on a slot inside the tuple area -/

theorem getTuple_inside (h : Sound p) (lt : (i : ℤ) < getTupleCount p)
    (hb : 0 < getTupleSize p i → getFreeSpacePointer p ≤ getTupleOffset p i ∧
      getTupleOffset p i + getTupleSize p i ≤ 512) :
    getTuple p i = .ok (if 0 < getTupleSize p i then some (tupleBytes p i) else none) := by
  unfold getTuple
  rw [if_neg (not_le.2 lt), slotIndex_ofNat]
  simp only [bind, Except.bind, pure, Except.pure]
  by_cases live : 0 < getTupleSize p i
  · have hdir := h.directory
    have hcount := h.count
    have habove := (hb live).1
    rw [if_neg (not_le.2 live), if_pos live, copyOut,
      if_pos ⟨by omega, live.le, show _ ≤ (512 : ℤ) from (hb live).2⟩]
    simp only [tupleBytes, Except.ok.injEq, Option.some.injEq]
    congr 1
    omega
  · rw [if_pos (not_lt.1 live), if_neg live]

theorem getTuple_eq (h : WellFormed p) (lt : (i : ℤ) < getTupleCount p) :
    getTuple p i = .ok (if 0 < getTupleSize p i then some (tupleBytes p i) else none) := by
  refine getTuple_inside h.toSound lt fun live => ?_
  have hb := h.bounds ⟨lt, live.ne'⟩
  rwa [abs_of_pos live] at hb

theorem getTuple_beyond {slotNum : ℤ} (ge : getTupleCount p ≤ slotNum) :
    getTuple p slotNum = .ok none := by
  unfold getTuple
  rw [if_pos ge]
  rfl

theorem getTuple_negative {slotNum : ℤ} (nonneg : 0 ≤ getTupleCount p) (neg : slotNum < 0) :
    getTuple p slotNum = .error .outOfBounds := by
  unfold getTuple
  rw [if_neg (not_le.2 (neg.trans_le nonneg)), slotIndex, if_neg (not_le.2 neg)]
  simp only [bind, Except.bind]

theorem getTuple_not_used (h : Sound p) (unused : ¬ Used p j) : getTuple p j = .ok none := by
  by_cases lt : (j : ℤ) < getTupleCount p
  · have hz : getTupleSize p j = 0 := by
      by_contra hz
      exact unused ⟨lt, hz⟩
    rw [getTuple_inside h lt (by omega), if_neg (by omega)]
  · exact getTuple_beyond (not_lt.1 lt)

/-- `GetTuple` of the other slots does not change. -/
theorem KeepsOthers.getTuple {slotNum : ℤ} (keeps : KeepsOthers p slotNum q) (hp : WellFormed p)
    (hq : WellFormed q) (used : ∀ j : ℕ, (j : ℤ) ≠ slotNum → Used q j → Used p j) {other : ℤ}
    (hne : other ≠ slotNum) : getTuple q other = getTuple p other := by
  by_cases hneg : other < 0
  · rw [getTuple_negative hq.count hneg, getTuple_negative hp.count hneg]
  obtain ⟨j, rfl⟩ : ∃ j : ℕ, other = j := ⟨other.toNat, by omega⟩
  by_cases hj : Used p j
  · obtain ⟨hj', hsize, hbytes⟩ := keeps j hne hj
    rw [getTuple_eq hq hj'.1, getTuple_eq hp hj.1, hsize, hbytes]
  · rw [getTuple_not_used hp.toSound hj,
      getTuple_not_used hq.toSound fun hj' => hj (used j hne hj')]

theorem markDelete_resized (h : Sound p) (lt : (i : ℤ) < getTupleCount p)
    (small : |getTupleSize p i| ≤ 512) :
    ∃ q, markDelete p i = .ok (decide (0 ≤ getTupleSize p i), q) ∧
      Resized p i (-|getTupleSize p i|) q := by
  rw [markDelete_eq lt]
  by_cases live : 0 < getTupleSize p i
  · rw [if_pos live, abs_of_pos live]
    exact ⟨_, rfl, resized_setTupleSize h lt (isInt32_neg_getTupleSize small)⟩
  · rw [if_neg live, abs_of_nonpos (not_lt.1 live), neg_neg]
    refine ⟨p, rfl, lt, fun _ _ => rfl, rfl, rfl, fun _ => rfl, fun j => ?_, fun _ _ => rfl⟩
    split_ifs with hji
    · rw [hji]
    · rfl

theorem rollbackDelete_resized (h : Sound p) (lt : (i : ℤ) < getTupleCount p)
    (small : |getTupleSize p i| ≤ 512) :
    ∃ q, rollbackDelete p i = .ok q ∧ Resized p i |getTupleSize p i| q := by
  rw [rollbackDelete_eq lt]
  by_cases marked : getTupleSize p i < 0
  · rw [if_pos marked, abs_of_neg marked]
    exact ⟨_, rfl, resized_setTupleSize h lt (isInt32_neg_getTupleSize small)⟩
  · rw [if_neg marked, abs_of_nonneg (not_lt.1 marked)]
    refine ⟨p, rfl, lt, fun _ _ => rfl, rfl, rfl, fun _ => rfl, fun j => ?_, fun _ _ => rfl⟩
    split_ifs with hji
    · rw [hji]
    · rfl

theorem applyDelete_inside (h : Sound p) (lt : (i : ℤ) < getTupleCount p)
    (hb : getFreeSpacePointer p ≤ getTupleOffset p i ∧
      getTupleOffset p i + |getTupleSize p i| ≤ 512) :
    ∃ q, applyDelete p i = .ok q ∧ Removed p i q := by
  have hdir := h.directory
  have hcount := h.count
  have heq := applyDelete_eq lt h
  rw [if_pos ⟨by omega, hb.2⟩, if_pos hb.1] at heq
  exact ⟨_, heq, removed_of_applyDelete h lt heq⟩

theorem updateTuple_inside (h : Sound p) (lt : (i : ℤ) < getTupleCount p) (fits : Fits p tuple i)
    (hb : getFreeSpacePointer p ≤ getTupleOffset p i ∧
      getTupleOffset p i + getTupleSize p i ≤ 512) :
    ∃ q, updateTuple p tuple i = .ok (some (tupleBytes p i), q) ∧ Updated p tuple i q := by
  have live := fits.1
  have hdir := h.directory
  have hcount := h.count
  have heq := updateTuple_eq lt h fits
  rw [if_pos ⟨by omega, hb.2⟩, if_pos hb.1] at heq
  obtain ⟨updated, -⟩ := updated_of_updateTuple h lt heq
  refine ⟨_, ?_, updated⟩
  rw [heq, tupleBytes, show (getTupleSize p i).natAbs = (getTupleSize p i).toNat by omega]

/-! ## The operations on a well-formed page -/

theorem updateTuple_wellFormed (h : WellFormed p) (lt : (i : ℤ) < getTupleCount p)
    (fits : Fits p tuple i) :
    ∃ q, updateTuple p tuple i = .ok (some (tupleBytes p i), q) ∧ Updated p tuple i q := by
  have hb := h.bounds ⟨lt, fits.1.ne'⟩
  rw [abs_of_pos fits.1] at hb
  exact updateTuple_inside h.toSound lt fits hb

theorem insertTuple_wellFormed (h : WellFormed p) (pos : 0 < tuple.length) :
    ∃ r q, insertTuple p tuple = .ok (r, q) ∧ WellFormed q ∧ (r = none → q = p) ∧
      ∀ rid, r = some rid → rid.pageId = getPageId p ∧ KeepsOthers p rid.slotNum q ∧
        getTuple q rid.slotNum = .ok (some tuple) := by
  rcases insertTuple_cases h.toSound pos with ⟨hr, -⟩ | ⟨i, q, hr, hq⟩
  · refine ⟨none, p, hr, h, fun _ => rfl, ?_⟩
    intro rid hrid
    cases hrid
  · have wf := hq.wellFormed h pos
    refine ⟨_, q, hr, wf, ?_, ?_⟩
    · intro hn
      cases hn
    · intro rid hrid
      cases hrid
      have hused : Used q i := (hq.used h.toSound pos).2 (.inl rfl)
      refine ⟨rfl, hq.keepsOthers h pos, ?_⟩
      have live : 0 < getTupleSize q i := by
        rw [hq.size]
        omega
      exact (getTuple_eq wf hused.1).trans (by rw [if_pos live, hq.tupleBytes])

/-- `Init` gives a well-formed page.  On a well-formed page the operations other than `UpdateTuple`
return, keep it well-formed and keep the other tuples; a refused `InsertTuple` changes nothing, and
an inserted tuple reads back. -/
theorem operations_wellFormed (h : WellFormed p) :
    (∀ m pageId prevPageId, WellFormed (init m pageId pageSize prevPageId)) ∧
    (∀ tuple : List UInt8, 0 < tuple.length → ∃ r q, insertTuple p tuple = .ok (r, q) ∧
      WellFormed q ∧ (r = none → q = p) ∧ ∀ rid, r = some rid → rid.pageId = getPageId p ∧
        KeepsOthers p rid.slotNum q ∧ getTuple q rid.slotNum = .ok (some tuple)) ∧
    (∀ slot : ℕ, ∃ r q, markDelete p slot = .ok (r, q) ∧ WellFormed q ∧ KeepsOthers p slot q) ∧
    (∀ slot : ℕ, (slot : ℤ) < getTupleCount p →
      ∃ q, rollbackDelete p slot = .ok q ∧ WellFormed q ∧ KeepsOthers p slot q) ∧
    (∀ slot : ℕ, ∃ r, getTuple p slot = .ok r) ∧
    (∀ slot : ℕ, Used p slot →
      ∃ q, applyDelete p slot = .ok q ∧ WellFormed q ∧ KeepsOthers p slot q) := by
  refine ⟨wellFormed_init, fun tuple pos => insertTuple_wellFormed h pos, fun slot => ?_,
    fun slot lt => ?_, fun slot => ?_, fun slot used => ?_⟩
  · by_cases lt : (slot : ℤ) < getTupleCount p
    · obtain ⟨q, hr, hq⟩ := markDelete_resized h.toSound lt (h.size_le lt)
      exact ⟨_, q, hr, hq.wellFormed h (by rw [abs_neg, abs_abs]), hq.keepsOthers h⟩
    · refine ⟨false, p, ?_, h, fun j _ hj => ⟨hj, rfl, rfl⟩⟩
      unfold markDelete
      rw [if_pos (not_lt.1 lt)]
      rfl
  · obtain ⟨q, hr, hq⟩ := rollbackDelete_resized h.toSound lt (h.size_le lt)
    exact ⟨q, hr, hq.wellFormed h (abs_abs _), hq.keepsOthers h⟩
  · by_cases lt : (slot : ℤ) < getTupleCount p
    · exact ⟨_, getTuple_eq h lt⟩
    · exact ⟨_, getTuple_beyond (not_lt.1 lt)⟩
  · obtain ⟨q, hr, hq⟩ := applyDelete_inside h.toSound used.1 (h.bounds used)
    exact ⟨q, hr, hq.wellFormed h used, hq.keepsOthers h used⟩

/-- The page with a tuple inserted, for examples. -/
def withTuple (p : PageData) (tuple : List UInt8) : PageData :=
  ((insertTuple p tuple).toOption.map Prod.snd).getD p

/-- The page with a tuple mark-deleted, for examples. -/
def withMark (p : PageData) (slot : ℕ) : PageData :=
  ((markDelete p slot).toOption.map Prod.snd).getD p

theorem WellFormed.withTuple (h : WellFormed p) (pos : 0 < tuple.length) :
    WellFormed (withTuple p tuple) := by
  obtain ⟨r, q, hr, hq, -⟩ := insertTuple_wellFormed h pos
  rw [TablePage.withTuple, hr]
  exact hq

theorem WellFormed.withMark (h : WellFormed p) (lt : (i : ℤ) < getTupleCount p) :
    WellFormed (withMark p i) := by
  obtain ⟨q, hr, hq⟩ := markDelete_resized h.toSound lt (h.size_le lt)
  rw [TablePage.withMark, hr]
  exact hq.wellFormed h (by rw [abs_neg, abs_abs])

/-- Two tuples of three and one bytes. -/
def twoTuples : PageData := withTuple (withTuple (init Mem.zero 0 pageSize invalidPageId) [1, 2, 3]) [9]

theorem wellFormed_twoTuples : WellFormed twoTuples :=
  ((wellFormed_init _ _ _).withTuple (by decide)).withTuple (by decide)

/-- Both tuples are there; one is mark-deleted, rolled back or removed, and a third one inserted. -/
theorem operations_wellFormed_twoTuples :
    (∃ r q, insertTuple twoTuples [7, 7] = .ok (r, q) ∧ WellFormed q) ∧
    (∃ r q, markDelete twoTuples 1 = .ok (r, q) ∧ WellFormed q ∧ KeepsOthers twoTuples 1 q) ∧
    (∃ q, rollbackDelete twoTuples 1 = .ok q ∧ WellFormed q) ∧
    ∃ q, applyDelete twoTuples 0 = .ok q ∧ WellFormed q ∧ KeepsOthers twoTuples 0 q := by
  obtain ⟨-, insert, mark, rollback, -, remove⟩ := operations_wellFormed wellFormed_twoTuples
  refine ⟨?_, mark 1, ?_, remove 0 ⟨by decide +kernel, by decide +kernel⟩⟩
  · obtain ⟨r, q, run, wf, -⟩ := insert [7, 7] (by decide)
    exact ⟨r, q, run, wf⟩
  · obtain ⟨q, run, wf, -⟩ := rollback 1 (by decide +kernel)
    exact ⟨q, run, wf⟩

end TablePage

end ScuDb
