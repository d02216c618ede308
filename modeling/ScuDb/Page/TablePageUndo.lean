import ScuDb.Page.TablePageInvariant

/-!
# Undoing table page operations

`UpdateTuple` moves mark-deleted tuples like all others but keeps their offsets, so a page can hold
tuples elsewhere than its directory says: `Layout` has the true places.  A page that was changed and
changed back keeps its tuples where they were but may have more slots than before: `SameTuples` is
what an undo restores.  `ApplyDelete` undoes `InsertTuple`, `RollbackDelete` undoes `MarkDelete`,
and `UpdateTuple` with the old tuple undoes `UpdateTuple`.
-/

namespace ScuDb

open ByteMem Tiling

namespace TablePage

/-- The non-empty slots hold their tuples at `place`, and the directory knows where the live ones
are. -/
structure Layout (p : PageData) (place : ℕ → ℤ) : Prop extends Sound p where
  tiles : Tiles (Used p) place (fun j => |getTupleSize p j|) (getFreeSpacePointer p) pageSize
  live : ∀ j : ℕ, (j : ℤ) < getTupleCount p → 0 < getTupleSize p j → getTupleOffset p j = place j
  nonneg : ∀ j, Used p j → 0 ≤ getTupleOffset p j

/-- `q` has in every slot the size that `p` has there, and so the same offset and the same tuple;
slots that `p` does not have are empty. -/
structure SameTuples (p q : PageData) : Prop where
  free : getFreeSpacePointer q = getFreeSpacePointer p
  count : getTupleCount p ≤ getTupleCount q
  size : ∀ j : ℕ, (j : ℤ) < getTupleCount q →
    getTupleSize q j = if (j : ℤ) < getTupleCount p then getTupleSize p j else 0
  offset : ∀ j, Used p j → getTupleOffset q j = getTupleOffset p j
  bytes : ∀ a : ℕ, getFreeSpacePointer p ≤ a → q.get a = p.get a

variable {p p' q q' : PageData} {tuple : List UInt8} {i j : ℕ} {place : ℕ → ℤ}

/-! ## Layouts -/

theorem WellFormed.layout (h : WellFormed p) : Layout p (getTupleOffset p) := by
  refine ⟨h.toSound, h.tiles, fun _ _ _ => rfl, fun j hj => ?_⟩
  have hdir := h.directory
  have hcount := h.count
  have hb := (h.bounds hj).1
  omega

theorem Layout.bounds (h : Layout p place) (hj : (j : ℤ) < getTupleCount p)
    (live : 0 < getTupleSize p j) :
    getFreeSpacePointer p ≤ getTupleOffset p j ∧ getTupleOffset p j + getTupleSize p j ≤ 512 := by
  have hb := h.tiles.bounds (i := j) ⟨hj, live.ne'⟩
  simp only [abs_of_pos live] at hb
  rw [h.live j hj live]
  exact hb

theorem Layout.size_le (h : Layout p place) (hj : (j : ℤ) < getTupleCount p) :
    |getTupleSize p j| ≤ 512 := by
  by_cases hz : getTupleSize p j = 0
  · rw [hz]
    decide
  · have hdir := h.directory
    have hcount := h.count
    have hb : _ ≤ place j ∧ place j + |getTupleSize p j| ≤ 512 := h.tiles.bounds (i := j) ⟨hj, hz⟩
    omega

/-- `GetTuple` finds live tuples only. -/
theorem Layout.live_of_getTuple (h : Layout p place) {slotNum : ℤ} {data : List UInt8}
    (hg : getTuple p slotNum = .ok (some data)) :
    ∃ i : ℕ, slotNum = i ∧ (i : ℤ) < getTupleCount p ∧ 0 < getTupleSize p i := by
  by_cases hneg : slotNum < 0
  · rw [getTuple_negative h.count hneg] at hg
    cases hg
  obtain ⟨i, rfl⟩ : ∃ i : ℕ, slotNum = i := ⟨slotNum.toNat, by omega⟩
  by_cases hi : (i : ℤ) < getTupleCount p
  · refine ⟨i, rfl, hi, ?_⟩
    by_contra hs
    rw [getTuple_inside h.toSound hi (h.bounds hi), if_neg hs] at hg
    cases hg
  · rw [getTuple_beyond (not_lt.1 hi)] at hg
    cases hg

theorem Inserted.layout (h : Layout p place) (hq : Inserted p tuple i q)
    (pos : 0 < tuple.length) :
    Layout q (Function.update place i (getFreeSpacePointer q)) := by
  have hsize : |getTupleSize q i| = tuple.length := by
    rw [hq.size, abs_of_nonneg (by omega)]
  have others (j : ℕ) (hj : Used p j) : j ≠ i ∧ getTupleSize q j = getTupleSize p j := by
    have hji : j ≠ i := by
      rintro rfl
      exact hq.not_used hj
    exact ⟨hji, (hq.others j hji ((hq.used h.toSound pos).2 (.inr hj)).1).2⟩
  have hdir := h.directory
  have hcount := h.count
  have room := hq.room
  have hcount' := hq.count
  refine ⟨hq.sound h.toSound, ?_, fun j hj live => ?_, fun j hj => ?_⟩
  · have tiles : Tiles (Used q) (Function.update place i (getFreeSpacePointer q))
        (fun j => |getTupleSize q j|) (getFreeSpacePointer p - |getTupleSize q i|) pageSize :=
      h.tiles.push hq.not_used (fun j => hq.used h.toSound pos) (by simp only [hsize]; omega)
        (by simp only [hsize, Function.update_self, hq.free])
        (fun j hj => Function.update_of_ne (others j hj).1 _ _)
        (fun j hj => by simp only [(others j hj).2]) h.free
    rwa [hsize, ← hq.free] at tiles
  · by_cases hji : j = i
    · subst hji
      rw [Function.update_self, hq.offset]
    · obtain ⟨hoff, hsz⟩ := hq.others j hji hj
      rw [hsz] at live
      have hj' := (((hq.used h.toSound pos).1 ⟨hj, by omega⟩).resolve_left hji).1
      rw [Function.update_of_ne hji, hoff, h.live j hj' live]
  · rcases (hq.used h.toSound pos).1 hj with rfl | hj'
    · rw [hq.offset]
      omega
    · rw [(hq.others j (others j hj').1 hj.1).1]
      exact h.nonneg j hj'

theorem Resized.layout (h : Layout p place) (hq : Resized p i (-|getTupleSize p i|) q) :
    Layout q place := by
  have keeps : -|getTupleSize p i| ≠ 0 ↔ getTupleSize p i ≠ 0 := by
    rw [neg_ne_zero, abs_ne_zero]
  refine ⟨hq.sound h.toSound, ?_, fun j hj live => ?_, fun j hj => ?_⟩
  · rw [hq.free]
    refine h.tiles.congr (fun j => hq.used keeps) (fun _ _ => rfl) fun j _ => ?_
    simp only [hq.size]
    split_ifs with hji
    · rw [hji, abs_neg, abs_abs]
    · rfl
  · rw [hq.count] at hj
    rw [hq.size] at live
    rw [hq.offset]
    split_ifs at live with hji
    · have := abs_nonneg (getTupleSize p i)
      omega
    · exact h.live j hj live
  · rw [hq.offset]
    exact h.nonneg j ((hq.used keeps).1 hj)

/-- The offsets of an updated page: the live tuples below the updated one moved. -/
theorem Updated.offset_layout (h : Layout p place) (hq : Updated p tuple i q) (hji : j ≠ i)
    (hj : Used p j) : getTupleOffset q j =
      if 0 < getTupleSize p j ∧ place j < place i then
        getTupleOffset p j + getTupleSize p i - tuple.length else getTupleOffset p j := by
  have nonneg := h.nonneg j hj
  rw [hq.offset j hj.1 (by omega), hq.size j hj.1, if_neg hji]
  by_cases hlive : 0 < getTupleSize p j
  · have side := h.tiles.below_or_behind hq.used_self hj hji
    simp only [abs_of_pos hq.live] at side
    have live := hq.live
    rw [h.live j hj.1 hlive, h.live i hq.slot live]
    simp only [hlive, true_and]
    split_ifs <;> omega
  · rw [if_neg (fun hc => hlive hc.1), if_neg (fun hc => hlive hc.1)]

theorem Updated.offset_layout_self (h : Layout p place) (hq : Updated p tuple i q)
    (pos : 0 < tuple.length) :
    getTupleOffset q i = getTupleOffset p i + getTupleSize p i - tuple.length := by
  have nonneg := h.nonneg i hq.used_self
  have live := hq.live
  rw [hq.offset i hq.slot (by omega), hq.size i hq.slot, if_pos rfl, if_pos ⟨by omega, by omega⟩]

/-- Where the tuples are when the tuple in slot `i` starts `delta` further up. -/
def shifted (place : ℕ → ℤ) (i : ℕ) (delta : ℤ) (j : ℕ) : ℤ :=
  if j = i ∨ place j < place i then place j + delta else place j

theorem Updated.tiles_shifted
    (h : Tiles (Used p) place (fun j => |getTupleSize p j|) (getFreeSpacePointer p) pageSize)
    (hq : Updated p tuple i q) (pos : 0 < tuple.length) :
    Tiles (Used q) (shifted place i (getTupleSize p i - tuple.length))
      (fun j => |getTupleSize q j|) (getFreeSpacePointer q) pageSize := by
  have habs : |getTupleSize p i| = getTupleSize p i := abs_of_pos hq.live
  have hlen : |getTupleSize q i| = tuple.length := by
    rw [hq.size i hq.slot, if_pos rfl, abs_of_nonneg (by omega)]
  have tiles : Tiles (Used q) (shifted place i (getTupleSize p i - tuple.length))
      (fun j => |getTupleSize q j|)
      (getFreeSpacePointer p + |getTupleSize p i| - |getTupleSize q i|) pageSize := by
    refine h.resize hq.used_self (fun j => hq.used pos) (by simp only [hlen]; omega) ?_
      (fun j hji _ => ?_) (fun j hji hj => by simp only [hq.size j hj.1, if_neg hji])
    · simp only [shifted, hlen, habs, true_or, if_true]
      omega
    · simp only [shifted, hlen, habs, hji, false_or]
      split_ifs <;> omega
  rwa [habs, hlen, ← hq.free] at tiles

theorem Updated.layout (h : Layout p place) (hq : Updated p tuple i q) (pos : 0 < tuple.length) :
    ∃ place', Layout q place' := by
  have live := hq.live
  have hplace := h.live i hq.slot live
  have hb := h.bounds hq.slot live
  have hdir := h.directory
  have hcount := h.count
  have room := hq.room
  refine ⟨_, hq.sound h.toSound, hq.tiles_shifted h.tiles pos, fun j hj hlive => ?_,
    fun j hj => ?_⟩
  · rw [hq.count] at hj
    by_cases hji : j = i
    · subst hji
      rw [hq.offset_layout_self h pos, hplace, shifted, if_pos (.inl rfl)]
      omega
    · rw [hq.size j hj, if_neg hji] at hlive
      rw [hq.offset_layout h hji ⟨hj, hlive.ne'⟩, h.live j hj hlive]
      simp only [shifted, hji, hlive, true_and, false_or]
      split_ifs <;> omega
  · have hj' := (hq.used pos).1 hj
    by_cases hji : j = i
    · subst hji
      rw [hq.offset_layout_self h pos]
      omega
    · have nonneg := h.nonneg j hj'
      rw [hq.offset_layout h hji hj']
      split_ifs with hc
      · have := (h.bounds hj'.1 hc.1).1
        omega
      · exact nonneg

/-! ## Updates above mark-deleted tuples -/

/-- A mark-deleted tuple below an updated one moves, and its offset does not. -/
theorem Updated.offset_mark (h : WellFormed p) (hq : Updated p tuple i q) (hj : Used p j)
    (mark : getTupleSize p j < 0) : getTupleOffset q j = getTupleOffset p j := by
  have hji : j ≠ i := by
    rintro rfl
    have := hq.live
    omega
  rw [hq.offset_layout h.layout hji hj, if_neg fun hc => absurd hc.1 (by omega)]

/-- The directory of an updated page gives every tuple its place, or a mark-deleted one the place
it had before. -/
theorem Updated.offset_eq (h : WellFormed p) (hq : Updated p tuple i q) (pos : 0 < tuple.length)
    (hj : Used p j) :
    getTupleOffset q j = shifted (getTupleOffset p) i (getTupleSize p i - tuple.length) j ∨
      getTupleOffset q j + (getTupleSize p i - tuple.length) =
        shifted (getTupleOffset p) i (getTupleSize p i - tuple.length) j := by
  unfold shifted
  by_cases hji : j = i
  · subst hji
    rw [hq.offset_layout_self h.layout pos, if_pos (.inl rfl)]
    omega
  · rw [hq.offset_layout h.layout hji hj]
    simp only [hji, false_or]
    split_ifs <;> omega

/-- An update that leaves the page well-formed moved no mark-deleted tuple. -/
theorem Updated.noMarkBelow (h : WellFormed p) (hq : Updated p tuple i q) (pos : 0 < tuple.length)
    (wf : WellFormed q) : NoMarkBelow p tuple i := by
  by_contra hn
  simp only [NoMarkBelow, not_or, not_forall, not_le] at hn
  obtain ⟨resized, j, hlt, mark, below⟩ := hn
  have hj : Used p j := ⟨hlt, mark.ne⟩
  have tiles := hq.tiles_shifted h.tiles pos
  have stays := hq.offset_mark h hj mark
  have moves : shifted (getTupleOffset p) i (getTupleSize p i - tuple.length) j =
      getTupleOffset p j + (getTupleSize p i - tuple.length) := if_pos (.inr below)
  rcases le_total 0 (getTupleSize p i - tuple.length) with up | down
  · have same := wf.tiles.eq_of_le tiles (fun k hk => by
      have := hq.offset_eq h pos ((hq.used pos).1 hk)
      omega) ((hq.used pos).2 hj)
    omega
  · have same := tiles.eq_of_le wf.tiles (fun k hk => by
      have := hq.offset_eq h pos ((hq.used pos).1 hk)
      omega) ((hq.used pos).2 hj)
    omega

/-- `UpdateTuple` of slot `i` returns.  With success the page is well-formed, the slot holds the
tuple, the old tuple is handed out and all others are kept; refused it changes nothing. -/
def UpdatesOnly (p : PageData) (tuple : List UInt8) (i : ℕ) : Prop :=
  ∃ r q, updateTuple p tuple i = .ok (r, q) ∧
    match r with
    | some old => WellFormed q ∧ getTupleSize q i = tuple.length ∧ tupleBytes q i = tuple ∧
        old = tupleBytes p i ∧ KeepsOthers p i q
    | none => q = p

theorem updatesOnly_of_refused (lt : (i : ℤ) < getTupleCount p) (full : ¬ Fits p tuple i) :
    UpdatesOnly p tuple i := ⟨none, p, updateTuple_refused lt full, rfl⟩

theorem updatesOnly_iff_noMarkBelow (h : WellFormed p) (lt : (i : ℤ) < getTupleCount p)
    (fits : Fits p tuple i) (pos : 0 < tuple.length) :
    UpdatesOnly p tuple i ↔ NoMarkBelow p tuple i := by
  obtain ⟨q, hr, hq⟩ := updateTuple_wellFormed h lt fits
  constructor
  · rintro ⟨r, q', hr', updated⟩
    rw [hr] at hr'
    cases hr'
    exact hq.noMarkBelow h pos updated.1
  · intro below
    refine ⟨_, q, hr, hq.wellFormed h below pos, ?_, hq.tupleBytes h pos, rfl,
      hq.keepsOthers h below pos⟩
    rw [hq.size i lt, if_pos rfl]

/-- `UpdateTuple` works on a well-formed page unless it changes the size of a tuple that has a
mark-deleted one below it. -/
theorem updatesOnly_iff (h : WellFormed p) (lt : (i : ℤ) < getTupleCount p)
    (live : 0 < getTupleSize p i) (pos : 0 < tuple.length) :
    UpdatesOnly p tuple i ↔
      getFreeSpaceSize p < tuple.length - getTupleSize p i ∨ NoMarkBelow p tuple i := by
  by_cases room : getFreeSpaceSize p < tuple.length - getTupleSize p i
  · have full : ¬ Fits p tuple i := fun fits => absurd fits.2 (not_le.2 room)
    exact iff_of_true (updatesOnly_of_refused lt full) (.inl room)
  · rw [updatesOnly_iff_noMarkBelow h lt ⟨live, not_lt.1 room⟩ pos]
    exact ⟨.inr, fun hc => hc.resolve_left room⟩

theorem updatesOnly_iff_twoTuples : UpdatesOnly twoTuples [4, 5] 0 :=
  (updatesOnly_iff wellFormed_twoTuples (by decide +kernel) (by decide +kernel) (by decide)).2
    (.inr (.inr fun j hj mark => by
      have hcount : getTupleCount twoTuples = 2 := by decide +kernel
      have hj : j < 2 := by omega
      interval_cases j
      · exact absurd mark (by decide +kernel)
      · exact absurd mark (by decide +kernel)))

/-- The tuple of slot 1 is mark-deleted and lies below that of slot 0; an update of slot 0 to two
bytes moves it up and leaves its offset below the free space pointer. -/
theorem not_updatesOnly : ¬ ∀ (p : PageData) (tuple : List UInt8) (i : ℕ), WellFormed p →
    (i : ℤ) < getTupleCount p → 0 < getTupleSize p i → 0 < tuple.length →
      UpdatesOnly p tuple i := by
  intro h
  have wf : WellFormed (withMark twoTuples 1) := wellFormed_twoTuples.withMark (by decide +kernel)
  have lt : ((0 : ℕ) : ℤ) < getTupleCount (withMark twoTuples 1) := by decide +kernel
  have fits : Fits (withMark twoTuples 1) [4, 5] 0 := ⟨by decide +kernel, by decide +kernel⟩
  have only := h _ [4, 5] 0 wf lt fits.1 (by decide)
  rcases (updatesOnly_iff_noMarkBelow wf lt fits (by decide)).1 only with same | below
  · exact absurd same (by decide +kernel)
  · exact absurd (below 1 (by decide +kernel) (by decide +kernel)) (by decide +kernel)

/-! ## Pages with the same tuples -/

theorem SameTuples.refl (p : PageData) : SameTuples p p :=
  ⟨rfl, le_rfl, fun _ hj => (if_pos hj).symm, fun _ _ => rfl, fun _ _ => rfl⟩

theorem SameTuples.used (h : SameTuples p q) : Used q j ↔ Used p j := by
  have hcount := h.count
  constructor
  · rintro ⟨hlt, hs⟩
    rw [h.size j hlt] at hs
    split_ifs at hs with hp
    · exact ⟨hp, hs⟩
    · exact absurd rfl hs
  · rintro ⟨hlt, hs⟩
    have hq : (j : ℤ) < getTupleCount q := by omega
    exact ⟨hq, by rw [h.size j hq, if_pos hlt]; exact hs⟩

theorem SameTuples.size_used (h : SameTuples p q) (hj : Used p j) :
    getTupleSize q j = getTupleSize p j := by
  rw [h.size j (h.used.2 hj).1, if_pos hj.1]

theorem SameTuples.trans {r : PageData} (h : SameTuples p q) (h' : SameTuples q r) :
    SameTuples p r := by
  have hcount := h.count
  have hcount' := h'.count
  refine ⟨by rw [h'.free, h.free], by omega, fun j hj => ?_, fun j hj => ?_, fun a ha => ?_⟩
  · rw [h'.size j hj]
    split_ifs with hq hp hp
    · rw [h.size j hq, if_pos hp]
    · rw [h.size j hq, if_neg hp]
    · omega
    · rfl
  · rw [h'.offset j (h.used.2 hj), h.offset j hj]
  · rw [h'.bytes a (by rw [h.free]; exact ha), h.bytes a ha]

/-- Only bytes of the header differ. -/
theorem sameTuples_of_get (sound : Sound p) (h : ∀ a, 16 ≤ a → q.get a = p.get a) :
    SameTuples p q := by
  have hcount : getTupleCount q = getTupleCount p :=
    getTupleCount_congr fun a lo _ => h a (by omega)
  have hdir := sound.directory
  have nonneg := sound.count
  refine ⟨getFreeSpacePointer_congr fun a lo _ => h a lo, hcount.ge, fun j hj => ?_, fun j _ => ?_,
    fun a ha => h a (by omega)⟩
  · rw [hcount] at hj
    rw [if_pos hj]
    exact getTupleSize_congr fun a lo _ => h a (by omega)
  · exact getTupleOffset_congr fun a lo _ => h a (by omega)

theorem SameTuples.wellFormed (h : SameTuples p q) (wf : WellFormed p) (sound : Sound q) :
    WellFormed q := by
  refine ⟨sound, ?_⟩
  rw [h.free]
  exact wf.tiles.congr (fun j => h.used) h.offset fun j hj => by rw [h.size_used hj]

theorem SameTuples.layout (h : SameTuples p q) (layout : Layout p place) (sound : Sound q) :
    Layout q place := by
  refine ⟨sound, ?_, fun j hj live => ?_, fun j hj => ?_⟩
  · rw [h.free]
    exact layout.tiles.congr (fun j => h.used) (fun _ _ => rfl) fun j hj => by rw [h.size_used hj]
  · have hj' := h.used.1 ⟨hj, live.ne'⟩
    rw [h.size_used hj'] at live
    rw [h.offset j hj', layout.live j hj'.1 live]
  · have hj' := h.used.1 hj
    rw [h.offset j hj']
    exact layout.nonneg j hj'

/-- `GetTuple` does not see the difference. -/
theorem SameTuples.getTuple (h : SameTuples p q) (layout : Layout p place) (sound : Sound q)
    (slotNum : ℤ) : getTuple q slotNum = getTuple p slotNum := by
  have hcount := h.count
  have nonneg := layout.count
  have hdir := layout.directory
  by_cases hneg : slotNum < 0
  · rw [getTuple_negative sound.count hneg, getTuple_negative nonneg hneg]
  obtain ⟨j, rfl⟩ : ∃ j : ℕ, slotNum = j := ⟨slotNum.toNat, by omega⟩
  by_cases hp : (j : ℤ) < getTupleCount p
  · have hq : (j : ℤ) < getTupleCount q := by omega
    have hsize : getTupleSize q j = getTupleSize p j := by rw [h.size j hq, if_pos hp]
    have hbytes (live : 0 < getTupleSize p j) : tupleBytes q j = tupleBytes p j := by
      have hb := layout.bounds hp live
      unfold tupleBytes
      rw [h.offset j ⟨hp, live.ne'⟩, hsize]
      exact Mem.slice_congr fun a _ => h.bytes _ (by omega)
    rw [getTuple_inside layout.toSound hp (layout.bounds hp), getTuple_inside sound hq, hsize]
    · split_ifs with live
      · rw [hbytes live]
      · rfl
    · rw [hsize]
      intro live
      rw [h.free, h.offset j ⟨hp, live.ne'⟩]
      exact layout.bounds hp live
  · rw [getTuple_beyond (not_lt.1 hp)]
    by_cases hq : (j : ℤ) < getTupleCount q
    · have hsize : getTupleSize q j = 0 := by rw [h.size j hq, if_neg hp]
      rw [getTuple_inside sound hq (by omega), if_neg (by omega)]
    · rw [getTuple_beyond (not_lt.1 hq)]

/-- `ApplyDelete` undoes `InsertTuple`, unless it takes a mark-deleted tuple with a wrong offset for
one below the inserted tuple. -/
theorem SameTuples.undo_insert (layout : Layout p place) (hp : Inserted p tuple i p')
    (pos : 0 < tuple.length) (marks : ∀ j : ℕ, (j : ℤ) < getTupleCount p → getTupleSize p j < 0 →
      getFreeSpacePointer p' ≤ getTupleOffset p j)
    (h : SameTuples p' q) (hq : Removed q i q') : SameTuples p q' := by
  have used : Used p' i := (hp.used layout.toSound pos).2 (.inl rfl)
  have hsize : |getTupleSize q i| = tuple.length := by
    rw [h.size_used used, hp.size, abs_of_nonneg (by omega)]
  have hoffset : getTupleOffset q i = getFreeSpacePointer p' := by
    rw [h.offset i used, hp.offset]
  have hfree := hp.free
  have hcount := hp.count
  have hcount' := h.count
  have nonneg := layout.count
  have hdir := layout.directory
  have room := hp.room
  refine ⟨?_, ?_, ?_, ?_, ?_⟩
  · rw [hq.free, h.free, hsize, hfree]
    omega
  · rw [hq.count]
    omega
  · intro j hj
    rw [hq.count] at hj
    rw [hq.size j hj]
    by_cases hji : j = i
    · subst hji
      rw [if_pos rfl]
      split_ifs with hlt
      · rcases hp.slot with hs | hs
        · omega
        · exact hs.2.symm
      · rfl
    · rw [if_neg hji, h.size j hj]
      have hslot := hp.slot
      by_cases hlt : (j : ℤ) < getTupleCount p
      · rw [if_pos (by omega), if_pos hlt]
        exact (hp.others j hji (by omega)).2
      · rw [if_neg (by omega), if_neg hlt]
  · intro j hj
    have hji : j ≠ i := by
      rintro rfl
      exact hp.not_used hj
    have used' : Used p' j := (hp.used layout.toSound pos).2 (.inr hj)
    have hb : getFreeSpacePointer p' ≤ getTupleOffset p j := by
      rcases lt_or_gt_of_ne hj.2 with hneg | live
      · exact marks j hj.1 hneg
      · have := (layout.bounds hj.1 live).1
        omega
    have hoff : getTupleOffset q j = getTupleOffset p j := by
      rw [h.offset j used', (hp.others j hji used'.1).1]
    rw [hq.offset j (h.used.2 used').1 hji (by omega), hoff, hoffset, if_neg (by omega)]
  · intro a ha
    rw [hq.bytes a (by rw [hsize, hoffset]; omega), h.bytes a (by omega), hp.bytes a ha]

/-- `RollbackDelete` undoes `MarkDelete` of a live tuple. -/
theorem SameTuples.undo_mark (hp : Resized p i (-|getTupleSize p i|) p')
    (live : 0 < getTupleSize p i) (h : SameTuples p' q)
    (hq : Resized q i |getTupleSize q i| q') : SameTuples p q' := by
  have hsize : getTupleSize p' i = -getTupleSize p i := by
    rw [hp.size, if_pos rfl, abs_of_pos live]
  have used (j : ℕ) : Used p' j ↔ Used p j :=
    hp.used (by rw [ne_eq, neg_eq_zero, abs_eq_zero])
  have hqi : |getTupleSize q i| = getTupleSize p i := by
    rw [h.size_used ((used i).2 ⟨hp.slot, live.ne'⟩), hsize, abs_neg, abs_of_pos live]
  refine ⟨by rw [hq.free, h.free, hp.free], by rw [hq.count, ← hp.count]; exact h.count, ?_, ?_, ?_⟩
  · intro j hj
    rw [hq.count] at hj
    rw [hq.size, hqi]
    split_ifs with hji hlt hlt
    · rw [hji]
    · rw [hji] at hlt
      exact absurd hp.slot hlt
    · rw [h.size j hj, hp.count, if_pos hlt, hp.size, if_neg hji]
    · rw [h.size j hj, hp.count, if_neg hlt]
  · intro j hj
    rw [hq.offset, h.offset j ((used j).2 hj), hp.offset]
  · intro a ha
    rw [hq.bytes a (by rw [h.free, hp.free]; exact ha), h.bytes a (by rw [hp.free]; exact ha),
      hp.bytes a ha]

/-- `UpdateTuple` with the old tuple undoes `UpdateTuple`. -/
theorem SameTuples.undo_update (layout : Layout p place) (hp : Updated p tuple i p')
    (pos : 0 < tuple.length) (h : SameTuples p' q) (hq : Updated q (tupleBytes p i) i q') :
    SameTuples p q' := by
  obtain ⟨old, hold⟩ : ∃ old, old = tupleBytes p i := ⟨_, rfl⟩
  rw [← hold] at hq
  have live := hp.live
  have hlen : (old.length : ℤ) = getTupleSize p i := by
    rw [hold, tupleBytes, Mem.length_slice]
    omega
  have usedSelf : Used p' i := (hp.used pos).2 hp.used_self
  have hsize : getTupleSize q i = tuple.length := by
    rw [h.size_used usedSelf, hp.size i hp.slot, if_pos rfl]
  have hself : getTupleOffset q i = getTupleOffset p i + getTupleSize p i - tuple.length := by
    rw [h.offset i usedSelf, hp.offset_layout_self layout pos]
  have hfree : getFreeSpacePointer q = getFreeSpacePointer p + getTupleSize p i - tuple.length := by
    rw [h.free, hp.free]
  have hcount := hp.count
  have hcount' := h.count
  have habove := hp.above
  have hinside : getTupleOffset p i + getTupleSize p i ≤ 512 := hp.inside
  have hroom := hp.room
  have nonneg := layout.count
  have hdir := layout.directory
  refine ⟨by rw [hq.free, hfree, hsize, hlen]; omega, by rw [hq.count]; omega, ?_, ?_, ?_⟩
  · intro j hj
    rw [hq.count] at hj
    rw [hq.size j hj]
    by_cases hji : j = i
    · subst hji
      rw [if_pos rfl, if_pos hp.slot, hlen]
    · rw [if_neg hji, h.size j hj, hp.count]
      split_ifs with hlt
      · rw [hp.size j hlt, if_neg hji]
      · rfl
  · intro j hj
    have used' : Used p' j := (hp.used pos).2 hj
    have hb := layout.nonneg j hj
    by_cases hji : j = i
    · subst hji
      rw [hq.offset j (h.used.2 used').1 (by omega), hq.size j (h.used.2 used').1, if_pos rfl,
        hself, hsize, hlen, if_pos ⟨live, by omega⟩]
      omega
    · have hoff := h.offset j used'
      have hsz : getTupleSize q j = getTupleSize p j := by
        rw [h.size_used used', hp.size j hj.1, if_neg hji]
      rw [hp.offset_layout layout hji hj] at hoff
      by_cases hlive : 0 < getTupleSize p j
      · have side := layout.tiles.below_or_behind hp.used_self hj hji
        have hbounds := (layout.bounds hj.1 hlive).1
        simp only [abs_of_pos live] at side
        rw [← layout.live j hj.1 hlive, ← layout.live i hp.slot live] at side hoff
        simp only [hlive, true_and] at hoff
        have hlow : -512 ≤ getTupleOffset q j := by
          rw [hoff]
          split_ifs <;> omega
        rw [hq.offset j (h.used.2 used').1 hlow, hq.size j (h.used.2 used').1, if_neg hji, hsz, hoff,
          hself, hsize, hlen]
        simp only [hlive, true_and]
        split_ifs <;> omega
      · rw [if_neg (fun hc => hlive hc.1)] at hoff
        rw [hq.offset j (h.used.2 used').1 (by omega), hq.size j (h.used.2 used').1, if_neg hji, hsz,
          if_neg (fun hc => hlive hc.1), hoff]
  · -- the bytes below the tuple, of the tuple, and behind it
    intro a ha
    by_cases hlt : (a : ℤ) < getTupleOffset p i
    · obtain ⟨b, hb⟩ : ∃ b : ℕ, (b : ℤ) = a + getTupleSize p i - tuple.length :=
        ⟨((a : ℤ) + getTupleSize p i - tuple.length).toNat, by omega⟩
      rw [hq.moved b a (by omega) (by omega) (by omega), h.bytes b (by rw [hp.free]; omega),
        hp.moved a b ha hlt hb]
    · by_cases hend : (a : ℤ) < getTupleOffset p i + getTupleSize p i
      · have hbytes := hq.tuple
        rw [hself, hsize, hlen, sub_add_cancel, add_sub_cancel_right] at hbytes
        obtain ⟨b, hb⟩ : ∃ b : ℕ, a = (getTupleOffset p i).toNat + b :=
          ⟨a - (getTupleOffset p i).toNat, by omega⟩
        have hget : (q'.slice (getTupleOffset p i).toNat old.length).getD b 0 = old.getD b 0 := by
          rw [hbytes]
        rw [Mem.getD_slice _ (by omega), hold, tupleBytes, Mem.getD_slice _ (by omega), ← hb] at hget
        exact hget
      · rw [hq.bytes a (by omega), h.bytes a (by rw [hp.free]; omega), hp.bytes a (by omega)]

end TablePage

end ScuDb
