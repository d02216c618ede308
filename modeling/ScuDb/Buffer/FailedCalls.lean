import ScuDb.Buffer.Availability

/-!
# Calls that fail

`UnpinPage`, `FlushPage` and `DeletePage` of any page id.  A call that returns `false` changes
nothing; an `UnpinPage` of an unpinned resident page does not return, and a `FlushPage` refuses the
invalid page id even if a `FetchPage` made it resident.
-/

namespace ScuDb.BufferPoolManager

open ByteMem

variable {n : ℕ}

/-- The pin count of a resident page. -/
def pinsOf (b : BufferPoolManager n) (p : PageId) : Option ℤ :=
  (b.pageTable.find p).map fun f => (b.pages f).pinCount

/-- The three calls return, with `false` exactly where they should, and then nothing has changed. -/
structure Refuses (b : BufferPoolManager n) (p : PageId) (isDirty : Bool) : Prop where
  unpin : ∃ r b', b.unpinPage p isDirty = .ok (r, b') ∧
    (r = false ↔ ∀ pins, b.pinsOf p = some pins → pins ≤ 0) ∧ (r = false → b' = b)
  flush : ((b.flushPage p).1 = false ↔ b.pinsOf p = none) ∧
    ((b.flushPage p).1 = false → (b.flushPage p).2 = b)
  delete : ((b.deletePage p).1 = false ↔ ∃ pins, b.pinsOf p = some pins ∧ 0 < pins) ∧
    ((b.deletePage p).1 = false → (b.deletePage p).2 = b)

variable {b : BufferPoolManager n} {p : PageId} {isDirty : Bool}

/-- A page that is not resident. -/
theorem refuses_absent (absent : b.pageTable.find p = none) : Refuses b p isDirty := by
  have pins : b.pinsOf p = none := by simp [pinsOf, absent]
  refine ⟨⟨false, b, ?_, ?_, fun _ => rfl⟩, ⟨?_, fun _ => ?_⟩, ?_, fun h => ?_⟩
  · simp [unpinPage, absent]
  · simp [pins]
  · simp [flushPage, absent, pins]
  · simp [flushPage, absent]
  · simp [deletePage, absent, pins]
  · simp [deletePage, absent] at h

/-- A pinned page. -/
theorem refuses_pinned {f : Fin n} (found : b.pageTable.find p = some f)
    (pinned : 0 < (b.pages f).pinCount) (named : (b.pages f).pageId ≠ invalidPageId) :
    Refuses b p isDirty := by
  have pins : b.pinsOf p = some (b.pages f).pinCount := by simp [pinsOf, found]
  have flushed : (b.flushPage p).1 = true := by
    simp only [flushPage, found, if_neg named]
    split_ifs <;> rfl
  have deleted : b.deletePage p = (false, b) := by
    simp [deletePage, found, pinned]
  refine ⟨⟨true, _, unpinPage_of_pinned found pinned isDirty, ?_, nofun⟩, ⟨?_, ?_⟩, ?_, ?_⟩
  · simp [pins, pinned]
  · simp [flushed, pins]
  · simp [flushed]
  · simp [deleted, pins, pinned]
  · simp [deleted]

/-- In every reachable state with pin counts below 2^31 the three calls answer as they should, and
change nothing when they refuse, exactly if the page is not resident, or pinned and not the invalid
page. -/
theorem reached_refuses_iff (h : Reached n b) (p : PageId) (isDirty : Bool) :
    Refuses b p isDirty ↔
      ∀ pins, b.pinsOf p = some pins → 0 < pins ∧ p ≠ invalidPageId := by
  have inv := partition_of_reached h
  cases found : b.pageTable.find p with
  | none =>
    apply iff_of_true (refuses_absent found)
    simp [pinsOf, found]
  | some f =>
    have pins : b.pinsOf p = some (b.pages f).pinCount := by simp [pinsOf, found]
    have named : (b.pages f).pageId = p := inv.named p f found
    constructor
    · intro refuses k hk
      obtain rfl : (b.pages f).pinCount = k := Option.some.inj (pins.symm.trans hk)
      constructor
      · by_contra unpinned
        obtain ⟨r, b', run, -⟩ := refuses.unpin
        simp [unpinPage, found, not_lt.1 unpinned] at run
      · rintro rfl
        have refused : (b.flushPage invalidPageId).1 = false := by
          simp [flushPage, found, named]
        have absent := refuses.flush.1.1 refused
        rw [pins] at absent
        cases absent
    · intro good
      obtain ⟨pinned, valid⟩ := good _ pins
      exact refuses_pinned found pinned (named.symm ▸ valid)

/-- The second `UnpinPage` of a page that was pinned once. -/
theorem not_refuses_unpinned :
    ¬ ∀ b : BufferPoolManager 1, Reached 1 b → ∀ p isDirty, Refuses b p isDirty := by
  intro claim
  have first := @Reached.step 1 (new 1) _ .newPage .new rfl
  have unpinned := @Reached.step 1 _ _ (.unpinPage 0 false) first rfl
  obtain ⟨r, b', run, -⟩ := (claim _ unpinned 0 true).unpin
  cases run

/-- A pool of two frames: a page that is still pinned beside one that is not, and a page that is not
resident. -/
theorem reached_refuses_pinned : ∃ b : BufferPoolManager 2, Reached 2 b ∧
    b.pinsOf 1 = some 0 ∧ Refuses b 0 true ∧ Refuses b 7 false := by
  have first := @Reached.step 2 (new 2) _ .newPage .new rfl
  have second := @Reached.step 2 _ _ .newPage first rfl
  have unpinned := @Reached.step 2 _ _ (.unpinPage 1 true) second rfl
  refine ⟨_, unpinned, rfl, ?_, ?_⟩
  · apply (reached_refuses_iff unpinned 0 true).2
    intro pins hp
    obtain rfl : 1 = pins := Option.some.inj hp
    exact ⟨by decide, by decide⟩
  · apply (reached_refuses_iff unpinned 7 false).2
    intro pins hp
    cases hp

end ScuDb.BufferPoolManager
