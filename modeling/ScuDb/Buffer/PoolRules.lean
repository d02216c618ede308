import ScuDb.Buffer.PagePool

/-!
# Rules for the pool calls of a single client

What a fetch, a latch, a change and a release of one page do to a pool at rest.
-/

namespace ScuDb

namespace PagePool

variable {α : Type} {pool : PagePool α} {p : PageId}

/-- The pool with another page behind `p`. -/
def put (pool : PagePool α) (p : PageId) (page : α) : PagePool α :=
  { pool with content := Function.update pool.content p page }

/-- At least `k` frames hold no pinned page. -/
def Room (pool : PagePool α) (k : ℕ) : Prop :=
  ∀ frames, pool.frames = some frames → pool.pinned.toFinset.card + k ≤ frames

theorem not_full (room : pool.Room 1) : pool.full = false := by
  unfold full
  split
  · rfl
  · next frames h =>
    have := room frames h
    exact decide_eq_false (by omega)

theorem fetchPage_ok (room : pool.Room 1) (p : PageId) :
    fetchPage p pool = .ok (true, { pool with pinned := p ::ₘ pool.pinned }) := by
  unfold fetchPage
  rw [if_neg]
  simp [not_full room]

theorem wLatch_ok (h : pool.latch p = {}) :
    wLatch p pool = .ok ((), { pool with latch := Function.update pool.latch p { writer := true } }) := by
  unfold wLatch
  rw [if_neg (by simp [h]), h]

/-- The pool while the client holds page `p` pinned and write-latched. -/
def hold (pool : PagePool α) (p : PageId) (changed : PageId → Bool) : PagePool α :=
  { pool with
    pinned := p ::ₘ pool.pinned
    changed := changed
    latch := Function.update pool.latch p { writer := true } }

/-- Fetching and latching a free page. -/
theorem hold_ok (room : pool.Room 1) (h : pool.latch p = {}) :
    fetchPage p pool = .ok (true, { pool with pinned := p ::ₘ pool.pinned }) ∧
      wLatch p { pool with pinned := p ::ₘ pool.pinned } = .ok ((), hold pool p pool.changed) :=
  ⟨fetchPage_ok room p, wLatch_ok h⟩

/-- Releasing a held page that is clean, or given back as dirty. -/
theorem release_ok {changed : PageId → Bool} (isDirty : Bool) (h : pool.latch p = {})
    (clean : pool.changed p = false) (hc : changed = pool.changed ∨
      changed = Function.update pool.changed p true ∧ isDirty = true) :
    ∃ s, wUnlatch p (hold pool p changed) = .ok ((), s) ∧
      unpinPage p isDirty s = .ok ((), pool) := by
  refine ⟨_, rfl, ?_⟩
  have hlatch : Function.update (Function.update pool.latch p { writer := true }) p {} =
      pool.latch := by
    rw [Function.update_idem, ← h, Function.update_eq_self]
  have hself : Function.update pool.changed p false = pool.changed := by
    rw [← clean, Function.update_eq_self]
  unfold unpinPage
  simp only [hold, Multiset.mem_cons_self, not_true_eq_false, if_false, Function.update_self]
  rcases hc with rfl | ⟨rfl, rfl⟩
  · simp [clean, hlatch, hself]
  · simp [hlatch, hself]

/-- Nobody holds a latch, no change is outstanding, and two frames are free. -/
structure Quiet (pool : PagePool α) : Prop where
  room : pool.Room 2
  latch : ∀ p, pool.latch p = {}
  clean : ∀ p, pool.changed p = false

theorem Room.one (room : pool.Room 2) : pool.Room 1 := by
  intro frames h
  have := room frames h
  omega

theorem Quiet.room_one (quiet : Quiet pool) : pool.Room 1 := Room.one quiet.room

/-- Nobody holds a write latch, every outstanding change is on a pinned page, and two frames are
free. -/
structure Readable (pool : PagePool α) : Prop where
  room : pool.Room 2
  writer : ∀ p, (pool.latch p).writer = false
  held : ∀ p, pool.changed p = true → p ∈ pool.pinned

theorem Quiet.readable (quiet : Quiet pool) : Readable pool where
  room := quiet.room
  writer p := by rw [quiet.latch]
  held p h := by simp [quiet.clean p] at h

theorem Quiet.put (quiet : Quiet pool) (p : PageId) (page : α) : Quiet (pool.put p page) :=
  ⟨quiet.room, quiet.latch, quiet.clean⟩

/-- One more pin leaves one frame less. -/
theorem Room.pin {k : ℕ} (room : pool.Room (k + 1)) {pool' : PagePool α}
    (frames : pool'.frames = pool.frames) (pinned : pool'.pinned = p ::ₘ pool.pinned) :
    pool'.Room k := by
  intro n h
  have := room n (frames ▸ h)
  have hcard : (p ::ₘ pool.pinned).toFinset.card ≤ pool.pinned.toFinset.card + 1 := by
    rw [Multiset.toFinset_cons]
    exact Finset.card_insert_le _ _
  rw [pinned]
  omega

theorem Quiet.hold_room (quiet : Quiet pool) (changed : PageId → Bool) :
    (hold pool p changed).Room 1 := Room.pin quiet.room rfl rfl

end PagePool

end ScuDb
