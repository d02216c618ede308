import ScuDb.Config
import ScuDb.Lib.Stateful

/-!
# The pool as a single client sees it

What the table heap and the index use of the buffer pool: pages by id, the pins the client holds,
the page latches it holds, and the pages it changed and did not give back as dirty yet.  A call
that needs a frame fails when every frame holds a pinned page.  Pages are of any type; a new or
deleted page holds the default value.
-/

namespace ScuDb

open Stateful

/-- A page latch, as seen by the only running thread. -/
structure Latch where
  readers : ℕ := 0
  writer : Bool := false
deriving DecidableEq

/-- A buffer pool with `frames` frames (`none` for a pool that never runs out of them). -/
structure PagePool (α : Type) where
  frames : Option ℕ := none
  content : PageId → α
  pinned : Multiset PageId := 0
  changed : PageId → Bool := fun _ => false
  latch : PageId → Latch := fun _ => {}
  nextPageId : ℤ := 0

/-- Computations over a pool. -/
abbrev PoolM (α β : Type) := StateT (PagePool α) (Except Fault) β

namespace PagePool

variable {α β : Type}

/-- Every frame holds a pinned page. -/
def full (pool : PagePool α) : Bool :=
  match pool.frames with
  | none => false
  | some frames => frames ≤ pool.pinned.toFinset.card

/-- `FetchPage`: `false` for `nullptr`. -/
def fetchPage (p : PageId) : PoolM α Bool := fun pool =>
  if pool.full ∧ p ∉ pool.pinned then .ok (false, pool)
  else .ok (true, { pool with pinned := p ::ₘ pool.pinned })

/-- `NewPage`: the id of a new pinned page, or `none` for `nullptr`. -/
def newPage [Inhabited α] : PoolM α (Option PageId) := fun pool =>
  if pool.full then .ok (none, pool)
  else if pool.nextPageId < 2147483647 then
    .ok (some pool.nextPageId,
      { pool with
        content := Function.update pool.content pool.nextPageId default
        changed := Function.update pool.changed pool.nextPageId false
        pinned := pool.nextPageId ::ₘ pool.pinned
        nextPageId := pool.nextPageId + 1 })
  else .error .overflow

/-- `UnpinPage`. -/
def unpinPage (p : PageId) (isDirty : Bool) : PoolM α Unit := fun pool =>
  if p ∉ pool.pinned then .error .assertion
  else if pool.changed p ∧ ¬ isDirty ∧ pool.pinned.count p = 1 then .error .lostUpdate
  else .ok ((), { pool with
    pinned := pool.pinned.erase p
    changed := if isDirty then Function.update pool.changed p false else pool.changed })

/-- `DeletePage`. -/
def deletePage [Inhabited α] (p : PageId) : PoolM α Bool := fun pool =>
  if p ∈ pool.pinned then .ok (false, pool)
  else .ok (true, { pool with content := Function.update pool.content p default })

/-- The page behind a pointer. -/
def getPage (p : PageId) : PoolM α α := fun pool => .ok (pool.content p, pool)

/-- A change to the page behind a pointer. -/
def setPage (p : PageId) (page : α) : PoolM α Unit := fun pool =>
  .ok ((), { pool with
    content := Function.update pool.content p page
    changed := Function.update pool.changed p true })

/-- `RLatch`. -/
def rLatch (p : PageId) : PoolM α Unit := fun pool =>
  if (pool.latch p).writer then .error .blocked
  else .ok ((), { pool with
    latch := Function.update pool.latch p { pool.latch p with readers := (pool.latch p).readers + 1 } })

/-- `WLatch`. -/
def wLatch (p : PageId) : PoolM α Unit := fun pool =>
  if (pool.latch p).writer ∨ 0 < (pool.latch p).readers then .error .blocked
  else .ok ((), { pool with
    latch := Function.update pool.latch p { pool.latch p with writer := true } })

/-- `RUnlatch`. -/
def rUnlatch (p : PageId) : PoolM α Unit := fun pool =>
  if (pool.latch p).readers = 0 then .error .overflow
  else .ok ((), { pool with
    latch := Function.update pool.latch p { pool.latch p with readers := (pool.latch p).readers - 1 } })

/-- `WUnlatch`. -/
def wUnlatch (p : PageId) : PoolM α Unit := fun pool =>
  .ok ((), { pool with
    latch := Function.update pool.latch p { pool.latch p with writer := false } })

end PagePool

end ScuDb
