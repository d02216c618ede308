import ScuDb.Buffer.PagePool
import ScuDb.Buffer.PoolRequests

/-!
# Clients with page pointers

The table heap and the index are written for `PagePool`, where a page is what its id names.  In the
program they hold a `Page *`, the frame that `FetchPage` or `NewPage` returned.  `Machine n P` is a
client of a pool `P` together with the pointers it holds and the latches of the frames.  A client
that keeps to the protocol gets the same replies in both, whatever pages are evicted meanwhile.
-/

namespace ScuDb

open ByteMem

/-- A call of a client, or an access through one of its pointers. -/
inductive PoolCall
  | fetchPage (pageId : PageId)
  | newPage
  | unpinPage (pageId : PageId) (isDirty : Bool)
  | deletePage (pageId : PageId)
  | getPage (pageId : PageId)
  | setPage (pageId : PageId) (page : PageData)
  | rLatch (pageId : PageId)
  | wLatch (pageId : PageId)
  | rUnlatch (pageId : PageId)
  | wUnlatch (pageId : PageId)

/-- What a call returns. -/
def PoolCall.Reply : PoolCall → Type
  | .fetchPage _ => Bool
  | .newPage => Option PageId
  | .deletePage _ => Bool
  | .getPage _ => PageData
  | .unpinPage _ _ => Unit
  | .setPage _ _ => Unit
  | .rLatch _ => Unit
  | .wLatch _ => Unit
  | .rUnlatch _ => Unit
  | .wUnlatch _ => Unit

/-! ## Pages by their ids -/

/-- The pages by their ids, those that were deleted, and those that were never given back as dirty. -/
structure ClientPool where
  pool : PagePool PageData
  deleted : PageId → Bool := fun _ => false
  fresh : PageId → Bool := fun _ => false

namespace ClientPool

/-- An empty database, and a pool of `n` frames. -/
def new (n : ℕ) : ClientPool := { pool := { frames := some n, content := fun _ => Mem.zero } }

/-- A call of the pool, after which `note` writes down what it did. -/
def noting {β : Type} (call : PoolM PageData β) (note : β → ClientPool → ClientPool) :
    StateT ClientPool (Except Fault) β := fun s => do
  let (r, pool) ← call s.pool
  return (r, note r { s with pool := pool })

def onPool {β : Type} (call : PoolM PageData β) : StateT ClientPool (Except Fault) β :=
  noting call fun _ s => s

def noteNew (r : Option PageId) (s : ClientPool) : ClientPool :=
  { s with fresh := r.elim s.fresh fun p => Function.update s.fresh p true }

def noteUnpin (p : PageId) (isDirty : Bool) (_ : Unit) (s : ClientPool) : ClientPool :=
  { s with fresh := if isDirty then Function.update s.fresh p false else s.fresh }

def noteDelete (p : PageId) (r : Bool) (s : ClientPool) : ClientPool :=
  { s with deleted := if r then Function.update s.deleted p true else s.deleted }

def handle : Script.Handler PoolCall.Reply ClientPool Fault
  | .fetchPage p => onPool (PagePool.fetchPage p)
  | .newPage => noting PagePool.newPage noteNew
  | .unpinPage p isDirty => noting (PagePool.unpinPage p isDirty) (noteUnpin p isDirty)
  | .deletePage p => noting (PagePool.deletePage p) (noteDelete p)
  | .getPage p => onPool (PagePool.getPage p)
  | .setPage p page => onPool (PagePool.setPage p page)
  | .rLatch p => onPool (PagePool.rLatch p)
  | .wLatch p => onPool (PagePool.wLatch p)
  | .rUnlatch p => onPool (PagePool.rUnlatch p)
  | .wUnlatch p => onPool (PagePool.wUnlatch p)

section Results

variable {s s' : ClientPool} {p : PageId}

theorem of_noting {β : Type} (call : PoolM PageData β) (note : β → ClientPool → ClientPool) {r : β}
    (run : noting call note s = .ok (r, s')) :
    ∃ pool, call s.pool = .ok (r, pool) ∧ s' = note r { s with pool := pool } := by
  unfold noting at run
  cases hc : call s.pool with
  | error e =>
    rw [hc] at run
    cases run
  | ok x =>
    rw [hc] at run
    cases run
    exact ⟨x.2, rfl, rfl⟩

theorem of_fetchPage {r : Bool} (run : handle (.fetchPage p) s = .ok (r, s')) :
    ∃ pool, PagePool.fetchPage p s.pool = .ok (r, pool) ∧ s' = { s with pool := pool } :=
  of_noting (PagePool.fetchPage p) (fun _ s => s) run

theorem of_newPage {r : Option PageId} (run : handle .newPage s = .ok (r, s')) :
    ∃ pool, PagePool.newPage s.pool = .ok (r, pool) ∧ s' = { s with
      pool := pool
      fresh := r.elim s.fresh fun p => Function.update s.fresh p true } :=
  of_noting PagePool.newPage noteNew run

theorem of_unpinPage {isDirty : Bool} (run : handle (.unpinPage p isDirty) s = .ok ((), s')) :
    ∃ pool, PagePool.unpinPage p isDirty s.pool = .ok ((), pool) ∧ s' = { s with
      pool := pool
      fresh := if isDirty then Function.update s.fresh p false else s.fresh } :=
  of_noting (PagePool.unpinPage p isDirty) (noteUnpin p isDirty) run

theorem of_deletePage {r : Bool} (run : handle (.deletePage p) s = .ok (r, s')) :
    ∃ pool, PagePool.deletePage p s.pool = .ok (r, pool) ∧ s' = { s with
      pool := pool
      deleted := if r then Function.update s.deleted p true else s.deleted } :=
  of_noting (PagePool.deletePage p) (noteDelete p) run

/-- Nothing is created, deleted or given back. -/
structure Calm (s s' : ClientPool) : Prop where
  next : s'.pool.nextPageId = s.pool.nextPageId
  deleted : s'.deleted = s.deleted
  fresh : s'.fresh = s.fresh
  pinned : ∀ p ∈ s.pool.pinned, p ∈ s'.pool.pinned

theorem calm_of_onPool {β : Type} {op : PoolM PageData β} {r : β}
    (run : onPool op s = .ok (r, s'))
    (keeps : ∀ pool, op s.pool = .ok (r, pool) → pool.nextPageId = s.pool.nextPageId ∧
      ∀ p ∈ s.pool.pinned, p ∈ pool.pinned) : Calm s s' := by
  obtain ⟨pool, ran, rfl⟩ := of_noting op (fun _ s => s) run
  obtain ⟨next, pinned⟩ := keeps pool ran
  exact ⟨next, rfl, rfl, pinned⟩

/-- The calls that neither create nor delete a page nor give a pin back. -/
def IsCalm : PoolCall → Prop
  | .newPage => False
  | .unpinPage _ _ => False
  | .deletePage _ => False
  | _ => True

theorem calm_of_run {call : PoolCall} {r : call.Reply} (calm : IsCalm call)
    (run : handle call s = .ok (r, s')) : Calm s s' := by
  cases call with
  | newPage => exact calm.elim
  | unpinPage p isDirty => exact calm.elim
  | deletePage p => exact calm.elim
  | fetchPage p =>
    refine calm_of_onPool run fun pool ran => ?_
    unfold PagePool.fetchPage at ran
    split_ifs at ran <;> cases ran
    · exact ⟨rfl, fun _ mem => mem⟩
    · exact ⟨rfl, fun _ mem => Multiset.mem_cons_of_mem mem⟩
  | getPage p =>
    refine calm_of_onPool run fun pool ran => ?_
    cases ran
    exact ⟨rfl, fun _ mem => mem⟩
  | setPage p page =>
    refine calm_of_onPool run fun pool ran => ?_
    cases ran
    exact ⟨rfl, fun _ mem => mem⟩
  | rLatch p =>
    refine calm_of_onPool run fun pool ran => ?_
    unfold PagePool.rLatch at ran
    split_ifs at ran
    cases ran
    exact ⟨rfl, fun _ mem => mem⟩
  | wLatch p =>
    refine calm_of_onPool run fun pool ran => ?_
    unfold PagePool.wLatch at ran
    split_ifs at ran
    cases ran
    exact ⟨rfl, fun _ mem => mem⟩
  | rUnlatch p =>
    refine calm_of_onPool run fun pool ran => ?_
    unfold PagePool.rUnlatch at ran
    split_ifs at ran
    cases ran
    exact ⟨rfl, fun _ mem => mem⟩
  | wUnlatch p =>
    refine calm_of_onPool run fun pool ran => ?_
    cases ran
    exact ⟨rfl, fun _ mem => mem⟩

theorem newPage_result {r : Option PageId} (run : handle .newPage s = .ok (r, s')) :
    r = none ∧ s' = s ∨ r = some s.pool.nextPageId ∧
      s'.pool.nextPageId = s.pool.nextPageId + 1 ∧ s'.deleted = s.deleted ∧
      s'.fresh = Function.update s.fresh s.pool.nextPageId true ∧
      s'.pool.pinned = s.pool.nextPageId ::ₘ s.pool.pinned := by
  obtain ⟨pool, ran, rfl⟩ := of_newPage run
  unfold PagePool.newPage at ran
  split_ifs at ran <;> cases ran
  · exact .inl ⟨rfl, rfl⟩
  · exact .inr ⟨rfl, rfl, rfl, rfl, rfl⟩

theorem unpinPage_result {isDirty : Bool}
    (run : handle (.unpinPage p isDirty) s = .ok ((), s')) :
    p ∈ s.pool.pinned ∧ s'.pool.nextPageId = s.pool.nextPageId ∧ s'.deleted = s.deleted ∧
      s'.fresh = (if isDirty then Function.update s.fresh p false else s.fresh) ∧
      s'.pool.pinned = s.pool.pinned.erase p := by
  obtain ⟨pool, ran, rfl⟩ := of_unpinPage run
  unfold PagePool.unpinPage at ran
  by_cases held : p ∈ s.pool.pinned
  · rw [if_neg (not_not.2 held)] at ran
    by_cases lost : s.pool.changed p ∧ ¬ isDirty ∧ s.pool.pinned.count p = 1
    · rw [if_pos lost] at ran
      cases ran
    · rw [if_neg lost] at ran
      cases ran
      exact ⟨held, rfl, rfl, rfl, rfl⟩
  · rw [if_pos held] at ran
    cases ran

theorem deletePage_result {r : Bool} (run : handle (.deletePage p) s = .ok (r, s')) :
    s'.pool.nextPageId = s.pool.nextPageId ∧ s'.fresh = s.fresh ∧
      s'.deleted = (if r then Function.update s.deleted p true else s.deleted) ∧
      s'.pool.pinned = s.pool.pinned := by
  obtain ⟨pool, ran, rfl⟩ := of_deletePage run
  unfold PagePool.deletePage at ran
  split_ifs at ran <;> cases ran <;> exact ⟨rfl, rfl, rfl, rfl⟩

end Results

/-- The protocol: a client fetches and deletes pages that `NewPage` returned, and does not fetch one
that was deleted; it uses and latches only pages it holds, and gives the last pin on a page back
unlatched. -/
def Protocol (s : ClientPool) : PoolCall → Prop
  | .fetchPage p => 0 ≤ p ∧ p < s.pool.nextPageId ∧ s.deleted p = false
  | .newPage => True
  | .unpinPage p _ => s.pool.pinned.count p = 1 → s.pool.latch p = {}
  | .deletePage p => 0 ≤ p ∧ p < s.pool.nextPageId
  | .getPage p => p ∈ s.pool.pinned
  | .setPage p _ => p ∈ s.pool.pinned
  | .rLatch p => p ∈ s.pool.pinned
  | .wLatch p => p ∈ s.pool.pinned
  | .rUnlatch p => p ∈ s.pool.pinned
  | .wUnlatch p => p ∈ s.pool.pinned

instance (s : ClientPool) : (call : PoolCall) → Decidable (s.Protocol call)
  | .fetchPage _ => inferInstanceAs (Decidable (_ ∧ _ ∧ _))
  | .newPage => .isTrue trivial
  | .unpinPage _ _ => inferInstanceAs (Decidable (_ → _))
  | .deletePage _ => inferInstanceAs (Decidable (_ ∧ _))
  | .getPage _ => inferInstanceAs (Decidable (_ ∈ _))
  | .setPage _ _ => inferInstanceAs (Decidable (_ ∈ _))
  | .rLatch _ => inferInstanceAs (Decidable (_ ∈ _))
  | .wLatch _ => inferInstanceAs (Decidable (_ ∈ _))
  | .rUnlatch _ => inferInstanceAs (Decidable (_ ∈ _))
  | .wUnlatch _ => inferInstanceAs (Decidable (_ ∈ _))

end ClientPool

/-! ## Pages behind pointers -/

namespace Latch

/-- `RWMutex::RLock`, with nobody else to wait for. -/
def rLock (latch : Latch) : Except Fault Latch :=
  if latch.writer then .error .blocked else .ok { latch with readers := latch.readers + 1 }

/-- `RWMutex::WLock`. -/
def wLock (latch : Latch) : Except Fault Latch :=
  if latch.writer ∨ 0 < latch.readers then .error .blocked else .ok { latch with writer := true }

/-- `RWMutex::RUnlock`. -/
def rUnlock (latch : Latch) : Except Fault Latch :=
  if latch.readers = 0 then .error .overflow else .ok { latch with readers := latch.readers - 1 }

/-- `RWMutex::WUnlock`. -/
def wUnlock (latch : Latch) : Except Fault Latch := .ok { latch with writer := false }

end Latch

/-- A pool, the pointers its client holds, and the latches of the frames. -/
structure Machine (n : ℕ) (P : Type) where
  pool : P
  pins : List (PageId × Fin n) := []
  latch : Fin n → Latch := fun _ => {}

namespace Machine

variable {n : ℕ} {P : Type}

def request (h : Script.Handler (@Request.Reply n) P Fault) (r : Request n) :
    StateT (Machine n P) (Except Fault) r.Reply := fun m => do
  let (a, pool) ← h r m.pool
  return (a, { m with pool := pool })

/-- The pointer the client got with its latest pin on the page. -/
def pointer (p : PageId) : StateT (Machine n P) (Except Fault) (Fin n) := fun m =>
  match m.pins.find? fun q => q.1 = p with
  | none => .error .nullDeref
  | some (_, frame) => .ok (frame, m)

/-- A call on the latch of a page the client holds. -/
def onLatch (p : PageId) (call : Latch → Except Fault Latch) :
    StateT (Machine n P) (Except Fault) Unit := fun m => do
  let (frame, _) ← pointer p m
  let latch ← call (m.latch frame)
  return ((), { m with latch := Function.update m.latch frame latch })

def handle (h : Script.Handler (@Request.Reply n) P Fault) :
    Script.Handler PoolCall.Reply (Machine n P) Fault
  | .fetchPage p => do
    let r : Option (Fin n) ← request h (.fetchPage p)
    match r with
    | none => return false
    | some frame =>
      modify fun m => { m with pins := (p, frame) :: m.pins }
      return true
  | .newPage => do
    let r : Option (PageId × Fin n) ← request h .newPage
    match r with
    | none => return none
    | some (p, frame) =>
      modify fun m => { m with pins := (p, frame) :: m.pins }
      return some p
  | .unpinPage p isDirty => do
    let _ ← request h (.unpinPage p isDirty)
    modify fun m => { m with pins := m.pins.eraseP fun q => q.1 = p }
  | .deletePage p => request h (.deletePage p)
  | .getPage p => do
    let page : Page ← request h (.page (← pointer p))
    return page.data
  | .setPage p page => do
    let frame ← pointer p
    request h (.store frame page)
  | .rLatch p => onLatch p Latch.rLock
  | .wLatch p => onLatch p Latch.wLock
  | .rUnlatch p => onLatch p Latch.rUnlock
  | .wUnlatch p => onLatch p Latch.wUnlock

end Machine

end ScuDb
