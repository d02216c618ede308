import ScuDb.Buffer.HashedPool

/-!
# Requests to the buffer pool

A client calls the pool and uses the frames it returned.  Whatever it does, the pool on its members
answers as the pool on a map and a list.
-/

namespace ScuDb

open ByteMem

/-- A call of the pool, or an access to a frame it returned. -/
inductive Request (n : ℕ)
  | newPage
  | fetchPage (pageId : PageId)
  | unpinPage (pageId : PageId) (isDirty : Bool)
  | flushPage (pageId : PageId)
  | deletePage (pageId : PageId)
  | page (frame : Fin n)
  | store (frame : Fin n) (data : PageData)

/-- What a call returns. -/
def Request.Reply {n : ℕ} : Request n → Type
  | .newPage => Option (PageId × Fin n)
  | .fetchPage _ => Option (Fin n)
  | .unpinPage _ _ => Bool
  | .flushPage _ => Bool
  | .deletePage _ => Bool
  | .page _ => Page
  | .store _ _ => Unit

def BufferPoolManager.handle {n : ℕ} :
    Script.Handler (@Request.Reply n) (BufferPoolManager n) Fault
  | .newPage => fun b => b.newPage
  | .fetchPage pageId => fun b => b.fetchPage pageId
  | .unpinPage pageId isDirty => fun b => b.unpinPage pageId isDirty
  | .flushPage pageId => fun b => .ok (b.flushPage pageId)
  | .deletePage pageId => fun b => .ok (b.deletePage pageId)
  | .page frame => fun b => .ok (b.pages frame, b)
  | .store frame data => fun b => .ok ((), b.setPage frame { b.pages frame with data := data })

def HashedPool.handle {n : ℕ} [NeZero n] {D : Type} [Disk D] :
    Script.Handler (@Request.Reply n) (HashedPool n D) Fault
  | .newPage => fun b => b.newPage
  | .fetchPage pageId => fun b => b.fetchPage pageId
  | .unpinPage pageId isDirty => fun b => b.unpinPage pageId isDirty
  | .flushPage pageId => fun b => b.flushPage pageId
  | .deletePage pageId => fun b => b.deletePage pageId
  | .page frame => fun b => .ok (b.pages frame, b)
  | .store frame data => fun b => .ok ((), b.setPage frame { b.pages frame with data := data })

/-- No request breaks the division of the frames into free, unpinned and pinned ones. -/
theorem partition_request {n : ℕ} {b b' : BufferPoolManager n} (h : BufferPoolManager.Partition b)
    {q : Request n} {r : q.Reply} (run : BufferPoolManager.handle q b = .ok (r, b')) :
    BufferPoolManager.Partition b' := by
  have second {α : Type} {x : Except Fault (α × BufferPoolManager n)} {a : α}
      (ok : x = .ok (a, b')) : Prod.snd <$> x = .ok b' := by
    rw [ok]
    rfl
  cases q with
  | newPage =>
    have stepped : b.step .newPage = .ok b' := second run
    exact BufferPoolManager.step_partition h stepped
  | fetchPage p =>
    have stepped : b.step (.fetchPage p) = .ok b' := second run
    exact BufferPoolManager.step_partition h stepped
  | unpinPage p isDirty =>
    have stepped : b.step (.unpinPage p isDirty) = .ok b' := second run
    exact BufferPoolManager.step_partition h stepped
  | flushPage p =>
    have flushed : (b.flushPage p).2 = b' := congrArg Prod.snd (Except.ok.inj run)
    exact flushed ▸ BufferPoolManager.flushPage_partition h p
  | deletePage p =>
    have deleted : (b.deletePage p).2 = b' := congrArg Prod.snd (Except.ok.inj run)
    exact deleted ▸ BufferPoolManager.deletePage_partition h p
  | page frame =>
    cases run
    exact h
  | store frame data =>
    have stored : b.setPage frame { b.pages frame with data := data } = b' :=
      congrArg Prod.snd (Except.ok.inj run)
    have stepped : b.step (.store frame data) = .ok b' := congrArg Except.ok stored
    exact BufferPoolManager.step_partition h stepped

section Requests

variable {n : ℕ} [NeZero n] {D : Type} [Disk D] {rules : DiskRules D} {b : BufferPoolManager n}
  {c : HashedPool n D}

/-- A request finds an id of 32 bits, and its page on the disk if it is not in a frame. -/
def Request.Backed (rules : DiskRules D) (b : BufferPoolManager n) (c : HashedPool n D) :
    Request n → Prop
  | .newPage => IsPageId b.diskManager.nextPageId
  | .fetchPage p => IsPageId p ∧
      (b.pageTable.find p = none → rules.InRange p ∧ rules.Covers c.diskManager p)
  | _ => True

/-- The pages that are as safe after a request as before. -/
def Request.Keeps : (q : Request n) → q.Reply → PageId → Prop
  | .deletePage p => fun (r : Bool) q => r = true → q ≠ p
  | _ => fun _ _ => True

/-- The frames of the page table hold the pages they are entered for. -/
def Named (b : BufferPoolManager n) : Prop :=
  ∀ p f, b.pageTable.find p = some f → (b.pages f).pageId = p

open Models in
/-- Every request does the same with the members as with the map and the list. -/
theorem Models.request (h : Models rules b c) (dirty : DirtyInRange rules b) (named : Named b)
    {q : Request n} (backed : q.Backed rules b c) :
    Agree (After rules b c q.Keeps) (BufferPoolManager.handle q b) (HashedPool.handle q c) := by
  cases q with
  | newPage => exact h.newPage dirty backed
  | fetchPage p => exact h.fetchPage dirty backed.1 backed.2
  | unpinPage p isDirty => exact h.unpinPage p isDirty
  | flushPage p => exact h.flushPage dirty (named p)
  | deletePage p => exact h.deletePage (named p)
  | page frame => exact .ok ⟨congrFun h.pages.symm frame, h, fun _ _ safe => safe⟩
  | store frame data =>
    refine .ok ⟨rfl, ?_, fun p _ safe => safe_setPage rfl rfl rfl id safe⟩
    change Models rules (b.setPage frame { b.pages frame with data := data })
      (c.setPage frame { c.pages frame with data := data })
    rw [h.pages]
    exact h.setPage frame _

/-- A fetched page id has 32 bits, and `NewPage` has such an id left. -/
def Request.HasId (b : BufferPoolManager n) : Request n → Prop
  | .newPage => IsPageId b.diskManager.nextPageId
  | .fetchPage pageId => IsPageId pageId
  | _ => True

instance (b : BufferPoolManager n) : (q : Request n) → Decidable (q.HasId b)
  | .newPage => inferInstanceAs (Decidable (IsPageId _))
  | .fetchPage _ => inferInstanceAs (Decidable (IsPageId _))
  | .unpinPage _ _ => .isTrue trivial
  | .flushPage _ => .isTrue trivial
  | .deletePage _ => .isTrue trivial
  | .page _ => .isTrue trivial
  | .store _ _ => .isTrue trivial

theorem hashedPool_agrees : Script.Agrees BufferPoolManager.handle HashedPool.handle Request.HasId
    fun (b : BufferPoolManager n) c => Models idealRules b c ∧ BufferPoolManager.Partition b := by
  rintro b c q ⟨h, partition⟩ hasId
  have backed : q.Backed idealRules b c := by
    cases q with
    | newPage => exact hasId
    | fetchPage p => exact ⟨hasId, fun _ => ⟨trivial, trivial⟩⟩
    | unpinPage p isDirty => trivial
    | flushPage p => trivial
    | deletePage p => trivial
    | page frame => trivial
    | store frame data => trivial
  refine (h.request (fun _ _ => trivial) partition.named backed).imp fun x y run after => ?_
  exact ⟨after.1, after.2.1, partition_request partition run⟩

/-- Whatever its clients do, the pool on its hash table and its linked nodes does what it does with
a map and a list: it gives the same replies, or stops at the same call. -/
theorem hashedPool_run {α : Type} (script : Script (@Request.Reply n) Fault α)
    (ids : script.Allowed BufferPoolManager.handle Request.HasId (.new n)) :
    Agree (Script.SameReply (Models idealRules)) (script.run BufferPoolManager.handle (.new n))
      (script.run HashedPool.handle (.new n ({} : IdealDisk))) := by
  refine (hashedPool_agrees.run script ⟨Models.start rfl, ?_⟩ ids).imp fun x y _ same => ?_
  · exact BufferPoolManager.partition_new
  · exact ⟨same.1, same.2.1⟩

/-- One frame: page 0 is changed, evicted by page 1 and fetched again. -/
def fetchedAgain : Script (@Request.Reply 1) Fault UInt8 :=
  .call .newPage fun _ => .call (.store 0 (Mem.write Mem.zero 0 [7])) fun _ =>
    .call (.unpinPage 0 true) fun _ => .call .newPage fun _ => .call (.unpinPage 1 false) fun _ =>
      .call (.fetchPage 0) fun _ => .call (.page 0) fun (page : Page) => .done (page.data.get 0)

theorem hashedPool_run_fetched :
    ∃ c, fetchedAgain.run HashedPool.handle (.new 1 ({} : IdealDisk)) = .ok (7, c) :=
  Script.SameReply.of_reply (hashedPool_run fetchedAgain (by decide +kernel)) (by decide +kernel)

end Requests

end ScuDb
