import ScuDb.Buffer.Session

/-!
# The buffer pool manager of Homework2

The pool has the frames, the page table, the replacer and the free list of `BufferPoolManager`, but
its own operations: `FetchPage` picks its victim itself, `UnpinPage` overwrites the dirty flag,
`DeletePage` leaves the page id of the frame it frees, and `Insert` of the hash table replaces an
entry.  Where the invariant holds and the flag is not lowered, an operation computes what its later
version computes; where `DeletePage` frees no frame, it keeps the invariant.
-/

namespace ScuDb.Homework2

open ByteMem BufferPoolManager Session

variable {n : ℕ}

/-- `LRUReplacer::Size`. -/
def size {α : Type} (r : LRUReplacer α) : ℕ := r.order.length

/-- `ExtendibleHash::Insert`: an entry that is already there is replaced. -/
def tableInsert (t : PageTable n) (pageId : PageId) (frame : Fin n) : PageTable n :=
  Function.update t pageId (some frame)

/-- Steps 3 and 4 of `FetchPage` and `NewPage`. -/
def occupy (b : BufferPoolManager n) (target : Fin n) (pageId : PageId) (data : PageData) :
    BufferPoolManager n :=
  { b with
    pageTable := tableInsert (b.pageTable.remove (b.pages target).pageId) pageId target
    pages := Function.update b.pages target
      { data := data, pageId := pageId, pinCount := 1, isDirty := false } }

/-- Steps 2 to 4 of `FetchPage`. -/
def load (b : BufferPoolManager n) (target : Fin n) (pageId : PageId) : BufferPoolManager n :=
  let b := b.writeBack target
  occupy b target pageId (b.diskManager.readPage pageId)

/-- `FetchPage`. -/
def fetchPage (b : BufferPoolManager n) (pageId : PageId) : Option (Fin n) × BufferPoolManager n :=
  match b.pageTable.find pageId with
  | some target =>
    let page := b.pages target
    let b := b.setPage target { page with pinCount := page.pinCount + 1 }
    (some target, { b with replacer := (b.replacer.erase target).2 })
  | none =>
    match b.freeList with
    | target :: rest => (some target, load { b with freeList := rest } target pageId)
    | [] =>
      if size b.replacer = 0 then (none, b)
      else
        match b.replacer.victim with
        | none => (none, b)
        | some (target, replacer) =>
          (some target, load { b with replacer := replacer } target pageId)

/-- `UnpinPage`: the dirty flag is overwritten, also when the page is not pinned. -/
def unpinPage (b : BufferPoolManager n) (pageId : PageId) (isDirty : Bool) :
    Bool × BufferPoolManager n :=
  match b.pageTable.find pageId with
  | none => (false, b)
  | some target =>
    let page : Page := { b.pages target with isDirty := isDirty }
    if page.pinCount ≤ 0 then (false, b.setPage target page)
    else
      let page : Page := { page with pinCount := page.pinCount - 1 }
      let b := b.setPage target page
      if page.pinCount = 0 then (true, { b with replacer := b.replacer.insert target })
      else (true, b)

/-- `FlushPage`. -/
def flushPage (b : BufferPoolManager n) (pageId : PageId) : Bool × BufferPoolManager n :=
  if pageId = invalidPageId then (false, b)
  else
    match b.pageTable.find pageId with
    | none => (false, b)
    | some target =>
      if (b.pages target).isDirty then
        let b := { b with diskManager := b.diskManager.writePage pageId (b.pages target).data }
        (true, b.setPage target { b.pages target with isDirty := false })
      else (true, b)

/-- `DeletePage`: the freed frame keeps its page id. -/
def deletePage (b : BufferPoolManager n) (pageId : PageId) : Bool × BufferPoolManager n :=
  match b.pageTable.find pageId with
  | none => (true, { b with diskManager := b.diskManager.deallocatePage pageId })
  | some target =>
    if 0 < (b.pages target).pinCount then (false, b)
    else
      let b := { b with
        replacer := (b.replacer.erase target).2
        pageTable := b.pageTable.remove pageId }
      let b := b.setPage target { b.pages target with isDirty := false, data := Mem.zero }
      (true, { b with
        freeList := b.freeList ++ [target]
        diskManager := b.diskManager.deallocatePage pageId })

/-- `GetVictimPage`. -/
def getVictimPage (b : BufferPoolManager n) :
    Except Fault (Option (Fin n) × BufferPoolManager n) :=
  match b.freeList with
  | [] =>
    if size b.replacer = 0 then .ok (none, b)
    else
      match b.replacer.victim with
      | none => .error .nullDeref
      | some (tar, replacer) => do
        assert ((b.pages tar).pinCount = 0)
        return (some tar, { b with replacer := replacer })
  | tar :: rest => do
    assert ((b.pages tar).pageId = invalidPageId)
    assert ((b.pages tar).pinCount = 0)
    return (some tar, { b with freeList := rest })

/-- `NewPage`. -/
def newPage (b : BufferPoolManager n) :
    Except Fault (Option (PageId × Fin n) × BufferPoolManager n) := do
  let (victim, b) ← getVictimPage b
  match victim with
  | none => return (none, b)
  | some target =>
    let (pageId, disk) := b.diskManager.allocatePage
    let b := { b with diskManager := disk }.writeBack target
    return (some (pageId, target), occupy b target pageId Mem.zero)

/-- One call of the clients, with their ledger kept up to date. -/
def step (s : Session n) : Call → Except Fault (Session n)
  | .newPage client => do
    let (r, pool) ← newPage s.pool
    match r with
    | none => return { s with pool := pool }
    | some (pageId, frame) => return { s with
        pool := pool
        held := ⟨client, pageId, frame⟩ :: s.held
        content := Function.update s.content pageId Mem.zero
        deleted := Function.update s.deleted pageId false }
  | .fetchPage client pageId =>
    let (r, pool) := fetchPage s.pool pageId
    match r with
    | none => .ok { s with pool := pool }
    | some frame => .ok { s with pool := pool, held := ⟨client, pageId, frame⟩ :: s.held }
  | .unpinPage client pageId isDirty =>
    let (_, pool) := unpinPage s.pool pageId isDirty
    .ok { s with
      pool := pool
      held := s.held.eraseP fun q => q.client = client ∧ q.pageId = pageId
      changed := if isDirty then
        Function.update s.changed client (Function.update (s.changed client) pageId false)
        else s.changed }
  | .flushPage pageId => .ok { s with pool := (flushPage s.pool pageId).2 }
  | .deletePage pageId =>
    let (r, pool) := deletePage s.pool pageId
    .ok { s with
      pool := pool
      deleted := if r then Function.update s.deleted pageId true else s.deleted }
  | .store client pageId data => s.step (.store client pageId data)

/-- Runs of allowed calls, each with the sessions its calls were made in, the latest first. -/
inductive Run (allowed : Session n → Call → Prop) : List (Session n × Call) → Session n → Prop
  | new : Run allowed [] (new n)
  | step {past : List (Session n × Call)} {s s' : Session n} {call : Call} :
      Run allowed past s → allowed s call → step s call = .ok s' →
      Run allowed ((s, call) :: past) s'

/-! ## The operations under the invariant -/

section Operations

variable {b : BufferPoolManager n} {p : PageId}

theorem size_eq_zero_iff {α : Type} (r : LRUReplacer α) : size r = 0 ↔ r.victim = none := by
  rw [LRUReplacer.victim_eq_none_iff]
  exact List.length_eq_zero_iff

/-- A page that is not resident may be inserted either way. -/
theorem occupy_eq (absent : b.pageTable.find p = none) (target : Fin n) (data : PageData) :
    occupy b target p data = b.occupy target p data := by
  have absent' : (b.pageTable.remove (b.pages target).pageId) p = none := by
    change (b.pageTable.remove (b.pages target).pageId).find p = none
    rw [find_remove, absent, ite_self]
  simp [occupy, BufferPoolManager.occupy, tableInsert, PageTable.insert, absent']

theorem load_eq (absent : b.pageTable.find p = none) (target : Fin n) :
    load b target p =
      (b.writeBack target).occupy target p ((b.writeBack target).diskManager.readPage p) := by
  refine occupy_eq ?_ target _
  rw [writeBack_pageTable, absent]

theorem getVictimPage_eq (b : BufferPoolManager n) : getVictimPage b = b.getVictimPage := by
  unfold getVictimPage BufferPoolManager.getVictimPage
  cases b.freeList with
  | cons tar rest => rfl
  | nil =>
    cases hv : b.replacer.victim with
    | none => simp [(size_eq_zero_iff _).2 hv]
    | some v =>
      have : size b.replacer ≠ 0 := by
        rw [ne_eq, size_eq_zero_iff, hv]
        exact Option.some_ne_none v
      simp [this, LRUReplacer.size]

/-- Under the invariant `FetchPage` finds no frame that the assertions of `GetVictimPage` reject. -/
theorem fetchPage_eq (h : Inv b) (p : PageId) : b.fetchPage p = .ok (fetchPage b p) := by
  unfold fetchPage BufferPoolManager.fetchPage
  cases hp : b.pageTable.find p with
  | some target => rfl
  | none =>
    dsimp only
    cases hfree : b.freeList with
    | cons tar rest =>
      have mem : tar ∈ b.freeList := by simp [hfree]
      have invalid := (h.free tar).1 mem
      have unpinned := (h.freeClean tar mem).1
      have loaded := load_eq (b := { b with freeList := rest }) hp tar
      simp [BufferPoolManager.getVictimPage, hfree, assert_pos invalid, assert_pos unpinned, loaded,
        bind, Except.bind, pure, Except.pure]
    | nil =>
      cases hv : b.replacer.victim with
      | none =>
        simp [BufferPoolManager.getVictimPage, hfree, hv, LRUReplacer.size, bind, Except.bind, pure,
          Except.pure]
      | some v =>
        obtain ⟨tar, replacer⟩ := v
        have unpinned := ((h.replacer tar).1 (LRUReplacer.mem_of_victim hv).1).2
        have some : size b.replacer ≠ 0 := by
          rw [ne_eq, size_eq_zero_iff, hv]
          exact Option.some_ne_none _
        have loaded := load_eq (b := { b with replacer := replacer, freeList := [] }) hp tar
        simp [BufferPoolManager.getVictimPage, hfree, hv, some, LRUReplacer.size,
          assert_pos unpinned, loaded, bind, Except.bind, pure, Except.pure]

theorem newPage_eq (h : Inv b) : newPage b = b.newPage := by
  unfold newPage BufferPoolManager.newPage
  rw [getVictimPage_eq]
  rcases getVictimPage_spec h with ⟨hv, -⟩ | ⟨tar, b', hv, victim⟩
  · simp [hv, bind, Except.bind, pure, Except.pure]
  · have next : b'.diskManager.nextPageId = b.diskManager.nextPageId := by rw [victim.diskManager]
    have absent : ({ b' with diskManager := b'.diskManager.allocatePage.2 }.writeBack tar).pageTable.find
        b'.diskManager.nextPageId = none := by
      rw [writeBack_pageTable, next]
      exact victim.pageTable ▸ h.absent_next
    simp [hv, bind, Except.bind, pure, Except.pure, IdealDisk.allocatePage] at absent ⊢
    exact occupy_eq absent tar _

theorem flushPage_eq (h : Inv b) (p : PageId) : flushPage b p = b.flushPage p := by
  unfold flushPage BufferPoolManager.flushPage
  cases hp : b.pageTable.find p with
  | none => simp
  | some target =>
    obtain ⟨e, valid⟩ := h.valid_of_find hp
    simp [valid, e ▸ valid]

/-- A call of `UnpinPage` that does not lower the dirty flag is the later one. -/
theorem unpinPage_eq {target : Fin n} {isDirty : Bool} (hp : b.pageTable.find p = some target)
    (pinned : 0 < (b.pages target).pinCount)
    (keeps : (b.pages target).isDirty = true → isDirty = true) :
    b.unpinPage p isDirty = .ok (unpinPage b p isDirty) := by
  have flag : ((b.pages target).isDirty || isDirty) = isDirty := by
    cases hd : (b.pages target).isDirty with
    | false => rfl
    | true => simp [keeps hd]
  unfold unpinPage BufferPoolManager.unpinPage
  simp only [hp, flag, not_le.2 pinned, if_false]
  split_ifs <;> rfl

/-- The pool after `DeletePage` of `p` in the frame `target`. -/
def freed (b : BufferPoolManager n) (p : PageId) (target : Fin n) : BufferPoolManager n :=
  { b with
    replacer := (b.replacer.erase target).2
    pageTable := b.pageTable.remove p
    pages := Function.update b.pages target
      { b.pages target with isDirty := false, data := Mem.zero }
    freeList := b.freeList ++ [target] }

theorem deletePage_of_unpinned {target : Fin n} (hp : b.pageTable.find p = some target)
    (unpinned : (b.pages target).pinCount ≤ 0) :
    deletePage b p = (true, freed b p target) := by
  unfold deletePage
  rw [hp]
  dsimp only
  rw [if_neg (not_lt.2 unpinned)]
  rfl

theorem deletePage_of_pinned {target : Fin n} (hp : b.pageTable.find p = some target)
    (pinned : 0 < (b.pages target).pinCount) : deletePage b p = (false, b) := by
  unfold deletePage
  rw [hp]
  exact if_pos pinned

end Operations

end ScuDb.Homework2
