import ScuDb.Buffer.Homework2Runs
import ScuDb.Buffer.PoolRequests

/-!
# The page table of Homework2

The hash table of Homework2 differs from the later one in `Insert` only, which replaces an entry.
For page ids of 32 bits the pool does with it what it does with a finite map.
-/

namespace ScuDb.Homework2

open ByteMem ExtendibleHash

/-! ## The hash table -/

section Insert

variable {K V : Type} [DecidableEq K]

/-- The loop of `Insert`. -/
def insertLoop (hashKey : K → ℕ) (key : K) (value : V) :
    ℕ → ExtendibleHash K V → ℕ → Except Fault (ExtendibleHash K V)
  | 0, _, _ => .error .diverges
  | fuel + 1, s, cur =>
    let bucket := s.store cur
    if (bucket.dataMap.lookup key).isSome ∨ bucket.dataMap.entries.length < s.mBucketSize then
      .ok (s.setBucket cur { bucket with dataMap := bucket.dataMap.insert key value })
    else do
      let s := splitBucket hashKey s cur
      let cur ← bucketOf hashKey s key
      insertLoop hashKey key value fuel s cur

/-- `Insert`. -/
def hashInsert (hashKey : K → ℕ) (s : ExtendibleHash K V) (key : K) (value : V) :
    Except Fault (ExtendibleHash K V) := do
  let cur ← bucketOf hashKey s key
  insertLoop hashKey key value 32 s cur

variable {hashKey : K → ℕ}

/-- A key that is absent is inserted as in the later table. -/
theorem insertLoop_of_absent (key : K) (value : V) : ∀ (fuel : ℕ) {s : ExtendibleHash K V},
    Inv hashKey s → s.mGlobalDepth < 31 → stored hashKey s key = none →
    insertLoop hashKey key value fuel s (s.route (hashKey key)) =
      ExtendibleHash.insertLoop hashKey key value fuel s (s.route (hashKey key))
  | 0, _, _, _, _ => rfl
  | fuel + 1, s, h, shallow, absent => by
    have pair : insertPair (s.store (s.route (hashKey key))).dataMap key value =
        (s.store (s.route (hashKey key))).dataMap.insert key value := by
      unfold insertPair
      rw [show (s.store (s.route (hashKey key))).dataMap.lookup key = none from absent]
    simp only [insertLoop, ExtendibleHash.insertLoop, pair]
    split_ifs
    · rfl
    · have inv' := h.splitBucket (i := hashKey key) rfl
      by_cases deep : 31 ≤ (splitBucket hashKey s (s.route (hashKey key))).mGlobalDepth
      · rw [bucketOf_overflow deep]
        rfl
      · rw [bucketOf_ok inv' (not_le.1 deep)]
        apply insertLoop_of_absent key value fuel inv' (not_le.1 deep)
        rw [h.splitBucket_stored (i := hashKey key) rfl]
        exact absent

/-- `Insert` of a page id ends, and finds the new value afterwards. -/
theorem shallow_hashInsert {V : Type} {s : ExtendibleHash PageId V} (h : Shallow s) {p : PageId}
    (id : IsPageId p) (value : V) : ∃ s', hashInsert hashPageId s p value = .ok s' ∧ Shallow s' ∧
      ∀ q, stored hashPageId s' q = if q = p then some value else stored hashPageId s q := by
  unfold hashInsert
  rw [bucketOf_ok h.inv h.lt]
  cases present : stored hashPageId s p with
  | none =>
    obtain ⟨s', run, shallow, same⟩ := h.insert id value
    unfold ExtendibleHash.insert at run
    rw [bucketOf_ok h.inv h.lt] at run
    refine ⟨s', ?_, shallow, fun q => ?_⟩
    · exact (insertLoop_of_absent p value 32 h.inv h.lt present).trans run
    · rw [same, present]
      rfl
  | some old =>
    set m := (s.store (s.route (hashPageId p))).dataMap
    have found : (m.lookup p).isSome := by
      rw [show m.lookup p = some old from present]
      rfl
    have mem {q : PageId} (hq : q ∈ m.insert p value) : q ∈ m := by
      rcases (AList.mem_insert m).1 hq with rfl | hq
      · exact AList.lookup_isSome.1 found
      · exact hq
    have same (q : PageId) : stored hashPageId (s.setBucket (s.route (hashPageId p))
        { s.store (s.route (hashPageId p)) with dataMap := m.insert p value }) q =
        if q = p then some value else stored hashPageId s q := by
      rw [setBucket_stored]
      split_ifs with hr hq hq
      · rw [hq, AList.lookup_insert]
      · rw [AList.lookup_insert_ne hq, stored, hr]
      · exact absurd (by rw [hq]) hr
      · rfl
    refine ⟨_, if_pos (.inl found), ⟨h.inv.setBucket (fun q hq => ?_) ?_, h.depth, h.size,
      fun q hq => ?_⟩, same⟩
    · exact h.inv.routed _ q (mem hq)
    · exact (length_le_of_subset fun q => mem).trans (h.inv.capacity _)
    · rw [same] at hq
      split_ifs at hq with e
      · exact e ▸ id
      · exact h.ids q hq

end Insert

/-! ## The pool -/

/-- The pool with its hash table. -/
structure HashedPool (n : ℕ) where
  pages : Fin n → Page := fun _ => {}
  pageTable : ExtendibleHash PageId (Fin n) := .new bucketSize
  replacer : LRUReplacer (Fin n) := LRUReplacer.new
  freeList : List (Fin n) := List.finRange n
  diskManager : IdealDisk := {}

namespace HashedPool

variable {n : ℕ}

def setPage (b : HashedPool n) (frame : Fin n) (page : Page) : HashedPool n :=
  { b with pages := Function.update b.pages frame page }

/-- Step 2 of `FetchPage` and `NewPage`. -/
def writeBack (b : HashedPool n) (target : Fin n) : HashedPool n :=
  if (b.pages target).isDirty then
    { b with diskManager :=
      b.diskManager.writePage (b.pages target).pageId (b.pages target).data }
  else b

/-- Steps 3 and 4. -/
def occupy (b : HashedPool n) (target : Fin n) (pageId : PageId) (data : PageData) :
    Except Fault (HashedPool n) := do
  let (_, table) ← b.pageTable.remove hashPageId (b.pages target).pageId
  let table ← hashInsert hashPageId table pageId target
  return { b with
    pageTable := table
    pages := Function.update b.pages target
      { data := data, pageId := pageId, pinCount := 1, isDirty := false } }

/-- Steps 2 to 4 of `FetchPage`. -/
def load (b : HashedPool n) (target : Fin n) (pageId : PageId) : Except Fault (HashedPool n) :=
  let b := b.writeBack target
  b.occupy target pageId (b.diskManager.readPage pageId)

/-- `FetchPage`. -/
def fetchPage (b : HashedPool n) (pageId : PageId) :
    Except Fault (Option (Fin n) × HashedPool n) := do
  match ← b.pageTable.find hashPageId pageId with
  | some target =>
    let page := b.pages target
    let b := b.setPage target { page with pinCount := page.pinCount + 1 }
    return (some target, { b with replacer := (b.replacer.erase target).2 })
  | none =>
    match b.freeList with
    | target :: rest => return (some target, ← { b with freeList := rest }.load target pageId)
    | [] =>
      if size b.replacer = 0 then return (none, b)
      match b.replacer.victim with
      | none => return (none, b)
      | some (target, replacer) =>
        return (some target, ← { b with replacer := replacer }.load target pageId)

/-- `UnpinPage`. -/
def unpinPage (b : HashedPool n) (pageId : PageId) (isDirty : Bool) :
    Except Fault (Bool × HashedPool n) := do
  match ← b.pageTable.find hashPageId pageId with
  | none => return (false, b)
  | some target =>
    let page : Page := { b.pages target with isDirty := isDirty }
    if page.pinCount ≤ 0 then return (false, b.setPage target page)
    let page : Page := { page with pinCount := page.pinCount - 1 }
    let b := b.setPage target page
    if page.pinCount = 0 then return (true, { b with replacer := b.replacer.insert target })
    return (true, b)

/-- `FlushPage`. -/
def flushPage (b : HashedPool n) (pageId : PageId) : Except Fault (Bool × HashedPool n) := do
  if pageId = invalidPageId then return (false, b)
  match ← b.pageTable.find hashPageId pageId with
  | none => return (false, b)
  | some target =>
    if (b.pages target).isDirty then
      let b := { b with diskManager := b.diskManager.writePage pageId (b.pages target).data }
      return (true, b.setPage target { b.pages target with isDirty := false })
    return (true, b)

/-- `DeletePage`. -/
def deletePage (b : HashedPool n) (pageId : PageId) : Except Fault (Bool × HashedPool n) := do
  match ← b.pageTable.find hashPageId pageId with
  | none => return (true, { b with diskManager := b.diskManager.deallocatePage pageId })
  | some target =>
    if 0 < (b.pages target).pinCount then return (false, b)
    let (_, table) ← b.pageTable.remove hashPageId pageId
    let b := { b with replacer := (b.replacer.erase target).2, pageTable := table }
    let b := b.setPage target { b.pages target with isDirty := false, data := Mem.zero }
    return (true, { b with
      freeList := b.freeList ++ [target]
      diskManager := b.diskManager.deallocatePage pageId })

/-- `GetVictimPage`. -/
def getVictimPage (b : HashedPool n) : Except Fault (Option (Fin n) × HashedPool n) :=
  match b.freeList with
  | [] =>
    if size b.replacer = 0 then .ok (none, b)
    else
      match b.replacer.victim with
      | none => .error .nullDeref
      | some (tar, replacer) => do
        assert ((b.pages tar).pinCount = 0)
        return (some tar, { b with replacer := replacer })
  | tar :: rest => do
    assert ((b.pages tar).pageId = invalidPageId)
    assert ((b.pages tar).pinCount = 0)
    return (some tar, { b with freeList := rest })

/-- `NewPage`. -/
def newPage (b : HashedPool n) : Except Fault (Option (PageId × Fin n) × HashedPool n) := do
  let (victim, b) ← b.getVictimPage
  match victim with
  | none => return (none, b)
  | some target =>
    let (pageId, disk) := b.diskManager.allocatePage
    let b := { b with diskManager := disk }.writeBack target
    return (some (pageId, target), ← b.occupy target pageId Mem.zero)

def handle : Script.Handler (@Request.Reply n) (HashedPool n) Fault
  | .newPage => fun b => b.newPage
  | .fetchPage pageId => fun b => b.fetchPage pageId
  | .unpinPage pageId isDirty => fun b => b.unpinPage pageId isDirty
  | .flushPage pageId => fun b => b.flushPage pageId
  | .deletePage pageId => fun b => b.deletePage pageId
  | .page frame => fun b => .ok (b.pages frame, b)
  | .store frame data => fun b => .ok ((), b.setPage frame { b.pages frame with data := data })

end HashedPool

/-- The pool with a finite map. -/
def handle {n : ℕ} : Script.Handler (@Request.Reply n) (BufferPoolManager n) Fault
  | .newPage => newPage
  | .fetchPage pageId => fun b => .ok (fetchPage b pageId)
  | .unpinPage pageId isDirty => fun b => .ok (unpinPage b pageId isDirty)
  | .flushPage pageId => fun b => .ok (flushPage b pageId)
  | .deletePage pageId => fun b => .ok (deletePage b pageId)
  | .page frame => fun b => .ok (b.pages frame, b)
  | .store frame data => fun b => .ok ((), b.setPage frame { b.pages frame with data := data })

/-- The hash table holds what the map holds, and the other members are the same. -/
structure Models {n : ℕ} (b : BufferPoolManager n) (c : HashedPool n) : Prop where
  pages : c.pages = b.pages
  replacer : c.replacer = b.replacer
  freeList : c.freeList = b.freeList
  disk : c.diskManager = b.diskManager
  shallow : c.pageTable.Shallow
  stored : ∀ p, stored hashPageId c.pageTable p = b.pageTable.find p

namespace Models

variable {n : ℕ} {b : BufferPoolManager n} {c : HashedPool n} {p : PageId}

theorem start : Models (.new n) ({} : HashedPool n) where
  pages := rfl
  replacer := rfl
  freeList := rfl
  disk := rfl
  shallow := shallow_new
  stored _ := rfl

theorem find (h : Models b c) (p : PageId) :
    c.pageTable.find hashPageId p = .ok (b.pageTable.find p) := by
  rw [h.shallow.find, h.stored]

theorem setPage (h : Models b c) (tar : Fin n) (page : Page) :
    Models (b.setPage tar page) (c.setPage tar page) := by
  refine ⟨?_, h.replacer, h.freeList, h.disk, h.shallow, h.stored⟩
  unfold HashedPool.setPage BufferPoolManager.setPage
  rw [h.pages]

theorem writeBack (h : Models b c) (tar : Fin n) : Models (b.writeBack tar) (c.writeBack tar) := by
  unfold BufferPoolManager.writeBack HashedPool.writeBack
  rw [h.pages, h.disk]
  split_ifs
  · exact ⟨rfl, h.replacer, h.freeList, rfl, h.shallow, h.stored⟩
  · exact h

theorem occupy (h : Models b c) (tar : Fin n) (id : IsPageId p) (data : PageData) :
    ∃ c', c.occupy tar p data = .ok c' ∧ Models (occupy b tar p data) c' := by
  obtain ⟨table, removed, shallow, gone⟩ := h.shallow.remove (c.pages tar).pageId
  obtain ⟨table', inserted, shallow', there⟩ := shallow_hashInsert shallow id tar
  refine ⟨{ c with
    pageTable := table'
    pages := Function.update c.pages tar
      { data := data, pageId := p, pinCount := 1, isDirty := false } }, ?_,
    ⟨?_, h.replacer, h.freeList, h.disk, shallow', fun q => ?_⟩⟩
  · unfold HashedPool.occupy
    rw [removed]
    simp only [bind, Except.bind]
    rw [inserted]
    rfl
  · dsimp only [Homework2.occupy]
    rw [h.pages]
  · rw [there, gone, h.stored, h.pages, ← BufferPoolManager.find_remove]
    exact (Function.update_apply _ _ _ _).symm

theorem load (h : Models b c) (tar : Fin n) (id : IsPageId p) :
    ∃ c', c.load tar p = .ok c' ∧ Models (load b tar p) c' := by
  have written := h.writeBack tar
  unfold HashedPool.load Homework2.load
  dsimp only
  rw [written.disk]
  exact written.occupy tar id _

theorem fetchPage (h : Models b c) (id : IsPageId p) :
    Agree (Script.SameReply Models) (.ok (fetchPage b p)) (c.fetchPage p) := by
  unfold Homework2.fetchPage HashedPool.fetchPage
  rw [h.find]
  simp only [bind, Except.bind, pure, Except.pure]
  cases b.pageTable.find p with
  | some target =>
    have set := h.setPage target { b.pages target with pinCount := (b.pages target).pinCount + 1 }
    rw [h.pages]
    refine .ok ⟨rfl, set.pages, ?_, set.freeList, set.disk, set.shallow, set.stored⟩
    exact congrArg (fun r => (r.erase target).2) set.replacer
  | none =>
    dsimp only
    rw [h.freeList]
    cases hfree : b.freeList with
    | cons target rest =>
      have taken : Models { b with freeList := rest } { c with freeList := rest } :=
        ⟨h.pages, h.replacer, rfl, h.disk, h.shallow, h.stored⟩
      obtain ⟨c', run, loaded⟩ := taken.load target id
      dsimp only
      rw [run]
      exact .ok ⟨rfl, loaded⟩
    | nil =>
      dsimp only
      rw [h.replacer]
      split_ifs
      · exact .ok ⟨rfl, h⟩
      · cases b.replacer.victim with
        | none => exact .ok ⟨rfl, h⟩
        | some v =>
          obtain ⟨target, replacer⟩ := v
          have taken : Models { b with replacer := replacer, freeList := [] }
              { c with replacer := replacer, freeList := [] } :=
            ⟨h.pages, rfl, rfl, h.disk, h.shallow, h.stored⟩
          obtain ⟨c', run, loaded⟩ := taken.load target id
          dsimp only
          rw [run]
          exact .ok ⟨rfl, loaded⟩

theorem unpinPage (h : Models b c) (p : PageId) (isDirty : Bool) :
    Agree (Script.SameReply Models) (.ok (unpinPage b p isDirty)) (c.unpinPage p isDirty) := by
  unfold Homework2.unpinPage HashedPool.unpinPage
  rw [h.find]
  simp only [bind, Except.bind, pure, Except.pure]
  cases b.pageTable.find p with
  | none => exact .ok ⟨rfl, h⟩
  | some target =>
    dsimp only
    rw [h.pages]
    split_ifs
    · exact .ok ⟨rfl, h.setPage target _⟩
    · have set := h.setPage target { b.pages target with
        isDirty := isDirty, pinCount := (b.pages target).pinCount - 1 }
      refine .ok ⟨rfl, set.pages, ?_, set.freeList, set.disk, set.shallow, set.stored⟩
      exact congrArg (fun r => r.insert target) set.replacer
    · exact .ok ⟨rfl, h.setPage target _⟩

theorem flushPage (h : Models b c) (p : PageId) :
    Agree (Script.SameReply Models) (.ok (flushPage b p)) (c.flushPage p) := by
  unfold Homework2.flushPage HashedPool.flushPage
  rw [h.find]
  simp only [bind, Except.bind, pure, Except.pure]
  split_ifs
  · exact .ok ⟨rfl, h⟩
  · cases b.pageTable.find p with
    | none => exact .ok ⟨rfl, h⟩
    | some target =>
      dsimp only
      rw [h.pages, h.disk]
      split_ifs
      · have written : Models
            { b with diskManager := b.diskManager.writePage p (b.pages target).data }
            { c with
              pages := b.pages
              diskManager := b.diskManager.writePage p (b.pages target).data } :=
          ⟨rfl, h.replacer, h.freeList, rfl, h.shallow, h.stored⟩
        exact .ok ⟨rfl, written.setPage target _⟩
      · exact .ok ⟨rfl, h⟩

theorem deletePage (h : Models b c) (p : PageId) :
    Agree (Script.SameReply Models) (.ok (deletePage b p)) (c.deletePage p) := by
  unfold Homework2.deletePage HashedPool.deletePage
  rw [h.find]
  simp only [bind, Except.bind, pure, Except.pure]
  cases b.pageTable.find p with
  | none =>
    refine .ok ⟨rfl, h.pages, h.replacer, h.freeList, ?_, h.shallow, h.stored⟩
    exact congrArg (fun d => d.deallocatePage p) h.disk
  | some target =>
    obtain ⟨table, removed, shallow, gone⟩ := h.shallow.remove p
    dsimp only
    rw [h.pages, removed]
    split_ifs
    · exact .ok ⟨rfl, h⟩
    · have forgotten : Models
          { b with replacer := (b.replacer.erase target).2, pageTable := b.pageTable.remove p }
          { c with
            pages := b.pages
            replacer := (c.replacer.erase target).2
            pageTable := table } := by
        refine ⟨rfl, ?_, h.freeList, h.disk, shallow, fun q => ?_⟩
        · exact congrArg (fun r => (r.erase target).2) h.replacer
        · rw [gone, h.stored]
          exact (BufferPoolManager.find_remove _ _ _).symm
      have set := forgotten.setPage target
        { b.pages target with isDirty := false, data := Mem.zero }
      refine .ok ⟨rfl, set.pages, set.replacer, ?_, ?_, set.shallow, set.stored⟩
      · exact congrArg (· ++ [target]) set.freeList
      · exact congrArg (fun d => d.deallocatePage p) set.disk

theorem getVictimPage (h : Models b c) :
    Agree (fun x y => Script.SameReply Models x y ∧ x.2.diskManager = b.diskManager)
      (getVictimPage b) c.getVictimPage := by
  unfold Homework2.getVictimPage HashedPool.getVictimPage
  rw [h.freeList]
  cases b.freeList with
  | nil =>
    dsimp only
    rw [h.replacer]
    split_ifs
    · exact .ok ⟨⟨rfl, h⟩, rfl⟩
    · cases b.replacer.victim with
      | none => exact .error _
      | some v =>
        obtain ⟨tar, replacer⟩ := v
        dsimp only
        rw [h.pages]
        apply (agree_refl (assert ((b.pages tar).pinCount = 0))).bind
        rintro _ _ rfl
        exact .ok ⟨⟨rfl, rfl, rfl, rfl, h.disk, h.shallow, h.stored⟩, rfl⟩
  | cons tar rest =>
    dsimp only
    rw [h.pages]
    apply (agree_refl (assert ((b.pages tar).pageId = invalidPageId))).bind
    rintro _ _ rfl
    apply (agree_refl (assert ((b.pages tar).pinCount = 0))).bind
    rintro _ _ rfl
    exact .ok ⟨⟨rfl, rfl, h.replacer, rfl, h.disk, h.shallow, h.stored⟩, rfl⟩

theorem newPage (h : Models b c) (id : IsPageId b.diskManager.nextPageId) :
    Agree (Script.SameReply Models) (newPage b) c.newPage := by
  unfold Homework2.newPage HashedPool.newPage
  apply h.getVictimPage.bind
  rintro ⟨victim, b₁⟩ ⟨victim', c₁⟩ ⟨⟨same, h₁⟩, disk⟩
  obtain rfl : victim = victim' := same
  cases victim with
  | none => exact .ok ⟨rfl, h₁⟩
  | some target =>
    have allocated : Models { b₁ with diskManager := b₁.diskManager.allocatePage.2 }
        { c₁ with diskManager := b₁.diskManager.allocatePage.2 } :=
      ⟨h₁.pages, h₁.replacer, h₁.freeList, rfl, h₁.shallow, h₁.stored⟩
    have id₁ : IsPageId b₁.diskManager.allocatePage.1 := by
      rw [show b₁.diskManager = b.diskManager from disk]
      exact id
    obtain ⟨c₂, run, occupied⟩ := (allocated.writeBack target).occupy target id₁ Mem.zero
    dsimp only
    rw [show c₁.diskManager = b₁.diskManager from h₁.disk]
    simp only [bind, Except.bind, pure, Except.pure]
    rw [run]
    exact .ok ⟨rfl, occupied⟩

end Models

/-! ## Clients -/

variable {n : ℕ}

theorem hashed_agrees :
    Script.Agrees handle (@HashedPool.handle n) Request.HasId Models := by
  intro b c q h hasId
  cases q with
  | newPage => exact h.newPage hasId
  | fetchPage p => exact h.fetchPage hasId
  | unpinPage p isDirty => exact h.unpinPage p isDirty
  | flushPage p => exact h.flushPage p
  | deletePage p => exact h.deletePage p
  | page frame => exact .ok ⟨congrFun h.pages.symm frame, h⟩
  | store frame data =>
    refine .ok ⟨rfl, ?_⟩
    change Models (b.setPage frame { b.pages frame with data := data })
      (c.setPage frame { c.pages frame with data := data })
    rw [h.pages]
    exact h.setPage frame _

/-- Whatever its clients do, the pool of Homework2 gives the same replies with its hash table as with
a map, or stops at the same call. -/
theorem hashed_run {α : Type} (script : Script (@Request.Reply n) Fault α)
    (ids : script.Allowed handle Request.HasId (.new n)) :
    Agree (Script.SameReply Models) (script.run handle (.new n))
      (script.run HashedPool.handle {}) :=
  hashed_agrees.run script Models.start ids

theorem hashed_run_fetchedAgain :
    ∃ c, fetchedAgain.run HashedPool.handle {} = .ok (7, c) :=
  Script.SameReply.of_reply (hashed_run fetchedAgain (by decide +kernel)) (by decide +kernel)

end ScuDb.Homework2
