import ScuDb.Buffer.Availability
import ScuDb.Buffer.LRUCount
import ScuDb.Hash.PageTable
import ScuDb.Lib.Simulation

/-!
# The buffer pool manager on its members

`HashedPool n` is the buffer pool manager with the members it has in the source: the extendible hash
table and the linked nodes of the replacer.  For page ids of 32 bits the hash table never gets too
deep, and every call does what it does with a finite map and a list.
-/

namespace ScuDb

open ByteMem

/-! ## The disk -/

/-- What the pool uses of `DiskManager`: `readPage` gets the old bytes of the frame. -/
class Disk (D : Type) where
  readPage : D → PageId → PageData → PageData × D
  writePage : D → PageId → PageData → D
  allocatePage : D → PageId × D
  deallocatePage : D → PageId → D

instance : Disk IdealDisk where
  readPage d pageId _ := (d.readPage pageId, d)
  writePage := IdealDisk.writePage
  allocatePage := IdealDisk.allocatePage
  deallocatePage := IdealDisk.deallocatePage

/-- A disk holds the pages of an ideal one as long as the pages written are in range, and the pages
read are covered by the ones written. -/
structure DiskRules (D : Type) [Disk D] where
  Holds : IdealDisk → D → Prop
  InRange : PageId → Prop
  Covers : D → PageId → Prop
  write {d : IdealDisk} {e : D} {p : PageId} (data : PageData) : Holds d e → InRange p →
    Holds (d.writePage p data) (Disk.writePage e p data) ∧
      ∀ q, Covers e q ∨ q = p → Covers (Disk.writePage e p data) q
  read {d : IdealDisk} {e : D} {p : PageId} (old : PageData) : Holds d e → InRange p → Covers e p →
    (Disk.readPage e p old).1 = d.readPage p ∧ Holds d (Disk.readPage e p old).2 ∧
      ∀ q, Covers e q → Covers (Disk.readPage e p old).2 q
  allocate {d : IdealDisk} {e : D} : Holds d e →
    (Disk.allocatePage e).1 = d.nextPageId ∧ Holds d.allocatePage.2 (Disk.allocatePage e).2 ∧
      ∀ q, Covers e q → Covers (Disk.allocatePage e).2 q
  deallocate {d : IdealDisk} {e : D} (p : PageId) : Holds d e → Holds d (Disk.deallocatePage e p) ∧
    ∀ q, Covers e q → Covers (Disk.deallocatePage e p) q

/-- The ideal disk itself. -/
def idealRules : DiskRules IdealDisk where
  Holds d e := e = d
  InRange _ := True
  Covers _ _ := True
  write _ h _ := ⟨h ▸ rfl, fun _ _ => trivial⟩
  read _ h _ _ := ⟨h ▸ rfl, h, fun _ _ => trivial⟩
  allocate h := ⟨h ▸ rfl, h ▸ rfl, fun _ _ => trivial⟩
  deallocate _ h := ⟨h, fun _ _ => trivial⟩

/-! ## The pool -/

/-- `BufferPoolManager` with `n = pool_size_` frames on a disk. -/
structure HashedPool (n : ℕ) [NeZero n] (D : Type) where
  pages : Fin n → Page := fun _ => {}
  pageTable : ExtendibleHash PageId (Fin n) := .new bucketSize
  replacer : LRUNodes (Fin n) := .new
  freeList : List (Fin n) := List.finRange n
  diskManager : D

namespace HashedPool

variable {n : ℕ} [NeZero n] {D : Type} [Disk D]

/-- The constructor. -/
def new (n : ℕ) [NeZero n] (diskManager : D) : HashedPool n D := { diskManager := diskManager }

def setPage (b : HashedPool n D) (frame : Fin n) (page : Page) : HashedPool n D :=
  { b with pages := Function.update b.pages frame page }

/-- `GetVictimPage`. -/
def getVictimPage (b : HashedPool n D) : Except Fault (Option (Fin n) × HashedPool n D) :=
  match b.freeList with
  | [] =>
    if b.replacer.size = 0 then .ok (none, b)
    else do
      let (victim, replacer) ← b.replacer.victim
      match victim with
      | none => return (none, { b with replacer := replacer })
      | some tar => do
        assert ((b.pages tar).pinCount = 0)
        return (some tar, { b with replacer := replacer })
  | tar :: rest => do
    assert ((b.pages tar).pageId = invalidPageId)
    assert ((b.pages tar).pinCount = 0)
    return (some tar, { b with freeList := rest })

/-- Step 2 of `FetchPage` and `NewPage`. -/
def writeBack (b : HashedPool n D) (tar : Fin n) : HashedPool n D :=
  if (b.pages tar).isDirty then
    { b with diskManager := Disk.writePage b.diskManager (b.pages tar).pageId (b.pages tar).data }
  else b

/-- Steps 3 and 4. -/
def occupy (b : HashedPool n D) (tar : Fin n) (pageId : PageId) (data : PageData) :
    Except Fault (HashedPool n D) := do
  let (_, table) ← b.pageTable.remove hashPageId (b.pages tar).pageId
  let table ← table.insert hashPageId pageId tar
  return { b with
    pageTable := table
    pages := Function.update b.pages tar
      { data := data, pageId := pageId, pinCount := 1, isDirty := false } }

/-- `FetchPage`. -/
def fetchPage (b : HashedPool n D) (pageId : PageId) :
    Except Fault (Option (Fin n) × HashedPool n D) := do
  match ← b.pageTable.find hashPageId pageId with
  | some tar =>
    let page := b.pages tar
    let b := b.setPage tar { page with pinCount := page.pinCount + 1 }
    let (_, replacer) ← b.replacer.erase tar
    return (some tar, { b with replacer := replacer })
  | none =>
    let (victim, b) ← b.getVictimPage
    match victim with
    | none => return (none, b)
    | some tar =>
      let b := b.writeBack tar
      let (data, disk) := Disk.readPage b.diskManager pageId (b.pages tar).data
      return (some tar, ← { b with diskManager := disk }.occupy tar pageId data)

/-- `UnpinPage`. -/
def unpinPage (b : HashedPool n D) (pageId : PageId) (isDirty : Bool) :
    Except Fault (Bool × HashedPool n D) := do
  match ← b.pageTable.find hashPageId pageId with
  | none => return (false, b)
  | some tar =>
    let page : Page := { b.pages tar with isDirty := (b.pages tar).isDirty || isDirty }
    if page.pinCount ≤ 0 then .error .assertion
    else
      let page : Page := { page with pinCount := page.pinCount - 1 }
      let b := b.setPage tar page
      if page.pinCount = 0 then
        return (true, { b with replacer := ← b.replacer.insert tar })
      else return (true, b)

/-- `FlushPage`. -/
def flushPage (b : HashedPool n D) (pageId : PageId) : Except Fault (Bool × HashedPool n D) := do
  match ← b.pageTable.find hashPageId pageId with
  | none => return (false, b)
  | some tar =>
    if (b.pages tar).pageId = invalidPageId then return (false, b)
    else if (b.pages tar).isDirty then
      let b := { b with diskManager := Disk.writePage b.diskManager pageId (b.pages tar).data }
      return (true, b.setPage tar { b.pages tar with isDirty := false })
    else return (true, b)

/-- `DeletePage`. -/
def deletePage (b : HashedPool n D) (pageId : PageId) : Except Fault (Bool × HashedPool n D) := do
  match ← b.pageTable.find hashPageId pageId with
  | none => return (true, { b with diskManager := Disk.deallocatePage b.diskManager pageId })
  | some tar =>
    if 0 < (b.pages tar).pinCount then return (false, b)
    else
      let (_, replacer) ← b.replacer.erase tar
      let (_, table) ← b.pageTable.remove hashPageId pageId
      let b := { b with replacer := replacer, pageTable := table }
      let b := b.setPage tar
        { b.pages tar with isDirty := false, data := Mem.zero, pageId := invalidPageId }
      return (true, { b with
        freeList := b.freeList ++ [tar]
        diskManager := Disk.deallocatePage b.diskManager pageId })

/-- `NewPage`. -/
def newPage (b : HashedPool n D) : Except Fault (Option (PageId × Fin n) × HashedPool n D) := do
  let (victim, b) ← b.getVictimPage
  match victim with
  | none => return (none, b)
  | some tar =>
    let (pageId, disk) := Disk.allocatePage b.diskManager
    let b := { b with diskManager := disk }.writeBack tar
    return (some (pageId, tar), ← b.occupy tar pageId Mem.zero)

end HashedPool

/-! ## The calls -/

/-- The members hold what the map and the list hold. -/
structure Models {n : ℕ} [NeZero n] {D : Type} [Disk D] (rules : DiskRules D)
    (b : BufferPoolManager n) (c : HashedPool n D) : Prop where
  pages : c.pages = b.pages
  freeList : c.freeList = b.freeList
  disk : rules.Holds b.diskManager c.diskManager
  shallow : c.pageTable.Shallow
  stored : ∀ p, ExtendibleHash.stored hashPageId c.pageTable p = b.pageTable.find p
  replacer : LRUNodes.Refines c.replacer b.replacer

namespace Models

variable {n : ℕ} [NeZero n] {D : Type} [Disk D] {rules : DiskRules D} {b b' : BufferPoolManager n}
  {c c' : HashedPool n D} {p : PageId}

theorem start {disk : D} (empty : rules.Holds {} disk) : Models rules (.new n) (.new n disk) where
  pages := rfl
  freeList := rfl
  disk := empty
  shallow := ExtendibleHash.shallow_new
  stored _ := rfl
  replacer := LRUNodes.refines_new

theorem find (h : Models rules b c) (p : PageId) :
    c.pageTable.find hashPageId p = .ok (b.pageTable.find p) := by
  rw [h.shallow.find, h.stored]

/-- The bytes of a page are not lost when its frame is taken: the frame is dirty, or the disk covers
the page. -/
def Safe (rules : DiskRules D) (b : BufferPoolManager n) (c : HashedPool n D) (p : PageId) : Prop :=
  rules.Covers c.diskManager p ∨ ∃ f, (b.pages f).pageId = p ∧ (b.pages f).isDirty = true

/-- After a call of `b` and `c`: the same result, members that hold the same, and pages of `kept`
that are as safe as before. -/
def After (rules : DiskRules D) (b : BufferPoolManager n) (c : HashedPool n D) {α : Type}
    (kept : α → PageId → Prop) (x : α × BufferPoolManager n) (y : α × HashedPool n D) : Prop :=
  x.1 = y.1 ∧ Models rules x.2 y.2 ∧ ∀ p, kept x.1 p → Safe rules b c p → Safe rules x.2 y.2 p

/-- Other replacers that hold the same. -/
theorem withReplacer (h : Models rules b c) {r : LRUReplacer (Fin n)} {r' : LRUNodes (Fin n)}
    (refines : LRUNodes.Refines r' r) :
    Models rules { b with replacer := r } { c with replacer := r' } :=
  ⟨h.pages, h.freeList, h.disk, h.shallow, h.stored, refines⟩

/-- Another frame. -/
theorem setPage (h : Models rules b c) (tar : Fin n) (page : Page) :
    Models rules (b.setPage tar page) (c.setPage tar page) := by
  refine ⟨?_, h.freeList, h.disk, h.shallow, h.stored, h.replacer⟩
  unfold HashedPool.setPage BufferPoolManager.setPage
  rw [h.pages]

/-- A frame that keeps its page id and its dirty flag, or gets dirty. -/
theorem safe_setPage {tar : Fin n} {page : Page} (pages : b'.pages = (b.setPage tar page).pages)
    (disk : c'.diskManager = c.diskManager) (same : page.pageId = (b.pages tar).pageId)
    (dirty : (b.pages tar).isDirty = true → page.isDirty = true) (safe : Safe rules b c p) :
    Safe rules b' c' p := by
  rcases safe with covers | ⟨f, id, isDirty⟩
  · exact .inl (disk ▸ covers)
  · refine .inr ⟨f, ?_⟩
    rw [pages, show (b.setPage tar page).pages f = _ from Function.update_apply b.pages tar page f]
    split_ifs with hf
    · subst hf
      exact ⟨same.trans id, dirty isDirty⟩
    · exact ⟨id, isDirty⟩

/-- `GetVictimPage` does not touch frames and disks. -/
theorem getVictimPage (h : Models rules b c) :
    Agree (fun x y => x.1 = y.1 ∧ Models rules x.2 y.2 ∧ x.2.pages = b.pages ∧
      x.2.diskManager = b.diskManager ∧ y.2.diskManager = c.diskManager)
      b.getVictimPage c.getVictimPage := by
  have free := h.freeList
  unfold BufferPoolManager.getVictimPage HashedPool.getVictimPage
  cases hb : b.freeList with
  | nil =>
    rw [hb] at free
    simp only [free, LRUReplacer.size, LRUNodes.size, one_ne_zero, if_false]
    rcases h.replacer.victim with ⟨none, run⟩ | ⟨tar, s', r', some, run, refines⟩
    · rw [none, run]
      exact .ok ⟨rfl, ⟨h.pages, hb.symm, h.disk, h.shallow, h.stored, h.replacer⟩, rfl, rfl, rfl⟩
    · rw [some, run]
      dsimp only [bind, Except.bind]
      rw [h.pages]
      apply (agree_refl (assert ((b.pages tar).pinCount = 0))).bind
      rintro _ _ rfl
      exact .ok ⟨rfl, ⟨rfl, rfl, h.disk, h.shallow, h.stored, refines⟩, rfl, rfl, rfl⟩
  | cons tar rest =>
    rw [hb] at free
    simp only [free]
    rw [h.pages]
    apply (agree_refl (assert ((b.pages tar).pageId = invalidPageId))).bind
    rintro _ _ rfl
    apply (agree_refl (assert ((b.pages tar).pinCount = 0))).bind
    rintro _ _ rfl
    exact .ok ⟨rfl, ⟨rfl, rfl, h.disk, h.shallow, h.stored, h.replacer⟩, rfl, rfl, rfl⟩

/-- Before a frame is reused, its page is covered if it was safe. -/
theorem writeBack (h : Models rules b c) (tar : Fin n)
    (inRange : (b.pages tar).isDirty = true → rules.InRange (b.pages tar).pageId) :
    Models rules (b.writeBack tar) (c.writeBack tar) ∧
      ∀ p, rules.Covers c.diskManager p ∨
        (b.pages tar).pageId = p ∧ (b.pages tar).isDirty = true →
        rules.Covers (c.writeBack tar).diskManager p := by
  unfold BufferPoolManager.writeBack HashedPool.writeBack
  rw [h.pages]
  split_ifs with dirty
  · obtain ⟨holds, covers⟩ := rules.write (b.pages tar).data h.disk (inRange dirty)
    refine ⟨⟨rfl, h.freeList, holds, h.shallow, h.stored, h.replacer⟩, fun p hp => ?_⟩
    exact covers p (hp.imp id fun same => same.1.symm)
  · exact ⟨h, fun p hp => hp.resolve_right fun same => dirty same.2⟩

theorem occupy (h : Models rules b c) (tar : Fin n) (id : IsPageId p) (data : PageData) :
    ∃ c', c.occupy tar p data = .ok c' ∧ Models rules (b.occupy tar p data) c' ∧
      c'.diskManager = c.diskManager := by
  obtain ⟨table, removed, shallow, gone⟩ := h.shallow.remove (c.pages tar).pageId
  obtain ⟨table', inserted, shallow', there⟩ := shallow.insert id tar
  refine ⟨{ c with
    pageTable := table'
    pages := Function.update c.pages tar
      { data := data, pageId := p, pinCount := 1, isDirty := false } }, ?_, ⟨?_, h.freeList, h.disk,
    shallow', fun q => ?_, h.replacer⟩, rfl⟩
  · unfold HashedPool.occupy
    rw [removed]
    simp only [bind, Except.bind]
    rw [inserted]
    rfl
  · dsimp only [BufferPoolManager.occupy]
    rw [h.pages]
  · rw [there, gone, gone, h.stored, h.stored, h.pages]
    change _ = ((b.pageTable.remove _).insert p tar).find q
    rw [BufferPoolManager.find_insert, BufferPoolManager.find_remove,
      BufferPoolManager.find_remove]

/-- A frame that loses its page or its dirty flag: only its old page may have to rely on the disk. -/
theorem safe_reuse (tar : Fin n) (pages : ∀ f ≠ tar, b'.pages f = b.pages f)
    (covers : rules.Covers c.diskManager p ∨
      (b.pages tar).pageId = p ∧ (b.pages tar).isDirty = true → rules.Covers c'.diskManager p)
    (safe : Safe rules b c p) : Safe rules b' c' p := by
  rcases safe with covered | ⟨f, id, dirty⟩
  · exact .inl (covers (.inl covered))
  · by_cases hf : f = tar
    · subst hf
      exact .inl (covers (.inr ⟨id, dirty⟩))
    · refine .inr ⟨f, ?_⟩
      rw [pages f hf]
      exact ⟨id, dirty⟩

/-- The dirty frames hold pages in range. -/
def DirtyInRange (rules : DiskRules D) (b : BufferPoolManager n) : Prop :=
  ∀ f, (b.pages f).isDirty = true → rules.InRange (b.pages f).pageId

theorem fetchPage (h : Models rules b c) (dirty : DirtyInRange rules b) (ranged : IsPageId p)
    (absent : b.pageTable.find p = none → rules.InRange p ∧ rules.Covers c.diskManager p) :
    Agree (After rules b c fun _ _ => True) (b.fetchPage p) (c.fetchPage p) := by
  unfold BufferPoolManager.fetchPage HashedPool.fetchPage
  rw [h.find]
  cases found : b.pageTable.find p with
  | some tar =>
    obtain ⟨r, run, refines⟩ := h.replacer.erase tar
    simp only [bind, Except.bind]
    rw [show (c.setPage tar _).replacer = c.replacer from rfl, run, h.pages]
    refine .ok ⟨rfl, (h.setPage tar _).withReplacer refines, fun q _ safe => ?_⟩
    exact safe_setPage rfl rfl rfl id safe
  | none =>
    obtain ⟨inRange, covered⟩ := absent found
    apply h.getVictimPage.bind
    rintro ⟨victim, b₁⟩ ⟨victim', c₁⟩ ⟨same, h₁, pages, -, disk⟩
    obtain rfl : victim = victim' := same
    simp only at pages disk h₁
    cases victim with
    | none => exact .ok ⟨rfl, h₁, fun q _ safe => by rwa [Safe, pages, disk]⟩
    | some tar =>
      obtain ⟨written, backed⟩ := h₁.writeBack tar fun h => pages ▸ dirty tar (pages ▸ h)
      rw [disk, pages] at backed
      obtain ⟨data, holds, kept⟩ := rules.read ((c₁.writeBack tar).pages tar).data written.disk
        inRange (backed p (.inl covered))
      have loaded : Models rules (b₁.writeBack tar) { c₁.writeBack tar with
          diskManager := (Disk.readPage (c₁.writeBack tar).diskManager p
            ((c₁.writeBack tar).pages tar).data).2 } :=
        ⟨written.pages, written.freeList, holds, written.shallow, written.stored, written.replacer⟩
      obtain ⟨c₂, run, related, disk₂⟩ := loaded.occupy tar ranged
        ((b₁.writeBack tar).diskManager.readPage p)
      simp only [bind, Except.bind]
      rw [data, run]
      refine .ok ⟨rfl, related, fun q _ safe => ?_⟩
      refine safe_reuse tar (fun f hf => ?_) (fun hq => ?_) safe
      · rw [BufferPoolManager.occupy_pages, if_neg hf, BufferPoolManager.writeBack_pages, pages]
      · rw [disk₂]
        exact kept q (backed q hq)

theorem newPage (h : Models rules b c) (dirty : DirtyInRange rules b)
    (ranged : IsPageId b.diskManager.nextPageId) :
    Agree (After rules b c fun _ _ => True) b.newPage c.newPage := by
  unfold BufferPoolManager.newPage HashedPool.newPage
  apply h.getVictimPage.bind
  rintro ⟨victim, b₁⟩ ⟨victim', c₁⟩ ⟨same, h₁, pages, disk, disk'⟩
  obtain rfl : victim = victim' := same
  simp only at pages disk disk' h₁
  cases victim with
  | none => exact .ok ⟨rfl, h₁, fun q _ safe => by rwa [Safe, pages, disk']⟩
  | some tar =>
    obtain ⟨next, holds, kept⟩ := rules.allocate h₁.disk
    have allocated : Models rules { b₁ with diskManager := b₁.diskManager.allocatePage.2 }
        { c₁ with diskManager := (Disk.allocatePage c₁.diskManager).2 } :=
      ⟨h₁.pages, h₁.freeList, holds, h₁.shallow, h₁.stored, h₁.replacer⟩
    obtain ⟨written, backed⟩ := allocated.writeBack tar fun h => pages ▸ dirty tar (pages ▸ h)
    obtain ⟨c₂, run, related, disk₂⟩ := written.occupy tar (disk ▸ ranged) Mem.zero
    simp only [bind, Except.bind]
    rw [next, run]
    refine .ok ⟨rfl, related, fun q _ safe => ?_⟩
    refine safe_reuse tar (fun f hf => ?_) (fun hq => ?_) safe
    · rw [BufferPoolManager.occupy_pages, if_neg hf, BufferPoolManager.writeBack_pages]
      exact congrFun pages f
    · rw [disk₂]
      refine backed q (hq.imp (fun covered => kept q (disk' ▸ covered)) fun old => ?_)
      rwa [← pages] at old

theorem unpinPage (h : Models rules b c) (p : PageId) (isDirty : Bool) :
    Agree (After rules b c fun _ _ => True) (b.unpinPage p isDirty) (c.unpinPage p isDirty) := by
  unfold BufferPoolManager.unpinPage HashedPool.unpinPage
  rw [h.find]
  cases b.pageTable.find p with
  | none => exact .ok ⟨rfl, h, fun _ _ safe => safe⟩
  | some tar =>
    simp only [bind, Except.bind]
    rw [h.pages]
    have dirtier : (b.pages tar).isDirty = true → ((b.pages tar).isDirty || isDirty) = true := by
      intro dirty
      rw [dirty, Bool.true_or]
    split_ifs with unpinned last
    · exact .error _
    · obtain ⟨r, run, refines⟩ := h.replacer.insert tar
      rw [show (c.setPage tar _).replacer = c.replacer from rfl, run]
      refine .ok ⟨rfl, (h.setPage tar _).withReplacer refines, fun q _ safe => ?_⟩
      exact safe_setPage rfl rfl rfl dirtier safe
    · exact .ok ⟨rfl, h.setPage tar _, fun q _ safe => safe_setPage rfl rfl rfl dirtier safe⟩

theorem flushPage (h : Models rules b c) (dirty : DirtyInRange rules b)
    (named : ∀ f, b.pageTable.find p = some f → (b.pages f).pageId = p) :
    Agree (After rules b c fun _ _ => True) (.ok (b.flushPage p)) (c.flushPage p) := by
  unfold BufferPoolManager.flushPage HashedPool.flushPage
  rw [h.find]
  cases found : b.pageTable.find p with
  | none => exact .ok ⟨rfl, h, fun _ _ safe => safe⟩
  | some tar =>
    simp only [bind, Except.bind]
    rw [h.pages]
    split_ifs with invalid isDirty
    · exact .ok ⟨rfl, h, fun _ _ safe => safe⟩
    · obtain ⟨holds, covers⟩ := rules.write (b.pages tar).data h.disk
        (named tar found ▸ dirty tar isDirty)
      refine .ok ⟨rfl, ⟨rfl, h.freeList, holds, h.shallow, h.stored, h.replacer⟩,
        fun q _ safe => ?_⟩
      refine safe_reuse tar (fun f hf => Function.update_of_ne hf _ _) (fun hq => ?_) safe
      exact covers q (hq.imp id fun old => old.1.symm.trans (named tar found))
    · exact .ok ⟨rfl, h, fun _ _ safe => safe⟩

theorem deletePage (h : Models rules b c)
    (named : ∀ f, b.pageTable.find p = some f → (b.pages f).pageId = p) :
    Agree (After rules b c fun r q => r = true → q ≠ p) (.ok (b.deletePage p)) (c.deletePage p) := by
  unfold BufferPoolManager.deletePage HashedPool.deletePage
  rw [h.find]
  obtain ⟨holds, kept⟩ := rules.deallocate p h.disk
  cases found : b.pageTable.find p with
  | none =>
    refine .ok ⟨rfl, ⟨h.pages, h.freeList, holds, h.shallow, h.stored, h.replacer⟩,
      fun q _ safe => ?_⟩
    exact safe.imp (kept q) id
  | some tar =>
    simp only [bind, Except.bind]
    rw [h.pages]
    split_ifs
    · exact .ok ⟨rfl, h, fun _ _ safe => safe⟩
    · obtain ⟨r, run, refines⟩ := h.replacer.erase tar
      obtain ⟨table, removed, shallow, gone⟩ := h.shallow.remove p
      rw [run]
      dsimp only
      rw [removed]
      refine .ok ⟨rfl, ⟨rfl, ?_, holds, shallow, fun q => ?_, refines⟩, fun q other safe => ?_⟩
      · dsimp only [HashedPool.setPage, BufferPoolManager.setPage]
        rw [h.freeList]
      · refine (gone q).trans ?_
        rw [h.stored]
        exact (BufferPoolManager.find_remove _ _ _).symm
      · refine safe_reuse tar (fun f hf => Function.update_of_ne hf _ _) (fun hq => ?_) safe
        refine kept q (hq.resolve_right fun old => other rfl ?_)
        exact old.1.symm.trans (named tar found)

end Models

end ScuDb
