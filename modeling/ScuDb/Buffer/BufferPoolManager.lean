import ScuDb.Buffer.LRUReplacer

/-!
# The buffer pool manager

`BufferPoolManager n` is a pool of `n` frames over a disk whose `readPage` returns what the last
`writePage` of that page stored, or zeros.  The page table holds what the hash table stores: a
second `insert` of a key keeps the stored entry, as `std::map::insert` does.
-/

namespace ScuDb

open ByteMem

/-- `Page`: a frame of the pool.  The `int` pin count has no bound here. -/
structure Page where
  data : PageData := Mem.zero
  pageId : PageId := invalidPageId
  pinCount : ℤ := 0
  isDirty : Bool := false

/-- The disk the pool works on, with the allocation counter of `DiskManager`. -/
structure IdealDisk where
  pages : PageId → PageData := fun _ => Mem.zero
  nextPageId : ℤ := 0

namespace IdealDisk

def readPage (d : IdealDisk) (pageId : PageId) : PageData := d.pages pageId

def writePage (d : IdealDisk) (pageId : PageId) (data : PageData) : IdealDisk :=
  { d with pages := Function.update d.pages pageId data }

/-- `AllocatePage`, of fewer than 2^31 pages: the `page_id_t` counter has no bound here. -/
def allocatePage (d : IdealDisk) : PageId × IdealDisk :=
  (d.nextPageId, { d with nextPageId := d.nextPageId + 1 })

/-- `DeallocatePage` does nothing. -/
def deallocatePage (d : IdealDisk) (_pageId : PageId) : IdealDisk := d

end IdealDisk

/-- The contents of `page_table_`. -/
def PageTable (n : ℕ) := PageId → Option (Fin n)

namespace PageTable

variable {n : ℕ}

def new : PageTable n := fun _ => none

def find (t : PageTable n) (pageId : PageId) : Option (Fin n) := t pageId

/-- `Insert`: an entry that is already there stays. -/
def insert (t : PageTable n) (pageId : PageId) (frame : Fin n) : PageTable n :=
  Function.update t pageId (some ((t pageId).getD frame))

def remove (t : PageTable n) (pageId : PageId) : PageTable n := Function.update t pageId none

end PageTable

/-- `BufferPoolManager` with `n = pool_size_` frames. -/
structure BufferPoolManager (n : ℕ) where
  pages : Fin n → Page := fun _ => {}
  pageTable : PageTable n := PageTable.new
  replacer : LRUReplacer (Fin n) := LRUReplacer.new
  freeList : List (Fin n) := List.finRange n
  diskManager : IdealDisk := {}

namespace BufferPoolManager

variable {n : ℕ}

/-- The constructor: every frame is free. -/
def new (n : ℕ) : BufferPoolManager n := {}

def setPage (b : BufferPoolManager n) (frame : Fin n) (page : Page) : BufferPoolManager n :=
  { b with pages := Function.update b.pages frame page }

/-- `GetVictimPage`: the head of the free list, or else the victim of the replacer. -/
def getVictimPage (b : BufferPoolManager n) :
    Except Fault (Option (Fin n) × BufferPoolManager n) :=
  match b.freeList with
  | [] =>
    if b.replacer.size = 0 then .ok (none, b)
    else
      match b.replacer.victim with
      | none => .ok (none, b)
      | some (tar, replacer) => do
        assert ((b.pages tar).pinCount = 0)
        return (some tar, { b with replacer := replacer })
  | tar :: rest => do
    assert ((b.pages tar).pageId = invalidPageId)
    assert ((b.pages tar).pinCount = 0)
    return (some tar, { b with freeList := rest })

/-- A dirty frame goes to disk before it is reused. -/
def writeBack (b : BufferPoolManager n) (tar : Fin n) : BufferPoolManager n :=
  if (b.pages tar).isDirty then
    { b with diskManager := b.diskManager.writePage (b.pages tar).pageId (b.pages tar).data }
  else b

/-- Steps 3 and 4 of `FetchPage` and `NewPage`: the frame leaves its old page and holds `pageId`
with the bytes `data`, pinned once. -/
def occupy (b : BufferPoolManager n) (tar : Fin n) (pageId : PageId) (data : PageData) :
    BufferPoolManager n :=
  { b with
    pageTable := (b.pageTable.remove (b.pages tar).pageId).insert pageId tar
    pages := Function.update b.pages tar
      { data := data, pageId := pageId, pinCount := 1, isDirty := false } }

/-- `FetchPage`: the frame that holds the page, or `none` for `nullptr`. -/
def fetchPage (b : BufferPoolManager n) (pageId : PageId) :
    Except Fault (Option (Fin n) × BufferPoolManager n) :=
  match b.pageTable.find pageId with
  | some tar =>
    let page := b.pages tar
    let b := b.setPage tar { page with pinCount := page.pinCount + 1 }
    .ok (some tar, { b with replacer := (b.replacer.erase tar).2 })
  | none => do
    let (victim, b) ← b.getVictimPage
    match victim with
    | none => return (none, b)
    | some tar =>
      let b := b.writeBack tar
      return (some tar, b.occupy tar pageId (b.diskManager.readPage pageId))

/-- `UnpinPage`: the dirty flag is set before the pin count is looked at. -/
def unpinPage (b : BufferPoolManager n) (pageId : PageId) (isDirty : Bool) :
    Except Fault (Bool × BufferPoolManager n) :=
  match b.pageTable.find pageId with
  | none => .ok (false, b)
  | some tar =>
    let page : Page := { b.pages tar with isDirty := (b.pages tar).isDirty || isDirty }
    if page.pinCount ≤ 0 then .error .assertion
    else
      let page : Page := { page with pinCount := page.pinCount - 1 }
      let b := b.setPage tar page
      if page.pinCount = 0 then .ok (true, { b with replacer := b.replacer.insert tar })
      else .ok (true, b)

/-- `FlushPage`. -/
def flushPage (b : BufferPoolManager n) (pageId : PageId) : Bool × BufferPoolManager n :=
  match b.pageTable.find pageId with
  | none => (false, b)
  | some tar =>
    if (b.pages tar).pageId = invalidPageId then (false, b)
    else if (b.pages tar).isDirty then
      let b := { b with diskManager := b.diskManager.writePage pageId (b.pages tar).data }
      (true, b.setPage tar { b.pages tar with isDirty := false })
    else (true, b)

/-- `DeletePage`. -/
def deletePage (b : BufferPoolManager n) (pageId : PageId) : Bool × BufferPoolManager n :=
  match b.pageTable.find pageId with
  | none => (true, { b with diskManager := b.diskManager.deallocatePage pageId })
  | some tar =>
    if 0 < (b.pages tar).pinCount then (false, b)
    else
      let b := { b with
        replacer := (b.replacer.erase tar).2
        pageTable := b.pageTable.remove pageId }
      let b := b.setPage tar
        { b.pages tar with isDirty := false, data := Mem.zero, pageId := invalidPageId }
      (true, { b with
        freeList := b.freeList ++ [tar]
        diskManager := b.diskManager.deallocatePage pageId })

/-- `NewPage`: the new page id and its frame, or `none` for `nullptr`. -/
def newPage (b : BufferPoolManager n) :
    Except Fault (Option (PageId × Fin n) × BufferPoolManager n) := do
  let (victim, b) ← b.getVictimPage
  match victim with
  | none => return (none, b)
  | some tar =>
    let (pageId, disk) := b.diskManager.allocatePage
    let b := { b with diskManager := disk }.writeBack tar
    return (some (pageId, tar), b.occupy tar pageId Mem.zero)

end BufferPoolManager

end ScuDb
