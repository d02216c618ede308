import ScuDb.Table.TableHeap

/-!
# Sequential scans

`TableHeap::begin`, `TableHeap::end` and `TableIterator`.  A scan starts at `begin` and collects
tuples with `++` until the iterator equals `end`.
-/

namespace ScuDb

open PagePool

/-- `RID::Get`: the page id in the upper and the slot number in the lower 32 bits; a negative slot
number sets all upper bits. -/
def RID.get (rid : RID) : ℤ :=
  if rid.slotNum < 0 then rid.slotNum else rid.pageId * 4294967296 + rid.slotNum

/-- `TableIterator`: the tuple it stands on. -/
structure TableIterator where
  tuple : Tuple

namespace TableIterator

/-- `operator==`. -/
def eq (it other : TableIterator) : Bool := it.tuple.rid.get = other.tuple.rid.get

/-- `TableHeap::end`. -/
def «end» : TableIterator := ⟨{ rid := ⟨invalidPageId, -1⟩ }⟩

/-- Read the tuple of `rid` into `tuple`; a failed `GetTuple` leaves its bytes alone. -/
def load (heap : TableHeap) (txn : Transaction) (rid : RID) (tuple : Tuple) :
    PoolM PageData TableIterator := do
  let (found, _) ← heap.getTuple rid txn
  return ⟨found.getD { tuple with rid := rid }⟩

/-- The constructor. -/
def new (heap : TableHeap) (txn : Transaction) (rid : RID) : PoolM PageData TableIterator :=
  if rid.pageId ≠ invalidPageId then load heap txn rid { rid := rid } else return ⟨{ rid := rid }⟩

/-- `TableHeap::begin`: only the first page is looked at. -/
def start (heap : TableHeap) (txn : Transaction) : PoolM PageData TableIterator := do
  if !(← fetchPage heap.firstPageId) then throw .nullDeref
  rLatch heap.firstPageId
  let page ← getPage heap.firstPageId
  let rid := (TablePage.getFirstTupleRid page).getD {}
  rUnlatch heap.firstPageId
  unpinPage heap.firstPageId false
  new heap txn rid

/-- The loop of `operator++` over the pages behind the latched page `cur`: the page it ends on and
the first live tuple found. -/
def nextPage : ℕ → PageId → PoolM PageData (PageId × RID)
  | 0, _ => throw .diverges
  | fuel + 1, cur => do
    let page ← getPage cur
    let nextPageId := TablePage.getNextPageId page
    if nextPageId = invalidPageId then return (cur, {})
    if !(← fetchPage nextPageId) then throw .nullDeref
    rUnlatch cur
    unpinPage (TablePage.getPageId page) false
    rLatch nextPageId
    let page ← getPage nextPageId
    match TablePage.getFirstTupleRid page with
    | some rid => return (nextPageId, rid)
    | none => nextPage fuel nextPageId

/-- The search of `operator++`, from the latched page of `rid` on. -/
def search (rid : RID) : PoolM PageData (PageId × RID) := do
  let page ← getPage rid.pageId
  let pool ← get
  match ← TablePage.getNextTupleRid page rid with
  | some next => return (rid.pageId, next)
  | none => nextPage (pool.nextPageId.toNat + 1) rid.pageId

/-- Step to `rid`: its tuple is copied unless it is the end. -/
def moveTo (heap : TableHeap) (txn : Transaction) (it : TableIterator) (rid : RID) :
    PoolM PageData TableIterator :=
  let moved : TableIterator := ⟨{ it.tuple with rid := rid }⟩
  if moved.eq «end» then return moved else load heap txn rid moved.tuple

/-- `operator++`. -/
def next (heap : TableHeap) (txn : Transaction) (it : TableIterator) :
    PoolM PageData TableIterator := do
  if !(← fetchPage it.tuple.rid.pageId) then throw .nullDeref
  rLatch it.tuple.rid.pageId
  let (cur, rid) ← search it.tuple.rid
  let moved ← moveTo heap txn it rid
  rUnlatch cur
  let page ← getPage cur
  unpinPage (TablePage.getPageId page) false
  return moved

/-- The tuples from an iterator up to `end`. -/
def collect (heap : TableHeap) (txn : Transaction) : ℕ → TableIterator →
    PoolM PageData (List Tuple)
  | 0, _ => throw .diverges
  | fuel + 1, it => do
    if it.eq «end» then return []
    let rest ← collect heap txn fuel (← next heap txn it)
    return it.tuple :: rest

/-- A scan of the whole table; `fuel` bounds the number of tuples. -/
def scan (heap : TableHeap) (txn : Transaction) (fuel : ℕ) : PoolM PageData (List Tuple) := do
  collect heap txn fuel (← start heap txn)

end TableIterator

end ScuDb
