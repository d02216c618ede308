import ScuDb.Buffer.PagePool
import ScuDb.Page.TablePage

/-!
# Table heaps

A table heap is a list of table pages, linked by their page ids.  Its operations fetch and latch
one page after the other; each change is recorded in the write set of the transaction.  Logging is
off, so the lock manager takes no part.
-/

namespace ScuDb

open ByteMem PagePool

/-- `Tuple`: the record id and the bytes. -/
structure Tuple where
  rid : RID := {}
  data : List UInt8 := []
deriving DecidableEq

/-- `TableHeap`: everything but its first page lives in the pool. -/
structure TableHeap where
  firstPageId : PageId
deriving DecidableEq

/-- `WType`. -/
inductive WType
  | insert
  | delete
  | update
deriving DecidableEq

/-- `WriteRecord`. -/
structure WriteRecord where
  rid : RID
  wtype : WType
  tuple : Tuple
  table : TableHeap
deriving DecidableEq

/-- `TransactionState`. -/
inductive TransactionState
  | growing
  | shrinking
  | committed
  | aborted
deriving DecidableEq

/-- `Transaction`, as far as tables use it; the last record of the write set comes first. -/
structure Transaction where
  state : TransactionState := .growing
  writeSet : List WriteRecord := []
deriving DecidableEq

namespace Transaction

def setState (txn : Transaction) (state : TransactionState) : Transaction :=
  { txn with state := state }

/-- `GetWriteSet()->emplace_back`. -/
def record (txn : Transaction) (rid : RID) (wtype : WType) (tuple : Tuple) (table : TableHeap) :
    Transaction :=
  { txn with writeSet := ⟨rid, wtype, tuple, table⟩ :: txn.writeSet }

end Transaction

namespace TableHeap

/-- The bracket around the use of one page under its write latch: `body` returns its result and
the new page if it changed it.  `none` is the null pointer. -/
def onPage {β : Type} (p : PageId) (body : PageData → Except Fault (β × Option PageData))
    (isDirty : β → Bool) : PoolM PageData (Option β) := do
  if !(← fetchPage p) then return none
  wLatch p
  let page ← getPage p
  let (r, new) ← body page
  if let some new := new then setPage p new
  wUnlatch p
  unpinPage (TablePage.getPageId (new.getD page)) (isDirty r)
  return some r

/-- The constructor that creates a table. -/
def create : PoolM PageData TableHeap := do
  let some firstPageId ← newPage | throw .assertion
  wLatch firstPageId
  let page ← getPage firstPageId
  setPage firstPageId (TablePage.init page firstPageId pageSize invalidPageId)
  wUnlatch firstPageId
  unpinPage firstPageId true
  return ⟨firstPageId⟩

/-- The loop of `InsertTuple`, with the latched page `cur`: the RID of the inserted tuple, or
`none` when no page could be added. -/
def insertLoop (tuple : Tuple) : ℕ → PageId → PoolM PageData (Option RID)
  | 0, _ => throw .diverges
  | fuel + 1, cur => do
    let page ← getPage cur
    match ← TablePage.insertTuple page tuple.data with
    | (some rid, new) =>
      setPage cur new
      wUnlatch cur
      unpinPage (TablePage.getPageId new) true
      return some rid
    | (none, _) =>
      let nextPageId := TablePage.getNextPageId page
      if nextPageId ≠ invalidPageId then
        wUnlatch cur
        unpinPage (TablePage.getPageId page) false
        if !(← fetchPage nextPageId) then throw .nullDeref
        wLatch nextPageId
        insertLoop tuple fuel nextPageId
      else
        let some nextPageId ← newPage
          | wUnlatch cur
            unpinPage (TablePage.getPageId page) false
            return none
        wLatch nextPageId
        let page := TablePage.setNextPageId page nextPageId
        setPage cur page
        let blank ← getPage nextPageId
        setPage nextPageId
          (TablePage.init blank nextPageId pageSize (TablePage.getPageId page))
        wUnlatch cur
        unpinPage (TablePage.getPageId page) true
        insertLoop tuple fuel nextPageId

/-- `InsertTuple`: the RID of the tuple, or `none` for `false`.  Every page is visited at most once
unless the list is cyclic, so the page counter bounds the loop. -/
def insertTuple (heap : TableHeap) (tuple : Tuple) (txn : Transaction) :
    PoolM PageData (Option RID × Transaction) := do
  if tuple.data.length + 32 > pageSize then return (none, txn.setState .aborted)
  if !(← fetchPage heap.firstPageId) then return (none, txn.setState .aborted)
  wLatch heap.firstPageId
  let pool ← get
  match ← insertLoop tuple (pool.nextPageId.toNat + 2) heap.firstPageId with
  | none => return (none, txn.setState .aborted)
  | some rid => return (some rid, txn.record rid .insert {} heap)

/-- `MarkDelete`: the result of the page's `MarkDelete` is not looked at. -/
def markDelete (heap : TableHeap) (rid : RID) (txn : Transaction) :
    PoolM PageData (Bool × Transaction) := do
  let r ← onPage rid.pageId (fun page => do
    let (r, page) ← TablePage.markDelete page rid.slotNum
    return (r, some page)) fun _ => true
  match r with
  | none => return (false, txn.setState .aborted)
  | some _ => return (true, txn.record rid .delete {} heap)

/-- `UpdateTuple`. -/
def updateTuple (heap : TableHeap) (tuple : Tuple) (rid : RID) (txn : Transaction) :
    PoolM PageData (Bool × Transaction) := do
  let r ← onPage rid.pageId (fun page => do
    let (old, page) ← TablePage.updateTuple page tuple.data rid.slotNum
    return (old, old.map fun _ => page)) Option.isSome
  match r with
  | none => return (false, txn.setState .aborted)
  | some none => return (false, txn)
  | some (some old) =>
    if txn.state = .aborted then return (true, txn)
    else return (true, txn.record rid .update ⟨rid, old⟩ heap)

/-- `ApplyDelete`.  `LockManager::Unlock` does nothing. -/
def applyDelete (_heap : TableHeap) (rid : RID) : PoolM PageData Unit := do
  let r ← onPage rid.pageId (fun page => do
    let page ← TablePage.applyDelete page rid.slotNum
    return ((), some page)) fun _ => true
  assert r.isSome

/-- `RollbackDelete`. -/
def rollbackDelete (_heap : TableHeap) (rid : RID) : PoolM PageData Unit := do
  let r ← onPage rid.pageId (fun page => do
    let page ← TablePage.rollbackDelete page rid.slotNum
    return ((), some page)) fun _ => true
  assert r.isSome

/-- `GetTuple`: the tuple, or `none` for `false`. -/
def getTuple (_heap : TableHeap) (rid : RID) (txn : Transaction) :
    PoolM PageData (Option Tuple × Transaction) := do
  if !(← fetchPage rid.pageId) then return (none, txn.setState .aborted)
  rLatch rid.pageId
  let page ← getPage rid.pageId
  let bytes ← TablePage.getTuple page rid.slotNum
  rUnlatch rid.pageId
  unpinPage rid.pageId false
  return (bytes.map fun data => ⟨rid, data⟩, txn)

end TableHeap

end ScuDb
