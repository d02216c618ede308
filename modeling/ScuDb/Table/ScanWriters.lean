import ScuDb.Concurrency.RWMutex
import ScuDb.Table.TableIterator

/-!
# A scan next to writers

One thread runs `TableIterator::operator++`, others run `TableHeap::InsertTuple`, `MarkDelete` and
`UpdateTuple` on the pages of one table.  A step of a thread is a stretch under the `mutex_` of a
page latch together with what the thread does until its next latch operation; the page it works on
then is latched, so nobody sees a difference.  A page stays in one frame while a thread has it
pinned, so its latch is named by the page id.  A step that would fault is not taken.
-/

namespace ScuDb

open ByteMem RWMutex

namespace ScanWriters

/-- A change of one tuple under the write latch of its page. -/
inductive Change
  | markDelete
  | updateTuple (tuple : List UInt8)

/-- Where a thread is: the latch operation it makes next and what it needs to go on.  `cur` is the
page it works on. -/
inductive Pc
  /-- between calls -/
  | done
  /-- `operator++`: latch the page of the tuple the iterator stands on -/
  | scanFirst (rid : RID)
  /-- `operator++`: unlatch `cur` to go on with the page behind it -/
  | scanMove (cur next : PageId)
  /-- `operator++`: latch a page it went on to -/
  | scanNext (cur : PageId)
  /-- `operator++`, `cur` latched: latch the page of the found tuple in `GetTuple` -/
  | scanTuple (cur : PageId) (rid : RID)
  /-- `GetTuple`: unlatch the page of the tuple -/
  | scanCopied (cur : PageId) (rid : RID)
  /-- `operator++`: unlatch the last page -/
  | scanLeave (cur : PageId)
  /-- `InsertTuple`: latch a page -/
  | insertAt (tuple : List UInt8) (cur : PageId)
  /-- `InsertTuple`: unlatch a full page -/
  | insertMove (tuple : List UInt8) (cur next : PageId)
  /-- `InsertTuple`, `cur` latched: latch a new page -/
  | insertNew (tuple : List UInt8) (cur new : PageId)
  /-- `InsertTuple`: unlatch the page before the new one -/
  | insertLinked (tuple : List UInt8) (cur new : PageId)
  /-- `InsertTuple`: unlatch the last page -/
  | insertLeave (cur : PageId)
  /-- `MarkDelete` or `UpdateTuple`: latch the page of the tuple -/
  | changeAt (change : Change) (rid : RID)
  /-- `MarkDelete` or `UpdateTuple`: unlatch the page -/
  | changeLeave (cur : PageId)

/-- A latch operation on a page. -/
inductive LatchOp
  | rLock (p : PageId)
  | wLock (p : PageId)
  | rUnlock (p : PageId)
  | wUnlock (p : PageId)
deriving DecidableEq

/-- The next latch operation of a thread. -/
def Pc.op : Pc → Option LatchOp
  | .done => none
  | .scanFirst rid => some (.rLock rid.pageId)
  | .scanMove cur _ => some (.rUnlock cur)
  | .scanNext cur => some (.rLock cur)
  | .scanTuple _ rid => some (.rLock rid.pageId)
  | .scanCopied _ rid => some (.rUnlock rid.pageId)
  | .scanLeave cur => some (.rUnlock cur)
  | .insertAt _ cur => some (.wLock cur)
  | .insertMove _ cur _ => some (.wUnlock cur)
  | .insertNew _ _ new => some (.wLock new)
  | .insertLinked _ cur _ => some (.wUnlock cur)
  | .insertLeave cur => some (.wUnlock cur)
  | .changeAt _ rid => some (.wLock rid.pageId)
  | .changeLeave cur => some (.wUnlock cur)

/-- The pages, the ids of those in the table, and the next id `NewPage` hands out. -/
structure Memory where
  page : PageId → PageData
  table : Set PageId
  nextPageId : PageId

def Memory.setPage (mem : Memory) (p : PageId) (page : PageData) : Memory :=
  { mem with page := Function.update mem.page p page }

/-- `operator++` with its next tuple found: it is copied unless the scan is at its end or the pool
has no frame for `GetTuple`. -/
def scanTo (frame : Bool) (cur : PageId) (rid : RID) : Pc :=
  if (⟨{ rid := rid }⟩ : TableIterator).eq TableIterator.«end» then .scanLeave cur
  else if frame then .scanTuple cur rid else .scanLeave cur

/-- `operator++` with nothing found on `cur`: go on to the page behind it, if there is one. -/
def scanOn (frame : Bool) (cur : PageId) (page : PageData) : Except Fault Pc :=
  let next := TablePage.getNextPageId page
  if next = invalidPageId then .ok (scanTo frame cur {})
  else if frame then .ok (.scanMove cur next) else .error .nullDeref

/-- The loop of `InsertTuple` with `cur` latched. -/
def insertOn (frame : Bool) (tuple : List UInt8) (cur : PageId) (mem : Memory) :
    Except Fault (Pc × Memory) := do
  match ← TablePage.insertTuple (mem.page cur) tuple with
  | (some _, page) => return (.insertLeave cur, mem.setPage cur page)
  | (none, _) =>
    let next := TablePage.getNextPageId (mem.page cur)
    if next ≠ invalidPageId then return (.insertMove tuple cur next, mem)
    if !frame then return (.insertLeave cur, mem)
    if mem.nextPageId ≥ 2147483647 then throw .overflow
    return (.insertNew tuple cur mem.nextPageId,
      { mem.setPage mem.nextPageId Mem.zero with nextPageId := mem.nextPageId + 1 })

/-- The change of a page by `MarkDelete` or `UpdateTuple`. -/
def Change.apply (page : PageData) (slotNum : ℤ) : Change → Except Fault PageData
  | .markDelete => do
    let (_, page) ← TablePage.markDelete page slotNum
    return page
  | .updateTuple tuple => do
    let (_, page) ← TablePage.updateTuple page tuple slotNum
    return page

/-- What a thread does behind its latch operation, up to the next one. -/
def Pc.advance (frame : Bool) (mem : Memory) : Pc → Except Fault (Pc × Memory)
  | .done => return (.done, mem)
  | .scanFirst rid => do
    match ← TablePage.getNextTupleRid (mem.page rid.pageId) rid with
    | some next => return (scanTo frame rid.pageId next, mem)
    | none => return (← scanOn frame rid.pageId (mem.page rid.pageId), mem)
  | .scanMove _ next => return (.scanNext next, mem)
  | .scanNext cur => do
    match TablePage.getFirstTupleRid (mem.page cur) with
    | some next => return (scanTo frame cur next, mem)
    | none => return (← scanOn frame cur (mem.page cur), mem)
  | .scanTuple cur rid => do
    let _ ← TablePage.getTuple (mem.page rid.pageId) rid.slotNum
    return (.scanCopied cur rid, mem)
  | .scanCopied cur _ => return (.scanLeave cur, mem)
  | .scanLeave _ => return (.done, mem)
  | .insertAt tuple cur => insertOn frame tuple cur mem
  | .insertMove tuple _ next => return (.insertAt tuple next, mem)
  | .insertNew tuple cur new =>
    let page := TablePage.setNextPageId (mem.page cur) new
    let mem := mem.setPage cur page
    let blank := TablePage.init (mem.page new) new pageSize (TablePage.getPageId page)
    return (.insertLinked tuple cur new,
      { mem.setPage new blank with table := insert new mem.table })
  | .insertLinked tuple _ new => insertOn frame tuple new mem
  | .insertLeave _ => return (.done, mem)
  | .changeAt change rid => do
    let page ← change.apply (mem.page rid.pageId) rid.slotNum
    return (.changeLeave rid.pageId, mem.setPage rid.pageId page)
  | .changeLeave _ => return (.done, mem)

/-- The table, the page latches and the threads. -/
structure System (Tid : Type) where
  mem : Memory
  latch : PageId → RWMutex := fun _ => {}
  pc : Tid → Pc
  stage : Tid → Stage := fun _ => .idle

variable {Tid : Type} [DecidableEq Tid]

/-- Thread `t` leaves a stretch of `RLock` or `WLock` on the latch of `p`: it is past the call and
goes on, or it waits. -/
def System.settle (s : System Tid) (t : Tid) (p : PageId) (r : Stage × RWMutex) (frame : Bool) :
    Except Fault (System Tid) := do
  let s := { s with latch := Function.update s.latch p r.2 }
  if r.1 = .reading ∨ r.1 = .writing then
    let (pc, mem) ← (s.pc t).advance frame s.mem
    return { s with
      mem := mem, pc := Function.update s.pc t pc, stage := Function.update s.stage t .idle }
  else return { s with stage := Function.update s.stage t r.1 }

/-- Thread `t` leaves `RUnlock` or `WUnlock` on the latch of `p` and goes on. -/
def System.release (s : System Tid) (t : Tid) (p : PageId) (mutex : RWMutex) (woken : Tid → Bool)
    (frame : Bool) : Except Fault (System Tid) := do
  let (pc, mem) ← (s.pc t).advance frame s.mem
  return { mem := mem, latch := Function.update s.latch p mutex, pc := Function.update s.pc t pc,
           stage := wakeAll s.stage woken }

/-- What a thread sleeps on in the latch of `p`. -/
def System.sleeps (s : System Tid) (p : PageId) (t : Tid) : Option Cond :=
  if (s.pc t).op = some (.rLock p) ∨ (s.pc t).op = some (.wLock p) then (s.stage t).sleepsOn
  else none

/-- The start of a call on a tuple or a page of the table: thread `scanner` scans and the others
write. -/
inductive Starts (table : Set PageId) (scans : Prop) : Pc → Prop
  | scan (rid : RID) (h : rid.pageId ∈ table) (role : scans) : Starts table scans (.scanFirst rid)
  | insert (tuple : List UInt8) (first : PageId) (h : first ∈ table) (role : ¬ scans)
      (fits : tuple.length + 32 ≤ pageSize) : Starts table scans (.insertAt tuple first)
  | change (change : Change) (rid : RID) (h : rid.pageId ∈ table) (role : ¬ scans) :
      Starts table scans (.changeAt change rid)

/-- A step of thread `t`. -/
inductive Step (scanner t : Tid) (s : System Tid) : System Tid → Prop
  | call (pc : Pc) (free : (s.pc t).op = none) (starts : Starts s.mem.table (t = scanner) pc) :
      Step scanner t s { s with pc := Function.update s.pc t pc }
  | rLock (p : PageId) (frame : Bool) (s' : System Tid) (op : (s.pc t).op = some (.rLock p))
      (ready : s.stage t = .idle ∨ s.stage t = .joining true)
      (ok : s.settle t p (s.latch p).rLock frame = .ok s') : Step scanner t s s'
  | wLock (p : PageId) (frame : Bool) (s' : System Tid) (op : (s.pc t).op = some (.wLock p))
      (ready : s.stage t = .idle ∨ s.stage t = .entering true)
      (ok : s.settle t p (s.latch p).wLock frame = .ok s') : Step scanner t s s'
  | drain (p : PageId) (frame : Bool) (s' : System Tid) (op : (s.pc t).op = some (.wLock p))
      (ready : s.stage t = .draining true)
      (ok : s.settle t p (s.latch p).drain frame = .ok s') : Step scanner t s s'
  | rUnlock (p : PageId) (frame : Bool) (woken : Tid → Bool) (s' : System Tid)
      (op : (s.pc t).op = some (.rUnlock p))
      (wakes : (s.latch p).rUnlock.2.Wakes (s.sleeps p) woken)
      (ok : s.release t p (s.latch p).rUnlock.1 woken frame = .ok s') : Step scanner t s s'
  | wUnlock (p : PageId) (frame : Bool) (woken : Tid → Bool) (s' : System Tid)
      (op : (s.pc t).op = some (.wUnlock p))
      (wakes : (s.latch p).wUnlock.2.Wakes (s.sleeps p) woken)
      (ok : s.release t p (s.latch p).wUnlock.1 woken frame = .ok s') : Step scanner t s s'
  /-- a spurious wakeup -/
  | wake (sleeps : (s.stage t).sleepsOn ≠ none) :
      Step scanner t s { s with stage := Function.update s.stage t (s.stage t).wake }

/-- The thread is in `RLock` or `WLock` and does not get past it: it sleeps, or its test would make
it sleep again. -/
def Blocked (s : System Tid) (t : Tid) : Prop :=
  match (s.pc t).op, s.stage t with
  | some (.wLock p), .entering woken => woken = false ∨ (s.latch p).writerEntered = true
  | some (.wLock p), .draining woken => woken = false ∨ (s.latch p).readerCount > 0
  | some (.rLock p), .joining woken =>
    woken = false ∨ ((s.latch p).writerEntered || (s.latch p).readerCount == maxReaders) = true
  | _, _ => False

end ScanWriters

end ScuDb
