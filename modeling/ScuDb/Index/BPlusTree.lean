import ScuDb.Buffer.PagePool
import ScuDb.Lib.Program
import ScuDb.Page.BPlusTreePage

/-!
# The B+ tree

The operations of the index on the pages of a pool, with the latches of the crabbing protocol.  A
pointer to a page is the id it was fetched under.  A transaction is its page set and its set of
deleted pages; whether an operation was given one is its argument `transaction`.

The history records what the code itself never reads: the pages an operation created, every write
to a page and every change of the root id with what was latched at that moment, and the results of
`DeletePage`.
-/

namespace ScuDb

open Program SlotArray

/-- A write to a page: the page before and after it, and the page set, the created pages and the
latch of the page at that moment. -/
structure Write (K V : Type) where
  page : PageId
  before : IndexPage K V
  after : IndexPage K V
  pageSet : List PageId
  created : List PageId
  latch : Latch

/-- The root latch at the moment `root_page_id_` is changed. -/
structure RootChange where
  mutex : Latch
  lockedCnt : ℤ
deriving DecidableEq

/-- What happened since the history was last empty. -/
structure History (K V : Type) where
  created : List PageId := []
  writes : List (Write K V) := []
  rootChanges : List RootChange := []
  deletions : List Bool := []

/-- The state of a tree, of the thread that works on it and of its transaction. -/
structure TreeState (K V : Type) where
  pool : PagePool (IndexPage K V)
  rootPageId : PageId := invalidPageId
  mMutex : Latch := {}
  mRootLockedCnt : ℤ := 0
  pageSet : List PageId := []
  deletedPageSet : Finset PageId := ∅
  history : History K V := {}

abbrev TreeM (K V α : Type) := Program (TreeState K V) Fault α

/-- The fields of `BPlusTree` that never change, with the key size of the instantiation. -/
structure BPlusTree (K : Type) where
  keySize : KeySize
  comparator : K → K → ℤ
  indexName : List UInt8

namespace Latch

/-- `WLock` or `RLock` by the only running thread. -/
def lock (exclusive : Bool) (latch : Latch) : Except Fault Latch :=
  if latch.writer ∨ exclusive ∧ 0 < latch.readers then .error .blocked
  else if exclusive then .ok { latch with writer := true }
  else .ok { latch with readers := latch.readers + 1 }

/-- `WUnlock` or `RUnlock`. -/
def unlock (exclusive : Bool) (latch : Latch) : Except Fault Latch :=
  if exclusive then .ok { latch with writer := false }
  else if latch.readers = 0 then .error .overflow
  else .ok { latch with readers := latch.readers - 1 }

end Latch

namespace BPlusTree

variable {K V α : Type}

/-! ## The pool, the transaction and the history -/

/-- A call of the pool. -/
def onPool (x : PoolM (IndexPage K V) α) : TreeM K V α := fun s =>
  match x s.pool with
  | .ok (a, pool) => (.ok a, { s with pool := pool })
  | .error e => (.error e, s)

/-- `FetchPage`; the pointer is used without a check, or after an `assert`. -/
def fetchPage (p : PageId) (onNull : Fault := .nullDeref) : TreeM K V Unit := do
  if !(← onPool (PagePool.fetchPage p)) then throw onNull

def unpinPage (p : PageId) (isDirty : Bool) : TreeM K V Unit := onPool (PagePool.unpinPage p isDirty)

/-- `NewPage`; the pointer is used without a check. -/
def newPage : TreeM K V PageId := do
  let some p ← onPool PagePool.newPage | throw .nullDeref
  modify fun s => { s with history := { s.history with created := p :: s.history.created } }
  return p

def deletePage (p : PageId) : TreeM K V Unit := do
  let r ← onPool (PagePool.deletePage p)
  modify fun s => { s with history := { s.history with deletions := r :: s.history.deletions } }

def getPage (p : PageId) : TreeM K V (IndexPage K V) := fun s => (.ok (s.pool.content p), s)

/-- The page as a `BPlusTreePage`. -/
def getTreePage (p : PageId) : TreeM K V BPlusTreePage := do
  (← getPage p).asTreePage

def getLeaf (p : PageId) : TreeM K V (LeafPage K V) := do
  (← getPage p).asLeaf

def getInternal (p : PageId) : TreeM K V (InternalPage K) := do
  (← getPage p).asInternal

def setPage (p : PageId) (page : IndexPage K V) : TreeM K V Unit := fun s =>
  (.ok (), { s with
    pool := { s.pool with
      content := Function.update s.pool.content p page
      changed := Function.update s.pool.changed p true }
    history := { s.history with
      writes := ⟨p, s.pool.content p, page, s.pageSet, s.history.created, s.pool.latch p⟩ ::
        s.history.writes } })

/-- `SetParentPageId` of a page that is pinned already. -/
def setParentPageId (p parentPageId : PageId) : TreeM K V Unit := do
  setPage p (← (← getPage p).setParentPageId parentPageId)

/-- A change of `root_page_id_`. -/
def setRootPageId (root : PageId) : TreeM K V Unit :=
  modify fun s => { s with
    rootPageId := root
    history := { s.history with
      rootChanges := ⟨s.mMutex, s.mRootLockedCnt⟩ :: s.history.rootChanges } }

def addIntoPageSet (transaction : Bool) (p : PageId) : TreeM K V Unit := do
  if !transaction then throw .nullDeref
  modify fun s => { s with pageSet := s.pageSet ++ [p] }

def addIntoDeletedPageSet (transaction : Bool) (p : PageId) : TreeM K V Unit := do
  if !transaction then throw .nullDeref
  modify fun s => { s with deletedPageSet := insert p s.deletedPageSet }

/-! ## Latches -/

/-- `Lock`. -/
def lock (exclusive : Bool) (p : PageId) : TreeM K V Unit :=
  onPool (if exclusive then PagePool.wLatch p else PagePool.rLatch p)

/-- `Unlock` of a pinned page. -/
def unlock (exclusive : Bool) (p : PageId) : TreeM K V Unit :=
  onPool (if exclusive then PagePool.wUnlatch p else PagePool.rUnlatch p)

/-- `Unlock` by page id. -/
def unlockById (exclusive : Bool) (p : PageId) : TreeM K V Unit := do
  fetchPage p
  unlock exclusive p
  unpinPage p exclusive

def lockRootPageId (exclusive : Bool) : TreeM K V Unit := do
  let s ← read
  let mutex ← s.mMutex.lock exclusive
  modify fun s => { s with mMutex := mutex, mRootLockedCnt := s.mRootLockedCnt + 1 }

def tryUnlockRootPageId (exclusive : Bool) : TreeM K V Unit := do
  let s ← read
  if s.mRootLockedCnt > 0 then
    let mutex ← s.mMutex.unlock exclusive
    modify fun s => { s with mMutex := mutex, mRootLockedCnt := s.mRootLockedCnt - 1 }

/-- A round of the loop of `FreePagesInTransaction`. -/
def freePage (exclusive : Bool) (p : PageId) : TreeM K V Unit := do
  unlock exclusive p
  unpinPage p exclusive
  if p ∈ (← read).deletedPageSet then
    deletePage p
    modify fun s => { s with deletedPageSet := s.deletedPageSet.erase p }

def freePagesInTransaction (exclusive transaction : Bool) (cur : PageId := -1) :
    TreeM K V Unit := do
  tryUnlockRootPageId exclusive
  if transaction then
    (← read).pageSet.forM (freePage exclusive)
    assert ((← read).deletedPageSet = ∅)
    modify fun s => { s with pageSet := [] }
  else
    assert (exclusive = false ∧ cur ≥ 0)
    unlockById false cur
    unpinPage cur false

def crabingProtocalFetchPage (p : PageId) (op : OperationType) (previous : PageId)
    (transaction : Bool) : TreeM K V Unit := do
  let exclusive := op ≠ .read
  fetchPage p
  lock exclusive p
  let page ← getPage p
  if previous > 0 then
    let free ← if exclusive then
        do (← page.asTreePage).isSafe page.isLeafPage op
      else pure true
    if free then freePagesInTransaction exclusive transaction previous
  if transaction then addIntoPageSet transaction p

/-! ## Search -/

variable (tree : BPlusTree K)

/-- The loop of `FindLeafPage` from the latched page `cur` on. -/
def descend (key : K) (leftMost : Bool) (op : OperationType) (transaction : Bool) :
    ℕ → PageId → TreeM K V PageId
  | 0, _ => throw .diverges
  | fuel + 1, cur => do
    match ← getPage cur with
    | .raw _ => throw .wrongPageType
    | .leaf _ => return cur
    | .internal page =>
      let next ← if leftMost then page.valueAt tree.keySize 0 else page.lookup tree.comparator key
      crabingProtocalFetchPage next op cur transaction
      descend key leftMost op transaction fuel next

/-- `FindLeafPage`: the leaf, or `none` for `nullptr`.  A path of a tree visits every page at most
once, so the page counter bounds the loop. -/
def findLeafPage (key : K) (leftMost : Bool) (op : OperationType) (transaction : Bool) :
    TreeM K V (Option PageId) := do
  let exclusive := op ≠ .read
  lockRootPageId exclusive
  let s ← read
  if s.rootPageId = invalidPageId then
    tryUnlockRootPageId exclusive
    return none
  crabingProtocalFetchPage s.rootPageId op (-1) transaction
  return some (← tree.descend key leftMost op transaction (s.pool.nextPageId.toNat + 1) s.rootPageId)

/-- `GetValue`, with the vector it puts the value into. -/
def getValue [Inhabited V] (key : K) (result : List V) (transaction : Bool) :
    TreeM K V (Bool × List V) := do
  match ← tree.findLeafPage key false .read transaction with
  | none => return (false, result)
  | some leaf =>
    let page ← getLeaf leaf
    let value := page.lookup tree.comparator key
    freePagesInTransaction false transaction page.pageId
    return (value.isSome, [value.getD (result.headD default)])

/-! ## Insertion -/

/-- `UpdateRootPageId`. -/
def updateRootPageId (insertRecord : Bool) : TreeM K V Unit := do
  fetchPage headerPageId
  let data ← (← getPage headerPageId).asRaw
  let root := (← read).rootPageId
  let (_, data) ← if insertRecord then HeaderPage.insertRecord data tree.indexName root
    else HeaderPage.updateRecord data tree.indexName root
  setPage headerPageId (.raw data)
  unpinPage headerPageId true

variable [Inhabited K] [Inhabited V]

def startNewTree (key : K) (value : V) : TreeM K V Unit := do
  let id ← newPage
  let root : LeafPage K V := LeafPage.init tree.keySize id invalidPageId
  setPage id (.leaf root)
  setRootPageId id
  tree.updateRootPageId true
  let root ← root.insert tree.keySize tree.comparator key value
  setPage id (.leaf root)
  unpinPage id true

omit [Inhabited K] [Inhabited V] in
/-- What `MoveHalfTo` and `MoveAllTo` do to a child that moves. -/
def setParentOfChild (child parentPageId : PageId) : TreeM K V Unit := do
  fetchPage child
  setParentPageId child parentPageId
  unpinPage child true

/-- `Split`. -/
def split (node : PageId) (transaction : Bool) : TreeM K V PageId := do
  let newPageId ← newPage
  lock true newPageId
  addIntoPageSet transaction newPageId
  match ← getPage node with
  | .raw _ => throw .wrongPageType
  | .leaf page =>
    let recipient := LeafPage.init tree.keySize newPageId page.parentPageId
    setPage newPageId (.leaf recipient)
    let (page, recipient) ← page.moveHalfTo tree.keySize recipient
    setPage newPageId (.leaf recipient)
    setPage node (.leaf page)
  | .internal page =>
    let recipient := InternalPage.init tree.keySize newPageId page.parentPageId
    setPage newPageId (.internal recipient)
    (← page.movedHalf tree.keySize).forM fun child => setParentOfChild child recipient.pageId
    let (page, recipient) := page.moveHalfTo recipient
    setPage newPageId (.internal recipient)
    setPage node (.internal page)
  return newPageId

/-- `InsertIntoParent`.  The recursion climbs a path of the tree. -/
def insertIntoParent : ℕ → PageId → K → PageId → Bool → TreeM K V Unit
  | 0, _, _, _, _ => throw .diverges
  | fuel + 1, oldNode, key, newNode, transaction => do
    assert (transaction = true)
    let old ← getTreePage oldNode
    let new ← getTreePage newNode
    if old.isRootPage then
      let root ← newPage
      setRootPageId root
      let newRoot := InternalPage.init tree.keySize root invalidPageId
      setPage root (.internal newRoot)
      setPage root (.internal (newRoot.populateNewRoot old.pageId key new.pageId))
      setParentPageId oldNode root
      setParentPageId newNode root
      tree.updateRootPageId false
      unpinPage newRoot.pageId true
    else
      let parId := old.parentPageId
      fetchPage parId
      setParentPageId newNode parId
      let parent ← getInternal parId
      let parent ← parent.insertNodeAfter tree.keySize old.pageId key new.pageId
      setPage parId (.internal parent)
      if parent.size > parent.maxSize then
        let newPageId ← tree.split parId transaction
        let key ← (← getInternal newPageId).keyAt tree.keySize 0
        insertIntoParent fuel parId key newPageId transaction
      unpinPage parId true

def insertIntoLeaf (key : K) (value : V) (transaction : Bool) : TreeM K V Bool := do
  let some leaf ← tree.findLeafPage key false .insert transaction | throw .nullDeref
  let page ← getLeaf leaf
  if (page.lookup tree.comparator key).isSome then
    freePagesInTransaction true transaction
    return false
  else
    let page ← page.insert tree.keySize tree.comparator key value
    setPage leaf (.leaf page)
    if page.size > page.maxSize then
      let fuel := (← read).pool.nextPageId.toNat + 1
      let newLeaf ← tree.split leaf transaction
      let key ← (← getLeaf newLeaf).keyAt 0
      tree.insertIntoParent fuel leaf key newLeaf transaction
    freePagesInTransaction true transaction
    return true

/-- `Insert`. -/
def insert (key : K) (value : V) (transaction : Bool) : TreeM K V Bool := do
  lockRootPageId true
  if (← read).rootPageId = invalidPageId then
    tree.startNewTree key value
    tryUnlockRootPageId true
    return true
  tryUnlockRootPageId true
  tree.insertIntoLeaf key value transaction

/-! ## Removal -/

omit [Inhabited K] [Inhabited V]

def adjustRoot (oldRootNode : PageId) : TreeM K V Bool := do
  match ← getPage oldRootNode with
  | .raw _ => throw .wrongPageType
  | .leaf _ =>
    setRootPageId invalidPageId
    tree.updateRootPageId false
    return true
  | .internal page =>
    if page.size = 1 then
      let (newRootId, page) ← page.removeAndReturnOnlyChild
      setPage oldRootNode (.internal page)
      setRootPageId newRootId
      tree.updateRootPageId false
      fetchPage newRootId .assertion
      setParentPageId newRootId invalidPageId
      unpinPage newRootId true
      return true
    else return false

/-- `FindLeftSibling`: whether the sibling is the right one, and the sibling. -/
def findLeftSibling (node : PageId) (transaction : Bool) : TreeM K V (Bool × PageId) := do
  let page ← getTreePage node
  fetchPage page.parentPageId
  let parent ← getInternal page.parentPageId
  let index := parent.valueIndex page.pageId
  let siblingIndex := if index = 0 then index + 1 else index - 1
  let sibling ← parent.valueAt tree.keySize siblingIndex
  crabingProtocalFetchPage sibling .delete (-1) transaction
  unpinPage parent.pageId false
  return (index = 0, sibling)

/-- `MoveAllTo`. -/
def moveAllTo (node recipient : PageId) (indexInParent : ℤ) : TreeM K V Unit := do
  match ← getPage node, ← getPage recipient with
  | .leaf page, .leaf other =>
    let (page, other) ← page.moveAllTo tree.keySize other
    setPage recipient (.leaf other)
    setPage node (.leaf page)
  | .internal page, .internal other =>
    fetchPage page.parentPageId .assertion
    let parent ← getInternal page.parentPageId
    let page ← page.setKeyAt tree.keySize 0 (← parent.keyAt tree.keySize indexInParent)
    setPage node (.internal page)
    unpinPage parent.pageId false
    ((entries page.array page.size).map Prod.snd).forM fun child =>
      setParentOfChild child other.pageId
    let (page, other) ← page.moveAllTo tree.keySize other
    setPage recipient (.internal other)
    setPage node (.internal page)
  | _, _ => throw .wrongPageType

/-- What `MoveFirstToEndOf` and `CopyFirstFrom` do to the child that moves. -/
def adoptChild (child parentPageId : PageId) : TreeM K V Unit := do
  fetchPage child .assertion
  setParentPageId child parentPageId
  unpinPage (← getTreePage child).pageId true

/-- The update of the key of a page in its parent page. -/
def setKeyInParent (parentPageId : PageId) (index : InternalPage K → ℤ) (key : K) :
    TreeM K V Unit := do
  fetchPage parentPageId
  let parent ← getInternal parentPageId
  setPage parentPageId (.internal (← parent.setKeyAt tree.keySize (index parent) key))
  unpinPage parentPageId true

/-- `MoveFirstToEndOf`. -/
def moveFirstToEndOf (node recipient : PageId) : TreeM K V Unit := do
  match ← getPage node, ← getPage recipient with
  | .leaf page, .leaf other =>
    let (page, other) ← page.moveFirstToEndOf tree.keySize other
    setPage recipient (.leaf other)
    setPage node (.leaf page)
    tree.setKeyInParent page.parentPageId (fun parent => parent.valueIndex page.pageId)
      (page.array 0).1
  | .internal page, .internal other =>
    let child := (page.array 0).2
    let (page, other) ← page.moveFirstToEndOf tree.keySize other
    setPage recipient (.internal other)
    setPage node (.internal page)
    adoptChild child other.pageId
    tree.setKeyInParent page.parentPageId (fun parent => parent.valueIndex page.pageId)
      (page.array 0).1
  | _, _ => throw .wrongPageType

/-- `MoveLastToFrontOf`. -/
def moveLastToFrontOf (node recipient : PageId) (parentIndex : ℤ) : TreeM K V Unit := do
  match ← getPage node, ← getPage recipient with
  | .leaf page, .leaf other =>
    let (page, other) ← page.moveLastToFrontOf tree.keySize other
    setPage recipient (.leaf other)
    setPage node (.leaf page)
    tree.setKeyInParent other.parentPageId (fun _ => parentIndex) (other.array 0).1
  | .internal page, .internal other =>
    let (page, other) ← page.moveLastToFrontOf tree.keySize other
    setPage recipient (.internal other)
    setPage node (.internal page)
    adoptChild (other.array 0).2 other.pageId
    tree.setKeyInParent other.parentPageId (fun _ => parentIndex) (other.array 0).1
  | _, _ => throw .wrongPageType

/-- `Redistribute`. -/
def redistribute (neighborNode node : PageId) (index : ℤ) : TreeM K V Unit :=
  if index = 0 then tree.moveFirstToEndOf neighborNode node
  else tree.moveLastToFrontOf neighborNode node index

/-- `Coalesce`, with the call of `CoalesceOrRedistribute` for the parent page. -/
def coalesce (coalesceOrRedistribute : PageId → TreeM K V Bool)
    (neighborNode node parent : PageId) (index : ℤ) (transaction : Bool) : TreeM K V Bool := do
  tree.moveAllTo node neighborNode index
  addIntoDeletedPageSet transaction (← getTreePage node).pageId
  let page ← (← getInternal parent).remove index
  setPage parent (.internal page)
  if page.size ≤ page.getMinSize false then coalesceOrRedistribute parent
  else return false

/-- `CoalesceOrRedistribute`.  The recursion climbs a path of the tree. -/
def coalesceOrRedistribute : ℕ → PageId → Bool → TreeM K V Bool
  | 0, _, _ => throw .diverges
  | fuel + 1, node, transaction => do
    let page ← getTreePage node
    if page.isRootPage then
      let delOldRoot ← tree.adjustRoot node
      if delOldRoot then addIntoDeletedPageSet transaction page.pageId
      return delOldRoot
    let (isRSibling, nearNode) ← tree.findLeftSibling node transaction
    let parent := page.parentPageId
    fetchPage parent
    let near ← getTreePage nearNode
    let parentPage ← getInternal parent
    if page.size + near.size ≤ page.maxSize then
      let (node, nearNode, pageId) :=
        if isRSibling then (nearNode, node, near.pageId) else (node, nearNode, page.pageId)
      let removeIndex := parentPage.valueIndex pageId
      let _ ← tree.coalesce (fun p => coalesceOrRedistribute fuel p transaction) nearNode node parent
        removeIndex transaction
      unpinPage parentPage.pageId true
      return true
    else
      let indexInParent := parentPage.valueIndex page.pageId
      tree.redistribute nearNode node indexInParent
      unpinPage parentPage.pageId false
      return false

/-- `Remove`. -/
def remove (key : K) (transaction : Bool) : TreeM K V Unit := do
  if (← read).rootPageId = invalidPageId then return
  let some tar ← tree.findLeafPage key false .delete transaction | throw .nullDeref
  let page := (← getLeaf tar).removeAndDeleteRecord tree.comparator key
  setPage tar (.leaf page)
  if page.size < page.getMinSize true then
    let fuel := (← read).pool.nextPageId.toNat + 1
    let _ ← tree.coalesceOrRedistribute fuel tar transaction
  freePagesInTransaction true transaction

end BPlusTree

end ScuDb
