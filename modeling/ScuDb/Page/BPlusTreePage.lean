import ScuDb.Page.HeaderPage
import ScuDb.Lib.BinarySearch
import ScuDb.Lib.SlotArray

/-!
# Pages of the B+ tree

Leaf and internal pages with their arrays of entries, for the five key sizes, and what the page
operations do to one or two pages.  An index outside the bytes of the page is the fault
`outOfBounds`, and so is taking an entry from a page without entries.
-/

namespace ScuDb

open SlotArray

/-- The key sizes the tree is instantiated for. -/
inductive KeySize
  | four
  | eight
  | sixteen
  | thirtyTwo
  | sixtyFour
deriving DecidableEq

namespace KeySize

def bytes : KeySize → ℕ
  | four => 4
  | eight => 8
  | sixteen => 16
  | thirtyTwo => 32
  | sixtyFour => 64

/-- `(PAGE_SIZE - sizeof(BPlusTreeLeafPage)) / sizeof(MappingType)`: a header of 28 bytes, and
entries of a key and a record id. -/
def leafSlots (n : KeySize) : ℕ := (pageSize - 28) / (n.bytes + 8)

/-- `(PAGE_SIZE - sizeof(BPlusTreeInternalPage)) / sizeof(MappingType)`: a header of 24 bytes, and
entries of a key and a page id. -/
def internalSlots (n : KeySize) : ℕ := (pageSize - 24) / (n.bytes + 4)

def leafMax (n : KeySize) : ℕ := n.leafSlots - 1

def internalMax (n : KeySize) : ℕ := n.internalSlots - 1

theorem leafMax_add_one (n : KeySize) : n.leafMax + 1 = n.leafSlots := by
  cases n <;> rfl

theorem internalMax_add_one (n : KeySize) : n.internalMax + 1 = n.internalSlots := by
  cases n <;> rfl

theorem five_le_leafMax (n : KeySize) : 5 ≤ n.leafMax := by
  cases n <;> decide

theorem six_le_internalMax (n : KeySize) : 6 ≤ n.internalMax := by
  cases n <;> decide

end KeySize

/-- `OperationType`. -/
inductive OperationType
  | read
  | insert
  | delete
deriving DecidableEq

/-- `BPlusTreePage`: the fields both page types share. -/
structure BPlusTreePage where
  size : ℕ
  maxSize : ℕ
  parentPageId : PageId
  pageId : PageId
deriving DecidableEq

namespace BPlusTreePage

def isRootPage (p : BPlusTreePage) : Bool := p.parentPageId = invalidPageId

def getMinSize (isLeafPage : Bool) (p : BPlusTreePage) : ℕ :=
  if p.isRootPage then if isLeafPage then 1 else 2 else p.maxSize / 2

def isSafe (isLeafPage : Bool) (op : OperationType) (p : BPlusTreePage) : Except Fault Bool :=
  match op with
  | .insert => .ok (p.size < p.maxSize)
  | .delete =>
    let minSize := p.getMinSize isLeafPage + 1
    .ok (if isLeafPage then p.size ≥ minSize else p.size > minSize)
  | .read => .error .assertion

end BPlusTreePage

/-- `BPlusTreeLeafPage`. -/
structure LeafPage (K V : Type) extends BPlusTreePage where
  nextPageId : PageId
  array : ℕ → K × V

/-- `BPlusTreeInternalPage`. -/
structure InternalPage (K : Type) extends BPlusTreePage where
  array : ℕ → K × PageId

/-! ## Leaf pages -/

namespace LeafPage

variable {K V : Type} (n : KeySize) (comparator : K → K → ℤ)

/-- `Init` on a page of zeros. -/
def init [Inhabited K] [Inhabited V] (pageId parentId : PageId) : LeafPage K V where
  size := 0
  maxSize := n.leafMax
  parentPageId := parentId
  pageId := pageId
  nextPageId := invalidPageId
  array := fun _ => default

/-- `KeyIndex`: the first index with a key that is not below `key`. -/
def keyIndex (p : LeafPage K V) (key : K) : ℕ :=
  BinarySearch.search (fun i => comparator (p.array i).1 key < 0) p.size 0 p.size

def keyAt (p : LeafPage K V) (index : ℕ) : Except Fault K := do
  assert (index < p.size)
  return (p.array index).1

def getItem (p : LeafPage K V) (index : ℕ) : Except Fault (K × V) :=
  if index < n.leafSlots then .ok (p.array index) else .error .outOfBounds

/-- `Insert`. -/
def insert (p : LeafPage K V) (key : K) (value : V) : Except Fault (LeafPage K V) :=
  if p.size < n.leafSlots then
    .ok { p with
      size := p.size + 1
      array := insertAt p.array p.size (p.keyIndex comparator key) (key, value) }
  else .error .outOfBounds

/-- `MoveHalfTo`: the page and the recipient. -/
def moveHalfTo (p recipient : LeafPage K V) : Except Fault (LeafPage K V × LeafPage K V) :=
  let total := p.maxSize + 1
  let idxToCopy := total / 2
  if total ≤ n.leafSlots then
    .ok ({ p with size := idxToCopy, nextPageId := recipient.pageId },
      { recipient with
        size := total - idxToCopy
        nextPageId := p.nextPageId
        array := copyTo recipient.array 0 p.array idxToCopy (total - idxToCopy) })
  else .error .outOfBounds

/-- `Lookup`. -/
def lookup (p : LeafPage K V) (key : K) : Option V :=
  let idxToFind := p.keyIndex comparator key
  if idxToFind < p.size ∧ comparator (p.array idxToFind).1 key = 0 then
    some (p.array idxToFind).2
  else none

/-- `RemoveAndDeleteRecord`; the returned size is that of the new page. -/
def removeAndDeleteRecord (p : LeafPage K V) (key : K) : LeafPage K V :=
  let tarKey := p.keyIndex comparator key
  if p.size ≤ tarKey ∨ comparator key (p.array tarKey).1 ≠ 0 then p
  else { p with size := p.size - 1, array := removeAt p.array p.size tarKey }

/-- `MoveAllTo`: the page and the recipient. -/
def moveAllTo (p recipient : LeafPage K V) : Except Fault (LeafPage K V × LeafPage K V) :=
  let startIndex := recipient.size
  if startIndex + p.size ≤ n.leafSlots then
    .ok ({ p with size := 0 },
      { recipient with
        size := startIndex + p.size
        nextPageId := p.nextPageId
        array := copyTo recipient.array startIndex p.array 0 p.size })
  else .error .outOfBounds

def copyLastFrom (p : LeafPage K V) (item : K × V) : Except Fault (LeafPage K V) := do
  assert (p.size < p.maxSize)
  if p.size < n.leafSlots then
    return { p with size := p.size + 1, array := Function.update p.array p.size item }
  else throw .outOfBounds

/-- `MoveFirstToEndOf` without the key in the parent page: the page and the recipient. -/
def moveFirstToEndOf (p recipient : LeafPage K V) :
    Except Fault (LeafPage K V × LeafPage K V) := do
  if p.size = 0 then throw .outOfBounds
  let recipient ← recipient.copyLastFrom n (p.array 0)
  return ({ p with size := p.size - 1, array := removeAt p.array p.size 0 }, recipient)

/-- `CopyFirstFrom` without the key in the parent page. -/
def copyFirstFrom (p : LeafPage K V) (item : K × V) : Except Fault (LeafPage K V) :=
  if p.size < n.leafSlots then
    .ok { p with size := p.size + 1, array := insertAt p.array p.size 0 item }
  else .error .outOfBounds

/-- `MoveLastToFrontOf` without the key in the parent page: the page and the recipient. -/
def moveLastToFrontOf (p recipient : LeafPage K V) :
    Except Fault (LeafPage K V × LeafPage K V) := do
  if p.size = 0 then throw .outOfBounds
  let recipient ← recipient.copyFirstFrom n (p.array (p.size - 1))
  return ({ p with size := p.size - 1 }, recipient)

end LeafPage

/-! ## Internal pages -/

namespace InternalPage

variable {K : Type} (n : KeySize) (comparator : K → K → ℤ)

/-- `Init` on a page of zeros. -/
def init [Inhabited K] (pageId parentId : PageId) : InternalPage K where
  size := 0
  maxSize := n.internalMax
  parentPageId := parentId
  pageId := pageId
  array := fun _ => (default, 0)

/-- The slot behind a C array index. -/
def slot (index : ℤ) : Except Fault ℕ :=
  if 0 ≤ index ∧ index < n.internalSlots then .ok index.toNat else .error .outOfBounds

def keyAt (p : InternalPage K) (index : ℤ) : Except Fault K := do
  return (p.array (← slot n index)).1

def setKeyAt (p : InternalPage K) (index : ℤ) (key : K) : Except Fault (InternalPage K) := do
  let i ← slot n index
  return { p with array := Function.update p.array i (key, (p.array i).2) }

/-- `ValueIndex`, or `-1`. -/
def valueIndex (p : InternalPage K) (value : PageId) : ℤ :=
  match (List.range p.size).find? fun i => (p.array i).2 = value with
  | some i => i
  | none => -1

def valueAt (p : InternalPage K) (index : ℤ) : Except Fault PageId := do
  return (p.array (← slot n index)).2

/-- `Lookup`: the search starts from the second key. -/
def lookup (p : InternalPage K) (key : K) : Except Fault PageId := do
  assert (p.size > 1)
  let beginning :=
    BinarySearch.search (fun i => comparator (p.array i).1 key ≤ 0) p.size 1 p.size
  return (p.array (beginning - 1)).2

/-- `PopulateNewRoot`: two slots are written and the size grows by one. -/
def populateNewRoot (p : InternalPage K) (oldValue : PageId) (newKey : K) (newValue : PageId) :
    InternalPage K :=
  { p with
    size := p.size + 1
    array := Function.update (Function.update p.array 0 ((p.array 0).1, oldValue)) 1
      (newKey, newValue) }

def insertNodeAfter (p : InternalPage K) (oldValue : PageId) (newKey : K) (newValue : PageId) :
    Except Fault (InternalPage K) := do
  let index := p.valueIndex oldValue + 1
  assert (index > 0)
  if p.size < n.internalSlots then
    return { p with
      size := p.size + 1
      array := insertAt p.array p.size index.toNat (newKey, newValue) }
  else throw .outOfBounds

/-- The assertion of `MoveHalfTo`, and the pages whose parent becomes the recipient. -/
def movedHalf (p : InternalPage K) : Except Fault (List PageId) := do
  let total := p.maxSize + 1
  assert (p.size = total)
  if total ≤ n.internalSlots then
    return ((entries p.array total).drop (total / 2)).map Prod.snd
  else throw .outOfBounds

/-- What `MoveHalfTo` does to the page and the recipient. -/
def moveHalfTo (p recipient : InternalPage K) : InternalPage K × InternalPage K :=
  let total := p.maxSize + 1
  let midIndex := total / 2
  ({ p with size := midIndex },
    { recipient with
      size := total - midIndex
      array := copyTo recipient.array 0 p.array midIndex (total - midIndex) })

/-- `Remove`. -/
def remove (p : InternalPage K) (index : ℤ) : Except Fault (InternalPage K) := do
  assert (index ≥ 0 ∧ index < p.size)
  return { p with size := p.size - 1, array := removeAt p.array p.size index.toNat }

/-- `RemoveAndReturnOnlyChild`. -/
def removeAndReturnOnlyChild (p : InternalPage K) : Except Fault (PageId × InternalPage K) := do
  assert (p.size = 1)
  return ((p.array 0).2, { p with size := 0 })

/-- What `MoveAllTo` does to the page and the recipient, once the first key is set and the
children know their parent. -/
def moveAllTo (p recipient : InternalPage K) : Except Fault (InternalPage K × InternalPage K) := do
  let start := recipient.size
  if start + p.size ≤ n.internalSlots then
    let recipient := { recipient with
      size := start + p.size
      array := copyTo recipient.array start p.array 0 p.size }
    assert (recipient.size ≤ p.maxSize)
    return ({ p with size := 0 }, recipient)
  else throw .outOfBounds

def copyLastFrom (p : InternalPage K) (pair : K × PageId) : Except Fault (InternalPage K) := do
  assert (p.size + 1 ≤ p.maxSize)
  if p.size < n.internalSlots then
    return { p with size := p.size + 1, array := Function.update p.array p.size pair }
  else throw .outOfBounds

/-- `MoveFirstToEndOf` without the child and the parent page: the page and the recipient. -/
def moveFirstToEndOf (p recipient : InternalPage K) :
    Except Fault (InternalPage K × InternalPage K) := do
  if p.size = 0 then throw .outOfBounds
  let recipient ← recipient.copyLastFrom n (p.array 0)
  return ({ p with size := p.size - 1, array := removeAt p.array p.size 0 }, recipient)

/-- `CopyFirstFrom` without the child and the parent page. -/
def copyFirstFrom (p : InternalPage K) (pair : K × PageId) : Except Fault (InternalPage K) := do
  assert (p.size + 1 < p.maxSize)
  if p.size < n.internalSlots then
    return { p with size := p.size + 1, array := insertAt p.array p.size 0 pair }
  else throw .outOfBounds

/-- `MoveLastToFrontOf` without the child and the parent page: the page and the recipient. -/
def moveLastToFrontOf (p recipient : InternalPage K) :
    Except Fault (InternalPage K × InternalPage K) := do
  if p.size = 0 then throw .outOfBounds
  let recipient ← recipient.copyFirstFrom n (p.array (p.size - 1))
  return ({ p with size := p.size - 1 }, recipient)

end InternalPage

/-! ## Pages of an index -/

/-- What the bytes of a page hold: a page that is no tree page (the header page, a new or deleted
page), a leaf page or an internal page. -/
inductive IndexPage (K V : Type)
  | raw (data : PageData)
  | leaf (page : LeafPage K V)
  | internal (page : InternalPage K)

namespace IndexPage

variable {K V : Type}

instance : Inhabited (IndexPage K V) := ⟨.raw default⟩

def isLeafPage : IndexPage K V → Bool
  | .leaf _ => true
  | _ => false

/-- The page as a `BPlusTreePage`. -/
def asTreePage : IndexPage K V → Except Fault BPlusTreePage
  | .raw _ => .error .wrongPageType
  | .leaf p => .ok p.toBPlusTreePage
  | .internal p => .ok p.toBPlusTreePage

def asLeaf : IndexPage K V → Except Fault (LeafPage K V)
  | .leaf p => .ok p
  | _ => .error .wrongPageType

def asInternal : IndexPage K V → Except Fault (InternalPage K)
  | .internal p => .ok p
  | _ => .error .wrongPageType

def asRaw : IndexPage K V → Except Fault PageData
  | .raw data => .ok data
  | _ => .error .wrongPageType

/-- `SetParentPageId`. -/
def setParentPageId (page : IndexPage K V) (parentPageId : PageId) :
    Except Fault (IndexPage K V) :=
  match page with
  | .raw _ => .error .wrongPageType
  | .leaf p => .ok (.leaf { p with parentPageId := parentPageId })
  | .internal p => .ok (.internal { p with parentPageId := parentPageId })

/-- The size, the entries and the next pointer are the same. -/
def SameStructure : IndexPage K V → IndexPage K V → Prop
  | .raw a, .raw b => a = b
  | .leaf a, .leaf b => a.size = b.size ∧ a.array = b.array ∧ a.nextPageId = b.nextPageId
  | .internal a, .internal b => a.size = b.size ∧ a.array = b.array
  | _, _ => False

/-- The page with another parent. -/
def withParent (page : IndexPage K V) (parent : PageId) : IndexPage K V :=
  match page with
  | .raw data => .raw data
  | .leaf p => .leaf { p with parentPageId := parent }
  | .internal p => .internal { p with parentPageId := parent }

theorem sameStructure_withParent (page : IndexPage K V) (parent : PageId) :
    page.SameStructure (page.withParent parent) := by
  cases page <;> simp [withParent, SameStructure]

theorem setParentPageId_ok {page : IndexPage K V} {header : BPlusTreePage}
    (h : page.asTreePage = .ok header) (parent : PageId) :
    page.setParentPageId parent = .ok (page.withParent parent) := by
  cases page with
  | raw data => cases h
  | leaf p => rfl
  | internal p => rfl

end IndexPage

end ScuDb
