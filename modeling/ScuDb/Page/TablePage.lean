import ScuDb.Config

/-!
# Slotted table pages

`TablePage` over the bytes of a page, with logging off: a 24-byte header, a slot directory that
grows upwards, and tuples that fill the page from its end down to the free space pointer.  A slot
holds an offset and a size; size 0 is an empty slot and a negative size a mark-deleted tuple.

Copies that leave the page are the fault `outOfBounds`, and so is a negative slot number.  The
functions take slot numbers and return the changed page.
-/

namespace ScuDb

open ByteMem

/-- `memcpy` from `[off, off + len)` of the page. -/
def copyOut (p : PageData) (off len : ℤ) : Except Fault (List UInt8) :=
  if 0 ≤ off ∧ 0 ≤ len ∧ off + len ≤ pageSize then .ok (p.slice off.toNat len.toNat)
  else .error .outOfBounds

/-- `memcpy` to `off`. -/
def copyIn (p : PageData) (off : ℤ) (bytes : List UInt8) : Except Fault PageData :=
  if 0 ≤ off ∧ off + bytes.length ≤ pageSize then .ok (p.write off.toNat bytes)
  else .error .outOfBounds

/-- `memmove` inside the page. -/
def memmove (p : PageData) (dst src len : ℤ) : Except Fault PageData := do
  let bytes ← copyOut p src len
  copyIn p dst bytes

/-- The directory entry of a slot number. -/
def slotIndex (slotNum : ℤ) : Except Fault ℕ :=
  if 0 ≤ slotNum then .ok slotNum.toNat else .error .outOfBounds

namespace TablePage

def getPageId (p : PageData) : PageId := p.getInt32 0

def getPrevPageId (p : PageData) : PageId := p.getInt32 8

def getNextPageId (p : PageData) : PageId := p.getInt32 12

def setPrevPageId (p : PageData) (pageId : PageId) : PageData := p.setInt32 8 pageId

def setNextPageId (p : PageData) (pageId : PageId) : PageData := p.setInt32 12 pageId

def getFreeSpacePointer (p : PageData) : ℤ := p.getInt32 16

def setFreeSpacePointer (p : PageData) (v : ℤ) : PageData := p.setInt32 16 v

def getTupleCount (p : PageData) : ℤ := p.getInt32 20

def setTupleCount (p : PageData) (v : ℤ) : PageData := p.setInt32 20 v

def getTupleOffset (p : PageData) (slot : ℕ) : ℤ := p.getInt32 (24 + 8 * slot)

def getTupleSize (p : PageData) (slot : ℕ) : ℤ := p.getInt32 (28 + 8 * slot)

def setTupleOffset (p : PageData) (slot : ℕ) (v : ℤ) : PageData := p.setInt32 (24 + 8 * slot) v

def setTupleSize (p : PageData) (slot : ℕ) (v : ℤ) : PageData := p.setInt32 (28 + 8 * slot) v

def getFreeSpaceSize (p : PageData) : ℤ := getFreeSpacePointer p - 24 - getTupleCount p * 8

/-- `Init`. -/
def init (p : PageData) (pageId : PageId) (size : ℤ) (prevPageId : PageId) : PageData :=
  let p := p.setInt32 0 pageId
  let p := setPrevPageId p prevPageId
  let p := setNextPageId p invalidPageId
  let p := setFreeSpacePointer p size
  setTupleCount p 0

/-- The first slot from `start` on whose size passes the test. -/
def findSlot (p : PageData) (test : ℤ → Bool) (start : ℕ) : Option ℕ :=
  (List.range' start ((getTupleCount p).toNat - start)).find? fun i => test (getTupleSize p i)

/-- `InsertTuple`: the RID of the tuple, or `none` for `false`. -/
def insertTuple (p : PageData) (tuple : List UInt8) : Except Fault (Option RID × PageData) := do
  assert (0 < tuple.length)
  if getFreeSpaceSize p < tuple.length then return (none, p)
  let i := (findSlot p (· == 0) 0).getD (getTupleCount p).toNat
  if (i : ℤ) = getTupleCount p ∧ getFreeSpaceSize p < tuple.length + 8 then return (none, p)
  let p := setFreeSpacePointer p (getFreeSpacePointer p - tuple.length)
  let p ← copyIn p (getFreeSpacePointer p) tuple
  let p := setTupleOffset p i (getFreeSpacePointer p)
  let p := setTupleSize p i tuple.length
  if (i : ℤ) = getTupleCount p then
    return (some ⟨getPageId p, i⟩, setTupleCount p (getTupleCount p + 1))
  return (some ⟨getPageId p, i⟩, p)

/-- `MarkDelete`: an empty slot stays as it is and still counts as success. -/
def markDelete (p : PageData) (slotNum : ℤ) : Except Fault (Bool × PageData) := do
  if slotNum ≥ getTupleCount p then return (false, p)
  let i ← slotIndex slotNum
  let tupleSize := getTupleSize p i
  if tupleSize < 0 then return (false, p)
  return (true, if tupleSize > 0 then setTupleSize p i (-tupleSize) else p)

/-- The loop at the end of `UpdateTuple` and `ApplyDelete`, over the first `count` slots: the
offsets of the slots that pass the test move by `delta`. -/
def shiftOffsets (test : (size offset : ℤ) → Bool) (delta : ℤ) : ℕ → PageData → PageData
  | 0, p => p
  | count + 1, p =>
    let p := shiftOffsets test delta count p
    if test (getTupleSize p count) (getTupleOffset p count) then
      setTupleOffset p count (getTupleOffset p count + delta)
    else p

/-- `UpdateTuple`: the old tuple, or `none` for `false`. -/
def updateTuple (p : PageData) (newTuple : List UInt8) (slotNum : ℤ) :
    Except Fault (Option (List UInt8) × PageData) := do
  if slotNum ≥ getTupleCount p then return (none, p)
  let i ← slotIndex slotNum
  let tupleSize := getTupleSize p i
  if tupleSize ≤ 0 then return (none, p)
  if getFreeSpaceSize p < newTuple.length - tupleSize then return (none, p)
  let tupleOffset := getTupleOffset p i
  let oldTuple ← copyOut p tupleOffset tupleSize
  let freeSpacePointer := getFreeSpacePointer p
  assert (tupleOffset ≥ freeSpacePointer)
  let delta := tupleSize - newTuple.length
  let p ← memmove p (freeSpacePointer + delta) freeSpacePointer (tupleOffset - freeSpacePointer)
  let p := setFreeSpacePointer p (freeSpacePointer + delta)
  let p ← copyIn p (tupleOffset + delta) newTuple
  let p := setTupleSize p i newTuple.length
  let p := shiftOffsets (fun size offset => size > 0 ∧ offset < tupleOffset + tupleSize) delta
    (getTupleCount p).toNat p
  return (some oldTuple, p)

/-- `ApplyDelete`. -/
def applyDelete (p : PageData) (slotNum : ℤ) : Except Fault PageData := do
  assert (slotNum < getTupleCount p)
  let i ← slotIndex slotNum
  let tupleOffset := getTupleOffset p i
  let tupleSize := |getTupleSize p i|
  let _ ← copyOut p tupleOffset tupleSize
  let freeSpacePointer := getFreeSpacePointer p
  assert (tupleOffset ≥ freeSpacePointer)
  let p ← memmove p (freeSpacePointer + tupleSize) freeSpacePointer
    (tupleOffset - freeSpacePointer)
  let p := setFreeSpacePointer p (freeSpacePointer + tupleSize)
  let p := setTupleSize p i 0
  let p := setTupleOffset p i 0
  return shiftOffsets (fun size offset => size ≠ 0 ∧ offset < tupleOffset) tupleSize
    (getTupleCount p).toNat p

/-- `RollbackDelete`. -/
def rollbackDelete (p : PageData) (slotNum : ℤ) : Except Fault PageData := do
  assert (slotNum < getTupleCount p)
  let i ← slotIndex slotNum
  let tupleSize := getTupleSize p i
  return if tupleSize < 0 then setTupleSize p i (-tupleSize) else p

/-- `GetTuple`: the bytes of a live tuple. -/
def getTuple (p : PageData) (slotNum : ℤ) : Except Fault (Option (List UInt8)) := do
  if slotNum ≥ getTupleCount p then return none
  let i ← slotIndex slotNum
  let tupleSize := getTupleSize p i
  if tupleSize ≤ 0 then return none
  let bytes ← copyOut p (getTupleOffset p i) tupleSize
  return some bytes

/-- `GetFirstTupleRid`: `none` for `false`, which sets the RID to the invalid one. -/
def getFirstTupleRid (p : PageData) : Option RID :=
  (findSlot p (· > 0) 0).map fun (i : ℕ) => ⟨getPageId p, i⟩

/-- `GetNextTupleRid`. -/
def getNextTupleRid (p : PageData) (curRid : RID) : Except Fault (Option RID) := do
  assert (curRid.pageId = getPageId p)
  let start ← slotIndex (curRid.slotNum + 1)
  return (findSlot p (· > 0) start).map fun (i : ℕ) => ⟨getPageId p, i⟩

end TablePage

end ScuDb
