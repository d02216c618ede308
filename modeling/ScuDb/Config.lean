import ScuDb.Lib.Memory

/-!
# Common types of the storage engine

The constants of `config.h`, record ids, and the ways a call can stop before it returns.

Wrapping is spelled out for file offsets and file sizes, the sizes of tuples, values of the SQL
types, the reader count of `RWMutex` and the page counter behind a restart; the pool as its clients
see it stops at the last page id.  Elsewhere a `page_id_t` or an `int` is an integer without a bound.
That concerns `AllocatePage` and the pin counts of the buffer pool, and the column offsets of a
schema: the results about them speak of the program while it uses fewer than 2^31 pages, no page has
2^31 pins, and the fixed parts of a schema take less than 2^31 bytes.
-/

namespace ScuDb

open ByteMem

/-- `page_id_t`. -/
abbrev PageId := ℤ

/-- `INVALID_PAGE_ID`. -/
def invalidPageId : PageId := -1

/-- `HEADER_PAGE_ID`. -/
def headerPageId : PageId := 0

/-- `PAGE_SIZE`. -/
abbrev pageSize : ℕ := 512

/-- The bytes of one page. -/
abbrev PageData := Mem pageSize

/-- What stops a call before it returns. -/
inductive Fault
  /-- an `assert` fails -/
  | assertion
  /-- a null pointer is dereferenced -/
  | nullDeref
  /-- a byte range or array index leaves its page -/
  | outOfBounds
  /-- a latch cannot be taken and nobody else runs to release it -/
  | blocked
  /-- a page is read as a page type it was not initialised to -/
  | wrongPageType
  /-- a loop does not end -/
  | diverges
  /-- a counter leaves its range -/
  | overflow
  /-- a page is changed and given back as clean -/
  | lostUpdate
  /-- an `Exception` is thrown -/
  | exception
deriving DecidableEq, Repr

/-- `assert`. -/
def assert (c : Prop) [Decidable c] : Except Fault Unit :=
  if c then .ok () else .error .assertion

theorem assert_pos {c : Prop} [Decidable c] (h : c) : assert c = .ok () := if_pos h

theorem assert_neg {c : Prop} [Decidable c] (h : ¬ c) : assert c = .error .assertion := if_neg h

/-- `RID`: the page and the slot of a tuple. -/
structure RID where
  pageId : PageId := invalidPageId
  slotNum : ℤ := -1
deriving DecidableEq, Repr

end ScuDb
