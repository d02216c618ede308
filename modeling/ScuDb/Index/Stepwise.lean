import ScuDb.Index.BPlusTree

/-!
# Properties of the steps of a search

A property of computations that sequences keep and that the pool, the latches and the page set have
is a property of `FindLeafPage` and of the release of the pages.
-/

namespace ScuDb

open Program

variable {K V : Type}

/-- The state with a pool that never runs out of frames. -/
def TreeState.unlimited (s : TreeState K V) : TreeState K V :=
  { s with pool := { s.pool with frames := none } }

namespace BPlusTree

/-- The computations of a search and of the release of its pages have the property, and sequences
keep it.  What follows a `read` does not look at the number of frames. -/
structure Stepwise (P : (α : Type) → TreeM K V α → Prop) : Prop where
  pure : ∀ {α : Type} (a : α), P α (pure a)
  throw : ∀ {α : Type} (e : Fault), P α (throw e)
  lift : ∀ {α : Type} (y : Except Fault α), P α (liftM y)
  bind : ∀ {α β : Type} {x : TreeM K V α} {f : α → TreeM K V β}, P α x → (∀ a, P β (f a)) →
    P β (x >>= f)
  read_bind : ∀ {α : Type} {f : TreeState K V → TreeM K V α}, (∀ s, f s.unlimited = f s) →
    (∀ s, P α (f s)) → P α (read >>= f)
  getPage : ∀ p, P _ (getPage p)
  fetchPage : ∀ p, P _ (fetchPage p)
  unpinPage : ∀ p isDirty, P _ (unpinPage p isDirty)
  lock : ∀ exclusive p, P _ (lock exclusive p)
  unlock : ∀ exclusive p, P _ (unlock exclusive p)
  lockRootPageId : ∀ exclusive, P _ (lockRootPageId exclusive)
  tryUnlockRootPageId : ∀ exclusive, P _ (tryUnlockRootPageId exclusive)
  addIntoPageSet : ∀ transaction p, P _ (addIntoPageSet transaction p)
  freePage : ∀ exclusive p, P _ (freePage exclusive p)
  clearPageSet : P _ (modify fun s => { s with pageSet := [] })

namespace Stepwise

variable {P : (α : Type) → TreeM K V α → Prop} (h : Stepwise P)

include h

theorem forM {α : Type} {g : α → TreeM K V PUnit} (each : ∀ a, P _ (g a)) (l : List α) :
    P _ (l.forM g) := by
  induction l with
  | nil => exact h.pure _
  | cons a l ih => exact h.bind (each a) fun _ => ih

theorem getTreePage (p : PageId) : P _ (BPlusTree.getTreePage p) :=
  h.bind (h.getPage p) fun _ => h.lift _

theorem getLeaf (p : PageId) : P _ (BPlusTree.getLeaf p) := h.bind (h.getPage p) fun _ => h.lift _

theorem getInternal (p : PageId) : P _ (BPlusTree.getInternal p) :=
  h.bind (h.getPage p) fun _ => h.lift _

theorem unlockById (exclusive : Bool) (p : PageId) : P _ (BPlusTree.unlockById exclusive p) :=
  h.bind (h.fetchPage p) fun _ => h.bind (h.unlock _ _) fun _ => h.unpinPage _ _

theorem freePagesInTransaction (exclusive transaction : Bool) (cur : PageId) :
    P _ (BPlusTree.freePagesInTransaction exclusive transaction cur) := by
  refine h.bind (h.tryUnlockRootPageId _) fun _ => ?_
  cases transaction
  · exact h.bind (h.lift _) fun _ => h.bind (h.unlockById _ _) fun _ => h.unpinPage _ _
  · refine h.read_bind (fun _ => rfl) fun s => ?_
    refine h.bind (h.forM (fun p => h.freePage _ p) _) fun _ => ?_
    exact h.read_bind (fun _ => rfl) fun _ => h.bind (h.lift _) fun _ => h.clearPageSet

theorem crabingProtocalFetchPage (p : PageId) (op : OperationType) (previous : PageId)
    (transaction : Bool) :
    P _ (BPlusTree.crabingProtocalFetchPage p op previous transaction) := by
  have add : P _ (if transaction then BPlusTree.addIntoPageSet transaction p else Pure.pure ()) := by
    split_ifs
    · exact h.addIntoPageSet _ _
    · exact h.pure _
  have free (b : Bool) : P Unit (do
      if b then BPlusTree.freePagesInTransaction (op ≠ .read) transaction previous
      if transaction then BPlusTree.addIntoPageSet transaction p) := by
    cases b
    · exact add
    · exact h.bind (h.freePagesInTransaction _ _ _) fun _ => add
  refine h.bind (h.fetchPage _) fun _ => h.bind (h.lock _ _) fun _ =>
    h.bind (h.getPage _) fun page => ?_
  dsimp only
  by_cases pos : previous > 0
  · rw [if_pos pos]
    by_cases hop : op ≠ .read
    · rw [if_pos hop]
      exact h.bind (h.lift _) fun _ => h.bind (h.lift _) free
    · rw [if_neg hop]
      exact h.bind (h.pure _) free
  · rw [if_neg pos]
    exact add

variable (tree : BPlusTree K)

theorem descend (key : K) (leftMost : Bool) (op : OperationType) (transaction : Bool) (fuel : ℕ) :
    ∀ cur, P _ (tree.descend key leftMost op transaction fuel cur) := by
  induction fuel with
  | zero => exact fun cur => h.throw _
  | succ fuel ih =>
    intro cur
    refine h.bind (h.getPage _) fun page => ?_
    cases page with
    | raw data => exact h.throw _
    | leaf page => exact h.pure _
    | internal page =>
      have next (q : PageId) : P _ (do
          BPlusTree.crabingProtocalFetchPage q op cur transaction
          tree.descend key leftMost op transaction fuel q) :=
        h.bind (h.crabingProtocalFetchPage _ _ _ _) fun _ => ih q
      cases leftMost
      · exact h.bind (h.lift _) next
      · exact h.bind (h.lift _) next

theorem findLeafPage (key : K) (leftMost : Bool) (op : OperationType) (transaction : Bool) :
    P _ (tree.findLeafPage key leftMost op transaction) := by
  refine h.bind (h.lockRootPageId _) fun _ => h.read_bind (fun _ => rfl) fun s => ?_
  split_ifs
  · exact h.bind (h.tryUnlockRootPageId _) fun _ => h.pure _
  · refine h.bind (h.crabingProtocalFetchPage _ _ _ _) fun _ => ?_
    exact h.bind (h.descend tree _ _ _ _ _ _) fun _ => h.pure _

end Stepwise

end BPlusTree

end ScuDb
