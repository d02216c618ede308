import ScuDb.Index.MapRuns
import ScuDb.Index.ValidIds
import ScuDb.Lib.Runs

/-!
# Writers of one tree

Any number of threads call `Insert` and `Remove`.  The emptiness test with `StartNewTree`, the test of
`Remove`, which takes no latch, `FindLeafPage`, and what a call does behind it are atomic.  Between
the emptiness test of a writer and its `FindLeafPage` nothing is latched, so another writer can remove
the last key there; the first one then goes on with a null pointer.
-/

namespace ScuDb

open Program

variable {K V Tid α : Type}

namespace BPlusTree

variable (tree : BPlusTree K)

/-! ### The root id -/

/-- The root id and the pages stay. -/
def SameTree (s s' : TreeState K V) : Prop := s'.rootPageId = s.rootPageId ∧ s'.pool = s.pool

instance : Std.Refl (SameTree (K := K) (V := V)) := ⟨fun _ => ⟨rfl, rfl⟩⟩

instance : IsTrans (TreeState K V) SameTree :=
  ⟨fun _ _ _ first second => ⟨second.1.trans first.1, second.2.trans first.2⟩⟩

theorem sameTree_lockRootPageId (exclusive : Bool) :
    Keeps SameTree (lockRootPageId exclusive : TreeM K V Unit) :=
  keeps_read.bind fun _ => (keeps_lift _).bind fun _ _ => ⟨rfl, rfl⟩

theorem sameTree_tryUnlockRootPageId (exclusive : Bool) :
    Keeps SameTree (tryUnlockRootPageId exclusive : TreeM K V Unit) := by
  refine keeps_read.bind fun s => ?_
  split
  · exact (keeps_lift _).bind fun _ _ => ⟨rfl, rfl⟩
  · exact keeps_pure _

/-- The root id stays. -/
def SameRoot (s s' : TreeState K V) : Prop := s'.rootPageId = s.rootPageId

instance : Std.Refl (SameRoot (K := K) (V := V)) := ⟨fun _ => rfl⟩

instance : IsTrans (TreeState K V) SameRoot := ⟨fun _ _ _ first second => second.trans first⟩

theorem sameRoot_modify {f : TreeState K V → TreeState K V}
    (same : ∀ s, (f s).rootPageId = s.rootPageId) : Keeps SameRoot (modify f : TreeM K V Unit) := same

theorem sameRoot_onPool (x : PoolM (IndexPage K V) α) : Keeps SameRoot (onPool x) := by
  intro s
  unfold onPool
  split <;> rfl

theorem sameRoot_fetchPage (p : PageId) (e : Fault) :
    Keeps SameRoot (fetchPage p e : TreeM K V Unit) := by
  apply (sameRoot_onPool _).bind
  intro found
  cases found
  · exact keeps_throw _
  · exact keeps_pure _

theorem sameRoot_of_sameTree {x : TreeM K V α} (h : Keeps SameTree x) : Keeps SameRoot x :=
  fun s => (h s).1

theorem sameRoot_freePage (exclusive : Bool) (p : PageId) :
    Keeps SameRoot (freePage exclusive p : TreeM K V Unit) := by
  have delete : Keeps SameRoot (deletePage p : TreeM K V Unit) :=
    (sameRoot_onPool _).bind fun _ => sameRoot_modify fun _ => rfl
  apply (sameRoot_onPool _).bind
  intro _
  apply (sameRoot_onPool _).bind
  intro _
  refine keeps_read.bind fun s => ?_
  split
  · exact delete.bind fun _ => sameRoot_modify fun _ => rfl
  · exact keeps_pure _

theorem sameRoot : Stepwise fun _ (x : TreeM K V _) => Keeps SameRoot x where
  pure := keeps_pure
  throw := keeps_throw
  lift := keeps_lift
  bind := Keeps.bind
  read_bind := fun _ h => keeps_read.bind h
  getPage := fun _ _ => rfl
  fetchPage := fun p => sameRoot_fetchPage p _
  unpinPage := fun _ _ => sameRoot_onPool _
  lock := fun _ _ => sameRoot_onPool _
  unlock := fun _ _ => sameRoot_onPool _
  lockRootPageId := fun exclusive => sameRoot_of_sameTree (sameTree_lockRootPageId exclusive)
  tryUnlockRootPageId := fun exclusive =>
    sameRoot_of_sameTree (sameTree_tryUnlockRootPageId exclusive)
  addIntoPageSet := fun transaction _ => by
    cases transaction
    · exact keeps_throw _
    · exact sameRoot_modify fun _ => rfl
  freePage := sameRoot_freePage
  clearPageSet := sameRoot_modify fun _ => rfl

/-- `FindLeafPage` keeps the root id, and returns a null pointer only if the tree is empty. -/
theorem findLeafPage_root (key : K) (leftMost : Bool) (op : OperationType) (transaction : Bool)
    {s s' : TreeState K V} {leaf : Option PageId}
    (run : tree.findLeafPage key leftMost op transaction s = (.ok leaf, s')) :
    s'.rootPageId = s.rootPageId ∧ (s.rootPageId ≠ invalidPageId → leaf ≠ none) := by
  have same := sameRoot.findLeafPage tree key leftMost op transaction s
  rw [run] at same
  refine ⟨same, fun valid => ?_⟩
  have found : Spec (tree.findLeafPage key leftMost op transaction) s (fun leaf _ => leaf ≠ none)
      fun _ _ => True := by
    apply Spec.bind (((sameTree_lockRootPageId _).spec s).mono (fun _ _ => id) fun _ _ _ => trivial)
    intro _ s₁ h₁
    have valid₁ : s₁.rootPageId ≠ invalidPageId := by rwa [h₁.1]
    refine Spec.bind_eq (a := s₁) (t := s₁) rfl ?_
    rw [if_neg valid₁]
    apply Spec.bind (spec_any _ _)
    intro _ s₂ _
    apply Spec.bind (spec_any _ _)
    intro leaf s₃ _
    exact spec_pure (Option.some_ne_none leaf)
  exact found.of_ok run

/-! ## The sections of the code -/

section Sections

variable [Inhabited K] [Inhabited V]

/-- `Insert` under the root latch: whether it made a new tree. -/
def startIfEmpty (key : K) (value : V) : TreeM K V Bool := do
  lockRootPageId true
  if (← read).rootPageId = invalidPageId then
    tree.startNewTree key value
    tryUnlockRootPageId true
    return true
  tryUnlockRootPageId true
  return false

/-- `InsertIntoLeaf` behind `FindLeafPage`. -/
def insertAt (key : K) (value : V) (transaction : Bool) (leaf : Option PageId) : TreeM K V Bool := do
  let some leaf := leaf | throw .nullDeref
  let page ← getLeaf leaf
  if (page.lookup tree.comparator key).isSome then
    freePagesInTransaction true transaction
    return false
  else
    let page ← page.insert tree.keySize tree.comparator key value
    setPage leaf (.leaf page)
    if page.size > page.maxSize then
      let fuel := (← read).pool.nextPageId.toNat + 1
      let newLeaf ← tree.split leaf transaction
      let key ← (← getLeaf newLeaf).keyAt 0
      tree.insertIntoParent fuel leaf key newLeaf transaction
    freePagesInTransaction true transaction
    return true

theorem insertIntoLeaf_eq (key : K) (value : V) (transaction : Bool) :
    tree.insertIntoLeaf key value transaction =
      tree.findLeafPage key false .insert transaction >>= tree.insertAt key value transaction := by
  rfl

theorem insert_eq (key : K) (value : V) (transaction : Bool) :
    tree.insert key value transaction = (do
      if ← tree.startIfEmpty key value then return true
      tree.insertIntoLeaf key value transaction) := by
  unfold insert startIfEmpty
  rw [bind_assoc]
  congr 1
  funext _
  rw [bind_assoc]
  congr 1
  funext s
  split_ifs
  · simp only [bind_assoc, pure_bind]
    rfl
  · simp only [bind_assoc, pure_bind]
    rfl

/-- `StartNewTree` runs on an empty tree only. -/
theorem startIfEmpty_root {key : K} {value : V} {started : Bool} {s s' : TreeState K V}
    (run : tree.startIfEmpty key value s = (.ok started, s')) :
    if s.rootPageId = invalidPageId then started = true
    else started = false ∧ SameTree s s' := by
  have rule : Spec (tree.startIfEmpty key value) s (fun started s' =>
      if s.rootPageId = invalidPageId then started = true
      else started = false ∧ SameTree s s') fun _ _ => True := by
    apply Spec.bind (((sameTree_lockRootPageId _).spec s).mono (fun _ _ => id) fun _ _ _ => trivial)
    intro _ s₁ h₁
    refine Spec.bind_eq (a := s₁) (t := s₁) rfl ?_
    rw [h₁.1]
    by_cases empty : s.rootPageId = invalidPageId
    · simp only [if_pos empty]
      exact Spec.bind (spec_any _ _) fun _ _ _ => Spec.bind (spec_any _ _) fun _ _ _ =>
        spec_pure rfl
    · simp only [if_neg empty]
      apply Spec.bind (((sameTree_tryUnlockRootPageId _).spec s₁).mono (fun _ _ => id)
        fun _ _ _ => trivial)
      intro _ s₂ h₂
      exact spec_pure ⟨rfl, h₂.1.trans h₁.1, h₂.2.trans h₁.2⟩
  exact rule.of_ok run

theorem keepsIds_startIfEmpty {nonempty : Prop} (key : K) (value : V) :
    KeepsIds nonempty (tree.startIfEmpty key value : TreeM K V Bool) := by
  refine (keepsIds_lockRootPageId _).bind fun _ _ => maintains_read.bind fun s _ => ?_
  split_ifs
  · exact (keepsIds_startNewTree _ _).bind fun _ _ =>
      (keepsIds_tryUnlockRootPageId _).bind fun _ _ => maintains_pure trivial
  · exact (keepsIds_tryUnlockRootPageId _).bind fun _ _ => maintains_pure trivial

/-- No insertion empties the tree. -/
theorem keepsIds_insertAt {nonempty : Prop} (key : K) (value : V) (transaction : Bool)
    (leaf : Option PageId) :
    KeepsIds nonempty (tree.insertAt key value transaction leaf : TreeM K V Bool) := by
  cases leaf with
  | none => exact maintains_throw _
  | some leaf =>
    have free (r : Bool) : KeepsIds nonempty (do
        freePagesInTransaction true transaction
        return r : TreeM K V Bool) :=
      (keepsIds_steps.freePagesInTransaction _ _ _).bind fun _ _ => maintains_pure trivial
    refine (keepsIds_getLeaf _).bind fun page valid => ?_
    split_ifs
    · exact free false
    · apply Maintains.bind (Q := fun page => page.pageId ≠ invalidPageId)
      · exact maintains_lift fun page inserted => (LeafPage.insert_pageId inserted).trans_ne valid
      · intro page valid'
        refine Maintains.bind (keepsIds_setPage _ valid') fun _ _ => ?_
        split_ifs
        · refine maintains_read.bind fun s _ => (keepsIds_split _ _).bind fun p _ => ?_
          refine (keepsIds_getLeaf _).bind fun page _ => ?_
          refine (maintains_lift fun _ _ => trivial).bind fun first _ => ?_
          exact (keepsIds_insertIntoParent _ _ _ _ _).bind fun _ _ => free true
        · exact free true

end Sections

/-- `Remove` behind `FindLeafPage`. -/
def removeAt (key : K) (transaction : Bool) (leaf : Option PageId) : TreeM K V Unit := do
  let some tar := leaf | throw .nullDeref
  let page := (← getLeaf tar).removeAndDeleteRecord tree.comparator key
  setPage tar (.leaf page)
  if page.size < page.getMinSize true then
    let fuel := (← read).pool.nextPageId.toNat + 1
    let _ ← tree.coalesceOrRedistribute fuel tar transaction
  freePagesInTransaction true transaction

theorem remove_eq (key : K) (transaction : Bool) : tree.remove key transaction = (do
    if (← read).rootPageId = invalidPageId then return
    (tree.findLeafPage key false .delete transaction >>= tree.removeAt key transaction :
      TreeM K V Unit)) := rfl

/-- The page is a root without another key. -/
def OnlyKey (comparator : K → K → ℤ) (page : LeafPage K V) (key : K) : Prop :=
  page.isRootPage = true ∧ page.size ≤ 1 ∧ (page.size = 1 → comparator key (page.array 0).1 = 0)

instance (comparator : K → K → ℤ) (page : LeafPage K V) (key : K) :
    Decidable (OnlyKey comparator page key) := inferInstanceAs (Decidable (_ ∧ _))

/-- A root leaf with another key keeps an entry. -/
theorem size_removeAndDeleteRecord {page : LeafPage K V} {key : K} (isRoot : page.isRootPage = true)
    (other : ¬ OnlyKey tree.comparator page key) :
    0 < (page.removeAndDeleteRecord tree.comparator key).size := by
  by_contra none
  apply other
  unfold LeafPage.removeAndDeleteRecord at none
  dsimp only at none
  split_ifs at none with absent
  · exact ⟨isRoot, by omega, fun one => by omega⟩
  · obtain ⟨lt, equal⟩ := not_or.1 absent
    change ¬ 0 < page.size - 1 at none
    have first : page.keyIndex tree.comparator key = 0 := by omega
    rw [first, not_not] at equal
    exact ⟨isRoot, by omega, fun _ => equal⟩

/-- A removal empties the tree only by taking the only key of a root leaf. -/
theorem ValidIds.removeAt {nonempty : Prop} {s : TreeState K V} (h : ValidIds nonempty s) {key : K}
    {leaf : Option PageId} (transaction : Bool)
    (other : nonempty → ∀ p page, leaf = some p → s.pool.content p = .leaf page →
      ¬ OnlyKey tree.comparator page key) :
    KeepsIdsAt nonempty (tree.removeAt key transaction leaf) s := by
  cases leaf with
  | none => exact trivial
  | some p =>
    refine spec_getLeaf_bind (fun _ => trivial) fun page content => ?_
    have free : KeepsIds nonempty (freePagesInTransaction true transaction : TreeM K V Unit) :=
      keepsIds_steps.freePagesInTransaction _ _ _
    have valid := h.pages p
    rw [content] at valid
    have header := LeafPage.removeAndDeleteRecord_header page tree.comparator key
    have valid' : (IndexPage.leaf (page.removeAndDeleteRecord tree.comparator key)).Valid :=
      header.1.trans_ne valid
    have h' := h.setPage valid' p
    refine Spec.bind_eq rfl ?_
    dsimp only
    split_ifs with small
    · refine Spec.bind_eq rfl ?_
      refine Spec.bind (h'.coalesceOrRedistribute _ _ p _ ?_) fun _ s' kept => free s' kept.1
      intro stays page' content'
      obtain rfl : page.removeAndDeleteRecord tree.comparator key = page' :=
        IndexPage.leaf.inj ((Function.update_self p _ s.pool.content).symm.trans content')
      by_contra isRoot
      rw [Bool.not_eq_false] at isRoot
      have wasRoot : page.isRootPage = true := by
        unfold BPlusTreePage.isRootPage at isRoot ⊢
        rwa [header.2] at isRoot
      have left := size_removeAndDeleteRecord tree wasRoot (other stays p page rfl content)
      rw [BPlusTreePage.getMinSize, if_pos isRoot, if_pos rfl] at small
      omega
    · exact free _ h'

end BPlusTree

/-! ## Threads -/

namespace Writers

/-- Where a thread is in its call. -/
inductive Stage (K V : Type)
  | idle
  /-- at the emptiness test of `Insert` -/
  | inserting (key : K) (value : V)
  /-- behind it, at `FindLeafPage` -/
  | insertFinding (key : K) (value : V)
  /-- with the pointer that `FindLeafPage` returned -/
  | insertUsing (key : K) (value : V) (leaf : Option PageId)
  /-- at the emptiness test of `Remove` -/
  | removing (key : K)
  | removeFinding (key : K)
  | removeUsing (key : K) (leaf : Option PageId)
deriving DecidableEq

namespace Stage

/-- The thread found that the tree is not empty and did not look for its leaf yet. -/
def Between : Stage K V → Prop
  | insertFinding _ _ | removeFinding _ => True
  | _ => False

instance (stage : Stage K V) : Decidable stage.Between :=
  match stage with
  | idle | inserting _ _ | insertUsing _ _ _ | removing _ | removeUsing _ _ => isFalse id
  | insertFinding _ _ | removeFinding _ => isTrue trivial

/-- The pointer to a leaf that the thread works with. -/
def Uses (leaf : Option PageId) (stage : Stage K V) : Prop :=
  (∃ key value, stage = .insertUsing key value leaf) ∨ ∃ key, stage = .removeUsing key leaf

end Stage

end Writers

open Writers in
/-- A tree and the threads that use it.  `mRootLockedCnt` is a variable of each thread, and the page
sets belong to its transaction. -/
structure Writers (K V Tid : Type) where
  tree : TreeState K V
  mRootLockedCnt : Tid → ℤ := fun _ => 0
  pageSet : Tid → List PageId := fun _ => []
  deletedPageSet : Tid → Finset PageId := fun _ => ∅
  stage : Tid → Stage K V := fun _ => .idle

namespace Writers

open BPlusTree

/-- The tree as thread `t` sees it. -/
def view (c : Writers K V Tid) (t : Tid) : TreeState K V :=
  { c.tree with
    mRootLockedCnt := c.mRootLockedCnt t
    pageSet := c.pageSet t
    deletedPageSet := c.deletedPageSet t }

variable [DecidableEq Tid]

/-- Thread `t` goes on at `stage` and leaves `s`. -/
def after (c : Writers K V Tid) (t : Tid) (s : TreeState K V) (stage : Stage K V) :
    Writers K V Tid where
  tree := s
  mRootLockedCnt := Function.update c.mRootLockedCnt t s.mRootLockedCnt
  pageSet := Function.update c.pageSet t s.pageSet
  deletedPageSet := Function.update c.deletedPageSet t s.deletedPageSet
  stage := Function.update c.stage t stage

/-- The kinds of steps. -/
inductive Action (K V Tid : Type)
  | insert (t : Tid) (key : K) (value : V)
  | remove (t : Tid) (key : K)
  | startIfEmpty (t : Tid)
  | isEmpty (t : Tid)
  | findLeafPage (t : Tid)
  | insertAt (t : Tid)
  | removeAt (t : Tid)

variable [Inhabited K] [Inhabited V]

/-- A step of a thread.  A thread that waits for a latch has none until the latch is free, and a
thread with a null pointer has none. -/
inductive Step (tree : BPlusTree K) (c : Writers K V Tid) :
    Action K V Tid → Writers K V Tid → Prop
  /-- a call of `Insert` -/
  | insert {t : Tid} {key : K} {value : V} (idle : c.stage t = .idle) :
      Step tree c (.insert t key value) (c.after t (c.view t) (.inserting key value))
  /-- a call of `Remove` -/
  | remove {t : Tid} {key : K} (idle : c.stage t = .idle) :
      Step tree c (.remove t key) (c.after t (c.view t) (.removing key))
  | startIfEmpty {t : Tid} {key : K} {value : V} {started : Bool} {s : TreeState K V}
      (stage : c.stage t = .inserting key value)
      (run : tree.startIfEmpty key value (c.view t) = (.ok started, s)) :
      Step tree c (.startIfEmpty t)
        (c.after t s (if started then .idle else .insertFinding key value))
  /-- `IsEmpty` in `Remove` -/
  | isEmpty {t : Tid} {key : K} (stage : c.stage t = .removing key) :
      Step tree c (.isEmpty t) (c.after t (c.view t)
        (if c.tree.rootPageId = invalidPageId then .idle else .removeFinding key))
  | insertFind {t : Tid} {key : K} {value : V} {leaf : Option PageId} {s : TreeState K V}
      (stage : c.stage t = .insertFinding key value)
      (run : tree.findLeafPage key false .insert true (c.view t) = (.ok leaf, s)) :
      Step tree c (.findLeafPage t) (c.after t s (.insertUsing key value leaf))
  | removeFind {t : Tid} {key : K} {leaf : Option PageId} {s : TreeState K V}
      (stage : c.stage t = .removeFinding key)
      (run : tree.findLeafPage key false .delete true (c.view t) = (.ok leaf, s)) :
      Step tree c (.findLeafPage t) (c.after t s (.removeUsing key leaf))
  /-- `InsertIntoLeaf` behind `FindLeafPage`, up to the return -/
  | insertAt {t : Tid} {key : K} {value : V} {leaf : Option PageId} {inserted : Bool}
      {s : TreeState K V} (stage : c.stage t = .insertUsing key value leaf)
      (run : tree.insertAt key value true leaf (c.view t) = (.ok inserted, s)) :
      Step tree c (.insertAt t) (c.after t s .idle)
  /-- `Remove` behind `FindLeafPage`, up to the return -/
  | removeAt {t : Tid} {key : K} {leaf : Option PageId} {s : TreeState K V}
      (stage : c.stage t = .removeUsing key leaf)
      (run : tree.removeAt key true leaf (c.view t) = (.ok (), s)) :
      Step tree c (.removeAt t) (c.after t s .idle)

/-- No thread has a null pointer, and `StartNewTree` leaves a tree that is not empty as it is. -/
structure Sound (tree : BPlusTree K) (c : Writers K V Tid) : Prop where
  pointer : ∀ t, ¬ (c.stage t).Uses none
  start : ∀ t key value started s, c.stage t = .inserting key value →
    tree.startIfEmpty key value (c.view t) = (.ok started, s) →
    c.tree.rootPageId ≠ invalidPageId → started = false ∧ SameTree c.tree s

/-- The thread is about to remove the only key of the tree. -/
def empties (tree : BPlusTree K) (c : Writers K V Tid) (t : Tid) : Bool :=
  match c.stage t with
  | .removeUsing key (some p) =>
    match c.tree.pool.content p with
    | .leaf page => OnlyKey tree.comparator page key
    | _ => false
  | _ => false

/-- The only key of the tree is removed while no other thread is between its emptiness test and its
`FindLeafPage`. -/
def Alone (tree : BPlusTree K) (c : Writers K V Tid) : Action K V Tid → Prop
  | .removeAt t => c.empties tree t = true → ∀ t' ≠ t, ¬ (c.stage t').Between
  | _ => True

instance [Fintype Tid] (tree : BPlusTree K) (c : Writers K V Tid) (a : Action K V Tid) :
    Decidable (c.Alone tree a) :=
  match a with
  | .removeAt t => inferInstanceAs (Decidable (_ = true → ∀ t' ≠ t, _))
  | .insert _ _ _ | .remove _ _ | .startIfEmpty _ | .isEmpty _ | .findLeafPage _ | .insertAt _ =>
    isTrue trivial

/-- Any step. -/
def Next (tree : BPlusTree K) (c c' : Writers K V Tid) : Prop := ∃ a, Step tree c a c'

/-- A step that does not empty the tree behind the test of another thread. -/
def CarefulNext (tree : BPlusTree K) (c c' : Writers K V Tid) : Prop :=
  ∃ a, Step tree c a c' ∧ c.Alone tree a

/-! ## Runs -/

/-- The ids in the pages are valid, no thread is between its emptiness test and its `FindLeafPage`
while the tree is empty, and none has a null pointer. -/
structure Safe (c : Writers K V Tid) : Prop where
  ids : ValidIds False c.tree
  nonempty : ∀ t, (c.stage t).Between → c.tree.rootPageId ≠ invalidPageId
  pointer : ∀ t, ¬ (c.stage t).Uses none

section Safe

omit [DecidableEq Tid] [Inhabited K] [Inhabited V] in
theorem Safe.view {c : Writers K V Tid} (h : Safe c) (t : Tid) {nonempty : Prop}
    (root : nonempty → c.tree.rootPageId ≠ invalidPageId) : ValidIds nonempty (c.view t) :=
  ⟨h.ids.next, h.ids.pages, root⟩

omit [Inhabited K] [Inhabited V] in
theorem Safe.after {c : Writers K V Tid} (h : Safe c) {t : Tid} {s : TreeState K V}
    {stage : Stage K V} {nonempty : Prop} (ids : ValidIds nonempty s) (pointer : ¬ stage.Uses none)
    (own : stage.Between → nonempty) (others : ∀ t' ≠ t, (c.stage t').Between → nonempty) :
    Safe (c.after t s stage) := by
  refine ⟨⟨ids.next, ids.pages, False.elim⟩, fun t' between => ids.root ?_, fun t' => ?_⟩
  · by_cases e : t' = t
    · subst e
      apply own
      simpa [Writers.after] using between
    · apply others t' e
      simpa [Writers.after, e] using between
  · by_cases e : t' = t
    · subst e
      simpa [Writers.after] using pointer
    · simpa [Writers.after, e] using h.pointer t'

/-- What one step preserves, if it removes the only key while the thread is alone. -/
theorem Safe.step {tree : BPlusTree K} {c c' : Writers K V Tid} {a : Action K V Tid} (h : Safe c)
    (alone : c.Alone tree a) (step : Step tree c a c') : Safe c' := by
  -- a tree that is not empty stays so in every step but the removal of the only key
  have others (t t' : Tid) (_ : t' ≠ t) (between : (c.stage t').Between) :
      c.tree.rootPageId ≠ invalidPageId := h.nonempty t' between
  cases step with
  | @insert t key value idle =>
    exact h.after (h.view t id) (by simp [Stage.Uses]) False.elim (others t)
  | @remove t key idle =>
    exact h.after (h.view t id) (by simp [Stage.Uses]) False.elim (others t)
  | @startIfEmpty t key value started s stage run =>
    have ids := ((keepsIds_startIfEmpty tree key value) _ (h.view t id)).of_ok run
    have rule := startIfEmpty_root tree run
    apply h.after ids.1
    · cases started <;> simp [Stage.Uses]
    · cases started
      · intro _ empty
        rw [if_pos (show (c.view t).rootPageId = _ from empty)] at rule
        cases rule
      · exact False.elim
    · exact others t
  | @isEmpty t key stage =>
    apply h.after (h.view t id)
    · split_ifs <;> simp [Stage.Uses]
    · split_ifs with empty
      · exact False.elim
      · exact fun _ => empty
    · exact others t
  | @insertFind t key value leaf s stage run =>
    have ids := (keepsIds_steps.findLeafPage tree key false .insert true _ (h.view t id)).of_ok run
    have between : (c.stage t).Between := by rw [stage]; trivial
    have found := (findLeafPage_root tree _ _ _ _ run).2 (h.nonempty t between)
    apply h.after ids.1
    · simpa [Stage.Uses] using found
    · exact False.elim
    · exact others t
  | @removeFind t key leaf s stage run =>
    have ids := (keepsIds_steps.findLeafPage tree key false .delete true _ (h.view t id)).of_ok run
    have between : (c.stage t).Between := by rw [stage]; trivial
    have found := (findLeafPage_root tree _ _ _ _ run).2 (h.nonempty t between)
    apply h.after ids.1
    · simpa [Stage.Uses] using found
    · exact False.elim
    · exact others t
  | @insertAt t key value leaf inserted s stage run =>
    have ids := (keepsIds_insertAt tree key value true leaf _ (h.view t id)).of_ok run
    exact h.after ids.1 (by simp [Stage.Uses]) False.elim (others t)
  | @removeAt t key leaf s stage run =>
    -- the tree has to stay if another thread relies on its test
    have view : ValidIds (∃ t' ≠ t, (c.stage t').Between) (c.view t) :=
      h.view t fun waits => h.nonempty _ waits.choose_spec.2
    have ids := (view.removeAt tree true ?_).of_ok run
    · exact h.after ids.1 (by simp [Stage.Uses]) False.elim fun t' other between =>
        ⟨t', other, between⟩
    · rintro ⟨t', other, between⟩ p page rfl content only
      refine alone ?_ t' other between
      simp only [empties, stage, show c.tree.pool.content p = _ from content, only, decide_true]

omit [DecidableEq Tid] in
theorem Safe.sound {tree : BPlusTree K} {c : Writers K V Tid} (h : Safe c) : Sound tree c where
  pointer := h.pointer
  start t key value started s _ run nonempty := by
    have rule := startIfEmpty_root tree run
    rw [if_neg (show (c.view t).rootPageId ≠ _ from nonempty)] at rule
    exact rule

end Safe

/-- Threads that start outside their calls never get a null pointer, and never start a second tree, if
no thread removes the only key of the tree while another one is between its emptiness test and its
`FindLeafPage`. -/
theorem reachable_sound {tree : BPlusTree K} {c₀ c : Writers K V Tid}
    (ids : ValidIds False c₀.tree) (start : ∀ t, c₀.stage t = .idle)
    (reach : Relation.ReflTransGen (CarefulNext tree) c₀ c) : Sound tree c := by
  have safe₀ : Safe c₀ := by
    refine ⟨ids, fun t => ?_, fun t => ?_⟩
    · rw [start t]
      exact False.elim
    · rw [start t]
      simp [Stage.Uses]
  have safe : Safe c := by
    induction reach with
    | refl => exact safe₀
    | tail _ next ih =>
      obtain ⟨a, step, alone⟩ := next
      exact ih.step alone step
  exact safe.sound

/-! ### Runs of given steps -/

/-- The step of a kind, if it is there. -/
def exec (tree : BPlusTree K) (c : Writers K V Tid) : Action K V Tid → Option (Writers K V Tid)
  | .insert t key value =>
    match c.stage t with
    | .idle => some (c.after t (c.view t) (.inserting key value))
    | _ => none
  | .remove t key =>
    match c.stage t with
    | .idle => some (c.after t (c.view t) (.removing key))
    | _ => none
  | .startIfEmpty t =>
    match c.stage t with
    | .inserting key value =>
      match tree.startIfEmpty key value (c.view t) with
      | (.ok started, s) => some (c.after t s (if started then .idle else .insertFinding key value))
      | _ => none
    | _ => none
  | .isEmpty t =>
    match c.stage t with
    | .removing key => some (c.after t (c.view t)
        (if c.tree.rootPageId = invalidPageId then .idle else .removeFinding key))
    | _ => none
  | .findLeafPage t =>
    match c.stage t with
    | .insertFinding key value =>
      match tree.findLeafPage key false .insert true (c.view t) with
      | (.ok leaf, s) => some (c.after t s (.insertUsing key value leaf))
      | _ => none
    | .removeFinding key =>
      match tree.findLeafPage key false .delete true (c.view t) with
      | (.ok leaf, s) => some (c.after t s (.removeUsing key leaf))
      | _ => none
    | _ => none
  | .insertAt t =>
    match c.stage t with
    | .insertUsing key value leaf =>
      match tree.insertAt key value true leaf (c.view t) with
      | (.ok _, s) => some (c.after t s .idle)
      | _ => none
    | _ => none
  | .removeAt t =>
    match c.stage t with
    | .removeUsing key leaf =>
      match tree.removeAt key true leaf (c.view t) with
      | (.ok _, s) => some (c.after t s .idle)
      | _ => none
    | _ => none

theorem step_of_exec {tree : BPlusTree K} {c c' : Writers K V Tid} {a : Action K V Tid}
    (h : exec tree c a = some c') : Step tree c a c' := by
  cases a with
  | insert t key value =>
    simp only [exec] at h
    split at h
    · next stage =>
      cases h
      exact .insert stage
    · cases h
  | remove t key =>
    simp only [exec] at h
    split at h
    · next stage =>
      cases h
      exact .remove stage
    · cases h
  | startIfEmpty t =>
    simp only [exec] at h
    split at h
    · next stage =>
      split at h
      · next run =>
        cases h
        exact .startIfEmpty stage run
      · cases h
    · cases h
  | isEmpty t =>
    simp only [exec] at h
    split at h
    · next stage =>
      cases h
      exact .isEmpty stage
    · cases h
  | findLeafPage t =>
    simp only [exec] at h
    split at h
    · next stage =>
      split at h
      · next run =>
        cases h
        exact .insertFind stage run
      · cases h
    · next stage =>
      split at h
      · next run =>
        cases h
        exact .removeFind stage run
      · cases h
    · cases h
  | insertAt t =>
    simp only [exec] at h
    split at h
    · next stage =>
      split at h
      · next run =>
        cases h
        exact .insertAt stage run
      · cases h
    · cases h
  | removeAt t =>
    simp only [exec] at h
    split at h
    · next stage =>
      split at h
      · next run =>
        cases h
        exact .removeAt stage run
      · cases h
    · cases h

theorem reaches_of_execAll {tree : BPlusTree K} {actions : List (Action K V Tid)}
    {c c' : Writers K V Tid} (run : Runs.execAll (exec tree) actions c = some c') :
    Relation.ReflTransGen (Next tree) c c' :=
  Runs.reaches_of_execAll (fun step _ => ⟨_, step_of_exec step⟩) run
    (Runs.allAllowed_of_forall (fun _ _ => trivial) c)

theorem carefulReaches_of_execAll {tree : BPlusTree K} {actions : List (Action K V Tid)}
    {c c' : Writers K V Tid} (run : Runs.execAll (exec tree) actions c = some c')
    (alone : Runs.AllAllowed (exec tree) (Alone tree) actions c) :
    Relation.ReflTransGen (CarefulNext tree) c c' :=
  Runs.reaches_of_execAll (fun step alone => ⟨_, step_of_exec step, alone⟩) run alone

/-! ### Two threads -/

/-- Two threads start from an empty tree: one inserts a key, the other one finds the tree not empty and
is about to remove it, and the first one tests the tree for its next insertion. -/
def bothTested : List (Action ℤ RID Bool) :=
  [.insert false 1 ⟨1, 0⟩, .startIfEmpty false, .remove true 1, .isEmpty true,
    .insert false 2 ⟨2, 0⟩, .startIfEmpty false]

/-- The insertion goes on first. -/
def insertFirst : List (Action ℤ RID Bool) :=
  bothTested ++ [.findLeafPage false, .insertAt false, .findLeafPage true, .removeAt true]

/-- The removal goes on first, and takes the only key. -/
def removeFirst : List (Action ℤ RID Bool) :=
  bothTested ++ [.findLeafPage true, .removeAt true, .findLeafPage false]

theorem validIds_initial : ValidIds False (TreeState.initial : TreeState ℤ RID) := by
  have stored : Stored (V := RID) ofInts View.initial TreeState.initial none :=
    stored_initial (by decide)
  refine stored.validIds fun p _ => ?_
  unfold TreeState.initial
  dsimp only
  split_ifs <;> trivial

/-- The second key is there at the end, and the first one is not. -/
theorem reachable_sound_insertFirst : ∃ c : Writers ℤ RID Bool,
    Relation.ReflTransGen (CarefulNext ofInts) { tree := TreeState.initial } c ∧ Sound ofInts c ∧
      (ofInts.getValue 1 [] true (c.view true)).1.toOption = some (false, [default]) ∧
      (ofInts.getValue 2 [] true (c.view true)).1.toOption = some (true, [⟨2, 0⟩]) := by
  have values : (Runs.execAll (exec ofInts) insertFirst { tree := TreeState.initial }).map (fun c =>
      ((ofInts.getValue 1 [] true (c.view true)).1.toOption,
        (ofInts.getValue 2 [] true (c.view true)).1.toOption)) =
      some (some (false, [default]), some (true, [⟨2, 0⟩])) := by decide +kernel
  obtain ⟨c, run, values⟩ := Option.map_eq_some_iff.1 values
  obtain ⟨first, second⟩ := Prod.mk.inj values
  have reach := carefulReaches_of_execAll run (by decide +kernel)
  exact ⟨c, reach, reachable_sound validIds_initial (fun _ => rfl) reach, first, second⟩

/-- The insertion gets a null pointer. -/
theorem not_reachable_sound : ∃ c : Writers ℤ RID Bool,
    Relation.ReflTransGen (Next ofInts) { tree := TreeState.initial } c ∧
      c.stage false = .insertUsing 2 ⟨2, 0⟩ none ∧ ¬ Sound ofInts c := by
  have stage : (Runs.execAll (exec ofInts) removeFirst { tree := TreeState.initial }).map (fun c =>
      c.stage false) = some (.insertUsing 2 ⟨2, 0⟩ none) := by decide +kernel
  obtain ⟨c, run, stage⟩ := Option.map_eq_some_iff.1 stage
  exact ⟨c, reaches_of_execAll run, stage,
    fun sound => sound.pointer false (.inl ⟨2, ⟨2, 0⟩, stage⟩)⟩

end Writers

end ScuDb
