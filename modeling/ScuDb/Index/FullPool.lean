import ScuDb.Index.LeafSearch
import ScuDb.Index.Stepwise

/-!
# Insertion into a full pool

The pages `NewPage` and `FetchPage` give are used without a check.  With a pool that has not enough
frames, an insertion does what it does with a larger one until a call returns `nullptr`; there it
dereferences the null pointer, whatever it has changed by then.
-/

namespace ScuDb

open Program

variable {K V α : Type}

namespace BPlusTree

/-- A null pointer is dereferenced while the pool is full. -/
def NullPage (e : Fault) (s : TreeState K V) : Prop := e = .nullDeref ∧ s.pool.full = true

/-- The computation uses every page without a check. -/
abbrev Unchecked (x : TreeM K V α) : Prop := Tracks TreeState.unlimited NullPage x

/-! ## The pool, the transaction and the latches -/

theorem unchecked_onPool {x : PoolM (IndexPage K V) α}
    (same : ∀ pool, x { pool with frames := none } =
      (x pool).map fun r => (r.1, { r.2 with frames := none })) : Unchecked (onPool x) := by
  intro s
  right
  have run := same s.pool
  unfold onPool TreeState.unlimited
  dsimp only
  rw [run]
  cases x s.pool with
  | error e => rfl
  | ok r => rfl

theorem fetchPage_eq (p : PageId) (s : TreeState K V) (room : ¬ (s.pool.full ∧ p ∉ s.pool.pinned)) :
    fetchPage p .nullDeref s =
      (.ok (), { s with pool := { s.pool with pinned := p ::ₘ s.pool.pinned } }) := by
  have run : PagePool.fetchPage p s.pool =
      .ok (true, { s.pool with pinned := p ::ₘ s.pool.pinned }) := if_neg room
  exact bind_returns (onPool_ok run)

theorem unchecked_fetchPage (p : PageId) : Unchecked (fetchPage p : TreeM K V Unit) := by
  intro s
  by_cases null : s.pool.full ∧ p ∉ s.pool.pinned
  · have run : PagePool.fetchPage p s.pool = .ok (false, s.pool) := if_pos null
    exact .inl ⟨.nullDeref, s, bind_returns (onPool_ok run), rfl, null.1⟩
  · right
    rw [fetchPage_eq p s null, fetchPage_eq p s.unlimited (by simp [TreeState.unlimited, PagePool.full])]
    rfl

theorem newPage_eq (s : TreeState K V) (room : ¬ s.pool.full = true) :
    newPage s = if s.pool.nextPageId < 2147483647 then
      (.ok s.pool.nextPageId, { s with
        pool := { s.pool with
          content := Function.update s.pool.content s.pool.nextPageId default
          changed := Function.update s.pool.changed s.pool.nextPageId false
          pinned := s.pool.nextPageId ::ₘ s.pool.pinned
          nextPageId := s.pool.nextPageId + 1 }
        history := { s.history with created := s.pool.nextPageId :: s.history.created } })
      else (.error .overflow, s) := by
  split_ifs with left
  · have run : PagePool.newPage s.pool = .ok (some s.pool.nextPageId, { s.pool with
        content := Function.update s.pool.content s.pool.nextPageId default
        changed := Function.update s.pool.changed s.pool.nextPageId false
        pinned := s.pool.nextPageId ::ₘ s.pool.pinned
        nextPageId := s.pool.nextPageId + 1 }) := by
      unfold PagePool.newPage
      rw [if_neg room, if_pos left]
    exact bind_returns (onPool_ok run)
  · apply bind_stops
    unfold onPool PagePool.newPage
    rw [if_neg room, if_neg left]

theorem unchecked_newPage : Unchecked (newPage : TreeM K V PageId) := by
  intro s
  by_cases full : s.pool.full = true
  · have run : PagePool.newPage s.pool = .ok (none, s.pool) := if_pos full
    exact .inl ⟨.nullDeref, s, bind_returns (onPool_ok run), rfl, full⟩
  · right
    rw [newPage_eq s full, newPage_eq s.unlimited (by simp [TreeState.unlimited, PagePool.full])]
    change (if s.pool.nextPageId < 2147483647 then _ else _) = _
    split_ifs
    · rfl
    · rfl

theorem unchecked_unpinPage (p : PageId) (isDirty : Bool) :
    Unchecked (unpinPage p isDirty : TreeM K V Unit) := by
  apply unchecked_onPool
  intro pool
  unfold PagePool.unpinPage
  split_ifs
  · rfl
  · rfl
  · rfl
  · rfl

theorem unchecked_lock (exclusive : Bool) (p : PageId) :
    Unchecked (lock exclusive p : TreeM K V Unit) := by
  apply unchecked_onPool
  intro pool
  cases exclusive
  · change PagePool.rLatch p _ = (PagePool.rLatch p pool).map _
    unfold PagePool.rLatch
    split_ifs
    · rfl
    · rfl
  · change PagePool.wLatch p _ = (PagePool.wLatch p pool).map _
    unfold PagePool.wLatch
    split_ifs
    · rfl
    · rfl

theorem unchecked_unlock (exclusive : Bool) (p : PageId) :
    Unchecked (unlock exclusive p : TreeM K V Unit) := by
  apply unchecked_onPool
  intro pool
  cases exclusive
  · change PagePool.rUnlatch p _ = (PagePool.rUnlatch p pool).map _
    unfold PagePool.rUnlatch
    split_ifs
    · rfl
    · rfl
  · rfl

theorem unchecked_deletePage (p : PageId) : Unchecked (deletePage p : TreeM K V Unit) := by
  refine Tracks.bind (unchecked_onPool fun pool => ?_) fun r => tracks_modify fun _ => rfl
  unfold PagePool.deletePage
  split_ifs
  · rfl
  · rfl

theorem unchecked_getPage (p : PageId) : Unchecked (getPage p : TreeM K V (IndexPage K V)) :=
  fun _ => .inr rfl

theorem unchecked_setPage (p : PageId) (page : IndexPage K V) :
    Unchecked (setPage p page : TreeM K V Unit) := fun _ => .inr rfl

theorem unchecked_setParentPageId (p parentPageId : PageId) :
    Unchecked (setParentPageId p parentPageId : TreeM K V Unit) :=
  (unchecked_getPage p).bind fun _ => (tracks_lift _).bind fun _ => unchecked_setPage _ _

theorem unchecked_setRootPageId (root : PageId) :
    Unchecked (setRootPageId root : TreeM K V Unit) := tracks_modify fun _ => rfl

theorem unchecked_addIntoPageSet (transaction : Bool) (p : PageId) :
    Unchecked (addIntoPageSet transaction p : TreeM K V Unit) := by
  cases transaction
  · exact tracks_throw _
  · exact tracks_modify fun _ => rfl

theorem unchecked_lockRootPageId (exclusive : Bool) :
    Unchecked (lockRootPageId exclusive : TreeM K V Unit) :=
  tracks_read_bind (fun _ => rfl) fun _ => (tracks_lift _).bind fun _ => tracks_modify fun _ => rfl

theorem unchecked_tryUnlockRootPageId (exclusive : Bool) :
    Unchecked (tryUnlockRootPageId exclusive : TreeM K V Unit) := by
  refine tracks_read_bind (fun _ => rfl) fun s => ?_
  split_ifs
  · exact (tracks_lift _).bind fun _ => tracks_modify fun _ => rfl
  · exact tracks_pure _

theorem unchecked_freePage (exclusive : Bool) (p : PageId) :
    Unchecked (freePage exclusive p : TreeM K V Unit) := by
  refine (unchecked_unlock _ _).bind fun _ => (unchecked_unpinPage _ _).bind fun _ => ?_
  refine tracks_read_bind (fun _ => rfl) fun s => ?_
  split_ifs
  · exact (unchecked_deletePage p).bind fun _ => tracks_modify fun _ => rfl
  · exact tracks_pure _

theorem unchecked_steps : Stepwise fun _ (x : TreeM K V _) => Unchecked x where
  pure := tracks_pure
  throw := tracks_throw
  lift := tracks_lift
  bind := Tracks.bind
  read_bind := tracks_read_bind
  getPage := unchecked_getPage
  fetchPage := unchecked_fetchPage
  unpinPage := unchecked_unpinPage
  lock := unchecked_lock
  unlock := unchecked_unlock
  lockRootPageId := unchecked_lockRootPageId
  tryUnlockRootPageId := unchecked_tryUnlockRootPageId
  addIntoPageSet := unchecked_addIntoPageSet
  freePage := unchecked_freePage
  clearPageSet := tracks_modify fun _ => rfl

/-! ## Insertion -/

variable {tree : BPlusTree K}

theorem unchecked_updateRootPageId (insertRecord : Bool) :
    Unchecked (tree.updateRootPageId insertRecord : TreeM K V Unit) := by
  refine (unchecked_fetchPage _).bind fun _ => (unchecked_getPage _).bind fun page =>
    (tracks_lift _).bind fun data => tracks_read_bind (fun _ => rfl) fun s => ?_
  cases insertRecord
  · exact (tracks_lift _).bind fun _ => (unchecked_setPage _ _).bind fun _ => unchecked_unpinPage _ _
  · exact (tracks_lift _).bind fun _ => (unchecked_setPage _ _).bind fun _ => unchecked_unpinPage _ _

theorem unchecked_setParentOfChild (child parentPageId : PageId) :
    Unchecked (setParentOfChild child parentPageId : TreeM K V Unit) :=
  (unchecked_fetchPage _).bind fun _ => (unchecked_setParentPageId _ _).bind fun _ =>
    unchecked_unpinPage _ _

variable [Inhabited K] [Inhabited V]

theorem unchecked_startNewTree (key : K) (value : V) :
    Unchecked (tree.startNewTree key value : TreeM K V Unit) := by
  refine unchecked_newPage.bind fun id => (unchecked_setPage _ _).bind fun _ => ?_
  refine (unchecked_setRootPageId _).bind fun _ => (unchecked_updateRootPageId _).bind fun _ => ?_
  exact (tracks_lift _).bind fun _ => (unchecked_setPage _ _).bind fun _ => unchecked_unpinPage _ _

theorem unchecked_split (node : PageId) (transaction : Bool) :
    Unchecked (tree.split node transaction : TreeM K V PageId) := by
  refine unchecked_newPage.bind fun p => (unchecked_lock _ _).bind fun _ => ?_
  refine (unchecked_addIntoPageSet _ _).bind fun _ => (unchecked_getPage _).bind fun page => ?_
  cases page with
  | raw data => exact tracks_throw _
  | leaf page =>
    refine (unchecked_setPage _ _).bind fun _ => (tracks_lift _).bind fun _ => ?_
    exact (unchecked_setPage _ _).bind fun _ => (unchecked_setPage _ _).bind fun _ => tracks_pure _
  | internal page =>
    refine (unchecked_setPage _ _).bind fun _ => (tracks_lift _).bind fun children => ?_
    refine (tracks_forM (fun child => unchecked_setParentOfChild child _) _).bind fun _ => ?_
    exact (unchecked_setPage _ _).bind fun _ => (unchecked_setPage _ _).bind fun _ => tracks_pure _

theorem unchecked_insertIntoParent (fuel : ℕ) : ∀ (oldNode : PageId) (key : K) (newNode : PageId)
    (transaction : Bool),
    Unchecked (tree.insertIntoParent fuel oldNode key newNode transaction : TreeM K V Unit) := by
  induction fuel with
  | zero => exact fun _ _ _ _ => tracks_throw _
  | succ fuel ih =>
    intro oldNode key newNode transaction
    refine (tracks_lift _).bind fun _ => (unchecked_steps.getTreePage _).bind fun old => ?_
    refine (unchecked_steps.getTreePage _).bind fun new => ?_
    dsimp only
    split_ifs
    · refine unchecked_newPage.bind fun root => (unchecked_setRootPageId _).bind fun _ => ?_
      refine (unchecked_setPage _ _).bind fun _ => (unchecked_setPage _ _).bind fun _ => ?_
      refine (unchecked_setParentPageId _ _).bind fun _ => ?_
      refine (unchecked_setParentPageId _ _).bind fun _ => ?_
      exact (unchecked_updateRootPageId _).bind fun _ => unchecked_unpinPage _ _
    · refine (unchecked_fetchPage _).bind fun _ => (unchecked_setParentPageId _ _).bind fun _ => ?_
      refine (unchecked_steps.getInternal _).bind fun parent => (tracks_lift _).bind fun parent' => ?_
      refine (unchecked_setPage _ _).bind fun _ => ?_
      split_ifs
      · refine (unchecked_split _ _).bind fun p => (unchecked_steps.getInternal _).bind fun _ => ?_
        exact (tracks_lift _).bind fun _ => (ih _ _ _ _).bind fun _ => unchecked_unpinPage _ _
      · exact unchecked_unpinPage _ _

theorem unchecked_insertIntoLeaf (key : K) (value : V) (transaction : Bool) :
    Unchecked (tree.insertIntoLeaf key value transaction : TreeM K V Bool) := by
  have free (r : Bool) : Unchecked (do freePagesInTransaction true transaction; return r :
      TreeM K V Bool) :=
    (unchecked_steps.freePagesInTransaction _ _ _).bind fun _ => tracks_pure _
  refine (unchecked_steps.findLeafPage tree _ _ _ _).bind fun found => ?_
  cases found with
  | none => exact tracks_throw _
  | some leaf =>
    refine (unchecked_steps.getLeaf _).bind fun page => ?_
    split_ifs
    · exact free false
    · refine (tracks_lift _).bind fun page' => (unchecked_setPage _ _).bind fun _ => ?_
      dsimp only
      split_ifs
      · refine tracks_read_bind (fun _ => rfl) fun s => (unchecked_split _ _).bind fun p => ?_
        refine (unchecked_steps.getLeaf _).bind fun _ => (tracks_lift _).bind fun _ => ?_
        exact (unchecked_insertIntoParent _ _ _ _ _).bind fun _ => free true
      · exact free true

theorem unchecked_insert (key : K) (value : V) (transaction : Bool) :
    Unchecked (tree.insert key value transaction : TreeM K V Bool) := by
  refine (unchecked_lockRootPageId _).bind fun _ => tracks_read_bind (fun _ => rfl) fun s => ?_
  split_ifs
  · exact (unchecked_startNewTree _ _).bind fun _ => (unchecked_tryUnlockRootPageId _).bind fun _ =>
      tracks_pure _
  · exact (unchecked_tryUnlockRootPageId _).bind fun _ => unchecked_insertIntoLeaf _ _ _

/-! ## Out of memory -/

omit [Inhabited K] [Inhabited V] in
/-- A call of `NewPage` or `FetchPage` returns `nullptr`: the run is not the one with a pool that has
frames for all of them. -/
def RunsOut (x : TreeM K V α) (s : TreeState K V) : Prop :=
  x s.unlimited ≠ ((x s).1, (x s).2.unlimited)

/-- An insertion that does not get a page throws, and the tree is as it was. -/
def AtomicWhenFull (tree : BPlusTree K) (key : K) (value : V) (transaction : Bool)
    (s : TreeState K V) : Prop :=
  RunsOut (tree.insert key value transaction) s →
    (tree.insert key value transaction s).1 = .error .exception ∧
      (tree.insert key value transaction s).2.pool.content = s.pool.content ∧
      (tree.insert key value transaction s).2.rootPageId = s.rootPageId

/-- An insertion that does not get a page dereferences the null pointer, so it is atomic only if it
gets them all. -/
theorem atomicWhenFull_iff (tree : BPlusTree K) (key : K) (value : V) (transaction : Bool)
    (s : TreeState K V) :
    (AtomicWhenFull tree key value transaction s ↔
      ¬ RunsOut (tree.insert key value transaction) s) ∧
    (RunsOut (tree.insert key value transaction) s →
      ∃ s', tree.insert key value transaction s = (.error .nullDeref, s') ∧
        s'.pool.full = true) := by
  have stops (out : RunsOut (tree.insert key value transaction) s) :
      ∃ s', tree.insert key value transaction s = (.error .nullDeref, s') ∧
        s'.pool.full = true := by
    obtain ⟨e, s', run, rfl, full⟩ | same := unchecked_insert key value transaction s
    · exact ⟨s', run, full⟩
    · exact absurd same out
  refine ⟨⟨fun atomic out => ?_, fun enough out => absurd out enough⟩, stops⟩
  obtain ⟨s', run, -⟩ := stops out
  have thrown := (atomic out).1
  rw [run] at thrown
  cases thrown

/-- A pool with one frame: the new root page takes it, and there is none for the header page. -/
theorem not_atomicWhenFull : ∃ s : TreeState ℤ RID, s.rootPageId = invalidPageId ∧
    s.pool.pinned = 0 ∧ (ofInts.insert 1 ⟨1, 0⟩ true s).2.rootPageId = 1 ∧
    ¬ AtomicWhenFull ofInts 1 (⟨1, 0⟩ : RID) true s := by
  let fresh : TreeState ℤ RID := TreeState.initial
  let s : TreeState ℤ RID := { fresh with pool := { fresh.pool with frames := some 1 } }
  have run : (ofInts.insert 1 (⟨1, 0⟩ : RID) true s).1 = .error .nullDeref := rfl
  have unlimited : s.unlimited = fresh := rfl
  have enough : (ofInts.insert 1 (⟨1, 0⟩ : RID) true TreeState.initial).1 = .ok true := rfl
  refine ⟨s, rfl, rfl, rfl, fun atomic => ?_⟩
  have out : RunsOut (ofInts.insert 1 (⟨1, 0⟩ : RID) true) s := by
    intro same
    rw [unlimited] at same
    have := (congrArg Prod.fst same).symm.trans enough
    rw [run] at this
    cases this
  have thrown := (atomic out).1
  rw [run] at thrown
  cases thrown

end BPlusTree

end ScuDb
