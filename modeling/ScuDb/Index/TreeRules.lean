import ScuDb.Index.BPlusTree

/-!
# Rules for the steps of a tree operation

A view says what an operation sees of the state: the pages, the root id and the root id in the
header page, the page set it holds latched, the other pins, the pages it changed and still has to
give back, and who else holds a latch.  Each step of the code has one rule that takes the view
before it to the view behind it.
-/

namespace ScuDb

open Program

/-- A latch as the only holder takes it. -/
def Latch.taken (exclusive : Bool) : Latch :=
  if exclusive then { writer := true } else { readers := 1 }

/-- A write to the size, the entries or the next pointer of a page hits a page of the page set
under its write latch, or a page the operation created.  The header page is left out. -/
def Write.Guarded {K V : Type} (w : Write K V) : Prop :=
  w.page = headerPageId ∨ w.before.SameStructure w.after ∨
    (w.page ∈ w.pageSet ∧ w.latch.writer = true) ∨ w.page ∈ w.created

/-- The root id is changed under the root latch. -/
def RootChange.Guarded (c : RootChange) : Prop := c.mutex.writer = true ∧ 0 < c.lockedCnt

structure History.Guarded {K V : Type} (h : History K V) : Prop where
  writes : ∀ w ∈ h.writes, w.Guarded
  rootChanges : ∀ c ∈ h.rootChanges, c.Guarded

namespace BPlusTree

variable {K V : Type}

/-- What an operation sees of the state. -/
structure View (K V : Type) where
  exclusive : Bool
  content : PageId → IndexPage K V
  root : PageId
  recorded : Option PageId
  next : ℤ
  pins : Multiset PageId
  base : PageId → Latch
  held : List PageId := []
  opened : List PageId := []
  rootHeld : Bool := false
  deleted : Finset PageId := ∅
  created : List PageId := []
  deletions : List Bool := []

/-- The state is as the view says. -/
structure At (tree : BPlusTree K) (v : View K V) (s : TreeState K V) : Prop where
  frames : s.pool.frames = none
  content : ∀ p, p ≠ headerPageId → s.pool.content p = v.content p
  header : ∃ data, s.pool.content headerPageId = .raw data ∧
    HeaderPage.Valid data tree.indexName ∧
    HeaderPage.getRootId data tree.indexName = .ok v.recorded
  pinned : s.pool.pinned = v.pins + v.held
  latch : ∀ p, s.pool.latch p = if p ∈ v.held then .taken v.exclusive else v.base p
  changed : ∀ p, s.pool.changed p = true → (v.exclusive = true ∧ p ∈ v.held) ∨ p ∈ v.opened
  next : s.pool.nextPageId = v.next
  next_pos : 0 < v.next
  next_le : v.next ≤ 2147483647
  root : s.rootPageId = v.root
  mutex : s.mMutex = if v.rootHeld then .taken v.exclusive else {}
  lockedCnt : s.mRootLockedCnt = if v.rootHeld then 1 else 0
  pageSet : s.pageSet = v.held
  held_nodup : v.held.Nodup
  held_base : ∀ p ∈ v.held, v.base p = {}
  deleted : s.deletedPageSet = v.deleted
  created : s.history.created = v.created
  guarded : s.history.Guarded
  deletions : s.history.deletions = v.deletions

/-- No page id is left for `NewPage`. -/
structure Exhausted (e : Fault) (s : TreeState K V) : Prop where
  overflow : e = .overflow
  next : s.pool.nextPageId = 2147483647
  guarded : s.history.Guarded

variable {tree : BPlusTree K} {v : View K V} {s : TreeState K V} {p : PageId}
  {E : Fault → TreeState K V → Prop}

theorem onPool_ok {α : Type} {x : PoolM (IndexPage K V) α} {a : α} {pool : PagePool (IndexPage K V)}
    (h : x s.pool = .ok (a, pool)) : onPool x s = (.ok a, { s with pool := pool }) := by
  unfold onPool
  rw [h]

theorem spec_onPool {α : Type} {x : PoolM (IndexPage K V) α} {a : α}
    {pool : PagePool (IndexPage K V)} {Q : α → TreeState K V → Prop}
    (h : x s.pool = .ok (a, pool)) (post : Q a { s with pool := pool }) :
    Spec (onPool x) s Q E := by
  unfold Spec
  rw [onPool_ok h]
  exact post

/-! ## Pins -/

/-- `FetchPage` in a pool that never runs out of frames. -/
theorem At.fetchPage_rule (h : At tree v s) (p : PageId) (onNull : Fault) :
    Spec (fetchPage p onNull) s (fun _ => At tree { v with pins := p ::ₘ v.pins }) E := by
  have run : PagePool.fetchPage p s.pool =
      .ok (true, { s.pool with pinned := p ::ₘ s.pool.pinned }) := by
    unfold PagePool.fetchPage
    rw [if_neg]
    simp [PagePool.full, h.frames]
  refine Spec.bind_eq (onPool_ok run) (spec_pure ?_)
  exact { h with pinned := by simp [h.pinned] }

/-- `UnpinPage` of a page that is given back as dirty. -/
theorem At.unpinDirty_rule (h : At tree v s) {pins : Multiset PageId} (opened : List PageId)
    (hp : v.pins = p ::ₘ pins) (ho : ∀ q ∈ v.opened, q ≠ p → q ∈ opened) :
    Spec (unpinPage p true) s (fun _ => At tree { v with pins := pins, opened := opened }) E := by
  have pinned : s.pool.pinned = p ::ₘ (pins + v.held) := by
    rw [h.pinned, hp, Multiset.cons_add]
  have run : PagePool.unpinPage p true s.pool = .ok ((), { s.pool with
      pinned := pins + v.held
      changed := Function.update s.pool.changed p false }) := by
    unfold PagePool.unpinPage
    rw [if_neg (by simp [pinned]), if_neg (by simp), pinned, Multiset.erase_cons_head]
    rfl
  refine spec_onPool run { h with pinned := rfl, changed := fun q hq => ?_ }
  dsimp only at hq ⊢
  by_cases e : q = p
  · rw [e, Function.update_self] at hq
    cases hq
  · rw [Function.update_of_ne e] at hq
    obtain held | opened := h.changed q hq
    · exact .inl held
    · exact .inr (ho q opened e)

/-- `UnpinPage` of a page that is not changed or stays pinned. -/
theorem At.unpinClean_rule (h : At tree v s) {pins : Multiset PageId} (hp : v.pins = p ::ₘ pins)
    (clean : p ∈ v.held ∨ p ∉ v.opened) :
    Spec (unpinPage p false) s (fun _ => At tree { v with pins := pins }) E := by
  have pinned : s.pool.pinned = p ::ₘ (pins + v.held) := by
    rw [h.pinned, hp, Multiset.cons_add]
  have run : PagePool.unpinPage p false s.pool = .ok ((), { s.pool with pinned := pins + v.held }) := by
    unfold PagePool.unpinPage
    rw [if_neg (by simp [pinned]), if_neg, pinned, Multiset.erase_cons_head]
    · rfl
    · rintro ⟨changed, -, last⟩
      have here : p ∈ v.held := by
        obtain held | opened := h.changed p changed
        · exact held.2
        · exact clean.resolve_right fun no => no opened
      rw [pinned, Multiset.count_cons_self, Multiset.count_add] at last
      have := Multiset.one_le_count_iff_mem.2 (Multiset.mem_coe.2 here)
      omega
  exact spec_onPool run { h with pinned := rfl }

/-! ## Pages -/

theorem At.getPage_eq (h : At tree v s) (hp : p ≠ headerPageId) :
    getPage p s = (.ok (v.content p), s) := by
  unfold getPage
  rw [h.content p hp]

theorem At.getLeaf_eq (h : At tree v s) (hp : p ≠ headerPageId) {page : LeafPage K V}
    (hc : v.content p = .leaf page) : getLeaf p s = (.ok page, s) := by
  change (match getPage p s with
    | (.ok a, s') => (a.asLeaf, s')
    | (.error e, s') => (.error e, s')) = _
  rw [h.getPage_eq hp, hc]
  rfl

theorem At.getInternal_eq (h : At tree v s) (hp : p ≠ headerPageId) {page : InternalPage K}
    (hc : v.content p = .internal page) : getInternal p s = (.ok page, s) := by
  change (match getPage p s with
    | (.ok a, s') => (a.asInternal, s')
    | (.error e, s') => (.error e, s')) = _
  rw [h.getPage_eq hp, hc]
  rfl

theorem At.getTreePage_eq (h : At tree v s) (hp : p ≠ headerPageId) {page : BPlusTreePage}
    (hc : (v.content p).asTreePage = .ok page) : getTreePage p s = (.ok page, s) := by
  change (match getPage p s with
    | (.ok a, s') => (a.asTreePage, s')
    | (.error e, s') => (.error e, s')) = _
  rw [h.getPage_eq hp, ← hc]

theorem At.setPage (h : At tree v s) (hp : p ≠ headerPageId) (page : IndexPage K V)
    {opened : List PageId} (hw : (v.content p).SameStructure page ∨
      (v.exclusive = true ∧ p ∈ v.held) ∨ p ∈ v.created)
    (ho : (v.exclusive = true ∧ p ∈ v.held) ∨ p ∈ opened) (hsub : v.opened ⊆ opened) :
    ∃ s', setPage p page s = (.ok (), s') ∧
      At tree { v with content := Function.update v.content p page, opened := opened } s' := by
  refine ⟨_, rfl, { h with
    content := fun q hq => ?_, header := ?_, changed := fun q hq => ?_, guarded := ?_ }⟩
  · dsimp only
    by_cases e : q = p
    · rw [e, Function.update_self, Function.update_self]
    · rw [Function.update_of_ne e, Function.update_of_ne e, h.content q hq]
  · obtain ⟨data, hd, valid⟩ := h.header
    exact ⟨data, (Function.update_of_ne hp.symm _ _).trans hd, valid⟩
  · dsimp only at hq ⊢
    by_cases e : q = p
    · exact e ▸ ho
    · rw [Function.update_of_ne e] at hq
      exact (h.changed q hq).imp_right fun o => hsub o
  · refine ⟨fun w hw' => ?_, h.guarded.rootChanges⟩
    obtain rfl | old := List.mem_cons.1 hw'
    · refine .inr ?_
      dsimp only
      rw [h.content p hp, h.pageSet, h.created, h.latch p]
      obtain same | held | created := hw
      · exact .inl same
      · exact .inr (.inl ⟨held.2, by simp [held.1, held.2, Latch.taken]⟩)
      · exact .inr (.inr created)
    · exact h.guarded.writes w old

/-- A write to a page of the page set. -/
theorem At.setHeld_rule (h : At tree v s) (hp : p ≠ headerPageId) (ex : v.exclusive = true)
    (held : p ∈ v.held) (page : IndexPage K V) :
    Spec (BPlusTree.setPage p page) s
      (fun _ => At tree { v with content := Function.update v.content p page }) E := by
  obtain ⟨s', run, h'⟩ := h.setPage hp page (.inr (.inl ⟨ex, held⟩)) (.inl ⟨ex, held⟩)
    (List.Subset.refl _)
  unfold Spec
  rw [run]
  exact h'

/-- A write to a page that the operation created and has still pinned. -/
theorem At.setCreated_rule (h : At tree v s) (hp : p ≠ headerPageId) (created : p ∈ v.created)
    (page : IndexPage K V) :
    Spec (BPlusTree.setPage p page) s (fun _ => At tree { v with
      content := Function.update v.content p page, opened := p :: v.opened }) E := by
  obtain ⟨s', run, h'⟩ := h.setPage hp page (.inr (.inr created))
    (.inr List.mem_cons_self) (List.subset_cons_self _ _)
  unfold Spec
  rw [run]
  exact h'

/-- `SetParentPageId` of a page of the page set. -/
theorem At.setParentHeld_rule (h : At tree v s) (hp : p ≠ headerPageId) (ex : v.exclusive = true)
    (held : p ∈ v.held) (header : BPlusTreePage) (hc : (v.content p).asTreePage = .ok header)
    (parent : PageId) : Spec (setParentPageId p parent) s (fun _ => At tree { v with
      content := Function.update v.content p ((v.content p).withParent parent) }) E := by
  refine Spec.bind_eq (h.getPage_eq hp) ?_
  refine Spec.bind_eq (a := (v.content p).withParent parent) (t := s) (by
    rw [IndexPage.setParentPageId_ok hc parent]; rfl) ?_
  exact h.setHeld_rule hp ex held _

/-- Fetching a page and giving it another parent. -/
theorem At.fetchSetParent_rule (h : At tree v s) (hp : p ≠ headerPageId)
    {header : BPlusTreePage} (hc : (v.content p).asTreePage = .ok header) (parent : PageId)
    (onNull : Fault) {α : Type} {f : TreeM K V α} {R : α → TreeState K V → Prop}
    (rest : ∀ s', At tree { v with
      content := Function.update v.content p ((v.content p).withParent parent)
      pins := p ::ₘ v.pins
      opened := p :: v.opened } s' → Spec f s' R E) :
    Spec (do fetchPage p onNull; setParentPageId p parent; f) s R E := by
  refine Spec.bind (h.fetchPage_rule p onNull) fun _ s₁ h₁ => ?_
  refine Spec.bind (P := fun _ => At tree { v with
    content := Function.update v.content p ((v.content p).withParent parent)
    pins := p ::ₘ v.pins
    opened := p :: v.opened }) ?_ fun _ s₂ h₂ => rest s₂ h₂
  refine Spec.bind_eq (h₁.getPage_eq hp) ?_
  refine Spec.bind_eq (a := (v.content p).withParent parent) (t := s₁) (by
    rw [IndexPage.setParentPageId_ok hc parent]; rfl) ?_
  obtain ⟨s', run, h'⟩ := h₁.setPage hp _ (.inl (IndexPage.sameStructure_withParent _ parent))
    (.inr List.mem_cons_self) (List.subset_cons_self p _)
  unfold Spec
  rw [run]
  exact h'

theorem At.setParentOfChild_rule (h : At tree v s) (hp : p ≠ headerPageId)
    {header : BPlusTreePage} (hc : (v.content p).asTreePage = .ok header) (parent : PageId) :
    Spec (setParentOfChild p parent) s (fun _ => At tree { v with
      content := Function.update v.content p ((v.content p).withParent parent) }) E :=
  h.fetchSetParent_rule hp hc parent .nullDeref fun _ h₁ =>
    h₁.unpinDirty_rule _ rfl fun _ hq ne => (List.mem_cons.1 hq).resolve_left ne

/-- `NewPage` in a pool that never runs out of frames. -/
theorem At.newPage_rule (h : At tree v s) :
    Spec newPage s (fun p s' => p = v.next ∧ At tree { v with
      content := Function.update v.content v.next default
      next := v.next + 1
      pins := v.next ::ₘ v.pins
      created := v.next :: v.created } s')
      fun e s' => v.next = 2147483647 ∧ Exhausted e s' := by
  have hne : v.next ≠ headerPageId := by
    have := h.next_pos
    show v.next ≠ 0
    omega
  by_cases left : v.next < 2147483647
  · have run : PagePool.newPage s.pool = .ok (some v.next, { s.pool with
        content := Function.update s.pool.content v.next default
        changed := Function.update s.pool.changed v.next false
        pinned := v.next ::ₘ s.pool.pinned
        nextPageId := v.next + 1 }) := by
      unfold PagePool.newPage
      rw [if_neg (by simp [PagePool.full, h.frames]), h.next, if_pos left]
    refine Spec.bind_eq (onPool_ok run) ?_
    refine Spec.bind (spec_modify (Q := fun _ t => At tree { v with
      content := Function.update v.content v.next default
      next := v.next + 1
      pins := v.next ::ₘ v.pins
      created := v.next :: v.created } t) ?_) fun _ _ h' => spec_pure ⟨rfl, h'⟩
    obtain ⟨data, hd, valid⟩ := h.header
    refine { h with
      content := fun q hq => ?_, header := ⟨data, ?_, valid⟩, pinned := ?_,
      changed := fun q hq => ?_, next := rfl, next_pos := ?_, next_le := ?_,
      created := by simp [h.created], guarded := ⟨h.guarded.writes, h.guarded.rootChanges⟩ }
    · dsimp only
      by_cases e : q = v.next
      · rw [e, Function.update_self, Function.update_self]
      · rw [Function.update_of_ne e, Function.update_of_ne e, h.content q hq]
    · exact (Function.update_of_ne hne.symm _ _).trans hd
    · simp [h.pinned]
    · dsimp only at hq ⊢
      by_cases e : q = v.next
      · rw [e, Function.update_self] at hq
        cases hq
      · rw [Function.update_of_ne e] at hq
        exact h.changed q hq
    · have := h.next_pos
      show 0 < v.next + 1
      omega
    · show v.next + 1 ≤ 2147483647
      omega
  · have full : v.next = 2147483647 := le_antisymm h.next_le (not_lt.1 left)
    have run : PagePool.newPage s.pool = .error .overflow := by
      unfold PagePool.newPage
      rw [if_neg (by simp [PagePool.full, h.frames]), h.next, if_neg left]
    refine Spec.bind (P := fun _ _ => False) ?_ fun _ _ => False.elim
    unfold Spec onPool
    rw [run]
    exact ⟨full, rfl, by rw [h.next, full], h.guarded⟩

/-! ## Latches -/

/-- Locking a page nobody holds. -/
theorem At.lock_rule (h : At tree v s) {ex : Bool} (hex : v.exclusive = ex) (out : p ∉ v.held)
    (free : v.base p = {}) : Spec (lock ex p) s
      (fun _ => At tree { v with base := Function.update v.base p (.taken ex) }) E := by
  have latch : s.pool.latch p = {} := by rw [h.latch, if_neg out, free]
  have run : (if ex then PagePool.wLatch p else PagePool.rLatch p) s.pool =
      .ok ((), { s.pool with latch := Function.update s.pool.latch p (.taken ex) }) := by
    cases ex
    · simp [PagePool.rLatch, latch, Latch.taken]
    · simp [PagePool.wLatch, latch, Latch.taken]
  refine spec_onPool run { h with latch := fun q => ?_, held_base := fun q hq => ?_ }
  · dsimp only
    by_cases e : q = p
    · rw [e, Function.update_self, Function.update_self, if_neg out]
    · rw [Function.update_of_ne e, Function.update_of_ne e, h.latch]
  · have ne : q ≠ p := by
      rintro rfl
      exact out hq
    exact (Function.update_of_ne ne _ _).trans (h.held_base q hq)

/-- A writer that finds the page `p` in use has to wait. -/
def View.Waits (v : View K V) (E : Fault → TreeState K V → Prop) (p : PageId) : Prop :=
  v.base p ≠ {} → ∀ s, E .blocked s

theorem View.waits_of_free (free : v.base p = {}) : v.Waits E p := fun taken => absurd free taken

theorem View.Waits.congr {v' : View K V} (waits : v.Waits E p) (same : v'.base = v.base) :
    v'.Waits E p := fun taken => waits (by rwa [← same])

/-- A writer waits for a page that others hold. -/
theorem At.lockTaken_rule (h : At tree v s) (out : p ∉ v.held) (taken : v.base p ≠ {})
    (waits : v.Waits E p) {Q : Unit → TreeState K V → Prop} : Spec (lock true p) s Q E := by
  have latch : s.pool.latch p = v.base p := by rw [h.latch, if_neg out]
  have busy : (s.pool.latch p).writer = true ∨ 0 < (s.pool.latch p).readers := by
    by_contra none
    obtain ⟨writer, readers⟩ := not_or.1 none
    rw [latch] at writer readers
    apply taken
    rcases hb : v.base p with ⟨w, r⟩
    rw [hb] at writer readers
    simp only [Bool.not_eq_true, not_lt, nonpos_iff_eq_zero] at writer readers
    rw [writer, readers]
  unfold Spec lock onPool
  rw [if_pos rfl, PagePool.wLatch, if_pos busy]
  exact waits taken s

/-- A latched page goes into the page set. -/
theorem At.addIntoPageSet_rule (h : At tree v s) {pins : Multiset PageId} {base : PageId → Latch}
    (hp : v.pins = p ::ₘ pins) (out : p ∉ v.held) (free : base p = {})
    (hbase : v.base = Function.update base p (.taken v.exclusive)) :
    Spec (addIntoPageSet true p) s (fun _ => At tree { v with
      held := v.held ++ [p], pins := pins, base := base }) E := by
  have off : ∀ q, q ≠ p → v.base q = base q := fun q ne => by rw [hbase, Function.update_of_ne ne]
  refine spec_modify { h with
    pinned := ?_, latch := fun q => ?_, changed := fun q hq => ?_, pageSet := ?_,
    held_nodup := ?_, held_base := fun q hq => ?_ }
  · dsimp only
    rw [h.pinned, hp, Multiset.cons_add, ← Multiset.coe_add, ← Multiset.cons_coe, Multiset.coe_nil,
      Multiset.add_cons, add_zero, Multiset.add_cons]
  · dsimp only
    rw [h.latch]
    by_cases e : q = p
    · rw [e, if_neg out, if_pos (by simp), hbase, Function.update_self]
    · simp [e, off q e]
  · exact (h.changed q hq).imp_left fun held => ⟨held.1, List.mem_append_left _ held.2⟩
  · dsimp only
    rw [h.pageSet]
  · refine List.nodup_append.2 ⟨h.held_nodup, List.nodup_singleton p, fun q hq r hr => ?_⟩
    rintro rfl
    exact out (List.mem_singleton.1 hr ▸ hq)
  · show base q = {}
    obtain old | new := List.mem_append.1 hq
    · have ne : q ≠ p := by
        rintro rfl
        exact out old
      rw [← off q ne]
      exact h.held_base q old
    · rw [List.mem_singleton.1 new]
      exact free

theorem At.lockRootPageId_rule (h : At tree v s) {ex : Bool} (hex : v.exclusive = ex)
    (free : v.rootHeld = false) :
    Spec (lockRootPageId ex) s (fun _ => At tree { v with rootHeld := true }) E := by
  have mutex : s.mMutex = {} := by simp [h.mutex, free]
  have taken : Latch.lock ex {} = .ok (.taken ex) := by
    cases ex <;> simp [Latch.lock, Latch.taken]
  refine Spec.bind_eq (a := s) rfl ?_
  rw [mutex]
  refine Spec.bind_eq (a := .taken ex) (t := s) (by rw [taken]; rfl) (spec_modify ?_)
  exact { h with mutex := by simp [hex], lockedCnt := by simp [h.lockedCnt, free] }

theorem At.tryUnlockRootPageId_rule (h : At tree v s) {ex : Bool} (hex : v.exclusive = ex) :
    Spec (tryUnlockRootPageId ex) s (fun _ => At tree { v with rootHeld := false }) E := by
  refine Spec.bind_eq (a := s) rfl ?_
  cases hr : v.rootHeld with
  | false =>
    have cnt : s.mRootLockedCnt = 0 := by simp [h.lockedCnt, hr]
    rw [if_neg (by omega)]
    exact spec_pure { h with mutex := by simp [h.mutex, hr], lockedCnt := cnt }
  | true =>
    have cnt : s.mRootLockedCnt = 1 := by simp [h.lockedCnt, hr]
    have mutex : s.mMutex = .taken ex := by simp [h.mutex, hr, hex]
    have free : Latch.unlock ex (.taken ex) = .ok {} := by
      cases ex <;> simp [Latch.unlock, Latch.taken]
    rw [if_pos (by omega), mutex]
    refine Spec.bind_eq (a := {}) (t := s) (by rw [free]; rfl) (spec_modify ?_)
    exact { h with mutex := rfl, lockedCnt := by simp [cnt] }

theorem At.setRootPageId_rule (h : At tree v s) (ex : v.exclusive = true)
    (held : v.rootHeld = true) (root : PageId) :
    Spec (setRootPageId root) s (fun _ => At tree { v with root := root }) E := by
  refine spec_modify { h with root := rfl, guarded := ⟨h.guarded.writes, fun c hc => ?_⟩ }
  obtain rfl | old := List.mem_cons.1 hc
  · simp [RootChange.Guarded, h.mutex, h.lockedCnt, held, ex, Latch.taken]
  · exact h.guarded.rootChanges c old

theorem At.addIntoDeletedPageSet_rule (h : At tree v s) (p : PageId) :
    Spec (addIntoDeletedPageSet true p) s
      (fun _ => At tree { v with deleted := Insert.insert p v.deleted }) E :=
  spec_modify { h with deleted := by simp [h.deleted] }

/-! ## The end of an operation -/

/-- What `DeletePage` returns for pages that are to be deleted: whether nobody else has the page
pinned. -/
def View.Deletes (v : View K V) (results : List Bool) : Prop :=
  ∀ r ∈ results, ∃ q ∈ v.deleted, r = decide (q ∉ v.pins)

/-- The view when the pages of `rest` are the ones left to release. -/
def View.releasing (v : View K V) (results : List Bool) (rest : List PageId) : View K V :=
  { v with
    content := fun p => if p ∈ v.deleted ∧ p ∉ rest ∧ p ∉ v.pins then default else v.content p
    held := rest
    deleted := v.deleted.filter (· ∈ rest)
    deletions := results ++ v.deletions }

/-- A round of the loop of `FreePagesInTransaction`; the page set itself is cleared at the end. -/
theorem freePage_rule {results : List Bool} {rest : List PageId} (opened : v.opened = [])
    (deletes : v.Deletes results) (hd : headerPageId ∉ v.deleted)
    (h : At tree (v.releasing results (p :: rest)) { s with pageSet := p :: rest }) :
    Spec (freePage v.exclusive p) s (fun _ t => ∃ results, v.Deletes results ∧
      At tree (v.releasing results rest) { t with pageSet := rest }) E := by
  have out : p ∉ rest := (List.nodup_cons.1 h.held_nodup).1
  have free : v.base p = {} := h.held_base p List.mem_cons_self
  have latch : s.pool.latch p = .taken v.exclusive := by
    rw [h.latch p]
    exact if_pos List.mem_cons_self
  -- the latch
  have hunlock : (if v.exclusive then PagePool.wUnlatch p else PagePool.rUnlatch p) s.pool =
      .ok ((), { s.pool with latch := Function.update s.pool.latch p {} }) := by
    cases hex : v.exclusive
    · simp [PagePool.rUnlatch, latch, Latch.taken, hex]
    · simp [PagePool.wUnlatch, latch, Latch.taken, hex]
  refine Spec.bind_eq (onPool_ok hunlock) ?_
  -- the pin
  have pinned : s.pool.pinned = p ::ₘ (v.pins + rest) := by
    rw [h.pinned, ← Multiset.add_cons, Multiset.cons_coe]
    rfl
  obtain ⟨changed, hunpin, hchanged⟩ : ∃ changed, PagePool.unpinPage p v.exclusive
      { s.pool with latch := Function.update s.pool.latch p {} } = .ok ((), { s.pool with
        latch := Function.update s.pool.latch p {}
        pinned := v.pins + rest
        changed := changed }) ∧ ∀ q, changed q = true → v.exclusive = true ∧ q ∈ rest := by
    have clean : ∀ q, s.pool.changed q = true → v.exclusive = true ∧ q ∈ p :: rest := fun q hq =>
      (h.changed q hq).resolve_right (by simp [View.releasing, opened])
    unfold PagePool.unpinPage
    rw [if_neg (by simp [pinned]), if_neg]
    · refine ⟨_, by rw [pinned, Multiset.erase_cons_head], fun q hq => ?_⟩
      split_ifs at hq with hex
      · by_cases e : q = p
        · rw [e, Function.update_self] at hq
          cases hq
        · rw [Function.update_of_ne e] at hq
          exact ⟨hex, (List.mem_cons.1 (clean q hq).2).resolve_left e⟩
      · exact (hex (clean q hq).1).elim
    · rintro ⟨hp, hex, -⟩
      exact hex (clean p hp).1
  refine Spec.bind_eq (onPool_ok hunpin) ?_
  refine Spec.bind_eq (a := { s with pool := { s.pool with
    latch := Function.update s.pool.latch p {}, pinned := v.pins + rest, changed := changed } }) rfl ?_
  have hlatch : ∀ q, Function.update s.pool.latch p {} q =
      if q ∈ rest then .taken v.exclusive else v.base q := by
    intro q
    by_cases e : q = p
    · rw [e, Function.update_self, if_neg out, free]
    · rw [Function.update_of_ne e, h.latch q]
      simp [View.releasing, e]
  have hdel : s.deletedPageSet = v.deleted.filter (· ∈ p :: rest) := h.deleted
  by_cases del : p ∈ v.deleted
  · -- the page is deleted as well
    have hdelete : PagePool.deletePage p { s.pool with
        latch := Function.update s.pool.latch p {}, pinned := v.pins + rest, changed := changed } =
        .ok (decide (p ∉ v.pins), { s.pool with
          latch := Function.update s.pool.latch p {}
          pinned := v.pins + rest
          changed := changed
          content := if p ∈ v.pins then s.pool.content
            else Function.update s.pool.content p default }) := by
      unfold PagePool.deletePage
      by_cases pin : p ∈ v.pins
      · simp [pin]
      · simp [pin, out]
    rw [if_pos (by simp [hdel, del])]
    refine Spec.bind (Spec.bind_eq (onPool_ok hdelete) (spec_modify (Q := fun _ t => t = { s with
      pool := { s.pool with
        latch := Function.update s.pool.latch p {}
        pinned := v.pins + rest
        changed := changed
        content := if p ∈ v.pins then s.pool.content else Function.update s.pool.content p default }
      history := { s.history with
        deletions := decide (p ∉ v.pins) :: s.history.deletions } }) rfl)) ?_
    rintro _ _ rfl
    obtain ⟨data, hdata, valid⟩ := h.header
    have header : headerPageId ≠ p := by
      rintro rfl
      exact hd del
    have off {q : PageId} (ne : q ≠ p) : (if p ∈ v.pins then s.pool.content
        else Function.update s.pool.content p default) q = s.pool.content q := by
      split_ifs
      · rfl
      · exact Function.update_of_ne ne _ _
    refine spec_modify ⟨decide (p ∉ v.pins) :: results, List.forall_mem_cons.2 ⟨⟨p, del, rfl⟩, deletes⟩,
      { h with
        content := fun q hq => ?_, header := ⟨data, (off header).trans hdata, valid⟩,
        pinned := rfl, latch := hlatch, changed := fun q hq => .inl (hchanged q hq), pageSet := rfl,
        held_nodup := (List.nodup_cons.1 h.held_nodup).2,
        held_base := fun q hq => h.held_base q (List.mem_cons_of_mem _ hq),
        deleted := ?_, guarded := ⟨h.guarded.writes, h.guarded.rootChanges⟩, deletions := ?_ }⟩
    · dsimp only
      by_cases e : q = p
      · rw [e]
        by_cases pin : p ∈ v.pins
        · have content := h.content p (e ▸ hq)
          simp only [View.releasing, List.mem_cons, true_or, not_true, false_and, and_false,
            if_false] at content
          simp [View.releasing, pin, content]
        · simp [View.releasing, del, out, pin]
      · rw [off e, h.content q hq]
        simp [View.releasing, e]
    · dsimp only
      rw [hdel]
      ext q
      simp only [View.releasing, Finset.mem_erase, Finset.mem_filter, List.mem_cons]
      constructor
      · rintro ⟨ne, hq, rfl | hr⟩
        · exact absurd rfl ne
        · exact ⟨hq, hr⟩
      · rintro ⟨hq, hr⟩
        exact ⟨by rintro rfl; exact out hr, hq, .inr hr⟩
    · exact congrArg (decide (p ∉ v.pins) :: ·) h.deletions
  · rw [if_neg (by simp [hdel, del])]
    refine spec_pure ⟨results, deletes, { h with
      content := fun q hq => ?_, pinned := rfl, latch := hlatch,
      changed := fun q hq => .inl (hchanged q hq), pageSet := rfl,
      held_nodup := (List.nodup_cons.1 h.held_nodup).2,
      held_base := fun q hq => h.held_base q (List.mem_cons_of_mem _ hq), deleted := ?_ }⟩
    · rw [h.content q hq]
      simp only [View.releasing, List.mem_cons, not_or]
      by_cases e : q = p
      · simp [e, del]
      · simp [e]
    · dsimp only
      rw [hdel]
      refine Finset.filter_congr fun q hq => ?_
      have : q ≠ p := by
        rintro rfl
        exact del hq
      simp [this]

/-- `FreePagesInTransaction` releases the page set and the root latch, and deletes the pages that
nobody else has pinned. -/
theorem At.freePages_rule (h : At tree v s) {ex : Bool} (hex : v.exclusive = ex)
    (opened : v.opened = []) (hsub : ∀ q ∈ v.deleted, q ∈ v.held) (hd : headerPageId ∉ v.deleted)
    (cur : PageId) :
    Spec (freePagesInTransaction ex true cur) s (fun _ s' => ∃ results, v.Deletes results ∧
      At tree { v with
        content := fun p => if p ∈ v.deleted ∧ p ∉ v.pins then default else v.content p
        held := [], rootHeld := false, deleted := ∅, deletions := results ++ v.deletions } s') E := by
  subst hex
  refine Spec.bind (h.tryUnlockRootPageId_rule rfl) fun _ s₁ h₁ => ?_
  refine Spec.bind_eq (a := s₁) rfl ?_
  rw [h₁.pageSet]
  set w : View K V := { v with rootHeld := false } with hw
  have start : At tree (w.releasing [] v.held) { s₁ with pageSet := v.held } := by
    refine { h₁ with content := fun q hq => ?_, pageSet := rfl, deleted := ?_ }
    · rw [h₁.content q hq]
      simp only [View.releasing, hw]
      rw [if_neg]
      rintro ⟨hq, no, -⟩
      exact no (hsub q hq)
    · dsimp only
      rw [h₁.deleted]
      exact (Finset.filter_true_of_mem hsub).symm
  refine Spec.bind (spec_forM (P := fun rest t => ∃ results, w.Deletes results ∧
    At tree (w.releasing results rest) { t with pageSet := rest }) ?_ v.held ⟨[], nofun, start⟩) ?_
  · rintro p rest t ⟨results, deletes, ht⟩
    exact freePage_rule (v := w) opened deletes hd ht
  · rintro _ s₂ ⟨results, deletes, h₂⟩
    have none : s₂.deletedPageSet = ∅ := by
      rw [h₂.deleted]
      simp [View.releasing]
    refine Spec.bind_eq (a := s₂) rfl ?_
    refine Spec.bind_eq (a := ()) (t := s₂) (by rw [assert_pos none]; rfl) (spec_modify ?_)
    exact ⟨results, deletes, { h₂ with
      content := fun q hq => (h₂.content q hq).trans (by simp [View.releasing, hw])
      deleted := none }⟩

/-- `FreePagesInTransaction` when no page is to be deleted. -/
theorem At.freeHeld_rule (h : At tree v s) {ex : Bool} (hex : v.exclusive = ex)
    (opened : v.opened = []) (deleted : v.deleted = ∅) (cur : PageId) :
    Spec (freePagesInTransaction ex true cur) s
      (fun _ => At tree { v with held := [], rootHeld := false }) E := by
  refine (h.freePages_rule hex opened (by simp [deleted]) (by simp [deleted]) cur).post ?_
  rintro _ s₁ ⟨results, deletes, h₁⟩
  obtain rfl : results = [] := by
    refine List.eq_nil_iff_forall_not_mem.2 fun r hr => ?_
    obtain ⟨q, hq, -⟩ := deletes r hr
    simp [deleted] at hq
  simpa [deleted] using h₁

/-! ## The crabbing protocol -/

/-- Fetching and latching a page nobody holds. -/
theorem At.fetchLock_rule (h : At tree v s) (ex : Bool) (hex : v.exclusive = ex) (out : p ∉ v.held)
    (free : v.base p = {}) {α : Type} {f : TreeM K V α} {R : α → TreeState K V → Prop}
    (rest : ∀ s', At tree { v with
      pins := p ::ₘ v.pins, base := Function.update v.base p (.taken ex) } s' → Spec f s' R E) :
    Spec (do fetchPage p; lock ex p; f) s R E := by
  refine Spec.bind (h.fetchPage_rule p .nullDeref) fun _ s₁ h₁ => ?_
  exact Spec.bind (h₁.lock_rule hex out free) fun _ s₂ h₂ => rest s₂ h₂

section Writers

/-- A writer fetches and latches a page, and goes on if nobody else holds it. -/
theorem At.fetchLockOrWait_rule (h : At tree v s) {ex : Bool} (hex : v.exclusive = ex)
    (writer : ex = true) (out : p ∉ v.held) (waits : v.Waits E p) {α : Type} {f : TreeM K V α}
    {R : α → TreeState K V → Prop} (rest : v.base p = {} → ∀ s', At tree { v with
      pins := p ::ₘ v.pins, base := Function.update v.base p (.taken ex) } s' → Spec f s' R E) :
    Spec (do fetchPage p; lock ex p; f) s R E := by
  by_cases free : v.base p = {}
  · exact h.fetchLock_rule ex hex out free (rest free)
  · refine Spec.bind (h.fetchPage_rule p .nullDeref) fun _ s₁ h₁ => ?_
    subst writer
    exact Spec.bind (h₁.lockTaken_rule (Q := fun _ _ => False) out free waits) fun _ _ => False.elim

variable {op : OperationType} {header : BPlusTreePage} {safe : Bool} {previous : PageId}

/-- A writer keeps the pages above a page that is not safe. -/
theorem At.crabKeep_rule (h : At tree v s) (ex : v.exclusive = true) (hop : op ≠ .read)
    (out : p ∉ v.held) (waits : v.Waits E p) (hp : p ≠ headerPageId)
    (hc : (v.content p).asTreePage = .ok header)
    (keep : previous ≤ 0 ∨ header.isSafe (v.content p).isLeafPage op = .ok false) :
    Spec (crabingProtocalFetchPage p op previous true) s
      (fun _ => At tree { v with held := v.held ++ [p] }) E := by
  have hex : v.exclusive = decide (op ≠ .read) := by simp [ex, hop]
  refine h.fetchLockOrWait_rule hex (by simpa using hop) out waits fun free s₁ h₁ => ?_
  refine Spec.bind_eq (h₁.getPage_eq hp) ?_
  have add : Spec (addIntoPageSet true p) s₁ (fun _ => At tree { v with held := v.held ++ [p] }) E :=
    h₁.addIntoPageSet_rule rfl out free (by rw [hex])
  by_cases pos : previous > 0
  · have unsafe' := keep.resolve_left (not_le.2 pos)
    rw [if_pos pos, if_pos (by simpa using hop)]
    refine Spec.bind_eq (a := header) (t := s₁) (by rw [← hc]; rfl) ?_
    exact Spec.bind_eq (a := false) (t := s₁) (by rw [← unsafe']; rfl) add
  · rw [if_neg pos]
    exact add

/-- A writer releases everything above a safe page. -/
theorem At.crabRelease_rule (h : At tree v s) (ex : v.exclusive = true) (hop : op ≠ .read)
    (out : p ∉ v.held) (waits : v.Waits E p) (hp : p ≠ headerPageId) (opened : v.opened = [])
    (deleted : v.deleted = ∅) (hc : (v.content p).asTreePage = .ok header) (pos : previous > 0)
    (safe : header.isSafe (v.content p).isLeafPage op = .ok true) :
    Spec (crabingProtocalFetchPage p op previous true) s
      (fun _ => At tree { v with held := [p], rootHeld := false }) E := by
  have hex : v.exclusive = decide (op ≠ .read) := by simp [ex, hop]
  refine h.fetchLockOrWait_rule hex (by simpa using hop) out waits fun free s₁ h₁ => ?_
  refine Spec.bind_eq (h₁.getPage_eq hp) ?_
  rw [if_pos pos, if_pos (by simpa using hop)]
  refine Spec.bind_eq (a := header) (t := s₁) (by rw [← hc]; rfl) ?_
  refine Spec.bind_eq (a := true) (t := s₁) (by rw [← safe]; rfl) ?_
  refine Spec.bind (h₁.freeHeld_rule hex opened deleted previous) fun _ s₂ h₂ => ?_
  exact h₂.addIntoPageSet_rule rfl List.not_mem_nil free (by rw [hex])

end Writers

/-! ## Readers -/

/-- A latched page that is in no page set. -/
theorem At.unlock_rule (h : At tree v s) {base : PageId → Latch} {ex : Bool} (out : p ∉ v.held)
    (free : base p = {}) (hbase : v.base = Function.update base p (.taken ex)) :
    Spec (unlock ex p) s (fun _ => At tree { v with base := base }) E := by
  have latch : s.pool.latch p = .taken ex := by
    rw [h.latch, if_neg out, hbase, Function.update_self]
  have run : (if ex then PagePool.wUnlatch p else PagePool.rUnlatch p) s.pool =
      .ok ((), { s.pool with latch := Function.update s.pool.latch p {} }) := by
    cases ex
    · simp [PagePool.rUnlatch, latch, Latch.taken]
    · simp [PagePool.wUnlatch, latch, Latch.taken]
  have off : ∀ q, q ≠ p → v.base q = base q := fun q ne => by rw [hbase, Function.update_of_ne ne]
  refine spec_onPool run { h with latch := fun q => ?_, held_base := fun q hq => ?_ }
  · dsimp only
    by_cases e : q = p
    · rw [e, Function.update_self, if_neg out, free]
    · rw [Function.update_of_ne e, h.latch, off q e]
  · have ne : q ≠ p := by
      rintro rfl
      exact out hq
    exact (off q ne).symm.trans (h.held_base q hq)

/-- `FreePagesInTransaction` of a reader without a transaction. -/
theorem At.freeNull_rule (h : At tree v s) (hex : v.exclusive = false) (out : p ∉ v.held)
    (opened : v.opened = []) (hp : 0 ≤ p) (pins : Multiset PageId) (base : PageId → Latch)
    (hpins : v.pins = p ::ₘ pins) (free : base p = {})
    (hbase : v.base = Function.update base p (.taken false)) :
    Spec (freePagesInTransaction false false p) s
      (fun _ => At tree { v with rootHeld := false, pins := pins, base := base }) E := by
  have clean : p ∉ v.opened := by simp [opened]
  refine Spec.bind (h.tryUnlockRootPageId_rule hex) fun _ s₁ h₁ => ?_
  refine Spec.bind_eq (a := ()) (t := s₁) (by rw [assert_pos ⟨rfl, hp⟩]; rfl) ?_
  refine Spec.bind (P := fun _ => At tree { v with rootHeld := false, base := base }) ?_
    fun _ s₂ h₂ => h₂.unpinClean_rule hpins (.inr clean)
  refine Spec.bind (h₁.fetchPage_rule p .nullDeref) fun _ s₂ h₂ => ?_
  refine Spec.bind (h₂.unlock_rule out free hbase) fun _ s₃ h₃ => ?_
  exact h₃.unpinClean_rule rfl (.inr clean)

/-- A reader at the latched page `cur`, with or without a transaction. -/
def ReadAt (tree : BPlusTree K) (transaction : Bool) (v : View K V) (cur : PageId)
    (s : TreeState K V) : Prop :=
  if transaction then At tree { v with held := [cur] } s
  else At tree { v with
    pins := cur ::ₘ v.pins, base := Function.update v.base cur (.taken false) } s

section Readers

variable {transaction : Bool} {cur : PageId}

/-- The first page of a reader. -/
theorem At.readFirst_rule (h : At tree v s) (hex : v.exclusive = false) (held : v.held = [])
    (free : v.base p = {}) (previous : PageId) (hprev : previous ≤ 0) :
    Spec (crabingProtocalFetchPage p .read previous transaction) s
      (fun _ => ReadAt tree transaction v p) E := by
  have out : p ∉ v.held := by simp [held]
  refine h.fetchLock_rule false hex out free fun s₁ h₁ => ?_
  refine Spec.bind_eq (a := s₁.pool.content p) (t := s₁) rfl ?_
  rw [if_neg (not_lt.2 hprev)]
  cases transaction with
  | false => exact spec_pure h₁
  | true =>
    refine (h₁.addIntoPageSet_rule rfl out free (by rw [hex])).post fun _ s₂ h₂ => ?_
    simpa [ReadAt, held] using h₂

theorem ReadAt.free_rule (h : ReadAt tree transaction v cur s) (hex : v.exclusive = false)
    (held : v.held = []) (opened : v.opened = []) (deleted : v.deleted = ∅) (hp : 0 ≤ cur)
    (free : v.base cur = {}) : Spec (freePagesInTransaction false transaction cur) s
      (fun _ => At tree { v with rootHeld := false }) E := by
  cases transaction with
  | false => exact At.freeNull_rule h hex (by simp [held]) opened hp _ _ rfl free rfl
  | true =>
    refine (At.freeHeld_rule h hex opened deleted cur).post fun _ s₁ h₁ => ?_
    simpa [held] using h₁

/-- A reader latches the next page before it releases the current one. -/
theorem ReadAt.step_rule (h : ReadAt tree transaction v cur s) (hex : v.exclusive = false)
    (held : v.held = []) (opened : v.opened = []) (deleted : v.deleted = ∅) (hpos : 0 < cur)
    (ne : p ≠ cur) (free : v.base cur = {}) (free' : v.base p = {}) :
    Spec (crabingProtocalFetchPage p .read cur transaction) s
      (fun _ => ReadAt tree transaction { v with rootHeld := false } p) E := by
  cases transaction with
  | false =>
    have free'' : Function.update v.base cur (.taken false) p = {} := by
      rw [Function.update_of_ne ne, free']
    refine At.fetchLock_rule h false hex (by simp [held]) free'' fun s₁ h₁ => ?_
    refine Spec.bind_eq (a := s₁.pool.content p) (t := s₁) rfl ?_
    rw [if_pos hpos]
    refine Spec.bind_eq (a := true) (t := s₁) rfl ?_
    refine Spec.bind (At.freeNull_rule h₁ hex (by simp [held]) opened hpos.le
      (p ::ₘ v.pins) (Function.update v.base p (.taken false))
      (Multiset.cons_swap _ _ _) ?_ ?_) fun _ s₂ h₂ => spec_pure h₂
    · rw [Function.update_of_ne ne.symm, free]
    · exact Function.update_comm ne.symm _ _ _
  | true =>
    have out : p ∉ [cur] := by simpa using ne
    refine At.fetchLock_rule h false hex out free' fun s₁ h₁ => ?_
    refine Spec.bind_eq (a := s₁.pool.content p) (t := s₁) rfl ?_
    rw [if_pos hpos]
    refine Spec.bind_eq (a := true) (t := s₁) rfl ?_
    refine Spec.bind (h₁.freeHeld_rule hex opened deleted cur) fun _ s₂ h₂ => ?_
    exact h₂.addIntoPageSet_rule rfl List.not_mem_nil free' (by rw [hex])

end Readers

/-! ## The header page -/

theorem At.setHeader_rule (h : At tree v s) {data : PageData} {recorded : Option PageId}
    (valid : HeaderPage.Valid data tree.indexName)
    (root : HeaderPage.getRootId data tree.indexName = .ok recorded) :
    Spec (BPlusTree.setPage headerPageId (.raw data)) s (fun _ => At tree { v with
      recorded := recorded, opened := headerPageId :: v.opened }) E := by
  refine (show At tree _ _ from { h with
    content := fun q hq => ?_
    header := ⟨data, Function.update_self headerPageId _ s.pool.content, valid, root⟩
    changed := fun q hq => ?_
    guarded := ⟨fun w hw => ?_, h.guarded.rootChanges⟩ })
  · exact (Function.update_of_ne hq _ _).trans (h.content q hq)
  · dsimp only at hq ⊢
    by_cases e : q = headerPageId
    · exact .inr (e ▸ List.mem_cons_self)
    · rw [Function.update_of_ne e] at hq
      exact (h.changed q hq).imp_right (List.mem_cons_of_mem _)
  · obtain rfl | old := List.mem_cons.1 hw
    · exact .inl rfl
    · exact h.guarded.writes w old

/-- The root id as the header page records it after `UpdateRootPageId`. -/
def View.recordRoot (v : View K V) (insertRecord : Bool) : Option PageId :=
  if insertRecord then v.recorded.or (some v.root) else v.recorded.map fun _ => v.root

theorem At.updateRootPageId_rule (h : At tree v s) (insertRecord : Bool)
    (range : ByteMem.Mem.IsInt32 v.root) (valid : insertRecord = true → v.root > invalidPageId) :
    Spec (tree.updateRootPageId insertRecord) s
      (fun _ => At tree { v with recorded := v.recordRoot insertRecord }) E := by
  refine Spec.bind (h.fetchPage_rule headerPageId .nullDeref) fun _ s₁ h₁ => ?_
  obtain ⟨data, hd, hvalid, hroot⟩ := h₁.header
  refine Spec.bind_eq (a := s₁.pool.content headerPageId) (t := s₁) rfl ?_
  refine Spec.bind_eq (a := data) (t := s₁) (by rw [hd]; rfl) ?_
  refine Spec.bind_eq (a := s₁) (t := s₁) rfl ?_
  obtain ⟨b, data', run, valid', root'⟩ : ∃ b data',
      (if insertRecord then HeaderPage.insertRecord data tree.indexName v.root
        else HeaderPage.updateRecord data tree.indexName v.root) = .ok (b, data') ∧
      HeaderPage.Valid data' tree.indexName ∧
      HeaderPage.getRootId data' tree.indexName = .ok (v.recordRoot insertRecord) := by
    cases insertRecord with
    | true => exact hvalid.insertRecord_rule hroot (valid rfl) range
    | false => exact hvalid.updateRecord_rule hroot range
  have rest : Spec (do
      BPlusTree.setPage headerPageId (.raw data')
      unpinPage headerPageId true) s₁
      (fun _ => At tree { v with recorded := v.recordRoot insertRecord }) E := by
    refine Spec.bind (h₁.setHeader_rule valid' root') fun _ s₂ h₂ => ?_
    exact h₂.unpinDirty_rule _ rfl fun q hq ne => (List.mem_cons.1 hq).resolve_left ne
  have same : s₁.rootPageId = v.root := h₁.root
  rw [same]
  cases insertRecord with
  | true => exact Spec.bind_eq (a := (b, data')) (t := s₁) (by rw [← run]; rfl) rest
  | false => exact Spec.bind_eq (a := (b, data')) (t := s₁) (by rw [← run]; rfl) rest

end BPlusTree

end ScuDb
