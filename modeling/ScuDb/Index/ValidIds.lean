import ScuDb.Index.PageWrites

/-!
# Ids in the pages of an index

Every tree page keeps its own id, and no entry of an internal page is the invalid id.  Whatever other
threads do between two steps, an operation therefore empties the tree only where `AdjustRoot` finds a
root leaf without entries.
-/

namespace ScuDb

open Program SlotArray

variable {K V : Type} {n : KeySize}

/-! ## Pages -/

namespace InternalPage

variable {p r p' r' : InternalPage K} {key : K} {child q : PageId} {pair : K × PageId} {index : ℤ}

/-- No entry is the invalid id. -/
def Linked (p : InternalPage K) : Prop := ∀ i < p.size, (p.array i).2 ≠ invalidPageId

theorem Linked.empty (h : p.size = 0) : p.Linked := fun i hi => by omega

/-- A part of a page with the same entries. -/
theorem Linked.part (h : p.Linked) (same : p'.array = p.array) (le : p'.size ≤ p.size) :
    p'.Linked := by
  intro i hi
  rw [same]
  exact h i (by omega)

theorem Linked.insertAt {a : ℕ → K × PageId} {size i : ℕ}
    (h : ∀ j < size, (a j).2 ≠ invalidPageId) (le : i ≤ size) (valid : pair.2 ≠ invalidPageId) :
    ∀ j < size + 1, (SlotArray.insertAt a size i pair j).2 ≠ invalidPageId := by
  intro j hj
  unfold SlotArray.insertAt
  split_ifs
  · exact valid
  · exact h _ (by omega)
  · exact h _ (by omega)

theorem Linked.removeAt (h : p.Linked) (i : ℕ) :
    ∀ j < p.size - 1, (SlotArray.removeAt p.array p.size i j).2 ≠ invalidPageId := by
  intro j hj
  unfold SlotArray.removeAt
  split_ifs
  · exact h _ (by omega)
  · exact h _ (by omega)

theorem Linked.copyTo (h : p.Linked) (h' : r.Linked) {i k : ℕ} (le : i + k ≤ p.size) :
    ∀ j < r.size + k, (SlotArray.copyTo r.array r.size p.array i k j).2 ≠ invalidPageId := by
  intro j hj
  unfold SlotArray.copyTo
  split_ifs
  · exact h _ (by omega)
  · exact h' _ (by omega)

theorem setKeyAt_linked (h : p.Linked) (set : p.setKeyAt n index key = .ok p') :
    p'.pageId = p.pageId ∧ p'.Linked := by
  obtain ⟨i, -, set⟩ := of_except_bind set
  cases set
  refine ⟨rfl, fun j hj => ?_⟩
  change (Function.update p.array i (key, (p.array i).2) j).2 ≠ _
  rw [Function.update_apply]
  split_ifs with e
  · exact e ▸ h j hj
  · exact h j hj

theorem insertNodeAfter_linked (h : p.Linked) (valid : q ≠ invalidPageId)
    (inserted : p.insertNodeAfter n child key q = .ok p') :
    p'.pageId = p.pageId ∧ p'.Linked := by
  obtain ⟨-, inserted⟩ := of_assert_bind inserted
  split_ifs at inserted with room
  cases inserted
  refine ⟨rfl, Linked.insertAt h ?_ valid⟩
  have := p.valueIndex_lt child
  omega

theorem populateNewRoot_linked (empty : p.size = 0) (valid : child ≠ invalidPageId) (key : K)
    (q : PageId) : (p.populateNewRoot child key q).Linked := by
  intro i hi
  change i < p.size + 1 at hi
  obtain rfl : i = 0 := by omega
  change (Function.update (Function.update p.array 0 ((p.array 0).1, child)) 1 (key, q) 0).2 ≠ _
  rw [Function.update_of_ne (by omega), Function.update_self]
  exact valid

theorem moveHalfTo_linked {children : List PageId} (h : p.Linked) (h' : r.size = 0)
    (moved : p.movedHalf n = .ok children) :
    (p.moveHalfTo r).1.Linked ∧ (p.moveHalfTo r).2.Linked := by
  obtain ⟨total, -⟩ := of_assert_bind moved
  constructor
  · exact h.part rfl (show (p.maxSize + 1) / 2 ≤ p.size by omega)
  · have copied := h.copyTo (Linked.empty h') (i := (p.maxSize + 1) / 2)
      (k := p.maxSize + 1 - (p.maxSize + 1) / 2) (by omega)
    rw [h', Nat.zero_add] at copied
    exact copied

theorem remove_linked (h : p.Linked) (removed : p.remove index = .ok p') :
    p'.pageId = p.pageId ∧ p'.Linked := by
  obtain ⟨-, removed⟩ := of_assert_bind removed
  cases removed
  exact ⟨rfl, h.removeAt _⟩

theorem removeAndReturnOnlyChild_linked (h : p.Linked)
    (only : p.removeAndReturnOnlyChild = .ok (q, p')) :
    q ≠ invalidPageId ∧ p'.pageId = p.pageId ∧ p'.Linked := by
  obtain ⟨size, only⟩ := of_assert_bind only
  cases only
  exact ⟨h 0 (by omega), rfl, Linked.empty rfl⟩

theorem moveAllTo_linked (h : p.Linked) (h' : r.Linked) (moved : p.moveAllTo n r = .ok (p', r')) :
    (p'.pageId = p.pageId ∧ p'.Linked) ∧ r'.pageId = r.pageId ∧ r'.Linked := by
  unfold InternalPage.moveAllTo at moved
  dsimp only at moved
  split_ifs at moved with room
  obtain ⟨-, moved⟩ := of_assert_bind moved
  cases moved
  exact ⟨⟨rfl, Linked.empty rfl⟩, rfl, h.copyTo h' (by omega)⟩

theorem copyLastFrom_linked (h : p.Linked) (valid : pair.2 ≠ invalidPageId)
    (copied : p.copyLastFrom n pair = .ok p') : p'.pageId = p.pageId ∧ p'.Linked := by
  obtain ⟨-, copied⟩ := of_assert_bind copied
  split_ifs at copied with room
  cases copied
  refine ⟨rfl, fun j hj => ?_⟩
  change j < p.size + 1 at hj
  change (Function.update p.array p.size pair j).2 ≠ _
  rw [Function.update_apply]
  split_ifs
  · exact valid
  · exact h j (by omega)

theorem copyFirstFrom_linked (h : p.Linked) (valid : pair.2 ≠ invalidPageId)
    (copied : p.copyFirstFrom n pair = .ok p') : p'.pageId = p.pageId ∧ p'.Linked := by
  obtain ⟨-, copied⟩ := of_assert_bind copied
  split_ifs at copied with room
  cases copied
  exact ⟨rfl, Linked.insertAt h (Nat.zero_le _) valid⟩

theorem moveFirstToEndOf_linked (h : p.Linked) (h' : r.Linked)
    (moved : p.moveFirstToEndOf n r = .ok (p', r')) :
    (p'.pageId = p.pageId ∧ p'.Linked) ∧ r'.pageId = r.pageId ∧ r'.Linked := by
  unfold InternalPage.moveFirstToEndOf at moved
  split_ifs at moved with none
  · cases moved
  · obtain ⟨q, copied, moved⟩ := of_except_bind moved
    cases moved
    exact ⟨⟨rfl, h.removeAt 0⟩, copyLastFrom_linked h' (h 0 (by omega)) copied⟩

theorem moveLastToFrontOf_linked (h : p.Linked) (h' : r.Linked)
    (moved : p.moveLastToFrontOf n r = .ok (p', r')) :
    (p'.pageId = p.pageId ∧ p'.Linked) ∧ r'.pageId = r.pageId ∧ r'.Linked := by
  unfold InternalPage.moveLastToFrontOf at moved
  split_ifs at moved with none
  · cases moved
  · obtain ⟨q, copied, moved⟩ := of_except_bind moved
    cases moved
    refine ⟨⟨rfl, h.part rfl (Nat.sub_le _ _)⟩, ?_⟩
    exact copyFirstFrom_linked h' (h _ (by omega)) copied

end InternalPage

namespace LeafPage

variable {p r p' r' : LeafPage K V} {comparator : K → K → ℤ} {key : K} {value : V}

theorem insert_pageId (h : p.insert n comparator key value = .ok p') : p'.pageId = p.pageId := by
  unfold LeafPage.insert at h
  split_ifs at h
  cases h
  rfl

theorem moveHalfTo_pageId (h : p.moveHalfTo n r = .ok (p', r')) :
    p'.pageId = p.pageId ∧ r'.pageId = r.pageId := by
  unfold LeafPage.moveHalfTo at h
  dsimp only at h
  split_ifs at h
  cases h
  exact ⟨rfl, rfl⟩

theorem removeAndDeleteRecord_header (p : LeafPage K V) (comparator : K → K → ℤ) (key : K) :
    (p.removeAndDeleteRecord comparator key).pageId = p.pageId ∧
      (p.removeAndDeleteRecord comparator key).parentPageId = p.parentPageId := by
  unfold removeAndDeleteRecord
  dsimp only
  split_ifs <;> exact ⟨rfl, rfl⟩

theorem moveAllTo_pageId (h : p.moveAllTo n r = .ok (p', r')) :
    p'.pageId = p.pageId ∧ r'.pageId = r.pageId := by
  unfold LeafPage.moveAllTo at h
  dsimp only at h
  split_ifs at h
  cases h
  exact ⟨rfl, rfl⟩

theorem moveFirstToEndOf_pageId (h : p.moveFirstToEndOf n r = .ok (p', r')) :
    p'.pageId = p.pageId ∧ r'.pageId = r.pageId := by
  unfold LeafPage.moveFirstToEndOf at h
  split_ifs at h
  · cases h
  · obtain ⟨q, copied, h⟩ := of_except_bind h
    cases h
    obtain ⟨-, copied⟩ := of_assert_bind copied
    split_ifs at copied
    cases copied
    exact ⟨rfl, rfl⟩

theorem moveLastToFrontOf_pageId (h : p.moveLastToFrontOf n r = .ok (p', r')) :
    p'.pageId = p.pageId ∧ r'.pageId = r.pageId := by
  unfold LeafPage.moveLastToFrontOf at h
  split_ifs at h
  · cases h
  · obtain ⟨q, copied, h⟩ := of_except_bind h
    cases h
    unfold LeafPage.copyFirstFrom at copied
    split_ifs at copied
    cases copied
    exact ⟨rfl, rfl⟩

end LeafPage

/-- A tree page has a valid id, and so have its children. -/
def IndexPage.Valid : IndexPage K V → Prop
  | .raw _ => True
  | .leaf p => p.pageId ≠ invalidPageId
  | .internal p => p.pageId ≠ invalidPageId ∧ p.Linked

namespace BPlusTree

variable {tree : BPlusTree K} {nonempty : Prop} {α : Type} {p : PageId} {page : IndexPage K V}

/-! ## States -/

/-- The ids in the pages are valid, and so is the next page id; the tree has a root if it is to be
`nonempty`. -/
structure ValidIds (nonempty : Prop) (s : TreeState K V) : Prop where
  next : 0 ≤ s.pool.nextPageId
  pages : ∀ p, (s.pool.content p).Valid
  root : nonempty → s.rootPageId ≠ invalidPageId

/-- The computation leaves pages valid. -/
abbrev KeepsIds (nonempty : Prop) (x : TreeM K V α) (Q : α → Prop := fun _ => True) : Prop :=
  Maintains (ValidIds nonempty) x Q

theorem keepsIds_modify {f : TreeState K V → TreeState K V} (pool : ∀ s, (f s).pool = s.pool)
    (root : ∀ s, (f s).rootPageId = s.rootPageId) :
    KeepsIds nonempty (modify f : TreeM K V Unit) := by
  refine maintains_modify fun s h => ⟨?_, fun p => ?_, fun some => ?_⟩
  · rw [pool]
    exact h.next
  · rw [pool]
    exact h.pages p
  · rw [root]
    exact h.root some

theorem keepsIds_onPool {x : PoolM (IndexPage K V) α}
    (same : ∀ pool a pool', x pool = .ok (a, pool') →
      pool'.content = pool.content ∧ pool'.nextPageId = pool.nextPageId) :
    KeepsIds nonempty (onPool x) := by
  intro s h
  unfold Spec onPool
  cases run : x s.pool with
  | error e => trivial
  | ok r =>
    obtain ⟨a, pool'⟩ := r
    obtain ⟨content, next⟩ := same _ _ _ run
    refine ⟨⟨?_, fun p => ?_, h.root⟩, trivial⟩
    · change 0 ≤ pool'.nextPageId
      rw [next]
      exact h.next
    · change (pool'.content p).Valid
      rw [content]
      exact h.pages p

theorem keepsIds_getPage (p : PageId) :
    KeepsIds nonempty (getPage p : TreeM K V (IndexPage K V)) IndexPage.Valid :=
  fun _ h => ⟨h, h.pages p⟩

theorem ValidIds.setPage {s : TreeState K V} (h : ValidIds nonempty s) (valid : page.Valid) (p : PageId) :
    ValidIds nonempty (BPlusTree.setPage p page s).2 := by
  refine ⟨h.next, fun q => ?_, h.root⟩
  change (Function.update s.pool.content p page q).Valid
  rw [Function.update_apply]
  split_ifs
  · exact valid
  · exact h.pages q

theorem keepsIds_setPage (p : PageId) (valid : page.Valid) :
    KeepsIds nonempty (setPage p page : TreeM K V Unit) :=
  fun _ h => ⟨h.setPage valid p, trivial⟩

theorem keepsIds_fetchPage (p : PageId) (e : Fault) :
    KeepsIds nonempty (fetchPage p e : TreeM K V Unit) := by
  refine Maintains.bind (keepsIds_onPool fun pool found pool' run => ?_) fun found _ => ?_
  · unfold PagePool.fetchPage at run
    split at run <;> cases run <;> exact ⟨rfl, rfl⟩
  · cases found
    · exact maintains_throw _
    · exact maintains_pure trivial

theorem keepsIds_unpinPage (p : PageId) (isDirty : Bool) :
    KeepsIds nonempty (unpinPage p isDirty : TreeM K V Unit) := by
  refine keepsIds_onPool fun pool a pool' run => ?_
  unfold PagePool.unpinPage at run
  split_ifs at run <;> cases run <;> exact ⟨rfl, rfl⟩

theorem keepsIds_lock (exclusive : Bool) (p : PageId) :
    KeepsIds nonempty (lock exclusive p : TreeM K V Unit) := by
  refine keepsIds_onPool fun pool a pool' run => ?_
  cases exclusive
  · simp only [Bool.false_eq_true, if_false, PagePool.rLatch] at run
    split_ifs at run
    cases run
    exact ⟨rfl, rfl⟩
  · simp only [if_true, PagePool.wLatch] at run
    split_ifs at run
    cases run
    exact ⟨rfl, rfl⟩

theorem keepsIds_unlock (exclusive : Bool) (p : PageId) :
    KeepsIds nonempty (unlock exclusive p : TreeM K V Unit) := by
  refine keepsIds_onPool fun pool a pool' run => ?_
  cases exclusive
  · simp only [Bool.false_eq_true, if_false, PagePool.rUnlatch] at run
    split_ifs at run
    cases run
    exact ⟨rfl, rfl⟩
  · simp only [if_true, PagePool.wUnlatch] at run
    cases run
    exact ⟨rfl, rfl⟩

theorem keepsIds_lockRootPageId (exclusive : Bool) :
    KeepsIds nonempty (lockRootPageId exclusive : TreeM K V Unit) :=
  maintains_read.bind fun _ _ => (maintains_lift fun _ _ => trivial).bind fun _ _ =>
    keepsIds_modify (fun _ => rfl) fun _ => rfl

theorem keepsIds_tryUnlockRootPageId (exclusive : Bool) :
    KeepsIds nonempty (tryUnlockRootPageId exclusive : TreeM K V Unit) := by
  refine maintains_read.bind fun s _ => ?_
  split_ifs
  · exact (maintains_lift fun _ _ => trivial).bind fun _ _ =>
      keepsIds_modify (fun _ => rfl) fun _ => rfl
  · exact maintains_pure trivial

theorem keepsIds_addIntoPageSet (transaction : Bool) (p : PageId) :
    KeepsIds nonempty (addIntoPageSet transaction p : TreeM K V Unit) := by
  cases transaction
  · exact maintains_throw _
  · exact keepsIds_modify (fun _ => rfl) fun _ => rfl

theorem keepsIds_addIntoDeletedPageSet (transaction : Bool) (p : PageId) :
    KeepsIds nonempty (addIntoDeletedPageSet transaction p : TreeM K V Unit) := by
  cases transaction
  · exact maintains_throw _
  · exact keepsIds_modify (fun _ => rfl) fun _ => rfl

theorem keepsIds_setRootPageId {root : PageId} (valid : nonempty → root ≠ invalidPageId) :
    KeepsIds nonempty (setRootPageId root : TreeM K V Unit) :=
  maintains_modify fun _ h => ⟨h.next, h.pages, valid⟩

theorem keepsIds_newPage :
    KeepsIds nonempty (newPage : TreeM K V PageId) fun p => p ≠ invalidPageId := by
  refine Maintains.bind (Q := fun r => ∀ p, r = some p → p ≠ invalidPageId) ?_ fun r valid => ?_
  · intro s h
    unfold Spec onPool PagePool.newPage
    split_ifs
    · exact ⟨h, fun p none => by cases none⟩
    · refine ⟨⟨by simpa using h.next.trans (Int.le_add_one le_rfl), fun q => ?_, h.root⟩,
        fun p new => ?_⟩
      · change (Function.update s.pool.content s.pool.nextPageId (.raw default) q).Valid
        rw [Function.update_apply]
        split_ifs
        · trivial
        · exact h.pages q
      · cases new
        exact fun invalid => absurd (invalid ▸ h.next) (by decide)
    · trivial
  · cases r with
    | none => exact maintains_throw _
    | some p =>
      apply Maintains.bind (Q := fun _ => True)
      · exact keepsIds_modify (fun _ => rfl) fun _ => rfl
      · exact fun _ _ => maintains_pure (valid p rfl)

theorem keepsIds_deletePage (p : PageId) : KeepsIds nonempty (deletePage p : TreeM K V Unit) := by
  refine Maintains.bind (Q := fun _ => True) (fun s h => ?_) fun r _ =>
    keepsIds_modify (fun _ => rfl) fun _ => rfl
  unfold Spec onPool PagePool.deletePage
  split_ifs
  · exact ⟨h, trivial⟩
  · refine ⟨⟨h.next, fun q => ?_, h.root⟩, trivial⟩
    change (Function.update s.pool.content p (.raw default) q).Valid
    rw [Function.update_apply]
    split_ifs
    · trivial
    · exact h.pages q

theorem keepsIds_freePage (exclusive : Bool) (p : PageId) :
    KeepsIds nonempty (freePage exclusive p : TreeM K V Unit) := by
  refine (keepsIds_unlock _ _).bind fun _ _ => (keepsIds_unpinPage _ _).bind fun _ _ =>
    maintains_read.bind fun s _ => ?_
  split_ifs
  · exact (keepsIds_deletePage p).bind fun _ _ => keepsIds_modify (fun _ => rfl) fun _ => rfl
  · exact maintains_pure trivial

/-- A search and the release of its pages keep the pages valid. -/
theorem keepsIds_steps : Stepwise fun _ (x : TreeM K V _) => KeepsIds nonempty x where
  pure := fun _ => maintains_pure trivial
  throw := maintains_throw
  lift := fun _ => maintains_lift fun _ _ => trivial
  bind := fun first rest => first.bind fun a _ => rest a
  read_bind := fun _ h => maintains_read.bind fun s _ => h s
  getPage := fun p => (keepsIds_getPage p).any
  fetchPage := fun p => keepsIds_fetchPage p _
  unpinPage := keepsIds_unpinPage
  lock := keepsIds_lock
  unlock := keepsIds_unlock
  lockRootPageId := keepsIds_lockRootPageId
  tryUnlockRootPageId := keepsIds_tryUnlockRootPageId
  addIntoPageSet := keepsIds_addIntoPageSet
  freePage := keepsIds_freePage
  clearPageSet := keepsIds_modify (fun _ => rfl) fun _ => rfl

/-! ## Reading and writing tree pages -/

theorem keepsIds_getTreePage (p : PageId) :
    KeepsIds nonempty (getTreePage p : TreeM K V BPlusTreePage) fun page =>
      page.pageId ≠ invalidPageId := by
  refine (keepsIds_getPage p).bind fun page valid => maintains_lift fun header run => ?_
  cases page with
  | raw data => cases run
  | leaf page =>
    cases run
    exact valid
  | internal page =>
    cases run
    exact valid.1

theorem keepsIds_getLeaf (p : PageId) :
    KeepsIds nonempty (getLeaf p : TreeM K V (LeafPage K V)) fun page =>
      page.pageId ≠ invalidPageId := by
  refine (keepsIds_getPage p).bind fun page valid => maintains_lift fun leaf run => ?_
  obtain rfl := of_asLeaf run
  exact valid

theorem keepsIds_getInternal (p : PageId) :
    KeepsIds nonempty (getInternal p : TreeM K V (InternalPage K)) fun page =>
      page.pageId ≠ invalidPageId ∧ page.Linked := by
  refine (keepsIds_getPage p).bind fun page valid => maintains_lift fun internal run => ?_
  obtain rfl := of_asInternal run
  exact valid

theorem keepsIds_setParentPageId (p parentPageId : PageId) :
    KeepsIds nonempty (setParentPageId p parentPageId : TreeM K V Unit) := by
  refine (keepsIds_getPage p).bind fun page valid => ?_
  apply Maintains.bind (Q := IndexPage.Valid)
  · refine maintains_lift fun page' set => ?_
    cases page with
    | raw data => cases set
    | leaf page =>
      cases set
      exact valid
    | internal page =>
      cases set
      exact valid
  · exact fun page' valid' => keepsIds_setPage p valid'

theorem keepsIds_setParentOfChild (child parentPageId : PageId) :
    KeepsIds nonempty (setParentOfChild child parentPageId : TreeM K V Unit) :=
  (keepsIds_fetchPage _ _).bind fun _ _ => (keepsIds_setParentPageId _ _).bind fun _ _ =>
    keepsIds_unpinPage _ _

theorem keepsIds_adoptChild (child parentPageId : PageId) :
    KeepsIds nonempty (adoptChild child parentPageId : TreeM K V Unit) :=
  (keepsIds_fetchPage _ _).bind fun _ _ => (keepsIds_setParentPageId _ _).bind fun _ _ =>
    (keepsIds_getTreePage _).bind fun _ _ => keepsIds_unpinPage _ _

theorem keepsIds_updateRootPageId (insertRecord : Bool) :
    KeepsIds nonempty (tree.updateRootPageId insertRecord : TreeM K V Unit) := by
  refine (keepsIds_fetchPage _ _).bind fun _ _ => (keepsIds_getPage _).bind fun page _ => ?_
  refine (maintains_lift fun _ _ => trivial).bind fun data _ => maintains_read.bind fun s _ => ?_
  have write (result : Bool × PageData) : KeepsIds nonempty (do
      setPage headerPageId (.raw result.2)
      unpinPage headerPageId true : TreeM K V Unit) :=
    Maintains.bind (keepsIds_setPage _ trivial) fun _ _ => keepsIds_unpinPage _ _
  cases insertRecord
  · exact (maintains_lift fun _ _ => trivial).bind fun result _ => write result
  · exact (maintains_lift fun _ _ => trivial).bind fun result _ => write result

theorem keepsIds_setKeyInParent (parentPageId : PageId) (index : InternalPage K → ℤ) (key : K) :
    KeepsIds nonempty (tree.setKeyInParent parentPageId index key : TreeM K V Unit) := by
  refine (keepsIds_fetchPage _ _).bind fun _ _ => (keepsIds_getInternal _).bind fun parent valid => ?_
  apply Maintains.bind (Q := fun page => (IndexPage.internal (V := V) page).Valid)
  · refine maintains_lift fun page set => ?_
    obtain ⟨id, linked⟩ := InternalPage.setKeyAt_linked valid.2 set
    exact ⟨id ▸ valid.1, linked⟩
  · exact fun page valid' => (keepsIds_setPage _ valid').bind fun _ _ => keepsIds_unpinPage _ _

/-! ## Insertion -/

variable [Inhabited K] [Inhabited V]

theorem keepsIds_startNewTree (key : K) (value : V) :
    KeepsIds nonempty (tree.startNewTree key value : TreeM K V Unit) := by
  refine keepsIds_newPage.bind fun id valid => ?_
  refine Maintains.bind (keepsIds_setPage _ valid) fun _ _ => ?_
  refine (keepsIds_setRootPageId fun _ => valid).bind fun _ _ => ?_
  refine (keepsIds_updateRootPageId _).bind fun _ _ => ?_
  apply Maintains.bind (Q := fun page => page.pageId ≠ invalidPageId)
  · refine maintains_lift fun page inserted => ?_
    rw [LeafPage.insert_pageId inserted]
    exact valid
  · exact fun page valid' =>
      Maintains.bind (keepsIds_setPage _ valid') fun _ _ => keepsIds_unpinPage _ _

theorem keepsIds_split (node : PageId) (transaction : Bool) :
    KeepsIds nonempty (tree.split node transaction : TreeM K V PageId) := by
  refine keepsIds_newPage.bind fun id valid => (keepsIds_lock _ _).bind fun _ _ => ?_
  refine (keepsIds_addIntoPageSet _ _).bind fun _ _ => (keepsIds_getPage _).bind fun page old => ?_
  cases page with
  | raw data => exact maintains_throw _
  | leaf page =>
    refine Maintains.bind (keepsIds_setPage _ valid) fun _ _ => ?_
    apply Maintains.bind (Q := fun pages : LeafPage K V × LeafPage K V =>
      pages.1.pageId ≠ invalidPageId ∧ pages.2.pageId ≠ invalidPageId)
    · refine maintains_lift fun pages moved => ?_
      obtain ⟨first, second⟩ := LeafPage.moveHalfTo_pageId moved
      rw [first, second]
      exact ⟨old, valid⟩
    · exact fun pages both => Maintains.bind (keepsIds_setPage _ both.2) fun _ _ =>
        Maintains.bind (keepsIds_setPage _ both.1) fun _ _ => maintains_pure trivial
  | internal page =>
    have empty : (InternalPage.init tree.keySize id page.parentPageId : InternalPage K).size = 0 := rfl
    refine Maintains.bind (keepsIds_setPage _ ⟨valid, .empty empty⟩) fun _ _ => ?_
    apply Maintains.bind (Q := fun children => page.movedHalf tree.keySize = .ok children)
    · exact maintains_lift fun children moved => moved
    · intro children moved
      obtain ⟨first, second⟩ := InternalPage.moveHalfTo_linked old.2 empty moved
      refine (maintains_forM (fun _ => keepsIds_setParentOfChild _ _) _).bind fun _ _ => ?_
      exact Maintains.bind (keepsIds_setPage _ ⟨valid, second⟩) fun _ _ =>
        Maintains.bind (keepsIds_setPage _ ⟨old.1, first⟩) fun _ _ => maintains_pure trivial

theorem keepsIds_insertIntoParent (fuel : ℕ) :
    ∀ (oldNode : PageId) (key : K) (newNode : PageId) (transaction : Bool),
      KeepsIds nonempty
        (tree.insertIntoParent fuel oldNode key newNode transaction : TreeM K V Unit) := by
  induction fuel with
  | zero => exact fun _ _ _ _ => maintains_throw _
  | succ fuel ih =>
    intro oldNode key newNode transaction
    refine (maintains_lift fun _ _ => trivial).bind fun _ _ => ?_
    refine (keepsIds_getTreePage _).bind fun old validOld => ?_
    refine (keepsIds_getTreePage _).bind fun new validNew => ?_
    dsimp only
    split_ifs
    · refine keepsIds_newPage.bind fun root valid => ?_
      refine (keepsIds_setRootPageId fun _ => valid).bind fun _ _ => ?_
      refine Maintains.bind (keepsIds_setPage _ ⟨valid, .empty rfl⟩) fun _ _ => ?_
      refine Maintains.bind (keepsIds_setPage _
        ⟨valid, InternalPage.populateNewRoot_linked rfl validOld _ _⟩) fun _ _ => ?_
      refine (keepsIds_setParentPageId _ _).bind fun _ _ => ?_
      refine (keepsIds_setParentPageId _ _).bind fun _ _ => ?_
      exact (keepsIds_updateRootPageId _).bind fun _ _ => keepsIds_unpinPage _ _
    · refine (keepsIds_fetchPage _ _).bind fun _ _ => ?_
      refine (keepsIds_setParentPageId _ _).bind fun _ _ => ?_
      refine (keepsIds_getInternal _).bind fun parent valid => ?_
      apply Maintains.bind (Q := fun page => page.pageId ≠ invalidPageId ∧ page.Linked)
      · refine maintains_lift fun page inserted => ?_
        obtain ⟨id, linked⟩ := InternalPage.insertNodeAfter_linked valid.2 validNew inserted
        exact ⟨id ▸ valid.1, linked⟩
      · intro page valid'
        refine Maintains.bind (keepsIds_setPage _ valid') fun _ _ => ?_
        split_ifs
        · refine (keepsIds_split _ _).bind fun p _ => (keepsIds_getInternal _).bind fun page _ => ?_
          refine (maintains_lift fun _ _ => trivial).bind fun first _ => ?_
          exact (ih _ _ _ _).bind fun _ _ => keepsIds_unpinPage _ _
        · exact keepsIds_unpinPage _ _

/-! ## Removal -/

omit [Inhabited K] [Inhabited V]

theorem keepsIds_findLeftSibling (node : PageId) (transaction : Bool) :
    KeepsIds nonempty (tree.findLeftSibling node transaction : TreeM K V (Bool × PageId)) := by
  refine (keepsIds_getTreePage _).bind fun page _ => (keepsIds_fetchPage _ _).bind fun _ _ => ?_
  refine (keepsIds_getInternal _).bind fun parent _ => ?_
  refine (maintains_lift fun _ _ => trivial).bind fun sibling _ => ?_
  refine (keepsIds_steps.crabingProtocalFetchPage _ _ _ _).bind fun _ _ => ?_
  exact (keepsIds_unpinPage _ _).bind fun _ _ => maintains_pure trivial

/-- Two pages of one kind are written. -/
theorem keepsIds_setBoth {P : Type} (mk : P → IndexPage K V) {result : Except Fault (P × P)}
    (valid : ∀ page other, result = .ok (page, other) → (mk page).Valid ∧ (mk other).Valid)
    (p q : PageId) {rest : P × P → TreeM K V Unit} (h : ∀ pages, KeepsIds nonempty (rest pages)) :
    KeepsIds nonempty (do
      let pages ← result
      setPage q (mk pages.2)
      setPage p (mk pages.1)
      rest pages) := by
  apply Maintains.bind (Q := fun pages => (mk pages.1).Valid ∧ (mk pages.2).Valid)
  · exact maintains_lift fun pages moved => valid _ _ moved
  · exact fun pages both => Maintains.bind (keepsIds_setPage _ both.2) fun _ _ =>
      Maintains.bind (keepsIds_setPage _ both.1) fun _ _ => h pages

theorem keepsIds_moveAllTo (node recipient : PageId) (indexInParent : ℤ) :
    KeepsIds nonempty (tree.moveAllTo node recipient indexInParent : TreeM K V Unit) := by
  refine (keepsIds_getPage _).bind fun page valid => (keepsIds_getPage _).bind fun other valid' => ?_
  cases page with
  | raw data => exact maintains_throw _
  | leaf page =>
    cases other with
    | raw data => exact maintains_throw _
    | internal other => exact maintains_throw _
    | leaf other =>
      apply Maintains.bind (Q := fun pages : LeafPage K V × LeafPage K V =>
        pages.1.pageId ≠ invalidPageId ∧ pages.2.pageId ≠ invalidPageId)
      · refine maintains_lift fun pages moved => ?_
        obtain ⟨first, second⟩ := LeafPage.moveAllTo_pageId moved
        rw [first, second]
        exact ⟨valid, valid'⟩
      · exact fun pages both => Maintains.bind (keepsIds_setPage _ both.2) fun _ _ =>
          keepsIds_setPage _ both.1
  | internal page =>
    cases other with
    | raw data => exact maintains_throw _
    | leaf other => exact maintains_throw _
    | internal other =>
      refine (keepsIds_fetchPage _ _).bind fun _ _ => (keepsIds_getInternal _).bind fun parent _ => ?_
      refine (maintains_lift fun _ _ => trivial).bind fun key _ => ?_
      apply Maintains.bind (Q := fun page => page.pageId ≠ invalidPageId ∧ page.Linked)
      · refine maintains_lift fun page set => ?_
        obtain ⟨id, linked⟩ := InternalPage.setKeyAt_linked valid.2 set
        exact ⟨id ▸ valid.1, linked⟩
      · intro page keyed
        refine Maintains.bind (keepsIds_setPage _ keyed) fun _ _ => ?_
        refine (keepsIds_unpinPage _ _).bind fun _ _ => ?_
        refine (maintains_forM (fun _ => keepsIds_setParentOfChild _ _) _).bind fun _ _ => ?_
        apply Maintains.bind (Q := fun pages : InternalPage K × InternalPage K =>
          (pages.1.pageId ≠ invalidPageId ∧ pages.1.Linked) ∧
            pages.2.pageId ≠ invalidPageId ∧ pages.2.Linked)
        · refine maintains_lift fun pages moved => ?_
          obtain ⟨⟨first, linked⟩, second, linked'⟩ :=
            InternalPage.moveAllTo_linked keyed.2 valid'.2 moved
          exact ⟨⟨first ▸ keyed.1, linked⟩, second ▸ valid'.1, linked'⟩
        · exact fun pages both => Maintains.bind (keepsIds_setPage _ both.2) fun _ _ =>
            keepsIds_setPage _ both.1

theorem keepsIds_moveFirstToEndOf (node recipient : PageId) :
    KeepsIds nonempty (tree.moveFirstToEndOf node recipient : TreeM K V Unit) := by
  refine (keepsIds_getPage _).bind fun page valid => (keepsIds_getPage _).bind fun other valid' => ?_
  cases page with
  | raw data => exact maintains_throw _
  | leaf page =>
    cases other with
    | raw data => exact maintains_throw _
    | internal other => exact maintains_throw _
    | leaf other =>
      refine keepsIds_setBoth .leaf (fun page' other' moved => ?_) _ _ fun pages =>
        keepsIds_setKeyInParent _ _ _
      obtain ⟨first, second⟩ := LeafPage.moveFirstToEndOf_pageId moved
      exact ⟨first.trans_ne valid, second.trans_ne valid'⟩
  | internal page =>
    cases other with
    | raw data => exact maintains_throw _
    | leaf other => exact maintains_throw _
    | internal other =>
      refine keepsIds_setBoth .internal (fun page' other' moved => ?_) _ _ fun pages =>
        (keepsIds_adoptChild _ _).bind fun _ _ => keepsIds_setKeyInParent _ _ _
      obtain ⟨⟨first, linked⟩, second, linked'⟩ :=
        InternalPage.moveFirstToEndOf_linked valid.2 valid'.2 moved
      exact ⟨⟨first.trans_ne valid.1, linked⟩, second.trans_ne valid'.1, linked'⟩

theorem keepsIds_moveLastToFrontOf (node recipient : PageId) (parentIndex : ℤ) :
    KeepsIds nonempty (tree.moveLastToFrontOf node recipient parentIndex : TreeM K V Unit) := by
  refine (keepsIds_getPage _).bind fun page valid => (keepsIds_getPage _).bind fun other valid' => ?_
  cases page with
  | raw data => exact maintains_throw _
  | leaf page =>
    cases other with
    | raw data => exact maintains_throw _
    | internal other => exact maintains_throw _
    | leaf other =>
      refine keepsIds_setBoth .leaf (fun page' other' moved => ?_) _ _ fun pages =>
        keepsIds_setKeyInParent _ _ _
      obtain ⟨first, second⟩ := LeafPage.moveLastToFrontOf_pageId moved
      exact ⟨first.trans_ne valid, second.trans_ne valid'⟩
  | internal page =>
    cases other with
    | raw data => exact maintains_throw _
    | leaf other => exact maintains_throw _
    | internal other =>
      refine keepsIds_setBoth .internal (fun page' other' moved => ?_) _ _ fun pages =>
        (keepsIds_adoptChild _ _).bind fun _ _ => keepsIds_setKeyInParent _ _ _
      obtain ⟨⟨first, linked⟩, second, linked'⟩ :=
        InternalPage.moveLastToFrontOf_linked valid.2 valid'.2 moved
      exact ⟨⟨first.trans_ne valid.1, linked⟩, second.trans_ne valid'.1, linked'⟩

theorem keepsIds_redistribute (neighborNode node : PageId) (index : ℤ) :
    KeepsIds nonempty (tree.redistribute neighborNode node index : TreeM K V Unit) := by
  unfold redistribute
  split_ifs
  · exact keepsIds_moveFirstToEndOf _ _
  · exact keepsIds_moveLastToFrontOf _ _ _

/-- The page is no leaf that `AdjustRoot` may take for the last page of a tree that is to stay. -/
def Spares (nonempty : Prop) (s : TreeState K V) (p : PageId) : Prop :=
  nonempty → ∀ page, s.pool.content p = .leaf page → page.isRootPage = false

/-- What an operation does from a state with a page that it may give to `AdjustRoot`. -/
abbrev KeepsIdsAt (nonempty : Prop) (x : TreeM K V α) (s : TreeState K V) : Prop :=
  Spec x s (fun _ s' => ValidIds nonempty s' ∧ True) fun _ _ => True

variable {s : TreeState K V}

theorem spec_getTreePage_bind {β : Type} {f : BPlusTreePage → TreeM K V β}
    {R : β → TreeState K V → Prop}
    (returns : ∀ page, (s.pool.content p).asTreePage = .ok page →
      Spec (f page) s R fun _ _ => True) :
    Spec (getTreePage p >>= f) s R fun _ _ => True := by
  apply Spec.bind (P := fun page s' => s' = s ∧ (s.pool.content p).asTreePage = .ok page)
  · have run : getTreePage p s = ((s.pool.content p).asTreePage, s) := rfl
    unfold Spec
    rw [run]
    cases h : (s.pool.content p).asTreePage with
    | error e => trivial
    | ok page => exact ⟨rfl, rfl⟩
  · rintro page _ ⟨rfl, header⟩
    exact returns page header

theorem ValidIds.adjustRoot (h : ValidIds nonempty s) {page : BPlusTreePage}
    (header : (s.pool.content p).asTreePage = .ok page) (isRoot : page.isRootPage = true)
    (spares : Spares nonempty s p) : KeepsIdsAt nonempty (tree.adjustRoot p : TreeM K V Bool) s := by
  have valid := h.pages p
  refine Spec.bind_eq rfl ?_
  cases hp : s.pool.content p with
  | raw data => trivial
  | leaf leaf =>
    rw [hp] at header
    cases header
    have emptied : ¬ nonempty := fun stays => by
      have := spares stays leaf hp
      rw [isRoot] at this
      cases this
    exact (Maintains.bind (keepsIds_setRootPageId fun stays => absurd stays emptied) fun _ _ =>
      (keepsIds_updateRootPageId _).bind fun _ _ => maintains_pure trivial) s h
  | internal page =>
    rw [hp] at valid
    dsimp only
    split_ifs
    · refine (Maintains.bind (Q := fun result => result.1 ≠ invalidPageId ∧
        result.2.pageId ≠ invalidPageId ∧ result.2.Linked) ?_ ?_ :
        KeepsIds nonempty _) s h
      · refine maintains_lift fun result only => ?_
        obtain ⟨child, id, linked⟩ := InternalPage.removeAndReturnOnlyChild_linked valid.2 only
        exact ⟨child, id.trans_ne valid.1, linked⟩
      · intro result sound
        refine Maintains.bind (keepsIds_setPage _ sound.2) fun _ _ => ?_
        refine Maintains.bind (keepsIds_setRootPageId fun _ => sound.1) fun _ _ => ?_
        refine (keepsIds_updateRootPageId _).bind fun _ _ => ?_
        refine (keepsIds_fetchPage _ _).bind fun _ _ => ?_
        refine (keepsIds_setParentPageId _ _).bind fun _ _ => ?_
        exact (keepsIds_unpinPage _ _).bind fun _ _ => maintains_pure trivial
    · exact ⟨h, trivial⟩

theorem keepsIds_coalesce {up : PageId → TreeM K V Bool}
    (hup : ∀ p s, ValidIds nonempty s → Spares nonempty s p → KeepsIdsAt nonempty (up p) s)
    (neighborNode node parent : PageId) (index : ℤ) (transaction : Bool) :
    KeepsIds nonempty
      (tree.coalesce up neighborNode node parent index transaction : TreeM K V Bool) := by
  refine (keepsIds_moveAllTo _ _ _).bind fun _ _ => (keepsIds_getTreePage _).bind fun page _ => ?_
  refine (keepsIds_addIntoDeletedPageSet _ _).bind fun _ _ => ?_
  refine (keepsIds_getInternal _).bind fun page valid => ?_
  apply Maintains.bind (Q := fun page => page.pageId ≠ invalidPageId ∧ page.Linked)
  · refine maintains_lift fun page' removed => ?_
    obtain ⟨id, linked⟩ := InternalPage.remove_linked valid.2 removed
    exact ⟨id.trans_ne valid.1, linked⟩
  · intro page' valid' s h
    refine Spec.bind_eq rfl ?_
    have h' := h.setPage (show (IndexPage.internal page').Valid from valid') parent
    -- the page that goes on is an internal one
    have internal : ((BPlusTree.setPage parent (.internal page') s).2).pool.content parent =
        .internal page' := Function.update_self _ _ _
    split_ifs
    · refine hup parent _ h' fun _ leaf isLeaf => ?_
      cases internal.symm.trans isLeaf
    · exact ⟨h', trivial⟩

theorem ValidIds.coalesceOrRedistribute (fuel : ℕ) (transaction : Bool) :
    ∀ (node : PageId) (s : TreeState K V), ValidIds nonempty s → Spares nonempty s node →
      KeepsIdsAt nonempty (tree.coalesceOrRedistribute fuel node transaction) s := by
  induction fuel with
  | zero => exact fun _ _ _ _ => trivial
  | succ fuel ih =>
    intro node s h spares
    refine spec_getTreePage_bind fun page header => ?_
    split_ifs with isRoot
    · refine Spec.bind (h.adjustRoot header isRoot spares) fun delOldRoot s' h' => ?_
      refine (?_ : KeepsIds nonempty _) s' h'.1
      split_ifs
      · exact (keepsIds_addIntoDeletedPageSet _ _).bind fun _ _ => maintains_pure trivial
      · exact maintains_pure trivial
    · refine (?_ : KeepsIds nonempty _) s h
      refine (keepsIds_findLeftSibling _ _).bind fun found _ => (keepsIds_fetchPage _ _).bind fun _ _ => ?_
      refine (keepsIds_getTreePage _).bind fun near _ => (keepsIds_getInternal _).bind fun parentPage _ => ?_
      split_ifs
      · exact (keepsIds_coalesce ih _ _ _ _ _).bind fun _ _ =>
          (keepsIds_unpinPage _ _).bind fun _ _ => maintains_pure trivial
      · exact (keepsIds_coalesce ih _ _ _ _ _).bind fun _ _ =>
          (keepsIds_unpinPage _ _).bind fun _ _ => maintains_pure trivial
      · exact (keepsIds_redistribute _ _ _).bind fun _ _ =>
          (keepsIds_unpinPage _ _).bind fun _ _ => maintains_pure trivial

/-! ## Whole trees -/

/-- The pages of a tree with valid ids. -/
theorem valid_of_rep {content : PageId → IndexPage K V} : ∀ {d : ℕ} {t : BTree K V d}
    {parent : PageId}, t.Rep n content parent → (∀ q ∈ t.ids, q ≠ invalidPageId) →
      ∀ q ∈ t.ids, (content q).Valid
  | 0, t, parent, rep, ne, q, hq => by
    obtain rfl := Multiset.mem_singleton.1 hq
    obtain ⟨page, hc, holds⟩ := rep
    rw [hc]
    exact holds.fields.pageId.trans_ne (ne _ hq)
  | d + 1, t, parent, rep, ne, q, hq => by
    have child {x : K × BTree K V d} (hx : x ∈ InnerNode.slots t) {r : PageId} (hr : r ∈ x.2.ids) :
        r ∈ BTree.ids (d := d + 1) t :=
      Multiset.mem_cons_of_mem (BTree.mem_slotIds.2 ⟨x, hx, hr⟩)
    obtain rfl | hq := Multiset.mem_cons.1 hq
    · obtain ⟨⟨page, hc, holds⟩, -⟩ := rep
      rw [hc]
      refine ⟨holds.fields.pageId.trans_ne (ne _ (Multiset.mem_cons_self _ _)), fun i hi => ?_⟩
      have mem := (mem_entries page.array page.size).2 ⟨i, hi, rfl⟩
      rw [holds.items] at mem
      obtain ⟨x, hx, slot⟩ := List.mem_map.1 mem
      rw [← slot]
      exact ne _ (child hx (BTree.pageId_mem_ids x.2))
    · obtain ⟨x, hx, hq⟩ := BTree.mem_slotIds.1 hq
      exact valid_of_rep (rep.2 x hx) (fun r hr => ne r (child hx hr)) q hq

/-- The ids in a well-formed tree are valid. -/
theorem Stored.validIds [LinearOrder K] {v : View K V} {t : Option (Σ d, BTree K V d)}
    (h : Stored tree v s t) (outside : ∀ p, p ∉ pages t → (s.pool.content p).Valid) :
    ValidIds False s := by
  refine ⟨?_, fun p => ?_, False.elim⟩
  · rw [h.state.next]
    exact h.state.next_pos.le
  · by_cases hp : p ∈ pages t
    · cases t with
      | none => cases hp
      | some t =>
        obtain ⟨-, focus, -⟩ := h.stores
        have pos {q : PageId} (hq : q ∈ t.2.ids) : 0 < q :=
          (focus.bound q (Multiset.mem_add.2 (.inr hq))).1
        rw [h.state.content p (pos hp).ne']
        refine valid_of_rep focus.sub (fun q hq invalid => ?_) p hp
        exact absurd (invalid ▸ pos hq) (by decide)
    · exact outside p hp

end BPlusTree

end ScuDb
