import ScuDb.Index.CallBalance
import ScuDb.Page.PageCapacity

/-!
# Writes stay inside their pages

No operation of `Insert` or `Remove` writes a slot behind the last one of its page.
-/

namespace ScuDb

open Program SlotArray

variable {K V : Type} {n : KeySize}

/-- The write changes slots of the page only, or turns a new page into one without entries. -/
def Write.Inside (n : KeySize) (w : Write K V) : Prop :=
  match w.before, w.after with
  | .raw _, .leaf b => b.size = 0
  | .raw _, .internal b => b.size = 0
  | a, b => a.SameBehind n b

namespace BPlusTree

/-! ## Steps that keep the pages -/

/-- No page is overfull, and every write stayed inside its page. -/
def Within (n : KeySize) (s : TreeState K V) : Prop :=
  (∀ p, (s.pool.content p).InCapacity n) ∧ ∀ w ∈ s.history.writes, w.Inside n

/-- A step that stays inside the pages. -/
def StaysWithin (n : KeySize) (s s' : TreeState K V) : Prop := Within n s → Within n s'

/-- Besides, no page changed its type or anything behind its slots since `base`. -/
def Good (n : KeySize) (base s : TreeState K V) : Prop :=
  Within n s ∧ ∀ p, (base.pool.content p).SameBehind n (s.pool.content p)

/-- A step that keeps the type of every page, too. -/
def KeepsPages (n : KeySize) (s s' : TreeState K V) : Prop := Within n s → Good n s s'

variable {base s s' : TreeState K V} {p : PageId} {page : IndexPage K V} {α : Type}
  {x : TreeM K V α}

instance : Std.Refl (@StaysWithin K V n) := ⟨fun _ h => h⟩

instance : IsTrans (TreeState K V) (StaysWithin n) where
  trans _ _ _ first second h := second (first h)

theorem Good.refl (within : Within n s) : Good n s s := ⟨within, fun _ => .refl _⟩

instance : Std.Refl (@KeepsPages K V n) := ⟨fun _ => .refl⟩

instance : IsTrans (TreeState K V) (KeepsPages n) where
  trans _ _ _ first second within :=
    have good := first within
    have good' := second good.1
    ⟨good'.1, fun p => (good.2 p).trans (good'.2 p)⟩

theorem keepsPages_of_same (content : s'.pool.content = s.pool.content)
    (writes : s'.history.writes = s.history.writes) : KeepsPages n s s' := by
  refine fun h => ⟨⟨fun p => ?_, fun w hw => ?_⟩, fun p => ?_⟩
  · rw [content]
    exact h.1 p
  · exact h.2 w (writes ▸ hw)
  · rw [content]
    exact .refl _

/-- A step that keeps the pages, from any state after `base`. -/
theorem Good.step (good : Good n base s) (h : Keeps (KeepsPages n) x) :
    Spec x s (fun _ => Good n base) fun _ => Good n base := by
  apply (h.spec s).mono
  · intro _ s' kept
    have good' := kept good.1
    exact ⟨good'.1, fun p => (good.2 p).trans (good'.2 p)⟩
  · intro _ s' kept
    have good' := kept good.1
    exact ⟨good'.1, fun p => (good.2 p).trans (good'.2 p)⟩

theorem Good.run (good : Good n base s) (h : Keeps (KeepsPages n) x) :
    Spec x s (fun _ => Good n base) fun _ => Within n :=
  (good.step h).mono (fun _ _ => id) fun _ _ => And.left

theorem keepsPages_of_spec
    (h : ∀ s, Within n s → Spec x s (fun _ => Good n s) fun _ => Good n s) :
    Keeps (KeepsPages n) x := by
  intro s within
  have run := h s within
  unfold Spec at run
  rcases hx : x s with ⟨r, s'⟩
  rw [hx] at run
  cases r with
  | error e => exact run
  | ok a => exact run

theorem staysWithin_of_spec
    (h : ∀ s, Within n s → Spec x s (fun _ => Within n) fun _ => Within n) :
    Keeps (StaysWithin n) x := by
  intro s within
  have run := h s within
  unfold Spec at run
  rcases hx : x s with ⟨r, s'⟩
  rw [hx] at run
  cases r with
  | error e => exact run
  | ok a => exact run

theorem Within.step (within : Within n s) (h : Keeps (StaysWithin n) x) :
    Spec x s (fun _ => Within n) fun _ => Within n :=
  (h.spec s).mono (fun _ _ kept => kept within) fun _ _ kept => kept within

theorem staysWithin (h : Keeps (KeepsPages n) x) : Keeps (StaysWithin n) x :=
  fun s within => (h s within).1

theorem keepsPages_modify {f : TreeState K V → TreeState K V}
    (content : ∀ s, (f s).pool.content = s.pool.content)
    (writes : ∀ s, (f s).history.writes = s.history.writes) :
    Keeps (KeepsPages n) (modify f : TreeM K V Unit) :=
  fun s => keepsPages_of_same (content s) (writes s)

theorem keepsPages_onPool {α : Type} {x : PoolM (IndexPage K V) α}
    (content : ∀ pool a pool', x pool = .ok (a, pool') → pool'.content = pool.content) :
    Keeps (KeepsPages n) (onPool x) := by
  intro s
  unfold onPool
  split
  · next a pool run => exact keepsPages_of_same (content _ _ _ run) rfl
  · exact refl s

theorem staysWithin_setPage (fits : page.InCapacity n)
    (inside : Write.Inside n ⟨p, s.pool.content p, page, s.pageSet, s.history.created,
      s.pool.latch p⟩) : StaysWithin n s (BPlusTree.setPage p page s).2 := by
  refine fun h => ⟨fun q => ?_, fun w hw => ?_⟩
  · change (Function.update s.pool.content p page q).InCapacity n
    rw [Function.update_apply]
    split_ifs
    · exact fits
    · exact h.1 q
  · rcases List.mem_cons.1 hw with rfl | hw
    · exact inside
    · exact h.2 w hw

theorem inside_of_sameBehind {w : Write K V} (h : w.before.SameBehind n w.after) :
    w.Inside n := by
  unfold Write.Inside
  cases hb : w.before <;> cases ha : w.after <;> rw [hb, ha] at h <;> first | exact h | exact h.elim

/-- A write of what a page operation made of a page that was read at `base`. -/
theorem Good.setPage (good : Good n base s) (c : Contained n (base.pool.content p) page)
    {E : Fault → TreeState K V → Prop} :
    Spec (BPlusTree.setPage p page) s (fun _ => Good n base) E := by
  have same : (s.pool.content p).SameBehind n page := (good.2 p).symm.trans c.2
  refine ⟨staysWithin_setPage c.1 (inside_of_sameBehind same) good.1, fun q => ?_⟩
  change (base.pool.content q).SameBehind n (Function.update s.pool.content p page q)
  rw [Function.update_apply]
  split_ifs with e
  · exact e ▸ c.2
  · exact good.2 q

/-! ## The pool, the latches and the header page -/

theorem keepsPages_fetchPage (p : PageId) (e : Fault) :
    Keeps (KeepsPages n) (fetchPage p e : TreeM K V Unit) := by
  refine (keepsPages_onPool fun _ _ _ => content_fetchPage).bind fun found => ?_
  cases found
  · exact keeps_throw _
  · exact keeps_pure _

theorem keepsPages_unpinPage (p : PageId) (isDirty : Bool) :
    Keeps (KeepsPages n) (unpinPage p isDirty : TreeM K V Unit) :=
  keepsPages_onPool fun _ _ _ => content_unpinPage

theorem keepsPages_lock (exclusive : Bool) (p : PageId) :
    Keeps (KeepsPages n) (lock exclusive p : TreeM K V Unit) :=
  keepsPages_onPool fun _ _ _ => content_latch

theorem keepsPages_unlock (exclusive : Bool) (p : PageId) :
    Keeps (KeepsPages n) (unlock exclusive p : TreeM K V Unit) :=
  keepsPages_onPool fun _ _ _ => content_unlatch

theorem keepsPages_lockRootPageId (exclusive : Bool) :
    Keeps (KeepsPages n) (lockRootPageId exclusive : TreeM K V Unit) :=
  keeps_read.bind fun _ => (keeps_lift _).bind fun _ =>
    keepsPages_modify (fun _ => rfl) fun _ => rfl

theorem keepsPages_tryUnlockRootPageId (exclusive : Bool) :
    Keeps (KeepsPages n) (tryUnlockRootPageId exclusive : TreeM K V Unit) := by
  refine keeps_read.bind fun s => ?_
  split
  · exact (keeps_lift _).bind fun _ => keepsPages_modify (fun _ => rfl) fun _ => rfl
  · exact keeps_pure _

theorem keepsPages_getPage (p : PageId) :
    Keeps (KeepsPages n) (getPage p : TreeM K V (IndexPage K V)) := fun s => refl s

theorem keepsPages_addIntoPageSet (transaction : Bool) (p : PageId) :
    Keeps (KeepsPages n) (addIntoPageSet transaction p : TreeM K V Unit) := by
  cases transaction
  · exact keeps_throw _
  · exact keepsPages_modify (fun _ => rfl) fun _ => rfl

theorem keepsPages_addIntoDeletedPageSet (transaction : Bool) (p : PageId) :
    Keeps (KeepsPages n) (addIntoDeletedPageSet transaction p : TreeM K V Unit) := by
  cases transaction
  · exact keeps_throw _
  · exact keepsPages_modify (fun _ => rfl) fun _ => rfl

theorem keepsPages_setRootPageId (root : PageId) :
    Keeps (KeepsPages n) (setRootPageId root : TreeM K V Unit) :=
  keepsPages_modify (fun _ => rfl) fun _ => rfl

theorem keepsPages_setParentPageId (p parentPageId : PageId) :
    Keeps (KeepsPages n) (setParentPageId p parentPageId : TreeM K V Unit) := by
  apply keepsPages_of_spec
  intro s within
  have good := Good.refl within
  have fits := within.1 p
  refine Spec.bind_eq rfl (spec_bind_lift (fun _ _ => good) fun page run => ?_)
  apply good.setPage
  cases hp : s.pool.content p with
  | raw data =>
    rw [hp] at run
    cases run
  | leaf q =>
    rw [hp] at run fits
    cases run
    exact ⟨fits, fun _ _ => rfl⟩
  | internal q =>
    rw [hp] at run fits
    cases run
    exact ⟨fits, fun _ _ => rfl⟩

theorem keepsPages_setParentOfChild (child parentPageId : PageId) :
    Keeps (KeepsPages n) (setParentOfChild child parentPageId : TreeM K V Unit) :=
  (keepsPages_fetchPage _ _).bind fun _ => (keepsPages_setParentPageId _ _).bind fun _ =>
    keepsPages_unpinPage _ _

theorem keepsPages_adoptChild (child parentPageId : PageId) :
    Keeps (KeepsPages n) (adoptChild child parentPageId : TreeM K V Unit) :=
  (keepsPages_fetchPage _ _).bind fun _ => (keepsPages_setParentPageId _ _).bind fun _ =>
    ((keepsPages_getPage _).bind fun _ => keeps_lift _).bind fun _ => keepsPages_unpinPage _ _

variable {tree : BPlusTree K}

theorem of_asLeaf {a : IndexPage K V} {q : LeafPage K V} (h : a.asLeaf = .ok q) : a = .leaf q := by
  cases a <;> cases h
  rfl

theorem of_asInternal {a : IndexPage K V} {q : InternalPage K} (h : a.asInternal = .ok q) :
    a = .internal q := by
  cases a <;> cases h
  rfl

theorem of_asRaw {a : IndexPage K V} {data : PageData} (h : a.asRaw = .ok data) :
    a = .raw data := by
  cases a <;> cases h
  rfl

theorem keepsPages_updateRootPageId (insertRecord : Bool) :
    Keeps (KeepsPages n) (tree.updateRootPageId insertRecord : TreeM K V Unit) := by
  refine (keepsPages_fetchPage _ _).bind fun _ => keepsPages_of_spec fun s within => ?_
  have good := Good.refl within
  refine Spec.bind_eq rfl (spec_bind_lift (fun _ _ => good) fun data hdata => Spec.bind_eq rfl ?_)
  have write {data' : PageData} : Contained n (s.pool.content headerPageId) (.raw data') := by
    rw [of_asRaw hdata]
    exact ⟨trivial, trivial⟩
  cases insertRecord
  · refine spec_bind_lift (fun _ _ => good) fun result _ => ?_
    exact Spec.bind (good.setPage write) fun _ s₁ good₁ => good₁.step (keepsPages_unpinPage _ _)
  · refine spec_bind_lift (fun _ _ => good) fun result _ => ?_
    exact Spec.bind (good.setPage write) fun _ s₁ good₁ => good₁.step (keepsPages_unpinPage _ _)

section Reads

variable {β : Type} {R : β → TreeState K V → Prop} {E : Fault → TreeState K V → Prop}

theorem spec_getInternal_bind {f : InternalPage K → TreeM K V β} (stops : ∀ e, E e s)
    (returns : ∀ page, s.pool.content p = .internal page → Spec (f page) s R E) :
    Spec (getInternal p >>= f) s R E := by
  apply Spec.bind (P := fun page s' => s' = s ∧ s.pool.content p = .internal page)
  · have run : getInternal p s = ((s.pool.content p).asInternal, s) := rfl
    unfold Spec
    rw [run]
    cases h : (s.pool.content p).asInternal with
    | error e => exact stops e
    | ok page => exact ⟨rfl, of_asInternal h⟩
  · rintro page _ ⟨rfl, content⟩
    exact returns page content

theorem spec_getLeaf_bind {f : LeafPage K V → TreeM K V β} (stops : ∀ e, E e s)
    (returns : ∀ page, s.pool.content p = .leaf page → Spec (f page) s R E) :
    Spec (getLeaf p >>= f) s R E := by
  apply Spec.bind (P := fun page s' => s' = s ∧ s.pool.content p = .leaf page)
  · have run : getLeaf p s = ((s.pool.content p).asLeaf, s) := rfl
    unfold Spec
    rw [run]
    cases h : (s.pool.content p).asLeaf with
    | error e => exact stops e
    | ok page => exact ⟨rfl, of_asLeaf h⟩
  · rintro page _ ⟨rfl, content⟩
    exact returns page content

end Reads

theorem keepsPages_setKeyInParent (parentPageId : PageId) (index : InternalPage K → ℤ) (key : K) :
    Keeps (KeepsPages tree.keySize) (tree.setKeyInParent parentPageId index key : TreeM K V Unit) := by
  refine (keepsPages_fetchPage _ _).bind fun _ => keepsPages_of_spec fun s within => ?_
  have good := Good.refl within
  refine spec_getInternal_bind (fun _ => good) fun parent content => ?_
  have fits := within.1 parentPageId
  rw [content] at fits
  refine spec_bind_lift (fun _ _ => good) fun parent' set => ?_
  refine Spec.bind (good.setPage ?_) fun _ s₁ good₁ => good₁.step (keepsPages_unpinPage _ _)
  rw [content]
  exact InternalPage.setKeyAt_contained fits set

theorem keepsPages_moveAllTo (node recipient : PageId) (indexInParent : ℤ) :
    Keeps (KeepsPages tree.keySize)
      (tree.moveAllTo node recipient indexInParent : TreeM K V Unit) := by
  apply keepsPages_of_spec
  intro s within
  have good := Good.refl within
  refine Spec.bind_eq rfl (Spec.bind_eq rfl ?_)
  cases hn : s.pool.content node with
  | raw data => exact spec_throw good
  | leaf page =>
    cases hr : s.pool.content recipient with
    | raw data => exact spec_throw good
    | internal other => exact spec_throw good
    | leaf other =>
      refine spec_bind_lift (fun _ _ => good) fun result moved => ?_
      obtain ⟨c, c'⟩ := LeafPage.moveAllTo_contained moved
      refine Spec.bind (good.setPage ?_) fun _ s₁ good₁ => good₁.setPage ?_
      · rw [hr]
        exact c'
      · rw [hn]
        exact c
  | internal page =>
    cases hr : s.pool.content recipient with
    | raw data => exact spec_throw good
    | leaf other => exact spec_throw good
    | internal other =>
      have fits := within.1 node
      rw [hn] at fits
      refine Spec.bind (good.step (keepsPages_fetchPage _ _)) fun _ s₁ good₁ => ?_
      refine spec_getInternal_bind (fun _ => good₁) fun parent _ => ?_
      refine spec_bind_lift (fun _ _ => good₁) fun key _ => ?_
      refine spec_bind_lift (fun _ _ => good₁) fun page' set => ?_
      have keyed := InternalPage.setKeyAt_contained (V := V) fits set
      refine Spec.bind (good₁.setPage (hn ▸ keyed)) fun _ s₂ good₂ => ?_
      refine Spec.bind (good₂.step (keepsPages_unpinPage _ _)) fun _ s₃ good₃ => ?_
      refine Spec.bind (good₃.step (keeps_forM (fun _ => keepsPages_setParentOfChild _ _) _))
        fun _ s₄ good₄ => ?_
      refine spec_bind_lift (fun _ _ => good₄) fun result moved => ?_
      obtain ⟨c, c'⟩ := InternalPage.moveAllTo_contained (V := V) moved
      refine Spec.bind (good₄.setPage (hr ▸ c')) fun _ s₅ good₅ => good₅.setPage ?_
      rw [hn]
      exact ⟨c.1, keyed.2.trans c.2⟩

theorem keepsPages_moveFirstToEndOf (node recipient : PageId) :
    Keeps (KeepsPages tree.keySize)
      (tree.moveFirstToEndOf node recipient : TreeM K V Unit) := by
  apply keepsPages_of_spec
  intro s within
  have good := Good.refl within
  refine Spec.bind_eq rfl (Spec.bind_eq rfl ?_)
  have fits := within.1 node
  cases hn : s.pool.content node with
  | raw data => exact spec_throw good
  | leaf page =>
    cases hr : s.pool.content recipient with
    | raw data => exact spec_throw good
    | internal other => exact spec_throw good
    | leaf other =>
      rw [hn] at fits
      refine spec_bind_lift (fun _ _ => good) fun result moved => ?_
      obtain ⟨c, c'⟩ := LeafPage.moveFirstToEndOf_contained fits moved
      refine Spec.bind (good.setPage (hr ▸ c')) fun _ s₁ good₁ => ?_
      refine Spec.bind (good₁.setPage (hn ▸ c)) fun _ s₂ good₂ => ?_
      exact good₂.step (keepsPages_setKeyInParent _ _ _)
  | internal page =>
    cases hr : s.pool.content recipient with
    | raw data => exact spec_throw good
    | leaf other => exact spec_throw good
    | internal other =>
      rw [hn] at fits
      refine spec_bind_lift (fun _ _ => good) fun result moved => ?_
      obtain ⟨c, c'⟩ := InternalPage.moveFirstToEndOf_contained (V := V) fits moved
      refine Spec.bind (good.setPage (hr ▸ c')) fun _ s₁ good₁ => ?_
      refine Spec.bind (good₁.setPage (hn ▸ c)) fun _ s₂ good₂ => ?_
      refine Spec.bind (good₂.step (keepsPages_adoptChild _ _)) fun _ s₃ good₃ => ?_
      exact good₃.step (keepsPages_setKeyInParent _ _ _)

theorem keepsPages_moveLastToFrontOf (node recipient : PageId) (parentIndex : ℤ) :
    Keeps (KeepsPages tree.keySize)
      (tree.moveLastToFrontOf node recipient parentIndex : TreeM K V Unit) := by
  apply keepsPages_of_spec
  intro s within
  have good := Good.refl within
  refine Spec.bind_eq rfl (Spec.bind_eq rfl ?_)
  have fits := within.1 node
  cases hn : s.pool.content node with
  | raw data => exact spec_throw good
  | leaf page =>
    cases hr : s.pool.content recipient with
    | raw data => exact spec_throw good
    | internal other => exact spec_throw good
    | leaf other =>
      rw [hn] at fits
      refine spec_bind_lift (fun _ _ => good) fun result moved => ?_
      obtain ⟨c, c'⟩ := LeafPage.moveLastToFrontOf_contained fits moved
      refine Spec.bind (good.setPage (hr ▸ c')) fun _ s₁ good₁ => ?_
      refine Spec.bind (good₁.setPage (hn ▸ c)) fun _ s₂ good₂ => ?_
      exact good₂.step (keepsPages_setKeyInParent _ _ _)
  | internal page =>
    cases hr : s.pool.content recipient with
    | raw data => exact spec_throw good
    | leaf other => exact spec_throw good
    | internal other =>
      rw [hn] at fits
      refine spec_bind_lift (fun _ _ => good) fun result moved => ?_
      obtain ⟨c, c'⟩ := InternalPage.moveLastToFrontOf_contained (V := V) fits moved
      refine Spec.bind (good.setPage (hr ▸ c')) fun _ s₁ good₁ => ?_
      refine Spec.bind (good₁.setPage (hn ▸ c)) fun _ s₂ good₂ => ?_
      refine Spec.bind (good₂.step (keepsPages_adoptChild _ _)) fun _ s₃ good₃ => ?_
      exact good₃.step (keepsPages_setKeyInParent _ _ _)

theorem keepsPages_redistribute (neighborNode node : PageId) (index : ℤ) :
    Keeps (KeepsPages tree.keySize)
      (tree.redistribute neighborNode node index : TreeM K V Unit) := by
  unfold redistribute
  split_ifs
  · exact keepsPages_moveFirstToEndOf _ _
  · exact keepsPages_moveLastToFrontOf _ _ _

theorem keepsPages_adjustRoot (oldRootNode : PageId) :
    Keeps (KeepsPages tree.keySize) (tree.adjustRoot oldRootNode : TreeM K V Bool) := by
  apply keepsPages_of_spec
  intro s within
  have good := Good.refl within
  refine Spec.bind_eq rfl ?_
  cases hp : s.pool.content oldRootNode with
  | raw data => exact spec_throw good
  | leaf page =>
    refine Spec.bind (good.step (keepsPages_setRootPageId _)) fun _ s₁ good₁ => ?_
    refine Spec.bind (good₁.step (keepsPages_updateRootPageId _)) fun _ s₂ good₂ => spec_pure good₂
  | internal page =>
    dsimp only
    split_ifs
    · refine spec_bind_lift (fun _ _ => good) fun result only => ?_
      have c := InternalPage.removeAndReturnOnlyChild_contained (V := V) (n := tree.keySize) only
      refine Spec.bind (good.setPage (hp ▸ c)) fun _ s₁ good₁ => ?_
      refine Spec.bind (good₁.step (keepsPages_setRootPageId _)) fun _ s₂ good₂ => ?_
      refine Spec.bind (good₂.step (keepsPages_updateRootPageId _)) fun _ s₃ good₃ => ?_
      refine Spec.bind (good₃.step (keepsPages_fetchPage _ _)) fun _ s₄ good₄ => ?_
      refine Spec.bind (good₄.step (keepsPages_setParentPageId _ _)) fun _ s₅ good₅ => ?_
      exact Spec.bind (good₅.step (keepsPages_unpinPage _ _)) fun _ s₆ good₆ => spec_pure good₆
    · exact spec_pure good

/-! ## New and deleted pages -/

theorem Within.newPage (within : Within n s) :
    Spec newPage s (fun p s' => Within n s' ∧ s'.pool.content p = .raw default)
      fun _ => Within n := by
  refine Spec.bind (P := fun r s' => Within n s' ∧
    ∀ p, r = some p → s'.pool.content p = .raw default) ?_ ?_
  · unfold Spec onPool PagePool.newPage
    split_ifs
    · exact ⟨within, nofun⟩
    · refine ⟨⟨fun q => ?_, within.2⟩, fun p hp => ?_⟩
      · change (Function.update s.pool.content s.pool.nextPageId (.raw default) q).InCapacity n
        rw [Function.update_apply]
        split_ifs
        · trivial
        · exact within.1 q
      · cases hp
        exact Function.update_self _ _ _
    · exact within
  · rintro r s' ⟨within', fresh⟩
    cases r with
    | none => exact spec_throw within'
    | some p => exact ⟨within', fresh p rfl⟩

theorem staysWithin_deletePage (p : PageId) :
    Keeps (StaysWithin n) (deletePage p : TreeM K V Unit) := by
  refine Keeps.bind (fun s within => ?_) fun r => staysWithin (keepsPages_modify (fun _ => rfl)
    fun _ => rfl)
  unfold onPool PagePool.deletePage
  split_ifs
  · exact within
  · refine ⟨fun q => ?_, within.2⟩
    change (Function.update s.pool.content p (.raw default) q).InCapacity n
    rw [Function.update_apply]
    split_ifs
    · trivial
    · exact within.1 q

theorem staysWithin_freePage (exclusive : Bool) (p : PageId) :
    Keeps (StaysWithin n) (freePage exclusive p : TreeM K V Unit) := by
  refine (staysWithin (keepsPages_unlock _ _)).bind fun _ =>
    (staysWithin (keepsPages_unpinPage _ _)).bind fun _ => keeps_read.bind fun s => ?_
  split_ifs
  · exact (staysWithin_deletePage p).bind fun _ =>
      staysWithin (keepsPages_modify (fun _ => rfl) fun _ => rfl)
  · exact keeps_pure _

theorem staysWithin_steps : Stepwise fun _ (x : TreeM K V _) => Keeps (StaysWithin n) x where
  pure := keeps_pure
  throw := keeps_throw
  lift := keeps_lift
  bind := Keeps.bind
  read_bind := fun _ h => keeps_read.bind h
  getPage := fun p => staysWithin (keepsPages_getPage p)
  fetchPage := fun p => staysWithin (keepsPages_fetchPage p _)
  unpinPage := fun p isDirty => staysWithin (keepsPages_unpinPage p isDirty)
  lock := fun exclusive p => staysWithin (keepsPages_lock exclusive p)
  unlock := fun exclusive p => staysWithin (keepsPages_unlock exclusive p)
  lockRootPageId := fun exclusive => staysWithin (keepsPages_lockRootPageId exclusive)
  tryUnlockRootPageId := fun exclusive => staysWithin (keepsPages_tryUnlockRootPageId exclusive)
  addIntoPageSet := fun transaction p => staysWithin (keepsPages_addIntoPageSet transaction p)
  freePage := staysWithin_freePage
  clearPageSet := staysWithin (keepsPages_modify (fun _ => rfl) fun _ => rfl)

/-! ## Splits -/

section Init

variable {data : PageData} {E : Fault → TreeState K V → Prop}

theorem Within.setFresh (within : Within n s) (raw : s.pool.content p = .raw data)
    (fits : page.InCapacity n) (inside : Write.Inside n
      ⟨p, .raw data, page, s.pageSet, s.history.created, s.pool.latch p⟩) :
    Spec (BPlusTree.setPage p page) s (fun _ s' => Within n s' ∧
      s'.pool.content = Function.update s.pool.content p page) E :=
  ⟨staysWithin_setPage fits (raw ▸ inside) within, rfl⟩

theorem Within.initLeaf [Inhabited K] [Inhabited V] (within : Within n s)
    (raw : s.pool.content p = .raw data) (id parentId : PageId) :
    Spec (BPlusTree.setPage p (.leaf (LeafPage.init n id parentId))) s (fun _ s' =>
      Within n s' ∧ s'.pool.content = Function.update s.pool.content p
        (.leaf (LeafPage.init n id parentId))) E := by
  apply within.setFresh raw
  · exact Nat.zero_le _
  · exact rfl

theorem Within.initInternal [Inhabited K] (within : Within n s)
    (raw : s.pool.content p = .raw data) (id parentId : PageId) :
    Spec (BPlusTree.setPage p (.internal (InternalPage.init n id parentId))) s (fun _ s' =>
      Within n s' ∧ s'.pool.content = Function.update s.pool.content p
        (.internal (InternalPage.init n id parentId))) E := by
  apply within.setFresh raw
  · exact Nat.zero_le _
  · exact rfl

end Init

variable [Inhabited K] [Inhabited V]

theorem staysWithin_split (node : PageId) (transaction : Bool) :
    Keeps (StaysWithin tree.keySize) (tree.split node transaction : TreeM K V PageId) := by
  apply staysWithin_of_spec
  intro s within
  refine Spec.bind within.newPage ?_
  rintro p s₁ ⟨within₁, fresh⟩
  refine Spec.bind ((Good.refl within₁).run (keepsPages_lock _ _)) fun _ s₂ good₂ => ?_
  refine Spec.bind (good₂.run (keepsPages_addIntoPageSet _ _)) fun _ s₃ good₃ => ?_
  obtain ⟨data, raw⟩ := (fresh ▸ good₃.2 p).of_raw
  refine Spec.bind_eq rfl ?_
  cases hn : s₃.pool.content node with
  | raw data => exact spec_throw good₃.1
  | leaf page =>
    have ne : node ≠ p := by
      rintro rfl
      cases hn.symm.trans raw
    refine Spec.bind (good₃.1.initLeaf raw p page.parentPageId) ?_
    rintro _ s₄ ⟨within₄, content₄⟩
    have new := congrFun content₄ p
    have old := congrFun content₄ node
    rw [Function.update_self] at new
    rw [Function.update_of_ne ne, hn] at old
    refine spec_bind_lift (fun _ _ => within₄) fun result moved => ?_
    obtain ⟨c, c'⟩ := LeafPage.moveHalfTo_contained moved
    refine Spec.bind ((Good.refl within₄).setPage (new ▸ c')) fun _ s₅ good₅ => ?_
    exact Spec.bind (good₅.setPage (old ▸ c)) fun _ s₆ good₆ => spec_pure good₆.1
  | internal page =>
    have ne : node ≠ p := by
      rintro rfl
      cases hn.symm.trans raw
    refine Spec.bind (good₃.1.initInternal raw p page.parentPageId) ?_
    rintro _ s₄ ⟨within₄, content₄⟩
    have new := congrFun content₄ p
    have old := congrFun content₄ node
    rw [Function.update_self] at new
    rw [Function.update_of_ne ne, hn] at old
    refine spec_bind_lift (fun _ _ => within₄) fun children moved => ?_
    obtain ⟨c, c'⟩ := InternalPage.moveHalfTo_contained (V := V) moved
      (InternalPage.init tree.keySize p page.parentPageId)
    refine Spec.bind ((Good.refl within₄).run
      (keeps_forM (fun _ => keepsPages_setParentOfChild _ _) _)) fun _ s₅ good₅ => ?_
    refine Spec.bind (good₅.setPage (new ▸ c')) fun _ s₆ good₆ => ?_
    exact Spec.bind (good₆.setPage (old ▸ c)) fun _ s₇ good₇ => spec_pure good₇.1

theorem staysWithin_startNewTree (key : K) (value : V) :
    Keeps (StaysWithin tree.keySize) (tree.startNewTree key value : TreeM K V Unit) := by
  apply staysWithin_of_spec
  intro s within
  refine Spec.bind within.newPage ?_
  rintro p s₁ ⟨within₁, fresh⟩
  refine Spec.bind (within₁.initLeaf fresh p invalidPageId) ?_
  rintro _ s₂ ⟨within₂, content₂⟩
  have new := congrFun content₂ p
  rw [Function.update_self] at new
  have good₂ := Good.refl within₂
  refine Spec.bind (good₂.run (keepsPages_setRootPageId _)) fun _ s₃ good₃ => ?_
  refine Spec.bind (good₃.run (keepsPages_updateRootPageId _)) fun _ s₄ good₄ => ?_
  refine spec_bind_lift (fun _ _ => good₄.1) fun root inserted => ?_
  have c := LeafPage.insert_contained inserted
  refine Spec.bind (good₄.setPage (new ▸ c)) fun _ s₅ good₅ => ?_
  exact (good₅.run (keepsPages_unpinPage _ _)).post fun _ _ => And.left

theorem staysWithin_insertIntoParent (fuel : ℕ) :
    ∀ (oldNode : PageId) (key : K) (newNode : PageId) (transaction : Bool),
      Keeps (StaysWithin tree.keySize)
        (tree.insertIntoParent fuel oldNode key newNode transaction : TreeM K V Unit) := by
  induction fuel with
  | zero => exact fun _ _ _ _ => keeps_throw _
  | succ fuel ih =>
    intro oldNode key newNode transaction
    apply staysWithin_of_spec
    intro s within
    refine spec_bind_lift (fun _ _ => within) fun _ _ => ?_
    refine Spec.bind (within.step (staysWithin_steps.getTreePage _)) fun old s₁ within₁ => ?_
    refine Spec.bind (within₁.step (staysWithin_steps.getTreePage _)) fun new s₂ within₂ => ?_
    dsimp only
    split_ifs
    · refine Spec.bind within₂.newPage ?_
      rintro root s₃ ⟨within₃, fresh⟩
      refine Spec.bind ((Good.refl within₃).run (keepsPages_setRootPageId _)) fun _ s₄ good₄ => ?_
      obtain ⟨data, raw⟩ := (fresh ▸ good₄.2 root).of_raw
      refine Spec.bind (good₄.1.initInternal raw root invalidPageId) ?_
      rintro _ s₅ ⟨within₅, content₅⟩
      have empty := congrFun content₅ root
      rw [Function.update_self] at empty
      have populated := InternalPage.populateNewRoot_contained (V := V) (n := tree.keySize)
        (InternalPage.init tree.keySize root invalidPageId) rfl old.pageId key new.pageId
      refine Spec.bind ((Good.refl within₅).setPage (empty ▸ populated)) fun _ s₆ good₆ => ?_
      refine Spec.bind (good₆.run (keepsPages_setParentPageId _ _)) fun _ s₇ good₇ => ?_
      refine Spec.bind (good₇.run (keepsPages_setParentPageId _ _)) fun _ s₈ good₈ => ?_
      refine Spec.bind (good₈.run (keepsPages_updateRootPageId _)) fun _ s₉ good₉ => ?_
      exact (good₉.run (keepsPages_unpinPage _ _)).post fun _ _ => And.left
    · refine Spec.bind ((Good.refl within₂).run (keepsPages_fetchPage _ _)) fun _ s₃ good₃ => ?_
      refine Spec.bind (good₃.run (keepsPages_setParentPageId _ _)) fun _ s₄ good₄ => ?_
      refine spec_getInternal_bind (fun _ => good₄.1) fun parent content => ?_
      refine spec_bind_lift (fun _ _ => good₄.1) fun parent' inserted => ?_
      have c := InternalPage.insertNodeAfter_contained (V := V) inserted
      refine Spec.bind ((Good.refl good₄.1).setPage (content ▸ c)) fun _ s₅ good₅ => ?_
      split_ifs
      · refine Spec.bind (good₅.1.step (staysWithin_split _ _)) fun p s₆ within₆ => ?_
        refine spec_getInternal_bind (fun _ => within₆) fun page _ => ?_
        refine spec_bind_lift (fun _ _ => within₆) fun first _ => ?_
        refine Spec.bind (within₆.step (ih _ _ _ _)) fun _ s₇ within₇ => ?_
        exact within₇.step (staysWithin_steps.unpinPage _ _)
      · exact good₅.1.step (staysWithin_steps.unpinPage _ _)

theorem staysWithin_insertIntoLeaf (key : K) (value : V) (transaction : Bool) :
    Keeps (StaysWithin tree.keySize)
      (tree.insertIntoLeaf key value transaction : TreeM K V Bool) := by
  refine (staysWithin_steps.findLeafPage tree _ _ _ _).bind fun found => ?_
  cases found with
  | none => exact keeps_throw _
  | some leaf =>
    apply staysWithin_of_spec
    intro s within
    refine spec_getLeaf_bind (fun _ => within) fun page content => ?_
    have free (s' : TreeState K V) (within' : Within tree.keySize s') (r : Bool) :
        Spec (do freePagesInTransaction true transaction; return r) s'
          (fun _ => Within tree.keySize) fun _ => Within tree.keySize :=
      Spec.bind (within'.step (staysWithin_steps.freePagesInTransaction _ _ _)) fun _ _ h => spec_pure h
    split_ifs
    · exact free s within false
    · refine spec_bind_lift (fun _ _ => within) fun page' inserted => ?_
      have c := LeafPage.insert_contained inserted
      refine Spec.bind ((Good.refl within).setPage (content ▸ c)) fun _ s₁ good₁ => ?_
      dsimp only
      split_ifs
      · refine Spec.bind_eq rfl ?_
        refine Spec.bind (good₁.1.step (staysWithin_split _ _)) fun p s₂ within₂ => ?_
        refine spec_getLeaf_bind (fun _ => within₂) fun page _ => ?_
        refine spec_bind_lift (fun _ _ => within₂) fun first _ => ?_
        refine Spec.bind (within₂.step (staysWithin_insertIntoParent _ _ _ _ _))
          fun _ s₃ within₃ => free s₃ within₃ true
      · exact free s₁ good₁.1 true

theorem staysWithin_insert (key : K) (value : V) (transaction : Bool) :
    Keeps (StaysWithin tree.keySize) (tree.insert key value transaction : TreeM K V Bool) := by
  refine (staysWithin_steps.lockRootPageId _).bind fun _ => keeps_read.bind fun s => ?_
  split_ifs
  · exact (staysWithin_startNewTree _ _).bind fun _ =>
      (staysWithin_steps.tryUnlockRootPageId _).bind fun _ => keeps_pure _
  · exact (staysWithin_steps.tryUnlockRootPageId _).bind fun _ =>
      staysWithin_insertIntoLeaf _ _ _

/-! ## Merges -/

omit [Inhabited K] [Inhabited V]

theorem staysWithin_findLeftSibling (node : PageId) (transaction : Bool) :
    Keeps (StaysWithin tree.keySize)
      (tree.findLeftSibling node transaction : TreeM K V (Bool × PageId)) := by
  refine (staysWithin_steps.getTreePage _).bind fun page => ?_
  refine (staysWithin_steps.fetchPage _).bind fun _ => ?_
  refine (staysWithin_steps.getInternal _).bind fun parent => ?_
  refine (keeps_lift _).bind fun sibling => ?_
  refine (staysWithin_steps.crabingProtocalFetchPage _ _ _ _).bind fun _ => ?_
  exact (staysWithin_steps.unpinPage _ _).bind fun _ => keeps_pure _

theorem staysWithin_coalesce {up : PageId → TreeM K V Bool}
    (hup : ∀ p, Keeps (StaysWithin tree.keySize) (up p)) (neighborNode node parent : PageId)
    (index : ℤ) (transaction : Bool) :
    Keeps (StaysWithin tree.keySize)
      (tree.coalesce up neighborNode node parent index transaction : TreeM K V Bool) := by
  refine (staysWithin (keepsPages_moveAllTo _ _ _)).bind fun _ => ?_
  refine (staysWithin_steps.getTreePage _).bind fun page => ?_
  refine (staysWithin (keepsPages_addIntoDeletedPageSet _ _)).bind fun _ => ?_
  apply staysWithin_of_spec
  intro s within
  refine spec_getInternal_bind (fun _ => within) fun parentPage content => ?_
  have fits := within.1 parent
  rw [content] at fits
  refine spec_bind_lift (fun _ _ => within) fun page' removed => ?_
  have c := InternalPage.remove_contained (V := V) fits removed
  refine Spec.bind ((Good.refl within).setPage (content ▸ c)) fun _ s₁ good₁ => ?_
  split_ifs
  · exact good₁.1.step (hup parent)
  · exact spec_pure good₁.1

theorem staysWithin_coalesceOrRedistribute (fuel : ℕ) : ∀ (node : PageId) (transaction : Bool),
    Keeps (StaysWithin tree.keySize)
      (tree.coalesceOrRedistribute fuel node transaction : TreeM K V Bool) := by
  induction fuel with
  | zero => exact fun _ _ => keeps_throw _
  | succ fuel ih =>
    intro node transaction
    refine (staysWithin_steps.getTreePage _).bind fun page => ?_
    split_ifs
    · refine (staysWithin (keepsPages_adjustRoot _)).bind fun delOldRoot => ?_
      split_ifs
      · exact (staysWithin (keepsPages_addIntoDeletedPageSet _ _)).bind fun _ => keeps_pure _
      · exact keeps_pure _
    · refine (staysWithin_findLeftSibling _ _).bind fun found => ?_
      refine (staysWithin_steps.fetchPage _).bind fun _ => ?_
      refine (staysWithin_steps.getTreePage _).bind fun near => ?_
      refine (staysWithin_steps.getInternal _).bind fun parentPage => ?_
      split_ifs
      · exact (staysWithin_coalesce (fun p => ih p transaction) _ _ _ _ _).bind fun _ =>
          (staysWithin_steps.unpinPage _ _).bind fun _ => keeps_pure _
      · exact (staysWithin_coalesce (fun p => ih p transaction) _ _ _ _ _).bind fun _ =>
          (staysWithin_steps.unpinPage _ _).bind fun _ => keeps_pure _
      · exact (staysWithin (keepsPages_redistribute _ _ _)).bind fun _ =>
          (staysWithin_steps.unpinPage _ _).bind fun _ => keeps_pure _

theorem staysWithin_remove (key : K) (transaction : Bool) :
    Keeps (StaysWithin tree.keySize) (tree.remove key transaction : TreeM K V Unit) := by
  refine keeps_read.bind fun s => ?_
  split_ifs
  · exact keeps_pure _
  refine (staysWithin_steps.findLeafPage tree _ _ _ _).bind fun found => ?_
  cases found with
  | none => exact keeps_throw _
  | some tar =>
    apply staysWithin_of_spec
    intro s within
    refine spec_getLeaf_bind (fun _ => within) fun page content => ?_
    have fits := within.1 tar
    rw [content] at fits
    have removed : Contained tree.keySize (.leaf page)
        (.leaf (page.removeAndDeleteRecord tree.comparator key)) :=
      LeafPage.remove_contained fits
    refine Spec.bind ((Good.refl within).setPage (content ▸ removed)) fun _ s₁ good₁ => ?_
    split_ifs
    · refine Spec.bind_eq rfl ?_
      refine Spec.bind (good₁.1.step (staysWithin_coalesceOrRedistribute _ _ _))
        fun _ s₂ within₂ => ?_
      exact within₂.step (staysWithin_steps.freePagesInTransaction _ _ _)
    · exact good₁.1.step (staysWithin_steps.freePagesInTransaction _ _ _)

/-! ## Whole calls -/

section Tree

variable {d : ℕ} {t : BTree K V d} {content : PageId → IndexPage K V} {parent : PageId}

/-- The pages of a tree hold at most their maximum. -/
theorem inCapacity_of_rep : ∀ {d : ℕ} {t : BTree K V d} {parent : PageId}, t.Rep n content parent →
    t.Fits n → ∀ p ∈ t.ids, (content p).InCapacity n
  | 0, t, parent, rep, fits, p, hp => by
    obtain rfl := Multiset.mem_singleton.1 hp
    obtain ⟨page, hc, holds⟩ := rep
    rw [hc]
    have slots := n.leafMax_add_one
    have := holds.size.trans_le fits
    show page.size ≤ n.leafSlots
    omega
  | d + 1, t, parent, rep, fits, p, hp => by
    obtain rfl | hp := Multiset.mem_cons.1 hp
    · obtain ⟨⟨page, hc, holds⟩, -⟩ := rep
      rw [hc]
      have slots := n.internalMax_add_one
      have size := holds.size
      have := fits.1
      rw [List.length_map] at size
      show page.size ≤ n.internalSlots
      omega
    · obtain ⟨x, hx, hp⟩ := BTree.mem_slotIds.1 hp
      exact inCapacity_of_rep (rep.2 x hx) (fits.2 x hx) p hp

end Tree

variable [LinearOrder K] {v : View K V} {t : Option (Σ d, BTree K V d)}

theorem Stored.inCapacity (h : Stored tree v s t) :
    ∀ p ∈ pages t, (s.pool.content p).InCapacity tree.keySize := by
  intro p hp
  cases t with
  | none => cases hp
  | some t =>
    obtain ⟨-, focus, wf⟩ := h.stores
    have pos := (focus.bound p (Multiset.mem_add.2 (.inr hp))).1
    rw [h.state.content p pos.ne']
    exact inCapacity_of_rep focus.sub wf.sized.fits p hp

/-- `Insert` and `Remove` write only slots their pages have, none of their assertions fails, and no
page is left overfull. -/
theorem writes_inside [Inhabited K] [Inhabited V] (orders : Orders tree.comparator)
    (h : Stored tree v s t) (outside : ∀ p, p ∉ pages t → (s.pool.content p).InCapacity tree.keySize)
    (k : K) (value : V) :
    Spec (tree.insert k value true) s.fresh (fun _ s' => Within tree.keySize s')
      (fun e s' => e = .overflow ∧ s'.pool.nextPageId = 2147483647 ∧ Within tree.keySize s') ∧
    Spec (tree.remove k true) s.fresh (fun _ s' => Within tree.keySize s') fun _ _ => False := by
  have start := (h.exclusive true).fresh
  have within : Within tree.keySize s.fresh := by
    refine ⟨fun p => ?_, nofun⟩
    by_cases hp : p ∈ pages t
    · exact h.inCapacity p hp
    · exact outside p hp
  constructor
  · apply ((start.insert_settled orders rfl k value).and
      (within.step (staysWithin_insert k value true))).mono
    · exact fun _ s' both => both.2
    · exact fun e s' both => ⟨both.1.overflow, both.1.next, both.2⟩
  · apply ((start.remove_settled (E := fun _ _ => False) orders rfl k).and
      (within.step (staysWithin_remove k true))).mono
    · exact fun _ s' both => both.2
    · exact fun e s' both => both.1

theorem writes_inside_threeLeaves :
    Spec (ofWideInts.insert 15 ⟨15, 0⟩ true) threeLeavesState.fresh
      (fun _ s' => Within .sixtyFour s')
      (fun e s' => e = .overflow ∧ s'.pool.nextPageId = 2147483647 ∧ Within .sixtyFour s') ∧
    Spec (ofWideInts.remove 1 true) threeLeavesState.fresh (fun _ s' => Within .sixtyFour s')
      fun _ _ => False := by
  obtain ⟨v, stored⟩ := stored_threeLeaves
  have outside : ∀ p, p ∉ pages (some ⟨1, threeLeaves⟩) →
      (threeLeavesState.pool.content p).InCapacity ofWideInts.keySize := by
    intro p out
    -- no page is stored under an id that is not one of the tree
    have absent : (threeLeaves.pages ofWideInts.keySize invalidPageId).lookup p = none := by
      rw [List.lookup_eq_none_iff]
      intro x hx
      have ids : (((threeLeaves.pages ofWideInts.keySize invalidPageId).map Prod.fst : List PageId) :
          Multiset PageId) = threeLeaves.ids := BTree.fst_pages
      have mem : x.1 ∈ threeLeaves.ids := by
        rw [← ids]
        exact List.mem_map_of_mem hx
      have ne : p ≠ x.1 := fun e => out (e ▸ mem)
      simpa using ne
    unfold threeLeavesState
    simp only [TreeState.holding, absent, Option.getD_none]
    split_ifs <;> trivial
  obtain ⟨insert, -⟩ := writes_inside orders_ofWideInts stored outside 15 ⟨15, 0⟩
  obtain ⟨-, remove⟩ := writes_inside orders_ofWideInts stored outside 1 ⟨1, 0⟩
  exact ⟨insert, remove⟩

end BPlusTree

end ScuDb
