import ScuDb.Index.PointQuery
import ScuDb.Index.IndexIterator
import ScuDb.Index.RemoveStored
import ScuDb.Index.RemovedLeaves
import ScuDb.Lib.Runs

/-!
# A scan beside removals

An iterator goes along the leaf chain while others remove keys.  Behind the last entry of a leaf
`operator++` gives the leaf back before it latches the next page, and a removal between the two can
delete that page, or move an entry into it or out of it.
-/

namespace ScuDb

open Program BTree Context

variable {K V : Type}

namespace BPlusTree

variable (tree : BPlusTree K)

/-- `Remove` of the key leaves too few entries in the leaf page `p`. -/
def leafTooSmall (s : TreeState K V) (key : K) (p : PageId) : Bool :=
  match s.pool.content p with
  | .leaf page =>
    let page := page.removeAndDeleteRecord tree.comparator key
    page.size < page.getMinSize true
  | _ => false

/-- `Remove` of the key leaves too few entries in the leaf `p`, which is paired with the page on its
left, or in the first child of the parent of `p`, which is paired with the second one. -/
def crosses (s : TreeState K V) (key : K) (p : PageId) : Bool :=
  match s.pool.content p with
  | .leaf page =>
    match s.pool.content page.parentPageId with
    | .internal parent =>
      (0 < parent.valueIndex p && tree.leafTooSmall s key p) ||
        (parent.valueIndex p = 1 && tree.leafTooSmall s key (parent.array 0).2)
    | _ => false
  | _ => false

variable [LinearOrder K] {tree : BPlusTree K} {v : View K V} {s : TreeState K V} {k : K}
  {c : Context K V 0} {leaf : LeafNode K V}

omit [LinearOrder K] in
theorem leafTooSmall_of_focus (h : At tree v s) (focus : Focus tree.keySize v (d := 0) c leaf)
    (small : (leaf.erased tree.comparator k).entries.length < c.minSize tree.keySize) :
    tree.leafTooSmall s k leaf.id = true := by
  obtain ⟨page, hc, holds⟩ := focus.sub
  have content : s.pool.content leaf.id = .leaf page := (h.content _ focus.pageId_ne_header).trans hc
  have holds' : (page.removeAndDeleteRecord tree.comparator k).Holds tree.keySize c.parentId
      (leaf.erased tree.comparator k) := holds.remove
  have min := BPlusTreePage.Is.getMinSize (d := 0) holds'.fields
  rw [Context.minSize_eq fun p hp => (focus.bound p (Multiset.mem_add.2 (.inl hp))).1] at min
  unfold leafTooSmall
  rw [content]
  simp only [decide_eq_true_eq]
  rw [holds'.size]
  exact small.trans_eq min.symm

omit [LinearOrder K] in
/-- The pages of the pair that a removal links anew. -/
theorem crosses_of_focus (h : At tree v s) (focus : Focus tree.keySize v (d := 0) c leaf)
    {p : PageId} (crosses : c.Crosses tree.keySize (leaf.erased tree.comparator k) p) :
    tree.crosses s k p = true := by
  obtain ⟨small, page, l, r, ka, kb, a, b, above, beside, rfl⟩ := crosses
  have few := leafTooSmall_of_focus h focus small
  have id : (leaf.erased tree.comparator k).id = leaf.id := leaf.id_erased tree.comparator k
  obtain ⟨rfl, rfl, rfl⟩ | ⟨rfl, rfl⟩ := beside
  · -- the leaf is the first child
    obtain ⟨pos, parent, hp, holds, -⟩ := Focus.parent focus
    obtain ⟨right, hr, fields⟩ := focus.rep.2.1 (kb, b) List.mem_cons_self
    have inside : b.id ∈ (frame page [] ka ((kb, b) :: r) above).ids := by
      have : b.id ∈ slotIds ((kb, b) :: r) :=
        mem_slotIds.2 ⟨(kb, b), List.mem_cons_self, pageId_mem_ids (d := 0) b⟩
      simp [Context.ids, this]
    have ne : b.id ≠ headerPageId := focus.ne_header (Multiset.mem_add.2 (.inl inside))
    have other : leaf.id ≠ b.id := by
      intro same
      apply focus.pageId_notMem
      exact Eq.subst same.symm inside
    have index : parent.valueIndex b.id = 1 := by
      have holds' : parent.Holds tree.keySize page above.parentId
          ([(ka, leaf.id)] ++ (kb, b.id) :: r.map toSlot) := holds
      simpa using holds'.valueIndex (by simpa using other)
    have first : parent.array 0 = (ka, leaf.id) := holds.array (i := 0) (by simp)
    have parentId : right.parentPageId = page := fields.fields.parentPageId
    unfold BPlusTree.crosses
    rw [h.content _ ne, hr]
    simp only
    rw [parentId, h.content _ pos, hp]
    simp only
    rw [index, first, few]
    simp
  · -- the leaf has a left neighbour
    obtain ⟨pos, parent, hp, holds, index⟩ := Focus.parent focus
    obtain ⟨right, hr, fields⟩ := focus.sub
    have parentId : right.parentPageId = page := fields.fields.parentPageId
    rw [id]
    unfold BPlusTree.crosses
    rw [show s.pool.content leaf.id = _ from h.content _ focus.pageId_ne_header, hr]
    simp only
    rw [parentId, h.content _ pos, hp]
    simp only
    rw [show parent.valueIndex leaf.id = _ from index, few]
    simp

end BPlusTree

namespace IndexIterator

open BPlusTree

variable [LinearOrder K] {tree : BPlusTree K} {v : View K V} {s : TreeState K V} {k : K}
  {t : Option (Σ d, BTree K V d)} {leaf : LeafNode K V} {l r : List (LeafNode K V)}

/-- A removal beside an iterator leaves its leaf alone, or waits for it. -/
theorem On.remove (orders : Orders tree.comparator) (h : On tree v s t l leaf r) (k : K) :
    Spec (tree.remove k true) s (fun _ s' => ∃ v' t' l' r', On tree v' s' t' l' leaf r' ∧
      contents t' = (contents t).filter (fun e => e.1 ≠ k) ∧
      leaf.entries.filter (fun e => e.1 ≠ k) = leaf.entries ∧
      r'.flatMap LeafNode.entries = (r.flatMap LeafNode.entries).filter fun e => e.1 ≠ k)
      fun e _ => e = .blocked := by
  cases t with
  | none => simpa [leafChain] using h.leaves
  | some t =>
    obtain ⟨d, t⟩ := t
    obtain ⟨-, focus, wf⟩ := id h.stores
    set v₁ : View K V := { v with
      exclusive := true
      pins := leaf.id ::ₘ v.pins
      base := Function.update v.base leaf.id (.taken false) } with hv₁
    have rest₁ : v₁.AtRest := ⟨h.rest.held, h.rest.opened, h.rest.rootHeld, h.rest.deleted⟩
    have h₁ : At tree v₁ s := h.reads.exclusive ⟨h.rest.held, h.rest.opened, h.rest.rootHeld,
      h.rest.deleted⟩ true
    have taken : v₁.base leaf.id ≠ {} := by simp [hv₁, Latch.taken]
    have w : v₁.Writing := by
      refine ⟨rfl, h.rest.opened, fun p le => ?_, by simp [hv₁, h.rest.held]⟩
      have inside := (focus.sub.leaf h.mem).1
      have lt := (focus.bound leaf.id (Multiset.mem_add.2 (.inr inside))).2
      have ne : p ≠ leaf.id := (lt.trans_le le).ne'
      exact (Function.update_of_ne ne _ _).trans (h.free p)
    have waits (p : PageId) : v₁.Waits (fun e (_ : TreeState K V) => e = .blocked) p := fun _ _ => rfl
    obtain ⟨c, there, plug, covers, -, rule⟩ :=
      h₁.remove_stores orders w rest₁ (h.stores.congr rfl rfl rfl) k waits
    apply rule.post
    rintro _ s' ⟨v', t', results, h', stores', reaches, removed, binds, -, settled, -⟩
    -- the leaf takes no part in the removal
    have other : leaf.id ≠ there.id := fun same => taken (same ▸ reaches.1)
    have siblings (small : (there.erased tree.comparator k).entries.length < c.minSize tree.keySize)
        (u : LeafNode K V) (hu : u ∈ c.sibling) : leaf.id ≠ u.id := fun same =>
      taken (same ▸ reaches.2 small u hu)
    have apart : ¬ c.Crosses tree.keySize (there.erased tree.comparator k) leaf.id := by
      rintro ⟨small, page, l, r, ka, kb, a, b, above, beside, id⟩
      obtain ⟨-, right⟩ | ⟨here, -⟩ := beside.sibling_eq
      · exact siblings small b right id.symm
      · have same : b.id = there.id :=
          (congrArg LeafNode.id here).symm.trans (there.id_erased tree.comparator k)
        exact other (id.symm.trans same)
    obtain ⟨l', m, r', chain, -, -, entries, keeps⟩ :=
      removed.behind orders wf plug covers h.leaves (.inr other) apart
    obtain rfl := keeps other siblings
    have absent := congrArg LeafNode.entries ((leaves_erased orders wf plug covers).2 m h.mem other)
    refine ⟨{ v' with pins := v.pins, base := v.base }, t', l', r', ?_, binds, absent, ?_⟩
    · refine ⟨chain, stores'.congr rfl rfl rfl, ⟨settled.rest.held, settled.rest.opened,
        settled.rest.rootHeld, settled.rest.deleted⟩, h.free, ?_⟩
      have pins : v'.pins = m.id ::ₘ v.pins := settled.pins
      have base : v'.base = Function.update v.base m.id (.taken false) := settled.base
      have reads := h'.exclusive settled.rest false
      convert reads using 2
      · exact pins.symm
      · exact base.symm
    · rw [List.flatMap_cons, List.flatMap_cons, List.filter_append,
        show m.entries.filter (fun e => e.1 ≠ k) = m.entries from absent] at entries
      exact List.append_cancel_left entries

theorem Remaining.stored {it : IndexIterator} {rest : List (K × V)}
    (h : Remaining tree v t it s rest) (atEnd : it.isEnd = true) : Stored tree v s t := by
  cases h with
  | atEnd stored => exact stored
  | on => cases atEnd

/-- What a removal takes away from a scan, if it does not link the page anew that the scan is about to
latch. -/
theorem Ready.remove (orders : Orders tree.comparator) {cursor : Cursor} {rest : List (K × V)}
    (h : Ready tree v t cursor s rest) (k : K)
    (apart : ∀ p, cursor = .between p → tree.crosses s k p = false) :
    Spec (tree.remove k true) s (fun _ s' => ∃ v' t',
      Ready tree v' t' cursor s' (rest.filter fun e => e.1 ≠ k) ∧
      contents t' = (contents t).filter fun e => e.1 ≠ k) fun e _ => e = .blocked := by
  cases h with
  | on remaining =>
    cases remaining with
    | atEnd stored =>
      cases t with
      | none =>
        apply stored.remove_empty.post
        rintro _ _ rfl
        exact ⟨v, none, .on (.atEnd stored), rfl⟩
      | some t =>
        apply ((stored.exclusive true).remove_rule orders rfl k).post
        rintro _ s' ⟨v', t', results, stored', binds, -⟩
        exact ⟨v', t', .on (.atEnd stored'), binds⟩
    | @on l r leaf i _ on inside =>
      apply (on.remove orders k).post
      rintro _ s' ⟨v', t', l', r', on', binds, absent, entries⟩
      refine ⟨v', t', ?_, binds⟩
      have here : (leaf.entries.drop i).filter (fun e => e.1 ≠ k) = leaf.entries.drop i :=
        List.filter_eq_self.2 fun e he => List.filter_eq_self.1 absent e (List.mem_of_mem_drop he)
      rw [List.filter_append, here, ← entries]
      exact .on (.on on' inside)
  | @between p _ _ stored resumes =>
    obtain ⟨l, m, r, leaves, inner, rfl, rfl⟩ := resumes
    cases t with
    | none => simp [leafChain] at leaves
    | some t =>
      obtain ⟨c, leaf, plug, covers, focus, rule⟩ := (stored.exclusive true).remove_leaf orders rfl k
        (E := fun e _ => e = .blocked)
      apply rule.post
      rintro _ s' ⟨v', t', results, stored', removed, binds, -⟩
      have apart' : ¬ c.Crosses tree.keySize (leaf.erased tree.comparator k) m.id := fun crosses =>
        absurd (crosses_of_focus (stored.exclusive true).state focus crosses) (by simp [apart m.id rfl])
      obtain ⟨l', m', r', chain, id, inner', entries, -⟩ :=
        removed.behind orders stored.stores.2.2 plug covers leaves (.inl inner) apart'
      exact ⟨v', t', .between stored' ⟨l', m', r', chain, inner' inner, id, entries.symm⟩, binds⟩

end IndexIterator

/-! ## Runs -/

/-- The state of an index, the cursor of a scan, and the entries that the scan has delivered. -/
structure Scan (K V : Type) where
  tree : TreeState K V
  cursor : IndexIterator.Cursor
  yielded : List (K × V) := []

namespace Scan

open BPlusTree IndexIterator

/-- The kinds of steps. -/
inductive Action (K : Type)
  | next
  | enter
  | remove (key : K)

/-- A step of the scan, or a whole `Remove` of another thread.  A `Remove` that has to wait for the
leaf of the iterator has no step, and an iterator at the end has none. -/
inductive Step (tree : BPlusTree K) (c : Scan K V) : Action K → Scan K V → Prop
  /-- `operator*`, and `operator++` up to the release of the leaf -/
  | next {it : IndexIterator} {entry : K × V} {cursor : Cursor} {s s' : TreeState K V}
      (on : c.cursor = .on it) (item : it.item tree.keySize c.tree = (.ok entry, s))
      (leave : it.leave s = (.ok cursor, s')) :
      Step tree c .next ⟨s', cursor, c.yielded ++ [entry]⟩
  /-- `operator++` from the fetch of the next page on -/
  | enter {p : PageId} {it : IndexIterator} {s : TreeState K V} (between : c.cursor = .between p)
      (run : enter p c.tree = (.ok it, s)) : Step tree c .enter ⟨s, .on it, c.yielded⟩
  | remove {key : K} {s : TreeState K V} (run : tree.remove key true c.tree = (.ok (), s)) :
      Step tree c (.remove key) ⟨s, c.cursor, c.yielded⟩

/-- A removal while the scan is between two leaves does not link the second one anew to the page on its
left. -/
def Apart (tree : BPlusTree K) (c : Scan K V) : Action K → Prop
  | .remove key => ∀ p, c.cursor = .between p → tree.crosses c.tree key p = false
  | _ => True

instance (tree : BPlusTree K) (c : Scan K V) (a : Action K) : Decidable (c.Apart tree a) :=
  match a with
  | .next | .enter => isTrue trivial
  | .remove key =>
    match h : c.cursor with
    | .on it => isTrue (by simp [Apart, h])
    | .between p => decidable_of_iff (tree.crosses c.tree key p = false) (by simp [Apart, h])

/-- Any step. -/
def Next (tree : BPlusTree K) (c c' : Scan K V) : Prop := ∃ a, Step tree c a c'

/-- A step that leaves the two leaves alone between which the scan is. -/
def CarefulNext (tree : BPlusTree K) (c c' : Scan K V) : Prop :=
  ∃ a, Step tree c a c' ∧ c.Apart tree a

variable [LinearOrder K]

/-- How a scan starts, and the keys it is about: `Begin()`, or `Begin(key)` if the leaf of the key has
an entry that is not below it. -/
inductive Begins [Inhabited K] (tree : BPlusTree K) (t : Option (Σ d, BTree K V d)) :
    TreeM K V IndexIterator → (K → Prop) → Prop
  | atFirst : Begins tree t tree.begin fun _ => True
  | atKey {key : K} (ahead : Ahead key t) : Begins tree t (tree.beginAt key) (key ≤ ·)

/-- The page that is latched next is a leaf of the tree, no key is delivered twice, and at the end
every key that is still there was delivered. -/
structure Sound [Inhabited V] (tree : BPlusTree K) (ahead : K → Prop) (c : Scan K V) : Prop where
  latched : ∀ p, c.cursor = .between p →
    ∃ v t, Stored tree v c.tree t ∧ ∃ leaf ∈ leafChain t, leaf.id = p
  once : (c.yielded.map Prod.fst).Nodup
  all : ∀ it, c.cursor = .on it → it.isEnd = true → ∀ key, ahead key → ∀ values s,
    tree.getValue key [] true c.tree = (.ok (true, values), s) →
    ∃ value, values = [value] ∧ (key, value) ∈ c.yielded

/-- What a scan that started behind the keys not in `ahead` has still to deliver. -/
structure Tracks (tree : BPlusTree K) (ahead : K → Prop) (c : Scan K V) (v : View K V)
    (t : Option (Σ d, BTree K V d)) (rest : List (K × V)) : Prop where
  ready : Ready tree v t c.cursor c.tree rest
  sorted : ((c.yielded ++ rest).map Prod.fst).Pairwise (· < ·)
  covers : ∀ e ∈ contents t, ahead e.1 → e ∈ c.yielded ++ rest

section Tracks

variable {tree : BPlusTree K} {ahead : K → Prop} {c c' : Scan K V} {v : View K V}
  {t : Option (Σ d, BTree K V d)} {rest : List (K × V)} {a : Action K}

/-- What one step preserves. -/
theorem Tracks.step (orders : Orders tree.comparator) (h : Tracks tree ahead c v t rest)
    (apart : c.Apart tree a) (step : Step tree c a c') :
    ∃ v' t' rest', Tracks tree ahead c' v' t' rest' := by
  obtain ⟨ready, sorted, covers⟩ := h
  cases step with
  | @next it entry cursor s s' on item leave =>
    rw [on] at ready
    cases ready with
    | on remaining =>
      cases rest with
      | nil =>
        have none : it.leafPage = none := Option.isNone_iff_eq_none.1 remaining.isEnd
        unfold IndexIterator.item at item
        rw [none] at item
        cases item
      | cons entry' rest =>
        obtain ⟨item', rule⟩ := remaining.leave (E := fun _ _ => True)
        obtain ⟨rfl, rfl⟩ : entry = entry' ∧ s = c.tree := by
          rw [item'] at item
          cases item
          exact ⟨rfl, rfl⟩
        have all : c.yielded ++ [entry] ++ rest = c.yielded ++ entry :: rest := by simp
        exact ⟨v, t, rest, rule.of_ok leave, by rwa [all], by rwa [all]⟩
  | @enter p it s between run =>
    rw [between] at ready
    cases ready with
    | between stored resumes =>
      have remaining := (enter_rule (E := fun _ _ => True) stored resumes).of_ok run
      exact ⟨v, t, rest, .on remaining, sorted, covers⟩
  | @remove key s run =>
    obtain ⟨v', t', ready', binds⟩ := (ready.remove orders key apart).of_ok run
    have sub : (c.yielded ++ rest.filter fun e => e.1 ≠ key).Sublist (c.yielded ++ rest) :=
      List.filter_sublist.append_left _
    refine ⟨v', t', _, ready', sorted.sublist (sub.map _), fun e he from' => ?_⟩
    rw [binds, List.mem_filter] at he
    obtain old | new := List.mem_append.1 (covers e he.1 from')
    · exact List.mem_append_left _ old
    · exact List.mem_append_right _ (List.mem_filter.2 ⟨new, he.2⟩)

theorem Tracks.sound [Inhabited V] (orders : Orders tree.comparator)
    (h : Tracks tree ahead c v t rest) : Sound tree ahead c := by
  obtain ⟨ready, sorted, covers⟩ := h
  refine ⟨fun p between => ?_, ?_, fun it on atEnd key from' values s found => ?_⟩
  · rw [between] at ready
    cases ready with
    | between stored resumes =>
      obtain ⟨l, leaf, r, leaves, -, id, -⟩ := resumes
      exact ⟨v, t, stored, leaf, by simp [leaves], id⟩
  · rw [List.map_append] at sorted
    exact (List.pairwise_append.1 sorted).1.imp ne_of_lt
  · rw [on] at ready
    cases ready with
    | on remaining =>
      have stored := remaining.stored atEnd
      obtain rfl : rest = [] := List.isEmpty_iff.1 (remaining.isEnd.symm.trans atEnd)
      rw [List.append_nil] at covers
      cases t with
      | none =>
        obtain ⟨same, -⟩ := (stored.getValue_empty []).of_ok found
        cases same
      | some t =>
        obtain ⟨value, mem, rule⟩ := stored.getValue_rule (k := key) orders true []
        obtain ⟨same, -⟩ := rule.of_ok found
        cases value with
        | none => cases same
        | some x =>
          obtain ⟨-, rfl⟩ := Prod.mk.inj same
          exact ⟨x, rfl, covers (key, x) ((mem x).1 rfl) from'⟩

end Tracks

/-- The iterator that a scan starts with has all the entries that the scan is about before it. -/
theorem Begins.tracks [Inhabited K] {tree : BPlusTree K} {v : View K V} {s s₁ : TreeState K V}
    {t : Option (Σ d, BTree K V d)} {start : TreeM K V IndexIterator} {ahead : K → Prop}
    {it : IndexIterator} (orders : Orders tree.comparator) (stored : Stored tree v s t)
    (begins : Begins tree t start ahead) (run : start s = (.ok it, s₁)) :
    ∃ rest, Tracks tree ahead ⟨s₁, .on it, []⟩ v t rest := by
  have sorted := stored.stores.sorted
  cases begins with
  | atFirst =>
    have remaining := (begin_rule (E := fun _ _ => True) stored).of_ok run
    exact ⟨_, .on remaining, sorted, fun e he _ => he⟩
  | atKey inside =>
    have remaining := (beginAt_remaining (E := fun _ _ => True) orders stored inside).of_ok run
    refine ⟨_, .on remaining, sorted.sublist (List.filter_sublist.map _), fun e he le => ?_⟩
    exact List.mem_filter.2 ⟨he, by simpa using le⟩

/-- A scan beside removals latches leaves of the tree only, and delivers every key that stays exactly
once, if no removal links the page anew that the scan is about to latch. -/
theorem reachable_delivers [Inhabited K] [Inhabited V] {tree : BPlusTree K} {v : View K V}
    {s s₁ : TreeState K V} {t : Option (Σ d, BTree K V d)} {start : TreeM K V IndexIterator}
    {ahead : K → Prop} {it : IndexIterator} {c : Scan K V} (orders : Orders tree.comparator)
    (stored : Stored tree v s t) (begins : Begins tree t start ahead) (run : start s = (.ok it, s₁))
    (reach : Relation.ReflTransGen (CarefulNext tree) ⟨s₁, .on it, []⟩ c) : Sound tree ahead c := by
  have tracks : ∃ v t rest, Tracks tree ahead c v t rest := by
    induction reach with
    | refl =>
      obtain ⟨rest, tracks⟩ := begins.tracks orders stored run
      exact ⟨v, t, rest, tracks⟩
    | tail _ next ih =>
      obtain ⟨a, step, apart⟩ := next
      obtain ⟨v, t, rest, tracks⟩ := ih
      exact tracks.step orders apart step
  obtain ⟨v, t, rest, tracks⟩ := tracks
  exact tracks.sound orders

/-! ### Runs of given steps -/

omit [LinearOrder K] in
/-- The step of a kind, if it is there. -/
def exec (tree : BPlusTree K) (c : Scan K V) : Action K → Option (Scan K V)
  | .next =>
    match c.cursor with
    | .on it =>
      match it.item tree.keySize c.tree with
      | (.ok entry, s) =>
        match it.leave s with
        | (.ok cursor, s') => some ⟨s', cursor, c.yielded ++ [entry]⟩
        | _ => none
      | _ => none
    | _ => none
  | .enter =>
    match c.cursor with
    | .between p =>
      match enter p c.tree with
      | (.ok it, s) => some ⟨s, .on it, c.yielded⟩
      | _ => none
    | _ => none
  | .remove key =>
    match tree.remove key true c.tree with
    | (.ok _, s) => some ⟨s, c.cursor, c.yielded⟩
    | _ => none

omit [LinearOrder K] in
theorem step_of_exec {tree : BPlusTree K} {c c' : Scan K V} {a : Action K}
    (h : exec tree c a = some c') : Step tree c a c' := by
  cases a with
  | next =>
    simp only [exec] at h
    split at h
    · next on =>
      split at h
      · next item =>
        split at h
        · next leave =>
          cases h
          exact .next on item leave
        · cases h
      · cases h
    · cases h
  | enter =>
    simp only [exec] at h
    split at h
    · next between =>
      split at h
      · next run =>
        cases h
        exact .enter between run
      · cases h
    · cases h
  | remove key =>
    simp only [exec] at h
    split at h
    · next run =>
      cases h
      exact .remove run
    · cases h

/-! ### A scan of three leaves -/

/-- A scan behind `Begin()`. -/
def begun : Scan ℤ RID where
  tree := (ofWideInts.begin threeLeavesState).2
  cursor := .on ⟨some 1, 0⟩

theorem begin_threeLeaves :
    ofWideInts.begin threeLeavesState = (.ok ⟨some 1, 0⟩, begun.tree) := by
  have first : (ofWideInts.begin threeLeavesState).1.toOption = some ⟨some 1, 0⟩ := by decide +kernel
  refine Prod.ext ?_ rfl
  cases result : (ofWideInts.begin threeLeavesState).1 with
  | error e =>
    rw [result] at first
    cases first
  | ok it =>
    rw [result] at first
    cases first
    rfl

/-- Keys are removed from the leaf that is latched next, from the leaf behind the iterator's, and from
the leaf that the scan has just left, which is merged into the first one. -/
def removals : List (Action ℤ) :=
  [.next, .next, .remove 6, .enter, .remove 13, .next, .next, .remove 5, .enter, .next, .next, .next,
    .next]

/-- The scan ends with the keys that stayed, and with the key 5, which it had delivered before. -/
theorem reachable_delivers_removals : ∃ c : Scan ℤ RID,
    Relation.ReflTransGen (CarefulNext ofWideInts) begun c ∧ Sound ofWideInts (fun _ => True) c ∧
      c.cursor = .on ⟨none, 4⟩ ∧
      c.yielded = [row 1, row 2, row 5, row 7, row 10, row 11, row 12, row 14] := by
  have values : (Runs.execAll (exec ofWideInts) removals begun).map (fun c => (c.cursor, c.yielded)) =
      some (.on ⟨none, 4⟩, [row 1, row 2, row 5, row 7, row 10, row 11, row 12, row 14]) := by
    decide +kernel
  obtain ⟨c, run, values⟩ := Option.map_eq_some_iff.1 values
  obtain ⟨cursor, yielded⟩ := Prod.mk.inj values
  have reach : Relation.ReflTransGen (CarefulNext ofWideInts) begun c :=
    Runs.reaches_of_execAll (fun step apart => ⟨_, step_of_exec step, apart⟩) run (by decide +kernel)
  obtain ⟨v, stored⟩ := stored_threeLeaves
  exact ⟨c, reach, reachable_delivers orders_ofWideInts stored .atFirst begin_threeLeaves reach, cursor,
    yielded⟩

/-- The second leaf is merged into the first one and its page deleted while the scan is about to latch
it. -/
theorem not_reachable_delivers : ∃ c : Scan ℤ RID,
    Relation.ReflTransGen (Next ofWideInts) begun c ∧ c.cursor = .between 2 ∧
      ¬ Sound ofWideInts (fun _ => True) c := by
  have values : (Runs.execAll (exec ofWideInts) [.next, .next, .remove 1] begun).map (fun c =>
      (c.cursor, (c.tree.pool.content 2).asLeaf.isOk)) = some (.between 2, false) := by decide +kernel
  obtain ⟨c, run, values⟩ := Option.map_eq_some_iff.1 values
  obtain ⟨cursor, noLeaf⟩ := Prod.mk.inj values
  refine ⟨c, Runs.reaches_of_execAll (fun step _ => ⟨_, step_of_exec step⟩) run
    (Runs.allAllowed_of_forall (fun _ _ => trivial) _), cursor, fun sound => ?_⟩
  obtain ⟨v, t, stored, leaf, mem, id⟩ := sound.latched 2 cursor
  obtain ⟨pos, parent, page, content, -⟩ := stored.stores.leaf mem
  have content' : c.tree.pool.content 2 = .leaf page := by
    rw [← id]
    exact (stored.state.content _ pos.ne').trans content
  rw [content'] at noLeaf
  cases noLeaf

end Scan

end ScuDb
