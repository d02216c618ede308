import ScuDb.Index.GrownTree
import ScuDb.Index.Stepwise

/-!
# Insert into a well-formed tree

`Insert` of a bound key changes no page.  `Insert` of another key, if the splits stop below the
root, leaves a well-formed tree with the same root that binds one key more.
-/

namespace ScuDb

open Program Separators BTree Context

variable {K V : Type}

namespace BPlusTree

/-! ## Operations that change no page -/

/-- If no page is to be deleted, none is changed. -/
def SamePages (s s' : TreeState K V) : Prop :=
  s.deletedPageSet = ∅ → s'.deletedPageSet = ∅ ∧ s'.pool.content = s.pool.content

instance : Std.Refl (SamePages (K := K) (V := V)) := ⟨fun _ empty => ⟨empty, rfl⟩⟩

instance : IsTrans (TreeState K V) SamePages where
  trans _ _ _ first second empty := by
    obtain ⟨empty', same⟩ := first empty
    obtain ⟨empty'', same'⟩ := second empty'
    exact ⟨empty'', same'.trans same⟩

theorem samePages_modify {f : TreeState K V → TreeState K V}
    (deleted : ∀ s, (f s).deletedPageSet = s.deletedPageSet)
    (content : ∀ s, (f s).pool.content = s.pool.content) :
    Keeps SamePages (modify f : TreeM K V Unit) :=
  fun s empty => ⟨(deleted s).trans empty, content s⟩

theorem samePages_onPool {α : Type} {x : PoolM (IndexPage K V) α}
    (content : ∀ pool a pool', x pool = .ok (a, pool') → pool'.content = pool.content) :
    Keeps SamePages (onPool x) := by
  intro s empty
  unfold onPool
  split
  · next a pool run => exact ⟨empty, content _ _ _ run⟩
  · exact ⟨empty, rfl⟩

section Content

variable {pool pool' : PagePool (IndexPage K V)} {p : PageId}

theorem content_fetchPage {found : Bool} (run : PagePool.fetchPage p pool = .ok (found, pool')) :
    pool'.content = pool.content := by
  unfold PagePool.fetchPage at run
  split at run <;> cases run <;> rfl

theorem content_unpinPage {isDirty : Bool} {a : Unit}
    (run : PagePool.unpinPage p isDirty pool = .ok (a, pool')) : pool'.content = pool.content := by
  unfold PagePool.unpinPage at run
  split at run
  · cases run
  · split at run <;> cases run
    rfl

theorem content_latch {exclusive : Bool} {a : Unit}
    (run : (if exclusive then PagePool.wLatch p else PagePool.rLatch p) pool = .ok (a, pool')) :
    pool'.content = pool.content := by
  cases exclusive
  · simp only [Bool.false_eq_true, if_false, PagePool.rLatch] at run
    split at run <;> cases run
    rfl
  · simp only [if_true, PagePool.wLatch] at run
    split at run <;> cases run
    rfl

theorem content_unlatch {exclusive : Bool} {a : Unit}
    (run : (if exclusive then PagePool.wUnlatch p else PagePool.rUnlatch p) pool = .ok (a, pool')) :
    pool'.content = pool.content := by
  cases exclusive
  · simp only [Bool.false_eq_true, if_false, PagePool.rUnlatch] at run
    split at run <;> cases run
    rfl
  · simp only [if_true, PagePool.wUnlatch] at run
    cases run
    rfl

end Content

theorem samePages_fetchPage (p : PageId) (e : Fault) :
    Keeps SamePages (fetchPage p e : TreeM K V Unit) := by
  refine (samePages_onPool fun _ _ _ => content_fetchPage).bind fun found => ?_
  cases found
  · exact keeps_throw _
  · exact keeps_pure _

theorem samePages_unpinPage (p : PageId) (isDirty : Bool) :
    Keeps SamePages (unpinPage p isDirty : TreeM K V Unit) :=
  samePages_onPool fun _ _ _ => content_unpinPage

theorem samePages_lock (exclusive : Bool) (p : PageId) :
    Keeps SamePages (lock exclusive p : TreeM K V Unit) :=
  samePages_onPool fun _ _ _ => content_latch

theorem samePages_unlock (exclusive : Bool) (p : PageId) :
    Keeps SamePages (unlock exclusive p : TreeM K V Unit) :=
  samePages_onPool fun _ _ _ => content_unlatch

theorem samePages_lockRootPageId (exclusive : Bool) :
    Keeps SamePages (lockRootPageId exclusive : TreeM K V Unit) :=
  keeps_read.bind fun _ => (keeps_lift _).bind fun _ =>
    samePages_modify (fun _ => rfl) fun _ => rfl

theorem samePages_tryUnlockRootPageId (exclusive : Bool) :
    Keeps SamePages (tryUnlockRootPageId exclusive : TreeM K V Unit) := by
  refine keeps_read.bind fun s => ?_
  split
  · exact (keeps_lift _).bind fun _ => samePages_modify (fun _ => rfl) fun _ => rfl
  · exact keeps_pure _

theorem samePages_freePage (exclusive : Bool) (p : PageId) :
    Keeps SamePages (freePage exclusive p : TreeM K V Unit) := by
  refine (samePages_unlock _ _).bind fun _ => (samePages_unpinPage _ _).bind fun _ => ?_
  intro s
  by_cases mem : p ∈ s.deletedPageSet
  · intro empty
    simp [empty] at mem
  · change SamePages s ((if p ∈ s.deletedPageSet then _ else pure () : TreeM K V Unit) s).2
    rw [if_neg mem]
    exact refl s

theorem samePages_addIntoPageSet (transaction : Bool) (p : PageId) :
    Keeps SamePages (addIntoPageSet transaction p : TreeM K V Unit) := by
  cases transaction
  · exact keeps_throw _
  · exact samePages_modify (fun _ => rfl) fun _ => rfl

theorem samePages : Stepwise fun _ (x : TreeM K V _) => Keeps SamePages x where
  pure := keeps_pure
  throw := keeps_throw
  lift := keeps_lift
  bind := Keeps.bind
  read_bind := fun _ h => keeps_read.bind h
  getPage := fun _ s => refl s
  fetchPage := fun p => samePages_fetchPage p _
  unpinPage := samePages_unpinPage
  lock := samePages_lock
  unlock := samePages_unlock
  lockRootPageId := samePages_lockRootPageId
  tryUnlockRootPageId := samePages_tryUnlockRootPageId
  addIntoPageSet := samePages_addIntoPageSet
  freePage := samePages_freePage
  clearPageSet := samePages_modify (fun _ => rfl) fun _ => rfl

variable (tree : BPlusTree K) {key : K} {value : V}

variable [Inhabited K] [Inhabited V]

/-- An insertion that returns `false` changed no page. -/
theorem insert_false_samePages (s : TreeState K V) :
    Spec (tree.insert key value true) s (fun r s' => r = false → SamePages s s')
      fun _ _ => True := by
  have keep {α : Type} {x : TreeM K V α} {s₁ : TreeState K V} (h : Keeps SamePages x)
      (before : SamePages s s₁) : Spec x s₁ (fun _ s' => SamePages s s') fun _ _ => True :=
    (h.spec s₁).mono (fun _ _ after => IsTrans.trans _ _ _ before after) fun _ _ _ => trivial
  refine Spec.bind (keep (samePages.lockRootPageId true) (refl s)) fun _ s₁ h₁ => ?_
  refine Spec.bind_eq (a := s₁) (t := s₁) rfl ?_
  split
  · exact Spec.bind (spec_any _ _) fun _ _ _ => Spec.bind (spec_any _ _) fun _ _ _ =>
      spec_pure nofun
  · refine Spec.bind (keep (samePages.tryUnlockRootPageId true) h₁) fun _ s₂ h₂ => ?_
    refine Spec.bind (keep (samePages.findLeafPage tree _ _ _ _) h₂) fun leaf s₃ h₃ => ?_
    cases leaf with
    | none => exact spec_throw trivial
    | some leaf =>
      refine Spec.bind (keep (samePages.getLeaf _) h₃) fun page s₄ h₄ => ?_
      cases page.lookup tree.comparator key with
      | some value =>
        rw [if_pos Option.isSome_some]
        exact Spec.bind (keep (samePages.freePagesInTransaction _ _ _) h₄) fun _ s₅ h₅ =>
          spec_pure fun _ => h₅
      | none =>
        rw [if_neg (show ¬ (none : Option V).isSome = true by simp)]
        refine Spec.bind (spec_any _ _) fun page _ _ => Spec.bind (spec_any _ _) fun _ _ _ => ?_
        have done {s₆ : TreeState K V} : Spec (do
            freePagesInTransaction true true
            return true : TreeM K V Bool) s₆ (fun r s' => r = false → SamePages s s')
            fun _ _ => True :=
          Spec.bind (spec_any _ _) fun _ _ _ => spec_pure nofun
        dsimp only
        split
        · exact Spec.bind (spec_any _ _) fun _ _ _ => Spec.bind (spec_any _ _) fun _ _ _ =>
            Spec.bind (spec_any _ _) fun _ _ _ => Spec.bind (spec_any _ _) fun _ _ _ =>
            Spec.bind (spec_any _ _) fun _ _ _ => done
        · exact done

/-! ## Insert -/

variable [LinearOrder K] {tree : BPlusTree K} {v : View K V} {s : TreeState K V} {k : K} {d : ℕ}
  {t : BTree K V d}

/-- The leaf that can hold the key, or a page above it, has room for one more entry. -/
def Roomy (n : KeySize) (k : K) (t : Σ d, BTree K V d) : Prop :=
  ∃ (c : Context K V 0) (leaf : LeafNode K V), c.plug leaf = t ∧ c.Covers k ∧
    (leaf.entries.length < n.leafMax ∨ c.Stops n)

omit [Inhabited K] [Inhabited V] in
theorem Stored.writing {r : Option (Σ d, BTree K V d)} (h : Stored tree v s r)
    (ex : v.exclusive = true) : v.Writing :=
  ⟨ex, h.rest.opened, fun p _ => h.free p, by simp [h.rest.held]⟩

/-- What `Insert` does to a well-formed tree: a key that is bound stays bound as it is; another key
is inserted, unless the root is split. -/
theorem Stored.insert_rule (orders : Orders tree.comparator) (h : Stored tree v s (some ⟨d, t⟩))
    (ex : v.exclusive = true) (k : K) (value : V) : ∃ (c : Context K V 0) (leaf : LeafNode K V),
    c.plug leaf = ⟨d, t⟩ ∧ c.Covers k ∧ Spec (tree.insert k value true) s (fun r s' =>
      (r = false ↔ ∃ x, (k, x) ∈ t.bindings) ∧ ∃ v', At tree v' s' ∧ v.Settled v' ∧
        if r then Outcome tree v v' (tree.insertTree k value c leaf v.next) else v' = v)
      fun e s' => (∀ x, (k, x) ∉ t.bindings) ∧ tree.keySize.leafMax ≤ leaf.entries.length ∧
        Exhausted e s' := by
  obtain ⟨root, focus, wf⟩ := h.stores
  obtain ⟨c, leaf, loc, covers⟩ :=
    exists_locate_covers orders (c := top) (k := k) wf.ordered ⟨bot_le, key_lt_top⟩
  have plug := plug_of_locate loc
  have sorted := (c.ordered_leaf wf.ordered plug).2.2.1
  have bound : (leaf.find tree.comparator k).isNone = true ↔ ∀ x, (k, x) ∉ t.bindings := by
    simp only [covers.mem_bindings wf.ordered plug]
    rw [Option.isNone_iff_eq_none, LeafNode.find_eq_none_iff orders sorted]
  refine ⟨c, leaf, plug, covers, (h.state.insert_rule (h.writing ex) h.rest root focus wf.sized.wide
    wf.sized.fits loc fun p _ => h.free p).mono ?_ fun e s' full => ⟨bound.1 full.1, full.2⟩⟩
  rintro r s' ⟨rfl, v', h', settled, outcome⟩
  refine ⟨?_, v', h', settled, ?_⟩
  · rw [← Bool.not_eq_true, bound]
    simp
  · cases found : leaf.find tree.comparator k with
    | none => simpa [found] using outcome
    | some x => simpa [found] using outcome

/-- A bound key stays bound as it is. -/
theorem Stored.insert_bound (orders : Orders tree.comparator) (h : Stored tree v s (some ⟨d, t⟩))
    (ex : v.exclusive = true) (bound : ∃ x, (k, x) ∈ t.bindings) (value : V)
    {E : Fault → TreeState K V → Prop} : Spec (tree.insert k value true) s
      (fun r s' => r = false ∧ Stored tree v s' (some ⟨d, t⟩)) E := by
  obtain ⟨c, leaf, -, -, rule⟩ := h.insert_rule orders ex k value
  apply rule.mono
  · rintro r s' ⟨false_iff, v', h', settled, same⟩
    obtain rfl := false_iff.2 bound
    obtain rfl : v' = v := same
    exact ⟨rfl, h', h.rest, h.stores, h.free⟩
  · rintro e s' ⟨absent, -⟩
    obtain ⟨x, mem⟩ := bound
    exact absurd mem (absent x)

/-- Another key is inserted, unless the root is split. -/
theorem Stored.insert_absent (orders : Orders tree.comparator) (h : Stored tree v s (some ⟨d, t⟩))
    (ex : v.exclusive = true) (absent : ∀ x, (k, x) ∉ t.bindings) (value : V) {c : Context K V 0}
    {leaf : LeafNode K V} (plug : c.plug leaf = ⟨d, t⟩) (covers : c.Covers k) :
    Spec (tree.insert k value true) s (fun r s' => r = true ∧ ∃ v', At tree v' s' ∧ v.Settled v' ∧
      match tree.insertTree k value c leaf v.next with
      | some t' => Stored tree v' s' (some t') ∧ v'.root = v.root ∧ v'.recorded = v.recorded ∧
        (contents (some t')).Perm ((k, value) :: t.bindings)
      | none => BrokenRoot v' v.recorded)
      fun e s' => tree.keySize.leafMax ≤ leaf.entries.length ∧ Exhausted e s' := by
  obtain ⟨c', leaf', plug', covers', rule⟩ := h.insert_rule orders ex k value
  obtain ⟨root, focus, wf⟩ := h.stores
  obtain ⟨rfl, rfl⟩ := covers.unique orders wf.ordered plug plug' covers'
  have absent' : ∀ x, (k, x) ∉ leaf'.entries := fun x mem =>
    absent x ((covers.mem_bindings wf.ordered plug).2 mem)
  refine rule.mono ?_ fun e s' full => full.2
  rintro r s' ⟨false_iff, v', h', settled, outcome⟩
  have new : r = true := by
    rw [← Bool.not_eq_false, false_iff]
    rintro ⟨x, mem⟩
    exact absent x mem
  subst new
  refine ⟨rfl, v', h', settled, ?_⟩
  have outcome : Outcome tree v v' (tree.insertTree k value c' leaf' v.next) := outcome
  cases result : tree.insertTree k value c' leaf' v.next with
  | none =>
    rw [result] at outcome
    exact outcome
  | some t' =>
    rw [result] at outcome
    obtain ⟨root', recorded', focus'⟩ := outcome
    obtain ⟨wf', perm, page⟩ := insertTree_spec orders wf plug covers absent' result
    refine ⟨⟨h', settled.rest, ⟨?_, focus', wf'⟩, fun p => ?_⟩, root', recorded', perm⟩
    · rw [root', page, ← root]
    · rw [settled.base]
      exact h.free p

/-- Another key is inserted, if the leaf of the key or a page above it has room. -/
theorem Stored.insert_new (orders : Orders tree.comparator) (h : Stored tree v s (some ⟨d, t⟩))
    (ex : v.exclusive = true) (absent : ∀ x, (k, x) ∉ t.bindings) (value : V) {c : Context K V 0}
    {leaf : LeafNode K V} (plug : c.plug leaf = ⟨d, t⟩) (covers : c.Covers k)
    (room : leaf.entries.length < tree.keySize.leafMax ∨ c.Stops tree.keySize) :
    Spec (tree.insert k value true) s (fun r s' => r = true ∧ ∃ v' t',
      Stored tree v' s' (some t') ∧ v'.root = v.root ∧
      (contents (some t')).Perm ((k, value) :: t.bindings))
      fun e s' => tree.keySize.leafMax ≤ leaf.entries.length ∧ Exhausted e s' := by
  obtain ⟨-, -, wf⟩ := h.stores
  have absent' : ∀ x, (k, x) ∉ leaf.entries := fun x mem =>
    absent x ((covers.mem_bindings wf.ordered plug).2 mem)
  obtain ⟨t', result⟩ := exists_insertTree value v.next orders wf plug covers absent' room
  apply (h.insert_absent orders ex absent value plug covers).post
  rintro r s' ⟨rfl, v', -, -, outcome⟩
  rw [result] at outcome
  obtain ⟨stored, root, -, perm⟩ := outcome
  exact ⟨rfl, v', t', stored, root, perm⟩

/-- `Insert` of a bound key returns `false` and changes no page.  If the key is not bound and the
splits stop below the root, `Insert` returns `true` and leaves a well-formed tree with the same root
that binds the key besides the old ones. -/
theorem insert_stored (orders : Orders tree.comparator) (h : Stored tree v s (some ⟨d, t⟩)) (k : K)
    (value : V) :
    ((∃ x, (k, x) ∈ t.bindings) → ∃ s', tree.insert k value true s = (.ok false, s') ∧
      s'.pool.content = s.pool.content) ∧
    ((∀ x, (k, x) ∉ t.bindings) → Roomy tree.keySize k ⟨d, t⟩ →
      Spec (tree.insert k value true) s (fun r s' => r = true ∧ ∃ v' t',
        Stored tree v' s' (some t') ∧ v'.root = v.root ∧
        (contents (some t')).Perm ((k, value) :: t.bindings)) Exhausted) := by
  constructor
  · intro bound
    obtain ⟨r, s', run, rfl, -⟩ := ((h.exclusive true).insert_bound orders rfl bound value).returns
    have empty : s.deletedPageSet = ∅ := h.state.deleted.trans h.rest.deleted
    exact ⟨s', run, ((insert_false_samePages tree s).of_ok run rfl empty).2⟩
  · rintro absent ⟨c, leaf, plug, covers, room⟩
    apply ((h.exclusive true).insert_new orders rfl absent value plug covers room).mono
    · exact fun r s' done => done
    · exact fun e s' full => full.2

/-- A bound key, and a new one that splits the last of three leaves. -/
theorem insert_stored_threeLeaves :
    (∃ s', ofWideInts.insert 6 ⟨1, 1⟩ true threeLeavesState = (.ok false, s') ∧
      s'.pool.content = threeLeavesState.pool.content) ∧
    Spec (ofWideInts.insert 15 ⟨15, 0⟩ true) threeLeavesState (fun r s' => r = true ∧ ∃ v' t',
      Stored ofWideInts v' s' (some t') ∧ v'.root = 4 ∧
      (contents (some t')).Perm (row 15 :: threeLeaves.bindings)) Exhausted := by
  obtain ⟨v, stored⟩ := stored_threeLeaves
  constructor
  · apply (insert_stored orders_ofWideInts stored 6 ⟨1, 1⟩).1
    exact ⟨⟨6, 0⟩, by simp [threeLeaves, middleLeaf, BTree.bindings, leaves, row]⟩
  · have absent : ∀ x, ((15 : ℤ), x) ∉ threeLeaves.bindings := by
      simp [threeLeaves, firstLeaf, middleLeaf, lastLeaf, BTree.bindings, leaves, row]
    have room : Roomy ofWideInts.keySize 15 ⟨1, threeLeaves⟩ :=
      ⟨aroundLast, lastLeaf, rfl, aroundLast_covers, .inr (.inl (by decide))⟩
    have root : v.root = 4 := stored.stores.1
    apply ((insert_stored orders_ofWideInts stored 15 ⟨15, 0⟩).2 absent room).post
    rintro r s' ⟨rfl, v', t', stored', same, perm⟩
    exact ⟨rfl, v', t', stored', same.trans root, perm⟩

end BPlusTree

end ScuDb
