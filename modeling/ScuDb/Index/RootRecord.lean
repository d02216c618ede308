import ScuDb.Index.MapRuns
import ScuDb.Page.PageCapacity

/-!
# The root id in the header page

While a tree grows and shrinks, the header page records its root id.  `InsertRecord` keeps the record
of a tree that was emptied, so the root id of the tree that grows again is not recorded.
-/

namespace ScuDb

open Program BTree Context

variable {K V : Type}

namespace BPlusTree

/-- What `GetRootId` finds in the header page. -/
def recordedRoot (tree : BPlusTree K) (s : TreeState K V) : Except Fault (Option PageId) := do
  HeaderPage.getRootId (← (s.pool.content headerPageId).asRaw) tree.indexName

/-- The header page records the root id of the tree. -/
def RootRecorded (tree : BPlusTree K) (s : TreeState K V) : Prop :=
  tree.recordedRoot s = .ok (some s.rootPageId)

end BPlusTree

/-- The call makes a tree of an empty one. -/
def TreeCall.grows : TreeCall K V → Bool
  | .insert _ _ => true
  | _ => false

/-- No insertion finds a tree that held a key and was emptied. -/
def NoRegrowth [DecidableEq K] [Inhabited K] [Inhabited V] (tree : BPlusTree K) :
    List (TreeCall K V) → TreeState K V → Bool → Prop
  | [], _, _ => True
  | call :: calls, s, grown =>
    (call.grows = true → grown = true → s.rootPageId ≠ invalidPageId) ∧
      NoRegrowth tree calls (call.run tree s).2 (grown || call.grows)

namespace BPlusTree

variable [LinearOrder K] {tree : BPlusTree K} {v : View K V} {s : TreeState K V} {k : K}
  {transaction : Bool}

/-! ## Behind a split of the root -/

/-- The root page counts one child. -/
def Broken (s : TreeState K V) : Prop :=
  s.rootPageId ≠ invalidPageId ∧ s.deletedPageSet = ∅ ∧
    ∃ page, s.pool.content s.rootPageId = .internal page ∧ page.size = 1

omit [LinearOrder K] in
theorem At.broken (h : At tree v s) (rest : v.AtRest) {recorded : Option PageId}
    (broken : BrokenRoot v recorded) : Broken s := by
  obtain ⟨page, hc, size⟩ := broken.page
  refine ⟨?_, h.deleted.trans rest.deleted, page, ?_, size⟩
  · rw [h.root]
    exact ne_invalid broken.pos
  · rw [h.root, h.content _ broken.pos.ne', hc]

omit [LinearOrder K] in
theorem Broken.lockRootPageId (h : Broken s) (exclusive : Bool) :
    Spec (lockRootPageId exclusive) s (fun _ s' => Broken s') fun _ _ => True := by
  refine Spec.bind_eq rfl (spec_bind_lift (fun _ _ => trivial) fun mutex _ => ?_)
  exact spec_modify h

omit [LinearOrder K] in
theorem Broken.tryUnlockRootPageId (h : Broken s) (exclusive : Bool) :
    Spec (tryUnlockRootPageId exclusive) s (fun _ s' => Broken s') fun _ _ => True := by
  refine Spec.bind_eq rfl ?_
  split_ifs
  · refine spec_bind_lift (fun _ _ => trivial) fun mutex _ => ?_
    exact spec_modify h
  · exact spec_pure h

omit [LinearOrder K] in
/-- `Lookup` of the root page stops. -/
theorem Broken.findLeafPage (h : Broken s) (op : OperationType) :
    Spec (tree.findLeafPage k false op transaction) s (fun _ _ => False) fun _ _ => True := by
  refine Spec.bind (h.lockRootPageId _) fun _ s₁ h₁ => Spec.bind_eq (a := s₁) (t := s₁) rfl ?_
  obtain ⟨valid, empty, page, content, size⟩ := h₁
  rw [if_neg valid]
  refine Spec.bind ((samePages.crabingProtocalFetchPage _ _ _ _).spec s₁ |>.mono (fun _ _ => id)
    fun _ _ _ => trivial) fun _ s₂ same => ?_
  have content₂ : s₂.pool.content s₁.rootPageId = .internal page := by
    rw [(same empty).2, content]
  refine Spec.bind (P := fun _ _ => False) ?_ fun _ _ => False.elim
  refine Spec.bind_eq (a := .internal page) (t := s₂) (by rw [← content₂]; rfl) ?_
  refine spec_bind_lift (fun _ _ => trivial) fun next run => ?_
  have more := (of_assert_bind run).1
  omega

variable [Inhabited K] [Inhabited V]

omit [LinearOrder K] in
/-- Neither `Insert` nor `Remove` nor `GetValue` returns.  `Begin()` takes the first child of the
root without `Lookup`, so scans still do. -/
theorem Broken.call (h : Broken s) (call : TreeCall K V) :
    Spec (call.run tree) s (fun _ _ => False) fun _ _ => True := by
  cases call with
  | insert k value =>
    refine Spec.bind (P := fun _ _ => False) ?_ fun _ _ => False.elim
    refine Spec.bind (h.lockRootPageId _) fun _ s₁ h₁ => Spec.bind_eq (a := s₁) (t := s₁) rfl ?_
    rw [if_neg h₁.1]
    refine Spec.bind (h₁.tryUnlockRootPageId _) fun _ s₂ h₂ => ?_
    exact Spec.bind (h₂.findLeafPage _) fun _ _ => False.elim
  | remove k =>
    refine Spec.bind (P := fun _ _ => False) ?_ fun _ _ => False.elim
    refine Spec.bind_eq (a := s) (t := s) rfl ?_
    rw [if_neg h.1]
    exact Spec.bind (h.findLeafPage _) fun _ _ => False.elim
  | getValue k result transaction =>
    refine Spec.bind (P := fun _ _ => False) ?_ fun _ _ => False.elim
    exact Spec.bind (h.findLeafPage _) fun _ _ => False.elim

/-! ## Runs -/

omit [LinearOrder K] [Inhabited K] [Inhabited V] in
theorem At.rootRecorded (h : At tree v s) (recorded : v.recorded = some v.root) :
    RootRecorded tree s := by
  obtain ⟨data, hd, -, root⟩ := h.header
  unfold RootRecorded recordedRoot
  rw [hd, h.root, ← recorded]
  exact root

/-- What holds between two calls, and whether the tree ever held a key. -/
inductive Kept (tree : BPlusTree K) : TreeState K V → Bool → Prop
  | new {v : View K V} {s : TreeState K V} (stored : Stored tree v s none)
      (recorded : v.recorded = none) : Kept tree s false
  | grown {v : View K V} {s : TreeState K V} {t : Option (Σ d, BTree K V d)}
      (stored : Stored tree v s t) (recorded : v.recorded = some v.root) : Kept tree s true
  | broken {s : TreeState K V} (broken : Broken s) (recorded : RootRecorded tree s) : Kept tree s true

omit [Inhabited K] [Inhabited V] in
theorem Kept.rootRecorded (h : Kept tree s true) : RootRecorded tree s := by
  cases h with
  | grown stored recorded => exact stored.state.rootRecorded recorded
  | broken _ recorded => exact recorded

/-- The tree gets its first key. -/
theorem Kept.insert_empty (h : Stored tree v s none) (recorded : v.recorded = none) (k : K)
    (value : V) :
    Spec (tree.insert k value true) s (fun _ s' => Kept tree s' true) fun _ _ => True := by
  apply ((h.exclusive true).insert_empty rfl k value).mono
  · rintro r s' ⟨-, v', -, stored, root, recorded'⟩
    have first : v'.recorded = v.recorded.or (some v.next) := recorded'
    rw [recorded] at first
    exact .grown stored (first.trans (congrArg some root.symm))
  · exact fun _ _ _ => trivial

/-- A tree that holds keys gets another one, and its root may be split. -/
theorem Kept.insert_some (orders : Orders tree.comparator) {t : Σ d, BTree K V d}
    (h : Stored tree v s (some t)) (recorded : v.recorded = some v.root) (k : K) (value : V) :
    Spec (tree.insert k value true) s (fun _ s' => Kept tree s' true) fun _ _ => True := by
  have start := h.exclusive true
  by_cases bound : ∃ x, (k, x) ∈ t.2.bindings
  · apply (start.insert_bound orders rfl bound value).post
    rintro r s' ⟨-, stored⟩
    exact .grown stored recorded
  · obtain ⟨c, leaf, loc, covers⟩ := exists_locate_covers orders (c := top) (k := k)
      h.stores.2.2.ordered ⟨bot_le, Separators.key_lt_top⟩
    apply (start.insert_absent orders rfl (not_exists.1 bound) value (plug_of_locate loc)
      covers).mono
    · rintro r s' ⟨-, v', h', settled, outcome⟩
      cases result : tree.insertTree k value c leaf v.next with
      | some t' =>
        rw [result] at outcome
        obtain ⟨stored, root, same, -⟩ := outcome
        refine .grown stored ?_
        rw [root, same]
        exact recorded
      | none =>
        rw [result] at outcome
        refine .broken (h'.broken settled.rest outcome) (h'.rootRecorded ?_)
        have mapped := outcome.recorded
        dsimp only at mapped
        rw [recorded] at mapped
        exact mapped
    · exact fun _ _ _ => trivial

omit [Inhabited K] [Inhabited V] in
/-- A tree loses a key, and may be emptied. -/
theorem Kept.remove (orders : Orders tree.comparator) {t : Option (Σ d, BTree K V d)}
    (h : Stored tree v s t) (recorded : v.recorded = some v.root) (k : K) :
    Spec (tree.remove k true) s (fun _ s' => Kept tree s' true) fun _ _ => True := by
  cases t with
  | none =>
    apply h.remove_empty.post
    rintro _ _ rfl
    exact .grown h recorded
  | some t =>
    apply ((h.exclusive true).remove_rule orders rfl k).post
    rintro _ s' ⟨v', r, results, stored, -, -, -, ⟨root, same⟩ | mapped⟩
    · refine .grown stored ?_
      rw [root, same]
      exact recorded
    · refine .grown stored (mapped.trans ?_)
      dsimp only
      rw [recorded]
      rfl

omit [Inhabited K] in
theorem Kept.getValue (orders : Orders tree.comparator) {t : Option (Σ d, BTree K V d)}
    (h : Stored tree v s t) (k : K) (result : List V) (transaction : Bool)
    {P : TreeState K V → Prop}
    (kept : ∀ s', Stored tree { v with exclusive := false } s' t → P s') :
    Spec (tree.getValue k result transaction) s (fun _ s' => P s') fun _ _ => True := by
  cases t with
  | none =>
    apply (h.getValue_empty result).mono
    · exact fun r s' found => kept s' found.2
    · exact fun _ _ _ => trivial
  | some t =>
    obtain ⟨found, -, rule⟩ := h.getValue_rule (k := k) orders transaction result
    apply rule.mono
    · exact fun r s' found => kept s' found.2
    · exact fun _ _ _ => trivial

/-- One call. -/
theorem Kept.call (orders : Orders tree.comparator) {grown : Bool} (h : Kept tree s grown)
    (call : TreeCall K V)
    (alive : call.grows = true → grown = true → s.rootPageId ≠ invalidPageId) :
    Spec (call.run tree) s (fun _ s' => Kept tree s' (grown || call.grows)) fun _ _ => True := by
  cases h with
  | broken broken => exact (broken.call call).mono (fun _ _ => False.elim) fun _ _ _ => trivial
  | new stored recorded =>
    cases call with
    | insert k value =>
      exact Spec.bind (Kept.insert_empty stored recorded k value) fun _ s' h' => spec_pure h'
    | remove k =>
      refine Spec.bind stored.remove_empty ?_
      rintro _ _ rfl
      exact spec_pure (.new stored recorded)
    | getValue k result transaction =>
      refine Spec.bind (Kept.getValue orders stored k result transaction
        (P := fun s' => Kept tree s' false) fun s' stored' => .new stored' recorded) ?_
      exact fun _ s' h' => spec_pure h'
  | @grown v s t stored recorded =>
    cases call with
    | insert k value =>
      cases t with
      | none => exact absurd (stored.state.root.trans stored.stores) (alive rfl rfl)
      | some t =>
        exact Spec.bind (Kept.insert_some orders stored recorded k value) fun _ s' h' => spec_pure h'
    | remove k =>
      exact Spec.bind (Kept.remove orders stored recorded k) fun _ s' h' => spec_pure h'
    | getValue k result transaction =>
      refine Spec.bind (Kept.getValue orders stored k result transaction
        (P := fun s' => Kept tree s' true) fun s' stored' => .grown stored' recorded) ?_
      exact fun _ s' h' => spec_pure h'

/-- Calls that return. -/
theorem Kept.runAll (orders : Orders tree.comparator) (calls : List (TreeCall K V)) :
    ∀ {s : TreeState K V} {grown : Bool}, Kept tree s grown → NoRegrowth tree calls s grown →
      Spec (ScuDb.runAll tree calls) s
        (fun _ s' => Kept tree s' (grown || calls.any TreeCall.grows)) fun _ _ => True := by
  induction calls with
  | nil =>
    intro s grown h _
    rw [List.any_nil, Bool.or_false]
    exact spec_pure h
  | cons call calls ih =>
    intro s grown h alive
    have first := h.call orders call alive.1
    have rest := alive.2
    rcases run : call.run tree s with ⟨r, s₁⟩
    rw [run] at rest
    cases r with
    | error e =>
      have stops : ScuDb.runAll tree (call :: calls) s = (.error e, s₁) := bind_stops run
      unfold Spec
      rw [stops]
      trivial
    | ok a =>
      refine Spec.bind_eq run (Spec.bind (ih (first.of_ok run) rest) fun as s' kept => ?_)
      rw [List.any_cons, ← Bool.or_assoc]
      exact spec_pure kept

/-- In every run of an index that is new and never grows again after it was emptied, the header page
records the root id behind each call from the first insertion on. -/
theorem root_recorded (orders : Orders tree.comparator) (h : Stored tree v s none)
    (new : v.recorded = none) (calls : List (TreeCall K V)) (alive : NoRegrowth tree calls s false)
    {as : List (Answer V)} {s' : TreeState K V} (run : ScuDb.runAll tree calls s = (.ok as, s'))
    (held : ∃ call ∈ calls, call.grows = true) : RootRecorded tree s' := by
  have kept := (Kept.runAll orders calls (.new h new) alive).of_ok run
  rw [Bool.false_or, List.any_eq_true.2 held] at kept
  exact kept.rootRecorded

theorem root_recorded_ofInts : ∃ s' : TreeState ℤ RID,
    ScuDb.runAll ofInts [.insert 1 ⟨1, 0⟩, .remove 1] TreeState.initial =
      (.ok [.inserted true, .removed], s') ∧ s'.rootPageId = invalidPageId ∧
      RootRecorded ofInts s' := by
  have ran : (ScuDb.runAll ofInts [.insert 1 (⟨1, 0⟩ : RID), .remove 1] TreeState.initial).1 =
      .ok [.inserted true, .removed] := by decide +kernel
  have emptied : (ScuDb.runAll ofInts [.insert 1 (⟨1, 0⟩ : RID), .remove 1]
      TreeState.initial).2.rootPageId = invalidPageId := by decide +kernel
  rcases run : ScuDb.runAll ofInts [.insert 1 (⟨1, 0⟩ : RID), .remove 1] TreeState.initial with ⟨r, s'⟩
  rw [run] at ran emptied
  obtain rfl : r = .ok [.inserted true, .removed] := ran
  have alive : NoRegrowth ofInts [.insert 1 (⟨1, 0⟩ : RID), .remove 1] TreeState.initial false :=
    ⟨nofun, nofun, trivial⟩
  exact ⟨s', rfl, emptied, root_recorded orders_ofInts (stored_initial (by decide)) rfl _ alive run
    ⟨_, List.mem_cons_self, rfl⟩⟩

/-- An index that is emptied and grows again: the header page keeps the invalid id. -/
theorem not_root_recorded :
    ((ScuDb.runAll ofInts [.insert 1 ⟨1, 0⟩, .remove 1, .insert 2 (⟨2, 0⟩ : RID)]
        TreeState.initial).1 = .ok [.inserted true, .removed, .inserted true]) ∧
      ¬ RootRecorded ofInts (ScuDb.runAll ofInts [.insert 1 ⟨1, 0⟩, .remove 1,
        .insert 2 (⟨2, 0⟩ : RID)] TreeState.initial).2 := by
  have run : (ScuDb.runAll ofInts [.insert 1 ⟨1, 0⟩, .remove 1, .insert 2 (⟨2, 0⟩ : RID)]
      TreeState.initial).1 = .ok [.inserted true, .removed, .inserted true] := by
    decide +kernel
  refine ⟨run, ?_⟩
  unfold RootRecorded
  decide +kernel

end BPlusTree

end ScuDb
