import ScuDb.Index.InsertRules

/-!
# Insert

What `Insert` does to an empty tree and to the tree the pages hold, and what it leaves behind.
-/

namespace ScuDb

open Program BTree Context

variable {K V : Type}

/-- No page has more entries than its maximum. -/
def BTree.Fits (n : KeySize) : {d : ℕ} → BTree K V d → Prop
  | 0, t => (LeafNode.entries t).length ≤ n.leafMax
  | _ + 1, t => (InnerNode.slots t).length ≤ n.internalMax ∧ ∀ x ∈ InnerNode.slots t, Fits n x.2

namespace BPlusTree

/-- The tree after an insertion into a leaf, or `none` when the root is split. -/
def insertTree (tree : BPlusTree K) (key : K) (value : V) (c : Context K V 0) (leaf : LeafNode K V)
    (fresh : PageId) : Option (Σ h, BTree K V h) :=
  let leaf := leaf.inserted tree.comparator key value
  if leaf.entries.length ≤ tree.keySize.leafMax then some (c.plug leaf)
  else
    match firstKey (d := 0) (upper tree.keySize fresh (d := 0) leaf) with
    | none => none
    | some key => c.insertUp tree.keySize (lower tree.keySize fresh (d := 0) leaf) key
      (upper tree.keySize fresh (d := 0) leaf) (fresh + 1)

/-- What an operation leaves as it was. -/
structure View.Settled (v v' : View K V) : Prop where
  rest : v'.AtRest
  exclusive : v'.exclusive = v.exclusive
  pins : v'.pins = v.pins
  base : v'.base = v.base
  next : v.next ≤ v'.next
  deletions : v'.deletions = v.deletions

variable {tree : BPlusTree K} {v : View K V} {s : TreeState K V} {key : K} {value : V} {d : ℕ}
  {t : BTree K V d} {c : Context K V 0} {leaf : LeafNode K V}

/-- The end of a writer that deleted nothing. -/
theorem At.freeAll_rule {E : Fault → TreeState K V → Prop} (h : At tree v s) (w : v.Writing)
    (deleted : v.deleted = ∅) :
    Spec (freePagesInTransaction true true) s
      (fun _ => At tree { v with held := [], rootHeld := false }) E :=
  h.freeHeld_rule w.exclusive w.opened deleted (-1)

variable [Inhabited K] [Inhabited V]

/-- `StartNewTree`. -/
theorem At.startNewTree_rule (h : At tree v s) (w : v.Writing) (root : v.rootHeld = true) :
    Spec (tree.startNewTree key value) s (fun _ s' => ∃ content, At tree { v with
      content := content
      root := v.next
      recorded := v.recorded.or (some v.next)
      next := v.next + 1
      created := v.next :: v.created } s' ∧
      Rep (d := 0) tree.keySize content invalidPageId ⟨v.next, invalidPageId, [(key, value)]⟩)
      fun e s' => v.next = 2147483647 ∧ Exhausted e s' := by
  have hnext : v.next ≠ headerPageId := h.next_pos.ne'
  have pos := h.next_pos
  have empty : (LeafPage.init tree.keySize v.next invalidPageId : LeafPage K V).Holds tree.keySize
      invalidPageId ⟨v.next, invalidPageId, []⟩ := ⟨⟨rfl, rfl, rfl, rfl⟩, rfl, rfl⟩
  obtain ⟨page, insert, holds⟩ := empty.insert tree.comparator key value
    (Nat.zero_le _)
  refine Spec.bind h.newPage_rule ?_
  rintro _ s₁ ⟨rfl, h₁⟩
  have next_le : v.next + 1 ≤ 2147483647 := h₁.next_le
  refine Spec.bind (h₁.setCreated_rule hnext List.mem_cons_self _) fun _ s₂ h₂ => ?_
  refine Spec.bind (h₂.setRootPageId_rule w.exclusive root v.next) fun _ s₃ h₃ => ?_
  refine Spec.bind (h₃.updateRootPageId_rule true ⟨?_, ?_⟩ fun _ => ?_) fun _ s₄ h₄ => ?_
  · show -2147483648 ≤ v.next
    omega
  · show v.next < 2147483648
    omega
  · show v.next > -1
    omega
  refine Spec.bind_eq (a := page) (t := s₄) (by rw [insert]; rfl) ?_
  refine Spec.bind (h₄.setCreated_rule hnext List.mem_cons_self _) fun _ s₅ h₅ => ?_
  refine (h₅.unpinDirty_rule v.opened rfl ?_).post fun _ s₆ h₆ =>
    ⟨_, h₆, page, Function.update_self _ _ _, holds⟩
  intro p hp ne
  rw [w.opened]
  simp only [w.opened, List.mem_cons, List.not_mem_nil, or_false, or_self] at hp
  exact (ne hp).elim

omit [Inhabited K] [Inhabited V] in
/-- The context of a leaf that is reached fits if the tree does. -/
theorem fits_of_locate {n : KeySize} {pick : List K → ℕ} {d : ℕ} {c : Context K V d}
    {t : BTree K V d} {c' : Context K V 0} {leaf : LeafNode K V} (hc : c.Fits n) (ht : t.Fits n)
    (loc : locate pick c t = some (c', leaf)) : c'.Fits n ∧ leaf.entries.length ≤ n.leafMax := by
  refine locate_induction (P := fun c t => c.Fits n ∧ t.Fits n) ?_ ⟨hc, ht⟩ loc
  rintro d c page left right x ⟨hc, hlen, hsub⟩
  refine ⟨⟨?_, hc⟩, hsub x (by simp)⟩
  simpa using hlen

omit [Inhabited K] [Inhabited V] in
theorem focus_of_locate {n : KeySize} {pick : List K → ℕ} {d : ℕ} {c : Context K V d}
    {t : BTree K V d} {c' : Context K V 0} {leaf : LeafNode K V} (focus : Focus n v c t)
    (loc : locate pick c t = some (c', leaf)) : Focus n v (d := 0) c' leaf :=
  locate_induction (P := fun c t => Focus n v c t) (fun _ _ _ _ _ => Focus.down) focus loc

/-- `InsertIntoLeaf`, once the leaf is held. -/
theorem At.insertHeld_rule {held : List PageId} {rootHeld : Bool} (h : At tree
      { v with held := held, rootHeld := rootHeld } s) (w : v.Writing) (rest : v.AtRest)
    (focus : Focus tree.keySize v (d := 0) c leaf)
    (latched : Latched tree.keySize .insert held rootHeld c (d := 0) leaf)
    (fits : c.Fits tree.keySize) (fitsLeaf : leaf.entries.length ≤ tree.keySize.leafMax)
    {page : LeafPage K V} (holds : page.Holds tree.keySize c.parentId leaf) :
    Spec (do
      let page ← page.insert tree.keySize tree.comparator key value
      BPlusTree.setPage leaf.id (.leaf page)
      if page.size > page.maxSize then
        let fuel := (← read).pool.nextPageId.toNat + 1
        let newLeaf ← tree.split leaf.id true
        let key ← (← getLeaf newLeaf).keyAt 0
        tree.insertIntoParent fuel leaf.id key newLeaf true
      freePagesInTransaction true true
      return true : TreeM K V Bool) s (fun r s' => r = true ∧ ∃ v', At tree v' s' ∧ v.Settled v' ∧
        Outcome tree v v' (tree.insertTree key value c leaf v.next))
      fun e s' => tree.keySize.leafMax ≤ leaf.entries.length ∧ Exhausted e s' := by
  have bound := focus.bound
  have leafBound := bound leaf.id (Multiset.mem_add.2 (.inr (pageId_mem_ids (d := 0) leaf)))
  have heldLt : ∀ p ∈ held, p < v.next := by
    intro p hp
    obtain rfl | hp := latched.path p hp
    · exact leafBound.2
    · exact (bound p (Multiset.mem_add.2 (.inl (c.path_subset_ids p hp)))).2
  obtain ⟨page', insert, holds'⟩ := holds.insert tree.comparator key value fitsLeaf
  set leaf' := leaf.inserted tree.comparator key value with hleaf'
  have size : page'.size = leaf'.entries.length := holds'.size
  have max : page'.maxSize = tree.keySize.leafMax := holds'.fields.maxSize
  refine Spec.bind_eq (a := page') (t := s) (by rw [insert]; rfl) ?_
  refine Spec.bind (h.setHeld_rule leafBound.1.ne' w.exclusive latched.here _) fun _ s₁ h₁ => ?_
  dsimp only at h₁
  set content := Function.update v.content leaf.id (.leaf page') with hcontent
  have offLeaf : ∀ {p}, p ∈ c.ids → content p = v.content p := by
    intro p hp
    refine Function.update_of_ne ?_ _ _
    rintro rfl
    exact focus.pageId_notMem hp
  have focus' : Focus tree.keySize { v with content := content } (d := 0) c leaf' :=
    ⟨focus.rep.congr fun p hp => offLeaf hp, ⟨page', Function.update_self _ _ _, holds'⟩,
      focus.nodup, focus.bound⟩
  have w₁ : View.Writing { v with held := held, rootHeld := rootHeld, content := content } :=
    ⟨w.exclusive, w.opened, w.free, heldLt⟩
  rw [size, max]
  by_cases big : leaf'.entries.length > tree.keySize.leafMax
  · -- the leaf is split
    rw [if_pos big]
    have noRoom : tree.keySize.leafMax ≤ leaf.entries.length := by
      rw [hleaf', LeafNode.length_inserted] at big
      omega
    refine Spec.mono (E := Exhausted) ?_ (fun _ _ => id) fun e s' full => ⟨noRoom, full⟩
    have full : BTree.size (d := 0) leaf' = maxSize tree.keySize 0 + 1 := by
      show leaf'.entries.length = tree.keySize.leafMax + 1
      rw [hleaf', LeafNode.length_inserted] at big ⊢
      omega
    have guarded : c.Guarded tree.keySize .insert held rootHeld := by
      refine latched.guarded.resolve_left ?_
      show ¬ decide (leaf.entries.length < tree.keySize.leafMax) = true
      rw [hleaf', LeafNode.length_inserted] at big
      rw [decide_eq_true_eq]
      omega
    refine Spec.bind_eq (a := s₁) (t := s₁) rfl ?_
    rw [h₁.next]
    have nodupLeaf := (Multiset.nodup_add.1 focus'.nodup).2.1
    have boundLeaf : ∀ p ∈ BTree.ids (d := 0) leaf', 0 < p ∧ p < v.next := fun p hp =>
      focus'.bound p (Multiset.mem_add.2 (.inr hp))
    refine Spec.bind (h₁.split_rule (t := leaf') (d := 0) w₁ focus'.sub full latched.here nodupLeaf
      boundLeaf) ?_
    rintro _ s₂ ⟨rfl, content', h₂, repLower, repUpper, same⟩
    dsimp only at h₂ repLower repUpper same
    obtain ⟨page'', hc'', holds''⟩ := id repUpper
    have five := tree.keySize.five_le_leafMax
    have lt : (tree.keySize.leafMax + 1) / 2 < leaf'.entries.length := by omega
    obtain ⟨x, rest', hx⟩ : ∃ x rest', leaf'.entries.drop ((tree.keySize.leafMax + 1) / 2) =
        x :: rest' := ⟨_, _, List.drop_eq_getElem_cons lt⟩
    have hkey : firstKey (d := 0) (upper tree.keySize v.next (d := 0) leaf') = some x.1 := by
      simp [firstKey, upper, hx]
    have keyAt : page''.keyAt 0 = .ok x.1 := by
      have len : 0 < page''.size := by
        rw [holds''.size]
        simp [upper, hx]
      have first : page''.array 0 = x := by
        rw [holds''.array (by simp [upper, hx])]
        simp [upper, hx]
      unfold LeafPage.keyAt
      rw [liftExcept_ok (assert_pos len), first]
      rfl
    have hnext : v.next ≠ headerPageId := h.next_pos.ne'
    refine Spec.bind_eq (h₂.getLeaf_eq hnext hc'') ?_
    refine Spec.bind_eq (a := x.1) (t := s₂) (by rw [keyAt]; rfl) ?_
    set v₂ : View K V := { v with
      content := content'
      next := v.next + 1
      held := held ++ [v.next]
      rootHeld := rootHeld
      created := v.next :: v.created } with hv₂
    have idsLU : c.ids + ((lower tree.keySize v.next (d := 0) leaf').ids +
        (upper tree.keySize v.next (d := 0) leaf').ids) = v.next ::ₘ (c.ids + BTree.ids (d := 0) leaf') := by
      rw [ids_lower_add_upper, Multiset.add_cons]
    have fresh : v.next ∉ c.ids + BTree.ids (d := 0) leaf' := fun hp =>
      lt_irrefl _ (focus'.bound _ hp).2
    have disjoint := (Multiset.nodup_add.1 focus'.nodup).2.2
    have sp : Splitting tree.keySize v₂ c (lower tree.keySize v.next (d := 0) leaf')
        (upper tree.keySize v.next (d := 0) leaf') := by
      refine ⟨?_, repLower, ⟨_, repUpper⟩, ?_, ?_, ?_, ?_⟩
      · refine focus'.rep.congr fun p hp => same p (Multiset.disjoint_left.1 disjoint hp) ?_
        rintro rfl
        exact fresh (Multiset.mem_add.2 (.inl hp))
      · rw [idsLU]
        exact Multiset.nodup_cons.2 ⟨fresh, focus'.nodup⟩
      · rw [idsLU]
        intro p hp
        obtain rfl | hp := Multiset.mem_cons.1 hp
        · exact ⟨h.next_pos, Int.lt_succ _⟩
        · exact ⟨(focus'.bound p hp).1, (focus'.bound p hp).2.trans (Int.lt_succ _)⟩
      · exact List.mem_append_left _ latched.here
      · exact List.mem_append_right _ (List.mem_singleton_self _)
    have w₂ : v₂.Writing := by
      refine ⟨w.exclusive, w.opened, fun p hp => w.free p ((Int.lt_succ _).le.trans hp),
        fun p hp => ?_⟩
      obtain hp | hp := List.mem_append.1 hp
      · exact (heldLt p hp).trans (Int.lt_succ _)
      · rw [List.mem_singleton.1 hp]
        exact Int.lt_succ _
    have height := focus.height_lt
    refine Spec.bind (insertIntoParent_rule c _ _ (v := v₂) h₂ w₂ sp
      (guarded.mono fun p hp => List.mem_append_left _ hp) fits (by
        show c.height < v.next.toNat + 1
        omega)) ?_
    rintro _ s₃ ⟨v₃, h₃, grows, outcome⟩
    have deleted : v₃.deleted = ∅ := grows.deleted.trans rest.deleted
    refine Spec.bind (h₃.freeAll_rule (grows.writing w₂) deleted) fun _ s₄ h₄ =>
      spec_pure ⟨rfl, _, h₄, ?_, ?_⟩
    · exact ⟨⟨rfl, grows.opened.trans rest.opened, rfl, deleted⟩, grows.exclusive, grows.pins,
        grows.base, (Int.lt_succ _).le.trans grows.next, grows.deletions⟩
    · have result : tree.insertTree key value c leaf v.next = c.insertUp tree.keySize
          (lower tree.keySize v.next (d := 0) leaf') x.1
          (upper tree.keySize v.next (d := 0) leaf') (v.next + 1) := by
        simp only [insertTree, ← hleaf']
        rw [if_neg (not_le.2 big)]
        simp only [hkey]
      rw [result]
      cases hr : c.insertUp tree.keySize (lower tree.keySize v.next (d := 0) leaf') x.1
          (upper tree.keySize v.next (d := 0) leaf') (v.next + 1) with
      | none =>
        rw [hr] at outcome
        exact ⟨outcome.pos, outcome.lt, outcome.page, outcome.recorded⟩
      | some t' =>
        rw [hr] at outcome
        exact ⟨outcome.1, outcome.2.1, outcome.2.2.congr rfl rfl⟩
  · rw [if_neg big]
    refine Spec.bind (h₁.freeAll_rule w₁ rest.deleted) fun _ s₂ h₂ => spec_pure ⟨rfl, _, h₂, ?_, ?_⟩
    · exact ⟨⟨rfl, rest.opened, rfl, rest.deleted⟩, rfl, rfl, rfl, le_rfl, rfl⟩
    · have result : tree.insertTree key value c leaf v.next = some (c.plug leaf') := by
        simp only [insertTree, ← hleaf']
        rw [if_pos (not_lt.1 big)]
      rw [result]
      exact ⟨rfl, rfl, focus'.plug.congr rfl rfl⟩

omit [Inhabited K] [Inhabited V] in
theorem View.AtRest.eq (rest : v.AtRest) : { v with held := [], rootHeld := false } = v := by
  obtain ⟨held, -, rootHeld, -⟩ := rest
  cases v
  simp_all

omit [Inhabited K] [Inhabited V] in
theorem View.AtRest.settled (rest : v.AtRest) : v.Settled v := ⟨rest, rfl, rfl, rfl, le_rfl, rfl⟩

/-- `Insert` into an empty tree. -/
theorem At.insert_empty (h : At tree v s) (w : v.Writing) (rest : v.AtRest)
    (empty : v.root = invalidPageId) :
    Spec (tree.insert key value true) s (fun r s' => r = true ∧ ∃ v', At tree v' s' ∧ v.Settled v' ∧
      v'.root = v.next ∧ v'.recorded = v.recorded.or (some v.next) ∧
      Focus (d := 0) tree.keySize v' Context.top ⟨v.next, invalidPageId, [(key, value)]⟩)
      fun e s' => v.next = 2147483647 ∧ Exhausted e s' := by
  refine Spec.bind (h.lockRootPageId_rule w.exclusive rest.rootHeld) fun _ s₁ h₁ => ?_
  refine Spec.bind_eq (a := s₁) (t := s₁) rfl ?_
  rw [if_pos (h₁.root.trans empty)]
  have w₁ : View.Writing { v with rootHeld := true } := ⟨w.exclusive, w.opened, w.free, w.held⟩
  refine Spec.bind (h₁.startNewTree_rule w₁ rfl) ?_
  rintro _ s₂ ⟨content, h₂, rep⟩
  refine Spec.bind (h₂.tryUnlockRootPageId_rule w.exclusive) fun _ s₃ h₃ =>
    spec_pure ⟨rfl, _, h₃, ?_, rfl, rfl, trivial, rep, ?_, ?_⟩
  · exact ⟨⟨rest.held, rest.opened, rfl, rest.deleted⟩, rfl, rfl, rfl, (Int.lt_succ _).le, rfl⟩
  · simp [Context.ids, BTree.ids]
  · simp only [Context.ids, BTree.ids, zero_add, Multiset.mem_singleton]
    rintro p rfl
    exact ⟨h.next_pos, Int.lt_succ _⟩

/-- `Insert` into a tree. -/
theorem At.insert_rule (h : At tree v s) (w : v.Writing) (rest : v.AtRest)
    (root : v.root = t.pageId) (focus : Focus tree.keySize v Context.top t) (wide : Wide t)
    (fits : t.Fits tree.keySize)
    (loc : locate (tree.pick key false) Context.top t = some (c, leaf))
    (free : ∀ p ∈ leaf.id :: c.path, v.base p = {}) :
    Spec (tree.insert key value true) s (fun r s' => r = (leaf.find tree.comparator key).isNone ∧
      ∃ v', At tree v' s' ∧ v.Settled v' ∧
        if (leaf.find tree.comparator key).isSome then v' = v
        else Outcome tree v v' (tree.insertTree key value c leaf v.next))
      fun e s' => (leaf.find tree.comparator key).isNone = true ∧
        tree.keySize.leafMax ≤ leaf.entries.length ∧ Exhausted e s' := by
  have valid : v.root ≠ invalidPageId := root ▸ ne_invalid focus.pos
  have focusLeaf := focus_of_locate focus loc
  have top : Context.Fits tree.keySize (Context.top : Context K V d) := trivial
  obtain ⟨fitsC, fitsLeaf⟩ := fits_of_locate top fits loc
  obtain ⟨page, hc, holds⟩ := id focusLeaf.sub
  refine Spec.bind (h.lockRootPageId_rule w.exclusive rest.rootHeld) fun _ s₁ h₁ => ?_
  refine Spec.bind_eq (a := s₁) (t := s₁) rfl ?_
  rw [if_neg (h₁.root ▸ valid)]
  refine Spec.bind (h₁.tryUnlockRootPageId_rule w.exclusive) fun _ s₂ h₂ => ?_
  have same : { v with rootHeld := false } = v := by rw [← rest.rootHeld]
  dsimp only at h₂
  rw [same] at h₂
  refine Spec.bind (h₂.findLeafPage_rule rest root focus wide loc
    (fun p hp => View.waits_of_free (free p hp)) w.exclusive
    (show OperationType.insert ≠ .read by decide)) ?_
  rintro _ s₃ ⟨rfl, held, rootHeld, h₃, latched⟩
  refine Spec.bind_eq (h₃.getLeaf_eq focusLeaf.pageId_ne_header hc) ?_
  rw [holds.lookup]
  cases found : leaf.find tree.comparator key with
  | some value =>
    simp only [Option.isSome_some, if_true]
    have w₃ : View.Writing { v with held := held, rootHeld := rootHeld } := by
      refine ⟨w.exclusive, w.opened, w.free, fun p hp => ?_⟩
      obtain rfl | hp := latched.path p hp
      · exact (focusLeaf.bound _ (Multiset.mem_add.2 (.inr (pageId_mem_ids (d := 0) leaf)))).2
      · exact (focusLeaf.bound p (Multiset.mem_add.2 (.inl (c.path_subset_ids p hp)))).2
    refine Spec.bind (h₃.freeAll_rule w₃ rest.deleted) fun _ s₄ h₄ =>
      spec_pure ⟨rfl, v, ?_, rest.settled, rfl⟩
    rw [← rest.eq]
    exact h₄
  | none =>
    simp only [Option.isSome_none, Bool.false_eq_true, if_false]
    exact (h₃.insertHeld_rule w rest focusLeaf latched fitsC fitsLeaf holds).mono
      (fun _ _ => id) fun e s' full => ⟨rfl, full⟩

end BPlusTree

end ScuDb
