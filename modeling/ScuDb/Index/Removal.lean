import ScuDb.Index.RemoveRules

/-!
# Remove

What `Remove` does to the tree the pages hold: the way up through merged pages, the page that
exchanges entries with its sibling, and the root.
-/

namespace ScuDb

open Program BTree Context

variable {K V : Type}

/-! ## The way up -/

namespace Context

/-- The subtree in the hole is `a` or `b`, two neighbours below `page`; it is the left one if it is
the first child. -/
def Beside {d : ℕ} (c : Context K V d) (t : BTree K V d) (page : PageId)
    (l : List (K × BTree K V d)) (ka : K) (a : BTree K V d) (kb : K) (b : BTree K V d)
    (r : List (K × BTree K V d)) (above : Context K V (d + 1)) : Prop :=
  (l = [] ∧ c = frame page [] ka ((kb, b) :: r) above ∧ t = a) ∨
    (c = frame page (l ++ [(ka, a)]) kb r above ∧ t = b)

/-- The neighbour of the subtree in the hole that `FindLeftSibling` finds. -/
def sibling {d : ℕ} : Context K V d → Option (BTree K V d)
  | top => none
  | frame _ left _ right _ => (left.getLast?.or right.head?).map Prod.snd

/-- What the way up from a node makes of the tree. -/
inductive Shrinks (n : KeySize) : {d : ℕ} → Context K V d → BTree K V d →
    Option (Σ h, BTree K V h) → Prop
  | emptied (t : LeafNode K V) : Shrinks n (d := 0) top t none
  | kept {d : ℕ} (t : BTree K V (d + 1)) (large : 1 < t.size) : Shrinks n top t (some ⟨d + 1, t⟩)
  | collapsed {d : ℕ} (page : PageId) (k : K) (t : BTree K V d) :
      Shrinks n (d := d + 1) top ⟨page, [(k, t)]⟩ (some ⟨d, t⟩)
  | merged {d : ℕ} {c : Context K V d} {t : BTree K V d} {page : PageId}
      {l r : List (K × BTree K V d)} {ka kb : K} {a b : BTree K V d} {above : Context K V (d + 1)}
      (beside : c.Beside t page l ka a kb b r above) (fits : a.size + b.size ≤ maxSize n d)
      (large : above.minSize n < l.length + (r.length + 1)) :
      Shrinks n c t (some (above.plug ⟨page, l ++ ([(ka, merge kb a b)] ++ r)⟩))
  | mergedUp {d : ℕ} {c : Context K V d} {t : BTree K V d} {page : PageId}
      {l r : List (K × BTree K V d)} {ka kb : K} {a b : BTree K V d} {above : Context K V (d + 1)}
      {result : Option (Σ h, BTree K V h)}
      (beside : c.Beside t page l ka a kb b r above) (fits : a.size + b.size ≤ maxSize n d)
      (small : l.length + (r.length + 1) ≤ above.minSize n)
      (rest : Shrinks n above ⟨page, l ++ ([(ka, merge kb a b)] ++ r)⟩ result) :
      Shrinks n c t result
  | movedFirst {d : ℕ} {page : PageId} {r : List (K × BTree K V d)} {ka kb k : K}
      {a b : BTree K V d} {above : Context K V (d + 1)} (full : maxSize n d < a.size + b.size)
      (first : firstKey (dropFirst b) = some k) :
      Shrinks n (frame page [] ka ((kb, b) :: r) above) a
        (some (above.plug ⟨page, [] ++ ([(ka, pushLast a b), (k, dropFirst b)] ++ r)⟩))
  | movedLast {d : ℕ} {page : PageId} {l r : List (K × BTree K V d)} {ka kb k : K}
      {a b : BTree K V d} {above : Context K V (d + 1)} (full : maxSize n d < a.size + b.size)
      (first : firstKey (pushFirst a b) = some k) :
      Shrinks n (frame page (l ++ [(ka, a)]) kb r above) b
        (some (above.plug ⟨page, l ++ ([(ka, dropLast a), (k, pushFirst a b)] ++ r)⟩))

theorem minSize_eq {n : KeySize} : {d : ℕ} → {c : Context K V d} →
    (∀ p ∈ c.ids, 0 < p) → BTree.minSize n d c.parentId = c.minSize n
  | 0, top, _ => rfl
  | _ + 1, top, _ => rfl
  | _, frame _ _ _ _ _, pos => if_neg (ne_invalid (pos _ (Multiset.mem_cons_self _ _)))

section Beside

variable {n : KeySize} {d : ℕ} {c : Context K V d} {t : BTree K V d} {page : PageId}
  {l r : List (K × BTree K V d)} {ka kb : K} {a b : BTree K V d} {above : Context K V (d + 1)}

/-- The node above the neighbours. -/
theorem Beside.plug_eq (h : c.Beside t page l ka a kb b r above) :
    c.plug t = above.plug ⟨page, l ++ ([(ka, a), (kb, b)] ++ r)⟩ := by
  obtain ⟨rfl, rfl, rfl⟩ | ⟨rfl, rfl⟩ := h
  · rfl
  · simp [plug]

theorem Beside.focus {v : BPlusTree.View K V} (h : c.Beside t page l ka a kb b r above)
    (focus : Focus n v c t) : Focus n v above ⟨page, l ++ ([(ka, a), (kb, b)] ++ r)⟩ := by
  obtain ⟨rfl, rfl, rfl⟩ | ⟨rfl, rfl⟩ := h
  · exact focus.up
  · simpa using focus.up

theorem Beside.ids_eq (h : c.Beside t page l ka a kb b r above) :
    c.ids + t.ids = above.ids + BTree.ids (d := d + 1) ⟨page, l ++ ([(ka, a), (kb, b)] ++ r)⟩ := by
  rw [← ids_plug, ← ids_plug, h.plug_eq]

theorem Beside.path_eq (h : c.Beside t page l ka a kb b r above) : c.path = page :: above.path := by
  obtain ⟨rfl, rfl, rfl⟩ | ⟨rfl, rfl⟩ := h
  · rfl
  · rfl

theorem Beside.mem_ids (h : c.Beside t page l ka a kb b r above) {p : PageId} (hp : p ∈ t.ids) :
    p ∈ a.ids + b.ids := by
  obtain ⟨rfl, rfl, rfl⟩ | ⟨rfl, rfl⟩ := h
  · exact Multiset.mem_add.2 (.inl hp)
  · exact Multiset.mem_add.2 (.inr hp)

/-- The page above the neighbours is held, and it is not safe if it is small. -/
theorem Beside.guarded {held : List PageId} {rootHeld : Bool}
    (h : c.Beside t page l ka a kb b r above) (guarded : c.Guarded n .delete held rootHeld) :
    page ∈ held ∧ ((∀ p ∈ above.ids, 0 < p) → l.length + (r.length + 1) ≤ above.minSize n →
      above.Guarded n .delete held rootHeld) := by
  have size : ∀ {left right : List (K × BTree K V d)} {k : K}, c = frame page left k right above →
      left.length + (right.length + 1) = l.length + (r.length + 1) + 1 →
      page ∈ held ∧ ((∀ p ∈ above.ids, 0 < p) → l.length + (r.length + 1) ≤ above.minSize n →
        above.Guarded n .delete held rootHeld) := by
    rintro left right k rfl length
    refine ⟨guarded.1, fun pos small => guarded.2.resolve_left ?_⟩
    rw [← minSize_eq pos] at small
    simp [safe, length]
    omega
  obtain ⟨rfl, hc, -⟩ | ⟨hc, -⟩ := h
  · exact size hc (by simp)
  · exact size hc (by simp; omega)

end Beside

end Context

theorem LeafNode.length_erased (comparator : K → K → ℤ) (key : K) (leaf : LeafNode K V) :
    leaf.entries.length ≤ (leaf.erased comparator key).entries.length + 1 ∧
      (leaf.erased comparator key).entries.length ≤ leaf.entries.length := by
  unfold LeafNode.erased
  split_ifs
  · dsimp only
    rw [List.length_eraseIdx]
    split_ifs <;> omega
  · omega

namespace BPlusTree

variable {tree : BPlusTree K} {v : View K V} {s : TreeState K V} {d : ℕ}
  {E : Fault → TreeState K V → Prop}

/-! ## The root -/

/-- What a removal leaves as it was, and what it deletes. -/
structure View.Removed {d : ℕ} (n : KeySize) (v v' : View K V) (c : Context K V d) (t : BTree K V d)
    (result : Option (Σ h, BTree K V h)) : Prop where
  exclusive : v'.exclusive = v.exclusive
  opened : v'.opened = v.opened
  pins : v'.pins = v.pins
  base : v'.base = v.base
  next : v'.next = v.next
  deletions : v'.deletions = v.deletions
  recorded : v'.root = v.root ∧ v'.recorded = v.recorded ∨
    v'.recorded = v.recorded.map fun _ => v'.root
  deleted : ∀ p ∈ v'.deleted, p ∈ v'.held ∧ (p ∈ c.ids + t.ids ∨ p ∈ v.deleted)
  tree : match result with
    | none => v'.root = invalidPageId
    | some u => v'.root = u.2.pageId ∧ Focus n v' top u.2 ∧ ∀ p ∈ v'.deleted, p ∉ u.2.ids

/-- A writer at the node `t`, which may be too small: what it holds and what it will delete. -/
structure View.Removing {d : ℕ} (n : KeySize) (v : View K V) (c : Context K V d) (t : BTree K V d) :
    Prop where
  focus : Focus n v c t
  root : v.root = (c.plug t).2.pageId
  exclusive : v.exclusive = true
  opened : v.opened = []
  here : t.pageId ∈ v.held
  held : ∀ p ∈ v.held, p ∈ c.path ∨ p ∈ t.ids ∨ p ∈ v.deleted
  deleted : ∀ p ∈ v.deleted, p ∈ v.held ∧ p ∉ c.ids + t.ids

/-- `AdjustRoot`; it tells the caller whether the old root is to be deleted. -/
theorem At.adjustRoot_rule {t : BTree K V d} (h : At tree v s)
    (w : v.Removing tree.keySize top t) (held : v.rootHeld = true) (pos : 0 < d → 0 < t.size) :
    Spec (tree.adjustRoot t.pageId) s (fun r s' => ∃ v' result, At tree v' s' ∧
      v.Removed tree.keySize
        (if r then { v' with deleted := Insert.insert t.pageId v'.deleted } else v') top t result ∧
      top.Shrinks tree.keySize t result) E := by
  have deleted {p : PageId} (hp : p ∈ Insert.insert t.pageId v.deleted) :
      p ∈ v.held ∧ (p ∈ (top : Context K V d).ids + t.ids ∨ p ∈ v.deleted) := by
    obtain rfl | hp := Finset.mem_insert.1 hp
    · exact ⟨w.here, .inl (Multiset.mem_add.2 (.inr (pageId_mem_ids t)))⟩
    · exact ⟨(w.deleted p hp).1, .inr hp⟩
  refine Spec.bind_eq (h.getPage_eq w.focus.pageId_ne_header) ?_
  cases d with
  | zero =>
    obtain ⟨page, hc, -⟩ := w.focus.sub
    rw [show v.content t.pageId = .leaf page from hc]
    refine Spec.bind (h.setRootPageId_rule w.exclusive held invalidPageId) fun _ s₁ h₁ => ?_
    refine Spec.bind (h₁.updateRootPageId_rule false ⟨?_, ?_⟩ nofun) fun _ s₂ h₂ =>
      spec_pure ⟨_, none, h₂, ?_, .emptied t⟩
    · show -2147483648 ≤ (-1 : ℤ)
      decide
    · show (-1 : ℤ) < 2147483648
      decide
    · exact ⟨rfl, rfl, rfl, rfl, rfl, rfl, .inr rfl, fun p hp => deleted hp, rfl⟩
  | succ d =>
    obtain ⟨page, slots⟩ := t
    obtain ⟨⟨p, hc, holds⟩, below⟩ := w.focus.sub
    have size : p.size = slots.length := by rw [holds.size, List.length_map]
    have same : BTree.size (d := d + 1) ⟨page, slots⟩ = slots.length := rfl
    rw [show v.content (pageId (d := d + 1) ⟨page, slots⟩) = .internal p from hc]
    dsimp only
    rw [size]
    by_cases one : slots.length = 1
    · -- the only child becomes the root
      obtain ⟨⟨k, t⟩, rfl⟩ := List.length_eq_one_iff.1 one
      rw [if_pos one]
      have nodup := (Multiset.nodup_add.1 w.focus.nodup).2.1
      rw [ids_inner, Multiset.nodup_cons] at nodup
      have ids : slotIds [(k, t)] = t.ids := add_zero _
      rw [ids] at nodup
      have off {q : PageId} (hq : q ∈ t.ids) : q ≠ page := by
        rintro rfl
        exact nodup.1 hq
      have bound {q : PageId} (hq : q ∈ t.ids) : 0 < q ∧ q < v.next :=
        w.focus.bound q (Multiset.mem_add.2 (.inr (Multiset.mem_cons_of_mem (Multiset.mem_of_le ids.ge hq))))
      obtain ⟨pos', lt⟩ := bound (pageId_mem_ids t)
      have rep : t.Rep tree.keySize v.content page := below (k, t) List.mem_cons_self
      set content := Function.update v.content page (.internal { p with size := 0 }) with hcontent
      have rep' : t.Rep tree.keySize content page :=
        rep.congr fun q hq => Function.update_of_ne (off hq) _ _
      obtain ⟨header, hh, -⟩ := rep'.root
      refine Spec.bind_eq (a := (t.pageId, { p with size := 0 })) (t := s)
        (by rw [holds.removeAndReturnOnlyChild]; rfl) ?_
      refine Spec.bind (h.setHeld_rule w.focus.pageId_ne_header w.exclusive w.here _)
        fun _ s₁ h₁ => ?_
      refine Spec.bind (h₁.setRootPageId_rule w.exclusive held t.pageId) fun _ s₂ h₂ => ?_
      refine Spec.bind (h₂.updateRootPageId_rule false ⟨?_, ?_⟩ nofun) fun _ s₃ h₃ => ?_
      · show (-2147483648 : ℤ) ≤ t.pageId
        exact (show (-2147483648 : ℤ) ≤ 0 by decide).trans pos'.le
      · exact (lt.trans_le h.next_le).trans (by decide)
      refine h₃.fetchSetParent_rule pos'.ne' hh invalidPageId .assertion fun s₄ h₄ => ?_
      refine Spec.bind (h₄.unpinDirty_rule _ rfl fun _ hq ne =>
        (List.mem_cons.1 hq).resolve_left ne) fun _ s₅ h₅ => ?_
      refine spec_pure ⟨_, some ⟨d, t⟩, h₅, ⟨rfl, rfl, rfl, rfl, rfl, rfl, .inr rfl, fun q hq => deleted hq,
        rfl, ⟨trivial, rep'.withParent nodup.2 invalidPageId, ?_, ?_⟩, fun q hq inside => ?_⟩,
        .collapsed page k t⟩
      · simpa [Context.ids] using nodup.2
      · simp only [Context.ids, zero_add]
        exact fun q hq => bound hq
      · obtain rfl | hq := Finset.mem_insert.1 hq
        · exact nodup.1 inside
        · refine (w.deleted q hq).2 (Multiset.mem_add.2 (.inr (Multiset.mem_cons_of_mem ?_)))
          exact Multiset.mem_of_le ids.ge inside
    · rw [if_neg one]
      have large : 1 < slots.length := by
        have := pos (Nat.succ_pos d)
        omega
      refine spec_pure ⟨v, some ⟨d + 1, ⟨page, slots⟩⟩, h, ⟨rfl, rfl, rfl, rfl, rfl, rfl,
        .inl ⟨rfl, rfl⟩, fun q hq => ?_, w.root, w.focus, fun q hq => ?_⟩, .kept _ large⟩
      · exact ⟨(w.deleted q hq).1, .inr hq⟩
      · exact fun inside => (w.deleted q hq).2 (Multiset.mem_add.2 (.inr inside))

/-! ## The sibling -/

section Sibling

variable {page : PageId} {left right l r : List (K × BTree K V d)} {k ka kb : K}
  {t a b : BTree K V d} {above : Context K V (d + 1)} {u : K × BTree K V d}

/-- The parent page of the hole. -/
theorem Focus.parent {n : KeySize} (focus : Focus n v (frame page left k right above) t) :
    page ≠ headerPageId ∧ ∃ p, v.content page = .internal p ∧ p.Holds n page above.parentId
      (left.map toSlot ++ (k, t.pageId) :: right.map toSlot) ∧
      p.valueIndex t.pageId = left.length := by
  have pos := focus.bound page (Multiset.mem_add.2 (.inl (Multiset.mem_cons_self _ _)))
  obtain ⟨⟨p, hp, holds⟩, -⟩ := focus.rep
  refine ⟨pos.1.ne', p, hp, holds, ?_⟩
  rw [holds.valueIndex, List.length_map]
  intro x hx same
  obtain ⟨y, hy, rfl⟩ := List.mem_map.1 hx
  refine focus.pageId_notMem ?_
  rw [← show y.2.pageId = t.pageId from same]
  exact Multiset.mem_cons_of_mem (Multiset.mem_add.2 (.inl (Multiset.mem_add.2
    (.inl (mem_slotIds.2 ⟨y, hy, pageId_mem_ids y.2⟩)))))

/-- `FindLeftSibling`: the sibling `u` is latched and put into the page set. -/
theorem At.findLeftSibling_rule (h : At tree v s) (ex : v.exclusive = true)
    (focus : Focus tree.keySize v (frame page left k right above) t) (parent : page ∈ v.held)
    (fits : left.length + (right.length + 1) ≤ tree.keySize.internalMax)
    (slots : left ++ (k, t) :: right = l ++ u :: r)
    (index : (l.length : ℤ) = if (left.length : ℤ) = 0 then (left.length : ℤ) + 1 else left.length - 1)
    (side : u ∈ left ++ right) (out : u.2.pageId ∉ v.held) (waits : v.Waits E u.2.pageId) :
    Spec (tree.findLeftSibling t.pageId true) s (fun r s' =>
      r = (decide ((left.length : ℤ) = 0), u.2.pageId) ∧
      At tree { v with held := v.held ++ [u.2.pageId] } s') E := by
  obtain ⟨pos, p, hp, holds, found⟩ := Focus.parent focus
  obtain ⟨header, hh, is, -⟩ := focus.sub.root
  obtain ⟨sibling, hs, -⟩ := (focus.rep.2.1 u side).root
  have inside : u.2.pageId ∈ (frame page left k right above).ids := by
    have : u.2.pageId ∈ slotIds (left ++ right) := mem_slotIds.2 ⟨u, side, pageId_mem_ids u.2⟩
    rw [slotIds_append] at this
    exact Multiset.mem_cons_of_mem (Multiset.mem_add.2 (.inl this))
  have ne : u.2.pageId ≠ headerPageId := focus.ne_header (Multiset.mem_add.2 (.inl inside))
  have value : p.valueAt tree.keySize l.length = .ok u.2.pageId := by
    have same : left.map toSlot ++ (k, t.pageId) :: right.map toSlot =
        l.map toSlot ++ (u.1, u.2.pageId) :: r.map toSlot := by
      have := congrArg (List.map toSlot) slots
      rw [List.map_append, List.map_append, List.map_cons, List.map_cons] at this
      exact this
    rw [same] at holds
    have length := holds.fields.size
    have := InternalPage.Holds.valueAt holds (by
      rw [← same]
      simp
      omega)
    simpa using this
  refine Spec.bind_eq (h.getTreePage_eq focus.pageId_ne_header hh) ?_
  have parentId : header.parentPageId = page := is.parentPageId
  rw [parentId, is.pageId]
  refine Spec.bind (h.fetchPage_rule page .nullDeref) fun _ s₁ h₁ => ?_
  refine Spec.bind_eq (h₁.getInternal_eq pos hp) ?_
  dsimp only
  rw [found, ← index]
  refine Spec.bind_eq (a := u.2.pageId) (t := s₁) (by rw [value]; rfl) ?_
  refine Spec.bind (h₁.crabKeep_rule ex (show OperationType.delete ≠ .read by decide) out waits ne hs
    (.inl (by decide))) fun _ s₂ h₂ => ?_
  rw [holds.fields.pageId]
  exact Spec.bind (h₂.unpinClean_rule rfl (.inl (List.mem_append_left _ parent))) fun _ s₃ h₃ =>
    spec_pure ⟨rfl, h₃⟩

/-- `Coalesce`, up to the decision about the parent page. -/
theorem At.coalesce_rule {f : PageId → TreeM K V Bool} {R : Bool → TreeState K V → Prop}
    (h : At tree v s) (nb : Neighbours tree.keySize v page l ka a kb b r above)
    (fits : a.size + b.size ≤ maxSize tree.keySize d) (pos : 0 < b.size)
    (rest : ∀ content s', At tree { v with
        content := content, deleted := Insert.insert b.pageId v.deleted } s' →
      Focus tree.keySize { v with content := content } above
        ⟨page, l ++ ([(ka, merge kb a b)] ++ r)⟩ →
      Spec (if l.length + (r.length + 1) ≤ above.minSize tree.keySize then f page
        else return false) s' R E) :
    Spec (tree.coalesce f a.pageId b.pageId page (l.length + 1) true) s R E := by
  have hb := nb.ne_header (inRight (pageId_mem_ids b))
  obtain ⟨p, hp, holds⟩ := nb.page_holds
  obtain ⟨p', run, holds'⟩ := holds.remove
  have index : ((l.map toSlot ++ [toSlot (ka, a)]).length : ℤ) = l.length + 1 := by simp
  rw [index] at run
  refine Spec.bind (h.moveAllTo_rule nb fits pos) ?_
  rintro _ s₁ ⟨content, h₁, rep, ⟨header, hh, id⟩, same⟩
  refine Spec.bind_eq (h₁.getTreePage_eq hb hh) ?_
  rw [id]
  refine Spec.bind (h₁.addIntoDeletedPageSet_rule b.pageId) fun _ s₂ h₂ => ?_
  have hp₂ : content page = .internal p := by
    rw [same page fun inside => nb.ne_parent inside rfl, hp]
  refine Spec.bind_eq (h₂.getInternal_eq nb.parent_ne_header hp₂) ?_
  refine Spec.bind_eq (a := p') (t := s₂) (by rw [run]; rfl) ?_
  refine Spec.bind (h₂.setHeld_rule nb.parent_ne_header nb.exclusive nb.parent _) fun _ s₃ h₃ => ?_
  have focus : Focus tree.keySize { v with
      content := Function.update content page (.internal p') } above (d := d + 1)
      ⟨page, l ++ ([(ka, merge kb a b)] ++ r)⟩ := by
    have ids := ids_merge kb a b
    refine nb.focus.replace (Function.update_self _ _ _) ?_ ?_ ?_ fun q hq => ?_
    · simpa [toSlot] using holds'
    · simp only [List.mem_singleton]
      rintro x rfl
      refine rep.congr fun q hq => Function.update_of_ne (nb.ne_parent ?_) _ _
      exact ids ▸ Multiset.mem_cons_of_mem hq
    · rw [slotIds_pair, ← ids, slotIds_cons, slotIds_nil, add_zero]
      exact Multiset.le_cons_self _ _
    · exact (Function.update_of_ne (nb.focus.ne_page hq) _ _).trans (same q (nb.outside hq))
  have size : p'.size = l.length + (r.length + 1) := by
    rw [holds'.size]
    simp
  have least : p'.getMinSize false = above.minSize tree.keySize := by
    have pos : ∀ q ∈ above.ids, 0 < q := fun q hq =>
      (nb.focus.bound q (Multiset.mem_add.2 (.inl hq))).1
    rw [← Context.minSize_eq pos]
    exact BPlusTreePage.Is.getMinSize (d := d + 1) holds'.fields
  rw [size, least]
  exact rest _ _ h₃ focus

end Sibling

/-! ## The way up -/

section Up

variable {n : KeySize} {c : Context K V d} {t : BTree K V d} {page u : PageId}
  {l r mid : List (K × BTree K V d)} {ka kb : K} {a b : BTree K V d} {above : Context K V (d + 1)}
  {deleted : Finset PageId} {content : PageId → IndexPage K V} {pins : Multiset PageId}

/-- Nothing is left to do. -/
theorem View.Removing.done (w : v.Removing n c t) : v.Removed n v c t (some (c.plug t)) := by
  refine ⟨rfl, rfl, rfl, rfl, rfl, rfl, .inl ⟨rfl, rfl⟩, fun p hp => ⟨(w.deleted p hp).1, .inr hp⟩,
    w.root, w.focus.plug, fun p hp => ?_⟩
  rw [ids_plug]
  exact (w.deleted p hp).2

/-- The neighbours are replaced by `mid`, and the pages of `deleted` are left over. -/
theorem View.Removing.lift (pins : Multiset PageId) (w : v.Removing n c t)
    (beside : c.Beside t page l ka a kb b r above)
    (parent : page ∈ v.held) (hu : u ∈ a.ids + b.ids)
    (ids : deleted.val + slotIds mid = a.ids + b.ids) (hd : ∀ p ∈ deleted, p ∈ v.held ++ [u])
    (focus : Focus n { v with content := content } above ⟨page, l ++ (mid ++ r)⟩) :
    View.Removing n { v with
      content := content
      pins := pins
      held := v.held ++ [u]
      deleted := deleted ∪ v.deleted } above ⟨page, l ++ (mid ++ r)⟩ := by
  have old := beside.ids_eq
  have nodup := w.focus.nodup
  rw [old, ids_window, slotIds_pair, ← ids] at nodup
  rw [ids_window, slotIds_pair, ← ids] at old
  refine ⟨focus.congr rfl rfl, ?_, w.exclusive, w.opened, List.mem_append_left _ parent,
    fun p hp => ?_, fun p hp => ?_⟩
  · rw [w.root, beside.plug_eq]
    exact above.pageId_plug rfl
  · have inside (hp : p ∈ a.ids + b.ids) : p ∈ above.path ∨
        p ∈ BTree.ids (d := d + 1) ⟨page, l ++ (mid ++ r)⟩ ∨ p ∈ deleted ∪ v.deleted := by
      rw [← ids] at hp
      obtain hp | hp := Multiset.mem_add.1 hp
      · exact .inr (.inr (Finset.mem_union_left _ hp))
      · rw [ids_window]
        exact .inr (.inl (Multiset.mem_cons_of_mem
          (Multiset.mem_add.2 (.inr (Multiset.mem_add.2 (.inl hp))))))
    obtain hp | hp := List.mem_append.1 hp
    · obtain hp | hp | hp := w.held p hp
      · rw [beside.path_eq] at hp
        obtain rfl | hp := List.mem_cons.1 hp
        · exact .inr (.inl (pageId_mem_ids (d := d + 1) ⟨p, l ++ (mid ++ r)⟩))
        · exact .inl hp
      · exact inside (beside.mem_ids hp)
      · exact .inr (.inr (Finset.mem_union_right _ hp))
    · obtain rfl := List.mem_singleton.1 hp
      exact inside hu
  · have split : above.ids + (page ::ₘ (slotIds l + (deleted.val + slotIds mid + slotIds r))) =
        deleted.val + (above.ids + (page ::ₘ (slotIds l + (slotIds mid + slotIds r)))) := by
      simp only [← Multiset.singleton_add]
      abel
    rw [split] at nodup old
    rw [ids_window]
    obtain hp | hp := Finset.mem_union.1 hp
    · exact ⟨hd p hp, Multiset.disjoint_left.1 (Multiset.nodup_add.1 nodup).2.2 hp⟩
    · obtain ⟨held, out⟩ := w.deleted p hp
      rw [old] at out
      exact ⟨List.mem_append_left _ held, fun hp => out (Multiset.mem_add.2 (.inr hp))⟩

/-- What is done above is done for the hole below. -/
theorem View.Removed.outer {v' : View K V} {result : Option (Σ h, BTree K V h)}
    (beside : c.Beside t page l ka a kb b r above)
    (ids : deleted.val + slotIds mid = a.ids + b.ids)
    (h : View.Removed n { v with
      content := content
      pins := pins
      held := v.held ++ [u]
      deleted := deleted ∪ v.deleted } v' above ⟨page, l ++ (mid ++ r)⟩ result) :
    v.Removed n { v' with pins := v.pins } c t result := by
  refine ⟨h.exclusive, h.opened, rfl, h.base, h.next, h.deletions, h.recorded, fun p hp => ?_, ?_⟩
  · obtain ⟨held, hp⟩ := h.deleted p hp
    refine ⟨held, ?_⟩
    rw [beside.ids_eq, ids_window, slotIds_pair, ← ids]
    rw [ids_window] at hp
    simp only [Multiset.mem_add, Multiset.mem_cons, Finset.mem_union, Finset.mem_val] at hp ⊢
    tauto
  · cases result with
    | none => exact h.tree
    | some u => exact ⟨h.tree.1, h.tree.2.1.congr rfl rfl, h.tree.2.2⟩

end Up

/-- What holds when `CoalesceOrRedistribute` is done with the node `t`; nobody else holds the sibling
that took part. -/
def View.Done {d : ℕ} (tree : BPlusTree K) (v : View K V) (c : Context K V d) (t : BTree K V d)
    (s : TreeState K V) : Prop :=
  (∀ u ∈ c.sibling, v.base u.pageId = {}) ∧ ∃ v' result, At tree v' s ∧
    v.Removed tree.keySize v' c t result ∧ c.Shrinks tree.keySize t result

section Join

variable {c : Context K V d} {t u : BTree K V d} {page : PageId} {l r : List (K × BTree K V d)}
  {ka kb : K} {a b : BTree K V d} {above : Context K V (d + 1)} {fuel : ℕ}

/-- The sibling is held beside the node. -/
theorem View.Removing.neighbours {n : KeySize} (pins : Multiset PageId) (w : v.Removing n c t)
    (beside : c.Beside t page l ka a kb b r above) (parent : page ∈ v.held)
    (fits : l.length + (r.length + 1) + 1 ≤ n.internalMax)
    (hu : t = a ∧ u = b ∨ t = b ∧ u = a) :
    Neighbours n { v with pins := pins, held := v.held ++ [u.pageId] } page l ka a kb b r above := by
  refine ⟨(beside.focus w.focus).congr rfl rfl, ?_, w.exclusive, ?_, ?_,
    List.mem_append_left _ parent⟩
  · simp
    omega
  · obtain ⟨rfl, rfl⟩ | ⟨rfl, rfl⟩ := hu
    · exact List.mem_append_left _ w.here
    · exact List.mem_append_right _ (List.mem_singleton_self _)
  · obtain ⟨rfl, rfl⟩ | ⟨rfl, rfl⟩ := hu
    · exact List.mem_append_right _ (List.mem_singleton_self _)
    · exact List.mem_append_left _ w.here

/-- `Coalesce` and what it causes above. -/
theorem At.coalesceUp_rule (h : At tree { v with
      pins := page ::ₘ v.pins, held := v.held ++ [u.pageId] } s)
    (w : v.Removing tree.keySize c t) (beside : c.Beside t page l ka a kb b r above)
    (guarded : c.Guarded tree.keySize .delete v.held v.rootHeld)
    (fits : l.length + (r.length + 1) + 1 ≤ tree.keySize.internalMax)
    (hu : t = a ∧ u = b ∨ t = b ∧ u = a) (sum : a.size + b.size ≤ maxSize tree.keySize d)
    (pos : 0 < b.size) (free : ∀ u ∈ c.sibling, v.base u.pageId = {})
    (up : ∀ {v₁ : View K V} {s₁ : TreeState K V}, At tree v₁ s₁ → v₁.base = v.base →
      v₁.Removing tree.keySize above ⟨page, l ++ ([(ka, merge kb a b)] ++ r)⟩ →
      above.Guarded tree.keySize .delete v₁.held v₁.rootHeld →
      l.length + (r.length + 1) ≤ above.minSize tree.keySize →
      Spec (tree.coalesceOrRedistribute fuel page true) s₁
        (fun _ => v₁.Done tree above ⟨page, l ++ ([(ka, merge kb a b)] ++ r)⟩) E) :
    Spec (do
      let _ ← tree.coalesce (fun p => tree.coalesceOrRedistribute fuel p true) a.pageId b.pageId page
        (l.length + 1) true
      unpinPage page true
      return true) s (fun _ => v.Done tree c t) E := by
  obtain ⟨parent, above'⟩ := beside.guarded guarded
  have nb := w.neighbours (page ::ₘ v.pins) beside parent fits hu
  have hu' : u.pageId ∈ a.ids + b.ids := by
    obtain ⟨-, rfl⟩ | ⟨-, rfl⟩ := hu
    · exact inRight (pageId_mem_ids u)
    · exact inLeft (pageId_mem_ids u)
  have ids : ({b.pageId} : Finset PageId).val + slotIds [((ka, merge kb a b) : K × BTree K V d)] =
      a.ids + b.ids := by
    rw [← ids_merge kb a b]
    simp
  have held : ∀ p ∈ ({b.pageId} : Finset PageId), p ∈ v.held ++ [u.pageId] := by
    intro p hp
    obtain rfl := Finset.mem_singleton.1 hp
    exact nb.right
  -- the parent page is unpinned at the end, whether it is too small itself or not
  refine Spec.bind (P := fun _ s' => ∃ content v' result, At tree v' s' ∧
    View.Removed tree.keySize { v with
      content := content
      pins := page ::ₘ v.pins
      held := v.held ++ [u.pageId]
      deleted := {b.pageId} ∪ v.deleted } v' above
      ⟨page, l ++ ([(ka, merge kb a b)] ++ r)⟩ result ∧ c.Shrinks tree.keySize t result) ?_ ?_
  · refine h.coalesce_rule nb sum pos fun content s₁ h₁ focus => ?_
    have w₁ := w.lift (page ::ₘ v.pins) beside parent hu' ids held
      (focus.congr rfl rfl)
    have positive : ∀ p ∈ above.ids, 0 < p := fun p hp =>
      (focus.bound p (Multiset.mem_add.2 (.inl hp))).1
    by_cases small : l.length + (r.length + 1) ≤ above.minSize tree.keySize
    · rw [if_pos small]
      refine (up h₁ rfl w₁ ?_ small).post ?_
      · exact (above' positive small).mono fun p hp => List.mem_append_left _ hp
      · rintro _ s₂ ⟨-, v', result, h₂, removed, shrinks⟩
        exact ⟨content, v', result, h₂, removed, .mergedUp beside sum small shrinks⟩
    · rw [if_neg small]
      exact spec_pure ⟨content, _, _, h₁, w₁.done, .merged beside sum (not_le.1 small)⟩
  · rintro _ s₁ ⟨content, v', result, h₁, removed, shrinks⟩
    refine Spec.bind (h₁.unpinDirty_rule v'.opened removed.pins fun _ hq _ => hq)
      fun _ s₂ h₂ => spec_pure ⟨free, _, result, h₂, removed.outer beside ids, shrinks⟩

/-- `Redistribute` changes nothing above. -/
theorem At.redistributeUp_rule {x : TreeM K V Unit} {pageU : PageId}
    (w : v.Removing tree.keySize c t) (beside : c.Beside t page l ka a kb b r above)
    (parent : page ∈ v.held) (hu : pageU ∈ a.ids + b.ids)
    (free : ∀ u ∈ c.sibling, v.base u.pageId = {})
    (moved : Spec x s (fun _ s' => ∃ content mid, slotIds mid = a.ids + b.ids ∧
      At tree { v with
        content := content, pins := page ::ₘ v.pins, held := v.held ++ [pageU] } s' ∧
      Focus tree.keySize { v with content := content } above ⟨page, l ++ (mid ++ r)⟩ ∧
      c.Shrinks tree.keySize t (some (above.plug ⟨page, l ++ (mid ++ r)⟩))) E) :
    Spec (do
      x
      unpinPage page false
      return false) s (fun _ => v.Done tree c t) E := by
  refine Spec.bind moved ?_
  rintro _ s₁ ⟨content, mid, ids, h₁, focus, shrinks⟩
  have ids' : (∅ : Finset PageId).val + slotIds mid = a.ids + b.ids := by
    rw [← ids]
    exact zero_add _
  have w₁ := w.lift (page ::ₘ v.pins) beside parent hu ids'
    (by simp) focus
  have none : ∅ ∪ v.deleted = v.deleted := Finset.empty_union _
  refine Spec.bind (h₁.unpinClean_rule rfl (.inl (List.mem_append_left _ parent))) fun _ s₂ h₂ => ?_
  refine spec_pure ⟨free, _, _, ?_, w₁.done.outer beside ids', shrinks⟩
  rw [none]
  exact h₂

end Join

/-- A sibling is not held yet. -/
theorem View.Removing.sibling_notMem {n : KeySize} {t : BTree K V d} {page : PageId}
    {left right : List (K × BTree K V d)} {k : K} {above : Context K V (d + 1)}
    {x : K × BTree K V d} (w : v.Removing n (frame page left k right above) t)
    (side : x ∈ left ++ right) : x.2.pageId ∉ v.held := by
  have inside : x.2.pageId ∈ slotIds left + slotIds right := by
    rw [← slotIds_append]
    exact mem_slotIds.2 ⟨x, side, pageId_mem_ids x.2⟩
  have inC : x.2.pageId ∈ (frame page left k right above).ids :=
    Multiset.mem_cons_of_mem (Multiset.mem_add.2 (.inl inside))
  obtain ⟨nodupC, -, disjoint⟩ := Multiset.nodup_add.1 w.focus.nodup
  obtain ⟨outPage, nodup⟩ := Multiset.nodup_cons.1 nodupC
  intro held
  obtain path | below | deleted := w.held _ held
  · obtain same | path := List.mem_cons.1 path
    · exact outPage (Multiset.mem_add.2 (.inl (same ▸ inside)))
    · exact Multiset.disjoint_left.1 (Multiset.nodup_add.1 nodup).2.2 inside
        (above.path_subset_ids _ path)
  · exact Multiset.disjoint_left.1 disjoint inC below
  · exact (w.deleted _ deleted).2 (Multiset.mem_add.2 (.inl inC))

theorem two_le_minSize (n : KeySize) : (c : Context K V (d + 1)) → 2 ≤ c.minSize n
  | top => le_rfl
  | frame _ _ _ _ _ => by
    have := n.six_le_internalMax
    show 2 ≤ n.internalMax / 2
    omega

theorem five_le_maxSize (n : KeySize) : (d : ℕ) → 5 ≤ maxSize n d
  | 0 => n.five_le_leafMax
  | _ + 1 => (show 5 ≤ 6 by decide).trans n.six_le_internalMax

/-- `CoalesceOrRedistribute`, by induction on the way up. -/
theorem coalesceOrRedistribute_rule {d : ℕ} (c : Context K V d) : ∀ {t : BTree K V d} (fuel : ℕ)
    {v : View K V} {s : TreeState K V}, At tree v s → (∀ p, v.Waits E p) →
    v.Removing tree.keySize c t → c.Guarded tree.keySize .delete v.held v.rootHeld →
    c.Sized tree.keySize → c.minSize tree.keySize ≤ t.size + 1 → t.size ≤ c.minSize tree.keySize → c.height < fuel →
    Spec (tree.coalesceOrRedistribute fuel t.pageId true) s (fun _ => v.Done tree c t) E := by
  induction c with
  | @top d =>
    intro t fuel v s h _ w guarded _ least _ hf
    obtain ⟨fuel, rfl⟩ : ∃ k, fuel = k + 1 := ⟨fuel - 1, by omega⟩
    obtain ⟨header, hh, is, -⟩ := w.focus.sub.root
    have pos : 0 < d → 0 < t.size := by
      rintro hd
      obtain ⟨d, rfl⟩ : ∃ k, d = k + 1 := ⟨d - 1, by omega⟩
      change rootMin (d + 1) ≤ _ at least
      simp only [rootMin] at least
      omega
    refine Spec.bind_eq (h.getTreePage_eq w.focus.pageId_ne_header hh) ?_
    rw [if_pos (by simp [BPlusTreePage.isRootPage, is.parentPageId, Context.parentId]), is.pageId]
    refine Spec.bind (h.adjustRoot_rule w guarded pos) ?_
    rintro r s₁ ⟨v', result, h₁, removed, shrinks⟩
    have alone (u : BTree K V d) (hu : u ∈ (top : Context K V d).sibling) : v.base u.pageId = {} := by
      cases hu
    cases r with
    | false => exact spec_pure ⟨alone, v', result, h₁, removed, shrinks⟩
    | true =>
      exact Spec.bind (h₁.addIntoDeletedPageSet_rule t.pageId) fun _ s₂ h₂ =>
        spec_pure ⟨alone, _, result, h₂, removed, shrinks⟩
  | @frame d page left k right above ih =>
    intro t fuel v s h waits w guarded sized least most hf
    obtain ⟨fuel, rfl⟩ : ∃ k, fuel = k + 1 := ⟨fuel - 1, by omega⟩
    obtain ⟨leastP, mostP, sides, sizedAbove⟩ := sized
    obtain ⟨header, hh, is, isLeaf⟩ := w.focus.sub.root
    obtain ⟨pos, p, hp, holds, found⟩ := Focus.parent w.focus
    have min : maxSize tree.keySize d / 2 ≤ t.size + 1 := least
    have small : t.size ≤ maxSize tree.keySize d / 2 := most
    refine Spec.bind_eq (h.getTreePage_eq w.focus.pageId_ne_header hh) ?_
    have parentId : header.parentPageId = page := is.parentPageId
    have inside : page ∈ (frame page left k right above).ids + t.ids :=
      Multiset.mem_add.2 (.inl (Multiset.mem_cons_self _ _))
    have valid : page ≠ invalidPageId := ne_invalid (w.focus.bound page inside).1
    rw [if_neg (by simpa [BPlusTreePage.isRootPage, parentId] using valid)]
    have two := two_le_minSize tree.keySize above
    have five := five_le_maxSize tree.keySize d
    have height : above.height < fuel := Nat.lt_of_succ_lt_succ hf
    rcases List.eq_nil_or_concat' left with rfl | ⟨l, ⟨ka, a⟩, rfl⟩
    · -- the first child: its right sibling
      obtain ⟨⟨kb, b⟩, r, rfl⟩ : ∃ x r, right = x :: r := by
        refine List.exists_cons_of_ne_nil ?_
        rintro rfl
        simp at leastP
        omega
      have beside : (frame page [] k ((kb, b) :: r) above).Beside t page [] k t kb b r above :=
        .inl ⟨rfl, rfl, rfl⟩
      have side : (kb, b) ∈ [] ++ (kb, b) :: r := by simp
      have leastB : maxSize tree.keySize d / 2 ≤ b.size := (sized_iff.1 (sides (kb, b) side)).1
      obtain ⟨near, hn, isNear, -⟩ := (w.focus.rep.2.1 (kb, b) side).root
      have length : ([] : List (K × BTree K V d)).length + (r.length + 1) + 1 =
          ([] : List (K × BTree K V d)).length + (((kb, b) :: r).length + 1) := by simp
      obtain ⟨parent, -⟩ := beside.guarded guarded
      have nb := w.neighbours (page ::ₘ v.pins) beside parent (length.trans_le mostP)
        (.inl ⟨rfl, rfl⟩)
      have index : p.valueIndex b.pageId = ([] : List (K × BTree K V d)).length + 1 :=
        nb.valueIndex holds
      refine Spec.bind (h.findLeftSibling_rule w.exclusive w.focus parent mostP (l := [(k, t)])
        (u := (kb, b)) rfl (by simp) side (w.sibling_notMem side) (waits _)) ?_
      rintro _ s₁ ⟨rfl, h₁⟩
      have free (u : BTree K V d) (hu : u ∈ (frame page [] k ((kb, b) :: r) above).sibling) :
          v.base u.pageId = {} := by
        obtain rfl : b = u := Option.some.inj hu
        exact h₁.held_base _ (List.mem_append_right _ (List.mem_singleton_self _))
      rw [parentId]
      refine Spec.bind (h₁.fetchPage_rule page .nullDeref) fun _ s₂ h₂ => ?_
      refine Spec.bind_eq (h₂.getTreePage_eq (nb.ne_header (inRight (pageId_mem_ids b))) hn) ?_
      refine Spec.bind_eq (h₂.getInternal_eq pos hp) ?_
      rw [is.size, show near.size = b.size from isNear.size, is.maxSize]
      by_cases sum : t.size + b.size ≤ maxSize tree.keySize d
      · rw [if_pos sum, if_pos (by simp)]
        dsimp only
        rw [isNear.pageId, index, holds.fields.pageId]
        refine At.coalesceUp_rule h₂ w beside guarded (length.trans_le mostP) (.inl ⟨rfl, rfl⟩) sum
          (by omega) free fun h₃ base₃ w₃ guarded₃ small₃ => ?_
        refine ih fuel h₃ (fun p => (waits p).congr base₃) w₃ guarded₃ sizedAbove (leastP.trans ?_) ?_
          height
        · simp [BTree.size]
        · simpa [BTree.size] using small₃
      · rw [if_neg sum]
        dsimp only
        rw [is.pageId, found, holds.fields.pageId]
        refine At.redistributeUp_rule w beside parent (inRight (pageId_mem_ids b)) free ?_
        refine (h₂.moveFirstToEndOf_rule nb (by omega) (by omega)).post ?_
        rintro _ s₃ ⟨content, key, first, h₃, focus⟩
        refine ⟨content, _, ?_, h₃, focus.congr rfl rfl, .movedFirst (not_le.1 sum) first⟩
        rw [slotIds_pair, ids_pushLast_add_dropFirst]
    · -- another child: its left sibling
      have beside : (frame page (l ++ [(ka, a)]) k right above).Beside t page l ka a k t right above :=
        .inr ⟨rfl, rfl⟩
      have side : (ka, a) ∈ (l ++ [(ka, a)]) ++ right := by simp
      have leastA : maxSize tree.keySize d / 2 ≤ a.size := (sized_iff.1 (sides (ka, a) side)).1
      obtain ⟨near, hn, isNear, -⟩ := (w.focus.rep.2.1 (ka, a) side).root
      have length : l.length + (right.length + 1) + 1 =
          (l ++ [(ka, a)]).length + (right.length + 1) := by
        simp
        omega
      have positive : ((l ++ [(ka, a)]).length : ℤ) ≠ 0 := by
        simp
        omega
      obtain ⟨parent, -⟩ := beside.guarded guarded
      have nb := w.neighbours (page ::ₘ v.pins) beside parent (length.trans_le mostP)
        (.inr ⟨rfl, rfl⟩)
      have index : p.valueIndex t.pageId = l.length + 1 := by
        rw [found]
        simp
      refine Spec.bind (h.findLeftSibling_rule w.exclusive w.focus parent mostP (l := l)
        (r := (k, t) :: right) (u := (ka, a)) (by simp) ?_ side (w.sibling_notMem side) (waits _)) ?_
      · rw [if_neg positive]
        simp
      rintro _ s₁ ⟨rfl, h₁⟩
      have free (u : BTree K V d)
          (hu : u ∈ (frame page (l ++ [(ka, a)]) k right above).sibling) : v.base u.pageId = {} := by
        obtain rfl : a = u := by simpa [Context.sibling] using hu
        exact h₁.held_base _ (List.mem_append_right _ (List.mem_singleton_self _))
      rw [parentId]
      refine Spec.bind (h₁.fetchPage_rule page .nullDeref) fun _ s₂ h₂ => ?_
      refine Spec.bind_eq (h₂.getTreePage_eq (nb.ne_header (inLeft (pageId_mem_ids a))) hn) ?_
      refine Spec.bind_eq (h₂.getInternal_eq pos hp) ?_
      rw [is.size, show near.size = a.size from isNear.size, is.maxSize]
      by_cases sum : t.size + a.size ≤ maxSize tree.keySize d
      · rw [if_pos sum, if_neg (by simpa using positive)]
        dsimp only
        rw [is.pageId, index, holds.fields.pageId]
        refine At.coalesceUp_rule h₂ w beside guarded (length.trans_le mostP) (.inr ⟨rfl, rfl⟩)
          (by omega) (by omega) free fun h₃ base₃ w₃ guarded₃ small₃ => ?_
        refine ih fuel h₃ (fun p => (waits p).congr base₃) w₃ guarded₃ sizedAbove (leastP.trans ?_) ?_
          height
        · simp [BTree.size]
          omega
        · simpa [BTree.size] using small₃
      · rw [if_neg sum]
        dsimp only
        rw [is.pageId, index, holds.fields.pageId]
        refine At.redistributeUp_rule w beside parent (inLeft (pageId_mem_ids a)) free ?_
        unfold redistribute
        rw [if_neg (by omega)]
        refine (h₂.moveLastToFrontOf_rule nb (by omega) (by omega)).post ?_
        rintro _ s₃ ⟨content, key, first, h₃, focus⟩
        refine ⟨content, _, ?_, h₃, focus.congr rfl rfl, .movedLast (by omega) first⟩
        rw [slotIds_pair, ids_dropLast_add_pushFirst]

/-! ## Remove -/

section Remove

variable {t : BTree K V d} {c : Context K V 0} {leaf : LeafNode K V} {key : K}

/-- What `Remove` makes of the tree around the leaf that it reaches. -/
def RemoveTree (tree : BPlusTree K) (key : K) (c : Context K V 0) (leaf : LeafNode K V)
    (result : Option (Σ h, BTree K V h)) : Prop :=
  let leaf := leaf.erased tree.comparator key
  if leaf.entries.length < c.minSize tree.keySize then c.Shrinks tree.keySize (d := 0) leaf result
  else result = some (c.plug leaf)

/-- Nobody else holds the leaf, and its sibling if the leaf becomes too small. -/
def View.Reaches (v : View K V) (tree : BPlusTree K) (key : K) (c : Context K V 0)
    (leaf : LeafNode K V) : Prop :=
  v.base leaf.id = {} ∧
    ((leaf.erased tree.comparator key).entries.length < c.minSize tree.keySize →
      ∀ u ∈ c.sibling, v.base u.pageId = {})

/-- What `DeletePage` returned for pages of the tree. -/
def View.DeletedFrom (v : View K V) (ids : Multiset PageId) (results : List Bool) : Prop :=
  ∀ r ∈ results, ∃ p ∈ ids, r = decide (p ∉ v.pins)

/-- `FreePagesInTransaction` behind a removal. -/
theorem At.freeRemoved_rule {v' : View K V} {c : Context K V d} {t : BTree K V d}
    {result : Option (Σ h, BTree K V h)} (h : At tree v' s)
    (removed : v.Removed tree.keySize v' c t result) (ex : v.exclusive = true)
    (opened : v.opened = []) (none : v.deleted = ∅) (bound : ∀ p ∈ c.ids + t.ids, 0 < p) :
    Spec (freePagesInTransaction true true) s (fun _ s' => ∃ v'' results, At tree v'' s' ∧
      v.DeletedFrom (c.ids + t.ids) results ∧
      View.Settled { v with deletions := results ++ v.deletions } v'' ∧
      v''.root = v'.root ∧ v''.recorded = v'.recorded ∧
      ∀ u, result = some u → v''.root = u.2.pageId ∧ Focus tree.keySize v'' top u.2) E := by
  have deleted {p : PageId} (hp : p ∈ v'.deleted) : p ∈ v'.held ∧ p ∈ c.ids + t.ids := by
    obtain ⟨held, hp⟩ := removed.deleted p hp
    exact ⟨held, hp.resolve_right (by simp [none])⟩
  refine (h.freePages_rule (removed.exclusive.trans ex) (removed.opened.trans opened)
    (fun p hp => (deleted hp).1) (fun hp => ?_) (-1)).post ?_
  · exact absurd (bound _ (deleted hp).2) (lt_irrefl _)
  rintro _ s₁ ⟨results, deletes, h₁⟩
  refine ⟨_, results, h₁, fun r hr => ?_, ⟨⟨rfl, removed.opened.trans opened, rfl, rfl⟩,
    removed.exclusive, removed.pins, removed.base, removed.next.ge, ?_⟩, rfl, rfl, ?_⟩
  · obtain ⟨p, hp, result⟩ := deletes r hr
    exact ⟨p, (deleted hp).2, removed.pins ▸ result⟩
  · exact congrArg (results ++ ·) removed.deletions
  · rintro u rfl
    obtain ⟨root, focus, out⟩ := removed.tree
    refine ⟨root, trivial, focus.sub.congr fun p hp => ?_, focus.nodup, focus.bound⟩
    exact if_neg fun del => out p del.1 hp

/-- `Remove` in a tree. -/
theorem At.remove_rule (h : At tree v s) (w : v.Writing) (rest : v.AtRest)
    (root : v.root = t.pageId) (focus : Focus tree.keySize v top t) (sized : t.RootSized tree.keySize)
    (loc : locate (tree.pick key false) top t = some (c, leaf)) (waits : ∀ p, v.Waits E p) :
    Spec (tree.remove key true) s (fun _ s' => ∃ v' result results, At tree v' s' ∧
      v.Reaches tree key c leaf ∧ v.DeletedFrom t.ids results ∧
      View.Settled { v with deletions := results ++ v.deletions } v' ∧
      tree.RemoveTree key c leaf result ∧
      (v'.root = v.root ∧ v'.recorded = v.recorded ∨ v'.recorded = v.recorded.map fun _ => v'.root) ∧
      match result with
      | none => v'.root = invalidPageId
      | some u => v'.root = u.2.pageId ∧ Focus tree.keySize v' top u.2) E := by
  have valid : v.root ≠ invalidPageId := root ▸ ne_invalid focus.pos
  have plug := plug_of_locate loc
  have focusLeaf := focus_of_locate focus loc
  obtain ⟨sizedC, least, most, -⟩ := (rootSized_plug (c := c) (t := leaf)).1 (by rw [plug]; exact sized)
  obtain ⟨page, hc, holds⟩ := id focusLeaf.sub
  refine Spec.bind_eq (a := s) (t := s) rfl ?_
  rw [if_neg (h.root ▸ valid)]
  refine Spec.bind (h.findLeafPage_rule rest root focus sized.wide loc (fun p _ => waits p) w.exclusive
    (show OperationType.delete ≠ .read by decide)) ?_
  rintro _ s₁ ⟨rfl, held, rootHeld, h₁, latched⟩
  refine Spec.bind_eq (h₁.getLeaf_eq focusLeaf.pageId_ne_header hc) ?_
  have holds' : (page.removeAndDeleteRecord tree.comparator key).Holds tree.keySize c.parentId
      (leaf.erased tree.comparator key) := holds.remove
  obtain ⟨length, length'⟩ := LeafNode.length_erased tree.comparator key leaf
  set leaf' := leaf.erased tree.comparator key with hleaf'
  set page' := page.removeAndDeleteRecord tree.comparator key
  refine Spec.bind (h₁.setHeld_rule focusLeaf.pageId_ne_header w.exclusive latched.here _)
    fun _ s₂ h₂ => ?_
  set v₂ : View K V := { v with
    content := Function.update v.content leaf.id (.leaf page')
    held := held
    rootHeld := rootHeld } with hv₂
  change At tree v₂ s₂ at h₂
  have id : leaf'.id = leaf.id := leaf.id_erased tree.comparator key
  have ids : BTree.ids (d := 0) leaf' = BTree.ids (d := 0) leaf :=
    congrArg (fun p => ({p} : Multiset PageId)) id
  have removing : v₂.Removing tree.keySize c (d := 0) leaf' := by
    refine ⟨⟨?_, ⟨page', ?_, holds'⟩, ?_, ?_⟩, ?_, w.exclusive, w.opened, ?_, fun p hp => ?_, ?_⟩
    · rw [show pageId (d := 0) leaf' = pageId (d := 0) leaf from id]
      refine focusLeaf.rep.congr fun p hp => Function.update_of_ne ?_ _ _
      rintro rfl
      exact focusLeaf.pageId_notMem hp
    · rw [id]
      exact Function.update_self _ _ _
    · rw [ids]
      exact focusLeaf.nodup
    · rw [ids]
      exact focusLeaf.bound
    · have same : (c.plug leaf').2.pageId = (c.plug leaf).2.pageId := c.pageId_plug id
      rw [same, plug]
      exact root
    · rw [show pageId (d := 0) leaf' = leaf.id from id]
      exact latched.here
    · obtain rfl | hp := latched.path p hp
      · exact .inr (.inl (ids ▸ pageId_mem_ids (d := 0) leaf))
      · exact .inl hp
    · simp [hv₂, rest.deleted]
  have same : c.ids + BTree.ids (d := 0) leaf' = t.ids := by
    rw [ids, ← ids_plug, plug]
    rfl
  have size : page'.size = leaf'.entries.length := holds'.size
  have min : page'.getMinSize true = c.minSize tree.keySize := by
    rw [← Context.minSize_eq fun p hp => (focusLeaf.bound p (Multiset.mem_add.2 (.inl hp))).1]
    exact BPlusTreePage.Is.getMinSize (d := 0) holds'.fields
  have free : v.base leaf.id = {} := h₁.held_base _ latched.here
  -- what is done with the leaf, with everything released at the end
  have finish {s₃ : TreeState K V} {result : Option (Σ h, BTree K V h)} {v' : View K V}
      (h₃ : At tree v' s₃) (reaches : v.Reaches tree key c leaf)
      (removed : v₂.Removed tree.keySize v' c (d := 0) leaf' result)
      (result_eq : tree.RemoveTree key c leaf result) :
      Spec (freePagesInTransaction true true) s₃ (fun _ s' => ∃ v' result results, At tree v' s' ∧
        v.Reaches tree key c leaf ∧ v.DeletedFrom t.ids results ∧
        View.Settled { v with deletions := results ++ v.deletions } v' ∧
        tree.RemoveTree key c leaf result ∧
        (v'.root = v.root ∧ v'.recorded = v.recorded ∨
          v'.recorded = v.recorded.map fun _ => v'.root) ∧
        match result with
        | none => v'.root = invalidPageId
        | some u => v'.root = u.2.pageId ∧ Focus tree.keySize v' top u.2) E := by
    refine (h₃.freeRemoved_rule removed w.exclusive w.opened rest.deleted
      fun p hp => (removing.focus.bound p hp).1).post ?_
    rintro _ s₄ ⟨v'', results, h₄, deleted, settled, root'', recorded'', tree''⟩
    refine ⟨v'', result, results, h₄, reaches, same ▸ deleted, ⟨settled.rest, settled.exclusive,
      settled.pins, settled.base, settled.next, settled.deletions⟩, result_eq, ?_, ?_⟩
    · rw [root'', recorded'']
      exact removed.recorded
    · cases result with
      | none => exact root''.trans removed.tree
      | some u => exact tree'' u rfl
  rw [size, min]
  by_cases small : leaf'.entries.length < c.minSize tree.keySize
  · rw [if_pos small]
    refine Spec.bind_eq (a := s₂) (t := s₂) rfl ?_
    have guarded : c.Guarded tree.keySize .delete v₂.held v₂.rootHeld := by
      refine latched.guarded.resolve_left ?_
      have minimum : BTree.minSize tree.keySize 0 c.parentId = c.minSize tree.keySize :=
        Context.minSize_eq fun p hp => (focusLeaf.bound p (Multiset.mem_add.2 (.inl hp))).1
      simp only [safe, minimum, if_true, decide_eq_true_eq, not_le]
      change leaf.entries.length < _
      omega
    have height : c.height < s₂.pool.nextPageId.toNat + 1 := by
      rw [h₂.next]
      exact focusLeaf.height_lt.trans (Nat.lt_succ_self _)
    have up := coalesceOrRedistribute_rule (E := E) c (t := leaf') _ h₂ waits removing guarded sizedC
      (least.trans length) small.le height
    rw [show pageId (d := 0) leaf' = leaf.id from id] at up
    refine Spec.bind up ?_
    rintro _ s₃ ⟨siblings, v', result, h₃, removed, shrinks⟩
    exact finish h₃ ⟨free, fun _ => siblings⟩ removed ((if_pos small).mpr shrinks)
  · rw [if_neg small]
    exact finish h₂ ⟨free, fun less => absurd less small⟩ removing.done ((if_neg small).mpr rfl)

end Remove

end BPlusTree

end ScuDb
