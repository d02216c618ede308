import ScuDb.Index.Descent

/-!
# Splits

What `Split` and `InsertIntoParent` do to the tree the pages hold, and that they write only to
pages the operation holds or created.
-/

namespace ScuDb

open Program BTree Context

variable {K V : Type}

namespace BTree

/-- The lower half of a node that is split, with the new page behind it. -/
def lower (n : KeySize) (fresh : PageId) : {d : ℕ} → BTree K V d → BTree K V d
  | 0, t => ⟨LeafNode.id t, fresh, (LeafNode.entries t).take ((n.leafMax + 1) / 2)⟩
  | _ + 1, t => ⟨InnerNode.id t, (InnerNode.slots t).take ((n.internalMax + 1) / 2)⟩

/-- The upper half of a node that is split, in the new page. -/
def upper (n : KeySize) (fresh : PageId) : {d : ℕ} → BTree K V d → BTree K V d
  | 0, t => ⟨fresh, LeafNode.next t, (LeafNode.entries t).drop ((n.leafMax + 1) / 2)⟩
  | _ + 1, t => ⟨fresh, (InnerNode.slots t).drop ((n.internalMax + 1) / 2)⟩

/-- The first key of the root page. -/
def firstKey : {d : ℕ} → BTree K V d → Option K
  | 0, t => (LeafNode.entries t).head?.map Prod.fst
  | _ + 1, t => (InnerNode.slots t).head?.map Prod.fst

variable {n : KeySize} {fresh : PageId} {d : ℕ}

@[simp] theorem pageId_lower : {d : ℕ} → (t : BTree K V d) → (lower n fresh t).pageId = t.pageId
  | 0, _ => rfl
  | _ + 1, _ => rfl

@[simp] theorem pageId_upper : {d : ℕ} → (t : BTree K V d) → (upper n fresh t).pageId = fresh
  | 0, _ => rfl
  | _ + 1, _ => rfl

/-- A split adds one page. -/
theorem ids_lower_add_upper : {d : ℕ} → (t : BTree K V d) →
    (lower n fresh t).ids + (upper n fresh t).ids = fresh ::ₘ t.ids
  | 0, t => by
    simp only [lower, upper, ids, Multiset.singleton_add]
    exact Multiset.pair_comm _ _
  | d + 1, t => by
    simp only [lower, upper, ids_inner]
    rw [← slotIds_take_add_drop (InnerNode.slots t) ((n.internalMax + 1) / 2)]
    simp only [← Multiset.singleton_add]
    abel

end BTree

/-- Loops over the children of a node. -/
theorem BPlusTree.At.reparent_slots {tree : BPlusTree K} {n : KeySize} {d : ℕ} {q : PageId}
    {E : Fault → TreeState K V → Prop} (slots : List (K × BTree K V d)) :
    ∀ {v : BPlusTree.View K V} {s : TreeState K V}, BPlusTree.At tree v s →
    (∀ x ∈ slots, ∃ parent, x.2.Rep n v.content parent) → (slotIds slots).Nodup →
    (∀ p ∈ slotIds slots, p ≠ headerPageId) →
    Spec ((slots.map fun x => x.2.pageId).forM fun child => BPlusTree.setParentOfChild child q) s
      (fun _ s' => ∃ content, BPlusTree.At tree { v with content := content } s' ∧
        (∀ x ∈ slots, x.2.Rep n content q) ∧ ∀ p, p ∉ slotIds slots → content p = v.content p) E := by
  induction slots with
  | nil => exact fun {v s} h _ _ _ => ⟨v.content, h, by simp, fun _ _ => rfl⟩
  | cons x slots ih =>
    intro v s h rep nodup bound
    obtain ⟨parent, hx⟩ := rep x List.mem_cons_self
    obtain ⟨header, hh, -⟩ := hx.root
    rw [slotIds_cons] at nodup bound
    obtain ⟨nodupx, nodups, disjoint⟩ := Multiset.nodup_add.1 nodup
    have outside : ∀ {p}, p ∈ slotIds slots → p ≠ x.2.pageId := by
      rintro p hp rfl
      exact Multiset.disjoint_left.1 disjoint (pageId_mem_ids x.2) hp
    have hne := bound _ (Multiset.mem_add.2 (.inl (pageId_mem_ids x.2)))
    change Spec (BPlusTree.setParentOfChild x.2.pageId q >>= fun _ => List.forM _ _) s _ E
    refine Spec.bind (h.setParentOfChild_rule hne hh q) fun _ s₁ h₁ => ?_
    refine (ih h₁ ?_ nodups fun p hp => bound p (Multiset.mem_add.2 (.inr hp))).post ?_
    · intro y hy
      obtain ⟨parent, hy'⟩ := rep y (List.mem_cons_of_mem _ hy)
      exact ⟨parent, hy'.congr fun p hp =>
        Function.update_of_ne (outside (mem_slotIds.2 ⟨y, hy, hp⟩)) _ _⟩
    · rintro _ s₂ ⟨content, h₂, reps, frame⟩
      refine ⟨content, h₂, fun y hy => ?_, fun p hp => ?_⟩
      · obtain rfl | hy := List.mem_cons.1 hy
        · exact (hx.withParent nodupx q).congr fun p hp =>
            frame p (Multiset.disjoint_left.1 disjoint hp)
        · exact reps y hy
      · rw [slotIds_cons, Multiset.mem_add, not_or] at hp
        rw [frame p hp.2]
        refine Function.update_of_ne ?_ _ _
        rintro rfl
        exact hp.1 (pageId_mem_ids x.2)

namespace BPlusTree

variable {tree : BPlusTree K} {v : View K V} {s : TreeState K V} {d : ℕ}

/-- A writer between two steps: nothing is half done, and pages that do not exist are free. -/
structure View.Writing (v : View K V) : Prop where
  exclusive : v.exclusive = true
  opened : v.opened = []
  free : ∀ p, v.next ≤ p → v.base p = {}
  held : ∀ p ∈ v.held, p < v.next

/-- A new page in the page set. -/
theorem At.newHeldPage_rule (h : At tree v s) (w : v.Writing) {α : Type} {f : PageId → TreeM K V α}
    {R : α → TreeState K V → Prop} (rest : ∀ s', At tree { v with
      content := Function.update v.content v.next default
      next := v.next + 1
      held := v.held ++ [v.next]
      created := v.next :: v.created } s' → Spec (f v.next) s' R Exhausted) :
    Spec (do
      let p ← newPage
      lock true p
      addIntoPageSet true p
      f p) s R Exhausted := by
  have out : v.next ∉ v.held := fun hn => lt_irrefl _ (w.held _ hn)
  refine Spec.bind (h.newPage_rule.mono (fun _ _ => id) fun _ _ => And.right) ?_
  rintro _ s₁ ⟨rfl, h₁⟩
  refine Spec.bind (h₁.lock_rule w.exclusive out (w.free _ le_rfl)) fun _ s₂ h₂ => ?_
  refine Spec.bind (h₂.addIntoPageSet_rule rfl out (w.free _ le_rfl) ?_) fun _ s₃ h₃ => rest s₃ h₃
  rw [w.exclusive]

section

variable [Inhabited K] [Inhabited V]

/-- `Split` of a page with one entry too many. -/
theorem At.split_rule {t : BTree K V d} {parent : PageId} (h : At tree v s) (w : v.Writing)
    (rep : t.Rep tree.keySize v.content parent) (full : t.size = maxSize tree.keySize d + 1)
    (held : t.pageId ∈ v.held) (nodup : t.ids.Nodup) (bound : ∀ p ∈ t.ids, 0 < p ∧ p < v.next) :
    Spec (tree.split t.pageId true) s (fun r s' => r = v.next ∧ ∃ content, At tree { v with
      content := content
      next := v.next + 1
      held := v.held ++ [v.next]
      created := v.next :: v.created } s' ∧
      (lower tree.keySize v.next t).Rep tree.keySize content parent ∧
      (upper tree.keySize v.next t).Rep tree.keySize content parent ∧
      ∀ p, p ∉ t.ids → p ≠ v.next → content p = v.content p) Exhausted := by
  have fresh : ∀ p ∈ t.ids, p ≠ v.next := fun p hp => (bound p hp).2.ne
  have hnode : t.pageId ≠ headerPageId := (bound _ (pageId_mem_ids t)).1.ne'
  have hnext : v.next ≠ headerPageId := h.next_pos.ne'
  refine h.newHeldPage_rule w fun s₁ h₁ => ?_
  have inNode : t.pageId ∈ v.held ++ [v.next] := List.mem_append_left _ held
  have inNew : v.next ∈ v.held ++ [v.next] := by simp
  refine Spec.bind_eq (h₁.getPage_eq hnode) ?_
  dsimp only
  rw [Function.update_of_ne (fresh _ (pageId_mem_ids t))]
  cases d with
  | zero =>
    obtain ⟨page, hc, holds⟩ := rep
    obtain ⟨page', recipient, run, hp', hr'⟩ := holds.moveHalfTo full v.next
    rw [show v.content t.pageId = .leaf page from hc]
    refine Spec.bind (h₁.setHeld_rule hnext w.exclusive inNew _) fun _ s₂ h₂ => ?_
    refine Spec.bind_eq (a := (page', recipient)) (t := s₂) (by rw [run]; rfl) ?_
    refine Spec.bind (h₂.setHeld_rule hnext w.exclusive inNew _) fun _ s₃ h₃ => ?_
    refine Spec.bind (h₃.setHeld_rule hnode w.exclusive inNode _) fun _ s₄ h₄ => ?_
    have ne : v.next ≠ t.pageId := (fresh _ (pageId_mem_ids t)).symm
    refine spec_pure ⟨rfl, _, h₄, ⟨page', Function.update_self _ _ _, hp'⟩,
      ⟨recipient, ?_, hr'⟩, fun p hp hpn => ?_⟩
    · exact (Function.update_of_ne ne _ _).trans (Function.update_self _ _ _)
    · have : p ≠ t.pageId := by
        rintro rfl
        exact hp (pageId_mem_ids t)
      dsimp only
      rw [Function.update_of_ne this, Function.update_of_ne hpn, Function.update_of_ne hpn,
        Function.update_of_ne hpn]
  | succ d =>
    obtain ⟨page, slots⟩ := t
    obtain ⟨⟨p, hc, holds⟩, below⟩ := rep
    have full' : (slots.map toSlot).length = tree.keySize.internalMax + 1 := by
      rw [List.length_map]
      exact full
    have moved := holds.movedHalf full'
    obtain ⟨hp', hr'⟩ := holds.moveHalfTo full' v.next
    rw [← List.map_drop, List.map_map] at moved
    rw [ids_inner, Multiset.nodup_cons] at nodup
    have subset : ∀ {q}, q ∈ slotIds (slots.drop ((tree.keySize.internalMax + 1) / 2)) →
        q ∈ slotIds slots := by
      intro q hq
      obtain ⟨x, hx, hq⟩ := mem_slotIds.1 hq
      exact mem_slotIds.2 ⟨x, List.mem_of_mem_drop hx, hq⟩
    have freshSlot : ∀ {q}, q ∈ slotIds slots → q ≠ v.next := fun hq =>
      fresh _ (Multiset.mem_cons_of_mem hq)
    rw [show v.content (pageId (d := d + 1) ⟨page, slots⟩) = .internal p from hc]
    refine Spec.bind (h₁.setHeld_rule hnext w.exclusive inNew _) fun _ s₂ h₂ => ?_
    refine Spec.bind_eq (a := _) (t := s₂) (by rw [moved]; rfl) ?_
    have dropNodup : (slotIds (slots.drop ((tree.keySize.internalMax + 1) / 2))).Nodup :=
      Multiset.nodup_of_le (slotIds_take_add_drop slots _ ▸ Multiset.le_add_left _ _) nodup.2
    refine Spec.bind (h₂.reparent_slots (n := tree.keySize) (slots.drop _) (fun x hx => ⟨page, ?_⟩)
      dropNodup fun q hq => (bound q (Multiset.mem_cons_of_mem (subset hq))).1.ne') ?_
    · refine (below x (List.mem_of_mem_drop hx)).congr fun q hq => ?_
      have hq : q ≠ v.next := freshSlot (mem_slotIds.2 ⟨x, List.mem_of_mem_drop hx, hq⟩)
      exact (Function.update_of_ne hq _ _).trans (Function.update_of_ne hq _ _)
    · rintro _ s₃ ⟨content, h₃, reps, same⟩
      dsimp only at h₃ same
      refine Spec.bind (h₃.setHeld_rule hnext w.exclusive inNew _) fun _ s₄ h₄ => ?_
      refine Spec.bind (h₄.setHeld_rule hnode w.exclusive inNode _) fun _ s₅ h₅ => ?_
      have ne : v.next ≠ page := (fresh page (Multiset.mem_cons_self _ _)).symm
      have off : ∀ {q}, q ∈ slotIds slots → q ≠ page := by
        rintro q hq rfl
        exact nodup.1 hq
      refine spec_pure ⟨rfl, _, h₅, ⟨⟨_, Function.update_self _ _ _, ?_⟩, fun x hx => ?_⟩,
        ⟨⟨_, (Function.update_of_ne ne _ _).trans (Function.update_self _ _ _), ?_⟩,
          fun x hx => ?_⟩, fun q hq hqn => ?_⟩
      · rw [← List.map_take] at hp'
        exact hp'
      · have hx' := List.mem_of_mem_take hx
        refine (below x hx').congr fun q hq => ?_
        have hs := mem_slotIds.2 ⟨x, hx', hq⟩
        have hd : q ∉ slotIds (slots.drop ((tree.keySize.internalMax + 1) / 2)) := by
          have := nodup.2
          rw [← slotIds_take_add_drop slots ((tree.keySize.internalMax + 1) / 2)] at this
          exact Multiset.disjoint_left.1 (Multiset.nodup_add.1 this).2.2 (mem_slotIds.2 ⟨x, hx, hq⟩)
        dsimp only [pageId]
        rw [Function.update_of_ne (off hs), Function.update_of_ne (freshSlot hs), same q hd,
          Function.update_of_ne (freshSlot hs), Function.update_of_ne (freshSlot hs)]
      · rw [← List.map_drop] at hr'
        exact hr'
      · refine (reps x hx).congr fun q hq => ?_
        have hs := mem_slotIds.2 ⟨x, List.mem_of_mem_drop hx, hq⟩
        dsimp only [pageId]
        rw [Function.update_of_ne (off hs), Function.update_of_ne (freshSlot hs)]
      · rw [ids_inner, Multiset.mem_cons, not_or] at hq
        dsimp only [pageId]
        rw [Function.update_of_ne hq.1, Function.update_of_ne hqn, same q fun hd => hq.2 (subset hd),
          Function.update_of_ne hqn, Function.update_of_ne hqn]

end

/-- What stays when pages are split. -/
structure View.Grows (v v' : View K V) : Prop where
  exclusive : v'.exclusive = v.exclusive
  pins : v'.pins = v.pins
  base : v'.base = v.base
  opened : v'.opened = v.opened
  rootHeld : v'.rootHeld = v.rootHeld
  deleted : v'.deleted = v.deleted
  deletions : v'.deletions = v.deletions
  next : v.next ≤ v'.next
  held_new : ∀ p ∈ v'.held, p ∈ v.held ∨ v.next ≤ p ∧ p < v'.next

theorem View.Grows.writing {v v' : View K V} (g : v.Grows v') (w : v.Writing) : v'.Writing where
  exclusive := g.exclusive.trans w.exclusive
  opened := g.opened.trans w.opened
  free p hp := g.base ▸ w.free p (g.next.trans hp)
  held p hp := (g.held_new p hp).elim (fun h => (w.held p h).trans_le g.next) fun h => h.2

/-- The root after a split of the old one: an internal page whose size says one child. -/
structure BrokenRoot (v : View K V) (recorded : Option PageId) : Prop where
  pos : 0 < v.root
  lt : v.root < v.next
  page : ∃ page, v.content v.root = .internal page ∧ page.size = 1
  recorded : v.recorded = recorded.map fun _ => v.root

/-- The pages a split works on: the context, the split node `a` and the new node `b`. -/
structure Splitting {d : ℕ} (n : KeySize) (v : View K V) (c : Context K V d) (a b : BTree K V d) :
    Prop where
  rep : c.Rep n v.content a.pageId
  left : a.Rep n v.content c.parentId
  right : ∃ q, b.Rep n v.content q
  nodup : (c.ids + (a.ids + b.ids)).Nodup
  bound : ∀ p ∈ c.ids + (a.ids + b.ids), 0 < p ∧ p < v.next
  heldLeft : a.pageId ∈ v.held
  heldRight : b.pageId ∈ v.held

/-- The node of the parent page with the new slot. -/
def grown (page : PageId) (left : List (K × BTree K V d)) (k : K) (a : BTree K V d) (key : K)
    (b : BTree K V d) (right : List (K × BTree K V d)) : BTree K V (d + 1) :=
  ⟨page, left ++ (k, a) :: (key, b) :: right⟩

end BPlusTree

/-- The tree after `InsertIntoParent`, or `none` when the root is split. -/
def Context.insertUp (n : KeySize) : {d : ℕ} → Context K V d → BTree K V d → K → BTree K V d →
    PageId → Option (Σ h, BTree K V h)
  | _, top, _, _, _, _ => none
  | _, frame page left k right above, a, key, b, fresh =>
    let t := BPlusTree.grown page left k a key b right
    if t.size ≤ n.internalMax then some (above.plug t)
    else
      match (upper n fresh t).firstKey with
      | none => none
      | some key => above.insertUp n (lower n fresh t) key (upper n fresh t) (fresh + 1)

/-- No page above the hole has too many slots. -/
def Context.Fits (n : KeySize) : {d : ℕ} → Context K V d → Prop
  | _, top => True
  | _, frame _ left _ right above => left.length + (right.length + 1) ≤ n.internalMax ∧ above.Fits n

namespace BPlusTree

variable {tree : BPlusTree K} {v : View K V} {s : TreeState K V} {d : ℕ}

theorem ids_grown (page : PageId) (left : List (K × BTree K V d)) (k : K) (a : BTree K V d) (key : K)
    (b : BTree K V d) (right : List (K × BTree K V d)) (above : Context K V (d + 1)) :
    above.ids + (grown page left k a key b right).ids =
      (frame page left k right above).ids + (a.ids + b.ids) := by
  simp only [grown, ids_inner, Context.ids, slotIds_append, slotIds_cons, ← Multiset.singleton_add]
  abel

/-- After a split of the root node. -/
def Outcome (tree : BPlusTree K) (v v' : View K V) (result : Option (Σ h, BTree K V h)) : Prop :=
  match result with
  | some t => v'.root = v.root ∧ v'.recorded = v.recorded ∧ Focus tree.keySize v' Context.top t.2
  | none => BrokenRoot v' v.recorded

variable [Inhabited K] [Inhabited V]

/-- `InsertIntoParent` for the root: a new root page. -/
theorem At.insertIntoRoot_rule {a b : BTree K V d} {key : K} {fuel : ℕ} (h : At tree v s)
    (w : v.Writing) (sp : Splitting tree.keySize v Context.top a b) (root : v.rootHeld = true) :
    Spec (tree.insertIntoParent (fuel + 1) a.pageId key b.pageId true) s
      (fun _ s' => ∃ v', At tree v' s' ∧ v.Grows v' ∧ BrokenRoot v' v.recorded) Exhausted := by
  obtain ⟨old, hold, isOld, -⟩ := sp.left.root
  obtain ⟨q, rightRep⟩ := sp.right
  obtain ⟨new, hnew, isNew, -⟩ := rightRep.root
  have boundA := sp.bound _ (Multiset.mem_add.2 (.inr (Multiset.mem_add.2 (.inl (pageId_mem_ids a)))))
  have boundB := sp.bound _ (Multiset.mem_add.2 (.inr (Multiset.mem_add.2 (.inr (pageId_mem_ids b)))))
  have hnext : v.next ≠ headerPageId := h.next_pos.ne'
  refine Spec.bind_eq (a := ()) (t := s) (by rw [assert_pos rfl]; rfl) ?_
  refine Spec.bind_eq (h.getTreePage_eq boundA.1.ne' hold) ?_
  refine Spec.bind_eq (h.getTreePage_eq boundB.1.ne' hnew) ?_
  rw [if_pos (by simp [BPlusTreePage.isRootPage, isOld.parentPageId, Context.parentId])]
  refine Spec.bind (h.newPage_rule.mono (fun _ _ => id) fun _ _ => And.right) ?_
  rintro _ s₁ ⟨rfl, h₁⟩
  refine Spec.bind (h₁.setRootPageId_rule w.exclusive root v.next) fun _ s₂ h₂ => ?_
  refine Spec.bind (h₂.setCreated_rule hnext List.mem_cons_self _) fun _ s₃ h₃ => ?_
  refine Spec.bind (h₃.setCreated_rule hnext List.mem_cons_self _) fun _ s₄ h₄ => ?_
  dsimp only at h₄
  refine Spec.bind (h₄.setParentHeld_rule boundA.1.ne' w.exclusive sp.heldLeft old ?_ v.next)
    fun _ s₅ h₅ => ?_
  · dsimp only
    rw [Function.update_of_ne boundA.2.ne, Function.update_of_ne boundA.2.ne,
      Function.update_of_ne boundA.2.ne]
    exact hold
  dsimp only at h₅
  have neAB : b.pageId ≠ a.pageId := by
    intro e
    have := (Multiset.nodup_add.1 (Multiset.nodup_add.1 sp.nodup).2.1).2.2
    exact Multiset.disjoint_left.1 this (pageId_mem_ids a) (e ▸ pageId_mem_ids b)
  refine Spec.bind (h₅.setParentHeld_rule boundB.1.ne' w.exclusive sp.heldRight new ?_
    v.next) fun _ s₆ h₆ => ?_
  · dsimp only
    rw [Function.update_of_ne neAB, Function.update_of_ne boundB.2.ne,
      Function.update_of_ne boundB.2.ne, Function.update_of_ne boundB.2.ne]
    exact hnew
  have next_lt : v.next + 1 ≤ 2147483647 := h₁.next_le
  have pos := h.next_pos
  refine Spec.bind (h₆.updateRootPageId_rule false ⟨?_, ?_⟩ (by simp)) fun _ s₇ h₇ => ?_
  · show -2147483648 ≤ v.next
    omega
  · show v.next < 2147483648
    omega
  refine (h₇.unpinDirty_rule [] rfl ?_).post fun _ s₈ h₈ => ⟨_, h₈, ?_, ?_⟩
  · dsimp only
    rw [w.opened]
    intro p hp ne
    simp only [List.mem_cons, List.not_mem_nil, or_false, or_self] at hp
    exact (ne hp).elim
  · exact ⟨rfl, rfl, rfl, w.opened.symm, rfl, rfl, rfl, by show v.next ≤ v.next + 1; omega,
      fun p hp => .inl hp⟩
  · refine ⟨pos, by show v.next < v.next + 1; omega, ?_, rfl⟩
    dsimp only
    rw [Function.update_of_ne boundB.2.ne', Function.update_of_ne boundA.2.ne', Function.update_self]
    exact ⟨_, rfl, rfl⟩

omit [Inhabited K] [Inhabited V] in
theorem firstKey_upper (n : KeySize) (fresh : PageId) {t : BTree K V (d + 1)}
    (big : n.internalMax < t.size) :
    ∃ x rest, (upper n fresh t).slots = x :: rest ∧ (upper n fresh t).firstKey = some x.1 := by
  have six := n.six_le_internalMax
  have big' : n.internalMax < (InnerNode.slots t).length := big
  have lt : (n.internalMax + 1) / 2 < (InnerNode.slots t).length := by omega
  refine ⟨_, _, List.drop_eq_getElem_cons lt, ?_⟩
  simp [firstKey, upper, List.head?_drop, List.getElem?_eq_getElem lt]

/-- `InsertIntoParent`, by induction on the way up. -/
theorem insertIntoParent_rule {d : ℕ} (c : Context K V d) : ∀ {a b : BTree K V d} (key : K)
    (fuel : ℕ) {v : View K V} {s : TreeState K V}, At tree v s → v.Writing →
    Splitting tree.keySize v c a b → c.Guarded tree.keySize .insert v.held v.rootHeld →
    c.Fits tree.keySize → c.height < fuel →
    Spec (tree.insertIntoParent fuel a.pageId key b.pageId true) s (fun _ s' => ∃ v', At tree v' s' ∧
      v.Grows v' ∧ Outcome tree v v' (c.insertUp tree.keySize a key b v.next)) Exhausted := by
  induction c with
  | top =>
    intro a b key fuel v s h w sp guarded _ hf
    obtain ⟨fuel, rfl⟩ : ∃ k, fuel = k + 1 := ⟨fuel - 1, by omega⟩
    exact h.insertIntoRoot_rule w sp guarded
  | @frame d page left k right above ih =>
    intro a b key fuel v s h w sp guarded fits hf
    obtain ⟨fuel, rfl⟩ : ∃ k, fuel = k + 1 := ⟨fuel - 1, by omega⟩
    obtain ⟨old, hold, isOld, -⟩ := sp.left.root
    obtain ⟨q, rightRep⟩ := sp.right
    obtain ⟨new, hnew, isNew, -⟩ := rightRep.root
    obtain ⟨⟨p, hc, holds⟩, sides, habove⟩ := sp.rep
    have inA : a.pageId ∈ (frame page left k right above).ids + (a.ids + b.ids) :=
      Multiset.mem_add.2 (.inr (Multiset.mem_add.2 (.inl (pageId_mem_ids a))))
    have inB : b.pageId ∈ (frame page left k right above).ids + (a.ids + b.ids) :=
      Multiset.mem_add.2 (.inr (Multiset.mem_add.2 (.inr (pageId_mem_ids b))))
    have inPage : page ∈ (frame page left k right above).ids + (a.ids + b.ids) :=
      Multiset.mem_add.2 (.inl (Multiset.mem_cons_self _ _))
    obtain ⟨nodupC, nodupAB, disjoint⟩ := Multiset.nodup_add.1 sp.nodup
    obtain ⟨nodupA, nodupB, disjointAB⟩ := Multiset.nodup_add.1 nodupAB
    have disC : ∀ {p}, p ∈ (frame page left k right above).ids → p ∉ a.ids ∧ p ∉ b.ids :=
      fun hp => not_or.1 fun hq => Multiset.disjoint_left.1 disjoint hp (Multiset.mem_add.2 hq)
    have pageB : page ≠ b.pageId := by
      rintro rfl
      exact (disC (Multiset.mem_cons_self _ _)).2 (pageId_mem_ids b)
    have hpage := sp.bound page inPage
    set t := grown page left k a key b right with ht
    have size : t.size = left.length + right.length + 2 := by
      simp [ht, grown, BTree.size]
      omega
    -- the parent page gets the new slot
    refine Spec.bind_eq (a := ()) (t := s) (by rw [assert_pos rfl]; rfl) ?_
    refine Spec.bind_eq (h.getTreePage_eq (sp.bound _ inA).1.ne' hold) ?_
    refine Spec.bind_eq (h.getTreePage_eq (sp.bound _ inB).1.ne' hnew) ?_
    have parent : old.parentPageId = page := isOld.parentPageId
    rw [if_neg (by simpa [BPlusTreePage.isRootPage, parent] using ne_invalid hpage.1), parent]
    refine Spec.bind (h.fetchPage_rule page .nullDeref) fun _ s₁ h₁ => ?_
    refine Spec.bind (h₁.setParentHeld_rule (sp.bound _ inB).1.ne' w.exclusive
      sp.heldRight new hnew page) fun _ s₂ h₂ => ?_
    dsimp only at h₂
    have hc₂ : Function.update v.content b.pageId ((v.content b.pageId).withParent page) page =
        .internal p := by rw [Function.update_of_ne pageB, hc]
    refine Spec.bind_eq (h₂.getInternal_eq hpage.1.ne' hc₂) ?_
    have outLeft : ∀ x ∈ left.map toSlot, x.2 ≠ a.pageId := by
      intro x hx e
      obtain ⟨y, hy, rfl⟩ := List.mem_map.1 hx
      refine (disC (Multiset.mem_cons_of_mem (Multiset.mem_add.2 (.inl (Multiset.mem_add.2
        (.inl (mem_slotIds.2 ⟨y, hy, pageId_mem_ids y.2⟩))))))).1 ?_
      rw [show y.2.pageId = a.pageId from e]
      exact pageId_mem_ids a
    have fitsPage : (left.map toSlot ++ (k, a.pageId) :: right.map toSlot).length ≤
        tree.keySize.internalMax := by
      simpa using fits.1
    obtain ⟨p', insert, holds'⟩ := holds.insertNodeAfter outLeft fitsPage b.pageId key
    rw [isOld.pageId, isNew.pageId]
    refine Spec.bind_eq (a := p') (t := s₂) (by rw [insert]; rfl) ?_
    refine Spec.bind (h₂.setHeld_rule hpage.1.ne' w.exclusive guarded.1 _) fun _ s₃ h₃ => ?_
    dsimp only at h₃
    set content := Function.update (Function.update v.content b.pageId
      ((v.content b.pageId).withParent page)) page (.internal p') with hcontent
    have nodupPage := Multiset.nodup_cons.1 nodupC
    have off : ∀ {p}, p ≠ page → p ≠ b.pageId → content p = v.content p := fun h₁ h₂ => by
      rw [hcontent, Function.update_of_ne h₁, Function.update_of_ne h₂]
    have sideOff : ∀ {p}, p ∈ slotIds left + slotIds right + above.ids → content p = v.content p := by
      intro p hp
      refine off ?_ ?_
      · rintro rfl
        exact nodupPage.1 hp
      · rintro rfl
        exact (disC (Multiset.mem_cons_of_mem hp)).2 (pageId_mem_ids b)
    have repT : t.Rep tree.keySize content above.parentId := by
      refine ⟨⟨p', by rw [hcontent]; exact Function.update_self _ _ _, ?_⟩, fun x hx => ?_⟩
      · simpa [ht, grown, toSlot] using holds'
      · simp only [ht, grown, List.mem_append, List.mem_cons] at hx
        obtain hx | rfl | rfl | hx := hx
        · exact (sides x (List.mem_append_left _ hx)).congr fun p hp => sideOff (Multiset.mem_add.2
            (.inl (Multiset.mem_add.2 (.inl (mem_slotIds.2 ⟨x, hx, hp⟩)))))
        · refine sp.left.congr fun p hp => off ?_ ?_
          · rintro rfl
            exact (disC (Multiset.mem_cons_self _ _)).1 hp
          · rintro rfl
            exact Multiset.disjoint_left.1 disjointAB hp (pageId_mem_ids b)
        · refine (rightRep.withParent nodupB page).congr fun p hp => ?_
          have : p ≠ page := by
            rintro rfl
            exact (disC (Multiset.mem_cons_self _ _)).2 hp
          rw [hcontent, Function.update_of_ne this]
        · exact (sides x (List.mem_append_right _ hx)).congr fun p hp => sideOff (Multiset.mem_add.2
            (.inl (Multiset.mem_add.2 (.inr (mem_slotIds.2 ⟨x, hx, hp⟩)))))
    have repAbove : above.Rep tree.keySize content page :=
      habove.congr fun p hp => sideOff (Multiset.mem_add.2 (.inr hp))
    have idsT := ids_grown page left k a key b right above
    have boundT : ∀ p ∈ above.ids + t.ids, 0 < p ∧ p < v.next := fun p hp =>
      sp.bound p (idsT ▸ hp)
    have nodupT : (above.ids + t.ids).Nodup := idsT ▸ sp.nodup
    have sizeP : p'.size = t.size := by
      rw [holds'.size, size]
      simp
      omega
    have maxP : p'.maxSize = tree.keySize.internalMax := holds'.fields.maxSize
    rw [sizeP, maxP]
    by_cases big : t.size > tree.keySize.internalMax
    · -- the parent page is split in turn
      have full : t.size = maxSize tree.keySize (d + 1) + 1 := by
        have := fits.1
        show t.size = tree.keySize.internalMax + 1
        omega
      have guarded' : above.Guarded tree.keySize .insert v.held v.rootHeld := by
        refine guarded.2.resolve_left ?_
        show ¬ decide (left.length + (right.length + 1) < tree.keySize.internalMax) = true
        rw [decide_eq_true_eq]
        omega
      rw [if_pos big]
      have w₃ : View.Writing { v with content := content, pins := page ::ₘ v.pins } :=
        ⟨w.exclusive, w.opened, w.free, w.held⟩
      have subT : ∀ {p}, p ∈ t.ids → p ∈ above.ids + t.ids := fun hp => Multiset.mem_add.2 (.inr hp)
      have disT := (Multiset.nodup_add.1 nodupT).2.2
      refine Spec.bind (h₃.split_rule w₃ repT full guarded.1 (Multiset.nodup_add.1 nodupT).2.1
        fun p hp => boundT p (subT hp)) ?_
      rintro _ s₄ ⟨rfl, content', h₄, repLower, repUpper, same⟩
      dsimp only at h₄ repLower repUpper same
      obtain ⟨x, rest, hslots, hkey⟩ := firstKey_upper tree.keySize v.next big
      obtain ⟨⟨p'', hc'', holds''⟩, -⟩ := id repUpper
      have first : p''.keyAt tree.keySize 0 = .ok x.1 := by
        rw [hslots] at holds''
        refine InternalPage.Holds.keyAt (l := []) holds'' ?_
        have : (InnerNode.slots (upper tree.keySize v.next t)).length ≤ t.size := by
          simp only [upper, List.length_drop]
          exact Nat.sub_le _ _
        rw [hslots] at this
        simp only [List.nil_append, List.length_cons, List.length_map] at this ⊢
        exact this.trans full.le
      have hnext : v.next ≠ headerPageId := h.next_pos.ne'
      refine Spec.bind_eq (h₄.getInternal_eq hnext hc'') ?_
      refine Spec.bind_eq (a := x.1) (t := s₄) (by rw [first]; rfl) ?_
      have idsLU : above.ids + ((lower tree.keySize v.next t).ids + (upper tree.keySize v.next t).ids) =
          v.next ::ₘ (above.ids + t.ids) := by
        rw [ids_lower_add_upper, Multiset.add_cons]
      have freshT : v.next ∉ above.ids + t.ids := fun hp => lt_irrefl _ (boundT _ hp).2
      have sp' : Splitting tree.keySize { v with
          content := content'
          next := v.next + 1
          pins := page ::ₘ v.pins
          held := v.held ++ [v.next]
          created := v.next :: v.created } above (lower tree.keySize v.next t)
          (upper tree.keySize v.next t) := by
        refine ⟨?_, repLower, ⟨_, repUpper⟩, ?_, ?_, ?_, ?_⟩
        · rw [pageId_lower]
          refine repAbove.congr fun p hp => same p (Multiset.disjoint_left.1 disT hp) ?_
          rintro rfl
          exact freshT (Multiset.mem_add.2 (.inl hp))
        · rw [idsLU]
          exact Multiset.nodup_cons.2 ⟨freshT, nodupT⟩
        · rw [idsLU]
          intro p hp
          obtain rfl | hp := Multiset.mem_cons.1 hp
          · exact ⟨h.next_pos, Int.lt_succ _⟩
          · exact ⟨(boundT p hp).1, (boundT p hp).2.trans (Int.lt_succ _)⟩
        · rw [pageId_lower]
          exact List.mem_append_left _ guarded.1
        · rw [pageId_upper]
          simp
      have w₄ : View.Writing { v with
          content := content'
          next := v.next + 1
          pins := page ::ₘ v.pins
          held := v.held ++ [v.next]
          created := v.next :: v.created } := by
        refine ⟨w.exclusive, w.opened, fun p hp => w.free p ?_, fun p hp => ?_⟩
        · exact (Int.lt_succ _).le.trans hp
        · obtain hp | hp := List.mem_append.1 hp
          · exact (w.held p hp).trans (Int.lt_succ _)
          · rw [List.mem_singleton.1 hp]
            exact Int.lt_succ _
      have up := ih x.1 fuel h₄ w₄ sp'
        (guarded'.mono fun p hp => List.mem_append_left _ hp) fits.2 (by simp [height] at hf; omega)
      rw [pageId_lower, pageId_upper] at up
      refine Spec.bind up ?_
      rintro _ s₅ ⟨v', h₅, grows, outcome⟩
      refine (h₅.unpinDirty_rule [] (grows.pins.trans rfl) (by
        rw [grows.opened]; simp [w.opened])).post fun _ s₆ h₆ => ⟨_, h₆, ?_, ?_⟩
      · refine ⟨grows.exclusive, rfl, grows.base, w.opened.symm, grows.rootHeld, grows.deleted,
          grows.deletions, (Int.lt_succ _).le.trans grows.next, fun p hp => ?_⟩
        obtain hp | ⟨h₁, h₂⟩ := grows.held_new p hp
        · obtain hp | hp := List.mem_append.1 hp
          · exact .inl hp
          · rw [List.mem_singleton.1 hp]
            exact .inr ⟨le_rfl, (Int.lt_succ _).trans_le grows.next⟩
        · exact .inr ⟨(Int.lt_succ _).le.trans h₁, h₂⟩
      · have result : (frame page left k right above).insertUp tree.keySize a key b v.next =
            above.insertUp tree.keySize (lower tree.keySize v.next t) x.1
              (upper tree.keySize v.next t) (v.next + 1) := by
          simp only [insertUp, ← ht]
          rw [if_neg (not_le.2 big)]
          simp only [hkey]
        rw [result]
        cases hr : above.insertUp tree.keySize (lower tree.keySize v.next t) x.1
            (upper tree.keySize v.next t) (v.next + 1) with
        | none =>
          rw [hr] at outcome
          exact ⟨outcome.pos, outcome.lt, outcome.page, outcome.recorded⟩
        | some t' =>
          rw [hr] at outcome
          exact ⟨outcome.1, outcome.2.1, outcome.2.2.congr rfl rfl⟩
    · rw [if_neg big]
      refine (h₃.unpinDirty_rule [] rfl (by simp [w.opened])).post fun _ s₄ h₄ =>
        ⟨_, h₄, ?_, ?_⟩
      · exact ⟨rfl, rfl, rfl, w.opened.symm, rfl, rfl, rfl, le_rfl, fun p hp => .inl hp⟩
      · have result : (frame page left k right above).insertUp tree.keySize a key b v.next =
            some (above.plug t) := by
          simp only [insertUp, ← ht]
          rw [if_pos (not_lt.1 big)]
        rw [result]
        have focus : Focus tree.keySize { v with content := content } above t :=
          ⟨repAbove, repT, nodupT, boundT⟩
        exact ⟨rfl, rfl, focus.plug.congr rfl rfl⟩

end BPlusTree

end ScuDb
