import ScuDb.Index.GrownTree

/-!
# Merging and redistribution

What `Coalesce` and `Redistribute` do to two neighbouring nodes and their parent.
-/

namespace ScuDb

open Program BTree Context

variable {K V : Type}

namespace BTree

/-- The slots with another key in front. -/
def setFirst {T : Type} (key : K) : List (K × T) → List (K × T)
  | [] => []
  | x :: slots => (key, x.2) :: slots

/-- The node `a` with everything of its right neighbour `b`, whose key in the parent is `key`. -/
def merge (key : K) : {d : ℕ} → BTree K V d → BTree K V d → BTree K V d
  | 0, a, b => ⟨LeafNode.id a, LeafNode.next b, LeafNode.entries a ++ LeafNode.entries b⟩
  | _ + 1, a, b => ⟨InnerNode.id a, InnerNode.slots a ++ setFirst key (InnerNode.slots b)⟩

/-- The node `a` with the first entry of its right neighbour `b`. -/
def pushLast : {d : ℕ} → BTree K V d → BTree K V d → BTree K V d
  | 0, a, b => ⟨LeafNode.id a, LeafNode.next a, LeafNode.entries a ++ (LeafNode.entries b).take 1⟩
  | _ + 1, a, b => ⟨InnerNode.id a, InnerNode.slots a ++ (InnerNode.slots b).take 1⟩

/-- A node without its first entry. -/
def dropFirst : {d : ℕ} → BTree K V d → BTree K V d
  | 0, b => ⟨LeafNode.id b, LeafNode.next b, (LeafNode.entries b).drop 1⟩
  | _ + 1, b => ⟨InnerNode.id b, (InnerNode.slots b).drop 1⟩

/-- The node `b` with the last entry of its left neighbour `a`. -/
def pushFirst : {d : ℕ} → BTree K V d → BTree K V d → BTree K V d
  | 0, a, b => ⟨LeafNode.id b, LeafNode.next b,
      (LeafNode.entries a).getLast?.toList ++ LeafNode.entries b⟩
  | _ + 1, a, b => ⟨InnerNode.id b, (InnerNode.slots a).getLast?.toList ++ InnerNode.slots b⟩

/-- A node without its last entry. -/
def dropLast : {d : ℕ} → BTree K V d → BTree K V d
  | 0, a => ⟨LeafNode.id a, LeafNode.next a, (LeafNode.entries a).dropLast⟩
  | _ + 1, a => ⟨InnerNode.id a, (InnerNode.slots a).dropLast⟩

variable {d : ℕ}

@[simp] theorem slotIds_setFirst (key : K) (slots : List (K × BTree K V d)) :
    slotIds (setFirst key slots) = slotIds slots := by
  cases slots <;> rfl

@[simp] theorem length_setFirst {T : Type} (key : K) (slots : List (K × T)) :
    (setFirst key slots).length = slots.length := by
  cases slots <;> rfl

@[simp] theorem pageId_merge (key : K) : {d : ℕ} → (a b : BTree K V d) →
    (merge key a b).pageId = a.pageId
  | 0, _, _ => rfl
  | _ + 1, _, _ => rfl

theorem size_merge (key : K) : {d : ℕ} → (a b : BTree K V d) →
    (merge key a b).size = a.size + b.size
  | 0, _, _ => by simp [merge, size]
  | _ + 1, _, _ => by simp [merge, size]

/-- Merging leaves one page over. -/
theorem ids_merge (key : K) : {d : ℕ} → (a b : BTree K V d) →
    b.pageId ::ₘ (merge key a b).ids = a.ids + b.ids
  | 0, a, b => by
    simp only [merge, ids, pageId]
    rw [Multiset.singleton_add]
    exact Multiset.pair_comm _ _
  | d + 1, a, b => by
    simp only [merge, ids_inner, pageId, slotIds_append, slotIds_setFirst, ← Multiset.singleton_add]
    abel

theorem ids_pushLast_add_dropFirst : {d : ℕ} → (a b : BTree K V d) →
    (pushLast a b).ids + (dropFirst b).ids = a.ids + b.ids
  | 0, a, b => rfl
  | d + 1, a, b => by
    simp only [pushLast, dropFirst, ids_inner, slotIds_append]
    rw [← slotIds_take_add_drop (InnerNode.slots b) 1]
    simp only [← Multiset.singleton_add]
    abel

theorem ids_dropLast_add_pushFirst : {d : ℕ} → (a b : BTree K V d) →
    (dropLast a).ids + (pushFirst a b).ids = a.ids + b.ids
  | 0, a, b => rfl
  | d + 1, ⟨page, slots⟩, b => by
    have split : slotIds slots.dropLast + slotIds slots.getLast?.toList = slotIds slots := by
      rw [← slotIds_append, List.dropLast_eq_take, List.take_append_getLast?]
    simp only [dropLast, pushFirst, ids_inner, slotIds_append, ← split]
    simp only [← Multiset.singleton_add]
    abel

end BTree

/-- One level up. -/
theorem Focus.up {n : KeySize} {v : BPlusTree.View K V} {d : ℕ} {page : PageId}
    {left right : List (K × BTree K V d)} {k : K} {above : Context K V (d + 1)} {t : BTree K V d}
    (h : Focus n v (frame page left k right above) t) :
    Focus n v above (d := d + 1) ⟨page, left ++ (k, t) :: right⟩ := by
  have same : (frame page left k right above).ids + t.ids =
      above.ids + BTree.ids (d := d + 1) ⟨page, left ++ (k, t) :: right⟩ := by
    rw [← ids_plug, ← ids_plug]
    rfl
  have both := (rep_plug above (⟨page, left ++ (k, t) :: right⟩ : BTree K V (d + 1))).1
    ((rep_plug (frame page left k right above) t).2 ⟨h.rep, h.sub⟩)
  exact ⟨both.1, both.2, same ▸ h.nodup, fun p hp => h.bound p (same ▸ hp)⟩

theorem BTree.ids_window {d : ℕ} {page : PageId} (l mid r : List (K × BTree K V d)) :
    BTree.ids (d := d + 1) ⟨page, l ++ (mid ++ r)⟩ =
      page ::ₘ (slotIds l + (slotIds mid + slotIds r)) := by
  rw [ids_inner, slotIds_append, slotIds_append]

section Window

variable {n : KeySize} {v : BPlusTree.View K V} {d : ℕ} {page : PageId}
  {l mid mid' r : List (K × BTree K V d)} {above : Context K V (d + 1)} {p : PageId}

/-- The subtrees in the middle of a page are apart from everything else. -/
theorem Focus.apart (h : Focus n v above (d := d + 1) ⟨page, l ++ (mid ++ r)⟩)
    (hp : p ∈ slotIds mid) : p ≠ page ∧ p ∉ above.ids + (slotIds l + slotIds r) := by
  have nodup : (page ::ₘ (slotIds mid + (above.ids + (slotIds l + slotIds r)))).Nodup := by
    have := h.nodup
    rw [ids_window] at this
    convert this using 1
    simp only [← Multiset.singleton_add]
    abel
  obtain ⟨out, nodup⟩ := Multiset.nodup_cons.1 nodup
  refine ⟨?_, Multiset.disjoint_left.1 (Multiset.nodup_add.1 nodup).2.2 hp⟩
  rintro rfl
  exact out (Multiset.mem_add.2 (.inl hp))

theorem Focus.nodup_mid (h : Focus n v above (d := d + 1) ⟨page, l ++ (mid ++ r)⟩) :
    (slotIds mid).Nodup := by
  have nodup := (Multiset.nodup_add.1 h.nodup).2.1
  rw [ids_window] at nodup
  exact (Multiset.nodup_add.1 (Multiset.nodup_add.1 (Multiset.nodup_cons.1 nodup).2).2.1).1

theorem Focus.mem_mid (h : Focus n v above (d := d + 1) ⟨page, l ++ (mid ++ r)⟩)
    (hp : p ∈ slotIds mid) : 0 < p ∧ p < v.next := by
  refine h.bound p (Multiset.mem_add.2 (.inr ?_))
  rw [ids_window]
  exact Multiset.mem_cons_of_mem (Multiset.mem_add.2 (.inr (Multiset.mem_add.2 (.inl hp))))

theorem Focus.ne_page (h : Focus n v above (d := d + 1) ⟨page, l ++ (mid ++ r)⟩)
    (hp : p ∈ above.ids + (slotIds l + slotIds r)) : p ≠ page := by
  have nodup := h.nodup
  rw [ids_window] at nodup
  obtain ⟨-, inner, disjoint⟩ := Multiset.nodup_add.1 nodup
  rintro rfl
  obtain hp | hp := Multiset.mem_add.1 hp
  · exact Multiset.disjoint_left.1 disjoint hp (Multiset.mem_cons_self _ _)
  · refine (Multiset.nodup_cons.1 inner).1 ?_
    obtain hp | hp := Multiset.mem_add.1 hp
    · exact Multiset.mem_add.2 (.inl hp)
    · exact Multiset.mem_add.2 (.inr (Multiset.mem_add.2 (.inr hp)))

/-- Other subtrees in the middle of a page, on the same pages. -/
theorem Focus.replace {content : PageId → IndexPage K V} {parent : InternalPage K}
    (h : Focus n v above (d := d + 1) ⟨page, l ++ (mid ++ r)⟩)
    (hp : content page = .internal parent)
    (holds : parent.Holds n page above.parentId ((l ++ (mid' ++ r)).map toSlot))
    (reps : ∀ x ∈ mid', x.2.Rep n content page) (le : slotIds mid' ≤ slotIds mid)
    (same : ∀ q ∈ above.ids + (slotIds l + slotIds r), content q = v.content q) :
    Focus n { v with content := content } above (d := d + 1) ⟨page, l ++ (mid' ++ r)⟩ := by
  have ids : above.ids + BTree.ids (d := d + 1) ⟨page, l ++ (mid' ++ r)⟩ ≤
      above.ids + BTree.ids (d := d + 1) ⟨page, l ++ (mid ++ r)⟩ := by
    rw [ids_window, ids_window]
    exact add_le_add le_rfl (Multiset.cons_le_cons _ (add_le_add le_rfl (add_le_add le le_rfl)))
  have side : ∀ {x}, x ∈ l ∨ x ∈ r → x.2.Rep n content page := by
    intro x hx
    refine (h.sub.2 x ?_).congr fun q hq => same q ?_
    · simp only [List.mem_append]
      exact hx.imp_right .inr
    · simp only [Multiset.mem_add]
      exact .inr (hx.imp (fun hx => mem_slotIds.2 ⟨x, hx, hq⟩) fun hx => mem_slotIds.2 ⟨x, hx, hq⟩)
  refine ⟨h.rep.congr fun q hq => same q (Multiset.mem_add.2 (.inl hq)),
    ⟨⟨parent, hp, holds⟩, ?_⟩,
    Multiset.nodup_of_le ids h.nodup, fun q hq => h.bound q (Multiset.mem_of_le ids hq)⟩
  intro x hx
  simp only [List.mem_append] at hx
  obtain hx | hx | hx := hx
  · exact side (.inl hx)
  · exact reps x hx
  · exact side (.inr hx)

end Window

namespace BPlusTree

variable {tree : BPlusTree K} {v : View K V} {s : TreeState K V} {d : ℕ}
  {E : Fault → TreeState K V → Prop}

/-- The bracket in which a child gets another parent, as redistribution does it. -/
theorem At.adoptChild_rule {t : BTree K V d} {parent q : PageId} {n : KeySize} (h : At tree v s)
    (rep : t.Rep n v.content parent) (hp : t.pageId ≠ headerPageId) :
    Spec (adoptChild t.pageId q) s (fun _ => At tree { v with
      content := Function.update v.content t.pageId ((v.content t.pageId).withParent q) }) E := by
  obtain ⟨header, hh, is, -⟩ := rep.root
  refine h.fetchSetParent_rule hp hh q .assertion fun s₁ h₁ => ?_
  obtain ⟨header', hh', same⟩ : ∃ header', ((v.content t.pageId).withParent q).asTreePage =
      .ok header' ∧ header'.pageId = header.pageId := by
    cases hc : v.content t.pageId with
    | raw data =>
      rw [hc] at hh
      cases hh
    | leaf p =>
      rw [hc] at hh
      cases hh
      exact ⟨_, rfl, rfl⟩
    | internal p =>
      rw [hc] at hh
      cases hh
      exact ⟨_, rfl, rfl⟩
  refine Spec.bind_eq (h₁.getTreePage_eq hp (?_ : _ = Except.ok header')) ?_
  · dsimp only
    rw [Function.update_self]
    exact hh'
  · rw [same, is.pageId]
    exact h₁.unpinDirty_rule _ rfl fun _ hq ne => (List.mem_cons.1 hq).resolve_left ne

/-- The update of a key in a parent page that is held. -/
theorem At.setKeyInParent_rule {page parent : PageId} {p : InternalPage K}
    {index : InternalPage K → ℤ} {key new : K} {q : PageId} {l r : List (K × PageId)}
    (h : At tree v s) (ex : v.exclusive = true) (held : page ∈ v.held) (hp : page ≠ headerPageId)
    (hc : v.content page = .internal p)
    (holds : p.Holds tree.keySize page parent (l ++ (key, q) :: r)) (hi : index p = l.length)
    (fits : (l ++ (key, q) :: r).length ≤ tree.keySize.internalMax + 1) :
    Spec (tree.setKeyInParent page index new) s (fun _ s' => ∃ p', At tree { v with
      content := Function.update v.content page (.internal p') } s' ∧
      p'.Holds tree.keySize page parent (l ++ (new, q) :: r)) E := by
  obtain ⟨p', run, holds'⟩ := holds.setKeyAt fits new
  refine Spec.bind (h.fetchPage_rule page .nullDeref) fun _ s₁ h₁ => ?_
  refine Spec.bind_eq (h₁.getInternal_eq hp hc) ?_
  refine Spec.bind_eq (a := p') (t := s₁) (by rw [hi, run]; rfl) ?_
  refine Spec.bind (h₁.setHeld_rule hp ex held _) fun _ s₂ h₂ => ?_
  exact (h₂.unpinDirty_rule _ rfl fun q hq _ => hq).post fun _ s₃ h₃ => ⟨p', h₃, holds'⟩

/-! ## Merging -/

variable {page : PageId} {l r : List (K × BTree K V d)} {ka kb : K} {a b : BTree K V d}
  {above : Context K V (d + 1)}

/-- Two neighbouring nodes that are held, below a page that is held. -/
structure Neighbours (n : KeySize) (v : View K V) (page : PageId) (l : List (K × BTree K V d))
    (ka : K) (a : BTree K V d) (kb : K) (b : BTree K V d) (r : List (K × BTree K V d))
    (above : Context K V (d + 1)) : Prop where
  focus : Focus n v above (d := d + 1) ⟨page, l ++ ([(ka, a), (kb, b)] ++ r)⟩
  fits : (l ++ ([(ka, a), (kb, b)] ++ r)).length ≤ n.internalMax
  exclusive : v.exclusive = true
  left : a.pageId ∈ v.held
  right : b.pageId ∈ v.held
  parent : page ∈ v.held

theorem slotIds_pair (ka : K) (a : BTree K V d) (kb : K) (b : BTree K V d) :
    slotIds [((ka, a) : K × BTree K V d), (kb, b)] = a.ids + b.ids := by
  simp [slotIds]

namespace Neighbours

variable {n : KeySize} (h : Neighbours n v page l ka a kb b r above)
include h

theorem repLeft : a.Rep n v.content page := h.focus.sub.2 (ka, a) (by simp)

theorem repRight : b.Rep n v.content page := h.focus.sub.2 (kb, b) (by simp)

theorem nodup : (a.ids + b.ids).Nodup := slotIds_pair ka a kb b ▸ h.focus.nodup_mid

theorem ne_header {p : PageId} (hp : p ∈ a.ids + b.ids) : p ≠ headerPageId :=
  (h.focus.mem_mid (slotIds_pair ka a kb b ▸ hp)).1.ne'

theorem ne_parent {p : PageId} (hp : p ∈ a.ids + b.ids) : p ≠ page :=
  (h.focus.apart (slotIds_pair ka a kb b ▸ hp)).1

theorem parent_ne_header : page ≠ headerPageId :=
  h.focus.ne_header (Multiset.mem_add.2 (.inr (Multiset.mem_cons_self page _)))

theorem outside {p : PageId} (hp : p ∈ above.ids + (slotIds l + slotIds r)) :
    p ∉ a.ids + b.ids := fun inside =>
  (h.focus.apart (slotIds_pair ka a kb b ▸ inside)).2 hp

theorem disjoint {p : PageId} (hp : p ∈ a.ids) : p ∉ b.ids :=
  Multiset.disjoint_left.1 (Multiset.nodup_add.1 h.nodup).2.2 hp

theorem pageId_ne : a.pageId ≠ b.pageId := fun e =>
  h.disjoint (pageId_mem_ids a) (e ▸ pageId_mem_ids b)

/-- The page above the neighbours. -/
theorem page_holds : ∃ p, v.content page = .internal p ∧ p.Holds n page above.parentId
    ((l.map toSlot ++ [toSlot (ka, a)]) ++ (kb, b.pageId) :: r.map toSlot) := by
  obtain ⟨⟨p, hp, holds⟩, -⟩ := h.focus.sub
  exact ⟨p, hp, by simpa [toSlot] using holds⟩

end Neighbours

theorem inLeft {p : PageId} (hp : p ∈ a.ids) : p ∈ a.ids + b.ids := Multiset.mem_add.2 (.inl hp)

theorem inRight {p : PageId} (hp : p ∈ b.ids) : p ∈ a.ids + b.ids := Multiset.mem_add.2 (.inr hp)

theorem ne_pages {q : PageId} (hq : q ∉ a.ids + b.ids) : q ≠ a.pageId ∧ q ≠ b.pageId := by
  constructor
  · rintro rfl
    exact hq (inLeft (pageId_mem_ids a))
  · rintro rfl
    exact hq (inRight (pageId_mem_ids b))

/-- `MoveAllTo`. -/
theorem At.moveAllTo_rule (h : At tree v s) (nb : Neighbours tree.keySize v page l ka a kb b r above)
    (fits : a.size + b.size ≤ maxSize tree.keySize d) (pos : 0 < b.size) :
    Spec (tree.moveAllTo b.pageId a.pageId (l.length + 1)) s (fun _ s' => ∃ content,
      At tree { v with content := content } s' ∧ (merge kb a b).Rep tree.keySize content page ∧
      (∃ header, (content b.pageId).asTreePage = .ok header ∧ header.pageId = b.pageId) ∧
      ∀ q, q ∉ a.ids + b.ids → content q = v.content q) E := by
  have ha := nb.ne_header (inLeft (pageId_mem_ids a))
  have hb := nb.ne_header (inRight (pageId_mem_ids b))
  refine Spec.bind_eq (h.getPage_eq hb) ?_
  refine Spec.bind_eq (h.getPage_eq ha) ?_
  cases d with
  | zero =>
    obtain ⟨pa, hca, holdsA⟩ := nb.repLeft
    obtain ⟨pb, hcb, holdsB⟩ := nb.repRight
    obtain ⟨pb', pa', run, idB, holds⟩ := holdsB.moveAllTo holdsA fits
    rw [show v.content a.pageId = .leaf pa from hca, show v.content b.pageId = .leaf pb from hcb]
    refine Spec.bind_eq (a := (pb', pa')) (t := s) (by rw [run]; rfl) ?_
    refine Spec.bind (h.setHeld_rule ha nb.exclusive nb.left _) fun _ s₁ h₁ => ?_
    refine (h₁.setHeld_rule hb nb.exclusive nb.right _).post fun _ s₂ h₂ => ?_
    refine ⟨_, h₂, ⟨pa', ?_, holds⟩, ⟨pb'.toBPlusTreePage, ?_, idB⟩, fun q hq => ?_⟩
    · exact (Function.update_of_ne nb.pageId_ne _ _).trans (Function.update_self _ _ _)
    · dsimp only
      rw [Function.update_self]
      rfl
    · dsimp only
      rw [Function.update_of_ne (ne_pages hq).2, Function.update_of_ne (ne_pages hq).1]
  | succ d =>
    obtain ⟨pageA, slotsA⟩ := a
    obtain ⟨pageB, slotsB⟩ := b
    obtain ⟨⟨pa, hca, holdsA⟩, belowA⟩ := nb.repLeft
    obtain ⟨⟨pb, hcb, holdsB⟩, belowB⟩ := nb.repRight
    obtain ⟨y, rest, rfl⟩ : ∃ y rest, slotsB = y :: rest :=
      List.exists_cons_of_ne_nil (List.ne_nil_of_length_pos pos)
    obtain ⟨pp, hcp, holdsP⟩ := nb.page_holds
    have fits' : slotsA.length + (y :: rest).length ≤ tree.keySize.internalMax := fits
    -- the key of the right node comes down from the parent page
    have keyAt : pp.keyAt tree.keySize (l.length + 1) = .ok kb := by
      have := holdsP.keyAt (by have := nb.fits; simp at this ⊢; omega)
      simpa using this
    obtain ⟨pb₁, setKey, holdsB₁⟩ := InternalPage.Holds.setKeyAt (l := []) holdsB (by
      simp at fits' ⊢
      omega) kb
    rw [show v.content (pageId (d := d + 1) ⟨pageA, slotsA⟩) = .internal pa from hca,
      show v.content (pageId (d := d + 1) ⟨pageB, y :: rest⟩) = .internal pb from hcb]
    refine Spec.bind (h.fetchPage_rule pb.parentPageId .assertion) fun _ s₁ h₁ => ?_
    have parent : pb.parentPageId = page := holdsB.fields.parentPageId
    rw [parent] at h₁ ⊢
    refine Spec.bind_eq (h₁.getInternal_eq nb.parent_ne_header hcp) ?_
    refine Spec.bind_eq (a := kb) (t := s₁) (by rw [keyAt]; rfl) ?_
    refine Spec.bind_eq (a := pb₁) (t := s₁) (by rw [← setKey]; rfl) ?_
    refine Spec.bind (h₁.setHeld_rule hb nb.exclusive nb.right _) fun _ s₂ h₂ => ?_
    rw [holdsP.fields.pageId]
    refine Spec.bind (h₂.unpinClean_rule rfl (.inl nb.parent)) fun _ s₃ h₃ => ?_
    -- the children of the right node get the left one as their parent
    have children : ((SlotArray.entries pb₁.array pb₁.size).map Prod.snd) =
        (y :: rest).map fun x => x.2.pageId := by
      rw [holdsB₁.items]
      simp [toSlot]
    rw [children, holdsA.fields.pageId]
    have nodupB := Multiset.nodup_cons.1 (Multiset.nodup_add.1 nb.nodup).2.1
    have offB {q : PageId} (hq : q ∈ slotIds (y :: rest)) : q ≠ pageB := by
      rintro rfl
      exact nodupB.1 hq
    have offA {q : PageId} (hq : q ∈ slotIds (y :: rest)) : q ≠ pageA := by
      rintro rfl
      exact nb.disjoint (Multiset.mem_cons_self _ _) (Multiset.mem_cons_of_mem hq)
    refine Spec.bind (h₃.reparent_slots (n := tree.keySize) (y :: rest)
      (fun x hx => ⟨pageB, (belowB x hx).congr fun q hq =>
        Function.update_of_ne (offB (mem_slotIds.2 ⟨x, hx, hq⟩)) _ _⟩) nodupB.2
      fun q hq => nb.ne_header (inRight (Multiset.mem_cons_of_mem hq))) ?_
    rintro _ s₄ ⟨content, h₄, reps, same⟩
    dsimp only at h₄ same
    obtain ⟨pb', pa', run, idB, holds⟩ := holdsB₁.moveAllTo holdsA (by simpa using fits')
    refine Spec.bind_eq (a := (pb', pa')) (t := s₄) (by rw [run]; rfl) ?_
    refine Spec.bind (h₄.setHeld_rule ha nb.exclusive nb.left _) fun _ s₅ h₅ => ?_
    refine (h₅.setHeld_rule hb nb.exclusive nb.right _).post fun _ s₆ h₆ => ?_
    refine ⟨_, h₆, ⟨⟨pa', ?_, ?_⟩, fun x hx => ?_⟩, ⟨pb'.toBPlusTreePage, ?_, idB⟩, fun q hq => ?_⟩
    · exact (Function.update_of_ne nb.pageId_ne _ _).trans (Function.update_self _ _ _)
    · simpa [merge, setFirst, toSlot] using holds
    · simp only [merge, List.mem_append] at hx
      obtain hx | hx := hx
      · refine (belowA x hx).congr fun q hq => ?_
        have inA : q ∈ slotIds slotsA := mem_slotIds.2 ⟨x, hx, hq⟩
        have inA' : q ∈ BTree.ids (d := d + 1) ⟨pageA, slotsA⟩ := Multiset.mem_cons_of_mem inA
        have neB : q ≠ pageB := by
          rintro rfl
          exact nb.disjoint inA' (Multiset.mem_cons_self _ _)
        have neA : q ≠ pageA := by
          rintro rfl
          exact (Multiset.nodup_cons.1 (Multiset.nodup_add.1 nb.nodup).1).1 inA
        dsimp only [pageId]
        rw [Function.update_of_ne neB, Function.update_of_ne neA,
          same q fun hq' => nb.disjoint inA' (Multiset.mem_cons_of_mem hq')]
        exact Function.update_of_ne neB _ _
      · obtain ⟨z, hz, sub⟩ : ∃ z ∈ y :: rest, x.2 = z.2 := by
          obtain rfl | hx := List.mem_cons.1 hx
          · exact ⟨y, List.mem_cons_self, rfl⟩
          · exact ⟨x, List.mem_cons_of_mem _ hx, rfl⟩
        rw [sub]
        refine (reps z hz).congr fun q hq => ?_
        have inB := mem_slotIds.2 ⟨z, hz, hq⟩
        dsimp only [pageId]
        rw [Function.update_of_ne (offB inB), Function.update_of_ne (offA inB)]
    · dsimp only
      rw [Function.update_self]
      rfl
    · obtain ⟨neA, neB⟩ := ne_pages hq
      dsimp only
      rw [Function.update_of_ne neB, Function.update_of_ne neA,
        same q fun hq' => hq (inRight (Multiset.mem_cons_of_mem hq')), Function.update_of_ne neB]

/-! ## Redistribution -/

theorem Neighbours.valueIndex {n : KeySize} (nb : Neighbours n v page l ka a kb b r above)
    {p : InternalPage K} {id parent : PageId} (holds : p.Holds n id parent
      ((l.map toSlot ++ [toSlot (ka, a)]) ++ (kb, b.pageId) :: r.map toSlot)) :
    p.valueIndex b.pageId = (l.map toSlot ++ [toSlot (ka, a)]).length := by
  refine holds.valueIndex fun x hx => ?_
  have inside : b.pageId ∈ slotIds [((ka, a) : K × BTree K V d), (kb, b)] :=
    slotIds_pair ka a kb b ▸ inRight (pageId_mem_ids b)
  simp only [List.mem_append, List.mem_map, List.mem_singleton] at hx
  obtain ⟨y, hy, rfl⟩ | rfl := hx
  · intro same
    refine (nb.focus.apart inside).2 (Multiset.mem_add.2 (.inr (Multiset.mem_add.2 (.inl ?_))))
    exact mem_slotIds.2 ⟨y, hy, same ▸ pageId_mem_ids y.2⟩
  · exact nb.pageId_ne

/-- Two neighbours that exchanged entries get the key between them. -/
theorem At.separate_rule {content : PageId → IndexPage K V} (a' b' : BTree K V d) (k : K)
    {index : InternalPage K → ℤ} (h : At tree { v with content := content } s)
    (nb : Neighbours tree.keySize v page l ka a kb b r above)
    (hi : ∀ p : InternalPage K, p.Holds tree.keySize page above.parentId
      ((l.map toSlot ++ [toSlot (ka, a)]) ++ (kb, b.pageId) :: r.map toSlot) →
      index p = (l.map toSlot ++ [toSlot (ka, a)]).length)
    (repA : a'.Rep tree.keySize content page) (repB : b'.Rep tree.keySize content page)
    (idA : a'.pageId = a.pageId) (idB : b'.pageId = b.pageId) (ids : a'.ids + b'.ids = a.ids + b.ids)
    (same : ∀ q, q ∉ a.ids + b.ids → content q = v.content q) :
    Spec (tree.setKeyInParent page index k) s (fun _ s' => ∃ content, At tree { v with
      content := content } s' ∧ Focus tree.keySize { v with content := content } above (d := d + 1)
        ⟨page, l ++ ([(ka, a'), (k, b')] ++ r)⟩) E := by
  obtain ⟨p, hp, holds⟩ := nb.page_holds
  have apart {q : PageId} (hq : q ∈ a.ids + b.ids) : q ≠ page := nb.ne_parent hq
  have hp' : content page = .internal p := by
    rw [same page fun inside => nb.ne_parent inside rfl, hp]
  have length : ((l.map toSlot ++ [toSlot (ka, a)]) ++ (kb, b.pageId) :: r.map toSlot).length ≤
      tree.keySize.internalMax + 1 := by
    have := nb.fits
    simp at this ⊢
    omega
  refine (h.setKeyInParent_rule nb.exclusive nb.parent nb.parent_ne_header hp' holds (hi p holds)
    length).post ?_
  rintro _ s₁ ⟨p', h₁, holds'⟩
  have off {q : PageId} (hq : q ≠ page) :
      Function.update content page (.internal p') q = content q := Function.update_of_ne hq _ _
  refine ⟨_, h₁, nb.focus.replace (Function.update_self _ _ _) ?_ ?_ ?_ fun q hq => ?_⟩
  · simpa [toSlot, idA, idB] using holds'
  · simp only [List.mem_cons, List.not_mem_nil, or_false]
    rintro x (rfl | rfl)
    · exact repA.congr fun q hq => off (apart (ids ▸ inLeft hq))
    · exact repB.congr fun q hq => off (apart (ids ▸ inRight hq))
  · rw [slotIds_pair, slotIds_pair, ids]
  · rw [off (nb.focus.ne_page hq), same q (nb.outside hq)]

/-- The subtree `x` moves between two nodes with the children `l` to its left and `r` to its
right, and gets the page `new` as its parent. -/
theorem At.moveChild_rule {content : PageId → IndexPage K V} (pageA pageB : PageId)
    {old : PageId} (new : PageId) (left : List (K × BTree K V d)) (x : K × BTree K V d)
    (right : List (K × BTree K V d))
    (h : At tree { v with content := content } s)
    (repL : ∀ z ∈ left, z.2.Rep tree.keySize v.content pageA)
    (repR : ∀ z ∈ right, z.2.Rep tree.keySize v.content pageB)
    (rep : x.2.Rep tree.keySize v.content old)
    (nodup : (pageA ::ₘ pageB ::ₘ (slotIds left + slotIds (x :: right))).Nodup)
    (bound : x.2.pageId ≠ headerPageId)
    (same : ∀ q, q ≠ pageA → q ≠ pageB → content q = v.content q) :
    Spec (adoptChild x.2.pageId new) s (fun _ s' => ∃ content', At tree { v with
      content := content' } s' ∧ content' pageA = content pageA ∧ content' pageB = content pageB ∧
      (∀ z ∈ left, z.2.Rep tree.keySize content' pageA) ∧
      (∀ z ∈ right, z.2.Rep tree.keySize content' pageB) ∧ x.2.Rep tree.keySize content' new ∧
      ∀ q, q ≠ pageA → q ≠ pageB → q ∉ x.2.ids → content' q = v.content q) E := by
  obtain ⟨outA, nodup⟩ := Multiset.nodup_cons.1 nodup
  obtain ⟨outB, nodup⟩ := Multiset.nodup_cons.1 nodup
  rw [Multiset.mem_cons, not_or] at outA
  obtain ⟨-, nodupR, disjointL⟩ := Multiset.nodup_add.1 nodup
  rw [slotIds_cons] at nodupR
  obtain ⟨nodupX, -, disjointR⟩ := Multiset.nodup_add.1 nodupR
  have offX {q : PageId} (hq : q ∈ x.2.ids) : q ≠ pageA ∧ q ≠ pageB := by
    have inside : q ∈ slotIds left + slotIds (x :: right) :=
      Multiset.mem_add.2 (.inr (Multiset.mem_add.2 (.inl hq)))
    exact ⟨fun e => outA.2 (e ▸ inside), fun e => outB (e ▸ inside)⟩
  have rep' : x.2.Rep tree.keySize content old :=
    rep.congr fun q hq => same q (offX hq).1 (offX hq).2
  have root := pageId_mem_ids x.2
  have frame {q : PageId} (neA : q ≠ pageA) (neB : q ≠ pageB) (out : q ∉ x.2.ids) :
      Function.update content x.2.pageId ((content x.2.pageId).withParent new) q =
        v.content q := by
    have ne : q ≠ x.2.pageId := by
      rintro rfl
      exact out root
    rw [Function.update_of_ne ne, same q neA neB]
  have inside {q : PageId} (hq : q ∈ slotIds left + slotIds right) (out : q ∉ x.2.ids) :
      Function.update content x.2.pageId ((content x.2.pageId).withParent new) q =
        v.content q := by
    have hq' : q ∈ slotIds left + slotIds (x :: right) := by
      rw [slotIds_cons]
      simp only [Multiset.mem_add] at hq ⊢
      exact hq.imp_right .inr
    exact frame (fun e => outA.2 (e ▸ hq')) (fun e => outB (e ▸ hq')) out
  refine (h.adoptChild_rule rep' bound).post fun _ s₁ h₁ => ⟨_, h₁,
    Function.update_of_ne (offX root).1.symm _ _, Function.update_of_ne (offX root).2.symm _ _,
    fun z hz => ?_, fun z hz => ?_, rep'.withParent nodupX new, fun q => frame⟩
  · refine (repL z hz).congr fun q hq => ?_
    have hq := mem_slotIds.2 ⟨z, hz, hq⟩
    exact inside (Multiset.mem_add.2 (.inl hq)) fun hx =>
      Multiset.disjoint_left.1 disjointL hq (Multiset.mem_add.2 (.inl hx))
  · refine (repR z hz).congr fun q hq => ?_
    have hq := mem_slotIds.2 ⟨z, hz, hq⟩
    exact inside (Multiset.mem_add.2 (.inr hq)) fun hx => Multiset.disjoint_left.1 disjointR hx hq

/-- The pages of two neighbouring internal nodes are distinct. -/
theorem Neighbours.inner {n : KeySize} {page pageA pageB : PageId}
    {l r : List (K × BTree K V (d + 1))} {slotsA slotsB : List (K × BTree K V d)}
    {above : Context K V (d + 2)}
    (nb : Neighbours n v page l ka (d := d + 1) ⟨pageA, slotsA⟩ kb ⟨pageB, slotsB⟩ r above) :
    (pageA ::ₘ pageB ::ₘ (slotIds slotsA + slotIds slotsB)).Nodup := by
  have nodup := nb.nodup
  rw [ids_inner, ids_inner] at nodup
  convert nodup using 1
  simp only [← Multiset.singleton_add]
  abel

/-- `MoveFirstToEndOf`. -/
theorem At.moveFirstToEndOf_rule (h : At tree v s)
    (nb : Neighbours tree.keySize v page l ka a kb b r above) (two : 2 ≤ b.size)
    (fits : a.size < maxSize tree.keySize d) :
    Spec (tree.moveFirstToEndOf b.pageId a.pageId) s (fun _ s' => ∃ content k,
      firstKey (dropFirst b) = some k ∧ At tree { v with content := content } s' ∧
      Focus tree.keySize { v with content := content } above (d := d + 1)
        ⟨page, l ++ ([(ka, pushLast a b), (k, dropFirst b)] ++ r)⟩) E := by
  have ha := nb.ne_header (inLeft (pageId_mem_ids a))
  have hb := nb.ne_header (inRight (pageId_mem_ids b))
  refine Spec.bind_eq (h.getPage_eq hb) ?_
  refine Spec.bind_eq (h.getPage_eq ha) ?_
  cases d with
  | zero =>
    obtain ⟨pa, hca, holdsA⟩ := nb.repLeft
    obtain ⟨pb, hcb, holdsB⟩ := nb.repRight
    obtain ⟨x, y, rest, entries⟩ : ∃ x y rest, LeafNode.entries b = x :: y :: rest := by
      rcases hb : LeafNode.entries b with _ | ⟨x, _ | ⟨y, rest⟩⟩
      all_goals simp [BTree.size, hb] at two
      exact ⟨x, y, rest, rfl⟩
    obtain ⟨pb', pa', run, holdsB', holdsA'⟩ := holdsB.moveFirstToEndOf holdsA entries fits
    rw [show v.content a.pageId = .leaf pa from hca, show v.content b.pageId = .leaf pb from hcb]
    refine Spec.bind_eq (a := (pb', pa')) (t := s) (by rw [run]; rfl) ?_
    refine Spec.bind (h.setHeld_rule ha nb.exclusive nb.left _) fun _ s₁ h₁ => ?_
    refine Spec.bind (h₁.setHeld_rule hb nb.exclusive nb.right _) fun _ s₂ h₂ => ?_
    dsimp only at h₂ ⊢
    have first : pb'.array 0 = y := holdsB'.array (by simp)
    rw [holdsB'.fields.parentPageId, first]
    refine (At.separate_rule (pushLast a b) (dropFirst b) y.1 h₂ nb
      (fun p hp => ?_) ⟨pa', ?_, ?_⟩ ⟨pb', Function.update_self _ _ _, ?_⟩ rfl rfl rfl fun q hq => ?_).post ?_
    · rw [holdsB'.fields.pageId]
      exact nb.valueIndex hp
    · exact (Function.update_of_ne nb.pageId_ne _ _).trans (Function.update_self _ _ _)
    · simpa [pushLast, entries] using holdsA'
    · simpa [dropFirst, entries] using holdsB'
    · rw [Function.update_of_ne (ne_pages hq).2, Function.update_of_ne (ne_pages hq).1]
    · rintro _ s₃ ⟨content, h₃, focus⟩
      exact ⟨content, y.1, by simp [firstKey, dropFirst, entries], h₃, focus⟩
  | succ d =>
    obtain ⟨pageA, slotsA⟩ := a
    obtain ⟨pageB, slotsB⟩ := b
    obtain ⟨⟨pa, hca, holdsA⟩, belowA⟩ := nb.repLeft
    obtain ⟨⟨pb, hcb, holdsB⟩, belowB⟩ := nb.repRight
    obtain ⟨x, y, rest, rfl⟩ : ∃ x y rest, slotsB = x :: y :: rest := by
      rcases slotsB with _ | ⟨x, _ | ⟨y, rest⟩⟩
      all_goals simp [BTree.size] at two
      exact ⟨x, y, rest, rfl⟩
    have fits' : (slotsA.map toSlot).length < tree.keySize.internalMax := by
      rw [List.length_map]
      exact fits
    obtain ⟨pb', pa', run, holdsB', holdsA'⟩ :=
      InternalPage.Holds.moveFirstToEndOf holdsB holdsA fits'
    have child : pb.array 0 = toSlot x := holdsB.array (by simp)
    rw [show v.content (pageId (d := d + 1) ⟨pageA, slotsA⟩) = .internal pa from hca,
      show v.content (pageId (d := d + 1) ⟨pageB, x :: y :: rest⟩) = .internal pb from hcb]
    dsimp only
    rw [child]
    refine Spec.bind_eq (a := (pb', pa')) (t := s) (by rw [run]; rfl) ?_
    refine Spec.bind (h.setHeld_rule ha nb.exclusive nb.left _) fun _ s₁ h₁ => ?_
    refine Spec.bind (h₁.setHeld_rule hb nb.exclusive nb.right _) fun _ s₂ h₂ => ?_
    dsimp only at h₂ ⊢
    have first : pb'.array 0 = toSlot y := holdsB'.array (by simp)
    rw [holdsB'.fields.parentPageId, holdsA'.fields.pageId, first]
    refine Spec.bind (At.moveChild_rule pageA pageB pageA slotsA x (y :: rest) h₂ belowA
      (fun z hz => belowB z (List.mem_cons_of_mem _ hz)) (belowB x List.mem_cons_self) nb.inner
      (nb.ne_header (inRight ?_)) fun q neA neB => ?_) ?_
    · exact Multiset.mem_cons_of_mem (Multiset.mem_add.2 (.inl (pageId_mem_ids x.2)))
    · exact (Function.update_of_ne neB _ _).trans (Function.update_of_ne neA _ _)
    rintro _ s₃ ⟨content, h₃, atA, atB, repA, repB, repX, same⟩
    refine (At.separate_rule (pushLast (d := d + 1) ⟨pageA, slotsA⟩ ⟨pageB, x :: y :: rest⟩)
      (dropFirst (d := d + 1) ⟨pageB, x :: y :: rest⟩) y.1 h₃ nb
      (fun p hp => ?_) ⟨⟨pa', ?_, ?_⟩, fun z hz => ?_⟩ ⟨⟨pb', ?_, ?_⟩, fun z hz => ?_⟩
      rfl rfl (ids_pushLast_add_dropFirst _ _) fun q hq => ?_).post ?_
    · rw [holdsB'.fields.pageId]
      exact nb.valueIndex hp
    · exact atA.trans ((Function.update_of_ne nb.pageId_ne _ _).trans (Function.update_self _ _ _))
    · simpa [pushLast, toSlot] using holdsA'
    · obtain hz | hz := List.mem_append.1 hz
      · exact repA z hz
      · obtain rfl := List.mem_singleton.1 hz
        exact repX
    · exact atB.trans (Function.update_self _ _ _)
    · simpa [dropFirst, toSlot] using holdsB'
    · exact repB z hz
    · exact same q (ne_pages hq).1 (ne_pages hq).2 fun hx => hq (inRight
        (Multiset.mem_cons_of_mem (Multiset.mem_add.2 (.inl hx))))
    · rintro _ s₄ ⟨content, h₄, focus⟩
      exact ⟨content, y.1, rfl, h₄, focus⟩

/-- `MoveLastToFrontOf`. -/
theorem At.moveLastToFrontOf_rule (h : At tree v s)
    (nb : Neighbours tree.keySize v page l ka a kb b r above) (pos : 0 < a.size)
    (fits : b.size + 1 < maxSize tree.keySize d) :
    Spec (tree.moveLastToFrontOf a.pageId b.pageId (l.length + 1)) s (fun _ s' => ∃ content k,
      firstKey (pushFirst a b) = some k ∧ At tree { v with content := content } s' ∧
      Focus tree.keySize { v with content := content } above (d := d + 1)
        ⟨page, l ++ ([(ka, dropLast a), (k, pushFirst a b)] ++ r)⟩) E := by
  have ha := nb.ne_header (inLeft (pageId_mem_ids a))
  have hb := nb.ne_header (inRight (pageId_mem_ids b))
  have index : ((l.length : ℤ) + 1) = (l.map toSlot ++ [toSlot (ka, a)]).length := by simp
  refine Spec.bind_eq (h.getPage_eq ha) ?_
  refine Spec.bind_eq (h.getPage_eq hb) ?_
  cases d with
  | zero =>
    obtain ⟨pa, hca, holdsA⟩ := nb.repLeft
    obtain ⟨pb, hcb, holdsB⟩ := nb.repRight
    obtain ⟨rest, x, entries⟩ : ∃ rest x, LeafNode.entries a = rest ++ [x] :=
      (List.eq_nil_or_concat' _).resolve_left (List.ne_nil_of_length_pos pos)
    obtain ⟨pa', pb', run, holdsA', holdsB'⟩ := holdsA.moveLastToFrontOf holdsB entries
      ((Nat.lt_succ_self _).trans fits)
    rw [show v.content a.pageId = .leaf pa from hca, show v.content b.pageId = .leaf pb from hcb]
    refine Spec.bind_eq (a := (pa', pb')) (t := s) (by rw [run]; rfl) ?_
    refine Spec.bind (h.setHeld_rule hb nb.exclusive nb.right _) fun _ s₁ h₁ => ?_
    refine Spec.bind (h₁.setHeld_rule ha nb.exclusive nb.left _) fun _ s₂ h₂ => ?_
    dsimp only at h₂ ⊢
    have first : pb'.array 0 = x := holdsB'.array (by simp)
    rw [holdsB'.fields.parentPageId, first]
    refine (At.separate_rule (dropLast a) (pushFirst a b) x.1 h₂ nb
      (fun _ _ => index) ⟨pa', Function.update_self _ _ _, ?_⟩ ⟨pb', ?_, ?_⟩ rfl rfl rfl
      fun q hq => ?_).post ?_
    · simpa [dropLast, entries] using holdsA'
    · exact (Function.update_of_ne nb.pageId_ne.symm _ _).trans (Function.update_self _ _ _)
    · simpa [pushFirst, entries] using holdsB'
    · rw [Function.update_of_ne (ne_pages hq).1, Function.update_of_ne (ne_pages hq).2]
    · rintro _ s₃ ⟨content, h₃, focus⟩
      exact ⟨content, x.1, by simp [firstKey, pushFirst, entries], h₃, focus⟩
  | succ d =>
    obtain ⟨pageA, slotsA⟩ := a
    obtain ⟨pageB, slotsB⟩ := b
    obtain ⟨⟨pa, hca, holdsA⟩, belowA⟩ := nb.repLeft
    obtain ⟨⟨pb, hcb, holdsB⟩, belowB⟩ := nb.repRight
    obtain ⟨rest, x, rfl⟩ : ∃ rest x, slotsA = rest ++ [x] :=
      (List.eq_nil_or_concat' _).resolve_left (List.ne_nil_of_length_pos pos)
    have fits' : (slotsB.map toSlot).length + 1 < tree.keySize.internalMax := by
      rw [List.length_map]
      exact fits
    dsimp only at holdsA
    rw [List.map_append] at holdsA
    obtain ⟨pa', pb', run, holdsA', holdsB', first⟩ :=
      InternalPage.Holds.moveLastToFrontOf holdsA holdsB fits'
    rw [show v.content (pageId (d := d + 1) ⟨pageA, rest ++ [x]⟩) = .internal pa from hca,
      show v.content (pageId (d := d + 1) ⟨pageB, slotsB⟩) = .internal pb from hcb]
    refine Spec.bind_eq (a := (pa', pb')) (t := s) (by rw [run]; rfl) ?_
    refine Spec.bind (h.setHeld_rule hb nb.exclusive nb.right _) fun _ s₁ h₁ => ?_
    refine Spec.bind (h₁.setHeld_rule ha nb.exclusive nb.left _) fun _ s₂ h₂ => ?_
    dsimp only at h₂ ⊢
    rw [holdsB'.fields.parentPageId, holdsB'.fields.pageId, first]
    have nodup := nb.inner
    rw [slotIds_append, add_assoc] at nodup
    refine Spec.bind (At.moveChild_rule pageA pageB pageB rest x slotsB h₂
      (fun z hz => belowA z (List.mem_append_left _ hz)) belowB
      (belowA x (List.mem_append_right _ (List.mem_singleton_self x))) ?_
      (nb.ne_header (inLeft ?_)) fun q neA neB => ?_) ?_
    · simpa using nodup
    · refine Multiset.mem_cons_of_mem (mem_slotIds.2 ⟨x, ?_, pageId_mem_ids x.2⟩)
      exact List.mem_append_right _ (List.mem_singleton_self x)
    · exact (Function.update_of_ne neA _ _).trans (Function.update_of_ne neB _ _)
    rintro _ s₃ ⟨content, h₃, atA, atB, repA, repB, repX, same⟩
    refine (At.separate_rule (dropLast (d := d + 1) ⟨pageA, rest ++ [x]⟩)
      (pushFirst (d := d + 1) ⟨pageA, rest ++ [x]⟩ ⟨pageB, slotsB⟩) x.1 h₃ nb
      (fun _ _ => index) ⟨⟨pa', ?_, ?_⟩, fun z hz => ?_⟩ ⟨⟨pb', ?_, ?_⟩, fun z hz => ?_⟩
      rfl rfl (ids_dropLast_add_pushFirst _ _) fun q hq => ?_).post ?_
    · exact atA.trans (Function.update_self _ _ _)
    · simpa [dropLast, toSlot] using holdsA'
    · simp only [dropLast, List.dropLast_concat] at hz
      exact repA z hz
    · exact atB.trans ((Function.update_of_ne nb.pageId_ne.symm _ _).trans
        (Function.update_self _ _ _))
    · simpa [pushFirst, toSlot] using holdsB'
    · simp only [pushFirst, List.getLast?_concat, Option.toList_some, List.singleton_append] at hz
      obtain rfl | hz := List.mem_cons.1 hz
      · exact repX
      · exact repB z hz
    · refine same q (ne_pages hq).1 (ne_pages hq).2 fun hx => hq (inLeft ?_)
      refine Multiset.mem_cons_of_mem (mem_slotIds.2 ⟨x, ?_, hx⟩)
      exact List.mem_append_right _ (List.mem_singleton_self x)
    · rintro _ s₄ ⟨content, h₄, focus⟩
      exact ⟨content, x.1, by simp [firstKey, pushFirst], h₄, focus⟩

end BPlusTree

end ScuDb
