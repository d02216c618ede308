import ScuDb.Page.BPlusTreePage

/-!
# The shape of a tree

A tree of depth `d` with its page ids, and what it means for the pages of a pool to hold it.  A
context is a tree with a hole; it says what lies around the subtree an operation works on.  Every
statement here is about pages and ids; the order of the keys plays no part.
-/

namespace ScuDb

open SlotArray

/-- A leaf: its page, the next page and its entries. -/
structure LeafNode (K V : Type) where
  id : PageId
  next : PageId
  entries : List (K × V)

/-- An internal node over subtrees of type `T`. -/
structure InnerNode (K T : Type) where
  id : PageId
  slots : List (K × T)

/-- Trees whose leaves are all at depth `d`. -/
@[reducible] def BTree (K V : Type) : ℕ → Type
  | 0 => LeafNode K V
  | d + 1 => InnerNode K (BTree K V d)

namespace BTree

variable {K V : Type}

/-- The page of the root. -/
def pageId : {d : ℕ} → BTree K V d → PageId
  | 0, t => LeafNode.id t
  | _ + 1, t => InnerNode.id t

/-- The number of entries of the root page. -/
def size : {d : ℕ} → BTree K V d → ℕ
  | 0, t => (LeafNode.entries t).length
  | _ + 1, t => (InnerNode.slots t).length

/-- The pages of a tree. -/
def ids : {d : ℕ} → BTree K V d → Multiset PageId
  | 0, t => {LeafNode.id t}
  | _ + 1, t => InnerNode.id t ::ₘ ((InnerNode.slots t).map fun x => ids x.2).sum

/-- The pages of the subtrees in a list of slots. -/
def slotIds {d : ℕ} (slots : List (K × BTree K V d)) : Multiset PageId :=
  (slots.map fun x => ids x.2).sum

/-- A slot as the page stores it. -/
def toSlot {d : ℕ} (x : K × BTree K V d) : K × PageId := (x.1, x.2.pageId)

variable {d : ℕ} {slots slots' : List (K × BTree K V d)} {x : K × BTree K V d} {p : PageId}

@[simp] theorem slotIds_nil : slotIds ([] : List (K × BTree K V d)) = 0 := rfl

@[simp] theorem slotIds_cons : slotIds (x :: slots) = ids x.2 + slotIds slots := rfl

@[simp] theorem slotIds_append : slotIds (slots ++ slots') = slotIds slots + slotIds slots' := by
  simp [slotIds]

theorem mem_slotIds : p ∈ slotIds slots ↔ ∃ x ∈ slots, p ∈ ids x.2 := by
  induction slots with
  | nil => simp
  | cons x slots ih => simp [ih]

theorem slotIds_take_add_drop (slots : List (K × BTree K V d)) (m : ℕ) :
    slotIds (slots.take m) + slotIds (slots.drop m) = slotIds slots := by
  rw [← slotIds_append, List.take_append_drop]

theorem ids_inner (t : InnerNode K (BTree K V d)) :
    ids (d := d + 1) t = t.id ::ₘ slotIds t.slots := rfl

theorem pageId_mem_ids : {d : ℕ} → (t : BTree K V d) → t.pageId ∈ ids t
  | 0, _ => Multiset.mem_singleton_self _
  | _ + 1, _ => Multiset.mem_cons_self _ _

theorem slotIds_le_of_mem (h : x ∈ slots) : ids x.2 ≤ slotIds slots := by
  induction slots with
  | nil => cases h
  | cons y slots ih =>
    rw [slotIds_cons]
    obtain rfl | h := List.mem_cons.1 h
    · exact Multiset.le_add_right _ _
    · exact (ih h).trans (Multiset.le_add_left _ _)

end BTree

/-! ## Pages -/

variable {K V : Type}

/-- The fields of a page with `size` entries at `id`. -/
structure BPlusTreePage.Is (p : BPlusTreePage) (id parent : PageId) (size maxSize : ℕ) : Prop where
  pageId : p.pageId = id
  parentPageId : p.parentPageId = parent
  size : p.size = size
  maxSize : p.maxSize = maxSize

/-- A leaf page that holds `t`. -/
structure LeafPage.Holds (n : KeySize) (p : LeafPage K V) (parent : PageId) (t : LeafNode K V) :
    Prop where
  fields : p.toBPlusTreePage.Is t.id parent t.entries.length n.leafMax
  nextPageId : p.nextPageId = t.next
  items : entries p.array p.size = t.entries

/-- An internal page with the given slots. -/
structure InternalPage.Holds (n : KeySize) (p : InternalPage K) (id parent : PageId)
    (slots : List (K × PageId)) : Prop where
  fields : p.toBPlusTreePage.Is id parent slots.length n.internalMax
  items : entries p.array p.size = slots

namespace BTree

/-- The pages hold the tree, below the page `parent`. -/
def Rep (n : KeySize) (content : PageId → IndexPage K V) : {d : ℕ} → PageId → BTree K V d → Prop
  | 0, parent, t => ∃ p, content (LeafNode.id t) = .leaf p ∧ p.Holds n parent t
  | _ + 1, parent, t =>
    (∃ p, content (InnerNode.id t) = .internal p ∧
      p.Holds n (InnerNode.id t) parent ((InnerNode.slots t).map toSlot)) ∧
    ∀ x ∈ InnerNode.slots t, Rep n content (InnerNode.id t) x.2

/-- The most entries a page of a tree of depth `d` has between two operations. -/
def maxSize (n : KeySize) : ℕ → ℕ
  | 0 => n.leafMax
  | _ + 1 => n.internalMax

variable {n : KeySize} {content content' : PageId → IndexPage K V} {parent q : PageId} {d : ℕ}

/-- What the pages hold depends on the pages of the tree only. -/
theorem Rep.congr : {d : ℕ} → {parent : PageId} → {t : BTree K V d} → Rep n content parent t →
    (∀ p ∈ ids t, content' p = content p) → Rep n content' parent t
  | 0, _, t, h, same => by
    obtain ⟨p, hp, holds⟩ := h
    exact ⟨p, (same _ (pageId_mem_ids (d := 0) t)).trans hp, holds⟩
  | _ + 1, _, t, h, same => by
    obtain ⟨⟨p, hp, holds⟩, below⟩ := h
    refine ⟨⟨p, (same _ (Multiset.mem_cons_self _ _)).trans hp, holds⟩, fun x hx => ?_⟩
    refine (below x hx).congr fun r hr => same r (Multiset.mem_cons_of_mem ?_)
    exact mem_slotIds.2 ⟨x, hx, hr⟩

/-- The root page of a tree, whichever type it has. -/
theorem Rep.root : {d : ℕ} → {parent : PageId} → {t : BTree K V d} → Rep n content parent t →
    ∃ header, (content t.pageId).asTreePage = .ok header ∧
      header.Is t.pageId parent t.size (maxSize n d) ∧
      (content t.pageId).isLeafPage = decide (d = 0)
  | 0, _, t, h => by
    obtain ⟨p, hp, holds⟩ := h
    refine ⟨p.toBPlusTreePage, ?_, holds.fields, ?_⟩
    · simp [pageId, hp, IndexPage.asTreePage]
    · simp [pageId, hp, IndexPage.isLeafPage]
  | _ + 1, _, t, h => by
    obtain ⟨⟨p, hp, holds⟩, -⟩ := h
    refine ⟨p.toBPlusTreePage, ?_, ?_, ?_⟩
    · simp [pageId, hp, IndexPage.asTreePage]
    · have := holds.fields
      rwa [List.length_map] at this
    · simp [pageId, hp, IndexPage.isLeafPage]

/-- The root page gets another parent. -/
theorem Rep.withParent : {d : ℕ} → {parent : PageId} → {t : BTree K V d} → Rep n content parent t →
    (ids t).Nodup → (q : PageId) →
    Rep n (Function.update content t.pageId ((content t.pageId).withParent q)) q t
  | 0, _, t, h, _, q => by
    obtain ⟨p, hp, holds⟩ := h
    refine ⟨{ p with parentPageId := q }, ?_, ?_⟩
    · simp [pageId, hp, IndexPage.withParent]
    · exact ⟨⟨holds.fields.pageId, rfl, holds.fields.size, holds.fields.maxSize⟩,
        holds.nextPageId, holds.items⟩
  | _ + 1, _, t, h, nodup, q => by
    obtain ⟨⟨p, hp, holds⟩, below⟩ := h
    refine ⟨⟨{ p with parentPageId := q }, ?_, ?_⟩, fun x hx => ?_⟩
    · simp [pageId, hp, IndexPage.withParent]
    · exact ⟨⟨holds.fields.pageId, rfl, holds.fields.size, holds.fields.maxSize⟩, holds.items⟩
    · refine (below x hx).congr fun r hr => Function.update_of_ne ?_ _ _
      rintro rfl
      exact (Multiset.nodup_cons.1 nodup).1 (mem_slotIds.2 ⟨x, hx, hr⟩)

end BTree

/-! ## Contexts -/

/-- A tree with a hole for a subtree of depth `d`: the path from the hole to the root, with the
slots to the left and to the right of it. -/
inductive Context (K V : Type) : ℕ → Type
  | top {d : ℕ} : Context K V d
  | frame {d : ℕ} (id : PageId) (left : List (K × BTree K V d)) (key : K)
      (right : List (K × BTree K V d)) (above : Context K V (d + 1)) : Context K V d

namespace Context

open BTree

/-- The tree with `t` in the hole. -/
def plug : {d : ℕ} → Context K V d → BTree K V d → Σ h, BTree K V h
  | d, top, t => ⟨d, t⟩
  | _, frame page left key right above, t => above.plug ⟨page, left ++ (key, t) :: right⟩

/-- The parent of the subtree in the hole. -/
def parentId : {d : ℕ} → Context K V d → PageId
  | _, top => invalidPageId
  | _, frame page _ _ _ _ => page

/-- The number of pages above the hole. -/
def height : {d : ℕ} → Context K V d → ℕ
  | _, top => 0
  | _, frame _ _ _ _ above => above.height + 1

def ids : {d : ℕ} → Context K V d → Multiset PageId
  | _, top => 0
  | _, frame page left _ right above => page ::ₘ (slotIds left + slotIds right + above.ids)

/-- The pages hold the context around the page `hole`. -/
def Rep (n : KeySize) (content : PageId → IndexPage K V) :
    {d : ℕ} → Context K V d → PageId → Prop
  | _, top, _ => True
  | _, frame page left key right above, hole =>
    (∃ p, content page = .internal p ∧ p.Holds n page above.parentId
      (left.map toSlot ++ (key, hole) :: right.map toSlot)) ∧
    (∀ x ∈ left ++ right, BTree.Rep n content page x.2) ∧ above.Rep n content page

variable {n : KeySize} {content content' : PageId → IndexPage K V} {d : ℕ}

theorem ids_plug : {d : ℕ} → (c : Context K V d) → (t : BTree K V d) →
    BTree.ids (c.plug t).2 = c.ids + BTree.ids t
  | _, top, t => (zero_add _).symm
  | _, frame page left key right above, t => by
    rw [plug, ids_plug above, ids_inner, ids]
    simp only [slotIds_append, slotIds_cons, ← Multiset.singleton_add]
    abel

/-- The pages hold a tree if they hold the context and the subtree in its hole. -/
theorem rep_plug : {d : ℕ} → (c : Context K V d) → (t : BTree K V d) →
    BTree.Rep n content invalidPageId (c.plug t).2 ↔
      c.Rep n content t.pageId ∧ BTree.Rep n content c.parentId t
  | _, top, t => by simp [plug, Rep, parentId]
  | _, frame page left key right above, t => by
    rw [plug, rep_plug above]
    simp only [Rep, parentId, BTree.Rep, BTree.pageId, List.map_append, List.map_cons, List.mem_append,
      List.mem_cons]
    constructor
    · rintro ⟨habove, hpage, below⟩
      exact ⟨⟨hpage, fun x hx => below x (hx.imp_right .inr), habove⟩, below _ (.inr (.inl rfl))⟩
    · rintro ⟨⟨hpage, sides, habove⟩, ht⟩
      refine ⟨habove, hpage, ?_⟩
      rintro x (hx | rfl | hx)
      · exact sides x (.inl hx)
      · exact ht
      · exact sides x (.inr hx)

theorem Rep.congr : {d : ℕ} → {c : Context K V d} → {hole : PageId} → c.Rep n content hole →
    (∀ p ∈ c.ids, content' p = content p) → c.Rep n content' hole
  | _, top, _, _, _ => trivial
  | _, frame page left key right above, hole, h, same => by
    obtain ⟨⟨p, hp, holds⟩, sides, habove⟩ := h
    refine ⟨⟨p, (same page (Multiset.mem_cons_self _ _)).trans hp, holds⟩, fun x hx => ?_, ?_⟩
    · refine (sides x hx).congr fun r hr => same r (Multiset.mem_cons_of_mem ?_)
      have : r ∈ slotIds (left ++ right) := mem_slotIds.2 ⟨x, hx, hr⟩
      rw [slotIds_append] at this
      exact Multiset.mem_add.2 (.inl this)
    · exact habove.congr fun r hr =>
        same r (Multiset.mem_cons_of_mem (Multiset.mem_add.2 (.inr hr)))

end Context

end ScuDb
