import ScuDb.Index.Insertion
import ScuDb.Index.Search

/-!
# The leaf of a key

A tree that nobody works on, as the pages hold it, and which leaf `FindLeafPage` reaches in it.
-/

namespace ScuDb

open Program Separators BTree Context

variable {K V : Type}

/-- The leaves of a tree, or of the empty one. -/
def leafChain : Option (Σ d, BTree K V d) → List (LeafNode K V)
  | none => []
  | some t => t.2.leaves

/-- The bindings of a tree, or of the empty one. -/
def contents (t : Option (Σ d, BTree K V d)) : List (K × V) := (leafChain t).flatMap LeafNode.entries

/-- Every leaf of a tree has its page. -/
theorem BTree.Rep.leaf {n : KeySize} {content : PageId → IndexPage K V} : {d : ℕ} → {q : PageId} →
    {t : BTree K V d} → {leaf : LeafNode K V} → t.Rep n content q → leaf ∈ t.leaves →
    leaf.id ∈ t.ids ∧ ∃ parent page, content leaf.id = .leaf page ∧ page.Holds n parent leaf
  | 0, q, t, leaf, h, mem => by
    obtain rfl := List.mem_singleton.1 mem
    exact ⟨pageId_mem_ids (d := 0) leaf, q, h⟩
  | d + 1, q, t, leaf, h, mem => by
    obtain ⟨x, hx, mem⟩ := List.mem_flatMap.1 mem
    obtain ⟨inside, rep⟩ := BTree.Rep.leaf (h.2 x hx) mem
    exact ⟨Multiset.mem_cons_of_mem (mem_slotIds.2 ⟨x, hx, inside⟩), rep⟩

theorem BTree.Fits.leaf {n : KeySize} : {d : ℕ} → {t : BTree K V d} → {leaf : LeafNode K V} →
    t.Fits n → leaf ∈ t.leaves → leaf.entries.length ≤ n.leafMax
  | 0, t, leaf, h, mem => by
    obtain rfl := List.mem_singleton.1 mem
    exact h
  | d + 1, t, leaf, h, mem => by
    obtain ⟨x, hx, mem⟩ := List.mem_flatMap.1 mem
    exact BTree.Fits.leaf (h.2 x hx) mem

theorem BTree.Sized.fits {n : KeySize} : {d : ℕ} → {t : BTree K V d} → t.Sized n → t.Fits n
  | 0, _, h => h.2
  | _ + 1, _, h => ⟨h.2.1, fun x hx => (h.2.2 x hx).fits⟩

theorem BTree.RootSized.fits {n : KeySize} : {d : ℕ} → {t : BTree K V d} → t.RootSized n → t.Fits n
  | 0, _, h => h.2
  | _ + 1, _, h => ⟨h.2.1, fun x hx => (h.2.2 x hx).fits⟩

theorem BTree.Ordered.leaf_ne_nil [LinearOrder K] : {d : ℕ} → {lo hi : Bound K} → {t : BTree K V d} →
    {leaf : LeafNode K V} → t.Ordered lo hi → leaf ∈ t.leaves → leaf.entries ≠ []
  | 0, _, _, t, leaf, h, mem => by
    obtain rfl := List.mem_singleton.1 mem
    exact h.1
  | d + 1, lo, hi, ⟨page, []⟩, leaf, h, mem => h.elim
  | d + 1, lo, hi, ⟨page, x :: rest⟩, leaf, h, mem => by
    obtain ⟨y, hy, mem⟩ := List.mem_flatMap.1 mem
    obtain ⟨a, b, order⟩ := h.2.exists_of_mem (z := y.2) <| by
      obtain rfl | hy := List.mem_cons.1 hy
      · exact .inl rfl
      · exact .inr ⟨y.1, hy⟩
    exact BTree.Ordered.leaf_ne_nil order mem

/-! ## The pages of a tree -/

/-- The pages of a tree below the page `parent`. -/
def BTree.pages [Inhabited K] [Inhabited V] (n : KeySize) :
    {d : ℕ} → PageId → BTree K V d → List (PageId × IndexPage K V)
  | 0, parent, t =>
    [(LeafNode.id t, .leaf {
      size := (LeafNode.entries t).length
      maxSize := n.leafMax
      parentPageId := parent
      pageId := LeafNode.id t
      nextPageId := LeafNode.next t
      array := fun i => (LeafNode.entries t).getD i default })]
  | _ + 1, parent, t =>
    (InnerNode.id t, .internal {
      size := (InnerNode.slots t).length
      maxSize := n.internalMax
      parentPageId := parent
      pageId := InnerNode.id t
      array := fun i => ((InnerNode.slots t).map toSlot).getD i default }) ::
    (InnerNode.slots t).flatMap fun x => BTree.pages n (InnerNode.id t) x.2

section Pages

open SlotArray

variable [Inhabited K] [Inhabited V] {n : KeySize} {content : PageId → IndexPage K V}

/-- Pages that are stored under their ids hold the tree. -/
theorem BTree.rep_of_pages : {d : ℕ} → {parent : PageId} → {t : BTree K V d} →
    (∀ x ∈ t.pages n parent, content x.1 = x.2) → t.Rep n content parent
  | 0, _, t, h =>
    ⟨_, h _ (List.mem_singleton_self _), ⟨rfl, rfl, rfl, rfl⟩, rfl, entries_getD _ _⟩
  | d + 1, parent, t, h => by
    refine ⟨⟨_, h _ List.mem_cons_self, ⟨rfl, rfl, ?_, rfl⟩, ?_⟩, fun x hx => ?_⟩
    · rw [List.length_map]
    · have all := entries_getD ((InnerNode.slots t).map toSlot) default
      rwa [List.length_map] at all
    · apply BTree.rep_of_pages
      exact fun y hy => h y (List.mem_cons_of_mem _ (List.mem_flatMap.2 ⟨x, hx, hy⟩))

theorem BTree.fst_pages : {d : ℕ} → {parent : PageId} → {t : BTree K V d} →
    (((t.pages n parent).map Prod.fst : List PageId) : Multiset PageId) = t.ids
  | 0, _, _ => rfl
  | d + 1, parent, ⟨page, slots⟩ => by
    rw [ids_inner, BTree.pages, List.map_cons, ← Multiset.cons_coe]
    congr 1
    induction slots with
    | nil => rfl
    | cons x slots ih =>
      rw [List.flatMap_cons, List.map_append, ← Multiset.coe_add, slotIds_cons, ih,
        BTree.fst_pages]

/-- Every page of the tree is found under its id. -/
theorem lookup_pages {d : ℕ} {parent : PageId} {t : BTree K V d} (nodup : t.ids.Nodup)
    {x : PageId × IndexPage K V} (mem : x ∈ t.pages n parent) :
    (t.pages n parent).lookup x.1 = some x.2 := by
  have keys : ((t.pages n parent).map Prod.fst).Nodup := by
    rwa [← Multiset.coe_nodup, BTree.fst_pages]
  obtain ⟨l, r, split⟩ := List.append_of_mem mem
  rw [split, List.map_append, List.map_cons] at keys
  refine List.lookup_eq_some_iff.2 ⟨l, r, split, fun y hy => ?_⟩
  have ne := (List.nodup_append.1 keys).2.2 y.1 (List.mem_map_of_mem hy) x.1 List.mem_cons_self
  simpa using ne.symm

end Pages

/-! ## Trees at rest -/

variable [LinearOrder K]

namespace BPlusTree

/-- The pages hold the tree, or the empty one. -/
def View.Stores (n : KeySize) (v : View K V) : Option (Σ d, BTree K V d) → Prop
  | none => v.root = invalidPageId
  | some t => v.root = t.2.pageId ∧ Focus n v top t.2 ∧ t.2.WellFormed n

/-- The pages hold a well-formed or empty tree, and nobody works on it. -/
structure Stored (tree : BPlusTree K) (v : View K V) (s : TreeState K V)
    (t : Option (Σ d, BTree K V d)) : Prop where
  state : At tree v s
  rest : v.AtRest
  stores : v.Stores tree.keySize t
  free : ∀ p, v.base p = {}

variable {tree : BPlusTree K} {v : View K V} {s : TreeState K V} {k : K}

section Stores

variable {n : KeySize} {t : Option (Σ d, BTree K V d)}

theorem View.Stores.congr {v' : View K V} (h : v.Stores n t) (root : v'.root = v.root)
    (content : v'.content = v.content) (next : v'.next = v.next) : v'.Stores n t := by
  cases t with
  | none => exact root.trans h
  | some t => exact ⟨root.trans h.1, h.2.1.congr content next, h.2.2⟩

/-- The page of a leaf. -/
theorem View.Stores.leaf {leaf : LeafNode K V} (h : v.Stores n t) (mem : leaf ∈ leafChain t) :
    0 < leaf.id ∧ ∃ parent page, v.content leaf.id = .leaf page ∧ page.Holds n parent leaf := by
  cases t with
  | none => cases mem
  | some t =>
    obtain ⟨inside, rep⟩ := h.2.1.sub.leaf mem
    exact ⟨(h.2.1.bound leaf.id (Multiset.mem_add.2 (.inr inside))).1, rep⟩

theorem View.Stores.leaf_fits {leaf : LeafNode K V} (h : v.Stores n t) (mem : leaf ∈ leafChain t) :
    0 < leaf.entries.length ∧ leaf.entries.length ≤ n.leafMax := by
  cases t with
  | none => cases mem
  | some t =>
    exact ⟨List.length_pos_of_ne_nil (h.2.2.ordered.leaf_ne_nil mem), h.2.2.sized.fits.leaf mem⟩

theorem View.Stores.chained (h : v.Stores n t) : Chained invalidPageId (leafChain t) := by
  cases t with
  | none => trivial
  | some t => exact h.2.2.chained

/-- The keys are in strictly ascending order. -/
theorem View.Stores.sorted (h : v.Stores n t) :
    ((contents t).map Prod.fst).Pairwise (· < ·) := by
  cases t with
  | none => exact List.Pairwise.nil
  | some t => exact h.2.2.ordered.bindings.1

omit [LinearOrder K] in
theorem View.AtRest.exclusive (rest : v.AtRest) (ex : Bool) :
    View.AtRest { v with exclusive := ex } :=
  ⟨rest.held, rest.opened, rest.rootHeld, rest.deleted⟩

omit [LinearOrder K] in
/-- At rest it makes no difference how the operation latches. -/
theorem At.exclusive (h : At tree v s) (rest : v.AtRest) (ex : Bool) :
    At tree { v with exclusive := ex } s := by
  refine { h with latch := fun p => ?_, changed := fun p hp => ?_, mutex := ?_ }
  · simpa [rest.held] using h.latch p
  · have := h.changed p hp
    simp [rest.held, rest.opened] at this
  · simpa [rest.rootHeld] using h.mutex

theorem Stored.exclusive (h : Stored tree v s t) (ex : Bool) :
    Stored tree { v with exclusive := ex } s t :=
  ⟨h.state.exclusive h.rest ex, h.rest.exclusive ex, h.stores.congr rfl rfl rfl, h.free⟩

end Stores

omit [LinearOrder K] in
theorem ReadAt.content {transaction : Bool} {cur : PageId} (h : ReadAt tree transaction v cur s) :
    ∀ p, p ≠ headerPageId → s.pool.content p = v.content p := by
  cases transaction with
  | false => exact (show At tree _ s from h).content
  | true => exact (show At tree _ s from h).content

/-! ## The fresh index -/

end BPlusTree

/-- A zeroed header page and no other page. -/
def TreeState.initial : TreeState K V where
  pool := {
    content := fun p => if p = headerPageId then .raw ByteMem.Mem.zero else default
    nextPageId := 1 }

/-- A zeroed header page, the pages of a tree, and unused pages from `next` on. -/
def TreeState.holding [Inhabited K] [Inhabited V] (n : KeySize) {d : ℕ} (t : BTree K V d) (next : ℤ) :
    TreeState K V where
  pool := {
    content := fun p => if p = headerPageId then .raw ByteMem.Mem.zero
      else ((t.pages n invalidPageId).lookup p).getD default
    nextPageId := next }
  rootPageId := t.pageId

namespace BPlusTree

def View.initial : View K V where
  exclusive := true
  content := fun _ => default
  root := invalidPageId
  recorded := none
  next := 1
  pins := 0
  base := fun _ => {}

variable {tree : BPlusTree K}

theorem stored_initial (short : tree.indexName.length < 32) :
    Stored (V := V) tree View.initial TreeState.initial none := by
  have count : HeaderPage.getRecordCount (ByteMem.Mem.zero : PageData) = 0 := by
    simp [HeaderPage.getRecordCount]
  have header : HeaderPage.Valid (ByteMem.Mem.zero : PageData) tree.indexName :=
    ⟨short, by simp [count], by simp [count], fun _ => by simp [count]⟩
  have absent : HeaderPage.findRecord (ByteMem.Mem.zero : PageData) tree.indexName = .ok none := by
    simp [HeaderPage.findRecord, count, HeaderPage.findRecordFrom]
  have recorded : HeaderPage.getRootId (ByteMem.Mem.zero : PageData) tree.indexName = .ok none := by
    simp [HeaderPage.getRootId, absent, assert_pos short, bind, Except.bind, pure, Except.pure]
  refine ⟨?_, ⟨rfl, rfl, rfl, rfl⟩, rfl, fun _ => rfl⟩
  exact {
    frames := rfl
    content := fun p hp => if_neg hp
    header := ⟨ByteMem.Mem.zero, rfl, header, recorded⟩
    pinned := rfl
    latch := fun p => rfl
    changed := fun _ h => absurd h Bool.false_ne_true
    next := rfl
    next_pos := Int.zero_lt_one
    next_le := show (1 : ℤ) ≤ 2147483647 by decide
    root := rfl
    mutex := rfl
    lockedCnt := rfl
    pageSet := rfl
    held_nodup := List.nodup_nil
    held_base := fun _ h => absurd h List.not_mem_nil
    deleted := rfl
    created := rfl
    guarded := ⟨fun _ h => absurd h List.not_mem_nil, fun _ h => absurd h List.not_mem_nil⟩
    deletions := rfl }

/-- The first insertion. -/
theorem Stored.insert_empty [Inhabited K] [Inhabited V] {v : View K V} {s : TreeState K V}
    (h : Stored tree v s none) (ex : v.exclusive = true) (key : K) (value : V) :
    Spec (tree.insert key value true) s (fun r s' => r = true ∧ ∃ v', v.Settled v' ∧
      Stored tree v' s' (some ⟨0, ⟨v.next, invalidPageId, [(key, value)]⟩⟩) ∧
      v'.root = v.next ∧ v'.recorded = v.recorded.or (some v.next))
      fun e s' => v.next = 2147483647 ∧ Exhausted e s' := by
  have w : v.Writing := ⟨ex, h.rest.opened, fun p _ => h.free p, by simp [h.rest.held]⟩
  refine (h.state.insert_empty w h.rest h.stores).post ?_
  rintro r s' ⟨rfl, v', state, settled, root, recorded, focus⟩
  refine ⟨rfl, v', settled, ⟨state, settled.rest, ⟨root, focus, ?_, ?_, rfl, trivial⟩, fun p => ?_⟩,
    root, recorded⟩
  · exact ⟨le_rfl, (show 1 ≤ 5 by decide).trans tree.keySize.five_le_leafMax⟩
  · exact ⟨List.cons_ne_nil _ _, List.pairwise_singleton _ _, by simp⟩
  · rw [settled.base, h.free]

/-- Every well-formed tree is stored in some state. -/
theorem stored_holding [Inhabited K] [Inhabited V] (short : tree.indexName.length < 32) {d : ℕ}
    {t : BTree K V d} {next : ℤ} (wf : t.WellFormed tree.keySize) (nodup : t.ids.Nodup)
    (bound : ∀ p ∈ t.ids, 0 < p ∧ p < next) (le : next ≤ 2147483647) :
    ∃ v, Stored tree v (.holding tree.keySize t next) (some ⟨d, t⟩) := by
  have start : Stored (V := V) tree View.initial TreeState.initial none := stored_initial short
  have pos : 0 < next := (bound _ (pageId_mem_ids t)).1.trans (bound _ (pageId_mem_ids t)).2
  let v : View K V := { (View.initial : View K V) with
    content := fun p => ((t.pages tree.keySize invalidPageId).lookup p).getD default
    root := t.pageId
    next := next }
  have state : At tree v (.holding tree.keySize t next) :=
    { start.state with
      content := fun p hp => if_neg hp
      next := rfl
      next_pos := pos
      next_le := le
      root := rfl }
  have rep : t.Rep tree.keySize v.content invalidPageId := by
    apply BTree.rep_of_pages
    intro x hx
    simp only [v, lookup_pages nodup hx, Option.getD_some]
  have focus : Focus tree.keySize v top t := by
    refine ⟨trivial, rep, ?_, ?_⟩
    · rwa [Context.ids, zero_add]
    · rwa [Context.ids, zero_add]
  exact ⟨v, state, ⟨rfl, rfl, rfl, rfl⟩, ⟨rfl, focus, wf⟩, fun _ => rfl⟩

/-! ## An index of integers -/

instance : Inhabited RID := ⟨{}⟩

/-- An index of integers without a name. -/
def ofInts : BPlusTree ℤ := ⟨.eight, fun a b => a - b, []⟩

theorem orders_ofInts : Orders ofInts.comparator :=
  ⟨fun a b => by simp [ofInts], fun a b => by simp [ofInts, sub_eq_zero]⟩

/-- An index of integers with the largest keys, whose leaves hold five of them. -/
def ofWideInts : BPlusTree ℤ := ⟨.sixtyFour, fun a b => a - b, []⟩

theorem orders_ofWideInts : Orders ofWideInts.comparator := orders_ofInts

/-- An entry of an index of integers. -/
def row (k : ℤ) : ℤ × RID := (k, ⟨k, 0⟩)

/-- A leaf with the fewest entries. -/
def firstLeaf : LeafNode ℤ RID := ⟨1, 2, [row 1, row 2]⟩

def middleLeaf : LeafNode ℤ RID := ⟨2, 3, [row 5, row 6, row 7]⟩

/-- A full leaf. -/
def lastLeaf : LeafNode ℤ RID := ⟨3, invalidPageId, [row 10, row 11, row 12, row 13, row 14]⟩

/-- A root above three leaves. -/
def threeLeaves : BTree ℤ RID 1 := ⟨4, [(0, firstLeaf), (5, middleLeaf), (10, lastLeaf)]⟩

/-- The state with these pages. -/
@[irreducible] def threeLeavesState : TreeState ℤ RID := .holding ofWideInts.keySize threeLeaves 5

theorem stored_threeLeaves : ∃ v, Stored ofWideInts v threeLeavesState (some ⟨1, threeLeaves⟩) := by
  unfold threeLeavesState
  apply stored_holding
  · decide
  · refine ⟨⟨by decide, by decide, ?_⟩, ?_, ?_⟩
    · simp only [threeLeaves, List.forall_mem_cons, Sized]
      decide
    · simp [threeLeaves, firstLeaf, middleLeaf, lastLeaf, BTree.Ordered, Between, row]
    · simp [threeLeaves, firstLeaf, middleLeaf, lastLeaf, Chained, leaves, firstId]
  · decide
  · simp [threeLeaves, firstLeaf, middleLeaf, lastLeaf, BTree.ids]
  · decide

/-- What lies around the middle leaf. -/
def aroundMiddle : Context ℤ RID 0 := frame 4 [(0, firstLeaf)] 5 [(10, lastLeaf)] top

theorem aroundMiddle_covers : aroundMiddle.Covers 6 := by
  simp [aroundMiddle, Context.Covers, Context.lo, Context.hi]

/-- What lies around the last leaf. -/
def aroundLast : Context ℤ RID 0 := frame 4 [(0, firstLeaf), (5, middleLeaf)] 10 [] top

theorem aroundLast_covers : aroundLast.Covers 15 := by
  simp [aroundLast, Context.Covers, Context.lo, Context.hi]

/-! ## FindLeafPage -/

section FindLeafPage

variable {v : View K V} {s : TreeState K V} {d : ℕ} {t : BTree K V d} {op : OperationType}
  {transaction : Bool} {leftMost : Bool} {k : K}

/-- `FindLeafPage` returns the leaf its choices lead to, and changes no page. -/
theorem Stored.findLeafPage {c : Context K V 0} {leaf : LeafNode K V}
    (h : Stored tree v s (some ⟨d, t⟩)) (writer : op ≠ .read → transaction = true)
    (loc : locate (tree.pick k leftMost) top t = some (c, leaf)) :
    ∃ s', tree.findLeafPage k leftMost op transaction s = (.ok (some leaf.id), s') ∧
      ∀ p, p ≠ headerPageId → s'.pool.content p = v.content p := by
  obtain ⟨root, focus, wf⟩ := h.stores
  have run : Spec (tree.findLeafPage k leftMost op transaction) s (fun r s' => r = some leaf.id ∧
      ∀ p, p ≠ headerPageId → s'.pool.content p = v.content p) fun _ _ => False := by
    by_cases hop : op = .read
    · subst hop
      have h' := h.exclusive false
      refine (h'.state.findLeafPage_read h'.rest root (focus.congr rfl rfl) wf.sized.wide loc
        (fun p _ => h'.free p) rfl).post ?_
      rintro r s' ⟨rfl, rootHeld, reading⟩
      exact ⟨rfl, reading.content⟩
    · obtain rfl := writer hop
      have h' := h.exclusive true
      refine (h'.state.findLeafPage_rule h'.rest root (focus.congr rfl rfl) wf.sized.wide loc
        (fun p _ => View.waits_of_free (h'.free p)) rfl hop).post ?_
      rintro r s' ⟨rfl, held, rootHeld, writing, -⟩
      exact ⟨rfl, writing.content⟩
  obtain ⟨r, s', ran, rfl, content⟩ := run.returns
  exact ⟨s', ran, content⟩

/-- `FindLeafPage` ends at the one leaf between whose separators the key lies, where `Lookup` finds
what the tree binds the key to.  The leftmost way ends at the head of the leaf chain. -/
theorem findLeafPage_reaches (orders : Orders tree.comparator)
    (h : Stored tree v s (some ⟨d, t⟩)) (writer : op ≠ .read → transaction = true) (k : K) :
    (∃ (c : Context K V 0) (leaf : LeafNode K V) (page : LeafPage K V) (s' : TreeState K V),
      tree.findLeafPage k false op transaction s = (.ok (some leaf.id), s') ∧
      (∀ (c' : Context K V 0) (leaf' : LeafNode K V),
        c'.plug leaf' = ⟨d, t⟩ ∧ c'.Covers k ↔ c' = c ∧ leaf' = leaf) ∧
      s'.pool.content leaf.id = .leaf page ∧
      ∀ value, page.lookup tree.comparator k = some value ↔ (k, value) ∈ t.bindings) ∧
    ∃ leaf rest s', tree.findLeafPage k true op transaction s = (.ok (some leaf.id), s') ∧
      t.leaves = leaf :: rest := by
  obtain ⟨-, focus, wf⟩ := h.stores
  have whole : (top : Context K V d).Covers k := ⟨bot_le, key_lt_top⟩
  constructor
  · obtain ⟨c, leaf, loc, covers⟩ := exists_locate_covers orders (c := top) wf.ordered whole
    have plug := plug_of_locate loc
    have mem : leaf ∈ leafChain (some ⟨d, t⟩) := by simp [leafChain, c.leaves_eq plug]
    obtain ⟨pos, _, page, hc, holds⟩ := h.stores.leaf mem
    obtain ⟨s', run, content⟩ := h.findLeafPage writer loc
    refine ⟨c, leaf, page, s', run, fun c' leaf' => ⟨?_, ?_⟩, ?_, fun value => ?_⟩
    · rintro ⟨plug', covers'⟩
      exact covers.unique orders wf.ordered plug plug' covers'
    · rintro ⟨rfl, rfl⟩
      exact ⟨plug, covers⟩
    · rw [content _ pos.ne', hc]
    · have sorted := (c.ordered_leaf wf.ordered plug).2.2.1
      rw [holds.lookup, LeafNode.find_eq_some_iff orders sorted, covers.mem_bindings wf.ordered plug]
  · obtain ⟨⟨c, leaf⟩, loc⟩ := exists_locate (tree.pick_lt k true) top wf.sized.wide
    obtain ⟨s', run, -⟩ := h.findLeafPage writer loc
    have before := before_of_locate (fun _ => rfl) loc
    refine ⟨leaf, c.after, s', run, ?_⟩
    have leaves := c.leaves_eq (plug_of_locate loc)
    rwa [before] at leaves

end FindLeafPage

/-- The way to the middle leaf, and the leftmost way. -/
theorem findLeafPage_reaches_threeLeaves : ∃ (s' s'' : TreeState ℤ RID) (page : LeafPage ℤ RID),
    ofWideInts.findLeafPage 6 false .read false threeLeavesState = (.ok (some 2), s') ∧
      s'.pool.content 2 = .leaf page ∧ page.lookup ofWideInts.comparator 6 = some ⟨6, 0⟩ ∧
      ofWideInts.findLeafPage 6 true .read false threeLeavesState = (.ok (some 1), s'') := by
  obtain ⟨v, stored⟩ := stored_threeLeaves
  obtain ⟨⟨c, leaf, page, s', run, unique, hc, lookup⟩, first, rest, s'', run', leaves⟩ :=
    findLeafPage_reaches orders_ofWideInts stored (fun ne => absurd rfl ne) 6
  obtain ⟨-, rfl⟩ := (unique aroundMiddle middleLeaf).1 ⟨rfl, aroundMiddle_covers⟩
  obtain ⟨rfl, -⟩ := List.cons.inj leaves
  refine ⟨s', s'', page, run, hc, (lookup _).2 ?_, run'⟩
  simp [threeLeaves, middleLeaf, BTree.bindings, BTree.leaves, row]

end BPlusTree

end ScuDb
