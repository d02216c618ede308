import ScuDb.Index.LeafSearch

/-!
# The index iterator

`IndexIterator`, `Begin()` and `Begin(key)`.  An iterator holds the page of one leaf pinned and
read-latched, and goes along the leaf chain; what it has still to deliver is the rest of its leaf
and the leaves behind it.
-/

namespace ScuDb

open Program BTree Context

variable {K V : Type}

/-- `IndexIterator`: the page of the leaf, or `none` for `nullptr`, and the index in it. -/
structure IndexIterator where
  leafPage : Option PageId
  index : ℕ
deriving DecidableEq

namespace IndexIterator

open BPlusTree

def isEnd (it : IndexIterator) : Bool := it.leafPage.isNone

/-- `UnlockAndUnPin`. -/
def unlockAndUnPin (leaf : PageId) : TreeM K V Unit := do
  let page ← getLeaf leaf
  fetchPage page.pageId
  unlock false page.pageId
  unpinPage page.pageId false
  unpinPage page.pageId false

/-- The destructor. -/
def destroy (it : IndexIterator) : TreeM K V Unit :=
  match it.leafPage with
  | none => return
  | some leaf => unlockAndUnPin leaf

/-- `operator*`. -/
def item (n : KeySize) (it : IndexIterator) : TreeM K V (K × V) := do
  let some leaf := it.leafPage | throw .nullDeref
  (← getLeaf leaf).getItem n it.index

/-- `operator++`. -/
def next (it : IndexIterator) : TreeM K V IndexIterator := do
  let some leaf := it.leafPage | throw .nullDeref
  let index := it.index + 1
  let page ← getLeaf leaf
  if index ≥ page.size then
    let next := page.nextPageId
    unlockAndUnPin leaf
    if next = invalidPageId then return { leafPage := none, index := index }
    fetchPage next
    lock false next
    return { leafPage := some next, index := 0 }
  return { it with index := index }

/-- `operator++` in two parts: it stays an iterator, or it has released its leaf and is about to latch
the page `next`. -/
inductive Cursor
  | on (it : IndexIterator)
  | between (next : PageId)
deriving DecidableEq

/-- `operator++` up to the release of the leaf. -/
def leave (it : IndexIterator) : TreeM K V Cursor := do
  let some leaf := it.leafPage | throw .nullDeref
  let index := it.index + 1
  let page ← getLeaf leaf
  if index ≥ page.size then
    let next := page.nextPageId
    unlockAndUnPin leaf
    if next = invalidPageId then return .on { leafPage := none, index := index }
    return .between next
  return .on { it with index := index }

/-- `operator++` from the fetch of the next page on. -/
def enter (next : PageId) : TreeM K V IndexIterator := do
  fetchPage next
  lock false next
  return { leafPage := some next, index := 0 }

/-- The second part of `operator++`. -/
def Cursor.resume : Cursor → TreeM K V IndexIterator
  | .on it => return it
  | .between next => enter next

theorem next_eq (it : IndexIterator) :
    (it.next : TreeM K V IndexIterator) = it.leave >>= Cursor.resume := by
  unfold next leave
  cases it.leafPage with
  | none => rfl
  | some leaf =>
    simp only [bind_assoc]
    congr 1
    funext page
    split_ifs
    · rw [bind_assoc]
      rfl
    · rw [bind_assoc]
      rfl
    · rw [pure_bind]
      rfl

/-- `++`, a number of times. -/
def advance : ℕ → IndexIterator → TreeM K V IndexIterator
  | 0, it => return it
  | n + 1, it => do advance n (← it.next)

end IndexIterator

namespace BPlusTree

variable (tree : BPlusTree K)

/-- `Begin()`. -/
def begin [Inhabited K] : TreeM K V IndexIterator := do
  let startLeaf ← tree.findLeafPage default true .read false
  tryUnlockRootPageId false
  return { leafPage := startLeaf, index := 0 }

/-- `Begin(key)`. -/
def beginAt (key : K) : TreeM K V IndexIterator := do
  let startLeaf ← tree.findLeafPage key false .read false
  tryUnlockRootPageId false
  match startLeaf with
  | none => return { leafPage := none, index := 0 }
  | some leaf => return { leafPage := some leaf, index := (← getLeaf leaf).keyIndex tree.comparator key }

end BPlusTree

/-! ## Leaves -/

theorem LeafPage.Holds.getItem {n : KeySize} {page : LeafPage K V} {parent : PageId}
    {leaf : LeafNode K V} (h : page.Holds n parent leaf) (fits : leaf.entries.length ≤ n.leafMax)
    {i : ℕ} (hi : i < leaf.entries.length) : page.getItem n i = .ok leaf.entries[i] := by
  have := n.leafMax_add_one
  unfold LeafPage.getItem
  rw [if_pos (by omega), h.array hi]

/-! ## Steps -/

namespace IndexIterator

open BPlusTree

variable [LinearOrder K] {tree : BPlusTree K} {v : View K V} {s : TreeState K V}
  {t : Option (Σ d, BTree K V d)} {leaf : LeafNode K V} {l r : List (LeafNode K V)}
  {it : IndexIterator} {i : ℕ} {E : Fault → TreeState K V → Prop}

/-- Apart from an iterator on the page of `leaf`, nobody works on the tree. -/
structure On (tree : BPlusTree K) (v : View K V) (s : TreeState K V)
    (t : Option (Σ d, BTree K V d)) (l : List (LeafNode K V)) (leaf : LeafNode K V)
    (r : List (LeafNode K V)) : Prop where
  leaves : leafChain t = l ++ leaf :: r
  stores : v.Stores tree.keySize t
  rest : v.AtRest
  free : ∀ p, v.base p = {}
  reads : At tree { v with
    exclusive := false
    pins := leaf.id ::ₘ v.pins
    base := Function.update v.base leaf.id (.taken false) } s

theorem On.mem (h : On tree v s t l leaf r) : leaf ∈ leafChain t := by
  simp [h.leaves]

theorem On.content (h : On tree v s t l leaf r) : ∃ parent page,
    s.pool.content leaf.id = .leaf page ∧ page.Holds tree.keySize parent leaf := by
  obtain ⟨pos, parent, page, hc, holds⟩ := h.stores.leaf h.mem
  exact ⟨parent, page, (h.reads.content _ pos.ne').trans hc, holds⟩

theorem On.page (h : On tree v s t l leaf r) : ∃ parent page,
    getLeaf leaf.id s = (.ok page, s) ∧ page.Holds tree.keySize parent leaf := by
  obtain ⟨pos, parent, page, hc, holds⟩ := h.stores.leaf h.mem
  exact ⟨parent, page, h.reads.getLeaf_eq pos.ne' hc, holds⟩

/-- `UnlockAndUnPin` gives back the pin and the latch. -/
theorem On.unlockAndUnPin (h : On tree v s t l leaf r) :
    Spec (unlockAndUnPin leaf.id) s (fun _ s' => Stored tree v s' t) E := by
  obtain ⟨parent, page, run, holds⟩ := h.page
  have out : leaf.id ∉ v.held := by simp [h.rest.held]
  have clean : leaf.id ∉ v.opened := by simp [h.rest.opened]
  refine Spec.bind_eq run ?_
  rw [holds.fields.pageId]
  refine Spec.bind (h.reads.fetchPage_rule leaf.id .nullDeref) fun _ s₁ h₁ => ?_
  refine Spec.bind (P := fun _ => At tree { v with
    exclusive := false
    pins := leaf.id ::ₘ leaf.id ::ₘ v.pins }) (h₁.unlock_rule out (h.free _) rfl) fun _ s₂ h₂ => ?_
  refine Spec.bind (h₂.unpinClean_rule rfl (.inr clean)) fun _ s₃ h₃ => ?_
  refine (h₃.unpinClean_rule rfl (.inr clean)).post fun _ s₄ h₄ => ?_
  have stored : Stored tree { v with exclusive := false } s₄ t :=
    ⟨h₄, ⟨h.rest.held, h.rest.opened, h.rest.rootHeld, h.rest.deleted⟩,
      h.stores.congr rfl rfl rfl, h.free⟩
  exact stored.exclusive v.exclusive

/-- What an iterator has still to deliver. -/
inductive Remaining (tree : BPlusTree K) (v : View K V) (t : Option (Σ d, BTree K V d)) :
    IndexIterator → TreeState K V → List (K × V) → Prop
  | atEnd {i : ℕ} {s : TreeState K V} (stored : Stored tree v s t) :
      Remaining tree v t ⟨none, i⟩ s []
  | on {l r : List (LeafNode K V)} {leaf : LeafNode K V} {i : ℕ} {s : TreeState K V}
      (on : On tree v s t l leaf r) (inside : i < leaf.entries.length) :
      Remaining tree v t ⟨some leaf.id, i⟩ s
        (leaf.entries.drop i ++ r.flatMap LeafNode.entries)

theorem Remaining.isEnd {rest : List (K × V)} (h : Remaining tree v t it s rest) :
    it.isEnd = rest.isEmpty := by
  cases h with
  | atEnd => rfl
  | on _ inside =>
    rw [List.drop_eq_getElem_cons inside]
    rfl

/-- From the page `p` on, which is not the first one, the chain has these entries. -/
def Resumes (chain : List (LeafNode K V)) (p : PageId) (rest : List (K × V)) : Prop :=
  ∃ l leaf r, chain = l ++ leaf :: r ∧ l ≠ [] ∧ leaf.id = p ∧
    rest = (leaf :: r).flatMap LeafNode.entries

/-- What a cursor has still to deliver; between two leaves nobody works on the tree. -/
inductive Ready (tree : BPlusTree K) (v : View K V) (t : Option (Σ d, BTree K V d)) :
    Cursor → TreeState K V → List (K × V) → Prop
  | on {it : IndexIterator} {s : TreeState K V} {rest : List (K × V)}
      (remaining : Remaining tree v t it s rest) : Ready tree v t (.on it) s rest
  | between {p : PageId} {s : TreeState K V} {rest : List (K × V)} (stored : Stored tree v s t)
      (resumes : Resumes (leafChain t) p rest) : Ready tree v t (.between p) s rest

/-! ## `operator++` -/

/-- Inside a leaf. -/
theorem On.leave_inside (h : On tree v s t l leaf r) (inside : i + 1 < leaf.entries.length) :
    Spec (leave ⟨some leaf.id, i⟩) s
      (fun cursor s' => cursor = .on ⟨some leaf.id, i + 1⟩ ∧ s' = s) E := by
  obtain ⟨parent, page, run, holds⟩ := h.page
  have size : ¬ i + 1 ≥ page.size := by
    rw [holds.size]
    omega
  refine Spec.bind_eq run ?_
  rw [if_neg size]
  exact spec_pure ⟨rfl, rfl⟩

/-- Behind the last entry of a leaf. -/
theorem On.leave_leaf (h : On tree v s t l leaf r) (behind : leaf.entries.length ≤ i + 1) :
    Spec (leave ⟨some leaf.id, i⟩) s
      (fun cursor s' => Ready tree v t cursor s' (r.flatMap LeafNode.entries)) E := by
  obtain ⟨parent, page, run, holds⟩ := h.page
  have chained := h.stores.chained
  rw [h.leaves, chained_append] at chained
  have next : leaf.next = firstId invalidPageId r := chained.2.1
  refine Spec.bind_eq run ?_
  rw [if_pos (show i + 1 ≥ page.size by rw [holds.size]; exact behind)]
  refine Spec.bind h.unlockAndUnPin fun _ s₁ h₁ => ?_
  rw [holds.nextPageId, next]
  cases r with
  | nil =>
    rw [if_pos (show firstId invalidPageId ([] : List (LeafNode K V)) = invalidPageId from rfl)]
    exact spec_pure (.on (.atEnd h₁))
  | cons leaf' r =>
    have mem : leaf' ∈ leafChain t := by simp [h.leaves]
    have pos := (h.stores.leaf mem).1
    rw [if_neg (ne_invalid (show 0 < firstId invalidPageId (leaf' :: r) from pos))]
    exact spec_pure (.between h₁ ⟨l ++ [leaf], leaf', r, by simp [h.leaves], by simp, rfl, rfl⟩)

/-- A leaf of the chain is latched. -/
theorem enter_rule {p : PageId} {rest : List (K × V)} (h : Stored tree v s t)
    (resumes : Resumes (leafChain t) p rest) :
    Spec (enter p) s (fun it s' => Remaining tree v t it s' rest) E := by
  obtain ⟨l, leaf, r, leaves, -, rfl, rfl⟩ := resumes
  have mem : leaf ∈ leafChain t := by simp [leaves]
  have h' := h.exclusive false
  refine h'.state.fetchLock_rule false rfl (by simp [h.rest.held]) (h.free _) fun s₁ h₁ => ?_
  have on : On tree v s₁ t l leaf r := ⟨leaves, h.stores, h.rest, h.free, h₁⟩
  exact spec_pure (.on on (h.stores.leaf_fits mem).1)

theorem Ready.resume {cursor : Cursor} {rest : List (K × V)} (h : Ready tree v t cursor s rest) :
    Spec cursor.resume s (fun it s' => Remaining tree v t it s' rest) E := by
  cases h with
  | on remaining => exact spec_pure remaining
  | between stored resumes => exact enter_rule stored resumes

/-- `operator*` and the first part of `operator++` of an iterator that is not at the end. -/
theorem Remaining.leave {entry : K × V} {rest : List (K × V)}
    (h : Remaining tree v t it s (entry :: rest)) :
    it.item tree.keySize s = (.ok entry, s) ∧
      Spec it.leave s (fun cursor s' => Ready tree v t cursor s' rest) E := by
  generalize hall : entry :: rest = all at h
  cases h with
  | atEnd => cases hall
  | @on l r leaf i _ on inside =>
    rw [List.drop_eq_getElem_cons inside, List.cons_append] at hall
    obtain ⟨rfl, rfl⟩ := List.cons.inj hall
    constructor
    · obtain ⟨parent, page, run, holds⟩ := on.page
      have got := holds.getItem (on.stores.leaf_fits on.mem).2 inside
      have ran : Spec (item tree.keySize ⟨some leaf.id, i⟩) s
          (fun e s' => e = leaf.entries[i] ∧ s' = s) fun _ _ => False :=
        Spec.bind_eq run (spec_lift got ⟨rfl, rfl⟩)
      obtain ⟨e, s', ran, rfl, rfl⟩ := ran.returns
      exact ran
    · by_cases more : i + 1 < leaf.entries.length
      · refine (on.leave_inside more).post ?_
        rintro _ _ ⟨rfl, rfl⟩
        exact .on (.on on more)
      · refine (on.leave_leaf (not_lt.1 more)).post fun it' s' h' => ?_
        rwa [List.drop_eq_nil_of_le (not_lt.1 more), List.nil_append]

/-- `operator*` and `operator++` of an iterator that is not at the end. -/
theorem Remaining.step {entry : K × V} {rest : List (K × V)}
    (h : Remaining tree v t it s (entry :: rest)) :
    it.item tree.keySize s = (.ok entry, s) ∧
      Spec it.next s (fun it' s' => Remaining tree v t it' s' rest) E := by
  refine ⟨(h.leave (E := E)).1, ?_⟩
  rw [next_eq]
  exact Spec.bind h.leave.2 fun cursor s' ready => ready.resume

/-- The first `n` entries are delivered one after the other. -/
theorem Remaining.advance (n : ℕ) : ∀ {it : IndexIterator} {s : TreeState K V} {rest : List (K × V)},
    Remaining tree v t it s rest → n ≤ rest.length →
    Spec (advance n it) s (fun it' s' => Remaining tree v t it' s' (rest.drop n)) E := by
  induction n with
  | zero => exact fun h _ => spec_pure h
  | succ n ih =>
    intro it s rest h le
    cases rest with
    | nil => simp at le
    | cons entry rest => exact Spec.bind h.step.2 fun it' s' h' => ih h' (by simpa using le)

/-- The destructor gives back what the iterator holds, wherever it stands. -/
theorem Remaining.destroy {rest : List (K × V)} (h : Remaining tree v t it s rest) :
    Spec it.destroy s (fun _ s' => Stored tree v s' t) E := by
  cases h with
  | atEnd stored => exact spec_pure stored
  | on on _ => exact on.unlockAndUnPin

/-! ## Starting -/

/-- `FindLeafPage` and the release of the root latch. -/
theorem start_rule {d : ℕ} {t : BTree K V d} {k : K} {leftMost : Bool} {c : Context K V 0}
    (h : Stored tree v s (some ⟨d, t⟩))
    (loc : locate (tree.pick k leftMost) top t = some (c, leaf)) {α : Type}
    {f : Option PageId → TreeM K V α} {R : α → TreeState K V → Prop}
    (rest : ∀ s', On tree v s' (some ⟨d, t⟩) c.before leaf c.after →
      Spec (f (some leaf.id)) s' R E) :
    Spec (do
      let startLeaf ← tree.findLeafPage k leftMost .read false
      tryUnlockRootPageId false
      f startLeaf) s R E := by
  have h' := h.exclusive false
  obtain ⟨root, focus, wf⟩ := h'.stores
  refine Spec.bind (h'.state.findLeafPage_read h'.rest root focus wf.sized.wide loc
    (fun p _ => h'.free p) rfl) ?_
  rintro _ s₁ ⟨rfl, rootHeld, h₁⟩
  refine Spec.bind (At.tryUnlockRootPageId_rule h₁ rfl) fun _ s₂ h₂ => rest s₂ ?_
  refine ⟨c.leaves_eq (plug_of_locate loc), h.stores, h.rest, h.free, ?_⟩
  have rootHeld := h.rest.rootHeld
  convert h₂

/-- An empty tree has nothing to iterate over. -/
theorem start_empty {k : K} {leftMost : Bool} (h : Stored tree v s none) {α : Type}
    {f : Option PageId → TreeM K V α} {R : α → TreeState K V → Prop}
    (rest : ∀ s', Stored tree v s' none → Spec (f none) s' R E) :
    Spec (do
      let startLeaf ← tree.findLeafPage k leftMost .read false
      tryUnlockRootPageId false
      f startLeaf) s R E := by
  have h' := h.exclusive false
  refine Spec.bind (h'.state.findLeafPage_empty h'.rest h'.stores rfl) ?_
  rintro _ s₁ ⟨rfl, h₁⟩
  refine Spec.bind (h₁.tryUnlockRootPageId_rule rfl) fun _ s₂ h₂ => rest s₂ ?_
  have stored : Stored tree { v with exclusive := false } s₂ none := by
    refine ⟨?_, h'.rest, h'.stores, h'.free⟩
    have rootHeld := h.rest.rootHeld
    convert h₂
  exact stored.exclusive v.exclusive

/-- `Begin()` has all entries before it. -/
theorem begin_rule [Inhabited K] (h : Stored tree v s t) :
    Spec (tree.begin : TreeM K V IndexIterator) s
      (fun it s' => Remaining tree v t it s' (contents t)) E := by
  cases t with
  | none => exact start_empty h fun s' h' => spec_pure (.atEnd h')
  | some t =>
    obtain ⟨d, t⟩ := t
    obtain ⟨⟨c, leaf⟩, loc⟩ :=
      exists_locate (tree.pick_lt default true) top h.stores.2.2.sized.wide
    refine start_rule h loc fun s' on => spec_pure ?_
    have before : c.before = [] := before_of_locate (fun _ => rfl) loc
    have all : contents (some ⟨d, t⟩) =
        leaf.entries.drop 0 ++ c.after.flatMap LeafNode.entries := by
      rw [contents, on.leaves, before]
      rfl
    rw [all]
    exact .on on (on.stores.leaf_fits on.mem).1

/-! ## Runs -/

/-- The iterator that `start` returns delivers the entries one by one, each in a state with `P`,
and is at the end behind the last one, again in a state with `P`. -/
structure Yields (tree : BPlusTree K) (start : TreeM K V IndexIterator) (s : TreeState K V)
    (entries : List (K × V)) (P : IndexIterator → TreeState K V → Prop) : Prop where
  entry : ∀ i (h : i < entries.length), ∃ it s', (start >>= advance i) s = (.ok it, s') ∧
    it.isEnd = false ∧ it.item tree.keySize s' = (.ok entries[i], s') ∧ P it s'
  last : ∃ it s', (start >>= advance entries.length) s = (.ok it, s') ∧ it.isEnd = true ∧ P it s'

/-- An iterator that has all the entries before it delivers them. -/
theorem yields_of_remaining {start : TreeM K V IndexIterator} {entries : List (K × V)}
    {P : IndexIterator → TreeState K V → Prop}
    (first : Spec start s (fun it s' => Remaining tree v t it s' entries) fun _ _ => False)
    (post : ∀ it s' rest, Remaining tree v t it s' rest → P it s') :
    Yields tree start s entries P := by
  have run (n : ℕ) (le : n ≤ entries.length) : ∃ it s', (start >>= advance n) s = (.ok it, s') ∧
      Remaining tree v t it s' (entries.drop n) :=
    (Spec.bind first fun it s' h => h.advance n le).returns
  constructor
  · intro i hi
    obtain ⟨it, s', ran, h⟩ := run i hi.le
    rw [List.drop_eq_getElem_cons hi] at h
    exact ⟨it, s', ran, h.isEnd, (h.step (E := fun _ _ => False)).1, post it s' _ h⟩
  · obtain ⟨it, s', ran, h⟩ := run entries.length le_rfl
    rw [List.drop_length] at h
    exact ⟨it, s', ran, h.isEnd, post it s' _ h⟩

/-- What an iterator holds, compared to a state `s` before it: one leaf pinned and read-latched, or
nothing at the end. -/
structure HoldsLeaf (s : TreeState K V) (t : Option (Σ d, BTree K V d)) (it : IndexIterator)
    (s' : TreeState K V) : Prop where
  leaf : ∀ p, it.leafPage = some p → ∃ leaf ∈ leafChain t, leaf.id = p
  pinned : s'.pool.pinned = (it.leafPage.toList : Multiset PageId) + s.pool.pinned
  latch : ∀ p, s'.pool.latch p = if it.leafPage = some p then { readers := 1 } else s.pool.latch p
  mutex : s'.mMutex = s.mMutex ∧ s'.mRootLockedCnt = s.mRootLockedCnt

theorem Remaining.holdsLeaf {s s' : TreeState K V} {rest : List (K × V)} (h : Stored tree v s t)
    (remaining : Remaining tree v t it s' rest) : HoldsLeaf s t it s' := by
  have pinned : s.pool.pinned = v.pins := by simp [h.state.pinned, h.rest.held]
  have latch (p : PageId) : s.pool.latch p = {} := by simp [h.state.latch, h.rest.held, h.free]
  cases remaining with
  | atEnd stored =>
    refine ⟨nofun, ?_, fun p => ?_, ?_, ?_⟩
    · simp [stored.state.pinned, h.rest.held, pinned]
    · simp [stored.state.latch, h.rest.held, h.free, latch]
    · simp [stored.state.mutex, h.state.mutex, h.rest.rootHeld]
    · simp [stored.state.lockedCnt, h.state.lockedCnt, h.rest.rootHeld]
  | @on l r leaf i _ on inside =>
    refine ⟨fun p hp => ⟨leaf, on.mem, Option.some.inj hp⟩, ?_, fun p => ?_, ?_, ?_⟩
    · simp [on.reads.pinned, h.rest.held, pinned]
    · have held : p ∉ v.held := by simp [h.rest.held]
      rw [on.reads.latch, if_neg held, latch]
      by_cases e : p = leaf.id
      · simp [e, Latch.taken]
      · simp [Function.update_of_ne e, Ne.symm e, h.free]
    · simp [on.reads.mutex, h.state.mutex, h.rest.rootHeld]
    · simp [on.reads.lockedCnt, h.state.lockedCnt, h.rest.rootHeld]

/-- `Begin()` and `++` deliver every binding once, in ascending order of the keys, and meanwhile
hold one leaf. -/
theorem begin_yields [Inhabited K] (h : Stored tree v s t) :
    Yields tree tree.begin s (contents t) (HoldsLeaf s t) ∧
      ((contents t).map Prod.fst).Pairwise (· < ·) :=
  ⟨yields_of_remaining (begin_rule h) fun _ _ _ => Remaining.holdsLeaf h, h.stores.sorted⟩

theorem begin_yields_threeLeaves : Yields ofWideInts ofWideInts.begin threeLeavesState
    [row 1, row 2, row 5, row 6, row 7, row 10, row 11, row 12, row 13, row 14]
    (HoldsLeaf threeLeavesState (some ⟨1, threeLeaves⟩)) := by
  obtain ⟨v, stored⟩ := stored_threeLeaves
  exact (begin_yields stored).1

/-! ## `Begin(key)` -/

/-- The bindings from a key on are the rest of its leaf and the leaves behind it. -/
theorem filter_contents {d : ℕ} {t : BTree K V d} {c : Context K V 0} {k : K}
    (orders : Orders tree.comparator) (ordered : BTree.Ordered ⊥ ⊤ t)
    (plug : c.plug leaf = ⟨d, t⟩) (covers : c.Covers k) :
    (contents (some ⟨d, t⟩)).filter (fun e => k ≤ e.1) =
      leaf.entries.drop (leaf.index tree.comparator k) ++ c.after.flatMap LeafNode.entries := by
  obtain ⟨order, -, sorted, -⟩ := c.ordered_leaf ordered plug
  obtain ⟨a, b, split, index, below, above⟩ := LeafNode.index_split orders sorted
  have first : (c.before.flatMap LeafNode.entries).filter (fun e => k ≤ e.1) = [] := by
    refine List.filter_eq_nil_iff.2 fun e he => ?_
    have lt := Separators.key_lt_key.1 ((order.before_lt e he).trans_le covers.1)
    simpa using lt
  have last : (c.after.flatMap LeafNode.entries).filter (fun e => k ≤ e.1) =
      c.after.flatMap LeafNode.entries := by
    refine List.filter_eq_self.2 fun e he => ?_
    have lt := Separators.key_lt_key.1 (covers.2.trans_le (order.le_after e he))
    simpa using lt.le
  have here : leaf.entries.filter (fun e => k ≤ e.1) = b := by
    rw [split, List.filter_append, List.filter_eq_nil_iff.2 fun e he => by simpa using below e he,
      List.filter_eq_self.2 fun e he => by simpa using above e he, List.nil_append]
  have all : contents (some ⟨d, t⟩) = _ := c.bindings_eq plug
  rw [all, List.filter_append, List.filter_append, first, last, here, index, split,
    List.drop_left, List.nil_append]

/-- The leaf that can hold the key, if there is a tree, has an entry that is not below it. -/
def Ahead (k : K) : Option (Σ d, BTree K V d) → Prop
  | none => True
  | some t => ∃ (c : Context K V 0) (leaf : LeafNode K V), c.plug leaf = t ∧ c.Covers k ∧
    ∃ e ∈ leaf.entries, k ≤ e.1

/-- The index of the iterator is one of its leaf. -/
def Inside (it : IndexIterator) (s : TreeState K V) : Prop :=
  ∀ p, it.leafPage = some p → ∃ page, s.pool.content p = .leaf page ∧ it.index < page.size

theorem Remaining.inside {rest : List (K × V)} (h : Remaining tree v t it s rest) :
    Inside it s := by
  cases h with
  | atEnd => exact nofun
  | @on l r leaf i _ on inside =>
    intro p hp
    obtain rfl : leaf.id = p := Option.some.inj hp
    obtain ⟨parent, page, hc, holds⟩ := on.content
    exact ⟨page, hc, by rwa [holds.size]⟩

/-- `Begin(key)` finds the leaf of the key, and the index of the first entry there that is not below
it, or the size of the leaf. -/
theorem beginAt_rule {d : ℕ} {t : BTree K V d} {k : K} (orders : Orders tree.comparator)
    (h : Stored tree v s (some ⟨d, t⟩)) : ∃ (c : Context K V 0) (leaf : LeafNode K V),
    c.plug leaf = ⟨d, t⟩ ∧ c.Covers k ∧ Spec (tree.beginAt k) s (fun it s' =>
      it = ⟨some leaf.id, leaf.index tree.comparator k⟩ ∧
      On tree v s' (some ⟨d, t⟩) c.before leaf c.after) E := by
  obtain ⟨c, leaf, loc, covers⟩ := exists_locate_covers orders (c := top) (k := k)
    h.stores.2.2.ordered ⟨bot_le, Separators.key_lt_top⟩
  refine ⟨c, leaf, plug_of_locate loc, covers, start_rule h loc fun s' on => ?_⟩
  obtain ⟨parent, page, run, holds⟩ := on.page
  refine Spec.bind_eq run (spec_pure ⟨?_, on⟩)
  rw [holds.keyIndex]

/-- `Begin(key)` has the bindings from the key on before it, if the leaf of the key has one of them. -/
theorem beginAt_remaining {k : K} (orders : Orders tree.comparator) (h : Stored tree v s t)
    (ahead : Ahead k t) : Spec (tree.beginAt k) s
      (fun it s' => Remaining tree v t it s' ((contents t).filter fun e => k ≤ e.1)) E := by
  cases t with
  | none => exact start_empty h fun s' h' => spec_pure (.atEnd h')
  | some t =>
    obtain ⟨d, t⟩ := t
    obtain ⟨c, leaf, plug, covers, rule⟩ := beginAt_rule (k := k) (E := E) orders h
    have ordered := h.stores.2.2.ordered
    obtain ⟨c', leaf', plug', covers', e, he, le⟩ := ahead
    obtain ⟨rfl, rfl⟩ := covers.unique orders ordered plug plug' covers'
    obtain ⟨-, -, sorted, -⟩ := c'.ordered_leaf ordered plug
    obtain ⟨a, b, split, index, below, -⟩ := LeafNode.index_split (k := k) orders sorted
    have ahead : e ∈ b := by
      rw [split] at he
      exact (List.mem_append.1 he).resolve_left fun mem => absurd (below e mem) (not_lt.2 le)
    have length : leaf'.entries.length = a.length + b.length := by simp [split]
    have inside : leaf'.index tree.comparator k < leaf'.entries.length := by
      have := List.length_pos_of_mem ahead
      omega
    rw [filter_contents orders ordered plug covers]
    apply rule.post
    rintro it s' ⟨rfl, on⟩
    exact .on on inside

/-- `Begin(key)` and `++` deliver exactly the bindings from the key on, without reading behind the
entries of a leaf, exactly if the leaf of the key has an entry that is not below it. -/
theorem beginAt_yields_iff {k : K} (orders : Orders tree.comparator) (h : Stored tree v s t) :
    Yields tree (tree.beginAt k) s ((contents t).filter fun e => k ≤ e.1) Inside ↔ Ahead k t := by
  refine ⟨fun yields => ?_, fun ahead =>
    yields_of_remaining (beginAt_remaining orders h ahead) fun _ _ _ => Remaining.inside⟩
  cases t with
  | none => trivial
  | some t =>
    obtain ⟨d, t⟩ := t
    obtain ⟨c, leaf, plug, covers, rule⟩ := beginAt_rule (k := k) (E := fun _ _ => False) orders h
    obtain ⟨-, -, sorted, -⟩ := c.ordered_leaf h.stores.2.2.ordered plug
    obtain ⟨a, b, split, index, below, above⟩ := LeafNode.index_split (k := k) orders sorted
    have length : leaf.entries.length = a.length + b.length := by simp [split]
    refine ⟨c, leaf, plug, covers, by_contra fun absent => ?_⟩
    -- the index is the size of the leaf, whether or not there are bindings behind it
    have none : b = [] := List.eq_nil_iff_forall_not_mem.2 fun e he =>
      absent ⟨e, by simp [split, he], above e he⟩
    have start : Spec (tree.beginAt k >>= advance 0) s (fun it s' =>
        it = ⟨some leaf.id, leaf.entries.length⟩ ∧
        On tree v s' (some ⟨d, t⟩) c.before leaf c.after) fun _ _ => False := by
      refine Spec.bind rule ?_
      rintro it s' ⟨rfl, on⟩
      refine spec_pure ⟨?_, on⟩
      rw [index, length, none]
      rfl
    by_cases empty : (contents (some ⟨d, t⟩)).filter (fun e => k ≤ e.1) = []
    · obtain ⟨it, s', ran, atEnd, -⟩ := yields.last
      rw [empty] at ran
      obtain ⟨rfl, -⟩ := start.of_ok ran
      cases atEnd
    · obtain ⟨it, s', ran, -, -, inside⟩ := yields.entry 0 (List.length_pos_of_ne_nil empty)
      obtain ⟨rfl, on⟩ := start.of_ok ran
      obtain ⟨page, hc, lt⟩ := inside _ rfl
      obtain ⟨parent, page', hc', holds⟩ := on.content
      obtain rfl : page' = page := IndexPage.leaf.inj (hc'.symm.trans hc)
      rw [holds.size] at lt
      exact lt_irrefl _ lt

/-- A key above all keys of the tree. -/
theorem not_yields_ofInts : ¬ Yields ofInts (ofInts.beginAt 2)
    (ofInts.insert 1 (⟨1, 0⟩ : RID) true TreeState.initial).2
    ((contents (some ⟨0, ⟨1, invalidPageId, [(1, (⟨1, 0⟩ : RID))]⟩⟩)).filter fun e => 2 ≤ e.1)
    Inside := by
  intro yields
  obtain ⟨it, s', ran, atEnd, -⟩ := yields.last
  have first : (.ok it : Except Fault IndexIterator) = .ok ⟨some 1, 1⟩ :=
    (congrArg Prod.fst ran).symm
  obtain rfl : it = ⟨some 1, 1⟩ := Except.ok.inj first
  cases atEnd

/-- A key of the middle one of three leaves. -/
theorem beginAt_yields_threeLeaves : Yields ofWideInts (ofWideInts.beginAt 6) threeLeavesState
    [row 6, row 7, row 10, row 11, row 12, row 13, row 14] Inside := by
  obtain ⟨v, stored⟩ := stored_threeLeaves
  apply (beginAt_yields_iff orders_ofWideInts stored).2
  exact ⟨aroundMiddle, middleLeaf, rfl, aroundMiddle_covers, row 6, by simp [middleLeaf], le_rfl⟩

end IndexIterator

end ScuDb
