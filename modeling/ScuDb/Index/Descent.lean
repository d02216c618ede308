import ScuDb.Index.TreePages
import ScuDb.Index.TreeRules

/-!
# The way to a leaf

Which leaf the loop of `FindLeafPage` reaches, and what it holds when it gets there: a writer holds
the leaf and every page above it up to one that the operation cannot overflow or underflow, or up
to the root and its latch; a reader holds the leaf.
-/

namespace ScuDb

open Program

variable {K V : Type}

namespace BTree

/-- `GetMinSize`. -/
def minSize (n : KeySize) (d : ℕ) (parent : PageId) : ℕ :=
  if parent = invalidPageId then if d = 0 then 1 else 2 else maxSize n d / 2

/-- `isSafe`, for the page of a subtree of depth `d`. -/
def safe (n : KeySize) (op : OperationType) (d : ℕ) (parent : PageId) (size : ℕ) : Bool :=
  match op with
  | .insert => size < maxSize n d
  | .delete => if d = 0 then minSize n d parent + 1 ≤ size else minSize n d parent + 1 < size
  | .read => false

/-- The sizes of the pages below a root. -/
def Sized (n : KeySize) : {d : ℕ} → BTree K V d → Prop
  | 0, t => n.leafMax / 2 ≤ (LeafNode.entries t).length ∧ (LeafNode.entries t).length ≤ n.leafMax
  | _ + 1, t => n.internalMax / 2 ≤ (InnerNode.slots t).length ∧
    (InnerNode.slots t).length ≤ n.internalMax ∧ ∀ x ∈ InnerNode.slots t, Sized n x.2

/-- Every internal page has at least two slots. -/
def Wide : {d : ℕ} → BTree K V d → Prop
  | 0, _ => True
  | _ + 1, t => 2 ≤ (InnerNode.slots t).length ∧ ∀ x ∈ InnerNode.slots t, Wide x.2

theorem Sized.wide {n : KeySize} : {d : ℕ} → {t : BTree K V d} → Sized n t → Wide t
  | 0, _, _ => trivial
  | _ + 1, _, h => by
    have := n.six_le_internalMax
    exact ⟨by have := h.1; omega, fun x hx => (h.2.2 x hx).wide⟩

end BTree

open BTree

theorem BPlusTreePage.Is.getMinSize {n : KeySize} {d : ℕ} {header : BPlusTreePage}
    {page parent : PageId} {size : ℕ} (h : header.Is page parent size (BTree.maxSize n d)) :
    header.getMinSize (decide (d = 0)) = minSize n d parent := by
  simp [BPlusTreePage.getMinSize, BPlusTreePage.isRootPage, minSize, h.parentPageId, h.maxSize]

theorem BPlusTreePage.Is.isSafe {n : KeySize} {op : OperationType} {d : ℕ} {header : BPlusTreePage}
    {page parent : PageId} {size : ℕ} (h : header.Is page parent size (BTree.maxSize n d))
    (hop : op ≠ .read) :
    header.isSafe (decide (d = 0)) op = .ok (safe n op d parent size) := by
  have min := h.getMinSize
  cases op with
  | read => exact absurd rfl hop
  | insert => simp [BPlusTreePage.isSafe, safe, h.size, h.maxSize]
  | delete =>
    simp only [BPlusTreePage.isSafe, min, safe, h.size]
    by_cases hd : d = 0 <;> simp [hd]

namespace Context

/-- The pages from the hole up to the root. -/
def path : {d : ℕ} → Context K V d → List PageId
  | _, top => []
  | _, frame page _ _ _ above => page :: above.path

/-- The pages above the hole are held up to one that is safe, or with the root latch. -/
def Guarded (n : KeySize) (op : OperationType) (held : List PageId) (rootHeld : Bool) :
    {d : ℕ} → Context K V d → Prop
  | _, top => rootHeld = true
  | d, frame page left _ right above => page ∈ held ∧
    (safe n op (d + 1) above.parentId (left.length + (right.length + 1)) = true ∨
      above.Guarded n op held rootHeld)

/-- The leaf that a choice of slots leads to, and what lies around it. -/
def locate (pick : List K → ℕ) : {d : ℕ} → Context K V d → BTree K V d →
    Option (Context K V 0 × LeafNode K V)
  | 0, c, t => some (c, t)
  | _ + 1, c, t =>
    let slots := InnerNode.slots t
    let i := pick (slots.map Prod.fst)
    match slots.drop i with
    | [] => none
    | x :: right => locate pick (frame (InnerNode.id t) (slots.take i) x.1 right c) x.2

theorem Guarded.mono {n : KeySize} {op : OperationType} {held held' : List PageId}
    {rootHeld : Bool} : {d : ℕ} → {c : Context K V d} → c.Guarded n op held rootHeld →
    (∀ p ∈ held, p ∈ held') → c.Guarded n op held' rootHeld
  | _, top, h, _ => h
  | _, frame _ _ _ _ _, h, sub => ⟨sub _ h.1, h.2.imp_right fun g => g.mono sub⟩

theorem path_subset_ids : {d : ℕ} → (c : Context K V d) → ∀ p ∈ c.path, p ∈ c.ids
  | _, top, p, h => by cases h
  | _, frame page left key right above, p, h => by
    obtain rfl | h := List.mem_cons.1 h
    · exact Multiset.mem_cons_self _ _
    · exact Multiset.mem_cons_of_mem (Multiset.mem_add.2 (.inr (above.path_subset_ids p h)))

theorem plug_of_locate {pick : List K → ℕ} : {d : ℕ} → {c : Context K V d} → {t : BTree K V d} →
    {c' : Context K V 0} → {leaf : LeafNode K V} → locate pick c t = some (c', leaf) →
    c'.plug leaf = c.plug t
  | 0, c, t, c', leaf, h => by
    obtain ⟨rfl, rfl⟩ := Prod.mk.inj (Option.some.inj h)
    rfl
  | d + 1, c, ⟨page, slots⟩, c', leaf, h => by
    simp only [locate] at h
    split at h
    · cases h
    · next x right hx =>
      rw [plug_of_locate h, plug, ← hx, List.take_append_drop]

theorem path_of_locate {pick : List K → ℕ} : {d : ℕ} → {c : Context K V d} → {t : BTree K V d} →
    {c' : Context K V 0} → {leaf : LeafNode K V} → locate pick c t = some (c', leaf) →
    t.pageId ∈ leaf.id :: c'.path ∧ ∀ p ∈ c.path, p ∈ c'.path
  | 0, c, t, c', leaf, h => by
    obtain ⟨rfl, rfl⟩ := Prod.mk.inj (Option.some.inj h)
    exact ⟨List.mem_cons_self, fun _ h => h⟩
  | d + 1, c, t, c', leaf, h => by
    simp only [locate] at h
    split at h
    · cases h
    · next x right hx =>
      obtain ⟨-, above⟩ := path_of_locate h
      exact ⟨List.mem_cons_of_mem _ (above _ List.mem_cons_self),
        fun p hp => above p (List.mem_cons_of_mem _ hp)⟩

/-- A choice inside the pages of a wide tree leads to a leaf. -/
theorem exists_locate {pick : List K → ℕ} (inside : ∀ keys, keys ≠ [] → pick keys < keys.length) :
    {d : ℕ} → (c : Context K V d) → {t : BTree K V d} → Wide t → ∃ r, locate pick c t = some r
  | 0, c, t, _ => ⟨_, rfl⟩
  | d + 1, c, t, wide => by
    have ne : (InnerNode.slots t).map Prod.fst ≠ [] := by
      intro e
      have := congrArg List.length e
      have := wide.1
      simp_all
    have lt := inside _ ne
    rw [List.length_map] at lt
    simp only [locate]
    rw [List.drop_eq_getElem_cons lt]
    exact exists_locate inside _ (wide.2 _ (List.getElem_mem _))

/-- The leaf that is reached is as wide and as well sized as the tree says. -/
theorem locate_induction {pick : List K → ℕ} {P : {d : ℕ} → Context K V d → BTree K V d → Prop}
    (step : ∀ {d : ℕ} (c : Context K V (d + 1)) (page : PageId) (left right : List (K × BTree K V d))
      (x : K × BTree K V d), P c ⟨page, left ++ x :: right⟩ → P (frame page left x.1 right c) x.2) :
    {d : ℕ} → {c : Context K V d} → {t : BTree K V d} → {c' : Context K V 0} →
    {leaf : LeafNode K V} → P c t → locate pick c t = some (c', leaf) → P (d := 0) c' leaf
  | 0, c, t, c', leaf, hp, h => by
    obtain ⟨rfl, rfl⟩ := Prod.mk.inj (Option.some.inj h)
    exact hp
  | d + 1, c, ⟨page, slots⟩, c', leaf, hp, h => by
    simp only [locate] at h
    split at h
    · cases h
    · next x right hx =>
      refine locate_induction step (step c page _ right x ?_) h
      rwa [← hx, List.take_append_drop]

end Context

/-! ## What is held -/

open Context

theorem ne_invalid {p : PageId} (h : 0 < p) : p ≠ invalidPageId := by
  rintro rfl
  exact absurd h (by decide)

/-- The pages hold `t` in the hole of `c`. -/
structure Focus {d : ℕ} (n : KeySize) (v : BPlusTree.View K V) (c : Context K V d)
    (t : BTree K V d) : Prop where
  rep : c.Rep n v.content t.pageId
  sub : t.Rep n v.content c.parentId
  nodup : (c.ids + t.ids).Nodup
  bound : ∀ p ∈ c.ids + t.ids, 0 < p ∧ p < v.next

/-- What a writer holds at the page of `t`. -/
structure Latched {d : ℕ} (n : KeySize) (op : OperationType) (held : List PageId) (rootHeld : Bool)
    (c : Context K V d) (t : BTree K V d) : Prop where
  here : t.pageId ∈ held
  guarded : safe n op d c.parentId t.size = true ∨ c.Guarded n op held rootHeld
  path : ∀ p ∈ held, p = t.pageId ∨ p ∈ c.path

namespace Focus

variable {n : KeySize} {v : BPlusTree.View K V} {d : ℕ} {c : Context K V d} {t : BTree K V d}

theorem pos (h : Focus n v c t) : 0 < t.pageId :=
  (h.bound _ (Multiset.mem_add.2 (.inr (pageId_mem_ids t)))).1

theorem ne_header (h : Focus n v c t) {p : PageId} (hp : p ∈ c.ids + t.ids) : p ≠ headerPageId :=
  (h.bound p hp).1.ne'

theorem pageId_ne_header (h : Focus n v c t) : t.pageId ≠ headerPageId := h.pos.ne'

theorem pageId_notMem (h : Focus n v c t) : t.pageId ∉ c.ids := fun hc =>
  Multiset.disjoint_left.1 (Multiset.nodup_add.1 h.nodup).2.2 hc (pageId_mem_ids t)

/-- The whole tree, from the hole. -/
theorem plug (h : Focus n v c t) : Focus n v Context.top (c.plug t).2 := by
  refine ⟨trivial, (rep_plug c t).2 ⟨h.rep, h.sub⟩, ?_, ?_⟩
  · rw [Context.ids, zero_add, ids_plug]
    exact h.nodup
  · rw [Context.ids, zero_add, ids_plug]
    exact h.bound

theorem congr {v' : BPlusTree.View K V} (h : Focus n v c t) (content : v'.content = v.content)
    (next : v'.next = v.next) : Focus n v' c t :=
  ⟨content ▸ h.rep, content ▸ h.sub, h.nodup, next ▸ h.bound⟩

/-- One level down. -/
theorem down {c : Context K V (d + 1)} {page : PageId} {left right : List (K × BTree K V d)}
    {x : K × BTree K V d} (h : Focus n v c (d := d + 1) ⟨page, left ++ x :: right⟩) :
    Focus n v (frame page left x.1 right c) x.2 := by
  have same : (frame page left x.1 right c).ids + x.2.ids =
      c.ids + BTree.ids (d := d + 1) ⟨page, left ++ x :: right⟩ := by
    rw [← ids_plug, ← ids_plug]
    rfl
  have both := (rep_plug (frame page left x.1 right c) x.2).1 ((rep_plug c _).2 ⟨h.rep, h.sub⟩)
  exact ⟨both.1, both.2, same ▸ h.nodup, fun p hp => h.bound p (same ▸ hp)⟩

end Focus

namespace BPlusTree

variable {tree : BPlusTree K} {v : View K V} {s : TreeState K V} {key : K} {leftMost : Bool}
  {op : OperationType} {transaction : Bool} {fuel : ℕ} {cur : PageId}
  {E : Fault → TreeState K V → Prop}

/-- The slot that `FindLeafPage` follows. -/
def pick (tree : BPlusTree K) (key : K) (leftMost : Bool) (keys : List K) : ℕ :=
  if leftMost then 0 else childIndex tree.comparator key keys

theorem pick_lt (tree : BPlusTree K) (key : K) (leftMost : Bool) (keys : List K) (h : keys ≠ []) :
    tree.pick key leftMost keys < keys.length := by
  unfold pick
  split_ifs
  · exact List.length_pos_of_ne_nil h
  · exact childIndex_lt _ _ h

/-- The page id in the slot that is followed. -/
theorem pick_ok (tree : BPlusTree K) (key : K) (leftMost : Bool) {n : KeySize}
    {page : InternalPage K} {id parent : PageId} {d : ℕ} {slots : List (K × BTree K V d)} (holds : page.Holds n id parent (slots.map toSlot))
    (two : 2 ≤ slots.length) :
    ∃ x right, slots.drop (tree.pick key leftMost (slots.map Prod.fst)) = x :: right ∧
      (if leftMost then page.valueAt n 0 else page.lookup tree.comparator key) =
        .ok x.2.pageId := by
  cases leftMost with
  | true =>
    obtain ⟨x, right, rfl⟩ : ∃ x right, slots = x :: right := by
      cases slots with
      | nil => simp at two
      | cons x right => exact ⟨x, right, rfl⟩
    refine ⟨x, right, rfl, ?_⟩
    have first : page.array 0 = toSlot x := holds.array (by simp)
    have slot : InternalPage.slot n 0 = .ok 0 := by
      have := n.six_le_internalMax
      have := n.internalMax_add_one
      exact InternalPage.slot_ok (i := 0) (by omega)
    simp only [if_true, InternalPage.valueAt]
    rw [liftExcept_ok slot, first]
    rfl
  | false =>
    obtain ⟨y, hy, run⟩ := holds.lookup tree.comparator key (by simpa)
    rw [List.map_map] at hy
    change (slots.map toSlot)[childIndex tree.comparator key (slots.map Prod.fst)]? = some y at hy
    obtain ⟨lt, hy⟩ := List.getElem?_eq_some_iff.1 hy
    rw [List.length_map] at lt
    refine ⟨_, _, List.drop_eq_getElem_cons lt, ?_⟩
    simp only [Bool.false_eq_true, if_false]
    rw [run, ← hy, List.getElem_map]
    rfl

/-- A round of the loop of `FindLeafPage`. -/
theorem At.descend_step (h : At tree v s) (hp : cur ≠ headerPageId) {page : InternalPage K}
    (hc : v.content cur = .internal page) {q : PageId}
    (next : (if leftMost then page.valueAt tree.keySize 0 else page.lookup tree.comparator key) =
      .ok q) {R : PageId → TreeState K V → Prop}
    (rest : Spec (do
      crabingProtocalFetchPage q op cur transaction
      tree.descend key leftMost op transaction fuel q) s R E) :
    Spec (tree.descend key leftMost op transaction (fuel + 1) cur) s R E := by
  refine Spec.bind_eq (h.getPage_eq hp) ?_
  rw [hc]
  cases leftMost with
  | true => exact Spec.bind_eq (a := q) (t := s) (by rw [← next]; rfl) rest
  | false => exact Spec.bind_eq (a := q) (t := s) (by rw [← next]; rfl) rest

theorem At.descend_leaf (h : At tree v s) (hp : cur ≠ headerPageId) {page : LeafPage K V}
    (hc : v.content cur = .leaf page) {R : PageId → TreeState K V → Prop} (post : R cur s) :
    Spec (tree.descend key leftMost op transaction (fuel + 1) cur) s R E := by
  refine Spec.bind_eq (h.getPage_eq hp) ?_
  rw [hc]
  exact spec_pure post

/-- A writer reaches its leaf. -/
theorem descend_rule (hop : op ≠ .read) {c' : Context K V 0} {leaf : LeafNode K V} (d : ℕ) :
    ∀ {t : BTree K V d} {c : Context K V d} {fuel : ℕ} {v : View K V} {s : TreeState K V},
    At tree v s → v.exclusive = true → v.opened = [] → v.deleted = ∅ →
    Focus tree.keySize v c t → Wide t → d < fuel → Latched tree.keySize op v.held v.rootHeld c t →
    locate (tree.pick key leftMost) c t = some (c', leaf) →
    (∀ p ∈ leaf.id :: c'.path, v.Waits E p) →
    Spec (tree.descend key leftMost op true fuel t.pageId) s (fun r s' => r = leaf.id ∧
      ∃ held rootHeld, At tree { v with held := held, rootHeld := rootHeld } s' ∧
        Latched tree.keySize op held rootHeld c' (d := 0) leaf) E := by
  induction d with
  | zero =>
    intro t c fuel v s h _ _ _ focus _ hf latched loc _
    obtain ⟨fuel, rfl⟩ : ∃ k, fuel = k + 1 := ⟨fuel - 1, by omega⟩
    obtain ⟨rfl, rfl⟩ := Prod.mk.inj (Option.some.inj loc)
    obtain ⟨page, hc, -⟩ := focus.sub
    exact h.descend_leaf focus.pageId_ne_header hc ⟨rfl, v.held, v.rootHeld, h, latched⟩
  | succ d ih =>
    rintro ⟨page, slots⟩ c fuel v s h ex opened deleted focus wide hf latched loc waits
    obtain ⟨fuel, rfl⟩ : ∃ k, fuel = k + 1 := ⟨fuel - 1, by omega⟩
    obtain ⟨⟨p, hc, holds⟩, -⟩ := focus.sub
    obtain ⟨x, right, hx, next⟩ := pick_ok tree key leftMost
      holds wide.1
    set left := slots.take (tree.pick key leftMost (slots.map Prod.fst)) with hleft
    have hslots : slots = left ++ x :: right := by rw [hleft, ← hx, List.take_append_drop]
    have loc' : locate (tree.pick key leftMost) (frame page left x.1 right c) x.2 =
        some (c', leaf) := by
      simp only [locate, hx] at loc
      exact loc
    have focus' : Focus tree.keySize v (frame page left x.1 right c) x.2 := by
      have := focus
      rw [hslots] at this
      exact this.down
    obtain ⟨header, hh, is, isLeaf⟩ := focus'.sub.root
    have child : x.2.pageId ∉ v.held := by
      intro hx
      have out := focus'.pageId_notMem
      obtain e | e := latched.path _ hx
      · exact out (e ▸ Multiset.mem_cons_self page _)
      · exact out (Multiset.mem_cons_of_mem (Multiset.mem_add.2 (.inr (c.path_subset_ids _ e))))
    have waitsChild : v.Waits E x.2.pageId := waits _ (path_of_locate loc').1
    have size : left.length + (right.length + 1) = slots.length := by simp [hslots]
    have wide' : Wide x.2 := wide.2 x (by simp [hslots])
    refine h.descend_step focus.pageId_ne_header hc next ?_
    have safety := is.isSafe hop
    rw [← isLeaf] at safety
    cases hs : safe tree.keySize op d page x.2.size with
    | true =>
      rw [show (frame page left x.1 right c).parentId = page from rfl, hs] at safety
      refine Spec.bind (h.crabRelease_rule ex hop child waitsChild focus'.pageId_ne_header opened
        deleted hh focus.pos safety) fun _ s₁ h₁ => ?_
      refine ih (v := { v with held := [x.2.pageId], rootHeld := false }) h₁ ex opened deleted
        ⟨focus'.rep, focus'.sub, focus'.nodup, focus'.bound⟩ wide' (by omega)
        ⟨List.mem_singleton_self _, .inl hs, ?_⟩ loc' waits
      exact fun p hp => .inl (List.mem_singleton.1 hp)
    | false =>
      rw [show (frame page left x.1 right c).parentId = page from rfl, hs] at safety
      refine Spec.bind (h.crabKeep_rule ex hop child waitsChild focus'.pageId_ne_header hh
        (.inr safety)) fun _ s₁ h₁ => ?_
      have guarded : (frame page left x.1 right c).Guarded tree.keySize op (v.held ++ [x.2.pageId])
          v.rootHeld := by
        refine ⟨List.mem_append_left _ latched.here, ?_⟩
        rw [size]
        exact latched.guarded.imp_right fun g => g.mono fun p hp => List.mem_append_left _ hp
      refine ih (v := { v with held := v.held ++ [x.2.pageId] }) h₁ ex opened deleted
        ⟨focus'.rep, focus'.sub, focus'.nodup, focus'.bound⟩ wide' (by omega)
        ⟨List.mem_append_right _ (List.mem_singleton_self _), .inr guarded, fun p hp => ?_⟩ loc' waits
      obtain hp | hp := List.mem_append.1 hp
      · refine .inr ?_
        obtain rfl | hp := latched.path p hp
        · exact List.mem_cons_self
        · exact List.mem_cons_of_mem _ hp
      · exact .inl (List.mem_singleton.1 hp)

/-- A reader reaches its leaf. -/
theorem read_rule {c' : Context K V 0} {leaf : LeafNode K V} (d : ℕ) :
    ∀ {t : BTree K V d} {c : Context K V d} {fuel : ℕ} {v : View K V} {s : TreeState K V},
    ReadAt tree transaction v t.pageId s → v.exclusive = false → v.held = [] → v.opened = [] →
    v.deleted = ∅ → Focus tree.keySize v c t → Wide t → d < fuel →
    locate (tree.pick key leftMost) c t = some (c', leaf) →
    (∀ p ∈ leaf.id :: c'.path, v.base p = {}) →
    Spec (tree.descend key leftMost .read transaction fuel t.pageId) s (fun r s' => r = leaf.id ∧
      ∃ rootHeld, ReadAt tree transaction { v with rootHeld := rootHeld } leaf.id s') E := by
  have content : ∀ {v : View K V} {cur : PageId} {s : TreeState K V}, ReadAt tree transaction v cur s →
      ∃ w : View K V, At tree w s ∧ w.content = v.content := by
    intro v cur s h
    unfold ReadAt at h
    split at h
    · exact ⟨_, h, rfl⟩
    · exact ⟨_, h, rfl⟩
  induction d with
  | zero =>
    intro t c fuel v s h _ _ _ _ focus _ hf loc _
    obtain ⟨fuel, rfl⟩ : ∃ k, fuel = k + 1 := ⟨fuel - 1, by omega⟩
    obtain ⟨rfl, rfl⟩ := Prod.mk.inj (Option.some.inj loc)
    obtain ⟨page, hc, -⟩ := focus.sub
    obtain ⟨w, hw, e⟩ := content h
    exact hw.descend_leaf focus.pageId_ne_header (e ▸ hc) ⟨rfl, v.rootHeld, h⟩
  | succ d ih =>
    rintro ⟨page, slots⟩ c fuel v s h ex held opened deleted focus wide hf loc free
    obtain ⟨fuel, rfl⟩ : ∃ k, fuel = k + 1 := ⟨fuel - 1, by omega⟩
    obtain ⟨⟨p, hc, holds⟩, -⟩ := focus.sub
    obtain ⟨x, right, hx, next⟩ := pick_ok tree key leftMost
      holds wide.1
    set left := slots.take (tree.pick key leftMost (slots.map Prod.fst)) with hleft
    have hslots : slots = left ++ x :: right := by rw [hleft, ← hx, List.take_append_drop]
    have loc' : locate (tree.pick key leftMost) (frame page left x.1 right c) x.2 =
        some (c', leaf) := by
      simp only [locate, hx] at loc
      exact loc
    have focus' : Focus tree.keySize v (frame page left x.1 right c) x.2 := by
      have := focus
      rw [hslots] at this
      exact this.down
    have ne : x.2.pageId ≠ page := fun e => focus'.pageId_notMem (e ▸ Multiset.mem_cons_self _ _)
    have wide' : Wide x.2 := wide.2 x (by simp [hslots])
    obtain ⟨w, hw, e⟩ := content h
    refine hw.descend_step focus.pageId_ne_header (e ▸ hc) next ?_
    refine Spec.bind (h.step_rule ex held opened deleted focus.pos ne
      (free _ (path_of_locate loc).1) (free _ (path_of_locate loc').1)) fun _ s₁ h₁ => ?_
    exact ih (v := { v with rootHeld := false }) h₁ ex held opened deleted
      ⟨focus'.rep, focus'.sub, focus'.nodup, focus'.bound⟩ wide' (by omega) loc' free

end BPlusTree

/-! ## The depth of a tree -/

namespace BTree

theorem lt_card_ids : {d : ℕ} → {t : BTree K V d} → Wide t → d < (ids t).card
  | 0, t, _ => by simp [ids]
  | d + 1, t, wide => by
    obtain ⟨x, hx⟩ := List.exists_mem_of_length_pos (l := InnerNode.slots t) (by have := wide.1; omega)
    have below := lt_card_ids (wide.2 x hx)
    have le := Multiset.card_le_card (slotIds_le_of_mem hx)
    rw [ids_inner, Multiset.card_cons]
    omega

/-- Distinct pages are fewer than the page ids. -/
theorem card_le_of_bound {m : Multiset PageId} {next : ℤ} (nodup : m.Nodup)
    (bound : ∀ p ∈ m, 0 < p ∧ p < next) : m.card ≤ (next - 1).toNat := by
  have card : m.card ≤ (Finset.Ioo 0 next).card := by
    rw [← Multiset.toFinset_card_of_nodup nodup]
    refine Finset.card_le_card fun p hp => ?_
    exact Finset.mem_Ioo.2 (bound p (Multiset.mem_toFinset.1 hp))
  rwa [Int.card_Ioo, sub_zero] at card

/-- The pages of a tree are distinct, so there are fewer levels than page ids. -/
theorem depth_lt {d : ℕ} {t : BTree K V d} {next : ℤ} (wide : Wide t) (nodup : (ids t).Nodup)
    (bound : ∀ p ∈ ids t, 0 < p ∧ p < next) : d < next.toNat := by
  have := lt_card_ids wide
  have := card_le_of_bound nodup bound
  omega

end BTree

theorem Context.height_le_card : {d : ℕ} → (c : Context K V d) → c.height ≤ c.ids.card
  | _, top => le_rfl
  | _, frame _ _ _ _ above => by
    have := above.height_le_card
    simp only [height, ids, Multiset.card_cons, Multiset.card_add]
    omega

theorem Focus.height_lt {n : KeySize} {v : BPlusTree.View K V} {d : ℕ} {c : Context K V d}
    {t : BTree K V d} (focus : Focus n v c t) : c.height < v.next.toNat := by
  have card := card_le_of_bound focus.nodup focus.bound
  have height := c.height_le_card
  have pos : 0 < t.ids.card := Multiset.card_pos_iff_exists_mem.2 ⟨_, pageId_mem_ids t⟩
  rw [Multiset.card_add] at card
  omega

namespace BPlusTree

variable {tree : BPlusTree K} {v : View K V} {s : TreeState K V} {key : K} {leftMost : Bool}
  {op : OperationType} {transaction : Bool} {d : ℕ} {t : BTree K V d} {c : Context K V 0}
  {leaf : LeafNode K V} {E : Fault → TreeState K V → Prop}

/-- The view of a tree at rest: nothing is held. -/
structure View.AtRest (v : View K V) : Prop where
  held : v.held = []
  opened : v.opened = []
  rootHeld : v.rootHeld = false
  deleted : v.deleted = ∅

theorem At.findLeafPage_empty (h : At tree v s) (rest : v.AtRest) (empty : v.root = invalidPageId)
    (hex : v.exclusive = decide (op ≠ .read)) :
    Spec (tree.findLeafPage key leftMost op transaction) s (fun r s' => r = none ∧ At tree v s')
      E := by
  refine Spec.bind (h.lockRootPageId_rule hex rest.rootHeld) fun _ s₁ h₁ => ?_
  refine Spec.bind_eq (a := s₁) (t := s₁) rfl ?_
  rw [if_pos (h₁.root.trans empty)]
  refine Spec.bind (h₁.tryUnlockRootPageId_rule hex) fun _ s₂ h₂ => spec_pure ⟨rfl, ?_⟩
  have : { v with rootHeld := false } = v := by rw [← rest.rootHeld]
  exact this ▸ h₂

section

variable (h : At tree v s) (rest : v.AtRest) (root : v.root = t.pageId)
  (focus : Focus tree.keySize v Context.top t) (wide : Wide t)
  (loc : locate (tree.pick key leftMost) Context.top t = some (c, leaf))
include h rest root focus wide loc

/-- `FindLeafPage` of a writer. -/
theorem At.findLeafPage_rule (waits : ∀ p ∈ leaf.id :: c.path, v.Waits E p)
    (ex : v.exclusive = true) (hop : op ≠ .read) :
    Spec (tree.findLeafPage key leftMost op true) s (fun r s' => r = some leaf.id ∧
      ∃ held rootHeld, At tree { v with held := held, rootHeld := rootHeld } s' ∧
        Latched tree.keySize op held rootHeld c (d := 0) leaf) E := by
  have hex : v.exclusive = decide (op ≠ .read) := by simp [ex, hop]
  have valid : v.root ≠ invalidPageId := root ▸ ne_invalid focus.pos
  have bound : ∀ p ∈ t.ids, 0 < p ∧ p < v.next := fun p hp =>
    focus.bound p (Multiset.mem_add.2 (.inr hp))
  have depth := depth_lt wide (Multiset.nodup_add.1 focus.nodup).2.1 bound
  obtain ⟨header, hh, -⟩ := focus.sub.root
  refine Spec.bind (h.lockRootPageId_rule hex rest.rootHeld) fun _ s₁ h₁ => ?_
  refine Spec.bind_eq (a := s₁) (t := s₁) rfl ?_
  rw [if_neg (h₁.root ▸ valid), show s₁.rootPageId = t.pageId from h₁.root.trans root, h₁.next]
  refine Spec.bind (h₁.crabKeep_rule ex hop (by simp [rest.held]) (waits _ (path_of_locate loc).1)
    focus.pageId_ne_header hh (.inl (by decide))) fun _ s₂ h₂ => ?_
  refine Spec.bind (descend_rule (v := { v with rootHeld := true, held := v.held ++ [t.pageId] })
    hop d h₂ ex rest.opened rest.deleted ⟨focus.rep, focus.sub, focus.nodup, focus.bound⟩ wide
    (by show d < v.next.toNat + 1; omega)
    ⟨List.mem_append_right _ (List.mem_singleton_self _), .inr rfl, fun p hp => .inl ?_⟩ loc waits) ?_
  · simpa [rest.held] using hp
  · rintro r s₃ ⟨rfl, held, rootHeld, h₃, latched⟩
    exact spec_pure ⟨rfl, held, rootHeld, h₃, latched⟩

/-- `FindLeafPage` of a reader. -/
theorem At.findLeafPage_read (free : ∀ p ∈ leaf.id :: c.path, v.base p = {})
    (ex : v.exclusive = false) :
    Spec (tree.findLeafPage key leftMost .read transaction) s (fun r s' => r = some leaf.id ∧
      ∃ rootHeld, ReadAt tree transaction { v with rootHeld := rootHeld } leaf.id s') E := by
  have valid : v.root ≠ invalidPageId := root ▸ ne_invalid focus.pos
  have bound : ∀ p ∈ t.ids, 0 < p ∧ p < v.next := fun p hp =>
    focus.bound p (Multiset.mem_add.2 (.inr hp))
  have depth := depth_lt wide (Multiset.nodup_add.1 focus.nodup).2.1 bound
  refine Spec.bind (h.lockRootPageId_rule ex rest.rootHeld) fun _ s₁ h₁ => ?_
  refine Spec.bind_eq (a := s₁) (t := s₁) rfl ?_
  rw [if_neg (h₁.root ▸ valid), show s₁.rootPageId = t.pageId from h₁.root.trans root, h₁.next]
  refine Spec.bind (h₁.readFirst_rule ex rest.held (free _ (path_of_locate loc).1) (-1)
    (by decide)) fun _ s₂ h₂ => ?_
  refine Spec.bind (read_rule (v := { v with rootHeld := true }) d h₂ ex rest.held rest.opened
    rest.deleted ⟨focus.rep, focus.sub, focus.nodup, focus.bound⟩ wide
    (by show d < v.next.toNat + 1; omega) loc free) ?_
  rintro r s₃ ⟨rfl, rootHeld, h₃⟩
  exact spec_pure ⟨rfl, rootHeld, h₃⟩

end

end BPlusTree

end ScuDb
