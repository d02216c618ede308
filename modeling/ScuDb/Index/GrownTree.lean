import ScuDb.Index.LeafSearch

/-!
# The tree after an insertion

A split that stops below the root leaves a well-formed tree: what is put into the parent page of a
split node has the sizes and the order of that page, at every level up to the one with room.
-/

namespace ScuDb

open Program Separators BTree Context

variable {K V : Type}

/-! ## Sizes -/

namespace BTree

/-- The sizes of the pages below the root of a subtree. -/
def Below (n : KeySize) : {d : ℕ} → BTree K V d → Prop
  | 0, _ => True
  | _ + 1, t => ∀ x ∈ InnerNode.slots t, Sized n x.2

/-- The least size of a root page. -/
def rootMin : ℕ → ℕ
  | 0 => 1
  | _ + 1 => 2

variable {n : KeySize} {d : ℕ}

theorem sized_iff : {d : ℕ} → {t : BTree K V d} →
    (Sized n t ↔ maxSize n d / 2 ≤ t.size ∧ t.size ≤ maxSize n d ∧ Below n t)
  | 0, _ => ⟨fun h => ⟨h.1, h.2, trivial⟩, fun h => ⟨h.1, h.2.1⟩⟩
  | _ + 1, _ => Iff.rfl

theorem rootSized_iff : {d : ℕ} → {t : BTree K V d} →
    (RootSized n t ↔ rootMin d ≤ t.size ∧ t.size ≤ maxSize n d ∧ Below n t)
  | 0, _ => ⟨fun h => ⟨h.1, h.2, trivial⟩, fun h => ⟨h.1, h.2.1⟩⟩
  | _ + 1, _ => Iff.rfl

end BTree

namespace Context

/-- The least size of the page in the hole. -/
def minSize (n : KeySize) : {d : ℕ} → Context K V d → ℕ
  | d, top => rootMin d
  | d, frame _ _ _ _ _ => maxSize n d / 2

/-- The sizes of the pages around the hole. -/
def Sized (n : KeySize) : {d : ℕ} → Context K V d → Prop
  | _, top => True
  | _, frame _ left _ right above => above.minSize n ≤ left.length + (right.length + 1) ∧
    left.length + (right.length + 1) ≤ n.internalMax ∧ (∀ x ∈ left ++ right, BTree.Sized n x.2) ∧
    above.Sized n

variable {n : KeySize}

theorem rootSized_plug : {d : ℕ} → {c : Context K V d} → {t : BTree K V d} →
    ((c.plug t).2.RootSized n ↔ c.Sized n ∧ c.minSize n ≤ t.size ∧ t.size ≤ maxSize n d ∧ t.Below n)
  | _, top, t => rootSized_iff.trans (by simp [Sized, minSize, plug])
  | d, frame page left k right above, t => by
    have slots : (∀ x ∈ left ++ (k, t) :: right, BTree.Sized n x.2) ↔
        (∀ x ∈ left ++ right, BTree.Sized n x.2) ∧ BTree.Sized n t := by
      simp only [List.mem_append, List.mem_cons]
      constructor
      · exact fun h => ⟨fun x hx => h x (hx.imp_right .inr), h _ (.inr (.inl rfl))⟩
      · rintro ⟨sides, ht⟩ x (hx | rfl | hx)
        · exact sides x (.inl hx)
        · exact ht
        · exact sides x (.inr hx)
    have node : Below n (d := d + 1) ⟨page, left ++ (k, t) :: right⟩ ↔
        (∀ x ∈ left ++ right, BTree.Sized n x.2) ∧ BTree.Sized n t := slots
    rw [plug, rootSized_plug, node]
    change _ ↔ _ ∧ (maxSize n d / 2 ≤ t.size ∧ t.size ≤ maxSize n d ∧ t.Below n)
    rw [← sized_iff, Sized]
    simp only [BTree.size, List.length_append, List.length_cons, maxSize]
    tauto

theorem Sized.fits : {d : ℕ} → {c : Context K V d} → c.Sized n → c.Fits n
  | _, top, _ => trivial
  | _, frame _ _ _ _ _, h => ⟨h.2.1, h.2.2.2.fits⟩

end Context

/-! ## Splits -/

namespace BTree

variable {n : KeySize}

/-- Both halves of a page with one entry too many are large enough. -/
theorem sized_split (fresh : PageId) : {d : ℕ} → {t : BTree K V d} → Below n t → t.size = maxSize n d + 1 →
    Sized n (lower n fresh t) ∧ Sized n (upper n fresh t)
  | 0, t, _, full => by
    have length : (LeafNode.entries t).length = n.leafMax + 1 := full
    have five := n.five_le_leafMax
    simp only [Sized, lower, upper, List.length_take, List.length_drop, length]
    omega
  | d + 1, t, below, full => by
    have length : (InnerNode.slots t).length = n.internalMax + 1 := full
    have six := n.six_le_internalMax
    refine ⟨⟨?_, ?_, fun x hx => below x (List.mem_of_mem_take hx)⟩,
      ?_, ?_, fun x hx => below x (List.mem_of_mem_drop hx)⟩
    all_goals
      simp only [lower, upper, List.length_take, List.length_drop, length]
      omega

/-- The leaves of the halves of an internal page. -/
theorem leaves_split {fresh : PageId} {d : ℕ} (t : BTree K V (d + 1)) :
    (lower n fresh t).leaves ++ (upper n fresh t).leaves = t.leaves := by
  rw [leaves_inner, leaves_inner, leaves_inner, ← slotLeaves_append]
  simp only [lower, upper, List.take_append_drop]

variable [LinearOrder K] {lo hi : Bound K}

/-- A list that is split behind its first item. -/
theorem exists_take_drop {α : Type} {l : List α} {m : ℕ} (pos : 0 < m) (lt : m < l.length) :
    ∃ x a y b, l = x :: (a ++ y :: b) ∧ l.take m = x :: a ∧ l.drop m = y :: b := by
  obtain ⟨m, rfl⟩ : ∃ i, m = i + 1 := ⟨m - 1, by omega⟩
  cases l with
  | nil => simp at lt
  | cons x l =>
    have lt : m < l.length := by simpa using lt
    refine ⟨x, l.take m, l[m], l.drop (m + 1), ?_, rfl, List.drop_eq_getElem_cons lt⟩
    rw [← List.drop_eq_getElem_cons lt, List.take_append_drop]

/-- The first key of the upper half separates the halves. -/
theorem ordered_split (fresh : PageId) : {d : ℕ} → {t : BTree K V d} → Ordered lo hi t →
    t.size = maxSize n d + 1 → ∃ k, firstKey (upper n fresh t) = some k ∧
    Ordered lo (key k) (lower n fresh t) ∧ Ordered (key k) hi (upper n fresh t)
  | 0, t, ⟨_, sorted, bounds⟩, full => by
    have length : (LeafNode.entries t).length = n.leafMax + 1 := full
    have five := n.five_le_leafMax
    obtain ⟨x, a, y, b, all, take, drop⟩ := exists_take_drop (l := LeafNode.entries t)
      (m := (n.leafMax + 1) / 2) (by omega) (by omega)
    rw [all, ← List.cons_append, List.map_append, List.map_cons] at sorted
    rw [all] at bounds
    obtain ⟨front, back, cross⟩ := List.pairwise_append.1 sorted
    have later := (List.pairwise_cons.1 back).1
    refine ⟨y.1, by simp [firstKey, upper, drop], ?_, ?_⟩
    · simp only [Ordered, lower, take]
      refine ⟨List.cons_ne_nil _ _, front, fun e he => ⟨(bounds e ?_).1, key_lt_key.2 ?_⟩⟩
      · rw [← List.cons_append]
        exact List.mem_append_left _ he
      · exact cross e.1 (List.mem_map.2 ⟨e, he, rfl⟩) y.1 List.mem_cons_self
    · simp only [Ordered, upper, drop]
      refine ⟨List.cons_ne_nil _ _, back, fun e he => ⟨key_le_key.2 ?_, (bounds e ?_).2⟩⟩
      · obtain rfl | he := List.mem_cons.1 he
        · exact le_rfl
        · exact (later e.1 (List.mem_map.2 ⟨e, he, rfl⟩)).le
      · rw [← List.cons_append]
        exact List.mem_append_right _ he
  | d + 1, ⟨page, slots⟩, h, full => by
    have length : slots.length = n.internalMax + 1 := full
    have six := n.six_le_internalMax
    obtain ⟨x, a, y, b, rfl, take, drop⟩ := exists_take_drop (l := slots)
      (m := (n.internalMax + 1) / 2) (by omega) (by omega)
    obtain ⟨first, between⟩ := ordered_cons.1 h
    obtain ⟨front, back⟩ := between_append.1 between
    refine ⟨y.1, by simp [firstKey, upper, drop], ?_, ?_⟩
    · simp only [lower, take]
      exact ordered_cons.2 ⟨first, front⟩
    · simp only [upper, drop]
      exact ordered_cons.2 ⟨.inr rfl, back⟩

end BTree

/-! ## The way up -/

namespace Context

variable {n : KeySize}

theorem pageId_plug : {d : ℕ} → (c : Context K V d) → {t u : BTree K V d} →
    t.pageId = u.pageId → (c.plug t).2.pageId = (c.plug u).2.pageId
  | _, top, _, _, same => same
  | _, frame _ _ _ _ above, _, _, _ => above.pageId_plug rfl

section Grown

variable {d : ℕ} {page : PageId} {left right : List (K × BTree K V d)} {j k : K} {a b : BTree K V d}
  {above : Context K V (d + 1)}

theorem size_grown : (BPlusTree.grown page left j a k b right).size =
    left.length + (right.length + 1) + 1 := by
  simp [BPlusTree.grown, BTree.size]
  omega

theorem leaves_grown : (BPlusTree.grown page left j a k b right).leaves =
    slotLeaves left ++ (a.leaves ++ b.leaves) ++ slotLeaves right := by
  rw [BPlusTree.grown, leaves_inner]
  simp

theorem below_grown (sides : ∀ x ∈ left ++ right, BTree.Sized n x.2) (ha : BTree.Sized n a)
    (hb : BTree.Sized n b) : (BPlusTree.grown page left j a k b right).Below n := by
  change ∀ x ∈ left ++ (j, a) :: (k, b) :: right, BTree.Sized n x.2
  simp only [List.mem_append, List.mem_cons] at sides ⊢
  rintro x (hx | rfl | rfl | hx)
  · exact sides x (.inl hx)
  · exact ha
  · exact hb
  · exact sides x (.inr hx)

theorem ordered_grown [LinearOrder K] (order : (frame page left j right above).Ordered)
    (ha : BTree.Ordered (frame page left j right above).lo (key k) a)
    (hb : BTree.Ordered (key k) (frame page left j right above).hi b) :
    BTree.Ordered above.lo above.hi (BPlusTree.grown page left j a k b right) := by
  refine ordered_slots.2 ⟨order.1, (between_hole _ _ _).2 ⟨order.2.1, hb⟩, ?_⟩
  cases left with
  | nil => exact ha
  | cons x l => exact ha

end Grown

/-- A page on the way up to the root has room for a slot. -/
def Stops (n : KeySize) : {d : ℕ} → Context K V d → Prop
  | _, top => False
  | _, frame _ left _ right above => left.length + (right.length + 1) < n.internalMax ∨ above.Stops n

variable [LinearOrder K]

/-- A way up that meets a page with room has a result, with the same root page. -/
theorem exists_insertUp : {d : ℕ} → {c : Context K V d} → {a b : BTree K V d} → {k : K} →
    {fresh : PageId} → c.Stops n → c.Fits n → c.Ordered → BTree.Ordered c.lo (key k) a →
    BTree.Ordered (key k) c.hi b → ∃ t, c.insertUp n a k b fresh = some t
  | _, top, _, _, _, _, stops, _, _, _, _ => stops.elim
  | d, frame page left j right above, a, b, k, fresh, stops, fits, order, ha, hb => by
    have node := ordered_grown order ha hb
    simp only [insertUp, size_grown]
    by_cases room : left.length + (right.length + 1) + 1 ≤ n.internalMax
    · exact ⟨_, if_pos room⟩
    · rw [if_neg room]
      have full : (BPlusTree.grown page left j a k b right).size = maxSize n (d + 1) + 1 := by
        have := fits.1
        rw [size_grown]
        show _ = n.internalMax + 1
        omega
      obtain ⟨k', first, lower, upper⟩ := ordered_split fresh node full
      rw [first]
      have stops' : above.Stops n := stops.resolve_left (by omega)
      exact exists_insertUp stops' fits.2 order.2.2 lower upper

/-- What the way up makes of the two halves of a page. -/
theorem insertUp_spec : {d : ℕ} → {c : Context K V d} → {a b : BTree K V d} → {k : K} →
    {fresh : PageId} → {t : Σ h, BTree K V h} → c.Sized n → c.Ordered → BTree.Sized n a →
    BTree.Sized n b → BTree.Ordered c.lo (key k) a → BTree.Ordered (key k) c.hi b →
    c.insertUp n a k b fresh = some t → t.2.RootSized n ∧ BTree.Ordered ⊥ ⊤ t.2 ∧
      t.2.leaves = c.before ++ (a.leaves ++ b.leaves) ++ c.after ∧
      ∀ u : BTree K V d, t.2.pageId = (c.plug u).2.pageId
  | _, top, _, _, _, _, _, _, _, _, _, _, _, h => by cases h
  | d, frame page left j right above, a, b, k, fresh, t, sized, order, sa, sb, ha, hb, h => by
    obtain ⟨least, most, sides, sabove⟩ := sized
    have node := ordered_grown order ha hb
    have below : (BPlusTree.grown page left j a k b right).Below n := below_grown sides sa sb
    have size : (BPlusTree.grown page left j a k b right).size = _ := size_grown
    simp only [insertUp] at h
    by_cases room : (BPlusTree.grown page left j a k b right).size ≤ n.internalMax
    · rw [if_pos room] at h
      obtain rfl := Option.some.inj h
      refine ⟨rootSized_plug.2 ⟨sabove, by omega, room, below⟩, (ordered_plug _ _).2 ⟨order.2.2, node⟩,
        ?_, fun u => above.pageId_plug rfl⟩
      rw [leaves_plug, leaves_grown]
      simp [before, after]
    · rw [if_neg room] at h
      have full : (BPlusTree.grown page left j a k b right).size = maxSize n (d + 1) + 1 := by
        show _ = n.internalMax + 1
        omega
      obtain ⟨k', first, lower, upper⟩ := ordered_split fresh node full
      rw [first] at h
      obtain ⟨sl, su⟩ := sized_split fresh below full
      obtain ⟨rs, ro, rl, rp⟩ := insertUp_spec sabove order.2.2 sl su lower upper h
      refine ⟨rs, ro, ?_, fun u => rp _⟩
      rw [rl, leaves_split, leaves_grown]
      simp [before, after]

end Context

/-! ## The tree after an insertion -/

section InsertTree

variable [LinearOrder K] {tree : BPlusTree K} {k : K} {value : V} {leaf : LeafNode K V}

/-- A new key in the leaf that can hold it. -/
theorem LeafNode.ordered_inserted {lo hi : Bound K} (value : V) (orders : Orders tree.comparator)
    (h : BTree.Ordered (d := 0) lo hi leaf) (lower : lo ≤ key k) (upper : key k < hi)
    (absent : ∀ x, (k, x) ∉ leaf.entries) :
    BTree.Ordered (d := 0) lo hi (leaf.inserted tree.comparator k value) ∧
      ((leaf.inserted tree.comparator k value).entries).Perm ((k, value) :: leaf.entries) := by
  obtain ⟨-, sorted, bounds⟩ := h
  obtain ⟨a, b, split, index, below, above⟩ := LeafNode.index_split (k := k) orders sorted
  have entries : (leaf.inserted tree.comparator k value).entries = a ++ (k, value) :: b := by
    simp only [LeafNode.inserted, index, split, List.take_left, List.drop_left]
  have above' : ∀ e ∈ b, k < e.1 := fun e he => by
    refine lt_of_le_of_ne (above e he) fun same => absent e.2 ?_
    rw [split, same]
    exact List.mem_append_right _ he
  refine ⟨⟨?_, ?_, fun e he => ?_⟩, ?_⟩
  · rw [entries]
    simp
  · rw [split, List.map_append, List.pairwise_append] at sorted
    rw [entries, List.map_append, List.map_cons, List.pairwise_append, List.pairwise_cons]
    refine ⟨sorted.1, ⟨fun j hj => ?_, sorted.2.1⟩, fun i hi j hj => ?_⟩
    · obtain ⟨e, he, rfl⟩ := List.mem_map.1 hj
      exact above' e he
    · obtain ⟨e, he, rfl⟩ := List.mem_map.1 hi
      obtain rfl | hj := List.mem_cons.1 hj
      · exact below e he
      · exact sorted.2.2 _ (List.mem_map.2 ⟨e, he, rfl⟩) j hj
  · have old {e : K × V} (he : e ∈ a ++ b) : lo ≤ key e.1 ∧ key e.1 < hi :=
      bounds e (by rw [split]; exact he)
    change e ∈ (leaf.inserted tree.comparator k value).entries at he
    rw [entries, List.mem_append, List.mem_cons] at he
    obtain he | rfl | he := he
    · exact old (List.mem_append_left _ he)
    · exact ⟨lower, upper⟩
    · exact old (List.mem_append_right _ he)
  · rw [entries, split]
    exact List.perm_middle

variable {d : ℕ} {t : BTree K V d} {c : Context K V 0} {fresh : PageId}

/-- What surrounds a leaf of a well-formed tree. -/
theorem BTree.WellFormed.around {n : KeySize} (wf : t.WellFormed n)
    (plug : c.plug leaf = ⟨d, t⟩) : c.Sized n ∧ c.Ordered ∧ BTree.Ordered (d := 0) c.lo c.hi leaf ∧
      c.minSize n ≤ leaf.entries.length ∧ leaf.entries.length ≤ n.leafMax := by
  have sized := (rootSized_plug (c := c) (t := leaf)).1 (by rw [plug]; exact wf.sized)
  obtain ⟨order, here⟩ := c.ordered_leaf wf.ordered plug
  exact ⟨sized.1, order, here, sized.2.1, sized.2.2.1⟩

/-- An insertion has a result if some page on the way up has room. -/
theorem BPlusTree.exists_insertTree (value : V) (fresh : PageId) (orders : Orders tree.comparator)
    (wf : t.WellFormed tree.keySize) (plug : c.plug leaf = ⟨d, t⟩) (covers : c.Covers k)
    (absent : ∀ x, (k, x) ∉ leaf.entries)
    (room : leaf.entries.length < tree.keySize.leafMax ∨ c.Stops tree.keySize) :
    ∃ t', tree.insertTree k value c leaf fresh = some t' := by
  obtain ⟨sized, order, here, -, le⟩ := wf.around plug
  have length := leaf.length_inserted tree.comparator k value
  simp only [insertTree]
  by_cases fits : (leaf.inserted tree.comparator k value).entries.length ≤ tree.keySize.leafMax
  · exact ⟨_, if_pos fits⟩
  · rw [if_neg fits]
    have full : BTree.size (d := 0) (leaf.inserted tree.comparator k value) =
        maxSize tree.keySize 0 + 1 := by
      show _ = tree.keySize.leafMax + 1
      change (leaf.inserted tree.comparator k value).entries.length = _
      omega
    obtain ⟨new, -⟩ := LeafNode.ordered_inserted value orders here covers.1 covers.2 absent
    obtain ⟨k', first, lower, upper⟩ := ordered_split fresh new full
    rw [first]
    exact exists_insertUp (room.resolve_left (by omega)) sized.fits order lower upper

/-- The tree after an insertion is well-formed and binds one key more. -/
theorem BPlusTree.insertTree_spec {t' : Σ h, BTree K V h} (orders : Orders tree.comparator)
    (wf : t.WellFormed tree.keySize) (plug : c.plug leaf = ⟨d, t⟩) (covers : c.Covers k)
    (absent : ∀ x, (k, x) ∉ leaf.entries) (h : tree.insertTree k value c leaf fresh = some t') :
    t'.2.WellFormed tree.keySize ∧ (t'.2.bindings).Perm ((k, value) :: t.bindings) ∧
      t'.2.pageId = t.pageId := by
  obtain ⟨sized, order, here, least, le⟩ := wf.around plug
  obtain ⟨new, perm⟩ := LeafNode.ordered_inserted value orders here covers.1 covers.2 absent
  set leaf' := leaf.inserted tree.comparator k value with hleaf'
  have length : leaf'.entries.length = leaf.entries.length + 1 := leaf.length_inserted _ _ _
  -- the leaf is replaced by one leaf or two, with the same place in the chain
  have replaced {m : List (LeafNode K V)} (leaves : t'.2.leaves = c.before ++ m ++ c.after)
      (entries : m.flatMap LeafNode.entries = leaf'.entries)
      (first : ∀ q, firstId q m = leaf.id) (next : Chained leaf.next m) :
      Chained invalidPageId t'.2.leaves ∧ (t'.2.bindings).Perm ((k, value) :: t.bindings) := by
    constructor
    · have chained := wf.chained
      rw [c.leaves_eq plug, ← List.singleton_append, ← List.append_assoc] at chained
      rw [leaves]
      refine chained_replace chained first fun q hq => ?_
      have same : leaf.next = q := hq.1
      exact same ▸ next
    · rw [BTree.bindings, leaves, c.bindings_eq plug, List.flatMap_append, List.flatMap_append,
        entries, List.append_assoc]
      refine (List.Perm.append_left _ (perm.append_right _)).trans ?_
      exact List.perm_middle
  have root : t.pageId = (c.plug leaf).2.pageId := by rw [plug]
  simp only [insertTree, ← hleaf'] at h
  by_cases fits : leaf'.entries.length ≤ tree.keySize.leafMax
  · rw [if_pos fits] at h
    obtain rfl := Option.some.inj h
    obtain ⟨chained, bindings⟩ := replaced (m := [leaf']) (leaves_plug c leaf') (by simp)
      (fun _ => rfl) ⟨rfl, trivial⟩
    refine ⟨⟨rootSized_plug.2 ⟨sized, ?_, fits, trivial⟩, (ordered_plug c _).2 ⟨order, new⟩, chained⟩,
      bindings, ?_⟩
    · exact least.trans (by show _ ≤ leaf'.entries.length; omega)
    · rw [root]
      exact c.pageId_plug (t := leaf') rfl
  · rw [if_neg fits] at h
    have full : BTree.size (d := 0) leaf' = maxSize tree.keySize 0 + 1 := by
      show leaf'.entries.length = tree.keySize.leafMax + 1
      omega
    obtain ⟨k', first, ol, ou⟩ := ordered_split fresh new full
    obtain ⟨sl, su⟩ := sized_split fresh (d := 0) (t := leaf') trivial full
    rw [first] at h
    obtain ⟨rs, ro, leaves, page⟩ := insertUp_spec sized order sl su ol ou h
    obtain ⟨chained, bindings⟩ := replaced (m := [lower tree.keySize fresh (d := 0) leaf',
      upper tree.keySize fresh (d := 0) leaf']) leaves (by simp [lower, upper]) (fun _ => rfl)
      ⟨rfl, rfl, trivial⟩
    exact ⟨⟨rs, ro, chained⟩, bindings, (page leaf).trans root.symm⟩

end InsertTree

end ScuDb
