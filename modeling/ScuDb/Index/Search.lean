import ScuDb.Index.OrderedTree

/-!
# Searching an ordered tree

The binary searches find the place of a key among the entries of a leaf and the slot of an internal
page between whose separators the key lies.  So the way down ends at the one leaf that can hold the
key.
-/

namespace ScuDb

open Separators BTree Context

variable {K V : Type} [LinearOrder K] {comparator : K → K → ℤ} {k : K}

/-! ## Leaves -/

namespace LeafNode

variable {t : LeafNode K V}

/-- `KeyIndex` splits the entries at the key. -/
theorem index_split (orders : Orders comparator) (sorted : (t.entries.map Prod.fst).Pairwise (· < ·)) :
    ∃ l r, t.entries = l ++ r ∧ t.index comparator k = l.length ∧ (∀ e ∈ l, e.1 < k) ∧
      ∀ e ∈ r, k ≤ e.1 := by
  obtain ⟨l, r, split, below, above⟩ := exists_split k true sorted
  refine ⟨l, r, split, ?_, below, above⟩
  have length : t.entries.length = l.length + r.length := by simp [split]
  refine BinarySearch.search_eq _ (Nat.zero_le _) (by omega) (by omega) (fun m _ hm => ?_)
    fun m h₁ h₂ => ?_
  · rw [split, List.getElem?_append_left hm, List.getElem?_eq_getElem hm]
    simpa [orders.neg_iff] using below _ (List.getElem_mem hm)
  · have hm : m - l.length < r.length := by omega
    rw [split, List.getElem?_append_right h₁, List.getElem?_eq_getElem hm]
    simpa [orders.neg_iff] using above _ (List.getElem_mem hm)

/-- `Lookup` finds exactly what is stored. -/
theorem find_eq_some_iff (orders : Orders comparator)
    (sorted : (t.entries.map Prod.fst).Pairwise (· < ·)) {v : V} :
    t.find comparator k = some v ↔ (k, v) ∈ t.entries := by
  obtain ⟨l, r, split, index, below, above⟩ := index_split orders sorted
  have out : (k, v) ∉ l := fun mem => lt_irrefl k (below _ mem)
  unfold find
  rw [index, split, List.getElem?_append_right le_rfl, Nat.sub_self, List.mem_append]
  cases r with
  | nil => simp [out]
  | cons e r =>
    rw [split, List.map_append] at sorted
    have later : ∀ x ∈ r, e.1 < x.1 := fun x hx =>
      (List.pairwise_cons.1 (List.pairwise_append.1 sorted).2.1).1 x.1 (List.mem_map.2 ⟨x, hx, rfl⟩)
    have notLater : (k, v) ∉ r := fun mem =>
      absurd (later _ mem) (not_lt.2 (above e List.mem_cons_self))
    simp only [List.getElem?_cons_zero, orders.zero_iff, out, List.mem_cons, notLater, or_false,
      false_or]
    constructor
    · intro h
      split_ifs at h with same
      obtain rfl := Option.some.inj h
      rw [← same]
    · rintro rfl
      rw [if_pos rfl]

theorem find_eq_none_iff (orders : Orders comparator)
    (sorted : (t.entries.map Prod.fst).Pairwise (· < ·)) :
    t.find comparator k = none ↔ ∀ v, (k, v) ∉ t.entries := by
  rw [Option.eq_none_iff_forall_not_mem]
  exact forall_congr' fun v => not_congr (find_eq_some_iff orders sorted)

/-- `RemoveAndDeleteRecord` takes the key away. -/
theorem entries_erased (orders : Orders comparator)
    (sorted : (t.entries.map Prod.fst).Pairwise (· < ·)) :
    (t.erased comparator k).entries = t.entries.filter fun e => e.1 ≠ k := by
  obtain ⟨l, r, split, index, below, above⟩ := index_split (k := k) orders sorted
  have keepL : l.filter (fun e => e.1 ≠ k) = l :=
    List.filter_eq_self.2 fun e he => by simpa using (below e he).ne
  unfold erased
  rw [index, split, List.getElem?_append_right le_rfl, Nat.sub_self, List.filter_append, keepL]
  cases r with
  | nil => simp [split]
  | cons x r =>
    rw [split, List.map_append] at sorted
    have later := (List.pairwise_cons.1 (List.pairwise_append.1 sorted).2.1).1
    have keepR : r.filter (fun e => e.1 ≠ k) = r := List.filter_eq_self.2 fun e he => by
      have := (above x List.mem_cons_self).trans_lt (later e.1 (List.mem_map.2 ⟨e, he, rfl⟩))
      simpa using this.ne'
    by_cases same : x.1 = k
    · rw [if_pos (by simp [orders.zero_iff, same]), List.filter_cons_of_neg (by simp [same]), keepR]
      dsimp only
      rw [List.eraseIdx_append_of_length_le le_rfl, Nat.sub_self]
      rfl
    · rw [if_neg (by simp [orders.zero_iff, Ne.symm same]),
        List.filter_cons_of_pos (by simp [same]), keepR, split]

end LeafNode

/-! ## Internal pages -/

theorem childIndex_eq (orders : Orders comparator) (first : K) {a b : List K}
    (below : ∀ j ∈ a, j ≤ k) (above : ∀ j ∈ b, k < j) :
    childIndex comparator k (first :: (a ++ b)) = a.length := by
  have found : BinarySearch.search (fun i => ((first :: (a ++ b))[i]?).any fun j =>
      comparator j k ≤ 0) (first :: (a ++ b)).length 1 (first :: (a ++ b)).length = a.length + 1 := by
    refine BinarySearch.search_eq _ (by omega) (by simp) (by omega) (fun m h₁ h₂ => ?_)
      fun m h₁ h₂ => ?_
    · obtain ⟨m, rfl⟩ : ∃ i, m = i + 1 := ⟨m - 1, by omega⟩
      have hm : m < a.length := by omega
      rw [List.getElem?_cons_succ, List.getElem?_append_left hm, List.getElem?_eq_getElem hm]
      simpa [orders.nonpos_iff] using below _ (List.getElem_mem hm)
    · obtain ⟨m, rfl⟩ : ∃ i, m = i + 1 := ⟨m - 1, by omega⟩
      simp only [List.length_cons, List.length_append] at h₂
      have hm : m - a.length < b.length := by omega
      rw [List.getElem?_cons_succ, List.getElem?_append_right (by omega),
        List.getElem?_eq_getElem hm]
      simpa [orders.nonpos_iff] using above _ (List.getElem_mem hm)
  unfold childIndex
  rw [found, Nat.add_sub_cancel]

/-- The keys behind an upper bound are above the key. -/
theorem RightOrdered.above {d : ℕ} {hi : Bound K} {right : List (K × BTree K V d)}
    (h : Context.RightOrdered hi right) (first : ∀ y ∈ right.head?, k < y.1) :
    ∀ j ∈ right.map Prod.fst, k < j := by
  cases right with
  | nil => simp
  | cons y r =>
    have hy : k < y.1 := first y rfl
    have sorted := (Between.separators (fun _ _ _ => BTree.Ordered.lt) h).2
    rw [List.map_cons, List.forall_mem_cons]
    refine ⟨hy, fun j hj => ?_⟩
    obtain ⟨z, hz, rfl⟩ := List.mem_map.1 hj
    exact hy.trans (key_lt_key.1 (sorted z hz).1)

section Pick

variable {tree : BPlusTree K} (orders : Orders tree.comparator) {d : ℕ} {page : PageId}
  {left right : List (K × BTree K V d)} {x : K × BTree K V d} {above : Context K V (d + 1)}
include orders

/-- `Lookup` follows the slot between whose separators the key lies. -/
theorem pick_eq (h : BTree.Ordered (d := d + 1) above.lo above.hi ⟨page, left ++ x :: right⟩)
    (lower : (frame page left x.1 right above).lo ≤ key k)
    (upper : key k < (frame page left x.1 right above).hi) :
    tree.pick k false ((left ++ x :: right).map Prod.fst) = left.length := by
  obtain ⟨hleft, hright, -⟩ := ordered_slots.1 h
  have behind : ∀ j ∈ right.map Prod.fst, k < j := by
    refine RightOrdered.above hright fun y hy => ?_
    cases right with
    | nil => cases hy
    | cons z r =>
      obtain rfl : z = y := Option.some.inj hy
      exact key_lt_key.1 upper
  simp only [BPlusTree.pick, Bool.false_eq_true, if_false]
  cases left with
  | nil => exact childIndex_eq orders _ (a := []) (by simp) behind
  | cons z l =>
    have here : x.1 ≤ k := key_le_key.1 lower
    have sorted := (Between.separators (fun _ _ _ => BTree.Ordered.lt) hleft.2).2
    have below : ∀ j ∈ l.map Prod.fst ++ [x.1], j ≤ k := by
      intro j hj
      rcases List.mem_append.1 hj with hj | hj
      · obtain ⟨w, hw, rfl⟩ := List.mem_map.1 hj
        exact (key_lt_key.1 (sorted w hw).2).le.trans here
      · rw [List.mem_singleton.1 hj]
        exact here
    have run := childIndex_eq orders z.1 below behind
    simpa using run

omit orders in
/-- A key between the bounds of a node lies between two separators of it. -/
theorem exists_slot {slots : List (K × BTree K V d)}
    (h : BTree.Ordered (d := d + 1) above.lo above.hi ⟨page, slots⟩) (lower : above.lo ≤ key k)
    (upper : key k < above.hi) : ∃ left x right, slots = left ++ x :: right ∧
      (frame page left x.1 right above).lo ≤ key k ∧
      key k < (frame page left x.1 right above).hi := by
  cases slots with
  | nil => exact h.elim
  | cons z rest =>
    obtain ⟨-, between⟩ := ordered_cons.1 h
    obtain ⟨sorted, -⟩ := Between.separators (fun _ _ _ => BTree.Ordered.lt) between
    obtain ⟨a, b, rfl, below, behind⟩ := exists_split k false sorted
    have upper' {l : List (K × BTree K V d)} {j : K} : key k < (frame page l j b above).hi := by
      cases b with
      | nil => exact upper
      | cons y r => exact key_lt_key.2 (behind y List.mem_cons_self)
    rcases List.eq_nil_or_concat a with rfl | ⟨l, y, rfl⟩
    · exact ⟨[], z, b, rfl, lower, upper'⟩
    · refine ⟨z :: l, y, b, by simp, ?_, upper'⟩
      exact key_le_key.2 (below y (by simp))

end Pick

/-! ## The way down -/

namespace Context

/-- The key lies between the bounds of the hole. -/
def Covers {d : ℕ} (c : Context K V d) (k : K) : Prop := c.lo ≤ key k ∧ key k < c.hi

section

variable {d : ℕ} {page : PageId} {left right : List (K × BTree K V d)} {j : K}
  {above : Context K V (d + 1)}

theorem Ordered.lo_le (h : (frame page left j right above).Ordered) :
    above.lo ≤ (frame page left j right above).lo := by
  cases left with
  | nil => exact le_rfl
  | cons x l => exact (Between.lt (fun _ _ _ => BTree.Ordered.lt) h.1.2).le

theorem Ordered.hi_le (h : (frame page left j right above).Ordered) :
    (frame page left j right above).hi ≤ above.hi := by
  cases right with
  | nil => exact le_rfl
  | cons y r => exact (Between.lt (fun _ _ _ => BTree.Ordered.lt) h.2.1).le

theorem Covers.outer (h : (frame page left j right above).Covers k)
    (order : (frame page left j right above).Ordered) : above.Covers k :=
  ⟨order.lo_le.trans h.1, h.2.trans_le order.hi_le⟩

end

/-- What the leaves to the left of the hole hold is below it. -/
theorem Ordered.before_lt : {d : ℕ} → {c : Context K V d} → c.Ordered →
    ∀ e ∈ c.before.flatMap LeafNode.entries, key e.1 < c.lo
  | _, top, _, _, he => by cases he
  | _, frame page left j right above, h, e, he => by
    rw [before, List.flatMap_append, List.mem_append] at he
    obtain he | he := he
    · exact (Ordered.before_lt h.2.2 e he).trans_le h.lo_le
    · cases left with
      | nil => cases he
      | cons x l => exact ((between_bindings h.1.2).2 e he).2

/-- What the leaves to the right of the hole hold is not below its upper bound. -/
theorem Ordered.le_after : {d : ℕ} → {c : Context K V d} → c.Ordered →
    ∀ e ∈ c.after.flatMap LeafNode.entries, c.hi ≤ key e.1
  | _, top, _, _, he => by cases he
  | _, frame page left j right above, h, e, he => by
    rw [after, List.flatMap_append, List.mem_append] at he
    obtain he | he := he
    · cases right with
      | nil => cases he
      | cons y r => exact ((between_bindings h.2.1).2 e he).1
    · exact h.hi_le.trans (Ordered.le_after h.2.2 e he)

section Locate

variable {tree : BPlusTree K} (orders : Orders tree.comparator)
include orders

/-- One level of the way down, to the slot whose bounds have the key between them. -/
theorem locate_frame {d : ℕ} {page : PageId} {left right : List (K × BTree K V d)}
    {x : K × BTree K V d} {above : Context K V (d + 1)}
    (h : BTree.Ordered (d := d + 1) above.lo above.hi ⟨page, left ++ x :: right⟩)
    (covers : (frame page left x.1 right above).Covers k) :
    locate (tree.pick k false) above (d := d + 1) ⟨page, left ++ x :: right⟩ =
      locate (tree.pick k false) (frame page left x.1 right above) x.2 := by
  have pick := pick_eq orders h covers.1 covers.2
  simp only [locate]
  rw [pick, List.drop_left, List.take_left]

/-- The way down ends at a leaf between whose bounds the key lies. -/
theorem exists_locate_covers : {d : ℕ} → {c : Context K V d} → {t : BTree K V d} →
    BTree.Ordered c.lo c.hi t → c.Covers k → ∃ c' leaf,
    locate (tree.pick k false) c t = some (c', leaf) ∧ c'.Covers k
  | 0, c, t, _, covers => ⟨c, t, rfl, covers⟩
  | d + 1, c, ⟨page, slots⟩, h, covers => by
    obtain ⟨left, x, right, rfl, lower, upper⟩ := exists_slot h covers.1 covers.2
    obtain ⟨c', leaf, loc, covers'⟩ :=
      exists_locate_covers (ordered_slots.1 h).2.2 ⟨lower, upper⟩
    exact ⟨c', leaf, (locate_frame orders h ⟨lower, upper⟩).trans loc, covers'⟩

/-- The way down from the root passes every hole between whose bounds the key lies. -/
theorem locate_plug : {d : ℕ} → {c : Context K V d} → {t : BTree K V d} →
    BTree.Ordered ⊥ ⊤ (c.plug t).2 → c.Covers k →
    locate (tree.pick k false) top (c.plug t).2 = locate (tree.pick k false) c t
  | _, top, _, _, _ => rfl
  | _, frame page left j right above, t, h, covers => by
    have order := ((ordered_plug (frame page left j right above) t).1 h).1
    have node := ((ordered_plug above _).1 h).2
    exact (locate_plug (c := above) h (covers.outer order)).trans
      (locate_frame orders (x := (j, t)) node covers)

end Locate

omit [LinearOrder K] in
/-- The leftmost way down ends at the first leaf. -/
theorem before_of_locate {pick : List K → ℕ} (first : ∀ keys, pick keys = 0) : {d : ℕ} →
    {c : Context K V d} → {t : BTree K V d} → {c' : Context K V 0} → {leaf : LeafNode K V} →
    locate pick c t = some (c', leaf) → c'.before = c.before
  | 0, c, t, c', leaf, h => by
    obtain ⟨rfl, rfl⟩ := Prod.mk.inj (Option.some.inj h)
    rfl
  | d + 1, c, ⟨page, slots⟩, c', leaf, h => by
    simp only [locate, first] at h
    split at h
    · cases h
    · next x right hx =>
      rw [before_of_locate first h, before, List.take_zero, slotLeaves_nil, List.append_nil]

end Context

/-! ## The leaf of a key -/

section Leaf

variable {d : ℕ} {t : BTree K V d} {c : Context K V 0} {leaf : LeafNode K V}

/-- A leaf of an ordered tree. -/
theorem Context.ordered_leaf (h : BTree.Ordered ⊥ ⊤ t) (plug : c.plug leaf = ⟨d, t⟩) :
    c.Ordered ∧ BTree.Ordered (d := 0) c.lo c.hi leaf :=
  (ordered_plug c leaf).1 (by rw [plug]; exact h)

omit [LinearOrder K] in
theorem Context.leaves_eq (plug : c.plug leaf = ⟨d, t⟩) :
    t.leaves = c.before ++ leaf :: c.after := by
  have leaves := leaves_plug c leaf
  rw [plug] at leaves
  rw [leaves]
  exact List.append_assoc _ _ _

omit [LinearOrder K] in
/-- The bindings, split at a leaf. -/
theorem Context.bindings_eq (plug : c.plug leaf = ⟨d, t⟩) :
    t.bindings = c.before.flatMap LeafNode.entries ++
      (leaf.entries ++ c.after.flatMap LeafNode.entries) := by
  rw [BTree.bindings, c.leaves_eq plug, List.flatMap_append, List.flatMap_cons]

/-- There is one leaf between whose bounds the key lies. -/
theorem Context.Covers.unique {tree : BPlusTree K} {c' : Context K V 0} {leaf' : LeafNode K V}
    (covers : c.Covers k) (orders : Orders tree.comparator) (h : BTree.Ordered ⊥ ⊤ t)
    (plug : c.plug leaf = ⟨d, t⟩) (plug' : c'.plug leaf' = ⟨d, t⟩) (covers' : c'.Covers k) :
    c' = c ∧ leaf' = leaf := by
  have loc := locate_plug orders (t := leaf) (by rw [plug]; exact h) covers
  have loc' := locate_plug orders (t := leaf') (by rw [plug']; exact h) covers'
  rw [plug] at loc
  rw [plug', loc] at loc'
  exact (Prod.mk.inj (Option.some.inj loc')).imp Eq.symm Eq.symm

/-- A key is bound in the tree if it is bound in its leaf. -/
theorem Context.Covers.mem_bindings (covers : c.Covers k) (h : BTree.Ordered ⊥ ⊤ t)
    (plug : c.plug leaf = ⟨d, t⟩) {v : V} : (k, v) ∈ t.bindings ↔ (k, v) ∈ leaf.entries := by
  obtain ⟨order, -⟩ := c.ordered_leaf h plug
  rw [c.bindings_eq plug, List.mem_append, List.mem_append]
  constructor
  · rintro (mem | mem | mem)
    · exact absurd (order.before_lt _ mem) (not_lt.2 covers.1)
    · exact mem
    · exact absurd (order.le_after _ mem) (not_le.2 covers.2)
  · exact fun mem => .inr (.inl mem)

end Leaf

end ScuDb
