import ScuDb.Index.Removal

/-!
# The tree after a removal

Two neighbours that are merged or exchange entries keep the sizes and the order of the tree, at
every level up to the root, and the leaves stay linked.
-/

namespace ScuDb

open Program Separators BTree Context

variable {K V : Type}

namespace BTree

/-! ## Leaves -/

/-- The same bindings in leaves that are linked like the old ones. -/
structure Relinks (old new : List (LeafNode K V)) : Prop where
  entries : new.flatMap LeafNode.entries = old.flatMap LeafNode.entries
  first : ∀ q, firstId q new = firstId q old
  chained : ∀ q, Chained q old → Chained q new

theorem Relinks.refl (l : List (LeafNode K V)) : Relinks l l := ⟨rfl, fun _ => rfl, fun _ h => h⟩

theorem Relinks.trans {l m r : List (LeafNode K V)} (h : Relinks l m) (h' : Relinks m r) :
    Relinks l r :=
  ⟨h'.entries.trans h.entries, fun q => (h'.first q).trans (h.first q),
    fun q chained => h'.chained q (h.chained q chained)⟩

theorem Relinks.around {old new : List (LeafNode K V)} (h : Relinks old new)
    (l r : List (LeafNode K V)) : Relinks (l ++ old ++ r) (l ++ new ++ r) := by
  refine ⟨?_, fun q => ?_, fun q chained => chained_replace chained h.first h.chained⟩
  · simp only [List.flatMap_append, h.entries]
  · rw [List.append_assoc, List.append_assoc, firstId_append, firstId_append, firstId_append, h.first,
      firstId_append]

/-- Internal nodes that are merged or exchange slots keep the leaves below them. -/
theorem leaves_merge {d : ℕ} (k : K) (a b : BTree K V (d + 1)) :
    (merge k a b).leaves = a.leaves ++ b.leaves := by
  have same : slotLeaves (setFirst k (InnerNode.slots b)) = slotLeaves (InnerNode.slots b) := by
    cases InnerNode.slots b <;> rfl
  simp only [merge, leaves_inner, slotLeaves_append, same]

theorem leaves_shiftLeft {d : ℕ} (a b : BTree K V (d + 1)) :
    (pushLast a b).leaves ++ (dropFirst b).leaves = a.leaves ++ b.leaves := by
  have split : slotLeaves ((InnerNode.slots b).take 1) ++ slotLeaves ((InnerNode.slots b).drop 1) =
      slotLeaves (InnerNode.slots b) := by
    rw [← slotLeaves_append, List.take_append_drop]
  simp only [pushLast, dropFirst, leaves_inner, slotLeaves_append, List.append_assoc, split]

theorem leaves_shiftRight {d : ℕ} (a b : BTree K V (d + 1)) :
    (dropLast a).leaves ++ (pushFirst a b).leaves = a.leaves ++ b.leaves := by
  have split : slotLeaves (InnerNode.slots a).dropLast ++
      slotLeaves (InnerNode.slots a).getLast?.toList = slotLeaves (InnerNode.slots a) := by
    rw [← slotLeaves_append, List.dropLast_eq_take, List.take_append_getLast?]
  simp only [dropLast, pushFirst, leaves_inner, slotLeaves_append]
  rw [← List.append_assoc, split]

theorem relinks_merge (k : K) : {d : ℕ} → (a b : BTree K V d) →
    Relinks (a.leaves ++ b.leaves) (merge k a b).leaves
  | 0, a, b => by
    refine ⟨?_, fun q => rfl, fun q h => ?_⟩
    · simp [merge, leaves]
    · exact ⟨h.2.1, trivial⟩
  | d + 1, a, b => by
    rw [leaves_merge]
    exact Relinks.refl _

theorem relinks_shiftLeft : {d : ℕ} → (a b : BTree K V d) →
    Relinks (a.leaves ++ b.leaves) ((pushLast a b).leaves ++ (dropFirst b).leaves)
  | 0, a, b => by
    refine ⟨?_, fun q => rfl, fun q h => h⟩
    have := List.take_append_drop 1 (LeafNode.entries b)
    simp only [leaves, pushLast, dropFirst, List.flatMap_append, List.flatMap_singleton,
      List.append_assoc, this]
  | d + 1, a, b => by
    rw [leaves_shiftLeft]
    exact Relinks.refl _

theorem relinks_shiftRight : {d : ℕ} → (a b : BTree K V d) →
    Relinks (a.leaves ++ b.leaves) ((dropLast a).leaves ++ (pushFirst a b).leaves)
  | 0, a, b => by
    refine ⟨?_, fun q => rfl, fun q h => h⟩
    have : (LeafNode.entries a).dropLast ++ (LeafNode.entries a).getLast?.toList =
        LeafNode.entries a := by
      rw [List.dropLast_eq_take, List.take_append_getLast?]
    simp only [leaves, dropLast, pushFirst, List.flatMap_append, List.flatMap_singleton]
    rw [← List.append_assoc, this]
  | d + 1, a, b => by
    rw [leaves_shiftRight]
    exact Relinks.refl _

/-! ## Sizes -/

section Sizes

variable {n : KeySize}

theorem below_merge (k : K) : {d : ℕ} → {a b : BTree K V d} → Below n a → Below n b →
    Below n (merge k a b)
  | 0, _, _, _, _ => trivial
  | d + 1, a, b, ha, hb => by
    intro x hx
    simp only [merge, List.mem_append] at hx
    obtain hx | hx := hx
    · exact ha x hx
    · obtain ⟨pageB, slots⟩ := b
      cases slots with
      | nil => cases hx
      | cons y rest =>
        obtain rfl | hx := List.mem_cons.1 hx
        · exact hb y List.mem_cons_self
        · exact hb x (List.mem_cons_of_mem _ hx)

theorem below_shiftLeft : {d : ℕ} → {a b : BTree K V d} → Below n a → Below n b →
    Below n (pushLast a b) ∧ Below n (dropFirst b)
  | 0, _, _, _, _ => ⟨trivial, trivial⟩
  | d + 1, a, b, ha, hb => by
    refine ⟨fun x hx => ?_, fun x hx => hb x (List.mem_of_mem_drop hx)⟩
    obtain hx | hx := List.mem_append.1 hx
    · exact ha x hx
    · exact hb x (List.mem_of_mem_take hx)

theorem below_shiftRight : {d : ℕ} → {a b : BTree K V d} → Below n a → Below n b →
    Below n (dropLast a) ∧ Below n (pushFirst a b)
  | 0, _, _, _, _ => ⟨trivial, trivial⟩
  | d + 1, a, b, ha, hb => by
    refine ⟨fun x hx => ha x (List.mem_of_mem_dropLast hx), fun x hx => ?_⟩
    obtain hx | hx := List.mem_append.1 hx
    · exact ha x (List.mem_of_mem_getLast? (Option.mem_toList.1 hx))
    · exact hb x hx

theorem size_shiftLeft : {d : ℕ} → {a b : BTree K V d} → 0 < b.size →
    (pushLast a b).size = a.size + 1 ∧ (dropFirst b).size = b.size - 1
  | 0, a, ⟨page, next, x :: rest⟩, _ => by simp [size, pushLast, dropFirst]
  | d + 1, a, ⟨page, x :: rest⟩, _ => by simp [size, pushLast, dropFirst]

theorem size_shiftRight : {d : ℕ} → {a b : BTree K V d} → 0 < a.size →
    (dropLast a).size = a.size - 1 ∧ (pushFirst a b).size = b.size + 1
  | 0, ⟨page, next, entries⟩, b, pos => by
    obtain ⟨rest, x, rfl⟩ := (List.eq_nil_or_concat' entries).resolve_left
      (List.ne_nil_of_length_pos pos)
    simp [size, dropLast, pushFirst]
  | d + 1, ⟨page, slots⟩, b, pos => by
    obtain ⟨rest, x, rfl⟩ := (List.eq_nil_or_concat' slots).resolve_left
      (List.ne_nil_of_length_pos pos)
    simp [size, dropLast, pushFirst]

end Sizes

/-! ## Order -/

section Order

variable [LinearOrder K] {lo hi m : Bound K}

/-- Entries of leaves that follow each other. -/
theorem ordered_join {i j p q r s : PageId} {a b : List (K × V)}
    (ha : Ordered (d := 0) lo m (⟨i, p, a⟩ : LeafNode K V))
    (hb : Ordered (d := 0) m hi (⟨j, q, b⟩ : LeafNode K V)) :
    Ordered (d := 0) lo hi (⟨r, s, a ++ b⟩ : LeafNode K V) := by
  have below := ha.lt
  have above := hb.lt
  obtain ⟨ne, sortedA, insideA⟩ := ha
  obtain ⟨-, sortedB, insideB⟩ := hb
  refine ⟨List.append_ne_nil_of_left_ne_nil ne _, ?_, fun e he => ?_⟩
  · rw [List.map_append, List.pairwise_append]
    refine ⟨sortedA, sortedB, fun x hx y hy => ?_⟩
    obtain ⟨e, he, rfl⟩ := List.mem_map.1 hx
    obtain ⟨f, hf, rfl⟩ := List.mem_map.1 hy
    exact key_lt_key.1 ((insideA e he).2.trans_le (insideB f hf).1)
  · obtain he | he := List.mem_append.1 he
    · exact ⟨(insideA e he).1, (insideA e he).2.trans above⟩
    · exact ⟨below.le.trans (insideB e he).1, (insideB e he).2⟩

/-- A leaf that is cut before an entry. -/
theorem ordered_cut {i j p q r s : PageId} {x y : K × V} {a b : List (K × V)}
    (h : Ordered (d := 0) lo hi (⟨i, p, x :: (a ++ y :: b)⟩ : LeafNode K V)) :
    Ordered (d := 0) lo (key y.1) (⟨j, q, x :: a⟩ : LeafNode K V) ∧
      Ordered (d := 0) (key y.1) hi (⟨r, s, y :: b⟩ : LeafNode K V) := by
  obtain ⟨-, sorted, bounds⟩ := h
  dsimp only at sorted bounds
  rw [← List.cons_append, List.map_append, List.map_cons] at sorted
  rw [← List.cons_append] at bounds
  obtain ⟨front, back, cross⟩ := List.pairwise_append.1 sorted
  have later := (List.pairwise_cons.1 back).1
  refine ⟨⟨List.cons_ne_nil _ _, front, fun e he => ⟨(bounds e (List.mem_append_left _ he)).1, ?_⟩⟩,
    List.cons_ne_nil _ _, back, fun e he => ⟨?_, (bounds e (List.mem_append_right _ he)).2⟩⟩
  · exact key_lt_key.2 (cross e.1 (List.mem_map.2 ⟨e, he, rfl⟩) y.1 List.mem_cons_self)
  · obtain rfl | he := List.mem_cons.1 he
    · exact le_rfl
    · exact (key_lt_key.2 (later e.1 (List.mem_map.2 ⟨e, he, rfl⟩))).le

/-- Slots of internal nodes that follow each other. -/
theorem ordered_slots_join {d : ℕ} {i j p : PageId} {k : K} {a b : List (K × BTree K V d)}
    (ha : Ordered (d := d + 1) lo (key k) ⟨i, a⟩) (hb : Ordered (d := d + 1) (key k) hi ⟨j, b⟩) :
    Ordered (d := d + 1) lo hi ⟨p, a ++ b⟩ ∧ setFirst k b = b := by
  cases a with
  | nil => exact ha.elim
  | cons x a =>
    cases b with
    | nil => exact hb.elim
    | cons y b =>
      obtain ⟨firstA, betweenA⟩ := ordered_cons.1 ha
      obtain ⟨firstB, betweenB⟩ := ordered_cons.1 hb
      obtain rfl : k = y.1 := key_inj.1 (firstB.resolve_left bot_lt_key.ne')
      exact ⟨ordered_cons.2 ⟨firstA, between_append.2 ⟨betweenA, betweenB⟩⟩, rfl⟩

/-- An internal node that is cut before a slot. -/
theorem ordered_slots_cut {d : ℕ} {i j p : PageId} {x y : K × BTree K V d}
    {a b : List (K × BTree K V d)} (h : Ordered (d := d + 1) lo hi ⟨i, x :: (a ++ y :: b)⟩) :
    Ordered (d := d + 1) lo (key y.1) ⟨j, x :: a⟩ ∧
      Ordered (d := d + 1) (key y.1) hi ⟨p, y :: b⟩ := by
  obtain ⟨first, between⟩ := ordered_cons.1 h
  obtain ⟨front, back⟩ := between_append.1 between
  exact ⟨ordered_cons.2 ⟨first, front⟩, ordered_cons.2 ⟨.inr rfl, back⟩⟩

variable {k j : K}

theorem ordered_merge : {d : ℕ} → {a b : BTree K V d} → Ordered lo (key k) a →
    Ordered (key k) hi b → Ordered lo hi (merge k a b)
  | 0, _, _, ha, hb => ordered_join ha hb
  | d + 1, a, b, ha, hb => by
    obtain ⟨joined, same⟩ := ordered_slots_join (p := a.id) ha hb
    simp only [merge, same]
    exact joined

/-- The first entry of the right neighbour moves to the left one. -/
theorem ordered_shiftLeft : {d : ℕ} → {a b : BTree K V d} → Ordered lo (key k) a →
    Ordered (key k) hi b → firstKey (dropFirst b) = some j →
    Ordered lo (key j) (pushLast a b) ∧ Ordered (key j) hi (dropFirst b)
  | 0, ⟨_, _, []⟩, _, ha, _, _ => absurd rfl ha.1
  | 0, ⟨i, p, x :: a⟩, ⟨i', q, y :: z :: b⟩, ha, hb, first => by
    obtain rfl : z.1 = j := Option.some.inj first
    have joined := ordered_join (r := i) (s := p) ha hb
    have := ordered_cut (a := a ++ [y]) (y := z) (b := b) (j := i) (q := p) (r := i') (s := q)
      (i := i) (p := p) (x := x) (by simpa using joined)
    exact this
  | d + 1, ⟨_, []⟩, _, ha, _, _ => ha.elim
  | d + 1, ⟨i, x :: a⟩, ⟨i', y :: z :: b⟩, ha, hb, first => by
    obtain rfl : z.1 = j := Option.some.inj first
    have joined := (ordered_slots_join (p := i) ha hb).1
    exact ordered_slots_cut (a := a ++ [y]) (y := z) (b := b) (i := i) (j := i) (p := i') (x := x)
      (by simpa using joined)

omit [LinearOrder K] in
theorem exists_ends {α : Type} {l : List α} (two : 1 < l.length) :
    ∃ x a z, l = x :: (a ++ [z]) ∧ l.getLast? = some z ∧ l.dropLast = x :: a := by
  obtain ⟨rest, z, rfl⟩ := (List.eq_nil_or_concat' l).resolve_left
    (List.ne_nil_of_length_pos (by omega))
  cases rest with
  | nil => simp at two
  | cons x a => exact ⟨x, a, z, rfl, List.getLast?_concat, List.dropLast_concat⟩

/-- The last entry of the left neighbour moves to the right one. -/
theorem ordered_shiftRight : {d : ℕ} → {a b : BTree K V d} → Ordered lo (key k) a →
    Ordered (key k) hi b → 1 < a.size → firstKey (pushFirst a b) = some j →
    Ordered lo (key j) (dropLast a) ∧ Ordered (key j) hi (pushFirst a b)
  | 0, ⟨i, p, entries⟩, ⟨i', q, b⟩, ha, hb, two, first => by
    obtain ⟨x, a, z, rfl, last, front⟩ := exists_ends two
    obtain rfl : z.1 = j := by simpa [firstKey, pushFirst, last] using first
    have joined := ordered_join (r := i) (s := p) ha hb
    have cut := ordered_cut (a := a) (y := z) (b := b) (j := i) (q := p) (r := i') (s := q)
      (i := i) (p := p) (x := x) (by simpa using joined)
    simpa [dropLast, pushFirst, last, front] using cut
  | d + 1, ⟨i, slots⟩, ⟨i', b⟩, ha, hb, two, first => by
    obtain ⟨x, a, z, rfl, last, front⟩ := exists_ends two
    obtain rfl : z.1 = j := by simpa [firstKey, pushFirst, last] using first
    have joined := (ordered_slots_join (p := i) ha hb).1
    have cut := ordered_slots_cut (a := a) (y := z) (b := b) (i := i) (j := i) (p := i') (x := x)
      (by simpa using joined)
    simpa [dropLast, pushFirst, last, front] using cut

end Order

end BTree

/-! ## Neighbours -/

namespace Context

section Window

variable {n : KeySize} {d : ℕ} {c : Context K V d} {t : BTree K V d} {page : PageId}
  {l r : List (K × BTree K V d)} {ka kb : K} {a b : BTree K V d} {above : Context K V (d + 1)}

/-- The order of a node with two neighbours in the middle. -/
theorem ordered_window [LinearOrder K] :
    BTree.Ordered (d := d + 1) above.lo above.hi ⟨page, l ++ ([(ka, a), (kb, b)] ++ r)⟩ ↔
      LeftOrdered above.lo ka l ∧ RightOrdered above.hi r ∧
        BTree.Ordered (frame page l ka r above).lo (key kb) a ∧
        BTree.Ordered (key kb) (frame page l ka r above).hi b := by
  have lo : (frame page l ka ((kb, b) :: r) above).lo = (frame page l ka r above).lo := by
    cases l <;> rfl
  change BTree.Ordered (d := d + 1) above.lo above.hi ⟨page, l ++ (ka, a) :: ((kb, b) :: r)⟩ ↔ _
  rw [ordered_slots, lo]
  change _ ∧ Between _ _ _ _ _ ∧ BTree.Ordered _ (key kb) a ↔ _
  rw [between_hole page l ka]
  tauto

/-- The sizes around two neighbours, of which one may be too small. -/
theorem Beside.sized (h : c.Beside t page l ka a kb b r above) (sized : c.Sized n)
    (below : t.Below n) : (∀ x ∈ l ++ r, BTree.Sized n x.2) ∧ a.Below n ∧ b.Below n ∧
      (maxSize n d / 2 ≤ a.size ∨ maxSize n d / 2 ≤ b.size) ∧ above.Sized n ∧
      above.minSize n ≤ l.length + (r.length + 1) + 1 ∧
      l.length + (r.length + 1) + 1 ≤ n.internalMax := by
  obtain ⟨rfl, rfl, rfl⟩ | ⟨rfl, rfl⟩ := h
  · obtain ⟨least, most, sides, sizedAbove⟩ := sized
    obtain ⟨leastB, -, belowB⟩ := sized_iff.1 (sides (kb, b) (by simp))
    refine ⟨fun x hx => sides x (by simpa using .inr hx), below, belowB, .inr leastB, sizedAbove, ?_, ?_⟩
    · simpa using least
    · simpa using most
  · obtain ⟨least, most, sides, sizedAbove⟩ := sized
    obtain ⟨leastA, -, belowA⟩ := sized_iff.1 (sides (ka, a) (by simp))
    refine ⟨fun x hx => sides x ?_, belowA, below, .inl leastA, sizedAbove, ?_, ?_⟩
    · simp only [List.mem_append] at hx ⊢
      exact hx.imp_left .inl
    · simp at least
      omega
    · simp at most
      omega

/-- Other subtrees with the same bindings in the place of two neighbours. -/
theorem Beside.relinks {mid : List (K × BTree K V d)} (h : c.Beside t page l ka a kb b r above)
    (same : Relinks (a.leaves ++ b.leaves) (slotLeaves mid)) :
    Relinks (c.plug t).2.leaves (above.plug (d := d + 1) ⟨page, l ++ (mid ++ r)⟩).2.leaves := by
  rw [h.plug_eq, leaves_plug, leaves_plug, leaves_inner, leaves_inner]
  have inner := same.around (slotLeaves l) (slotLeaves r)
  have old : slotLeaves (l ++ ([(ka, a), (kb, b)] ++ r)) =
      slotLeaves l ++ (a.leaves ++ b.leaves) ++ slotLeaves r := by simp
  have new : slotLeaves (l ++ (mid ++ r)) = slotLeaves l ++ slotLeaves mid ++ slotLeaves r := by simp
  rw [← old, ← new] at inner
  exact inner.around above.before above.after

theorem below_window {mid : List (K × BTree K V d)} (sides : ∀ x ∈ l ++ r, BTree.Sized n x.2)
    (inner : ∀ x ∈ mid, BTree.Sized n x.2) :
    BTree.Below n (d := d + 1) ⟨page, l ++ (mid ++ r)⟩ := by
  intro x hx
  simp only [List.mem_append] at hx sides
  obtain hx | hx | hx := hx
  · exact sides x (.inl hx)
  · exact inner x hx
  · exact sides x (.inr hx)

variable [LinearOrder K]

/-- Two neighbours are merged. -/
theorem Beside.merged (h : c.Beside t page l ka a kb b r above) (sized : c.Sized n)
    (below : t.Below n) (order : BTree.Ordered ⊥ ⊤ (c.plug t).2)
    (fits : a.size + b.size ≤ maxSize n d) :
    above.Sized n ∧ BTree.Below n (d := d + 1) ⟨page, l ++ ([(ka, merge kb a b)] ++ r)⟩ ∧
      above.minSize n ≤ l.length + (r.length + 1) + 1 ∧
      l.length + (r.length + 1) + 1 ≤ n.internalMax ∧
      BTree.Ordered ⊥ ⊤ (above.plug (d := d + 1) ⟨page, l ++ ([(ka, merge kb a b)] ++ r)⟩).2 ∧
      Relinks (c.plug t).2.leaves
        (above.plug (d := d + 1) ⟨page, l ++ ([(ka, merge kb a b)] ++ r)⟩).2.leaves := by
  obtain ⟨sides, belowA, belowB, least, sizedAbove, leastP, mostP⟩ := h.sized sized below
  rw [h.plug_eq, ordered_plug, ordered_window] at order
  obtain ⟨orderAbove, orderL, orderR, orderA, orderB⟩ := order
  refine ⟨sizedAbove, below_window sides fun x hx => ?_, leastP, mostP, ?_, h.relinks ?_⟩
  · rw [List.mem_singleton.1 hx]
    refine sized_iff.2 ⟨?_, ?_, below_merge kb belowA belowB⟩
    · rw [size_merge]
      omega
    · rw [size_merge]
      exact fits
  · exact (ordered_plug _ _).2 ⟨orderAbove, ordered_slots.2 ⟨orderL, orderR, ordered_merge orderA orderB⟩⟩
  · have relinks := relinks_merge kb a b
    simpa using relinks

/-- Two neighbours exchange entries. -/
theorem Beside.shifted {a' b' : BTree K V d} {k : K} (h : c.Beside t page l ka a kb b r above)
    (sized : c.Sized n) (below : t.Below n) (order : BTree.Ordered ⊥ ⊤ (c.plug t).2)
    (sizedA : BTree.Sized n a') (sizedB : BTree.Sized n b')
    (orders : ∀ lo hi, BTree.Ordered lo (key kb) a → BTree.Ordered (key kb) hi b →
      BTree.Ordered lo (key k) a' ∧ BTree.Ordered (key k) hi b')
    (same : Relinks (a.leaves ++ b.leaves) (a'.leaves ++ b'.leaves)) :
    (above.plug (d := d + 1) ⟨page, l ++ ([(ka, a'), (k, b')] ++ r)⟩).2.RootSized n ∧
      BTree.Ordered ⊥ ⊤ (above.plug (d := d + 1) ⟨page, l ++ ([(ka, a'), (k, b')] ++ r)⟩).2 ∧
      Relinks (c.plug t).2.leaves
        (above.plug (d := d + 1) ⟨page, l ++ ([(ka, a'), (k, b')] ++ r)⟩).2.leaves := by
  obtain ⟨sides, -, -, -, sizedAbove, leastP, mostP⟩ := h.sized sized below
  rw [h.plug_eq, ordered_plug, ordered_window] at order
  obtain ⟨orderAbove, orderL, orderR, orderA, orderB⟩ := order
  have size : BTree.size (d := d + 1) ⟨page, l ++ ([(ka, a'), (k, b')] ++ r)⟩ =
      l.length + (r.length + 1) + 1 := by
    simp [BTree.size]
    omega
  refine ⟨rootSized_plug.2 ⟨sizedAbove, size ▸ leastP, size ▸ mostP, below_window sides ?_⟩,
    (ordered_plug _ _).2 ⟨orderAbove, ordered_window.2 ⟨orderL, orderR, orders _ _ orderA orderB⟩⟩,
    h.relinks (by simpa using same)⟩
  simp only [List.mem_cons, List.not_mem_nil, or_false]
  rintro x (rfl | rfl)
  · exact sizedA
  · exact sizedB

end Window

variable [LinearOrder K] {n : KeySize}

/-- What the way up makes of a tree with a node that is too small. -/
theorem Shrinks.spec {d : ℕ} {c : Context K V d} {t : BTree K V d}
    {result : Option (Σ h, BTree K V h)} (h : c.Shrinks n t result) : c.Sized n → t.Below n →
    c.minSize n ≤ t.size + 1 → t.size ≤ c.minSize n → (d = 0 → t.size < c.minSize n) →
    BTree.Ordered ⊥ ⊤ (c.plug t).2 → ∃ u, result = some u ∧ u.2.RootSized n ∧
      BTree.Ordered ⊥ ⊤ u.2 ∧ Relinks (c.plug t).2.leaves u.2.leaves := by
  induction h with
  | emptied t =>
    intro _ _ _ _ small order
    have := List.length_pos_of_ne_nil order.1
    exact absurd (small rfl) (not_lt.2 this)
  | @kept d t large =>
    intro _ below _ most _ order
    have six := n.six_le_internalMax
    have most : t.size ≤ 2 := most
    exact ⟨_, rfl, rootSized_iff.2 ⟨large, by show t.size ≤ n.internalMax; omega, below⟩, order,
      Relinks.refl _⟩
  | @collapsed d page k t =>
    intro _ below _ _ _ order
    obtain ⟨least, most, inner⟩ := sized_iff.1 (below (k, t) List.mem_cons_self)
    have same : BTree.leaves (d := d + 1) ⟨page, [(k, t)]⟩ = t.leaves := by
      rw [leaves_inner]
      simp
    have root : rootMin d ≤ maxSize n d / 2 := by
      have := BPlusTree.five_le_maxSize n d
      cases d <;> simp only [rootMin] <;> omega
    refine ⟨_, rfl, rootSized_iff.2 ⟨root.trans least, most, inner⟩, (ordered_cons.1 order).2, ?_⟩
    rw [plug, same]
    exact Relinks.refl _
  | @merged d c t page l r ka kb a b above beside fits large =>
    intro sized below _ _ _ order
    obtain ⟨sizedAbove, belowP, -, mostP, orderP, relinks⟩ := beside.merged sized below order fits
    have size : BTree.size (d := d + 1) ⟨page, l ++ ([(ka, merge kb a b)] ++ r)⟩ =
        l.length + (r.length + 1) := by simp [BTree.size]
    refine ⟨_, rfl, rootSized_plug.2 ⟨sizedAbove, ?_, ?_, belowP⟩, orderP, relinks⟩
    · rw [size]
      exact large.le
    · rw [size]
      exact (Nat.le_succ _).trans mostP
  | @mergedUp d c t page l r ka kb a b above result beside fits small rest ih =>
    intro sized below _ _ _ order
    obtain ⟨sizedAbove, belowP, leastP, -, orderP, relinks⟩ := beside.merged sized below order fits
    have size : BTree.size (d := d + 1) ⟨page, l ++ ([(ka, merge kb a b)] ++ r)⟩ =
        l.length + (r.length + 1) := by simp [BTree.size]
    obtain ⟨u, rfl, sizedU, orderU, relinksU⟩ := ih sizedAbove belowP (size ▸ leastP) (size ▸ small)
      (fun e => absurd e (Nat.succ_ne_zero _)) orderP
    exact ⟨u, rfl, sizedU, orderU, relinks.trans relinksU⟩
  | @movedFirst d page r ka kb k a b above full first =>
    intro sized below least most _ order
    have beside : (frame page [] ka ((kb, b) :: r) above).Beside a page [] ka a kb b r above :=
      .inl ⟨rfl, rfl, rfl⟩
    obtain ⟨leastB, mostB, belowB⟩ := sized_iff.1 (sized.2.2.1 (kb, b) (by simp))
    obtain ⟨belowA', belowB'⟩ := below_shiftLeft below belowB
    have least : maxSize n d / 2 ≤ a.size + 1 := least
    have most : a.size ≤ maxSize n d / 2 := most
    have five := BPlusTree.five_le_maxSize n d
    have leastB : maxSize n d / 2 ≤ b.size := leastB
    have mostB : b.size ≤ maxSize n d := mostB
    obtain ⟨sizeA, sizeB⟩ := size_shiftLeft (a := a) (b := b) (by omega)
    exact ⟨_, rfl, beside.shifted sized below order (sized_iff.2 ⟨by omega, by omega, belowA'⟩)
      (sized_iff.2 ⟨by omega, by omega, belowB'⟩) (fun _ _ ha hb => ordered_shiftLeft ha hb first)
      (relinks_shiftLeft a b)⟩
  | @movedLast d page l r ka kb k a b above full first =>
    intro sized below least most _ order
    have beside : (frame page (l ++ [(ka, a)]) kb r above).Beside b page l ka a kb b r above :=
      .inr ⟨rfl, rfl⟩
    obtain ⟨leastA, mostA, belowA⟩ := sized_iff.1 (sized.2.2.1 (ka, a) (by simp))
    obtain ⟨belowA', belowB'⟩ := below_shiftRight belowA below
    have least : maxSize n d / 2 ≤ b.size + 1 := least
    have most : b.size ≤ maxSize n d / 2 := most
    have five := BPlusTree.five_le_maxSize n d
    have leastA : maxSize n d / 2 ≤ a.size := leastA
    have mostA : a.size ≤ maxSize n d := mostA
    obtain ⟨sizeA, sizeB⟩ := size_shiftRight (a := a) (b := b) (by omega)
    exact ⟨_, rfl, beside.shifted sized below order (sized_iff.2 ⟨by omega, by omega, belowA'⟩)
      (sized_iff.2 ⟨by omega, by omega, belowB'⟩)
      (fun _ _ ha hb => ordered_shiftRight ha hb (by omega) first) (relinks_shiftRight a b)⟩

end Context

/-! ## The tree after a removal -/

theorem Context.Shrinks.of_root {n : KeySize} {t : LeafNode K V}
    {result : Option (Σ h, BTree K V h)} (h : Shrinks n (d := 0) top t result) : result = none := by
  cases h with
  | emptied => rfl
  | merged beside => rcases beside with ⟨-, h, -⟩ | ⟨h, -⟩ <;> cases h
  | mergedUp beside => rcases beside with ⟨-, h, -⟩ | ⟨h, -⟩ <;> cases h

theorem Context.minSize_pos (n : KeySize) : {d : ℕ} → (c : Context K V d) → 0 < c.minSize n
  | 0, top => Nat.one_pos
  | _ + 1, top => Nat.two_pos
  | d, frame _ _ _ _ _ => by
    have := BPlusTree.five_le_maxSize n d
    show 0 < maxSize n d / 2
    omega

section RemoveTree

variable [LinearOrder K] {tree : BPlusTree K} {k : K} {leaf : LeafNode K V} {d : ℕ}
  {t : BTree K V d} {c : Context K V 0} {result : Option (Σ h, BTree K V h)}

/-- Only the leaf of the key can bind it. -/
theorem Context.Covers.filter_bindings (covers : c.Covers k) (wf : BTree.Ordered ⊥ ⊤ t)
    (plug : c.plug leaf = ⟨d, t⟩) : t.bindings.filter (fun e => e.1 ≠ k) =
      c.before.flatMap LeafNode.entries ++ (leaf.entries.filter (fun e => e.1 ≠ k) ++
        c.after.flatMap LeafNode.entries) := by
  obtain ⟨order, -⟩ := c.ordered_leaf wf plug
  have keepL : (c.before.flatMap LeafNode.entries).filter (fun e => e.1 ≠ k) =
      c.before.flatMap LeafNode.entries := List.filter_eq_self.2 fun e he => by
    have := (order.before_lt e he).trans_le covers.1
    simpa using (key_lt_key.1 this).ne
  have keepR : (c.after.flatMap LeafNode.entries).filter (fun e => e.1 ≠ k) =
      c.after.flatMap LeafNode.entries := List.filter_eq_self.2 fun e he => by
    have := covers.2.trans_le (order.le_after e he)
    simpa using (key_lt_key.1 this).ne'
  rw [c.bindings_eq plug, List.filter_append, List.filter_append, keepL, keepR]

/-- The tree after a removal is empty or well-formed, and no longer binds the key. -/
theorem BPlusTree.removeTree_spec (orders : Orders tree.comparator) (wf : t.WellFormed tree.keySize)
    (plug : c.plug leaf = ⟨d, t⟩) (covers : c.Covers k) (h : tree.RemoveTree k c leaf result) :
    (∀ u, result = some u → u.2.WellFormed tree.keySize) ∧
      contents result = t.bindings.filter fun e => e.1 ≠ k := by
  obtain ⟨sized, order, here, least, most⟩ := wf.around plug
  have entries := LeafNode.entries_erased (k := k) orders here.2.1
  obtain ⟨length, length'⟩ := LeafNode.length_erased tree.comparator k leaf
  have filter := covers.filter_bindings wf.ordered plug
  rw [← entries] at filter
  simp only [BPlusTree.RemoveTree] at h
  have next := leaf.next_erased tree.comparator k
  have id := leaf.id_erased tree.comparator k
  set leaf' := leaf.erased tree.comparator k with hleaf'
  have bindings : (c.plug leaf').2.bindings = t.bindings.filter fun e => e.1 ≠ k := by
    rw [filter, BTree.bindings, leaves_plug]
    simp [leaves]
  have chained : Chained invalidPageId (c.plug leaf').2.leaves := by
    have old := wf.chained
    rw [c.leaves_eq plug, ← List.singleton_append, ← List.append_assoc] at old
    rw [leaves_plug]
    exact chained_replace old (fun _ => id) fun q hq => ⟨next.trans hq.1, trivial⟩
  have ordered (ne : leaf'.entries ≠ []) : BTree.Ordered ⊥ ⊤ (c.plug leaf').2 := by
    refine (ordered_plug c leaf').2 ⟨order, ne, ?_, fun e he => ?_⟩
    · rw [entries]
      exact here.2.1.sublist (List.filter_sublist.map _)
    · change e ∈ leaf'.entries at he
      rw [entries] at he
      exact here.2.2 e (List.mem_filter.1 he).1
  by_cases small : leaf'.entries.length < c.minSize tree.keySize
  · rw [if_pos small] at h
    rcases hc : leaf'.entries with _ | ⟨x, rest⟩
    · -- only the root can be that small
      have short : leaf.entries.length ≤ 1 := by simpa [hc] using length
      cases c with
      | top =>
        obtain rfl := h.of_root
        refine ⟨fun _ e => absurd e.symm (Option.some_ne_none _), ?_⟩
        rw [← bindings, BTree.bindings, leaves_plug]
        simp [before, after, leaves, hc, contents, leafChain]
      | frame =>
        have least : tree.keySize.leafMax / 2 ≤ leaf.entries.length := least
        have five := tree.keySize.five_le_leafMax
        omega
    · obtain ⟨u, rfl, sizedU, orderU, relinks⟩ := h.spec sized trivial (least.trans length) small.le
        (fun _ => small) (ordered (by simp [hc]))
      refine ⟨fun _ e => ?_, relinks.entries.trans bindings⟩
      obtain rfl := Option.some.inj e
      exact ⟨sizedU, orderU, relinks.chained _ chained⟩
  · rw [if_neg small] at h
    subst h
    refine ⟨fun _ e => ?_, bindings⟩
    obtain rfl := Option.some.inj e
    have ne : leaf'.entries ≠ [] :=
      List.ne_nil_of_length_pos ((c.minSize_pos tree.keySize).trans_le (not_lt.1 small))
    exact ⟨rootSized_plug.2 ⟨sized, not_lt.1 small, length'.trans most, trivial⟩, ordered ne, chained⟩

end RemoveTree

end ScuDb
