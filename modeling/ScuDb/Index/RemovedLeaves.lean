import ScuDb.Index.ShrunkTree

/-!
# The leaf chain after a removal

A removal changes the leaf of the key, and its sibling if that leaf becomes too small; the other leaves
stay as they are.  So the entries from some leaf on stay together, apart from the key, unless that leaf
is the right one of two neighbours that are merged or exchange entries.
-/

namespace ScuDb

open Separators BTree Context

variable {K V : Type}

namespace BTree

/-- Where an element of a list in three parts is. -/
theorem split_cases {α : Type} {l m r x y : List α} {a : α} (h : l ++ m ++ r = x ++ a :: y) :
    (∃ z, l = x ++ a :: z ∧ y = z ++ m ++ r) ∨
      (∃ i j, m = i ++ a :: j ∧ x = l ++ i ∧ y = j ++ r) ∨
      ∃ i, r = i ++ a :: y ∧ x = l ++ m ++ i := by
  obtain ⟨i, hx, hr⟩ | ⟨z, hm, hy⟩ := List.append_eq_append_iff.1 h
  · exact .inr (.inr ⟨i, hr, hx⟩)
  · cases z with
    | nil => exact .inr (.inr ⟨[], by simpa using hy.symm, by simpa using hm.symm⟩)
    | cons b z =>
      obtain ⟨rfl, rfl⟩ := List.cons.inj hy
      obtain ⟨i, hx, hm'⟩ | ⟨z', hl, hz⟩ := List.append_eq_append_iff.1 hm
      · exact .inr (.inl ⟨i, z, hm', hx, rfl⟩)
      · cases z' with
        | nil => exact .inr (.inl ⟨[], z, by simpa using hz.symm, by simpa using hl.symm, rfl⟩)
        | cons b z' =>
          obtain ⟨rfl, rfl⟩ := List.cons.inj hz
          exact .inl ⟨z', hl, rfl⟩

/-- The first page stays. -/
theorem Relinks.cons {x : LeafNode K V} {rest new : List (LeafNode K V)}
    (h : Relinks (x :: rest) new) : ∃ y rest', new = y :: rest' ∧ y.id = x.id := by
  cases new with
  | nil =>
    have same : x.id + 1 = x.id := h.first (x.id + 1)
    exact absurd same (Int.lt_succ x.id).ne'
  | cons y rest' => exact ⟨y, rest', rfl, h.first 0⟩

/-- Behind a leaf that is not inside the leaves that are linked anew, the entries stay. -/
theorem Relinks.behind {l old new r x y : List (LeafNode K V)} {leaf : LeafNode K V}
    (h : Relinks old new) (split : l ++ old ++ r = x ++ leaf :: y)
    (first : ∀ i j, old = i ++ leaf :: j → i = []) :
    ∃ x' leaf' y', l ++ new ++ r = x' ++ leaf' :: y' ∧ leaf'.id = leaf.id ∧ (x ≠ [] → x' ≠ []) ∧
      (leaf' :: y').flatMap LeafNode.entries = (leaf :: y).flatMap LeafNode.entries ∧
      (leaf ∉ old → leaf' = leaf) := by
  obtain ⟨z, rfl, rfl⟩ | ⟨i, j, rfl, rfl, rfl⟩ | ⟨i, rfl, rfl⟩ := split_cases split
  · refine ⟨x, leaf, z ++ new ++ r, by simp, rfl, id, ?_, fun _ => rfl⟩
    simp only [List.flatMap_cons, List.flatMap_append, h.entries]
  · obtain rfl := first i j rfl
    obtain ⟨leaf', y', rfl, id⟩ := h.cons
    refine ⟨l, leaf', y' ++ r, by simp, id, by simp, ?_, by simp⟩
    have entries := h.entries
    simp only [List.nil_append, List.flatMap_cons, List.flatMap_append, ← List.append_assoc] at entries ⊢
    rw [entries]
  · refine ⟨l ++ new ++ i, leaf, y, by simp, rfl, fun some => ?_, rfl, fun _ => rfl⟩
    rintro none
    simp only [List.append_eq_nil_iff] at none
    obtain ⟨⟨rfl, rfl⟩, rfl⟩ := none
    cases old with
    | nil => simp at some
    | cons a rest =>
      obtain ⟨b, rest', e, -⟩ := h.cons
      cases e

end BTree

namespace LeafNode

variable [DecidableEq K]

/-- The leaf without a key. -/
def without (key : K) (leaf : LeafNode K V) : LeafNode K V :=
  { leaf with entries := leaf.entries.filter fun e => e.1 ≠ key }

theorem without_of_absent {key : K} {leaf : LeafNode K V}
    (absent : leaf.entries.filter (fun e => e.1 ≠ key) = leaf.entries) : leaf.without key = leaf := by
  rw [without, absent]

theorem entries_map_without (key : K) (leaves : List (LeafNode K V)) :
    (leaves.map (without key)).flatMap entries =
      (leaves.flatMap entries).filter fun e => e.1 ≠ key := by
  induction leaves with
  | nil => rfl
  | cons leaf leaves ih =>
    rw [List.map_cons, List.flatMap_cons, ih, List.flatMap_cons, List.filter_append]
    rfl

end LeafNode

namespace Context

variable {n : KeySize}

theorem slotLeaves_one {d : ℕ} (k : K) (t : BTree K V d) : slotLeaves [(k, t)] = t.leaves := by
  rw [slotLeaves_cons, slotLeaves_nil, List.append_nil]

theorem slotLeaves_pair {d : ℕ} (j k : K) (a b : BTree K V d) :
    slotLeaves [(j, a), (k, b)] = a.leaves ++ b.leaves := by
  rw [slotLeaves_cons, slotLeaves_one]

theorem leaves_window {d : ℕ} {page : PageId} {l mid r : List (K × BTree K V d)}
    {above : Context K V (d + 1)} :
    (above.plug (d := d + 1) ⟨page, l ++ (mid ++ r)⟩).2.leaves =
      above.before ++ slotLeaves l ++ slotLeaves mid ++ (slotLeaves r ++ above.after) := by
  rw [leaves_plug, leaves_inner]
  simp

/-- Above the leaves nothing happens to the chain. -/
theorem Shrinks.leaves_eq {d : ℕ} {c : Context K V d} {t : BTree K V d}
    {result : Option (Σ h, BTree K V h)} (h : c.Shrinks n t result) : 0 < d →
    ∃ u, result = some u ∧ u.2.leaves = (c.plug t).2.leaves := by
  induction h with
  | emptied t => exact fun pos => absurd pos (lt_irrefl 0)
  | kept t large => exact fun _ => ⟨_, rfl, rfl⟩
  | collapsed page k t =>
    refine fun _ => ⟨_, rfl, ?_⟩
    rw [plug, leaves_inner]
    simp
  | @merged d c t page l r ka kb a b above beside fits large =>
    intro pos
    obtain ⟨d, rfl⟩ : ∃ k, d = k + 1 := ⟨d - 1, by omega⟩
    refine ⟨_, rfl, ?_⟩
    rw [beside.plug_eq, leaves_window, leaves_window]
    rw [slotLeaves_one, slotLeaves_pair, leaves_merge]
  | @mergedUp d c t page l r ka kb a b above result beside fits small rest ih =>
    intro pos
    obtain ⟨d, rfl⟩ : ∃ k, d = k + 1 := ⟨d - 1, by omega⟩
    obtain ⟨u, some, same⟩ := ih (Nat.succ_pos _)
    refine ⟨u, some, same.trans ?_⟩
    rw [beside.plug_eq, leaves_window, leaves_window]
    rw [slotLeaves_one, slotLeaves_pair, leaves_merge]
  | @movedFirst d page r ka kb k a b above full first =>
    intro pos
    obtain ⟨d, rfl⟩ : ∃ k, d = k + 1 := ⟨d - 1, by omega⟩
    have beside : (frame page [] ka ((kb, b) :: r) above).Beside a page [] ka a kb b r above :=
      .inl ⟨rfl, rfl, rfl⟩
    refine ⟨_, rfl, ?_⟩
    rw [beside.plug_eq, leaves_window, leaves_window]
    rw [slotLeaves_pair, slotLeaves_pair, leaves_shiftLeft]
  | @movedLast d page l r ka kb k a b above full first =>
    intro pos
    obtain ⟨d, rfl⟩ : ∃ k, d = k + 1 := ⟨d - 1, by omega⟩
    have beside : (frame page (l ++ [(ka, a)]) kb r above).Beside b page l ka a kb b r above :=
      .inr ⟨rfl, rfl⟩
    refine ⟨_, rfl, ?_⟩
    rw [beside.plug_eq, leaves_window, leaves_window]
    rw [slotLeaves_pair, slotLeaves_pair, leaves_shiftRight]

/-- The other neighbour is the sibling. -/
theorem Beside.sibling_eq {d : ℕ} {c : Context K V d} {t : BTree K V d} {page : PageId}
    {l r : List (K × BTree K V d)} {ka kb : K} {a b : BTree K V d} {above : Context K V (d + 1)}
    (h : c.Beside t page l ka a kb b r above) :
    t = a ∧ c.sibling = some b ∨ t = b ∧ c.sibling = some a := by
  obtain ⟨rfl, rfl, rfl⟩ | ⟨rfl, rfl⟩ := h
  · exact .inl ⟨rfl, rfl⟩
  · exact .inr ⟨rfl, by simp [sibling]⟩

variable {c : Context K V 0} {leaf : LeafNode K V} {result : Option (Σ h, BTree K V h)}

/-- A leaf that is too small was the only one, or two neighbours are linked anew. -/
theorem Shrinks.leafChain_cases (h : c.Shrinks n (d := 0) leaf result) : (c = top ∧ result = none) ∨
    ∃ (page : PageId) (l r : List (K × BTree K V 0)) (ka kb : K) (a b : LeafNode K V)
      (above : Context K V 1) (new : List (LeafNode K V)),
      c.Beside (d := 0) leaf page l ka a kb b r above ∧ Relinks [a, b] new ∧
      leafChain result = above.before ++ slotLeaves l ++ new ++ (slotLeaves r ++ above.after) := by
  cases h with
  | emptied => exact .inl ⟨rfl, rfl⟩
  | @merged _ _ _ page l r ka kb a b above beside fits large =>
    refine .inr ⟨page, l, r, ka, kb, a, b, above, _, beside, relinks_merge kb a b, ?_⟩
    rw [leafChain, leaves_window, slotLeaves_one]
  | @mergedUp _ _ _ page l r ka kb a b above _ beside fits small rest =>
    obtain ⟨u, rfl, same⟩ := rest.leaves_eq Nat.one_pos
    refine .inr ⟨page, l, r, ka, kb, a, b, above, _, beside, relinks_merge kb a b, ?_⟩
    rw [leafChain, same, leaves_window, slotLeaves_one]
  | @movedFirst _ page r ka kb k _ b above full first =>
    refine .inr ⟨page, [], r, ka, kb, leaf, b, above, _, .inl ⟨rfl, rfl, rfl⟩,
      relinks_shiftLeft (d := 0) leaf b, ?_⟩
    rw [leafChain, leaves_window, slotLeaves_pair]
  | @movedLast _ page l r ka kb k a _ above full first =>
    refine .inr ⟨page, l, r, ka, kb, a, leaf, above, _, .inr ⟨rfl, rfl⟩,
      relinks_shiftRight (d := 0) a leaf, ?_⟩
    rw [leafChain, leaves_window, slotLeaves_pair]

/-- The leaf in the hole is too small, and `p` is the right one of it and its sibling. -/
def Crosses (n : KeySize) (c : Context K V 0) (leaf : LeafNode K V) (p : PageId) : Prop :=
  leaf.entries.length < c.minSize n ∧
    ∃ (page : PageId) (l r : List (K × BTree K V 0)) (ka kb : K) (a b : LeafNode K V)
      (above : Context K V 1), c.Beside (d := 0) leaf page l ka a kb b r above ∧ b.id = p

end Context

namespace BPlusTree

variable [LinearOrder K] {tree : BPlusTree K} {k : K} {leaf : LeafNode K V} {d : ℕ}
  {t : BTree K V d} {c : Context K V 0} {result : Option (Σ h, BTree K V h)}

/-- Only the leaf of the key changes when the key is taken out. -/
theorem leaves_erased (orders : Orders tree.comparator) (wf : t.WellFormed tree.keySize)
    (plug : c.plug leaf = ⟨d, t⟩) (covers : c.Covers k) :
    c.before ++ [leaf.erased tree.comparator k] ++ c.after = t.leaves.map (LeafNode.without k) ∧
      ∀ m ∈ t.leaves, m.id ≠ leaf.id → m.without k = m := by
  obtain ⟨-, order, here, -, -⟩ := wf.around plug
  have entries := LeafNode.entries_erased (k := k) orders here.2.1
  have erased : leaf.erased tree.comparator k = leaf.without k := by
    have id := leaf.id_erased tree.comparator k
    have next := leaf.next_erased tree.comparator k
    cases h : leaf.erased tree.comparator k
    rw [h] at entries id next
    simp only at entries id next
    rw [entries, id, next]
    rfl
  have before (m : LeafNode K V) (hm : m ∈ c.before) : m.without k = m := by
    apply LeafNode.without_of_absent
    refine List.filter_eq_self.2 fun e he => ?_
    have := (order.before_lt e (List.mem_flatMap.2 ⟨m, hm, he⟩)).trans_le covers.1
    simpa using (key_lt_key.1 this).ne
  have after (m : LeafNode K V) (hm : m ∈ c.after) : m.without k = m := by
    apply LeafNode.without_of_absent
    refine List.filter_eq_self.2 fun e he => ?_
    have := covers.2.trans_le (order.le_after e (List.mem_flatMap.2 ⟨m, hm, he⟩))
    simpa using (key_lt_key.1 this).ne'
  rw [c.leaves_eq plug]
  constructor
  · rw [List.map_append, List.map_cons, List.map_congr_left before, List.map_congr_left after, erased]
    simp
  · intro m hm other
    obtain hm | hm := List.mem_append.1 hm
    · exact before m hm
    · obtain rfl | hm := List.mem_cons.1 hm
      · exact absurd rfl other
      · exact after m hm

/-- Where the leaf `m` was, the entries from it on are still together, apart from the key, unless `m`
is the right one of two neighbours that are linked anew. -/
theorem RemoveTree.behind (orders : Orders tree.comparator) (wf : t.WellFormed tree.keySize)
    (plug : c.plug leaf = ⟨d, t⟩) (covers : c.Covers k) (h : tree.RemoveTree k c leaf result)
    {l r : List (LeafNode K V)} {m : LeafNode K V} (split : t.leaves = l ++ m :: r)
    (inner : l ≠ [] ∨ m.id ≠ leaf.id)
    (apart : ¬ c.Crosses tree.keySize (leaf.erased tree.comparator k) m.id) :
    ∃ l' m' r', leafChain result = l' ++ m' :: r' ∧ m'.id = m.id ∧ (l ≠ [] → l' ≠ []) ∧
      (m' :: r').flatMap LeafNode.entries =
        ((m :: r).flatMap LeafNode.entries).filter (fun e => e.1 ≠ k) ∧
      (m.id ≠ leaf.id → ((leaf.erased tree.comparator k).entries.length < c.minSize tree.keySize →
        ∀ u ∈ c.sibling, m.id ≠ pageId (d := 0) u) → m' = m) := by
  obtain ⟨erased, same⟩ := leaves_erased orders wf plug covers
  have mem : m ∈ t.leaves := by simp [split]
  rw [split, List.map_append, List.map_cons] at erased
  simp only [RemoveTree] at h
  set leaf' := leaf.erased tree.comparator k with hleaf'
  have id : leaf'.id = leaf.id := leaf.id_erased tree.comparator k
  have unchanged : (m.without k).id = m.id := rfl
  have entries := LeafNode.entries_map_without k (m :: r)
  rw [List.map_cons] at entries
  by_cases small : leaf'.entries.length < c.minSize tree.keySize
  · rw [if_pos small] at h
    obtain ⟨rfl, rfl⟩ | ⟨page, l₁, r₁, ka, kb, a, b, above, new, beside, relinks, chain⟩ :=
      h.leafChain_cases
    · -- the only leaf
      have one : [leaf'] = l.map (LeafNode.without k) ++ m.without k :: r.map (LeafNode.without k) :=
        erased
      cases l with
      | nil =>
        obtain ⟨first, -⟩ := List.cons.inj one
        have other := inner.resolve_left (by simp)
        exact absurd ((congrArg LeafNode.id first).symm.trans id) other
      | cons x l => simp at one
    · have old : c.before ++ [leaf'] ++ c.after =
          above.before ++ slotLeaves l₁ ++ [a, b] ++ (slotLeaves r₁ ++ above.after) := by
        have plugged : (c.plug (d := 0) leaf').2.leaves = _ := leaves_plug c leaf'
        rw [beside.plug_eq, leaves_window, slotLeaves_pair] at plugged
        exact plugged.symm
      rw [old] at erased
      have first (i j : List (LeafNode K V)) (e : [a, b] = i ++ m.without k :: j) : i = [] := by
        cases i with
        | nil => rfl
        | cons x i =>
          obtain ⟨-, e⟩ := List.cons.inj e
          cases i with
          | nil =>
            obtain ⟨e, -⟩ := List.cons.inj e
            exact absurd ⟨small, page, l₁, r₁, ka, kb, a, b, above, beside,
              (congrArg LeafNode.id e).trans unchanged⟩ apart
          | cons y i => simp at e
      obtain ⟨l', m', r', chain', id', ne, entries', keeps⟩ := relinks.behind erased first
      refine ⟨l', m', r', chain.trans chain', id', fun some => ne (by simpa using some),
        entries'.trans entries, fun other sibling => ?_⟩
      -- the leaf is none of the two neighbours
      have out : m.without k ∉ [a, b] := by
        intro inside
        obtain ⟨here, there⟩ | ⟨here, there⟩ := beside.sibling_eq
        · obtain e | e := List.mem_pair.1 inside
          · exact other ((congrArg LeafNode.id (e.trans here.symm)).trans id)
          · exact sibling small b there (unchanged.symm.trans (congrArg LeafNode.id e))
        · obtain e | e := List.mem_pair.1 inside
          · exact sibling small a there (unchanged.symm.trans (congrArg LeafNode.id e))
          · exact other ((congrArg LeafNode.id (e.trans here.symm)).trans id)
      exact (keeps out).trans (same m mem other)
  · rw [if_neg small] at h
    subst h
    refine ⟨l.map (LeafNode.without k), m.without k, r.map (LeafNode.without k), ?_, rfl, by simp,
      entries, fun other _ => same m mem other⟩
    rw [← erased, leafChain, leaves_plug]
    rfl

end BPlusTree

end ScuDb
