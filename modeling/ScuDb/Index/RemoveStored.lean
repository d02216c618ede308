import ScuDb.Index.InsertStored
import ScuDb.Index.ShrunkTree

/-!
# Remove from a well-formed tree

`Remove` raises nothing, and leaves the empty tree or a well-formed one with the other bindings.
-/

namespace ScuDb

open Program Separators BTree Context

variable {K V : Type} [LinearOrder K]

namespace BPlusTree

variable {tree : BPlusTree K} {v : View K V} {s : TreeState K V} {k : K} {d : ℕ} {t : BTree K V d}

/-- `Remove` of an empty tree returns at once. -/
theorem Stored.remove_empty (h : Stored tree v s none) {E : Fault → TreeState K V → Prop} :
    Spec (tree.remove k true) s (fun _ s' => s' = s) E := by
  refine Spec.bind_eq (a := s) (t := s) rfl ?_
  rw [if_pos (h.state.root.trans h.stores)]
  apply spec_pure
  rfl

/-- What `Remove` does to a well-formed tree while others may hold some of its pages, and what
`DeletePage` returned meanwhile. -/
theorem At.remove_stores (orders : Orders tree.comparator) (h : At tree v s) (w : v.Writing)
    (rest : v.AtRest) (stores : v.Stores tree.keySize (some ⟨d, t⟩)) (k : K)
    {E : Fault → TreeState K V → Prop} (waits : ∀ p, v.Waits E p) :
    ∃ (c : Context K V 0) (leaf : LeafNode K V), c.plug leaf = ⟨d, t⟩ ∧ c.Covers k ∧
    Focus tree.keySize v (d := 0) c leaf ∧
    Spec (tree.remove k true) s (fun _ s' => ∃ v' r results, At tree v' s' ∧
      v'.Stores tree.keySize r ∧ v.Reaches tree k c leaf ∧ tree.RemoveTree k c leaf r ∧
      contents r = (t.bindings.filter fun e => e.1 ≠ k) ∧ v.DeletedFrom t.ids results ∧
      View.Settled { v with deletions := results ++ v.deletions } v' ∧
      (v'.root = v.root ∧ v'.recorded = v.recorded ∨ v'.recorded = v.recorded.map fun _ => v'.root))
      E := by
  obtain ⟨root, focus, wf⟩ := stores
  obtain ⟨c, leaf, loc, covers⟩ :=
    exists_locate_covers orders (c := top) (k := k) wf.ordered ⟨bot_le, key_lt_top⟩
  have plug := plug_of_locate loc
  refine ⟨c, leaf, plug, covers, focus_of_locate focus loc, ?_⟩
  apply (h.remove_rule w rest root focus wf.sized loc waits).post
  rintro _ s' ⟨v', r, results, h', reaches, deleted, settled, removed, recorded, pages⟩
  obtain ⟨wf', binds⟩ := removeTree_spec orders wf plug covers removed
  refine ⟨v', r, results, h', ?_, reaches, removed, binds, deleted, settled, recorded⟩
  cases r with
  | none => exact pages
  | some u => exact ⟨pages.1, pages.2, wf' u rfl⟩

/-- What `Remove` does to a well-formed tree that nobody works on. -/
theorem Stored.remove_leaf (orders : Orders tree.comparator) (h : Stored tree v s (some ⟨d, t⟩))
    (ex : v.exclusive = true) (k : K) {E : Fault → TreeState K V → Prop} :
    ∃ (c : Context K V 0) (leaf : LeafNode K V), c.plug leaf = ⟨d, t⟩ ∧ c.Covers k ∧
    Focus tree.keySize v (d := 0) c leaf ∧
    Spec (tree.remove k true) s (fun _ s' => ∃ v' r results, Stored tree v' s' r ∧
      tree.RemoveTree k c leaf r ∧ contents r = (t.bindings.filter fun e => e.1 ≠ k) ∧
      v.DeletedFrom t.ids results ∧
      View.Settled { v with deletions := results ++ v.deletions } v' ∧
      (v'.root = v.root ∧ v'.recorded = v.recorded ∨ v'.recorded = v.recorded.map fun _ => v'.root))
      E := by
  obtain ⟨c, leaf, plug, covers, focus, rule⟩ := h.state.remove_stores orders (h.writing ex) h.rest
    h.stores k fun p => View.waits_of_free (h.free p)
  refine ⟨c, leaf, plug, covers, focus, rule.post ?_⟩
  rintro _ s' ⟨v', r, results, h', stores, -, removed, binds, deleted, settled, recorded⟩
  refine ⟨v', r, results, ⟨h', settled.rest, stores, fun p => ?_⟩, removed, binds, deleted, settled,
    recorded⟩
  rw [settled.base]
  exact h.free p

/-- What `Remove` does to the bindings, and what `DeletePage` returned meanwhile. -/
theorem Stored.remove_rule (orders : Orders tree.comparator) (h : Stored tree v s (some ⟨d, t⟩))
    (ex : v.exclusive = true) (k : K) {E : Fault → TreeState K V → Prop} :
    Spec (tree.remove k true) s (fun _ s' => ∃ v' r results, Stored tree v' s' r ∧
      contents r = (t.bindings.filter fun e => e.1 ≠ k) ∧ v.DeletedFrom t.ids results ∧
      View.Settled { v with deletions := results ++ v.deletions } v' ∧
      (v'.root = v.root ∧ v'.recorded = v.recorded ∨ v'.recorded = v.recorded.map fun _ => v'.root))
      E := by
  obtain ⟨c, leaf, -, -, -, rule⟩ := h.remove_leaf orders ex k
  apply rule.post
  rintro _ s' ⟨v', r, results, stored, -, rest⟩
  exact ⟨v', r, results, stored, rest⟩

/-- `Remove` of any key ends without an error, and what it leaves is empty or well-formed and holds
the old bindings without the key. -/
theorem remove_stored (orders : Orders tree.comparator) (h : Stored tree v s (some ⟨d, t⟩)) (k : K) :
    Spec (tree.remove k true) s (fun _ s' => ∃ v' r, Stored tree v' s' r ∧
      contents r = t.bindings.filter fun e => e.1 ≠ k) fun _ _ => False := by
  apply ((h.exclusive true).remove_rule orders rfl k).post
  rintro _ s' ⟨v', r, -, stored, binds, -⟩
  exact ⟨v', r, stored, binds⟩

/-- The first of three leaves is left with too few entries. -/
theorem remove_stored_threeLeaves : Spec (ofWideInts.remove 1 true) threeLeavesState
    (fun _ s' => ∃ v' r, Stored ofWideInts v' s' r ∧ contents r =
      [row 2, row 5, row 6, row 7, row 10, row 11, row 12, row 13, row 14]) fun _ _ => False := by
  obtain ⟨v, stored⟩ := stored_threeLeaves
  apply (remove_stored orders_ofWideInts stored 1).post
  rintro _ s' ⟨v', r, stored', binds⟩
  refine ⟨v', r, stored', binds.trans ?_⟩
  simp [threeLeaves, firstLeaf, middleLeaf, lastLeaf, BTree.bindings, leaves, row]

end BPlusTree

end ScuDb
