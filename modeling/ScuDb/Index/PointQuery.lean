import ScuDb.Index.LeafSearch

/-!
# Point queries

`GetValue` makes room for a value in the vector of its caller before it looks for one, so that the
vector of a key that is not bound gets an element too; a cursor takes it for a row.
-/

namespace ScuDb

open Program BTree Context

variable {K V : Type}

/-! ## Index scans -/

/-- `Cursor`, as far as an index scan uses it. -/
structure IndexCursor (V : Type) where
  results : List V := []
  offset : ℕ := 0

namespace IndexCursor

def isEof (cursor : IndexCursor V) : Bool := cursor.offset = cursor.results.length

def getCurrentRid (cursor : IndexCursor V) : Except Fault V :=
  match cursor.results[cursor.offset]? with
  | some rid => .ok rid
  | none => .error .outOfBounds

/-- `operator++`. -/
def next (cursor : IndexCursor V) : IndexCursor V := { cursor with offset := cursor.offset + 1 }

/-- The record ids the cursor delivers before `isEof`. -/
def rows : ℕ → IndexCursor V → Except Fault (List V)
  | 0, _ => .error .diverges
  | fuel + 1, cursor =>
    if cursor.isEof then .ok []
    else do
      let rid ← cursor.getCurrentRid
      return rid :: (← rows fuel cursor.next)

/-- A cursor delivers the results from its offset on. -/
theorem rows_eq (results : List V) (fuel : ℕ) : ∀ {offset : ℕ}, offset ≤ results.length →
    results.length < offset + fuel →
    rows fuel { results := results, offset := offset } = .ok (results.drop offset) := by
  induction fuel with
  | zero => omega
  | succ fuel ih =>
    intro offset le lt
    by_cases eof : offset = results.length
    · simp [rows, isEof, eof]
    · have inside : offset < results.length := by omega
      have rest := ih (show offset + 1 ≤ results.length by omega) (by omega)
      simp only [rows, isEof, eof, decide_false, Bool.false_eq_true, if_false, getCurrentRid,
        List.getElem?_eq_getElem inside, next]
      rw [rest, List.drop_eq_getElem_cons inside]
      rfl

end IndexCursor

namespace BPlusTree

variable [Inhabited V] (tree : BPlusTree K)

/-- `ScanKey` of the index, into the results of a cursor. -/
def scanKey (cursor : IndexCursor V) (key : K) : TreeM K V (IndexCursor V) := do
  let (_, results) ← tree.getValue key cursor.results false
  return { cursor with results := results }

/-! ## GetValue -/

variable [LinearOrder K] {tree : BPlusTree K} {v : View K V} {s : TreeState K V} {k : K}
  {transaction : Bool}

/-- `GetValue` of an empty tree leaves the vector as it is. -/
theorem Stored.getValue_empty (h : Stored tree v s none) (result : List V) :
    Spec (tree.getValue k result transaction) s
      (fun r s' => r = (false, result) ∧ Stored tree { v with exclusive := false } s' none)
      fun _ _ => False := by
  have h' := h.exclusive false
  refine Spec.bind (h'.state.findLeafPage_empty h'.rest h'.stores rfl) ?_
  rintro _ s₁ ⟨rfl, h₁⟩
  exact spec_pure ⟨rfl, h₁, h'.rest, h'.stores, h'.free⟩

/-- `GetValue` puts what `Lookup` finds into the vector, or a value nobody asked for. -/
theorem Stored.getValue_rule {d : ℕ} {t : BTree K V d} (orders : Orders tree.comparator)
    (h : Stored tree v s (some ⟨d, t⟩)) (transaction : Bool) (result : List V) :
    ∃ value : Option V, (∀ x, value = some x ↔ (k, x) ∈ t.bindings) ∧
      Spec (tree.getValue k result transaction) s (fun r s' =>
        r = (value.isSome, [value.getD (result.headD default)]) ∧
        Stored tree { v with exclusive := false } s' (some ⟨d, t⟩)) fun _ _ => False := by
  have h' := h.exclusive false
  obtain ⟨root, focus, wf⟩ := id h'.stores
  obtain ⟨c, leaf, loc, covers⟩ :=
    exists_locate_covers orders (c := top) (k := k) wf.ordered ⟨bot_le, Separators.key_lt_top⟩
  have plug := plug_of_locate loc
  have mem : leaf ∈ leafChain (some ⟨d, t⟩) := by simp [leafChain, c.leaves_eq plug]
  obtain ⟨pos, _, page, hc, holds⟩ := h'.stores.leaf mem
  have sorted := (c.ordered_leaf wf.ordered plug).2.2.1
  refine ⟨leaf.find tree.comparator k, fun x => ?_, ?_⟩
  · rw [LeafNode.find_eq_some_iff orders sorted, covers.mem_bindings wf.ordered plug]
  · refine Spec.bind (h'.state.findLeafPage_read h'.rest root focus wf.sized.wide loc
      (fun p _ => h'.free p) rfl) ?_
    rintro _ s₁ ⟨rfl, rootHeld, h₁⟩
    have content : s₁.pool.content leaf.id = .leaf page := (h₁.content _ pos.ne').trans hc
    refine Spec.bind_eq (a := page) (t := s₁) ?_ ?_
    · change ((s₁.pool.content leaf.id).asLeaf, s₁) = _
      rw [content]
      rfl
    rw [holds.lookup, holds.fields.pageId]
    refine Spec.bind (h₁.free_rule rfl h'.rest.held h'.rest.opened h'.rest.deleted pos.le
      (h'.free _)) fun _ s₂ h₂ => spec_pure ⟨rfl, ?_⟩
    have same : { v with exclusive := false, rootHeld := false } =
        { v with exclusive := false } := by rw [← h.rest.rootHeld]
    exact ⟨same ▸ h₂, h'.rest, h'.stores, h'.free⟩

/-! ## Absent keys -/

/-- With an empty vector, `GetValue` delivers the value of a bound key and nothing else, and the
cursor of a point query has no row for a key that is not bound. -/
structure Delivers (tree : BPlusTree K) (s : TreeState K V) (transaction : Bool)
    (t : Option (Σ d, BTree K V d)) (k : K) : Prop where
  bound : ∀ value, (k, value) ∈ contents t →
    ∃ s', tree.getValue k [] transaction s = (.ok (true, [value]), s')
  unbound : (∀ value, (k, value) ∉ contents t) →
    ∃ s', tree.getValue k [] transaction s = (.ok (false, []), s')
  noRow : (∀ value, (k, value) ∉ contents t) → ∃ cursor s',
    tree.scanKey {} k s = (.ok cursor, s') ∧ cursor.rows (cursor.results.length + 1) = .ok []

omit [LinearOrder K] in
/-- The cursor has the rows of the vector. -/
theorem scanKey_rows {found : Bool} {results : List V} {s' : TreeState K V}
    (run : tree.getValue k [] false s = (.ok (found, results), s')) :
    ∃ cursor, tree.scanKey {} k s = (.ok cursor, s') ∧
      cursor.rows (cursor.results.length + 1) = .ok results := by
  refine ⟨{ results := results }, ?_, IndexCursor.rows_eq results _ (Nat.zero_le _) (by simp)⟩
  have : Spec (tree.scanKey {} k) s (fun cursor t => cursor = { results := results } ∧ t = s')
      fun _ _ => False := Spec.bind_eq run (spec_pure ⟨rfl, rfl⟩)
  obtain ⟨cursor, t, ran, rfl, rfl⟩ := this.returns
  exact ran

/-- `GetValue` and the point query answer as the tree says exactly if the tree is empty or binds
the key. -/
theorem delivers_iff {t : Option (Σ d, BTree K V d)} (orders : Orders tree.comparator)
    (h : Stored tree v s t) :
    Delivers tree s transaction t k ↔ t = none ∨ ∃ value, (k, value) ∈ contents t := by
  cases t with
  | none =>
    refine iff_of_true ⟨nofun, fun _ => ?_, fun _ => ?_⟩ (.inl rfl)
    · obtain ⟨r, s', run, rfl, -⟩ := (h.getValue_empty []).returns
      exact ⟨s', run⟩
    · obtain ⟨r, s', run, rfl, -⟩ := (h.getValue_empty []).returns
      obtain ⟨cursor, ran, rows⟩ := scanKey_rows run
      exact ⟨cursor, s', ran, rows⟩
  | some t =>
    obtain ⟨value, found, rule⟩ := h.getValue_rule orders transaction []
    obtain ⟨r, s', run, rfl, -⟩ := rule.returns
    constructor
    · refine fun delivers => .inr (by_contra fun absent => ?_)
      have absent : ∀ x, (k, x) ∉ contents (some t) := fun x hx => absent ⟨x, hx⟩
      obtain rfl : value = none :=
        Option.eq_none_iff_forall_not_mem.2 fun x hx => absent x ((found x).1 hx)
      obtain ⟨s'', run'⟩ := delivers.unbound absent
      rw [run] at run'
      cases run'
    · rintro (e | ⟨x, hx⟩)
      · cases e
      · have bound (y : V) (hy : (k, y) ∈ contents (some t)) : value = some y := (found y).2 hy
        refine ⟨fun y hy => ⟨s', ?_⟩, fun absent => (absent x hx).elim,
          fun absent => (absent x hx).elim⟩
        rw [run, bound y hy]
        rfl

/-- A key that is not in a tree with one entry. -/
theorem not_delivers_ofInts : ¬ Delivers ofInts
    (ofInts.insert 1 (⟨1, 0⟩ : RID) true TreeState.initial).2 false
    (some ⟨0, ⟨1, invalidPageId, [(1, ⟨1, 0⟩)]⟩⟩) 2 := by
  intro delivers
  obtain ⟨s', run⟩ := delivers.unbound (by simp [contents, leafChain, leaves])
  have ran : (ofInts.getValue 2 [] false
      (ofInts.insert 1 (⟨1, 0⟩ : RID) true TreeState.initial).2).1 = .ok (false, [default]) := rfl
  rw [run] at ran
  cases ran

/-- A key of the middle one of three leaves. -/
theorem delivers_threeLeaves :
    Delivers ofWideInts threeLeavesState false (some ⟨1, threeLeaves⟩) 6 := by
  obtain ⟨v, stored⟩ := stored_threeLeaves
  apply (delivers_iff orders_ofWideInts stored).2
  exact .inr ⟨⟨6, 0⟩, by simp [contents, leafChain, threeLeaves, middleLeaf, leaves, row]⟩

end BPlusTree

end ScuDb
