import ScuDb.Index.PointQuery
import ScuDb.Index.RemoveStored

/-!
# Runs of a tree and of a finite map

What the calls of a tree answer is what a finite map answers, as long as the keys fit into one leaf.
The split of that leaf leaves a root page whose counted size is one, and the next `Insert`, `Remove`
or `GetValue` stops at it.
-/

namespace ScuDb

open Program BTree Context

variable {K V : Type}

/-- A call of a tree; writers are given a transaction. -/
inductive TreeCall (K V : Type)
  | insert (key : K) (value : V)
  | remove (key : K)
  | getValue (key : K) (result : List V) (transaction : Bool)

/-- What the caller sees when a call returns. -/
inductive Answer (V : Type)
  | inserted (new : Bool)
  | removed
  | found (value : Option V)
deriving DecidableEq

/-- The bindings of an index, without their order. -/
abbrev Bindings (K V : Type) := Finmap fun _ : K => V

namespace TreeCall

variable [DecidableEq K]

def run [Inhabited K] [Inhabited V] (tree : BPlusTree K) : TreeCall K V → TreeM K V (Answer V)
  | .insert key value => do
    return .inserted (← tree.insert key value true)
  | .remove key => do
    tree.remove key true
    return .removed
  | .getValue key result transaction => do
    let (found, result) ← tree.getValue key result transaction
    return .found (if found then result.head? else none)

/-- What the map answers. -/
def answer (m : Bindings K V) : TreeCall K V → Answer V
  | .insert key _ => .inserted (m.lookup key).isNone
  | .remove _ => .removed
  | .getValue key _ _ => .found (m.lookup key)

/-- The map behind the call: a bound key stays bound as it is. -/
def after (m : Bindings K V) : TreeCall K V → Bindings K V
  | .insert key value => if key ∈ m then m else m.insert key value
  | .remove key => m.erase key
  | .getValue _ _ _ => m

/-- An insertion of a key that is not bound finds room for it in the only leaf, or a page id for the
first page. -/
def Roomy (tree : BPlusTree K) (s : TreeState K V) (m : Bindings K V) : TreeCall K V → Prop
  | .insert key _ =>
    key ∈ m ∨ m.keys.card < tree.keySize.leafMax ∧ (m = ∅ → s.pool.nextPageId < 2147483647)
  | _ => True

end TreeCall

/-! ## Runs -/

section Runs

variable [DecidableEq K]

/-- The answers of the map to a sequence of calls. -/
def answers : Bindings K V → List (TreeCall K V) → List (Answer V)
  | _, [] => []
  | m, call :: calls => call.answer m :: answers (call.after m) calls

variable [Inhabited K] [Inhabited V]

/-- The answers of the tree. -/
def runAll (tree : BPlusTree K) : List (TreeCall K V) → TreeM K V (List (Answer V))
  | [] => return []
  | call :: calls => do
    let a ← call.run tree
    return a :: (← runAll tree calls)

/-- Every call of the run finds the room it needs. -/
def AllRoomy (tree : BPlusTree K) : List (TreeCall K V) → TreeState K V → Bindings K V → Prop
  | [], _, _ => True
  | call :: calls, s, m =>
    call.Roomy tree s m ∧ AllRoomy tree calls (call.run tree s).2 (call.after m)

end Runs

namespace BPlusTree

variable [LinearOrder K] {tree : BPlusTree K} {s : TreeState K V} {m : Bindings K V}

/-- The tree is well-formed and binds what the map binds. -/
def Represents (tree : BPlusTree K) (s : TreeState K V) (m : Bindings K V) : Prop :=
  ∃ v t, Stored tree v s t ∧ ∀ k x, m.lookup k = some x ↔ (k, x) ∈ contents t

theorem Represents.start {v : View K V} (h : Stored tree v s none) : Represents tree s ∅ :=
  ⟨v, none, h, fun k x => by simp [contents, leafChain]⟩

/-- The tree has as many bindings as the map. -/
theorem length_contents_le {v : View K V} {t : Option (Σ d, BTree K V d)} (h : Stored tree v s t)
    (same : ∀ k x, m.lookup k = some x ↔ (k, x) ∈ contents t) :
    (contents t).length ≤ m.keys.card := by
  have nodup : ((contents t).map Prod.fst).Nodup := h.stores.sorted.imp fun lt => lt.ne
  rw [← List.length_map Prod.fst, ← List.toFinset_card_of_nodup nodup]
  apply Finset.card_le_card
  intro k hk
  obtain ⟨⟨k', x⟩, mem, rfl⟩ := List.mem_map.1 (List.mem_toFinset.1 hk)
  rw [Finmap.mem_keys]
  exact Finmap.mem_of_lookup_eq_some ((same _ x).2 mem)

theorem notMem_iff {t : Option (Σ d, BTree K V d)} {k : K}
    (same : ∀ k x, m.lookup k = some x ↔ (k, x) ∈ contents t) :
    k ∉ m ↔ ∀ x, (k, x) ∉ contents t := by
  rw [← Finmap.lookup_eq_none, Option.eq_none_iff_forall_ne_some]
  exact forall_congr' fun x => not_congr (same k x)

/-- A map with one binding more. -/
theorem lookup_insert_iff {l l' : List (K × V)} {k : K} {value : V}
    (same : ∀ k x, m.lookup k = some x ↔ (k, x) ∈ l) (absent : ∀ x, (k, x) ∉ l)
    (mem : ∀ e, e ∈ l' ↔ e = (k, value) ∨ e ∈ l) (k' : K) (x : V) :
    (m.insert k value).lookup k' = some x ↔ (k', x) ∈ l' := by
  rw [mem, Prod.mk.injEq]
  by_cases e : k' = k
  · subst e
    rw [Finmap.lookup_insert, Option.some.injEq]
    simp [absent, eq_comm]
  · rw [Finmap.lookup_insert_of_ne _ e, same]
    simp [e]

theorem lookup_erase_iff {l : List (K × V)} (same : ∀ k x, m.lookup k = some x ↔ (k, x) ∈ l)
    (k k' : K) (x : V) :
    (m.erase k).lookup k' = some x ↔ (k', x) ∈ l.filter fun e => e.1 ≠ k := by
  rw [List.mem_filter, decide_eq_true_eq]
  by_cases e : k' = k
  · subst e
    rw [Finmap.lookup_erase]
    simp
  · rw [Finmap.lookup_erase_ne e, same]
    simp [e]

omit [LinearOrder K] in
/-- The leaf of a key has no more entries than the tree. -/
theorem length_entries_le {d : ℕ} {t : BTree K V d} {c : Context K V 0} {leaf : LeafNode K V}
    (plug : c.plug leaf = ⟨d, t⟩) : leaf.entries.length ≤ (contents (some ⟨d, t⟩)).length := by
  simp only [contents, leafChain, c.leaves_eq plug, List.flatMap_append, List.flatMap_cons,
    List.length_append]
  omega

variable [Inhabited K] [Inhabited V] {v : View K V}

/-- `Insert` does to the tree what it does to the map. -/
theorem Represents.insert (orders : Orders tree.comparator) (h : Represents tree s m) (k : K)
    (value : V) (room : (TreeCall.insert k value).Roomy tree s m) :
    Spec (tree.insert k value true) s (fun r s' => r = (m.lookup k).isNone ∧
      Represents tree s' ((TreeCall.insert k value).after m)) fun _ _ => False := by
  obtain ⟨v, t, stored, same⟩ := h
  have start := stored.exclusive true
  by_cases bound : k ∈ m
  · obtain ⟨x, hx⟩ := Finmap.mem_iff.1 bound
    have mem := (same k x).1 hx
    rw [show (TreeCall.insert k value).after m = m from if_pos bound, hx]
    cases t with
    | none => cases mem
    | some t =>
      apply (start.insert_bound orders rfl ⟨x, mem⟩ value).post
      rintro r s' ⟨rfl, stored'⟩
      exact ⟨rfl, _, _, stored', same⟩
  · have absent := (notMem_iff same).1 bound
    obtain ⟨room, pages⟩ := room.resolve_left bound
    rw [show (TreeCall.insert k value).after m = m.insert k value from if_neg bound,
      Finmap.lookup_eq_none.2 bound]
    cases t with
    | none =>
      apply (start.insert_empty rfl k value).mono
      · rintro r s' ⟨rfl, v', -, stored', -⟩
        refine ⟨rfl, v', _, stored', lookup_insert_iff same absent fun e => ?_⟩
        simp [contents, leafChain, leaves]
      · rintro e s' ⟨none, -⟩
        have empty : m = ∅ := Finmap.ext_lookup fun k => by
          rw [Finmap.lookup_empty, Option.eq_none_iff_forall_ne_some]
          exact fun x hx => List.not_mem_nil ((same k x).1 hx)
        have := pages empty
        have next := stored.state.next
        rw [none] at next
        omega
    | some t =>
      obtain ⟨c, leaf, loc, covers⟩ := exists_locate_covers orders (c := top) (k := k)
        stored.stores.2.2.ordered ⟨bot_le, Separators.key_lt_top⟩
      have plug := plug_of_locate loc
      have inside := (length_entries_le plug).trans_lt
        ((length_contents_le stored same).trans_lt room)
      apply (start.insert_new orders rfl absent value plug covers (.inl inside)).mono
      · rintro r s' ⟨rfl, v', t', stored', -, perm⟩
        refine ⟨rfl, v', _, stored', lookup_insert_iff same absent fun e => ?_⟩
        rw [perm.mem_iff, List.mem_cons]
        rfl
      · rintro e s' ⟨full, -⟩
        exact absurd full (not_le.2 inside)

omit [Inhabited K] [Inhabited V] in
/-- `Remove` does to the tree what it does to the map. -/
theorem Represents.remove (orders : Orders tree.comparator) (h : Represents tree s m) (k : K) :
    Spec (tree.remove k true) s (fun _ s' => Represents tree s' (m.erase k)) fun _ _ => False := by
  obtain ⟨v, t, stored, same⟩ := h
  cases t with
  | none =>
    apply stored.remove_empty.post
    rintro _ _ rfl
    exact ⟨v, none, stored, lookup_erase_iff same k⟩
  | some t =>
    apply ((stored.exclusive true).remove_rule orders rfl k).post
    rintro _ s' ⟨v', r, results, stored', binds, -⟩
    refine ⟨v', r, stored', fun k' x => ?_⟩
    rw [binds]
    exact lookup_erase_iff same k k' x

omit [Inhabited K] in
/-- `GetValue` finds what the map binds. -/
theorem Represents.getValue (orders : Orders tree.comparator) (h : Represents tree s m) (k : K)
    (result : List V) (transaction : Bool) :
    Spec (tree.getValue k result transaction) s (fun r s' =>
      (if r.1 then r.2.head? else none) = m.lookup k ∧ Represents tree s' m) fun _ _ => False := by
  obtain ⟨v, t, stored, same⟩ := h
  cases t with
  | none =>
    apply (stored.getValue_empty result).post
    rintro _ s' ⟨rfl, stored'⟩
    have absent : k ∉ m := (notMem_iff same).2 fun x => List.not_mem_nil
    exact ⟨(Finmap.lookup_eq_none.2 absent).symm, _, _, stored', same⟩
  | some t =>
    obtain ⟨found, bound, rule⟩ := stored.getValue_rule (k := k) orders transaction result
    apply rule.post
    rintro _ s' ⟨rfl, stored'⟩
    refine ⟨?_, _, _, stored', same⟩
    cases found with
    | none =>
      have absent : k ∉ m := (notMem_iff same).2 fun x mem => nomatch (bound x).2 mem
      exact (Finmap.lookup_eq_none.2 absent).symm
    | some x => exact ((same k x).2 ((bound x).1 rfl)).symm

/-- One call. -/
theorem Represents.call (orders : Orders tree.comparator) (h : Represents tree s m)
    (call : TreeCall K V) (room : call.Roomy tree s m) :
    Spec (call.run tree) s (fun a s' => a = call.answer m ∧ Represents tree s' (call.after m))
      fun _ _ => False := by
  cases call with
  | insert k value =>
    refine Spec.bind (h.insert orders k value room) ?_
    rintro _ s' ⟨rfl, h'⟩
    exact spec_pure ⟨rfl, h'⟩
  | remove k =>
    refine Spec.bind (h.remove orders k) fun _ s' h' => ?_
    exact spec_pure ⟨rfl, h'⟩
  | getValue k result transaction =>
    refine Spec.bind (h.getValue orders k result transaction) ?_
    rintro ⟨found, values⟩ s' ⟨same, h'⟩
    exact spec_pure ⟨congrArg Answer.found same, h'⟩

theorem Represents.runAll (orders : Orders tree.comparator) (calls : List (TreeCall K V)) :
    ∀ {s : TreeState K V} {m : Bindings K V}, Represents tree s m → AllRoomy tree calls s m →
      ∃ s', runAll tree calls s = (.ok (answers m calls), s') := by
  induction calls with
  | nil => exact fun {s m} _ _ => ⟨s, rfl⟩
  | cons call calls ih =>
    intro s m h rooms
    obtain ⟨a, s₁, run, rfl, h₁⟩ := (h.call orders call rooms.1).returns
    have rest := rooms.2
    rw [run] at rest
    obtain ⟨s', runs⟩ := ih h₁ rest
    refine ⟨s', (bind_returns run).trans ?_⟩
    exact bind_returns runs

/-- From an empty tree, the calls of a run that always finds room answer what a finite map answers. -/
theorem runAll_answers (orders : Orders tree.comparator) (h : Stored tree v s none)
    (calls : List (TreeCall K V)) (rooms : AllRoomy tree calls s ∅) :
    ∃ s', ScuDb.runAll tree calls s = (.ok (answers ∅ calls), s') :=
  (Represents.start h).runAll orders calls rooms

/-- A binding that is found, kept and removed. -/
theorem runAll_answers_ofInts : ∃ s',
    ScuDb.runAll ofInts [.insert 1 ⟨1, 0⟩, .insert 1 ⟨2, 0⟩, .getValue 1 [] false, .remove 1,
      .getValue 1 [] false] TreeState.initial =
      (.ok [.inserted true, .inserted false, .found (some (⟨1, 0⟩ : RID)), .removed, .found none],
        s') := by
  apply runAll_answers orders_ofInts (stored_initial (by decide))
  refine ⟨.inr ⟨by decide, fun _ => ?_⟩, .inl (by decide), trivial, trivial, trivial, trivial⟩
  show (1 : ℤ) < 2147483647
  decide

/-- Six keys split the root. -/
def sixKeys : List (TreeCall ℤ RID) :=
  [.insert 1 ⟨1, 0⟩, .insert 2 ⟨2, 0⟩, .insert 3 ⟨3, 0⟩, .insert 4 ⟨4, 0⟩, .insert 5 ⟨5, 0⟩,
    .insert 6 ⟨6, 0⟩, .getValue 1 [] false]

theorem not_runAll_answers :
    (ScuDb.runAll ofWideInts sixKeys TreeState.initial).1 ≠ .ok (answers ∅ sixKeys) := by
  have run : (ScuDb.runAll ofWideInts sixKeys TreeState.initial).1 = .error .assertion := by
    decide +kernel
  rw [run]
  nofun

end BPlusTree

end ScuDb
