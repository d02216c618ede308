import ScuDb.Index.IndexIterator
import ScuDb.Index.RootRecord
import ScuDb.Lib.SortedMap

/-!
# Runs of an index

From any well-formed tree, the calls of an index answer what an ordered map answers, scans with an
iterator included, until an insertion splits the root or finds no page id.
-/

namespace ScuDb

open Program BTree Context

variable {K V : Type}

/-! ## Scans -/

namespace IndexIterator

/-- The loop of a scan: at most `count` entries. -/
def collect (n : KeySize) : ℕ → IndexIterator → TreeM K V (List (K × V) × IndexIterator)
  | 0, it => return ([], it)
  | count + 1, it => do
    if it.isEnd then return ([], it)
    let entry ← it.item n
    let (entries, it) ← collect n count (← it.next)
    return (entry :: entries, it)

end IndexIterator

/-- A scan from `Begin()` that stops after `count` entries. -/
def BPlusTree.scan [Inhabited K] (tree : BPlusTree K) (count : ℕ) : TreeM K V (List (K × V)) := do
  let (entries, it) ← (← tree.begin).collect tree.keySize count
  it.destroy
  return entries

/-! ## Calls -/

/-- A call of an index. -/
inductive IndexCall (K V : Type)
  | point (call : TreeCall K V)
  | scan (count : ℕ)

/-- What the caller sees. -/
inductive IndexAnswer (K V : Type)
  | answer (answer : Answer V)
  | scanned (entries : List (K × V))

section Calls

variable [LinearOrder K]

namespace IndexCall

def run [Inhabited K] [Inhabited V] (tree : BPlusTree K) :
    IndexCall K V → TreeM K V (IndexAnswer K V)
  | .point call => do
    return .answer (← call.run tree)
  | .scan count => do
    return .scanned (← tree.scan count)

/-- What the map answers. -/
def answer (m : SortedMap K V) : IndexCall K V → IndexAnswer K V
  | .point (.insert key _) => .answer (.inserted (m.lookup key).isNone)
  | .point (.remove _) => .answer .removed
  | .point (.getValue key _ _) => .answer (.found (m.lookup key))
  | .scan count => .scanned (m.entries.take count)

/-- The map behind the call. -/
def after (m : SortedMap K V) : IndexCall K V → SortedMap K V
  | .point (.insert key value) => if (m.lookup key).isNone then m.insert key value else m
  | .point (.remove key) => m.erase key
  | _ => m

end IndexCall

/-- The answers of the map to a sequence of calls. -/
def mapAnswers : SortedMap K V → List (IndexCall K V) → List (IndexAnswer K V)
  | _, [] => []
  | m, call :: calls => call.answer m :: mapAnswers (call.after m) calls

/-- The map behind a sequence of calls. -/
def mapAfter (m : SortedMap K V) (calls : List (IndexCall K V)) : SortedMap K V :=
  calls.foldl (fun m call => call.after m) m

variable [Inhabited K] [Inhabited V]

/-- The answers of the index. -/
def indexAnswers (tree : BPlusTree K) : List (IndexCall K V) → TreeM K V (List (IndexAnswer K V))
  | [] => return []
  | call :: calls => do
    let a ← call.run tree
    return a :: (← indexAnswers tree calls)

end Calls

/-! ## The index and the map -/

section Denotes

variable [LinearOrder K] {tree : BPlusTree K} {s : TreeState K V} {m : SortedMap K V}

/-- The tree is well-formed and binds what the map binds. -/
def Denotes (tree : BPlusTree K) (s : TreeState K V) (m : SortedMap K V) : Prop :=
  ∃ v t, BPlusTree.Stored tree v s t ∧ contents t = m.entries

namespace IndexIterator

open BPlusTree

theorem Remaining.collect {v : View K V} {t : Option (Σ d, BTree K V d)}
    {E : Fault → TreeState K V → Prop} (count : ℕ) :
    ∀ {it : IndexIterator} {s : TreeState K V} {rest : List (K × V)}, Remaining tree v t it s rest →
      Spec (it.collect tree.keySize count) s (fun r s' => r.1 = rest.take count ∧
        Remaining tree v t r.2 s' (rest.drop count)) E := by
  induction count with
  | zero => exact fun h => spec_pure ⟨rfl, h⟩
  | succ count ih =>
    intro it s rest h
    unfold IndexIterator.collect
    cases rest with
    | nil =>
      have atEnd : it.isEnd = true := h.isEnd
      rw [if_pos atEnd]
      exact spec_pure ⟨rfl, h⟩
    | cons entry rest =>
      have more : it.isEnd = false := h.isEnd
      rw [if_neg (by simp [more])]
      have step := h.step (E := E)
      refine Spec.bind_eq step.1 (Spec.bind step.2 fun it₁ s₁ h₁ => ?_)
      refine Spec.bind (ih h₁) ?_
      rintro ⟨entries, it₂⟩ s₂ ⟨rfl, h₂⟩
      exact spec_pure ⟨rfl, h₂⟩

end IndexIterator

/-- The insertion of a key that is not bound splits every page on its way up. -/
def IndexCall.SplitsRoot (tree : BPlusTree K) (s : TreeState K V) : IndexCall K V → Prop
  | .point (.insert key _) => ∃ v t, BPlusTree.Stored tree v s (some t) ∧
    (∀ x, (key, x) ∉ contents (some t)) ∧ ¬ BPlusTree.Roomy tree.keySize key t
  | _ => False

namespace Denotes

open BPlusTree

theorem lookup_of_mem {t : Option (Σ d, BTree K V d)} (same : contents t = m.entries) {k : K} {x : V}
    (mem : (k, x) ∈ contents t) : m.lookup k = some x :=
  SortedMap.lookup_eq_some_iff.2 (same ▸ mem)

theorem lookup_of_notMem {t : Option (Σ d, BTree K V d)} (same : contents t = m.entries) {k : K}
    (absent : ∀ x, (k, x) ∉ contents t) : m.lookup k = none :=
  SortedMap.lookup_eq_none_iff.2 fun x mem => absent x (same ▸ mem)

/-- The bindings behind an insertion. -/
theorem contents_insert {t t' : Option (Σ d, BTree K V d)} {v' : View K V} {s' : TreeState K V}
    (same : contents t = m.entries) {k : K} {value : V} (absent : ∀ x, (k, x) ∉ contents t)
    (stored : Stored tree v' s' t') (mem : ∀ e, e ∈ contents t' ↔ e = (k, value) ∨ e ∈ contents t) :
    contents t' = (m.insert k value).entries := by
  apply SortedMap.entries_eq stored.stores.sorted
  intro e
  rw [mem, SortedMap.mem_insert, same]
  refine or_congr_right ⟨fun he => ⟨he, ?_⟩, And.left⟩
  rintro rfl
  exact absent e.2 (same ▸ he)

variable [Inhabited K] [Inhabited V]

/-- `Insert` of a key that is not bound. -/
theorem insert_absent (orders : Orders tree.comparator) {v : View K V}
    {t : Option (Σ d, BTree K V d)} (stored : Stored tree v s t) (same : contents t = m.entries) {k : K}
    (absent : ∀ x, (k, x) ∉ contents t) (value : V) :
    Spec (tree.insert k value true) s (fun r s' => r = true ∧ (Denotes tree s' (m.insert k value) ∨
      (IndexCall.point (.insert k value)).SplitsRoot tree s ∧ Broken s')) Exhausted := by
  have start := stored.exclusive true
  cases t with
  | none =>
    apply (start.insert_empty rfl k value).mono
    · rintro r s' ⟨rfl, v', -, stored', -⟩
      refine ⟨rfl, .inl ⟨v', _, stored', contents_insert same absent stored' fun e => ?_⟩⟩
      simp [contents, leafChain, leaves]
    · exact fun e s' full => full.2
  | some t =>
    obtain ⟨c, leaf, loc, covers⟩ := exists_locate_covers orders (c := top) (k := k)
      stored.stores.2.2.ordered ⟨bot_le, Separators.key_lt_top⟩
    have plug := plug_of_locate loc
    have wf := stored.stores.2.2
    apply (start.insert_absent orders rfl absent value plug covers).mono
    · rintro r s' ⟨rfl, v', h', settled, outcome⟩
      refine ⟨rfl, ?_⟩
      cases result : tree.insertTree k value c leaf v.next with
      | some t' =>
        rw [show ({ v with exclusive := true } : View K V).next = v.next from rfl, result] at outcome
        obtain ⟨stored', -, -, perm⟩ := outcome
        refine .inl ⟨v', some t', stored', contents_insert same absent stored' fun e => ?_⟩
        rw [perm.mem_iff, List.mem_cons]
        rfl
      | none =>
        rw [show ({ v with exclusive := true } : View K V).next = v.next from rfl, result] at outcome
        refine .inr ⟨⟨v, t, stored, absent, ?_⟩, h'.broken settled.rest outcome⟩
        rintro ⟨c', leaf', plug', covers', room⟩
        obtain ⟨rfl, rfl⟩ := covers.unique orders wf.ordered plug plug' covers'
        have absent' : ∀ x, (k, x) ∉ leaf'.entries := fun x mem =>
          absent x ((covers.mem_bindings wf.ordered plug).2 mem)
        obtain ⟨t', some⟩ := exists_insertTree value v.next orders wf plug covers absent' room
        rw [result] at some
        cases some
    · exact fun e s' full => full.2

omit [Inhabited V] in
/-- A scan. -/
theorem scan {v : View K V} {t : Option (Σ d, BTree K V d)} {E : Fault → TreeState K V → Prop}
    (stored : Stored tree v s t) (count : ℕ) :
    Spec (tree.scan count) s (fun r s' => r = (contents t).take count ∧ Stored tree v s' t) E := by
  refine Spec.bind (IndexIterator.begin_rule stored) fun it s₁ h₁ => ?_
  refine Spec.bind (h₁.collect count) ?_
  rintro ⟨entries, it'⟩ s₂ ⟨rfl, h₂⟩
  refine Spec.bind h₂.destroy fun _ s₃ h₃ => ?_
  exact spec_pure ⟨rfl, h₃⟩

omit [Inhabited K] [Inhabited V] in
theorem remove (orders : Orders tree.comparator) (h : Denotes tree s m) (k : K)
    {E : Fault → TreeState K V → Prop} :
    Spec (tree.remove k true) s (fun _ s' => Denotes tree s' (m.erase k)) E := by
  obtain ⟨v, t, stored, same⟩ := h
  cases t with
  | none =>
    refine stored.remove_empty.post ?_
    rintro _ _ rfl
    refine ⟨v, none, stored, ?_⟩
    simp [SortedMap.erase, ← same, contents, leafChain]
  | some t =>
    apply ((stored.exclusive true).remove_rule orders rfl k).post
    rintro _ s' ⟨v', r, -, stored', binds, -⟩
    refine ⟨v', r, stored', binds.trans ?_⟩
    exact congrArg (List.filter fun e => e.1 ≠ k) same

omit [Inhabited K] in
theorem getValue (orders : Orders tree.comparator) (h : Denotes tree s m) (k : K) (result : List V)
    (transaction : Bool) {E : Fault → TreeState K V → Prop} :
    Spec (tree.getValue k result transaction) s (fun r s' =>
      (if r.1 then r.2.head? else none) = m.lookup k ∧ Denotes tree s' m) E := by
  obtain ⟨v, t, stored, same⟩ := h
  cases t with
  | none =>
    apply (stored.getValue_empty result).mono
    · rintro _ s' ⟨rfl, stored'⟩
      exact ⟨(lookup_of_notMem same fun x => List.not_mem_nil).symm, _, _, stored', same⟩
    · exact fun _ _ => False.elim
  | some t =>
    obtain ⟨found, bound, rule⟩ := stored.getValue_rule (k := k) orders transaction result
    apply rule.mono
    · rintro _ s' ⟨rfl, stored'⟩
      refine ⟨?_, _, _, stored', same⟩
      cases found with
      | none =>
        have absent : ∀ x, (k, x) ∉ contents (some t) := fun x mem =>
          Option.some_ne_none x ((bound x).2 mem).symm
        exact (lookup_of_notMem same absent).symm
      | some x => exact (lookup_of_mem same ((bound x).1 rfl)).symm
    · exact fun _ _ => False.elim

theorem insert (orders : Orders tree.comparator) (h : Denotes tree s m) (k : K) (value : V) :
    Spec (tree.insert k value true) s (fun r s' => r = (m.lookup k).isNone ∧
      (Denotes tree s' ((IndexCall.point (.insert k value)).after m) ∨
        (IndexCall.point (.insert k value)).SplitsRoot tree s ∧ Broken s')) Exhausted := by
  obtain ⟨v, t, stored, same⟩ := h
  by_cases bound : ∃ x, (k, x) ∈ contents t
  · obtain ⟨x, mem⟩ := bound
    have found := lookup_of_mem same mem
    rw [show (IndexCall.point (.insert k value)).after m = m by simp [IndexCall.after, found], found]
    cases t with
    | none => cases mem
    | some t =>
      apply ((stored.exclusive true).insert_bound orders rfl ⟨x, mem⟩ value).post
      rintro r s' ⟨rfl, stored'⟩
      exact ⟨rfl, .inl ⟨_, _, stored', same⟩⟩
  · have absent : ∀ x, (k, x) ∉ contents t := not_exists.1 bound
    have found := lookup_of_notMem same absent
    rw [show (IndexCall.point (.insert k value)).after m = m.insert k value by
      simp [IndexCall.after, found], found]
    exact insert_absent orders stored same absent value

/-- One call. -/
theorem run (orders : Orders tree.comparator) (h : Denotes tree s m) (call : IndexCall K V) :
    Spec (call.run tree) s (fun a s' => a = call.answer m ∧ (Denotes tree s' (call.after m) ∨
      call.SplitsRoot tree s ∧ Broken s'))
      fun e s' => (∃ k value, call = .point (.insert k value)) ∧ Exhausted e s' := by
  cases call with
  | scan count =>
    obtain ⟨v, t, stored, same⟩ := h
    refine Spec.bind (scan stored count) ?_
    rintro _ s' ⟨rfl, stored'⟩
    refine spec_pure ⟨?_, .inl ⟨v, t, stored', same⟩⟩
    rw [IndexCall.answer, same]
  | point call =>
    refine Spec.bind (P := fun a s' => IndexAnswer.answer a = (IndexCall.point call).answer m ∧
      (Denotes tree s' ((IndexCall.point call).after m) ∨
        (IndexCall.point call).SplitsRoot tree s ∧ Broken s')) ?_ fun a s' h' => spec_pure h'
    cases call with
    | remove k =>
      refine Spec.bind (h.remove orders k) fun _ s' h' => ?_
      exact spec_pure ⟨rfl, .inl h'⟩
    | getValue k result transaction =>
      refine Spec.bind (h.getValue orders k result transaction) fun r s' h' => ?_
      exact spec_pure ⟨congrArg (fun found => IndexAnswer.answer (Answer.found found)) h'.1, .inl h'.2⟩
    | insert k value =>
      refine Spec.bind ((h.insert orders k value).mono (fun _ _ => id) fun e s' full =>
        ⟨⟨k, value, rfl⟩, full⟩) fun r s' h' => ?_
      exact spec_pure ⟨congrArg (fun new => IndexAnswer.answer (Answer.inserted new)) h'.1, h'.2⟩

end Denotes

/-! ## Runs -/

variable [Inhabited K] [Inhabited V]

/-- How far a run gets: to its end, to the call that splits the root, or to an insertion that finds
no page id.  Behind a split of the root neither `Insert` nor `Remove` nor `GetValue` returns; what
scans do there, which take the first child of the root without `Lookup`, is left open. -/
inductive Ends (tree : BPlusTree K) (s : TreeState K V) (m : SortedMap K V) :
    List (IndexCall K V) → List (IndexCall K V) → TreeState K V → Prop
  | all {done : List (IndexCall K V)} {s' : TreeState K V} (holds : Denotes tree s' (mapAfter m done)) :
      Ends tree s m done [] s'
  | rootSplit {done rest : List (IndexCall K V)} {call : IndexCall K V} {s₁ s' : TreeState K V}
      (run : indexAnswers tree done s = (.ok (mapAnswers m done), s₁))
      (splits : call.SplitsRoot tree s₁)
      (stuck : ∀ call : TreeCall K V, ¬ ∃ a s'', call.run tree s' = (.ok a, s'')) :
      Ends tree s m (done ++ [call]) rest s'
  | noPageId {done rest : List (IndexCall K V)} {k : K} {value : V} {s' s'' : TreeState K V}
      (stops : (IndexCall.point (.insert k value)).run tree s' = (.error .overflow, s''))
      (next : s''.pool.nextPageId = 2147483647) :
      Ends tree s m done (.point (.insert k value) :: rest) s'

omit [LinearOrder K] in
theorem indexAnswers_cons {call : IndexCall K V} {calls : List (IndexCall K V)}
    {s₁ s' : TreeState K V} {a : IndexAnswer K V} {as : List (IndexAnswer K V)}
    (first : call.run tree s = (.ok a, s₁)) (rest : indexAnswers tree calls s₁ = (.ok as, s')) :
    indexAnswers tree (call :: calls) s = (.ok (a :: as), s') :=
  (bind_returns first).trans (bind_returns rest)

/-- A call before a run. -/
theorem Ends.cons {call : IndexCall K V} {done rest : List (IndexCall K V)} {s₁ s' : TreeState K V}
    (first : call.run tree s = (.ok (call.answer m), s₁))
    (h : Ends tree s₁ (call.after m) done rest s') : Ends tree s m (call :: done) rest s' := by
  cases h with
  | all holds => exact .all holds
  | rootSplit run splits stuck => exact .rootSplit (indexAnswers_cons first run) splits stuck
  | noPageId stops next => exact .noPageId stops next

end Denotes

end ScuDb
