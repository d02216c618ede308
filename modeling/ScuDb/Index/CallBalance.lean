import ScuDb.Index.RemoveStored
import ScuDb.Index.PointQuery
import ScuDb.Index.IndexIterator

/-!
# Latches and pins of whole calls

While a writer works, it changes only pages it holds write-latched or has created, and the root id
only under the root latch.  Behind a call, all pins and latches are as they were before it.
-/

namespace ScuDb

open Program BTree Context

variable {K V : Type}

/-! ## Guarded writes -/

/-- The state at the start of a call: what happened before it is forgotten. -/
def TreeState.fresh (s : TreeState K V) : TreeState K V := { s with history := {} }

namespace BPlusTree

variable [LinearOrder K] {tree : BPlusTree K} {v : View K V} {s : TreeState K V}
  {t : Option (Σ d, BTree K V d)}

theorem Stored.fresh (h : Stored tree v s t) :
    Stored tree { v with created := [], deletions := [] } s.fresh t := by
  refine ⟨{ h.state with created := rfl, guarded := ⟨nofun, nofun⟩, deletions := rfl }, ?_,
    h.stores.congr rfl rfl rfl, h.free⟩
  exact ⟨h.rest.held, h.rest.opened, h.rest.rootHeld, h.rest.deleted⟩

/-- What an insertion leaves, whatever it makes of the tree. -/
theorem Stored.insert_settled [Inhabited K] [Inhabited V] (orders : Orders tree.comparator)
    (h : Stored tree v s t) (ex : v.exclusive = true) (k : K) (value : V) :
    Spec (tree.insert k value true) s (fun _ s' => ∃ v', At tree v' s' ∧ v.Settled v') Exhausted := by
  cases t with
  | none =>
    apply (h.insert_empty ex k value).mono
    · rintro _ s' ⟨-, v', settled, stored, -⟩
      exact ⟨v', stored.state, settled⟩
    · exact fun e s' full => full.2
  | some t =>
    obtain ⟨c, leaf, -, -, rule⟩ := h.insert_rule orders ex k value
    apply rule.mono
    · rintro _ s' ⟨-, v', h', settled, -⟩
      exact ⟨v', h', settled⟩
    · exact fun e s' full => full.2.2

/-- The pages of a tree. -/
def pages (t : Option (Σ d, BTree K V d)) : Multiset PageId :=
  match t with
  | none => 0
  | some t => t.2.ids

/-- What a removal leaves. -/
theorem Stored.remove_settled (orders : Orders tree.comparator) (h : Stored tree v s t)
    (ex : v.exclusive = true) (k : K) {E : Fault → TreeState K V → Prop} :
    Spec (tree.remove k true) s (fun _ s' => ∃ v' results, At tree v' s' ∧
      v.DeletedFrom (pages t) results ∧
      View.Settled { v with deletions := results ++ v.deletions } v') E := by
  cases t with
  | none =>
    apply h.remove_empty.post
    rintro _ _ rfl
    exact ⟨v, [], h.state, nofun, h.rest.settled⟩
  | some t =>
    apply (h.remove_rule orders ex k).post
    rintro _ s' ⟨v', r, results, stored, -, deleted, settled, -⟩
    exact ⟨v', results, stored.state, deleted, settled⟩

/-- `Insert` and `Remove` change the size, the entries or the next pointer of a page only while it
is write-latched in the page set or if they created it, and the root id only under the root latch. -/
theorem writers_guarded [Inhabited K] [Inhabited V] (orders : Orders tree.comparator)
    (h : Stored tree v s t) (k : K) (value : V) :
    Spec (tree.insert k value true) s.fresh (fun _ s' => s'.history.Guarded)
      (fun _ s' => s'.history.Guarded) ∧
    Spec (tree.remove k true) s.fresh (fun _ s' => s'.history.Guarded) fun _ _ => False := by
  have start := (h.exclusive true).fresh
  constructor
  · apply (start.insert_settled orders rfl k value).mono
    · rintro _ s' ⟨v', h', -⟩
      exact h'.guarded
    · exact fun e s' full => full.guarded
  · apply (start.remove_settled orders rfl k).post
    rintro _ s' ⟨v', results, h', -⟩
    exact h'.guarded

/-- An insertion that splits a leaf, and a removal that merges two. -/
theorem writers_guarded_threeLeaves :
    Spec (ofWideInts.insert 15 ⟨15, 0⟩ true) threeLeavesState.fresh
      (fun _ s' => s'.history.Guarded) (fun _ s' => s'.history.Guarded) ∧
    Spec (ofWideInts.remove 1 true) threeLeavesState.fresh (fun _ s' => s'.history.Guarded)
      fun _ _ => False := by
  obtain ⟨v, stored⟩ := stored_threeLeaves
  obtain ⟨insert, -⟩ := writers_guarded orders_ofWideInts stored 15 ⟨15, 0⟩
  obtain ⟨-, remove⟩ := writers_guarded orders_ofWideInts stored 1 ⟨1, 0⟩
  exact ⟨insert, remove⟩

/-! ## Pins and latches -/

/-- The pins and the latches are as before, the page sets are empty, and `DeletePage` succeeded for
every page it was called for, unless pages of the tree had been pinned before. -/
structure Balanced (t : Option (Σ d, BTree K V d)) (s s' : TreeState K V) : Prop where
  pinned : s'.pool.pinned = s.pool.pinned
  latch : s'.pool.latch = s.pool.latch
  mutex : s'.mMutex = s.mMutex
  lockedCnt : s'.mRootLockedCnt = s.mRootLockedCnt
  pageSet : s'.pageSet = []
  deletedPageSet : s'.deletedPageSet = ∅
  deletions : ∃ results, s'.history.deletions = results ++ s.history.deletions ∧
    ((∀ p ∈ pages t, p ∉ s.pool.pinned) → ∀ r ∈ results, r = true)

theorem Stored.balanced (h : Stored tree v s t) {v' : View K V} {s' : TreeState K V}
    (results : List Bool) (h' : At tree v' s') (deleted : v.DeletedFrom (pages t) results)
    (settled : View.Settled { v with deletions := results ++ v.deletions } v') :
    Balanced t s s' := by
  have pinned : s.pool.pinned = v.pins := by simp [h.state.pinned, h.rest.held]
  refine ⟨?_, funext fun p => ?_, ?_, ?_, ?_, ?_, results, ?_, fun alone r hr => ?_⟩
  · simp [h'.pinned, settled.rest.held, settled.pins, pinned]
  · simp [h'.latch, h.state.latch, settled.rest.held, h.rest.held, settled.base]
  · simp [h'.mutex, h.state.mutex, settled.rest.rootHeld, h.rest.rootHeld]
  · simp [h'.lockedCnt, h.state.lockedCnt, settled.rest.rootHeld, h.rest.rootHeld]
  · rw [h'.pageSet, settled.rest.held]
  · rw [h'.deleted, settled.rest.deleted]
  · rw [h'.deletions, settled.deletions, h.state.deletions]
  · obtain ⟨p, hp, rfl⟩ := deleted r hr
    rw [decide_eq_true_iff, ← pinned]
    exact alone p hp

theorem Stored.balanced_of_stored (h : Stored tree v s t) (ex : Bool) {s' : TreeState K V}
    (h' : Stored tree { v with exclusive := ex } s' t) : Balanced t s s' := by
  have same : { { v with exclusive := ex } with exclusive := v.exclusive } = v := rfl
  have back := h'.exclusive v.exclusive
  rw [same] at back
  exact h.balanced [] back.state nofun h.rest.settled

end BPlusTree

namespace IndexIterator

open BPlusTree

/-- `++` until the end of the index, but at most a number of times. -/
def walk : ℕ → IndexIterator → TreeM K V IndexIterator
  | 0, it => return it
  | n + 1, it => if it.isEnd then return it else do walk n (← it.next)

/-- An iterator that is destroyed at the end of the index, or before it. -/
def scan (start : TreeM K V IndexIterator) (n : ℕ) : TreeM K V Unit := do
  let it ← walk n (← start)
  it.destroy

variable [LinearOrder K] {tree : BPlusTree K} {v : View K V} {s : TreeState K V}
  {t : Option (Σ d, BTree K V d)} {it : IndexIterator} {E : Fault → TreeState K V → Prop}

/-- The iterator is at the end, or holds a leaf of the tree, with any index. -/
inductive Standing (tree : BPlusTree K) (v : View K V) (t : Option (Σ d, BTree K V d)) :
    IndexIterator → TreeState K V → Prop
  | atEnd {i : ℕ} {s : TreeState K V} (stored : Stored tree v s t) : Standing tree v t ⟨none, i⟩ s
  | on {l r : List (LeafNode K V)} {leaf : LeafNode K V} {i : ℕ} {s : TreeState K V}
      (on : On tree v s t l leaf r) : Standing tree v t ⟨some leaf.id, i⟩ s

theorem Remaining.standing {rest : List (K × V)} (h : Remaining tree v t it s rest) :
    Standing tree v t it s := by
  cases h with
  | atEnd stored => exact .atEnd stored
  | on on _ => exact .on on

/-- A round of the loop. -/
theorem Standing.next (h : Standing tree v t it s) (more : it.isEnd = false) :
    Spec it.next s (fun it' s' => Standing tree v t it' s') E := by
  cases h with
  | atEnd => cases more
  | @on l r leaf i _ on =>
    rw [next_eq]
    by_cases inside : i + 1 < leaf.entries.length
    · apply Spec.bind (on.leave_inside inside)
      rintro _ _ ⟨rfl, rfl⟩
      exact spec_pure (.on on)
    · apply Spec.bind (on.leave_leaf (not_lt.1 inside))
      exact fun cursor s' ready => ready.resume.post fun it' s'' => Remaining.standing

theorem Standing.walk (n : ℕ) : ∀ {it : IndexIterator} {s : TreeState K V},
    Standing tree v t it s → Spec (walk n it) s (fun it' s' => Standing tree v t it' s') E := by
  induction n with
  | zero => exact fun h => spec_pure h
  | succ n ih =>
    intro it s h
    unfold IndexIterator.walk
    cases atEnd : it.isEnd with
    | true => exact spec_pure h
    | false => exact Spec.bind (h.next atEnd) fun it' s' h' => ih h'

theorem Standing.destroy (h : Standing tree v t it s) :
    Spec it.destroy s (fun _ s' => Stored tree v s' t) E := by
  cases h with
  | atEnd stored => exact spec_pure stored
  | on on => exact on.unlockAndUnPin

theorem scan_rule {start : TreeM K V IndexIterator}
    (first : Spec start s (fun it s' => Standing tree v t it s') E) (n : ℕ) :
    Spec (scan start n) s (fun _ s' => Stored tree v s' t) E :=
  Spec.bind first fun _ _ h => Spec.bind (h.walk n) fun _ _ h' => h'.destroy

theorem beginAt_standing (orders : Orders tree.comparator) (h : Stored tree v s t) (k : K) :
    Spec (tree.beginAt k) s (fun it s' => Standing tree v t it s') E := by
  cases t with
  | none => exact start_empty h fun s' h' => spec_pure (.atEnd h')
  | some t =>
    obtain ⟨c, leaf, -, -, rule⟩ := beginAt_rule (k := k) orders h
    apply rule.post
    rintro _ s' ⟨rfl, on⟩
    exact .on on

end IndexIterator

namespace BPlusTree

open IndexIterator

variable [LinearOrder K] [Inhabited K] [Inhabited V] {tree : BPlusTree K} {v : View K V}
  {s : TreeState K V} {t : Option (Σ d, BTree K V d)}

/-- Behind every `Insert`, `Remove` and `GetValue`, and behind every iterator, the pins and the
latches are as they were. -/
theorem calls_balanced (orders : Orders tree.comparator) (h : Stored tree v s t) (k : K) (value : V)
    (result : List V) (transaction : Bool) (n : ℕ) :
    Spec (tree.insert k value true) s (fun _ s' => Balanced t s s') Exhausted ∧
    Spec (tree.remove k true) s (fun _ s' => Balanced t s s') (fun _ _ => False) ∧
    Spec (tree.getValue k result transaction) s (fun _ s' => Balanced t s s') (fun _ _ => False) ∧
    Spec (scan tree.begin n) s (fun _ s' => Balanced t s s') (fun _ _ => False) ∧
    Spec (scan (tree.beginAt k) n) s (fun _ s' => Balanced t s s') fun _ _ => False := by
  have h' := h.exclusive true
  refine ⟨?_, ?_, ?_, ?_, ?_⟩
  · apply (h'.insert_settled orders rfl k value).post
    rintro _ s' ⟨v', state, settled⟩
    exact h'.balanced [] state nofun settled
  · apply (h'.remove_settled orders rfl k).post
    rintro _ s' ⟨v', results, state, deleted, settled⟩
    exact h'.balanced results state deleted settled
  · cases t with
    | none =>
      apply (h.getValue_empty result).post
      rintro _ s' ⟨-, stored⟩
      exact h.balanced_of_stored _ stored
    | some t =>
      obtain ⟨found, -, rule⟩ := h.getValue_rule (k := k) orders transaction result
      apply rule.post
      rintro _ s' ⟨-, stored⟩
      exact h.balanced_of_stored _ stored
  · apply (scan_rule ((begin_rule h).post fun it s' => Remaining.standing) n).post
    exact fun _ s' => h.balanced_of_stored v.exclusive
  · apply (scan_rule (beginAt_standing orders h k) n).post
    exact fun _ s' => h.balanced_of_stored v.exclusive

theorem calls_balanced_threeLeaves : ∃ t : Option (Σ d, BTree ℤ RID d),
    Spec (ofWideInts.insert 15 ⟨15, 0⟩ true) threeLeavesState
      (fun _ s' => Balanced t threeLeavesState s') Exhausted ∧
    Spec (ofWideInts.remove 1 true) threeLeavesState
      (fun _ s' => Balanced t threeLeavesState s') (fun _ _ => False) ∧
    Spec (ofWideInts.getValue 6 [] false) threeLeavesState
      (fun _ s' => Balanced t threeLeavesState s') (fun _ _ => False) ∧
    Spec (scan ofWideInts.begin 3) threeLeavesState
      (fun _ s' => Balanced t threeLeavesState s') (fun _ _ => False) ∧
    Spec (scan (ofWideInts.beginAt 6) 3) threeLeavesState
      (fun _ s' => Balanced t threeLeavesState s') fun _ _ => False := by
  obtain ⟨v, stored⟩ := stored_threeLeaves
  obtain ⟨insert, -⟩ := calls_balanced orders_ofWideInts stored 15 ⟨15, 0⟩ [] false 3
  obtain ⟨-, remove, -⟩ := calls_balanced orders_ofWideInts stored 1 ⟨1, 0⟩ [] false 3
  obtain ⟨-, -, rest⟩ := calls_balanced orders_ofWideInts stored 6 ⟨6, 0⟩ [] false 3
  exact ⟨_, insert, remove, rest⟩

end BPlusTree

end ScuDb
