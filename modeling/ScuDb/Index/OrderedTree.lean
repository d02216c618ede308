import ScuDb.Index.Descent
import ScuDb.Lib.Separators

/-!
# Ordered trees

The leaves of a tree in order, what it means that the keys and the separators are ordered, and when
a tree is well-formed.  An internal page off the leftmost path has its lower bound as its first
key; a context has the bounds of its hole.
-/

namespace ScuDb

open Separators

variable {K V : Type}

/-- The comparator is the order of the keys. -/
structure Orders [LinearOrder K] (comparator : K → K → ℤ) : Prop where
  neg_iff : ∀ a b, comparator a b < 0 ↔ a < b
  zero_iff : ∀ a b, comparator a b = 0 ↔ a = b

theorem Orders.nonpos_iff [LinearOrder K] {comparator : K → K → ℤ} (orders : Orders comparator)
    (a b : K) : comparator a b ≤ 0 ↔ a ≤ b := by
  rw [le_iff_lt_or_eq, le_iff_lt_or_eq, orders.neg_iff, orders.zero_iff]

theorem Orders.pos_iff [LinearOrder K] {comparator : K → K → ℤ} (orders : Orders comparator)
    (a b : K) : comparator a b > 0 ↔ b < a := by
  rw [gt_iff_lt, ← not_le, orders.nonpos_iff, not_le]

namespace BTree

/-! ## Leaves -/

/-- The leaves from left to right. -/
def leaves : {d : ℕ} → BTree K V d → List (LeafNode K V)
  | 0, t => [t]
  | _ + 1, t => (InnerNode.slots t).flatMap fun x => leaves x.2

/-- The leaves below a list of slots. -/
def slotLeaves {d : ℕ} (slots : List (K × BTree K V d)) : List (LeafNode K V) :=
  slots.flatMap fun x => leaves x.2

/-- The entries of the leaves. -/
def bindings {d : ℕ} (t : BTree K V d) : List (K × V) := t.leaves.flatMap LeafNode.entries

variable {d : ℕ} {slots slots' : List (K × BTree K V d)} {x : K × BTree K V d} {page : PageId}

theorem leaves_inner (t : InnerNode K (BTree K V d)) :
    leaves (d := d + 1) t = slotLeaves t.slots := rfl

@[simp] theorem slotLeaves_nil : slotLeaves ([] : List (K × BTree K V d)) = [] := rfl

@[simp] theorem slotLeaves_cons : slotLeaves (x :: slots) = leaves x.2 ++ slotLeaves slots := rfl

@[simp] theorem slotLeaves_append :
    slotLeaves (slots ++ slots') = slotLeaves slots ++ slotLeaves slots' := by
  simp [slotLeaves]

/-! ## The leaf chain -/

/-- The page of the first leaf, or `stop`. -/
def firstId (stop : PageId) : List (LeafNode K V) → PageId
  | [] => stop
  | t :: _ => t.id

/-- Every leaf points to the one after it, and the last one to `stop`. -/
def Chained (stop : PageId) : List (LeafNode K V) → Prop
  | [] => True
  | t :: rest => t.next = firstId stop rest ∧ Chained stop rest

theorem firstId_append {stop : PageId} (l r : List (LeafNode K V)) :
    firstId stop (l ++ r) = firstId (firstId stop r) l := by
  cases l <;> rfl

theorem chained_append {stop : PageId} {l r : List (LeafNode K V)} :
    Chained stop (l ++ r) ↔ Chained (firstId stop r) l ∧ Chained stop r := by
  induction l with
  | nil => simp [Chained]
  | cons t l ih =>
    simp only [List.cons_append, Chained]
    rw [ih, firstId_append, and_assoc]

/-- Leaves in the middle of the chain make room for others. -/
theorem chained_replace {stop : PageId} {l m m' r : List (LeafNode K V)}
    (h : Chained stop (l ++ m ++ r)) (first : ∀ q, firstId q m' = firstId q m)
    (next : ∀ q, Chained q m → Chained q m') : Chained stop (l ++ m' ++ r) := by
  rw [List.append_assoc, chained_append, chained_append, firstId_append] at h ⊢
  rw [first]
  exact ⟨h.1, next _ h.2.1, h.2.2⟩

/-! ## Order -/

section Order

variable [LinearOrder K]

/-- The keys of the leaves are sorted, not empty and between the bounds, and the separators fit. -/
def Ordered : {d : ℕ} → (lo hi : Bound K) → BTree K V d → Prop
  | 0, lo, hi, t => LeafNode.entries t ≠ [] ∧
    ((LeafNode.entries t).map Prod.fst).Pairwise (· < ·) ∧
    ∀ e ∈ LeafNode.entries t, lo ≤ key e.1 ∧ key e.1 < hi
  | _ + 1, lo, hi, t =>
    match InnerNode.slots t with
    | [] => False
    | x :: rest => (lo = ⊥ ∨ lo = key x.1) ∧ Between (fun a b u => Ordered a b u) hi lo x.2 rest

variable {lo hi : Bound K}

theorem ordered_cons {rest : List (K × BTree K V d)} :
    Ordered (d := d + 1) lo hi ⟨page, x :: rest⟩ ↔
      (lo = ⊥ ∨ lo = key x.1) ∧ Between (fun a b u => Ordered a b u) hi lo x.2 rest := Iff.rfl

theorem Ordered.lt : {d : ℕ} → {lo hi : Bound K} → {t : BTree K V d} → Ordered lo hi t → lo < hi
  | 0, _, _, _, h => by
    obtain ⟨e, he⟩ := List.exists_mem_of_ne_nil _ h.1
    exact (h.2.2 e he).1.trans_lt (h.2.2 e he).2
  | _ + 1, _, _, ⟨_, []⟩, h => h.elim
  | _ + 1, _, _, ⟨_, _ :: _⟩, h => Between.lt (fun _ _ _ => Ordered.lt) h.2

/-- The bindings are sorted and between the bounds. -/
theorem Ordered.bindings : {d : ℕ} → {lo hi : Bound K} → {t : BTree K V d} → Ordered lo hi t →
    (t.bindings.map Prod.fst).Pairwise (· < ·) ∧ ∀ e ∈ t.bindings, lo ≤ key e.1 ∧ key e.1 < hi
  | 0, _, _, t, h => by
    have same : BTree.bindings (d := 0) t = LeafNode.entries t := by
      simp [BTree.bindings, leaves]
    rw [same]
    exact h.2
  | _ + 1, _, _, ⟨_, []⟩, h => h.elim
  | d + 1, _, _, ⟨page, x :: rest⟩, h => by
    have same : BTree.bindings (d := d + 1) ⟨page, x :: rest⟩ =
        x.2.bindings ++ rest.flatMap fun z => z.2.bindings := by
      simp [BTree.bindings, leaves, List.flatMap_assoc]
    rw [same]
    exact Between.contents (fun _ _ _ => Ordered.lt) (fun _ _ _ => Ordered.bindings) h.2

/-- The bindings below some slots. -/
theorem between_bindings {rest : List (K × BTree K V d)}
    (h : Between (fun a b u => Ordered a b u) hi lo x.2 rest) :
    (((slotLeaves (x :: rest)).flatMap LeafNode.entries).map Prod.fst).Pairwise (· < ·) ∧
      ∀ e ∈ (slotLeaves (x :: rest)).flatMap LeafNode.entries, lo ≤ key e.1 ∧ key e.1 < hi := by
  have same : (slotLeaves (x :: rest)).flatMap LeafNode.entries =
      x.2.bindings ++ rest.flatMap fun z => z.2.bindings := by
    simp [slotLeaves, BTree.bindings, List.flatMap_assoc]
  rw [same]
  exact Between.contents (fun _ _ _ => Ordered.lt) (fun _ _ _ => Ordered.bindings) h

end Order

/-! ## Well-formed trees -/

/-- The sizes of the pages, where the root may have fewer entries. -/
def RootSized (n : KeySize) : {d : ℕ} → BTree K V d → Prop
  | 0, t => 1 ≤ (LeafNode.entries t).length ∧ (LeafNode.entries t).length ≤ n.leafMax
  | _ + 1, t => 2 ≤ (InnerNode.slots t).length ∧ (InnerNode.slots t).length ≤ n.internalMax ∧
    ∀ x ∈ InnerNode.slots t, Sized n x.2

/-- A well-formed tree: sizes, order, and the leaves linked in order. -/
structure WellFormed [LinearOrder K] (n : KeySize) (t : BTree K V d) : Prop where
  sized : RootSized n t
  ordered : Ordered ⊥ ⊤ t
  chained : Chained invalidPageId t.leaves

theorem RootSized.wide {n : KeySize} : {d : ℕ} → {t : BTree K V d} → RootSized n t → Wide t
  | 0, _, _ => trivial
  | _ + 1, _, h => ⟨h.1, fun x hx => (h.2.2 x hx).wide⟩

end BTree

/-! ## Contexts -/

namespace Context

open BTree

/-- The leaves to the left of the hole. -/
def before : {d : ℕ} → Context K V d → List (LeafNode K V)
  | _, top => []
  | _, frame _ left _ _ above => above.before ++ slotLeaves left

/-- The leaves to the right of the hole. -/
def after : {d : ℕ} → Context K V d → List (LeafNode K V)
  | _, top => []
  | _, frame _ _ _ right above => slotLeaves right ++ above.after

theorem leaves_plug : {d : ℕ} → (c : Context K V d) → (t : BTree K V d) →
    (c.plug t).2.leaves = c.before ++ t.leaves ++ c.after
  | _, top, t => by simp [plug, before, after]
  | _, frame page left k right above, t => by
    rw [plug, leaves_plug above, leaves_inner, before, after]
    simp

section Order

/-- The lower bound of the hole. -/
def lo : {d : ℕ} → Context K V d → Bound K
  | _, top => ⊥
  | _, frame _ [] _ _ above => above.lo
  | _, frame _ (_ :: _) k _ _ => key k

/-- The upper bound of the hole. -/
def hi : {d : ℕ} → Context K V d → Bound K
  | _, top => ⊤
  | _, frame _ _ _ [] above => above.hi
  | _, frame _ _ _ (y :: _) _ => key y.1

variable [LinearOrder K]

/-- The slots to the left of the hole are ordered below the key of the hole. -/
def LeftOrdered {d : ℕ} (lo : Bound K) (k : K) : List (K × BTree K V d) → Prop
  | [] => lo = ⊥ ∨ lo = key k
  | x :: l => (lo = ⊥ ∨ lo = key x.1) ∧ Between (fun a b u => BTree.Ordered a b u) (key k) lo x.2 l

/-- The slots to the right of the hole are ordered. -/
def RightOrdered {d : ℕ} (hi : Bound K) : List (K × BTree K V d) → Prop
  | [] => True
  | y :: r => Between (fun a b u => BTree.Ordered a b u) hi (key y.1) y.2 r

/-- The order of everything around the hole. -/
def Ordered : {d : ℕ} → Context K V d → Prop
  | _, top => True
  | _, frame _ left k right above =>
    LeftOrdered above.lo k left ∧ RightOrdered above.hi right ∧ above.Ordered

/-- The order of the slots from the hole on. -/
theorem between_hole {d : ℕ} (page : PageId) (left : List (K × BTree K V d)) (k : K)
    {right : List (K × BTree K V d)} {t : BTree K V d} {above : Context K V (d + 1)} {b : Bound K} :
    Between (fun a b u => BTree.Ordered a b u) above.hi b t right ↔
      RightOrdered above.hi right ∧ BTree.Ordered b (frame page left k right above).hi t := by
  cases right with
  | nil => simp [Between, RightOrdered, hi]
  | cons y r => simp only [Between, RightOrdered, hi, and_comm]

/-- The order of a node that is split at one of its slots. -/
theorem ordered_slots {d : ℕ} {page : PageId} {left right : List (K × BTree K V d)} {k : K}
    {t : BTree K V d} {above : Context K V (d + 1)} :
    BTree.Ordered (d := d + 1) above.lo above.hi ⟨page, left ++ (k, t) :: right⟩ ↔
      LeftOrdered above.lo k left ∧ RightOrdered above.hi right ∧
        BTree.Ordered (frame page left k right above).lo (frame page left k right above).hi t := by
  cases left with
  | nil =>
    rw [List.nil_append, ordered_cons, between_hole]
    rfl
  | cons x l =>
    rw [List.cons_append, ordered_cons, between_append, between_hole, ← and_assoc]
    rfl

/-- A tree is ordered if the context and the subtree in its hole are. -/
theorem ordered_plug : {d : ℕ} → (c : Context K V d) → (t : BTree K V d) →
    BTree.Ordered ⊥ ⊤ (c.plug t).2 ↔ c.Ordered ∧ BTree.Ordered c.lo c.hi t
  | _, top, t => by simp [plug, Ordered, lo, hi]
  | _, frame page left k right above, t => by
    rw [plug, ordered_plug above, ordered_slots, Ordered]
    constructor
    · rintro ⟨habove, hleft, hright, ht⟩
      exact ⟨⟨hleft, hright, habove⟩, ht⟩
    · rintro ⟨⟨hleft, hright, habove⟩, ht⟩
      exact ⟨habove, hleft, hright, ht⟩

end Order

end Context

end ScuDb
