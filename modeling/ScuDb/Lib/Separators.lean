import Mathlib

/-!
# Separators

Bounds of a linear order with both ends, and lists of items with keys between them: a first item,
and further ones each with the key that separates it from the one before.
-/

namespace Separators

variable {K T β : Type*}

/-- A bound for keys: below all, a key, or above all. -/
abbrev Bound (K : Type*) := WithBot (WithTop K)

/-- A key as a bound. -/
def key (k : K) : Bound K := ((k : WithTop K) : Bound K)

/-- Every item satisfies `P` between the bounds around it. -/
def Between (P : Bound K → Bound K → T → Prop) (hi : Bound K) : Bound K → T → List (K × T) → Prop
  | lo, x, [] => P lo hi x
  | lo, x, (k, y) :: rest => P lo (key k) x ∧ Between P hi (key k) y rest

variable {P Q : Bound K → Bound K → T → Prop} {lo hi : Bound K} {x y : T} {k : K}
  {l r rest : List (K × T)}

theorem between_append : Between P hi lo x (l ++ (k, y) :: r) ↔
    Between P (key k) lo x l ∧ Between P hi (key k) y r := by
  induction l generalizing lo x with
  | nil => rfl
  | cons z l ih =>
    obtain ⟨j, z⟩ := z
    simp only [List.cons_append, Between]
    rw [ih, and_assoc]

/-- Every item lies between two bounds. -/
theorem Between.exists_of_mem (h : Between P hi lo x rest) {z : T}
    (hz : z = x ∨ ∃ j, (j, z) ∈ rest) : ∃ a b, P a b z := by
  induction rest generalizing lo x with
  | nil =>
    obtain rfl | ⟨j, hj⟩ := hz
    · exact ⟨_, _, h⟩
    · cases hj
  | cons y rest ih =>
    obtain rfl | ⟨j, hj⟩ := hz
    · exact ⟨_, _, h.1⟩
    · obtain rfl | hj := List.mem_cons.1 hj
      · exact ih h.2 (.inl rfl)
      · exact ih h.2 (.inr ⟨j, hj⟩)

@[simp] theorem key_inj {a b : K} : key a = key b ↔ a = b := by
  simp [key]

section Order

variable [LinearOrder K]

@[simp] theorem key_le_key {a b : K} : key a ≤ key b ↔ a ≤ b := by
  simp [key]

@[simp] theorem key_lt_key {a b : K} : key a < key b ↔ a < b := by
  simp [key]

@[simp] theorem bot_lt_key : ⊥ < key k := WithBot.bot_lt_coe _

@[simp] theorem key_lt_top : key k < ⊤ := WithBot.coe_lt_coe.2 (WithTop.coe_lt_top k)

theorem Between.lt (proper : ∀ a b z, P a b z → a < b) (h : Between P hi lo x rest) : lo < hi := by
  induction rest generalizing lo x with
  | nil => exact proper _ _ _ h
  | cons y rest ih => exact (proper _ _ _ h.1).trans (ih h.2)

/-- The separators are sorted and lie between the outer bounds. -/
theorem Between.separators (proper : ∀ a b z, P a b z → a < b) (h : Between P hi lo x rest) :
    (rest.map Prod.fst).Pairwise (· < ·) ∧ ∀ z ∈ rest, lo < key z.1 ∧ key z.1 < hi := by
  induction rest generalizing lo x with
  | nil => simp
  | cons y rest ih =>
    obtain ⟨sorted, inside⟩ := ih h.2
    have first := proper _ _ _ h.1
    refine ⟨List.pairwise_cons.2 ⟨fun j hj => ?_, sorted⟩, fun z hz => ?_⟩
    · obtain ⟨z, hz, rfl⟩ := List.mem_map.1 hj
      exact key_lt_key.1 (inside z hz).1
    · obtain rfl | hz := List.mem_cons.1 hz
      · exact ⟨first, Between.lt proper h.2⟩
      · exact ⟨first.trans (inside z hz).1, (inside z hz).2⟩

/-- What the items contain is sorted and lies between the outer bounds, if it is so for each. -/
theorem Between.contents {f : T → List β} {g : β → K} (proper : ∀ a b z, P a b z → a < b)
    (each : ∀ a b z, P a b z →
      ((f z).map g).Pairwise (· < ·) ∧ ∀ e ∈ f z, a ≤ key (g e) ∧ key (g e) < b)
    (h : Between P hi lo x rest) :
    ((f x ++ rest.flatMap fun z => f z.2).map g).Pairwise (· < ·) ∧
      ∀ e ∈ f x ++ rest.flatMap fun z => f z.2, lo ≤ key (g e) ∧ key (g e) < hi := by
  induction rest generalizing lo x with
  | nil => simpa using each _ _ _ h
  | cons y rest ih =>
    obtain ⟨j, y⟩ := y
    obtain ⟨sortedX, insideX⟩ := each _ _ _ h.1
    obtain ⟨sorted, inside⟩ := ih h.2
    have above : key j < hi := Between.lt proper h.2
    have below := proper _ _ _ h.1
    rw [List.flatMap_cons, List.map_append, List.pairwise_append]
    refine ⟨⟨sortedX, sorted, fun a ha b hb => ?_⟩, fun e he => ?_⟩
    · obtain ⟨c, hc, rfl⟩ := List.mem_map.1 ha
      obtain ⟨d, hd, rfl⟩ := List.mem_map.1 hb
      exact key_lt_key.1 ((insideX c hc).2.trans_le (inside d hd).1)
    · obtain he | he := List.mem_append.1 he
      · exact ⟨(insideX e he).1, (insideX e he).2.trans above⟩
      · exact ⟨below.le.trans (inside e he).1, (inside e he).2⟩

/-- A sorted list splits at a key. -/
theorem exists_split (k : K) (strict : Bool) : ∀ {l : List (K × T)},
    (l.map Prod.fst).Pairwise (· < ·) → ∃ a b, l = a ++ b ∧
      (∀ z ∈ a, if strict then z.1 < k else z.1 ≤ k) ∧ ∀ z ∈ b, if strict then k ≤ z.1 else k < z.1
  | [], _ => ⟨[], [], rfl, by simp, by simp⟩
  | y :: l, sorted => by
    obtain ⟨above, sorted⟩ := List.pairwise_cons.1 sorted
    have later : ∀ z ∈ l, y.1 < z.1 := fun z hz => above z.1 (List.mem_map.2 ⟨z, hz, rfl⟩)
    obtain ⟨a, b, rfl, ha, hb⟩ := exists_split k strict sorted
    by_cases hy : if strict then y.1 < k else y.1 ≤ k
    · exact ⟨y :: a, b, rfl, List.forall_mem_cons.2 ⟨hy, ha⟩, hb⟩
    · refine ⟨[], y :: (a ++ b), rfl, by simp, List.forall_mem_cons.2 ⟨?_, fun z hz => ?_⟩⟩
      · cases strict
        · exact not_le.1 hy
        · exact not_lt.1 hy
      · cases strict
        · exact (not_le.1 hy).trans (later z hz)
        · exact (not_lt.1 hy).trans (later z hz).le

end Order

end Separators
