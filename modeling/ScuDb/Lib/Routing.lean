import Mathlib

/-!
# Routing by low bits

A routing sends every number to a bucket by its low bits: two numbers go to the same bucket exactly
when they agree on as many low bits as the bucket's depth says.  A bucket is split by moving the
numbers with the next bit set to a new bucket.
-/

namespace Routing

variable {β : Type*} {route : ℕ → β} {depth : β → ℕ} {cur new : β}

/-- Each bucket takes exactly the numbers that agree on its low bits. -/
def Routes (route : ℕ → β) (depth : β → ℕ) : Prop :=
  ∀ i j, route i = route j ↔ i ≡ j [MOD 2 ^ depth (route i)]

theorem modEq_two_pow_iff (i j d : ℕ) :
    i ≡ j [MOD 2 ^ d] ↔ ∀ b < d, i.testBit b = j.testBit b := by
  constructor
  · intro h b hb
    have bits := congrArg (fun n => n.testBit b) h
    simpa only [Nat.testBit_mod_two_pow, hb, decide_true, Bool.true_and] using bits
  · intro h
    refine Nat.eq_of_testBit_eq fun b => ?_
    simp only [Nat.testBit_mod_two_pow]
    by_cases hb : b < d
    · rw [h b hb]
    · simp [hb]

theorem modEq_two_pow_succ (i j d : ℕ) :
    i ≡ j [MOD 2 ^ (d + 1)] ↔ i ≡ j [MOD 2 ^ d] ∧ i.testBit d = j.testBit d := by
  simp only [modEq_two_pow_iff, Nat.forall_lt_succ_right]

/-! ## Directories -/

section Directory

variable [Inhabited β] {l : List β}

/-- A directory as a function of all numbers: slot `i` modulo its length. -/
def spread (l : List β) (i : ℕ) : β := l.getD (i % l.length) default

theorem spread_eq_getElem {i : ℕ} (hi : i < l.length) : spread l i = l[i] := by
  unfold spread
  rw [Nat.mod_eq_of_lt hi, List.getD_eq_getElem _ _ hi]

theorem spread_mod (i : ℕ) : spread l (i % l.length) = spread l i := by
  unfold spread
  rw [Nat.mod_mod]

theorem mem_iff_spread (ne : l ≠ []) (b : β) : b ∈ l ↔ ∃ i, spread l i = b := by
  constructor
  · intro hb
    obtain ⟨i, hi, e⟩ := List.getElem_of_mem hb
    exact ⟨i, (spread_eq_getElem hi).trans e⟩
  · rintro ⟨i, rfl⟩
    have hi : i % l.length < l.length := Nat.mod_lt _ (List.length_pos_of_ne_nil ne)
    rw [← spread_mod, spread_eq_getElem hi]
    exact List.getElem_mem hi

/-- Doubling the directory sends no number elsewhere. -/
theorem spread_append_self (ne : l ≠ []) : spread (l ++ l) = spread l := by
  funext i
  have pos := List.length_pos_of_ne_nil ne
  unfold spread
  rw [List.length_append, ← two_mul]
  have twice : i % (2 * l.length) < 2 * l.length := Nat.mod_lt _ (by omega)
  have same : i % (2 * l.length) % l.length = i % l.length := Nat.mod_mul_left_mod _ _ _
  by_cases h : i % (2 * l.length) < l.length
  · rw [List.getD_append _ _ _ _ h, ← same, Nat.mod_eq_of_lt h]
  · rw [List.getD_append_right _ _ _ _ (not_lt.1 h), ← same]
    generalize i % (2 * l.length) = r at twice h
    rw [Nat.mod_eq_sub_mod (not_lt.1 h), Nat.mod_eq_of_lt (by omega)]

end Directory

/-! ## Splits -/

variable [DecidableEq β]

/-- The numbers of `cur` with bit `d` set move to `new`. -/
def split (route : ℕ → β) (cur new : β) (d : ℕ) (i : ℕ) : β :=
  if route i = cur ∧ i.testBit d = true then new else route i

/-- The depths after a split of `cur`. -/
def deepen (depth : β → ℕ) (cur new : β) : β → ℕ :=
  Function.update (Function.update depth cur (depth cur + 1)) new (depth cur + 1)

theorem deepen_new (depth : β → ℕ) (cur new : β) :
    deepen depth cur new new = depth cur + 1 := Function.update_self _ _ _

theorem deepen_cur (ne : cur ≠ new) : deepen depth cur new cur = depth cur + 1 := by
  simp [deepen, ne]

theorem deepen_other {b : β} (hc : b ≠ cur) (hn : b ≠ new) : deepen depth cur new b = depth b := by
  simp [deepen, hc, hn]

theorem split_eq_new (fresh : ∀ i, route i ≠ new) {d i : ℕ} :
    split route cur new d i = new ↔ route i = cur ∧ i.testBit d = true := by
  unfold split
  split_ifs with h
  · exact ⟨fun _ => h, fun _ => rfl⟩
  · exact ⟨fun e => absurd e (fresh i), fun e => absurd e h⟩

theorem split_of_ne {d i : ℕ} (h : route i ≠ cur) : split route cur new d i = route i :=
  if_neg fun e => h e.1

theorem split_eq_cur (ne : cur ≠ new) {d i : ℕ} :
    split route cur new d i = cur ↔ route i = cur ∧ i.testBit d = false := by
  unfold split
  split_ifs with h
  · exact ⟨fun e => absurd e.symm ne, fun e => by simp [h.2] at e⟩
  · constructor
    · intro e
      exact ⟨e, by simpa [e] using h⟩
    · exact fun e => e.1

/-- Both halves are one bit deeper. -/
theorem deepen_split (ne : cur ≠ new) {d i : ℕ} (hi : route i = cur) :
    deepen depth cur new (split route cur new d i) = depth cur + 1 := by
  unfold split
  split_ifs
  · exact deepen_new depth cur new
  · rw [hi]
    exact deepen_cur ne

/-- A split by the next bit of the bucket keeps the routing. -/
theorem Routes.split (h : Routes route depth) (ne : cur ≠ new) (fresh : ∀ i, route i ≠ new) :
    Routes (split route cur new (depth cur)) (deepen depth cur new) := by
  intro i j
  by_cases hi : route i = cur
  · have agree := h i j
    rw [hi] at agree
    cases hb : i.testBit (depth cur) with
    | true =>
      have ei : Routing.split route cur new (depth cur) i = new := (split_eq_new fresh).2 ⟨hi, hb⟩
      rw [ei, deepen_new, modEq_two_pow_succ, hb, ← agree, eq_comm, split_eq_new fresh]
      exact and_congr eq_comm eq_comm
    | false =>
      have ei := (split_eq_cur ne).2 ⟨hi, hb⟩
      rw [ei, deepen_cur ne, modEq_two_pow_succ, hb, ← agree, eq_comm, split_eq_cur ne]
      exact and_congr eq_comm eq_comm
  · rw [split_of_ne hi, deepen_other hi (fresh i), ← h i j]
    by_cases hj : route j = cur
    · constructor
      · intro e
        unfold Routing.split at e
        split_ifs at e with hb
        · exact absurd e (fresh i)
        · exact e
      · exact fun e => absurd (e.trans hj) hi
    · rw [split_of_ne hj]

/-- Both halves of a split bucket are used. -/
theorem Routes.split_used (h : Routes route depth) (ne : cur ≠ new) (fresh : ∀ i, route i ≠ new)
    {i : ℕ} (hi : route i = cur) : ∃ j k, Routing.split route cur new (depth cur) j = cur ∧
      Routing.split route cur new (depth cur) k = new := by
  have low : i % 2 ^ depth cur < 2 ^ depth cur := Nat.mod_lt _ (by positivity)
  have hj : route (i % 2 ^ depth cur) = cur := by
    rw [← hi, eq_comm, h, hi]
    exact (Nat.mod_modEq _ _).symm
  have hk : route (i % 2 ^ depth cur + 2 ^ depth cur) = cur := by
    rw [← hi, eq_comm, h, hi]
    exact (Nat.mod_modEq i (2 ^ depth cur)).symm.trans (Nat.ModEq.symm (by simp [Nat.ModEq]))
  refine ⟨_, _, (split_eq_cur ne).2 ⟨hj, Nat.testBit_lt_two_pow low⟩,
    (split_eq_new fresh).2 ⟨hk, ?_⟩⟩
  rw [Nat.add_comm, Nat.testBit_two_pow_add_eq, Nat.testBit_lt_two_pow low]
  rfl

/-- The slots of `cur` with bit `d` set get `new`. -/
def splitSlots (l : List β) (cur new : β) (d : ℕ) : List β :=
  l.mapIdx fun i b => if b = cur ∧ i.testBit d = true then new else b

theorem spread_splitSlots [Inhabited β] {l : List β} {g d : ℕ} (hl : l.length = 2 ^ g) (hd : d < g)
    (cur new : β) :
    spread (splitSlots l cur new d) = split (spread l) cur new d := by
  funext i
  have hi : i % l.length < l.length := Nat.mod_lt _ (by rw [hl]; positivity)
  have hs : i % l.length < (splitSlots l cur new d).length := by simpa [splitSlots] using hi
  have bit : (i % l.length).testBit d = i.testBit d := by
    rw [hl, Nat.testBit_mod_two_pow]
    simp [hd]
  have len : (splitSlots l cur new d).length = l.length := by simp [splitSlots]
  rw [← spread_mod, len, spread_eq_getElem hs]
  simp only [splitSlots, List.getElem_mapIdx, bit]
  rw [← spread_eq_getElem hi, spread_mod]
  rfl

end Routing
