import Mathlib

/-!
# Arrays with a number of used slots

An array is a function from slots; `entries a n` lists its first `n` slots.  The operations shift a
part of the array by one slot or copy a range; the lemmas say what they do to the lists.
-/

namespace SlotArray

variable {α β : Type*}

/-- The first `n` slots. -/
def entries (a : ℕ → α) (n : ℕ) : List α := (List.range n).map a

/-- The slots from `i` to the `n`-th move up by one, and `x` is stored at `i`. -/
def insertAt (a : ℕ → α) (n i : ℕ) (x : α) : ℕ → α := fun j =>
  if j = i then x else if i < j ∧ j ≤ n then a (j - 1) else a j

/-- The slots behind `i`, up to the `n`-th, move down by one. -/
def removeAt (a : ℕ → α) (n i : ℕ) : ℕ → α := fun j =>
  if i ≤ j ∧ j + 1 < n then a (j + 1) else a j

/-- `k` slots of `src` from `start` on are copied to `dst` from `pos` on. -/
def copyTo (dst : ℕ → α) (pos : ℕ) (src : ℕ → α) (start k : ℕ) : ℕ → α := fun j =>
  if pos ≤ j ∧ j < pos + k then src (start + (j - pos)) else dst j

variable (a : ℕ → α) (n : ℕ)

@[simp] theorem length_entries : (entries a n).length = n := by
  simp [entries]

@[simp] theorem getElem_entries {i : ℕ} (h : i < (entries a n).length) : (entries a n)[i] = a i := by
  simp [entries]

theorem entries_succ : entries a (n + 1) = entries a n ++ [a n] := by
  simp [entries, List.range_succ]

theorem map_entries (f : α → β) : (entries a n).map f = entries (fun i => f (a i)) n := by
  simp [entries, Function.comp_def]

theorem entries_take {m : ℕ} (h : m ≤ n) : entries a m = (entries a n).take m := by
  simp [entries, ← List.map_take, List.take_range, Nat.min_eq_left h]

theorem mem_entries {x : α} : x ∈ entries a n ↔ ∃ i < n, a i = x := by
  simp [entries]

theorem entries_update (i : ℕ) (x : α) :
    entries (Function.update a i x) n = (entries a n).set i x := by
  apply List.ext_getElem
  · simp
  · intro j h₁ h₂
    simp only [getElem_entries, List.getElem_set, Function.update_apply, eq_comm]

/-- An array made of a list. -/
theorem entries_getD (l : List α) (x : α) : entries (fun i => l.getD i x) l.length = l := by
  apply List.ext_getElem
  · simp
  · intro i h _
    rw [getElem_entries, List.getD_eq_getElem]

theorem entries_push (x : α) : entries (Function.update a n x) (n + 1) = entries a n ++ [x] := by
  rw [entries_succ, Function.update_self, entries_update, List.set_eq_of_length_le (by simp)]

theorem entries_insertAt {i : ℕ} (h : i ≤ n) (x : α) :
    entries (insertAt a n i x) (n + 1) = (entries a n).take i ++ x :: (entries a n).drop i := by
  apply List.ext_getElem
  · simp
    omega
  · intro j h₁ h₂
    simp only [length_entries] at h₁
    have length : ((entries a n).take i).length = i := by simp [h]
    rw [getElem_entries]
    obtain hj | rfl | hj := lt_trichotomy j i
    · rw [List.getElem_append_left (by omega), List.getElem_take, getElem_entries]
      simp [insertAt, hj.ne, hj.not_gt]
    · rw [List.getElem_append_right (by omega)]
      simp [insertAt, length]
    · rw [List.getElem_append_right (by omega)]
      obtain ⟨k, rfl⟩ : ∃ k, j = i + 1 + k := ⟨j - (i + 1), by omega⟩
      have index : i + 1 + k - ((entries a n).take i).length = k + 1 := by omega
      simp only [index, List.getElem_cons_succ, List.getElem_drop, getElem_entries]
      simp only [insertAt]
      rw [if_neg (by omega), if_pos (by omega)]
      congr 1
      omega

theorem entries_removeAt {i : ℕ} (h : i < n + 1) :
    entries (removeAt a (n + 1) i) n = (entries a (n + 1)).eraseIdx i := by
  apply List.ext_getElem
  · simp [List.length_eraseIdx, h]
  · intro j h₁ h₂
    simp only [length_entries] at h₁
    simp only [getElem_entries, List.getElem_eraseIdx, removeAt]
    split_ifs
    · omega
    · rfl
    · rfl
    · omega

theorem entries_copyTo (b : ℕ → α) (start k : ℕ) :
    entries (copyTo a n b start k) (n + k) = entries a n ++ (entries b (start + k)).drop start := by
  apply List.ext_getElem
  · simp
  · intro j h₁ h₂
    simp only [length_entries] at h₁
    rw [getElem_entries]
    obtain hj | hj := lt_or_ge j n
    · rw [List.getElem_append_left (by simpa), getElem_entries]
      simp [copyTo, hj.not_ge]
    · rw [List.getElem_append_right (by simpa)]
      simp only [List.getElem_drop, getElem_entries, length_entries, copyTo]
      rw [if_pos (by omega)]

/-- A relation between neighbours holds between all slots in order. -/
theorem rel_of_neighbours {r : α → α → Prop} [IsTrans α r] {m : ℕ}
    (next : ∀ i, m ≤ i → i + 1 < n → r (a i) (a (i + 1))) {i : ℕ} (hi : m ≤ i) :
    ∀ {j : ℕ}, i < j → j < n → r (a i) (a j) := by
  intro j lt hj
  induction j with
  | zero => omega
  | succ j ih =>
    rcases Nat.lt_succ_iff_lt_or_eq.1 lt with lt | rfl
    · exact IsTrans.trans _ _ _ (ih lt (by omega)) (next j (by omega) hj)
    · exact next i hi hj

theorem pairwise_entries {r : α → α → Prop} :
    (entries a n).Pairwise r ↔ ∀ i j, i < j → j < n → r (a i) (a j) := by
  rw [List.pairwise_iff_getElem]
  simp only [length_entries, getElem_entries]
  exact ⟨fun h i j lt hj => h i j (lt.trans hj) hj lt, fun h i j _ hj lt => h i j lt hj⟩

end SlotArray
