import Mathlib

/-!
# Binary search

The search over `[lo, hi)` for the first position at which `right` fails, when `right` holds below
a position and fails from it on.  `run` is the same search over a closed range of signed positions,
with a probe that may fault.
-/

namespace BinarySearch

variable {right : ℕ → Bool} {lo hi r : ℕ}

/-- The loop, with at most `fuel` rounds: the middle of `[lo, hi)` is dropped with the half the
target is not in. -/
def search (right : ℕ → Bool) : ℕ → ℕ → ℕ → ℕ
  | 0, lo, _ => lo
  | fuel + 1, lo, hi =>
    if lo < hi then
      let mid := (hi - 1 - lo) / 2 + lo
      if right mid then search right fuel (mid + 1) hi else search right fuel lo mid
    else lo

theorem search_le (right : ℕ → Bool) (fuel : ℕ) : ∀ {lo hi : ℕ}, lo ≤ hi →
    lo ≤ search right fuel lo hi ∧ search right fuel lo hi ≤ hi := by
  induction fuel with
  | zero => exact fun h => ⟨le_rfl, h⟩
  | succ fuel ih =>
    intro lo hi h
    simp only [search]
    split_ifs with inside
    · have := ih (show (hi - 1 - lo) / 2 + lo + 1 ≤ hi by omega)
      omega
    · have := ih (show lo ≤ (hi - 1 - lo) / 2 + lo by omega)
      omega
    · exact ⟨le_rfl, h⟩

/-- The search looks at positions inside the range only. -/
theorem search_congr {right' : ℕ → Bool} (fuel : ℕ) : ∀ {lo hi : ℕ},
    (∀ m, lo ≤ m → m < hi → right m = right' m) →
    search right fuel lo hi = search right' fuel lo hi := by
  induction fuel with
  | zero => exact fun _ => rfl
  | succ fuel ih =>
    intro lo hi same
    simp only [search]
    by_cases inside : lo < hi
    · rw [if_pos inside, if_pos inside, same _ (by omega) (by omega)]
      split_ifs
      · exact ih fun m h₁ h₂ => same m (by omega) h₂
      · exact ih fun m h₁ h₂ => same m h₁ (by omega)
    · rw [if_neg inside, if_neg inside]

/-- The search finds the position at which `right` changes. -/
theorem search_eq (fuel : ℕ) : ∀ {lo hi : ℕ}, lo ≤ r → r ≤ hi → hi ≤ lo + fuel →
    (∀ m, lo ≤ m → m < r → right m = true) → (∀ m, r ≤ m → m < hi → right m = false) →
    search right fuel lo hi = r := by
  induction fuel with
  | zero =>
    intro lo hi hl hr enough _ _
    simp only [search]
    omega
  | succ fuel ih =>
    intro lo hi hl hr enough below above
    simp only [search]
    split_ifs with inside hm
    · have upper : (hi - 1 - lo) / 2 + lo < r := by
        by_contra h
        rw [above _ (by omega) (by omega)] at hm
        cases hm
      refine ih (by omega) hr (by omega) (fun m h₁ h₂ => below m (by omega) h₂) above
    · have lower : r ≤ (hi - 1 - lo) / 2 + lo := by
        by_contra h
        exact hm (below _ (by omega) (by omega))
      refine ih hl lower (by omega) below (fun m h₁ h₂ => above m h₁ (by omega))
    · omega

/-- The search splits the range, if `right` holds below every position at which it holds. -/
theorem search_spec (fuel : ℕ) : ∀ {lo hi : ℕ}, lo ≤ hi → hi ≤ lo + fuel →
    (∀ m m', lo ≤ m → m ≤ m' → m' < hi → right m' = true → right m = true) →
    (∀ m, lo ≤ m → m < search right fuel lo hi → right m = true) ∧
      ∀ m, search right fuel lo hi ≤ m → m < hi → right m = false := by
  induction fuel with
  | zero =>
    intro lo hi le enough _
    simp only [search]
    exact ⟨fun m _ _ => by omega, fun m _ _ => by omega⟩
  | succ fuel ih =>
    intro lo hi le enough anti
    simp only [search]
    split_ifs with inside hm
    · obtain ⟨below, above⟩ := @ih ((hi - 1 - lo) / 2 + lo + 1) hi (by omega) (by omega)
        fun m m' h₁ h₂ h₃ => anti m m' (by omega) h₂ h₃
      refine ⟨fun m h₁ h₂ => ?_, above⟩
      by_cases low : m ≤ (hi - 1 - lo) / 2 + lo
      · exact anti m _ h₁ low (by omega) hm
      · exact below m (by omega) h₂
    · obtain ⟨below, above⟩ := @ih lo ((hi - 1 - lo) / 2 + lo) (by omega) (by omega)
        fun m m' h₁ h₂ h₃ => anti m m' h₁ h₂ (by omega)
      refine ⟨below, fun m h₁ h₂ => ?_⟩
      by_cases low : m < (hi - 1 - lo) / 2 + lo
      · exact above m h₁ low
      · rw [← Bool.not_eq_true]
        exact fun h => hm (anti _ m (by omega) (by omega) h₂ h)
    · exact ⟨fun m _ _ => by omega, fun m _ _ => by omega⟩

/-! ## The loop over a closed range -/

/-- The loop `while (beginning <= ending)`: both bounds at its end. -/
def run {ε : Type*} (probe : ℤ → Except ε Bool) (beginning ending : ℤ) : Except ε (ℤ × ℤ) :=
  if _inside : beginning ≤ ending then
    let mid := (ending - beginning) / 2 + beginning
    match probe mid with
    | .error e => .error e
    | .ok true => run probe (mid + 1) ending
    | .ok false => run probe beginning (mid - 1)
  else .ok (beginning, ending)
termination_by (ending + 1 - beginning).toNat
decreasing_by all_goals omega

/-- The loop ends with the bounds on both sides of what `search` finds, and probes positions of
the range only. -/
theorem run_eq {ε : Type*} {probe : ℤ → Except ε Bool} (fuel : ℕ) : ∀ {lo hi : ℕ}, lo ≤ hi →
    hi ≤ lo + fuel → (∀ m : ℕ, lo ≤ m → m < hi → probe m = .ok (right m)) →
      run probe lo (hi - 1) =
        .ok ((search right fuel lo hi : ℤ), (search right fuel lo hi : ℤ) - 1) := by
  induction fuel with
  | zero =>
    intro lo hi le enough _
    obtain rfl : lo = hi := by omega
    rw [run, dif_neg (by omega)]
    rfl
  | succ fuel ih =>
    intro lo hi le enough probes
    rw [run]
    simp only [search]
    by_cases inside : lo < hi
    · have middle : ((hi : ℤ) - 1 - lo) / 2 + lo = ((hi - 1 - lo) / 2 + lo : ℕ) := by omega
      rw [dif_pos (by omega), if_pos inside]
      simp only [middle]
      rw [probes _ (by omega) (by omega)]
      cases side : right ((hi - 1 - lo) / 2 + lo) with
      | true =>
        have upper := @ih ((hi - 1 - lo) / 2 + lo + 1) hi (by omega) (by omega)
          fun m h₁ h₂ => probes m (by omega) h₂
        rw [if_pos rfl]
        exact upper
      | false =>
        have lower := @ih lo ((hi - 1 - lo) / 2 + lo) (by omega) (by omega)
          fun m h₁ h₂ => probes m h₁ (by omega)
        rw [if_neg (by simp)]
        exact lower
    · obtain rfl : lo = hi := by omega
      rw [dif_neg (by omega), if_neg inside]

end BinarySearch
