import Mathlib

/-!
# Tilings of an integer range

A family of half-open integer intervals, some of them in use, that are pairwise disjoint and
together cover exactly `[lo, hi)`.  A tiling stays one when an interval is added at its lower end,
when one is removed and those below it move up over the gap, and when one changes its length and
those below it move by the difference.  It does not stay one when only some of them move.
-/

namespace Tiling

variable {ι : Type*} {used used' : ι → Prop} {off off' len len' : ι → ℤ} {lo lo' hi : ℤ}

/-- The intervals `[off i, off i + len i)` in use are disjoint and cover exactly `[lo, hi)`. -/
structure Tiles (used : ι → Prop) (off len : ι → ℤ) (lo hi : ℤ) : Prop where
  pos : ∀ i, used i → 0 < len i
  disjoint : ∀ i j, used i → used j → i ≠ j → ∀ x, off i ≤ x → x < off i + len i →
    ¬ (off j ≤ x ∧ x < off j + len j)
  exact : ∀ x, (lo ≤ x ∧ x < hi) ↔ ∃ i, used i ∧ off i ≤ x ∧ x < off i + len i

namespace Tiles

theorem bounds (h : Tiles used off len lo hi) {i : ι} (hi' : used i) :
    lo ≤ off i ∧ off i + len i ≤ hi := by
  have pos := h.pos i hi'
  have first := (h.exact (off i)).2 ⟨i, hi', by omega, by omega⟩
  have last := (h.exact (off i + len i - 1)).2 ⟨i, hi', by omega, by omega⟩
  omega

/-- Of two intervals, the one that starts first ends before the other starts. -/
theorem ends_before (h : Tiles used off len lo hi) {i j : ι} (hi' : used i) (hj : used j)
    (hij : i ≠ j) (lt : off j ≤ off i) : off j + len j ≤ off i := by
  have pos := h.pos i hi'
  by_contra hn
  exact h.disjoint i j hi' hj hij (off i) (by omega) (by omega) ⟨lt, by omega⟩

/-- Another interval lies below interval `i` or behind it. -/
theorem below_or_behind (h : Tiles used off len lo hi) {i j : ι} (hi' : used i) (hj : used j)
    (hji : j ≠ i) :
    (off j < off i ∧ off j + len j ≤ off i) ∨ (¬ off j < off i ∧ off i + len i ≤ off j) := by
  by_cases hlt : off j < off i
  · exact .inl ⟨hlt, h.ends_before hi' hj hji.symm (by omega)⟩
  · exact .inr ⟨hlt, h.ends_before hj hi' hji (by omega)⟩

theorem empty (unused : ∀ i, ¬ used i) : Tiles used off len hi hi where
  pos i h := absurd h (unused i)
  disjoint i _ h := absurd h (unused i)
  exact x := by
    constructor
    · intro hx
      omega
    · rintro ⟨i, h, -⟩
      exact absurd h (unused i)

/-- A tiling only depends on the intervals in use. -/
theorem congr (h : Tiles used off len lo hi) (hused : ∀ i, used' i ↔ used i)
    (hoff : ∀ i, used i → off' i = off i) (hlen : ∀ i, used i → len' i = len i) :
    Tiles used' off' len' lo hi := by
  refine ⟨fun i hi' => ?_, fun i j hi' hj hij x => ?_, fun x => ?_⟩
  · rw [hused] at hi'
    rw [hlen i hi']
    exact h.pos i hi'
  · rw [hused] at hi' hj
    rw [hoff i hi', hlen i hi', hoff j hj, hlen j hj]
    exact h.disjoint i j hi' hj hij x
  · rw [h.exact x]
    refine exists_congr fun i => ?_
    rw [hused]
    refine and_congr_right fun hi' => ?_
    rw [hoff i hi', hlen i hi']

/-- A new interval at the lower end. -/
theorem push (h : Tiles used off len lo hi) {i : ι} (fresh : ¬ used i)
    (hused : ∀ j, used' j ↔ j = i ∨ used j) (pos : 0 < len' i) (start : off' i = lo - len' i)
    (hoff : ∀ j, used j → off' j = off j) (hlen : ∀ j, used j → len' j = len j) (le : lo ≤ hi) :
    Tiles used' off' len' (lo - len' i) hi := by
  have apart (j : ι) (hj : used j) : lo ≤ off' j := by
    rw [hoff j hj]
    exact (h.bounds hj).1
  refine ⟨fun j hj => ?_, fun j k hj hk hjk x lo' hi' => ?_, fun x => ?_⟩
  · rcases (hused j).1 hj with rfl | hj
    · exact pos
    · rw [hlen j hj]
      exact h.pos j hj
  · rcases (hused j).1 hj with rfl | hj <;> rcases (hused k).1 hk with rfl | hk
    · exact absurd rfl hjk
    · have := apart k hk
      omega
    · have := apart j hj
      omega
    · rw [hoff j hj] at lo' hi'
      rw [hlen j hj] at hi'
      rw [hoff k hk, hlen k hk]
      exact h.disjoint j k hj hk hjk x lo' hi'
  · constructor
    · intro hx
      by_cases hlow : x < lo
      · exact ⟨i, (hused i).2 (.inl rfl), by omega, by omega⟩
      · obtain ⟨j, hj, hx'⟩ := (h.exact x).1 ⟨by omega, hx.2⟩
        refine ⟨j, (hused j).2 (.inr hj), ?_⟩
        rwa [hoff j hj, hlen j hj]
    · rintro ⟨j, hj, hx⟩
      rcases (hused j).1 hj with rfl | hj
      · omega
      · rw [hoff j hj, hlen j hj] at hx
        have := (h.exact x).2 ⟨j, hj, hx⟩
        omega

/-- Interval `i` is removed and those below it move up. -/
theorem remove (h : Tiles used off len lo hi) {i : ι} (hi' : used i)
    (hused : ∀ j, used' j ↔ j ≠ i ∧ used j)
    (hoff : ∀ j, j ≠ i → used j → off' j = if off j < off i then off j + len i else off j)
    (hlen : ∀ j, j ≠ i → used j → len' j = len j) : Tiles used' off' len' (lo + len i) hi := by
  have pos := h.pos i hi'
  have bounds := h.bounds hi'
  have side (j : ι) (hji : j ≠ i) (hj : used j) :
      (off j < off i ∧ off j + len j ≤ off i ∧ off' j = off j + len i) ∨
        (off i + len i ≤ off j ∧ off' j = off j) := by
    rw [hoff j hji hj]
    rcases h.below_or_behind hi' hj hji with ⟨hlt, hend⟩ | ⟨hlt, hend⟩
    · exact .inl ⟨hlt, hend, if_pos hlt⟩
    · exact .inr ⟨hend, if_neg hlt⟩
  refine ⟨fun j hj => ?_, fun j k hj hk hjk x => ?_, fun x => ?_⟩
  · obtain ⟨hji, hj⟩ := (hused j).1 hj
    rw [hlen j hji hj]
    exact h.pos j hj
  · obtain ⟨hji, hj⟩ := (hused j).1 hj
    obtain ⟨hki, hk⟩ := (hused k).1 hk
    rw [hlen j hji hj, hlen k hki hk]
    have hd := h.disjoint j k hj hk hjk
    have hd' := hd (x - len i)
    have hd := hd x
    rcases side j hji hj with hj' | hj' <;> rcases side k hki hk with hk' | hk' <;> omega
  · constructor
    · intro hx
      by_cases hlow : x < off i + len i
      · obtain ⟨j, hj, hx'⟩ := (h.exact (x - len i)).1 (by omega)
        have hji : j ≠ i := by
          rintro rfl
          omega
        refine ⟨j, (hused j).2 ⟨hji, hj⟩, ?_⟩
        rw [hlen j hji hj]
        rcases side j hji hj with hj' | hj' <;> omega
      · obtain ⟨j, hj, hx'⟩ := (h.exact x).1 (by omega)
        have hji : j ≠ i := by
          rintro rfl
          omega
        refine ⟨j, (hused j).2 ⟨hji, hj⟩, ?_⟩
        rw [hlen j hji hj]
        rcases side j hji hj with hj' | hj' <;> omega
    · rintro ⟨j, hj, hx⟩
      obtain ⟨hji, hj⟩ := (hused j).1 hj
      rw [hlen j hji hj] at hx
      have hb := h.bounds hj
      rcases side j hji hj with hj' | hj' <;> omega

/-- Interval `i` changes its length and those below it move by the difference. -/
theorem resize (h : Tiles used off len lo hi) {i : ι} (hi' : used i)
    (hused : ∀ j, used' j ↔ used j) (pos' : 0 < len' i)
    (start : off' i = off i + len i - len' i)
    (hoff : ∀ j, j ≠ i → used j →
      off' j = if off j < off i then off j + len i - len' i else off j)
    (hlen : ∀ j, j ≠ i → used j → len' j = len j) :
    Tiles used' off' len' (lo + len i - len' i) hi := by
  have pos := h.pos i hi'
  have bounds := h.bounds hi'
  have side (j : ι) (hji : j ≠ i) (hj : used j) :
      (off j < off i ∧ off j + len j ≤ off i ∧ off' j = off j + len i - len' i) ∨
        (off i + len i ≤ off j ∧ off' j = off j) := by
    rw [hoff j hji hj]
    rcases h.below_or_behind hi' hj hji with ⟨hlt, hend⟩ | ⟨hlt, hend⟩
    · exact .inl ⟨hlt, hend, if_pos hlt⟩
    · exact .inr ⟨hend, if_neg hlt⟩
  refine ⟨fun j hj => ?_, fun j k hj hk hjk x => ?_, fun x => ?_⟩
  · rw [hused] at hj
    by_cases hji : j = i
    · rwa [hji]
    · rw [hlen j hji hj]
      exact h.pos j hj
  · rw [hused] at hj hk
    have hd' := h.disjoint j k hj hk hjk (x - len i + len' i)
    have hd := h.disjoint j k hj hk hjk x
    by_cases hji : j = i
    · subst hji
      rw [hlen k hjk.symm hk]
      rcases side k hjk.symm hk with hk' | hk' <;> omega
    · rw [hlen j hji hj]
      by_cases hki : k = i
      · subst hki
        rcases side j hji hj with hj' | hj' <;> omega
      · rw [hlen k hki hk]
        rcases side j hji hj with hj' | hj' <;> rcases side k hki hk with hk' | hk' <;> omega
  · constructor
    · intro hx
      by_cases hlow : x < off' i
      · obtain ⟨j, hj, hx'⟩ := (h.exact (x - len i + len' i)).1 (by omega)
        have hji : j ≠ i := by
          rintro rfl
          omega
        refine ⟨j, (hused j).2 hj, ?_⟩
        rw [hlen j hji hj]
        rcases side j hji hj with hj' | hj' <;> omega
      · by_cases hself : x < off i + len i
        · exact ⟨i, (hused i).2 hi', by omega, by omega⟩
        · obtain ⟨j, hj, hx'⟩ := (h.exact x).1 (by omega)
          have hji : j ≠ i := by
            rintro rfl
            omega
          refine ⟨j, (hused j).2 hj, ?_⟩
          rw [hlen j hji hj]
          rcases side j hji hj with hj' | hj' <;> omega
    · rintro ⟨j, hj, hx⟩
      rw [hused] at hj
      have hb := h.bounds hj
      by_cases hji : j = i
      · subst hji
        omega
      · rw [hlen j hji hj] at hx
        rcases side j hji hj with hj' | hj' <;> omega

/-- Two tilings of one range by intervals of the same lengths that only move up are the same. -/
theorem eq_of_le (h : Tiles used off len lo hi) (h' : Tiles used off' len lo hi)
    (le : ∀ i, used i → off i ≤ off' i) {i : ι} (hi' : used i) : off' i = off i := by
  -- those behind `i` have not moved, so there is no room for it to move up
  induction n : (hi - off i).toNat using Nat.strong_induction_on generalizing i with
  | _ n ih =>
    have hle := le i hi'
    have pos := h.pos i hi'
    have hb := h'.bounds hi'
    have hb' := h.bounds hi'
    by_contra moved
    obtain ⟨j, hj, hstart, hend⟩ := (h.exact (off' i + len i - 1)).1 (by omega)
    have hji : j ≠ i := by
      rintro rfl
      omega
    have behind : off i < off j := by
      rcases h.below_or_behind hi' hj hji with ⟨-, hbelow⟩ | ⟨-, hbehind⟩ <;> omega
    have bj := h.bounds hj
    have posj := h.pos j hj
    have same := ih (hi - off j).toNat (by omega) hj rfl
    exact h'.disjoint i j hi' hj hji.symm (off' i + len i - 1) (by omega) (by omega)
      ⟨by omega, by omega⟩

end Tiles

end Tiling
