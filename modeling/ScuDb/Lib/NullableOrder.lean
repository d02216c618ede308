import Mathlib.Order.Lattice
import Mathlib.Data.List.Basic

/-!
# Rows with unknown entries

Two rows are compared at the first place where both have an entry and the entries differ.  On rows
that are unknown at the same places this is a linear order; an entry that is unknown in one row only
decides nothing, so it makes different rows compare as equal.
-/

namespace ScuDb

namespace NullableOrder

variable {α : Type*} [LinearOrder α]

/-- Comparison of two entries. -/
def compareEntries : Option α → Option α → ℤ
  | some x, some y => if x < y then -1 else if y < x then 1 else 0
  | _, _ => 0

/-- The first place that tells the rows apart decides. -/
def compareRows : List (Option α) → List (Option α) → ℤ
  | a :: as, b :: bs => if compareEntries a b = 0 then compareRows as bs else compareEntries a b
  | _, _ => 0

/-- The rows are unknown at the same places. -/
abbrev SameUnknown (as bs : List (Option α)) : Prop :=
  List.Forall₂ (fun a b => a = none ↔ b = none) as bs

variable {a b c : Option α} {as bs cs : List (Option α)}

@[simp] theorem compareEntries_none_left (b : Option α) : compareEntries none b = 0 := rfl

@[simp] theorem compareEntries_none_right (a : Option α) : compareEntries a none = 0 := by
  cases a <;> rfl

theorem compareEntries_swap (a b : Option α) : compareEntries b a = -compareEntries a b := by
  cases a with
  | none => cases b <;> rfl
  | some x =>
    cases b with
    | none => rfl
    | some y =>
      unfold compareEntries
      rcases lt_trichotomy x y with less | rfl | more
      · simp [less, less.not_gt]
      · simp
      · simp [more, more.not_gt]

theorem compareRows_cons (a b : Option α) (as bs : List (Option α)) :
    compareRows (a :: as) (b :: bs) =
      if compareEntries a b = 0 then compareRows as bs else compareEntries a b := rfl

theorem compareRows_swap (as : List (Option α)) : ∀ bs,
    compareRows bs as = -compareRows as bs := by
  induction as with
  | nil =>
    intro bs
    cases bs <;> rfl
  | cons a as ih =>
    intro bs
    cases bs with
    | nil => rfl
    | cons b bs =>
      rw [compareRows_cons, compareRows_cons, compareEntries_swap a b, ih bs]
      simp only [Int.neg_eq_zero]
      split_ifs <;> rfl

/-- Entries that are both known or both unknown. -/
theorem compareEntries_nonpos_iff (same : a = none ↔ b = none) :
    compareEntries a b ≤ 0 ↔ ∀ x y, a = some x → b = some y → x ≤ y := by
  cases a with
  | none =>
    obtain rfl := same.1 rfl
    simp [compareEntries]
  | some x =>
    cases b with
    | none => cases same.2 rfl
    | some y =>
      rw [compareEntries]
      rcases lt_trichotomy x y with less | rfl | more
      · simp [less, less.le]
      · simp
      · simp [more, more.not_gt, more.not_ge]

theorem compareEntries_eq_zero_iff (same : a = none ↔ b = none) :
    compareEntries a b = 0 ↔ a = b := by
  cases a with
  | none =>
    obtain rfl := same.1 rfl
    simp [compareEntries]
  | some x =>
    cases b with
    | none => cases same.2 rfl
    | some y =>
      simp only [compareEntries, Option.some.injEq]
      rcases lt_trichotomy x y with less | rfl | more
      · simp [less, less.ne]
      · simp
      · simp [more, more.not_gt, more.ne']

theorem compareRows_eq_zero (same : SameUnknown as bs) (tie : compareRows as bs = 0) : as = bs := by
  induction same with
  | nil => rfl
  | cons head _ ih =>
    rw [compareRows_cons] at tie
    split_ifs at tie with first
    · rw [(compareEntries_eq_zero_iff head).1 first, ih tie]
    · exact absurd tie first

theorem compareEntries_trans (hab : a = none ↔ b = none) (hbc : b = none ↔ c = none)
    (le : compareEntries a b ≤ 0) (le' : compareEntries b c ≤ 0) : compareEntries a c ≤ 0 := by
  rw [compareEntries_nonpos_iff hab] at le
  rw [compareEntries_nonpos_iff hbc] at le'
  rw [compareEntries_nonpos_iff (hab.trans hbc)]
  rintro x z rfl rfl
  cases b with
  | none => cases hab.2 rfl
  | some y => exact (le x y rfl rfl).trans (le' y z rfl rfl)

theorem compareRows_trans (hab : SameUnknown as bs) : ∀ {cs}, SameUnknown bs cs →
    compareRows as bs ≤ 0 → compareRows bs cs ≤ 0 → compareRows as cs ≤ 0 := by
  induction hab with
  | nil =>
    rintro _ ⟨⟩ _ _
    exact le_rfl
  | @cons a b as bs hab _ ih =>
    rintro _ hbc le le'
    obtain _ | @⟨_, c, _, cs, hbc, rest⟩ := hbc
    rw [compareRows_cons] at le le' ⊢
    have both := compareEntries_trans hab hbc
    by_cases ab : compareEntries a b = 0
    · obtain rfl := (compareEntries_eq_zero_iff hab).1 ab
      split_ifs with ac
      · rw [if_pos ab] at le
        rw [if_pos ac] at le'
        exact ih rest le le'
      · rwa [if_neg ac] at le'
    · rw [if_neg ab] at le
      by_cases bc : compareEntries b c = 0
      · obtain rfl := (compareEntries_eq_zero_iff hbc).1 bc
        rwa [if_neg ab]
      · rw [if_neg bc] at le'
        have less := both le le'
        rw [if_neg]
        · exact less
        · -- a tie would put `b` on both sides
          intro ac
          obtain rfl := (compareEntries_eq_zero_iff (hab.trans hbc)).1 ac
          have swap := compareEntries_swap a b
          omega

/-- Rows that differ only where one of them is unknown. -/
theorem compareRows_set (as : List (Option α)) : ∀ {i : ℕ} (_ : as[i]? = some none) (b : Option α),
    compareRows as (as.set i b) = 0 := by
  have same (a : Option α) : compareEntries a a = 0 := (compareEntries_eq_zero_iff Iff.rfl).2 rfl
  have refl (as : List (Option α)) : compareRows as as = 0 := by
    induction as with
    | nil => rfl
    | cons a as ih => rw [compareRows_cons, if_pos (same a), ih]
  induction as with
  | nil => exact nofun
  | cons a as ih =>
    intro i unknown b
    cases i with
    | zero =>
      cases unknown
      exact refl as
    | succ i =>
      rw [List.set_cons_succ, compareRows_cons, if_pos (same a)]
      exact ih unknown b

end NullableOrder

end ScuDb
