import Mathlib

/-!
# Machine integers and overflow

`wrap w` takes an integer modulo `256 ^ w` to the two's complement integers of `w` bytes, and
`IsInt w` says which these are.  An overflow can be told from the wrapped result: by the signs of a
sum, and by the division of a product, unless an operand is the least integer (`NonMin`).
-/

namespace MachineInt

/-- `i` modulo `256 ^ w`, as an integer of `w` bytes. -/
def wrap (w : ℕ) (i : ℤ) : ℤ := Int.bmod i (256 ^ w)

/-- The integers of `w` bytes. -/
def IsInt (w : ℕ) (i : ℤ) : Prop := -256 ^ w ≤ 2 * i ∧ 2 * i < 256 ^ w

/-- The integers of `w` bytes but the least. -/
def NonMin (w : ℕ) (i : ℤ) : Prop := -256 ^ w < 2 * i ∧ 2 * i < 256 ^ w

instance (w : ℕ) (i : ℤ) : Decidable (IsInt w i) := inferInstanceAs (Decidable (_ ∧ _))

variable {w w' : ℕ} {i x y : ℤ}

theorem NonMin.isInt (h : NonMin w i) : IsInt w i := ⟨h.1.le, h.2⟩

theorem NonMin.neg (h : NonMin w i) : NonMin w (-i) := by
  obtain ⟨lo, hi⟩ := h
  constructor <;> linarith

theorem IsInt.nonMin (h : IsInt w i) (ne : 2 * i ≠ -256 ^ w) : NonMin w i :=
  ⟨lt_of_le_of_ne h.1 ne.symm, h.2⟩

theorem pow_le_pow_width (h : w ≤ w') : (256 : ℤ) ^ w ≤ 256 ^ w' :=
  pow_le_pow_right₀ (by norm_num) h

theorem IsInt.mono (h : IsInt w i) (le : w ≤ w') : IsInt w' i := by
  have := pow_le_pow_width le
  exact ⟨by linarith [h.1], by linarith [h.2]⟩

theorem NonMin.mono (h : NonMin w i) (le : w ≤ w') : NonMin w' i := by
  have := pow_le_pow_width le
  exact ⟨by linarith [h.1], by linarith [h.2]⟩

theorem wrap_isInt (w : ℕ) (i : ℤ) : IsInt w (wrap w i) := by
  have pos : 0 < 256 ^ w := by positivity
  have lo := Int.le_bmod (x := i) pos
  have hi := Int.bmod_lt (x := i) pos
  push_cast at lo hi
  unfold IsInt wrap
  constructor <;> omega

theorem wrap_of_isInt (h : IsInt w i) : wrap w i = i := by
  apply Int.bmod_eq_of_le_mul_two
  · push_cast
    linarith [h.1]
  · push_cast
    linarith [h.2]

theorem wrap_eq_iff : wrap w i = i ↔ IsInt w i :=
  ⟨fun h => h ▸ wrap_isInt w i, wrap_of_isInt⟩

@[simp] theorem wrap_wrap (w : ℕ) (i : ℤ) : wrap w (wrap w i) = wrap w i :=
  wrap_of_isInt (wrap_isInt w i)

/-- Wrapping adds a multiple of the modulus. -/
theorem exists_wrap (w : ℕ) (i : ℤ) : ∃ k : ℤ, wrap w i = i + 256 ^ w * k := by
  obtain ⟨k, hk⟩ := Int.dvd_bmod_sub_self (x := i) (m := 256 ^ w)
  push_cast at hk
  exact ⟨k, by unfold wrap; linarith⟩

/-- A sum overflows if and only if the operands have one sign and the wrapped sum the other. -/
theorem add_overflow_iff (hx : NonMin w x) (hy : NonMin w y) :
    0 < x ∧ 0 < y ∧ wrap w (x + y) < 0 ∨ x < 0 ∧ y < 0 ∧ 0 < wrap w (x + y) ↔
      ¬ IsInt w (x + y) := by
  constructor
  · intro signs fits
    rw [wrap_of_isInt fits] at signs
    omega
  · intro overflow
    obtain ⟨k, hk⟩ := exists_wrap w (x + y)
    obtain ⟨lo, hi⟩ := wrap_isInt w (x + y)
    have pos : (0 : ℤ) < 256 ^ w := by positivity
    obtain ⟨xlo, xhi⟩ := hx
    obtain ⟨ylo, yhi⟩ := hy
    rw [hk] at lo hi ⊢
    generalize (256 : ℤ) ^ w = m at *
    have upper : k < 2 := by nlinarith
    have lower : -2 < k := by nlinarith
    have cases : k = -1 ∨ k = 0 ∨ k = 1 := by omega
    rcases cases with rfl | rfl | rfl
    · left
      omega
    · rw [mul_zero, add_zero] at hk
      exact absurd (wrap_eq_iff.1 hk) overflow
    · right
      omega

/-- A difference overflows if and only if the operands have different signs and the wrapped
difference has the sign of the second. -/
theorem sub_overflow_iff (hx : NonMin w x) (hy : NonMin w y) :
    0 < x ∧ y < 0 ∧ wrap w (x - y) < 0 ∨ x < 0 ∧ 0 < y ∧ 0 < wrap w (x - y) ↔
      ¬ IsInt w (x - y) := by
  have := add_overflow_iff hx hy.neg
  rwa [← sub_eq_add_neg, neg_pos, neg_lt_zero] at this

/-- A product overflows if and only if the wrapped product does not divide back. -/
theorem mul_overflow_iff (hy : IsInt w y) :
    y ≠ 0 ∧ (wrap w (x * y)).tdiv y ≠ x ↔ ¬ IsInt w (x * y) := by
  constructor
  · rintro ⟨nonzero, differ⟩ fits
    rw [wrap_of_isInt fits] at differ
    exact differ (Int.mul_tdiv_cancel _ nonzero)
  · intro overflow
    have nonzero : y ≠ 0 := by
      rintro rfl
      rw [mul_zero, ← wrap_eq_iff] at overflow
      exact overflow Int.zero_bmod
    refine ⟨nonzero, fun back => overflow (wrap_eq_iff.1 ?_)⟩
    obtain ⟨k, hk⟩ := exists_wrap w (x * y)
    have remainder := Int.tmod_add_tdiv_mul (wrap w (x * y)) y
    rw [back] at remainder
    have multiple : (wrap w (x * y)).tmod y = 256 ^ w * k := by linarith
    -- the remainder is smaller than the divisor, so as a multiple of the modulus it is zero
    have small : |256 ^ w * k| < |y| := by
      rw [← multiple, ← Int.natCast_natAbs, ← Int.natCast_natAbs, Int.natAbs_tmod, Nat.cast_lt]
      exact Nat.mod_lt _ (Int.natAbs_pos.2 nonzero)
    have zero : k = 0 := by
      by_contra ne
      have one : 1 ≤ |k| := Int.one_le_abs ne
      have pos : (0 : ℤ) < 256 ^ w := by positivity
      have bound : |y| ≤ 256 ^ w := by
        apply abs_le.2
        constructor
        · linarith [hy.1]
        · linarith [hy.2]
      rw [abs_mul, abs_of_pos pos] at small
      nlinarith
    rw [hk, zero, mul_zero, add_zero]

/-! ## Results that fit -/

theorem NonMin.of_abs_le (h : NonMin w x) (le : |i| ≤ |x|) : NonMin w i := by
  have bound : 2 * |x| < 256 ^ w := by
    rcases abs_cases x with ⟨e, -⟩ | ⟨e, -⟩
    · rw [e]
      exact h.2
    · rw [e]
      linarith [h.1]
  constructor
  · linarith [neg_abs_le i]
  · linarith [le_abs_self i]

/-- A quotient is no larger than the dividend. -/
theorem NonMin.tdiv (h : NonMin w x) (y : ℤ) : NonMin w (x.tdiv y) := by
  apply h.of_abs_le
  rw [← Int.natCast_natAbs, ← Int.natCast_natAbs, Nat.cast_le]
  exact Int.natAbs_tdiv_le_natAbs x y

/-- A remainder is no larger than the dividend. -/
theorem NonMin.tmod (h : NonMin w x) (y : ℤ) : NonMin w (x.tmod y) := by
  apply h.of_abs_le
  rw [← Int.natCast_natAbs, ← Int.natCast_natAbs, Nat.cast_le, Int.natAbs_tmod]
  exact Nat.mod_le _ _

/-- A sum fits one byte more. -/
theorem NonMin.add (hx : NonMin w x) (hy : NonMin w y) (lt : w < w') : IsInt w' (x + y) := by
  have wide := pow_le_pow_width (Nat.succ_le_of_lt lt)
  rw [pow_succ] at wide
  have pos : (0 : ℤ) < 256 ^ w := by positivity
  constructor
  · linarith [hx.1, hy.1]
  · linarith [hx.2, hy.2]

theorem NonMin.sub (hx : NonMin w x) (hy : NonMin w y) (lt : w < w') : IsInt w' (x - y) := by
  rw [sub_eq_add_neg]
  exact hx.add hy.neg lt

/-- A product fits twice the bytes. -/
theorem NonMin.mul (hx : NonMin w x) (hy : NonMin w y) (le : 2 * w ≤ w') : IsInt w' (x * y) := by
  have wide := pow_le_pow_width le
  rw [mul_comm 2 w, pow_mul, sq] at wide
  obtain ⟨xlo, xhi⟩ := hx
  obtain ⟨ylo, yhi⟩ := hy
  generalize (256 : ℤ) ^ w = m at *
  constructor <;> nlinarith

end MachineInt
