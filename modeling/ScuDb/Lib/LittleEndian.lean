import Mathlib

/-!
# Integers as little-endian bytes

`wordBytes k n` are the `k` low bytes of `n`, least significant first, and `wordValue` reads bytes
as digits of base 256; `intBytes` and `intValue` are the two's complement versions.  Reading what
was written gives the integer modulo `256 ^ k`, and bytes of one length are determined by the
integer they hold.
-/

namespace LittleEndian

/-- The `k` low bytes of `n`. -/
def wordBytes (k n : ℕ) : List UInt8 := (List.range k).map fun i => UInt8.ofNat (n / 256 ^ i)

/-- The number with the given bytes. -/
def wordValue (bs : List UInt8) : ℕ := Nat.ofDigits 256 (bs.map UInt8.toNat)

/-- The `k` bytes of the two's complement of `v`. -/
def intBytes (k : ℕ) (v : ℤ) : List UInt8 := wordBytes k (v % (256 ^ k : ℕ)).toNat

/-- The integer whose two's complement has the given bytes. -/
def intValue (bs : List UInt8) : ℤ := Int.bmod (wordValue bs) (256 ^ bs.length)

@[simp] theorem length_wordBytes (k n : ℕ) : (wordBytes k n).length = k := by
  simp [wordBytes]

@[simp] theorem length_intBytes (k : ℕ) (v : ℤ) : (intBytes k v).length = k :=
  length_wordBytes k _

theorem wordBytes_succ (k n : ℕ) :
    wordBytes (k + 1) n = UInt8.ofNat n :: wordBytes k (n / 256) := by
  unfold wordBytes
  rw [List.range_succ_eq_map, List.map_cons, pow_zero, Nat.div_one, List.map_map]
  refine congrArg _ (List.map_congr_left fun i _ => ?_)
  change UInt8.ofNat (n / 256 ^ (i + 1)) = _
  rw [pow_succ', Nat.div_div_eq_div_mul]

/-- Reading `k` written bytes gives the number modulo `256 ^ k`. -/
theorem wordValue_wordBytes (k n : ℕ) : wordValue (wordBytes k n) = n % 256 ^ k := by
  induction k generalizing n with
  | zero => simp [wordBytes, wordValue, Nat.mod_one]
  | succ k ih =>
    have rest := ih (n / 256)
    have low : (UInt8.ofNat n).toNat = n % 256 := UInt8.toNat_ofNat'
    unfold wordValue at rest ⊢
    rw [wordBytes_succ, List.map_cons, Nat.ofDigits_cons, rest, low, pow_succ' 256 k, Nat.mod_mul]

theorem wordValue_lt (bs : List UInt8) : wordValue bs < 256 ^ bs.length := by
  have := Nat.ofDigits_lt_base_pow_length (b := 256) (l := bs.map UInt8.toNat) (by decide)
    fun x hx => by
      obtain ⟨b, -, rfl⟩ := List.mem_map.1 hx
      exact b.toNat_lt
  rwa [List.length_map] at this

theorem wordValue_inj {bs cs : List UInt8} (len : bs.length = cs.length)
    (h : wordValue bs = wordValue cs) : bs = cs := by
  have digits (l : List UInt8) : ∀ x ∈ l.map UInt8.toNat, x < 256 := fun x hx => by
    obtain ⟨b, -, rfl⟩ := List.mem_map.1 hx
    exact b.toNat_lt
  have := Nat.ofDigits_inj_of_len_eq (by decide) (by simpa using len) (digits bs) (digits cs) h
  exact List.map_injective_iff.2 (fun a b => UInt8.toNat_inj.1) this

/-- Reading `k` written bytes gives the integer modulo `256 ^ k`, nearest to zero. -/
theorem intValue_intBytes (k : ℕ) (v : ℤ) : intValue (intBytes k v) = Int.bmod v (256 ^ k) := by
  have nonneg : 0 ≤ v % (256 ^ k : ℕ) := Int.emod_nonneg _ (by positivity)
  have lt : (v % (256 ^ k : ℕ)).toNat < 256 ^ k := by
    have := Int.emod_lt_of_pos v (show (0 : ℤ) < (256 ^ k : ℕ) by positivity)
    omega
  unfold intValue intBytes
  rw [wordValue_wordBytes, length_wordBytes, Nat.mod_eq_of_lt lt, Int.toNat_of_nonneg nonneg,
    Int.emod_bmod]

theorem intValue_inj {bs cs : List UInt8} (len : bs.length = cs.length)
    (h : intValue bs = intValue cs) : bs = cs := by
  unfold intValue at h
  rw [← len] at h
  have ltb := wordValue_lt bs
  have ltc := wordValue_lt cs
  rw [← len] at ltc
  refine wordValue_inj len ?_
  have mod : (wordValue bs : ℤ) % (256 ^ bs.length : ℕ) = wordValue cs % (256 ^ bs.length : ℕ) := by
    rw [← Int.bmod_emod, h, Int.bmod_emod]
  rwa [← Int.natCast_mod, ← Int.natCast_mod, Nat.mod_eq_of_lt ltb, Nat.mod_eq_of_lt ltc,
    Nat.cast_inj] at mod

/-- Bytes are the two's complement of the integer read from them. -/
theorem intBytes_intValue (bs : List UInt8) : intBytes bs.length (intValue bs) = bs := by
  refine intValue_inj (length_intBytes _ _) ?_
  rw [intValue_intBytes]
  unfold intValue
  exact Int.bmod_bmod

/-- Bytes are also the low bytes of the number read from them. -/
theorem intBytes_wordValue (bs : List UInt8) : intBytes bs.length (wordValue bs) = bs := by
  refine intValue_inj (length_intBytes _ _) ?_
  rw [intValue_intBytes]
  rfl

end LittleEndian
