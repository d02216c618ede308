import Mathlib

/-!
# Fixed-size byte memory

A memory of `n` bytes is a function `Fin n → UInt8`.  Byte ranges are read with `slice` and
written with `write`; a `memmove` is a `write` of a `slice`.  Words are 32-bit two's complement
integers in little-endian order (`getInt32`, `setInt32`).  The lemmas say what a read sees after a
write: the written bytes inside the range, the old ones outside it.
-/

namespace ByteMem

/-- A memory of `n` bytes. -/
def Mem (n : ℕ) := Fin n → UInt8

namespace Mem

variable {n : ℕ}

/-- The memory filled with zero bytes. -/
def zero : Mem n := fun _ => 0

instance : Inhabited (Mem n) := ⟨zero⟩

instance : DecidableEq (Mem n) := inferInstanceAs (DecidableEq (Fin n → UInt8))

/-- The byte at address `i`; addresses outside the memory read as zero. -/
def get (m : Mem n) (i : ℕ) : UInt8 := if h : i < n then m ⟨i, h⟩ else 0

/-- The bytes of `[off, off + len)`. -/
def slice (m : Mem n) (off len : ℕ) : List UInt8 := (List.range len).map fun i => m.get (off + i)

/-- Store `bs` at `[off, off + bs.length)`. -/
def write (m : Mem n) (off : ℕ) (bs : List UInt8) : Mem n := fun i =>
  if off ≤ i.val ∧ i.val < off + bs.length then bs.getD (i.val - off) 0 else m i

/-- Two memories with the same bytes are equal. -/
theorem ext {m m' : Mem n} (h : ∀ i < n, m.get i = m'.get i) : m = m' := by
  funext i
  simpa [get] using h i.val i.isLt

@[simp] theorem get_zero (i : ℕ) : (zero : Mem n).get i = 0 := by
  simp [get, zero]

/-! ## Bytes after a write -/

theorem get_write (m : Mem n) (off : ℕ) (bs : List UInt8) (i : ℕ) :
    (m.write off bs).get i =
      if off ≤ i ∧ i < off + bs.length ∧ i < n then bs.getD (i - off) 0 else m.get i := by
  unfold get write
  by_cases hi : i < n
  · rw [dif_pos hi, dif_pos hi]
    simp only [hi, and_true]
  · rw [dif_neg hi, dif_neg hi, if_neg (by tauto)]

theorem get_write_inside (m : Mem n) {off : ℕ} {bs : List UInt8} {i : ℕ}
    (lo : off ≤ i) (hi : i < off + bs.length) (bounded : i < n) :
    (m.write off bs).get i = bs.getD (i - off) 0 := by
  rw [get_write, if_pos ⟨lo, hi, bounded⟩]

theorem get_write_outside (m : Mem n) {off : ℕ} {bs : List UInt8} {i : ℕ}
    (h : i < off ∨ off + bs.length ≤ i) : (m.write off bs).get i = m.get i := by
  rw [get_write, if_neg (by omega)]

@[simp] theorem length_slice (m : Mem n) (off len : ℕ) : (m.slice off len).length = len := by
  simp [slice]

theorem getD_slice (m : Mem n) {off len i : ℕ} (h : i < len) :
    (m.slice off len).getD i 0 = m.get (off + i) := by
  simp [slice, List.getD, h]

/-- Slices agree when the bytes they cover agree. -/
theorem slice_congr {m m' : Mem n} {off off' len : ℕ}
    (h : ∀ i < len, m.get (off + i) = m'.get (off' + i)) : m.slice off len = m'.slice off' len := by
  apply List.map_congr_left
  intro i hi
  exact h i (List.mem_range.1 hi)

/-- A slice equals a byte list when each of its bytes does. -/
theorem slice_eq_of_getD {m : Mem n} {off : ℕ} {bs : List UInt8}
    (h : ∀ i < bs.length, m.get (off + i) = bs.getD i 0) : m.slice off bs.length = bs := by
  apply List.ext_getElem (by simp)
  intro i h1 h2
  have := h i h2
  simp only [slice, List.getElem_map, List.getElem_range]
  rw [this, List.getD_eq_getElem _ _ h2]

/-- A range that was just written reads back. -/
theorem slice_write_self (m : Mem n) {off : ℕ} {bs : List UInt8} (bounded : off + bs.length ≤ n) :
    (m.write off bs).slice off bs.length = bs := by
  apply slice_eq_of_getD
  intro i hi
  rw [get_write_inside _ (by omega) (by omega) (by omega), Nat.add_sub_cancel_left]

/-- A range disjoint from the written one is unchanged. -/
theorem slice_write_disjoint (m : Mem n) {off off' len : ℕ} {bs : List UInt8}
    (h : off' + len ≤ off ∨ off + bs.length ≤ off') :
    (m.write off bs).slice off' len = m.slice off' len := by
  apply slice_congr
  intro i hi
  exact get_write_outside _ (by omega)

/-- Two writes one behind the other are one write. -/
theorem write_write_append (m : Mem n) (off : ℕ) (bs cs : List UInt8) :
    (m.write off bs).write (off + bs.length) cs = m.write off (bs ++ cs) := by
  apply ext
  intro i hi
  rw [get_write, get_write, get_write, List.length_append]
  by_cases inside : off ≤ i ∧ i < off + bs.length
  · rw [if_neg (by omega), if_pos (by omega), if_pos (by omega), List.getD_append _ _ _ _ (by omega)]
  · by_cases behind : off + bs.length ≤ i ∧ i < off + bs.length + cs.length
    · rw [if_pos (by omega), if_pos (by omega), List.getD_append_right _ _ _ _ (by omega)]
      congr 1
      omega
    · rw [if_neg (by omega), if_neg (by omega), if_neg (by omega)]

theorem slice_add (m : Mem n) (off k l : ℕ) :
    m.slice off (k + l) = m.slice off k ++ m.slice (off + k) l := by
  unfold slice
  rw [List.range_add, List.map_append, List.map_map]
  congr 1
  apply List.map_congr_left
  intro i _
  simp [Nat.add_assoc]

/-! ## Little-endian 32-bit words -/

/-- The two's complement value of four bytes, least significant first. -/
def decodeInt32 (b0 b1 b2 b3 : UInt8) : ℤ :=
  let u : ℕ := b0.toNat + 256 * b1.toNat + 65536 * b2.toNat + 16777216 * b3.toNat
  if u < 2147483648 then (u : ℤ) else (u : ℤ) - 4294967296

/-- The four bytes of a 32-bit integer, least significant first. -/
def encodeInt32 (v : ℤ) : List UInt8 :=
  let u : ℕ := (v % 4294967296).toNat
  [UInt8.ofNat u, UInt8.ofNat (u / 256), UInt8.ofNat (u / 65536), UInt8.ofNat (u / 16777216)]

/-- The word at address `off`. -/
def getInt32 (m : Mem n) (off : ℕ) : ℤ :=
  decodeInt32 (m.get off) (m.get (off + 1)) (m.get (off + 2)) (m.get (off + 3))

/-- Store a word at address `off`. -/
def setInt32 (m : Mem n) (off : ℕ) (v : ℤ) : Mem n := m.write off (encodeInt32 v)

@[simp] theorem length_encodeInt32 (v : ℤ) : (encodeInt32 v).length = 4 := rfl

/-- The values a 32-bit word can hold. -/
def IsInt32 (v : ℤ) : Prop := -2147483648 ≤ v ∧ v < 2147483648

theorem decodeInt32_encodeInt32 {v : ℤ} (h : IsInt32 v) :
    decodeInt32 ((encodeInt32 v).getD 0 0) ((encodeInt32 v).getD 1 0) ((encodeInt32 v).getD 2 0)
      ((encodeInt32 v).getD 3 0) = v := by
  obtain ⟨lo, hi⟩ := h
  have hu : ((v % 4294967296).toNat : ℤ) = v % 4294967296 :=
    Int.toNat_of_nonneg (Int.emod_nonneg _ (by decide))
  have hlt : (v % 4294967296).toNat < 4294967296 := by omega
  simp only [encodeInt32, List.getD_cons_zero, List.getD_cons_succ, decodeInt32,
    UInt8.toNat_ofNat']
  split_ifs with hs <;> omega

/-- A word is always in range. -/
theorem isInt32_getInt32 (m : Mem n) (off : ℕ) : IsInt32 (m.getInt32 off) := by
  have h0 := (m.get off).toNat_lt
  have h1 := (m.get (off + 1)).toNat_lt
  have h2 := (m.get (off + 2)).toNat_lt
  have h3 := (m.get (off + 3)).toNat_lt
  unfold getInt32 decodeInt32 IsInt32
  simp only
  split_ifs with hs <;> omega

/-- A stored word reads back. -/
theorem getInt32_setInt32_self (m : Mem n) {off : ℕ} {v : ℤ} (bounded : off + 4 ≤ n)
    (h : IsInt32 v) : (m.setInt32 off v).getInt32 off = v := by
  have byte (i : ℕ) (hi : i < 4) : (m.setInt32 off v).get (off + i) = (encodeInt32 v).getD i 0 := by
    unfold setInt32
    rw [get_write_inside _ (by omega) (by rw [length_encodeInt32]; omega) (by omega),
      Nat.add_sub_cancel_left]
  rw [getInt32, byte 1 (by decide), byte 2 (by decide), byte 3 (by decide),
    show (m.setInt32 off v).get off = (encodeInt32 v).getD 0 0 from byte 0 (by decide)]
  exact decodeInt32_encodeInt32 h

theorem getInt32_congr {m m' : Mem n} {off : ℕ}
    (h : ∀ i, off ≤ i → i < off + 4 → m.get i = m'.get i) : m.getInt32 off = m'.getInt32 off := by
  unfold getInt32
  rw [h off (by omega) (by omega), h (off + 1) (by omega) (by omega),
    h (off + 2) (by omega) (by omega), h (off + 3) (by omega) (by omega)]

/-- A word outside the written range is unchanged. -/
theorem getInt32_write_disjoint (m : Mem n) {off off' : ℕ} {bs : List UInt8}
    (h : off' + 4 ≤ off ∨ off + bs.length ≤ off') :
    (m.write off bs).getInt32 off' = m.getInt32 off' := by
  apply getInt32_congr
  intro i lo hi
  exact get_write_outside _ (by omega)

theorem getInt32_setInt32_disjoint (m : Mem n) {off off' : ℕ} {v : ℤ}
    (h : off' + 4 ≤ off ∨ off + 4 ≤ off') : (m.setInt32 off v).getInt32 off' = m.getInt32 off' :=
  getInt32_write_disjoint m (by rwa [length_encodeInt32])

theorem slice_setInt32_disjoint (m : Mem n) {off off' len : ℕ} {v : ℤ}
    (h : off' + len ≤ off ∨ off + 4 ≤ off') :
    (m.setInt32 off v).slice off' len = m.slice off' len :=
  slice_write_disjoint m (by rwa [length_encodeInt32])

@[simp] theorem getInt32_zero (off : ℕ) : (zero : Mem n).getInt32 off = 0 := by
  simp [getInt32, decodeInt32]

end Mem

end ByteMem
