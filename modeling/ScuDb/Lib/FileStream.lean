import Mathlib

/-!
# A file stream

A binary `std::fstream` opened for reading and writing: a file, a position and the two state bits
that reading past the end of the file sets.  While `failbit` is set, `seekp`, `read` and `write`
have no effect; `seekp` to a negative position sets it.  A gap between the old end of the file and
a later write reads as zeros.
-/

namespace FileIo

/-- A regular file; `bytes` is zero from `size` on. -/
structure File where
  size : ℕ := 0
  bytes : ℕ → UInt8 := fun _ => 0

structure FStream where
  file : File := {}
  pos : ℕ := 0
  eofbit : Bool := false
  failbit : Bool := false

namespace FStream

/-- `good()`; `badbit` is never set here. -/
def good (s : FStream) : Bool := !s.eofbit && !s.failbit

def seekp (s : FStream) (pos : ℤ) : FStream :=
  if s.failbit then s
  else if pos < 0 then { s with failbit := true }
  else { s with pos := pos.toNat }

/-- `write` of `data`: the file grows when the range ends past its end. -/
def write (s : FStream) (data : List UInt8) : FStream :=
  if s.good then
    { s with
      pos := s.pos + data.length
      file :=
        { size := max s.file.size (s.pos + data.length)
          bytes := fun i => if s.pos ≤ i ∧ i < s.pos + data.length then data.getD (i - s.pos) 0
            else s.file.bytes i } }
  else { s with failbit := true }

/-- `read` of `count` bytes: what was read (its length is `gcount()`) and the stream. -/
def read (s : FStream) (count : ℕ) : List UInt8 × FStream :=
  if s.good then
    let got := min count (s.file.size - s.pos)
    let short := decide (got < count)
    ((List.range got).map fun i => s.file.bytes (s.pos + i),
      { s with pos := s.pos + got, eofbit := short, failbit := short })
  else ([], { s with failbit := true })

theorem good_seekp (s : FStream) (pos : ℕ) : (s.seekp pos).good = s.good := by
  unfold seekp
  rw [if_neg (by omega : ¬ (pos : ℤ) < 0)]
  split_ifs <;> rfl

theorem file_seekp (s : FStream) (pos : ℤ) : (s.seekp pos).file = s.file := by
  unfold seekp
  split_ifs <;> rfl

theorem pos_seekp {s : FStream} (h : s.good = true) (pos : ℕ) : (s.seekp pos).pos = pos := by
  unfold seekp
  rw [if_neg, if_neg (by omega), Int.toNat_natCast]
  intro hf
  simp [good, hf] at h

theorem good_write {s : FStream} (h : s.good = true) (data : List UInt8) :
    (s.write data).good = true := by
  rw [write, if_pos h]
  exact h

theorem size_write {s : FStream} (h : s.good = true) (data : List UInt8) :
    (s.write data).file.size = max s.file.size (s.pos + data.length) := by
  rw [write, if_pos h]

theorem bytes_write {s : FStream} (h : s.good = true) (data : List UInt8) (i : ℕ) :
    (s.write data).file.bytes i =
      if s.pos ≤ i ∧ i < s.pos + data.length then data.getD (i - s.pos) 0
      else s.file.bytes i := by
  rw [write, if_pos h]

/-- A read inside the file returns the bytes there and leaves the stream good. -/
theorem read_inside {s : FStream} (h : s.good = true) {count : ℕ}
    (inside : s.pos + count ≤ s.file.size) :
    (s.read count).1 = (List.range count).map (fun i => s.file.bytes (s.pos + i)) ∧
      (s.read count).2.good = true ∧ (s.read count).2.file = s.file := by
  have got : min count (s.file.size - s.pos) = count := by omega
  rw [read, if_pos h]
  simp [got, good]

end FStream

end FileIo
