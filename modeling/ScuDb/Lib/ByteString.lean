import ScuDb.Lib.MachineInt

/-!
# Byte strings

Functions of the C++ standard library on strings, as lists of bytes: `memcmp`, the parsers behind
`stoi` and `stoll`, `to_string`, and searching and cutting.  The parsers skip leading white space
and ignore what follows the number.
-/

namespace ByteString

/-- `std::string`. -/
abbrev Str := List UInt8

/-! ## Characters -/

/-- `isspace` in the C locale. -/
def isSpace (c : UInt8) : Bool := c = 32 ∨ 9 ≤ c ∧ c ≤ 13

/-- `isdigit`. -/
def isDigit (c : UInt8) : Bool := 48 ≤ c ∧ c ≤ 57

/-- `isupper` in the C locale. -/
def isUpper (c : UInt8) : Bool := 65 ≤ c ∧ c ≤ 90

/-- `tolower` in the C locale. -/
def toLower (c : UInt8) : UInt8 := if isUpper c then c + 32 else c

theorem map_toLower {s : Str} (h : ∀ c ∈ s, isUpper c = false) : s.map toLower = s := by
  rw [List.map_congr_left (g := id) fun c hc => ?_, List.map_id]
  unfold toLower
  rw [h c hc]
  rfl

/-! ## Comparison -/

/-- `memcmp` of two ranges of the same length. -/
def memcmp : Str → Str → ℤ
  | a :: s, b :: t => if a = b then memcmp s t else a.toNat - b.toNat
  | _, _ => 0

/-- `memcmp` on the common length, then the difference of the lengths. -/
def order (s t : Str) : ℤ :=
  let ret := memcmp (s.take (min s.length t.length)) (t.take (min s.length t.length))
  if ret = 0 ∧ s.length ≠ t.length then s.length - t.length else ret

theorem order_cons (a b : UInt8) (s t : Str) :
    order (a :: s) (b :: t) = if a = b then order s t else a.toNat - b.toNat := by
  have least : min (s.length + 1) (t.length + 1) = min s.length t.length + 1 := by omega
  unfold order
  simp only [List.length_cons, least, List.take_succ_cons, memcmp]
  by_cases same : a = b
  · simp [same]
  · have differ : (a.toNat : ℤ) - b.toNat ≠ 0 := by
      intro e
      exact same (UInt8.toNat_inj.1 (by omega))
    simp [same, differ]

/-- The sign of the result is the lexicographic order. -/
theorem order_neg_iff : ∀ s t : Str, order s t < 0 ↔ s < t
  | [], [] => by decide
  | [], b :: t => by simp [order, memcmp]; omega
  | a :: s, [] => by simp [order, memcmp]; omega
  | a :: s, b :: t => by
    rw [order_cons, List.cons_lt_cons_iff]
    by_cases same : a = b
    · rw [if_pos same, order_neg_iff s t]
      simp [same]
    · have lt : a < b ↔ a.toNat < b.toNat := UInt8.lt_iff_toNat_lt
      rw [if_neg same, lt]
      simp [same]

theorem lt_iff_map_toNat : ∀ s t : Str, s < t ↔ s.map UInt8.toNat < t.map UInt8.toNat
  | [], [] => by simp
  | [], _ :: _ => by simp
  | _ :: _, [] => by simp
  | a :: s, b :: t => by
    have same : a = b ↔ a.toNat = b.toNat := UInt8.toNat_inj.symm
    rw [List.map_cons, List.map_cons, List.cons_lt_cons_iff, List.cons_lt_cons_iff,
      UInt8.lt_iff_toNat_lt, same, lt_iff_map_toNat s t]

theorem memcmp_swap : ∀ s t : Str, memcmp t s = -memcmp s t
  | [], [] => rfl
  | [], _ :: _ => rfl
  | _ :: _, [] => rfl
  | a :: s, b :: t => by
    simp only [memcmp, memcmp_swap s t]
    split_ifs with h₁ h₂ h₂
    · rfl
    · exact absurd h₁.symm h₂
    · exact absurd h₂.symm h₁
    · ring

theorem order_swap (s t : Str) : order t s = -order s t := by
  unfold order
  simp only [min_comm t.length s.length, memcmp_swap (s.take _), neg_eq_zero, ne_comm]
  split_ifs <;> ring

/-! ## Numbers -/

/-- The number that digits spell. -/
def digitsValue (ds : Str) : ℕ := ds.foldl (fun n c => 10 * n + (c.toNat - 48)) 0

/-- The digits at the front, as a number. -/
def leadingDigits (s : Str) : Option ℕ :=
  let ds := s.takeWhile isDigit
  if ds = [] then none else some (digitsValue ds)

/-- `strtol` in base ten without its limits: the optionally signed number behind white space. -/
def strtol (s : Str) : Option ℤ :=
  match s.dropWhile isSpace with
  | [] => none
  | c :: rest =>
    if c = 45 then (leadingDigits rest).map fun n => -(n : ℤ)
    else if c = 43 then (leadingDigits rest).map fun n => (n : ℤ)
    else (leadingDigits (c :: rest)).map fun n => (n : ℤ)

/-- What `stoi` and `stoll` throw. -/
inductive StdException
  | invalidArgument
  | outOfRange
deriving DecidableEq

/-- `stoi` and `stoll`: a number that fits `w` bytes. -/
def parseInt (w : ℕ) (s : Str) : Except StdException ℤ :=
  match strtol s with
  | none => .error .invalidArgument
  | some i => if MachineInt.IsInt w i then .ok i else .error .outOfRange

def stoi (s : Str) : Except StdException ℤ := parseInt 4 s

def stoll (s : Str) : Except StdException ℤ := parseInt 8 s

/-- The decimal digits of a number. -/
def decimal (n : ℕ) : Str :=
  if n = 0 then [48] else (Nat.digits 10 n).reverse.map fun d => UInt8.ofNat (48 + d)

/-- `std::to_string` of an integer. -/
def toString (i : ℤ) : Str := if i < 0 then 45 :: decimal i.natAbs else decimal i.natAbs

/-- The bytes of an ASCII text. -/
def ofText (s : String) : Str := s.toList.map fun c => UInt8.ofNat c.toNat

/-- `s` spells `i` as an optionally signed decimal integer. -/
def Spells (s : Str) (i : ℤ) : Prop :=
  ∃ ds : Str, ds ≠ [] ∧ (∀ c ∈ ds, isDigit c) ∧
    ((s = ds ∨ s = 43 :: ds) ∧ i = digitsValue ds ∨ s = 45 :: ds ∧ i = -(digitsValue ds : ℤ))

theorem leadingDigits_append {ds : Str} (ne : ds ≠ []) (digits : ∀ c ∈ ds, isDigit c) {rest : Str}
    (stop : ∀ c ∈ rest.head?, isDigit c = false) :
    leadingDigits (ds ++ rest) = some (digitsValue ds) := by
  have taken : (ds ++ rest).takeWhile isDigit = ds := by
    rw [List.takeWhile_append_of_pos digits]
    cases rest with
    | nil => simp
    | cons c rest => simp [stop c rfl]
  unfold leadingDigits
  simp only [taken, if_neg ne]

theorem not_isSpace_of_isDigit {c : UInt8} (h : isDigit c) : isSpace c = false := by
  simp only [isDigit, isSpace, decide_eq_true_eq, decide_eq_false_iff_not, UInt8.le_iff_toNat_le,
    ← UInt8.toNat_inj] at *
  simp at *
  omega

theorem strtol_cons {c : UInt8} (visible : isSpace c = false) (s : Str) :
    strtol (c :: s) = if c = 45 then (leadingDigits s).map fun n => -(n : ℤ)
      else if c = 43 then (leadingDigits s).map fun n => (n : ℤ)
      else (leadingDigits (c :: s)).map fun n => (n : ℤ) := by
  unfold strtol
  rw [List.dropWhile_cons_of_neg (by simp [visible])]

/-- Digits and what follows them. -/
theorem strtol_digits {ds : Str} (ne : ds ≠ []) (digits : ∀ c ∈ ds, isDigit c) {rest : Str}
    (stop : ∀ c ∈ rest.head?, isDigit c = false) :
    strtol (ds ++ rest) = some (digitsValue ds : ℤ) := by
  have value := leadingDigits_append ne digits stop
  cases ds with
  | nil => exact absurd rfl ne
  | cons c ds =>
    have digit : isDigit c := digits c List.mem_cons_self
    have minus : c ≠ 45 := by
      rintro rfl
      cases digit
    have plus : c ≠ 43 := by
      rintro rfl
      cases digit
    rw [List.cons_append] at value ⊢
    rw [strtol_cons (not_isSpace_of_isDigit digit), if_neg minus, if_neg plus, value]
    rfl

theorem Spells.strtol {s : Str} {i : ℤ} (h : Spells s i) : strtol s = some i := by
  obtain ⟨ds, ne, digits, h⟩ := h
  have value := @leadingDigits_append ds ne digits [] (by simp)
  have bare := @strtol_digits ds ne digits [] (by simp)
  rw [List.append_nil] at value bare
  rcases h with ⟨rfl | rfl, rfl⟩ | ⟨rfl, rfl⟩
  · exact bare
  · rw [strtol_cons (by decide), if_neg (by decide), if_pos rfl, value]
    rfl
  · rw [strtol_cons (by decide), if_pos rfl, value]
    rfl

theorem decimal_ne_nil (n : ℕ) : decimal n ≠ [] := by
  unfold decimal
  split_ifs with zero
  · simp
  · simpa using Nat.digits_ne_nil_iff_ne_zero.2 zero

theorem length_decimal {n k : ℕ} (one : 1 ≤ k) (small : n < 10 ^ k) : (decimal n).length ≤ k := by
  unfold decimal
  split_ifs with zero
  · exact one
  · rw [List.length_map, List.length_reverse]
    exact (Nat.digits_length_le_iff (by norm_num) n).2 small

theorem length_toString {i : ℤ} (h : MachineInt.IsInt 8 i) : (toString i).length ≤ 20 := by
  have small : i.natAbs < 10 ^ 19 := by
    obtain ⟨lo, hi⟩ := h
    omega
  have length := length_decimal (by norm_num : 1 ≤ 19) small
  unfold toString
  split_ifs
  · rw [List.length_cons]
    omega
  · omega

theorem isDigit_decimal {n : ℕ} {c : UInt8} (h : c ∈ decimal n) : isDigit c := by
  unfold decimal at h
  split_ifs at h with zero
  · rw [List.mem_singleton.1 h]
    decide
  · obtain ⟨d, hd, rfl⟩ := List.mem_map.1 h
    have lt : d < 10 := Nat.digits_lt_base (by norm_num) (List.mem_reverse.1 hd)
    interval_cases d <;> decide

theorem digitsValue_decimal (n : ℕ) : digitsValue (decimal n) = n := by
  unfold digitsValue decimal
  split_ifs with zero
  · rw [zero]
    decide
  · have digit : ∀ d ∈ Nat.digits 10 n, (UInt8.ofNat (48 + d)).toNat - 48 = d := by
      intro d hd
      have lt : d < 10 := Nat.digits_lt_base (by norm_num) hd
      interval_cases d <;> decide
    rw [List.foldl_map, List.foldl_reverse]
    refine Eq.trans ?_ (Nat.ofDigits_digits 10 n)
    rw [Nat.ofDigits_eq_foldr]
    apply List.foldr_ext
    intro d hd m
    rw [digit d hd, Nat.cast_id]
    omega

/-! ## Searching and cutting -/

/-- `find_first_of` a character; `npos` is `none`. -/
def findFirstOf (s : Str) (c : UInt8) : Option ℕ := s.findIdx? (· == c)

/-- `substr(0, n)`. -/
def upTo (s : Str) : Option ℕ → Str
  | some n => s.take n
  | none => s

/-- `substr(n + 1)`, where `npos + 1` is zero. -/
def after (s : Str) : Option ℕ → Str
  | some n => s.drop (n + 1)
  | none => s

/-- `Trim`: white space is erased at the front, then at the end. -/
def trim (s : Str) : Str := (s.dropWhile isSpace).rdropWhile isSpace

/-- What `getline` returns until it fails: an item at the end of the stream must have a
character. -/
def getlines (s : Str) (delim : UInt8) : List Str :=
  let items := s.splitOn delim
  if items.getLast? = some [] then items.dropLast else items

/-- `Split`. -/
def split (s : Str) (delim : UInt8) : List Str := (getlines s delim).map trim

theorem findFirstOf_append {s : Str} {c : UInt8} (absent : c ∉ s) (rest : Str) :
    findFirstOf (s ++ c :: rest) c = some s.length := by
  have none : s.findIdx? (· == c) = none := by
    rw [List.findIdx?_eq_none_iff]
    intro x hx
    rw [beq_eq_false_iff_ne]
    rintro rfl
    exact absent hx
  unfold findFirstOf
  rw [List.findIdx?_append, none]
  simp [List.findIdx?_cons]

theorem findFirstOf_eq_none {s : Str} {c : UInt8} (absent : c ∉ s) : findFirstOf s c = none := by
  unfold findFirstOf
  rw [List.findIdx?_eq_none_iff]
  intro x hx
  rw [beq_eq_false_iff_ne]
  rintro rfl
  exact absent hx

@[simp] theorem upTo_append (s t : Str) : upTo (s ++ t) (some s.length) = s := by
  simp [upTo]

@[simp] theorem after_append (s t : Str) (c : UInt8) :
    after (s ++ c :: t) (some s.length) = t := by
  simp [after]

theorem dropWhile_isSpace {l s : Str} (hl : ∀ c ∈ l, isSpace c)
    (visible : ∀ c ∈ s.head?, isSpace c = false) : (l ++ s).dropWhile isSpace = s := by
  rw [List.dropWhile_append_of_pos hl]
  cases s with
  | nil => rfl
  | cons c s => exact List.dropWhile_cons_of_neg (by simp [visible c rfl])

/-- `Trim` takes away the white space around a text. -/
theorem trim_padded {l s r : Str} (hl : ∀ c ∈ l, isSpace c) (hr : ∀ c ∈ r, isSpace c)
    (ne : s ≠ []) (first : ∀ c ∈ s.head?, isSpace c = false)
    (last : ∀ c ∈ s.getLast?, isSpace c = false) : trim (l ++ (s ++ r)) = s := by
  have front : ∀ c ∈ (s ++ r).head?, isSpace c = false := by
    rw [List.head?_append_of_ne_nil _ ne]
    exact first
  unfold trim
  rw [dropWhile_isSpace hl front]
  unfold List.rdropWhile
  rw [List.reverse_append, dropWhile_isSpace, List.reverse_reverse]
  · intro c hc
    exact hr c (List.mem_reverse.1 hc)
  · rw [List.head?_reverse]
    exact last

/-- `Split` of joined items without the delimiter. -/
theorem split_intercalate {items : List Str} {delim : UInt8} (absent : ∀ l ∈ items, delim ∉ l)
    (nonempty : ∀ l ∈ items, l ≠ []) (ne : items ≠ []) :
    split ([delim].intercalate items) delim = items.map trim := by
  have back := List.splitOn_intercalate delim absent ne
  unfold split getlines
  simp only [back]
  rw [if_neg]
  intro last
  exact nonempty [] (List.mem_of_getLast? last) rfl

end ByteString
