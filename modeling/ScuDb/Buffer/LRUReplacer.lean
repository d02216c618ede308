import ScuDb.Config

/-!
# The LRU replacer as a list

The replacer keeps its values in the order of their latest insertion, the most recent first, each
value once.
-/

namespace ScuDb

/-- `LRUReplacer`: the values from `mHead` to `mTail`. -/
structure LRUReplacer (α : Type) where
  order : List α
  nodup : order.Nodup

namespace LRUReplacer

variable {α : Type}

/-- The replacer after construction. -/
def new : LRUReplacer α := ⟨[], List.nodup_nil⟩

/-- `Insert`: a value already present moves to the front. -/
def insert [DecidableEq α] (r : LRUReplacer α) (value : α) : LRUReplacer α where
  order := value :: r.order.erase value
  nodup := List.nodup_cons.2 ⟨r.nodup.not_mem_erase, r.nodup.erase value⟩

/-- `Victim`: the value in front of `mTail`, and the replacer without it. -/
def victim (r : LRUReplacer α) : Option (α × LRUReplacer α) :=
  match r.order.getLast? with
  | none => none
  | some value => some (value, ⟨r.order.dropLast, r.nodup.sublist (List.dropLast_sublist _)⟩)

/-- `Erase`: whether the value was present, and the replacer without it. -/
def erase [DecidableEq α] (r : LRUReplacer α) (value : α) : Bool × LRUReplacer α :=
  (decide (value ∈ r.order), ⟨r.order.erase value, r.nodup.erase value⟩)

/-- `Size`: the source returns the constant one. -/
def size (_ : LRUReplacer α) : ℕ := 1

@[simp] theorem order_new : (new : LRUReplacer α).order = [] := rfl

@[simp] theorem mem_insert [DecidableEq α] (r : LRUReplacer α) (value x : α) :
    x ∈ (r.insert value).order ↔ x = value ∨ x ∈ r.order := by
  simp only [insert, List.mem_cons, r.nodup.mem_erase_iff]
  tauto

@[simp] theorem mem_erase [DecidableEq α] (r : LRUReplacer α) (value x : α) :
    x ∈ (r.erase value).2.order ↔ x ≠ value ∧ x ∈ r.order := by
  simp only [erase, r.nodup.mem_erase_iff]

theorem victim_eq_none_iff (r : LRUReplacer α) : r.victim = none ↔ r.order = [] := by
  unfold victim
  cases h : r.order.getLast? with
  | none => simpa using h
  | some v =>
    have : r.order ≠ [] := by rintro e; simp [e] at h
    simpa using this

/-- A victim is removed, and nothing else is. -/
theorem mem_of_victim {r r' : LRUReplacer α} {value : α} (h : r.victim = some (value, r')) :
    value ∈ r.order ∧ ∀ x, x ∈ r'.order ↔ x ≠ value ∧ x ∈ r.order := by
  unfold victim at h
  cases hl : r.order.getLast? with
  | none => simp [hl] at h
  | some v =>
    simp only [hl, Option.some.injEq, Prod.mk.injEq] at h
    obtain ⟨rfl, rfl⟩ := h
    have split : r.order.dropLast ++ [v] = r.order := List.dropLast_append_getLast? v hl
    have nodup := r.nodup
    rw [← split, List.nodup_append] at nodup
    refine ⟨List.mem_of_getLast? hl, fun x => ?_⟩
    constructor
    · intro hx
      exact ⟨fun e => nodup.2.2 x hx v (by simp) e, by rw [← split]; simp [hx]⟩
    · rintro ⟨hne, hx⟩
      rw [← split] at hx
      simpa [hne] using hx

end LRUReplacer

end ScuDb
