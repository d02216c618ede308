import Mathlib.Data.List.Sort
import Mathlib.Data.List.Perm.Basic
import Mathlib.Order.Basic

/-!
# Ordered maps

A finite map as the list of its bindings, strictly ascending in the key.
-/

/-- A finite map with ordered keys. -/
@[ext] structure SortedMap (K V : Type) [LinearOrder K] where
  entries : List (K × V)
  sorted : (entries.map Prod.fst).Pairwise (· < ·)

namespace SortedMap

variable {K V : Type} [LinearOrder K]

/-- The map without bindings. -/
def empty : SortedMap K V := ⟨[], List.Pairwise.nil⟩

def lookup (m : SortedMap K V) (k : K) : Option V :=
  (m.entries.find? fun e => e.1 = k).map Prod.snd

theorem pairwise (m : SortedMap K V) : m.entries.Pairwise fun a b => a.1 < b.1 :=
  List.pairwise_map.1 m.sorted

/-- A key has one value. -/
theorem value_unique (m : SortedMap K V) {k : K} {x y : V} (hx : (k, x) ∈ m.entries)
    (hy : (k, y) ∈ m.entries) : x = y := by
  have nodup : (m.entries.map Prod.fst).Nodup := m.sorted.imp fun lt => lt.ne
  have same := List.inj_on_of_nodup_map nodup hx hy rfl
  exact congrArg Prod.snd same

theorem lookup_eq_some_iff {m : SortedMap K V} {k : K} {x : V} :
    m.lookup k = some x ↔ (k, x) ∈ m.entries := by
  unfold lookup
  constructor
  · intro h
    obtain ⟨⟨k', x'⟩, found, rfl⟩ := Option.map_eq_some_iff.1 h
    have key := List.find?_some found
    obtain rfl : k' = k := by simpa using key
    exact List.mem_of_find?_eq_some found
  · intro mem
    cases found : m.entries.find? fun e => decide (e.1 = k) with
    | none => exact absurd (List.find?_eq_none.1 found _ mem) (by simp)
    | some e =>
      have key : e.1 = k := by simpa using List.find?_some found
      have here : (k, e.2) ∈ m.entries := key ▸ List.mem_of_find?_eq_some found
      exact congrArg some (m.value_unique here mem)

theorem lookup_eq_none_iff {m : SortedMap K V} {k : K} :
    m.lookup k = none ↔ ∀ x, (k, x) ∉ m.entries := by
  rw [Option.eq_none_iff_forall_ne_some]
  exact forall_congr' fun x => not_congr lookup_eq_some_iff

/-- Ascending lists with the same bindings are the same. -/
theorem entries_eq {m : SortedMap K V} {l : List (K × V)} (sorted : (l.map Prod.fst).Pairwise (· < ·))
    (mem : ∀ e, e ∈ l ↔ e ∈ m.entries) : l = m.entries := by
  have pairwise : l.Pairwise fun a b => a.1 < b.1 := List.pairwise_map.1 sorted
  have nodup {l : List (K × V)} (h : l.Pairwise fun a b => a.1 < b.1) : l.Nodup :=
    h.imp fun lt e => lt.ne (congrArg Prod.fst e)
  apply List.Perm.eq_of_pairwise _ pairwise m.pairwise
  · exact (List.perm_ext_iff_of_nodup (nodup pairwise) (nodup m.pairwise)).2 mem
  · intro a b _ _ ab ba
    exact absurd ab ba.asymm

/-- The map with another binding of `k`. -/
def insert (m : SortedMap K V) (k : K) (x : V) : SortedMap K V where
  entries := (m.entries.filter fun e => e.1 < k) ++ (k, x) :: m.entries.filter fun e => k < e.1
  sorted := by
    have below : ((m.entries.filter fun e => e.1 < k).map Prod.fst).Pairwise (· < ·) :=
      m.sorted.sublist (List.filter_sublist.map _)
    have above : ((m.entries.filter fun e => k < e.1).map Prod.fst).Pairwise (· < ·) :=
      m.sorted.sublist (List.filter_sublist.map _)
    have lt {j : K} (hj : j ∈ (m.entries.filter fun e => e.1 < k).map Prod.fst) : j < k := by
      obtain ⟨e, he, rfl⟩ := List.mem_map.1 hj
      simpa using (List.mem_filter.1 he).2
    have gt {j : K} (hj : j ∈ (m.entries.filter fun e => k < e.1).map Prod.fst) : k < j := by
      obtain ⟨e, he, rfl⟩ := List.mem_map.1 hj
      simpa using (List.mem_filter.1 he).2
    rw [List.map_append, List.map_cons, List.pairwise_append]
    refine ⟨below, List.pairwise_cons.2 ⟨fun _ => gt, above⟩, fun i hi j hj => ?_⟩
    rcases List.mem_cons.1 hj with rfl | hj
    · exact lt hi
    · exact (lt hi).trans (gt hj)

theorem mem_insert {m : SortedMap K V} {k : K} {x : V} {e : K × V} :
    e ∈ (m.insert k x).entries ↔ e = (k, x) ∨ e ∈ m.entries ∧ e.1 ≠ k := by
  simp only [insert, List.mem_append, List.mem_cons, List.mem_filter, decide_eq_true_eq]
  constructor
  · rintro (⟨mem, lt⟩ | rfl | ⟨mem, lt⟩)
    · exact .inr ⟨mem, lt.ne⟩
    · exact .inl rfl
    · exact .inr ⟨mem, lt.ne'⟩
  · rintro (rfl | ⟨mem, ne⟩)
    · exact .inr (.inl rfl)
    · rcases ne.lt_or_gt with lt | gt
      · exact .inl ⟨mem, lt⟩
      · exact .inr (.inr ⟨mem, gt⟩)

/-- The map without a binding of `k`. -/
def erase (m : SortedMap K V) (k : K) : SortedMap K V where
  entries := m.entries.filter fun e => e.1 ≠ k
  sorted := m.sorted.sublist (List.filter_sublist.map _)

end SortedMap
