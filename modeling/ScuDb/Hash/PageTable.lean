import ScuDb.Config
import ScuDb.Hash.HashInserts

/-!
# The page table

The extendible hash table as the buffer pool uses it: `std::hash` of a `page_id_t` is the id, and a
bucket holds fifty entries.  Page ids of 32 bits never make the table too deep.
-/

namespace ScuDb

/-- `BUCKET_SIZE`. -/
def bucketSize : ℕ := 50

/-- `std::hash<page_id_t>`: the id as a `size_t`. -/
def hashPageId (p : PageId) : ℕ := (p % 2 ^ 64).toNat

/-- The values of `page_id_t`. -/
def IsPageId (p : ℤ) : Prop := -2147483648 ≤ p ∧ p ≤ 2147483647

instance (p : ℤ) : Decidable (IsPageId p) := inferInstanceAs (Decidable (_ ∧ _))

theorem hashPageId_modEq {p q : PageId} {d : ℕ} (hd : d ≤ 64)
    (h : hashPageId p ≡ hashPageId q [MOD 2 ^ d]) : p ≡ q [ZMOD 2 ^ d] := by
  have low (p : PageId) : (hashPageId p : ℤ) ≡ p [ZMOD 2 ^ d] := by
    have cast : (hashPageId p : ℤ) = p % 2 ^ 64 :=
      Int.toNat_of_nonneg (Int.emod_nonneg _ (by norm_num))
    rw [cast]
    exact (Int.mod_modEq p (2 ^ 64)).of_dvd (pow_dvd_pow 2 hd)
  have cast : (hashPageId p : ℤ) ≡ hashPageId q [ZMOD 2 ^ d] := by
    have := (Int.natCast_modEq_iff).2 h
    simpa using this
  exact (low p).symm.trans (cast.trans (low q))

/-- At most 32 page ids have the same low 27 bits. -/
theorem length_le_of_modEq {l : List PageId} (nodup : l.Nodup) (ids : ∀ p ∈ l, IsPageId p)
    {q : PageId} (same : ∀ p ∈ l, hashPageId p ≡ hashPageId q [MOD 2 ^ 27]) : l.length ≤ 32 := by
  have split (p : PageId) (hp : p ∈ l) : p = 2 ^ 27 * (p / 2 ^ 27) + q % 2 ^ 27 := by
    have := hashPageId_modEq (by norm_num) (same p hp)
    rw [← show p % 2 ^ 27 = q % 2 ^ 27 from this]
    exact (Int.mul_ediv_add_emod p (2 ^ 27)).symm
  have inj : ∀ p ∈ l, ∀ r ∈ l, p / 2 ^ 27 = r / 2 ^ 27 → p = r := by
    intro p hp r hr e
    rw [split p hp, split r hr, e]
  have nodup' : (l.map fun p => p / 2 ^ 27).Nodup := nodup.map_on inj
  have inside : (l.map fun p => p / 2 ^ 27).toFinset ⊆ Finset.Ico (-16 : ℤ) 16 := by
    intro x hx
    obtain ⟨p, hp, rfl⟩ := List.mem_map.1 (List.mem_toFinset.1 hx)
    have range := ids p hp
    unfold IsPageId at range
    rw [Finset.mem_Ico]
    omega
  have card := Finset.card_le_card inside
  rw [List.toFinset_card_of_nodup nodup', List.length_map] at card
  exact card

namespace ExtendibleHash

variable {V : Type} {s : ExtendibleHash PageId V}

/-- What holds of a page table: it never got deeper than 27. -/
structure Shallow (s : ExtendibleHash PageId V) : Prop where
  inv : Inv hashPageId s
  depth : s.mGlobalDepth ≤ 27
  size : s.mBucketSize = bucketSize
  ids : ∀ p, (stored hashPageId s p).isSome → IsPageId p

theorem Shallow.lt (h : Shallow s) : s.mGlobalDepth < 31 := h.depth.trans_lt (by norm_num)

theorem shallow_new : Shallow (new bucketSize : ExtendibleHash PageId V) where
  inv := inv_new _
  depth := Nat.zero_le _
  size := rfl
  ids p h := by simp [stored, new] at h

theorem Shallow.find (h : Shallow s) (p : PageId) :
    find hashPageId s p = .ok (stored hashPageId s p) := h.inv.find h.lt p

theorem Shallow.remove (h : Shallow s) (p : PageId) :
    ∃ s', remove hashPageId s p = .ok ((stored hashPageId s p).isSome, s') ∧ Shallow s' ∧
      ∀ q, stored hashPageId s' q = if q = p then none else stored hashPageId s q := by
  obtain ⟨s', run, inv, depth, size, same⟩ := h.inv.remove h.lt p
  refine ⟨s', run, ⟨inv, depth ▸ h.depth, size.trans h.size, fun q hq => ?_⟩, same⟩
  rw [same] at hq
  split_ifs at hq
  · cases hq
  · exact h.ids q hq

/-- `Insert` of a page id ends: two of the ids in a full bucket differ in their low 27 bits. -/
theorem Shallow.insert (h : Shallow s) {p : PageId} (id : IsPageId p) (value : V) :
    ∃ s', insert hashPageId s p value = .ok s' ∧ Shallow s' ∧ ∀ q, stored hashPageId s' q =
      if q = p then some ((stored hashPageId s p).getD value) else stored hashPageId s q := by
  set cur := s.route (hashPageId p) with hcur
  have ready : ∃ other, (s.store cur).dataMap.entries.length < s.mBucketSize ∨
      other ∈ (s.store cur).dataMap ∧ ¬ hashPageId other ≡ hashPageId p [MOD 2 ^ 27] ∧
      27 ≤ s.depth cur + 27 := by
    by_cases full : (s.store cur).dataMap.entries.length < s.mBucketSize
    · exact ⟨p, .inl full⟩
    · by_contra all
      have same : ∀ q ∈ (s.store cur).dataMap.keys, hashPageId q ≡ hashPageId p [MOD 2 ^ 27] := by
        intro q hq
        by_contra differ
        exact all ⟨q, .inr ⟨hq, differ, by omega⟩⟩
      have ids : ∀ q ∈ (s.store cur).dataMap.keys, IsPageId q := fun q hq =>
        h.ids q ((h.inv.lookup_isSome (hashPageId p) q).1 hq).2
      have few := length_le_of_modEq (AList.keys_nodup _) ids same
      have many : bucketSize ≤ (s.store cur).dataMap.keys.length := by
        simpa [AList.keys, List.keys, h.size] using full
      exact absurd (many.trans few) (by decide)
  obtain ⟨other, ready⟩ := ready
  obtain ⟨s', run, -, deepest⟩ :=
    Inv.insertLoop_splits value (D := 27) (by norm_num) 27 h.inv h.lt ready
  have ran : ExtendibleHash.insert hashPageId s p value = .ok s' := by
    unfold ExtendibleHash.insert
    rw [bucketOf_ok h.inv h.lt]
    exact run 32 (by norm_num)
  rcases h.inv.insert h.lt p value with hr | ⟨t, hr, inv, -, size, same⟩
  · rw [ran] at hr
    cases hr
  · obtain rfl : s' = t := Except.ok.inj (ran.symm.trans hr)
    refine ⟨s', ran, ⟨inv, deepest.trans (max_le h.depth le_rfl), size.trans h.size, fun q hq => ?_⟩,
      same⟩
    rw [same] at hq
    split_ifs at hq with e
    · exact e ▸ id
    · exact h.ids q hq

end ExtendibleHash

end ScuDb
