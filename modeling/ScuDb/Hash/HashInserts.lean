import ScuDb.Hash.HashRuns

/-!
# What insertions store, and how often they split

An `Insert` of a key that is present keeps the old value.  An `Insert` into a full bucket splits
until a key of the bucket whose hash differs from the new one goes elsewhere, at most once for each
bit up to the first one in which they differ.
-/

namespace ScuDb.ExtendibleHash

open Routing

variable {K V : Type} [DecidableEq K] {hashKey : K → ℕ} {s : ExtendibleHash K V}

/-! ## The latest value -/

/-- `Find` delivers the value of the latest `Insert` since the key was removed, exactly if that is
the value of the first one. -/
theorem run_latest_iff (hashKey : K → ℕ) (size : ℕ) (history : List (Op K V)) :
    run hashKey size history = .error .overflow ∨
    ∃ s, run hashKey size history = .ok s ∧ ∀ key,
      find hashKey s key = .ok (insertedSince key history).head? ↔
        (insertedSince key history).getLast? = (insertedSince key history).head? := by
  rcases run_after hashKey size history with hr | ⟨s, hr, after⟩
  · exact .inl hr
  · refine .inr ⟨s, hr, fun key => ?_⟩
    rw [after.inv.find after.shallow, after.stored, Except.ok.injEq]

/-- The second `Insert` of a key with another value. -/
theorem not_run_latest : ¬ ∀ (history : List (Op ℕ ℕ)) (s : ExtendibleHash ℕ ℕ),
    run id 1 history = .ok s → ∀ key, insertedSince key history ≠ [] →
      find id s key = .ok (insertedSince key history).head? := by
  intro claim
  have found := claim [.insert 3 7, .insert 3 5] _ rfl 3 (by decide)
  have values : (some 5 : Option ℕ) = some 7 := Except.ok.inj found
  exact absurd values (by decide)

/-! ## The number of splits -/

/-- A key that is not sent to the bucket of `key` any more makes room there. -/
theorem Inv.splitBucket_room (h : Inv hashKey s) {key other : K}
    (inside : other ∈ (s.store (s.route (hashKey key))).dataMap)
    {t : ExtendibleHash K V} (ht : t = ExtendibleHash.splitBucket hashKey s (s.route (hashKey key)))
    (gone : t.route (hashKey other) ≠ t.route (hashKey key)) :
    (t.store (t.route (hashKey key))).dataMap.entries.length < s.mBucketSize := by
  set cur := s.route (hashKey key) with hcur
  have inv' : Inv hashKey t := ht ▸ h.splitBucket hcur.symm
  have fresh : ∀ j, s.route j ≠ s.nextBucket := fun j => (h.allocated j).ne
  have ne : cur ≠ s.nextBucket := fresh (hashKey key)
  have back : ∀ k, t.route (hashKey k) = t.route (hashKey key) → s.route (hashKey k) = cur := by
    intro k same
    rw [ht, h.splitBucket_route hcur.symm] at same
    by_contra out
    rw [split_of_ne out] at same
    by_cases bit : (hashKey key).testBit (s.depth cur) = true
    · rw [(split_eq_new fresh).2 ⟨hcur.symm, bit⟩] at same
      exact fresh _ same
    · rw [(split_eq_cur ne).2 ⟨hcur.symm, by simpa using bit⟩] at same
      exact out same
  have subset : ∀ k ∈ (t.store (t.route (hashKey key))).dataMap, k ∈ (s.store cur).dataMap := by
    intro k hk
    obtain ⟨same, stored'⟩ := (inv'.lookup_isSome (hashKey key) k).1 hk
    rw [ht, h.splitBucket_stored hcur.symm] at stored'
    exact (h.lookup_isSome (hashKey key) k).2 ⟨back k same, stored'⟩
  have absent : other ∉ (t.store (t.route (hashKey key))).dataMap := fun hk =>
    gone (inv'.routed _ _ hk)
  have fewer : (other :: (t.store (t.route (hashKey key))).dataMap.keys).length ≤
      (s.store cur).dataMap.keys.length := by
    apply List.Subperm.length_le
    apply List.subperm_of_subset (List.nodup_cons.2 ⟨absent, AList.keys_nodup _⟩)
    exact List.cons_subset.2 ⟨inside, subset⟩
  have bound : (s.store cur).dataMap.entries.length ≤ s.mBucketSize := h.capacity (hashKey key)
  simp only [AList.keys, List.keys, List.length_cons, List.length_map] at fewer
  omega

theorem insertLoop_room {key : K} {value : V} {fuel cur : ℕ} (enough : 0 < fuel)
    (room : ((s.store cur).dataMap.lookup key).isSome ∨
      (s.store cur).dataMap.entries.length < s.mBucketSize) :
    insertLoop hashKey key value fuel s cur = .ok (s.setBucket cur
      { s.store cur with dataMap := insertPair (s.store cur).dataMap key value }) := by
  obtain ⟨fuel, rfl⟩ := Nat.exists_eq_succ_of_ne_zero enough.ne'
  simp only [insertLoop]
  rw [if_pos room]

/-- The loop of `Insert` makes at most `n` splits if a key of the bucket differs in a bit that the
bucket gets to look at by then. -/
theorem Inv.insertLoop_splits {key other : K} (value : V) {D : ℕ} (shallowD : D ≤ 30) (n : ℕ) :
    ∀ {s : ExtendibleHash K V}, Inv hashKey s → s.mGlobalDepth < 31 →
    (s.store (s.route (hashKey key))).dataMap.entries.length < s.mBucketSize ∨
      other ∈ (s.store (s.route (hashKey key))).dataMap ∧
      ¬ hashKey other ≡ hashKey key [MOD 2 ^ D] ∧ D ≤ s.depth (s.route (hashKey key)) + n →
    ∃ s', (∀ fuel, n < fuel →
        ExtendibleHash.insertLoop hashKey key value fuel s (s.route (hashKey key)) = .ok s') ∧
      s'.mBucketNum ≤ s.mBucketNum + n ∧ s'.mGlobalDepth ≤ max s.mGlobalDepth D := by
  induction n with
  | zero =>
    intro s h shallow ready
    have room : ((s.store (s.route (hashKey key))).dataMap.lookup key).isSome ∨
        (s.store (s.route (hashKey key))).dataMap.entries.length < s.mBucketSize := by
      rcases ready with room | ⟨inside, differ, deep⟩
      · exact .inr room
      · have same := (h.routes _ _).1 (h.routed _ _ inside)
        rw [h.routed _ _ inside] at same
        exact absurd (same.of_dvd (pow_dvd_pow 2 deep)) differ
    exact ⟨_, fun fuel enough => insertLoop_room enough room, le_rfl, le_max_left _ _⟩
  | succ n ih =>
    intro s h shallow ready
    set cur := s.route (hashKey key) with hcur
    by_cases room : ((s.store cur).dataMap.lookup key).isSome ∨
        (s.store cur).dataMap.entries.length < s.mBucketSize
    · exact ⟨_, fun fuel enough => insertLoop_room (Nat.zero_lt_of_lt enough) room,
        Nat.le_add_right _ _, le_max_left _ _⟩
    · obtain ⟨inside, differ, deep⟩ := ready.resolve_left fun fits => room (.inr fits)
      have same := (h.routes _ _).1 (h.routed _ _ inside)
      rw [h.routed _ _ inside] at same
      -- the keys agree on the bits the bucket looks at, so they differ in a later one
      have later : s.depth cur < D :=
        not_le.1 fun le => differ (same.of_dvd (pow_dvd_pow 2 le))
      set t := ExtendibleHash.splitBucket hashKey s cur with ht
      have inv' : Inv hashKey t := h.splitBucket hcur.symm
      have fresh : ∀ j, s.route j ≠ s.nextBucket := fun j => (h.allocated j).ne
      have depth' : t.depth (t.route (hashKey key)) = s.depth cur + 1 := by
        rw [ht, splitBucket_depth, h.splitBucket_route hcur.symm]
        exact deepen_split (fresh (hashKey key)) hcur.symm
      have global : t.mGlobalDepth = max s.mGlobalDepth (s.depth cur + 1) := h.grow_depth _
      have size : t.mBucketSize = s.mBucketSize := grow_mBucketSize s _
      have count : t.mBucketNum = s.mBucketNum + 1 := congrArg (· + 1) (grow_mBucketNum s _)
      have shallow' : t.mGlobalDepth < 31 := by omega
      have ready' : (t.store (t.route (hashKey key))).dataMap.entries.length < t.mBucketSize ∨
          other ∈ (t.store (t.route (hashKey key))).dataMap ∧
          ¬ hashKey other ≡ hashKey key [MOD 2 ^ D] ∧ D ≤ t.depth (t.route (hashKey key)) + n := by
        by_cases together : t.route (hashKey other) = t.route (hashKey key)
        · refine .inr ⟨?_, differ, by omega⟩
          apply (inv'.lookup_isSome (hashKey key) other).2
          refine ⟨together, ?_⟩
          rw [ht, h.splitBucket_stored hcur.symm]
          exact ((h.lookup_isSome (hashKey key) other).1 inside).2
        · rw [size]
          exact .inl (h.splitBucket_room inside ht together)
      obtain ⟨s', run, splits, deepest⟩ := ih inv' shallow' ready'
      refine ⟨s', fun fuel enough => ?_, by omega, by omega⟩
      obtain ⟨fuel, rfl⟩ := Nat.exists_eq_succ_of_ne_zero (Nat.ne_zero_of_lt enough)
      simp only [ExtendibleHash.insertLoop]
      rw [if_neg room, ← ht, bucketOf_ok inv' shallow']
      exact run fuel (by omega)

/-- If a key of the bucket differs from the new one in the low `D` bits of its hash, the loop of
`Insert` ends after at most as many splits as the bucket is less deep than `D`; every split makes a
bucket. -/
theorem insert_splits (h : Inv hashKey s) (shallow : s.mGlobalDepth < 31) {key other : K} {D : ℕ}
    (shallowD : D ≤ 30) (absent : find hashKey s key = .ok none)
    (inside : other ∈ (s.store (s.route (hashKey key))).dataMap)
    (differ : ¬ hashKey other ≡ hashKey key [MOD 2 ^ D]) (value : V) :
    ∃ s', insert hashKey s key value = .ok s' ∧
      insertLoop hashKey key value (D - s.depth (s.route (hashKey key)) + 1) s
        (s.route (hashKey key)) = .ok s' ∧
      s'.mBucketNum ≤ s.mBucketNum + (D - s.depth (s.route (hashKey key))) ∧
      find hashKey s' key = .ok (some value) ∧
      (∀ k v, find hashKey s k = .ok (some v) → find hashKey s' k = .ok (some v)) ∧
      s'.mGlobalDepth ≤ max s.mGlobalDepth D := by
  rw [h.find shallow] at absent
  obtain ⟨s', run, splits, deepest⟩ := Inv.insertLoop_splits value shallowD
    (D - s.depth (s.route (hashKey key))) h shallow (.inr ⟨inside, differ, by omega⟩)
  have ran : insert hashKey s key value = .ok s' := by
    unfold ExtendibleHash.insert
    rw [bucketOf_ok h shallow]
    exact run 32 (by omega)
  rcases h.insert shallow key value with hr | ⟨t, hr, inv', shallow', -, same⟩
  · rw [ran] at hr
    cases hr
  · obtain rfl : s' = t := Except.ok.inj (ran.symm.trans hr)
    refine ⟨s', ran, run _ (Nat.lt_succ_self _), splits, ?_, fun k v found => ?_, deepest⟩
    · rw [inv'.find shallow', same, if_pos rfl, Except.ok.inj absent]
      rfl
    · have ne : k ≠ key := by
        rintro rfl
        rw [h.find shallow, absent] at found
        cases found
      rw [inv'.find shallow', same, if_neg ne, ← h.find shallow, found]

/-- The keys 0 and 4 differ in the third bit, so a bucket of one entry is split three times. -/
theorem insert_splits_three : ∃ s s' : ExtendibleHash ℕ ℕ, run id 1 [.insert 0 7] = .ok s ∧
    insert id s 4 9 = .ok s' ∧ s'.mBucketNum ≤ 4 ∧ find id s' 4 = .ok (some 9) ∧
    s'.mGlobalDepth ≤ 3 := by
  rcases run_after (id : ℕ → ℕ) 1 [.insert 0 7] with hr | ⟨s, hr, after⟩
  · cases hr
  · cases hr
    have differ : ¬ id 0 ≡ id 4 [MOD 2 ^ 3] := by decide
    obtain ⟨s', ran, -, splits, found, -, deep⟩ := insert_splits after.inv after.shallow
      (by decide) (rfl : find id _ 4 = .ok none) (by decide) differ 9
    exact ⟨_, s', rfl, ran, splits, found, deep⟩

end ScuDb.ExtendibleHash
