import ScuDb.Lib.Routing
import ScuDb.Hash.ExtendibleHash

/-!
# The directory of the hash table

`Inv` says that the directory routes every hash by the low bits its bucket looks at.  It is stated
over all hashes, not only over the slots, so that doubling the directory changes nothing.  Every
split keeps it and keeps what is stored for every key.
-/

namespace ScuDb.ExtendibleHash

open Routing

variable {K V : Type} {hashKey : K → ℕ} {s s' : ExtendibleHash K V}

/-- The bucket a hash is sent to. -/
def route (s : ExtendibleHash K V) : ℕ → ℕ := spread s.mBuckets

def depth (s : ExtendibleHash K V) (b : ℕ) : ℕ := (s.store b).localDepth

structure Inv (hashKey : K → ℕ) (s : ExtendibleHash K V) : Prop where
  length : s.mBuckets.length = 2 ^ s.mGlobalDepth
  routes : Routes s.route s.depth
  depth_le : ∀ i, s.depth (s.route i) ≤ s.mGlobalDepth
  attained : ∃ i, s.depth (s.route i) = s.mGlobalDepth
  routed : ∀ i k, k ∈ (s.store (s.route i)).dataMap → s.route (hashKey k) = s.route i
  capacity : ∀ i, (s.store (s.route i)).dataMap.entries.length ≤ s.mBucketSize
  count : s.mBucketNum = s.mBuckets.toFinset.card
  allocated : ∀ i, s.route i < s.nextBucket

theorem Inv.ne_nil (h : Inv hashKey s) : s.mBuckets ≠ [] := by
  intro e
  have := h.length
  rw [e] at this
  exact absurd this.symm (by simp)

theorem inv_new (size : ℕ) : Inv hashKey (new size : ExtendibleHash K V) where
  length := rfl
  routes i j := by
    have all : ∀ i, (new size : ExtendibleHash K V).route i = 0 := by
      intro i
      simp [route, spread, new, Nat.mod_one]
    rw [all i, all j]
    exact ⟨fun _ => Nat.modEq_one, fun _ => rfl⟩
  depth_le i := le_rfl
  attained := ⟨0, rfl⟩
  routed i k hk := absurd hk (AList.notMem_empty k)
  capacity i := Nat.zero_le _
  count := rfl
  allocated i := by simp [route, spread, new, Nat.mod_one]

/-! ## Finding the bucket of a key -/

theorem bucketOf_ok (h : Inv hashKey s) (shallow : s.mGlobalDepth < 31) (key : K) :
    bucketOf hashKey s key = .ok (s.route (hashKey key)) := by
  have index : hashKey key &&& (1 <<< s.mGlobalDepth - 1) = hashKey key % s.mBuckets.length := by
    rw [Nat.one_shiftLeft, Nat.and_two_pow_sub_one_eq_mod, h.length]
  have inside : hashKey key % s.mBuckets.length < s.mBuckets.length :=
    Nat.mod_lt _ (List.length_pos_of_ne_nil h.ne_nil)
  unfold bucketOf getBucketIndex
  rw [if_neg (not_le.2 shallow), index]
  change s.bucketAt _ = _
  simp only [bucketAt, List.getElem?_eq_getElem inside]
  rw [← spread_eq_getElem inside, spread_mod]
  rfl

theorem bucketOf_overflow (deep : 31 ≤ s.mGlobalDepth) (key : K) :
    bucketOf hashKey s key = .error .overflow := by
  unfold bucketOf getBucketIndex
  rw [if_pos deep]
  rfl

theorem length_le_of_subset {m m' : AList fun _ : K => V} (h : ∀ k, k ∈ m → k ∈ m') :
    m.entries.length ≤ m'.entries.length := by
  have sub := (List.subperm_of_subset m.keys_nodup fun k hk => h k hk).length_le
  simpa [AList.keys, List.keys] using sub

/-! ## Growing the directory -/

theorem grow_store (s : ExtendibleHash K V) (d : ℕ) : (s.grow d).store = s.store := by
  unfold grow
  split_ifs <;> rfl

theorem grow_nextBucket (s : ExtendibleHash K V) (d : ℕ) :
    (s.grow d).nextBucket = s.nextBucket := by
  unfold grow
  split_ifs <;> rfl

theorem grow_mBucketSize (s : ExtendibleHash K V) (d : ℕ) :
    (s.grow d).mBucketSize = s.mBucketSize := by
  unfold grow
  split_ifs <;> rfl

theorem grow_mBucketNum (s : ExtendibleHash K V) (d : ℕ) :
    (s.grow d).mBucketNum = s.mBucketNum := by
  unfold grow
  split_ifs <;> rfl

theorem Inv.grow_route (h : Inv hashKey s) (d : ℕ) : (s.grow d).route = s.route := by
  unfold grow
  split_ifs
  · exact spread_append_self h.ne_nil
  · rfl

/-- The directory has the bits that a bucket one deeper than `b` needs. -/
theorem Inv.grow_depth (h : Inv hashKey s) (i : ℕ) :
    (s.grow (s.depth (s.route i) + 1)).mGlobalDepth =
      max s.mGlobalDepth (s.depth (s.route i) + 1) := by
  have := h.depth_le i
  unfold grow
  split_ifs <;> simp <;> omega

theorem Inv.grow_length (h : Inv hashKey s) (d : ℕ) :
    (s.grow d).mBuckets.length = 2 ^ (s.grow d).mGlobalDepth := by
  unfold grow
  split_ifs
  · simp only [List.length_append, h.length, pow_succ]
    omega
  · exact h.length

theorem Inv.splitBucket_deep (h : Inv hashKey s) {i cur : ℕ} (hi : s.route i = cur) :
    s.depth cur < (s.grow (s.depth cur + 1)).mGlobalDepth := by
  rw [← hi, h.grow_depth i]
  omega

variable [DecidableEq K]

/-- What is stored for a key. -/
def stored (hashKey : K → ℕ) (s : ExtendibleHash K V) (key : K) : Option V :=
  (s.store (s.route (hashKey key))).dataMap.lookup key

theorem Inv.lookup_isSome (h : Inv hashKey s) (i : ℕ) (k : K) :
    k ∈ (s.store (s.route i)).dataMap ↔
      s.route (hashKey k) = s.route i ∧ (stored hashKey s k).isSome := by
  unfold stored
  rw [AList.lookup_isSome]
  constructor
  · intro hk
    have e := h.routed i k hk
    exact ⟨e, by rwa [e]⟩
  · rintro ⟨e, hk⟩
    rwa [← e]

/-! ## Splits -/

theorem and_mask_ne_zero (i d : ℕ) : i &&& 1 <<< d ≠ 0 ↔ i.testBit d = true := by
  rw [Nat.one_shiftLeft, Nat.and_two_pow]
  cases i.testBit d <;> simp

/-- What the loop over the entries `l` leaves in the two maps. -/
theorem moveEntries_lookup (hashKey : K → ℕ) (mask : ℕ) (k : K) : ∀ (l : List (Σ _ : K, V))
    (cur newBuc : AList fun _ : K => V), l.NodupKeys →
    (moveEntries hashKey mask l (cur, newBuc)).1.lookup k =
      (if hashKey k &&& mask ≠ 0 ∧ k ∈ l.keys then none else cur.lookup k) ∧
    (moveEntries hashKey mask l (cur, newBuc)).2.lookup k =
      (if hashKey k &&& mask ≠ 0 ∧ k ∈ l.keys then l.dlookup k else newBuc.lookup k)
  | [], cur, newBuc, _ => by simp [moveEntries]
  | ⟨key, value⟩ :: rest, cur, newBuc, nodup => by
    obtain ⟨absent, nodup'⟩ := List.nodupKeys_cons.1 nodup
    simp only [moveEntries]
    by_cases bit : hashKey key &&& mask ≠ 0
    · rw [if_pos bit]
      obtain ⟨left, right⟩ :=
        moveEntries_lookup hashKey mask k rest (cur.erase key) (newBuc.insert key value) nodup'
      by_cases hk : k = key
      · subst hk
        rw [left, right]
        simp [bit, absent]
      · rw [left, right, AList.lookup_erase_ne hk, AList.lookup_insert_ne hk]
        simp [hk]
    · rw [if_neg bit]
      obtain ⟨left, right⟩ := moveEntries_lookup hashKey mask k rest cur newBuc nodup'
      by_cases hk : k = key
      · subst hk
        rw [left, right]
        simp [bit]
      · rw [left, right]
        simp [hk]

theorem Inv.splitBucket_route (h : Inv hashKey s) {i cur : ℕ} (hi : s.route i = cur) :
    (splitBucket hashKey s cur).route = split s.route cur s.nextBucket (s.depth cur) := by
  have slots : (splitBucket hashKey s cur).mBuckets =
      splitSlots (s.grow (s.depth cur + 1)).mBuckets cur s.nextBucket (s.depth cur) := by
    unfold splitBucket splitSlots
    simp only [and_mask_ne_zero, grow_nextBucket]
    rfl
  unfold route
  rw [slots, spread_splitSlots (h.grow_length _) (h.splitBucket_deep hi)]
  exact congrArg (fun r => split r cur s.nextBucket (s.depth cur)) (h.grow_route _)

theorem splitBucket_depth (hashKey : K → ℕ) (s : ExtendibleHash K V) (cur : ℕ) :
    (splitBucket hashKey s cur).depth = deepen s.depth cur s.nextBucket := by
  funext b
  simp only [depth, splitBucket, grow_store, grow_nextBucket, deepen, Function.update_apply]
  split_ifs <;> rfl

/-- The maps of the two halves. -/
theorem splitBucket_lookup (hashKey : K → ℕ) (s : ExtendibleHash K V) (cur b : ℕ) (k : K) :
    ((splitBucket hashKey s cur).store b).dataMap.lookup k =
      if b = s.nextBucket then
        if (hashKey k).testBit (s.depth cur) then (s.store cur).dataMap.lookup k else none
      else if b = cur then
        if (hashKey k).testBit (s.depth cur) then none else (s.store cur).dataMap.lookup k
      else (s.store b).dataMap.lookup k := by
  have moved := moveEntries_lookup hashKey (1 <<< s.depth cur) k
    (s.store cur).dataMap.entries (s.store cur).dataMap ∅ (s.store cur).dataMap.nodupKeys
  have absent : k ∉ (s.store cur).dataMap.entries.keys → (s.store cur).dataMap.lookup k = none :=
    fun hk => AList.lookup_eq_none.2 hk
  simp only [and_mask_ne_zero, AList.lookup_empty] at moved
  have left : (moveEntries hashKey (1 <<< s.depth cur) (s.store cur).dataMap.entries
      ((s.store cur).dataMap, ∅)).1.lookup k =
      if (hashKey k).testBit (s.depth cur) then none else (s.store cur).dataMap.lookup k := by
    rw [moved.1]
    by_cases hk : k ∈ (s.store cur).dataMap.entries.keys <;> simp [hk, absent]
  have right : (moveEntries hashKey (1 <<< s.depth cur) (s.store cur).dataMap.entries
      ((s.store cur).dataMap, ∅)).2.lookup k =
      if (hashKey k).testBit (s.depth cur) then (s.store cur).dataMap.lookup k else none := by
    rw [moved.2]
    by_cases hk : k ∈ (s.store cur).dataMap.entries.keys
    · simp [hk, AList.lookup]
    · simp [hk, absent]
  rw [← left, ← right]
  simp only [splitBucket, grow_store, grow_nextBucket, Function.update_apply]
  split_ifs <;> rfl

/-- The buckets of a split table. -/
theorem Inv.splitBucket_mem (h : Inv hashKey s) {i cur : ℕ} (hi : s.route i = cur)
    (inhabited : (splitBucket hashKey s cur).mBuckets ≠ []) :
    (splitBucket hashKey s cur).mBuckets.toFinset =
      Insert.insert s.nextBucket s.mBuckets.toFinset := by
  have fresh : ∀ j, s.route j ≠ s.nextBucket := fun j => (h.allocated j).ne
  have ne : cur ≠ s.nextBucket := hi ▸ fresh i
  obtain ⟨j, l, hj, hl⟩ := h.routes.split_used ne fresh hi
  ext b
  rw [List.mem_toFinset, Finset.mem_insert, List.mem_toFinset, mem_iff_spread inhabited,
    mem_iff_spread h.ne_nil]
  change (∃ k, (ExtendibleHash.splitBucket hashKey s cur).route k = b) ↔
    b = s.nextBucket ∨ ∃ k, s.route k = b
  rw [h.splitBucket_route hi]
  constructor
  · rintro ⟨k, rfl⟩
    unfold split
    split_ifs
    · exact .inl rfl
    · exact .inr ⟨k, rfl⟩
  · rintro (rfl | ⟨k, rfl⟩)
    · exact ⟨l, hl⟩
    · by_cases hk : s.route k = cur
      · exact ⟨j, hj.trans hk.symm⟩
      · exact ⟨k, split_of_ne hk⟩

/-- A split keeps what is stored for every key. -/
theorem Inv.splitBucket_stored (h : Inv hashKey s) {i cur : ℕ} (hi : s.route i = cur) (k : K) :
    stored hashKey (splitBucket hashKey s cur) k = stored hashKey s k := by
  have fresh : ∀ j, s.route j ≠ s.nextBucket := fun j => (h.allocated j).ne
  have ne : cur ≠ s.nextBucket := hi ▸ fresh i
  unfold stored
  rw [h.splitBucket_route hi, splitBucket_lookup]
  unfold split
  by_cases hk : s.route (hashKey k) = cur
  · cases bit : (hashKey k).testBit (s.depth cur) <;> simp [hk, ne]
  · simp [hk, fresh (hashKey k)]

/-- A split keeps the invariant. -/
theorem Inv.splitBucket (h : Inv hashKey s) {i cur : ℕ} (hi : s.route i = cur) :
    Inv hashKey (splitBucket hashKey s cur) := by
  have fresh : ∀ j, s.route j ≠ s.nextBucket := fun j => (h.allocated j).ne
  have ne : cur ≠ s.nextBucket := hi ▸ fresh i
  have hroute := h.splitBucket_route hi
  have hdepth := splitBucket_depth hashKey s cur
  have hlookup := splitBucket_lookup hashKey s cur
  have hglobal : (ExtendibleHash.splitBucket hashKey s cur).mGlobalDepth =
      max s.mGlobalDepth (s.depth cur + 1) := hi ▸ h.grow_depth i
  have length : (ExtendibleHash.splitBucket hashKey s cur).mBuckets.length =
      2 ^ (ExtendibleHash.splitBucket hashKey s cur).mGlobalDepth := by
    change ((s.grow _).mBuckets.mapIdx _).length = 2 ^ (s.grow _).mGlobalDepth
    rw [List.length_mapIdx]
    exact h.grow_length _
  have inhabited : (ExtendibleHash.splitBucket hashKey s cur).mBuckets ≠ [] := by
    intro e
    rw [e] at length
    exact absurd length.symm (by simp)
  have subset : ∀ j k, k ∈ ((ExtendibleHash.splitBucket hashKey s cur).store
      ((ExtendibleHash.splitBucket hashKey s cur).route j)).dataMap →
      k ∈ (s.store (s.route j)).dataMap ∧ (s.route j = cur →
        (hashKey k).testBit (s.depth cur) = j.testBit (s.depth cur)) := by
    intro j k hk
    rw [← AList.lookup_isSome, hlookup, hroute] at hk
    rw [← AList.lookup_isSome]
    by_cases hj : s.route j = cur
    · cases bit : (hashKey k).testBit (s.depth cur) <;>
        cases bit' : j.testBit (s.depth cur) <;> simp_all [split]
    · rw [split_of_ne hj, if_neg (fresh j), if_neg hj] at hk
      exact ⟨hk, fun e => absurd e hj⟩
  refine ⟨length, ?_, ?_, ?_, ?_, ?_, ?_, ?_⟩
  · rw [hroute, hdepth]
    exact h.routes.split ne fresh
  · intro j
    rw [hroute, hdepth, hglobal]
    by_cases hj : s.route j = cur
    · rw [deepen_split ne hj]
      exact le_max_right _ _
    · rw [split_of_ne hj, deepen_other hj (fresh j)]
      exact (h.depth_le j).trans (le_max_left _ _)
  · rw [hroute, hdepth, hglobal]
    by_cases deep : s.mGlobalDepth < s.depth cur + 1
    · exact ⟨i, by rw [deepen_split ne hi, max_eq_right deep.le]⟩
    · obtain ⟨j, hj⟩ := h.attained
      have other : s.route j ≠ cur := by
        intro e
        rw [e] at hj
        omega
      refine ⟨j, ?_⟩
      rw [split_of_ne other, deepen_other other (fresh j), hj, max_eq_left (not_lt.1 deep)]
  · intro j k hk
    obtain ⟨inside, bit⟩ := subset j k hk
    have same := h.routed j k inside
    rw [hroute]
    by_cases hj : s.route j = cur
    · simp only [split, same, hj, bit hj]
    · rw [split_of_ne hj, split_of_ne (same ▸ hj), same]
  · intro j
    refine (length_le_of_subset fun k hk => (subset j k hk).1).trans ?_
    exact (h.capacity j).trans_eq (grow_mBucketSize s _).symm
  · have absent : s.nextBucket ∉ s.mBuckets.toFinset := by
      rw [List.mem_toFinset, mem_iff_spread h.ne_nil]
      rintro ⟨j, hj⟩
      exact fresh j hj
    rw [h.splitBucket_mem hi inhabited, Finset.card_insert_of_notMem absent, ← h.count]
    exact congrArg (· + 1) (grow_mBucketNum s _)
  · intro j
    have bound := h.allocated j
    have next : (ExtendibleHash.splitBucket hashKey s cur).nextBucket = s.nextBucket + 1 :=
      congrArg (· + 1) (grow_nextBucket s _)
    rw [hroute, next]
    unfold split
    split_ifs <;> omega

end ScuDb.ExtendibleHash
