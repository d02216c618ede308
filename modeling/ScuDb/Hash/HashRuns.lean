import ScuDb.Hash.HashInvariant

/-!
# Runs of the hash table

A run is a history of calls on a new table.  It either stops because a split reaches depth 31,
where the `int` shift of `getBucketIndex` overflows, or ends in a table that satisfies the directory
invariant and stores for every key the oldest value inserted since the key was last removed.
-/

namespace ScuDb.ExtendibleHash

open Routing

variable {K V : Type} {hashKey : K → ℕ} {s s' : ExtendibleHash K V}

/-! ## Changes of one bucket -/

theorem setBucket_depth (s : ExtendibleHash K V) (cur : ℕ) (m : AList fun _ : K => V) :
    (s.setBucket cur { s.store cur with dataMap := m }).depth = s.depth := by
  funext b
  simp only [depth, setBucket, Function.update_apply]
  split_ifs with hb
  · rw [hb]
  · rfl

/-- A bucket may get any entries that belong to it and fit. -/
theorem Inv.setBucket (h : Inv hashKey s) {cur : ℕ} {m : AList fun _ : K => V}
    (keys : ∀ k ∈ m, s.route (hashKey k) = cur) (small : m.entries.length ≤ s.mBucketSize) :
    Inv hashKey (s.setBucket cur { s.store cur with dataMap := m }) where
  length := h.length
  routes := by
    rw [setBucket_depth]
    exact h.routes
  depth_le := by
    rw [setBucket_depth]
    exact h.depth_le
  attained := by
    rw [setBucket_depth]
    exact h.attained
  routed i k hk := by
    change s.route (hashKey k) = s.route i
    change k ∈ ((Function.update s.store cur { s.store cur with dataMap := m })
      (s.route i)).dataMap at hk
    rw [Function.update_apply] at hk
    split_ifs at hk with hi
    · rw [hi]
      exact keys k hk
    · exact h.routed i k hk
  capacity i := by
    change ((Function.update s.store cur { s.store cur with dataMap := m })
      (s.route i)).dataMap.entries.length ≤ s.mBucketSize
    rw [Function.update_apply]
    split_ifs
    · exact small
    · exact h.capacity i
  count := h.count
  allocated := h.allocated

variable [DecidableEq K]

theorem setBucket_stored (s : ExtendibleHash K V) (cur : ℕ) (m : AList fun _ : K => V) (k : K) :
    stored hashKey (s.setBucket cur { s.store cur with dataMap := m }) k =
      if s.route (hashKey k) = cur then m.lookup k else stored hashKey s k := by
  change ((Function.update s.store cur { s.store cur with dataMap := m })
    (s.route (hashKey k))).dataMap.lookup k = _
  rw [Function.update_apply]
  split_ifs <;> rfl

theorem insertPair_lookup (m : AList fun _ : K => V) (key k : K) (value : V) :
    (insertPair m key value).lookup k =
      if k = key then some ((m.lookup key).getD value) else m.lookup k := by
  unfold insertPair
  cases hm : m.lookup key with
  | none =>
    split_ifs with hk
    · rw [hk]
      exact AList.lookup_insert m
    · exact AList.lookup_insert_ne hk
  | some v =>
    split_ifs with hk
    · rw [hk]
      exact hm
    · rfl

theorem insertPair_length {m : AList fun _ : K => V} {key : K} {value : V} {n : ℕ}
    (room : (m.lookup key).isSome ∨ m.entries.length < n) (small : m.entries.length ≤ n) :
    (insertPair m key value).entries.length ≤ n := by
  unfold insertPair
  cases hm : m.lookup key with
  | none =>
    have absent : key ∉ m := AList.lookup_eq_none.1 hm
    have free : m.entries.length < n := by simpa [hm] using room
    rw [AList.entries_insert_of_notMem absent]
    exact free
  | some v => exact small

/-! ## The calls -/

/-- `Find` returns what is stored. -/
theorem Inv.find (h : Inv hashKey s) (shallow : s.mGlobalDepth < 31) (key : K) :
    find hashKey s key = .ok (stored hashKey s key) := by
  unfold ExtendibleHash.find
  rw [bucketOf_ok h shallow]
  rfl

/-- `Remove` returns whether something was stored and forgets it. -/
theorem Inv.remove (h : Inv hashKey s) (shallow : s.mGlobalDepth < 31) (key : K) :
    ∃ s', remove hashKey s key = .ok ((stored hashKey s key).isSome, s') ∧ Inv hashKey s' ∧
      s'.mGlobalDepth = s.mGlobalDepth ∧ s'.mBucketSize = s.mBucketSize ∧
      ∀ k, stored hashKey s' k = if k = key then none else stored hashKey s k := by
  set b := s.route (hashKey key) with hb
  have run : ExtendibleHash.remove hashKey s key = (stored hashKey s key).elim (.ok (false, s))
      fun _ => .ok (true, s.setBucket b
        { s.store b with dataMap := (s.store b).dataMap.erase key }) := by
    unfold ExtendibleHash.remove
    rw [bucketOf_ok h shallow, stored, ← hb]
    simp only [bind, Except.bind]
    cases (s.store b).dataMap.lookup key <;> rfl
  rw [run]
  cases hv : stored hashKey s key with
  | none =>
    refine ⟨s, rfl, h, rfl, rfl, fun k => ?_⟩
    split_ifs with hk
    · rw [hk, hv]
    · rfl
  | some v =>
    refine ⟨_, rfl, h.setBucket (fun k hk => ?_) ?_, rfl, rfl, fun k => ?_⟩
    · exact h.routed _ k (AList.mem_erase.1 hk).2
    · exact (length_le_of_subset fun k hk => (AList.mem_erase.1 hk).2).trans (h.capacity _)
    · rw [setBucket_stored]
      split_ifs with hr hk hk
      · rw [hk, AList.lookup_erase]
      · rw [AList.lookup_erase_ne hk, ← hr]
        rfl
      · exact absurd (by rw [hk]) hr
      · rfl

/-- The loop of `Insert` stores the value unless the key has one, or a split reaches depth 31. -/
theorem Inv.insertLoop (key : K) (value : V) : ∀ (fuel : ℕ) {s : ExtendibleHash K V},
    Inv hashKey s → s.mGlobalDepth < 31 → 31 < s.depth (s.route (hashKey key)) + fuel →
    insertLoop hashKey key value fuel s (s.route (hashKey key)) = .error .overflow ∨
    ∃ s', insertLoop hashKey key value fuel s (s.route (hashKey key)) = .ok s' ∧ Inv hashKey s' ∧
      s'.mGlobalDepth < 31 ∧ s'.mBucketSize = s.mBucketSize ∧
      ∀ k, stored hashKey s' k =
        if k = key then some ((stored hashKey s key).getD value) else stored hashKey s k
  | 0, s, h, shallow, enough => by
    have := h.depth_le (hashKey key)
    omega
  | fuel + 1, s, h, shallow, enough => by
    simp only [ExtendibleHash.insertLoop]
    split_ifs with room
    · right
      refine ⟨_, rfl, h.setBucket (fun k hk => ?_) ?_, shallow, rfl, fun k => ?_⟩
      · rw [← AList.lookup_isSome, insertPair_lookup] at hk
        split_ifs at hk with hkey
        · rw [hkey]
        · exact h.routed _ k (AList.lookup_isSome.1 hk)
      · exact insertPair_length room (h.capacity _)
      · rw [setBucket_stored, insertPair_lookup]
        split_ifs with hr hk hk
        · rfl
        · rw [← hr]
          rfl
        · exact absurd (by rw [hk]) hr
        · rfl
    · set t := ExtendibleHash.splitBucket hashKey s (s.route (hashKey key))
      have inv' : Inv hashKey t := h.splitBucket (i := hashKey key) rfl
      by_cases deep : 31 ≤ t.mGlobalDepth
      · left
        rw [bucketOf_overflow deep]
        rfl
      · rw [bucketOf_ok inv' (not_le.1 deep)]
        have deeper : 31 < t.depth (t.route (hashKey key)) + fuel := by
          have fresh := (h.allocated (hashKey key)).ne
          rw [splitBucket_depth, h.splitBucket_route (i := hashKey key) rfl,
            deepen_split fresh rfl]
          omega
        have size : t.mBucketSize = s.mBucketSize := grow_mBucketSize s _
        have same : ∀ k, stored hashKey t k = stored hashKey s k :=
          h.splitBucket_stored (i := hashKey key) rfl
        rcases Inv.insertLoop key value fuel inv' (not_le.1 deep) deeper with
          hr | ⟨s', hr, done⟩
        · exact .inl hr
        · refine .inr ⟨s', hr, ?_⟩
          simpa only [same, size] using done

/-- `Insert` stores the value unless the key has one, or a split reaches depth 31. -/
theorem Inv.insert (h : Inv hashKey s) (shallow : s.mGlobalDepth < 31) (key : K) (value : V) :
    insert hashKey s key value = .error .overflow ∨
    ∃ s', insert hashKey s key value = .ok s' ∧ Inv hashKey s' ∧
      s'.mGlobalDepth < 31 ∧ s'.mBucketSize = s.mBucketSize ∧
      ∀ k, stored hashKey s' k =
        if k = key then some ((stored hashKey s key).getD value) else stored hashKey s k := by
  unfold ExtendibleHash.insert
  rw [bucketOf_ok h shallow]
  exact Inv.insertLoop key value 32 h shallow (by omega)

/-! ## Histories -/

inductive Op (K V : Type)
  | insert (key : K) (value : V)
  | remove (key : K)
  | find (key : K)

def step (hashKey : K → ℕ) (s : ExtendibleHash K V) : Op K V → Except Fault (ExtendibleHash K V)
  | .insert key value => insert hashKey s key value
  | .remove key => Prod.snd <$> remove hashKey s key
  | .find key => (fun _ => s) <$> find hashKey s key

/-- The table after a history of calls, the latest first. -/
def run (hashKey : K → ℕ) (size : ℕ) : List (Op K V) → Except Fault (ExtendibleHash K V)
  | [] => .ok (new size)
  | op :: before => do
    let s ← run hashKey size before
    step hashKey s op

/-- The values passed to `Insert` for the key since it was last removed, the latest first. -/
def insertedSince (key : K) : List (Op K V) → List V
  | [] => []
  | .insert k value :: before =>
    if k = key then value :: insertedSince key before else insertedSince key before
  | .remove k :: before => if k = key then [] else insertedSince key before
  | .find _ :: before => insertedSince key before

/-- What holds of a table after a history: the oldest of these values is stored. -/
structure After (hashKey : K → ℕ) (size : ℕ) (history : List (Op K V))
    (s : ExtendibleHash K V) : Prop where
  inv : Inv hashKey s
  shallow : s.mGlobalDepth < 31
  size : s.mBucketSize = size
  stored : ∀ key, stored hashKey s key = (insertedSince key history).getLast?

theorem After.insert {size : ℕ} {history : List (Op K V)} (h : After hashKey size history s)
    (key : K) (value : V) :
    insert hashKey s key value = .error .overflow ∨
    ∃ s', insert hashKey s key value = .ok s' ∧
      After hashKey size (.insert key value :: history) s' := by
  rcases h.inv.insert h.shallow key value with hr | ⟨s', hr, inv', shallow, size', same⟩
  · exact .inl hr
  · refine .inr ⟨s', hr, inv', shallow, size'.trans h.size, fun k => ?_⟩
    rw [same, insertedSince]
    by_cases hk : k = key
    · rw [hk, if_pos rfl, if_pos rfl, h.stored, List.getLast?_cons]
    · rw [if_neg hk, if_neg (Ne.symm hk), h.stored]

theorem After.remove {size : ℕ} {history : List (Op K V)} (h : After hashKey size history s)
    (key : K) :
    ∃ s', remove hashKey s key = .ok ((insertedSince key history).getLast?.isSome, s') ∧
      After hashKey size (.remove key :: history) s' := by
  obtain ⟨s', hr, inv', depth, size', same⟩ := h.inv.remove h.shallow key
  rw [h.stored] at hr
  refine ⟨s', hr, inv', depth.trans_lt h.shallow, size'.trans h.size, fun k => ?_⟩
  rw [same, insertedSince]
  by_cases hk : k = key
  · rw [if_pos hk, if_pos hk.symm]
    rfl
  · rw [if_neg hk, if_neg (Ne.symm hk), h.stored]

/-- A run ends in such a table unless a split reaches depth 31. -/
theorem run_after (hashKey : K → ℕ) (size : ℕ) (history : List (Op K V)) :
    run hashKey size history = .error .overflow ∨
    ∃ s, run hashKey size history = .ok s ∧ After hashKey size history s := by
  induction history with
  | nil => exact .inr ⟨new size, rfl, inv_new size, Nat.succ_pos 30, rfl, fun _ => rfl⟩
  | cons op before ih =>
    rcases ih with hr | ⟨s, hr, after⟩
    · left
      simp only [run, hr]
      rfl
    · simp only [run, hr]
      cases op with
      | insert key value => exact after.insert key value
      | remove key =>
        obtain ⟨s', hs, after'⟩ := after.remove key
        refine .inr ⟨s', ?_, after'⟩
        change Prod.snd <$> ExtendibleHash.remove hashKey s key = _
        rw [hs]
        rfl
      | find key =>
        refine .inr ⟨s, ?_, after.inv, after.shallow, after.size, after.stored⟩
        change (fun _ => s) <$> ExtendibleHash.find hashKey s key = _
        rw [after.inv.find after.shallow]
        rfl

/-! ## The results -/

/-- The directory invariant, over the slots. -/
structure Directory (hashKey : K → ℕ) (size : ℕ) (s : ExtendibleHash K V) : Prop where
  length : s.mBuckets.length = 2 ^ s.mGlobalDepth
  depth_le : ∀ b ∈ s.mBuckets, (s.store b).localDepth ≤ s.mGlobalDepth
  attained : ∃ b ∈ s.mBuckets, (s.store b).localDepth = s.mGlobalDepth
  aliased : ∀ (i j : Fin s.mBuckets.length), s.mBuckets.get i = s.mBuckets.get j ↔
    (i : ℕ) ≡ j [MOD 2 ^ (s.store (s.mBuckets.get i)).localDepth]
  routed : ∀ (i : Fin s.mBuckets.length), ∀ k ∈ (s.store (s.mBuckets.get i)).dataMap,
    hashKey k ≡ i [MOD 2 ^ (s.store (s.mBuckets.get i)).localDepth]
  capacity : ∀ b ∈ s.mBuckets, (s.store b).dataMap.entries.length ≤ size
  count : s.mBucketNum = s.mBuckets.toFinset.card

theorem After.directory {size : ℕ} {history : List (Op K V)} (h : After hashKey size history s) :
    Directory hashKey size s := by
  have slot : ∀ i : Fin s.mBuckets.length, s.mBuckets.get i = s.route i :=
    fun i => (spread_eq_getElem i.2).symm
  have used : ∀ b, b ∈ s.mBuckets ↔ ∃ i, s.route i = b := mem_iff_spread h.inv.ne_nil
  refine ⟨h.inv.length, ?_, ?_, ?_, ?_, ?_, h.inv.count⟩
  · intro b hb
    obtain ⟨i, rfl⟩ := (used b).1 hb
    exact h.inv.depth_le i
  · obtain ⟨i, hi⟩ := h.inv.attained
    exact ⟨s.route i, (used _).2 ⟨i, rfl⟩, hi⟩
  · intro i j
    rw [slot i, slot j]
    exact h.inv.routes i j
  · intro i k hk
    rw [slot i] at hk ⊢
    exact ((h.inv.routes i (hashKey k)).1 (h.inv.routed i k hk).symm).symm
  · intro b hb
    obtain ⟨i, rfl⟩ := (used b).1 hb
    rw [← h.size]
    exact h.inv.capacity i

/-- After every history of calls on a table of any capacity the directory invariant holds, unless a
split reached depth 31. -/
theorem run_directory (hashKey : K → ℕ) (size : ℕ) (history : List (Op K V)) :
    run hashKey size history = .error .overflow ∨
    ∃ s, run hashKey size history = .ok s ∧ Directory hashKey size s := by
  rcases run_after hashKey size history with hr | ⟨s, hr, after⟩
  · exact .inl hr
  · exact .inr ⟨s, hr, after.directory⟩

/-- After every history of calls, unless a split reached depth 31: `Find` succeeds exactly for the
keys inserted since they were last removed and delivers one of the values inserted since; `Remove`
returns true exactly for these keys; and no key is in two buckets. -/
theorem run_find (hashKey : K → ℕ) (size : ℕ) (history : List (Op K V)) :
    run hashKey size history = .error .overflow ∨
    ∃ s, run hashKey size history = .ok s ∧ ∀ key,
      (∃ found, find hashKey s key = .ok found ∧
        (found.isSome ↔ insertedSince key history ≠ []) ∧
        ∀ value, found = some value → value ∈ insertedSince key history) ∧
      (∃ s', remove hashKey s key = .ok (decide (insertedSince key history ≠ []), s')) ∧
      ∀ b ∈ s.mBuckets, ∀ b' ∈ s.mBuckets,
        key ∈ (s.store b).dataMap → key ∈ (s.store b').dataMap → b = b' := by
  rcases run_after hashKey size history with hr | ⟨s, hr, after⟩
  · exact .inl hr
  refine .inr ⟨s, hr, fun key => ⟨⟨_, after.inv.find after.shallow key, ?_, ?_⟩, ?_, ?_⟩⟩
  · rw [after.stored, List.getLast?_isSome]
  · intro value found
    rw [after.stored] at found
    exact List.mem_of_getLast? found
  · obtain ⟨s', hs, -⟩ := after.remove key
    refine ⟨s', hs.trans ?_⟩
    congr 2
    rw [Bool.eq_iff_iff, List.getLast?_isSome, decide_eq_true_iff]
  · intro b hb b' hb' hk hk'
    rw [mem_iff_spread after.inv.ne_nil] at hb hb'
    obtain ⟨i, rfl⟩ := hb
    obtain ⟨j, rfl⟩ := hb'
    exact (after.inv.routed i key hk).symm.trans (after.inv.routed j key hk')

/-- Four keys in buckets of one entry: the directory doubles twice, and a second `Insert` of a key
keeps its value. -/
example : ((run id 1 [.insert 3 7, .insert 3 3, .insert 2 2, .insert 1 1, .insert 0 0]).toOption.map
    fun s => (s.mGlobalDepth, s.mBuckets, (find id s 3).toOption)) =
    some (2, [0, 1, 2, 3], some (some 3)) := by
  decide

end ScuDb.ExtendibleHash
