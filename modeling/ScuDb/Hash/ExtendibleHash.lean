import ScuDb.Config

/-!
# The extendible hash table

A bucket is shared by several slots of the directory, so slots hold bucket ids (the `shared_ptr`s)
and the buckets stand in a store.  The hash function is a parameter.  The shifts `1 << depth` are
on `int`: `getBucketIndex` overflows from global depth 31 on.
-/

namespace ScuDb

/-- `sBucket`. -/
structure SBucket (K V : Type) where
  localDepth : ℕ
  dataMap : AList fun _ : K => V := ∅

/-- `ExtendibleHash`, with the store of buckets and the next unused bucket id. -/
structure ExtendibleHash (K V : Type) where
  mBuckets : List ℕ
  mGlobalDepth : ℕ
  mBucketSize : ℕ
  mBucketNum : ℕ
  store : ℕ → SBucket K V
  nextBucket : ℕ

namespace ExtendibleHash

variable {K V : Type}

/-- The constructor: one bucket of depth zero. -/
def new (size : ℕ) : ExtendibleHash K V where
  mBuckets := [0]
  mGlobalDepth := 0
  mBucketSize := size
  mBucketNum := 1
  store := fun _ => { localDepth := 0 }
  nextBucket := 1

/-- `getBucketIndex`. -/
def getBucketIndex (hashKey : K → ℕ) (s : ExtendibleHash K V) (key : K) : Except Fault ℕ :=
  if 31 ≤ s.mGlobalDepth then .error .overflow
  else .ok (hashKey key &&& (1 <<< s.mGlobalDepth - 1))

/-- `mBuckets[index]`. -/
def bucketAt (s : ExtendibleHash K V) (index : ℕ) : Except Fault ℕ :=
  match s.mBuckets[index]? with
  | none => .error .outOfBounds
  | some bucket => .ok bucket

/-- The bucket a key belongs to. -/
def bucketOf (hashKey : K → ℕ) (s : ExtendibleHash K V) (key : K) : Except Fault ℕ := do
  let index ← getBucketIndex hashKey s key
  s.bucketAt index

def setBucket (s : ExtendibleHash K V) (b : ℕ) (bucket : SBucket K V) : ExtendibleHash K V :=
  { s with store := Function.update s.store b bucket }

/-- The directory doubles when a bucket of depth `localDepth` needs more bits than it has. -/
def grow (s : ExtendibleHash K V) (localDepth : ℕ) : ExtendibleHash K V :=
  if s.mGlobalDepth < localDepth then
    { s with mBuckets := s.mBuckets ++ s.mBuckets, mGlobalDepth := s.mGlobalDepth + 1 }
  else s

variable [DecidableEq K]

/-- `Find`: the value, or `none` for `false`. -/
def find (hashKey : K → ℕ) (s : ExtendibleHash K V) (key : K) : Except Fault (Option V) := do
  let b ← bucketOf hashKey s key
  return (s.store b).dataMap.lookup key

/-- `Remove`. -/
def remove (hashKey : K → ℕ) (s : ExtendibleHash K V) (key : K) :
    Except Fault (Bool × ExtendibleHash K V) := do
  let b ← bucketOf hashKey s key
  match (s.store b).dataMap.lookup key with
  | none => return (false, s)
  | some _ =>
    let bucket := s.store b
    return (true, s.setBucket b { bucket with dataMap := bucket.dataMap.erase key })

/-- `std::map::insert`: an entry that is already there stays. -/
def insertPair (m : AList fun _ : K => V) (key : K) (value : V) : AList fun _ : K => V :=
  match m.lookup key with
  | none => m.insert key value
  | some _ => m

/-- The loop that moves the entries whose hash has the bit of `mask` set from `cur` to `newBuc`. -/
def moveEntries (hashKey : K → ℕ) (mask : ℕ) : List (Σ _ : K, V) →
    (AList fun _ : K => V) × (AList fun _ : K => V) →
    (AList fun _ : K => V) × (AList fun _ : K => V)
  | [], maps => maps
  | ⟨key, value⟩ :: rest, (cur, newBuc) =>
    if hashKey key &&& mask ≠ 0 then
      moveEntries hashKey mask rest (cur.erase key, newBuc.insert key value)
    else moveEntries hashKey mask rest (cur, newBuc)

/-- The body of the loop of `Insert` once the bucket is full: the bucket is split in two, and the
slots of its aliases with the bit of `mask` set get the new one. -/
def splitBucket (hashKey : K → ℕ) (s : ExtendibleHash K V) (cur : ℕ) : ExtendibleHash K V :=
  let mask := 1 <<< (s.store cur).localDepth
  let localDepth := (s.store cur).localDepth + 1
  let s := s.grow localDepth
  let newBuc := s.nextBucket
  let (dataMap, moved) :=
    moveEntries hashKey mask (s.store cur).dataMap.entries ((s.store cur).dataMap, ∅)
  { s with
    mBucketNum := s.mBucketNum + 1
    store := Function.update (Function.update s.store cur ⟨localDepth, dataMap⟩) newBuc
      ⟨localDepth, moved⟩
    nextBucket := s.nextBucket + 1
    mBuckets := s.mBuckets.mapIdx fun i b => if b = cur ∧ i &&& mask ≠ 0 then newBuc else b }

/-- The loop of `Insert`. -/
def insertLoop (hashKey : K → ℕ) (key : K) (value : V) :
    ℕ → ExtendibleHash K V → ℕ → Except Fault (ExtendibleHash K V)
  | 0, _, _ => .error .diverges
  | fuel + 1, s, cur =>
    let bucket := s.store cur
    if (bucket.dataMap.lookup key).isSome ∨ bucket.dataMap.entries.length < s.mBucketSize then
      .ok (s.setBucket cur { bucket with dataMap := insertPair bucket.dataMap key value })
    else do
      let s := splitBucket hashKey s cur
      let cur ← bucketOf hashKey s key
      insertLoop hashKey key value fuel s cur

/-- `Insert`.  Every round of the loop deepens the bucket of the key, which has depth at most 30. -/
def insert (hashKey : K → ℕ) (s : ExtendibleHash K V) (key : K) (value : V) :
    Except Fault (ExtendibleHash K V) := do
  let cur ← bucketOf hashKey s key
  insertLoop hashKey key value 32 s cur

end ExtendibleHash

end ScuDb
