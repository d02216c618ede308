import ScuDb.Disk.DiskManager
import ScuDb.Vtable.StorageEngine

/-!
# Restarts of the storage engine

A history is a list of sessions over one database file.  Each session starts a new `DiskManager`,
whose counter `next_page_id_` begins at zero whatever the file holds; only the session that finds
no file creates the header page.  What a session leaves to the next one is the pages on disk.
-/

namespace ScuDb

open ByteMem BufferPoolManager

/-- The file `vtable.db` between two sessions. -/
structure DatabaseFile where
  isFileExist : Bool := false
  pages : PageId → PageData := fun _ => Mem.zero

namespace Restart

variable {n : ℕ}

/-- `next_page_id_` is a 32-bit integer. -/
def wrapCounter (b : BufferPoolManager n) : BufferPoolManager n :=
  { b with diskManager :=
      { b.diskManager with nextPageId := toInt b.diskManager.nextPageId } }

/-- One call of a session, and the id that `NewPage` returned. -/
def call (b : BufferPoolManager n) : Op n → Except Fault (Option PageId × BufferPoolManager n)
  | .newPage => do
    let (r, b) ← b.newPage
    return (r.map Prod.fst, wrapCounter b)
  | op => do
    let b ← b.step op
    return (none, b)

/-- `sqlite3_vtable_init`: a new storage engine on the file, with a header page if the file was
absent. -/
def sqlite3VtableInit (n : ℕ) (file : DatabaseFile) :
    Except Fault (List PageId × BufferPoolManager n) :=
  let b : BufferPoolManager n := { diskManager := { pages := file.pages, nextPageId := 0 } }
  if file.isFileExist then .ok ([], b)
  else do
    let (r, b) ← call b .newPage
    assert (r = some headerPageId)
    let (_, b) ← b.unpinPage headerPageId true
    return (r.toList, b)

/-- The calls of a session: the ids that `NewPage` returned and the pool at the end.  A failed
assertion ends the process. -/
def serve : BufferPoolManager n → List (Op n) → List PageId × BufferPoolManager n
  | b, [] => ([], b)
  | b, op :: ops =>
    match call b op with
    | .error _ => ([], b)
    | .ok (r, b') => (r.toList ++ (serve b' ops).1, (serve b' ops).2)

/-- A whole session: the ids that `NewPage` returned and the file it leaves. -/
def session (file : DatabaseFile) (ops : List (Op n)) : List PageId × DatabaseFile :=
  match sqlite3VtableInit n file with
  | .error _ => ([], { file with isFileExist := true })
  | .ok (ids, b) =>
    (ids ++ (serve b ops).1, { isFileExist := true, pages := (serve b ops).2.destroy.pages })

/-- The ids that `NewPage` returned in all sessions, oldest first. -/
def history : DatabaseFile → List (List (Op n)) → List PageId
  | _, [] => []
  | file, ops :: sessions => (session file ops).1 ++ history (session file ops).2 sessions

/-! ## When `NewPage` finds a frame -/

/-- The frame that `GetVictimPage` looks at, the head of the free list or else the oldest unpinned
one, is there and passes the assertions. -/
def offersFrame (b : BufferPoolManager n) : Bool :=
  match b.freeList with
  | tar :: _ => decide ((b.pages tar).pageId = invalidPageId ∧ (b.pages tar).pinCount = 0)
  | [] =>
    match b.replacer.order.getLast? with
    | none => false
    | some tar => decide ((b.pages tar).pinCount = 0)

/-- Whether the call is a `NewPage` made while there is a frame for it. -/
def allocates (b : BufferPoolManager n) : Op n → Bool
  | .newPage => offersFrame b
  | _ => false

/-- The number of calls that allocate. -/
def allocations : BufferPoolManager n → List (Op n) → ℕ
  | _, [] => 0
  | b, op :: ops =>
    match call b op with
    | .error _ => 0
    | .ok (_, b') => (allocates b op).toNat + allocations b' ops

/-- The allocations of each session, the one of `sqlite3_vtable_init` included. -/
def sessionAllocations (file : DatabaseFile) (ops : List (Op n)) : ℕ :=
  match sqlite3VtableInit n file with
  | .error _ => 0
  | .ok (_, b) => (!file.isFileExist).toNat + allocations b ops

def historyAllocations : DatabaseFile → List (List (Op n)) → List ℕ
  | _, [] => []
  | file, ops :: sessions =>
    sessionAllocations file ops :: historyAllocations (session file ops).2 sessions

/-- Of any two sessions at least one allocates nothing, and none allocates more often than the
counter can tell apart. -/
def AllocatesOnce (counts : List ℕ) : Prop :=
  (∀ c ∈ counts, c ≤ 4294967296) ∧ counts.Pairwise fun c d => c = 0 ∨ d = 0

/-! ## The counter -/

theorem getVictimPage_counter {b b' : BufferPoolManager n} {r : Option (Fin n)}
    (h : b.getVictimPage = .ok (r, b')) :
    b'.diskManager = b.diskManager ∧ r.isSome = offersFrame b := by
  unfold getVictimPage at h
  unfold offersFrame
  cases hf : b.freeList with
  | nil =>
    simp only [hf, LRUReplacer.size, one_ne_zero, if_false, LRUReplacer.victim] at h
    cases hl : b.replacer.order.getLast? with
    | none =>
      simp only [hl] at h
      cases h
      exact ⟨rfl, rfl⟩
    | some tar =>
      simp only [hl] at h
      by_cases hp : (b.pages tar).pinCount = 0
      · rw [assert_pos hp] at h
        cases h
        exact ⟨rfl, by simp [hp]⟩
      · rw [assert_neg hp] at h
        cases h
  | cons tar rest =>
    simp only [hf] at h
    by_cases hi : (b.pages tar).pageId = invalidPageId
    · by_cases hp : (b.pages tar).pinCount = 0
      · rw [assert_pos hi, assert_pos hp] at h
        cases h
        exact ⟨rfl, by simp [hi, hp]⟩
      · rw [assert_pos hi, assert_neg hp] at h
        cases h
    · rw [assert_neg hi] at h
      cases h

theorem newPage_counter {b b' : BufferPoolManager n} {r : Option (PageId × Fin n)}
    (h : b.newPage = .ok (r, b')) :
    (r.map Prod.fst).toList = (if offersFrame b then [b.diskManager.nextPageId] else []) ∧
    b'.diskManager.nextPageId = b.diskManager.nextPageId + (offersFrame b).toNat := by
  unfold newPage at h
  cases hv : b.getVictimPage with
  | error e =>
    rw [hv] at h
    cases h
  | ok v =>
    obtain ⟨victim, b₁⟩ := v
    obtain ⟨disk, offers⟩ := getVictimPage_counter hv
    rw [hv] at h
    cases victim with
    | none =>
      cases h
      rw [← offers, disk]
      exact ⟨rfl, by simp⟩
    | some tar =>
      cases h
      rw [← offers]
      refine ⟨?_, ?_⟩
      · simp [disk]
      · simp [occupy, writeBack_nextPageId, disk]

theorem fetchPage_counter {b b' : BufferPoolManager n} {p : PageId} {r : Option (Fin n)}
    (h : b.fetchPage p = .ok (r, b')) :
    b'.diskManager.nextPageId = b.diskManager.nextPageId := by
  unfold fetchPage at h
  cases hp : b.pageTable.find p with
  | some tar =>
    simp only [hp] at h
    cases h
    rfl
  | none =>
    simp only [hp] at h
    cases hv : b.getVictimPage with
    | error e =>
      rw [hv] at h
      cases h
    | ok v =>
      obtain ⟨victim, b₁⟩ := v
      have disk := (getVictimPage_counter hv).1
      rw [hv] at h
      cases victim with
      | none =>
        cases h
        rw [disk]
      | some tar =>
        cases h
        simp [occupy, writeBack_nextPageId, disk]

theorem unpinPage_counter {b b' : BufferPoolManager n} {p : PageId} {isDirty r : Bool}
    (h : b.unpinPage p isDirty = .ok (r, b')) :
    b'.diskManager = b.diskManager := by
  unfold unpinPage at h
  split at h
  · cases h
    rfl
  · simp only at h
    split_ifs at h <;> cases h <;> rfl

theorem flushPage_counter (b : BufferPoolManager n) (p : PageId) :
    (b.flushPage p).2.diskManager.nextPageId = b.diskManager.nextPageId := by
  unfold flushPage
  split
  · rfl
  · split_ifs <;> rfl

theorem deletePage_counter (b : BufferPoolManager n) (p : PageId) :
    (b.deletePage p).2.diskManager = b.diskManager := by
  unfold deletePage
  split
  · rfl
  · split_ifs <;> rfl

/-- The counter after `c` allocations. -/
def Counts (b : BufferPoolManager n) (c : ℕ) : Prop := b.diskManager.nextPageId = toInt c

theorem toInt_succ (c : ℕ) : toInt (toInt c + 1) = toInt ((c + 1 : ℕ) : ℤ) := by
  unfold toInt
  push_cast
  exact Int.bmod_add_bmod

theorem toInt_toInt (v : ℤ) : toInt (toInt v) = toInt v := Int.bmod_bmod

/-- The ids of `m` allocations after `c` earlier ones. -/
def idsFrom (c m : ℕ) : List PageId := (List.range' c m).map fun k : ℕ => toInt k

/-- A call other than `NewPage` leaves the counter alone. -/
theorem step_counter {b b' : BufferPoolManager n} {op : Op n} (other : op ≠ .newPage)
    (h : b.step op = .ok b') : b'.diskManager.nextPageId = b.diskManager.nextPageId := by
  cases op with
  | newPage => exact absurd rfl other
  | fetchPage p =>
    simp only [BufferPoolManager.step] at h
    cases hr : b.fetchPage p with
    | error e =>
      rw [hr] at h
      cases h
    | ok v =>
      rw [hr] at h
      cases h
      exact fetchPage_counter hr
  | unpinPage p isDirty =>
    simp only [BufferPoolManager.step] at h
    cases hr : b.unpinPage p isDirty with
    | error e =>
      rw [hr] at h
      cases h
    | ok v =>
      rw [hr] at h
      cases h
      rw [unpinPage_counter hr]
  | flushPage p =>
    cases h
    exact flushPage_counter b p
  | deletePage p =>
    cases h
    rw [deletePage_counter]
  | store f data =>
    cases h
    rfl

theorem call_counter {b b' : BufferPoolManager n} {op : Op n} {r : Option PageId} {c : ℕ}
    (hc : Counts b c) (h : call b op = .ok (r, b')) :
    r.toList = idsFrom c (allocates b op).toNat ∧ Counts b' (c + (allocates b op).toNat) := by
  by_cases new : op = .newPage
  · subst new
    simp only [call] at h
    cases hn : b.newPage with
    | error e =>
      rw [hn] at h
      cases h
    | ok v =>
      obtain ⟨q, b₁⟩ := v
      obtain ⟨ids, next⟩ := newPage_counter hn
      rw [hn] at h
      cases h
      rw [hc] at ids next
      simp only [allocates, ids, Counts, wrapCounter, next]
      cases offersFrame b
      · exact ⟨rfl, by simpa using toInt_toInt c⟩
      · exact ⟨rfl, by simpa using toInt_succ c⟩
  · have quiet : allocates b op = false := by
      cases op <;> first | rfl | exact absurd rfl new
    have hs : (b.step op >>= fun b => pure (none, b)) = Except.ok (r, b') := by
      cases op <;> first | exact h | exact absurd rfl new
    cases hb : b.step op with
    | error e =>
      rw [hb] at hs
      cases hs
    | ok b₁ =>
      rw [hb] at hs
      cases hs
      rw [quiet]
      exact ⟨rfl, (step_counter new hb).trans hc⟩

theorem idsFrom_add (c m k : ℕ) : idsFrom c (m + k) = idsFrom c m ++ idsFrom (c + m) k := by
  simp only [idsFrom, ← List.range'_append_1, List.map_append]

/-- The calls of a session return the next ids in turn. -/
theorem serve_ids (ops : List (Op n)) : ∀ {b : BufferPoolManager n} {c : ℕ}, Counts b c →
    (serve b ops).1 = idsFrom c (allocations b ops) := by
  induction ops with
  | nil => exact fun _ => rfl
  | cons op ops ih =>
    intro b c hc
    simp only [serve, allocations]
    cases h : call b op with
    | error e => rfl
    | ok v =>
      obtain ⟨r, b'⟩ := v
      obtain ⟨ids, hc'⟩ := call_counter hc h
      simp only [ids, ih hc', idsFrom_add]

theorem init_counter {file : DatabaseFile} {ids : List PageId} {b : BufferPoolManager n}
    (h : sqlite3VtableInit n file = .ok (ids, b)) :
    ids = idsFrom 0 (!file.isFileExist).toNat ∧ Counts b (!file.isFileExist).toNat := by
  unfold sqlite3VtableInit at h
  simp only at h
  cases hf : file.isFileExist with
  | true =>
    rw [hf, if_pos rfl] at h
    cases h
    exact ⟨rfl, rfl⟩
  | false =>
    rw [hf, if_neg (by decide)] at h
    cases hn : call ({ diskManager := { pages := file.pages } } : BufferPoolManager n) .newPage with
    | error e =>
      rw [hn] at h
      cases h
    | ok v =>
      obtain ⟨r, b₁⟩ := v
      rw [hn] at h
      change (do
        assert (r = some headerPageId)
        let (_, b) ← b₁.unpinPage headerPageId true
        return (r.toList, b)) = Except.ok (ids, b) at h
      have start : Counts ({ diskManager := { pages := file.pages } } : BufferPoolManager n) 0 := rfl
      obtain ⟨first, next⟩ := call_counter start hn
      by_cases hr : r = some headerPageId
      · subst hr
        rw [assert_pos rfl] at h
        cases hu : b₁.unpinPage headerPageId true with
        | error e =>
          change (b₁.unpinPage headerPageId true >>= _) = _ at h
          rw [hu] at h
          cases h
        | ok u =>
          change (b₁.unpinPage headerPageId true >>= _) = _ at h
          rw [hu] at h
          cases h
          have one : (allocates ({ diskManager := { pages := file.pages } } :
              BufferPoolManager n) .newPage).toNat = 1 := by
            have hl := congrArg List.length first
            simpa [idsFrom] using hl.symm
          rw [one] at first next
          refine ⟨first, ?_⟩
          unfold Counts
          rw [unpinPage_counter hu]
          exact next
      · rw [assert_neg hr] at h
        cases h

/-- A session returns the ids from zero on. -/
theorem session_ids (file : DatabaseFile) (ops : List (Op n)) :
    (session file ops).1 = idsFrom 0 (sessionAllocations file ops) := by
  unfold session sessionAllocations
  cases h : sqlite3VtableInit n file with
  | error e => rfl
  | ok v =>
    obtain ⟨ids, b⟩ := v
    obtain ⟨first, hc⟩ := init_counter h
    simp only [first, serve_ids ops hc, idsFrom_add, zero_add]

theorem history_ids (sessions : List (List (Op n))) : ∀ file : DatabaseFile,
    history file sessions = (historyAllocations file sessions).flatMap (idsFrom 0) := by
  induction sessions with
  | nil => exact fun _ => rfl
  | cons ops sessions ih =>
    intro file
    simp only [history, historyAllocations, List.flatMap_cons, session_ids, ih]

/-! ## Distinct ids -/

theorem toInt_inj {c d : ℕ} (hc : c < 4294967296) (hd : d < 4294967296)
    (h : toInt c = toInt d) : c = d := by
  unfold toInt at h
  have hm := congrArg (fun v : ℤ => v % ((4294967296 : ℕ) : ℤ)) h
  simp only [Int.bmod_emod] at hm
  omega

theorem mem_idsFrom_zero {m : ℕ} (h : 0 < m) : (0 : ℤ) ∈ idsFrom 0 m :=
  List.mem_map.2 ⟨0, by simpa using h, rfl⟩

theorem nodup_idsFrom (m : ℕ) : (idsFrom 0 m).Nodup ↔ m ≤ 4294967296 := by
  constructor
  · intro nodup
    by_contra! hm
    -- the counter is back at zero after `2 ^ 32` allocations
    have last : 4294967296 < (idsFrom 0 m).length := by simpa [idsFrom] using hm
    have first : 0 < (idsFrom 0 m).length := by omega
    have wrap : (idsFrom 0 m)[0] = (idsFrom 0 m)[4294967296] := by
      simp only [idsFrom, List.getElem_map, List.getElem_range']
      rfl
    exact absurd (nodup.getElem_inj_iff.1 wrap) (by decide)
  · intro hm
    refine List.Nodup.map_on ?_ List.nodup_range'
    intro c hc d hd h
    simp only [List.mem_range'_1] at hc hd
    exact toInt_inj (by omega) (by omega) h

theorem disjoint_idsFrom (c d : ℕ) :
    List.Disjoint (idsFrom 0 c) (idsFrom 0 d) ↔ c = 0 ∨ d = 0 := by
  constructor
  · intro disjoint
    by_contra! h
    exact disjoint (mem_idsFrom_zero (Nat.pos_of_ne_zero h.1))
      (mem_idsFrom_zero (Nat.pos_of_ne_zero h.2))
  · rintro (rfl | rfl)
    · exact List.disjoint_nil_left _
    · exact List.disjoint_nil_right _

/-- Over every history of sessions, no `NewPage` returns an id that an earlier one returned exactly
when at most one session allocates pages, and at most `2 ^ 32` of them. -/
theorem history_nodup_iff (file : DatabaseFile) (sessions : List (List (Op n))) :
    (history file sessions).Nodup ↔ AllocatesOnce (historyAllocations file sessions) := by
  have apart : Function.onFun List.Disjoint (idsFrom 0) = fun c d => c = 0 ∨ d = 0 := by
    funext c d
    exact propext (disjoint_idsFrom c d)
  rw [history_ids, List.nodup_flatMap, apart]
  simp only [AllocatesOnce, nodup_idsFrom]

/-- A session that creates the file, and a second one that calls `NewPage`: it gets the header
page. -/
theorem not_history_nodup :
    ¬ ∀ (file : DatabaseFile) (sessions : List (List (Op 10))), (history file sessions).Nodup := by
  intro fresh
  have ids : history {} ([[], [.newPage]] : List (List (Op 10))) = [headerPageId, headerPageId] := by
    decide +kernel
  have nodup := fresh {} [[], [.newPage]]
  rw [ids] at nodup
  exact absurd nodup (by decide)

end Restart

end ScuDb
