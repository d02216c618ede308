import ScuDb.Buffer.Invariant

/-!
# When the buffer pool has no frame

Every frame is free, or in the replacer, or pinned (`Partition`).  This holds after any calls, also
after a `FetchPage` of an id that `NewPage` has not returned, which can leave two frames with one
page.  So a call finds no frame only when all of them are pinned.
-/

namespace ScuDb.BufferPoolManager

open ByteMem

variable {n : ℕ}

/-- The states a pool of `n` frames reaches by calls that return. -/
inductive Reached (n : ℕ) : BufferPoolManager n → Prop
  | new : Reached n (new n)
  | step {b b' : BufferPoolManager n} {op : Op n} : Reached n b → b.step op = .ok b' → Reached n b'

/-- The frames outside `out` are free, or unpinned and in the replacer, or pinned. -/
structure Divided (b : BufferPoolManager n) (out : Fin n → Prop) : Prop where
  freeNodup : b.freeList.Nodup
  free : ∀ f ∈ b.freeList,
    ¬ out f ∧ (b.pages f).pageId = invalidPageId ∧ (b.pages f).pinCount = 0
  replacer : ∀ f, f ∈ b.replacer.order ↔ ¬ out f ∧ (b.pages f).pinCount = 0 ∧ f ∉ b.freeList
  pins : ∀ f, 0 ≤ (b.pages f).pinCount
  table : ∀ p f, b.pageTable.find p = some f → f ∉ b.freeList
  named : ∀ p f, b.pageTable.find p = some f → (b.pages f).pageId = p

/-- Every frame is free, or unpinned and in the replacer, or pinned. -/
def Partition (b : BufferPoolManager n) : Prop := Divided b fun _ => False

theorem partition_new : Partition (new n) where
  freeNodup := List.nodup_finRange n
  free _ _ := ⟨id, rfl, rfl⟩
  replacer f := by simp [new]
  pins _ := le_rfl
  table p f h := by simp [new, find_new] at h
  named p f h := by simp [new, find_new] at h

/-! ## Taking a frame -/

/-- `b'` is `b` without the unpinned frame `tar`. -/
structure Taken (b : BufferPoolManager n) (tar : Fin n) (b' : BufferPoolManager n) : Prop where
  unpinned : (b.pages tar).pinCount = 0
  pages : b'.pages = b.pages
  pageTable : b'.pageTable = b.pageTable
  divided : Divided b' (· = tar)

/-- `GetVictimPage` returns; it finds no frame if all are pinned, and else takes an unpinned one. -/
theorem getVictimPage_taken {b : BufferPoolManager n} (h : Partition b) :
    (b.getVictimPage = .ok (none, b) ∧ ∀ f, 0 < (b.pages f).pinCount) ∨
    ∃ tar b', b.getVictimPage = .ok (some tar, b') ∧ Taken b tar b' := by
  unfold getVictimPage
  cases hfree : b.freeList with
  | nil =>
    have none_free (f : Fin n) : f ∉ b.freeList := by simp [hfree]
    cases hv : b.replacer.victim with
    | none =>
      left
      refine ⟨by simp [LRUReplacer.size], fun f => ?_⟩
      rw [LRUReplacer.victim_eq_none_iff] at hv
      have unpinned : (b.pages f).pinCount ≠ 0 := by
        intro e
        have := (h.replacer f).2 ⟨id, e, none_free f⟩
        simp [hv] at this
      have := h.pins f
      omega
    | some v =>
      right
      obtain ⟨tar, replacer⟩ := v
      obtain ⟨mem, rest⟩ := LRUReplacer.mem_of_victim hv
      have unpinned := ((h.replacer tar).1 mem).2.1
      refine ⟨tar, { b with replacer := replacer }, ?_, ⟨unpinned, rfl, rfl, ?_⟩⟩
      · simp [LRUReplacer.size, assert_pos unpinned, bind, Except.bind, pure, Except.pure, hfree]
      · refine ⟨h.freeNodup, fun f hf => absurd hf (none_free f), fun f => ?_, h.pins, h.table,
          h.named⟩
        rw [rest, h.replacer]
        tauto
  | cons tar rest =>
    right
    have mem : tar ∈ b.freeList := by simp [hfree]
    obtain ⟨-, invalid, unpinned⟩ := h.free tar mem
    have nodup := h.freeNodup
    rw [hfree, List.nodup_cons] at nodup
    have split (f : Fin n) : f ∈ b.freeList ↔ f = tar ∨ f ∈ rest := by
      rw [hfree, List.mem_cons]
    refine ⟨tar, { b with freeList := rest }, ?_, ⟨unpinned, rfl, rfl, ?_⟩⟩
    · simp [assert_pos invalid, assert_pos unpinned, bind, Except.bind, pure, Except.pure]
    · refine ⟨nodup.2, fun f hf => ?_, fun f => ?_, h.pins, fun p f hp hf => ?_, h.named⟩
      · refine ⟨?_, (h.free f ((split f).2 (.inr hf))).2⟩
        rintro rfl
        exact nodup.1 hf
      · rw [h.replacer, split]
        tauto
      · exact h.table p f hp ((split f).2 (.inr hf))

theorem Divided.congr {b b' : BufferPoolManager n} {out : Fin n → Prop} (h : Divided b out)
    (pageId : ∀ f, (b'.pages f).pageId = (b.pages f).pageId)
    (pinCount : ∀ f, (b'.pages f).pinCount = (b.pages f).pinCount)
    (pageTable : b'.pageTable = b.pageTable) (freeList : b'.freeList = b.freeList)
    (replacer : b'.replacer = b.replacer) : Divided b' out := by
  refine ⟨freeList ▸ h.freeNodup, fun f hf => ?_, fun f => ?_, fun f => ?_, fun p f hp => ?_,
    fun p f hp => ?_⟩
  · rw [pageId, pinCount]
    exact h.free f (freeList ▸ hf)
  · rw [replacer, pinCount, freeList]
    exact h.replacer f
  · rw [pinCount]
    exact h.pins f
  · rw [freeList]
    exact h.table p f (pageTable ▸ hp)
  · rw [pageId]
    exact h.named p f (pageTable ▸ hp)

/-- The entries of the table once `tar` has left its old page and stands for `p`. -/
theorem occupy_find {b : BufferPoolManager n} {tar : Fin n} {p q : PageId} {data : PageData}
    {f : Fin n} (hq : (b.occupy tar p data).pageTable.find q = some f) :
    f = tar ∧ q = p ∨ b.pageTable.find q = some f ∧ q ≠ (b.pages tar).pageId := by
  have hfind : (b.occupy tar p data).pageTable.find q =
      if q = p then some (((b.pageTable.remove (b.pages tar).pageId).find p).getD tar)
      else (b.pageTable.remove (b.pages tar).pageId).find q := find_insert _ _ _ _
  have removed (r : PageId) (g : Fin n)
      (hr : (b.pageTable.remove (b.pages tar).pageId).find r = some g) :
      b.pageTable.find r = some g ∧ r ≠ (b.pages tar).pageId := by
    rw [find_remove] at hr
    split_ifs at hr with hne
    exact ⟨hr, hne⟩
  rw [hfind] at hq
  split_ifs at hq with hqp
  · cases hg : (b.pageTable.remove (b.pages tar).pageId).find p with
    | none =>
      rw [hg] at hq
      exact .inl ⟨(Option.some.inj hq).symm, hqp⟩
    | some g =>
      rw [hg] at hq
      exact .inr (removed q f (by rw [hqp, hg]; exact hq))
  · exact .inr (removed q f hq)

/-- A frame that was taken and pinned for a page restores the partition. -/
theorem Divided.occupy {b : BufferPoolManager n} {tar : Fin n} (h : Divided b (· = tar)) (p : PageId)
    (data : PageData) : Partition (b.occupy tar p data) := by
  have lists : tar ∉ b.freeList := fun hf => (h.free tar hf).1 rfl
  refine ⟨h.freeNodup, fun f hf => ?_, fun f => ?_, fun f => ?_, fun q f hq => ?_,
    fun q f hq => ?_⟩
  · obtain ⟨hne, rest⟩ := h.free f hf
    rw [occupy_pages, if_neg hne]
    exact ⟨id, rest⟩
  · rw [show (b.occupy tar p data).replacer = b.replacer from rfl,
      show (b.occupy tar p data).freeList = b.freeList from rfl, h.replacer, occupy_pages]
    split_ifs with hf
    · simp [hf]
    · simp [hf]
  · rw [occupy_pages]
    split_ifs
    · exact zero_le_one
    · exact h.pins f
  · change f ∉ b.freeList
    rcases occupy_find hq with ⟨rfl, -⟩ | ⟨old, -⟩
    · exact lists
    · exact h.table q f old
  · rw [occupy_pages]
    rcases occupy_find hq with ⟨rfl, rfl⟩ | ⟨old, hne⟩
    · rw [if_pos rfl]
    · have other : f ≠ tar := by
        rintro rfl
        exact hne (h.named q f old).symm
      rw [if_neg other]
      exact h.named q f old

theorem Divided.writeBack {b : BufferPoolManager n} {out : Fin n → Prop} (h : Divided b out)
    (tar : Fin n) : Divided (b.writeBack tar) out := by
  unfold BufferPoolManager.writeBack
  split_ifs
  · exact h.congr (fun _ => rfl) (fun _ => rfl) rfl rfl rfl
  · exact h

/-! ## The calls -/

/-- The pin count of a frame outside the free list may change when the replacer follows it. -/
theorem Divided.setPins {b b' : BufferPoolManager n} (h : Partition b) (tar : Fin n) (page : Page)
    (busy : tar ∉ b.freeList) (pins : 0 ≤ page.pinCount) (pageId : page.pageId = (b.pages tar).pageId)
    (pages : b'.pages = Function.update b.pages tar page) (pageTable : b'.pageTable = b.pageTable)
    (freeList : b'.freeList = b.freeList)
    (replacer : ∀ f, f ∈ b'.replacer.order ↔
      if f = tar then page.pinCount = 0 else f ∈ b.replacer.order) : Partition b' := by
  refine ⟨freeList ▸ h.freeNodup, fun f hf => ?_, fun f => ?_, fun f => ?_, fun p f hp => ?_,
    fun p f hp => ?_⟩
  · rw [freeList] at hf
    have hne : f ≠ tar := by
      rintro rfl
      exact busy hf
    rw [pages, Function.update_of_ne hne]
    exact h.free f hf
  · rw [replacer, pages, freeList, Function.update_apply]
    split_ifs with hf
    · simp [hf, busy]
    · exact h.replacer f
  · rw [pages, Function.update_apply]
    split_ifs
    · exact pins
    · exact h.pins f
  · rw [freeList]
    exact h.table p f (pageTable ▸ hp)
  · rw [pages, Function.update_apply]
    have old := h.named p f (pageTable ▸ hp)
    split_ifs with hf
    · rw [pageId, ← hf, old]
    · exact old

theorem fetchPage_partition {b : BufferPoolManager n} (h : Partition b) (p : PageId) :
    ∃ r b', b.fetchPage p = .ok (r, b') ∧ Partition b' ∧
      (r = none ↔ b.pageTable.find p = none ∧ ∀ f, 0 < (b.pages f).pinCount) ∧
      (r = none → b' = b) := by
  unfold fetchPage
  cases hp : b.pageTable.find p with
  | some tar =>
    refine ⟨_, _, rfl, ?_, by simp, by simp⟩
    have pins := h.pins tar
    refine Divided.setPins h tar { b.pages tar with pinCount := (b.pages tar).pinCount + 1 }
      (h.table p tar hp) (show 0 ≤ (b.pages tar).pinCount + 1 by omega) rfl rfl rfl rfl fun f => ?_
    change f ∈ (b.replacer.erase tar).2.order ↔ _
    rw [LRUReplacer.mem_erase]
    split_ifs with hf
    · simp only [hf, ne_eq, not_true_eq_false, false_and, false_iff]
      omega
    · simp [hf]
  | none =>
    rcases getVictimPage_taken h with ⟨hv, pinned⟩ | ⟨tar, b', hv, taken⟩
    · exact ⟨none, b, by simp [hv, bind, Except.bind, pure, Except.pure], h, by simpa using pinned,
        fun _ => rfl⟩
    · refine ⟨some tar,
        (b'.writeBack tar).occupy tar p ((b'.writeBack tar).diskManager.readPage p),
        by simp only [hv, bind, Except.bind, pure, Except.pure],
        (taken.divided.writeBack tar).occupy p _, ⟨?_, fun hf => ?_⟩, by simp⟩
      · simp
      · have pinned := hf.2 tar
        rw [taken.unpinned] at pinned
        exact absurd pinned (lt_irrefl 0)

theorem newPage_partition {b : BufferPoolManager n} (h : Partition b) :
    ∃ r b', b.newPage = .ok (r, b') ∧ Partition b' ∧
      (r = none ↔ ∀ f, 0 < (b.pages f).pinCount) ∧ (r = none → b' = b) := by
  unfold newPage
  rcases getVictimPage_taken h with ⟨hv, pinned⟩ | ⟨tar, b', hv, taken⟩
  · exact ⟨none, b, by simp [hv, bind, Except.bind, pure, Except.pure], h, by simpa using pinned,
      fun _ => rfl⟩
  · refine ⟨_, _, by simp only [hv, bind, Except.bind, pure, Except.pure]; rfl, ?_, ?_, by simp⟩
    · have counted : Divided { b' with diskManager := b'.diskManager.allocatePage.2 } (· = tar) :=
        taken.divided.congr (fun _ => rfl) (fun _ => rfl) rfl rfl rfl
      exact (counted.writeBack tar).occupy _ _
    · simp only [reduceCtorEq, false_iff, not_forall, not_lt]
      exact ⟨tar, taken.unpinned.le⟩

theorem unpinPage_partition {b b' : BufferPoolManager n} (h : Partition b) {p : PageId}
    {isDirty r : Bool} (hs : b.unpinPage p isDirty = .ok (r, b')) : Partition b' := by
  unfold unpinPage at hs
  cases hp : b.pageTable.find p with
  | none =>
    rw [hp] at hs
    cases hs
    exact h
  | some tar =>
    rw [hp] at hs
    by_cases unpinned : (b.pages tar).pinCount ≤ 0
    · simp [unpinned] at hs
    · have run : b.unpinPage p isDirty = .ok (true, b.unpin tar isDirty) :=
        unpinPage_of_pinned hp (by omega) isDirty
      unfold unpinPage at run
      rw [hp] at run
      rw [run] at hs
      cases hs
      refine Divided.setPins h tar ((b.unpin tar isDirty).pages tar) (h.table p tar hp) ?_ ?_ ?_
        rfl rfl fun f => ?_ <;> simp only [BufferPoolManager.unpin, Function.update_self]
      · omega
      · have absent : tar ∉ b.replacer.order := by
          rw [h.replacer]
          omega
        split_ifs with hz hf hf
        · simpa [hf] using hz
        · simp [hf]
        · simpa [hf, absent] using hz
        · rfl

theorem flushPage_partition {b : BufferPoolManager n} (h : Partition b) (p : PageId) :
    Partition (b.flushPage p).2 := by
  unfold flushPage
  cases hp : b.pageTable.find p with
  | none => exact h
  | some tar =>
    dsimp only
    split_ifs
    · exact h
    · refine Divided.congr h (fun f => ?_) (fun f => ?_) rfl rfl rfl <;>
        simp only [setPage, Function.update_apply] <;> split_ifs with hf
      · rw [hf]
      · rfl
      · rw [hf]
      · rfl
    · exact h

theorem deletePage_partition {b : BufferPoolManager n} (h : Partition b) (p : PageId) :
    Partition (b.deletePage p).2 := by
  unfold deletePage
  cases hp : b.pageTable.find p with
  | none => exact Divided.congr h (fun _ => rfl) (fun _ => rfl) rfl rfl rfl
  | some tar =>
    dsimp only
    split_ifs with pinned
    · exact h
    · -- the frame goes from the replacer to the free list
      have busy := h.table p tar hp
      have pins := h.pins tar
      have unpinned : (b.pages tar).pinCount = 0 := by omega
      have others {q : PageId} {f : Fin n} (hq : (b.pageTable.remove p).find q = some f) :
          f ≠ tar ∧ b.pageTable.find q = some f := by
        rw [find_remove] at hq
        split_ifs at hq with hne
        refine ⟨?_, hq⟩
        rintro rfl
        exact hne ((h.named q f hq).symm.trans (h.named p f hp))
      refine ⟨h.freeNodup.append (List.nodup_singleton tar) ?_, fun f hf => ?_, fun f => ?_,
        fun f => ?_, fun q f hq => ?_, fun q f hq => ?_⟩
      · rw [List.disjoint_singleton]
        exact busy
      · simp only [setPage, Function.update_apply]
        split_ifs with hft
        · exact ⟨id, rfl, unpinned⟩
        · have := List.mem_append.1 hf
          simp only [List.mem_singleton, hft, or_false] at this
          exact h.free f this
      · simp only [setPage, LRUReplacer.mem_erase, h.replacer, Function.update_apply,
          List.mem_append, List.mem_singleton]
        split_ifs with hft
        · simp [hft]
        · simp [hft]
      · simp only [setPage, Function.update_apply]
        split_ifs
        · exact pins
        · exact h.pins f
      · obtain ⟨hne, old⟩ := others hq
        exact fun hf => (List.mem_append.1 hf).elim (h.table q f old)
          fun hf => hne (List.mem_singleton.1 hf)
      · obtain ⟨hne, old⟩ := others hq
        simp only [setPage, Function.update_apply, if_neg hne]
        exact h.named q f old

/-! ## Runs -/

theorem step_partition {b b' : BufferPoolManager n} (h : Partition b) {op : Op n}
    (hs : b.step op = .ok b') : Partition b' := by
  cases op with
  | newPage =>
    obtain ⟨r, c, hr, hc, -⟩ := newPage_partition h
    rw [step, hr] at hs
    cases hs
    exact hc
  | fetchPage p =>
    obtain ⟨r, c, hr, hc, -⟩ := fetchPage_partition h p
    rw [step, hr] at hs
    cases hs
    exact hc
  | unpinPage p isDirty =>
    cases hr : b.unpinPage p isDirty with
    | error e =>
      rw [step, hr] at hs
      cases hs
    | ok v =>
      rw [step, hr] at hs
      cases hs
      exact unpinPage_partition h hr
  | flushPage p =>
    cases hs
    exact flushPage_partition h p
  | deletePage p =>
    cases hs
    exact deletePage_partition h p
  | store frame data =>
    cases hs
    refine Divided.congr h (fun f => ?_) (fun f => ?_) rfl rfl rfl <;>
      simp only [setPage, Function.update_apply] <;> split_ifs with hf
    all_goals first | rw [hf] | rfl

theorem partition_of_reached {b : BufferPoolManager n} (h : Reached n b) : Partition b := by
  induction h with
  | new => exact partition_new
  | step _ hs ih => exact step_partition ih hs

/-- In every state that any calls reach with page ids and pin counts below 2^31, `NewPage` returns
`nullptr` iff every frame is pinned, and `FetchPage` iff the page is not resident and every frame is
pinned; then nothing has changed. -/
theorem reached_nullptr_iff {b : BufferPoolManager n} (h : Reached n b) :
    (∃ r b', b.newPage = .ok (r, b') ∧ (r = none ↔ ∀ f, 0 < (b.pages f).pinCount) ∧
      (r = none → b' = b)) ∧
    ∀ p, ∃ r b', b.fetchPage p = .ok (r, b') ∧
      (r = none ↔ b.pageTable.find p = none ∧ ∀ f, 0 < (b.pages f).pinCount) ∧
      (r = none → b' = b) := by
  have inv := partition_of_reached h
  constructor
  · obtain ⟨r, b', hr, -, rest⟩ := newPage_partition inv
    exact ⟨r, b', hr, rest⟩
  · intro p
    obtain ⟨r, b', hr, -, rest⟩ := fetchPage_partition inv p
    exact ⟨r, b', hr, rest⟩

/-- A pool of one frame after its first `NewPage` has no frame for another page. -/
theorem reached_nullptr_iff_newPage :
    ∃ b : BufferPoolManager 1, Reached 1 b ∧ b.newPage = .ok (none, b) ∧
      b.fetchPage 1 = .ok (none, b) := by
  have reached := @Reached.step 1 (new 1) _ .newPage .new rfl
  obtain ⟨⟨r, b', hr, newNone, newSame⟩, fetches⟩ := reached_nullptr_iff reached
  obtain ⟨s, c, hs, fetchNone, fetchSame⟩ := fetches 1
  have pinned (f : Fin 1) : 0 < (((new 1).occupy 0 0 Mem.zero).pages f).pinCount := by
    rw [occupy_pages, if_pos (Subsingleton.elim f 0)]
    exact zero_lt_one
  refine ⟨_, reached, ?_, ?_⟩
  · rw [hr, newSame (newNone.2 pinned), newNone.2 pinned]
  · rw [hs, fetchSame (fetchNone.2 ⟨rfl, pinned⟩), fetchNone.2 ⟨rfl, pinned⟩]

end ScuDb.BufferPoolManager
