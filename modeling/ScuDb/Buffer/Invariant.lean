import ScuDb.Buffer.BufferPoolManager

/-!
# The invariant of the buffer pool manager

The frames, the page table, the free list and the replacer describe the same assignment of pages to
frames (`Consistent`).  Choosing a victim takes one frame out of the free list or the replacer
(`Detached`), and `occupy` puts it back under its new page; every other operation touches one
frame.  `inv_step` says that a legal operation returns and keeps the invariant.
-/

namespace ScuDb.BufferPoolManager

open ByteMem

variable {n : ℕ}

/-- The four structures of the pool agree. -/
structure Consistent (b : BufferPoolManager n) : Prop where
  table : ∀ p f, b.pageTable.find p = some f ↔ (b.pages f).pageId = p ∧ p ≠ invalidPageId
  injective : ∀ f g, (b.pages f).pageId = (b.pages g).pageId →
    (b.pages f).pageId ≠ invalidPageId → f = g
  freeNodup : b.freeList.Nodup
  free : ∀ f, f ∈ b.freeList ↔ (b.pages f).pageId = invalidPageId
  freeClean : ∀ f ∈ b.freeList, (b.pages f).pinCount = 0 ∧ (b.pages f).isDirty = false
  replacer : ∀ f, f ∈ b.replacer.order ↔
    (b.pages f).pageId ≠ invalidPageId ∧ (b.pages f).pinCount = 0

/-- The invariant: the structures agree, pin counts are not negative, and every resident page was
allocated. -/
structure Inv (b : BufferPoolManager n) : Prop extends Consistent b where
  pins : ∀ f, 0 ≤ (b.pages f).pinCount
  ids : ∀ f, (b.pages f).pageId ≠ invalidPageId →
    0 ≤ (b.pages f).pageId ∧ (b.pages f).pageId < b.diskManager.nextPageId
  next : 0 ≤ b.diskManager.nextPageId

/-- The invariant while the unpinned frame `tar` is out of the free list and the replacer. -/
structure Detached (b : BufferPoolManager n) (tar : Fin n) : Prop where
  table : ∀ p f, b.pageTable.find p = some f ↔ (b.pages f).pageId = p ∧ p ≠ invalidPageId
  freeNodup : b.freeList.Nodup
  free : ∀ f, f ∈ b.freeList ↔ f ≠ tar ∧ (b.pages f).pageId = invalidPageId
  freeClean : ∀ f ∈ b.freeList, (b.pages f).pinCount = 0 ∧ (b.pages f).isDirty = false
  replacer : ∀ f, f ∈ b.replacer.order ↔
    f ≠ tar ∧ (b.pages f).pageId ≠ invalidPageId ∧ (b.pages f).pinCount = 0
  pins : ∀ f, 0 ≤ (b.pages f).pinCount
  ids : ∀ f, (b.pages f).pageId ≠ invalidPageId →
    0 ≤ (b.pages f).pageId ∧ (b.pages f).pageId < b.diskManager.nextPageId
  next : 0 ≤ b.diskManager.nextPageId

theorem find_new (p : PageId) : (PageTable.new : PageTable n).find p = none := rfl

theorem find_insert (t : PageTable n) (p q : PageId) (f : Fin n) :
    (t.insert p f).find q = if q = p then some ((t.find p).getD f) else t.find q := by
  exact Function.update_apply t p _ q

theorem find_remove (t : PageTable n) (p q : PageId) :
    (t.remove p).find q = if q = p then none else t.find q := by
  exact Function.update_apply t p _ q

/-- Two frames with the same valid page id are one frame. -/
theorem injective_of_table {b : BufferPoolManager n}
    (table : ∀ p f, b.pageTable.find p = some f ↔ (b.pages f).pageId = p ∧ p ≠ invalidPageId)
    (f g : Fin n) (same : (b.pages f).pageId = (b.pages g).pageId)
    (valid : (b.pages f).pageId ≠ invalidPageId) : f = g := by
  have hf := (table (b.pages f).pageId f).2 ⟨rfl, valid⟩
  have hg := (table (b.pages f).pageId g).2 ⟨same.symm, valid⟩
  rw [hf] at hg
  exact Option.some.inj hg

theorem inv_new : Inv (new n) where
  table p f := by
    simp only [new, find_new, reduceCtorEq, false_iff]
    rintro ⟨rfl, h⟩
    exact h rfl
  injective f g _ h := absurd rfl h
  freeNodup := List.nodup_finRange n
  free f := by simp [new]
  freeClean f _ := ⟨rfl, rfl⟩
  replacer f := by simp [new]
  pins f := le_rfl
  ids f h := absurd rfl h
  next := le_rfl

/-! ## Choosing a victim -/

/-- `b'` is `b` after the unpinned frame `tar` was taken out of the free list or the replacer. -/
structure Victim (b : BufferPoolManager n) (tar : Fin n) (b' : BufferPoolManager n) : Prop where
  unpinned : (b.pages tar).pinCount = 0
  pages : b'.pages = b.pages
  pageTable : b'.pageTable = b.pageTable
  diskManager : b'.diskManager = b.diskManager
  detached : Detached b' tar

/-- `GetVictimPage` returns, its assertions hold, and the frame it chooses is not pinned; it finds
no frame only when all of them are pinned. -/
theorem getVictimPage_spec {b : BufferPoolManager n} (h : Inv b) :
    (b.getVictimPage = .ok (none, b) ∧ ∀ f, 0 < (b.pages f).pinCount) ∨
    ∃ tar b', b.getVictimPage = .ok (some tar, b') ∧ Victim b tar b' := by
  unfold getVictimPage
  cases hfree : b.freeList with
  | nil =>
    have valid (f : Fin n) : (b.pages f).pageId ≠ invalidPageId := by
      intro e
      have := (h.free f).2 e
      simp [hfree] at this
    cases hv : b.replacer.victim with
    | none =>
      left
      refine ⟨by simp [LRUReplacer.size], fun f => ?_⟩
      rw [LRUReplacer.victim_eq_none_iff] at hv
      have unpinned : (b.pages f).pinCount ≠ 0 := by
        intro e
        have := (h.replacer f).2 ⟨valid f, e⟩
        simp [hv] at this
      have := h.pins f
      omega
    | some v =>
      right
      obtain ⟨tar, replacer⟩ := v
      obtain ⟨mem, rest⟩ := LRUReplacer.mem_of_victim hv
      have unpinned := ((h.replacer tar).1 mem).2
      refine ⟨tar, { b with replacer := replacer }, ?_, ⟨unpinned, rfl, rfl, rfl, ?_⟩⟩
      · simp [LRUReplacer.size, assert_pos unpinned, bind, Except.bind, pure, Except.pure, hfree]
      · refine ⟨h.table, h.freeNodup, fun f => ?_, h.freeClean, fun f => ?_, h.pins, h.ids, h.next⟩
        · simp [hfree, valid f]
        · rw [rest, h.replacer]
  | cons tar rest =>
    right
    have mem : tar ∈ b.freeList := by simp [hfree]
    have invalid := (h.free tar).1 mem
    have unpinned := (h.freeClean tar mem).1
    have nodup := h.freeNodup
    rw [hfree, List.nodup_cons] at nodup
    have split (f : Fin n) : f ∈ rest ↔ f ≠ tar ∧ f ∈ b.freeList := by
      rw [hfree, List.mem_cons]
      constructor
      · intro hf
        exact ⟨fun e => nodup.1 (e ▸ hf), Or.inr hf⟩
      · rintro ⟨hne, rfl | hf⟩
        · exact absurd rfl hne
        · exact hf
    refine ⟨tar, { b with freeList := rest }, ?_, ⟨unpinned, rfl, rfl, rfl, ?_⟩⟩
    · simp [assert_pos invalid, assert_pos unpinned, bind, Except.bind, pure, Except.pure]
    · refine ⟨h.table, nodup.2, fun f => ?_, fun f hf => ?_, fun f => ?_, h.pins, h.ids, h.next⟩
      · exact (split f).trans (and_congr_right fun _ => h.free f)
      · exact h.freeClean f ((split f).1 hf).2
      · rw [h.replacer]
        constructor
        · rintro ⟨valid, hp⟩
          exact ⟨fun e => valid (e ▸ invalid), valid, hp⟩
        · exact fun hf => hf.2

theorem writeBack_pages (b : BufferPoolManager n) (tar : Fin n) :
    (b.writeBack tar).pages = b.pages := by
  unfold writeBack
  split_ifs <;> rfl

theorem writeBack_pageTable (b : BufferPoolManager n) (tar : Fin n) :
    (b.writeBack tar).pageTable = b.pageTable := by
  unfold writeBack
  split_ifs <;> rfl

theorem writeBack_nextPageId (b : BufferPoolManager n) (tar : Fin n) :
    (b.writeBack tar).diskManager.nextPageId = b.diskManager.nextPageId := by
  unfold writeBack
  split_ifs <;> rfl

theorem Detached.writeBack {b : BufferPoolManager n} {tar : Fin n} (h : Detached b tar) :
    Detached (b.writeBack tar) tar := by
  unfold BufferPoolManager.writeBack
  split_ifs
  · exact ⟨h.table, h.freeNodup, h.free, h.freeClean, h.replacer, h.pins, h.ids, h.next⟩
  · exact h

theorem Detached.allocatePage {b : BufferPoolManager n} {tar : Fin n} (h : Detached b tar) :
    Detached { b with diskManager := b.diskManager.allocatePage.2 } tar where
  table := h.table
  freeNodup := h.freeNodup
  free := h.free
  freeClean := h.freeClean
  replacer := h.replacer
  pins := h.pins
  ids f hf := by
    have := h.ids f hf
    exact ⟨this.1, lt_trans this.2 (lt_add_one _)⟩
  next := le_trans h.next (le_of_lt (lt_add_one _))

theorem occupy_pages (b : BufferPoolManager n) (tar f : Fin n) (p : PageId) (data : PageData) :
    (b.occupy tar p data).pages f =
      if f = tar then { data := data, pageId := p, pinCount := 1, isDirty := false }
      else b.pages f := by
  simp [occupy, Function.update_apply]

/-- A detached frame that takes a page no frame holds restores the invariant. -/
theorem Detached.occupy {b : BufferPoolManager n} {tar : Fin n} (h : Detached b tar) {p : PageId}
    (absent : b.pageTable.find p = none) (lo : 0 ≤ p) (hi : p < b.diskManager.nextPageId)
    (data : PageData) : Inv (b.occupy tar p data) := by
  have valid : p ≠ invalidPageId := by
    intro e
    rw [e] at lo
    exact absurd lo (by decide)
  have other (f : Fin n) : (b.pages f).pageId ≠ p := by
    intro e
    have := (h.table p f).2 ⟨e, valid⟩
    simp [absent] at this
  have table : ∀ q f, (b.occupy tar p data).pageTable.find q = some f ↔
      ((b.occupy tar p data).pages f).pageId = q ∧ q ≠ invalidPageId := by
    intro q f
    have hfind : (b.occupy tar p data).pageTable.find q =
        if q = p then some tar else if q = (b.pages tar).pageId then none
          else b.pageTable.find q := by
      simp only [BufferPoolManager.occupy, find_insert, find_remove, absent, ite_self,
        Option.getD_none]
    rw [hfind, occupy_pages]
    by_cases hq : q = p
    · subst hq
      by_cases hf : f = tar
      · subst hf
        simp [valid]
      · simp [hf, other f, Ne.symm hf]
    · rw [if_neg hq]
      by_cases hf : f = tar
      · subst hf
        rw [if_pos rfl]
        simp only [Ne.symm hq, false_and, iff_false]
        split_ifs with hold
        · simp
        · rw [h.table]
          exact fun e => hold e.1.symm
      · rw [if_neg hf]
        split_ifs with hold
        · simp only [false_iff]
          rintro ⟨e, hv⟩
          exact hf (injective_of_table h.table f tar (e.trans hold) (e ▸ hv))
        · exact h.table q f
  refine ⟨⟨table, injective_of_table table, h.freeNodup, ?free, ?freeClean, ?replacer⟩, ?pins, ?ids,
    h.next⟩
  case free =>
    intro f
    rw [occupy_pages, show (b.occupy tar p data).freeList = b.freeList from rfl, h.free]
    split_ifs with hf
    · simp [hf, valid]
    · simp [hf]
  case freeClean =>
    intro f hf
    have hf' := (h.free f).1 hf
    rw [occupy_pages, if_neg hf'.1]
    exact h.freeClean f hf
  case replacer =>
    intro f
    rw [occupy_pages, show (b.occupy tar p data).replacer = b.replacer from rfl, h.replacer]
    split_ifs with hf
    · simp [hf]
    · simp [hf]
  case pins =>
    intro f
    rw [occupy_pages]
    split_ifs
    · exact zero_le_one
    · exact h.pins f
  case ids =>
    intro f
    rw [occupy_pages]
    split_ifs
    · exact fun _ => ⟨lo, hi⟩
    · exact h.ids f

/-! ## What each operation does -/

/-- The pool after a hit of `FetchPage` on `tar`. -/
def pin (b : BufferPoolManager n) (tar : Fin n) : BufferPoolManager n :=
  { b with
    pages := Function.update b.pages tar
      { b.pages tar with pinCount := (b.pages tar).pinCount + 1 }
    replacer := (b.replacer.erase tar).2 }

theorem fetchPage_cases {b : BufferPoolManager n} (h : Inv b) (p : PageId) :
    (∃ tar, b.pageTable.find p = some tar ∧ b.fetchPage p = .ok (some tar, b.pin tar)) ∨
    (b.pageTable.find p = none ∧ b.fetchPage p = .ok (none, b) ∧
      ∀ f, 0 < (b.pages f).pinCount) ∨
    (b.pageTable.find p = none ∧ ∃ tar b', Victim b tar b' ∧
      b.fetchPage p = .ok (some tar, (b'.writeBack tar).occupy tar p
        ((b'.writeBack tar).diskManager.readPage p))) := by
  unfold fetchPage
  cases hp : b.pageTable.find p with
  | some tar => exact Or.inl ⟨tar, rfl, rfl⟩
  | none =>
    right
    rcases getVictimPage_spec h with ⟨hv, pinned⟩ | ⟨tar, b', hv, victim⟩
    · left
      refine ⟨rfl, ?_, pinned⟩
      simp [hv, bind, Except.bind, pure, Except.pure]
    · right
      refine ⟨rfl, tar, b', victim, ?_⟩
      simp [hv, bind, Except.bind, pure, Except.pure]

theorem newPage_cases {b : BufferPoolManager n} (h : Inv b) :
    (b.newPage = .ok (none, b) ∧ ∀ f, 0 < (b.pages f).pinCount) ∨
    ∃ tar b', Victim b tar b' ∧
      b.newPage = .ok (some (b.diskManager.nextPageId, tar),
        ({ b' with diskManager := b'.diskManager.allocatePage.2 }.writeBack tar).occupy tar
          b.diskManager.nextPageId Mem.zero) := by
  unfold newPage
  rcases getVictimPage_spec h with ⟨hv, pinned⟩ | ⟨tar, b', hv, victim⟩
  · left
    refine ⟨?_, pinned⟩
    simp [hv, bind, Except.bind, pure, Except.pure]
  · right
    refine ⟨tar, b', victim, ?_⟩
    simp [hv, bind, Except.bind, pure, Except.pure, IdealDisk.allocatePage, victim.diskManager]

/-- The invariant only looks at the page id, the pin count and the dirty flag of a frame, and the
flag only of free frames. -/
theorem Inv.congr {b b' : BufferPoolManager n} (h : Inv b)
    (pageId : ∀ f, (b'.pages f).pageId = (b.pages f).pageId)
    (pinCount : ∀ f, (b'.pages f).pinCount = (b.pages f).pinCount)
    (isDirty : ∀ f ∈ b.freeList, (b'.pages f).isDirty = (b.pages f).isDirty)
    (pageTable : b'.pageTable = b.pageTable) (freeList : b'.freeList = b.freeList)
    (replacer : b'.replacer = b.replacer)
    (next : b'.diskManager.nextPageId = b.diskManager.nextPageId) : Inv b' := by
  have table : ∀ p f, b'.pageTable.find p = some f ↔
      (b'.pages f).pageId = p ∧ p ≠ invalidPageId := by
    intro p f
    rw [pageTable, pageId]
    exact h.table p f
  refine ⟨⟨table, injective_of_table table, freeList ▸ h.freeNodup, fun f => ?_, fun f hf => ?_,
    fun f => ?_⟩, fun f => ?_, fun f => ?_, next ▸ h.next⟩
  · rw [freeList, pageId]
    exact h.free f
  · rw [freeList] at hf
    rw [pinCount, isDirty f hf]
    exact h.freeClean f hf
  · rw [replacer, pageId, pinCount]
    exact h.replacer f
  · rw [pinCount]
    exact h.pins f
  · rw [pageId, next]
    exact h.ids f

/-- The pin count of a resident frame may change when the replacer follows it. -/
theorem Inv.setPins {b b' : BufferPoolManager n} (h : Inv b) (tar : Fin n) (page : Page)
    (valid : (b.pages tar).pageId ≠ invalidPageId) (same : page.pageId = (b.pages tar).pageId)
    (pins : 0 ≤ page.pinCount) (pages : b'.pages = Function.update b.pages tar page)
    (pageTable : b'.pageTable = b.pageTable) (freeList : b'.freeList = b.freeList)
    (disk : b'.diskManager = b.diskManager)
    (replacer : ∀ f, f ∈ b'.replacer.order ↔
      if f = tar then page.pinCount = 0 else f ∈ b.replacer.order) : Inv b' := by
  have pageId (f : Fin n) : (b'.pages f).pageId = (b.pages f).pageId := by
    rw [pages, Function.update_apply]
    split_ifs with hf
    · rw [same, hf]
    · rfl
  have table : ∀ p f, b'.pageTable.find p = some f ↔
      (b'.pages f).pageId = p ∧ p ≠ invalidPageId := by
    intro p f
    rw [pageTable, pageId]
    exact h.table p f
  refine ⟨⟨table, injective_of_table table, freeList ▸ h.freeNodup, fun f => ?_, fun f hf => ?_,
    fun f => ?_⟩, fun f => ?_, fun f => ?_, disk ▸ h.next⟩
  · rw [freeList, pageId]
    exact h.free f
  · rw [freeList] at hf
    have hne : f ≠ tar := by
      rintro rfl
      exact valid ((h.free f).1 hf)
    rw [pages, Function.update_of_ne hne]
    exact h.freeClean f hf
  · rw [replacer, pageId, pages, Function.update_apply]
    split_ifs with hf
    · simp [hf, valid]
    · exact h.replacer f
  · rw [pages, Function.update_apply]
    split_ifs
    · exact pins
    · exact h.pins f
  · rw [pageId, disk]
    exact h.ids f

/-- A frame found in the page table holds that page. -/
theorem Inv.valid_of_find {b : BufferPoolManager n} (h : Inv b) {p : PageId} {tar : Fin n}
    (hp : b.pageTable.find p = some tar) :
    (b.pages tar).pageId = p ∧ (b.pages tar).pageId ≠ invalidPageId := by
  obtain ⟨e, hv⟩ := (h.table p tar).1 hp
  exact ⟨e, e ▸ hv⟩

theorem Inv.pin {b : BufferPoolManager n} (h : Inv b) {p : PageId} {tar : Fin n}
    (hp : b.pageTable.find p = some tar) : Inv (b.pin tar) := by
  have pins := h.pins tar
  refine h.setPins tar { b.pages tar with pinCount := (b.pages tar).pinCount + 1 }
    (h.valid_of_find hp).2 rfl ?_ rfl rfl rfl rfl fun f => ?_
  · change 0 ≤ (b.pages tar).pinCount + 1
    omega
  · change f ∈ (b.replacer.erase tar).2.order ↔ _
    rw [LRUReplacer.mem_erase]
    split_ifs with hf
    · simp only [hf, ne_eq, not_true_eq_false, false_and, false_iff]
      omega
    · simp [hf]

theorem Inv.fetchPage {b b' : BufferPoolManager n} (h : Inv b) {p : PageId} {r : Option (Fin n)}
    (lo : 0 ≤ p) (hi : p < b.diskManager.nextPageId) (hs : b.fetchPage p = .ok (r, b')) :
    Inv b' := by
  rcases fetchPage_cases h p with ⟨tar, hp, hr⟩ | ⟨-, hr, -⟩ | ⟨hp, tar, b₁, victim, hr⟩ <;>
    rw [hr] at hs <;> cases hs
  · exact h.pin hp
  · exact h
  · refine victim.detached.writeBack.occupy ?_ lo ?_ _
    · rw [writeBack_pageTable, victim.pageTable, hp]
    · rwa [writeBack_nextPageId, victim.diskManager]

theorem Inv.absent_next {b : BufferPoolManager n} (h : Inv b) :
    b.pageTable.find b.diskManager.nextPageId = none := by
  rcases hp : b.pageTable.find b.diskManager.nextPageId with _ | f
  · rfl
  · obtain ⟨e, hv⟩ := h.valid_of_find hp
    have := (h.ids f hv).2
    exact absurd e (ne_of_lt this)

theorem Inv.newPage {b b' : BufferPoolManager n} (h : Inv b) {r : Option (PageId × Fin n)}
    (hs : b.newPage = .ok (r, b')) : Inv b' := by
  rcases newPage_cases h with ⟨hr, -⟩ | ⟨tar, b₁, victim, hr⟩ <;> rw [hr] at hs <;> cases hs
  · exact h
  · refine victim.detached.allocatePage.writeBack.occupy ?_ h.next ?_ _
    · rw [writeBack_pageTable]
      exact victim.pageTable ▸ h.absent_next
    · rw [writeBack_nextPageId]
      simp [IdealDisk.allocatePage, victim.diskManager]

/-- The pool after `UnpinPage` of the pinned frame `tar`. -/
def unpin (b : BufferPoolManager n) (tar : Fin n) (isDirty : Bool) : BufferPoolManager n :=
  { b with
    pages := Function.update b.pages tar
      { b.pages tar with
        isDirty := (b.pages tar).isDirty || isDirty
        pinCount := (b.pages tar).pinCount - 1 }
    replacer := if (b.pages tar).pinCount - 1 = 0 then b.replacer.insert tar else b.replacer }

theorem unpinPage_of_pinned {b : BufferPoolManager n} {p : PageId} {tar : Fin n}
    (hp : b.pageTable.find p = some tar) (pinned : 0 < (b.pages tar).pinCount) (isDirty : Bool) :
    b.unpinPage p isDirty = .ok (true, b.unpin tar isDirty) := by
  unfold unpinPage unpin
  simp only [hp, not_le.2 pinned, if_false, setPage]
  split_ifs <;> rfl

theorem Inv.unpin {b : BufferPoolManager n} (h : Inv b) {p : PageId} {tar : Fin n}
    (hp : b.pageTable.find p = some tar) (pinned : 0 < (b.pages tar).pinCount) (isDirty : Bool) :
    Inv (b.unpin tar isDirty) := by
  refine h.setPins tar ((b.unpin tar isDirty).pages tar) (h.valid_of_find hp).2 ?_ ?_ ?_ rfl rfl
    rfl fun f => ?_ <;> simp only [BufferPoolManager.unpin, Function.update_self]
  · omega
  · have absent : tar ∉ b.replacer.order := by
      rw [h.replacer]
      omega
    split_ifs with hz hf hf
    · simpa [hf] using hz
    · simp [hf]
    · simpa [hf, absent] using hz
    · rfl

theorem Inv.flushPage {b : BufferPoolManager n} (h : Inv b) (p : PageId) :
    Inv (b.flushPage p).2 := by
  unfold BufferPoolManager.flushPage
  cases hp : b.pageTable.find p with
  | none => exact h
  | some tar =>
    obtain ⟨e, valid⟩ := h.valid_of_find hp
    simp only [valid, if_false]
    split_ifs
    · refine h.congr (fun f => ?_) (fun f => ?_) (fun f hf => ?_) rfl rfl rfl rfl <;>
        simp only [setPage, Function.update_apply] <;> split_ifs with hf'
      · rw [hf']
      · rfl
      · rw [hf']
      · rfl
      · rw [hf'] at hf
        exact absurd ((h.free tar).1 hf) valid
      · rfl
    · exact h

/-- The pool after `DeletePage` of the unpinned frame `tar`. -/
def release (b : BufferPoolManager n) (tar : Fin n) : BufferPoolManager n :=
  { b with
    replacer := (b.replacer.erase tar).2
    pageTable := b.pageTable.remove (b.pages tar).pageId
    pages := Function.update b.pages tar
      { b.pages tar with isDirty := false, data := Mem.zero, pageId := invalidPageId }
    freeList := b.freeList ++ [tar] }

theorem deletePage_cases {b : BufferPoolManager n} (h : Inv b) (p : PageId) :
    (b.pageTable.find p = none ∧ b.deletePage p = (true, b)) ∨
    ∃ tar, b.pageTable.find p = some tar ∧
      (0 < (b.pages tar).pinCount ∧ b.deletePage p = (false, b) ∨
        (b.pages tar).pinCount = 0 ∧ b.deletePage p = (true, b.release tar)) := by
  unfold deletePage
  cases hp : b.pageTable.find p with
  | none => exact Or.inl ⟨rfl, rfl⟩
  | some tar =>
    right
    obtain ⟨e, -⟩ := h.valid_of_find hp
    refine ⟨tar, rfl, ?_⟩
    have pins := h.pins tar
    by_cases pinned : 0 < (b.pages tar).pinCount
    · exact Or.inl ⟨pinned, by simp [pinned]⟩
    · refine Or.inr ⟨by omega, ?_⟩
      simp [pinned, release, setPage, IdealDisk.deallocatePage, e]

theorem release_pages (b : BufferPoolManager n) (tar f : Fin n) :
    (b.release tar).pages f =
      if f = tar then
        { b.pages tar with isDirty := false, data := Mem.zero, pageId := invalidPageId }
      else b.pages f := by
  simp [release, Function.update_apply]

theorem Inv.release {b : BufferPoolManager n} (h : Inv b) {p : PageId} {tar : Fin n}
    (hp : b.pageTable.find p = some tar) (unpinned : (b.pages tar).pinCount = 0) :
    Inv (b.release tar) := by
  obtain ⟨-, valid⟩ := h.valid_of_find hp
  have table : ∀ q f, (b.release tar).pageTable.find q = some f ↔
      ((b.release tar).pages f).pageId = q ∧ q ≠ invalidPageId := by
    intro q f
    have hfind : (b.release tar).pageTable.find q =
        if q = (b.pages tar).pageId then none else b.pageTable.find q := find_remove _ _ _
    rw [hfind, release_pages]
    by_cases hf : f = tar
    · subst hf
      rw [if_pos rfl]
      constructor
      · intro e
        split_ifs at e with hq
        exact absurd ((h.table q f).1 e).1.symm hq
      · rintro ⟨rfl, hq⟩
        exact absurd rfl hq
    · rw [if_neg hf]
      split_ifs with hq
      · simp only [false_iff]
        rintro ⟨e, hv⟩
        exact hf (injective_of_table h.table f tar (e.trans hq) (e ▸ hv))
      · exact h.table q f
  refine ⟨⟨table, injective_of_table table, ?freeNodup, fun f => ?free, fun f hf => ?freeClean,
    fun f => ?replacer⟩, fun f => ?pins, fun f => ?ids, h.next⟩
  case freeNodup =>
    refine h.freeNodup.append (List.nodup_singleton tar) ?_
    rw [List.disjoint_singleton]
    exact fun hf => valid ((h.free tar).1 hf)
  case free =>
    rw [release_pages, show (b.release tar).freeList = b.freeList ++ [tar] from rfl,
      List.mem_append, h.free, List.mem_singleton]
    split_ifs with hf <;> simp [hf]
  case freeClean =>
    rw [release_pages]
    split_ifs with hf'
    · exact ⟨unpinned, rfl⟩
    · refine h.freeClean f ?_
      rw [show (b.release tar).freeList = b.freeList ++ [tar] from rfl] at hf
      simpa [hf'] using hf
  case replacer =>
    rw [release_pages, show (b.release tar).replacer = (b.replacer.erase tar).2 from rfl,
      LRUReplacer.mem_erase, h.replacer]
    split_ifs with hf <;> simp [hf]
  case pins =>
    rw [release_pages]
    split_ifs
    · exact h.pins tar
    · exact h.pins f
  case ids =>
    rw [release_pages]
    split_ifs
    · exact fun hv => absurd rfl hv
    · exact h.ids f

theorem Inv.deletePage {b : BufferPoolManager n} (h : Inv b) (p : PageId) :
    Inv (b.deletePage p).2 := by
  rcases deletePage_cases h p with ⟨-, hr⟩ | ⟨tar, hp, ⟨-, hr⟩ | ⟨unpinned, hr⟩⟩ <;> rw [hr]
  · exact h
  · exact h
  · exact h.release hp unpinned

/-! ## Runs -/

/-- The calls of a client, and its stores through a `Page *`. -/
inductive Op (n : ℕ)
  | newPage
  | fetchPage (pageId : PageId)
  | unpinPage (pageId : PageId) (isDirty : Bool)
  | flushPage (pageId : PageId)
  | deletePage (pageId : PageId)
  | store (frame : Fin n) (data : PageData)

def step (b : BufferPoolManager n) : Op n → Except Fault (BufferPoolManager n)
  | .newPage => Prod.snd <$> b.newPage
  | .fetchPage pageId => Prod.snd <$> b.fetchPage pageId
  | .unpinPage pageId isDirty => Prod.snd <$> b.unpinPage pageId isDirty
  | .flushPage pageId => .ok (b.flushPage pageId).2
  | .deletePage pageId => .ok (b.deletePage pageId).2
  | .store frame data => .ok (b.setPage frame { b.pages frame with data := data })

/-- `FetchPage` is called on ids `NewPage` returned, which are those below the counter, and
`UnpinPage` on pinned pages. -/
def Op.Legal (b : BufferPoolManager n) : Op n → Prop
  | .fetchPage pageId => 0 ≤ pageId ∧ pageId < b.diskManager.nextPageId
  | .unpinPage pageId _ => ∃ tar, b.pageTable.find pageId = some tar ∧ 0 < (b.pages tar).pinCount
  | _ => True

/-- The states a pool of `n` frames reaches by legal operations. -/
inductive Reachable (n : ℕ) : BufferPoolManager n → Prop
  | new : Reachable n (new n)
  | step {b b' : BufferPoolManager n} {op : Op n} : Reachable n b → op.Legal b →
      b.step op = .ok b' → Reachable n b'

/-- A legal operation returns and keeps the invariant. -/
theorem inv_step {b : BufferPoolManager n} (h : Inv b) {op : Op n} (legal : op.Legal b) :
    ∃ b', b.step op = .ok b' ∧ Inv b' := by
  cases op with
  | newPage =>
    rcases newPage_cases h with ⟨hr, -⟩ | ⟨tar, b', -, hr⟩
    · exact ⟨b, by simp [BufferPoolManager.step, hr, Functor.map, Except.map], h⟩
    · exact ⟨_, by simp only [BufferPoolManager.step, hr, Functor.map, Except.map], h.newPage hr⟩
  | fetchPage pageId =>
    obtain ⟨lo, hi⟩ := legal
    rcases fetchPage_cases h pageId with ⟨tar, -, hr⟩ | ⟨-, hr, -⟩ | ⟨-, tar, b', -, hr⟩ <;>
      exact ⟨_, by simp only [BufferPoolManager.step, hr, Functor.map, Except.map],
        h.fetchPage lo hi hr⟩
  | unpinPage pageId isDirty =>
    obtain ⟨tar, hp, pinned⟩ := legal
    exact ⟨_, by simp only [BufferPoolManager.step, unpinPage_of_pinned hp pinned, Functor.map,
      Except.map], h.unpin hp pinned isDirty⟩
  | flushPage pageId => exact ⟨_, rfl, h.flushPage pageId⟩
  | deletePage pageId => exact ⟨_, rfl, h.deletePage pageId⟩
  | store frame data =>
    refine ⟨_, rfl, h.congr (fun f => ?_) (fun f => ?_) (fun f _ => ?_) rfl rfl rfl rfl⟩ <;>
      simp only [setPage, Function.update_apply] <;> split_ifs with hf
    all_goals first | rw [hf] | rfl

theorem inv_of_reachable {b : BufferPoolManager n} (h : Reachable n b) : Inv b := by
  induction h with
  | new => exact inv_new
  | step _ legal hs ih =>
    obtain ⟨b', hr, hb'⟩ := inv_step ih legal
    rw [hs] at hr
    cases hr
    exact hb'

/-- In every reachable state with page ids and pin counts below 2^31 the frames, the page table, the
free list and the replacer agree, and `GetVictimPage` returns without a failed assertion and never
chooses a pinned frame. -/
theorem reachable_consistent {b : BufferPoolManager n} (h : Reachable n b) :
    Consistent b ∧
    ∃ r b', b.getVictimPage = .ok (r, b') ∧ ∀ tar, r = some tar → (b.pages tar).pinCount = 0 := by
  have inv := inv_of_reachable h
  refine ⟨inv.toConsistent, ?_⟩
  rcases getVictimPage_spec inv with ⟨hr, -⟩ | ⟨tar, b', hr, victim⟩
  · exact ⟨none, b, hr, by simp⟩
  · refine ⟨some tar, b', hr, fun f hf => ?_⟩
    cases hf
    exact victim.unpinned

/-- A pool of two frames, both pinned by `NewPage`.  The first page is given back dirty, and a third
one takes its frame. -/
theorem reachable_consistent_evicted : ∃ b : BufferPoolManager 2, Reachable 2 b ∧
    b.pageTable.find 0 = none ∧ b.pageTable.find 1 = some 1 ∧ b.pageTable.find 2 = some 0 ∧
      Consistent b ∧ ∃ b', b.getVictimPage = .ok (none, b') := by
  have first := @Reachable.step 2 (new 2) _ .newPage .new trivial rfl
  have second := @Reachable.step 2 _ _ .newPage first trivial rfl
  have unpinned := @Reachable.step 2 _ _ (.unpinPage 0 true) second ⟨0, rfl, by decide⟩ rfl
  have third := @Reachable.step 2 _ _ .newPage unpinned trivial rfl
  obtain ⟨consistent, r, b', run, -⟩ := reachable_consistent third
  refine ⟨_, third, rfl, rfl, rfl, consistent, b', ?_⟩
  rw [run]
  cases run
  rfl

end ScuDb.BufferPoolManager
