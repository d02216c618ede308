import ScuDb.Buffer.Invariant

/-!
# Clients of the buffer pool

A `Session` is a pool together with what its clients do: the pins they hold, each with the
`Page *` they were given, which of them changed a page since they last reported it, the bytes they
last left in every page, and the deleted pages.  `Refines` says that the pool and its disk together
store those bytes; it holds along every run in which the clients keep to the protocol (`Legal`) and
fetch only pages that `NewPage` returned.
-/

namespace ScuDb

open ByteMem BufferPoolManager

/-- A thread or component that calls the pool. -/
abbrev Client := ℕ

/-- A pin: its holder, its page, and the frame the holder was given. -/
structure Pin (n : ℕ) where
  client : Client
  pageId : PageId
  frame : Fin n
deriving DecidableEq

/-- A pool and what its clients did with it. -/
structure Session (n : ℕ) where
  pool : BufferPoolManager n
  held : List (Pin n) := []
  changed : Client → PageId → Bool := fun _ _ => false
  content : PageId → PageData := fun _ => Mem.zero
  deleted : PageId → Bool := fun _ => false

namespace Session

variable {n : ℕ}

/-- A pool nobody has used yet. -/
def new (n : ℕ) : Session n := { pool := .new n }

/-- The pins of `client` on `pageId`. -/
def pinsOf (s : Session n) (client : Client) (pageId : PageId) : List (Pin n) :=
  s.held.filter fun q => q.client = client ∧ q.pageId = pageId

inductive Call
  | newPage (client : Client)
  | fetchPage (client : Client) (pageId : PageId)
  | unpinPage (client : Client) (pageId : PageId) (isDirty : Bool)
  | flushPage (pageId : PageId)
  | deletePage (pageId : PageId)
  | store (client : Client) (pageId : PageId) (data : PageData)

/-- One call, with the ledger of the clients kept up to date.  A store goes through the pointer the
client got with its latest pin. -/
def step (s : Session n) : Call → Except Fault (Session n)
  | .newPage client => do
    let (r, pool) ← s.pool.newPage
    match r with
    | none => return { s with pool := pool }
    | some (pageId, frame) => return { s with
        pool := pool
        held := ⟨client, pageId, frame⟩ :: s.held
        content := Function.update s.content pageId Mem.zero
        deleted := Function.update s.deleted pageId false }
  | .fetchPage client pageId => do
    let (r, pool) ← s.pool.fetchPage pageId
    match r with
    | none => return { s with pool := pool }
    | some frame => return { s with pool := pool, held := ⟨client, pageId, frame⟩ :: s.held }
  | .unpinPage client pageId isDirty => do
    let (_, pool) ← s.pool.unpinPage pageId isDirty
    return { s with
      pool := pool
      held := s.held.eraseP fun q => q.client = client ∧ q.pageId = pageId
      changed := if isDirty then
        Function.update s.changed client (Function.update (s.changed client) pageId false)
        else s.changed }
  | .flushPage pageId => .ok { s with pool := (s.pool.flushPage pageId).2 }
  | .deletePage pageId =>
    let (r, pool) := s.pool.deletePage pageId
    .ok { s with
      pool := pool
      deleted := if r then Function.update s.deleted pageId true else s.deleted }
  | .store client pageId data =>
    match s.pinsOf client pageId with
    | [] => .ok s
    | pin :: _ => .ok { s with
        pool := s.pool.setPage pin.frame { s.pool.pages pin.frame with data := data }
        changed := Function.update s.changed client
          (Function.update (s.changed client) pageId true)
        content := Function.update s.content pageId data }

/-- The protocol of the clients: a client stores into a page and unpins it only while it holds a
pin on it, and gives up its last pin on a page it changed with `is_dirty = true`. -/
def Legal (s : Session n) : Call → Prop
  | .unpinPage client pageId isDirty => s.pinsOf client pageId ≠ [] ∧
      ((s.pinsOf client pageId).length = 1 → s.changed client pageId = true → isDirty = true)
  | .store client pageId _ => s.pinsOf client pageId ≠ []
  | _ => True

/-- `FetchPage` is called only on ids that `NewPage` returned. -/
def FetchesAllocated (s : Session n) : Call → Prop
  | .fetchPage _ pageId => 0 ≤ pageId ∧ pageId < s.pool.diskManager.nextPageId
  | _ => True

/-- Sessions reached by calls that all satisfy `allowed`. -/
inductive Run (allowed : Session n → Call → Prop) : Session n → Prop
  | new : Run allowed (new n)
  | step {s s' : Session n} {call : Call} : Run allowed s → allowed s call →
      s.step call = .ok s' → Run allowed s'

/-- A page that `NewPage` returned and that was not deleted since. -/
def Live (s : Session n) (pageId : PageId) : Prop :=
  0 ≤ pageId ∧ pageId < s.pool.diskManager.nextPageId ∧ s.deleted pageId = false

/-- The bytes a `FetchPage` finds in the frame it returns. -/
def fetched (s : Session n) (pageId : PageId) : Option PageData :=
  match s.pool.fetchPage pageId with
  | .ok (some frame, pool) => some (pool.pages frame).data
  | _ => none

/-- Every successful `FetchPage` of a live page returns the bytes the clients last left in it. -/
def FetchesContent (s : Session n) : Prop :=
  ∀ pageId data, s.Live pageId → s.fetched pageId = some data → data = s.content pageId

/-! ## The refinement -/

/-- The bytes of `pageId` are safe in the pool or on its disk. -/
def Stored (s : Session n) (pageId : PageId) : Prop :=
  match s.pool.pageTable.find pageId with
  | none => s.pool.diskManager.pages pageId = s.content pageId
  | some f => (s.pool.pages f).data = s.content pageId ∧
      ((s.pool.pages f).isDirty = true ∨ (∃ client, s.changed client pageId = true) ∨
        s.pool.diskManager.pages pageId = s.content pageId)

/-- The pool, its disk and the ledger agree. -/
structure Refines (s : Session n) : Prop where
  inv : Inv s.pool
  held : ∀ pin ∈ s.held, s.pool.pageTable.find pin.pageId = some pin.frame
  pins : ∀ p f, s.pool.pageTable.find p = some f →
    (s.pool.pages f).pinCount = s.held.countP fun q => q.pageId = p
  changed : ∀ client p, s.changed client p = true → s.pinsOf client p ≠ []
  stored : ∀ p, s.Live p → s.Stored p
  fresh : ∀ p, s.pool.diskManager.nextPageId ≤ p → s.pool.diskManager.pages p = Mem.zero

theorem refines_new : Refines (new n) where
  inv := inv_new
  held pin h := by simp [new] at h
  pins p f h := by simp [new, BufferPoolManager.new, find_new] at h
  changed client p h := by simp [new] at h
  stored p h := absurd (lt_of_le_of_lt h.1 h.2.1) (lt_irrefl 0)
  fresh p _ := rfl

/-! ### Eviction -/

/-- `b` holds the same frames, entries and disk pages as the pool of `s`. -/
structure SamePool (b : BufferPoolManager n) (s : Session n) : Prop where
  pages : b.pages = s.pool.pages
  pageTable : b.pageTable = s.pool.pageTable
  disk : b.diskManager.pages = s.pool.diskManager.pages

theorem Refines.held_pinned {s : Session n} (h : Refines s) {pin : Pin n} (mem : pin ∈ s.held) :
    0 < (s.pool.pages pin.frame).pinCount := by
  rw [h.pins _ _ (h.held pin mem)]
  exact_mod_cast List.countP_pos_iff.2 ⟨pin, mem, by simp⟩

/-- Nobody changed the page of an unpinned frame without reporting it. -/
theorem Refines.unchanged {s : Session n} (h : Refines s) {p : PageId} {f : Fin n}
    (hp : s.pool.pageTable.find p = some f) (unpinned : (s.pool.pages f).pinCount = 0)
    (client : Client) : s.changed client p = false := by
  rw [← Bool.not_eq_true]
  intro hc
  obtain ⟨pin, mem⟩ := List.exists_mem_of_ne_nil _ (h.changed client p hc)
  simp only [pinsOf, List.mem_filter, decide_eq_true_eq] at mem
  have hf := h.held pin mem.1
  rw [mem.2.2, hp] at hf
  have := h.held_pinned mem.1
  rw [← Option.some.inj hf] at this
  omega

/-- The disk after an eviction: only the page of a dirty victim is written. -/
theorem writeBack_disk (b : BufferPoolManager n) (tar : Fin n) (q : PageId) :
    (b.writeBack tar).diskManager.pages q =
      if (b.pages tar).isDirty = true ∧ q = (b.pages tar).pageId then (b.pages tar).data
      else b.diskManager.pages q := by
  unfold writeBack
  by_cases hd : (b.pages tar).isDirty = true
  · simp [hd, IdealDisk.writePage, Function.update_apply]
  · simp [hd]

theorem occupy_find {b : BufferPoolManager n} {tar : Fin n} {p : PageId} (data : PageData)
    (absent : b.pageTable.find p = none) (q : PageId) :
    (b.occupy tar p data).pageTable.find q =
      if q = p then some tar else if q = (b.pages tar).pageId then none
        else b.pageTable.find q := by
  simp only [occupy, find_insert, find_remove, absent, ite_self, Option.getD_none]

/-- Reusing an unpinned frame for the absent page `p` loses no other page. -/
theorem Refines.stored_occupy {s s' : Session n} (h : Refines s) {b : BufferPoolManager n}
    {tar : Fin n} {p : PageId} (same : SamePool b s) (data : PageData)
    (unpinned : (s.pool.pages tar).pinCount = 0) (absent : s.pool.pageTable.find p = none)
    (hpool : s'.pool = (b.writeBack tar).occupy tar p data) (hchanged : s'.changed = s.changed)
    {q : PageId} (hq : q ≠ p) (hcontent : s'.content q = s.content q) (stored : s.Stored q) :
    s'.Stored q := by
  have hfind : s'.pool.pageTable.find q =
      if q = (s.pool.pages tar).pageId then none else s.pool.pageTable.find q := by
    rw [hpool, occupy_find _ (by rwa [writeBack_pageTable, same.pageTable]), if_neg hq,
      writeBack_pages, writeBack_pageTable, same.pages, same.pageTable]
  have hdisk : s'.pool.diskManager.pages q =
      if (s.pool.pages tar).isDirty = true ∧ q = (s.pool.pages tar).pageId then
        (s.pool.pages tar).data else s.pool.diskManager.pages q := by
    rw [hpool]
    change (b.writeBack tar).diskManager.pages q = _
    rw [writeBack_disk, same.pages, same.disk]
  unfold Stored at stored ⊢
  rw [hfind, hdisk, hcontent]
  by_cases hold : q = (s.pool.pages tar).pageId
  · rw [if_pos hold]
    rcases hf : s.pool.pageTable.find q with _ | f
    · -- the frame was free, hence clean, and the page was not resident
      have invalid : (s.pool.pages tar).pageId = invalidPageId := by
        by_contra hv
        have := (h.inv.table q tar).2 ⟨hold.symm, hold ▸ hv⟩
        simp [hf] at this
      have clean := (h.inv.freeClean tar ((h.inv.free tar).2 invalid)).2
      rw [hf] at stored
      simpa [clean] using stored
    · have htar : f = tar := by
        obtain ⟨e, hv⟩ := h.inv.valid_of_find hf
        exact h.inv.injective f tar (e.trans hold) hv
      rw [hf, htar] at stored
      obtain ⟨hdata, hsafe⟩ := stored
      by_cases hd : (s.pool.pages tar).isDirty = true
      · simpa [hd, hold] using hdata.trans (by rw [hold])
      · rcases hsafe with hd' | ⟨client, hc⟩ | hsafe
        · exact absurd hd' hd
        · rw [h.unchanged (htar ▸ hf) unpinned client] at hc
          exact absurd hc (by decide)
        · simpa [hd] using hsafe
  · rw [if_neg hold, if_neg (fun e => hold e.2), hchanged]
    rcases hf : s.pool.pageTable.find q with _ | f
    · rwa [hf] at stored
    · rw [hf] at stored
      have hne : f ≠ tar := by
        rintro rfl
        exact hold (h.inv.valid_of_find hf).1.symm
      have hpage : s'.pool.pages f = s.pool.pages f := by
        rw [hpool, occupy_pages, if_neg hne, writeBack_pages, same.pages]
      change ((s'.pool.pages f).data = _ ∧ _)
      rw [hpage]
      exact stored

/-- A frame taken from an unpinned page and pinned once for the absent page `p` keeps the ledger
right, once the bytes of `p` are accounted for. -/
theorem Refines.occupy {s s' : Session n} (h : Refines s) {b : BufferPoolManager n} {tar : Fin n}
    {p : PageId} {data : PageData} {client : Client} (same : SamePool b s)
    (unpinned : (s.pool.pages tar).pinCount = 0) (absent : s.pool.pageTable.find p = none)
    (hpool : s'.pool = (b.writeBack tar).occupy tar p data)
    (hheld : s'.held = ⟨client, p, tar⟩ :: s.held) (hchanged : s'.changed = s.changed)
    (inv : Inv s'.pool) (stored : ∀ q, s'.Live q → s'.Stored q)
    (fresh : ∀ q, s'.pool.diskManager.nextPageId ≤ q → s'.pool.diskManager.pages q = Mem.zero) :
    Refines s' := by
  have hfind (q : PageId) : s'.pool.pageTable.find q =
      if q = p then some tar else if q = (s.pool.pages tar).pageId then none
        else s.pool.pageTable.find q := by
    rw [hpool, occupy_find _ (by rwa [writeBack_pageTable, same.pageTable]), writeBack_pages,
      writeBack_pageTable, same.pages, same.pageTable]
  have other {pin : Pin n} (mem : pin ∈ s.held) :
      pin.pageId ≠ p ∧ pin.pageId ≠ (s.pool.pages tar).pageId := by
    have hf := h.held pin mem
    refine ⟨fun e => ?_, fun e => ?_⟩
    · rw [e, absent] at hf
      cases hf
    · obtain ⟨e', hv⟩ := h.inv.valid_of_find hf
      have := h.held_pinned mem
      rw [h.inv.injective pin.frame tar (e'.trans e) hv] at this
      omega
  refine ⟨inv, fun pin mem => ?_, fun q f hq => ?_, fun c q hc => ?_, stored, fresh⟩
  · rw [hheld, List.mem_cons] at mem
    rcases mem with rfl | mem
    · rw [hfind, if_pos rfl]
    · rw [hfind, if_neg (other mem).1, if_neg (other mem).2]
      exact h.held pin mem
  · rw [hfind] at hq
    rw [hheld, List.countP_cons, hpool, occupy_pages, writeBack_pages, same.pages]
    by_cases hqp : q = p
    · rw [if_pos hqp] at hq
      have none : s.held.countP (fun r => r.pageId = q) = 0 := by
        rw [List.countP_eq_zero]
        intro pin mem
        simpa [hqp] using (other mem).1
      rw [if_pos (Option.some.inj hq).symm, none]
      simp [hqp]
    · rw [if_neg hqp] at hq
      split_ifs at hq with hold
      have hne : f ≠ tar := by
        rintro rfl
        exact hold (h.inv.valid_of_find hq).1.symm
      rw [if_neg hne, h.pins q f hq]
      simp [Ne.symm hqp]
  · rw [hchanged] at hc
    obtain ⟨pin, mem⟩ := List.exists_mem_of_ne_nil _ (h.changed c q hc)
    refine List.ne_nil_of_mem (a := pin) ?_
    simp only [pinsOf, List.mem_filter, hheld, List.mem_cons] at mem ⊢
    exact ⟨Or.inr mem.1, mem.2⟩

theorem samePool_of_victim {s : Session n} {tar : Fin n} {b : BufferPoolManager n}
    (victim : Victim s.pool tar b) : SamePool b s :=
  ⟨victim.pages, victim.pageTable, by rw [victim.diskManager]⟩

/-- Pages that were never allocated stay blank on disk through an eviction. -/
theorem Refines.fresh_occupy {s : Session n} (h : Refines s) {b : BufferPoolManager n}
    (same : SamePool b s) (tar : Fin n) (p : PageId) (data : PageData) {q : PageId}
    (hq : s.pool.diskManager.nextPageId ≤ q) :
    ((b.writeBack tar).occupy tar p data).diskManager.pages q = Mem.zero := by
  change (b.writeBack tar).diskManager.pages q = _
  rw [writeBack_disk, same.pages, same.disk, if_neg, h.fresh q hq]
  rintro ⟨hd, e⟩
  by_cases hv : (s.pool.pages tar).pageId = invalidPageId
  · have := (h.inv.freeClean tar ((h.inv.free tar).2 hv)).2
    rw [this] at hd
    cases hd
  · have := (h.inv.ids tar hv).2
    rw [← e] at this
    exact absurd hq (not_le.2 this)

/-! ### The calls -/

theorem Refines.newPage {s : Session n} (h : Refines s) (client : Client) :
    ∃ s', s.step (.newPage client) = .ok s' ∧ Refines s' := by
  rcases newPage_cases h.inv with ⟨hr, -⟩ | ⟨tar, b, victim, hr⟩
  · exact ⟨s, by simp [step, hr, bind, Except.bind, pure, Except.pure], h⟩
  · refine ⟨_, by simp only [step, hr, bind, Except.bind, pure, Except.pure]; rfl, ?_⟩
    have same : SamePool { b with diskManager := b.diskManager.allocatePage.2 } s :=
      ⟨victim.pages, victim.pageTable, by
        simp [IdealDisk.allocatePage, victim.diskManager]⟩
    have hnext : ((BufferPoolManager.writeBack
        { b with diskManager := b.diskManager.allocatePage.2 } tar).occupy tar
          s.pool.diskManager.nextPageId Mem.zero).diskManager.nextPageId =
        s.pool.diskManager.nextPageId + 1 := by
      change (BufferPoolManager.writeBack _ tar).diskManager.nextPageId = _
      rw [writeBack_nextPageId]
      simp [IdealDisk.allocatePage, victim.diskManager]
    refine h.occupy same victim.unpinned h.inv.absent_next rfl rfl rfl (h.inv.newPage hr)
      (fun q live => ?_) fun q hq => ?_
    · by_cases hq : q = s.pool.diskManager.nextPageId
      · -- the new page is blank in its frame and on disk
        subst hq
        have blank := h.fresh_occupy same tar s.pool.diskManager.nextPageId Mem.zero (le_refl _)
        unfold Stored
        rw [occupy_find _ (by
          rw [writeBack_pageTable, same.pageTable]
          exact h.inv.absent_next), if_pos rfl]
        simp only [Function.update_self]
        refine ⟨?_, Or.inr (Or.inr blank)⟩
        rw [occupy_pages, if_pos rfl]
      · refine h.stored_occupy same Mem.zero victim.unpinned h.inv.absent_next ?_ ?_ hq ?_
          (h.stored q ?_)
        · rfl
        · rfl
        · exact Function.update_of_ne hq _ _
        obtain ⟨lo, hi, hd⟩ := live
        rw [hnext] at hi
        refine ⟨lo, by lia, ?_⟩
        exact (Function.update_of_ne hq false s.deleted).symm.trans hd
    · rw [hnext] at hq
      exact h.fresh_occupy same _ _ _ (by lia)

theorem Refines.fetchPage {s : Session n} (h : Refines s) (client : Client) {p : PageId}
    (lo : 0 ≤ p) (hi : p < s.pool.diskManager.nextPageId) :
    ∃ s', s.step (.fetchPage client p) = .ok s' ∧ Refines s' := by
  rcases fetchPage_cases h.inv p with ⟨tar, hp, hr⟩ | ⟨-, hr, -⟩ | ⟨hp, tar, b, victim, hr⟩
  · refine ⟨_, by simp only [step, hr, bind, Except.bind, pure, Except.pure]; rfl, ?_⟩
    have hpages (f : Fin n) : ((s.pool.pin tar).pages f).data = (s.pool.pages f).data ∧
        ((s.pool.pin tar).pages f).isDirty = (s.pool.pages f).isDirty := by
      simp only [pin, Function.update_apply]
      split_ifs with hf <;> simp [hf]
    refine ⟨h.inv.pin hp, fun q mem => ?_, fun q f hq => ?_, fun c q hc => ?_, fun q live => ?_,
      h.fresh⟩
    · rcases List.mem_cons.1 mem with rfl | mem
      · exact hp
      · exact h.held q mem
    · change ((s.pool.pin tar).pages f).pinCount = _
      simp only [pin, Function.update_apply, List.countP_cons]
      have hcount := h.pins q f hq
      by_cases hqp : q = p
      · have : f = tar := by
          rw [hqp, show (s.pool.pin tar).pageTable.find p = some tar from hp] at hq
          exact (Option.some.inj hq).symm
        subst this
        rw [hqp] at hcount
        simp [hqp, hcount]
      · have hne : f ≠ tar := by
          rintro rfl
          exact hqp ((h.inv.valid_of_find hq).1.symm.trans (h.inv.valid_of_find hp).1)
        simp [hne, Ne.symm hqp, hcount]
    · obtain ⟨q', mem⟩ := List.exists_mem_of_ne_nil _ (h.changed c q hc)
      refine List.ne_nil_of_mem (a := q') ?_
      simp only [pinsOf, List.mem_filter, List.mem_cons] at mem ⊢
      exact ⟨Or.inr mem.1, mem.2⟩
    · have stored := h.stored q live
      unfold Stored at stored ⊢
      change match s.pool.pageTable.find q with
        | none => s.pool.diskManager.pages q = s.content q
        | some f => ((s.pool.pin tar).pages f).data = s.content q ∧
            (((s.pool.pin tar).pages f).isDirty = true ∨ _ ∨ s.pool.diskManager.pages q = _)
      simpa only [hpages] using stored
  · exact ⟨s, by simp [step, hr, bind, Except.bind, pure, Except.pure], h⟩
  · refine ⟨_, by simp only [step, hr, bind, Except.bind, pure, Except.pure]; rfl, ?_⟩
    have same := samePool_of_victim victim
    have hnext : ((b.writeBack tar).occupy tar p
        ((b.writeBack tar).diskManager.readPage p)).diskManager.nextPageId =
        s.pool.diskManager.nextPageId := by
      change (b.writeBack tar).diskManager.nextPageId = _
      rw [writeBack_nextPageId, victim.diskManager]
    refine h.occupy same victim.unpinned hp rfl rfl rfl (h.inv.fetchPage lo hi hr)
      (fun q live => ?_) fun q hq => h.fresh_occupy same _ _ _ (by rwa [hnext] at hq)
    have live' : s.Live q := ⟨live.1, by simpa only [hnext] using live.2.1, live.2.2⟩
    by_cases hq : q = p
    · -- the bytes come from the disk, which the eviction of another page left alone
      subst hq
      have stored := h.stored q live'
      unfold Stored at stored ⊢
      rw [hp] at stored
      have hold : q ≠ (s.pool.pages tar).pageId := by
        intro e
        have := (h.inv.table q tar).2 ⟨e.symm, fun e' => by rw [e'] at lo; exact absurd lo (by decide)⟩
        simp [hp] at this
      have hdisk : (b.writeBack tar).diskManager.pages q = s.content q := by
        rw [writeBack_disk, same.pages, same.disk, if_neg (fun e => hold e.2), stored]
      rw [occupy_find _ (by rwa [writeBack_pageTable, same.pageTable]), if_pos rfl]
      refine ⟨?_, Or.inr (Or.inr hdisk)⟩
      rw [occupy_pages, if_pos rfl]
      exact hdisk
    · refine h.stored_occupy same ((b.writeBack tar).diskManager.readPage p) victim.unpinned hp ?_ ?_
        hq ?_ (h.stored q live') <;> rfl

/-- A pin of the ledger names the frame the page table finds. -/
theorem Refines.find_of_pinsOf {s : Session n} (h : Refines s) {client : Client} {p : PageId}
    {q : Pin n} (mem : q ∈ s.pinsOf client p) :
    q ∈ s.held ∧ q.client = client ∧ q.pageId = p ∧ s.pool.pageTable.find p = some q.frame := by
  simp only [pinsOf, List.mem_filter, decide_eq_true_eq] at mem
  obtain ⟨hq, hc, hp⟩ := mem
  exact ⟨hq, hc, hp, hp ▸ h.held q hq⟩

theorem Refines.unpinPage {s : Session n} (h : Refines s) {client : Client} {p : PageId}
    {isDirty : Bool} (legal : s.Legal (.unpinPage client p isDirty)) :
    ∃ s', s.step (.unpinPage client p isDirty) = .ok s' ∧ Refines s' := by
  obtain ⟨hne, hlast⟩ := legal
  obtain ⟨q, mem⟩ := List.exists_mem_of_ne_nil _ hne
  obtain ⟨hq, hc, hp, hfind⟩ := h.find_of_pinsOf mem
  have pinned := h.held_pinned hq
  refine ⟨_, by
    simp only [step, unpinPage_of_pinned hfind pinned, bind, Except.bind, pure, Except.pure]
    rfl, ?_⟩
  obtain ⟨a, l₁, l₂, -, ha, hheld, herase⟩ := List.exists_of_eraseP hq
    (p := fun r : Pin n => decide (r.client = client ∧ r.pageId = p)) (by simp [hc, hp])
  simp only [decide_eq_true_eq] at ha
  refine ⟨h.inv.unpin hfind pinned isDirty, fun r hr => ?_, fun r f hr => ?_, fun c r hcr => ?_,
    fun r live => ?_, h.fresh⟩
  · exact h.held r (List.mem_of_mem_eraseP hr)
  · have hcount := h.pins r f hr
    simp only [herase, List.countP_append]
    rw [hheld, List.countP_append, List.countP_cons] at hcount
    simp only [BufferPoolManager.unpin, Function.update_apply]
    by_cases hrp : r = p
    · have : f = q.frame := by
        rw [hrp, show (s.pool.unpin q.frame isDirty).pageTable.find p = some q.frame from hfind]
          at hr
        exact (Option.some.inj hr).symm
      subst this
      simp only [ha.2, hrp, decide_true, if_true] at hcount ⊢
      push_cast at hcount ⊢
      omega
    · have hf : f ≠ q.frame := by
        rintro rfl
        exact hrp ((h.inv.valid_of_find hr).1.symm.trans (h.inv.valid_of_find hfind).1)
      simp only [ha.2, Ne.symm hrp, decide_false, Bool.false_eq_true, if_false, hf] at hcount ⊢
      push_cast at hcount ⊢
      omega
  · by_cases hcp : c = client ∧ r = p
    · -- the client still owes a dirty unpin, so this was not its last pin
      obtain ⟨rfl, rfl⟩ := hcp
      have hclean : isDirty = false := by
        by_contra hd
        rw [Bool.not_eq_false] at hd
        simp [hd] at hcr
      have hchanged : s.changed c r = true := by simpa [hclean] using hcr
      have hlen : (s.pinsOf c r).length ≠ 1 := by
        intro e
        have := hlast e hchanged
        simp [hclean] at this
      have hmore : (l₁ ++ l₂).filter (fun r' : Pin n => r'.client = c ∧ r'.pageId = r) ≠ [] := by
        intro e
        apply hlen
        rw [List.filter_append, List.append_eq_nil_iff] at e
        rw [pinsOf, hheld, List.filter_append, List.filter_cons, if_pos (by simpa using ha), e.1, e.2]
        rfl
      simpa only [pinsOf, herase] using hmore
    · have hchanged : s.changed c r = true := by
        cases isDirty with
        | false => simpa using hcr
        | true =>
          simp only [if_true, Function.update_apply] at hcr
          split_ifs at hcr with h1
          · rw [Function.update_of_ne (fun e => hcp ⟨h1, e⟩)] at hcr
            exact h1 ▸ hcr
          · exact hcr
      have hpins := h.changed c r hchanged
      have : ¬ (a.client = c ∧ a.pageId = r) := by
        rw [ha.1, ha.2]
        exact fun e => hcp ⟨e.1.symm, e.2.symm⟩
      simp only [pinsOf, hheld, List.filter_append, List.filter_cons, this, decide_false,
        Bool.false_eq_true, if_false] at hpins
      simpa only [pinsOf, herase, List.filter_append] using hpins
  · have stored := h.stored r live
    unfold Stored at stored ⊢
    change match s.pool.pageTable.find r with
      | none => s.pool.diskManager.pages r = s.content r
      | some f => _
    rcases hf : s.pool.pageTable.find r with _ | f
    · rwa [hf] at stored
    · rw [hf] at stored
      obtain ⟨hdata, hsafe⟩ := stored
      simp only [BufferPoolManager.unpin, Function.update_apply]
      by_cases hft : f = q.frame
      · subst hft
        refine ⟨by simpa using hdata, ?_⟩
        cases isDirty with
        | true => simp
        | false => simpa using hsafe
      · have hrp : r ≠ p := by
          rintro rfl
          exact hft (Option.some.inj (hf.symm.trans hfind))
        refine ⟨by simpa [hft] using hdata, ?_⟩
        simp only [hft, if_false]
        rcases hsafe with hd | ⟨c, hcr⟩ | hs
        · exact Or.inl hd
        · refine Or.inr (Or.inl ⟨c, ?_⟩)
          split_ifs with hd
          · rw [Function.update_apply]
            split_ifs with hcc
            · rw [Function.update_of_ne hrp, ← hcc, hcr]
            · exact hcr
          · exact hcr
        · exact Or.inr (Or.inr hs)

theorem Refines.flushPage {s : Session n} (h : Refines s) (p : PageId) :
    Refines { s with pool := (s.pool.flushPage p).2 } := by
  have inv := h.inv.flushPage p
  unfold BufferPoolManager.flushPage at inv ⊢
  rcases hp : s.pool.pageTable.find p with _ | tar
  · exact h
  · obtain ⟨e, valid⟩ := h.inv.valid_of_find hp
    by_cases hd : (s.pool.pages tar).isDirty = true
    · simp only [hp, valid, if_false, hd, if_true] at inv ⊢
      have hpages (f : Fin n) : (Function.update s.pool.pages tar
          { s.pool.pages tar with isDirty := false } f).data = (s.pool.pages f).data ∧
          (Function.update s.pool.pages tar
          { s.pool.pages tar with isDirty := false } f).pinCount = (s.pool.pages f).pinCount := by
        rw [Function.update_apply]
        split_ifs with hf <;> simp [hf]
      refine ⟨inv, h.held, fun q f hq => ?_, h.changed, fun q live => ?_, fun q hq => ?_⟩
      · exact (hpages f).2.trans (h.pins q f hq)
      · have stored := h.stored q live
        unfold Stored at stored ⊢
        simp only [setPage, IdealDisk.writePage, hpages]
        rcases hf : s.pool.pageTable.find q with _ | f
        · rw [hf] at stored
          have hqp : q ≠ p := by
            rintro rfl
            simp [hp] at hf
          simpa [hqp] using stored
        · rw [hf] at stored
          by_cases hqp : q = p
          · -- the page is written to disk as it stands
            have : f = tar := by
              rw [hqp, hp] at hf
              exact (Option.some.inj hf).symm
            refine ⟨stored.1, Or.inr (Or.inr ?_)⟩
            rw [hqp, Function.update_self, ← this, stored.1, hqp]
          · have hft : f ≠ tar := by
              rintro rfl
              exact hqp ((h.inv.valid_of_find hf).1.symm.trans e)
            simpa [hft, hqp] using stored
      · have hqp : q ≠ p := by
          rintro rfl
          have := (h.inv.ids tar valid).2
          rw [e] at this
          exact absurd hq (not_le.2 this)
        exact (Function.update_of_ne hqp _ _).trans (h.fresh q hq)
    · rw [Bool.not_eq_true] at hd
      simpa only [hp, valid, if_false, hd, Bool.false_eq_true] using h

theorem Refines.deletePage {s : Session n} (h : Refines s) (p : PageId) :
    ∃ s', s.step (.deletePage p) = .ok s' ∧ Refines s' := by
  have inv := h.inv.deletePage p
  rcases deletePage_cases h.inv p with ⟨hp, hr⟩ | ⟨tar, hp, ⟨-, hr⟩ | ⟨unpinned, hr⟩⟩ <;>
    rw [hr] at inv <;> refine ⟨_, by simp only [step, hr]; rfl, ?_⟩
  · refine ⟨inv, h.held, h.pins, h.changed, fun q live => h.stored q ?_, h.fresh⟩
    refine ⟨live.1, live.2.1, ?_⟩
    have := live.2.2
    by_cases hq : q = p
    · simp [hq] at this
    · simpa [hq] using this
  · exact h
  · obtain ⟨e, valid⟩ := h.inv.valid_of_find hp
    have hfind (q : PageId) : (s.pool.release tar).pageTable.find q =
        if q = p then none else s.pool.pageTable.find q := by
      rw [← e]
      exact find_remove _ _ _
    have hne {q : PageId} {f : Fin n} (hq : q ≠ p) (hf : s.pool.pageTable.find q = some f) :
        f ≠ tar := by
      rintro rfl
      exact hq ((h.inv.valid_of_find hf).1.symm.trans e)
    refine ⟨inv, fun q mem => ?_, fun q f hq => ?_, h.changed, fun q live => ?_, h.fresh⟩
    · have hf := h.held q mem
      have hq : q.pageId ≠ p := by
        intro e'
        have := h.held_pinned mem
        rw [e', hp] at hf
        rw [← Option.some.inj hf] at this
        omega
      rw [hfind, if_neg hq]
      exact hf
    · rw [hfind] at hq
      split_ifs at hq with hqp
      rw [release_pages, if_neg (hne hqp hq)]
      exact h.pins q f hq
    · have hqp : q ≠ p := by
        rintro rfl
        have := live.2.2
        simp at this
      have live' : s.Live q := ⟨live.1, live.2.1, by simpa [hqp] using live.2.2⟩
      have stored := h.stored q live'
      unfold Stored at stored ⊢
      rw [hfind, if_neg hqp]
      rcases hf : s.pool.pageTable.find q with _ | f
      · rwa [hf] at stored
      · rw [hf] at stored
        simp only [release_pages, if_neg (hne hqp hf)]
        exact stored

theorem Refines.store {s : Session n} (h : Refines s) {client : Client} {p : PageId}
    (data : PageData) (legal : s.pinsOf client p ≠ []) :
    ∃ s', s.step (.store client p data) = .ok s' ∧ Refines s' := by
  obtain ⟨q, rest, hq⟩ := List.exists_cons_of_ne_nil legal
  obtain ⟨-, -, -, hfind⟩ := h.find_of_pinsOf (hq ▸ List.mem_cons_self : q ∈ s.pinsOf client p)
  refine ⟨_, by simp only [step, hq]; rfl, ?_⟩
  have hpages (f : Fin n) :
      (Function.update s.pool.pages q.frame { s.pool.pages q.frame with data := data } f).pageId =
        (s.pool.pages f).pageId ∧
      (Function.update s.pool.pages q.frame { s.pool.pages q.frame with data := data } f).pinCount =
        (s.pool.pages f).pinCount ∧
      (Function.update s.pool.pages q.frame { s.pool.pages q.frame with data := data } f).isDirty =
        (s.pool.pages f).isDirty := by
    rw [Function.update_apply]
    split_ifs with hf <;> simp [hf]
  refine ⟨?_, h.held, fun r f hr => ?_, fun c r hc => ?_, fun r live => ?_, h.fresh⟩
  · exact h.inv.congr (fun f => (hpages f).1) (fun f => (hpages f).2.1)
      (fun f _ => (hpages f).2.2) rfl rfl rfl rfl
  · exact (hpages f).2.1.trans (h.pins r f hr)
  · change s.pinsOf c r ≠ []
    by_cases hcr : c = client ∧ r = p
    · rw [hcr.1, hcr.2]
      exact legal
    · apply h.changed c r
      simp only [Function.update_apply] at hc
      split_ifs at hc with hcc
      · rw [Function.update_of_ne (fun e => hcr ⟨hcc, e⟩)] at hc
        exact hcc ▸ hc
      · exact hc
  · have stored := h.stored r live
    unfold Stored at stored ⊢
    simp only [setPage, hpages]
    rcases hf : s.pool.pageTable.find r with _ | f
    · rw [hf] at stored
      have hrp : r ≠ p := by
        rintro rfl
        simp [hfind] at hf
      simpa [hrp] using stored
    · rw [hf] at stored
      by_cases hrp : r = p
      · subst hrp
        have : f = q.frame := Option.some.inj (hf.symm.trans hfind)
        refine ⟨by simp [this], Or.inr (Or.inl ⟨client, by simp⟩)⟩
      · have hft : f ≠ q.frame := by
          rintro rfl
          exact hrp ((h.inv.valid_of_find hf).1.symm.trans (h.inv.valid_of_find hfind).1)
        obtain ⟨hdata, hsafe⟩ := stored
        refine ⟨by simpa [hft, hrp] using hdata, ?_⟩
        rcases hsafe with hd | ⟨c, hc⟩ | hs
        · exact Or.inl hd
        · refine Or.inr (Or.inl ⟨c, ?_⟩)
          rw [Function.update_apply]
          split_ifs with hcc
          · rw [Function.update_of_ne hrp, ← hcc, hc]
          · exact hc
        · exact Or.inr (Or.inr (by simpa [hrp] using hs))

/-! ## Runs -/

/-- A call that keeps to the protocol and fetches only allocated pages returns and keeps the
refinement. -/
theorem refines_step {s : Session n} (h : Refines s) {call : Call} (legal : s.Legal call)
    (allocated : s.FetchesAllocated call) : ∃ s', s.step call = .ok s' ∧ Refines s' := by
  cases call with
  | newPage client => exact h.newPage client
  | fetchPage client p => exact h.fetchPage client allocated.1 allocated.2
  | unpinPage client p isDirty => exact h.unpinPage legal
  | flushPage p => exact ⟨_, rfl, h.flushPage p⟩
  | deletePage p => exact h.deletePage p
  | store client p data => exact h.store data legal

theorem refines_of_run {s : Session n}
    (h : Run (fun s call => s.Legal call ∧ s.FetchesAllocated call) s) : Refines s := by
  induction h with
  | new => exact refines_new
  | step _ allowed hs ih =>
    obtain ⟨s', hr, hs'⟩ := refines_step ih allowed.1 allowed.2
    rw [hs] at hr
    cases hr
    exact hs'

theorem Refines.fetchesContent {s : Session n} (h : Refines s) : s.FetchesContent := by
  intro p data live hs
  obtain ⟨frame, pool, hfetch, rfl⟩ : ∃ frame pool,
      s.pool.fetchPage p = .ok (some frame, pool) ∧ (pool.pages frame).data = data := by
    unfold fetched at hs
    split at hs
    · exact ⟨_, _, ‹_›, Option.some.inj hs⟩
    · cases hs
  obtain ⟨s', hr, hs'⟩ := h.fetchPage 0 live.1 live.2.1
  simp only [step, hfetch, bind, Except.bind, pure, Except.pure, Except.ok.injEq] at hr
  subst hr
  have hfind := hs'.held ⟨0, p, frame⟩ List.mem_cons_self
  have hnext : pool.diskManager.nextPageId = s.pool.diskManager.nextPageId := by
    rcases fetchPage_cases h.inv p with ⟨tar, -, hr⟩ | ⟨-, hr, -⟩ | ⟨-, tar, b, victim, hr⟩ <;>
      rw [hr] at hfetch <;> cases hfetch
    · rfl
    · change (b.writeBack frame).diskManager.nextPageId = _
      rw [writeBack_nextPageId, victim.diskManager]
  have stored := hs'.stored p ⟨live.1, hnext ▸ live.2.1, live.2.2⟩
  unfold Stored at stored
  rw [hfind] at stored
  exact stored.1

/-- Over any run in which the clients keep to the protocol and fetch only pages that `NewPage`
returned, the pool never faults and every `FetchPage` of a live page returns the bytes the clients
last left there, as long as page ids and pin counts stay below 2^31. -/
theorem run_fetchesContent {s : Session n}
    (h : Run (fun s call => s.Legal call ∧ s.FetchesAllocated call) s) :
    s.FetchesContent ∧ ∀ call, s.Legal call → s.FetchesAllocated call →
      ∃ s', s.step call = .ok s' := by
  have refines := refines_of_run h
  refine ⟨refines.fetchesContent, fun call legal allocated => ?_⟩
  obtain ⟨s', hs, -⟩ := refines_step refines legal allocated
  exact ⟨s', hs⟩

/-! ### Runs that evaluate -/

instance decidableLegal (s : Session n) : (call : Call) → Decidable (s.Legal call)
  | .newPage _ => inferInstanceAs (Decidable True)
  | .fetchPage _ _ => inferInstanceAs (Decidable True)
  | .unpinPage _ _ _ => inferInstanceAs (Decidable (_ ∧ _))
  | .flushPage _ => inferInstanceAs (Decidable True)
  | .deletePage _ => inferInstanceAs (Decidable True)
  | .store _ _ _ => inferInstanceAs (Decidable (_ ≠ _))

instance decidableFetchesAllocated (s : Session n) :
    (call : Call) → Decidable (s.FetchesAllocated call)
  | .newPage _ => inferInstanceAs (Decidable True)
  | .fetchPage _ _ => inferInstanceAs (Decidable (_ ∧ _))
  | .unpinPage _ _ _ => inferInstanceAs (Decidable True)
  | .flushPage _ => inferInstanceAs (Decidable True)
  | .deletePage _ => inferInstanceAs (Decidable True)
  | .store _ _ _ => inferInstanceAs (Decidable True)

/-- The session after a list of calls, if all of them are allowed and return. -/
def exec (allowed : Session n → Call → Prop) [∀ s call, Decidable (allowed s call)] :
    List Call → Session n → Option (Session n)
  | [], s => some s
  | call :: rest, s =>
    if allowed s call then
      match s.step call with
      | .ok s' => exec allowed rest s'
      | .error _ => none
    else none

theorem run_of_exec {allowed : Session n → Call → Prop} [∀ s call, Decidable (allowed s call)] :
    ∀ {calls : List Call} {s s' : Session n}, Run allowed s → exec allowed calls s = some s' →
      Run allowed s'
  | [], s, s', hs, h => by
    simp only [exec, Option.some.injEq] at h
    exact h ▸ hs
  | call :: rest, s, s', hs, h => by
    simp only [exec] at h
    split_ifs at h with ha
    cases hr : s.step call with
    | error e => simp [hr] at h
    | ok s₁ =>
      rw [hr] at h
      exact run_of_exec (Run.step hs ha hr) h

/-- The session an evaluated run ends in. -/
theorem run_exec_get {allowed : Session n → Call → Prop} [∀ s call, Decidable (allowed s call)]
    {calls : List Call} (h : (exec allowed calls (new n)).isSome) :
    Run allowed ((exec allowed calls (new n)).get h) :=
  run_of_exec .new (Option.some_get h).symm

/-- One frame: page 0 is changed, given back dirty and evicted by page 1. -/
def evictedPage : List Call :=
  [.newPage 0, .store 0 0 (Mem.write Mem.zero 0 [7]), .unpinPage 0 0 true, .newPage 0]

theorem run_fetchesContent_evicted :
    ∃ s : Session 1, (s.content 0).get 0 = 7 ∧ s.pool.pageTable.find 0 = none ∧
      s.FetchesContent :=
  ⟨(exec (fun s call => s.Legal call ∧ s.FetchesAllocated call) evictedPage (new 1)).get
    (by decide), by decide, by decide, (run_fetchesContent (run_exec_get (by decide))).1⟩

/-- Client 0 fetches page 0 before `NewPage` hands that id to client 1. -/
def fetchedTooEarly : List Call :=
  [.fetchPage 0 0, .newPage 1, .store 1 0 (Mem.write Mem.zero 0 [7]), .unpinPage 1 0 true]

def fetchedTooEarlySession : Session 2 := (exec Legal fetchedTooEarly (new 2)).get (by decide)

/-- The protocol alone does not suffice: the page table keeps the frame of the early fetch, so the
bytes client 1 leaves in its own frame are not found. -/
theorem not_fetchesContent_of_legal :
    ¬ ∀ (n : ℕ) (s : Session n), Run Legal s → s.FetchesContent := by
  intro h
  have found := h 2 fetchedTooEarlySession (run_exec_get (by decide)) 0
    ((fetchedTooEarlySession.fetched 0).get (by decide)) ⟨by decide, by decide, by decide⟩
    (Option.some_get _).symm
  exact absurd (congrArg (fun m : PageData => m.get 0) found) (by decide)

end Session

end ScuDb
