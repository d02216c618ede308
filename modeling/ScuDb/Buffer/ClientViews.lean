import ScuDb.Buffer.PoolClients
import ScuDb.Buffer.Session

/-!
# Pages behind pointers are pages by their ids

A client that keeps to the protocol holds pointers to the frames of its pages, and the pool and its
disk store the bytes it left in them.  So every call returns what it returns when pages are looked
up by their ids, whatever was evicted meanwhile.
-/

namespace ScuDb

open ByteMem

namespace Machine

open BufferPoolManager Stateful

variable {n : ℕ} {s s' : ClientPool} {m m' : Machine n (BufferPoolManager n)} {p : PageId} {f : Fin n}

/-- What the client did, and the pool it did it to. -/
def session (s : ClientPool) (m : Machine n (BufferPoolManager n)) : Session n where
  pool := m.pool
  held := m.pins.map fun q => ⟨0, q.1, q.2⟩
  changed client p := client = 0 ∧ s.pool.changed p = true
  content := s.pool.content
  deleted := s.deleted

/-- The pool stores the pages, and the pins and latches are those of the client. -/
structure Views (s : ClientPool) (m : Machine n (BufferPoolManager n)) : Prop where
  refines : (session s m).Refines
  frames : s.pool.frames = some n
  next : s.pool.nextPageId = m.pool.diskManager.nextPageId
  ids : s.pool.nextPageId ≤ 2147483647
  pinned : s.pool.pinned = (m.pins.map Prod.fst : List PageId)
  alive : ∀ p ∈ s.pool.pinned, s.deleted p = false
  deleted : ∀ p, s.deleted p = true → p < s.pool.nextPageId
  latch : ∀ q ∈ m.pins, m.latch q.2 = s.pool.latch q.1
  unlatched : ∀ p ∉ s.pool.pinned, s.pool.latch p = {}
  free : ∀ f, (∀ q ∈ m.pins, q.2 ≠ f) → m.latch f = {}

theorem views_new (n : ℕ) : Views (.new n) { pool := .new n } where
  refines := by
    refine ⟨inv_new, ?_, ?_, ?_, ?_, fun _ _ => rfl⟩
    · intro pin h
      cases h
    · intro p f h
      cases h
    · intro c p h
      simp [session, ClientPool.new] at h
    · intro p live
      exact absurd (lt_of_le_of_lt live.1 live.2.1) (lt_irrefl 0)
  frames := rfl
  next := rfl
  ids := by
    change (0 : ℤ) ≤ 2147483647
    norm_num
  pinned := rfl
  alive p h := by simp [ClientPool.new] at h
  deleted p h := by cases h
  latch q h := by cases h
  unlatched _ _ := rfl
  free _ _ := rfl

theorem Views.find (v : Views s m) {q : PageId × Fin n} (mem : q ∈ m.pins) :
    m.pool.pageTable.find q.1 = some q.2 :=
  v.refines.held ⟨0, q.1, q.2⟩ (List.mem_map_of_mem mem)

theorem Views.exists_pin (v : Views s m) (mem : p ∈ s.pool.pinned) : ∃ f, (p, f) ∈ m.pins := by
  rw [v.pinned, Multiset.mem_coe, List.mem_map] at mem
  obtain ⟨⟨q, f⟩, mem, rfl⟩ := mem
  exact ⟨f, mem⟩

theorem Views.mem_pinned (v : Views s m) {q : PageId × Fin n} (mem : q ∈ m.pins) :
    q.1 ∈ s.pool.pinned := by
  rw [v.pinned, Multiset.mem_coe]
  exact List.mem_map_of_mem mem

/-- The pin count of a resident page is the number of pins the client holds. -/
theorem Views.pinCount (v : Views s m) (found : m.pool.pageTable.find p = some f) :
    (m.pool.pages f).pinCount = s.pool.pinned.count p := by
  rw [show (m.pool.pages f).pinCount = _ from v.refines.pins p f found, v.pinned,
    Multiset.coe_count, List.count, List.countP_map]
  simp only [session, List.countP_map]
  norm_cast

/-- No frame can be had exactly when every frame is pinned. -/
theorem Views.full_iff (v : Views s m) : s.pool.full = true ↔ ∀ f, 0 < (m.pool.pages f).pinCount := by
  have inv : Inv m.pool := v.refines.inv
  have pins (p : PageId) (hp : p ∈ s.pool.pinned) :
      ∃ f, m.pool.pageTable.find p = some f ∧ 0 < (m.pool.pages f).pinCount := by
    obtain ⟨f, mem⟩ := v.exists_pin hp
    refine ⟨f, v.find mem, ?_⟩
    rw [v.pinCount (v.find mem)]
    exact_mod_cast Multiset.count_pos.2 hp
  have full : s.pool.full = true ↔ n ≤ s.pool.pinned.toFinset.card := by
    simp [PagePool.full, v.frames]
  rw [full]
  constructor
  · intro many f
    by_contra unpinned
    -- the pinned pages lie in the other frames
    have card : s.pool.pinned.toFinset.card ≤ (Finset.univ.erase f).card := by
      refine Finset.card_le_card_of_injOn (fun p => (m.pool.pageTable.find p).getD f) ?_ ?_
      · intro p hp
        obtain ⟨g, found, pinned⟩ := pins p (Multiset.mem_toFinset.1 hp)
        simp only [found, Option.getD_some]
        refine Finset.mem_coe.2 (Finset.mem_erase.2 ⟨?_, Finset.mem_univ g⟩)
        rintro rfl
        exact unpinned pinned
      · intro p hp q hq same
        obtain ⟨g, found, -⟩ := pins p (Multiset.mem_toFinset.1 hp)
        obtain ⟨g', found', -⟩ := pins q (Multiset.mem_toFinset.1 hq)
        simp only [found, found', Option.getD_some] at same
        subst same
        exact (inv.valid_of_find found).1.symm.trans (inv.valid_of_find found').1
    rw [Finset.card_erase_of_mem (Finset.mem_univ f), Finset.card_univ, Fintype.card_fin] at card
    have := f.pos
    omega
  · intro all
    have valid (f : Fin n) : (m.pool.pages f).pageId ≠ invalidPageId := by
      intro e
      have := (inv.freeClean f ((inv.free f).2 e)).1
      have := all f
      omega
    have card : (Finset.univ : Finset (Fin n)).card ≤ s.pool.pinned.toFinset.card := by
      refine Finset.card_le_card_of_injOn (fun f => (m.pool.pages f).pageId) ?_ ?_
      · intro f _
        have found := (inv.table (m.pool.pages f).pageId f).2 ⟨rfl, valid f⟩
        have := all f
        rw [v.pinCount found] at this
        exact Finset.mem_coe.2 (Multiset.mem_toFinset.2 (Multiset.count_pos.1 (by exact_mod_cast this)))
      · exact fun f _ g _ same => inv.injective f g same (valid f)
    rwa [Finset.card_univ, Fintype.card_fin] at card

/-! ### A new pin -/

theorem request_ok {P : Type} {h : Script.Handler (@Request.Reply n) P Fault} {r : Request n}
    {a : r.Reply} {m : Machine n P} {pool : P} (run : h r m.pool = .ok (a, pool)) :
    request h r m = .ok (a, { m with pool := pool }) := by
  unfold request
  rw [run]
  rfl

theorem fetchPage_next {b b' : BufferPoolManager n} (h : Inv b) {r : Option (Fin n)}
    (run : b.fetchPage p = .ok (r, b')) :
    b'.diskManager.nextPageId = b.diskManager.nextPageId := by
  rcases fetchPage_cases h p with ⟨tar, -, hr⟩ | ⟨-, hr, -⟩ | ⟨-, tar, b₁, victim, hr⟩ <;>
    rw [hr] at run <;> cases run
  · rfl
  · rfl
  · change (b₁.writeBack tar).diskManager.nextPageId = _
    rw [writeBack_nextPageId, victim.diskManager]

theorem newPage_next {b b' : BufferPoolManager n} (h : Inv b) {q : PageId × Fin n}
    (run : b.newPage = .ok (some q, b')) :
    b'.diskManager.nextPageId = b.diskManager.nextPageId + 1 := by
  rcases newPage_cases h with ⟨hr, -⟩ | ⟨tar, b₁, victim, hr⟩ <;> rw [hr] at run <;> cases run
  change (BufferPoolManager.writeBack { b₁ with diskManager := b₁.diskManager.allocatePage.2 }
    tar).diskManager.nextPageId = _
  rw [writeBack_nextPageId, ← victim.diskManager]
  rfl

/-- The client gets a pointer to a page it did not have, or another one to a page it has. -/
theorem Views.pin (v : Views s m) {pool : BufferPoolManager n}
    (refines : (session s' { m with pool := pool, pins := (p, f) :: m.pins }).Refines)
    (frames : s'.pool.frames = s.pool.frames) (next : s'.pool.nextPageId = pool.diskManager.nextPageId)
    (ids : s'.pool.nextPageId ≤ 2147483647) (more : s.pool.nextPageId ≤ s'.pool.nextPageId)
    (pinned : s'.pool.pinned = p ::ₘ s.pool.pinned) (deleted : s'.deleted = s.deleted)
    (alive : s.deleted p = false) (latch : s'.pool.latch = s.pool.latch) :
    Views s' { m with pool := pool, pins := (p, f) :: m.pins } := by
  have found {q : PageId × Fin n} (mem : q ∈ (p, f) :: m.pins) :
      pool.pageTable.find q.1 = some q.2 := refines.held ⟨0, q.1, q.2⟩ (List.mem_map_of_mem mem)
  have inv : Inv pool := refines.inv
  have here : pool.pageTable.find p = some f := found List.mem_cons_self
  refine ⟨refines, frames.trans v.frames, next, ids, ?_, ?_, ?_, ?_, ?_, ?_⟩
  · rw [pinned, v.pinned]
    rfl
  · intro q hq
    rw [pinned, Multiset.mem_cons] at hq
    rw [deleted]
    rcases hq with rfl | hq
    · exact alive
    · exact v.alive q hq
  · intro q hq
    exact (v.deleted q (deleted ▸ hq)).trans_le more
  · intro q mem
    rw [latch]
    rcases List.mem_cons.1 mem with rfl | old
    · by_cases hp : p ∈ s.pool.pinned
      · obtain ⟨g, mem⟩ := v.exists_pin hp
        have same : g = f :=
          Option.some.inj ((found (List.mem_cons_of_mem _ mem)).symm.trans here)
        exact same ▸ v.latch _ mem
      · rw [v.unlatched p hp]
        refine v.free f fun q mem same => hp ?_
        have there := found (List.mem_cons_of_mem _ mem)
        rw [same] at there
        rw [← (inv.valid_of_find here).1, (inv.valid_of_find there).1]
        exact v.mem_pinned mem
    · exact v.latch q old
  · intro q hq
    rw [pinned, Multiset.mem_cons, not_or] at hq
    rw [latch]
    exact v.unlatched q hq.2
  · intro g hg
    exact v.free g fun q mem => hg q (List.mem_cons_of_mem _ mem)

/-- A page with an unpinned frame, or another page when some frame is unpinned, can be fetched. -/
theorem Views.fetched (v : Views s m) {r : Option (Fin n)} {pool : BufferPoolManager n}
    (run : m.pool.fetchPage p = .ok (r, pool)) :
    (r = none ∧ pool = m.pool ∧ s.pool.full = true ∧ p ∉ s.pool.pinned) ∨
      (∃ f, r = some f) ∧ ¬ (s.pool.full = true ∧ p ∉ s.pool.pinned) := by
  rcases fetchPage_cases v.refines.inv p with ⟨tar, found, hr⟩ | ⟨absent, hr, all⟩ |
      ⟨-, tar, b, victim, hr⟩ <;>
    rw [show m.pool.fetchPage p = _ from hr] at run <;> cases run
  · refine .inr ⟨⟨tar, rfl⟩, ?_⟩
    rintro ⟨full, hp⟩
    have pinned := v.full_iff.1 full tar
    rw [v.pinCount found, Multiset.count_eq_zero.2 hp] at pinned
    exact absurd pinned (lt_irrefl _)
  · refine .inl ⟨rfl, rfl, v.full_iff.2 all, fun hp => ?_⟩
    obtain ⟨f, mem⟩ := v.exists_pin hp
    have found := v.find mem
    rw [show m.pool.pageTable.find (p, f).1 = none from absent] at found
    cases found
  · refine .inr ⟨⟨tar, rfl⟩, ?_⟩
    rintro ⟨full, -⟩
    have pinned := v.full_iff.1 full tar
    rw [show (m.pool.pages tar).pinCount = 0 from victim.unpinned] at pinned
    exact absurd pinned (lt_irrefl _)

variable {r : Bool}

theorem Views.fetchPage (v : Views s m) (legal : ClientPool.Protocol s (.fetchPage p))
    (run : ClientPool.handle (.fetchPage p) s = .ok (r, s')) :
    ∃ m', handle BufferPoolManager.handle (.fetchPage p) m = .ok (r, m') ∧ Views s' m' := by
  obtain ⟨pool₁, ran, rfl⟩ := ClientPool.of_fetchPage run
  obtain ⟨lo, hi, alive⟩ := legal
  obtain ⟨t, stepped, refines⟩ := v.refines.fetchPage 0 lo (v.next ▸ hi)
  obtain ⟨frame, pool, fetched⟩ : ∃ frame pool, m.pool.fetchPage p = .ok (frame, pool) := by
    rcases fetchPage_cases v.refines.inv p with ⟨_, _, hr⟩ | ⟨_, hr, _⟩ | ⟨_, _, _, _, hr⟩
    all_goals exact ⟨_, _, hr⟩
  unfold PagePool.fetchPage at ran
  rcases v.fetched fetched with ⟨rfl, rfl, busy⟩ | ⟨⟨f, rfl⟩, free⟩
  · rw [if_pos busy] at ran
    cases ran
    have asked : request BufferPoolManager.handle (.fetchPage p) m = .ok (none, m) :=
      request_ok fetched
    exact ⟨m, bind_ok asked, v⟩
  · rw [if_neg free] at ran
    cases ran
    rw [Session.step, show (session s m).pool.fetchPage p = _ from fetched] at stepped
    cases stepped
    have next := (fetchPage_next v.refines.inv fetched).trans v.next.symm
    have asked : request BufferPoolManager.handle (.fetchPage p) m =
        .ok (some f, { m with pool := pool }) := request_ok fetched
    exact ⟨_, bind_ok asked, v.pin refines rfl next.symm v.ids le_rfl rfl rfl alive rfl⟩

theorem Views.newPage_fresh (v : Views s m) :
    s.pool.changed s.pool.nextPageId = false ∧ s.deleted s.pool.nextPageId = false ∧
      m.pool.pageTable.find s.pool.nextPageId = none := by
  have absent : m.pool.pageTable.find s.pool.nextPageId = none := by
    rw [v.next]
    exact v.refines.inv.absent_next
  refine ⟨?_, ?_, absent⟩
  · rw [← Bool.not_eq_true]
    intro changed
    have held := v.refines.changed 0 s.pool.nextPageId (by simpa [session] using changed)
    obtain ⟨q, mem⟩ := List.exists_mem_of_ne_nil _ held
    have found := (v.refines.find_of_pinsOf mem).2.2.2
    rw [show (session s m).pool.pageTable.find s.pool.nextPageId = none from absent] at found
    cases found
  · rw [← Bool.not_eq_true]
    intro deleted
    exact absurd (v.deleted _ deleted) (lt_irrefl _)

theorem Views.newPage (v : Views s m) {r : Option PageId}
    (run : ClientPool.handle .newPage s = .ok (r, s')) :
    ∃ m', handle BufferPoolManager.handle .newPage m = .ok (r, m') ∧ Views s' m' := by
  obtain ⟨pool₁, ran, rfl⟩ := ClientPool.of_newPage run
  obtain ⟨t, stepped, refines⟩ := v.refines.newPage 0
  obtain ⟨unchanged, present, -⟩ := v.newPage_fresh
  unfold PagePool.newPage at ran
  rcases newPage_cases v.refines.inv with ⟨hr, all⟩ | ⟨tar, b, victim, hr⟩
  · rw [if_pos (v.full_iff.2 all)] at ran
    cases ran
    have asked : request BufferPoolManager.handle .newPage m = .ok (none, m) := request_ok hr
    exact ⟨m, bind_ok asked, v⟩
  · have free : ¬ s.pool.full = true := by
      intro full
      have pinned := v.full_iff.1 full tar
      rw [show (m.pool.pages tar).pinCount = 0 from victim.unpinned] at pinned
      exact absurd pinned (lt_irrefl _)
    rw [if_neg free] at ran
    split_ifs at ran with room
    cases ran
    have next := newPage_next v.refines.inv hr
    generalize BufferPoolManager.occupy _ tar _ _ = pool at hr next
    rw [Session.step, hr] at stepped
    cases stepped
    have asked : request BufferPoolManager.handle .newPage m =
        .ok (some (s.pool.nextPageId, tar), { m with pool := pool }) := by
      rw [v.next]
      exact request_ok hr
    have clean : Function.update s.pool.changed s.pool.nextPageId false = s.pool.changed := by
      rw [← unchanged, Function.update_eq_self]
    have kept : Function.update s.deleted s.pool.nextPageId false = s.deleted := by
      rw [← present, Function.update_eq_self]
    refine ⟨_, bind_ok asked, v.pin ?_ rfl ?_ (Int.add_one_le_of_lt room) (by simp) rfl rfl present
      rfl⟩
    · simp only [session, ← v.next, kept] at refines
      simp only [session, clean]
      exact refines
    · rw [next]
      exact congrArg (· + 1) v.next

/-! ### A pin less -/

theorem length_pinsOf (v : Views s m) (p : PageId) :
    ((session s m).pinsOf 0 p).length = s.pool.pinned.count p := by
  rw [v.pinned, Multiset.coe_count, List.count, List.countP_map, Session.pinsOf,
    ← List.countP_eq_length_filter]
  simp only [session, List.countP_map]
  apply List.countP_congr
  simp

theorem Views.pointer (v : Views s m) (mem : p ∈ s.pool.pinned) :
    ∃ f, m.pool.pageTable.find p = some f ∧ (p, f) ∈ m.pins ∧
      Machine.pointer p m = .ok (f, m) := by
  obtain ⟨g, held⟩ := v.exists_pin mem
  cases hf : m.pins.find? fun q => q.1 = p with
  | none =>
    have := List.find?_eq_none.1 hf (p, g) held
    simp at this
  | some q =>
    obtain ⟨q, f⟩ := q
    have here := List.mem_of_find?_eq_some hf
    obtain rfl : q = p := by simpa using List.find?_some hf
    refine ⟨f, v.find here, here, ?_⟩
    unfold Machine.pointer
    rw [hf]

theorem session_eraseP (s : ClientPool) (m : Machine n (BufferPoolManager n)) (p : PageId) :
    ((session s m).held.eraseP fun q => q.client = 0 ∧ q.pageId = p) =
      (m.pins.eraseP fun q => q.1 = p).map fun q => ⟨0, q.1, q.2⟩ := by
  unfold session
  rw [List.eraseP_map]
  congr 2
  funext q
  simp

/-- The client gives a pin back; the last pin on a page goes without a latch. -/
theorem Views.unpin (v : Views s m) {pool : BufferPoolManager n}
    (refines : (session s' { m with
      pool := pool, pins := m.pins.eraseP fun q => q.1 = p }).Refines)
    (frames : s'.pool.frames = s.pool.frames) (kept : s'.pool.nextPageId = s.pool.nextPageId)
    (next : pool.diskManager.nextPageId = m.pool.diskManager.nextPageId)
    (pinned : s'.pool.pinned = s.pool.pinned.erase p) (deleted : s'.deleted = s.deleted)
    (latch : s'.pool.latch = s.pool.latch)
    (last : s.pool.pinned.count p = 1 → s.pool.latch p = {}) :
    Views s' { m with pool := pool, pins := m.pins.eraseP fun q => q.1 = p } := by
  have rest : s.pool.pinned.erase p = ((m.pins.eraseP fun q => q.1 = p).map Prod.fst :) := by
    rw [v.pinned, Multiset.coe_erase, List.erase_eq_eraseP', List.eraseP_map]
    congr 3
  have unlatched : ∀ q ∉ s.pool.pinned.erase p, s.pool.latch q = {} := by
    intro q hq
    by_cases held : q ∈ s.pool.pinned
    · have same : q = p := by
        by_contra other
        exact hq ((Multiset.mem_erase_of_ne other).2 held)
      subst same
      have once := Multiset.count_eq_zero.2 hq
      rw [Multiset.count_erase_self] at once
      have := Multiset.count_pos.2 held
      exact last (by omega)
    · exact v.unlatched q held
  refine ⟨refines, frames.trans v.frames, ?_, kept ▸ v.ids, pinned.trans rest, ?_, ?_, ?_, ?_, ?_⟩
  · rw [kept, v.next]
    exact next.symm
  · intro q hq
    rw [deleted]
    exact v.alive q (Multiset.mem_of_mem_erase (pinned ▸ hq))
  · intro q hq
    rw [kept]
    exact v.deleted q (deleted ▸ hq)
  · intro q mem
    rw [latch]
    exact v.latch q (List.mem_of_mem_eraseP mem)
  · rw [pinned, latch]
    exact unlatched
  · intro g out
    by_cases was : ∃ q ∈ m.pins, q.2 = g
    · -- the pin that went was the last one on its page
      obtain ⟨q, mem, rfl⟩ := was
      change m.latch q.2 = {}
      rw [v.latch q mem]
      refine unlatched q.1 fun again => ?_
      rw [rest, Multiset.mem_coe, List.mem_map] at again
      obtain ⟨r, there, same⟩ := again
      refine out r there ?_
      have found := v.find (List.mem_of_mem_eraseP there)
      rw [same, v.find mem] at found
      exact (Option.some.inj found).symm
    · exact v.free g fun q mem same => was ⟨q, mem, same⟩

theorem Views.unpinPage (v : Views s m) {isDirty : Bool}
    (legal : ClientPool.Protocol s (.unpinPage p isDirty))
    (run : ClientPool.handle (.unpinPage p isDirty) s = .ok ((), s')) :
    ∃ m', handle BufferPoolManager.handle (.unpinPage p isDirty) m = .ok ((), m') ∧
      Views s' m' := by
  obtain ⟨pool₁, ran, rfl⟩ := ClientPool.of_unpinPage run
  unfold PagePool.unpinPage at ran
  by_cases held : p ∉ s.pool.pinned
  · rw [if_pos held] at ran
    cases ran
  by_cases lost : s.pool.changed p ∧ ¬ isDirty ∧ s.pool.pinned.count p = 1
  · rw [if_neg held, if_pos lost] at ran
    cases ran
  rw [if_neg held, if_neg lost] at ran
  cases ran
  rw [not_not] at held
  obtain ⟨f, found, -, -⟩ := v.pointer held
  have positive := Multiset.count_pos.2 held
  have pinned : 0 < (m.pool.pages f).pinCount := by
    rw [v.pinCount found]
    exact_mod_cast positive
  have allowed : (session s m).Legal (.unpinPage 0 p isDirty) := by
    refine ⟨?_, fun last changed => ?_⟩
    · rw [← List.length_pos_iff, length_pinsOf v]
      exact positive
    · rw [length_pinsOf v] at last
      by_contra clean
      exact lost ⟨by simpa [session] using changed, clean, last⟩
  obtain ⟨t, stepped, refines⟩ := v.refines.unpinPage allowed
  have unpinned := unpinPage_of_pinned found pinned isDirty
  rw [Session.step, show (session s m).pool.unpinPage p isDirty = _ from unpinned] at stepped
  cases stepped
  have asked : request BufferPoolManager.handle (.unpinPage p isDirty) m =
      .ok (true, { m with pool := m.pool.unpin f isDirty }) := request_ok unpinned
  refine ⟨_, bind_ok asked, v.unpin ?_ rfl rfl rfl rfl rfl rfl legal⟩
  rw [session_eraseP] at refines
  convert refines using 1
  unfold session
  congr 1
  funext client q
  cases isDirty with
  | false => rfl
  | true =>
    simp only [Function.update_apply, if_true]
    by_cases hc : client = 0 <;> by_cases hq : q = p <;> simp [hc, hq]

/-- A page given back as dirty is dirty in its frame. -/
theorem Views.dirty_unpin (v : Views s m) (held : p ∈ s.pool.pinned)
    (run : handle BufferPoolManager.handle (.unpinPage p true) m = .ok ((), m')) :
    ∃ f, (m'.pool.pages f).pageId = p ∧ (m'.pool.pages f).isDirty = true := by
  obtain ⟨f, found, -, -⟩ := v.pointer held
  have inv : Inv m.pool := v.refines.inv
  have pinned : 0 < (m.pool.pages f).pinCount := by
    rw [v.pinCount found]
    exact_mod_cast Multiset.count_pos.2 held
  have unpinned := unpinPage_of_pinned found pinned true
  have asked : request BufferPoolManager.handle (.unpinPage p true) m =
      .ok (true, { m with pool := m.pool.unpin f true }) := request_ok unpinned
  have ran := (Stateful.bind_ok asked).symm.trans run
  cases ran
  refine ⟨f, ?_⟩
  have page := Function.update_self f { m.pool.pages f with
    isDirty := (m.pool.pages f).isDirty || true
    pinCount := (m.pool.pages f).pinCount - 1 } m.pool.pages
  change (Function.update m.pool.pages f _ f).pageId = p ∧ (Function.update m.pool.pages f _ f).isDirty = _
  rw [page]
  exact ⟨(inv.valid_of_find found).1, Bool.or_true _⟩

/-! ### The other calls -/

/-- The bytes of a deleted page are not looked at. -/
theorem refines_congr {t t' : Session n} (h : t.Refines) (pool : t'.pool = t.pool)
    (held : t'.held = t.held) (changed : t'.changed = t.changed)
    (deleted : ∀ p, t'.deleted p = false → t.deleted p = false)
    (content : ∀ p, t'.deleted p = false → t'.content p = t.content p) : t'.Refines where
  inv := pool ▸ h.inv
  held := by
    rw [held, pool]
    exact h.held
  pins := by
    rw [held, pool]
    exact h.pins
  changed := by
    unfold Session.pinsOf
    rw [held, changed]
    exact h.changed
  stored := by
    intro q live
    have stored := h.stored q ⟨live.1, pool ▸ live.2.1, deleted q live.2.2⟩
    unfold Session.Stored at stored ⊢
    rw [pool, changed, content q live.2.2]
    exact stored
  fresh := by
    rw [pool]
    exact h.fresh

theorem Views.deletePage (v : Views s m) (legal : ClientPool.Protocol s (.deletePage p))
    (run : ClientPool.handle (.deletePage p) s = .ok (r, s')) :
    ∃ m', handle BufferPoolManager.handle (.deletePage p) m = .ok (r, m') ∧ Views s' m' := by
  obtain ⟨t, stepped, refines⟩ := v.refines.deletePage p
  have absent_or : p ∈ s.pool.pinned ∧ m.pool.deletePage p = (false, m.pool) ∨
      p ∉ s.pool.pinned ∧ ∃ pool, m.pool.deletePage p = (true, pool) ∧
        pool.diskManager.nextPageId = m.pool.diskManager.nextPageId := by
    rcases deletePage_cases v.refines.inv p with ⟨absent, hr⟩ | ⟨f, found, ⟨pinned, hr⟩ | ⟨unpinned, hr⟩⟩
    · refine .inr ⟨fun held => ?_, _, hr, rfl⟩
      obtain ⟨f, found, -, -⟩ := v.pointer held
      rw [show m.pool.pageTable.find p = none from absent] at found
      cases found
    · refine .inl ⟨?_, hr⟩
      have positive : 0 < (m.pool.pages f).pinCount := pinned
      rw [v.pinCount found] at positive
      exact Multiset.count_pos.1 (by exact_mod_cast positive)
    · refine .inr ⟨fun held => ?_, _, hr, rfl⟩
      have count := v.pinCount found
      have positive := Multiset.count_pos.2 held
      have : (m.pool.pages f).pinCount = 0 := unpinned
      omega
  obtain ⟨pool₁, ran, rfl⟩ := ClientPool.of_deletePage run
  unfold PagePool.deletePage at ran
  rcases absent_or with ⟨held, hr⟩ | ⟨absent, pool, hr, next⟩
  · rw [if_pos held] at ran
    cases ran
    have asked : handle BufferPoolManager.handle (.deletePage p) m = .ok (false, m) :=
      request_ok (congrArg Except.ok hr)
    exact ⟨m, asked, v⟩
  · rw [if_neg absent] at ran
    cases ran
    have asked : handle BufferPoolManager.handle (.deletePage p) m =
        .ok (true, { m with pool := pool }) := request_ok (congrArg Except.ok hr)
    rw [Session.step, show (session s m).pool.deletePage p = _ from hr] at stepped
    cases stepped
    refine ⟨_, asked, ?_, v.frames, v.next.trans next.symm, v.ids, v.pinned, ?_, ?_, v.latch,
      v.unlatched, v.free⟩
    · refine refines_congr refines rfl rfl rfl (fun q alive => alive) fun q alive => ?_
      by_cases same : q = p
      · subst same
        simp [session] at alive
      · exact Function.update_of_ne same _ _
    · intro q held
      have other : q ≠ p := by
        rintro rfl
        exact absent held
      exact (Function.update_of_ne other _ _).trans (v.alive q held)
    · intro q gone
      by_cases same : q = p
      · exact same ▸ legal.2
      · exact v.deleted q ((Function.update_of_ne same _ _).symm.trans gone)

/-- The page behind a pointer is the page with that id. -/
theorem Views.getPage (v : Views s m) (legal : ClientPool.Protocol s (.getPage p)) {page : PageData}
    (run : ClientPool.handle (.getPage p) s = .ok (page, s')) :
    ∃ m', handle BufferPoolManager.handle (.getPage p) m = .ok (page, m') ∧ Views s' m' := by
  cases run
  obtain ⟨f, found, -, pointer⟩ := v.pointer legal
  obtain ⟨lo, hi⟩ := v.refines.inv.ids f (v.refines.inv.valid_of_find found).2
  rw [(v.refines.inv.valid_of_find found).1] at lo hi
  have stored := v.refines.stored p ⟨lo, hi, v.alive p legal⟩
  unfold Session.Stored at stored
  rw [show (session s m).pool.pageTable.find p = some f from found] at stored
  have asked : request BufferPoolManager.handle (.page f) m = .ok (m.pool.pages f, m) := rfl
  refine ⟨m, ?_, v⟩
  change (Machine.pointer p >>= _) m = _
  rw [bind_ok pointer]
  refine (bind_ok asked).trans ?_
  exact congrArg (fun page => Except.ok (page, m)) stored.1

theorem Views.setPage (v : Views s m) {page : PageData}
    (legal : ClientPool.Protocol s (.setPage p page))
    (run : ClientPool.handle (.setPage p page) s = .ok ((), s')) :
    ∃ m', handle BufferPoolManager.handle (.setPage p page) m = .ok ((), m') ∧ Views s' m' := by
  cases run
  obtain ⟨f, found, -, pointer⟩ := v.pointer legal
  have held : (session s m).pinsOf 0 p ≠ [] := by
    rw [← List.length_pos_iff, length_pinsOf v]
    exact Multiset.count_pos.2 legal
  obtain ⟨t, stepped, refines⟩ := v.refines.store page held
  obtain ⟨q, rest, pins⟩ := List.exists_cons_of_ne_nil held
  have same : q.frame = f := by
    have there := (v.refines.find_of_pinsOf (pins ▸ List.mem_cons_self : q ∈ _)).2.2.2
    exact Option.some.inj (there.symm.trans found)
  simp only [Session.step, pins] at stepped
  cases stepped
  rw [same] at refines
  have asked : request BufferPoolManager.handle (.store f page) m =
    .ok ((), { m with pool := m.pool.setPage f { m.pool.pages f with data := page } }) := rfl
  refine ⟨_, (bind_ok pointer).trans asked, ?_, v.frames, v.next, v.ids, v.pinned, v.alive,
    v.deleted, v.latch, v.unlatched, v.free⟩
  convert refines using 1
  unfold session
  congr 1
  funext client q
  simp only [Function.update_apply]
  by_cases hc : client = 0 <;> by_cases hq : q = p <;> simp [hc, hq]

/-- The latch of a held page is the latch of its frame. -/
theorem Views.onLatch (v : Views s m) (legal : p ∈ s.pool.pinned)
    {call : Latch → Except Fault Latch} {latch : Latch}
    (run : call (s.pool.latch p) = .ok latch) :
    ∃ m', Machine.onLatch p call m = .ok ((), m') ∧
      Views { s with pool := { s.pool with latch := Function.update s.pool.latch p latch } } m' := by
  obtain ⟨f, found, mem, pointer⟩ := v.pointer legal
  have called : call (m.latch f) = .ok latch := by
    rw [show m.latch f = s.pool.latch p from v.latch (p, f) mem]
    exact run
  refine ⟨{ m with latch := Function.update m.latch f latch }, ?_, v.refines, v.frames, v.next,
    v.ids, v.pinned, v.alive, v.deleted, ?_, ?_, ?_⟩
  · unfold Machine.onLatch
    rw [pointer]
    simp only [bind, Except.bind, called]
    rfl
  · intro q there
    by_cases same : q.1 = p
    · have frame : q.2 = f := by
        have other := v.find there
        rw [same, found] at other
        exact (Option.some.inj other).symm
      simp [same, frame]
    · have frame : q.2 ≠ f := by
        intro e
        have other := v.find there
        rw [e] at other
        exact same ((v.refines.inv.valid_of_find other).1.symm.trans
          (v.refines.inv.valid_of_find found).1)
      simp only [Function.update_of_ne same, Function.update_of_ne frame]
      exact v.latch q there
  · intro q out
    have other : q ≠ p := by
      rintro rfl
      exact out legal
    exact (Function.update_of_ne other _ _).trans (v.unlatched q out)
  · intro g out
    exact (Function.update_of_ne (fun e => out (p, f) mem e.symm) _ _).trans (v.free g out)

theorem of_latchCall {op : PoolM PageData Unit} (p : PageId) (call : Latch → Except Fault Latch)
    (shape : op s.pool = call (s.pool.latch p) >>= fun latch =>
      .ok ((), { s.pool with latch := Function.update s.pool.latch p latch }))
    (run : ClientPool.onPool op s = .ok ((), s')) :
    ∃ latch, call (s.pool.latch p) = .ok latch ∧
      s' = { s with pool := { s.pool with latch := Function.update s.pool.latch p latch } } := by
  obtain ⟨pool, ran, rfl⟩ := ClientPool.of_noting op (fun _ s => s) run
  rw [shape] at ran
  cases hc : call (s.pool.latch p) with
  | error e =>
    rw [hc] at ran
    cases ran
  | ok latch =>
    rw [hc] at ran
    cases ran
    exact ⟨latch, rfl, rfl⟩

/-- Whatever a client that keeps to the protocol asks for, the pool answers as if pages were never
evicted. -/
theorem views_simulates : Script.Simulates ClientPool.handle (handle BufferPoolManager.handle)
    ClientPool.Protocol (Views (n := n)) := by
  intro s m call r s' v legal run
  cases call with
  | fetchPage p => exact v.fetchPage legal run
  | newPage => exact v.newPage run
  | unpinPage p isDirty => exact v.unpinPage legal run
  | deletePage p => exact v.deletePage legal run
  | getPage p => exact v.getPage legal run
  | setPage p page => exact v.setPage legal run
  | rLatch p =>
    obtain ⟨latch, locked, rfl⟩ := of_latchCall p Latch.rLock (by
      unfold PagePool.rLatch Latch.rLock
      split_ifs <;> rfl) run
    exact v.onLatch legal locked
  | wLatch p =>
    obtain ⟨latch, locked, rfl⟩ := of_latchCall p Latch.wLock (by
      unfold PagePool.wLatch Latch.wLock
      split_ifs <;> rfl) run
    exact v.onLatch legal locked
  | rUnlatch p =>
    obtain ⟨latch, unlocked, rfl⟩ := of_latchCall p Latch.rUnlock (by
      unfold PagePool.rUnlatch Latch.rUnlock
      split_ifs <;> rfl) run
    exact v.onLatch legal unlocked
  | wUnlatch p =>
    obtain ⟨latch, unlocked, rfl⟩ := of_latchCall p Latch.wUnlock rfl run
    exact v.onLatch legal unlocked

end Machine

end ScuDb
