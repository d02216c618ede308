import ScuDb.Buffer.ClientViews

/-!
# Clients of the pool on its members

The pool on its hash table, its linked nodes and a disk that needs care: a page can be read back only
after it, or a later one, was written.  A client that gives every new page back as dirty first never
makes the pool read another page.
-/

namespace ScuDb

open ByteMem BufferPoolManager

/-- A page that `NewPage` returned and that was not deleted. -/
def ClientPool.Live (s : ClientPool) (p : PageId) : Prop :=
  0 ≤ p ∧ p < s.pool.nextPageId ∧ s.deleted p = false

/-- The pages that are as safe after a call as before. -/
def PoolCall.Keeps : (call : PoolCall) → call.Reply → PageId → Prop
  | .deletePage p => fun (r : Bool) q => r = true → q ≠ p
  | _ => fun _ _ => True

namespace Machine

variable {n : ℕ} [NeZero n] {D : Type} [Disk D] {rules : DiskRules D}
  {m m' : Machine n (BufferPoolManager n)} {c c' : Machine n (HashedPool n D)} {s s' : ClientPool}
  {p : PageId}

/-- The same pointers and latches, and pools whose members hold the same. -/
structure Mirrors (rules : DiskRules D) (m : Machine n (BufferPoolManager n))
    (c : Machine n (HashedPool n D)) : Prop where
  pool : Models rules m.pool c.pool
  pins : c.pins = m.pins
  latch : c.latch = m.latch

/-- A page that need not be read from a disk that does not cover it. -/
def Safe (rules : DiskRules D) (m : Machine n (BufferPoolManager n)) (c : Machine n (HashedPool n D))
    (p : PageId) : Prop := Models.Safe rules m.pool c.pool p

/-- The same reply, the same pointers and latches, and pages of `kept` that are as safe as before. -/
def After (rules : DiskRules D) (m : Machine n (BufferPoolManager n)) (c : Machine n (HashedPool n D))
    {α : Type} (kept : α → PageId → Prop) (x : α × Machine n (BufferPoolManager n))
    (y : α × Machine n (HashedPool n D)) : Prop :=
  x.1 = y.1 ∧ Mirrors rules x.2 y.2 ∧ ∀ p, kept x.1 p → Safe rules m c p → Safe rules x.2 y.2 p

theorem after_bind {α β : Type} {kept : α → PageId → Prop} {kept' : β → PageId → Prop}
    {x : StateT (Machine n (BufferPoolManager n)) (Except Fault) α}
    {y : StateT (Machine n (HashedPool n D)) (Except Fault) α}
    {f : α → StateT (Machine n (BufferPoolManager n)) (Except Fault) β}
    {g : α → StateT (Machine n (HashedPool n D)) (Except Fault) β}
    (h : Agree (After rules m c kept) (x m) (y c))
    (rest : ∀ r m' c', Mirrors rules m' c' → (∀ p, kept r p → Safe rules m c p → Safe rules m' c' p) →
      Agree (After rules m c kept') (f r m') (g r c')) :
    Agree (After rules m c kept') ((x >>= f) m) ((y >>= g) c) := by
  apply Agree.bind h
  rintro ⟨r, m'⟩ ⟨r', c'⟩ ⟨same, mirrors, safe⟩
  obtain rfl : r = r' := same
  exact rest r m' c' mirrors safe

theorem Mirrors.request (h : Mirrors rules m c) (dirty : Models.DirtyInRange rules m.pool)
    (named : Named m.pool) {q : Request n} (backed : q.Backed rules m.pool c.pool) :
    Agree (After rules m c q.Keeps) (Machine.request BufferPoolManager.handle q m)
      (Machine.request HashedPool.handle q c) := by
  unfold Machine.request
  apply (h.pool.request dirty named backed).bind
  rintro ⟨a, pool⟩ ⟨a', pool'⟩ ⟨same, related, safe⟩
  exact .ok ⟨same, ⟨related, h.pins, h.latch⟩, safe⟩

theorem Mirrors.pointer (h : Mirrors rules m c) (p : PageId) :
    Agree (fun x y => x = (y.1, m) ∧ y.2 = c) (Machine.pointer p m) (Machine.pointer p c) := by
  unfold Machine.pointer
  rw [h.pins]
  cases m.pins.find? fun q => q.1 = p with
  | none => exact .error _
  | some q => exact .ok ⟨rfl, rfl⟩

theorem Mirrors.onLatch (h : Mirrors rules m c) (p : PageId) (call : Latch → Except Fault Latch) :
    Agree (After rules m c fun _ _ => True) (Machine.onLatch p call m)
      (Machine.onLatch p call c) := by
  unfold Machine.onLatch
  apply (h.pointer p).bind
  rintro _ ⟨f, _⟩ ⟨rfl, -⟩
  change Agree _ (call (m.latch f) >>= _) (call (c.latch f) >>= _)
  rw [h.latch]
  apply (agree_refl (call (m.latch f))).bind
  rintro latch _ rfl
  exact .ok ⟨rfl, ⟨h.pool, h.pins, rfl⟩, fun _ _ safe => safe⟩

/-- A call finds an id of 32 bits, and its page on the disk if it is not in a frame. -/
def Backed (rules : DiskRules D) (m : Machine n (BufferPoolManager n))
    (c : Machine n (HashedPool n D)) : PoolCall → Prop
  | .fetchPage p => Request.Backed rules m.pool c.pool (.fetchPage p)
  | .newPage => Request.Backed rules m.pool c.pool .newPage
  | _ => True

theorem Mirrors.call (h : Mirrors rules m c) (dirty : Models.DirtyInRange rules m.pool)
    (named : Named m.pool) {call : PoolCall} (backed : Backed rules m c call) :
    Agree (After rules m c call.Keeps) (handle BufferPoolManager.handle call m)
      (handle HashedPool.handle call c) := by
  cases call with
  | fetchPage p =>
    apply after_bind (h.request dirty named (q := .fetchPage p) backed)
    intro r m' c' h safe
    cases r with
    | none => exact .ok ⟨rfl, h, safe⟩
    | some f => exact .ok ⟨rfl, ⟨h.pool, congrArg ((p, f) :: ·) h.pins, h.latch⟩, safe⟩
  | newPage =>
    apply after_bind (h.request dirty named (q := .newPage) backed)
    intro r m' c' h safe
    cases r with
    | none => exact .ok ⟨rfl, h, safe⟩
    | some q => exact .ok ⟨rfl, ⟨h.pool, congrArg (q :: ·) h.pins, h.latch⟩, safe⟩
  | unpinPage p isDirty =>
    apply after_bind (h.request dirty named (q := .unpinPage p isDirty) trivial)
    intro r m' c' h safe
    exact .ok ⟨rfl, ⟨h.pool, congrArg (List.eraseP fun q => q.1 = p) h.pins, h.latch⟩, safe⟩
  | deletePage p => exact h.request dirty named (q := .deletePage p) trivial
  | getPage p =>
    apply (h.pointer p).bind
    rintro _ ⟨f, _⟩ ⟨rfl, rfl⟩
    apply after_bind (h.request dirty named (q := .page f) trivial)
    intro page m' c' h safe
    exact .ok ⟨rfl, h, safe⟩
  | setPage p page =>
    apply (h.pointer p).bind
    rintro _ ⟨f, _⟩ ⟨rfl, rfl⟩
    exact h.request dirty named (q := .store f page) trivial
  | rLatch p => exact h.onLatch p _
  | wLatch p => exact h.onLatch p _
  | rUnlatch p => exact h.onLatch p _
  | wUnlatch p => exact h.onLatch p _

/-! ## The pages on the disk -/

/-- What a client must also do: it takes new pages while their ids are in range, and gives a new page
back as dirty the first time. -/
def Careful (rules : DiskRules D) (s : ClientPool) : PoolCall → Prop
  | .newPage => rules.InRange s.pool.nextPageId
  | .unpinPage p isDirty => s.fresh p = true → isDirty = true
  | _ => True

instance (rules : DiskRules D) [DecidablePred rules.InRange] (s : ClientPool) :
    (call : PoolCall) → Decidable (Careful rules s call)
  | .newPage => inferInstanceAs (Decidable (rules.InRange _))
  | .unpinPage _ _ => inferInstanceAs (Decidable (_ → _))
  | .fetchPage _ => .isTrue trivial
  | .deletePage _ => .isTrue trivial
  | .getPage _ => .isTrue trivial
  | .setPage _ _ => .isTrue trivial
  | .rLatch _ => .isTrue trivial
  | .wLatch _ => .isTrue trivial
  | .rUnlatch _ => .isTrue trivial
  | .wUnlatch _ => .isTrue trivial

/-- The pool and the disk hold the pages of the client. -/
structure Backs (rules : DiskRules D) (s : ClientPool) (m : Machine n (BufferPoolManager n))
    (c : Machine n (HashedPool n D)) : Prop where
  views : Views s m
  mirrors : Mirrors rules m c
  inRange : ∀ p, 0 ≤ p → p < s.pool.nextPageId → rules.InRange p
  fresh : ∀ p, s.fresh p = true → p ∈ s.pool.pinned
  safe : ∀ p, s.Live p → s.fresh p = false → Safe rules m c p

theorem Backs.dirtyInRange (h : Backs rules s m c) : Models.DirtyInRange rules m.pool := by
  intro f dirty
  have inv : Inv m.pool := h.views.refines.inv
  have valid : (m.pool.pages f).pageId ≠ invalidPageId := by
    intro e
    have clean := (inv.freeClean f ((inv.free f).2 e)).2
    rw [clean] at dirty
    cases dirty
  obtain ⟨lo, hi⟩ := inv.ids f valid
  exact h.inRange _ lo (h.views.next ▸ hi)

theorem Backs.named (h : Backs rules s m c) : Named m.pool := by
  intro p f found
  have inv : Inv m.pool := h.views.refines.inv
  exact (inv.valid_of_find found).1

/-- A page that is not in a frame is on the disk. -/
theorem Backs.backed (h : Backs rules s m c) {call : PoolCall}
    (legal : ClientPool.Protocol s call) : Backed rules m c call := by
  have inv : Inv m.pool := h.views.refines.inv
  have ids := h.views.ids
  cases call with
  | fetchPage p =>
    obtain ⟨lo, hi, alive⟩ := legal
    refine ⟨⟨le_trans (by norm_num) lo, (hi.trans_le ids).le⟩, fun absent => ?_⟩
    refine ⟨h.inRange p lo hi, ?_⟩
    have seen : s.fresh p = false := by
      rw [← Bool.not_eq_true]
      intro fresh
      obtain ⟨f, found, -, -⟩ := h.views.pointer (h.fresh p fresh)
      rw [absent] at found
      cases found
    refine (h.safe p ⟨lo, hi, alive⟩ seen).resolve_right ?_
    rintro ⟨f, here, -⟩
    have valid : p ≠ invalidPageId := by
      rintro rfl
      exact absurd lo (by decide)
    have found := (inv.table p f).2 ⟨here, valid⟩
    rw [absent] at found
    cases found
  | newPage =>
    change IsPageId m.pool.diskManager.nextPageId
    have nonneg : 0 ≤ m.pool.diskManager.nextPageId := inv.next
    rw [h.views.next] at ids
    exact ⟨le_trans (by norm_num) nonneg, ids⟩
  | unpinPage p isDirty => trivial
  | deletePage p => trivial
  | getPage p => trivial
  | setPage p page => trivial
  | rLatch p => trivial
  | wLatch p => trivial
  | rUnlatch p => trivial
  | wUnlatch p => trivial

/-! ## One call -/

/-- The ids stay in range, and fresh pages stay pinned. -/
theorem Backs.ghost (h : Backs rules s m c) {call : PoolCall} {r : call.Reply}
    (careful : Careful rules s call) (run : ClientPool.handle call s = .ok (r, s')) :
    (∀ p, 0 ≤ p → p < s'.pool.nextPageId → rules.InRange p) ∧
      ∀ p, s'.fresh p = true → p ∈ s'.pool.pinned := by
  by_cases calm : ClientPool.IsCalm call
  · have same := ClientPool.calm_of_run calm run
    rw [same.next, same.fresh]
    exact ⟨h.inRange, fun p fresh => same.pinned p (h.fresh p fresh)⟩
  cases call with
  | newPage =>
    rcases ClientPool.newPage_result run with ⟨-, rfl⟩ | ⟨-, next, -, fresh, pinned⟩
    · exact ⟨h.inRange, h.fresh⟩
    · rw [next, fresh, pinned]
      refine ⟨fun p lo hi => ?_, fun p new => ?_⟩
      · rcases (Int.lt_add_one_iff.1 hi).lt_or_eq with old | rfl
        · exact h.inRange p lo old
        · exact careful
      · by_cases here : p = s.pool.nextPageId
        · exact here ▸ Multiset.mem_cons_self _ _
        · rw [Function.update_of_ne here] at new
          exact Multiset.mem_cons_of_mem (h.fresh p new)
  | unpinPage q isDirty =>
    obtain ⟨-, next, -, fresh, pinned⟩ := ClientPool.unpinPage_result run
    rw [next, fresh, pinned]
    refine ⟨h.inRange, fun p new => ?_⟩
    have other : p ≠ q ∧ s.fresh p = true := by
      cases isDirty with
      | true =>
        by_cases here : p = q
        · simp [here] at new
        · rw [if_pos rfl, Function.update_of_ne here] at new
          exact ⟨here, new⟩
      | false =>
        refine ⟨?_, new⟩
        rintro rfl
        exact absurd (careful new) (by decide)
    exact (Multiset.mem_erase_of_ne other.1).2 (h.fresh p other.2)
  | deletePage q =>
    obtain ⟨next, fresh, -, pinned⟩ := ClientPool.deletePage_result run
    rw [next, fresh, pinned]
    exact ⟨h.inRange, h.fresh⟩
  | _ => exact absurd trivial calm

/-- A live page that is not fresh was so before, or was given back as dirty just now. -/
theorem live_before {call : PoolCall} {r : call.Reply}
    (run : ClientPool.handle call s = .ok (r, s')) (live : s'.Live p) (seen : s'.fresh p = false) :
    s.Live p ∧ s.fresh p = false ∧ call.Keeps r p ∨ call = .unpinPage p true := by
  obtain ⟨lo, hi, alive⟩ := live
  by_cases calm : ClientPool.IsCalm call
  · have same := ClientPool.calm_of_run calm run
    rw [same.next] at hi
    rw [same.deleted] at alive
    rw [same.fresh] at seen
    refine .inl ⟨⟨lo, hi, alive⟩, seen, ?_⟩
    cases call with
    | deletePage q => exact calm.elim
    | _ => trivial
  cases call with
  | newPage =>
    rcases ClientPool.newPage_result run with ⟨-, rfl⟩ | ⟨-, next, deleted, fresh, -⟩
    · exact .inl ⟨⟨lo, hi, alive⟩, seen, trivial⟩
    · rw [next] at hi
      rw [deleted] at alive
      rw [fresh] at seen
      have other : p ≠ s.pool.nextPageId := by
        rintro rfl
        simp at seen
      rw [Function.update_of_ne other] at seen
      exact .inl ⟨⟨lo, (Int.lt_add_one_iff.1 hi).lt_of_ne other, alive⟩, seen, trivial⟩
  | unpinPage q isDirty =>
    obtain ⟨-, next, deleted, fresh, -⟩ := ClientPool.unpinPage_result run
    rw [next] at hi
    rw [deleted] at alive
    rw [fresh] at seen
    by_cases here : isDirty = true ∧ p = q
    · obtain ⟨rfl, rfl⟩ := here
      exact .inr rfl
    · refine .inl ⟨⟨lo, hi, alive⟩, ?_, trivial⟩
      cases isDirty with
      | true =>
        rw [if_pos rfl, Function.update_of_ne fun e => here ⟨rfl, e⟩] at seen
        exact seen
      | false => exact seen
  | deletePage q =>
    obtain ⟨next, fresh, deleted, -⟩ := ClientPool.deletePage_result run
    rw [next] at hi
    rw [fresh] at seen
    rw [deleted] at alive
    cases r with
    | true =>
      have other : p ≠ q := by
        rintro rfl
        simp at alive
      rw [if_pos rfl, Function.update_of_ne other] at alive
      exact .inl ⟨⟨lo, hi, alive⟩, seen, fun _ => other⟩
    | false => exact .inl ⟨⟨lo, hi, alive⟩, seen, fun e => absurd e (by decide)⟩
  | _ => exact absurd trivial calm

theorem Backs.step (h : Backs rules s m c) {call : PoolCall} {r : call.Reply}
    (legal : ClientPool.Protocol s call) (careful : Careful rules s call)
    (run : ClientPool.handle call s = .ok (r, s')) :
    ∃ m' c', handle HashedPool.handle call c = .ok (r, c') ∧ Backs rules s' m' c' := by
  obtain ⟨m', ran, views⟩ := views_simulates s m call r s' h.views legal run
  obtain ⟨⟨r', c'⟩, ran', same, mirrors, kept⟩ :=
    (h.mirrors.call h.dirtyInRange h.named (h.backed legal)).of_ok ran
  obtain rfl : r = r' := same
  obtain ⟨inRange, fresh⟩ := h.ghost careful run
  refine ⟨m', c', ran', views, mirrors, inRange, fresh, fun p live seen => ?_⟩
  rcases live_before run live seen with ⟨before, old, keeps⟩ | rfl
  · exact kept p keeps (h.safe p before old)
  · exact .inr (h.views.dirty_unpin (ClientPool.unpinPage_result run).1 ran)

end Machine

/-- A client that keeps to the protocol and returns when pages are looked up by their ids returns the
same with `n` frames, a hash table for the resident pages, linked nodes for the unpinned ones, and
the disk. -/
theorem members_simulate {n : ℕ} [NeZero n] {D : Type} [Disk D] (rules : DiskRules D) :
    Script.Simulates ClientPool.handle (Machine.handle HashedPool.handle)
      (fun s call => ClientPool.Protocol s call ∧ Machine.Careful rules s call)
      fun s (c : Machine n (HashedPool n D)) => ∃ m, Machine.Backs rules s m c := by
  rintro s c call r s' ⟨m, backs⟩ ⟨legal, careful⟩ run
  obtain ⟨m', c', ran, backs'⟩ := backs.step legal careful run
  exact ⟨c', ran, m', backs'⟩

theorem backs_new {n : ℕ} [NeZero n] {D : Type} [Disk D] {rules : DiskRules D} {disk : D}
    (empty : rules.Holds {} disk) :
    Machine.Backs rules (.new n) { pool := .new n } { pool := .new n disk } where
  views := Machine.views_new n
  mirrors := ⟨Models.start empty, rfl, rfl⟩
  inRange p lo hi := absurd (lo.trans_lt hi) (lt_irrefl 0)
  fresh p h := by cases h
  safe p live := absurd (live.1.trans_lt live.2.1) (lt_irrefl 0)

end ScuDb
