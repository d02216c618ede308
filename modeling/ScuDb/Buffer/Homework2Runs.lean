import ScuDb.Buffer.Homework2Pool

/-!
# Runs of the Homework2 buffer pool

Two defects bound what the pool promises.  `UnpinPage` overwrites the dirty flag, so the bytes the
clients left survive as long as no call lowers a flag that is set.  `DeletePage` frees a frame
without resetting its page id, so the free list is sound exactly as long as no call deletes a
resident page that nobody pins.
-/

namespace ScuDb.Homework2

open ByteMem BufferPoolManager Session

variable {n : ℕ}

/-- The session after a list of calls, if all of them are allowed and return. -/
def exec (allowed : Session n → Call → Prop) [∀ s call, Decidable (allowed s call)] :
    List Call → Session n → Option (Session n)
  | [], s => some s
  | call :: rest, s =>
    if allowed s call then
      match step s call with
      | .ok s' => exec allowed rest s'
      | .error _ => none
    else none

theorem run_of_exec {allowed : Session n → Call → Prop} [∀ s call, Decidable (allowed s call)]
    {calls : List Call} : ∀ {past : List (Session n × Call)} {s s' : Session n},
      Run allowed past s → exec allowed calls s = some s' → ∃ past', Run allowed past' s' := by
  induction calls with
  | nil =>
    intro past s s' hs h
    cases h
    exact ⟨past, hs⟩
  | cons call rest ih =>
    intro past s s' hs h
    simp only [exec] at h
    split_ifs at h with ha
    cases hr : step s call with
    | error e => simp [hr] at h
    | ok s₁ =>
      rw [hr] at h
      exact ih (Run.step hs ha hr) h

/-- The session an evaluated run ends in. -/
theorem run_exec_get {allowed : Session n → Call → Prop} [∀ s call, Decidable (allowed s call)]
    {calls : List Call} (h : (exec allowed calls (new n)).isSome) :
    ∃ past, Run allowed past ((exec allowed calls (new n)).get h) :=
  run_of_exec .new (Option.some_get h).symm

/-! ## No update is lost -/

/-- A call other than `DeletePage`. -/
def DeletesNothing : Call → Prop
  | .deletePage _ => False
  | _ => True

/-- `UnpinPage` reports a page as clean only when it is not marked dirty. -/
def KeepsDirty (s : Session n) : Call → Prop
  | .unpinPage _ pageId false =>
    ∀ f, s.pool.pageTable.find pageId = some f → (s.pool.pages f).isDirty = false
  | _ => True

/-- Calls of clients that keep to the protocol and delete nothing. -/
def Protocol (s : Session n) (call : Call) : Prop := s.Legal call ∧ DeletesNothing call

/-- Calls of such clients that fetch only allocated pages and lower no dirty flag. -/
def Careful (s : Session n) (call : Call) : Prop :=
  Protocol s call ∧ s.FetchesAllocated call ∧ KeepsDirty s call

instance : (call : Call) → Decidable (DeletesNothing call)
  | .deletePage _ => inferInstanceAs (Decidable False)
  | .newPage _ | .fetchPage _ _ | .unpinPage _ _ _ | .flushPage _ | .store _ _ _ =>
    inferInstanceAs (Decidable True)

instance (s : Session n) : (call : Call) → Decidable (KeepsDirty s call)
  | .unpinPage _ _ false => inferInstanceAs (Decidable (∀ _, _ → _))
  | .unpinPage _ _ true => inferInstanceAs (Decidable True)
  | .newPage _ | .fetchPage _ _ | .deletePage _ | .flushPage _ | .store _ _ _ =>
    inferInstanceAs (Decidable True)

instance (s : Session n) (call : Call) : Decidable (Protocol s call) :=
  inferInstanceAs (Decidable (_ ∧ _))

instance (s : Session n) (call : Call) : Decidable (Careful s call) :=
  inferInstanceAs (Decidable (_ ∧ _ ∧ _))

/-- The bytes a `FetchPage` finds in the frame it returns. -/
def fetched (s : Session n) (pageId : PageId) : Option PageData :=
  match fetchPage s.pool pageId with
  | (some frame, pool) => some (pool.pages frame).data
  | (none, _) => none

/-- Every successful `FetchPage` of an allocated page returns the bytes the clients last left in
it. -/
def FetchesContent (s : Session n) : Prop :=
  ∀ pageId data, 0 ≤ pageId → pageId < s.pool.diskManager.nextPageId →
    fetched s pageId = some data → data = s.content pageId

theorem fetched_eq {s : Session n} (h : Refines s) (p : PageId) : fetched s p = s.fetched p := by
  unfold fetched Session.fetched
  rw [fetchPage_eq h.inv]
  rcases fetchPage s.pool p with ⟨_ | frame, pool⟩ <;> rfl

/-- A careful call does what it does in the later pool. -/
theorem step_eq {s : Session n} (h : Refines s) {call : Call} (careful : Careful s call) :
    step s call = s.step call := by
  obtain ⟨⟨legal, keep⟩, -, dirty⟩ := careful
  cases call with
  | newPage client => exact congrArg (fun run => run >>= _) (newPage_eq h.inv)
  | fetchPage client p =>
    simp only [step, Session.step, fetchPage_eq h.inv]
    rcases fetchPage s.pool p with ⟨_ | frame, pool⟩ <;> rfl
  | unpinPage client p isDirty =>
    obtain ⟨q, mem⟩ := List.exists_mem_of_ne_nil _ legal.1
    obtain ⟨hheld, -, -, hfind⟩ := h.find_of_pinsOf mem
    have keeps : (s.pool.pages q.frame).isDirty = true → isDirty = true := by
      intro hd
      cases isDirty with
      | true => rfl
      | false => exact absurd hd (by simp [dirty q.frame hfind])
    have pool := unpinPage_eq hfind (h.held_pinned hheld) keeps
    simp only [step, Session.step, pool]
    rfl
  | flushPage p => simp only [step, Session.step, flushPage_eq h.inv]
  | deletePage p => exact keep.elim
  | store client p data => rfl

/-- A careful call returns, keeps the refinement and deletes nothing. -/
theorem careful_step {s : Session n} (h : Refines s) {call : Call} (careful : Careful s call) :
    ∃ s', step s call = .ok s' ∧ Refines s' := by
  rw [step_eq h careful]
  exact refines_step h careful.1.1 careful.2.1

theorem refines_of_run {past : List (Session n × Call)} {s : Session n}
    (h : Run Careful past s) : Refines s := by
  induction h with
  | new => exact refines_new
  | step _ careful hs ih =>
    obtain ⟨s', hr, hs'⟩ := careful_step ih careful
    rw [hs] at hr
    cases hr
    exact hs'

theorem deleted_step {s s' : Session n} {call : Call} (keep : DeletesNothing call)
    (hs : step s call = .ok s') {p : PageId} (h : s.deleted p = false) : s'.deleted p = false := by
  cases call with
  | newPage client =>
    simp only [step, bind, Except.bind, pure, Except.pure] at hs
    split at hs
    · cases hs
    · split at hs <;> cases hs
      · exact h
      · simp [Function.update_apply, h]
  | fetchPage client q =>
    simp only [step] at hs
    split at hs <;> cases hs <;> exact h
  | unpinPage client q isDirty =>
    cases hs
    exact h
  | flushPage q =>
    cases hs
    exact h
  | deletePage q => exact keep.elim
  | store client q data =>
    simp only [step, Session.step] at hs
    split at hs <;> cases hs <;> exact h

theorem deleted_of_run {past : List (Session n × Call)} {s : Session n}
    (h : Run Careful past s) (p : PageId) : s.deleted p = false := by
  induction h with
  | new => rfl
  | step _ careful hs ih => exact deleted_step careful.1.2 hs ih

/-- Over any run in which the clients keep to the protocol, fetch only allocated pages and never
report a page as clean while it is marked dirty, no call faults and every `FetchPage` of an
allocated page returns the bytes the clients last left there.  Page ids and pin counts are below
2^31. -/
theorem fetchesContent_of_careful {past : List (Session n × Call)} {s : Session n}
    (h : Run Careful past s) :
    FetchesContent s ∧ ∀ call, Careful s call → ∃ s', step s call = .ok s' := by
  have refines := refines_of_run h
  refine ⟨fun p data lo hi hf => ?_, fun call careful => ?_⟩
  · rw [fetched_eq refines] at hf
    exact refines.fetchesContent p data ⟨lo, hi, deleted_of_run h p⟩ hf
  · obtain ⟨s', hs, -⟩ := careful_step refines careful
    exact ⟨s', hs⟩

/-- One frame: page 0 is changed, given back dirty and evicted by page 1. -/
theorem fetchesContent_of_careful_evicted :
    ∃ s : Session 1, (s.content 0).get 0 = 7 ∧ s.pool.pageTable.find 0 = none ∧ FetchesContent s :=
  ⟨(exec Careful evictedPage (new 1)).get (by decide), by decide, by decide,
    (fetchesContent_of_careful (run_exec_get (by decide)).choose_spec).1⟩

/-- Client 1 shares page 0 with client 0, which changes it, and gives it back last. -/
def cleanedPage : List Call :=
  [.newPage 0, .fetchPage 1 0, .store 0 0 (Mem.write Mem.zero 0 [7]), .unpinPage 0 0 true,
    .unpinPage 1 0 false, .newPage 0, .unpinPage 0 1 false]

def cleanedSession : Session 1 := (exec Protocol cleanedPage (new 1)).get (by decide)

/-- The report of the second client erases that of the first, so the page is evicted unwritten. -/
theorem not_fetchesContent_of_protocol :
    ¬ ∀ (n : ℕ) (past : List (Session n × Call)) (s : Session n), Run Protocol past s →
      FetchesContent s := by
  intro h
  obtain ⟨past, run⟩ : ∃ past, Run Protocol past cleanedSession := run_exec_get (by decide)
  have found := h 1 past cleanedSession run 0 ((fetched cleanedSession 0).get (by decide))
    (by decide) (by decide) (Option.some_get _).symm
  exact absurd (congrArg (fun m : PageData => m.get 0) found) (by decide)

/-! ## The free list -/

/-- `FetchPage` is called on allocated pages that were not deleted. -/
def FetchesLive (s : Session n) : Call → Prop
  | .fetchPage _ pageId => s.Live pageId
  | _ => True

instance (s : Session n) : (call : Call) → Decidable (FetchesLive s call)
  | .fetchPage _ _ => inferInstanceAs (Decidable (_ ∧ _ ∧ _))
  | .newPage _ | .unpinPage _ _ _ | .deletePage _ | .flushPage _ | .store _ _ _ =>
    inferInstanceAs (Decidable True)

/-- `DeletePage` is called on a resident page that nobody pins. -/
def FreesFrame (s : Session n) : Call → Prop
  | .deletePage pageId =>
    ∃ f, s.pool.pageTable.find pageId = some f ∧ (s.pool.pages f).pinCount ≤ 0
  | _ => False

/-- Free frames carry no page and no pin, the assertions of `GetVictimPage` hold, and the page table
maps the resident pages to their frames. -/
structure Sound (b : BufferPoolManager n) : Prop where
  free : ∀ f ∈ b.freeList, (b.pages f).pageId = invalidPageId ∧ (b.pages f).pinCount = 0
  victim : ∃ r b', getVictimPage b = .ok (r, b')
  table : ∀ p f, b.pageTable.find p = some f ↔ (b.pages f).pageId = p ∧ p ≠ invalidPageId

theorem sound_of_inv {b : BufferPoolManager n} (h : Inv b) : Sound b where
  free f hf := ⟨(h.free f).1 hf, (h.freeClean f hf).1⟩
  victim := by
    rw [getVictimPage_eq]
    rcases getVictimPage_spec h with ⟨hr, -⟩ | ⟨tar, b', hr, -⟩
    · exact ⟨_, _, hr⟩
    · exact ⟨_, _, hr⟩
  table := h.table

theorem inv_unpinPage {b : BufferPoolManager n} (h : Inv b) (p : PageId) (isDirty : Bool) :
    Inv (unpinPage b p isDirty).2 := by
  unfold unpinPage
  cases hp : b.pageTable.find p with
  | none => exact h
  | some target =>
    obtain ⟨-, valid⟩ := h.valid_of_find hp
    have marked : Inv (b.setPage target { b.pages target with isDirty := isDirty }) := by
      refine h.congr (fun f => ?_) (fun f => ?_) (fun f hf => ?_) rfl rfl rfl rfl <;>
        simp only [setPage, Function.update_apply] <;> split_ifs with hft
      · rw [hft]
      · rfl
      · rw [hft]
      · rfl
      · rw [hft] at hf
        exact absurd ((h.free target).1 hf) valid
      · rfl
    dsimp only
    by_cases pinned : (b.pages target).pinCount ≤ 0
    · rw [if_pos pinned]
      exact marked
    · rw [if_neg pinned]
      have unpinned := marked.unpin hp (by simpa [setPage] using pinned) isDirty
      convert unpinned using 1
      simp only [BufferPoolManager.unpin, setPage, Function.update_self, Function.update_idem]
      split_ifs <;> simp

/-- A call that frees no frame keeps the invariant. -/
theorem inv_step {s s' : Session n} (h : Inv s.pool) {call : Call} (live : FetchesLive s call)
    (keep : ¬ FreesFrame s call) (hs : step s call = .ok s') : Inv s'.pool := by
  cases call with
  | newPage client =>
    simp only [step, newPage_eq h, bind, Except.bind, pure, Except.pure] at hs
    split at hs
    · cases hs
    · rename_i r hr
      have := h.newPage hr
      split at hs <;> cases hs <;> exact this
  | fetchPage client p =>
    have := h.fetchPage live.1 live.2.1 (fetchPage_eq h p)
    simp only [step] at hs
    split at hs <;> cases hs <;> exact this
  | unpinPage client p isDirty =>
    cases hs
    exact inv_unpinPage h p isDirty
  | flushPage p =>
    cases hs
    rw [flushPage_eq h]
    exact h.flushPage p
  | deletePage p =>
    have pool : s'.pool = (deletePage s.pool p).2 := by
      cases hs
      rfl
    rw [pool]
    cases hp : s.pool.pageTable.find p with
    | none =>
      unfold deletePage
      rw [hp]
      exact h
    | some target =>
      have pinned : 0 < (s.pool.pages target).pinCount :=
        not_le.1 fun hle => keep ⟨target, hp, hle⟩
      rw [deletePage_of_pinned hp pinned]
      exact h
  | store client p data =>
    simp only [step, Session.step] at hs
    split at hs <;> cases hs
    · exact h
    · refine h.congr (fun f => ?_) (fun f => ?_) (fun f _ => ?_) rfl rfl rfl rfl <;>
        simp only [setPage, Function.update_apply] <;> split_ifs with hf
      all_goals first | rw [hf] | rfl

/-- A frame freed by `DeletePage` carries the id of the page it held. -/
theorem not_sound_of_freesFrame {s s' : Session n} (h : Inv s.pool) {call : Call}
    (frees : FreesFrame s call) (hs : step s call = .ok s') : ¬ Sound s'.pool := by
  cases call with
  | deletePage p =>
    obtain ⟨f, hp, unpinned⟩ := frees
    have pool : s'.pool = freed s.pool p f := by
      simp only [step, deletePage_of_unpinned hp unpinned] at hs
      cases hs
      rfl
    rw [pool]
    intro sound
    have invalid := (sound.free f (by simp [freed])).1
    simp only [freed, Function.update_self] at invalid
    exact (h.valid_of_find hp).2 invalid
  | _ => exact frees.elim

theorem inv_of_run {past : List (Session n × Call)} {s : Session n} (h : Run FetchesLive past s) :
    (∀ x ∈ past, ¬ FreesFrame x.1 x.2) → Inv s.pool ∧ ∀ x ∈ past, Inv x.1.pool := by
  induction h with
  | new => exact fun _ => ⟨inv_new, fun x hx => absurd hx List.not_mem_nil⟩
  | step _ live hs ih =>
    intro keep
    obtain ⟨inv, before⟩ := ih fun x hx => keep x (List.mem_cons_of_mem _ hx)
    refine ⟨inv_step inv live (keep _ List.mem_cons_self) hs, fun x hx => ?_⟩
    obtain rfl | hx := List.mem_cons.1 hx
    · exact inv
    · exact before x hx

theorem frees_of_run {past : List (Session n × Call)} {s : Session n} (h : Run FetchesLive past s) :
    Sound s.pool → (∀ x ∈ past, Sound x.1.pool) → Inv s.pool ∧ ∀ x ∈ past, ¬ FreesFrame x.1 x.2 := by
  induction h with
  | new => exact fun _ _ => ⟨inv_new, fun x hx => absurd hx List.not_mem_nil⟩
  | @step past s s' call _ live hs ih =>
    intro sound before
    obtain ⟨inv, keep⟩ := ih (before (s, call) List.mem_cons_self)
      fun x hx => before x (List.mem_cons_of_mem _ hx)
    have now : ¬ FreesFrame s call := fun frees => not_sound_of_freesFrame inv frees hs sound
    refine ⟨inv_step inv live now hs, fun x hx => ?_⟩
    obtain rfl | hx := List.mem_cons.1 hx
    · exact now
    · exact keep x hx

/-- Along a run every state is sound if and only if no call deletes a resident page that nobody
pins.  Page ids and pin counts are below 2^31. -/
theorem run_sound_iff {past : List (Session n × Call)} {s : Session n}
    (h : Run FetchesLive past s) :
    (Sound s.pool ∧ ∀ x ∈ past, Sound x.1.pool) ↔ ∀ x ∈ past, ¬ FreesFrame x.1 x.2 := by
  constructor
  · rintro ⟨sound, before⟩
    exact (frees_of_run h sound before).2
  · intro keep
    obtain ⟨inv, before⟩ := inv_of_run h keep
    exact ⟨sound_of_inv inv, fun x hx => sound_of_inv (before x hx)⟩

/-- Page 0 is given back and deleted in a pool of one frame. -/
def deletedPage : List Call := [.newPage 0, .unpinPage 0 0 false, .deletePage 0]

theorem not_sound_of_run :
    ¬ ∀ (n : ℕ) (past : List (Session n × Call)) (s : Session n), Run FetchesLive past s →
      Sound s.pool := by
  intro h
  obtain ⟨past, run⟩ : ∃ past, Run FetchesLive past ((exec FetchesLive deletedPage (new 1)).get
    (by decide)) := run_exec_get (by decide)
  have sound := h 1 past _ run
  exact absurd (sound.free 0 (by decide)).1 (by decide)

theorem run_sound_iff_deleted :
    ∃ (past : List (Session 1 × Call)) (s : Session 1), Run FetchesLive past s ∧
      ((Sound s.pool ∧ ∀ x ∈ past, Sound x.1.pool) ↔ ∀ x ∈ past, ¬ FreesFrame x.1 x.2) := by
  obtain ⟨past, run⟩ : ∃ past, Run FetchesLive past ((exec FetchesLive deletedPage (new 1)).get
    (by decide)) := run_exec_get (by decide)
  exact ⟨past, _, run, run_sound_iff run⟩

end ScuDb.Homework2
