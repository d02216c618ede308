import ScuDb.Config

/-!
# The reader-writer lock

`RWMutex`: every stretch that runs under `mutex_` is one atomic step.  A thread in a condition wait
sleeps until it is notified or woken spuriously, and then takes `mutex_` again and repeats its test.
A writer first claims the lock by setting `writer_entered_` and then waits until the readers have
left, so a claimed lock need not be held.
-/

namespace ScuDb

/-- `RWMutex`, without `mutex_` and the condition variables. -/
structure RWMutex where
  readerCount : UInt32 := 0
  writerEntered : Bool := false
deriving DecidableEq

namespace RWMutex

/-- `max_readers_`, `UINT_MAX`. -/
def maxReaders : UInt32 := 4294967295

/-- The condition variables. -/
inductive Cond
  | reader
  | writer
deriving DecidableEq

/-- Where a thread is in its use of a lock.  A thread whose wait is over is `woken`. -/
inductive Stage
  | idle
  /-- in the first loop of `WLock` -/
  | entering (woken : Bool)
  /-- in the second loop of `WLock` -/
  | draining (woken : Bool)
  /-- in the loop of `RLock` -/
  | joining (woken : Bool)
  /-- past `WLock` -/
  | writing
  /-- past `RLock` -/
  | reading
deriving DecidableEq

/-- The condition variable a thread sleeps on. -/
def Stage.sleepsOn : Stage → Option Cond
  | .entering false => some .reader
  | .joining false => some .reader
  | .draining false => some .writer
  | _ => none

def Stage.wake : Stage → Stage
  | .entering _ => .entering true
  | .draining _ => .draining true
  | .joining _ => .joining true
  | stage => stage

/-- The writer that has set `writer_entered_`. -/
def Stage.Claims (stage : Stage) : Prop := (∃ woken, stage = .draining woken) ∨ stage = .writing

/-! ## The stretches under `mutex_` -/

/-- `WLock` from the test of its second loop on. -/
def drain (m : RWMutex) : Stage × RWMutex :=
  if m.readerCount > 0 then (.draining false, m) else (.writing, m)

/-- `WLock` from the test of its first loop on. -/
def wLock (m : RWMutex) : Stage × RWMutex :=
  if m.writerEntered then (.entering false, m) else drain { m with writerEntered := true }

/-- `RLock` from the test of its loop on. -/
def rLock (m : RWMutex) : Stage × RWMutex :=
  if m.writerEntered || m.readerCount == maxReaders then (.joining false, m)
  else (.reading, { m with readerCount := m.readerCount + 1 })

/-- Which sleeping threads a stretch notifies. -/
inductive Notify
  | nobody
  | one (c : Cond)
  | all (c : Cond)
deriving DecidableEq

/-- `WUnlock`. -/
def wUnlock (m : RWMutex) : RWMutex × Notify := ({ m with writerEntered := false }, .all .reader)

/-- `RUnlock`. -/
def rUnlock (m : RWMutex) : RWMutex × Notify :=
  let m := { m with readerCount := m.readerCount - 1 }
  (m, if m.writerEntered then
      if m.readerCount = 0 then .one .writer else .nobody
    else if m.readerCount = maxReaders - 1 then .one .reader else .nobody)

variable {Tid : Type}

/-- `woken` are the threads that a notification wakes when the threads sleep on `sleeps`;
`notify_one` picks any sleeper. -/
def Notify.Wakes (sleeps : Tid → Option Cond) (woken : Tid → Bool) : Notify → Prop
  | .nobody => ∀ t, woken t = false
  | .one c => (∃ u, sleeps u = some c ∧ ∀ t, woken t = true ↔ t = u) ∨
      (∀ u, sleeps u ≠ some c) ∧ ∀ t, woken t = false
  | .all c => ∀ t, woken t = true ↔ sleeps t = some c

def wakeAll (stage : Tid → Stage) (woken : Tid → Bool) (t : Tid) : Stage :=
  if woken t then (stage t).wake else stage t

@[simp] theorem Stage.wake_claims (stage : Stage) : stage.wake.Claims ↔ stage.Claims := by
  cases stage <;> simp [Stage.wake, Stage.Claims]

@[simp] theorem Stage.wake_reading (stage : Stage) : stage.wake = .reading ↔ stage = .reading := by
  cases stage <;> simp [Stage.wake]

@[simp] theorem Stage.wake_writing (stage : Stage) : stage.wake = .writing ↔ stage = .writing := by
  cases stage <;> simp [Stage.wake]

theorem wakeAll_claims (stage : Tid → Stage) (woken : Tid → Bool) (t : Tid) :
    (wakeAll stage woken t).Claims ↔ (stage t).Claims := by
  unfold wakeAll
  split_ifs <;> simp

theorem wakeAll_reading (stage : Tid → Stage) (woken : Tid → Bool) (t : Tid) :
    wakeAll stage woken t = .reading ↔ stage t = .reading := by
  unfold wakeAll
  split_ifs <;> simp

theorem wakeAll_writing (stage : Tid → Stage) (woken : Tid → Bool) (t : Tid) :
    wakeAll stage woken t = .writing ↔ stage t = .writing := by
  unfold wakeAll
  split_ifs <;> simp

/-! ## Runs -/

/-- A lock and the threads that use it.  A thread that nests calls counts once for each call. -/
structure Users (Tid : Type) where
  mutex : RWMutex := {}
  stage : Tid → Stage := fun _ => .idle

variable {s s' : Users Tid}

/-- The claim on the lock belongs to one thread, the readers are counted, and who writes is alone. -/
structure Inv (s : Users Tid) : Prop where
  claimed : s.mutex.writerEntered = true ↔ ∃ t, (s.stage t).Claims
  claim_unique : ∀ t u, (s.stage t).Claims → (s.stage u).Claims → t = u
  readers : { t | s.stage t = .reading }.encard = s.mutex.readerCount.toNat
  alone : ∀ t, s.stage t = .writing → s.mutex.readerCount = 0

/-- The invariant sees of a thread only whether it claims, reads or writes. -/
theorem Inv.congr (h : Inv s) (mutex : s'.mutex = s.mutex)
    (claims : ∀ t, (s'.stage t).Claims ↔ (s.stage t).Claims)
    (reading : ∀ t, s'.stage t = .reading ↔ s.stage t = .reading)
    (writing : ∀ t, s'.stage t = .writing → s.stage t = .writing ∨ s.mutex.readerCount = 0) :
    Inv s' := by
  refine ⟨?_, fun t u ht hu => ?_, ?_, fun t ht => ?_⟩
  · rw [mutex, h.claimed]
    exact exists_congr fun t => (claims t).symm
  · exact h.claim_unique t u ((claims t).1 ht) ((claims u).1 hu)
  · simp only [reading, mutex]
    exact h.readers
  · rw [mutex]
    rcases writing t ht with hw | zero
    · exact h.alone t hw
    · exact zero

theorem inv_new : Inv ({} : Users Tid) := by
  refine ⟨by simp [Stage.Claims], fun t u ht => ?_, by simp, fun t ht => ?_⟩
  · simp [Stage.Claims] at ht
  · simp at ht

variable [DecidableEq Tid]

/-- Thread `t` ends a stretch. -/
def Users.put (s : Users Tid) (t : Tid) (r : Stage × RWMutex) : Users Tid :=
  ⟨r.2, Function.update s.stage t r.1⟩

/-- One atomic step of a thread; it releases only what it holds. -/
inductive Step (s : Users Tid) : Users Tid → Prop
  | wLock (t : Tid) (h : s.stage t = .idle ∨ s.stage t = .entering true) :
      Step s (s.put t s.mutex.wLock)
  | drain (t : Tid) (h : s.stage t = .draining true) : Step s (s.put t s.mutex.drain)
  | rLock (t : Tid) (h : s.stage t = .idle ∨ s.stage t = .joining true) :
      Step s (s.put t s.mutex.rLock)
  | wUnlock (t : Tid) (h : s.stage t = .writing) (woken : Tid → Bool)
      (wakes : s.mutex.wUnlock.2.Wakes (fun u => (s.stage u).sleepsOn) woken) :
      Step s ⟨s.mutex.wUnlock.1, Function.update (wakeAll s.stage woken) t .idle⟩
  | rUnlock (t : Tid) (h : s.stage t = .reading) (woken : Tid → Bool)
      (wakes : s.mutex.rUnlock.2.Wakes (fun u => (s.stage u).sleepsOn) woken) :
      Step s ⟨s.mutex.rUnlock.1, Function.update (wakeAll s.stage woken) t .idle⟩
  /-- a spurious wakeup -/
  | wake (t : Tid) (h : (s.stage t).sleepsOn ≠ none) :
      Step s { s with stage := Function.update s.stage t (s.stage t).wake }

/-- Any interleaving of any threads, from a new lock. -/
def Reachable (s : Users Tid) : Prop := Relation.ReflTransGen Step {} s

/-! ## What a step keeps -/

/-- A thread that neither claims nor reads goes on waiting. -/
theorem Inv.put_waiting (h : Inv s) {t : Tid} {stage : Stage}
    (before : ¬ (s.stage t).Claims ∧ s.stage t ≠ .reading)
    (after : ¬ stage.Claims ∧ stage ≠ .reading) : Inv (s.put t (stage, s.mutex)) := by
  have writes : stage ≠ .writing := fun e => after.1 (.inr e)
  refine h.congr rfl (fun u => ?_) (fun u => ?_) (fun u hu => ?_)
  all_goals by_cases hut : u = t
  · subst hut
    simp [Users.put, before.1, after.1]
  · simp [Users.put, hut]
  · subst hut
    simp [Users.put, before.2, after.2]
  · simp [Users.put, hut]
  · subst hut
    simp [Users.put, writes] at hu
  · simp only [Users.put, ne_eq, hut, not_false_eq_true, Function.update_of_ne] at hu
    exact .inl hu

theorem Inv.claim (h : Inv s) (free : s.mutex.writerEntered = false) {t : Tid} {stage : Stage}
    (before : s.stage t ≠ .reading) (claims : stage.Claims)
    (empty : stage = .writing → s.mutex.readerCount = 0) :
    Inv (s.put t (stage, { s.mutex with writerEntered := true })) := by
  have unclaimed (u : Tid) : ¬ (s.stage u).Claims := fun hu => by
    have := h.claimed.2 ⟨u, hu⟩
    rw [free] at this
    cases this
  have after : stage ≠ .reading := by
    rintro rfl
    simp [Stage.Claims] at claims
  have only (u : Tid) (hu : ((s.put t (stage, { s.mutex with writerEntered := true })).stage u).Claims) :
      u = t := by
    by_contra hut
    simp only [Users.put, ne_eq, hut, not_false_eq_true, Function.update_of_ne] at hu
    exact unclaimed u hu
  refine ⟨?_, fun u v hu hv => (only u hu).trans (only v hv).symm, ?_, fun u hu => ?_⟩
  · refine iff_of_true rfl ⟨t, ?_⟩
    simpa [Users.put] using claims
  · have same : { u | (s.put t (stage, { s.mutex with writerEntered := true })).stage u = .reading } =
        { u | s.stage u = .reading } := by
      ext u
      by_cases hut : u = t
      · subst hut
        simp [Users.put, before, after]
      · simp [Users.put, hut]
    rw [same]
    exact h.readers
  · obtain rfl := only u (.inr hu)
    simp only [Users.put, Function.update_self] at hu
    exact empty hu

theorem Inv.join (h : Inv s) (free : s.mutex.writerEntered = false)
    (room : s.mutex.readerCount ≠ maxReaders) {t : Tid} (before : s.stage t ≠ .reading) :
    Inv (s.put t (.reading, { s.mutex with readerCount := s.mutex.readerCount + 1 })) ∧
      (s.mutex.readerCount + 1).toNat = s.mutex.readerCount.toNat + 1 := by
  have unclaimed (u : Tid) : ¬ (s.stage u).Claims := fun hu => by
    have := h.claimed.2 ⟨u, hu⟩
    rw [free] at this
    cases this
  have count : (s.mutex.readerCount + 1).toNat = s.mutex.readerCount.toNat + 1 := by
    have lt := s.mutex.readerCount.toNat_lt
    have ne : s.mutex.readerCount.toNat ≠ 4294967295 := fun e => room (UInt32.toNat_inj.1 e)
    rw [UInt32.toNat_add]
    change (_ + 1) % 4294967296 = _
    omega
  have none (u : Tid) : ¬ ((s.put t (.reading,
      { s.mutex with readerCount := s.mutex.readerCount + 1 })).stage u).Claims := by
    by_cases hut : u = t
    · subst hut
      simp [Users.put, Stage.Claims]
    · simpa [Users.put, hut] using unclaimed u
  refine ⟨⟨?_, fun u _ hu => absurd hu (none u), ?_, fun u hu => absurd (.inr hu) (none u)⟩, count⟩
  · simp only [none, exists_false, iff_false]
    simp [Users.put, free]
  · have grown : { u | (s.put t (.reading,
        { s.mutex with readerCount := s.mutex.readerCount + 1 })).stage u = .reading } =
        insert t { u | s.stage u = .reading } := by
      ext u
      by_cases hut : u = t
      · subst hut
        simp [Users.put]
      · simp [Users.put, hut]
    have fresh : t ∉ { u | s.stage u = .reading } := before
    rw [grown, Set.encard_insert_of_notMem fresh, h.readers]
    simp only [Users.put, count]
    push_cast
    rfl

theorem Inv.wUnlock (h : Inv s) {t : Tid} (ht : s.stage t = .writing) (woken : Tid → Bool) :
    Inv ⟨s.mutex.wUnlock.1, Function.update (wakeAll s.stage woken) t .idle⟩ := by
  have only (u : Tid) (hu : (s.stage u).Claims) : u = t := h.claim_unique u t hu (.inr ht)
  have none (u : Tid) : ¬ (Function.update (wakeAll s.stage woken) t .idle u).Claims := by
    by_cases hut : u = t
    · subst hut
      simp [Stage.Claims]
    · rw [Function.update_of_ne hut, wakeAll_claims]
      exact fun hu => hut (only u hu)
  refine ⟨?_, fun u _ hu => absurd hu (none u), ?_, fun u hu => absurd (.inr hu) (none u)⟩
  · simp only [none, exists_false, iff_false]
    simp [RWMutex.wUnlock]
  · have same : { u | Function.update (wakeAll s.stage woken) t .idle u = .reading } =
        { u | s.stage u = .reading } := by
      ext u
      by_cases hut : u = t
      · subst hut
        simp [ht]
      · simp [hut, wakeAll_reading]
    simp only [same]
    exact h.readers

theorem Inv.rUnlock (h : Inv s) {t : Tid} (ht : s.stage t = .reading) (woken : Tid → Bool) :
    Inv ⟨s.mutex.rUnlock.1, Function.update (wakeAll s.stage woken) t .idle⟩ ∧
      s.mutex.rUnlock.1.readerCount.toNat + 1 = s.mutex.readerCount.toNat := by
  have shrunk : { u | Function.update (wakeAll s.stage woken) t .idle u = .reading } =
      { u | s.stage u = .reading } \ {t} := by
    ext u
    by_cases hut : u = t
    · subst hut
      simp
    · simp [hut, wakeAll_reading]
  have removed := Set.encard_sdiff_singleton_add_one (show t ∈ { u | s.stage u = .reading } from ht)
  rw [h.readers] at removed
  have pos : 0 < s.mutex.readerCount.toNat := by
    by_contra zero
    rw [show s.mutex.readerCount.toNat = 0 by omega] at removed
    exact absurd removed (by simp)
  have count : s.mutex.rUnlock.1.readerCount.toNat + 1 = s.mutex.readerCount.toNat := by
    have lt := s.mutex.readerCount.toNat_lt
    change (s.mutex.readerCount - 1).toNat + 1 = _
    rw [UInt32.toNat_sub]
    change (4294967296 - 1 + _) % 4294967296 + 1 = _
    omega
  have claims (u : Tid) : (Function.update (wakeAll s.stage woken) t .idle u).Claims ↔
      (s.stage u).Claims := by
    by_cases hut : u = t
    · subst hut
      simp [ht, Stage.Claims]
    · rw [Function.update_of_ne hut, wakeAll_claims]
  refine ⟨⟨?_, fun u v hu hv => ?_, ?_, fun u hu => ?_⟩, count⟩
  · simp only [claims]
    exact h.claimed
  · exact h.claim_unique u v ((claims u).1 hu) ((claims v).1 hv)
  · simp only [shrunk]
    rw [← count] at removed
    push_cast at removed
    exact (ENat.add_left_injective_of_ne_top (by decide)) removed
  · have hut : u ≠ t := by
      rintro rfl
      simp at hu
    simp only [Function.update_of_ne hut, wakeAll_writing] at hu
    rw [h.alone u hu] at pos
    exact absurd pos (by decide)

/-- A step keeps the invariant and changes the count by at most one, so that it never wraps. -/
theorem Inv.step (h : Inv s) (step : Step s s') :
    Inv s' ∧ |(s'.mutex.readerCount.toNat : ℤ) - s.mutex.readerCount.toNat| ≤ 1 := by
  cases step with
  | wLock t ht =>
    have before : ¬ (s.stage t).Claims ∧ s.stage t ≠ .reading := by
      rcases ht with ht | ht <;> simp [ht, Stage.Claims]
    unfold RWMutex.wLock
    by_cases entered : s.mutex.writerEntered = true
    · rw [if_pos entered]
      exact ⟨h.put_waiting before (by simp [Stage.Claims]), by simp [Users.put]⟩
    · rw [if_neg entered, RWMutex.drain]
      have free : s.mutex.writerEntered = false := by simpa using entered
      split_ifs with readers
      · exact ⟨h.claim free before.2 (.inl ⟨_, rfl⟩) nofun, by simp [Users.put]⟩
      · refine ⟨h.claim free before.2 (.inr rfl) fun _ => ?_, by simp [Users.put]⟩
        exact UInt32.toNat_inj.1 (Nat.eq_zero_of_not_pos readers)
  | drain t ht =>
    unfold RWMutex.drain
    split_ifs with readers
    · refine ⟨h.congr rfl (fun u => ?_) (fun u => ?_) (fun u hu => ?_), by simp [Users.put]⟩
      all_goals by_cases hut : u = t
      all_goals first
        | subst hut
          simp_all [Users.put, Stage.Claims]
        | simp_all [Users.put]
    · have zero : s.mutex.readerCount = 0 :=
        UInt32.toNat_inj.1 (Nat.eq_zero_of_not_pos readers)
      refine ⟨h.congr rfl (fun u => ?_) (fun u => ?_) (fun u _ => .inr zero), by simp [Users.put]⟩
      all_goals by_cases hut : u = t
      all_goals first
        | subst hut
          simp_all [Users.put, Stage.Claims]
        | simp_all [Users.put]
  | rLock t ht =>
    have before : ¬ (s.stage t).Claims ∧ s.stage t ≠ .reading := by
      rcases ht with ht | ht <;> simp [ht, Stage.Claims]
    unfold RWMutex.rLock
    split_ifs with full
    · exact ⟨h.put_waiting before (by simp [Stage.Claims]), by simp [Users.put]⟩
    · simp only [Bool.or_eq_true, beq_iff_eq, not_or, Bool.not_eq_true] at full
      obtain ⟨inv, count⟩ := h.join full.1 full.2 before.2
      refine ⟨inv, ?_⟩
      simp [Users.put, count]
  | wUnlock t ht woken wakes => exact ⟨h.wUnlock ht woken, by simp [RWMutex.wUnlock]⟩
  | rUnlock t ht woken wakes =>
    obtain ⟨inv, count⟩ := h.rUnlock ht woken
    refine ⟨inv, ?_⟩
    rw [← count, abs_le]
    push_cast
    omega
  | wake t ht =>
    have woken (u : Tid) : Function.update s.stage t (s.stage t).wake u =
        wakeAll s.stage (fun u => decide (u = t)) u := by
      by_cases hut : u = t
      · subst hut
        simp [wakeAll]
      · simp [wakeAll, hut]
    refine ⟨h.congr rfl (fun u => ?_) (fun u => ?_) (fun u hu => ?_), by simp⟩
    · simp only [woken, wakeAll_claims]
    · simp only [woken, wakeAll_reading]
    · simp only [woken, wakeAll_writing] at hu
      exact .inl hu

theorem Reachable.inv (h : Reachable s) : Inv s := by
  induction h with
  | refl => exact inv_new
  | tail _ step ih => exact (ih.step step).1

/-- In every interleaving at most one thread is past `WLock`, and then none is past `RLock`; the
count is the number of threads past `RLock`, and no step makes it wrap. -/
theorem reachable_exclusive (h : Reachable s) :
    (∀ t u, s.stage t = .writing → s.stage u = .writing → t = u) ∧
    (∀ t u, s.stage t = .writing → s.stage u ≠ .reading) ∧
    { t | s.stage t = .reading }.encard = s.mutex.readerCount.toNat ∧
    ∀ s', Step s s' → |(s'.mutex.readerCount.toNat : ℤ) - s.mutex.readerCount.toNat| ≤ 1 := by
  have inv := h.inv
  refine ⟨fun t u ht hu => inv.claim_unique t u (.inr ht) (.inr hu), fun t u ht hu => ?_,
    inv.readers, fun s' step => (inv.step step).2⟩
  have readers := inv.readers
  rw [inv.alone t ht] at readers
  have empty : { t | s.stage t = .reading } = ∅ := Set.encard_eq_zero.1 readers
  exact absurd (show u ∈ { t | s.stage t = .reading } from hu) (by rw [empty]; exact id)

/-- One thread reads and another waits for it with the lock claimed. -/
def readAndClaim : Users Bool :=
  let s := ({} : Users Bool).put false ({} : RWMutex).rLock
  s.put true s.mutex.wLock

theorem reachable_exclusive_readAndClaim :
    readAndClaim.stage true = .draining false ∧ readAndClaim.stage false = .reading ∧
      { t | readAndClaim.stage t = .reading }.encard = 1 :=
  ⟨rfl, rfl, (reachable_exclusive (.tail (.single (.rLock false (.inl rfl)))
    (.wLock true (.inl rfl)))).2.2.1⟩

end RWMutex

end ScuDb
