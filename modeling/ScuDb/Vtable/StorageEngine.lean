import ScuDb.Buffer.Session

/-!
# Shutdown of the storage engine

`VtabDisconnect` destroys the `StorageEngine`, which closes the disk manager and destroys the
buffer pool.  What survives is the disk: the destructor of the pool writes no frame back.
-/

namespace ScuDb

open ByteMem BufferPoolManager

variable {n : ℕ}

/-- `~BufferPoolManager` frees the frames, the page table, the replacer and the free list; the
disk stays as it is. -/
def BufferPoolManager.destroy (b : BufferPoolManager n) : IdealDisk := b.diskManager

/-- `~StorageEngine`, as far as pages are concerned. -/
def Session.destroy (s : Session n) : IdealDisk := s.pool.destroy

/-- `VtabDisconnect`: the disk it leaves. -/
def Session.vtabDisconnect (s : Session n) : IdealDisk := s.destroy

namespace Session

/-- After `VtabDisconnect` the disk holds what the clients last left in every live page. -/
def Durable (s : Session n) : Prop :=
  ∀ p, s.Live p → s.vtabDisconnect.readPage p = s.content p

/-- Every dirty frame of a live page has the bytes its page already has on disk. -/
def DirtyWritten (s : Session n) : Prop :=
  ∀ f, (s.pool.pages f).isDirty = true → s.Live (s.pool.pages f).pageId →
    s.pool.diskManager.pages (s.pool.pages f).pageId = (s.pool.pages f).data

theorem Refines.unchanged_of_released {s : Session n} (h : Refines s) (released : s.held = [])
    (client : Client) (p : PageId) : s.changed client p = false := by
  rw [← Bool.not_eq_true]
  intro hc
  exact h.changed client p hc (by simp [pinsOf, released])

theorem Refines.durable {s : Session n} (h : Refines s) (released : s.held = [])
    (written : s.DirtyWritten) : s.Durable := by
  intro p live
  have stored := h.stored p live
  change s.pool.diskManager.pages p = s.content p
  unfold Stored at stored
  rcases hf : s.pool.pageTable.find p with _ | f
  · rwa [hf] at stored
  · rw [hf] at stored
    obtain ⟨hdata, hsafe⟩ := stored
    have hid := (h.inv.valid_of_find hf).1
    rcases hsafe with dirty | ⟨client, hc⟩ | hdisk
    · have := written f dirty (by rwa [hid])
      rw [hid] at this
      exact this.trans hdata
    · rw [h.unchanged_of_released released client p] at hc
      exact absurd hc (by decide)
    · exact hdisk

theorem Refines.dirtyWritten {s : Session n} (h : Refines s) (durable : s.Durable) :
    s.DirtyWritten := by
  intro f _ live
  have valid : (s.pool.pages f).pageId ≠ invalidPageId := by
    intro e
    have := live.1
    rw [e] at this
    exact absurd this (by decide)
  have hf := (h.inv.table _ f).2 ⟨rfl, valid⟩
  have stored := h.stored _ live
  unfold Stored at stored
  rw [hf] at stored
  exact (durable _ live).trans stored.1.symm

/-- A shutdown with no pins left is durable exactly when every dirty frame of a live page agrees
with the disk.  Page ids and pin counts are below 2^31. -/
theorem durable_iff_dirtyWritten {s : Session n}
    (h : Run (fun s call => s.Legal call ∧ s.FetchesAllocated call) s) (released : s.held = []) :
    s.Durable ↔ s.DirtyWritten :=
  ⟨(refines_of_run h).dirtyWritten, (refines_of_run h).durable released⟩

/-- Page 0 is changed and given back dirty; nothing evicts or flushes it. -/
def changedPage : List Call :=
  [.newPage 0, .store 0 0 (Mem.write Mem.zero 0 [7]), .unpinPage 0 0 true]

theorem durable_iff_dirtyWritten_flushed :
    ∃ s : Session 1, s.held = [] ∧ (s.content 0).get 0 = 7 ∧ (s.Durable ↔ s.DirtyWritten) :=
  ⟨(exec (fun s call => s.Legal call ∧ s.FetchesAllocated call)
      (changedPage ++ [.flushPage 0]) (new 1)).get (by decide), by decide, by decide,
    durable_iff_dirtyWritten (run_exec_get (by decide)) (by decide)⟩

/-- The disk never sees a page that is changed, given back dirty and not evicted. -/
theorem not_durable_of_released :
    ¬ ∀ (n : ℕ) (s : Session n),
      Run (fun s call => s.Legal call ∧ s.FetchesAllocated call) s → s.held = [] → s.Durable := by
  intro h
  have durable := h 1 ((exec (fun s call => s.Legal call ∧ s.FetchesAllocated call)
    changedPage (new 1)).get (by decide)) (run_exec_get (by decide)) (by decide) 0
    ⟨by decide, by decide, by decide⟩
  exact absurd (congrArg (fun m : PageData => m.get 0) durable) (by decide)

end Session

end ScuDb
