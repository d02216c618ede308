import ScuDb.Buffer.MemberClients
import ScuDb.Disk.DiskManager

/-!
# The pool on the database file

The disk manager stores the pages of an ideal disk as long as their offsets and the size of the file
are `int`s and every read lies inside the file.  So a client of the pool on a new database file gets
the pages it stored, however often they were evicted.
-/

namespace ScuDb

open ByteMem

/-- `DiskManager` with `next_page_id_`. -/
structure FileDisk where
  manager : DiskManager := .new
  nextPageId : ℤ := 0

instance : Disk FileDisk where
  readPage d pageId old :=
    let (data, manager) := d.manager.readPage pageId old
    (data, { d with manager := manager })
  writePage d pageId data := { d with manager := d.manager.writePage pageId data }
  allocatePage d := (d.nextPageId, { d with nextPageId := d.nextPageId + 1 })
  deallocatePage d _ := d

namespace FileDisk

variable {d : IdealDisk} {e : FileDisk} {p : PageId}

/-- The file holds the pages of the ideal disk, and is shorter than `2^31` bytes. -/
def Holds (d : IdealDisk) (e : FileDisk) : Prop :=
  e.nextPageId = d.nextPageId ∧
    ∃ written, DiskRun.Agrees written ⟨e.manager, d⟩ ∧ 4194303 ∉ written

/-- The pages whose offset and end are `int`s. -/
def InRange (p : PageId) : Prop := 0 ≤ p ∧ p < 4194303

instance (p : PageId) : Decidable (InRange p) := inferInstanceAs (Decidable (_ ∧ _))

/-- The page ends inside the file. -/
def Covers (e : FileDisk) (p : PageId) : Prop := (p + 1) * 512 ≤ (e.manager.dbIo.file.size : ℤ)

theorem inRange_run (h : InRange p) : DiskRun.InRange p := ⟨h.1, h.2.trans (by norm_num)⟩

/-- The file ends with the last page written. -/
theorem size_le {written : List PageId} {disk disk' : DiskManager} {ideal ideal' : IdealDisk}
    (h : DiskRun.Agrees written ⟨disk, ideal⟩) (h' : DiskRun.Agrees written ⟨disk', ideal'⟩) :
    disk.dbIo.file.size ≤ disk'.dbIo.file.size := by
  rcases h.size with empty | ⟨q, mem, size⟩
  · rw [show disk.dbIo.file.size = 0 from empty]
    exact Nat.zero_le _
  · have covers := h'.covers q mem
    rw [← size] at covers
    exact_mod_cast covers

theorem holds_write (data : PageData) (h : Holds d e) (range : InRange p) :
    Holds (d.writePage p data) (Disk.writePage e p data) ∧
      ∀ q, Covers e q ∨ q = p → Covers (Disk.writePage e p data) q := by
  obtain ⟨next, written, agrees, small⟩ := h
  have after := agrees.writePage (inRange_run range) data
  refine ⟨⟨next, p :: written, after, ?_⟩, fun q covered => ?_⟩
  · rw [List.mem_cons, not_or]
    exact ⟨range.2.ne', small⟩
  · rcases covered with covered | rfl
    · unfold Covers at covered ⊢
      rcases agrees.size with empty | ⟨r, mem, size⟩
      · rw [show e.manager.dbIo.file.size = 0 from empty] at covered
        exact le_trans (by simpa using covered) (Int.natCast_nonneg _)
      · have grown := after.covers r (List.mem_cons_of_mem _ mem)
        rw [← size] at grown
        exact covered.trans grown
    · exact after.covers q List.mem_cons_self

theorem holds_read (old : PageData) (h : Holds d e) (range : InRange p) (covers : Covers e p) :
    (Disk.readPage e p old).1 = d.readPage p ∧ Holds d (Disk.readPage e p old).2 ∧
      ∀ q, Covers e q → Covers (Disk.readPage e p old).2 q := by
  obtain ⟨next, written, agrees, small⟩ := h
  have last : ∃ q ∈ written, p ≤ q := by
    unfold Covers at covers
    have nonneg := range.1
    rcases agrees.size with empty | ⟨q, mem, size⟩
    · rw [show e.manager.dbIo.file.size = 0 from empty] at covers
      push_cast at covers
      lia
    · refine ⟨q, mem, ?_⟩
      have size : (e.manager.dbIo.file.size : ℤ) = (q + 1) * 512 := size
      lia
  obtain ⟨data, after⟩ := agrees.readPage (inRange_run range) last small old
  refine ⟨data, ⟨next, written, after, small⟩, fun q covered => ?_⟩
  have size := size_le agrees after
  exact covered.trans (by exact_mod_cast size)

end FileDisk

/-- A disk manager on its file. -/
def fileRules : DiskRules FileDisk where
  Holds := FileDisk.Holds
  InRange := FileDisk.InRange
  Covers := FileDisk.Covers
  write data := FileDisk.holds_write data
  read old := FileDisk.holds_read old
  allocate := by
    rintro d e ⟨next, written, agrees, small⟩
    refine ⟨next, ⟨congrArg (· + 1) next, written, ?_, small⟩, fun _ covered => covered⟩
    exact ⟨agrees.good, agrees.inRange, agrees.covers, agrees.size, agrees.bytes⟩
  deallocate _ h := ⟨h, fun _ covered => covered⟩

instance : DecidablePred fileRules.InRange := fun p =>
  inferInstanceAs (Decidable (FileDisk.InRange p))

theorem holds_new : fileRules.Holds {} {} := ⟨rfl, [], DiskRun.agrees_new, List.not_mem_nil⟩

/-- A client that keeps to the protocol, uses fewer than `2^22` pages and gives a new page back as
dirty first gets from a pool of `n` frames on a new database file what it would get if pages were
looked up by their ids. -/
theorem fileClient_run {n : ℕ} [NeZero n] {α : Type} (script : Script PoolCall.Reply Fault α) {a : α}
    {s : ClientPool} (legal : script.Allowed ClientPool.handle
      (fun s call => ClientPool.Protocol s call ∧ Machine.Careful fileRules s call) (.new n))
    (run : script.run ClientPool.handle (.new n) = .ok (a, s)) :
    ∃ c, script.run (Machine.handle HashedPool.handle) { pool := .new n ({} : FileDisk) } =
      .ok (a, c) := by
  obtain ⟨c, ran, -⟩ := (members_simulate fileRules).run script ⟨_, backs_new holds_new⟩ legal run
  exact ⟨c, ran⟩

/-- One frame: page 0 is changed under its latch, evicted by page 1 and read from the file. -/
def evictedClient : Script PoolCall.Reply Fault UInt8 :=
  .call .newPage fun _ => .call (.wLatch 0) fun _ =>
    .call (.setPage 0 (Mem.write Mem.zero 0 [7])) fun _ => .call (.wUnlatch 0) fun _ =>
      .call (.unpinPage 0 true) fun _ => .call .newPage fun _ => .call (.unpinPage 1 true) fun _ =>
        .call (.fetchPage 0) fun _ => .call (.getPage 0) fun (page : PageData) => .done (page.get 0)

theorem fileClient_run_evicted :
    ∃ c, evictedClient.run (Machine.handle HashedPool.handle) { pool := .new 1 ({} : FileDisk) } =
      .ok (7, c) := by
  obtain ⟨s, run⟩ := Script.exists_of_reply (by decide +kernel :
    (evictedClient.run ClientPool.handle (.new 1)).toOption.map Prod.fst = some 7)
  exact fileClient_run evictedClient (by decide +kernel) run

end ScuDb
