import ScuDb.Buffer.BufferPoolManager
import ScuDb.Lib.FileStream

/-!
# The disk manager

`DiskManager` over one database file.  The buffer pool relies on it as on an `IdealDisk`: a read
returns the last write of the page, or zeros.  The two agree along every run whose reads stay
inside the file and inside the range of `GetFileSize`; a read at the end of the file leaves the
stream failed, and nothing clears it.
-/

namespace ScuDb

open ByteMem FileIo

/-- Conversion to a 32-bit `int`. -/
def toInt (v : ℤ) : ℤ := v.bmod 4294967296

/-- Conversion to a 64-bit `size_t`. -/
def toSizeT (v : ℤ) : ℤ := v % 18446744073709551616

/-- Conversion to a 64-bit `std::streamoff`. -/
def toStreamoff (v : ℤ) : ℤ := v.bmod 18446744073709551616

/-- `DiskManager`, without the log file. -/
structure DiskManager where
  dbIo : FStream := {}

namespace DiskManager

/-- A database file that was just created. -/
def new : DiskManager := {}

/-- `GetFileSize`: `st_size` converted to `int`. -/
def getFileSize (d : DiskManager) : ℤ := toInt d.dbIo.file.size

/-- The `offset` of `WritePage`: a `size_t`, from a product of `int`s. -/
def writeOffset (pageId : PageId) : ℤ := toSizeT (toInt (pageId * pageSize))

/-- The `offset` of `ReadPage`: an `int`. -/
def readOffset (pageId : PageId) : ℤ := toInt (pageId * pageSize)

/-- `WritePage`. -/
def writePage (d : DiskManager) (pageId : PageId) (pageData : PageData) : DiskManager :=
  let offset := writeOffset pageId
  { d with dbIo := (d.dbIo.seekp (toStreamoff offset)).write (pageData.slice 0 pageSize) }

/-- `ReadPage`: the caller's buffer after the call. -/
def readPage (d : DiskManager) (pageId : PageId) (pageData : PageData) :
    PageData × DiskManager :=
  let offset := readOffset pageId
  if offset > d.getFileSize then (pageData, d)
  else
    let (got, dbIo) := (d.dbIo.seekp offset).read pageSize
    let readCount := got.length
    let pageData := pageData.write 0 got
    let pageData := if readCount < pageSize then
      pageData.write readCount (List.replicate (pageSize - readCount) 0) else pageData
    (pageData, { d with dbIo := dbIo })

/-! ## Offsets -/

theorem toInt_eq_iff {v : ℤ} (lo : 0 ≤ v) : toInt v = v ↔ v < 2147483648 := by
  have least : -2147483648 ≤ toInt v := Int.le_bmod (by norm_num)
  have greatest : toInt v < 2147483648 := Int.bmod_lt (by norm_num)
  constructor
  · omega
  · intro hi
    exact Int.bmod_eq_of_le (by omega) (by omega)

theorem readOffset_eq_iff {p : PageId} (lo : 0 ≤ p) : readOffset p = p * 512 ↔ p < 4194304 := by
  have h : readOffset p = toInt (p * 512) := rfl
  rw [h, toInt_eq_iff (by lia)]
  lia

/-- A product that leaves the range of `int` is negative, or short of the true offset, before it
is converted to `size_t`. -/
theorem writeOffset_eq_iff {p : PageId} (lo : 0 ≤ p) (hi : p < 2147483648) :
    writeOffset p = p * 512 ↔ p < 4194304 := by
  have h : writeOffset p = toSizeT (toInt (p * 512)) := rfl
  have least : -2147483648 ≤ toInt (p * 512) := Int.le_bmod (by norm_num)
  have greatest : toInt (p * 512) < 2147483648 := Int.bmod_lt (by norm_num)
  have exact := toInt_eq_iff (v := p * 512) (by lia)
  rw [h]
  unfold toSizeT
  lia

/-- What `WritePage` hands to `seekp` for the pages below `2^22`. -/
theorem toStreamoff_writeOffset {p : PageId} (lo : 0 ≤ p) (hi : p < 4194304) :
    toStreamoff (writeOffset p) = p * 512 := by
  rw [(writeOffset_eq_iff lo (by lia)).2 hi]
  apply Int.bmod_eq_of_le <;> lia

/-- The page at offset `a` and the page at offset `b` have no byte in common. -/
def Apart (a b : ℤ) : Prop := a + pageSize ≤ b ∨ b + pageSize ≤ a

/-- The offset arithmetic is exact on the pages `ids` of a database file. -/
structure OffsetsExact (ids : Set PageId) (d : DiskManager) : Prop where
  writes : ∀ p ∈ ids, writeOffset p = p * pageSize
  reads : ∀ p ∈ ids, readOffset p = p * pageSize
  apart : ∀ p ∈ ids, ∀ q ∈ ids, p ≠ q → Apart (writeOffset p) (writeOffset q) ∧
    Apart (readOffset p) (readOffset q) ∧ Apart (writeOffset p) (readOffset q)
  fileSize : d.getFileSize = d.dbIo.file.size

theorem apart_of_ne {p q : PageId} (ne : p ≠ q) : Apart (p * pageSize) (q * pageSize) := by
  have h : p < q ∨ q < p := lt_or_gt_of_ne ne
  unfold Apart
  lia

/-- The offsets of page ids that `AllocatePage` can return are exact if and only if the ids are
below `2^22` and the file is shorter than `2^31` bytes. -/
theorem offsetsExact_iff {ids : Set PageId} (allocated : ∀ p ∈ ids, 0 ≤ p ∧ p < 2147483648)
    (d : DiskManager) :
    OffsetsExact ids d ↔ (∀ p ∈ ids, p < 4194304) ∧ d.dbIo.file.size < 2147483648 := by
  have fileSize : d.getFileSize = d.dbIo.file.size ↔ d.dbIo.file.size < 2147483648 := by
    have h := toInt_eq_iff (v := (d.dbIo.file.size : ℤ)) (by omega)
    rw [getFileSize, h]
    omega
  constructor
  · intro h
    refine ⟨fun p hp => ?_, fileSize.1 h.fileSize⟩
    exact (readOffset_eq_iff (allocated p hp).1).1 (h.reads p hp)
  · rintro ⟨small, short⟩
    have writes : ∀ p ∈ ids, writeOffset p = p * pageSize := fun p hp =>
      (writeOffset_eq_iff (allocated p hp).1 (allocated p hp).2).2 (small p hp)
    have reads : ∀ p ∈ ids, readOffset p = p * pageSize := fun p hp =>
      (readOffset_eq_iff (allocated p hp).1).2 (small p hp)
    refine ⟨writes, reads, fun p hp q hq ne => ?_, fileSize.2 short⟩
    rw [writes p hp, writes q hq, reads p hp, reads q hq]
    exact ⟨apart_of_ne ne, apart_of_ne ne, apart_of_ne ne⟩

/-- The last page whose offset is an `int`, and its neighbour. -/
theorem offsetsExact_lastPages : OffsetsExact {4194302, 4194303} .new := by
  apply (offsetsExact_iff (by simp) .new).2
  exact ⟨by simp, by decide⟩

/-- `WritePage(2^23, _)` seeks to offset 0, where page 0 is. -/
theorem not_offsetsExact : ¬ ∀ d, OffsetsExact {p | 0 ≤ p ∧ p < 2147483648} d := by
  intro h
  have overlap : ¬ Apart (writeOffset 0) (writeOffset 8388608) := by
    unfold Apart
    decide
  exact overlap ((h .new).apart 0 (by simp) 8388608 (by simp) (by simp)).1

end DiskManager

/-! ## Runs against the ideal disk -/

/-- A disk manager and the ideal disk it stands for. -/
structure DiskRun where
  disk : DiskManager := .new
  ideal : IdealDisk := {}

namespace DiskRun

inductive Call
  | writePage (pageId : PageId) (pageData : PageData)
  | readPage (pageId : PageId) (buffer : PageData)

/-- The page of a call. -/
def Call.pageId : Call → PageId
  | .writePage pageId _ => pageId
  | .readPage pageId _ => pageId

def step (s : DiskRun) : Call → DiskRun
  | .writePage pageId pageData =>
    { disk := s.disk.writePage pageId pageData, ideal := s.ideal.writePage pageId pageData }
  | .readPage pageId buffer => { s with disk := (s.disk.readPage pageId buffer).2 }

/-- Every read of the run fills its buffer with what the ideal disk holds. -/
def ReadsIdeal : DiskRun → List Call → Prop
  | _, [] => True
  | s, .writePage pageId pageData :: rest => ReadsIdeal (s.step (.writePage pageId pageData)) rest
  | s, .readPage pageId buffer :: rest =>
    (s.disk.readPage pageId buffer).1 = s.ideal.readPage pageId ∧
      ReadsIdeal (s.step (.readPage pageId buffer)) rest

/-- The page ids whose offset is an `int`. -/
def InRange (pageId : PageId) : Prop := 0 ≤ pageId ∧ pageId < 4194304

/-- Each read follows a write of its page or of a later one, and no write of page `2^22 - 1`;
`written` are the pages written so far. -/
def ReadsCovered : List PageId → List Call → Prop
  | _, [] => True
  | written, .writePage pageId _ :: rest => ReadsCovered (pageId :: written) rest
  | written, .readPage pageId _ :: rest =>
    (∃ q ∈ written, pageId ≤ q) ∧ 4194303 ∉ written ∧ ReadsCovered written rest

/-- The stream is good and the file holds the ideal pages, after writes of `written`. -/
structure Agrees (written : List PageId) (s : DiskRun) : Prop where
  good : s.disk.dbIo.good = true
  inRange : ∀ q ∈ written, InRange q
  covers : ∀ q ∈ written, (q + 1) * 512 ≤ (s.disk.dbIo.file.size : ℤ)
  size : s.disk.dbIo.file.size = 0 ∨
    ∃ q ∈ written, (s.disk.dbIo.file.size : ℤ) = (q + 1) * 512
  bytes : ∀ p : PageId, 0 ≤ p → ∀ i < pageSize,
    s.disk.dbIo.file.bytes (p.toNat * 512 + i) = (s.ideal.pages p).get i

theorem agrees_new : Agrees [] {} where
  good := rfl
  inRange q h := by simp at h
  covers q h := by simp at h
  size := .inl rfl
  bytes p _ i _ := (Mem.get_zero i).symm

/-- Both paths seek to the true offset. -/
theorem offset_inRange {p : PageId} (h : InRange p) :
    toStreamoff (DiskManager.writeOffset p) = (p.toNat * 512 : ℕ) ∧
      DiskManager.readOffset p = (p.toNat * 512 : ℕ) := by
  rw [DiskManager.toStreamoff_writeOffset h.1 h.2, (DiskManager.readOffset_eq_iff h.1).2 h.2]
  have := h.1
  lia

theorem Agrees.writePage {written : List PageId} {s : DiskRun} (h : Agrees written s)
    {p : PageId} (range : InRange p) (data : PageData) :
    Agrees (p :: written) (s.step (.writePage p data)) := by
  have good : (s.disk.dbIo.seekp ((p.toNat * 512 : ℕ) : ℤ)).good = true := by
    rw [FStream.good_seekp]
    exact h.good
  have pos := FStream.pos_seekp h.good (p.toNat * 512)
  have file := FStream.file_seekp s.disk.dbIo (p.toNat * 512 : ℕ)
  have hdisk : (s.step (.writePage p data)).disk.dbIo =
      (s.disk.dbIo.seekp ((p.toNat * 512 : ℕ) : ℤ)).write (data.slice 0 pageSize) := by
    simp only [step, DiskManager.writePage, (offset_inRange range).1]
  have hsize : (s.step (.writePage p data)).disk.dbIo.file.size =
      max s.disk.dbIo.file.size (p.toNat * 512 + 512) := by
    rw [hdisk, FStream.size_write good, pos, file, Mem.length_slice]
  have nonneg := range.1
  refine ⟨?_, ?_, ?_, ?_, ?_⟩
  · rw [hdisk]
    exact FStream.good_write good _
  · intro q hq
    rcases List.mem_cons.1 hq with rfl | hq
    · exact range
    · exact h.inRange q hq
  · intro q hq
    rw [hsize]
    rcases List.mem_cons.1 hq with rfl | hq
    · lia
    · have := h.covers q hq
      lia
  · right
    rw [hsize]
    rcases le_total (p.toNat * 512 + 512) s.disk.dbIo.file.size with hle | hle
    · rcases h.size with hz | ⟨q, hq, hs⟩
      · omega
      · exact ⟨q, List.mem_cons_of_mem _ hq, by lia⟩
    · exact ⟨p, List.mem_cons_self, by lia⟩
  · intro q hq i hi
    have hi' : i < 512 := hi
    rw [hdisk, FStream.bytes_write good, pos, file, Mem.length_slice]
    simp only [step, IdealDisk.writePage, Function.update_apply]
    by_cases hqp : q = p
    · subst hqp
      rw [if_pos rfl, if_pos (by lia), Nat.add_sub_cancel_left, Mem.getD_slice _ hi,
        Nat.zero_add]
    · have hne : q.toNat ≠ p.toNat := by lia
      rw [if_neg hqp, if_neg (by lia)]
      exact h.bytes q hq i hi

/-- A read inside the file returns the ideal page and changes nothing but the position. -/
theorem Agrees.readPage {written : List PageId} {s : DiskRun} (h : Agrees written s)
    {p : PageId} (range : InRange p) (covered : ∃ q ∈ written, p ≤ q)
    (small : 4194303 ∉ written) (buffer : PageData) :
    (s.disk.readPage p buffer).1 = s.ideal.readPage p ∧
      Agrees written (s.step (.readPage p buffer)) := by
  obtain ⟨q, hq, hle⟩ := covered
  have hcover := h.covers q hq
  have hlt : (s.disk.dbIo.file.size : ℤ) < 2147483648 := by
    rcases h.size with hz | ⟨r, hr, hs⟩
    · omega
    · have hne : r ≠ 4194303 := fun e => small (e ▸ hr)
      have := (h.inRange r hr).2
      lia
  have nonneg := range.1
  have good : (s.disk.dbIo.seekp ((p.toNat * 512 : ℕ) : ℤ)).good = true := by
    rw [FStream.good_seekp]
    exact h.good
  have pos := FStream.pos_seekp h.good (p.toNat * 512)
  have file := FStream.file_seekp s.disk.dbIo (p.toNat * 512 : ℕ)
  have inside : (s.disk.dbIo.seekp ((p.toNat * 512 : ℕ) : ℤ)).pos + pageSize ≤
      (s.disk.dbIo.seekp ((p.toNat * 512 : ℕ) : ℤ)).file.size := by
    rw [pos, file]
    lia
  obtain ⟨got, good', file'⟩ := FStream.read_inside good inside
  have inFile : ¬ ((p.toNat * 512 : ℕ) : ℤ) > s.disk.getFileSize := by
    rw [DiskManager.getFileSize, (DiskManager.toInt_eq_iff (by lia)).2 hlt]
    lia
  have hread : s.disk.readPage p buffer =
      (buffer.write 0 ((s.disk.dbIo.seekp ((p.toNat * 512 : ℕ) : ℤ)).read pageSize).1,
        ⟨((s.disk.dbIo.seekp ((p.toNat * 512 : ℕ) : ℤ)).read pageSize).2⟩) := by
    simp only [DiskManager.readPage, (offset_inRange range).2, if_neg inFile, got, List.length_map,
      List.length_range, lt_self_iff_false, if_false]
  refine ⟨?_, ?_⟩
  · rw [hread, got, pos, file]
    apply Mem.ext
    intro i hi
    rw [Mem.get_write_inside _ (by omega) (by simpa using hi) hi, Nat.sub_zero]
    simpa [List.getD, hi, IdealDisk.readPage] using h.bytes p nonneg i hi
  · have hfile : (s.step (.readPage p buffer)).disk.dbIo.file = s.disk.dbIo.file := by
      simp only [step, hread, file', file]
    refine ⟨?_, h.inRange, ?_, ?_, ?_⟩
    · simp only [step, hread, good']
    · rw [hfile]
      exact h.covers
    · rw [hfile]
      exact h.size
    · rw [hfile]
      exact h.bytes

theorem Agrees.readsIdeal : ∀ {calls : List Call} {written : List PageId} {s : DiskRun},
    Agrees written s → (∀ call ∈ calls, InRange call.pageId) → ReadsCovered written calls →
      s.ReadsIdeal calls
  | [], _, _, _, _, _ => trivial
  | .writePage p data :: rest, written, s, h, range, covered => by
    have h' : Agrees (p :: written) (s.step (.writePage p data)) :=
      h.writePage (range _ List.mem_cons_self) data
    have hrest : (s.step (.writePage p data)).ReadsIdeal rest :=
      Agrees.readsIdeal h' (fun call hc => range call (List.mem_cons_of_mem _ hc)) covered
    exact hrest
  | .readPage p buffer :: rest, written, s, h, range, covered => by
    obtain ⟨hcover, small, covered⟩ := covered
    obtain ⟨hread, h'⟩ := h.readPage (range _ List.mem_cons_self) hcover small buffer
    exact ⟨hread, Agrees.readsIdeal h' (fun call hc => range call (List.mem_cons_of_mem _ hc))
      covered⟩

/-- From an empty file, a run whose reads are covered by earlier writes reads what the ideal disk
holds. -/
theorem readsIdeal_of_covered {calls : List Call} (range : ∀ call ∈ calls, InRange call.pageId)
    (covered : ReadsCovered [] calls) : ReadsIdeal {} calls :=
  agrees_new.readsIdeal range covered

/-- Page 2 is written into the empty file, then pages 1 and 2 are read. -/
theorem readsIdeal_of_covered_hole :
    ReadsIdeal {} [.writePage 2 (Mem.write Mem.zero 0 [7]), .readPage 1 Mem.zero,
      .readPage 2 Mem.zero] :=
  readsIdeal_of_covered
    (by simp [Call.pageId, InRange]) (by simp [ReadsCovered])

/-- A read of the empty file fails the stream, so the write after it is lost. -/
theorem not_readsIdeal_of_inRange :
    ¬ ∀ calls : List Call, (∀ call ∈ calls, InRange call.pageId) → ReadsIdeal {} calls := by
  intro h
  have reads := h [.readPage 0 Mem.zero, .writePage 0 (Mem.write Mem.zero 0 [7]),
    .readPage 0 Mem.zero] (by simp [Call.pageId, InRange])
  have last := reads.2.1
  exact absurd (congrArg (fun m : PageData => m.get 0) last) (by decide +kernel)

end DiskRun

end ScuDb
