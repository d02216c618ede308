import ScuDb.Page.TablePageUndo
import ScuDb.Table.ScanWriters

/-!
# Deadlock of a scan and a writer

`operator++` keeps the read latch of its page while `GetTuple` takes it a second time.  A writer
that claims the latch in between waits for the first read latch to be released, and the second one
waits for the writer.  That is the only way in which all threads can block: in runs in which no
writer claims a page between the two read latches some thread always can go on.
-/

namespace ScuDb

open ByteMem RWMutex

namespace ScanWriters

/-! ## What a thread does between two latch operations -/

/-- The read latches a thread holds. -/
def Pc.reads : Pc → List PageId
  | .scanMove cur _ => [cur]
  | .scanTuple cur _ => [cur]
  | .scanCopied cur rid => [rid.pageId, cur]
  | .scanLeave cur => [cur]
  | _ => []

/-- The write latches a thread holds. -/
def Pc.writes : Pc → List PageId
  | .insertMove _ cur _ => [cur]
  | .insertNew _ cur _ => [cur]
  | .insertLinked _ cur new => [cur, new]
  | .insertLeave cur => [cur]
  | .changeLeave cur => [cur]
  | _ => []

/-- The thread is about to look for a tuple on page `cur`. -/
inductive Pc.LooksAt : Pc → PageId → Prop
  | first (rid : RID) : LooksAt (.scanFirst rid) rid.pageId
  | next (cur : PageId) : LooksAt (.scanNext cur) cur

/-- The thread is about to try an insertion into page `cur`. -/
inductive Pc.InsertsOn : Pc → List UInt8 → PageId → Prop
  | latched (tuple : List UInt8) (cur : PageId) : InsertsOn (.insertAt tuple cur) tuple cur
  | linked (tuple : List UInt8) (cur new : PageId) :
      InsertsOn (.insertLinked tuple cur new) tuple new

/-- All that a thread can do up to its next latch operation. -/
inductive Moves (mem : Memory) : Pc → Pc → Memory → Prop
  | done : Moves mem .done .done mem
  | tuple {pc : Pc} {cur : PageId} (rid : RID) (looks : pc.LooksAt cur)
      (same : rid.pageId = TablePage.getPageId (mem.page cur)) :
      Moves mem pc (.scanTuple cur rid) mem
  | leave {pc : Pc} {cur : PageId} (looks : pc.LooksAt cur) : Moves mem pc (.scanLeave cur) mem
  | move {pc : Pc} {cur : PageId} (looks : pc.LooksAt cur)
      (valid : TablePage.getNextPageId (mem.page cur) ≠ invalidPageId) :
      Moves mem pc (.scanMove cur (TablePage.getNextPageId (mem.page cur))) mem
  | moved (cur next : PageId) : Moves mem (.scanMove cur next) (.scanNext next) mem
  | copied (cur : PageId) (rid : RID) : Moves mem (.scanTuple cur rid) (.scanCopied cur rid) mem
  | back (cur : PageId) (rid : RID) : Moves mem (.scanCopied cur rid) (.scanLeave cur) mem
  | left (cur : PageId) : Moves mem (.scanLeave cur) .done mem
  | inserted {pc : Pc} {tuple : List UInt8} {cur : PageId} (rid : RID) (page : PageData)
      (on : pc.InsertsOn tuple cur)
      (ok : TablePage.insertTuple (mem.page cur) tuple = .ok (some rid, page)) :
      Moves mem pc (.insertLeave cur) (mem.setPage cur page)
  | full {pc : Pc} {tuple : List UInt8} {cur : PageId} (on : pc.InsertsOn tuple cur)
      (valid : TablePage.getNextPageId (mem.page cur) ≠ invalidPageId) :
      Moves mem pc (.insertMove tuple cur (TablePage.getNextPageId (mem.page cur))) mem
  | refused {pc : Pc} {tuple : List UInt8} {cur : PageId} (on : pc.InsertsOn tuple cur) :
      Moves mem pc (.insertLeave cur) mem
  | new {pc : Pc} {tuple : List UInt8} {cur : PageId} (on : pc.InsertsOn tuple cur)
      (room : mem.nextPageId < 2147483647) :
      Moves mem pc (.insertNew tuple cur mem.nextPageId)
        { mem.setPage mem.nextPageId Mem.zero with nextPageId := mem.nextPageId + 1 }
  | insertMoved (tuple : List UInt8) (cur next : PageId) :
      Moves mem (.insertMove tuple cur next) (.insertAt tuple next) mem
  | linked (tuple : List UInt8) (cur new : PageId) (blank : PageData) (prev : PageId) :
      Moves mem (.insertNew tuple cur new) (.insertLinked tuple cur new)
        { (mem.setPage cur (TablePage.setNextPageId (mem.page cur) new)).setPage new
            (TablePage.init blank new pageSize prev) with table := insert new mem.table }
  | insertLeft (cur : PageId) : Moves mem (.insertLeave cur) .done mem
  | changed (change : Change) (rid : RID) (page : PageData)
      (ok : change.apply (mem.page rid.pageId) rid.slotNum = .ok page) :
      Moves mem (.changeAt change rid) (.changeLeave rid.pageId) (mem.setPage rid.pageId page)
  | changeLeft (cur : PageId) : Moves mem (.changeLeave cur) .done mem

variable {mem mem' : Memory} {pc pc' : Pc} {frame : Bool}

theorem moves_scanTo {cur : PageId} {rid : RID} (looks : pc.LooksAt cur)
    (same : rid.pageId = TablePage.getPageId (mem.page cur)) :
    Moves mem pc (scanTo frame cur rid) mem := by
  unfold scanTo
  split_ifs
  · exact .leave looks
  · exact .tuple rid looks same
  · exact .leave looks

theorem moves_scanOn {cur : PageId} (looks : pc.LooksAt cur)
    (h : scanOn frame cur (mem.page cur) = .ok pc') : Moves mem pc pc' mem := by
  unfold scanOn at h
  simp only at h
  split_ifs at h with last hframe
  · cases h
    exact .leave looks
  · cases h
    exact .move looks last

theorem getNextTupleRid_pageId {page : PageData} {rid next : RID}
    (h : TablePage.getNextTupleRid page rid = .ok (some next)) :
    next.pageId = TablePage.getPageId page := by
  simp only [TablePage.getNextTupleRid, bind, Except.bind, pure, Except.pure] at h
  split at h
  · cases h
  · split at h
    · cases h
    · simp only [Except.ok.injEq, Option.map_eq_some_iff] at h
      obtain ⟨i, -, rfl⟩ := h
      rfl

theorem getFirstTupleRid_pageId {page : PageData} {next : RID}
    (h : TablePage.getFirstTupleRid page = some next) :
    next.pageId = TablePage.getPageId page := by
  simp only [TablePage.getFirstTupleRid, Option.map_eq_some_iff] at h
  obtain ⟨i, -, rfl⟩ := h
  rfl

theorem moves_insertOn {tuple : List UInt8} {cur : PageId} (on : pc.InsertsOn tuple cur)
    (h : insertOn frame tuple cur mem = .ok (pc', mem')) : Moves mem pc pc' mem' := by
  unfold insertOn at h
  simp only [bind, Except.bind, pure, Except.pure] at h
  split at h
  · cases h
  · next r hr =>
    obtain ⟨inserted, page⟩ := r
    cases inserted with
    | some rid =>
      cases h
      exact .inserted rid page on hr
    | none =>
      simp only at h
      split_ifs at h with valid noFrame overflow
      · cases h
        exact .full on valid
      · cases h
        exact .refused on
      · cases h
        exact .new on (not_le.1 overflow)

/-- Every step between two latch operations is one of `Moves`. -/
theorem moves_of_advance (h : pc.advance frame mem = .ok (pc', mem')) : Moves mem pc pc' mem' := by
  cases pc with
  | done => cases h; exact .done
  | scanFirst rid =>
    simp only [Pc.advance, bind, Except.bind, pure, Except.pure] at h
    split at h
    · cases h
    · next r hr =>
      cases r with
      | some next =>
        cases h
        exact moves_scanTo (.first rid) (getNextTupleRid_pageId hr)
      | none =>
        simp only at h
        split at h
        · cases h
        · next pc hpc =>
          cases h
          exact moves_scanOn (.first rid) hpc
  | scanMove cur next => cases h; exact .moved cur next
  | scanNext cur =>
    simp only [Pc.advance, bind, Except.bind, pure, Except.pure] at h
    split at h
    · next next hr =>
      cases h
      exact moves_scanTo (.next cur) (getFirstTupleRid_pageId hr)
    · split at h
      · cases h
      · next pc hpc =>
        cases h
        exact moves_scanOn (.next cur) hpc
  | scanTuple cur rid =>
    simp only [Pc.advance, bind, Except.bind, pure, Except.pure] at h
    split at h
    · cases h
    · cases h
      exact .copied cur rid
  | scanCopied cur rid => cases h; exact .back cur rid
  | scanLeave cur => cases h; exact .left cur
  | insertAt tuple cur => exact moves_insertOn (.latched tuple cur) h
  | insertMove tuple cur next => cases h; exact .insertMoved tuple cur next
  | insertNew tuple cur new => cases h; exact .linked tuple cur new _ _
  | insertLinked tuple cur new => exact moves_insertOn (.linked tuple cur new) h
  | insertLeave cur => cases h; exact .insertLeft cur
  | changeAt change rid =>
    simp only [Pc.advance, bind, Except.bind, pure, Except.pure] at h
    split at h
    · cases h
    · next page hpage =>
      cases h
      exact .changed change rid page hpage
  | changeLeave cur => cases h; exact .changeLeft cur

/-! ## The pages of the table -/

/-- The table pages carry their ids, and their links stay in the table. -/
structure Memory.Tidy (mem : Memory) : Prop where
  sound : ∀ q ∈ mem.table, TablePage.Sound (mem.page q)
  pageId : ∀ q ∈ mem.table, TablePage.getPageId (mem.page q) = q
  link : ∀ q ∈ mem.table, TablePage.getNextPageId (mem.page q) = invalidPageId ∨
    TablePage.getNextPageId (mem.page q) ∈ mem.table
  lt : ∀ q ∈ mem.table, q < mem.nextPageId
  nonneg : 0 ≤ mem.nextPageId

/-- A thread works on table pages, `GetTuple` of the scan on the page the scan is at, and a page
that is about to be linked is in nobody else's reach. -/
def Pc.Known (mem : Memory) : Pc → Prop
  | .done => True
  | .scanFirst rid => rid.pageId ∈ mem.table
  | .scanMove cur next => cur ∈ mem.table ∧ next ∈ mem.table
  | .scanNext cur => cur ∈ mem.table
  | .scanTuple cur rid => cur ∈ mem.table ∧ rid.pageId = cur
  | .scanCopied cur rid => cur ∈ mem.table ∧ rid.pageId = cur
  | .scanLeave cur => cur ∈ mem.table
  | .insertAt _ cur => cur ∈ mem.table
  | .insertMove _ cur next => cur ∈ mem.table ∧ next ∈ mem.table
  | .insertNew _ cur new => cur ∈ mem.table ∧ new ∉ mem.table ∧ 0 ≤ new ∧ new < mem.nextPageId ∧
      new < 2147483647
  | .insertLinked _ cur new => cur ∈ mem.table ∧ new ∈ mem.table ∧ cur ≠ new
  | .insertLeave cur => cur ∈ mem.table
  | .changeAt _ rid => rid.pageId ∈ mem.table
  | .changeLeave cur => cur ∈ mem.table

/-- The page a thread has created and not linked yet. -/
def Pc.takes : Pc → Option PageId
  | .insertNew _ _ new => some new
  | _ => none

/-- The page keeps its id, its link and its directory. -/
structure KeepsHeader (p q : PageData) : Prop where
  header : ∀ a < 16, q.get a = p.get a
  sound : TablePage.Sound q

theorem KeepsHeader.pageId {p q : PageData} (h : KeepsHeader p q) :
    TablePage.getPageId q = TablePage.getPageId p :=
  Mem.getInt32_congr fun a _ hi => h.header a (by omega)

theorem KeepsHeader.next {p q : PageData} (h : KeepsHeader p q) :
    TablePage.getNextPageId q = TablePage.getNextPageId p :=
  Mem.getInt32_congr fun a _ hi => h.header a (by omega)

theorem keepsHeader_insert {p q : PageData} {tuple : List UInt8} {rid : RID}
    (h : TablePage.Sound p) (ok : TablePage.insertTuple p tuple = .ok (some rid, q)) :
    KeepsHeader p q := by
  by_cases pos : 0 < tuple.length
  · rcases TablePage.insertTuple_cases h pos with ⟨hr, -⟩ | ⟨i, q', hr, hq⟩
    · rw [hr] at ok
      cases ok
    · rw [hr] at ok
      cases ok
      exact ⟨hq.header, hq.sound h⟩
  · unfold TablePage.insertTuple at ok
    rw [assert_neg pos] at ok
    cases ok

theorem keepsHeader_mark {p q : PageData} {slotNum : ℤ} {b : Bool} (h : TablePage.Sound p)
    (ok : TablePage.markDelete p slotNum = .ok (b, q)) : KeepsHeader p q := by
  by_cases beyond : slotNum ≥ TablePage.getTupleCount p
  · unfold TablePage.markDelete at ok
    rw [if_pos beyond] at ok
    cases ok
    exact ⟨fun _ _ => rfl, h⟩
  · have lt := not_le.1 beyond
    by_cases neg : 0 ≤ slotNum
    · obtain ⟨i, rfl⟩ := Int.eq_ofNat_of_zero_le neg
      rw [TablePage.markDelete_eq lt] at ok
      cases ok
      split_ifs with live
      · have range := Mem.isInt32_getInt32 p (28 + 8 * i)
        have resized := TablePage.resized_setTupleSize h lt (v := -TablePage.getTupleSize p i)
          ⟨by have := range.2; unfold TablePage.getTupleSize; omega, by omega⟩
        exact ⟨fun a ha => resized.below a (by omega), resized.sound h⟩
      · exact ⟨fun _ _ => rfl, h⟩
    · unfold TablePage.markDelete at ok
      rw [if_neg beyond, slotIndex, if_neg neg] at ok
      cases ok

theorem keepsHeader_update {p q : PageData} {slotNum : ℤ} {tuple : List UInt8}
    {r : Option (List UInt8)} (h : TablePage.Sound p)
    (ok : TablePage.updateTuple p tuple slotNum = .ok (r, q)) : KeepsHeader p q := by
  by_cases beyond : slotNum ≥ TablePage.getTupleCount p
  · unfold TablePage.updateTuple at ok
    rw [if_pos beyond] at ok
    cases ok
    exact ⟨fun _ _ => rfl, h⟩
  · have lt := not_le.1 beyond
    by_cases neg : 0 ≤ slotNum
    · obtain ⟨i, rfl⟩ := Int.eq_ofNat_of_zero_le neg
      by_cases fits : TablePage.Fits p tuple i
      · cases r with
        | some old =>
          obtain ⟨updated, -⟩ := TablePage.updated_of_updateTuple h lt ok
          exact ⟨updated.header, updated.sound h⟩
        | none =>
          rw [TablePage.updateTuple_eq lt h fits] at ok
          split_ifs at ok
          cases ok
      · rw [TablePage.updateTuple_refused lt fits] at ok
        cases ok
        exact ⟨fun _ _ => rfl, h⟩
    · unfold TablePage.updateTuple at ok
      rw [if_neg beyond, slotIndex, if_neg neg] at ok
      cases ok

theorem keepsHeader_change {p q : PageData} {slotNum : ℤ} {change : Change}
    (h : TablePage.Sound p) (ok : change.apply p slotNum = .ok q) : KeepsHeader p q := by
  cases change with
  | markDelete =>
    simp only [Change.apply, bind, Except.bind, pure, Except.pure] at ok
    split at ok
    · cases ok
    · next r hr =>
      cases ok
      exact keepsHeader_mark h hr
  | updateTuple tuple =>
    simp only [Change.apply, bind, Except.bind, pure, Except.pure] at ok
    split at ok
    · cases ok
    · next r hr =>
      cases ok
      exact keepsHeader_update h hr

theorem Memory.Tidy.setPage (h : mem.Tidy) {q : PageId} (page : PageData)
    (keeps : q ∈ mem.table → KeepsHeader (mem.page q) page) : (mem.setPage q page).Tidy := by
  have cases (r : PageId) (hr : r ∈ mem.table) : (mem.setPage q page).page r = mem.page r ∨
      KeepsHeader (mem.page r) ((mem.setPage q page).page r) := by
    by_cases hrq : r = q
    · subst hrq
      simpa [Memory.setPage] using Or.inr (keeps hr)
    · exact .inl (Function.update_of_ne hrq _ _)
  refine ⟨fun r hr => ?_, fun r hr => ?_, fun r hr => ?_, h.lt, h.nonneg⟩
  · rcases cases r hr with same | kept
    · rw [same]
      exact h.sound r hr
    · exact kept.sound
  · rcases cases r hr with same | kept
    · rw [same]
      exact h.pageId r hr
    · rw [kept.pageId]
      exact h.pageId r hr
  · rcases cases r hr with same | kept
    · rw [same]
      exact h.link r hr
    · rw [kept.next]
      exact h.link r hr

theorem Pc.LooksAt.known {cur : PageId} (looks : pc.LooksAt cur) (known : pc.Known mem) :
    cur ∈ mem.table := by
  cases looks <;> exact known

theorem Pc.InsertsOn.known {tuple : List UInt8} {cur : PageId} (on : pc.InsertsOn tuple cur)
    (known : pc.Known mem) : cur ∈ mem.table := by
  cases on with
  | latched => exact known
  | linked => exact known.2.1

theorem Memory.Tidy.allocate (h : mem.Tidy) :
    ({ mem.setPage mem.nextPageId Mem.zero with
        nextPageId := mem.nextPageId + 1 } : Memory).Tidy := by
  have fresh : mem.nextPageId ∉ mem.table := fun hm => lt_irrefl _ (h.lt _ hm)
  have tidy := h.setPage (q := mem.nextPageId) Mem.zero fun hm => absurd hm fresh
  refine ⟨tidy.sound, tidy.pageId, tidy.link, fun q hq => ?_, ?_⟩
  · exact (h.lt q hq).trans (Int.lt_succ _)
  · exact h.nonneg.trans (Int.le_of_lt (Int.lt_succ _))

/-- A new page behind a table page. -/
theorem Memory.Tidy.link_new (h : mem.Tidy) {cur new : PageId} (hcur : cur ∈ mem.table)
    (fresh : new ∉ mem.table) (nonneg : 0 ≤ new) (lt : new < mem.nextPageId)
    (range : new < 2147483647) (blank : PageData) (prev : PageId) :
    ({ (mem.setPage cur (TablePage.setNextPageId (mem.page cur) new)).setPage new
        (TablePage.init blank new pageSize prev) with
        table := insert new mem.table } : Memory).Tidy := by
  have int32 : Mem.IsInt32 new := ⟨le_trans (by decide) nonneg, lt_trans range (by decide)⟩
  have hne : cur ≠ new := fun e => fresh (e ▸ hcur)
  have sound : TablePage.Sound (TablePage.setNextPageId (mem.page cur) new) := by
    have hs := h.sound cur hcur
    have count : TablePage.getTupleCount (TablePage.setNextPageId (mem.page cur) new) =
        TablePage.getTupleCount (mem.page cur) := Mem.getInt32_setInt32_disjoint _ (by omega)
    have free : TablePage.getFreeSpacePointer (TablePage.setNextPageId (mem.page cur) new) =
        TablePage.getFreeSpacePointer (mem.page cur) := Mem.getInt32_setInt32_disjoint _ (by omega)
    exact ⟨by rw [count]; exact hs.count, by rw [count, free]; exact hs.directory,
      by rw [free]; exact hs.free⟩
  -- a table page is the new one, the one before it, or unchanged
  refine ⟨fun q hq => ?_, fun q hq => ?_, fun q hq => ?_, fun q hq => ?_, h.nonneg⟩
  · rcases eq_or_ne q new with rfl | hq'
    · simpa [Memory.setPage] using (TablePage.wellFormed_init blank q prev).toSound
    · have old := (Set.mem_insert_iff.1 hq).resolve_left hq'
      rcases eq_or_ne q cur with rfl | hqc
      · simpa [Memory.setPage, hq'] using sound
      · simpa [Memory.setPage, hq', hqc] using h.sound q old
  · rcases eq_or_ne q new with rfl | hq'
    · simpa [Memory.setPage] using TablePage.init_pageId blank q prev int32
    · have old := (Set.mem_insert_iff.1 hq).resolve_left hq'
      rcases eq_or_ne q cur with rfl | hqc
      · have same : TablePage.getPageId (TablePage.setNextPageId (mem.page q) new) =
            TablePage.getPageId (mem.page q) := Mem.getInt32_setInt32_disjoint _ (by omega)
        simpa [Memory.setPage, hq', same] using h.pageId q old
      · simpa [Memory.setPage, hq', hqc] using h.pageId q old
  · rcases eq_or_ne q new with rfl | hq'
    · simpa [Memory.setPage] using Or.inl (TablePage.init_next blank q prev)
    · have old := (Set.mem_insert_iff.1 hq).resolve_left hq'
      rcases eq_or_ne q cur with rfl | hqc
      · have next : TablePage.getNextPageId (TablePage.setNextPageId (mem.page q) new) = new :=
          Mem.getInt32_setInt32_self _ (by decide) int32
        simp [Memory.setPage, hq', next]
      · have := h.link q old
        simp only [Memory.setPage, Function.update_of_ne hq', Function.update_of_ne hqc,
          Set.mem_insert_iff]
        tauto
  · rcases Set.mem_insert_iff.1 hq with rfl | hq
    · exact lt
    · exact h.lt q hq

/-- What a thread does keeps the table tidy and the thread on known pages. -/
theorem Moves.tidy (moves : Moves mem pc pc' mem') (h : mem.Tidy) (known : pc.Known mem) :
    mem'.Tidy ∧ pc'.Known mem' := by
  cases moves with
  | done => exact ⟨h, trivial⟩
  | tuple rid looks same =>
    have hcur := looks.known known
    exact ⟨h, hcur, same.trans (h.pageId _ hcur)⟩
  | leave looks => exact ⟨h, looks.known known⟩
  | move looks valid =>
    have hcur := looks.known known
    exact ⟨h, hcur, (h.link _ hcur).resolve_left valid⟩
  | moved cur next => exact ⟨h, known.2⟩
  | copied cur rid => exact ⟨h, known⟩
  | back cur rid => exact ⟨h, known.1⟩
  | left cur => exact ⟨h, trivial⟩
  | inserted rid page on ok =>
    have hcur := on.known known
    exact ⟨h.setPage _ fun hm => keepsHeader_insert (h.sound _ hm) ok, hcur⟩
  | full on valid =>
    have hcur := on.known known
    exact ⟨h, hcur, (h.link _ hcur).resolve_left valid⟩
  | refused on => exact ⟨h, on.known known⟩
  | new on room =>
    have hcur := on.known known
    exact ⟨h.allocate, hcur, fun hm => lt_irrefl _ (h.lt _ hm), h.nonneg,
      Int.lt_succ _, room⟩
  | insertMoved tuple cur next => exact ⟨h, known.2⟩
  | linked tuple cur new blank prev =>
    obtain ⟨hcur, fresh, nonneg, lt, range⟩ := known
    exact ⟨h.link_new hcur fresh nonneg lt range blank prev, Set.mem_insert_of_mem _ hcur,
      Set.mem_insert _ _, fun e => fresh (e ▸ hcur)⟩
  | insertLeft cur => exact ⟨h, trivial⟩
  | changed change rid page ok =>
    exact ⟨h.setPage _ fun hm => keepsHeader_change (h.sound _ hm) ok, known⟩
  | changeLeft cur => exact ⟨h, trivial⟩

/-- The table only grows, by the page that is linked; ids only go up. -/
theorem Moves.grows (moves : Moves mem pc pc' mem') :
    mem.table ⊆ mem'.table ∧ (∀ q ∈ mem'.table, q ∈ mem.table ∨ pc.takes = some q) ∧
      mem.nextPageId ≤ mem'.nextPageId ∧
      ∀ n, pc'.takes = some n → n = mem.nextPageId := by
  cases moves with
  | linked tuple cur new blank prev =>
    refine ⟨Set.subset_insert _ _, fun q hq => ?_, le_rfl, fun n hn => by cases hn⟩
    rcases Set.mem_insert_iff.1 hq with rfl | hq
    · exact .inr rfl
    · exact .inl hq
  | new on room =>
    refine ⟨subset_rfl, fun q hq => .inl hq, (Int.lt_succ _).le, fun n hn => ?_⟩
    exact (Option.some.inj hn).symm
  | _ => exact ⟨subset_rfl, fun q hq => .inl hq, le_rfl, fun n hn => by cases hn⟩

/-- What the other threads know stays true. -/
theorem Pc.Known.mono {other : Pc} (known : other.Known mem) (sub : mem.table ⊆ mem'.table)
    (grown : ∀ q ∈ mem'.table, q ∈ mem.table ∨ other.takes ≠ some q)
    (le : mem.nextPageId ≤ mem'.nextPageId) : other.Known mem' := by
  cases other with
  | done => trivial
  | insertNew tuple cur new =>
    obtain ⟨hcur, fresh, nonneg, lt, range⟩ := known
    refine ⟨sub hcur, fun hm => ?_, nonneg, lt.trans_le le, range⟩
    rcases grown new hm with hm | hm
    · exact fresh hm
    · exact hm rfl
  | scanMove cur next | insertMove tuple cur next => exact ⟨sub known.1, sub known.2⟩
  | scanTuple cur rid | scanCopied cur rid => exact ⟨sub known.1, known.2⟩
  | insertLinked tuple cur new => exact ⟨sub known.1, sub known.2.1, known.2.2⟩
  | scanFirst rid | scanNext cur | scanLeave cur | insertAt tuple cur | insertLeave cur
  | changeAt change rid | changeLeave cur => exact sub known

/-! ## The steps of the system -/

variable {Tid : Type} [DecidableEq Tid] {scanner t : Tid} {s s' : System Tid}

/-- Thread `t` gets past its latch operation on `p`, which left the latch as `mutex`. -/
def System.pass (s : System Tid) (t : Tid) (p : PageId) (mutex : RWMutex) (pc : Pc)
    (mem : Memory) (stage : Tid → Stage) : System Tid :=
  ⟨mem, Function.update s.latch p mutex, Function.update s.pc t pc, stage⟩

/-- All that a step of thread `t` can do. -/
inductive Acts (scanner t : Tid) (s : System Tid) : System Tid → Prop
  | call (pc : Pc) (free : (s.pc t).op = none) (starts : Starts s.mem.table (t = scanner) pc) :
      Acts scanner t s { s with pc := Function.update s.pc t pc }
  | wWait (p : PageId) (op : (s.pc t).op = some (.wLock p))
      (ready : s.stage t = .idle ∨ s.stage t = .entering true)
      (entered : (s.latch p).writerEntered = true) :
      Acts scanner t s { s with stage := Function.update s.stage t (.entering false) }
  | wClaim (p : PageId) (op : (s.pc t).op = some (.wLock p))
      (ready : s.stage t = .idle ∨ s.stage t = .entering true)
      (free : (s.latch p).writerEntered = false) (readers : (s.latch p).readerCount > 0) :
      Acts scanner t s { s with
        latch := Function.update s.latch p { s.latch p with writerEntered := true }
        stage := Function.update s.stage t (.draining false) }
  | wPass (p : PageId) (pc' : Pc) (mem' : Memory) (op : (s.pc t).op = some (.wLock p))
      (ready : s.stage t = .idle ∨ s.stage t = .entering true)
      (free : (s.latch p).writerEntered = false) (empty : ¬ (s.latch p).readerCount > 0)
      (moves : Moves s.mem (s.pc t) pc' mem') :
      Acts scanner t s (s.pass t p { s.latch p with writerEntered := true } pc' mem'
        (Function.update s.stage t .idle))
  | dWait (p : PageId) (op : (s.pc t).op = some (.wLock p)) (ready : s.stage t = .draining true)
      (readers : (s.latch p).readerCount > 0) :
      Acts scanner t s { s with stage := Function.update s.stage t (.draining false) }
  | dPass (p : PageId) (pc' : Pc) (mem' : Memory) (op : (s.pc t).op = some (.wLock p))
      (ready : s.stage t = .draining true) (empty : ¬ (s.latch p).readerCount > 0)
      (moves : Moves s.mem (s.pc t) pc' mem') :
      Acts scanner t s (s.pass t p (s.latch p) pc' mem' (Function.update s.stage t .idle))
  | rWait (p : PageId) (op : (s.pc t).op = some (.rLock p))
      (ready : s.stage t = .idle ∨ s.stage t = .joining true)
      (full : ((s.latch p).writerEntered || (s.latch p).readerCount == maxReaders) = true) :
      Acts scanner t s { s with stage := Function.update s.stage t (.joining false) }
  | rPass (p : PageId) (pc' : Pc) (mem' : Memory) (op : (s.pc t).op = some (.rLock p))
      (ready : s.stage t = .idle ∨ s.stage t = .joining true)
      (free : ((s.latch p).writerEntered || (s.latch p).readerCount == maxReaders) = false)
      (moves : Moves s.mem (s.pc t) pc' mem') :
      Acts scanner t s (s.pass t p { s.latch p with readerCount := (s.latch p).readerCount + 1 }
        pc' mem' (Function.update s.stage t .idle))
  | rLeave (p : PageId) (pc' : Pc) (mem' : Memory) (woken : Tid → Bool)
      (op : (s.pc t).op = some (.rUnlock p))
      (wakes : (s.latch p).rUnlock.2.Wakes (s.sleeps p) woken)
      (moves : Moves s.mem (s.pc t) pc' mem') :
      Acts scanner t s (s.pass t p (s.latch p).rUnlock.1 pc' mem' (wakeAll s.stage woken))
  | wLeave (p : PageId) (pc' : Pc) (mem' : Memory) (woken : Tid → Bool)
      (op : (s.pc t).op = some (.wUnlock p))
      (wakes : (s.latch p).wUnlock.2.Wakes (s.sleeps p) woken)
      (moves : Moves s.mem (s.pc t) pc' mem') :
      Acts scanner t s (s.pass t p (s.latch p).wUnlock.1 pc' mem' (wakeAll s.stage woken))
  | wake (sleeps : (s.stage t).sleepsOn ≠ none) :
      Acts scanner t s { s with stage := Function.update s.stage t (s.stage t).wake }

theorem settle_wait {p : PageId} {stage : Stage} {mutex : RWMutex}
    (waits : stage ≠ .reading ∧ stage ≠ .writing)
    (ok : s.settle t p (stage, mutex) frame = .ok s') :
    s' = { s with latch := Function.update s.latch p mutex,
                  stage := Function.update s.stage t stage } := by
  unfold System.settle at ok
  rw [if_neg (by simp [waits])] at ok
  cases ok
  rfl

theorem settle_pass {p : PageId} {stage : Stage} {mutex : RWMutex}
    (past : stage = .reading ∨ stage = .writing)
    (ok : s.settle t p (stage, mutex) frame = .ok s') :
    ∃ pc' mem', Moves s.mem (s.pc t) pc' mem' ∧
      s' = s.pass t p mutex pc' mem' (Function.update s.stage t .idle) := by
  unfold System.settle at ok
  rw [if_pos past] at ok
  simp only [bind, Except.bind, pure, Except.pure] at ok
  split at ok
  · cases ok
  · next r hr =>
    cases ok
    exact ⟨r.1, r.2, moves_of_advance hr, rfl⟩

theorem release_pass {p : PageId} {mutex : RWMutex} {woken : Tid → Bool}
    (ok : s.release t p mutex woken frame = .ok s') :
    ∃ pc' mem', Moves s.mem (s.pc t) pc' mem' ∧
      s' = s.pass t p mutex pc' mem' (wakeAll s.stage woken) := by
  unfold System.release at ok
  simp only [bind, Except.bind, pure, Except.pure] at ok
  split at ok
  · cases ok
  · next r hr =>
    cases ok
    exact ⟨r.1, r.2, moves_of_advance hr, rfl⟩

theorem acts_of_step (step : Step scanner t s s') : Acts scanner t s s' := by
  cases step with
  | call pc free starts => exact .call pc free starts
  | rLock p frame _ op ready ok =>
    unfold RWMutex.rLock at ok
    split_ifs at ok with full
    · obtain rfl := settle_wait (by simp) ok
      rw [Function.update_eq_self]
      exact .rWait p op ready full
    · obtain ⟨pc', mem', moves, rfl⟩ := settle_pass (.inl rfl) ok
      exact .rPass p pc' mem' op ready (by simpa using full) moves
  | wLock p frame _ op ready ok =>
    unfold RWMutex.wLock RWMutex.drain at ok
    split_ifs at ok with entered readers
    · obtain rfl := settle_wait (by simp) ok
      rw [Function.update_eq_self]
      exact .wWait p op ready entered
    · obtain rfl := settle_wait (by simp) ok
      exact .wClaim p op ready (by simpa using entered) readers
    · obtain ⟨pc', mem', moves, rfl⟩ := settle_pass (.inr rfl) ok
      exact .wPass p pc' mem' op ready (by simpa using entered) readers moves
  | drain p frame _ op ready ok =>
    unfold RWMutex.drain at ok
    split_ifs at ok with readers
    · obtain rfl := settle_wait (by simp) ok
      rw [Function.update_eq_self]
      exact .dWait p op ready readers
    · obtain ⟨pc', mem', moves, rfl⟩ := settle_pass (.inr rfl) ok
      exact .dPass p pc' mem' op ready readers moves
  | rUnlock p frame woken _ op wakes ok =>
    obtain ⟨pc', mem', moves, rfl⟩ := release_pass ok
    exact .rLeave p pc' mem' woken op wakes moves
  | wUnlock p frame woken _ op wakes ok =>
    obtain ⟨pc', mem', moves, rfl⟩ := release_pass ok
    exact .wLeave p pc' mem' woken op wakes moves
  | wake sleeps => exact .wake sleeps

/-! ## The threads and the table -/

/-- The thread runs `operator++`. -/
def Pc.Scans : Pc → Prop
  | .scanFirst _ | .scanMove _ _ | .scanNext _ | .scanTuple _ _ | .scanCopied _ _
  | .scanLeave _ => True
  | _ => False

theorem Moves.scans (moves : Moves mem pc pc' mem') (scans : pc'.Scans) : pc.Scans := by
  cases moves with
  | tuple rid looks same => cases looks <;> trivial
  | leave looks => cases looks <;> trivial
  | move looks valid => cases looks <;> trivial
  | moved | copied | back | left => trivial
  | _ => exact scans.elim

/-- The table is tidy, the threads know its pages, no page is linked twice, and only `scanner`
scans. -/
structure Tidy (scanner : Tid) (s : System Tid) : Prop where
  mem : s.mem.Tidy
  known : ∀ t, (s.pc t).Known s.mem
  fresh : ∀ t u n, (s.pc t).takes = some n → (s.pc u).takes = some n → t = u
  role : ∀ t, (s.pc t).Scans → t = scanner

theorem Pc.Known.takes_lt {n : PageId} (known : pc.Known mem) (takes : pc.takes = some n) :
    n < mem.nextPageId := by
  cases pc with
  | insertNew tuple cur new =>
    cases takes
    exact known.2.2.2.1
  | _ => cases takes

theorem Tidy.pass (h : Tidy scanner s) {pc' : Pc} {mem' : Memory}
    (moves : Moves s.mem (s.pc t) pc' mem') (p : PageId) (mutex : RWMutex) (stage : Tid → Stage) :
    Tidy scanner (s.pass t p mutex pc' mem' stage) := by
  obtain ⟨tidy, known⟩ := moves.tidy h.mem (h.known t)
  obtain ⟨sub, grown, le, new⟩ := moves.grows
  refine ⟨tidy, fun u => ?_, fun u v n hu hv => ?_, fun u hu => ?_⟩
  · rcases eq_or_ne u t with rfl | hut
    · simpa [System.pass] using known
    · simp only [System.pass, Function.update_of_ne hut]
      refine (h.known u).mono sub (fun q hq => ?_) le
      rcases grown q hq with hq | hq
      · exact .inl hq
      · exact .inr fun takes => hut (h.fresh u t q takes hq)
  · -- a page just created is taken by nobody else
    have younger (w : Tid) (hw : (s.pc w).takes = some n) (hn : pc'.takes = some n) : False :=
      absurd ((h.known w).takes_lt hw) (by rw [new n hn]; exact lt_irrefl _)
    rcases eq_or_ne u t with rfl | hut <;> rcases eq_or_ne v u with rfl | hvu
    · rfl
    · simp only [System.pass, Function.update_self, Function.update_of_ne hvu] at hu hv
      exact (younger v hv hu).elim
    · rfl
    · simp only [System.pass, Function.update_of_ne hut] at hu
      rcases eq_or_ne v t with rfl | hvt
      · simp only [System.pass, Function.update_self] at hv
        exact (younger u hu hv).elim
      · simp only [System.pass, Function.update_of_ne hvt] at hv
        exact h.fresh u v n hu hv
  · rcases eq_or_ne u t with rfl | hut
    · simp only [System.pass, Function.update_self] at hu
      exact h.role u (moves.scans hu)
    · simp only [System.pass, Function.update_of_ne hut] at hu
      exact h.role u hu

theorem Tidy.acts (h : Tidy scanner s) (acts : Acts scanner t s s') : Tidy scanner s' := by
  cases acts with
  | call pc free starts =>
    have takes : pc.takes = none := by
      cases starts <;> rfl
    have known : pc.Known s.mem := by
      cases starts <;> assumption
    refine ⟨h.mem, fun u => ?_, fun u v n hu hv => ?_, fun u hu => ?_⟩
    · rcases eq_or_ne u t with rfl | hut
      · simpa using known
      · simpa [hut] using h.known u
    · have other (w : Tid) (hw : (Function.update s.pc t pc w).takes = some n) :
          (s.pc w).takes = some n := by
        rcases eq_or_ne w t with rfl | hwt
        · simp [takes] at hw
        · simpa [hwt] using hw
      exact h.fresh u v n (other u hu) (other v hv)
    · rcases eq_or_ne u t with rfl | hut
      · simp only [Function.update_self] at hu
        cases starts with
        | scan rid hr role => exact role
        | insert | change => exact hu.elim
      · simp only [Function.update_of_ne hut] at hu
        exact h.role u hu
  | wPass p pc' mem' op ready free empty moves => exact h.pass moves _ _ _
  | dPass p pc' mem' op ready empty moves => exact h.pass moves _ _ _
  | rPass p pc' mem' op ready free moves => exact h.pass moves _ _ _
  | rLeave p pc' mem' woken op wakes moves => exact h.pass moves _ _ _
  | wLeave p pc' mem' woken op wakes moves => exact h.pass moves _ _ _
  | wWait | wClaim | dWait | rWait | wake => exact ⟨h.mem, h.known, h.fresh, h.role⟩

/-! ## The latches -/

/-- A thread at `pc` in the given stage has set `writer_entered_` of the latch of `p`. -/
def ClaimsAt (pc : Pc) (stage : Stage) (p : PageId) : Prop :=
  (pc.op = some (.wLock p) ∧ ∃ woken, stage = .draining woken) ∨ p ∈ pc.writes

def Claims (s : System Tid) (t : Tid) (p : PageId) : Prop := ClaimsAt (s.pc t) (s.stage t) p

/-- The stages of a thread whose next latch operation is given. -/
def StageOk : Option LatchOp → Stage → Prop
  | some (.wLock _), stage =>
    stage = .idle ∨ (∃ woken, stage = .entering woken) ∨ ∃ woken, stage = .draining woken
  | some (.rLock _), stage => stage = .idle ∨ ∃ woken, stage = .joining woken
  | _, stage => stage = .idle

/-- Every latch shows who has claimed it and how often the scan has read-latched it, and every
thread that sleeps has a reason to. -/
structure Latched (scanner : Tid) (s : System Tid) : Prop where
  stages : ∀ t, StageOk (s.pc t).op (s.stage t)
  claimed : ∀ p, (s.latch p).writerEntered = true ↔ ∃ t, Claims s t p
  unique : ∀ p t u, Claims s t p → Claims s u p → t = u
  readers : ∀ p, (s.latch p).readerCount.toNat = (s.pc scanner).reads.count p
  entering : ∀ t p, (s.pc t).op = some (.wLock p) → s.stage t = .entering false →
    (s.latch p).writerEntered = true
  draining : ∀ t p, (s.pc t).op = some (.wLock p) → s.stage t = .draining false →
    (s.latch p).readerCount > 0
  joining : ∀ t p, (s.pc t).op = some (.rLock p) → s.stage t = .joining false →
    (s.latch p).writerEntered = true

section Holds

variable {p : PageId}

theorem Moves.rLock (moves : Moves mem pc pc' mem') (op : pc.op = some (.rLock p)) :
    pc'.reads = p :: pc.reads ∧ pc.writes = [] ∧ pc'.writes = [] ∧ pc.Scans := by
  cases moves with
  | tuple rid looks same => cases looks <;> cases op <;> exact ⟨rfl, rfl, rfl, trivial⟩
  | leave looks => cases looks <;> cases op <;> exact ⟨rfl, rfl, rfl, trivial⟩
  | move looks valid => cases looks <;> cases op <;> exact ⟨rfl, rfl, rfl, trivial⟩
  | copied cur rid => cases op; exact ⟨rfl, rfl, rfl, trivial⟩
  | inserted rid page on ok => cases on <;> cases op
  | full on valid => cases on <;> cases op
  | refused on => cases on <;> cases op
  | new on room => cases on <;> cases op
  | _ => cases op

theorem Moves.rUnlock (moves : Moves mem pc pc' mem') (op : pc.op = some (.rUnlock p)) :
    pc.reads = p :: pc'.reads ∧ pc.writes = [] ∧ pc'.writes = [] ∧ pc.Scans := by
  cases moves with
  | tuple rid looks same => cases looks <;> cases op
  | leave looks => cases looks <;> cases op
  | move looks valid => cases looks <;> cases op
  | moved cur next => cases op; exact ⟨rfl, rfl, rfl, trivial⟩
  | back cur rid => cases op; exact ⟨rfl, rfl, rfl, trivial⟩
  | left cur => cases op; exact ⟨rfl, rfl, rfl, trivial⟩
  | inserted rid page on ok => cases on <;> cases op
  | full on valid => cases on <;> cases op
  | refused on => cases on <;> cases op
  | new on room => cases on <;> cases op
  | _ => cases op

theorem Moves.wLock (moves : Moves mem pc pc' mem') (op : pc.op = some (.wLock p)) :
    (∀ q, q ∈ pc'.writes ↔ q = p ∨ q ∈ pc.writes) ∧ pc.reads = [] ∧ pc'.reads = [] := by
  cases moves with
  | tuple rid looks same => cases looks <;> cases op
  | leave looks => cases looks <;> cases op
  | move looks valid => cases looks <;> cases op
  | inserted rid page on ok => cases on <;> cases op; simp [Pc.writes, Pc.reads]
  | full on valid => cases on <;> cases op; simp [Pc.writes, Pc.reads]
  | refused on => cases on <;> cases op; simp [Pc.writes, Pc.reads]
  | new on room => cases on <;> cases op; simp [Pc.writes, Pc.reads]
  | linked tuple cur new blank prev =>
    cases op
    refine ⟨fun q => ?_, rfl, rfl⟩
    simp only [Pc.writes, List.mem_cons, List.not_mem_nil, or_false]
    exact or_comm
  | changed change rid page ok => cases op; simp [Pc.writes, Pc.reads]
  | _ => cases op

theorem Moves.wUnlock (moves : Moves mem pc pc' mem') (known : pc.Known mem)
    (op : pc.op = some (.wUnlock p)) :
    p ∈ pc.writes ∧ (∀ q, q ∈ pc'.writes ↔ q ∈ pc.writes ∧ q ≠ p) ∧ pc.reads = [] ∧
      pc'.reads = [] := by
  have second {cur new : PageId} (hne : cur ≠ new) (q : PageId) :
      q = new ↔ (q = cur ∨ q = new) ∧ q ≠ cur := by
    constructor
    · rintro rfl
      exact ⟨.inr rfl, hne.symm⟩
    · rintro ⟨hq, hqc⟩
      exact hq.resolve_left hqc
  cases moves with
  | tuple rid looks same => cases looks <;> cases op
  | leave looks => cases looks <;> cases op
  | move looks valid => cases looks <;> cases op
  | inserted rid page on ok =>
    cases on <;> cases op
    simpa [Pc.writes, Pc.reads] using second known.2.2
  | full on valid =>
    cases on <;> cases op
    simpa [Pc.writes, Pc.reads] using second known.2.2
  | refused on =>
    cases on <;> cases op
    simpa [Pc.writes, Pc.reads] using second known.2.2
  | new on room =>
    cases on <;> cases op
    simpa [Pc.writes, Pc.reads] using second known.2.2
  | insertMoved tuple cur next => cases op; simp [Pc.writes, Pc.reads]
  | insertLeft cur => cases op; simp [Pc.writes, Pc.reads]
  | changeLeft cur => cases op; simp [Pc.writes, Pc.reads]
  | _ => cases op

end Holds

/-- A thread between calls holds no latch. -/
theorem holds_nothing (free : pc.op = none) : pc.reads = [] ∧ pc.writes = [] := by
  cases pc <;> first | exact ⟨rfl, rfl⟩ | cases free

theorem claimsAt_idle {p : PageId} : ClaimsAt pc .idle p ↔ p ∈ pc.writes := by
  simp [ClaimsAt]

theorem claimsAt_wake {stage : Stage} {p : PageId} :
    ClaimsAt pc stage.wake p ↔ ClaimsAt pc stage p := by
  cases stage <;> simp [ClaimsAt, Stage.wake]

theorem stageOk_wake {op : Option LatchOp} {stage : Stage} (h : StageOk op stage) :
    StageOk op stage.wake := by
  cases op with
  | none => exact (congrArg Stage.wake h : _ = Stage.idle)
  | some op =>
    cases op with
    | wLock p =>
      rcases h with rfl | ⟨_, rfl⟩ | ⟨_, rfl⟩
      · exact .inl rfl
      · exact .inr (.inl ⟨_, rfl⟩)
      · exact .inr (.inr ⟨_, rfl⟩)
    | rLock p =>
      rcases h with rfl | ⟨_, rfl⟩
      · exact .inl rfl
      · exact .inr ⟨_, rfl⟩
    | rUnlock p => exact (congrArg Stage.wake h : _ = Stage.idle)
    | wUnlock p => exact (congrArg Stage.wake h : _ = Stage.idle)

/-- A stage that is the old one or the old one woken. -/
def Drowsy (old new : Stage) : Prop := new = old ∨ new = old.wake

theorem Drowsy.claims {old new : Stage} (h : Drowsy old new) {p : PageId} :
    ClaimsAt pc new p ↔ ClaimsAt pc old p := by
  rcases h with rfl | rfl
  · rfl
  · exact claimsAt_wake

theorem Drowsy.ok {old new : Stage} (h : Drowsy old new) {op : Option LatchOp}
    (ok : StageOk op old) : StageOk op new := by
  rcases h with rfl | rfl
  · exact ok
  · exact stageOk_wake ok

/-- Who still sleeps has slept before. -/
theorem Drowsy.asleep {old new : Stage} (h : Drowsy old new) (sleeps : new.sleepsOn ≠ none) :
    new = old := by
  rcases h with rfl | rfl
  · rfl
  · cases old <;> simp [Stage.wake, Stage.sleepsOn] at sleeps ⊢

theorem drowsy_wakeAll {Tid : Type} (stage : Tid → Stage) (woken : Tid → Bool) (u : Tid) :
    Drowsy (stage u) (wakeAll stage woken u) := by
  unfold wakeAll
  split_ifs
  · exact .inr rfl
  · exact .inl rfl

omit [DecidableEq Tid] in
/-- Threads only change their stages, without a new claim. -/
theorem Latched.restage (h : Latched scanner s) {stage : Tid → Stage}
    (ok : ∀ u, StageOk (s.pc u).op (stage u))
    (claims : ∀ u p, ClaimsAt (s.pc u) (stage u) p ↔ ClaimsAt (s.pc u) (s.stage u) p)
    (entering : ∀ u p, (s.pc u).op = some (.wLock p) → stage u = .entering false →
      s.stage u = .entering false ∨ (s.latch p).writerEntered = true)
    (draining : ∀ u p, (s.pc u).op = some (.wLock p) → stage u = .draining false →
      s.stage u = .draining false ∨ (s.latch p).readerCount > 0)
    (joining : ∀ u p, (s.pc u).op = some (.rLock p) → stage u = .joining false →
      s.stage u = .joining false ∨ (s.latch p).writerEntered = true) :
    Latched scanner { s with stage := stage } := by
  refine ⟨ok, fun p => ?_, fun p u v hu hv => ?_, h.readers, fun u p op hu => ?_,
    fun u p op hu => ?_, fun u p op hu => ?_⟩
  · rw [h.claimed p]
    exact exists_congr fun u => (claims u p).symm
  · exact h.unique p u v ((claims u p).1 hu) ((claims v p).1 hv)
  · exact (entering u p op hu).elim (h.entering u p op) id
  · exact (draining u p op hu).elim (h.draining u p op) id
  · exact (joining u p op hu).elim (h.joining u p op) id

/-- Thread `t` gets past its operation on the latch of `p`; other threads may be woken. -/
theorem Latched.pass (h : Latched scanner s) {p : PageId} {mutex : RWMutex} {stage : Tid → Stage}
    (idle : stage t = .idle) (others : ∀ u, u ≠ t → Drowsy (s.stage u) (stage u))
    (drains : ∀ q, ClaimsAt (s.pc t) (s.stage t) q → q = p ∨ q ∈ (s.pc t).writes)
    (writes : ∀ q, q ≠ p → (q ∈ pc'.writes ↔ q ∈ (s.pc t).writes))
    (claimed : mutex.writerEntered = true ↔ p ∈ pc'.writes ∨ ∃ u, u ≠ t ∧ Claims s u p)
    (alone : p ∈ pc'.writes → ∀ u, u ≠ t → ¬ Claims s u p)
    (readers : ∀ q, (if q = p then mutex else s.latch q).readerCount.toNat =
      (Function.update s.pc t pc' scanner).reads.count q)
    (entering : ∀ u, u ≠ t → (s.pc u).op = some (.wLock p) → stage u = .entering false →
      mutex.writerEntered = true)
    (draining : ∀ u, u ≠ t → (s.pc u).op = some (.wLock p) → stage u = .draining false →
      mutex.readerCount > 0)
    (joining : ∀ u, u ≠ t → (s.pc u).op = some (.rLock p) → stage u = .joining false →
      mutex.writerEntered = true) :
    Latched scanner (s.pass t p mutex pc' mem' stage) := by
  have self (q : PageId) : Claims (s.pass t p mutex pc' mem' stage) t q ↔ q ∈ pc'.writes := by
    simp only [Claims, System.pass, Function.update_self, idle, claimsAt_idle]
  have other (u : Tid) (hut : u ≠ t) (q : PageId) :
      Claims (s.pass t p mutex pc' mem' stage) u q ↔ Claims s u q := by
    simp only [Claims, System.pass, Function.update_of_ne hut]
    exact (others u hut).claims
  have before (q : PageId) (hq : q ≠ p) : Claims s t q ↔ q ∈ pc'.writes := by
    rw [writes q hq]
    exact ⟨fun hc => (drains q hc).resolve_left hq, .inr⟩
  have slept (u : Tid) (hut : u ≠ t) (sleeps : (stage u).sleepsOn ≠ none) : stage u = s.stage u :=
    (others u hut).asleep sleeps
  have tail (u : Tid) (sleeps : stage u ≠ .idle) : u ≠ t := by
    rintro rfl
    exact sleeps idle
  refine ⟨fun u => ?_, fun q => ?_, fun q u v hu hv => ?_, fun q => ?_, fun u q op hu => ?_,
    fun u q op hu => ?_, fun u q op hu => ?_⟩
  · rcases eq_or_ne u t with rfl | hut
    · simp only [System.pass, Function.update_self, idle]
      cases pc'.op with
      | none => rfl
      | some op => cases op <;> simp [StageOk]
    · simp only [System.pass, Function.update_of_ne hut]
      exact (others u hut).ok (h.stages u)
  · rcases eq_or_ne q p with rfl | hq
    · simp only [System.pass, Function.update_self]
      rw [claimed]
      constructor
      · rintro (hw | ⟨u, hut, hu⟩)
        · exact ⟨t, (self q).2 hw⟩
        · exact ⟨u, (other u hut q).2 hu⟩
      · rintro ⟨u, hu⟩
        rcases eq_or_ne u t with rfl | hut
        · exact .inl ((self q).1 hu)
        · exact .inr ⟨u, hut, (other u hut q).1 hu⟩
    · have same : (s.pass t p mutex pc' mem' stage).latch q = s.latch q :=
        Function.update_of_ne hq _ _
      rw [same, h.claimed q]
      refine exists_congr fun u => ?_
      rcases eq_or_ne u t with rfl | hut
      · rw [self q, before q hq]
      · rw [other u hut q]
  · rcases eq_or_ne q p with rfl | hq
    · rcases eq_or_ne u t with rfl | hut <;> rcases eq_or_ne v u with rfl | hvu
      · rfl
      · exact absurd ((other v hvu q).1 hv) (alone ((self q).1 hu) v hvu)
      · rfl
      · rcases eq_or_ne v t with rfl | hvt
        · exact absurd ((other u hut q).1 hu) (alone ((self q).1 hv) u hut)
        · exact h.unique q u v ((other u hut q).1 hu) ((other v hvt q).1 hv)
    · have old (w : Tid) (hw : Claims (s.pass t p mutex pc' mem' stage) w q) : Claims s w q := by
        rcases eq_or_ne w t with rfl | hwt
        · exact (before q hq).2 ((self q).1 hw)
        · exact (other w hwt q).1 hw
      exact h.unique q u v (old u hu) (old v hv)
  · have := readers q
    simp only [System.pass, Function.update_apply s.latch]
    exact this
  all_goals
    have hut := tail u (by rw [show stage u = _ from hu]; simp)
    simp only [System.pass, Function.update_of_ne hut] at op hu
    have old := slept u hut (by rw [hu]; simp [Stage.sleepsOn])
    rw [old] at hu
    rcases eq_or_ne q p with rfl | hq
  · simp only [System.pass, Function.update_self]
    exact entering u hut op (old.trans hu)
  · simp only [System.pass, Function.update_of_ne hq]
    exact h.entering u q op hu
  · simp only [System.pass, Function.update_self]
    exact draining u hut op (old.trans hu)
  · simp only [System.pass, Function.update_of_ne hq]
    exact h.draining u q op hu
  · simp only [System.pass, Function.update_self]
    exact joining u hut op (old.trans hu)
  · simp only [System.pass, Function.update_of_ne hq]
    exact h.joining u q op hu

theorem update_reads (pc : Tid → Pc) (hreads : pc'.reads = (pc t).reads) :
    (Function.update pc t pc' scanner).reads = (pc scanner).reads := by
  rcases eq_or_ne scanner t with rfl | hst
  · rw [Function.update_self, hreads]
  · rw [Function.update_of_ne hst]

/-- A thread stays where it is and goes to sleep, with its test still failing. -/
theorem Latched.sleep (h : Latched scanner s) {stage : Stage}
    (ok : StageOk (s.pc t).op stage)
    (claims : ∀ p, ClaimsAt (s.pc t) stage p ↔ ClaimsAt (s.pc t) (s.stage t) p)
    (entering : ∀ p, (s.pc t).op = some (.wLock p) → stage = .entering false →
      (s.latch p).writerEntered = true)
    (draining : ∀ p, (s.pc t).op = some (.wLock p) → stage = .draining false →
      (s.latch p).readerCount > 0)
    (joining : ∀ p, (s.pc t).op = some (.rLock p) → stage = .joining false →
      (s.latch p).writerEntered = true) :
    Latched scanner { s with stage := Function.update s.stage t stage } := by
  refine h.restage (fun u => ?_) (fun u p => ?_) (fun u p op hu => ?_) (fun u p op hu => ?_)
    (fun u p op hu => ?_)
  all_goals rcases eq_or_ne u t with rfl | hut
  · rwa [Function.update_self]
  · rw [Function.update_of_ne hut]
    exact h.stages u
  · rw [Function.update_self]
    exact claims p
  · rw [Function.update_of_ne hut]
  · rw [Function.update_self] at hu
    exact .inr (entering p op hu)
  · rw [Function.update_of_ne hut] at hu
    exact .inl hu
  · rw [Function.update_self] at hu
    exact .inr (draining p op hu)
  · rw [Function.update_of_ne hut] at hu
    exact .inl hu
  · rw [Function.update_self] at hu
    exact .inr (joining p op hu)
  · rw [Function.update_of_ne hut] at hu
    exact .inl hu

omit [DecidableEq Tid] in
/-- Before its first test a writer claims only what it holds. -/
theorem claims_of_ready {p : PageId} (ready : s.stage t = .idle ∨ s.stage t = .entering true)
    (hc : Claims s t p) : p ∈ (s.pc t).writes := by
  rcases hc with ⟨-, woken, hw⟩ | hw
  · rcases ready with hs | hs <;> rw [hs] at hw <;> cases hw
  · exact hw

omit [DecidableEq Tid] in
theorem Latched.not_claims (h : Latched scanner s) {p : PageId}
    (free : (s.latch p).writerEntered = false) (u : Tid) : ¬ Claims s u p := by
  intro hu
  have := (h.claimed p).2 ⟨u, hu⟩
  rw [free] at this
  cases this

theorem Latched.call (h : Latched scanner s) {pc : Pc} (free : (s.pc t).op = none)
    (starts : Starts s.mem.table (t = scanner) pc) :
    Latched scanner { s with pc := Function.update s.pc t pc } := by
  have idle : s.stage t = .idle := by
    have := h.stages t
    rwa [free] at this
  have before : (s.pc t).reads = [] ∧ (s.pc t).writes = [] := holds_nothing free
  have after : pc.reads = [] ∧ pc.writes = [] := by
    cases starts <;> exact ⟨rfl, rfl⟩
  have claims (u : Tid) (p : PageId) :
      ClaimsAt (Function.update s.pc t pc u) (s.stage u) p ↔ ClaimsAt (s.pc u) (s.stage u) p := by
    rcases eq_or_ne u t with rfl | hut
    · rw [Function.update_self, idle, claimsAt_idle, claimsAt_idle, before.2, after.2]
    · rw [Function.update_of_ne hut]
  have other (u : Tid) (hu : s.stage u ≠ .idle) : Function.update s.pc t pc u = s.pc u := by
    refine Function.update_of_ne ?_ _ _
    rintro rfl
    exact hu idle
  refine ⟨fun u => ?_, fun p => ?_, fun p u v hu hv => ?_, fun p => ?_, fun u p op hu => ?_,
    fun u p op hu => ?_, fun u p op hu => ?_⟩
  · rcases eq_or_ne u t with rfl | hut
    · simp only [Function.update_self, idle]
      cases starts <;> exact .inl rfl
    · simp only [Function.update_of_ne hut]
      exact h.stages u
  · rw [h.claimed p]
    exact exists_congr fun u => (claims u p).symm
  · exact h.unique p u v ((claims u p).1 hu) ((claims v p).1 hv)
  · have reads : (Function.update s.pc t pc scanner).reads = (s.pc scanner).reads :=
      update_reads s.pc (after.1.trans before.1.symm)
    simp only [reads]
    exact h.readers p
  all_goals
    have hu : s.stage u = _ := hu
    have op : (Function.update s.pc t pc u).op = _ := op
    rw [other u (by rw [hu]; simp)] at op
  · exact h.entering u p op hu
  · exact h.draining u p op hu
  · exact h.joining u p op hu

theorem Latched.wClaim (h : Latched scanner s) {p : PageId} (op : (s.pc t).op = some (.wLock p))
    (ready : s.stage t = .idle ∨ s.stage t = .entering true)
    (free : (s.latch p).writerEntered = false) (readers : (s.latch p).readerCount > 0) :
    Latched scanner { s with
      latch := Function.update s.latch p { s.latch p with writerEntered := true }
      stage := Function.update s.stage t (.draining false) } := by
  have counts (q : PageId) : (Function.update s.latch p
      { s.latch p with writerEntered := true } q).readerCount = (s.latch q).readerCount := by
    rcases eq_or_ne q p with rfl | hq
    · rw [Function.update_self]
    · rw [Function.update_of_ne hq]
  have enters (q : PageId) (hq : (s.latch q).writerEntered = true) :
      (Function.update s.latch p { s.latch p with writerEntered := true } q).writerEntered =
        true := by
    rcases eq_or_ne q p with rfl | hqp
    · rw [Function.update_self]
    · rwa [Function.update_of_ne hqp]
  have claims (u : Tid) (q : PageId) :
      ClaimsAt (s.pc u) (Function.update s.stage t (.draining false) u) q ↔
        (u = t ∧ q = p) ∨ Claims s u q := by
    rcases eq_or_ne u t with rfl | hut
    · rw [Function.update_self]
      constructor
      · rintro (⟨hop, -⟩ | hw)
        · rw [op] at hop
          cases hop
          exact .inl ⟨rfl, rfl⟩
        · exact .inr (.inr hw)
      · rintro (⟨-, rfl⟩ | hc)
        · exact .inl ⟨op, _, rfl⟩
        · exact .inr (claims_of_ready ready hc)
    · rw [Function.update_of_ne hut]
      simp [hut, Claims]
  refine ⟨fun u => ?_, fun q => ?_, fun q u v hu hv => ?_, fun q => ?_, fun u q op' hu => ?_,
    fun u q op' hu => ?_, fun u q op' hu => ?_⟩
  · rcases eq_or_ne u t with rfl | hut
    · simp only [Function.update_self, op]
      exact .inr (.inr ⟨_, rfl⟩)
    · simp only [Function.update_of_ne hut]
      exact h.stages u
  · rcases eq_or_ne q p with rfl | hq
    · simp only [Function.update_self, true_iff]
      exact ⟨t, (claims t q).2 (.inl ⟨rfl, rfl⟩)⟩
    · simp only [Function.update_of_ne hq]
      rw [h.claimed q]
      exact exists_congr fun u => ⟨fun hu => (claims u q).2 (.inr hu),
        fun hu => ((claims u q).1 hu).resolve_left fun e => hq e.2⟩
  · rcases (claims u q).1 hu with ⟨rfl, rfl⟩ | hu'
    · rcases (claims v q).1 hv with ⟨rfl, -⟩ | hv'
      · rfl
      · exact absurd hv' (h.not_claims free v)
    · rcases (claims v q).1 hv with ⟨rfl, rfl⟩ | hv'
      · exact absurd hu' (h.not_claims free u)
      · exact h.unique q u v hu' hv'
  · simp only [counts]
    exact h.readers q
  · rcases eq_or_ne u t with rfl | hut
    · simp at hu
    · simp only [Function.update_of_ne hut] at hu
      exact enters q (h.entering u q op' hu)
  · simp only [counts]
    rcases eq_or_ne u t with rfl | hut
    · rw [show (s.pc u).op = some (.wLock q) from op'] at op
      cases op
      exact readers
    · simp only [Function.update_of_ne hut] at hu
      exact h.draining u q op' hu
  · rcases eq_or_ne u t with rfl | hut
    · simp at hu
    · simp only [Function.update_of_ne hut] at hu
      exact enters q (h.joining u q op' hu)

theorem drowsy_update (stage : Tid → Stage) (u : Tid) (hut : u ≠ t) :
    Drowsy (stage u) (Function.update stage t .idle u) :=
  .inl (Function.update_of_ne hut _ _)

/-- A writer gets past `WLock`: the latch is its own, and no reader is left. -/
theorem Latched.wPass (h : Latched scanner s) {p : PageId} (op : (s.pc t).op = some (.wLock p))
    (mine : ∀ u, u ≠ t → ¬ Claims s u p)
    (moves : Moves s.mem (s.pc t) pc' mem') :
    Latched scanner (s.pass t p { s.latch p with writerEntered := true } pc' mem'
      (Function.update s.stage t .idle)) := by
  obtain ⟨writes, reads, reads'⟩ := moves.wLock op
  have past (u : Tid) (hut : u ≠ t) (hop : (s.pc u).op = some (.wLock p))
      (hu : Function.update s.stage t .idle u = .draining false) : False := by
    rw [Function.update_of_ne hut] at hu
    exact mine u hut (.inl ⟨hop, _, hu⟩)
  refine h.pass (Function.update_self _ _ _) (drowsy_update s.stage) (fun q hq => ?_)
    (fun q hq => ?_) ?_ (fun _ => mine) (fun q => ?_) (fun _ _ _ _ => rfl)
    (fun u hut hop hu => (past u hut hop hu).elim) (fun _ _ _ _ => rfl)
  · rcases hq with ⟨hop, -⟩ | hw
    · rw [op] at hop
      cases hop
      exact .inl rfl
    · exact .inr hw
  · rw [writes q]
    simp [hq]
  · exact iff_of_true rfl (.inl ((writes p).2 (.inl rfl)))
  · rw [update_reads s.pc (reads'.trans reads.symm), ← h.readers q]
    split_ifs with hq
    · rw [hq]
    · rfl

/-- The scan gets past `RLock`. -/
theorem Latched.rPass (h : Latched scanner s) (tidy : Tidy scanner s) {p : PageId}
    (op : (s.pc t).op = some (.rLock p))
    (free : ((s.latch p).writerEntered || (s.latch p).readerCount == maxReaders) = false)
    (moves : Moves s.mem (s.pc t) pc' mem') :
    Latched scanner (s.pass t p { s.latch p with readerCount := (s.latch p).readerCount + 1 }
      pc' mem' (Function.update s.stage t .idle)) := by
  obtain ⟨reads, writes, writes', scans⟩ := moves.rLock op
  obtain rfl := tidy.role t scans
  simp only [Bool.or_eq_false_iff, beq_eq_false_iff_ne] at free
  have none := h.not_claims free.1
  have count : ((s.latch p).readerCount + 1).toNat = (s.latch p).readerCount.toNat + 1 := by
    have lt := (s.latch p).readerCount.toNat_lt
    have ne : (s.latch p).readerCount.toNat ≠ 4294967295 := fun e => free.2 (UInt32.toNat_inj.1 e)
    rw [UInt32.toNat_add]
    change (_ + 1) % 4294967296 = _
    omega
  have sleepers (u : Tid) (hut : u ≠ t) {stage : Stage}
      (hu : Function.update s.stage t .idle u = stage) : s.stage u = stage := by
    rwa [Function.update_of_ne hut] at hu
  refine h.pass (Function.update_self _ _ _) (drowsy_update s.stage) (fun q hq => ?_)
    (fun q hq => ?_) ?_ (fun hw => ?_) (fun q => ?_)
    (fun u hut hop hu => h.entering u p hop (sleepers u hut hu))
    (fun u hut hop hu => ?_) (fun u hut hop hu => h.joining u p hop (sleepers u hut hu))
  · rcases hq with ⟨hop, -⟩ | hw
    · rw [op] at hop
      cases hop
    · exact .inr hw
  · rw [writes, writes']
  · simp only [free.1, Bool.false_eq_true, writes', List.not_mem_nil, false_or, false_iff,
      not_exists, not_and]
    exact fun u _ => none u
  · rw [writes'] at hw
    exact absurd hw (List.not_mem_nil)
  · have before := h.readers q
    rw [Function.update_self, reads, List.count_cons, ← before]
    split_ifs with hq hpq hpq
    · subst hq
      exact count
    · exact absurd (by simpa using hq.symm) hpq
    · exact absurd (by simpa using hpq : p = q).symm hq
    · rfl
  · exact absurd (.inl ⟨hop, _, sleepers u hut hu⟩) (none u)

omit [DecidableEq Tid] in
theorem Latched.idle_of_unlock (h : Latched scanner s) {p : PageId}
    (op : (s.pc t).op = some (.rUnlock p) ∨ (s.pc t).op = some (.wUnlock p)) :
    s.stage t = .idle := by
  have := h.stages t
  rcases op with op | op <;> rwa [op] at this

omit [DecidableEq Tid] in
theorem wakeAll_idle {woken : Tid → Bool} (idle : s.stage t = .idle) :
    wakeAll s.stage woken t = .idle := by
  unfold wakeAll
  rw [idle]
  split_ifs <;> rfl

omit [DecidableEq Tid] in
/-- A sleeper that a notification leaves asleep. -/
theorem asleep_of_wakeAll {woken : Tid → Bool} {u : Tid} {stage : Stage}
    (sleeps : stage.sleepsOn ≠ none) (hu : wakeAll s.stage woken u = stage) :
    s.stage u = stage ∧ woken u = false := by
  unfold wakeAll at hu
  split_ifs at hu with hw
  · subst hu
    cases hs : s.stage u <;> simp [hs, Stage.wake, Stage.sleepsOn] at sleeps
  · exact ⟨hu, by simpa using hw⟩

/-- The scan releases a read latch; a writer that waits for the last one is woken. -/
theorem Latched.rLeave (h : Latched scanner s) (tidy : Tidy scanner s) {p : PageId}
    {woken : Tid → Bool} (op : (s.pc t).op = some (.rUnlock p))
    (wakes : (s.latch p).rUnlock.2.Wakes (s.sleeps p) woken)
    (moves : Moves s.mem (s.pc t) pc' mem') :
    Latched scanner (s.pass t p (s.latch p).rUnlock.1 pc' mem' (wakeAll s.stage woken)) := by
  obtain ⟨reads, writes, writes', scans⟩ := moves.rUnlock op
  obtain rfl := tidy.role t scans
  have idle := h.idle_of_unlock (.inl op)
  have before := h.readers
  have pos : (s.latch p).readerCount.toNat = pc'.reads.count p + 1 := by
    rw [before p, reads, List.count_cons_self]
  have count : (s.latch p).rUnlock.1.readerCount.toNat = pc'.reads.count p := by
    have lt := (s.latch p).readerCount.toNat_lt
    change ((s.latch p).readerCount - 1).toNat = _
    rw [UInt32.toNat_sub]
    change (4294967296 - 1 + _) % 4294967296 = _
    omega
  have self (q : PageId) : ¬ ClaimsAt (s.pc t) (s.stage t) q := by
    rw [idle, claimsAt_idle, writes]
    exact List.not_mem_nil
  refine h.pass (wakeAll_idle idle) (fun u _ => drowsy_wakeAll s.stage woken u)
    (fun q hq => absurd hq (self q)) (fun q _ => by rw [writes, writes']) ?_ (fun hw => ?_)
    (fun q => ?_) (fun u _ hop hu => ?_) (fun u _ hop hu => ?_) (fun u _ hop hu => ?_)
  · change (s.latch p).writerEntered = true ↔ _
    rw [h.claimed p, writes']
    constructor
    · rintro ⟨u, hu⟩
      refine .inr ⟨u, ?_, hu⟩
      rintro rfl
      exact self p hu
    · rintro (hw | ⟨u, -, hu⟩)
      · exact absurd hw List.not_mem_nil
      · exact ⟨u, hu⟩
  · rw [writes'] at hw
    exact absurd hw List.not_mem_nil
  · rw [Function.update_self]
    split_ifs with hq
    · rw [hq]
      exact count
    · rw [before q, reads, List.count_cons_of_ne (Ne.symm hq)]
  · obtain ⟨hs, -⟩ := asleep_of_wakeAll (by simp [Stage.sleepsOn]) hu
    exact h.entering u p hop hs
  · -- the claim is unique, so the one writer that is notified is this one
    obtain ⟨hs, asleep⟩ := asleep_of_wakeAll (by simp [Stage.sleepsOn]) hu
    have claims : Claims s u p := .inl ⟨hop, _, hs⟩
    have entered := (h.claimed p).2 ⟨u, claims⟩
    by_contra zero
    have zero : (s.latch p).readerCount - 1 = 0 := UInt32.toNat_inj.1 (Nat.eq_zero_of_not_pos zero)
    have notify : (s.latch p).rUnlock.2 = .one .writer := by
      simp [RWMutex.rUnlock, entered, zero]
    rw [notify] at wakes
    have mine : s.sleeps p u = some .writer := by
      rw [System.sleeps, if_pos (.inr hop), hs]
      rfl
    rcases wakes with ⟨v, hv, only⟩ | ⟨nobody, -⟩
    · have hvu : v = u := by
        refine h.unique p v u ?_ claims
        unfold System.sleeps at hv
        split_ifs at hv with hop'
        have stage := h.stages v
        rcases hop' with hop' | hop'
        · rw [hop'] at stage
          rcases stage with hv' | ⟨w, hv'⟩
          · rw [hv'] at hv
            cases hv
          · rw [hv'] at hv
            cases w <;> cases hv
        · rw [hop'] at stage
          rcases stage with hv' | ⟨w, hv'⟩ | ⟨w, hv'⟩
          · rw [hv'] at hv
            cases hv
          · rw [hv'] at hv
            cases w <;> cases hv
          · exact .inl ⟨hop', w, hv'⟩
      rw [(only u).2 hvu.symm] at asleep
      cases asleep
    · exact nobody u mine
  · obtain ⟨hs, -⟩ := asleep_of_wakeAll (by simp [Stage.sleepsOn]) hu
    exact h.joining u p hop hs

/-- A writer releases a latch; all who wait for the claim to end are woken. -/
theorem Latched.wLeave (h : Latched scanner s) (tidy : Tidy scanner s) {p : PageId}
    {woken : Tid → Bool} (op : (s.pc t).op = some (.wUnlock p))
    (wakes : (s.latch p).wUnlock.2.Wakes (s.sleeps p) woken)
    (moves : Moves s.mem (s.pc t) pc' mem') :
    Latched scanner (s.pass t p (s.latch p).wUnlock.1 pc' mem' (wakeAll s.stage woken)) := by
  obtain ⟨held, writes, reads, reads'⟩ := moves.wUnlock (tidy.known t) op
  have idle := h.idle_of_unlock (.inr op)
  have mine (u : Tid) (hu : Claims s u p) : u = t := h.unique p u t hu (.inr held)
  have awake (u : Tid) (hop : (s.pc u).op = some (.rLock p) ∨ (s.pc u).op = some (.wLock p))
      {stage : Stage} (sleeps : stage.sleepsOn = some .reader)
      (hu : wakeAll s.stage woken u = stage) : False := by
    obtain ⟨hs, asleep⟩ := asleep_of_wakeAll (by rw [sleeps]; simp) hu
    have : woken u = true := (wakes u).2 (by rw [System.sleeps, if_pos hop, hs, sleeps])
    rw [asleep] at this
    cases this
  refine h.pass (wakeAll_idle idle) (fun u _ => drowsy_wakeAll s.stage woken u)
    (fun q hq => ?_) (fun q hq => ?_) ?_ (fun hw => ?_) (fun q => ?_)
    (fun u _ hop hu => (awake u (.inr hop) rfl hu).elim) (fun u hut hop hu => ?_)
    (fun u _ hop hu => (awake u (.inl hop) rfl hu).elim)
  · rw [idle, claimsAt_idle] at hq
    exact .inr hq
  · rw [writes q]
    simp [hq]
  · change false = true ↔ _
    simp only [Bool.false_eq_true, false_iff, not_or, not_exists, not_and, writes p, ne_eq,
      not_true_eq_false, and_false, not_false_eq_true, true_and]
    exact fun u hut hu => hut (mine u hu)
  · exact absurd rfl ((writes p).1 hw).2
  · rw [update_reads s.pc (reads'.trans reads.symm), ← h.readers q]
    split_ifs with hq
    · rw [hq]
      rfl
    · rfl
  · obtain ⟨hs, -⟩ := asleep_of_wakeAll (by simp [Stage.sleepsOn]) hu
    exact absurd (mine u (.inl ⟨hop, _, hs⟩)) hut

theorem Latched.acts (h : Latched scanner s) (tidy : Tidy scanner s) (acts : Acts scanner t s s') :
    Latched scanner s' := by
  have waits {p : PageId} (ready : s.stage t = .idle ∨ s.stage t = .entering true)
      (hc : Claims s t p) : p ∈ (s.pc t).writes := claims_of_ready ready hc
  cases acts with
  | call pc free starts => exact h.call free starts
  | wWait p op ready entered =>
    refine h.sleep ?_ (fun q => ?_) (fun q hop _ => ?_) nofun nofun
    · rw [op]
      exact .inr (.inl ⟨_, rfl⟩)
    · refine ⟨fun hc => ?_, fun hc => .inr (waits ready hc)⟩
      rcases hc with ⟨-, _, hw⟩ | hw
      · cases hw
      · exact .inr hw
    · rw [op] at hop
      cases hop
      exact entered
  | wClaim p op ready free readers => exact h.wClaim op ready free readers
  | wPass p pc' mem' op ready free empty moves =>
    exact h.wPass op (fun u _ => h.not_claims free u) moves
  | dWait p op ready readers =>
    refine h.sleep ?_ (fun q => ?_) nofun (fun q hop _ => ?_) nofun
    · rw [op]
      exact .inr (.inr ⟨_, rfl⟩)
    · rw [ready]
      simp [ClaimsAt]
    · rw [op] at hop
      cases hop
      exact readers
  | dPass p pc' mem' op ready empty moves =>
    have claims : Claims s t p := .inl ⟨op, _, ready⟩
    have entered : (s.latch p).writerEntered = true := (h.claimed p).2 ⟨t, claims⟩
    have same : { s.latch p with writerEntered := true } = s.latch p := by rw [← entered]
    have pass := h.wPass op (fun u hut hu => hut (h.unique p u t hu claims)) moves
    rwa [same] at pass
  | rWait p op ready full =>
    refine h.sleep ?_ (fun q => ?_) nofun nofun (fun q hop _ => ?_)
    · rw [op]
      exact .inr ⟨_, rfl⟩
    · have stage : ∀ woken, s.stage t ≠ .draining woken := by
        rcases ready with hs | hs <;> simp [hs]
      simp [ClaimsAt, stage]
    · -- the scan is the only reader, and it has not latched a page more than twice
      rw [op] at hop
      cases hop
      simp only [Bool.or_eq_true, beq_iff_eq] at full
      refine full.resolve_right fun max => ?_
      have readers := h.readers p
      rw [max] at readers
      have bound : (s.pc scanner).reads.count p ≤ 2 := by
        refine List.count_le_length.trans ?_
        cases s.pc scanner <;> simp [Pc.reads]
      rw [← readers] at bound
      exact absurd bound (by decide)
  | rPass p pc' mem' op ready free moves => exact h.rPass tidy op free moves
  | rLeave p pc' mem' woken op wakes moves => exact h.rLeave tidy op wakes moves
  | wLeave p pc' mem' woken op wakes moves => exact h.wLeave tidy op wakes moves
  | wake sleeps =>
    have woken : Drowsy (s.stage t) (s.stage t).wake := .inr rfl
    refine h.sleep (woken.ok (h.stages t)) (fun q => woken.claims) ?_ ?_ ?_
    all_goals
      intro q _ hs
      cases hw : s.stage t <;> simp [hw, Stage.wake] at hs

/-! ## Runs without a deadlock -/

/-- Thread `t` does not claim a latch that the scan holds and is about to take a second time. -/
def Courteous (scanner : Tid) (s : System Tid) (t : Tid) : Prop :=
  ∀ p rid, s.pc scanner = .scanTuple p rid → (s.pc t).op = some (.wLock p) →
    s.stage t = .idle ∨ s.stage t = .entering true → (s.latch p).writerEntered = true

/-- Nobody has claimed a latch between the two read latches of the scan. -/
def Quiet (scanner : Tid) (s : System Tid) : Prop :=
  ∀ p rid, s.pc scanner = .scanTuple p rid → ∀ u, ¬ Claims s u p

/-- A claim is new only behind the first test of `WLock`. -/
theorem Acts.claims (acts : Acts scanner t s s') (latched : Latched scanner s)
    (tidy : Tidy scanner s) {u : Tid} {q : PageId} (hc : Claims s' u q) :
    Claims s u q ∨ (s.pc t).op = some (.wLock q) ∧
      (s.stage t = .idle ∨ s.stage t = .entering true) ∧ (s.latch q).writerEntered = false := by
  have restaged {stage : Stage} (ht : ∀ woken, stage ≠ .draining woken)
      (hc : ClaimsAt (s.pc u) (Function.update s.stage t stage u) q) : Claims s u q := by
    rcases eq_or_ne u t with rfl | hut
    · rw [Function.update_self] at hc
      exact .inr (hc.resolve_left fun hd => by
        obtain ⟨-, woken, e⟩ := hd
        exact ht woken e)
    · rwa [Function.update_of_ne hut] at hc
  have passed {p : PageId} {mutex : RWMutex} {pc' : Pc} {mem' : Memory} {stage : Tid → Stage}
      (idle : stage t = .idle) (others : ∀ u, u ≠ t → Drowsy (s.stage u) (stage u))
      (hc : Claims (s.pass t p mutex pc' mem' stage) u q) :
      Claims s u q ∨ u = t ∧ q ∈ pc'.writes := by
    rcases eq_or_ne u t with rfl | hut
    · simp only [Claims, System.pass, Function.update_self, idle, claimsAt_idle] at hc
      exact .inr ⟨rfl, hc⟩
    · simp only [Claims, System.pass, Function.update_of_ne hut] at hc
      exact .inl ((others u hut).claims.1 hc)
  cases acts with
  | call pc free starts =>
    rcases eq_or_ne u t with rfl | hut
    · have idle : s.stage u = .idle := by
        have := latched.stages u
        rwa [free] at this
      simp only [Claims, Function.update_self, idle, claimsAt_idle] at hc
      cases starts <;> exact absurd hc List.not_mem_nil
    · simp only [Claims, Function.update_of_ne hut] at hc
      exact .inl hc
  | wWait p op ready entered => exact .inl (restaged (by simp) hc)
  | rWait p op ready full => exact .inl (restaged (by simp) hc)
  | wClaim p op ready free readers =>
    rcases eq_or_ne u t with rfl | hut
    · rcases hc with ⟨hop, -⟩ | hw
      · rw [show (s.pc u).op = some (.wLock q) from hop] at op
        cases op
        exact .inr ⟨hop, ready, free⟩
      · exact .inl (.inr hw)
    · simp only [Claims, Function.update_of_ne hut] at hc
      exact .inl hc
  | wPass p pc' mem' op ready free empty moves =>
    rcases passed (Function.update_self _ _ _) (drowsy_update s.stage) hc with hc | ⟨rfl, hw⟩
    · exact .inl hc
    · rcases ((moves.wLock op).1 q).1 hw with rfl | hw
      · exact .inr ⟨op, ready, free⟩
      · exact .inl (.inr hw)
  | dWait p op ready readers =>
    rcases eq_or_ne u t with rfl | hut
    · simp only [Claims, ClaimsAt, ready] at hc ⊢
      simpa using hc
    · simp only [Claims, Function.update_of_ne hut] at hc
      exact .inl hc
  | dPass p pc' mem' op ready empty moves =>
    rcases passed (Function.update_self _ _ _) (drowsy_update s.stage) hc with hc | ⟨rfl, hw⟩
    · exact .inl hc
    · rcases ((moves.wLock op).1 q).1 hw with rfl | hw
      · exact .inl (.inl ⟨op, _, ready⟩)
      · exact .inl (.inr hw)
  | rPass p pc' mem' op ready free moves =>
    rcases passed (Function.update_self _ _ _) (drowsy_update s.stage) hc with hc | ⟨rfl, hw⟩
    · exact .inl hc
    · rw [(moves.rLock op).2.2.1] at hw
      exact absurd hw List.not_mem_nil
  | rLeave p pc' mem' woken op wakes moves =>
    rcases passed (wakeAll_idle (latched.idle_of_unlock (.inl op)))
      (fun u _ => drowsy_wakeAll s.stage woken u) hc with hc | ⟨rfl, hw⟩
    · exact .inl hc
    · rw [(moves.rUnlock op).2.2.1] at hw
      exact absurd hw List.not_mem_nil
  | wLeave p pc' mem' woken op wakes moves =>
    rcases passed (wakeAll_idle (latched.idle_of_unlock (.inr op)))
      (fun u _ => drowsy_wakeAll s.stage woken u) hc with hc | ⟨rfl, hw⟩
    · exact .inl hc
    · exact .inl (.inr (((moves.wUnlock (tidy.known u) op).2.1 q).1 hw).1)
  | wake sleeps =>
    rcases eq_or_ne u t with rfl | hut
    · simp only [Claims, Function.update_self, claimsAt_wake] at hc
      exact .inl hc
    · simp only [Claims, Function.update_of_ne hut] at hc
      exact .inl hc

theorem Moves.to_scanTuple {p : PageId} {rid : RID} (moves : Moves mem pc (.scanTuple p rid) mem') :
    pc.op = some (.rLock p) := by
  cases moves with
  | tuple rid looks same => cases looks <;> rfl

/-- The scan comes to `GetTuple` only past its first read latch. -/
theorem Acts.scanTuple (acts : Acts scanner t s s') {p : PageId} {rid : RID}
    (h : s'.pc scanner = .scanTuple p rid) :
    s.pc scanner = .scanTuple p rid ∨
      (s.pc t).op = some (.rLock p) ∧ (s.latch p).writerEntered = false := by
  have passed {q : PageId} {mutex : RWMutex} {pc' : Pc} {mem' : Memory} {stage : Tid → Stage}
      (h : (s.pass t q mutex pc' mem' stage).pc scanner = .scanTuple p rid) :
      s.pc scanner = .scanTuple p rid ∨ pc' = .scanTuple p rid := by
    rcases eq_or_ne scanner t with rfl | hst
    · simp only [System.pass, Function.update_self] at h
      exact .inr h
    · simp only [System.pass, Function.update_of_ne hst] at h
      exact .inl h
  cases acts with
  | call pc free starts =>
    rcases eq_or_ne scanner t with rfl | hst
    · simp only [Function.update_self] at h
      subst h
      cases starts
    · simp only [Function.update_of_ne hst] at h
      exact .inl h
  | rPass q pc' mem' op ready free moves =>
    refine (passed h).imp_right fun e => ?_
    subst e
    have same := moves.to_scanTuple
    rw [op] at same
    cases same
    simp only [Bool.or_eq_false_iff] at free
    exact ⟨op, free.1⟩
  | wPass q pc' mem' op ready free empty moves =>
    refine (passed h).imp_right fun e => ?_
    subst e
    rw [moves.to_scanTuple] at op
    cases op
  | dPass q pc' mem' op ready empty moves =>
    refine (passed h).imp_right fun e => ?_
    subst e
    rw [moves.to_scanTuple] at op
    cases op
  | rLeave q pc' mem' woken op wakes moves =>
    refine (passed h).imp_right fun e => ?_
    subst e
    rw [moves.to_scanTuple] at op
    cases op
  | wLeave q pc' mem' woken op wakes moves =>
    refine (passed h).imp_right fun e => ?_
    subst e
    rw [moves.to_scanTuple] at op
    cases op
  | wWait | wClaim | dWait | rWait | wake => exact .inl h

theorem Quiet.acts (h : Quiet scanner s) (latched : Latched scanner s) (tidy : Tidy scanner s)
    (courteous : Courteous scanner s t) (acts : Acts scanner t s s') : Quiet scanner s' := by
  intro p rid hs u hu
  rcases acts.claims latched tidy hu with old | ⟨op, ready, free⟩
  · rcases acts.scanTuple hs with hs' | ⟨-, free⟩
    · exact h p rid hs' u old
    · exact latched.not_claims free u old
  · rcases acts.scanTuple hs with hs' | ⟨op', -⟩
    · have entered := courteous p rid hs' op ready
      rw [free] at entered
      cases entered
    · rw [op] at op'
      cases op'

section Waiting

variable {p : PageId}

theorem writes_known (known : pc.Known mem) (h : p ∈ pc.writes) : p ∈ mem.table := by
  cases pc <;> simp only [Pc.writes, List.mem_cons, List.not_mem_nil, or_false] at h
  case insertMove => exact h ▸ known.1
  case insertNew => exact h ▸ known.1
  case insertLinked =>
    rcases h with rfl | rfl
    · exact known.1
    · exact known.2.1
  case insertLeave => exact h ▸ known
  case changeLeave => exact h ▸ known

theorem reads_known (known : pc.Known mem) (h : p ∈ pc.reads) : p ∈ mem.table := by
  cases pc <;> simp only [Pc.reads, List.mem_cons, List.not_mem_nil, or_false] at h
  case scanMove => exact h ▸ known.1
  case scanTuple => exact h ▸ known.1
  case scanCopied =>
    rcases h with rfl | rfl
    · exact known.2 ▸ known.1
    · exact known.1
  case scanLeave => exact h ▸ known

theorem wLock_known (known : pc.Known mem) (op : pc.op = some (.wLock p)) :
    p ∈ mem.table ∨ pc.takes = some p := by
  cases pc <;> cases op
  case insertAt => exact .inl known
  case insertNew => exact .inr rfl
  case changeAt => exact .inl known

theorem rLock_writes (op : pc.op = some (.rLock p)) : pc.writes = [] := by
  cases pc <;> first | rfl | cases op

theorem wLock_reads (op : pc.op = some (.wLock p)) : pc.reads = [] := by
  cases pc <;> first | rfl | cases op

/-- The scan takes a read latch while it holds one only in `GetTuple`. -/
theorem scanTuple_of_reads {q : PageId} (held : p ∈ pc.reads) (op : pc.op = some (.rLock q)) :
    ∃ rid, pc = .scanTuple p rid := by
  cases pc <;> cases op
  case scanFirst => exact absurd held List.not_mem_nil
  case scanNext => exact absurd held List.not_mem_nil
  case scanTuple cur rid =>
    obtain rfl : p = cur := by simpa [Pc.reads] using held
    exact ⟨rid, rfl⟩

/-- A thread that holds a write latch and wants another one creates a page. -/
theorem takes_of_writes {q : PageId} (held : q ∈ pc.writes) (op : pc.op = some (.wLock p)) :
    pc.takes = some p := by
  cases pc <;> cases op
  case insertAt => exact absurd held List.not_mem_nil
  case insertNew => rfl
  case changeAt => exact absurd held List.not_mem_nil

theorem takes_fresh (known : pc.Known mem) (takes : pc.takes = some p) : p ∉ mem.table := by
  cases pc <;> cases takes
  exact known.2.1

omit [DecidableEq Tid] in
/-- What a blocked thread waits for. -/
theorem Latched.blocked (h : Latched scanner s) (blocked : Blocked s t) :
    ∃ p, ((s.pc t).op = some (.wLock p) ∧ (∃ woken, s.stage t = .entering woken) ∧
        (s.latch p).writerEntered = true) ∨
      ((s.pc t).op = some (.wLock p) ∧ (∃ woken, s.stage t = .draining woken) ∧
        (s.latch p).readerCount > 0) ∨
      ((s.pc t).op = some (.rLock p) ∧ (s.latch p).writerEntered = true) := by
  unfold Blocked at blocked
  split at blocked
  · next p woken op stage =>
    refine ⟨p, .inl ⟨op, ⟨woken, stage⟩, blocked.elim (fun e => ?_) id⟩⟩
    exact h.entering t p op (e ▸ stage)
  · next p woken op stage =>
    refine ⟨p, .inr (.inl ⟨op, ⟨woken, stage⟩, blocked.elim (fun e => ?_) id⟩)⟩
    exact h.draining t p op (e ▸ stage)
  · next p woken op stage =>
    refine ⟨p, .inr (.inr ⟨op, blocked.elim (fun e => h.joining t p op (e ▸ stage)) fun full => ?_⟩)⟩
    simp only [Bool.or_eq_true, beq_iff_eq] at full
    refine full.resolve_right fun max => ?_
    have readers := h.readers p
    have bound : (s.pc scanner).reads.count p ≤ 2 := by
      refine List.count_le_length.trans ?_
      cases s.pc scanner <;> simp [Pc.reads]
    rw [← readers, max] at bound
    exact absurd bound (by decide)
  · exact blocked.elim

omit [DecidableEq Tid] in
/-- A blocked thread does not hold a write latch: the page it would wait for is new. -/
theorem Latched.not_held (h : Latched scanner s) (tidy : Tidy scanner s) (blocked : Blocked s t)
    (held : p ∈ (s.pc t).writes) : False := by
  obtain ⟨q, ⟨op, ⟨woken, stage⟩, entered⟩ | ⟨op, -, readers⟩ | ⟨op, -⟩⟩ := h.blocked blocked
  · have takes := takes_of_writes held op
    have fresh := takes_fresh (tidy.known t) takes
    obtain ⟨u, hu⟩ := (h.claimed q).1 entered
    rcases hu with ⟨op', woken', stage'⟩ | hw
    · rcases wLock_known (tidy.known u) op' with known | takes'
      · exact fresh known
      · obtain rfl := tidy.fresh t u q takes takes'
        rw [stage] at stage'
        cases stage'
    · exact fresh (writes_known (tidy.known u) hw)
  · have fresh := takes_fresh (tidy.known t) (takes_of_writes held op)
    have count : 0 < (s.pc scanner).reads.count q := by
      rw [← h.readers q]
      exact readers
    exact fresh (reads_known (tidy.known scanner) (List.count_pos_iff.1 count))
  · rw [rLock_writes op] at held
    exact List.not_mem_nil held

omit [DecidableEq Tid] in
/-- Some unfinished thread can go on. -/
theorem Latched.exists_free (h : Latched scanner s) (tidy : Tidy scanner s)
    (quiet : Quiet scanner s) (busy : (s.pc t).op ≠ none) :
    ∃ u, (s.pc u).op ≠ none ∧ ¬ Blocked s u := by
  by_contra all
  simp only [not_exists, not_and, not_not] at all
  -- nobody has a claim: its owner would wait for the scan, and the scan for a second read latch
  have unclaimed (u : Tid) (p : PageId) : ¬ Claims s u p := by
    intro hu
    rcases hu with ⟨op, woken, stage⟩ | held
    · have blocked := all u (by rw [op]; simp)
      obtain ⟨q, ⟨-, ⟨_, stage'⟩, -⟩ | ⟨op', -, readers⟩ | ⟨op', -⟩⟩ := h.blocked blocked
      · rw [stage] at stage'
        cases stage'
      · rw [op] at op'
        cases op'
        have count : 0 < (s.pc scanner).reads.count p := by
          rw [← h.readers p]
          exact readers
        have reads := List.count_pos_iff.1 count
        have busy' : (s.pc scanner).op ≠ none := by
          intro none
          rw [(holds_nothing none).1] at reads
          exact List.not_mem_nil reads
        obtain ⟨q, ⟨op', -⟩ | ⟨op', -⟩ | ⟨op', entered⟩⟩ := h.blocked (all scanner busy')
        · rw [wLock_reads op'] at reads
          exact List.not_mem_nil reads
        · rw [wLock_reads op'] at reads
          exact List.not_mem_nil reads
        · obtain ⟨rid, hpc⟩ := scanTuple_of_reads reads op'
          exact quiet p rid hpc u (.inl ⟨op, woken, stage⟩)
      · rw [op] at op'
        cases op'
    · have busy' : (s.pc u).op ≠ none := by
        intro none
        rw [(holds_nothing none).2] at held
        exact List.not_mem_nil held
      exact h.not_held tidy (all u busy') held
  obtain ⟨p, ⟨-, -, entered⟩ | ⟨op, stage, -⟩ | ⟨-, entered⟩⟩ := h.blocked (all t busy)
  · obtain ⟨u, hu⟩ := (h.claimed p).1 entered
    exact unclaimed u p hu
  · exact unclaimed t p (.inl ⟨op, stage⟩)
  · obtain ⟨u, hu⟩ := (h.claimed p).1 entered
    exact unclaimed u p hu

end Waiting

/-- A tidy table, latches nobody has used, and threads between calls. -/
structure Initial (s : System Tid) : Prop where
  tidy : s.mem.Tidy
  latch : ∀ p, s.latch p = {}
  done : ∀ t, s.pc t = .done
  idle : ∀ t, s.stage t = .idle

/-- The states of all runs from `s₀` in which a thread `t` that takes a step in `s` is `fair s t`. -/
def Reachable (scanner : Tid) (fair : System Tid → Tid → Prop) (s₀ s : System Tid) : Prop :=
  Relation.ReflTransGen (fun s s' => ∃ t, fair s t ∧ Step scanner t s s') s₀ s

omit [DecidableEq Tid] in
theorem Initial.tidy_latched (h : Initial s) (scanner : Tid) :
    Tidy scanner s ∧ Latched scanner s ∧ Quiet scanner s := by
  have unclaimed (u : Tid) (p : PageId) : ¬ Claims s u p := by
    rw [Claims, h.idle, h.done, claimsAt_idle]
    exact List.not_mem_nil
  refine ⟨⟨h.tidy, fun t => ?_, fun t u n ht => ?_, fun t ht => ?_⟩,
    ⟨fun t => ?_, fun p => ?_, fun p t u ht => ?_, fun p => ?_, fun t p op => ?_, fun t p op => ?_,
      fun t p op => ?_⟩, fun p rid hs => ?_⟩
  · rw [h.done]
    trivial
  · rw [h.done] at ht
    cases ht
  · rw [h.done] at ht
    exact ht.elim
  · rw [h.done]
    exact h.idle t
  · simp only [unclaimed, exists_false, iff_false, h.latch]
    simp
  · exact absurd ht (unclaimed t p)
  · rw [h.latch, h.done]
    rfl
  all_goals
    rw [h.done] at *
    contradiction

theorem Reachable.inv {s₀ : System Tid} (initial : Initial s₀)
    (run : Reachable scanner (Courteous scanner) s₀ s) :
    Tidy scanner s ∧ Latched scanner s ∧ Quiet scanner s := by
  induction run with
  | refl => exact initial.tidy_latched scanner
  | tail _ step ih =>
    obtain ⟨t, courteous, step⟩ := step
    obtain ⟨tidy, latched, quiet⟩ := ih
    have acts := acts_of_step step
    exact ⟨tidy.acts acts, latched.acts tidy acts, quiet.acts latched tidy courteous acts⟩

/-- As long as no writer claims a page between the two read latches of the scan, the threads never
all block: if a thread has not finished its call, some such thread can go on. -/
theorem reachable_not_blocked {s₀ : System Tid} (initial : Initial s₀)
    (run : Reachable scanner (Courteous scanner) s₀ s) :
    (¬ ∀ t, Blocked s t) ∧
      ∀ t, (s.pc t).op ≠ none → ∃ u, (s.pc u).op ≠ none ∧ ¬ Blocked s u := by
  obtain ⟨tidy, latched, quiet⟩ := run.inv initial
  have free (t : Tid) (busy : (s.pc t).op ≠ none) := latched.exists_free tidy quiet busy
  refine ⟨fun all => ?_, free⟩
  have busy : (s.pc scanner).op ≠ none := by
    obtain ⟨p, ⟨op, -⟩ | ⟨op, -⟩ | ⟨op, -⟩⟩ := latched.blocked (all scanner) <;> rw [op] <;> simp
  obtain ⟨u, -, hu⟩ := free scanner busy
  exact hu (all u)

/-- A table of one page with two tuples; thread `false` scans and thread `true` writes. -/
def onePage : System Bool where
  mem := ⟨fun _ => TablePage.twoTuples, {0}, 1⟩
  pc := fun _ => .done

theorem initial_onePage : Initial onePage := by
  refine ⟨⟨fun q _ => TablePage.wellFormed_twoTuples.toSound, fun q hq => ?_, fun q _ => .inl ?_,
    fun q hq => ?_, by decide⟩, fun _ => rfl, fun _ => rfl, fun _ => rfl⟩
  · rw [Set.mem_singleton_iff.1 hq]
    decide +kernel
  · show TablePage.getNextPageId TablePage.twoTuples = invalidPageId
    decide +kernel
  · rw [Set.mem_singleton_iff.1 hq]
    decide

/-- Both threads have called: `operator++` on the first tuple, `MarkDelete` of it. -/
def bothCalled : System Bool :=
  { onePage with
    pc := Function.update (Function.update onePage.pc false (.scanFirst ⟨0, 0⟩)) true
      (.changeAt .markDelete ⟨0, 0⟩) }

theorem reachable_bothCalled (fair : System Bool → Bool → Prop)
    (ok : ∀ s t, s.pc false = .done ∨ (∃ rid, s.pc false = .scanFirst rid) → fair s t) :
    Reachable false fair onePage bothCalled := by
  have first : Step false false onePage
      { onePage with pc := Function.update onePage.pc false (.scanFirst ⟨0, 0⟩) } :=
    .call _ rfl (.scan _ (Set.mem_singleton _) rfl)
  have second : Step false true
      { onePage with pc := Function.update onePage.pc false (.scanFirst ⟨0, 0⟩) } bothCalled :=
    .call _ rfl (.change _ _ (Set.mem_singleton _) (by decide))
  exact .tail (.single ⟨false, ok _ _ (.inl rfl), first⟩) ⟨true, ok _ _ (.inr ⟨_, rfl⟩), second⟩

theorem reachable_not_blocked_bothCalled : ¬ ∀ t, Blocked bothCalled t := by
  refine (reachable_not_blocked initial_onePage (reachable_bothCalled (Courteous false) ?_)).1
  rintro s t (hs | ⟨rid, hs⟩) p rid' hs'
  · rw [hs] at hs'
    cases hs'
  · rw [hs] at hs'
    cases hs'

/-- The scan has its first read latch, the writer claims the latch, and the scan waits for it with
its second one. -/
theorem not_reachable_not_blocked : ¬ ∀ (Tid : Type) (_ : DecidableEq Tid) (scanner : Tid)
    (s₀ s : System Tid), Initial s₀ → Reachable scanner (fun _ _ => True) s₀ s →
      ¬ ∀ t, Blocked s t := by
  intro h
  have found : TablePage.getNextTupleRid (bothCalled.mem.page 0) ⟨0, 0⟩ = .ok (some ⟨0, 1⟩) := by
    decide +kernel
  have moved : (bothCalled.pc false).advance true bothCalled.mem =
      .ok (.scanTuple 0 ⟨0, 1⟩, bothCalled.mem) := by
    change Pc.advance true bothCalled.mem (.scanFirst ⟨0, 0⟩) = _
    rw [Pc.advance, found]
    rfl
  have latched : bothCalled.settle false 0 (bothCalled.latch 0).rLock true =
      .ok (bothCalled.pass false 0 { readerCount := 1 } (.scanTuple 0 ⟨0, 1⟩) bothCalled.mem
        (Function.update bothCalled.stage false .idle)) := by
    change (bothCalled.pc false).advance true bothCalled.mem >>= _ = _
    rw [moved]
    rfl
  have run := reachable_bothCalled (fun _ _ => True) fun _ _ _ => trivial
  have run := run.tail ⟨false, trivial, .rLock 0 true _ rfl (.inl rfl) latched⟩
  have run := run.tail ⟨true, trivial, .wLock 0 true _ rfl (.inl rfl) rfl⟩
  have run := run.tail ⟨false, trivial, .rLock 0 true _ rfl (.inl rfl) rfl⟩
  refine h Bool _ false onePage _ initial_onePage run fun t => ?_
  cases t
  · exact .inl rfl
  · exact .inl rfl

end ScanWriters

end ScuDb
