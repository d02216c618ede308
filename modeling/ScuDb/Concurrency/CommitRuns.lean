import ScuDb.Concurrency.TransactionCalls

/-!
# Committing a transaction

`Commit` replays the deletes of the write set with `ApplyDelete`.  The write set has one record for
each call of `MarkDelete`, whatever the page did, so the replay works if every call marked a tuple
that was there and was not marked yet, and if no update moved a mark-deleted tuple away from its
offset.
-/

namespace ScuDb

open ByteMem PagePool Stateful

namespace Db

/-- What the RID of a successful call holds afterwards. -/
def Call.bytes : Call → Option (List UInt8)
  | .insertTuple tuple => some tuple.data
  | .updateTuple tuple _ => some tuple.data
  | _ => none

/-- What should be visible after a call. -/
def note (latest : View) (call : Call) : Option RID → View
  | none => latest
  | some rid => Function.update latest rid (.ok call.bytes)

/-- Calls of one transaction, each of them allowed by `ok`, and what should be visible after
them. -/
inductive Run (ok : Db → Call → Prop) (heap : TableHeap) (pool : PagePool PageData) :
    Db → View → Prop
  | start : Run ok heap pool { pool := pool } (view pool)
  | call {db db' : Db} {latest : View} {call : Call} {r : Option RID} :
      Run ok heap pool db latest → ok db call → Called heap db call r db' →
      Run ok heap pool db' (note latest call r)

/-- `MarkDelete` is called once for a tuple, and while it is there.  A successful `UpdateTuple`
stores a non-empty tuple, and keeps the size if there is a mark-deleted tuple below. -/
def Committable (db : Db) : Call → Prop
  | .markDelete rid => (∀ item ∈ db.txn.writeSet, item.wtype = .delete → item.rid ≠ rid) ∧
      ∃ i : ℕ, rid.slotNum = i ∧ TablePage.Used (db.pool.content rid.pageId) i
  | .updateTuple tuple rid => ∀ i : ℕ, rid.slotNum = i →
      TablePage.Fits (db.pool.content rid.pageId) tuple.data i →
      0 < tuple.data.length ∧ TablePage.NoMarkBelow (db.pool.content rid.pageId) tuple.data i
  | _ => True

/-- The tuple at `rid` is mark-deleted. -/
def Marked (pool : PagePool PageData) (rid : RID) : Prop :=
  ∃ i : ℕ, rid.slotNum = i ∧ (i : ℤ) < TablePage.getTupleCount (pool.content rid.pageId) ∧
    TablePage.getTupleSize (pool.content rid.pageId) i < 0

/-- The RIDs that `Commit` will delete, the last first. -/
def deletes (writeSet : List WriteRecord) : List RID :=
  (writeSet.filter fun item => item.wtype = .delete).map WriteRecord.rid

/-- The invariant: the deletes of the write set are about marked tuples, each once, and everything
else is as it should be. -/
structure Pending (heap : TableHeap) (db : Db) (latest : View) (chain : List PageId) : Prop where
  intact : Intact heap db.pool chain
  table : ∀ item ∈ db.txn.writeSet, item.table = heap
  marked : ∀ rid ∈ deletes db.txn.writeSet, rid.pageId ∈ chain ∧ Marked db.pool rid
  once : (deletes db.txn.writeSet).Nodup
  latest : view db.pool = latest

variable {heap : TableHeap} {pool pool' : PagePool PageData} {chain chain' : List PageId} {rid : RID}
  {txn : Transaction} {db db' : Db} {call : Call} {r : Option RID} {latest : View}

/-! ## Marked tuples -/

theorem Marked.put {p : PageId} {page : PageData} {slotNum : ℤ} (h : Marked pool rid)
    (keeps : TablePage.KeepsOthers (pool.content p) slotNum page)
    (hne : rid ≠ ⟨p, slotNum⟩) : Marked (pool.put p page) rid := by
  obtain ⟨i, hi, lt, neg⟩ := h
  by_cases hp : rid.pageId = p
  · have hslot : (i : ℤ) ≠ slotNum := by
      intro e
      exact hne (by cases rid; cases hp; cases e; cases hi; rfl)
    obtain ⟨used, hsize, -⟩ := keeps i hslot (hp ▸ ⟨lt, neg.ne⟩)
    refine ⟨i, hi, ?_⟩
    rw [put_content, if_pos hp]
    exact ⟨used.1, by rw [hsize, ← hp]; exact neg⟩
  · refine ⟨i, hi, ?_⟩
    rw [put_content, if_neg hp]
    exact ⟨lt, neg⟩

theorem Marked.inserted {tuple : List UInt8} (intact : Intact heap pool chain)
    (pos : 0 < tuple.length) {rid' : RID}
    (hi : TableHeap.InsertedInto pool chain tuple rid' pool' chain') (mem : rid.pageId ∈ chain)
    (h : Marked pool rid) : Marked pool' rid := by
  cases hi with
  | @here p i q hp hq =>
    refine h.put (hq.keepsOthers (intact.wellFormed p hp) pos) ?_
    rintro rfl
    obtain ⟨j, hj, lt, neg⟩ := h
    cases hj
    exact hq.not_used ⟨lt, neg.ne⟩
  | @fresh pre last i q hlast hnext hq =>
    have hids := intact.pages.ids rid.pageId mem
    have hlastMem : last ∈ chain := by simp [hlast]
    have same := sameTuples_setNextPageId (intact.pages.sound last hlastMem) pool.nextPageId
    obtain ⟨j, hj, lt, neg⟩ := h
    refine ⟨j, hj, ?_⟩
    change _ < TablePage.getTupleCount (((pool.put last _).put pool.nextPageId q).content _) ∧
      TablePage.getTupleSize (((pool.put last _).put pool.nextPageId q).content _) j < 0
    rw [put_content, if_neg hids.2.ne, put_content]
    split_ifs with hp
    · rw [hp] at lt neg
      have used := same.used.2 ⟨lt, neg.ne⟩
      exact ⟨used.1, by rw [same.size_used ⟨lt, neg.ne⟩]; exact neg⟩
    · exact ⟨lt, neg⟩

theorem deletes_record (txn : Transaction) (rid : RID) (wtype : WType) (tuple : Tuple)
    (table : TableHeap) : deletes (txn.record rid wtype tuple table).writeSet =
      if wtype = .delete then rid :: deletes txn.writeSet else deletes txn.writeSet := by
  unfold deletes Transaction.record
  rw [List.filter_cons]
  split_ifs with h₁ h₂ h₂
  · rfl
  · simp [h₂] at h₁
  · simp [h₂] at h₁
  · rfl

theorem mem_deletes {writeSet : List WriteRecord} :
    rid ∈ deletes writeSet ↔ ∃ item ∈ writeSet, item.wtype = .delete ∧ item.rid = rid := by
  simp [deletes, and_assoc]

/-! ## The calls -/

theorem pending_start (intact : Intact heap pool chain) :
    Pending heap { pool := pool } (view pool) chain := by
  refine ⟨intact, ?_, ?_, List.nodup_nil, rfl⟩
  · intro item h
    cases h
  · intro rid h
    cases h

theorem table_record (h : ∀ item ∈ txn.writeSet, item.table = heap) (rid : RID) (wtype : WType)
    (tuple : Tuple) : ∀ item ∈ (txn.record rid wtype tuple heap).writeSet, item.table = heap := by
  intro item hitem
  rcases List.mem_cons.1 hitem with rfl | hitem
  · rfl
  · exact h item hitem

/-- A change to one slot of a page; the write set may get a delete of that slot. -/
theorem pending_put (h : Pending heap db latest chain) {p : PageId} (mem : p ∈ chain)
    {page : PageData} {i : ℕ} {bytes : Option (List UInt8)}
    (header : ∀ a < 16, page.get a = (db.pool.content p).get a) (wf : TablePage.WellFormed page)
    (keeps : TablePage.KeepsOthers (db.pool.content p) i page)
    (used : ∀ j : ℕ, (j : ℤ) ≠ i → TablePage.Used page j → TablePage.Used (db.pool.content p) j)
    (hself : TablePage.getTuple page i = .ok bytes)
    (hrid : ∀ rid ∈ deletes db.txn.writeSet, rid ≠ ⟨p, i⟩)
    (htable : ∀ item ∈ txn.writeSet, item.table = heap)
    (hdel : deletes txn.writeSet = deletes db.txn.writeSet ∨
      deletes txn.writeSet = ⟨p, i⟩ :: deletes db.txn.writeSet ∧
        Marked (db.pool.put p page) ⟨p, i⟩) :
    Pending heap ⟨db.pool.put p page, txn⟩ (Function.update latest ⟨p, i⟩ (.ok bytes)) chain := by
  have others (rid : RID) (hr : rid ∈ deletes db.txn.writeSet) :
      rid.pageId ∈ chain ∧ Marked (db.pool.put p page) rid :=
    ⟨(h.marked rid hr).1, (h.marked rid hr).2.put keeps (hrid rid hr)⟩
  have hview : view (db.pool.put p page) = Function.update latest ⟨p, i⟩ (.ok bytes) := by
    rw [← h.latest]
    exact view_put hself fun slotNum hne =>
      keeps.getTuple (h.intact.wellFormed p mem) wf used hne
  rcases hdel with hdel | ⟨hdel, marked⟩
  · refine ⟨h.intact.put mem header wf, htable, ?_, ?_, hview⟩
    · rw [hdel]
      exact others
    · rw [hdel]
      exact h.once
  · refine ⟨h.intact.put mem header wf, htable, ?_, ?_, hview⟩
    · rw [hdel]
      intro rid hr
      rcases List.mem_cons.1 hr with rfl | hr
      · exact ⟨mem, marked⟩
      · exact others rid hr
    · rw [hdel]
      exact List.nodup_cons.2 ⟨fun hmem => hrid _ hmem rfl, h.once⟩

theorem pending_call (h : Pending heap db latest chain) (ok : Committable db call)
    (hc : Called heap db call r db') : ∃ chain', Pending heap db' (note latest call r) chain' := by
  rcases called_cases h.intact.quiet h.intact.pages hc with
    ⟨rfl, hpool, hws⟩ | ⟨tuple, rid, chain', rfl, rfl, pos, hi, htxn⟩ |
    ⟨rid, b, page, rfl, rfl, mem, nonneg, hm, rfl⟩ |
    ⟨tuple, rid, i, page, rfl, rfl, mem, hslot, hu, rfl⟩
  · exact ⟨chain, hpool ▸ h.intact, hws ▸ h.table, hpool ▸ hws ▸ h.marked, hws ▸ h.once,
      by rw [hpool]; exact h.latest⟩
  · obtain ⟨intact, hview⟩ := intact_inserted h.intact pos hi
    obtain ⟨-, sub⟩ := insertedInto_mem hi
    refine ⟨chain', intact, ?_, ?_, ?_, ?_⟩
    · rw [htxn]
      exact table_record h.table _ _ _
    · rw [htxn, deletes_record, if_neg (by decide)]
      intro rid' hr
      obtain ⟨mem, marked⟩ := h.marked rid' hr
      exact ⟨sub _ mem, marked.inserted h.intact pos hi mem⟩
    · rw [htxn, deletes_record, if_neg (by decide)]
      exact h.once
    · rw [hview, h.latest]
      rfl
  · obtain ⟨fresh, i, hslot, used⟩ := ok
    obtain ⟨p, slotNum⟩ := rid
    obtain rfl : slotNum = i := hslot
    simp only at mem used hm
    have wf := h.intact.wellFormed p mem
    obtain ⟨q, hq, hres⟩ := TablePage.markDelete_resized wf.toSound used.1 (wf.size_le used.1)
    cases hq.symm.trans hm
    have hsize : TablePage.getTupleSize page i < 0 := by
      have := abs_pos.2 used.2
      rw [hres.size, if_pos rfl]
      omega
    have hcount : (i : ℤ) < TablePage.getTupleCount page := by
      rw [hres.count]
      exact used.1
    have wf' := hres.wellFormed wf (by rw [abs_neg, abs_abs])
    refine ⟨chain, pending_put h mem (fun a ha => hres.below a (by omega)) wf'
      (hres.keepsOthers wf) (fun j _ hj => (hres.used ?_).1 hj) ?_ ?_
      (table_record h.table _ _ _) (.inr ⟨?_, ?_⟩)⟩
    · rw [neg_ne_zero, abs_ne_zero]
    · rw [TablePage.getTuple_eq wf' hcount, if_neg (by omega)]
      rfl
    · intro rid hr
      obtain ⟨item, hitem, hdel, rfl⟩ := mem_deletes.1 hr
      exact fresh item hitem hdel
    · rw [deletes_record, if_pos rfl]
    · refine ⟨i, rfl, ?_⟩
      rw [put_content, if_pos rfl]
      exact ⟨hcount, hsize⟩
  · obtain ⟨p, slotNum⟩ := rid
    obtain rfl : slotNum = i := hslot
    simp only at mem hu
    have wf := h.intact.wellFormed p mem
    have room := hu.room
    have live := hu.live
    obtain ⟨pos, below⟩ := ok i rfl ⟨live, by simp only [TablePage.getFreeSpaceSize]; omega⟩
    have wf' := hu.wellFormed wf below pos
    have hcount : (i : ℤ) < TablePage.getTupleCount page := by
      rw [hu.count]
      exact hu.slot
    refine ⟨chain, pending_put h mem hu.header wf' (hu.keepsOthers wf below pos)
      (fun j _ hj => (hu.used pos).1 hj) ?_ ?_ ?_ (.inl ?_)⟩
    · rw [TablePage.getTuple_eq wf' hcount, hu.size i hu.slot, if_pos rfl, if_pos (by omega),
        hu.tupleBytes wf pos]
      rfl
    · rintro rid hr rfl
      obtain ⟨-, j, hj, -, neg⟩ := h.marked _ hr
      obtain rfl : i = j := Int.ofNat.inj hj
      exact absurd live neg.not_gt
    · split_ifs
      · exact h.table
      · exact table_record h.table _ _ _
    · split_ifs
      · rfl
      · rw [deletes_record, if_neg (by decide)]

theorem pending_of_run (intact : Intact heap pool chain)
    (h : Run Committable heap pool db latest) : ∃ chain', Pending heap db latest chain' := by
  induction h with
  | start => exact ⟨chain, pending_start intact⟩
  | call _ ok hc ih =>
    obtain ⟨chain', pending⟩ := ih
    exact pending_call pending ok hc

/-! ## The commit -/

/-- What holds in the loop of `Commit`, with the records that are left. -/
structure Committing (heap : TableHeap) (chain : List PageId) (latest : View)
    (writeSet : List WriteRecord) (pool : PagePool PageData) : Prop where
  intact : Intact heap pool chain
  table : ∀ item ∈ writeSet, item.table = heap
  marked : ∀ rid ∈ deletes writeSet, rid.pageId ∈ chain ∧ Marked pool rid
  once : (deletes writeSet).Nodup
  latest : view pool = latest

/-- Removing a marked tuple changes nothing that is visible. -/
theorem applyDelete_marked (intact : Intact heap pool chain) (mem : rid.pageId ∈ chain)
    (marked : Marked pool rid) : ∃ pool', heap.applyDelete rid pool = .ok ((), pool') ∧
      Intact heap pool' chain ∧ view pool' = view pool ∧
      ∀ rid', rid' ≠ rid → Marked pool rid' → Marked pool' rid' := by
  obtain ⟨p, slotNum⟩ := rid
  obtain ⟨i, hi, lt, neg⟩ := marked
  obtain rfl : slotNum = i := hi
  simp only at mem lt neg
  have wf := intact.wellFormed p mem
  have used : TablePage.Used (pool.content p) i := ⟨lt, neg.ne⟩
  obtain ⟨page, hpage, hr⟩ := TablePage.applyDelete_inside wf.toSound lt (wf.bounds used)
  have wf' := hr.wellFormed wf used
  have keeps := hr.keepsOthers wf used
  refine ⟨pool.put p page, ?_, intact.put mem hr.header wf', ?_, fun rid' hne hm => hm.put keeps hne⟩
  · rw [TableHeap.applyDelete_run intact.quiet intact.pages mem, hpage]
    rfl
  · rw [view_put_same fun slotNum => ?_]
    by_cases hs : slotNum = i
    · rw [hs, TablePage.getTuple_not_used wf'.toSound fun hu => (hr.used.1 hu).1 rfl,
        TablePage.getTuple_eq wf lt, if_neg (by omega)]
    · exact keeps.getTuple wf wf' (fun j _ hu => (hr.used.1 hu).2) hs

theorem committing_round {item : WriteRecord} {rest : List WriteRecord}
    (h : Committing heap chain latest (item :: rest) pool) :
    ∃ pool', TransactionManager.commitRecord item pool = .ok ((), pool') ∧
      Committing heap chain latest rest pool' := by
  have htable : ∀ item ∈ rest, item.table = heap :=
    fun item hitem => h.table item (List.mem_cons_of_mem _ hitem)
  obtain ⟨rid, wtype, tuple, table⟩ := item
  obtain rfl : table = heap := h.table _ List.mem_cons_self
  cases wtype with
  | insert => exact ⟨pool, rfl, h.intact, htable, h.marked, h.once, h.latest⟩
  | update => exact ⟨pool, rfl, h.intact, htable, h.marked, h.once, h.latest⟩
  | delete =>
    have hdel : deletes (⟨rid, .delete, tuple, table⟩ :: rest) = rid :: deletes rest := rfl
    have hmarked := h.marked
    have once := h.once
    rw [hdel] at hmarked once
    obtain ⟨mem, marked⟩ := hmarked rid List.mem_cons_self
    obtain ⟨pool', hrun, intact, hview, keeps⟩ := applyDelete_marked h.intact mem marked
    refine ⟨pool', hrun, intact, htable, fun rid' hr => ?_, once.of_cons, hview.trans h.latest⟩
    obtain ⟨mem', marked'⟩ := hmarked rid' (List.mem_cons_of_mem _ hr)
    refine ⟨mem', keeps rid' ?_ marked'⟩
    rintro rfl
    exact (List.nodup_cons.1 once).1 hr

/-- `Commit` returns, and leaves well-formed pages on which the latest tuples are visible. -/
theorem commit_settles (intact : Intact heap pool chain)
    (h : Run Committable heap pool db latest) : ∃ pool' chain',
      TransactionManager.commit db.txn db.pool = .ok ({ state := .committed }, pool') ∧
      Intact heap pool' chain' ∧ view pool' = latest := by
  obtain ⟨chain', pending⟩ := pending_of_run intact h
  have start : Committing heap chain' latest db.txn.writeSet db.pool :=
    ⟨pending.intact, pending.table, pending.marked, pending.once, pending.latest⟩
  obtain ⟨pool', hrun, done⟩ := forM_ok (fun _ _ _ => committing_round) db.txn.writeSet start
  refine ⟨pool', chain', ?_, done.intact, done.latest⟩
  unfold TransactionManager.commit
  rw [bind_ok hrun]
  rfl

end Db

end ScuDb
