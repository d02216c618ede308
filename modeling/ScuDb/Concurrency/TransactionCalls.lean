import ScuDb.Page.TablePageUndo
import ScuDb.Table.HeapRuns

/-!
# The calls of one transaction

`Called` is one call of a transaction on a table heap, together with the RID it is about if it was
successful.  `called_cases` says all that such a call can do; `view` is what `GetTuple` finds.
-/

namespace ScuDb

open ByteMem PagePool Stateful LinkedList

namespace Db

/-- What `GetTuple` finds at each RID. -/
abbrev View := RID → Except Fault (Option (List UInt8))

def view (pool : PagePool PageData) : View := fun rid =>
  TablePage.getTuple (pool.content rid.pageId) rid.slotNum

/-- A table at rest: its pages are well formed and nothing is pinned or latched. -/
structure Intact (heap : TableHeap) (pool : PagePool PageData) (chain : List PageId) : Prop where
  quiet : PagePool.Quiet pool
  pages : TableHeap.Pages heap pool chain
  wellFormed : ∀ p ∈ chain, TablePage.WellFormed (pool.content p)

/-- A RID that names a slot of the heap, used or not. -/
def OnSlot (heap : TableHeap) (pool : PagePool PageData) (rid : RID) : Prop :=
  OnHeap heap pool rid.pageId ∧ 0 ≤ rid.slotNum

/-- A call of the transaction that returned; the RID it is about, or `none` for `false`. -/
inductive Called (heap : TableHeap) : Db → Call → Option RID → Db → Prop
  | insertTuple {db : Db} {tuple : Tuple} {r : Option RID} {txn : Transaction}
      {pool : PagePool PageData} :
      heap.insertTuple tuple db.txn db.pool = .ok ((r, txn), pool) →
      Called heap db (.insertTuple tuple) r ⟨pool, txn⟩
  | markDelete {db : Db} {rid : RID} {b : Bool} {txn : Transaction} {pool : PagePool PageData} :
      OnSlot heap db.pool rid → heap.markDelete rid db.txn db.pool = .ok ((b, txn), pool) →
      Called heap db (.markDelete rid) (if b then some rid else none) ⟨pool, txn⟩
  | updateTuple {db : Db} {tuple : Tuple} {rid : RID} {b : Bool} {txn : Transaction}
      {pool : PagePool PageData} :
      OnSlot heap db.pool rid →
      heap.updateTuple tuple rid db.txn db.pool = .ok ((b, txn), pool) →
      Called heap db (.updateTuple tuple rid) (if b then some rid else none) ⟨pool, txn⟩

variable {heap : TableHeap} {pool pool' : PagePool PageData} {chain chain' : List PageId} {rid : RID}
  {txn : Transaction} {db db' : Db} {call : Call} {r : Option RID}

theorem called_cases (quiet : PagePool.Quiet db.pool)
    (pages : TableHeap.Pages heap db.pool chain) (h : Called heap db call r db') :
    (r = none ∧ db'.pool = db.pool ∧ db'.txn.writeSet = db.txn.writeSet) ∨
    (∃ tuple rid chain', call = .insertTuple tuple ∧ r = some rid ∧ 0 < tuple.data.length ∧
      TableHeap.InsertedInto db.pool chain tuple.data rid db'.pool chain' ∧
      db'.txn = db.txn.record rid .insert {} heap) ∨
    (∃ rid b page, call = .markDelete rid ∧ r = some rid ∧ rid.pageId ∈ chain ∧ 0 ≤ rid.slotNum ∧
      TablePage.markDelete (db.pool.content rid.pageId) rid.slotNum = .ok (b, page) ∧
      db' = ⟨db.pool.put rid.pageId page, db.txn.record rid .delete {} heap⟩) ∨
    (∃ tuple rid, ∃ (i : ℕ) (page : PageData), call = .updateTuple tuple rid ∧ r = some rid ∧
      rid.pageId ∈ chain ∧ rid.slotNum = i ∧
      TablePage.Updated (db.pool.content rid.pageId) tuple.data i page ∧
      db' = ⟨db.pool.put rid.pageId page, if db.txn.state = .aborted then db.txn
        else db.txn.record rid .update
          ⟨rid, TablePage.tupleBytes (db.pool.content rid.pageId) i⟩ heap⟩) := by
  cases h with
  | insertTuple heq =>
    rcases TableHeap.insertTuple_spec quiet pages heq with
      ⟨rfl, rfl, rfl⟩ | ⟨rid, chain', rfl, rfl, pos, hi⟩
    · exact .inl ⟨rfl, rfl, rfl⟩
    · exact .inr (.inl ⟨_, rid, chain', rfl, rfl, pos, hi, rfl⟩)
  | @markDelete rid b txn pool legal heq =>
    have mem := onHeap_mem pages legal.1
    rw [TableHeap.markDelete_run quiet pages mem] at heq
    cases hp : TablePage.markDelete (db.pool.content rid.pageId) rid.slotNum with
    | error e =>
      rw [hp] at heq
      cases heq
    | ok q =>
      rw [hp] at heq
      cases heq
      exact .inr (.inr (.inl ⟨rid, q.1, q.2, rfl, rfl, mem, legal.2, hp, rfl⟩))
  | @updateTuple tuple rid b txn pool legal heq =>
    have mem := onHeap_mem pages legal.1
    rw [TableHeap.updateTuple_run quiet pages mem] at heq
    cases hp : TablePage.updateTuple (db.pool.content rid.pageId) tuple.data rid.slotNum with
    | error e =>
      rw [hp] at heq
      cases heq
    | ok q =>
      rw [hp] at heq
      obtain ⟨old, q⟩ := q
      rcases TableHeap.updateTuple_updated (pages.sound _ mem) hp with
        ⟨rfl, rfl⟩ | ⟨i, bytes, hi, rfl, hu, hbytes⟩
      · cases heq
        exact .inl ⟨rfl, rfl, rfl⟩
      · cases heq
        refine .inr (.inr (.inr ⟨tuple, rid, i, q, rfl, rfl, mem, hi, hu, ?_⟩))
        have live := hu.live
        rw [hbytes, TablePage.tupleBytes,
          show (TablePage.getTupleSize (db.pool.content rid.pageId) i).natAbs =
            (TablePage.getTupleSize (db.pool.content rid.pageId) i).toNat by omega]

/-! ## What is visible -/

theorem put_content {p q : PageId} {page : PageData} :
    (pool.put p page).content q = if q = p then page else pool.content q :=
  Function.update_apply _ _ _ _

/-- A change to one page that shows in one slot only. -/
theorem view_put {p : PageId} {page : PageData} {i : ℕ} {bytes : Option (List UInt8)}
    (hself : TablePage.getTuple page i = .ok bytes)
    (hother : ∀ slotNum : ℤ, slotNum ≠ i →
      TablePage.getTuple page slotNum = TablePage.getTuple (pool.content p) slotNum) :
    view (pool.put p page) = Function.update (view pool) ⟨p, i⟩ (.ok bytes) := by
  funext rid
  rw [Function.update_apply, view, put_content]
  split_ifs with hp hrid hrid
  · rw [hrid]
    exact hself
  · rw [hother rid.slotNum fun e => hrid (by cases rid; cases hp; cases e; rfl), view, hp]
  · exact absurd (by rw [hrid]) hp
  · rfl

theorem Intact.put (h : Intact heap pool chain) {p : PageId} (mem : p ∈ chain) {page : PageData}
    (header : ∀ a < 16, page.get a = (pool.content p).get a) (wf : TablePage.WellFormed page) :
    Intact heap (pool.put p page) chain := by
  refine ⟨h.quiet.put p page, h.pages.put mem header wf.toSound, fun q hq => ?_⟩
  rw [put_content]
  split_ifs
  · exact wf
  · exact h.wellFormed q hq

theorem view_inserted {p : PageId} {page : PageData} {tuple : List UInt8} {i : ℕ}
    (wf : TablePage.WellFormed (pool.content p)) (pos : 0 < tuple.length)
    (hq : TablePage.Inserted (pool.content p) tuple i page) :
    view (pool.put p page) = Function.update (view pool) ⟨p, i⟩ (.ok (some tuple)) := by
  have wf' := hq.wellFormed wf pos
  have used : TablePage.Used page i := (hq.used wf.toSound pos).2 (.inl rfl)
  refine view_put ?_ fun slotNum hne => ?_
  · rw [TablePage.getTuple_eq wf' used.1, if_pos (by rw [hq.size]; omega), hq.tupleBytes]
  · refine (hq.keepsOthers wf pos).getTuple wf wf' (fun j hj hu => ?_) hne
    exact ((hq.used wf.toSound pos).1 hu).resolve_left fun e => hj (by rw [e])

/-- A blank page and an initialised one hold no tuples. -/
theorem getTuple_init (n last : PageId) (slotNum : ℤ) :
    TablePage.getTuple (TablePage.init Mem.zero n pageSize last) slotNum =
      TablePage.getTuple Mem.zero slotNum := by
  have hzero : TablePage.getTupleCount Mem.zero = 0 := Mem.getInt32_zero 20
  have hinit := TablePage.init_count Mem.zero n last
  by_cases hneg : slotNum < 0
  · rw [TablePage.getTuple_negative (by rw [hinit]) hneg,
      TablePage.getTuple_negative (by rw [hzero]) hneg]
  · rw [TablePage.getTuple_beyond (by rw [hinit]; omega),
      TablePage.getTuple_beyond (by rw [hzero]; omega)]

theorem view_put_same {p : PageId} {page : PageData} (h : ∀ slotNum,
    TablePage.getTuple page slotNum = TablePage.getTuple (pool.content p) slotNum) :
    view (pool.put p page) = view pool := by
  funext rid
  rw [view, put_content]
  split_ifs with hp
  · rw [h, view, hp]
  · rfl

theorem sameTuples_setNextPageId {page : PageData} (sound : TablePage.Sound page) (n : PageId) :
    TablePage.SameTuples page (TablePage.setNextPageId page n) :=
  TablePage.sameTuples_of_get sound fun _ ha => TableHeap.setNextPageId_get page n (.inr ha)

/-- A successful `InsertTuple` keeps the table intact and shows in one RID. -/
theorem intact_inserted {tuple : List UInt8} (h : Intact heap pool chain) (pos : 0 < tuple.length)
    (hi : TableHeap.InsertedInto pool chain tuple rid pool' chain') :
    Intact heap pool' chain' ∧ view pool' = Function.update (view pool) rid (.ok (some tuple)) := by
  have pages := hi.pages h.pages
  have quiet := hi.quiet h.quiet
  cases hi with
  | here mem hq =>
    have wf := h.wellFormed _ mem
    exact ⟨h.put mem hq.header (hq.wellFormed wf pos), view_inserted wf pos hq⟩
  | @fresh pre last i q hlast hnext hq =>
    obtain ⟨n, hn⟩ : ∃ n, n = pool.nextPageId := ⟨_, rfl⟩
    rw [← hn] at hq pages quiet ⊢
    have mem : last ∈ chain := by simp [hlast]
    have hids := h.pages.ids last mem
    have hne : n ≠ last := by
      rintro rfl
      lia
    have same := sameTuples_setNextPageId (h.pages.sound last mem) n
    have sound := TableHeap.sound_setNextPageId (h.pages.sound last mem) n
    have wfInit := TablePage.wellFormed_init Mem.zero n last
    refine ⟨⟨quiet, pages, fun p hp => ?_⟩, ?_⟩
    · change TablePage.WellFormed (((pool.put last _).put n q).content p)
      rw [put_content, put_content]
      split_ifs with hpn hpl
      · exact hq.wellFormed wfInit pos
      · exact same.wellFormed (h.wellFormed last mem) sound
      · exact h.wellFormed p ((List.mem_append.1 hp).resolve_right fun e =>
          hpn (List.mem_singleton.1 e))
    · -- first the link, then the blank page, then the tuple
      obtain ⟨linked, hlinked⟩ : ∃ linked, linked =
        pool.put last (TablePage.setNextPageId (pool.content last) n) := ⟨_, rfl⟩
      have hview : view linked = view pool := by
        rw [hlinked]
        exact view_put_same (same.getTuple (h.wellFormed last mem).layout sound)
      have hblank : view (linked.put n (TablePage.init Mem.zero n pageSize last)) = view linked := by
        refine view_put_same fun slotNum => ?_
        rw [getTuple_init, hlinked, put_content, if_neg hne, h.pages.fresh n hn.ge]
      have hput : linked.put n q =
          (linked.put n (TablePage.init Mem.zero n pageSize last)).put n q := by
        simp only [PagePool.put, Function.update_idem]
      have hself : (linked.put n (TablePage.init Mem.zero n pageSize last)).content n =
          TablePage.init Mem.zero n pageSize last := by
        rw [put_content, if_pos rfl]
      change view ((pool.put last _).put n q) = _
      rw [← hlinked, hput, view_inserted (by rw [hself]; exact wfInit) pos (by rw [hself]; exact hq),
        hblank, hview]

/-! ## Calls that evaluate -/

/-- The outcome of a call, if it returns and its RID names a slot of the heap. -/
def tryCall (heap : TableHeap) (db : Db) : Call → Option (Option RID × Db)
  | .insertTuple tuple =>
    match heap.insertTuple tuple db.txn db.pool with
    | .ok ((r, txn), pool) => some (r, ⟨pool, txn⟩)
    | .error _ => none
  | .markDelete rid =>
    if isLegal heap db (.markDelete rid) ∧ 0 ≤ rid.slotNum then
      match heap.markDelete rid db.txn db.pool with
      | .ok ((b, txn), pool) => some (if b then some rid else none, ⟨pool, txn⟩)
      | .error _ => none
    else none
  | .updateTuple tuple rid =>
    if isLegal heap db (.updateTuple tuple rid) ∧ 0 ≤ rid.slotNum then
      match heap.updateTuple tuple rid db.txn db.pool with
      | .ok ((b, txn), pool) => some (if b then some rid else none, ⟨pool, txn⟩)
      | .error _ => none
    else none
  | _ => none

theorem intact_create (ready : Ready pool) (hr : TableHeap.create pool = .ok (heap, pool')) :
    Intact heap pool' [heap.firstPageId] := by
  have inv := inv_create ready hr
  obtain ⟨hfirst, -, rfl⟩ := create_run ready.quiet hr
  refine ⟨inv.quiet, inv.pages, fun p hp => ?_⟩
  rw [List.mem_singleton.1 hp, hfirst]
  change TablePage.WellFormed (Function.update pool.content pool.nextPageId _ pool.nextPageId)
  rw [Function.update_self]
  exact TablePage.wellFormed_init _ _ _

end Db

end ScuDb
