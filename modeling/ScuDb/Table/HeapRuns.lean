import ScuDb.Concurrency.TransactionManager
import ScuDb.Table.HeapPages

/-!
# Runs over one table heap

A heap is created and then used by one transaction after the other: inserts, deletes and updates of
tuples of the heap, commits and aborts.  In every state reached, the pages of the heap form a
finite list of sound pages, and no pins, latches or unreported changes are left behind.
-/

namespace ScuDb

open ByteMem PagePool Stateful LinkedList

/-- A pool and the running transaction. -/
structure Db where
  pool : PagePool PageData
  txn : Transaction := TransactionManager.begin

namespace Db

inductive Call
  | insertTuple (tuple : Tuple)
  | markDelete (rid : RID)
  | updateTuple (tuple : Tuple) (rid : RID)
  | commit
  | abort

/-- One call; after a commit or an abort the next transaction begins. -/
def step (heap : TableHeap) (db : Db) : Call → Except Fault Db
  | .insertTuple tuple => do
    let ((_, txn), pool) ← heap.insertTuple tuple db.txn db.pool
    return ⟨pool, txn⟩
  | .markDelete rid => do
    let ((_, txn), pool) ← heap.markDelete rid db.txn db.pool
    return ⟨pool, txn⟩
  | .updateTuple tuple rid => do
    let ((_, txn), pool) ← heap.updateTuple tuple rid db.txn db.pool
    return ⟨pool, txn⟩
  | .commit => do
    let (_, pool) ← TransactionManager.commit db.txn db.pool
    return ⟨pool, TransactionManager.begin⟩
  | .abort => do
    let (_, pool) ← TransactionManager.abort db.txn db.pool
    return ⟨pool, TransactionManager.begin⟩

/-- `p` is a page of the heap. -/
def OnHeap (heap : TableHeap) (pool : PagePool PageData) (p : PageId) : Prop :=
  ∃ chain, Follows (fun p => TablePage.getNextPageId (pool.content p)) invalidPageId
    heap.firstPageId chain ∧ p ∈ chain

/-- RIDs passed to a call name pages of the heap. -/
def Legal (heap : TableHeap) (db : Db) : Call → Prop
  | .markDelete rid => OnHeap heap db.pool rid.pageId
  | .updateTuple _ rid => OnHeap heap db.pool rid.pageId
  | _ => True

/-- A pool in which a table can be created: it is at rest, and pages that were never allocated are
blank. -/
structure Ready (pool : PagePool PageData) : Prop where
  quiet : PagePool.Quiet pool
  nonneg : 0 ≤ pool.nextPageId
  fresh : ∀ p, pool.nextPageId ≤ p → pool.content p = Mem.zero

/-- The states a heap is in after it was created. -/
inductive Reachable (heap : TableHeap) : Db → Prop
  | create {pool pool' : PagePool PageData} : Ready pool →
      TableHeap.create pool = .ok (heap, pool') → Reachable heap { pool := pool' }
  | step {db db' : Db} {call : Call} : Reachable heap db → Legal heap db call →
      db.step heap call = .ok db' → Reachable heap db'

/-- The invariant: the pages of the heap, and a write set about them. -/
structure Inv (heap : TableHeap) (db : Db) (chain : List PageId) : Prop where
  quiet : PagePool.Quiet db.pool
  pages : TableHeap.Pages heap db.pool chain
  records : ∀ item ∈ db.txn.writeSet, item.table = heap ∧ item.rid.pageId ∈ chain

variable {heap : TableHeap} {pool pool' : PagePool PageData} {chain : List PageId} {rid : RID}
  {txn : Transaction}

theorem onHeap_mem (pages : TableHeap.Pages heap pool chain) {p : PageId}
    (h : OnHeap heap pool p) : p ∈ chain := by
  obtain ⟨chain', follows, mem⟩ := h
  rwa [pages.follows.unique follows]

/-- The pool is at rest and holds the pages of the heap. -/
def Holds (heap : TableHeap) (chain : List PageId) (pool : PagePool PageData) : Prop :=
  PagePool.Quiet pool ∧ TableHeap.Pages heap pool chain

theorem Holds.put (h : Holds heap chain pool) {p : PageId} (mem : p ∈ chain) {page : PageData}
    (header : ∀ a < 16, page.get a = (pool.content p).get a) (sound : TablePage.Sound page) :
    Holds heap chain (pool.put p page) :=
  ⟨h.1.put p page, h.2.put mem header sound⟩

theorem holds_markDelete (h : Holds heap chain pool) (mem : rid.pageId ∈ chain)
    {r : Bool × Transaction} (hr : heap.markDelete rid txn pool = .ok (r, pool')) :
    r = (true, txn.record rid .delete {} heap) ∧ Holds heap chain pool' := by
  rw [TableHeap.markDelete_run h.1 h.2 mem] at hr
  cases hp : TablePage.markDelete (pool.content rid.pageId) rid.slotNum with
  | error e =>
    rw [hp] at hr
    cases hr
  | ok q =>
    rw [hp] at hr
    cases hr
    have below := TableHeap.markDelete_below hp
    exact ⟨rfl, h.put mem (fun a ha => below a (by omega))
      (TableHeap.sound_congr (h.2.sound _ mem) below)⟩

theorem holds_updateTuple (h : Holds heap chain pool) (mem : rid.pageId ∈ chain) {tuple : Tuple}
    {r : Bool × Transaction} (hr : heap.updateTuple tuple rid txn pool = .ok (r, pool')) :
    (r.2 = txn ∨ ∃ old, r.2 = txn.record rid .update old heap) ∧ Holds heap chain pool' := by
  rw [TableHeap.updateTuple_run h.1 h.2 mem] at hr
  cases hp : TablePage.updateTuple (pool.content rid.pageId) tuple.data rid.slotNum with
  | error e =>
    rw [hp] at hr
    cases hr
  | ok q =>
    rw [hp] at hr
    obtain ⟨old, q⟩ := q
    rcases TableHeap.updateTuple_updated (h.2.sound _ mem) hp with
      ⟨rfl, rfl⟩ | ⟨i, bytes, -, rfl, hu, -⟩
    · cases hr
      exact ⟨.inl rfl, h⟩
    · cases hr
      refine ⟨?_, h.put mem hu.header (hu.sound (h.2.sound _ mem))⟩
      simp only
      split_ifs
      · exact .inl rfl
      · exact .inr ⟨_, rfl⟩

theorem holds_applyDelete (h : Holds heap chain pool) (mem : rid.pageId ∈ chain)
    (hr : heap.applyDelete rid pool = .ok ((), pool')) : Holds heap chain pool' := by
  rw [TableHeap.applyDelete_run h.1 h.2 mem] at hr
  cases hp : TablePage.applyDelete (pool.content rid.pageId) rid.slotNum with
  | error e =>
    rw [hp] at hr
    cases hr
  | ok q =>
    rw [hp] at hr
    cases hr
    obtain ⟨i, -, hq⟩ := TableHeap.applyDelete_removed (h.2.sound _ mem) hp
    exact h.put mem hq.header (hq.sound (h.2.sound _ mem))

theorem holds_rollbackDelete (h : Holds heap chain pool) (mem : rid.pageId ∈ chain)
    (hr : heap.rollbackDelete rid pool = .ok ((), pool')) : Holds heap chain pool' := by
  rw [TableHeap.rollbackDelete_run h.1 h.2 mem] at hr
  cases hp : TablePage.rollbackDelete (pool.content rid.pageId) rid.slotNum with
  | error e =>
    rw [hp] at hr
    cases hr
  | ok q =>
    rw [hp] at hr
    cases hr
    have below := TableHeap.rollbackDelete_below hp
    exact h.put mem (fun a ha => below a (by omega))
      (TableHeap.sound_congr (h.2.sound _ mem) below)

theorem holds_commitRecord {item : WriteRecord} (about : item.table = heap ∧ item.rid.pageId ∈ chain)
    (h : Holds heap chain pool)
    (hr : TransactionManager.commitRecord item pool = .ok ((), pool')) :
    Holds heap chain pool' := by
  obtain ⟨rid, wtype, tuple, table⟩ := item
  obtain ⟨rfl, mem⟩ := about
  cases wtype with
  | insert =>
    cases hr
    exact h
  | delete => exact holds_applyDelete h mem hr
  | update =>
    cases hr
    exact h

theorem holds_abortRecord {item : WriteRecord} (about : item.table = heap ∧ item.rid.pageId ∈ chain)
    (h : Holds heap chain pool)
    (hr : TransactionManager.abortRecord txn item pool = .ok ((), pool')) :
    Holds heap chain pool' := by
  obtain ⟨rid, wtype, tuple, table⟩ := item
  obtain ⟨rfl, mem⟩ := about
  cases wtype with
  | insert => exact holds_applyDelete h mem hr
  | delete => exact holds_rollbackDelete h mem hr
  | update =>
    obtain ⟨r, pool₁, h₁, h₂⟩ := of_bind_ok hr
    cases h₂
    exact (holds_updateTuple h mem h₁).2

/-! ## Every reachable state -/

theorem create_run (quiet : PagePool.Quiet pool)
    (hr : TableHeap.create pool = .ok (heap, pool')) :
    heap.firstPageId = pool.nextPageId ∧ pool.nextPageId < 2147483647 ∧
      pool' = { pool with
        content := Function.update pool.content pool.nextPageId
          (TablePage.init Mem.zero pool.nextPageId pageSize invalidPageId)
        nextPageId := pool.nextPageId + 1 } := by
  unfold TableHeap.create at hr
  by_cases hnext : pool.nextPageId < 2147483647
  · obtain ⟨n, hn⟩ : ∃ n, n = pool.nextPageId := ⟨_, rfl⟩
    obtain ⟨pool₁, hpool⟩ : ∃ pool₁ : PagePool PageData, pool₁ = { pool with
      content := Function.update pool.content n default, nextPageId := n + 1 } := ⟨_, rfl⟩
    have quiet₁ : PagePool.Quiet pool₁ := by
      rw [hpool]
      exact ⟨quiet.room, quiet.latch, quiet.clean⟩
    have hnew : newPage pool = .ok (some n, { pool₁ with pinned := n ::ₘ pool₁.pinned }) := by
      have hclean : Function.update pool.changed n false = pool.changed := by
        rw [← quiet.clean n, Function.update_eq_self]
      unfold newPage
      rw [if_neg (by simp [PagePool.not_full quiet.room_one]), if_pos hnext, ← hn, hclean, hpool]
    have hget : getPage n (PagePool.hold pool₁ n pool₁.changed) =
        .ok (Mem.zero, PagePool.hold pool₁ n pool₁.changed) := by
      rw [hpool]
      exact congrArg (fun c => Except.ok (c, _)) (Function.update_self _ _ _)
    obtain ⟨s, hun, hpin⟩ := PagePool.release_ok (p := n) true
      (quiet₁.put n (TablePage.init Mem.zero n pageSize invalidPageId) |>.latch n)
      (quiet₁.put n (TablePage.init Mem.zero n pageSize invalidPageId) |>.clean n)
      (.inr ⟨rfl, rfl⟩)
    have hset : setPage n (TablePage.init Mem.zero n pageSize invalidPageId)
        (PagePool.hold pool₁ n pool₁.changed) = .ok ((), PagePool.hold (pool₁.put n
          (TablePage.init Mem.zero n pageSize invalidPageId)) n
            (Function.update (pool₁.put n
              (TablePage.init Mem.zero n pageSize invalidPageId)).changed n true)) := rfl
    obtain ⟨-, hlatch⟩ := PagePool.hold_ok quiet₁.room_one (quiet₁.latch n)
    rw [bind_ok hnew] at hr
    simp only at hr
    rw [bind_ok hlatch, bind_ok hget, bind_ok hset, bind_ok hun,
      bind_ok hpin] at hr
    cases hr
    refine ⟨hn, hnext, ?_⟩
    rw [hpool, ← hn]
    simp only [PagePool.put, Function.update_idem]
  · have hnew : newPage pool = .error .overflow := by
      unfold newPage
      rw [if_neg (by simp [PagePool.not_full quiet.room_one]), if_neg hnext]
    rw [bind_error hnew] at hr
    cases hr

theorem inv_create (ready : Ready pool) (hr : TableHeap.create pool = .ok (heap, pool')) :
    Inv heap { pool := pool' } [heap.firstPageId] := by
  obtain ⟨hfirst, hnext, rfl⟩ := create_run ready.quiet hr
  obtain ⟨n, hn⟩ : ∃ n, n = pool.nextPageId := ⟨_, rfl⟩
  have nonneg := ready.nonneg
  rw [← hn] at hfirst hnext nonneg ⊢
  rw [hfirst]
  have hself : Function.update pool.content n (TablePage.init Mem.zero n pageSize invalidPageId) n =
      TablePage.init Mem.zero n pageSize invalidPageId := Function.update_self _ _ _
  refine ⟨⟨ready.quiet.room, ready.quiet.latch, ready.quiet.clean⟩, ⟨?_, by simp, by simp, ?_, ?_,
    ?_, ?_, ?_⟩, fun item h => ?_⟩
  · refine ⟨hfirst, ?_, ?_⟩
    · rw [hfirst]
      intro e
      rw [e] at nonneg
      exact absurd nonneg (by decide)
    · rw [hfirst]
      change TablePage.getNextPageId (Function.update pool.content n _ n) = _
      rw [hself, TablePage.init_next]
  · intro p hp
    rw [List.mem_singleton.1 hp]
    exact ⟨nonneg, by lia⟩
  · intro p hp
    rw [List.mem_singleton.1 hp]
    change TablePage.getPageId (Function.update pool.content n _ n) = _
    rw [hself]
    exact TablePage.init_pageId _ _ _ ⟨by lia, by lia⟩
  · intro p hp
    rw [List.mem_singleton.1 hp]
    change TablePage.Sound (Function.update pool.content n _ n)
    rw [hself]
    exact (TablePage.wellFormed_init _ _ _).toSound
  · intro p hp
    change n + 1 ≤ p at hp
    change Function.update pool.content n _ p = _
    rw [Function.update_of_ne (by lia)]
    exact ready.fresh p (by lia)
  · change n + 1 ≤ 2147483647
    lia
  · simp [TransactionManager.begin] at h

/-- Records about pages of the heap stay so when the heap grows. -/
theorem insertedInto_mem {chain' : List PageId} {tuple : List UInt8}
    (h : TableHeap.InsertedInto pool chain tuple rid pool' chain') :
    rid.pageId ∈ chain' ∧ ∀ p ∈ chain, p ∈ chain' := by
  cases h with
  | here mem _ => exact ⟨mem, fun p hp => hp⟩
  | fresh _ _ _ => exact ⟨by simp, fun p hp => List.mem_append_left _ hp⟩

theorem inv_step {db db' : Db} {call : Call} (h : Inv heap db chain) (legal : Legal heap db call)
    (hs : db.step heap call = .ok db') : ∃ chain', Inv heap db' chain' := by
  have holds : Holds heap chain db.pool := ⟨h.quiet, h.pages⟩
  cases call with
  | insertTuple tuple =>
    cases hr : heap.insertTuple tuple db.txn db.pool with
    | error e =>
      simp only [step, hr] at hs
      cases hs
    | ok r =>
      simp only [step, hr] at hs
      cases hs
      rcases TableHeap.insertTuple_spec h.quiet h.pages hr with
        ⟨-, htxn, hpool⟩ | ⟨rid, chain', -, htxn, -, hi⟩
      · refine ⟨chain, hpool ▸ h.quiet, hpool ▸ h.pages, ?_⟩
        rw [htxn]
        exact h.records
      · obtain ⟨mem, sub⟩ := insertedInto_mem hi
        refine ⟨chain', hi.quiet h.quiet, hi.pages h.pages, ?_⟩
        rw [htxn]
        intro item hitem
        rcases List.mem_cons.1 hitem with rfl | hitem
        · exact ⟨rfl, mem⟩
        · exact ⟨(h.records item hitem).1, sub _ (h.records item hitem).2⟩
  | markDelete rid =>
    have mem := onHeap_mem h.pages legal
    cases hr : heap.markDelete rid db.txn db.pool with
    | error e =>
      simp only [step, hr] at hs
      cases hs
    | ok r =>
      simp only [step, hr] at hs
      cases hs
      obtain ⟨htxn, quiet, pages⟩ := holds_markDelete holds mem hr
      refine ⟨chain, quiet, pages, ?_⟩
      rw [show r.1.2 = db.txn.record rid .delete {} heap by rw [htxn]]
      intro item hitem
      rcases List.mem_cons.1 hitem with rfl | hitem
      · exact ⟨rfl, mem⟩
      · exact h.records item hitem
  | updateTuple tuple rid =>
    have mem := onHeap_mem h.pages legal
    cases hr : heap.updateTuple tuple rid db.txn db.pool with
    | error e =>
      simp only [step, hr] at hs
      cases hs
    | ok r =>
      simp only [step, hr] at hs
      cases hs
      obtain ⟨htxn, quiet, pages⟩ := holds_updateTuple holds mem hr
      refine ⟨chain, quiet, pages, ?_⟩
      rcases htxn with htxn | ⟨old, htxn⟩
      · rw [htxn]
        exact h.records
      · rw [htxn]
        intro item hitem
        rcases List.mem_cons.1 hitem with rfl | hitem
        · exact ⟨rfl, mem⟩
        · exact h.records item hitem
  | commit =>
    cases hr : TransactionManager.commit db.txn db.pool with
    | error e =>
      simp only [step, hr] at hs
      cases hs
    | ok r =>
      obtain ⟨txn, pool₂⟩ := r
      simp only [step, hr] at hs
      cases hs
      obtain ⟨⟨⟩, pool₁, h₁, h₂⟩ := of_bind_ok hr
      cases h₂
      obtain ⟨quiet, pages⟩ := forM_inv (fun item hitem _ _ hp hi =>
        holds_commitRecord (h.records item hitem) hp hi) holds h₁
      exact ⟨chain, quiet, pages, fun item hi => by simp [TransactionManager.begin] at hi⟩
  | abort =>
    cases hr : TransactionManager.abort db.txn db.pool with
    | error e =>
      simp only [step, hr] at hs
      cases hs
    | ok r =>
      obtain ⟨txn, pool₂⟩ := r
      simp only [step, hr] at hs
      cases hs
      obtain ⟨⟨⟩, pool₁, h₁, h₂⟩ := of_bind_ok hr
      cases h₂
      obtain ⟨quiet, pages⟩ := forM_inv (fun item hitem _ _ hp hi =>
        holds_abortRecord (h.records item hitem) hp hi) holds h₁
      exact ⟨chain, quiet, pages, fun item hi => by simp [TransactionManager.begin] at hi⟩

theorem inv_of_reachable {db : Db} (h : Reachable heap db) : ∃ chain, Inv heap db chain := by
  induction h with
  | create ready hr => exact ⟨_, inv_create ready hr⟩
  | step _ legal hs ih =>
    obtain ⟨chain, inv⟩ := ih
    exact inv_step inv legal hs

/-! ## Runs that evaluate -/

/-- The pages of the heap, found by following their links. -/
def chainOf (heap : TableHeap) (pool : PagePool PageData) : Option (List PageId) :=
  follow (fun p => TablePage.getNextPageId (pool.content p)) invalidPageId pool.nextPageId.toNat
    heap.firstPageId

/-- Whether a call is found to be legal. -/
def isLegal (heap : TableHeap) (db : Db) : Call → Bool
  | .markDelete rid => (chainOf heap db.pool).any fun chain => rid.pageId ∈ chain
  | .updateTuple _ rid => (chainOf heap db.pool).any fun chain => rid.pageId ∈ chain
  | _ => true

theorem onHeap_of_chainOf {p : PageId}
    (h : ((chainOf heap pool).any fun chain => p ∈ chain) = true) : OnHeap heap pool p := by
  cases hc : chainOf heap pool with
  | none => simp [hc] at h
  | some chain =>
    rw [hc] at h
    exact ⟨chain, follows_of_follow _ hc, by simpa using h⟩

theorem legal_of_isLegal {db : Db} {call : Call} (h : isLegal heap db call = true) :
    Legal heap db call := by
  cases call with
  | insertTuple tuple => trivial
  | markDelete rid => exact onHeap_of_chainOf h
  | updateTuple tuple rid => exact onHeap_of_chainOf h
  | commit => trivial
  | abort => trivial

/-- The state after a list of calls, if all of them are legal and return. -/
def exec (heap : TableHeap) : List Call → Db → Option Db
  | [], db => some db
  | call :: rest, db =>
    if isLegal heap db call then
      match db.step heap call with
      | .ok db' => exec heap rest db'
      | .error _ => none
    else none

theorem reachable_of_exec : ∀ {calls : List Call} {db db' : Db}, Reachable heap db →
    exec heap calls db = some db' → Reachable heap db'
  | [], db, db', hdb, h => by
    simp only [exec, Option.some.injEq] at h
    exact h ▸ hdb
  | call :: rest, db, db', hdb, h => by
    simp only [exec] at h
    split_ifs at h with hl
    cases hs : db.step heap call with
    | error e => simp [hs] at h
    | ok db₁ =>
      rw [hs] at h
      exact reachable_of_exec (hdb.step (legal_of_isLegal hl) hs) h

/-- A pool of ten frames over an empty database. -/
def blankPool : PagePool PageData := { frames := some 10, content := fun _ => Mem.zero }

theorem ready_blankPool : Ready blankPool where
  quiet := ⟨fun frames h => by cases h; decide, fun _ => rfl, fun _ => rfl⟩
  nonneg := le_rfl
  fresh _ _ := rfl

/-- A run of calls on a new table in a new database; its first page is page 0. -/
def runNew (calls : List Call) : Option Db :=
  match TableHeap.create blankPool with
  | .ok (heap, pool) => exec heap calls { pool := pool }
  | .error _ => none

theorem reachable_runNew {calls : List Call} (h : (runNew calls).isSome) :
    Reachable ⟨0⟩ ((runNew calls).get h) := by
  have hget := (Option.some_get h).symm
  obtain ⟨db, hdb⟩ : ∃ db, db = (runNew calls).get h := ⟨_, rfl⟩
  rw [← hdb] at hget ⊢
  unfold runNew at hget
  cases hc : TableHeap.create blankPool with
  | error e => simp [hc] at hget
  | ok r =>
    obtain ⟨heap, pool⟩ := r
    rw [hc] at hget
    obtain ⟨hfirst, -, -⟩ := create_run ready_blankPool.quiet hc
    obtain rfl : heap = ⟨0⟩ := by
      cases heap
      exact congrArg TableHeap.mk hfirst
    exact reachable_of_exec (.create ready_blankPool hc) hget

end Db

end ScuDb
