import ScuDb.Buffer.PoolRules
import ScuDb.Lib.LinkedList
import ScuDb.Page.TablePageInvariant
import ScuDb.Table.TableHeap

/-!
# The pages of a table heap

`Pages heap pool chain` says that `chain` are the pages of the heap, in order.  Under it, one lemma
for each operation of the heap says what the operation does to the pool when the page operation
succeeds: it leaves pins, latches and all other pages as they were.
-/

namespace ScuDb

open ByteMem PagePool Stateful LinkedList

namespace TableHeap

variable {pool : PagePool PageData} {p : PageId} {β : Type}

theorem onPage_ok {body : PageData → Except Fault (β × Option PageData)} {isDirty : β → Bool}
    {r : β} {new : Option PageData} (room : pool.Room 1) (latch : pool.latch p = {})
    (clean : pool.changed p = false) (hbody : body (pool.content p) = .ok (r, new))
    (hid : TablePage.getPageId (new.getD (pool.content p)) = p)
    (hdirty : new = none ∨ isDirty r = true) :
    onPage p body isDirty pool = .ok (some r, pool.put p (new.getD (pool.content p))) := by
  obtain ⟨hfetch, hlatch⟩ := hold_ok room latch
  unfold onPage
  rw [bind_ok hfetch]
  simp only [Bool.not_true, Bool.false_eq_true, if_false]
  rw [bind_ok hlatch]
  have hget : getPage p (hold pool p pool.changed) =
      .ok (pool.content p, hold pool p pool.changed) := rfl
  rw [bind_ok hget, bind_ok (lift_ok hbody)]
  cases new with
  | none =>
    obtain ⟨s, hun, hpin⟩ := release_ok (isDirty r) latch clean (.inl rfl)
    simp only [Option.getD_none] at hid ⊢
    rw [bind_ok hun, hid, bind_ok hpin, pure_run, PagePool.put,
      Function.update_eq_self]
  | some new =>
    obtain ⟨s, hun, hpin⟩ := release_ok (p := p) (isDirty r)
      (show (pool.put p new).latch p = {} from latch)
      (show (pool.put p new).changed p = false from clean)
      (.inr ⟨rfl, hdirty.resolve_left (by simp)⟩)
    have hset : setPage p new (hold pool p pool.changed) = .ok ((), hold (pool.put p new) p
        (Function.update (pool.put p new).changed p true)) := rfl
    simp only [Option.getD_some] at hid ⊢
    rw [bind_ok hset, bind_ok hun, hid, bind_ok hpin, pure_run]

theorem onPage_error {body : PageData → Except Fault (β × Option PageData)} {isDirty : β → Bool}
    {e : Fault} (room : pool.Room 1) (latch : pool.latch p = {})
    (hbody : body (pool.content p) = .error e) : onPage p body isDirty pool = .error e := by
  obtain ⟨hfetch, hlatch⟩ := hold_ok room latch
  unfold onPage
  rw [bind_ok hfetch]
  simp only [Bool.not_true, Bool.false_eq_true, if_false]
  rw [bind_ok hlatch]
  have hget : getPage p (hold pool p pool.changed) =
      .ok (pool.content p, hold pool p pool.changed) := rfl
  rw [bind_ok hget]
  exact bind_error (lift_error hbody)

/-- The pages of the heap, in order: each has its own id in its header and a sound directory, and
pages that were never allocated are blank. -/
structure Pages (heap : TableHeap) (pool : PagePool PageData) (chain : List PageId) : Prop where
  follows : Follows (fun p => TablePage.getNextPageId (pool.content p)) invalidPageId
    heap.firstPageId chain
  nonempty : chain ≠ []
  nodup : chain.Nodup
  ids : ∀ p ∈ chain, 0 ≤ p ∧ p < pool.nextPageId
  pageId : ∀ p ∈ chain, TablePage.getPageId (pool.content p) = p
  sound : ∀ p ∈ chain, TablePage.Sound (pool.content p)
  fresh : ∀ p, pool.nextPageId ≤ p → pool.content p = Mem.zero
  next : pool.nextPageId ≤ 2147483647

/-- The pages of the heap, in order: allocated pages with their own ids in their headers, all of
them `good`. -/
structure Chain (good : PageData → Prop) (heap : TableHeap) (pool : PagePool PageData)
    (chain : List PageId) : Prop where
  follows : Follows (fun p => TablePage.getNextPageId (pool.content p)) invalidPageId
    heap.firstPageId chain
  nonempty : chain ≠ []
  ids : ∀ p ∈ chain, 0 ≤ p ∧ p < pool.nextPageId
  pageId : ∀ p ∈ chain, TablePage.getPageId (pool.content p) = p
  good : ∀ p ∈ chain, good (pool.content p)

theorem Pages.chain {heap : TableHeap} {chain : List PageId} (pages : Pages heap pool chain) :
    Chain TablePage.Sound heap pool chain :=
  ⟨pages.follows, pages.nonempty, pages.ids, pages.pageId, pages.sound⟩

theorem Chain.cons_first {good : PageData → Prop} {heap : TableHeap} {chain : List PageId}
    (h : Chain good heap pool chain) : ∃ rest, chain = heap.firstPageId :: rest := by
  cases chain with
  | nil => exact absurd rfl h.nonempty
  | cons p rest => exact ⟨rest, by rw [h.follows.1]⟩

/-- There are no more pages than page ids. -/
theorem Chain.length_le {good : PageData → Prop} {heap : TableHeap} {chain : List PageId}
    (h : Chain good heap pool chain) : chain.length ≤ pool.nextPageId.toNat := by
  have hsub : chain.toFinset ⊆ Finset.Ico 0 pool.nextPageId := by
    intro p hp
    exact Finset.mem_Ico.2 (h.ids p (List.mem_toFinset.1 hp))
  have := Finset.card_le_card hsub
  rwa [List.toFinset_card_of_nodup h.follows.nodup, Int.card_Ico, Int.sub_zero] at this

/-! ## Insertion -/

/-- Where `InsertTuple` puts the tuple: into a page of the heap, or into a new last page. -/
inductive InsertedInto (pool : PagePool PageData) (chain : List PageId) (tuple : List UInt8) :
    RID → PagePool PageData → List PageId → Prop
  | here {p : PageId} {i : ℕ} {q : PageData} : p ∈ chain →
      TablePage.Inserted (pool.content p) tuple i q →
      InsertedInto pool chain tuple ⟨p, i⟩ (pool.put p q) chain
  | fresh {pre : List PageId} {last : PageId} {i : ℕ} {q : PageData} : chain = pre ++ [last] →
      pool.nextPageId < 2147483647 →
      TablePage.Inserted (TablePage.init Mem.zero pool.nextPageId pageSize last) tuple i q →
      InsertedInto pool chain tuple ⟨pool.nextPageId, i⟩
        { (pool.put last (TablePage.setNextPageId (pool.content last) pool.nextPageId)).put
            pool.nextPageId q with nextPageId := pool.nextPageId + 1 }
        (chain ++ [pool.nextPageId])

theorem getPageId_congr {p q : PageData} (h : ∀ a < 16, q.get a = p.get a) :
    TablePage.getPageId q = TablePage.getPageId p :=
  Mem.getInt32_congr fun a _ hi => h a (by omega)

theorem getNextPageId_congr {p q : PageData} (h : ∀ a < 16, q.get a = p.get a) :
    TablePage.getNextPageId q = TablePage.getNextPageId p :=
  Mem.getInt32_congr fun a _ hi => h a (by omega)

/-- The loop on a held page that takes the tuple. -/
theorem insertLoop_here {tuple : Tuple} {fuel : ℕ} {changed : PageId → Bool} {rid : RID}
    {q : PageData} (quiet : Quiet pool)
    (hc : changed = pool.changed ∨ changed = Function.update pool.changed p true)
    (hr : TablePage.insertTuple (pool.content p) tuple.data = .ok (some rid, q))
    (hid : TablePage.getPageId q = p) :
    insertLoop tuple (fuel + 1) p (hold pool p changed) =
      .ok (some rid, pool.put p q) := by
  have hget : getPage p (hold pool p changed) =
      .ok (pool.content p, hold pool p changed) := rfl
  have hset : setPage p q (hold pool p changed) =
      .ok ((), hold (pool.put p q) p (Function.update (pool.put p q).changed p true)) := by
    rcases hc with rfl | rfl
    · rfl
    · simp [setPage, hold, PagePool.put]
  obtain ⟨s, hun, hpin⟩ := release_ok (p := p) true (quiet.put p q |>.latch p)
    (quiet.put p q |>.clean p) (.inr ⟨rfl, rfl⟩)
  unfold insertLoop
  rw [bind_ok hget, bind_ok (lift_ok hr)]
  simp only
  rw [bind_ok hset, bind_ok hun, hid, bind_ok hpin, pure_run]

/-- The pool after `InsertTuple` linked a blank page behind `last`. -/
def appendPage (pool : PagePool PageData) (last : PageId) : PagePool PageData :=
  { pool with
    content := Function.update
      (Function.update pool.content last
        (TablePage.setNextPageId (pool.content last) pool.nextPageId)) pool.nextPageId
      (TablePage.init Mem.zero pool.nextPageId pageSize last)
    nextPageId := pool.nextPageId + 1 }

theorem quiet_appendPage (quiet : Quiet pool) (last : PageId) : Quiet (appendPage pool last) :=
  ⟨quiet.room, quiet.latch, quiet.clean⟩

/-- The pool while `InsertTuple` holds the page `p` and the new page `n`. -/
def holdTwo (pool : PagePool PageData) (p n : PageId) (content : PageId → PageData)
    (changed : PageId → Bool) (latch : PageId → Latch) : PagePool PageData :=
  { pool with
    content := content
    changed := changed
    pinned := n ::ₘ p ::ₘ pool.pinned
    latch := latch
    nextPageId := n + 1 }

/-- The loop on a held last page that does not take the tuple. -/
theorem insertLoop_append {tuple : Tuple} {fuel : ℕ} (quiet : Quiet pool)
    (hr : TablePage.insertTuple (pool.content p) tuple.data = .ok (none, pool.content p))
    (hid : TablePage.getPageId (pool.content p) = p)
    (hlast : TablePage.getNextPageId (pool.content p) = invalidPageId)
    (hp : p < pool.nextPageId) (hnext : pool.nextPageId < 2147483647) :
    insertLoop tuple (fuel + 1) p (hold pool p pool.changed) =
      insertLoop tuple fuel pool.nextPageId (hold (appendPage pool p) pool.nextPageId
        (Function.update pool.changed pool.nextPageId true)) := by
  have hget : getPage p (hold pool p pool.changed) =
      .ok (pool.content p, hold pool p pool.changed) := rfl
  have hne : pool.nextPageId ≠ p := hp.ne'
  conv_lhs => unfold insertLoop
  rw [bind_ok hget, bind_ok (lift_ok hr)]
  simp only [hlast, ne_eq, not_true_eq_false, if_false]
  obtain ⟨n, hn⟩ : ∃ n, n = pool.nextPageId := ⟨_, rfl⟩
  rw [← hn] at hne hnext ⊢
  have hnew : newPage (hold pool p pool.changed) = .ok (some n, holdTwo pool p n
      (Function.update pool.content n default) (Function.update pool.changed n false)
      (Function.update pool.latch p { writer := true })) := by
    subst hn
    unfold newPage
    rw [if_neg (by simp [not_full (quiet.hold_room _)])]
    exact if_pos hnext
  have hlatch (content : PageId → PageData) (changed : PageId → Bool) :
      wLatch n (holdTwo pool p n content changed
        (Function.update pool.latch p { writer := true })) = .ok ((), holdTwo pool p n content
          changed (Function.update (Function.update pool.latch p { writer := true }) n
            { writer := true })) :=
    wLatch_ok ((Function.update_of_ne hne _ _).trans (quiet.latch n))
  have hset (q : PageId) (page : PageData) (content : PageId → PageData) (changed : PageId → Bool)
      (latch : PageId → Latch) : setPage q page (holdTwo pool p n content changed latch) =
        .ok ((), holdTwo pool p n (Function.update content q page)
          (Function.update changed q true) latch) := rfl
  have hget' (content : PageId → PageData) (changed : PageId → Bool) (latch : PageId → Latch) :
      getPage n (holdTwo pool p n content changed latch) =
        .ok (content n, holdTwo pool p n content changed latch) := rfl
  have hun (content : PageId → PageData) (changed : PageId → Bool) (latch : PageId → Latch) :
      wUnlatch p (holdTwo pool p n content changed latch) =
        .ok ((), holdTwo pool p n content changed
          (Function.update latch p { latch p with writer := false })) := rfl
  have hunpin (content : PageId → PageData) (changed : PageId → Bool) (latch : PageId → Latch) :
      unpinPage p true (holdTwo pool p n content changed latch) =
        .ok ((), { pool with
          content := content
          changed := Function.update changed p false
          pinned := n ::ₘ pool.pinned
          latch := latch
          nextPageId := n + 1 }) := by
    have hmem : p ∈ n ::ₘ p ::ₘ pool.pinned := by simp
    have herase : (n ::ₘ p ::ₘ pool.pinned).erase p = n ::ₘ pool.pinned := by
      rw [Multiset.erase_cons_tail _ hne, Multiset.erase_cons_head]
    unfold unpinPage
    simp [holdTwo, hmem, herase]
  have hid' : TablePage.getPageId (TablePage.setNextPageId (pool.content p) n) = p := by
    rw [TablePage.getPageId, TablePage.setNextPageId, Mem.getInt32_setInt32_disjoint _ (by omega)]
    exact hid
  rw [bind_ok hnew]
  simp only
  rw [bind_ok (hlatch _ _), bind_ok (hset _ _ _ _ _), bind_ok (hget' _ _ _),
    bind_ok (hset _ _ _ _ _), bind_ok (hun _ _ _), hid', bind_ok (hunpin _ _ _)]
  refine congrArg (insertLoop tuple fuel n) ?_
  have hcontent (page : PageData) : Function.update (Function.update pool.content n default) p page
      n = Mem.zero := by
    rw [Function.update_of_ne hne, Function.update_self]
    rfl
  have hchanged : Function.update (Function.update (Function.update
      (Function.update pool.changed n false) p true) n true) p false =
        Function.update pool.changed n true := by
    funext q
    by_cases hq : q = p
    · subst hq
      rw [Function.update_self, Function.update_of_ne hne.symm, quiet.clean]
    · by_cases hqn : q = n <;> simp [hq, hqn, hne]
  have hlatches : Function.update (Function.update (Function.update pool.latch p
      { writer := true }) n { writer := true }) p {} =
        Function.update pool.latch n { writer := true } := by
    rw [Function.update_comm hne, Function.update_idem, ← quiet.latch p, Function.update_eq_self]
  have hpages (page new : PageData) : Function.update (Function.update (Function.update pool.content
      n default) p page) n new = Function.update (Function.update pool.content p page) n new := by
    rw [Function.update_comm hne, Function.update_idem]
  unfold hold appendPage
  rw [hcontent, hpages, hchanged, ← hn]
  simp only [Function.update_of_ne hne.symm, Function.update_self, PagePool.mk.injEq, true_and,
    and_true]
  exact hlatches

/-- The loop on a held page that does not take the tuple and has a successor. -/
theorem insertLoop_advance {tuple : Tuple} {fuel : ℕ} {next : PageId} (quiet : Quiet pool)
    (hr : TablePage.insertTuple (pool.content p) tuple.data = .ok (none, pool.content p))
    (hid : TablePage.getPageId (pool.content p) = p)
    (hnext : TablePage.getNextPageId (pool.content p) = next) (valid : next ≠ invalidPageId) :
    insertLoop tuple (fuel + 1) p (hold pool p pool.changed) =
      insertLoop tuple fuel next (hold pool next pool.changed) := by
  have hget : getPage p (hold pool p pool.changed) =
      .ok (pool.content p, hold pool p pool.changed) := rfl
  obtain ⟨s, hun, hpin⟩ := release_ok false (quiet.latch p) (quiet.clean p) (.inl rfl)
  obtain ⟨hfetch, hlatch⟩ := hold_ok quiet.room_one (quiet.latch next)
  conv_lhs => unfold insertLoop
  rw [bind_ok hget, bind_ok (lift_ok hr)]
  simp only [hnext, ne_eq, valid, not_false_eq_true, if_true]
  rw [bind_ok hun, hid, bind_ok hpin, bind_ok hfetch]
  simp only [Bool.not_true, Bool.false_eq_true, if_false]
  rw [bind_ok hlatch]

theorem insertTuple_init {tuple : List UInt8} (pos : 0 < tuple.length)
    (small : tuple.length + 32 ≤ 512) (n last : PageId) :
    ∃ (i : ℕ) (q : PageData),
      TablePage.insertTuple (TablePage.init Mem.zero n pageSize last) tuple =
        .ok (some ⟨TablePage.getPageId (TablePage.init Mem.zero n pageSize last), i⟩, q) ∧
      TablePage.Inserted (TablePage.init Mem.zero n pageSize last) tuple i q := by
  have wf := TablePage.wellFormed_init Mem.zero n last
  rcases TablePage.insertTuple_cases wf.toSound pos with ⟨-, full⟩ | h
  · have hsize : TablePage.getFreeSpaceSize (TablePage.init Mem.zero n pageSize last) = 488 := by
      rw [TablePage.getFreeSpaceSize, TablePage.init_free, TablePage.init_count]
      decide
    omega
  · exact h

theorem InsertedInto.cons {chain chain' : List PageId} {tuple : List UInt8} {rid : RID}
    {pool' : PagePool PageData} (h : InsertedInto pool chain tuple rid pool' chain') (p : PageId) :
    InsertedInto pool (p :: chain) tuple rid pool' (p :: chain') := by
  cases h with
  | here mem hq => exact .here (List.mem_cons_of_mem _ mem) hq
  | @fresh pre last i q hlast hnext hq =>
    have hlast' : p :: chain = (p :: pre) ++ [last] := by rw [hlast, List.cons_append]
    exact .fresh hlast' hnext hq

theorem insertLoop_overflow {tuple : Tuple} {fuel : ℕ} (quiet : Quiet pool)
    (hr : TablePage.insertTuple (pool.content p) tuple.data = .ok (none, pool.content p))
    (hlast : TablePage.getNextPageId (pool.content p) = invalidPageId)
    (hnext : ¬ pool.nextPageId < 2147483647) :
    insertLoop tuple (fuel + 1) p (hold pool p pool.changed) = .error .overflow := by
  have hget : getPage p (hold pool p pool.changed) =
      .ok (pool.content p, hold pool p pool.changed) := rfl
  have hnew : newPage (hold pool p pool.changed) = .error .overflow := by
    unfold newPage
    rw [if_neg (by simp [not_full (quiet.hold_room _)])]
    exact if_neg hnext
  unfold insertLoop
  rw [bind_ok hget, bind_ok (lift_ok hr)]
  simp only [hlast, ne_eq, not_true_eq_false, if_false]
  exact bind_error hnew

/-- The loop on the last page when it does not take the tuple. -/
theorem insertLoop_last {tuple : Tuple} {fuel : ℕ} (quiet : Quiet pool)
    (pos : 0 < tuple.data.length) (small : tuple.data.length + 32 ≤ 512)
    (hr : TablePage.insertTuple (pool.content p) tuple.data = .ok (none, pool.content p))
    (hid : TablePage.getPageId (pool.content p) = p)
    (hlast : TablePage.getNextPageId (pool.content p) = invalidPageId)
    (lo : 0 ≤ p) (hp : p < pool.nextPageId) (hnext : pool.nextPageId < 2147483647) :
    ∃ rid pool' chain', insertLoop tuple (fuel + 2) p (hold pool p pool.changed) =
      .ok (some rid, pool') ∧ InsertedInto pool [p] tuple.data rid pool' chain' := by
  obtain ⟨i, q, hr', hq⟩ := insertTuple_init pos small pool.nextPageId p
  have hpid := TablePage.init_pageId Mem.zero pool.nextPageId p ⟨by lia, by lia⟩
  have hcontent : (appendPage pool p).content pool.nextPageId =
      TablePage.init Mem.zero pool.nextPageId pageSize p := Function.update_self _ _ _
  have hput : (appendPage pool p).put pool.nextPageId q =
      { (pool.put p (TablePage.setNextPageId (pool.content p) pool.nextPageId)).put
          pool.nextPageId q with nextPageId := pool.nextPageId + 1 } := by
    simp only [appendPage, PagePool.put, Function.update_idem]
  have hone : [p] = [] ++ [p] := rfl
  refine ⟨_, _, _, ?_, .fresh hone hnext hq⟩
  rw [← hput, insertLoop_append quiet hr hid hlast hp hnext]
  rw [hpid] at hr'
  exact insertLoop_here (quiet_appendPage quiet p) (.inr rfl) (hcontent ▸ hr')
    ((getPageId_congr hq.header).trans hpid)

/-- The loop from a held page on, with the pages `rest` behind it. -/
theorem insertLoop_spec {tuple : Tuple} (quiet : Quiet pool) (pos : 0 < tuple.data.length)
    (small : tuple.data.length + 32 ≤ 512) :
    ∀ (rest : List PageId) (p : PageId) (fuel : ℕ),
      Follows (fun p => TablePage.getNextPageId (pool.content p)) invalidPageId p (p :: rest) →
      (∀ q ∈ p :: rest, (0 ≤ q ∧ q < pool.nextPageId) ∧
        TablePage.getPageId (pool.content q) = q ∧ TablePage.Sound (pool.content q)) →
      (insertLoop tuple (rest.length + fuel + 2) p (hold pool p pool.changed) =
          .error .overflow ∧ ¬ pool.nextPageId < 2147483647) ∨
        ∃ rid pool' chain', insertLoop tuple (rest.length + fuel + 2) p
          (hold pool p pool.changed) = .ok (some rid, pool') ∧
            InsertedInto pool (p :: rest) tuple.data rid pool' chain' := by
  intro rest p fuel follows good
  obtain ⟨⟨lo, hi⟩, hid, sound⟩ := good p List.mem_cons_self
  rcases TablePage.insertTuple_cases sound pos with ⟨hr, -⟩ | ⟨i, q, hr, hq⟩
  · cases rest with
    | nil =>
      have hlast : TablePage.getNextPageId (pool.content p) = invalidPageId := follows.2.2
      simp only [List.length_nil, Nat.zero_add]
      by_cases hnext : pool.nextPageId < 2147483647
      · exact .inr (insertLoop_last quiet pos small hr hid hlast lo hi hnext)
      · exact .inl ⟨insertLoop_overflow quiet hr hlast hnext, hnext⟩
    | cons next rest =>
      obtain ⟨hnext, valid, follows⟩ := follows.2.2
      rw [show (next :: rest).length + fuel + 2 = (rest.length + fuel + 2) + 1 by
        simp only [List.length_cons]; omega, insertLoop_advance quiet hr hid hnext (hnext ▸ valid)]
      rcases insertLoop_spec quiet pos small rest next fuel
        ⟨rfl, hnext ▸ valid, hnext ▸ follows⟩
        (fun q hq => good q (List.mem_cons_of_mem _ hq)) with h | ⟨rid, pool', chain', h, hi⟩
      · exact .inl h
      · exact .inr ⟨rid, pool', _, h, hi.cons p⟩
  · have hq' := getPageId_congr hq.header
    rw [hid] at hr hq'
    exact .inr ⟨_, _, _, insertLoop_here quiet (.inl rfl) hr hq', .here List.mem_cons_self hq⟩

/-- What `InsertTuple` returns after its loop. -/
def recordInsert (heap : TableHeap) (txn : Transaction) :
    Option RID → PoolM PageData (Option RID × Transaction)
  | none => return (none, txn.setState .aborted)
  | some rid => return (some rid, txn.record rid .insert {} heap)

/-- `InsertTuple` of a tuple that is not too large is its loop, with fuel for all pages. -/
theorem insertTuple_loop {good : PageData → Prop} {heap : TableHeap} {rest : List PageId}
    (quiet : Quiet pool) (h : Chain good heap pool (heap.firstPageId :: rest)) {tuple : Tuple}
    (txn : Transaction) (small : tuple.data.length + 32 ≤ 512) :
    ∃ fuel, heap.insertTuple tuple txn pool =
      (insertLoop tuple (rest.length + fuel + 2) heap.firstPageId >>= recordInsert heap txn)
        (hold pool heap.firstPageId pool.changed) := by
  obtain ⟨hfetch, hlatch⟩ := hold_ok quiet.room_one (quiet.latch heap.firstPageId)
  have hget : (get : PoolM PageData (PagePool PageData))
      (hold pool heap.firstPageId pool.changed) = .ok (hold pool heap.firstPageId pool.changed,
        hold pool heap.firstPageId pool.changed) := rfl
  have hlen := h.length_le
  have hfuel : (hold pool heap.firstPageId pool.changed).nextPageId.toNat + 2 =
      rest.length + (pool.nextPageId.toNat - rest.length) + 2 := by
    change pool.nextPageId.toNat + 2 = _
    simp only [List.length_cons] at hlen
    omega
  refine ⟨pool.nextPageId.toNat - rest.length, ?_⟩
  unfold insertTuple
  rw [if_neg (not_lt.2 (show tuple.data.length + 32 ≤ pageSize from small)), bind_ok hfetch]
  simp only [Bool.not_true, Bool.false_eq_true, if_false]
  rw [bind_ok hlatch, bind_ok hget, hfuel]
  refine congrArg (fun k => (insertLoop tuple _ heap.firstPageId >>= k)
    (hold pool heap.firstPageId pool.changed)) (funext fun r => ?_)
  cases r <;> rfl

/-- What a returning `InsertTuple` did. -/
theorem insertTuple_spec {heap : TableHeap} {chain : List PageId} (quiet : Quiet pool)
    (pages : Pages heap pool chain) {tuple : Tuple} {txn txn' : Transaction} {r : Option RID}
    {pool' : PagePool PageData}
    (h : heap.insertTuple tuple txn pool = .ok ((r, txn'), pool')) :
    (r = none ∧ txn' = txn.setState .aborted ∧ pool' = pool) ∨
      ∃ rid chain', r = some rid ∧ txn' = txn.record rid .insert {} heap ∧
        0 < tuple.data.length ∧ InsertedInto pool chain tuple.data rid pool' chain' := by
  by_cases small : tuple.data.length + 32 ≤ 512
  · right
    obtain ⟨rest, rfl⟩ := pages.chain.cons_first
    obtain ⟨fuel, hloop⟩ := insertTuple_loop quiet pages.chain txn small
    rw [hloop] at h
    have good (q : PageId) (hq : q ∈ heap.firstPageId :: rest) := And.intro (pages.ids q hq)
      (And.intro (pages.pageId q hq) (pages.sound q hq))
    by_cases pos : 0 < tuple.data.length
    · rcases insertLoop_spec quiet pos small rest heap.firstPageId fuel pages.follows good with
        ⟨he, -⟩ | ⟨rid, pool₁, chain', hr, hi⟩
      · rw [bind_error he] at h
        cases h
      · rw [bind_ok hr] at h
        cases h
        exact ⟨rid, chain', rfl, rfl, pos, hi⟩
    · have hassert : TablePage.insertTuple (pool.content heap.firstPageId) tuple.data =
          .error .assertion := by
        unfold TablePage.insertTuple
        rw [assert_neg pos]
        rfl
      have hgp : getPage heap.firstPageId (hold pool heap.firstPageId pool.changed) =
          .ok (pool.content heap.firstPageId, hold pool heap.firstPageId pool.changed) := rfl
      have he : insertLoop tuple (rest.length + fuel + 2) heap.firstPageId
          (hold pool heap.firstPageId pool.changed) = .error .assertion := by
        unfold insertLoop
        rw [bind_ok hgp]
        exact bind_error (lift_error hassert)
      rw [bind_error he] at h
      cases h
  · left
    unfold insertTuple at h
    rw [if_pos (not_le.1 small : pageSize < tuple.data.length + 32)] at h
    cases h
    exact ⟨rfl, rfl, rfl⟩

theorem InsertedInto.quiet {chain chain' : List PageId} {tuple : List UInt8} {rid : RID}
    {pool' : PagePool PageData} (quiet : Quiet pool)
    (h : InsertedInto pool chain tuple rid pool' chain') : Quiet pool' := by
  cases h <;> exact ⟨quiet.room, quiet.latch, quiet.clean⟩

theorem setNextPageId_get (page : PageData) (n : PageId) {a : ℕ} (h : a < 12 ∨ 16 ≤ a) :
    (TablePage.setNextPageId page n).get a = page.get a :=
  TablePage.get_setInt32_outside page (by omega)

theorem sound_setNextPageId {page : PageData} (h : TablePage.Sound page) (n : PageId) :
    TablePage.Sound (TablePage.setNextPageId page n) := by
  have hcount : TablePage.getTupleCount (TablePage.setNextPageId page n) =
      TablePage.getTupleCount page :=
    TablePage.getTupleCount_congr fun a lo hi => setNextPageId_get page n (by omega)
  have hfree : TablePage.getFreeSpacePointer (TablePage.setNextPageId page n) =
      TablePage.getFreeSpacePointer page :=
    TablePage.getFreeSpacePointer_congr fun a lo hi => setNextPageId_get page n (by omega)
  exact ⟨by rw [hcount]; exact h.count, by rw [hcount, hfree]; exact h.directory,
    by rw [hfree]; exact h.free⟩

/-- The content after a page was linked behind `last`. -/
theorem fresh_content (pool : PagePool PageData) (last n : PageId) (page q : PageData) (r : PageId) :
    ((pool.put last page).put n q).content r =
      if r = n then q else if r = last then page else pool.content r := by
  simp only [PagePool.put, Function.update_apply]

theorem Chain.put {good : PageData → Prop} {heap : TableHeap} {chain : List PageId}
    (h : Chain good heap pool chain) {page : PageData}
    (header : ∀ a < 16, page.get a = (pool.content p).get a) (hgood : p ∈ chain → good page) :
    Chain good heap (pool.put p page) chain := by
  have hcontent (q : PageId) : (pool.put p page).content q =
      if q = p then page else pool.content q := Function.update_apply _ _ _ _
  refine ⟨h.follows.congr fun q hq => ?_, h.nonempty, h.ids, fun q hq => ?_, fun q hq => ?_⟩
  · simp only [hcontent]
    split_ifs with hqp
    · rw [hqp, getNextPageId_congr header]
    · rfl
  · rw [hcontent]
    split_ifs with hqp
    · rw [getPageId_congr header, hqp]
      exact h.pageId p (hqp ▸ hq)
    · exact h.pageId q hq
  · rw [hcontent]
    split_ifs with hqp
    · exact hgood (hqp ▸ hq)
    · exact h.good q hq

/-- Replacing a page of the heap by one with the same header. -/
theorem Pages.put {heap : TableHeap} {chain : List PageId} (pages : Pages heap pool chain)
    {page : PageData} (mem : p ∈ chain) (header : ∀ a < 16, page.get a = (pool.content p).get a)
    (sound : TablePage.Sound page) : Pages heap (pool.put p page) chain := by
  have h := pages.chain.put header fun _ => sound
  refine ⟨h.follows, h.nonempty, pages.nodup, h.ids, h.pageId, h.good, fun q hq => ?_, pages.next⟩
  have hqp : q ≠ p := by
    rintro rfl
    exact absurd (pages.ids q mem).2 (not_lt.2 hq)
  exact (Function.update_of_ne hqp _ _).trans (pages.fresh q hq)

/-- Insertion keeps the pages of the heap good, when the changes to a page do. -/
theorem InsertedInto.chain {good : PageData → Prop} {heap : TableHeap} {chain chain' : List PageId}
    {tuple : List UInt8} {rid : RID} {pool' : PagePool PageData} (pages : Chain good heap pool chain)
    (h : InsertedInto pool chain tuple rid pool' chain')
    (insert : ∀ {page q : PageData} {i : ℕ}, good page → TablePage.Inserted page tuple i q → good q)
    (link : ∀ {page : PageData} (n : PageId), good page → good (TablePage.setNextPageId page n))
    (init : ∀ n last, good (TablePage.init Mem.zero n pageSize last)) :
    Chain good heap pool' chain' := by
  cases h with
  | here mem hq => exact pages.put hq.header fun hp => insert (pages.good _ hp) hq
  | @fresh pre last i q hlast hnext hq =>
    subst hlast
    have hmem : last ∈ pre ++ [last] := by simp
    obtain ⟨n, hn⟩ : ∃ n, n = pool.nextPageId := ⟨_, rfl⟩
    have hlt := pages.ids last hmem
    rw [← hn] at hlt hnext hq ⊢
    have hcontent := fresh_content pool last n
      (TablePage.setNextPageId (pool.content last) n) q
    have old (r : PageId) (hr : r ∈ pre ++ [last]) : r ≠ n := by
      have := (pages.ids r hr).2
      rw [← hn] at this
      exact this.ne
    refine ⟨?_, by simp, ?_, ?_, ?_⟩
    · rw [List.append_assoc]
      refine pages.follows.append (fun r hr => ?_) ?_ ?_ ?_
      · have hrl : r ≠ last := by
          rintro rfl
          exact (List.nodup_append.1 pages.follows.nodup).2.2 r hr r (by simp) rfl
        simp only [hcontent, if_neg (old r (by simp [hr])), if_neg hrl]
      · simp only [hcontent, if_neg (old last hmem), if_pos]
        exact Mem.getInt32_setInt32_self _ (by decide) ⟨by lia, by lia⟩
      · intro e
        rw [e] at hlt
        exact absurd (hlt.1.trans_lt hlt.2) (by decide)
      · simp only [hcontent, if_pos]
        rw [getNextPageId_congr hq.header, TablePage.init_next]
    · intro r hr
      change 0 ≤ r ∧ r < n + 1
      rcases List.mem_append.1 hr with hr | hr
      · have := pages.ids r hr
        rw [← hn] at this
        lia
      · rw [List.mem_singleton.1 hr]
        lia
    · intro r hr
      rw [hcontent]
      rcases List.mem_append.1 hr with hr | hr
      · rw [if_neg (old r hr)]
        split_ifs with hrl
        · rw [TablePage.getPageId, hrl, TablePage.setNextPageId,
            Mem.getInt32_setInt32_disjoint _ (by omega)]
          exact pages.pageId last hmem
        · exact pages.pageId r hr
      · rw [List.mem_singleton.1 hr, if_pos rfl, getPageId_congr hq.header]
        exact TablePage.init_pageId _ _ _ ⟨by lia, by lia⟩
    · intro r hr
      rw [hcontent]
      rcases List.mem_append.1 hr with hr | hr
      · rw [if_neg (old r hr)]
        split_ifs with hrl
        · exact link n (pages.good last hmem)
        · exact pages.good r hr
      · rw [List.mem_singleton.1 hr, if_pos rfl]
        exact insert (init n last) hq

theorem InsertedInto.pages {heap : TableHeap} {chain chain' : List PageId} {tuple : List UInt8}
    {rid : RID} {pool' : PagePool PageData} (pages : Pages heap pool chain)
    (h : InsertedInto pool chain tuple rid pool' chain') : Pages heap pool' chain' := by
  have hchain := h.chain pages.chain (fun hp hq => hq.sound hp)
    (fun n hp => sound_setNextPageId hp n)
    fun n last => (TablePage.wellFormed_init Mem.zero n last).toSound
  refine ⟨hchain.follows, hchain.nonempty, hchain.follows.nodup, hchain.ids, hchain.pageId,
    hchain.good, ?_, ?_⟩
  · intro r hr
    cases h with
    | @here p i q mem hq =>
      have hrp : r ≠ p := by
        rintro rfl
        exact absurd (pages.ids r mem).2 (not_lt.2 hr)
      exact (Function.update_of_ne hrp _ _).trans (pages.fresh r hr)
    | @fresh pre last i q hlast hnext hq =>
      have hlt := (pages.ids last (by simp [hlast])).2
      change pool.nextPageId + 1 ≤ r at hr
      change ((pool.put last _).put pool.nextPageId q).content r = _
      rw [fresh_content, if_neg (by lia), if_neg (by lia)]
      exact pages.fresh r (by lia)
  · cases h with
    | here mem hq => exact pages.next
    | fresh hlast hnext hq =>
      change pool.nextPageId + 1 ≤ 2147483647
      lia

/-! ## The operations on one page -/

section OnePage

variable {heap : TableHeap} {rid : RID} {txn : Transaction}

/-- A slot number is negative, past the directory, or a slot. -/
theorem slot_cases (page : PageData) (slotNum : ℤ) :
    TablePage.getTupleCount page ≤ slotNum ∨ (slotNum < TablePage.getTupleCount page ∧ slotNum < 0) ∨
      ∃ i : ℕ, slotNum = i ∧ (i : ℤ) < TablePage.getTupleCount page := by
  by_cases hge : TablePage.getTupleCount page ≤ slotNum
  · exact .inl hge
  · by_cases hneg : slotNum < 0
    · exact .inr (.inl ⟨not_le.1 hge, hneg⟩)
    · exact .inr (.inr ⟨slotNum.toNat, by omega, by omega⟩)

theorem sound_congr {page q : PageData} (sound : TablePage.Sound page)
    (h : ∀ a < 24, q.get a = page.get a) : TablePage.Sound q := by
  have hcount := TablePage.getTupleCount_congr fun a _ hi => h a hi
  have hfree := TablePage.getFreeSpacePointer_congr fun a _ hi => h a (by omega)
  exact ⟨by rw [hcount]; exact sound.count, by rw [hcount, hfree]; exact sound.directory,
    by rw [hfree]; exact sound.free⟩

theorem markDelete_below {page q : PageData} {slotNum : ℤ} {b : Bool}
    (h : TablePage.markDelete page slotNum = .ok (b, q)) : ∀ a < 24, q.get a = page.get a := by
  intro a ha
  rcases slot_cases page slotNum with hge | ⟨hlt, hneg⟩ | ⟨i, rfl, hlt⟩
  · rw [TablePage.markDelete, if_pos hge] at h
    cases h
    rfl
  · rw [TablePage.markDelete, if_neg (not_le.2 hlt), slotIndex, if_neg (not_le.2 hneg)] at h
    cases h
  · rw [TablePage.markDelete_eq hlt] at h
    simp only [Except.ok.injEq, Prod.mk.injEq] at h
    rw [← h.2]
    split_ifs
    · exact TablePage.get_setInt32_outside page (by omega)
    · rfl

theorem rollbackDelete_below {page q : PageData} {slotNum : ℤ}
    (h : TablePage.rollbackDelete page slotNum = .ok q) : ∀ a < 24, q.get a = page.get a := by
  intro a ha
  rcases slot_cases page slotNum with hge | ⟨hlt, hneg⟩ | ⟨i, rfl, hlt⟩
  · rw [TablePage.rollbackDelete, assert_neg (not_lt.2 hge)] at h
    cases h
  · rw [TablePage.rollbackDelete, assert_pos hlt, slotIndex, if_neg (not_le.2 hneg)] at h
    cases h
  · rw [TablePage.rollbackDelete_eq hlt, Except.ok.injEq] at h
    rw [← h]
    split_ifs
    · exact TablePage.get_setInt32_outside page (by omega)
    · rfl

theorem applyDelete_removed {page q : PageData} {slotNum : ℤ} (sound : TablePage.Sound page)
    (h : TablePage.applyDelete page slotNum = .ok q) :
    ∃ i : ℕ, slotNum = i ∧ TablePage.Removed page i q := by
  rcases slot_cases page slotNum with hge | ⟨hlt, hneg⟩ | ⟨i, rfl, hlt⟩
  · rw [TablePage.applyDelete, assert_neg (not_lt.2 hge)] at h
    cases h
  · rw [TablePage.applyDelete, assert_pos hlt, slotIndex, if_neg (not_le.2 hneg)] at h
    cases h
  · exact ⟨i, rfl, TablePage.removed_of_applyDelete sound hlt h⟩

theorem updateTuple_updated {page q : PageData} {slotNum : ℤ} {tuple : List UInt8}
    {old : Option (List UInt8)} (sound : TablePage.Sound page)
    (h : TablePage.updateTuple page tuple slotNum = .ok (old, q)) :
    (old = none ∧ q = page) ∨ ∃ (i : ℕ) (bytes : List UInt8), slotNum = i ∧ old = some bytes ∧
      TablePage.Updated page tuple i q ∧
        bytes = page.slice (TablePage.getTupleOffset page i).toNat
          (TablePage.getTupleSize page i).toNat := by
  rcases slot_cases page slotNum with hge | ⟨hlt, hneg⟩ | ⟨i, rfl, hlt⟩
  · rw [TablePage.updateTuple, if_pos hge] at h
    cases h
    exact .inl ⟨rfl, rfl⟩
  · rw [TablePage.updateTuple, if_neg (not_le.2 hlt), slotIndex, if_neg (not_le.2 hneg)] at h
    cases h
  · by_cases fits : TablePage.Fits page tuple i
    · have heq := TablePage.updateTuple_eq hlt sound fits
      rw [h] at heq
      cases old with
      | none => split_ifs at heq; simp at heq
      | some bytes =>
        obtain ⟨hu, hb⟩ := TablePage.updated_of_updateTuple sound hlt h
        exact .inr ⟨i, bytes, rfl, rfl, hu, hb⟩
    · rw [TablePage.updateTuple_refused hlt fits] at h
      cases h
      exact .inl ⟨rfl, rfl⟩

theorem put_self : pool.put p (pool.content p) = pool := by
  simp only [PagePool.put, Function.update_eq_self]

variable {chain : List PageId} (quiet : Quiet pool) (pages : Pages heap pool chain)
  (mem : rid.pageId ∈ chain)

include quiet pages mem

theorem markDelete_run : heap.markDelete rid txn pool =
    (TablePage.markDelete (pool.content rid.pageId) rid.slotNum).map fun r =>
      ((true, txn.record rid .delete {} heap), pool.put rid.pageId r.2) := by
  unfold markDelete
  cases h : TablePage.markDelete (pool.content rid.pageId) rid.slotNum with
  | error e =>
    rw [bind_error (onPage_error quiet.room_one (quiet.latch _) (by rw [h]; rfl))]
    rfl
  | ok r =>
    have hid := getPageId_congr fun a ha => markDelete_below h a (by omega)
    rw [bind_ok (onPage_ok quiet.room_one (quiet.latch _) (quiet.clean _)
      (show _ = Except.ok (r.1, some r.2) by rw [h]; rfl)
      (hid.trans (pages.pageId _ mem)) (.inr rfl))]
    rfl

theorem updateTuple_run {tuple : Tuple} : heap.updateTuple tuple rid txn pool =
    (TablePage.updateTuple (pool.content rid.pageId) tuple.data rid.slotNum).map fun r =>
      match r.1 with
      | none => ((false, txn), pool)
      | some old => ((true, if txn.state = .aborted then txn
          else txn.record rid .update ⟨rid, old⟩ heap), pool.put rid.pageId r.2) := by
  unfold updateTuple
  cases h : TablePage.updateTuple (pool.content rid.pageId) tuple.data rid.slotNum with
  | error e =>
    rw [bind_error (onPage_error quiet.room_one (quiet.latch _) (by rw [h]; rfl))]
    rfl
  | ok r =>
    obtain ⟨old, q⟩ := r
    rcases updateTuple_updated (pages.sound _ mem) h with ⟨rfl, rfl⟩ | ⟨i, bytes, -, rfl, hu, -⟩
    · rw [bind_ok (onPage_ok quiet.room_one (quiet.latch _) (quiet.clean _)
        (show _ = Except.ok (none, none) by rw [h]; rfl) (pages.pageId _ mem) (.inl rfl))]
      simp only [Option.getD_none, put_self]
      rfl
    · have hid := getPageId_congr hu.header
      rw [bind_ok (onPage_ok quiet.room_one (quiet.latch _) (quiet.clean _)
        (show _ = Except.ok (some bytes, some q) by rw [h]; rfl)
        (hid.trans (pages.pageId _ mem)) (.inr rfl))]
      simp only [Option.getD_some, Except.map]
      split_ifs <;> rfl

theorem applyDelete_run : heap.applyDelete rid pool =
    (TablePage.applyDelete (pool.content rid.pageId) rid.slotNum).map fun q =>
      ((), pool.put rid.pageId q) := by
  unfold applyDelete
  cases h : TablePage.applyDelete (pool.content rid.pageId) rid.slotNum with
  | error e =>
    rw [bind_error (onPage_error quiet.room_one (quiet.latch _) (by rw [h]; rfl))]
    rfl
  | ok q =>
    obtain ⟨i, -, hq⟩ := applyDelete_removed (pages.sound _ mem) h
    have hid := getPageId_congr hq.header
    rw [bind_ok (onPage_ok quiet.room_one (quiet.latch _) (quiet.clean _)
      (show _ = Except.ok ((), some q) by rw [h]; rfl)
      (hid.trans (pages.pageId _ mem)) (.inr rfl))]
    rfl

theorem rollbackDelete_run : heap.rollbackDelete rid pool =
    (TablePage.rollbackDelete (pool.content rid.pageId) rid.slotNum).map fun q =>
      ((), pool.put rid.pageId q) := by
  unfold rollbackDelete
  cases h : TablePage.rollbackDelete (pool.content rid.pageId) rid.slotNum with
  | error e =>
    rw [bind_error (onPage_error quiet.room_one (quiet.latch _) (by rw [h]; rfl))]
    rfl
  | ok q =>
    have hid := getPageId_congr fun a ha => rollbackDelete_below h a (by omega)
    rw [bind_ok (onPage_ok quiet.room_one (quiet.latch _) (quiet.clean _)
      (show _ = Except.ok ((), some q) by rw [h]; rfl)
      (hid.trans (pages.pageId _ mem)) (.inr rfl))]
    rfl

omit quiet pages mem in
/-- `GetTuple` of a page that can be fetched and read-latched. -/
theorem getTuple_readable (hfetch : fetchPage rid.pageId pool =
      .ok (true, { pool with pinned := rid.pageId ::ₘ pool.pinned }))
    (writer : (pool.latch rid.pageId).writer = false)
    (held : pool.changed rid.pageId = true → rid.pageId ∈ pool.pinned) :
    heap.getTuple rid txn pool =
      (TablePage.getTuple (pool.content rid.pageId) rid.slotNum).map fun bytes =>
        ((bytes.map fun data => ⟨rid, data⟩, txn), pool) := by
  obtain ⟨p, hp⟩ : ∃ p, p = rid.pageId := ⟨_, rfl⟩
  rw [← hp] at hfetch writer held
  obtain ⟨latch, hl⟩ : ∃ latch : PageId → Latch, latch = Function.update pool.latch p
    { pool.latch p with readers := (pool.latch p).readers + 1 } := ⟨_, rfl⟩
  have hlatch : rLatch p { pool with pinned := p ::ₘ pool.pinned } = .ok ((), { pool with
      pinned := p ::ₘ pool.pinned
      latch := latch }) := by
    unfold rLatch
    simp [writer, hl]
  have hget : getPage p { pool with
      pinned := p ::ₘ pool.pinned
      latch := latch } = .ok (pool.content p, { pool with
        pinned := p ::ₘ pool.pinned
        latch := latch }) := rfl
  have hunlatch : rUnlatch p { pool with
      pinned := p ::ₘ pool.pinned
      latch := latch } = .ok ((), { pool with pinned := p ::ₘ pool.pinned }) := by
    unfold rUnlatch
    simp [hl]
  have hunpin : unpinPage p false { pool with pinned := p ::ₘ pool.pinned } =
      .ok ((), pool) := by
    unfold unpinPage
    cases hc : pool.changed p with
    | false => simp
    | true =>
      have := held hc
      simp [this]
  unfold getTuple
  rw [← hp, bind_ok hfetch]
  simp only [Bool.not_true, Bool.false_eq_true, if_false]
  rw [bind_ok hlatch, bind_ok hget]
  cases h : TablePage.getTuple (pool.content p) rid.slotNum with
  | error e => exact bind_error (lift_error rfl)
  | ok bytes =>
    rw [bind_ok (lift_ok rfl), bind_ok hunlatch, bind_ok hunpin]
    rfl

omit pages mem in
theorem getTuple_run : heap.getTuple rid txn pool =
    (TablePage.getTuple (pool.content rid.pageId) rid.slotNum).map fun bytes =>
      ((bytes.map fun data => ⟨rid, data⟩, txn), pool) :=
  getTuple_readable (fetchPage_ok quiet.room_one _) (by rw [quiet.latch])
    (quiet.readable.held _)

end OnePage

end TableHeap

end ScuDb
