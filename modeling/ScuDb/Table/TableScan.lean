import ScuDb.Table.HeapRuns
import ScuDb.Table.TableIterator

/-!
# What a scan visits

The live tuples of a heap in the order of its pages and slots, and the scan as a function of them:
`++` moves from each live tuple to the next one, over any number of pages without live tuples, but
`begin` finds none when the first page has none.
-/

namespace ScuDb

open ByteMem PagePool Stateful LinkedList TablePage

/-! ## Live slots -/

/-- The live slots of a page from `start` on. -/
def liveFrom (page : PageData) (start : ℕ) : List ℕ :=
  (List.range' start ((getTupleCount page).toNat - start)).filter fun i => getTupleSize page i > 0

/-- The RIDs of the live tuples of some pages. -/
def liveRids (pool : PagePool PageData) (chain : List PageId) : List RID :=
  chain.flatMap fun p => (liveFrom (pool.content p) 0).map fun (i : ℕ) => ⟨p, i⟩

theorem findSlot_live (page : PageData) (start : ℕ) :
    findSlot page (· > 0) start = (liveFrom page start).head? := by
  unfold findSlot liveFrom
  rw [List.head?_filter]

theorem liveFrom_cons {page : PageData} {start j : ℕ} {rest : List ℕ}
    (h : liveFrom page start = j :: rest) : rest = liveFrom page (j + 1) ∧ start ≤ j ∧
      (j : ℤ) < getTupleCount page ∧ 0 < getTupleSize page j := by
  have hf : findSlot page (· > 0) start = some j := by rw [findSlot_live, h]; rfl
  obtain ⟨lo, hi, hj, hmin⟩ := findSlot_some hf
  refine ⟨?_, lo, hi, by simpa using hj⟩
  have hsplit : List.range' start ((getTupleCount page).toNat - start) =
      List.range' start (j - start) ++ j :: List.range' (j + 1)
        ((getTupleCount page).toNat - (j + 1)) := by
    obtain ⟨d, rfl⟩ := Nat.exists_eq_add_of_le lo
    rw [← List.range'_succ, Nat.add_sub_cancel_left, List.range'_append_1]
    congr 1
    omega
  have hnone : (List.range' start (j - start)).filter (fun i => getTupleSize page i > 0) = [] := by
    rw [List.filter_eq_nil_iff]
    intro i hi'
    have := List.mem_range'_1.1 hi'
    have := hmin i (by omega) (by omega)
    simpa using this
  unfold liveFrom at h
  rw [hsplit, List.filter_append, hnone, List.nil_append, List.filter_cons_of_pos (by simpa using hj),
    List.cons.injEq] at h
  exact h.2.symm

theorem mem_liveRids {pool : PagePool PageData} {chain : List PageId} {rid : RID}
    (h : rid ∈ liveRids pool chain) : ∃ p ∈ chain, ∃ i : ℕ, rid = ⟨p, i⟩ ∧
      (i : ℤ) < getTupleCount (pool.content p) ∧ 0 < getTupleSize (pool.content p) i := by
  obtain ⟨p, hp, hr⟩ := List.mem_flatMap.1 h
  obtain ⟨i, hi, rfl⟩ := List.mem_map.1 hr
  obtain ⟨hrange, hlive⟩ := List.mem_filter.1 hi
  have := List.mem_range'_1.1 hrange
  exact ⟨p, hp, i, rfl, by omega, by simpa using hlive⟩

namespace TableIterator

variable {heap : TableHeap} {pool : PagePool PageData} {chain : List PageId} {txn : Transaction}

/-- The pool while a scan holds page `p` pinned and read-latched. -/
def holdRead (pool : PagePool PageData) (p : PageId) : PagePool PageData :=
  { pool with
    pinned := p ::ₘ pool.pinned
    latch := Function.update pool.latch p
      { pool.latch p with readers := (pool.latch p).readers + 1 } }

/-- What a scan reads for the live tuple at `rid`. -/
def readTuple (pool : PagePool PageData) (rid : RID) : Except Fault Tuple :=
  (TablePage.getTuple (pool.content rid.pageId) rid.slotNum).map fun bytes =>
    ⟨rid, bytes.getD []⟩

theorem readTuple_rid {rid : RID} {t : Tuple} (h : readTuple pool rid = .ok t) :
    ∃ bytes, t = ⟨rid, bytes⟩ := by
  unfold readTuple at h
  cases hg : TablePage.getTuple (pool.content rid.pageId) rid.slotNum with
  | error e =>
    rw [hg] at h
    cases h
  | ok bytes =>
    rw [hg] at h
    cases h
    exact ⟨_, rfl⟩

theorem holdRead_ok (readable : PagePool.Readable pool) (p : PageId) :
    fetchPage p pool = .ok (true, { pool with pinned := p ::ₘ pool.pinned }) ∧
      rLatch p { pool with pinned := p ::ₘ pool.pinned } = .ok ((), holdRead pool p) := by
  refine ⟨PagePool.fetchPage_ok (PagePool.Room.one readable.room) p, ?_⟩
  unfold rLatch
  simp [readable.writer p, holdRead]

/-- Giving a reader's latch back. -/
theorem rUnlatch_holdRead (p : PageId) (pinned : Multiset PageId) :
    rUnlatch p { holdRead pool p with pinned := pinned } =
      .ok ((), { pool with pinned := pinned }) := by
  unfold rUnlatch
  simp [holdRead]

/-- A page that a reader gives back has no change that only its pin protects. -/
theorem unpinPage_reader (readable : PagePool.Readable pool) (p : PageId) {pinned : Multiset PageId}
    (sub : p ::ₘ pool.pinned ≤ pinned) :
    unpinPage p false { pool with pinned := pinned } =
      .ok ((), { pool with pinned := pinned.erase p }) := by
  have mem : p ∈ pinned := Multiset.mem_of_le sub (Multiset.mem_cons_self _ _)
  have count := Multiset.count_le_of_le p sub
  rw [Multiset.count_cons_self] at count
  unfold unpinPage
  rw [if_neg (not_not.2 mem), if_neg]
  · rfl
  · rintro ⟨changed, -, one⟩
    have := Multiset.one_le_count_iff_mem.2 (readable.held p changed)
    change Multiset.count p pinned = 1 at one
    omega

theorem releaseRead_ok (readable : PagePool.Readable pool) (p : PageId) :
    rUnlatch p (holdRead pool p) = .ok ((), { pool with pinned := p ::ₘ pool.pinned }) ∧
      unpinPage p false { pool with pinned := p ::ₘ pool.pinned } = .ok ((), pool) := by
  refine ⟨rUnlatch_holdRead p _, ?_⟩
  rw [unpinPage_reader readable p le_rfl, Multiset.erase_cons_head]

/-- The steps that move a scan from the held page `p` to its successor. -/
theorem stepPage_ok (readable : PagePool.Readable pool) {p next : PageId} (hne : next ≠ p) :
    ∃ s₁ s₂ s₃, fetchPage next (holdRead pool p) = .ok (true, s₁) ∧
      rUnlatch p s₁ = .ok ((), s₂) ∧ unpinPage p false s₂ = .ok ((), s₃) ∧
        rLatch next s₃ = .ok ((), holdRead pool next) := by
  have room : (holdRead pool p).Room 1 := PagePool.Room.pin readable.room rfl rfl
  have herase : (next ::ₘ p ::ₘ pool.pinned).erase p = next ::ₘ pool.pinned := by
    rw [Multiset.erase_cons_tail _ hne, Multiset.erase_cons_head]
  refine ⟨_, _, _, PagePool.fetchPage_ok room next, rUnlatch_holdRead p _,
    unpinPage_reader readable p (Multiset.le_cons_self _ _), ?_⟩
  change rLatch next { pool with pinned := (next ::ₘ p ::ₘ pool.pinned).erase p } = _
  rw [herase]
  exact (holdRead_ok readable next).2

/-- From a held page to the first live tuple behind it. -/
theorem nextPage_spec (readable : PagePool.Readable pool) :
    ∀ (rest : List PageId) (p : PageId) (fuel : ℕ),
      Follows (fun p => getNextPageId (pool.content p)) invalidPageId p (p :: rest) →
      (p :: rest).Nodup → (∀ q ∈ p :: rest, getPageId (pool.content q) = q) →
      ∃ cur ∈ p :: rest, nextPage (rest.length + fuel + 1) p (holdRead pool p) =
        .ok ((cur, (liveRids pool rest).head?.getD {}), holdRead pool cur) ∧
          ∀ rid ∈ (liveRids pool rest).head?, rid.pageId = cur := by
  intro rest p fuel follows nodup ids
  have hget : getPage p (holdRead pool p) = .ok (pool.content p, holdRead pool p) := rfl
  cases rest with
  | nil =>
    have hlast : getNextPageId (pool.content p) = invalidPageId := follows.2.2
    refine ⟨p, List.mem_cons_self, ?_, by simp [liveRids]⟩
    unfold nextPage
    rw [bind_ok hget]
    simp only [hlast, if_true]
    rfl
  | cons next rest =>
    obtain ⟨hnext, valid, follows'⟩ := follows.2.2
    have hne : next ≠ p := by
      rintro rfl
      simp at nodup
    obtain ⟨s₁, s₂, s₃, hfetch, hunlatch, hunpin, hlatch⟩ := stepPage_ok readable hne
    have hget' : getPage next (holdRead pool next) = .ok (pool.content next, holdRead pool next) :=
      rfl
    have hstep : nextPage ((next :: rest).length + fuel + 1) p (holdRead pool p) =
        ((getFirstTupleRid (pool.content next)).elim (nextPage (rest.length + fuel + 1) next)
          fun rid => pure (next, rid) : PoolM PageData (PageId × RID)) (holdRead pool next) := by
      rw [show (next :: rest).length + fuel + 1 = (rest.length + fuel + 1) + 1 by
        simp only [List.length_cons]; omega]
      conv_lhs => unfold nextPage
      rw [bind_ok hget]
      simp only [hnext, if_neg (hnext ▸ valid : next ≠ invalidPageId)]
      rw [bind_ok hfetch]
      simp only [Bool.not_true, Bool.false_eq_true, if_false]
      rw [bind_ok hunlatch, ids p List.mem_cons_self, bind_ok hunpin, bind_ok hlatch]
      refine (bind_ok hget').trans ?_
      cases getFirstTupleRid (pool.content next) <;> rfl
    have hlive : liveRids pool (next :: rest) = (liveFrom (pool.content next) 0).map
        (fun (i : ℕ) => (⟨next, i⟩ : RID)) ++ liveRids pool rest := rfl
    rw [hstep, hlive, getFirstTupleRid, findSlot_live]
    cases hl : liveFrom (pool.content next) 0 with
    | nil =>
      obtain ⟨cur, mem, hr, hc⟩ := nextPage_spec readable rest next fuel
        ⟨rfl, hnext ▸ valid, hnext ▸ follows'⟩ (List.nodup_cons.1 nodup).2
        (fun q hq => ids q (List.mem_cons_of_mem _ hq))
      exact ⟨cur, List.mem_cons_of_mem _ mem, hr, hc⟩
    | cons i _ =>
      refine ⟨next, by simp, ?_, by simp⟩
      simp only [List.head?_cons, List.map_cons, List.cons_append,
        Option.getD_some, ids next (by simp)]
      rfl

/-- A live slot: `GetTuple` copies it or leaves the page. -/
theorem getTuple_live {page : PageData} {i : ℕ} (lt : (i : ℤ) < getTupleCount page)
    (live : 0 < getTupleSize page i) : TablePage.getTuple page i =
      (copyOut page (getTupleOffset page i) (getTupleSize page i)).map some := by
  unfold TablePage.getTuple
  rw [if_neg (not_le.2 lt), slotIndex_ofNat]
  simp only [bind, Except.bind, pure, Except.pure, if_neg (not_le.2 live)]
  cases copyOut page (getTupleOffset page i) (getTupleSize page i) <;> rfl

theorem load_ok {i : ℕ} {p : PageId} {tuple : Tuple}
    (hrun : heap.getTuple ⟨p, i⟩ txn pool = (TablePage.getTuple (pool.content p) i).map fun bytes =>
      ((bytes.map fun data => (⟨⟨p, i⟩, data⟩ : Tuple), txn), pool))
    (lt : (i : ℤ) < getTupleCount (pool.content p)) (live : 0 < getTupleSize (pool.content p) i) :
    load heap txn ⟨p, i⟩ tuple pool =
      (readTuple pool ⟨p, i⟩).map fun t => (⟨t⟩, pool) := by
  unfold load readTuple
  simp only
  rw [getTuple_live lt live] at hrun ⊢
  cases hc : copyOut (pool.content p) (getTupleOffset (pool.content p) i)
      (getTupleSize (pool.content p) i) with
  | error e =>
    rw [hc] at hrun
    rw [bind_error hrun]
    rfl
  | ok bytes =>
    rw [hc] at hrun
    rw [bind_ok hrun]
    rfl

theorem eq_end_of_live {rid : RID} {data : List UInt8} (lo : 0 ≤ rid.pageId) (slot : 0 ≤ rid.slotNum) :
    eq ⟨⟨rid, data⟩⟩ «end» = false := by
  unfold eq «end» RID.get
  simp only [if_neg (not_lt.2 slot)]
  apply decide_eq_false
  rw [if_pos (by decide)]
  lia

/-- The live tuples behind slot `i` of page `p`, when the pages `rest` follow. -/
def liveAfter (pool : PagePool PageData) (p : PageId) (i : ℕ) (rest : List PageId) : List RID :=
  (liveFrom (pool.content p) (i + 1)).map (fun (j : ℕ) => ⟨p, j⟩) ++ liveRids pool rest

/-- The pages from `p` on. -/
structure Tail (pool : PagePool PageData) (p : PageId) (rest : List PageId) : Prop where
  follows : Follows (fun p => getNextPageId (pool.content p)) invalidPageId p (p :: rest)
  nodup : (p :: rest).Nodup
  ids : ∀ q ∈ p :: rest, getPageId (pool.content q) = q
  nonneg : ∀ q ∈ p :: rest, 0 ≤ q
  length : rest.length ≤ pool.nextPageId.toNat

theorem Tail.of_chain {good : PageData → Prop} {rest : List PageId}
    (h : TableHeap.Chain good heap pool (heap.firstPageId :: rest)) :
    Tail pool heap.firstPageId rest := by
  have length := h.length_le
  exact ⟨h.follows, h.follows.nodup, h.pageId, fun q hq => (h.ids q hq).1,
    by simp only [List.length_cons] at length; omega⟩

theorem getNextTupleRid_eq {page : PageData} {p : PageId} (hid : getPageId page = p) (i : ℕ) :
    TablePage.getNextTupleRid page ⟨p, i⟩ =
      .ok ((liveFrom page (i + 1)).head?.map fun (j : ℕ) => ⟨p, j⟩) := by
  unfold TablePage.getNextTupleRid
  rw [assert_pos hid.symm, show ((i : ℤ) + 1) = ((i + 1 : ℕ) : ℤ) by push_cast; rfl,
    slotIndex_ofNat, hid, ← findSlot_live]
  rfl

/-- The search of `operator++` finds the next live tuple. -/
theorem search_spec (readable : PagePool.Readable pool) {p : PageId} {rest : List PageId}
    (tail : Tail pool p rest) (i : ℕ) :
    ∃ cur ∈ p :: rest, search ⟨p, i⟩ (holdRead pool p) =
        .ok ((cur, (liveAfter pool p i rest).head?.getD {}), holdRead pool cur) ∧
          ∀ rid ∈ (liveAfter pool p i rest).head?, rid.pageId = cur := by
  have hget : getPage p (holdRead pool p) = .ok (pool.content p, holdRead pool p) := rfl
  have hpool : (get : PoolM PageData (PagePool PageData)) (holdRead pool p) =
      .ok (holdRead pool p, holdRead pool p) := rfl
  unfold liveAfter search
  rw [bind_ok hget, bind_ok hpool,
    bind_ok (lift_ok (getNextTupleRid_eq (tail.ids p List.mem_cons_self) i))]
  cases hl : liveFrom (pool.content p) (i + 1) with
  | nil =>
    obtain ⟨cur, mem, hr, hc⟩ := nextPage_spec readable rest p (pool.nextPageId.toNat - rest.length)
      tail.follows tail.nodup tail.ids
    rw [show rest.length + (pool.nextPageId.toNat - rest.length) + 1 =
      pool.nextPageId.toNat + 1 by have := tail.length; omega] at hr
    exact ⟨cur, mem, hr, hc⟩
  | cons j _ => exact ⟨p, List.mem_cons_self, rfl, by simp⟩

theorem mem_liveAfter {p : PageId} {i : ℕ} {rest : List PageId} {rid : RID}
    (h : rid ∈ liveAfter pool p i rest) : ∃ q ∈ p :: rest, ∃ j : ℕ, rid = ⟨q, j⟩ ∧
      (j : ℤ) < getTupleCount (pool.content q) ∧ 0 < getTupleSize (pool.content q) j := by
  rcases List.mem_append.1 h with h | h
  · obtain ⟨j, hj, rfl⟩ := List.mem_map.1 h
    obtain ⟨hrange, hlive⟩ := List.mem_filter.1 hj
    have := List.mem_range'_1.1 hrange
    exact ⟨p, List.mem_cons_self, j, rfl, by omega, by simpa using hlive⟩
  · obtain ⟨q, hq, hr⟩ := mem_liveRids h
    exact ⟨q, List.mem_cons_of_mem _ hq, hr⟩

theorem next_spec (readable : PagePool.Readable pool) {p : PageId} {rest : List PageId}
    (tail : Tail pool p rest) (i : ℕ) (data : List UInt8) :
    next heap txn ⟨⟨⟨p, i⟩, data⟩⟩ pool =
      match (liveAfter pool p i rest).head? with
      | none => .ok (⟨⟨{}, data⟩⟩, pool)
      | some rid => (readTuple pool rid).map fun t => (⟨t⟩, pool) := by
  obtain ⟨cur, mem, hsearch, hcur⟩ := search_spec readable tail i
  obtain ⟨hfetch, hlatch⟩ := holdRead_ok readable p
  have hget (pinned : Multiset PageId) : getPage cur { pool with pinned := pinned } =
      .ok (pool.content cur, { pool with pinned := pinned }) := rfl
  obtain ⟨hunlatch, hunpin⟩ := releaseRead_ok readable cur
  unfold next
  rw [bind_ok hfetch]
  simp only [Bool.not_true, Bool.false_eq_true, if_false]
  rw [bind_ok hlatch, bind_ok hsearch]
  simp only
  cases hh : (liveAfter pool p i rest).head? with
  | none =>
    have hend : moveTo heap txn ⟨⟨⟨p, i⟩, data⟩⟩ {} (holdRead pool cur) =
        .ok (⟨⟨{}, data⟩⟩, holdRead pool cur) := rfl
    rw [Option.getD_none, bind_ok hend, bind_ok hunlatch, bind_ok (hget _), tail.ids cur mem,
      bind_ok hunpin]
    rfl
  | some rid =>
    obtain ⟨q, hq, j, rfl, lt, live⟩ := mem_liveAfter (List.mem_of_mem_head? hh)
    obtain rfl : q = cur := hcur _ hh
    have room : (holdRead pool q).Room 1 := PagePool.Room.pin readable.room rfl rfl
    have hrun : heap.getTuple ⟨q, j⟩ txn (holdRead pool q) =
        (TablePage.getTuple (pool.content q) j).map fun bytes =>
          ((bytes.map fun data => (⟨⟨q, j⟩, data⟩ : Tuple), txn), holdRead pool q) :=
      TableHeap.getTuple_readable (PagePool.fetchPage_ok room q)
        (by simp [holdRead, readable.writer q])
        fun _ => Multiset.mem_cons_self q _
    have hmove : moveTo heap txn ⟨⟨⟨p, i⟩, data⟩⟩ ⟨q, j⟩ (holdRead pool q) =
        (readTuple pool ⟨q, j⟩).map fun t => (⟨t⟩, holdRead pool q) := by
      have hne : eq ⟨⟨⟨q, (j : ℤ)⟩, data⟩⟩ «end» = false :=
        eq_end_of_live (tail.nonneg q hq) (Int.natCast_nonneg j)
      unfold moveTo
      simp only [hne, Bool.false_eq_true, if_false]
      exact load_ok hrun lt live
    rw [Option.getD_some]
    cases hread : readTuple pool ⟨q, j⟩ with
    | error e =>
      rw [hread] at hmove
      rw [bind_error hmove]
      simp only [hread]
      rfl
    | ok t =>
      rw [hread] at hmove
      rw [bind_ok hmove, bind_ok hunlatch, bind_ok (hget _), tail.ids q mem, bind_ok hunpin]
      simp only [hread]
      rfl

/-! ## The whole scan -/

theorem collect_end (fuel : ℕ) (data : List UInt8) :
    collect heap txn (fuel + 1) ⟨⟨{}, data⟩⟩ pool = .ok ([], pool) := rfl

theorem Tail.drop {p q : PageId} {pre rest : List PageId} (tail : Tail pool p (pre ++ q :: rest)) :
    Tail pool q rest := by
  have sub (r : PageId) (hr : r ∈ q :: rest) : r ∈ p :: (pre ++ q :: rest) :=
    List.mem_cons_of_mem _ (List.mem_append_right _ hr)
  refine ⟨?_, ?_, fun r hr => tail.ids r (sub r hr), fun r hr => tail.nonneg r (sub r hr), ?_⟩
  · exact Follows.drop (show Follows _ _ p ((p :: pre) ++ q :: rest) from tail.follows)
  · exact (List.nodup_append.1 (List.nodup_cons.1 tail.nodup).2).2.1
  · have := tail.length
    simp only [List.length_append, List.length_cons] at this
    omega

/-- The first live tuple of the pages behind `p`, with the pages behind it. -/
theorem liveRids_cons {rid : RID} {rids : List RID} : ∀ {rest : List PageId} {p : PageId},
    Tail pool p rest → liveRids pool rest = rid :: rids →
    ∃ (q : PageId) (j : ℕ) (rest' : List PageId), rid = ⟨q, j⟩ ∧ Tail pool q rest' ∧
      rids = liveAfter pool q j rest'
  | [], p, _, h => by simp [liveRids] at h
  | q :: rest, p, tail, h => by
    have tail' : Tail pool q rest := Tail.drop (show Tail pool p ([] ++ q :: rest) from tail)
    change (liveFrom (pool.content q) 0).map (fun (j : ℕ) => (⟨q, j⟩ : RID)) ++
      liveRids pool rest = _ at h
    cases hl : liveFrom (pool.content q) 0 with
    | nil =>
      rw [hl, List.map_nil, List.nil_append] at h
      exact liveRids_cons tail' h
    | cons j js =>
      rw [hl] at h
      simp only [List.map_cons, List.cons_append, List.cons.injEq] at h
      exact ⟨q, j, rest, h.1.symm, tail', by rw [liveAfter, ← (liveFrom_cons hl).1, h.2]⟩

theorem liveAfter_cons {p : PageId} {i : ℕ} {rest : List PageId} {rid : RID} {rids : List RID}
    (tail : Tail pool p rest) (h : liveAfter pool p i rest = rid :: rids) :
    ∃ (q : PageId) (j : ℕ) (rest' : List PageId), rid = ⟨q, j⟩ ∧ Tail pool q rest' ∧
      rids = liveAfter pool q j rest' := by
  unfold liveAfter at h
  cases hl : liveFrom (pool.content p) (i + 1) with
  | cons j js =>
    rw [hl] at h
    simp only [List.map_cons, List.cons_append, List.cons.injEq] at h
    exact ⟨p, j, rest, h.1.symm, tail, by rw [liveAfter, ← (liveFrom_cons hl).1, h.2]⟩
  | nil =>
    rw [hl, List.map_nil, List.nil_append] at h
    exact liveRids_cons tail h

theorem collect_spec (quiet : PagePool.Quiet pool) (fuel : ℕ) :
    ∀ (rids : List RID) {p : PageId} {i : ℕ} {rest : List PageId} {data : List UInt8},
      Tail pool p rest → liveAfter pool p i rest = rids →
      collect heap txn (rids.length + fuel + 2) ⟨⟨⟨p, i⟩, data⟩⟩ pool =
        (rids.mapM (readTuple pool)).map fun ts => (⟨⟨p, i⟩, data⟩ :: ts, pool) := by
  intro rids
  induction rids with
  | nil =>
    intro p i rest data tail h
    have hne : eq ⟨⟨⟨p, (i : ℤ)⟩, data⟩⟩ «end» = false :=
      eq_end_of_live (tail.nonneg p List.mem_cons_self) (Int.natCast_nonneg i)
    have hnext : next heap txn ⟨⟨⟨p, i⟩, data⟩⟩ pool = _ := next_spec quiet.readable tail i data
    rw [h] at hnext
    simp only [List.head?_nil] at hnext
    rw [show ([] : List RID).length + fuel + 2 = (fuel + 1) + 1 by simp]
    conv_lhs => unfold collect
    rw [hne]
    simp only [Bool.false_eq_true, if_false]
    rw [bind_ok hnext, bind_ok (collect_end fuel data)]
    rfl
  | cons rid rids ih =>
    intro p i rest data tail h
    have hne : eq ⟨⟨⟨p, (i : ℤ)⟩, data⟩⟩ «end» = false :=
      eq_end_of_live (tail.nonneg p List.mem_cons_self) (Int.natCast_nonneg i)
    have hnext : next heap txn ⟨⟨⟨p, i⟩, data⟩⟩ pool = _ := next_spec quiet.readable tail i data
    obtain ⟨q, j, rest', rfl, tail', hrids⟩ := liveAfter_cons tail h
    rw [h] at hnext
    simp only [List.head?_cons] at hnext
    rw [show ((⟨q, j⟩ : RID) :: rids).length + fuel + 2 = (rids.length + fuel + 2) + 1 by
      simp only [List.length_cons]; omega]
    conv_lhs => unfold collect
    rw [hne, List.mapM_cons]
    simp only [Bool.false_eq_true, if_false]
    cases hread : readTuple pool ⟨q, j⟩ with
    | error e =>
      rw [hread] at hnext
      rw [bind_error hnext]
      rfl
    | ok t =>
      obtain ⟨bytes, rfl⟩ := readTuple_rid hread
      rw [hread] at hnext
      rw [bind_ok hnext]
      have hrec : collect heap txn _ ⟨⟨⟨q, j⟩, bytes⟩⟩ pool = _ := ih tail' hrids.symm
      cases hm : rids.mapM (readTuple pool) with
      | error e =>
        rw [hm] at hrec
        rw [bind_error hrec]
        rfl
      | ok ts =>
        rw [hm] at hrec
        rw [bind_ok hrec]
        rfl

theorem start_spec (quiet : PagePool.Quiet pool) (hid : getPageId (pool.content heap.firstPageId) =
    heap.firstPageId) (valid : heap.firstPageId ≠ invalidPageId) :
    start heap txn pool =
      match (liveFrom (pool.content heap.firstPageId) 0).head? with
      | none => .ok (⟨{}⟩, pool)
      | some i => (readTuple pool ⟨heap.firstPageId, i⟩).map fun t => (⟨t⟩, pool) := by
  obtain ⟨p, hp⟩ : ∃ p, p = heap.firstPageId := ⟨_, rfl⟩
  rw [← hp] at hid valid ⊢
  obtain ⟨hfetch, hlatch⟩ := holdRead_ok quiet.readable p
  obtain ⟨hunlatch, hunpin⟩ := releaseRead_ok quiet.readable p
  have hget : getPage p (holdRead pool p) = .ok (pool.content p, holdRead pool p) := rfl
  unfold start
  rw [← hp, bind_ok hfetch]
  simp only [Bool.not_true, Bool.false_eq_true, if_false]
  rw [bind_ok hlatch, bind_ok hget, bind_ok hunlatch, bind_ok hunpin, getFirstTupleRid, hid,
    findSlot_live]
  cases hl : liveFrom (pool.content p) 0 with
  | nil => rfl
  | cons i _ =>
    obtain ⟨-, -, lt, live⟩ := liveFrom_cons hl
    have hnew : new heap txn ⟨p, i⟩ pool = load heap txn ⟨p, i⟩ { rid := ⟨p, i⟩ } pool := by
      unfold new
      rw [if_pos valid]
    exact hnew.trans (load_ok (TableHeap.getTuple_run quiet) lt live)

/-- The scan when the first page has a live tuple: it reads all live tuples in order. -/
theorem scan_of_live (quiet : PagePool.Quiet pool) {rest : List PageId}
    (tail : Tail pool heap.firstPageId rest)
    (live : liveFrom (pool.content heap.firstPageId) 0 ≠ []) {fuel : ℕ}
    (enough : (liveRids pool (heap.firstPageId :: rest)).length < fuel) :
    scan heap txn fuel pool = ((liveRids pool (heap.firstPageId :: rest)).mapM
      (readTuple pool)).map fun ts => (ts, pool) := by
  have mem : heap.firstPageId ∈ heap.firstPageId :: rest := List.mem_cons_self
  have hstart : start heap txn pool = _ :=
    start_spec quiet (tail.ids _ mem) (tail.follows.2.1)
  obtain ⟨i, js, hl⟩ := List.exists_cons_of_ne_nil live
  have hlive : liveRids pool (heap.firstPageId :: rest) =
      ⟨heap.firstPageId, i⟩ :: liveAfter pool heap.firstPageId i rest := by
    change (liveFrom (pool.content heap.firstPageId) 0).map
      (fun (j : ℕ) => (⟨heap.firstPageId, j⟩ : RID)) ++ liveRids pool rest = _
    rw [hl, liveAfter, ← (liveFrom_cons hl).1]
    rfl
  rw [hl] at hstart
  simp only [List.head?_cons] at hstart
  rw [hlive, List.length_cons] at enough
  rw [hlive, List.mapM_cons]
  unfold scan
  cases hread : readTuple pool ⟨heap.firstPageId, i⟩ with
  | error e =>
    rw [hread] at hstart
    rw [bind_error hstart]
    rfl
  | ok t =>
    obtain ⟨bytes, rfl⟩ := readTuple_rid hread
    rw [hread] at hstart
    have hrec : collect heap txn _ ⟨⟨⟨heap.firstPageId, i⟩, bytes⟩⟩ pool = _ :=
      collect_spec quiet (fuel - ((liveAfter pool heap.firstPageId i rest).length + 2)) _ tail rfl
    rw [show (liveAfter pool heap.firstPageId i rest).length +
      (fuel - ((liveAfter pool heap.firstPageId i rest).length + 2)) + 2 = fuel by omega] at hrec
    rw [bind_ok hstart, hrec]
    cases (liveAfter pool heap.firstPageId i rest).mapM (readTuple pool) <;> rfl

/-- The scan when the first page has no live tuple is empty. -/
theorem scan_of_not_live (quiet : PagePool.Quiet pool) {rest : List PageId}
    (tail : Tail pool heap.firstPageId rest)
    (dead : liveFrom (pool.content heap.firstPageId) 0 = []) (fuel : ℕ) :
    scan heap txn (fuel + 1) pool = .ok ([], pool) := by
  have mem : heap.firstPageId ∈ heap.firstPageId :: rest := List.mem_cons_self
  have hstart : start heap txn pool = _ :=
    start_spec quiet (tail.ids _ mem) (tail.follows.2.1)
  rw [dead] at hstart
  unfold scan
  rw [bind_ok hstart]
  rfl

/-- The live tuple at `rid`. -/
def liveTuple (pool : PagePool PageData) (rid : RID) : Tuple :=
  ⟨rid, tupleBytes (pool.content rid.pageId) rid.slotNum.toNat⟩

/-- The bytes of the tuple at `rid` lie inside its page. -/
def InPage (pool : PagePool PageData) (rid : RID) : Prop :=
  0 ≤ getTupleOffset (pool.content rid.pageId) rid.slotNum.toNat ∧
    getTupleOffset (pool.content rid.pageId) rid.slotNum.toNat +
      getTupleSize (pool.content rid.pageId) rid.slotNum.toNat ≤ pageSize

theorem readTuple_live {chain : List PageId} {rid : RID} (h : rid ∈ liveRids pool chain) :
    (InPage pool rid → readTuple pool rid = .ok (liveTuple pool rid)) ∧
      (¬ InPage pool rid → readTuple pool rid = .error .outOfBounds) := by
  obtain ⟨p, -, i, rfl, lt, live⟩ := mem_liveRids h
  have hread : readTuple pool ⟨p, i⟩ = ((copyOut (pool.content p) (getTupleOffset (pool.content p) i)
      (getTupleSize (pool.content p) i)).map some).map fun bytes => ⟨⟨p, i⟩, bytes.getD []⟩ := by
    rw [← getTuple_live lt live]
    rfl
  have hnat : (getTupleSize (pool.content p) i).natAbs = (getTupleSize (pool.content p) i).toNat := by
    omega
  rw [hread]
  unfold copyOut InPage liveTuple tupleBytes
  simp only [Int.toNat_natCast, hnat]
  constructor
  · intro hin
    rw [if_pos ⟨hin.1, live.le, hin.2⟩]
    rfl
  · intro hout
    rw [if_neg (fun hc => hout ⟨hc.1, hc.2.2⟩)]
    rfl

theorem mapM_readTuple {chain : List PageId} : ∀ {rids : List RID},
    (∀ rid ∈ rids, rid ∈ liveRids pool chain) →
    (rids.mapM (readTuple pool) = .ok (rids.map (liveTuple pool)) ↔
      ∀ rid ∈ rids, InPage pool rid)
  | [], _ => by
    simp only [List.mapM_nil, List.map_nil, List.not_mem_nil, false_implies, implies_true,
      iff_true]
    rfl
  | rid :: rids, sub => by
    have ih := mapM_readTuple fun r hr => sub r (List.mem_cons_of_mem _ hr)
    obtain ⟨hin, hout⟩ := readTuple_live (sub rid List.mem_cons_self)
    rw [List.mapM_cons, List.forall_mem_cons, ← ih]
    by_cases h : InPage pool rid
    · rw [hin h]
      cases hm : rids.mapM (readTuple pool) with
      | error e => simp [h, bind, Except.bind]
      | ok ts => simp [h, bind, Except.bind, pure, Except.pure]
    · rw [hout h]
      simp [h, bind, Except.bind]

/-- The scan delivers every live tuple once, in the order of pages and slots, and nothing else. -/
def VisitsLive (heap : TableHeap) (db : Db) (chain : List PageId) : Prop :=
  ∀ fuel, (liveRids db.pool chain).length < fuel → scan heap db.txn fuel db.pool =
    .ok ((liveRids db.pool chain).map (liveTuple db.pool), db.pool)

/-- In every reachable state a scan visits exactly the live tuples if and only if the first page
has one or no page has, and no live tuple was moved out of its page. -/
theorem visitsLive_iff {db : Db} (h : Db.Reachable heap db)
    (follows : Follows (fun p => getNextPageId (db.pool.content p)) invalidPageId
      heap.firstPageId chain) :
    VisitsLive heap db chain ↔
      (liveFrom (db.pool.content heap.firstPageId) 0 ≠ [] ∨ liveRids db.pool chain = []) ∧
        ∀ rid ∈ liveRids db.pool chain, InPage db.pool rid := by
  obtain ⟨chain', inv⟩ := Db.inv_of_reachable h
  obtain rfl : chain = chain' := follows.unique inv.pages.follows
  obtain ⟨rest, rfl⟩ := inv.pages.chain.cons_first
  have tail := Tail.of_chain inv.pages.chain
  by_cases live : liveFrom (db.pool.content heap.firstPageId) 0 = []
  · constructor
    · intro visits
      have hall := visits _ (Nat.lt_succ_self _)
      rw [scan_of_not_live inv.quiet tail live] at hall
      simp only [Except.ok.injEq, Prod.mk.injEq, and_true, List.nil_eq, List.map_eq_nil_iff] at hall
      refine ⟨.inr hall, fun rid hr => ?_⟩
      rw [hall] at hr
      cases hr
    · rintro ⟨hor, -⟩ fuel hfuel
      rcases hor with hne | hnil
      · exact absurd live hne
      · obtain ⟨fuel, rfl⟩ : ∃ k, fuel = k + 1 := ⟨fuel - 1, by omega⟩
        rw [scan_of_not_live inv.quiet tail live, hnil]
        rfl
  · have hmap := mapM_readTuple fun rid (hr : rid ∈ liveRids db.pool (heap.firstPageId :: rest)) =>
      hr
    constructor
    · intro visits
      refine ⟨.inl live, hmap.1 ?_⟩
      have hall := visits _ (Nat.lt_succ_self _)
      rw [scan_of_live inv.quiet tail live (Nat.lt_succ_self _)] at hall
      cases hm : (liveRids db.pool (heap.firstPageId :: rest)).mapM (readTuple db.pool) with
      | error e =>
        rw [hm] at hall
        cases hall
      | ok ts =>
        rw [hm] at hall
        simp only [Except.map, Except.ok.injEq, Prod.mk.injEq, and_true] at hall
        rw [hall]
    · rintro ⟨-, hin⟩ fuel hfuel
      rw [scan_of_live inv.quiet tail live hfuel, hmap.2 hin]
      rfl

instance (pool : PagePool PageData) (rid : RID) : Decidable (InPage pool rid) :=
  inferInstanceAs (Decidable (_ ∧ _))

/-- Three tuples, of which the last one goes to a second page and the first one is deleted. -/
def twoPages : List Db.Call :=
  [.insertTuple { data := [1] }, .insertTuple { data := List.replicate 440 2 },
    .insertTuple { data := List.replicate 24 3 }, .markDelete ⟨0, 0⟩, .commit]

theorem visitsLive_iff_twoPages : ∃ (db : Db) (chain : List PageId),
    liveRids db.pool chain = [⟨0, 1⟩, ⟨1, 0⟩] ∧ VisitsLive ⟨0⟩ db chain :=
  ⟨(Db.runNew twoPages).get (by decide +kernel), [0, 1], by decide +kernel,
    (visitsLive_iff (Db.reachable_runNew _) (follows_of_follow 2 (by decide +kernel))).2
      (by decide +kernel)⟩

/-- The first page is filled by one tuple, the second tuple goes to a second page, and the first
one is deleted. -/
def emptiedFirstPage : List Db.Call :=
  [.insertTuple { data := List.replicate 480 1 }, .insertTuple { data := [5] },
    .markDelete ⟨0, 0⟩, .commit]

/-- A scan misses the live tuple of the second page when the first page has none. -/
theorem not_visitsLive_of_reachable :
    ¬ ∀ (heap : TableHeap) (db : Db) (chain : List PageId), Db.Reachable heap db →
      Follows (fun p => getNextPageId (db.pool.content p)) invalidPageId heap.firstPageId chain →
        VisitsLive heap db chain := by
  intro h
  have visits := h ⟨0⟩ ((Db.runNew emptiedFirstPage).get (by decide +kernel)) [0, 1]
    (Db.reachable_runNew _) (follows_of_follow 2 (by decide +kernel)) 2
    (by decide +kernel)
  have lengths := congrArg (fun r => r.toOption.map fun s => s.1.length) visits
  exact absurd lengths (by decide +kernel)

end TableIterator

end ScuDb
