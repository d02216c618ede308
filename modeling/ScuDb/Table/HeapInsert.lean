import ScuDb.Table.HeapPages

/-!
# What InsertTuple does to a heap

The heap is a finite list of well-formed pages with links in both directions.  `InsertTuple` of a
tuple that fits a page returns the RID of a slot that held nothing, stores the bytes there, keeps
every other tuple, and appends at most one page to the list.
-/

namespace ScuDb

open ByteMem PagePool Stateful LinkedList TablePage

namespace TableHeap

variable {heap : TableHeap} {pool pool' : PagePool PageData} {chain chain' : List PageId}
  {tuple : List UInt8} {rid : RID}

/-- The backward links of consecutive pages. -/
def Linked (pool : PagePool PageData) (chain : List PageId) : Prop :=
  chain.IsChain fun p q => getPrevPageId (pool.content q) = p

/-- Every slot that held a tuple is not `rid`, and holds the same tuple, live or mark-deleted as
before. -/
def KeepsTuples (pool : PagePool PageData) (chain : List PageId) (rid : RID)
    (pool' : PagePool PageData) : Prop :=
  ∀ p ∈ chain, ∀ j : ℕ, Used (pool.content p) j → rid ≠ ⟨p, j⟩ ∧ Used (pool'.content p) j ∧
    getTupleSize (pool'.content p) j = getTupleSize (pool.content p) j ∧
    tupleBytes (pool'.content p) j = tupleBytes (pool.content p) j

/-! ## Linking a new page -/

section Link

variable {page : PageData} {j : ℕ} (n : PageId)

theorem getTupleOffset_setNextPageId :
    getTupleOffset (setNextPageId page n) j = getTupleOffset page j :=
  getTupleOffset_congr fun a _ _ => setNextPageId_get page n (by omega)

theorem getTupleSize_setNextPageId :
    getTupleSize (setNextPageId page n) j = getTupleSize page j :=
  getTupleSize_congr fun a _ _ => setNextPageId_get page n (by omega)

theorem getTupleCount_setNextPageId :
    getTupleCount (setNextPageId page n) = getTupleCount page :=
  getTupleCount_congr fun a _ _ => setNextPageId_get page n (by omega)

theorem used_setNextPageId : Used (setNextPageId page n) j ↔ Used page j := by
  unfold Used
  rw [getTupleCount_setNextPageId, getTupleSize_setNextPageId]

theorem tupleBytes_setNextPageId (h : WellFormed page) (hj : Used page j) :
    tupleBytes (setNextPageId page n) j = tupleBytes page j := by
  have above := (h.bounds hj).1
  have directory := h.directory
  have count := h.count
  unfold tupleBytes
  rw [getTupleOffset_setNextPageId, getTupleSize_setNextPageId]
  exact Mem.slice_congr fun a ha => setNextPageId_get page n (by omega)

theorem wellFormed_setNextPageId (h : WellFormed page) : WellFormed (setNextPageId page n) := by
  have used : Used (setNextPageId page n) = Used page :=
    funext fun j => propext (used_setNextPageId n)
  have offset : getTupleOffset (setNextPageId page n) = getTupleOffset page :=
    funext fun j => getTupleOffset_setNextPageId n
  have size : getTupleSize (setNextPageId page n) = getTupleSize page :=
    funext fun j => getTupleSize_setNextPageId n
  have free : getFreeSpacePointer (setNextPageId page n) = getFreeSpacePointer page :=
    getFreeSpacePointer_congr fun a _ _ => setNextPageId_get page n (by omega)
  refine ⟨sound_setNextPageId h.toSound n, ?_⟩
  rw [used, offset, size, free]
  exact h.tiles

theorem getPrevPageId_congr {q : PageData} (h : ∀ a < 16, q.get a = page.get a) :
    getPrevPageId q = getPrevPageId page :=
  Mem.getInt32_congr fun a _ hi => h a (by omega)

theorem getPrevPageId_setNextPageId : getPrevPageId (setNextPageId page n) = getPrevPageId page :=
  Mem.getInt32_congr fun a _ _ => setNextPageId_get page n (by omega)

theorem init_prev {last : PageId} (fits : Mem.IsInt32 last) :
    getPrevPageId (init page n pageSize last) = last := by
  unfold getPrevPageId init setTupleCount setFreeSpacePointer setNextPageId setPrevPageId
  rw [Mem.getInt32_setInt32_disjoint _ (by omega), Mem.getInt32_setInt32_disjoint _ (by omega),
    Mem.getInt32_setInt32_disjoint _ (by omega)]
  exact Mem.getInt32_setInt32_self _ (by decide) fits

end Link

/-! ## What an insertion keeps -/

theorem InsertedInto.wellFormed (h : Chain WellFormed heap pool chain)
    (hi : InsertedInto pool chain tuple rid pool' chain') (pos : 0 < tuple.length) :
    Chain WellFormed heap pool' chain' :=
  hi.chain h (fun hp hq => hq.wellFormed hp pos) (fun n hp => wellFormed_setNextPageId n hp)
    fun n last => wellFormed_init Mem.zero n last

theorem InsertedInto.chain_eq (h : Chain WellFormed heap pool chain)
    (hi : InsertedInto pool chain tuple rid pool' chain') :
    chain' = chain ∨ ∃ n, n ∉ chain ∧ chain' = chain ++ [n] := by
  cases hi with
  | here => exact .inl rfl
  | fresh =>
    refine .inr ⟨pool.nextPageId, fun mem => ?_, rfl⟩
    exact absurd (h.ids _ mem).2 (lt_irrefl _)

theorem InsertedInto.linked (h : Chain WellFormed heap pool chain) (linked : Linked pool chain)
    (hi : InsertedInto pool chain tuple rid pool' chain') : Linked pool' chain' := by
  cases hi with
  | @here p i q mem hq =>
    refine List.IsChain.imp (fun a b hab => ?_) linked
    change getPrevPageId (Function.update pool.content p q b) = a
    rw [Function.update_apply]
    split_ifs with hb
    · rw [getPrevPageId_congr hq.header, ← hb, hab]
    · exact hab
  | @fresh pre last i q hlast hnext hq =>
    subst hlast
    have hmem : last ∈ pre ++ [last] := by simp
    obtain ⟨lo, hi⟩ := h.ids last hmem
    have content := fresh_content pool last pool.nextPageId
      (setNextPageId (pool.content last) pool.nextPageId) q
    have old : Linked ((pool.put last (setNextPageId (pool.content last) pool.nextPageId)).put
        pool.nextPageId q) (pre ++ [last]) := by
      refine List.IsChain.imp_of_mem_imp (fun a b _ hb hab => ?_) linked
      rw [content, if_neg (h.ids b hb).2.ne]
      split_ifs with hbl
      · rw [getPrevPageId_setNextPageId, ← hbl, hab]
      · exact hab
    refine List.isChain_append.2 ⟨old, List.isChain_singleton _, fun a ha b hb => ?_⟩
    rw [List.getLast?_concat, Option.mem_some_iff] at ha
    rw [List.head?_cons, Option.mem_some_iff] at hb
    subst ha hb
    change getPrevPageId (((pool.put last _).put pool.nextPageId q).content pool.nextPageId) = last
    rw [content, if_pos rfl, getPrevPageId_congr hq.header, init_prev]
    exact ⟨by lia, by lia⟩

theorem InsertedInto.keepsTuples (h : Chain WellFormed heap pool chain)
    (hi : InsertedInto pool chain tuple rid pool' chain') (pos : 0 < tuple.length) :
    KeepsTuples pool chain rid pool' := by
  intro p hp j hj
  cases hi with
  | @here p' i q mem hq =>
    change (⟨p', i⟩ : RID) ≠ ⟨p, j⟩ ∧ Used (Function.update pool.content p' q p) j ∧
      getTupleSize (Function.update pool.content p' q p) j = _ ∧
      tupleBytes (Function.update pool.content p' q p) j = _
    rw [Function.update_apply]
    split_ifs with hpp
    · subst hpp
      have hne : (j : ℤ) ≠ i := by
        intro e
        exact hq.not_used (Int.natCast_inj.1 e ▸ hj)
      refine ⟨fun e => hne (RID.mk.inj e).2.symm, hq.keepsOthers (h.good p hp) pos j hne hj⟩
    · exact ⟨fun e => hpp (RID.mk.inj e).1.symm, hj, rfl, rfl⟩
  | @fresh pre last i q hlast hnext hq =>
    have hne : p ≠ pool.nextPageId := (h.ids p hp).2.ne
    have wf := h.good p hp
    refine ⟨fun e => hne (RID.mk.inj e).1.symm, ?_⟩
    change Used (((pool.put last _).put pool.nextPageId q).content p) j ∧
      getTupleSize (((pool.put last _).put pool.nextPageId q).content p) j = _ ∧
      tupleBytes (((pool.put last _).put pool.nextPageId q).content p) j = _
    rw [fresh_content, if_neg hne]
    split_ifs with hpl
    · subst hpl
      exact ⟨(used_setNextPageId _).2 hj, getTupleSize_setNextPageId _,
        tupleBytes_setNextPageId _ wf hj⟩
    · exact ⟨hj, rfl, rfl⟩

/-- The inserted tuple is in the slot of its RID. -/
theorem InsertedInto.stored (hi : InsertedInto pool chain tuple rid pool' chain') : ∃ i : ℕ, rid.slotNum = i ∧
      (i : ℤ) < getTupleCount (pool'.content rid.pageId) ∧
      getTupleSize (pool'.content rid.pageId) i = tuple.length ∧
      tupleBytes (pool'.content rid.pageId) i = tuple := by
  have inside {page q : PageData} {i : ℕ} (hq : Inserted page tuple i q) :
      (i : ℤ) < getTupleCount q ∧ getTupleSize q i = tuple.length ∧ tupleBytes q i = tuple := by
    refine ⟨?_, hq.size, hq.tupleBytes⟩
    rw [hq.count]
    omega
  cases hi with
  | @here p i q mem hq =>
    refine ⟨i, rfl, ?_⟩
    change _ < getTupleCount (Function.update pool.content p q p) ∧
      getTupleSize (Function.update pool.content p q p) i = _ ∧
      TablePage.tupleBytes (Function.update pool.content p q p) i = _
    rw [Function.update_self]
    exact inside hq
  | @fresh pre last i q hlast hnext hq =>
    refine ⟨i, rfl, ?_⟩
    change _ < getTupleCount (((pool.put last _).put pool.nextPageId q).content pool.nextPageId) ∧
      getTupleSize (((pool.put last _).put pool.nextPageId q).content pool.nextPageId) i = _ ∧
      TablePage.tupleBytes (((pool.put last _).put pool.nextPageId q).content pool.nextPageId) i = _
    rw [fresh_content, if_pos rfl]
    exact inside hq

/-- `GetTuple` of the returned RID reads the inserted bytes. -/
theorem InsertedInto.getTuple (quiet : Quiet pool) (h : Chain WellFormed heap pool chain)
    (hi : InsertedInto pool chain tuple rid pool' chain') (pos : 0 < tuple.length)
    (txn : Transaction) :
    heap.getTuple rid txn pool' = .ok ((some ⟨rid, tuple⟩, txn), pool') := by
  obtain ⟨i, slot, lt, size, bytes⟩ := hi.stored
  have mem : rid.pageId ∈ chain' := by
    cases hi with
    | here mem => exact mem
    | fresh => simp
  have read := getTuple_eq ((hi.wellFormed h pos).good _ mem) lt
  rw [size, if_pos (by omega), bytes] at read
  rw [getTuple_run (hi.quiet quiet), slot, read]
  rfl

/-! ## The operation -/

theorem insertTuple_run {good : PageData → Prop} (quiet : Quiet pool)
    (h : Chain good heap pool chain) (sound : ∀ page, good page → Sound page)
    (ids : pool.nextPageId < 2147483647) {tuple : Tuple} (pos : 0 < tuple.data.length)
    (small : tuple.data.length + 32 ≤ 512) (txn : Transaction) :
    ∃ rid pool' chain', heap.insertTuple tuple txn pool =
      .ok ((some rid, txn.record rid .insert {} heap), pool') ∧
        InsertedInto pool chain tuple.data rid pool' chain' := by
  obtain ⟨rest, rfl⟩ := h.cons_first
  obtain ⟨fuel, loop⟩ := insertTuple_loop quiet h txn small
  have pages (q : PageId) (hq : q ∈ heap.firstPageId :: rest) := And.intro (h.ids q hq)
    (And.intro (h.pageId q hq) (sound _ (h.good q hq)))
  rcases insertLoop_spec quiet pos small rest heap.firstPageId fuel h.follows pages with
    ⟨-, none_left⟩ | ⟨rid, pool', chain', hr, hi⟩
  · exact absurd ids none_left
  · refine ⟨rid, pool', chain', ?_, hi⟩
    rw [loop, bind_ok hr]
    rfl

/-- `InsertTuple` of a tuple that fits returns the RID of a slot that held no tuple, and one record
of it.  The heap stays a doubly linked list of well-formed pages with at most one page more; the
new tuple reads back and every other one is as before. -/
theorem insertTuple_stores (quiet : Quiet pool) (h : Chain WellFormed heap pool chain)
    (linked : Linked pool chain) (ids : pool.nextPageId < 2147483647) {tuple : Tuple}
    (pos : 0 < tuple.data.length) (small : tuple.data.length ≤ pageSize - 32) (txn : Transaction) :
    ∃ rid pool' chain', heap.insertTuple tuple txn pool =
        .ok ((some rid, txn.record rid .insert {} heap), pool') ∧
      (Chain WellFormed heap pool' chain' ∧ Linked pool' chain') ∧
      (chain' = chain ∨ ∃ n, n ∉ chain ∧ chain' = chain ++ [n]) ∧
      KeepsTuples pool chain rid pool' ∧
      ∀ txn, heap.getTuple rid txn pool' = .ok ((some ⟨rid, tuple.data⟩, txn), pool') := by
  have fits : tuple.data.length + 32 ≤ 512 := by
    change tuple.data.length ≤ 512 - 32 at small
    omega
  obtain ⟨rid, pool', chain', run, hi⟩ :=
    insertTuple_run quiet h (fun _ wf => wf.toSound) ids pos fits txn
  exact ⟨rid, pool', chain', run, ⟨hi.wellFormed h pos, hi.linked h linked⟩, hi.chain_eq h,
    hi.keepsTuples h pos, fun txn => hi.getTuple quiet h pos txn⟩

/-- A page that one tuple fills. -/
@[irreducible] def fullPage : PageData :=
  withTuple (init Mem.zero 0 pageSize invalidPageId) (List.replicate 480 1)

/-- A heap of one page, which is full. -/
def fullHeap : PagePool PageData where
  frames := some 10
  content _ := fullPage
  nextPageId := 1

theorem quiet_fullHeap : Quiet fullHeap := by
  refine ⟨fun frames h => ?_, fun _ => rfl, fun _ => rfl⟩
  cases h
  decide

theorem chain_fullHeap : Chain WellFormed ⟨0⟩ fullHeap [0] := by
  have next : getNextPageId fullPage = invalidPageId := by decide +kernel
  have pageId : getPageId fullPage = 0 := by decide +kernel
  have wf : WellFormed fullPage := by
    unfold fullPage
    exact (wellFormed_init _ _ _).withTuple (by rw [List.length_replicate]; decide)
  refine ⟨⟨rfl, by decide, next⟩, by simp, by simp [fullHeap], ?_, fun _ _ => wf⟩
  intro p hp
  rw [List.mem_singleton.1 hp]
  exact pageId

/-- The tuple goes to a second page, and the tuple of the first page is as before. -/
theorem insertTuple_stores_fullHeap : ∃ pool',
    (TableHeap.mk 0).insertTuple { data := [5] } {} fullHeap =
      .ok ((some ⟨1, 0⟩, ({} : Transaction).record ⟨1, 0⟩ .insert {} ⟨0⟩), pool') ∧
    (Chain WellFormed ⟨0⟩ pool' [0, 1] ∧ Linked pool' [0, 1]) ∧
    KeepsTuples fullHeap [0] ⟨1, 0⟩ pool' ∧
    ∀ txn, (TableHeap.mk 0).getTuple ⟨1, 0⟩ txn pool' = .ok ((some ⟨⟨1, 0⟩, [5]⟩, txn), pool') := by
  obtain ⟨rid, pool', chain', run, stored, -, keeps, found⟩ :=
    insertTuple_stores quiet_fullHeap chain_fullHeap (List.isChain_singleton _) (by decide)
      (show 0 < (Tuple.data { data := [5] }).length by decide) (by decide) {}
  have placed : ((TableHeap.mk 0).insertTuple { data := [5] } {} fullHeap).toOption.map
      (fun r => r.1.1) = some (some ⟨1, 0⟩) := by decide +kernel
  have links : ((TableHeap.mk 0).insertTuple { data := [5] } {} fullHeap).toOption.bind
      (fun r => follow (fun p => getNextPageId (r.2.content p)) invalidPageId 2 0) =
        some [0, 1] := by decide +kernel
  rw [run] at placed links
  obtain rfl : rid = ⟨1, 0⟩ := Option.some_injective _ (Option.some_injective _ placed)
  obtain rfl : chain' = [0, 1] := stored.1.follows.unique (follows_of_follow 2 links)
  exact ⟨pool', run, stored, keeps, found⟩

end TableHeap

end ScuDb
