import ScuDb.Concurrency.TransactionCalls

/-!
# Aborting a transaction

`Abort` undoes the write set from its last record to its first.  An undo does not bring back the
page as it was: slots that were added stay, and their directory entries take room that a later undo
of an update may need.  `Undone` relates the page pool during the abort to the pool at the same
point of the transaction.
-/

namespace ScuDb

open ByteMem PagePool Stateful

namespace Db

/-- The lowest free space pointer of each page so far; a new page starts with an empty tuple
area. -/
def lowest (pool : PagePool PageData) (p : PageId) : ℤ :=
  if p < pool.nextPageId then TablePage.getFreeSpacePointer (pool.content p) else pageSize

/-- The lowest free space pointers after a change to page `p`. -/
def lower (low : PageId → ℤ) (p : PageId) (page : PageData) : PageId → ℤ :=
  Function.update low p (min (low p) (TablePage.getFreeSpacePointer page))

/-- The tuple the call changes is visible. -/
def OnLive (db : Db) : Call → Prop
  | .markDelete rid => ∃ data, view db.pool rid = .ok (some data)
  | .updateTuple _ rid => ∃ data, view db.pool rid = .ok (some data)
  | _ => True

/-- Successful calls of one transaction on live tuples, each of them allowed by `ok`, and the lowest
free space pointers of the pages since it began. -/
inductive Worked (ok : Db → (PageId → ℤ) → Call → RID → Prop) (heap : TableHeap)
    (pool : PagePool PageData) : Db → (PageId → ℤ) → Prop
  | start : Worked ok heap pool { pool := pool } (lowest pool)
  | call {db db' : Db} {low : PageId → ℤ} {call : Call} {rid : RID} :
      Worked ok heap pool db low → OnLive db call → ok db low call rid →
      Called heap db call (some rid) db' →
      Worked ok heap pool db' (lower low rid.pageId (db'.pool.content rid.pageId))

/-- A new slot does not take a byte below which the page had tuples since the transaction began,
and no mark-deleted tuple has an offset below the inserted tuple.  An update stores a non-empty
tuple. -/
def Undoable (db : Db) (low : PageId → ℤ) : Call → RID → Prop
  | .insertTuple tuple, rid => 24 + 8 * (rid.slotNum + 1) ≤ low rid.pageId ∧
      ∀ j : ℕ, (j : ℤ) < TablePage.getTupleCount (db.pool.content rid.pageId) →
        TablePage.getTupleSize (db.pool.content rid.pageId) j < 0 →
          TablePage.getFreeSpacePointer (db.pool.content rid.pageId) - tuple.data.length ≤
            TablePage.getTupleOffset (db.pool.content rid.pageId) j
  | .updateTuple tuple _, _ => 0 < tuple.data.length
  | _, _ => True

/-- What holds while the transaction works. -/
structure Working (heap : TableHeap) (db : Db) (low : PageId → ℤ) (chain : List PageId) : Prop where
  quiet : PagePool.Quiet db.pool
  pages : TableHeap.Pages heap db.pool chain
  layout : ∀ p ∈ chain, ∃ place, TablePage.Layout (db.pool.content p) place
  room : ∀ p ∈ chain, 24 + 8 * TablePage.getTupleCount (db.pool.content p) ≤ low p
  low_le : ∀ p ∈ chain, low p ≤ TablePage.getFreeSpacePointer (db.pool.content p)
  fresh : ∀ p, db.pool.nextPageId ≤ p → low p = 512
  state : db.txn.state = .growing

/-- `undone` is the pool during the abort where `pool` was the pool during the transaction: the
pages of the heap hold the same tuples, and pages that were added are empty. -/
structure Undone (heap : TableHeap) (pool : PagePool PageData) (chain : List PageId)
    (low : PageId → ℤ) (undone : PagePool PageData) (chain' : List PageId) : Prop where
  quiet : PagePool.Quiet undone
  pages : TableHeap.Pages heap undone chain'
  sub : ∀ p ∈ chain, p ∈ chain'
  same : ∀ p ∈ chain, TablePage.SameTuples (pool.content p) (undone.content p)
  room : ∀ p ∈ chain, 24 + 8 * TablePage.getTupleCount (undone.content p) ≤ low p
  added : ∀ p ∈ chain', p ∉ chain → pool.nextPageId ≤ p ∧
    TablePage.getFreeSpacePointer (undone.content p) = pageSize ∧
      ∀ j, ¬ TablePage.Used (undone.content p) j
  other : ∀ p, p ∉ chain' → undone.content p = pool.content p

variable {heap : TableHeap} {pool pool' undone : PagePool PageData} {chain chain' added : List PageId}
  {rid : RID} {txn : Transaction} {db db' : Db} {call : Call} {low low' : PageId → ℤ}

theorem working_start (intact : Intact heap pool chain) :
    Working heap { pool := pool } (lowest pool) chain := by
  have hlow (p : PageId) (hp : p ∈ chain) :
      lowest pool p = TablePage.getFreeSpacePointer (pool.content p) :=
    if_pos (intact.pages.ids p hp).2
  refine ⟨intact.quiet, intact.pages, fun p hp => ⟨_, (intact.wellFormed p hp).layout⟩, ?_, ?_, ?_,
    rfl⟩
  · intro p hp
    rw [hlow p hp]
    exact (intact.wellFormed p hp).directory
  · intro p hp
    rw [hlow p hp]
  · intro p hp
    exact if_neg (not_lt.2 hp)

/-- Nothing is undone yet. -/
theorem undone_refl (working : Working heap db low chain) :
    Undone heap db.pool chain low db.pool chain :=
  ⟨working.quiet, working.pages, fun _ hp => hp, fun _ _ => .refl _, working.room,
    fun _ hp hn => absurd hp hn, fun _ _ => rfl⟩

/-- When everything is undone, everything is visible as it was. -/
theorem Undone.view_eq (h : Undone heap pool chain low undone chain')
    (pages : TableHeap.Pages heap pool chain)
    (layout : ∀ p ∈ chain, ∃ place, TablePage.Layout (pool.content p) place) :
    view undone = view pool := by
  funext rid
  unfold view
  by_cases hp : rid.pageId ∈ chain
  · obtain ⟨place, hl⟩ := layout _ hp
    exact (h.same _ hp).getTuple hl (h.pages.sound _ (h.sub _ hp)) _
  · by_cases hp' : rid.pageId ∈ chain'
    · obtain ⟨hfresh, -, unused⟩ := h.added _ hp' hp
      have sound := h.pages.sound _ hp'
      have hzero : TablePage.getTupleCount Mem.zero = 0 := Mem.getInt32_zero 20
      rw [pages.fresh _ hfresh]
      by_cases hneg : rid.slotNum < 0
      · rw [TablePage.getTuple_negative sound.count hneg,
          TablePage.getTuple_negative (by rw [hzero]) hneg]
      · obtain ⟨j, hj⟩ : ∃ j : ℕ, rid.slotNum = j := ⟨rid.slotNum.toNat, by omega⟩
        rw [hj, TablePage.getTuple_not_used sound (unused j),
          TablePage.getTuple_beyond (by rw [hzero]; omega)]
    · rw [h.other _ hp']

/-- When everything is undone, the pages are well formed again, and so are those that were added. -/
theorem Undone.intact (h : Undone heap pool chain low undone chain')
    (intact : Intact heap pool chain) : Intact heap undone chain' := by
  refine ⟨h.quiet, h.pages, fun p hp => ?_⟩
  have sound := h.pages.sound p hp
  by_cases hp' : p ∈ chain
  · exact (h.same p hp').wellFormed (intact.wellFormed p hp') sound
  · obtain ⟨-, free, unused⟩ := h.added p hp hp'
    refine ⟨sound, ?_⟩
    rw [free]
    exact .empty unused

/-! ## One step and its undo -/

theorem lower_le (low : PageId → ℤ) (p : PageId) (page : PageData) (q : PageId) :
    lower low p page q ≤ low q := by
  rw [lower, Function.update_apply]
  split_ifs with hq
  · rw [hq]
    exact min_le_left _ _
  · exact le_rfl

variable {p : PageId} {page page' : PageData} {tuple : List UInt8} {i : ℕ}

theorem working_put (h : Working heap db low chain) (mem : p ∈ chain)
    (header : ∀ a < 16, page.get a = (db.pool.content p).get a)
    (layout : ∃ place, TablePage.Layout page place)
    (room : 24 + 8 * TablePage.getTupleCount page ≤ low p) (state : txn.state = .growing) :
    Working heap ⟨db.pool.put p page, txn⟩ (lower low p page) chain := by
  obtain ⟨place, hl⟩ := layout
  have hlow (q : PageId) : lower low p page q =
      if q = p then min (low p) (TablePage.getFreeSpacePointer page) else low q :=
    Function.update_apply _ _ _ _
  refine ⟨h.quiet.put p page, h.pages.put mem header hl.toSound, ?_, ?_, ?_, ?_, state⟩
  · intro q hq
    simp only [put_content]
    split_ifs
    · exact ⟨place, hl⟩
    · exact h.layout q hq
  · intro q hq
    simp only [put_content, hlow]
    split_ifs
    · exact le_min room hl.directory
    · exact h.room q hq
  · intro q hq
    simp only [put_content, hlow]
    split_ifs
    · exact min_le_right _ _
    · exact h.low_le q hq
  · intro q hq
    have hne : q ≠ p := by
      rintro rfl
      exact absurd (h.pages.ids q mem).2 (not_lt.2 hq)
    rw [hlow, if_neg hne]
    exact h.fresh q hq

/-- Undoing a change to one page of the heap. -/
theorem Undone.put (h : Undone heap (pool.put p page) chain low' undone added) (mem : p ∈ chain)
    (hlow : ∀ q, low' q ≤ low q) (header : ∀ a < 16, page'.get a = (undone.content p).get a)
    (sound : TablePage.Sound page') (same : TablePage.SameTuples (pool.content p) page')
    (count : TablePage.getTupleCount page' = TablePage.getTupleCount (undone.content p)) :
    Undone heap pool chain low (undone.put p page') added := by
  have mem' := h.sub p mem
  refine ⟨h.quiet.put p page', h.pages.put mem' header sound, h.sub, ?_, ?_, ?_, ?_⟩
  · intro q hq
    have hsame := h.same q hq
    rw [put_content] at hsame ⊢
    split_ifs at hsame ⊢ with hqp
    · rw [hqp]
      exact same
    · exact hsame
  · intro q hq
    have hroom := (h.room q hq).trans (hlow q)
    rw [put_content]
    split_ifs with hqp
    · rw [count, ← hqp]
      exact hroom
    · exact hroom
  · intro q hq hn
    have hqp : q ≠ p := fun e => hn (e ▸ mem)
    rw [put_content, if_neg hqp]
    exact h.added q hq hn
  · intro q hq
    have hqp : q ≠ p := fun e => hq (e ▸ mem')
    have hother := h.other q hq
    rw [put_content, if_neg hqp] at hother ⊢
    exact hother

/-- `ApplyDelete` of a tuple that is where `InsertTuple` put it. -/
theorem applyDelete_inserted {before : PageData} (sound₀ : TablePage.Sound before)
    (hi : TablePage.Inserted before tuple i page) (pos : 0 < tuple.length)
    (quiet : PagePool.Quiet undone) (pages : TableHeap.Pages heap undone added) (mem : p ∈ added)
    (same : TablePage.SameTuples page (undone.content p)) :
    ∃ q, heap.applyDelete ⟨p, i⟩ undone = .ok ((), undone.put p q) ∧
      TablePage.Removed (undone.content p) i q := by
  have sound := pages.sound p mem
  have used : TablePage.Used page i := (hi.used sound₀ pos).2 (.inl rfl)
  have hfree := hi.free
  have hpage : TablePage.getFreeSpacePointer before ≤ 512 := sound₀.free
  obtain ⟨q, hq, hr⟩ := TablePage.applyDelete_inside sound (same.used.2 used).1 (by
    rw [same.offset i used, same.size_used used, same.free, hi.offset, hi.size,
      abs_of_nonneg (by omega)]
    omega)
  refine ⟨q, ?_, hr⟩
  rw [TableHeap.applyDelete_run quiet pages mem]
  simp only [hq]
  rfl

theorem undo_insert_here (working : Working heap db low chain) (mem : p ∈ chain)
    (hi : TablePage.Inserted (db.pool.content p) tuple i page) (pos : 0 < tuple.length)
    (marks : ∀ j : ℕ, (j : ℤ) < TablePage.getTupleCount (db.pool.content p) →
      TablePage.getTupleSize (db.pool.content p) j < 0 →
        TablePage.getFreeSpacePointer page ≤ TablePage.getTupleOffset (db.pool.content p) j)
    (hlow : ∀ q, low' q ≤ low q)
    (h : Undone heap (db.pool.put p page) chain low' undone added) :
    ∃ undone', heap.applyDelete ⟨p, i⟩ undone = .ok ((), undone') ∧
      Undone heap db.pool chain low undone' added := by
  obtain ⟨place, layout⟩ := working.layout p mem
  have same := h.same p mem
  rw [put_content, if_pos rfl] at same
  obtain ⟨q, hrun, hr⟩ := applyDelete_inserted layout.toSound hi pos h.quiet h.pages (h.sub p mem) same
  exact ⟨_, hrun, h.put mem hlow hr.header (hr.sound (h.pages.sound p (h.sub p mem)))
    (same.undo_insert layout hi pos marks hr) hr.count⟩

theorem undo_mark (mem : p ∈ chain) (layout : ∃ place, TablePage.Layout page place)
    (hm : TablePage.Resized (pool.content p) i (-|TablePage.getTupleSize (pool.content p) i|) page)
    (live : 0 < TablePage.getTupleSize (pool.content p) i) (hlow : ∀ q, low' q ≤ low q)
    (h : Undone heap (pool.put p page) chain low' undone added) :
    ∃ undone', heap.rollbackDelete ⟨p, i⟩ undone = .ok ((), undone') ∧
      Undone heap pool chain low undone' added := by
  obtain ⟨place, hl⟩ := layout
  have same := h.same p mem
  rw [put_content, if_pos rfl] at same
  have mem' := h.sub p mem
  have sound := h.pages.sound p mem'
  have used : TablePage.Used page i := by
    rw [hm.used (by rw [neg_ne_zero, abs_ne_zero])]
    exact ⟨hm.slot, live.ne'⟩
  obtain ⟨q, hq, hr⟩ := TablePage.rollbackDelete_resized sound (same.used.2 used).1 (by
    rw [same.size_used used]
    exact hl.size_le used.1)
  refine ⟨undone.put p q, ?_, h.put mem hlow (fun a ha => hr.below a (by omega)) (hr.sound sound)
    (same.undo_mark hm live hr) hr.count⟩
  rw [TableHeap.rollbackDelete_run h.quiet h.pages mem']
  simp only [hq]
  rfl

theorem undo_update (working : Working heap db low chain) (mem : p ∈ chain)
    (hu : TablePage.Updated (db.pool.content p) tuple i page) (pos : 0 < tuple.length)
    (hlow : ∀ q, low' q ≤ low q) (aborted : txn.state = .aborted)
    (h : Undone heap (db.pool.put p page) chain low' undone added) :
    ∃ undone', heap.updateTuple ⟨⟨p, i⟩, TablePage.tupleBytes (db.pool.content p) i⟩ ⟨p, i⟩ txn
        undone = .ok ((true, txn), undone') ∧ Undone heap db.pool chain low undone' added := by
  obtain ⟨place, layout⟩ := working.layout p mem
  obtain ⟨place', layout'⟩ := hu.layout layout pos
  have same := h.same p mem
  rw [put_content, if_pos rfl] at same
  have mem' := h.sub p mem
  have sound := h.pages.sound p mem'
  have used : TablePage.Used page i := (hu.used pos).2 hu.used_self
  have hsize : TablePage.getTupleSize page i = tuple.length := by
    rw [hu.size i hu.slot, if_pos rfl]
  -- the directory did not grow past the free space pointer from before the update
  have room := (h.room p mem).trans ((hlow p).trans (working.low_le p mem))
  have hlen : ((TablePage.tupleBytes (db.pool.content p) i).length : ℤ) =
      TablePage.getTupleSize (db.pool.content p) i := by
    have live := hu.live
    rw [TablePage.tupleBytes, Mem.length_slice]
    omega
  have hfree := hu.free
  have fits : TablePage.Fits (undone.content p) (TablePage.tupleBytes (db.pool.content p) i) i := by
    unfold TablePage.Fits TablePage.getFreeSpaceSize
    rw [same.size_used used, same.free, hsize, hlen]
    omega
  obtain ⟨q, hq, hr⟩ := TablePage.updateTuple_inside sound (same.used.2 used).1 fits (by
    rw [same.size_used used, same.free, same.offset i used]
    exact layout'.bounds used.1 (by omega))
  refine ⟨undone.put p q, ?_, h.put mem hlow hr.header (hr.sound sound)
    (same.undo_update layout hu pos hr) hr.count⟩
  rw [TableHeap.updateTuple_run h.quiet h.pages mem']
  simp only [hq, Except.map, aborted, if_pos]

section NewPage

variable {last n : PageId}

/-- The pool after `InsertTuple` added the page `n` behind `last`. -/
theorem newPage_content {q : PageId} :
    ({ (pool.put last (TablePage.setNextPageId (pool.content last) n)).put n page with
      nextPageId := n + 1 } : PagePool PageData).content q = if q = n then page else if q = last
        then TablePage.setNextPageId (pool.content last) n else pool.content q := by
  change ((pool.put last _).put n page).content q = _
  rw [put_content, put_content]

theorem working_newPage (working : Working heap db low chain) (mem : last ∈ chain)
    (hn : n = db.pool.nextPageId) (pos : 0 < tuple.length)
    (hi : TablePage.Inserted (TablePage.init Mem.zero n pageSize last) tuple i page)
    (hpool : pool = { (db.pool.put last (TablePage.setNextPageId (db.pool.content last) n)).put n
      page with nextPageId := n + 1 })
    (quiet : PagePool.Quiet pool) (pages : TableHeap.Pages heap pool (chain ++ [n]))
    (state : txn.state = .growing) :
    Working heap ⟨pool, txn⟩ (lower low n page) (chain ++ [n]) := by
  have hcontent (q : PageId) : pool.content q = if q = n then page else if q = last
      then TablePage.setNextPageId (db.pool.content last) n else db.pool.content q := by
    rw [hpool]
    exact newPage_content
  have hlow (q : PageId) : lower low n page q =
      if q = n then min (low n) (TablePage.getFreeSpacePointer page) else low q :=
    Function.update_apply _ _ _ _
  have same := sameTuples_setNextPageId (working.pages.sound last mem) n
  have sound := TableHeap.sound_setNextPageId (working.pages.sound last mem) n
  have layout₀ := (TablePage.wellFormed_init Mem.zero n last).layout
  have hfresh := working.fresh n hn.ge
  have hfree := hi.free
  rw [TablePage.init_free] at hfree
  have hchain (q : PageId) (hq : q ∈ chain ++ [n]) (hqn : q ≠ n) : q ∈ chain :=
    (List.mem_append.1 hq).resolve_right fun e => hqn (List.mem_singleton.1 e)
  have hcount : TablePage.getTupleCount (TablePage.setNextPageId (db.pool.content last) n) =
      TablePage.getTupleCount (db.pool.content last) :=
    TablePage.getTupleCount_congr fun a lo hi => TableHeap.setNextPageId_get _ n (by omega)
  refine ⟨quiet, pages, ?_, ?_, ?_, ?_, state⟩
  · intro q hq
    simp only [hcontent]
    split_ifs with hqn hql
    · exact ⟨_, hi.layout layout₀ pos⟩
    · obtain ⟨place, hl⟩ := working.layout last mem
      exact ⟨place, same.layout hl sound⟩
    · exact working.layout q (hchain q hq hqn)
  · intro q hq
    simp only [hcontent, hlow]
    split_ifs with hqn hql
    · have := hi.room
      exact le_min (by omega) this
    · rw [hcount, ← hql]
      exact working.room q (hchain q hq hqn)
    · exact working.room q (hchain q hq hqn)
  · intro q hq
    simp only [hcontent, hlow]
    split_ifs with hqn hql
    · exact min_le_right _ _
    · rw [same.free, ← hql]
      exact working.low_le q (hchain q hq hqn)
    · exact working.low_le q (hchain q hq hqn)
  · intro q hq
    have hq' : n + 1 ≤ q := by
      rw [hpool] at hq
      exact hq
    rw [hlow, if_neg (by lia)]
    exact working.fresh q (by lia)

theorem undo_insert_newPage (working : Working heap db low chain) (mem : last ∈ chain)
    (hn : n = db.pool.nextPageId) (pos : 0 < tuple.length)
    (hi : TablePage.Inserted (TablePage.init Mem.zero n pageSize last) tuple i page)
    (hpool : pool = { (db.pool.put last (TablePage.setNextPageId (db.pool.content last) n)).put n
      page with nextPageId := n + 1 }) (hlow : ∀ q, low' q ≤ low q)
    (h : Undone heap pool (chain ++ [n]) low' undone added) :
    ∃ undone', heap.applyDelete ⟨n, i⟩ undone = .ok ((), undone') ∧
      Undone heap db.pool chain low undone' added := by
  have hcontent (q : PageId) : pool.content q = if q = n then page else if q = last
      then TablePage.setNextPageId (db.pool.content last) n else db.pool.content q := by
    rw [hpool]
    exact newPage_content
  have hnext : pool.nextPageId = n + 1 := by rw [hpool]
  have memN : n ∈ added := h.sub n (by simp)
  have hsub (q : PageId) (hq : q ∈ chain) : q ∈ chain ++ [n] := List.mem_append_left _ hq
  have hne (q : PageId) (hq : q ∈ chain) : q ≠ n := by
    have := (working.pages.ids q hq).2
    lia
  have wf := TablePage.wellFormed_init Mem.zero n last
  have same := h.same n (by simp)
  rw [hcontent, if_pos rfl] at same
  obtain ⟨q, hrun, hr⟩ := applyDelete_inserted wf.toSound hi pos h.quiet h.pages memN same
  have empty : TablePage.SameTuples (TablePage.init Mem.zero n pageSize last) q := by
    refine same.undo_insert wf.layout hi pos (fun j hj => ?_) hr
    rw [TablePage.init_count] at hj
    omega
  refine ⟨_, hrun, h.quiet.put n q, h.pages.put memN hr.header (hr.sound (h.pages.sound n memN)),
    fun p hp => h.sub p (hsub p hp), ?_, ?_, ?_, ?_⟩
  · intro p hp
    have hsame := h.same p (hsub p hp)
    rw [hcontent, if_neg (hne p hp)] at hsame
    rw [put_content, if_neg (hne p hp)]
    split_ifs at hsame with hpl
    · rw [hpl] at hsame ⊢
      exact (sameTuples_setNextPageId (working.pages.sound last mem) n).trans hsame
    · exact hsame
  · intro p hp
    rw [put_content, if_neg (hne p hp)]
    exact (h.room p (hsub p hp)).trans (hlow p)
  · intro p hp hnot
    by_cases hpn : p = n
    · rw [put_content, if_pos hpn]
      refine ⟨by rw [hpn, hn], empty.free.trans (TablePage.init_free _ _ _), fun j hj => ?_⟩
      have := (empty.used.1 hj).1
      rw [TablePage.init_count] at this
      omega
    · obtain ⟨hfresh, free, unused⟩ := h.added p hp (by simp [hnot, hpn])
      rw [put_content, if_neg hpn]
      exact ⟨by lia, free, unused⟩
  · intro p hp
    have hpn : p ≠ n := fun e => hp (e ▸ memN)
    have hpl : p ≠ last := fun e => hp (e ▸ h.sub last (hsub last mem))
    rw [put_content, if_neg hpn, h.other p hp, hcontent, if_neg hpn, if_neg hpl]

end NewPage

/-- The undo of one call, whatever came after it and was undone. -/
def UndoneBy (heap : TableHeap) (db : Db) (low : PageId → ℤ) (chain : List PageId) (db' : Db)
    (low' : PageId → ℤ) (chain' : List PageId) (item : WriteRecord) : Prop :=
  ∀ {txn : Transaction} {undone : PagePool PageData} {added : List PageId}, txn.state = .aborted →
    Undone heap db'.pool chain' low' undone added → ∃ undone',
      TransactionManager.abortRecord txn item undone = .ok ((), undone') ∧
        Undone heap db.pool chain low undone' added

theorem working_call (working : Working heap db low chain) (live : OnLive db call)
    (ok : Undoable db low call rid) (hc : Called heap db call (some rid) db') :
    ∃ chain' item, db'.txn.writeSet = item :: db.txn.writeSet ∧
      Working heap db' (lower low rid.pageId (db'.pool.content rid.pageId)) chain' ∧
      UndoneBy heap db low chain db' (lower low rid.pageId (db'.pool.content rid.pageId)) chain'
        item := by
  rcases called_cases working.quiet working.pages hc with
    ⟨hr, -⟩ | ⟨tuple, rid, added, rfl, hr, pos, hi, htxn⟩ |
    ⟨rid, b, page, rfl, hr, mem, -, hm, rfl⟩ | ⟨tuple, rid, i, page, rfl, hr, mem, hslot, hu, rfl⟩
  · cases hr
  · cases hr
    obtain ⟨pool', txn'⟩ := db'
    simp only at htxn hi
    have quiet := hi.quiet working.quiet
    have pages := hi.pages working.pages
    have state : txn'.state = .growing := by
      rw [htxn]
      exact working.state
    obtain ⟨room, marks⟩ := ok
    cases hi with
    | @here p i page mem hq =>
      simp only at room marks
      rw [← hq.free] at marks
      have hself : (db.pool.put p page).content p = page := by rw [put_content, if_pos rfl]
      refine ⟨chain, ⟨⟨p, i⟩, .insert, {}, heap⟩, by rw [htxn]; rfl, ?_, ?_⟩
      · simp only [hself]
        obtain ⟨place, layout⟩ := working.layout p mem
        refine working_put working mem hq.header ⟨_, hq.layout layout pos⟩ ?_ state
        have := working.room p mem
        rw [hq.count]
        omega
      · intro txn undone added _ h
        exact undo_insert_here working mem hq pos marks (lower_le _ _ _) h
    | @fresh pre last i page hlast hnext hq =>
      obtain ⟨n, hn⟩ : ∃ n, n = db.pool.nextPageId := ⟨_, rfl⟩
      obtain ⟨pool', hpool⟩ : ∃ pool', pool' = ({ (db.pool.put last
        (TablePage.setNextPageId (db.pool.content last) n)).put n page with
          nextPageId := n + 1 } : PagePool PageData) := ⟨_, rfl⟩
      rw [← hn] at hq quiet pages ⊢
      rw [← hpool] at quiet pages ⊢
      have mem : last ∈ chain := by simp [hlast]
      have hself : pool'.content n = page := by rw [hpool, newPage_content, if_pos rfl]
      refine ⟨chain ++ [n], ⟨⟨n, i⟩, .insert, {}, heap⟩, by rw [htxn, hn]; rfl, ?_, ?_⟩
      · simp only [hself]
        exact working_newPage working mem hn pos hq hpool quiet pages state
      · intro txn undone added _ h
        exact undo_insert_newPage working mem hn pos hq hpool (lower_le _ _ _) h
  · cases hr
    obtain ⟨p, slotNum⟩ := rid
    obtain ⟨data, hdata⟩ := live
    obtain ⟨place, layout⟩ := working.layout p mem
    obtain ⟨i, rfl, lt, hpos⟩ := layout.live_of_getTuple hdata
    obtain ⟨q, hq, hres⟩ := TablePage.markDelete_resized layout.toSound lt (layout.size_le lt)
    cases hq.symm.trans hm
    have hself : (db.pool.put p page).content p = page := by rw [put_content, if_pos rfl]
    have hl := hres.layout layout
    refine ⟨chain, ⟨⟨p, i⟩, .delete, {}, heap⟩, rfl, ?_, ?_⟩
    · simp only [hself]
      refine working_put working mem (fun a ha => hres.below a (by omega)) ⟨place, hl⟩ ?_
        working.state
      rw [hres.count]
      exact working.room p mem
    · intro txn undone added _ h
      exact undo_mark mem ⟨place, hl⟩ hres hpos (lower_le _ _ _) h
  · cases hr
    obtain ⟨p, slotNum⟩ := rid
    obtain rfl : slotNum = i := hslot
    simp only at mem hu
    have pos : 0 < tuple.data.length := ok
    have hself : (db.pool.put p page).content p = page := by rw [put_content, if_pos rfl]
    have hstate : db.txn.state ≠ .aborted := by
      rw [working.state]
      decide
    refine ⟨chain, ⟨⟨p, i⟩, .update,
      ⟨⟨p, i⟩, TablePage.tupleBytes (db.pool.content p) i⟩, heap⟩, ?_, ?_, ?_⟩
    · simp only [if_neg hstate]
      rfl
    · simp only [hself, if_neg hstate]
      obtain ⟨place, layout⟩ := working.layout p mem
      refine working_put working mem hu.header (hu.layout layout pos) ?_ working.state
      rw [hu.count]
      exact working.room p mem
    · intro txn undone added aborted h
      obtain ⟨undone', hrun, hundone⟩ := undo_update working mem hu pos (lower_le _ _ _) aborted h
      refine ⟨undone', ?_, hundone⟩
      simp only [TransactionManager.abortRecord]
      rw [bind_ok hrun]
      rfl

/-! ## The abort -/

/-- The abort undoes a whole run, its last call first. -/
theorem undone_of_worked (intact : Intact heap pool chain)
    (h : Worked Undoable heap pool db low) : ∃ chain', Working heap db low chain' ∧
      ∀ {txn : Transaction} {undone : PagePool PageData} {added : List PageId},
        txn.state = .aborted → Undone heap db.pool chain' low undone added →
          ∃ undone' : PagePool PageData,
            db.txn.writeSet.forM (TransactionManager.abortRecord txn) undone = .ok ((), undone') ∧
              Undone heap pool chain (lowest pool) undone' added := by
  induction h with
  | start =>
    refine ⟨chain, working_start intact, ?_⟩
    intro txn undone added _ h
    exact ⟨undone, rfl, h⟩
  | call _ live ok hc ih =>
    obtain ⟨chain₁, working₁, undo₁⟩ := ih
    obtain ⟨chain₂, item, hws, working₂, undo₂⟩ := working_call working₁ live ok hc
    refine ⟨chain₂, working₂, ?_⟩
    intro txn undone added aborted h
    obtain ⟨undone₁, hrun₁, h₁⟩ := undo₂ aborted h
    obtain ⟨undone₂, hrun₂, h₂⟩ := undo₁ aborted h₁
    refine ⟨undone₂, ?_, h₂⟩
    rw [hws]
    change (TransactionManager.abortRecord txn item >>= fun _ => _) undone = _
    rw [bind_ok hrun₁, hrun₂]

/-- `Abort` returns, and leaves well-formed pages on which everything is visible as it was. -/
theorem abort_settles (intact : Intact heap pool chain) (h : Worked Undoable heap pool db low) :
    ∃ pool' chain', TransactionManager.abort db.txn db.pool = .ok ({ state := .aborted }, pool') ∧
      Intact heap pool' chain' ∧ view pool' = view pool := by
  obtain ⟨chain', working, undo⟩ := undone_of_worked intact h
  have aborted : (db.txn.setState .aborted).state = .aborted := rfl
  obtain ⟨pool', hrun, hundone⟩ := undo aborted (undone_refl working)
  refine ⟨pool', chain', ?_, hundone.intact intact, hundone.view_eq intact.pages
    fun p hp => ⟨_, (intact.wellFormed p hp).layout⟩⟩
  unfold TransactionManager.abort
  rw [bind_ok hrun]
  rfl

/-- The state after one successful call. -/
def work (db : Db) (call : Call) : Db :=
  ((tryCall ⟨0⟩ db call).map Prod.snd).getD db

end Db

end ScuDb
