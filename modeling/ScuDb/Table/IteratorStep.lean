import ScuDb.Table.HeapInsert
import ScuDb.Table.TableScan

/-!
# One step of a table iterator

From a live tuple of a heap whose pages are well-formed, `++` reaches the next live tuple in the
order of pages and slots, or the end, and the pool is as it was: other readers may hold pins and
read latches meanwhile.
-/

namespace ScuDb

open ByteMem PagePool Stateful LinkedList TablePage

namespace TableIterator

variable {heap : TableHeap} {pool : PagePool PageData} {chain : List PageId} {txn : Transaction}

/-- A live tuple splits the live tuples into those before it and those behind its slot. -/
theorem liveRids_split {p : PageId} {rest : List PageId} (tail : Tail pool p rest) {rid : RID}
    {after : List RID} : ∀ {before : List RID},
    liveRids pool (p :: rest) = before ++ rid :: after →
    ∃ (q : PageId) (j : ℕ) (rest' : List PageId), rid = ⟨q, j⟩ ∧ Tail pool q rest' ∧
      after = liveAfter pool q j rest' := by
  -- the live tuples behind the first one are again the ones behind a slot
  have later : ∀ {before : List RID} {q : PageId} {j : ℕ} {rest' : List PageId},
      Tail pool q rest' → liveAfter pool q j rest' = before ++ rid :: after →
      ∃ (q : PageId) (j : ℕ) (rest' : List PageId), rid = ⟨q, j⟩ ∧ Tail pool q rest' ∧
        after = liveAfter pool q j rest' := by
    intro before
    induction before with
    | nil => exact fun tail h => liveAfter_cons tail h
    | cons first before ih =>
      intro q j rest' tail h
      obtain ⟨q', j', rest'', -, tail', hrest⟩ := liveAfter_cons tail h
      exact ih tail' hrest.symm
  intro before h
  change (liveFrom (pool.content p) 0).map (fun (j : ℕ) => (⟨p, j⟩ : RID)) ++
    liveRids pool rest = _ at h
  cases hl : liveFrom (pool.content p) 0 with
  | nil =>
    rw [hl, List.map_nil, List.nil_append] at h
    cases before with
    | nil => exact liveRids_cons tail h
    | cons first before =>
      obtain ⟨q, j, rest', -, tail', hrest⟩ := liveRids_cons tail h
      exact later tail' hrest.symm
  | cons i is =>
    rw [hl, (liveFrom_cons hl).1, List.map_cons, List.cons_append] at h
    cases before with
    | nil =>
      obtain ⟨hrid, hafter⟩ := List.cons.inj h
      exact ⟨p, i, rest, hrid.symm, tail, hafter.symm⟩
    | cons first before => exact later tail (List.cons.inj h).2

/-- The bytes of a live tuple lie inside a well-formed page. -/
theorem inPage_of_wellFormed {rid : RID} (wf : ∀ p ∈ chain, WellFormed (pool.content p))
    (live : rid ∈ liveRids pool chain) : InPage pool rid := by
  obtain ⟨p, mem, i, rfl, lt, pos⟩ := mem_liveRids live
  have page := wf p mem
  have bounds := page.bounds ⟨lt, pos.ne'⟩
  have directory := page.directory
  have count := page.count
  rw [abs_of_pos pos] at bounds
  exact ⟨by change 0 ≤ getTupleOffset (pool.content p) i; omega, bounds.2⟩

/-- Every live tuple of a heap is told apart from the end. -/
theorem eq_end_live {good : PageData → Prop} {rid : RID} (h : TableHeap.Chain good heap pool chain)
    (live : rid ∈ liveRids pool chain) (data : List UInt8) : eq ⟨⟨rid, data⟩⟩ «end» = false := by
  obtain ⟨p, mem, i, rfl, -, -⟩ := mem_liveRids live
  exact eq_end_of_live (h.ids p mem).1 (Int.natCast_nonneg i)

/-- `++` on a live tuple returns and leaves the pool alone.  It moves to the next live tuple, or it
becomes the end when there is none. -/
theorem next_moves (h : TableHeap.Chain WellFormed heap pool chain)
    (readable : PagePool.Readable pool) {before after : List RID} {rid : RID}
    (position : liveRids pool chain = before ++ rid :: after) (data : List UInt8) :
    ∃ it, next heap txn ⟨⟨rid, data⟩⟩ pool = .ok (it, pool) ∧
      (eq it «end» = true ↔ after = []) ∧
      ∀ r ∈ after.head?, it = ⟨liveTuple pool r⟩ := by
  obtain ⟨rest, rfl⟩ := h.cons_first
  obtain ⟨p, i, rest', rfl, tail, rfl⟩ := liveRids_split (Tail.of_chain h) position
  have run : next heap txn ⟨⟨⟨p, i⟩, data⟩⟩ pool = _ := next_spec readable tail i data
  cases hafter : liveAfter pool p i rest' with
  | nil =>
    rw [hafter] at run
    exact ⟨_, run, by simp [eq, «end», RID.get], by simp⟩
  | cons r after =>
    have live : r ∈ liveRids pool (heap.firstPageId :: rest) := by
      rw [position, hafter]
      simp
    have read := (readTuple_live live).1 (inPage_of_wellFormed h.good live)
    rw [hafter, List.head?_cons] at run
    simp only [read, Except.map] at run
    refine ⟨_, run, ?_, by simp⟩
    simp [liveTuple, eq_end_live h live]

/-- The full heap with one tuple more: `++` moves from the first page to the second one, and from
there to the end. -/
theorem next_moves_fullHeap : ∃ pool, liveRids pool [0, 1] = [⟨0, 0⟩, ⟨1, 0⟩] ∧
    next ⟨0⟩ {} ⟨⟨⟨0, 0⟩, []⟩⟩ pool = .ok (⟨liveTuple pool ⟨1, 0⟩⟩, pool) ∧
    ∃ it, next ⟨0⟩ {} ⟨liveTuple pool ⟨1, 0⟩⟩ pool = .ok (it, pool) ∧ eq it «end» = true := by
  have pos : 0 < (Tuple.data { data := [5] }).length := by decide
  obtain ⟨rid, pool, chain', run, placed⟩ := TableHeap.insertTuple_run TableHeap.quiet_fullHeap
    TableHeap.chain_fullHeap (fun _ wf => wf.toSound) (by decide) pos (by decide) {}
  have content : ((TableHeap.mk 0).insertTuple { data := [5] } {} TableHeap.fullHeap).toOption.map
      (fun r => (follow (fun p => getNextPageId (r.2.content p)) invalidPageId 2 0,
        liveRids r.2 [0, 1])) = some (some [0, 1], [⟨0, 0⟩, ⟨1, 0⟩]) := by decide +kernel
  rw [run] at content
  obtain ⟨links, live⟩ := Prod.mk.inj (Option.some_injective _ content)
  have chain := placed.wellFormed TableHeap.chain_fullHeap pos
  obtain rfl : chain' = [0, 1] := chain.follows.unique (follows_of_follow 2 links)
  have readable := (placed.quiet TableHeap.quiet_fullHeap).readable
  obtain ⟨it, first, -, moved⟩ := next_moves chain readable (show _ = [] ++ _ from live) []
  obtain ⟨last, second, ends, -⟩ := next_moves chain readable (show _ = [_] ++ _ from live)
    (liveTuple pool ⟨1, 0⟩).data
  obtain rfl := moved _ rfl
  exact ⟨pool, live, first, last, second, ends.2 rfl⟩

end TableIterator

end ScuDb
