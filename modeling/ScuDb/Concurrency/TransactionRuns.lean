import ScuDb.Concurrency.AbortRuns
import ScuDb.Concurrency.CommitRuns

/-!
# Histories of transactions

A table is created, and then one transaction after the other works on it and is committed or
aborted.  As long as the calls of each meet the condition of its end, the pages are well formed
between the transactions, and what is visible is what the committed ones left: an aborted one leaves
no trace.
-/

namespace ScuDb

open ByteMem PagePool Stateful

namespace Db

/-- A table between two transactions, and what the committed ones have left there. -/
inductive Settled (heap : TableHeap) : PagePool PageData → View → Prop
  | create {pool pool' : PagePool PageData} (ready : Ready pool)
      (run : TableHeap.create pool = .ok (heap, pool')) : Settled heap pool' (view pool')
  | commit {pool pool' : PagePool PageData} {db : Db} {committed latest : View} {txn : Transaction}
      (before : Settled heap pool committed) (work : Run Committable heap pool db latest)
      (run : TransactionManager.commit db.txn db.pool = .ok (txn, pool')) :
      Settled heap pool' latest
  | abort {pool pool' : PagePool PageData} {db : Db} {committed : View} {low : PageId → ℤ}
      {txn : Transaction} (before : Settled heap pool committed)
      (work : Worked Undoable heap pool db low)
      (run : TransactionManager.abort db.txn db.pool = .ok (txn, pool')) :
      Settled heap pool' committed

variable {heap : TableHeap} {pool : PagePool PageData} {committed : View}

/-- Between two transactions the pages are well formed, and exactly what was committed is visible. -/
theorem Settled.intact (h : Settled heap pool committed) :
    (∃ chain, Intact heap pool chain) ∧ view pool = committed := by
  induction h with
  | create ready run => exact ⟨⟨_, intact_create ready run⟩, rfl⟩
  | commit _ work run ih =>
    obtain ⟨⟨chain, intact⟩, -⟩ := ih
    obtain ⟨pool', chain', run', intact', latest⟩ := commit_settles intact work
    rw [run] at run'
    cases run'
    exact ⟨⟨chain', intact'⟩, latest⟩
  | abort _ work run ih =>
    obtain ⟨⟨chain, intact⟩, same⟩ := ih
    obtain ⟨pool', chain', run', intact', restored⟩ := abort_settles intact work
    rw [run] at run'
    cases run'
    exact ⟨⟨chain', intact'⟩, restored.trans same⟩

end Db

end ScuDb
