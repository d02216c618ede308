import ScuDb.Config

/-!
# The transaction of the virtual table

`VtabBegin`, `VtabCommit` and the opening and closing of cursors share the pointer
`global_transaction_`.  `VtabClose` commits whatever it points to, so a cursor that is closed inside
a SQL transaction ends that transaction.
-/

namespace ScuDb

/-- `global_transaction_` and the transactions behind it: the next id of `Begin`, the write set of
every `Transaction` object, and the writes that were committed, the oldest first. -/
structure VtabState (W : Type) where
  globalTransaction : Option ℕ := none
  nextTxnId : ℕ := 0
  writeSet : ℕ → List W := fun _ => []
  committed : List W := []

namespace VtabState

variable {W : Type}

/-- `VtabBegin`: the pointer is overwritten, whatever it was. -/
def vtabBegin (s : VtabState W) : VtabState W :=
  { s with globalTransaction := some s.nextTxnId, nextTxnId := s.nextTxnId + 1 }

/-- `VtabCommit`. -/
def vtabCommit (s : VtabState W) : VtabState W :=
  match s.globalTransaction with
  | none => s
  | some transaction => { s with
      committed := s.committed ++ s.writeSet transaction
      globalTransaction := none }

/-- `VtabOpen`: a read begins a transaction if there is none. -/
def vtabOpen (s : VtabState W) : VtabState W :=
  match s.globalTransaction with
  | none => s.vtabBegin
  | some _ => s

/-- `VtabClose`. -/
def vtabClose (s : VtabState W) : VtabState W := s.vtabCommit

/-- `VtabUpdate`: the heap enters the write into the write set of the transaction, through the
pointer. -/
def vtabUpdate (s : VtabState W) (write : W) : Except Fault (VtabState W) :=
  match s.globalTransaction with
  | none => .error .nullDeref
  | some transaction => .ok { s with
      writeSet := Function.update s.writeSet transaction (s.writeSet transaction ++ [write]) }

/-- The calls SQLite makes inside a SQL transaction. -/
inductive Call (W : Type)
  | xUpdate (write : W)
  | xOpen
  | xClose
deriving DecidableEq

def step (s : VtabState W) : Call W → Except Fault (VtabState W)
  | .xUpdate write => s.vtabUpdate write
  | .xOpen => .ok s.vtabOpen
  | .xClose => .ok s.vtabClose

def run (s : VtabState W) (calls : List (Call W)) : Except Fault (VtabState W) :=
  calls.foldlM step s

/-- Each `xClose` matches an earlier `xOpen`. -/
def Matched [DecidableEq W] (calls : List (Call W)) : Prop :=
  ∀ before, before <+: calls → before.count .xClose ≤ before.count .xOpen

/-- At every moment of the calls none of them has failed, the pointer still points to its
transaction, and nothing was committed. -/
def KeepsTransaction (s : VtabState W) (calls : List (Call W)) : Prop :=
  ∀ before, before <+: calls → ∃ s', s.run before = .ok s' ∧
    s'.globalTransaction = s.globalTransaction ∧ s'.committed = s.committed

variable {s s' : VtabState W}

/-- A call other than `xClose` keeps the transaction. -/
theorem step_of_ne_xClose {transaction : ℕ} (current : s.globalTransaction = some transaction)
    {call : Call W} (ne : call ≠ .xClose) :
    ∃ s', s.step call = .ok s' ∧ s'.globalTransaction = some transaction ∧
      s'.committed = s.committed := by
  cases call with
  | xUpdate write =>
    have run : s.step (.xUpdate write) = .ok { s with
        writeSet := Function.update s.writeSet transaction (s.writeSet transaction ++ [write]) } := by
      simp only [step, vtabUpdate, current]
    exact ⟨_, run, current, rfl⟩
  | xOpen =>
    refine ⟨s, ?_, current, rfl⟩
    simp only [step, vtabOpen, current]
  | xClose => exact absurd rfl ne

/-- So does a run without `xClose`. -/
theorem run_of_no_xClose (calls : List (Call W)) : ∀ {s : VtabState W} {transaction : ℕ},
    s.globalTransaction = some transaction → .xClose ∉ calls →
    ∃ s', s.run calls = .ok s' ∧ s'.globalTransaction = some transaction ∧
      s'.committed = s.committed := by
  induction calls with
  | nil => exact fun {s} _ current _ => ⟨s, rfl, current, rfl⟩
  | cons call rest ih =>
    intro s transaction current absent
    rw [List.mem_cons, not_or] at absent
    obtain ⟨s₁, hs, current₁, same₁⟩ := step_of_ne_xClose current (Ne.symm absent.1)
    obtain ⟨s', hr, current', same⟩ := ih current₁ absent.2
    refine ⟨s', ?_, current', same.trans same₁⟩
    change (s.step call >>= fun s => s.run rest) = _
    rw [hs]
    exact hr

theorem run_append (s : VtabState W) (before after : List (Call W)) :
    s.run (before ++ after) = s.run before >>= fun s => s.run after :=
  List.foldlM_append

/-- A SQL transaction, begun in any state, keeps its transaction until `xCommit` exactly when no
cursor is closed inside it. -/
theorem keepsTransaction_iff (s : VtabState W) (calls : List (Call W)) :
    KeepsTransaction s.vtabBegin calls ↔ .xClose ∉ calls := by
  have begun : s.vtabBegin.globalTransaction = some s.nextTxnId := rfl
  constructor
  · intro keeps closed
    -- up to the first `xClose` nothing happened; `xClose` leaves no transaction
    obtain ⟨before, after, rfl, absent⟩ := List.eq_append_cons_of_mem closed
    obtain ⟨s₁, hr, current, -⟩ := run_of_no_xClose before begun absent
    obtain ⟨s', hr', current', -⟩ := keeps (before ++ [.xClose]) ⟨after, by simp⟩
    have ended : s.vtabBegin.run (before ++ [.xClose]) = .ok s₁.vtabClose := by
      rw [run_append, hr]
      rfl
    rw [ended] at hr'
    cases hr'
    have gone : s₁.vtabClose.globalTransaction = none := by
      simp only [vtabClose, vtabCommit, current]
    rw [gone] at current'
    cases current'
  · intro absent before initial
    exact run_of_no_xClose before begun fun h => absent (initial.subset h)

/-- A `SELECT` inside the SQL transaction and then a write: the end of the cursor committed the
transaction, and the write finds none. -/
theorem not_keepsTransaction : ¬ ∀ (s : VtabState ℕ) (calls : List (Call ℕ)),
    Matched calls → KeepsTransaction s.vtabBegin calls := by
  intro keeps
  have matched : Matched ([.xOpen, .xClose, .xUpdate 7] : List (Call ℕ)) := by
    intro before initial
    rw [← List.mem_inits] at initial
    revert before
    decide
  obtain ⟨s', run, -⟩ := keeps {} _ matched _ List.prefix_rfl
  cases run

end VtabState

end ScuDb
