import ScuDb.Buffer.LRUNodes

/-!
# What the LRU replacer counts

`Size` is a constant: the count of `mDataMap` behind it is commented out.  So it is the number of
values held, and tells whether the next `Victim` fails, only as long as exactly one is held.
-/

namespace ScuDb.LRUNodes

variable {T : Type}

/-- `Size`. -/
def size (_ : LRUNodes T) : ℕ := 1

variable [DecidableEq T]

theorem Represents.victim_fails_iff {s : LRUNodes T} {nodes : List ℕ} (h : Represents s nodes) :
    s.victim = .ok (none, s) ↔ s.values nodes = [] := by
  rcases h.victim with ⟨rfl, hs⟩ | ⟨s', nodes', v, hs, -, vals⟩
  · exact iff_of_true hs rfl
  · apply iff_of_false
    · rw [hs]
      rintro ⟨⟩
    · simp [vals]

theorem toFinset_erase {l : List T} (h : l.Nodup) (v : T) :
    (l.erase v).toFinset = l.toFinset.erase v := by
  ext w
  rw [List.mem_toFinset, h.mem_erase_iff, Finset.mem_erase, List.mem_toFinset]

variable [Zero T]

/-- The value that `Victim` delivers after a history of calls. -/
def evicted (history : List (Op T)) : Option T :=
  match run history >>= victim with
  | .ok (value, _) => value
  | .error _ => none

/-- The values inserted and not yet erased or evicted. -/
def held : List (Op T) → Finset T
  | [] => ∅
  | .insert value :: before => {value} ∪ held before
  | .erase value :: before => (held before).erase value
  | .victim :: before => (evicted before).elim (held before) (held before).erase

/-- `Size` counts the values held, and is zero if and only if the next `Victim` fails. -/
def Counts (history : List (Op T)) (s : LRUNodes T) : Prop :=
  s.size = (held history).card ∧ (s.size = 0 ↔ s.victim = .ok (none, s))

/-- The nodes carry the values held. -/
theorem run_held (history : List (Op T)) : ∃ s nodes, run history = .ok s ∧ Represents s nodes ∧
    (s.values nodes).toFinset = held history := by
  induction history with
  | nil => exact ⟨new, [], rfl, represents_new, rfl⟩
  | cons op before ih =>
    obtain ⟨s, nodes, hr, rep, same⟩ := ih
    simp only [run, hr]
    cases op with
    | insert v =>
      obtain ⟨s', nodes', hs, rep', vals⟩ := rep.insert v
      refine ⟨s', nodes', hs, rep', ?_⟩
      rw [vals, held, ← same, List.toFinset_cons, toFinset_erase rep.nodup_values]
      ext w
      by_cases h : w = v <;> simp [h]
    | erase v =>
      obtain ⟨s', nodes', hs, rep', vals⟩ := rep.erase v
      refine ⟨s', nodes', ?_, rep', ?_⟩
      · change Prod.snd <$> s.erase v = _
        rw [hs]
        rfl
      · rw [vals, held, ← same, toFinset_erase rep.nodup_values]
    | victim =>
      have delivers : ∀ r, s.victim = .ok r → evicted before = r.1 := by
        intro r hs
        have bind : run before >>= victim = .ok r := by
          rw [hr]
          exact hs
        simp only [evicted, bind]
      rcases rep.victim with ⟨-, hs⟩ | ⟨s', nodes', v, hs, rep', vals⟩
      · refine ⟨s, nodes, ?_, rep, ?_⟩
        · change Prod.snd <$> s.victim = _
          rw [hs]
          rfl
        · rw [held, delivers _ hs]
          exact same
      · refine ⟨s', nodes', ?_, rep', ?_⟩
        · change Prod.snd <$> s.victim = _
          rw [hs]
          rfl
        · have nodup := rep.nodup_values
          rw [vals] at nodup same
          have absent : v ∉ s'.values nodes' := fun hv =>
            (List.nodup_append.1 nodup).2.2 v hv v (List.mem_singleton_self v) rfl
          rw [held, delivers _ hs, ← same]
          change _ = (s'.values nodes' ++ [v]).toFinset.erase v
          rw [← toFinset_erase nodup, List.erase_append_right _ absent, List.erase_cons_head,
            List.append_nil]

/-- After every history of calls `Size` is the number of values held, and zero if and only if the
next `Victim` fails, exactly if one value is held. -/
theorem run_counts_iff (history : List (Op T)) :
    ∃ s, run history = .ok s ∧ (Counts history s ↔ (held history).card = 1) := by
  obtain ⟨s, nodes, hr, rep, same⟩ := run_held history
  refine ⟨s, hr, fun counts => counts.1.symm, fun one => ⟨one.symm, ?_⟩⟩
  apply iff_of_false one_ne_zero
  rw [rep.victim_fails_iff]
  intro empty
  rw [← same, empty] at one
  cases one

/-- The new replacer. -/
theorem not_run_counts :
    ¬ ∀ (history : List (Op ℕ)) (s : LRUNodes ℕ), run history = .ok s → Counts history s := by
  intro claim
  have counted := (claim [] new rfl).1
  cases counted

end ScuDb.LRUNodes
