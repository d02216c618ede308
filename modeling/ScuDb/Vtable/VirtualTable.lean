import ScuDb.Config

/-!
# Rows and index entries of a virtual table

`VtabUpdate` keeps the table heap and the index of a virtual table by separate calls.  The heap is
an ideal store of rows, and the index an ideal map with unique keys: an insert of a bound key fails,
and nobody looks at the result.  The two agree as long as no two live rows have the same key.
-/

namespace ScuDb

/-- `VirtualTable`: rows of `n` columns in the heap, and the index from key columns to rids. -/
structure VirtualTable (n : ℕ) (α : Type) where
  heap : RID → Option (Fin n → α) := fun _ => none
  index : Option (List α → Option RID)
  keyAttrs : List (Fin n)

namespace VirtualTable

variable {n : ℕ} {α : Type}

/-- The values of the key columns of a row. -/
def keyOf (t : VirtualTable n α) (row : Fin n → α) : List α := t.keyAttrs.map row

/-- `InsertTuple`, which the heap places at `rid`. -/
def insertTuple (t : VirtualTable n α) (row : Fin n → α) (rid : RID) : VirtualTable n α :=
  { t with heap := Function.update t.heap rid (some row) }

/-- `DeleteTuple`. -/
def deleteTuple (t : VirtualTable n α) (rid : RID) : VirtualTable n α :=
  { t with heap := Function.update t.heap rid none }

/-- `UpdateTuple` when the new row fits at `rid`. -/
def updateTuple (t : VirtualTable n α) (row : Fin n → α) (rid : RID) : VirtualTable n α :=
  { t with heap := Function.update t.heap rid (some row) }

/-- The index holds for every key exactly the rids of the live rows with that key. -/
def Agrees (t : VirtualTable n α) : Prop :=
  ∃ index, t.index = some index ∧
    ∀ key rid, index key = some rid ↔ ∃ row, t.heap rid = some row ∧ t.keyOf row = key

variable {t t' : VirtualTable n α}

theorem Agrees.key_inj (h : Agrees t) {r r' : RID} {row row' : Fin n → α}
    (hr : t.heap r = some row) (hr' : t.heap r' = some row') (e : t.keyOf row = t.keyOf row') :
    r = r' := by
  obtain ⟨index, -, agree⟩ := h
  have left := (agree (t.keyOf row) r).2 ⟨row, hr, rfl⟩
  have right := (agree (t.keyOf row) r').2 ⟨row', hr', e.symm⟩
  rw [left] at right
  exact Option.some.inj right

theorem agrees_new (keyAttrs : List (Fin n)) :
    Agrees ({ index := some fun _ => none, keyAttrs := keyAttrs } : VirtualTable n α) :=
  ⟨_, rfl, by simp⟩

variable [DecidableEq α]

/-- `InsertEntry`: a key that is bound stays bound as it is. -/
def insertEntry (t : VirtualTable n α) (row : Fin n → α) (rid : RID) : VirtualTable n α :=
  match t.index with
  | none => t
  | some index =>
    match index (t.keyOf row) with
    | some _ => t
    | none => { t with index := some (Function.update index (t.keyOf row) (some rid)) }

/-- `DeleteEntry`: the key is that of the row at `rid`, which has to be there. -/
def deleteEntry (t : VirtualTable n α) (rid : RID) : Except Fault (VirtualTable n α) :=
  match t.index with
  | none => .ok t
  | some index =>
    match t.heap rid with
    | none => .error .assertion
    | some row => .ok { t with index := some (Function.update index (t.keyOf row) none) }

/-- The calls of `VtabUpdate`, with the answers of the heap: where `InsertTuple` placed the row, and
for an update the new place if the row did not fit into the old one. -/
inductive Update (n : ℕ) (α : Type)
  | delete (rid : RID)
  | insert (row : Fin n → α) (placed : RID)
  | update (rid : RID) (row : Fin n → α) (moved : Option RID)

/-- `VtabUpdate`. -/
def vtabUpdate (t : VirtualTable n α) : Update n α → Except Fault (VirtualTable n α)
  | .delete rid => do
    let t ← t.deleteEntry rid
    return t.deleteTuple rid
  | .insert row placed => return (t.insertTuple row placed).insertEntry row placed
  | .update rid row moved => do
    let t ← t.deleteEntry rid
    match moved with
    | none => return (t.updateTuple row rid).insertEntry row rid
    | some placed =>
      let t := t.deleteTuple rid
      return (t.insertTuple row placed).insertEntry row placed

/-- The heap places a row where no row is. -/
def Answers (t : VirtualTable n α) : Update n α → Prop
  | .delete _ => True
  | .insert _ placed => t.heap placed = none
  | .update rid _ moved => ∀ placed, moved = some placed → (t.deleteTuple rid).heap placed = none

/-- The new row's key is not the key of another live row. -/
def DistinctKey (t : VirtualTable n α) : Update n α → Prop
  | .delete _ => True
  | .insert row _ => ∀ r other, t.heap r = some other → t.keyOf other ≠ t.keyOf row
  | .update rid row _ => ∀ r other, r ≠ rid → t.heap r = some other → t.keyOf other ≠ t.keyOf row

/-- The tables that updates satisfying `allowed` reach from an empty table with an index. -/
inductive Run (keyAttrs : List (Fin n)) (allowed : VirtualTable n α → Update n α → Prop) :
    VirtualTable n α → Prop
  | new : Run keyAttrs allowed { index := some fun _ => none, keyAttrs := keyAttrs }
  | call {t t' : VirtualTable n α} {u : Update n α} : Run keyAttrs allowed t → allowed t u →
      t.Answers u → t.vtabUpdate u = .ok t' → Run keyAttrs allowed t'

/-! ## Agreement -/

/-- An update is a delete followed by an insert at the old place or the new one. -/
theorem vtabUpdate_update (t : VirtualTable n α) (rid : RID) (row : Fin n → α)
    (moved : Option RID) :
    t.vtabUpdate (.update rid row moved) =
      (t.vtabUpdate (.delete rid) >>= fun t => t.vtabUpdate (.insert row (moved.getD rid))) := by
  simp only [vtabUpdate]
  cases t.deleteEntry rid with
  | error e => rfl
  | ok t₁ =>
    cases moved with
    | some placed => rfl
    | none =>
      have same : t₁.updateTuple row rid = (t₁.deleteTuple rid).insertTuple row rid := by
        simp [updateTuple, deleteTuple, insertTuple]
      change Except.ok ((t₁.updateTuple row rid).insertEntry row rid) = _
      rw [same]
      rfl

/-- A delete keeps the agreement and takes the row out of the heap. -/
theorem Agrees.delete (h : Agrees t) {rid : RID} (run : t.vtabUpdate (.delete rid) = .ok t') :
    Agrees t' ∧ t'.heap = Function.update t.heap rid none ∧ t'.keyAttrs = t.keyAttrs := by
  obtain ⟨index, hi, agree⟩ := id h
  simp only [vtabUpdate, deleteEntry, hi] at run
  cases hrow : t.heap rid with
  | none =>
    rw [hrow] at run
    cases run
  | some row =>
    rw [hrow] at run
    cases run
    refine ⟨⟨_, rfl, fun key r => ?_⟩, rfl, rfl⟩
    change Function.update index (t.keyOf row) none key = some r ↔
      ∃ other, Function.update t.heap rid none r = some other ∧ t.keyOf other = key
    simp only [Function.update_apply]
    by_cases hr : r = rid
    · subst hr
      simp only [if_true, reduceCtorEq, false_and, exists_false, iff_false]
      split_ifs with hk
      · exact id
      · intro bound
        obtain ⟨other, ho, rfl⟩ := (agree key r).1 bound
        rw [hrow] at ho
        cases ho
        exact hk rfl
    · rw [if_neg hr]
      split_ifs with hk
      · simp only [false_iff, not_exists, not_and]
        intro other ho e
        exact hr (h.key_inj ho hrow (e.trans hk))
      · exact agree key r

/-- An insert keeps the agreement exactly when the key is new. -/
theorem Agrees.insert_iff (h : Agrees t) {row : Fin n → α} {placed : RID}
    (free : t.heap placed = none) (run : t.vtabUpdate (.insert row placed) = .ok t') :
    Agrees t' ↔ DistinctKey t (.insert row placed) := by
  obtain ⟨index, hi, agree⟩ := id h
  cases run
  have attrs : ((t.insertTuple row placed).insertEntry row placed).keyAttrs = t.keyAttrs := by
    unfold insertEntry
    split
    · rfl
    · split <;> rfl
  have heap : ((t.insertTuple row placed).insertEntry row placed).heap =
      Function.update t.heap placed (some row) := by
    unfold insertEntry
    split
    · rfl
    · split <;> rfl
  have keys : ((t.insertTuple row placed).insertEntry row placed).keyOf = t.keyOf := by
    funext other
    simp only [keyOf, attrs]
  constructor
  · intro agrees r other hr e
    have ne : r ≠ placed := by
      rintro rfl
      rw [free] at hr
      cases hr
    have old : ((t.insertTuple row placed).insertEntry row placed).heap r = some other := by
      rw [heap, Function.update_of_ne ne]
      exact hr
    have added : ((t.insertTuple row placed).insertEntry row placed).heap placed = some row := by
      rw [heap, Function.update_self]
    refine ne (agrees.key_inj old added ?_)
    rw [keys]
    exact e
  · intro distinct
    have unbound : index (t.keyOf row) = none := by
      cases hk : index (t.keyOf row) with
      | none => rfl
      | some r =>
        obtain ⟨other, ho, e⟩ := (agree _ r).1 hk
        exact absurd e (distinct r other ho)
    have entry : ((t.insertTuple row placed).insertEntry row placed).index =
        some (Function.update index (t.keyOf row) (some placed)) := by
      unfold insertEntry
      have hi' : (t.insertTuple row placed).index = some index := hi
      have hk' : index ((t.insertTuple row placed).keyOf row) = none := unbound
      simp only [hi', hk']
      rfl
    refine ⟨_, entry, fun key r => ?_⟩
    rw [keys, heap]
    simp only [Function.update_apply]
    by_cases hr : r = placed
    · subst hr
      rw [if_pos rfl]
      split_ifs with hk
      · simp [hk]
      · rw [agree, free]
        simp [Ne.symm hk]
    · rw [if_neg hr]
      split_ifs with hk
      · simp only [Option.some.injEq, Ne.symm hr, false_iff, not_exists, not_and]
        intro other ho e
        exact distinct r other ho (e.trans hk)
      · exact agree key r

/-- An update of any kind keeps the agreement exactly when the new row's key is not the key of
another live row. -/
theorem Agrees.vtabUpdate_iff (h : Agrees t) {u : Update n α} (answers : t.Answers u)
    (run : t.vtabUpdate u = .ok t') : Agrees t' ↔ DistinctKey t u := by
  cases u with
  | delete rid => exact ⟨fun _ => trivial, fun _ => (h.delete run).1⟩
  | insert row placed => exact h.insert_iff answers run
  | update rid row moved =>
    rw [vtabUpdate_update] at run
    cases hd : t.vtabUpdate (.delete rid) with
    | error e =>
      rw [hd] at run
      cases run
    | ok t₁ =>
      rw [hd] at run
      change t₁.vtabUpdate (.insert row (moved.getD rid)) = .ok t' at run
      obtain ⟨agrees, heap, attrs⟩ := h.delete hd
      have keys : t₁.keyOf = t.keyOf := by
        funext other
        simp only [keyOf, attrs]
      have free : t₁.heap (moved.getD rid) = none := by
        rw [heap]
        cases moved with
        | none => exact Function.update_self _ _ _
        | some placed => exact answers placed rfl
      rw [agrees.insert_iff free run]
      simp only [DistinctKey, heap, keys, Function.update_apply]
      constructor
      · intro distinct r other ne hr
        exact distinct r other (by rw [if_neg ne, hr])
      · intro distinct r other hr
        split_ifs at hr with ne
        exact distinct r other ne hr

/-- Index and heap agree after every run of updates that never give a row the key of another live
row, and the first update that does so breaks the agreement. -/
theorem run_agrees_iff {keyAttrs : List (Fin n)} (h : Run keyAttrs DistinctKey t) :
    Agrees t ∧ ∀ u t', t.Answers u → t.vtabUpdate u = .ok t' → (Agrees t' ↔ DistinctKey t u) := by
  have agrees : Agrees t := by
    induction h with
    | new => exact agrees_new keyAttrs
    | call _ distinct answers run ih => exact (ih.vtabUpdate_iff answers run).2 distinct
  exact ⟨agrees, fun u t' answers run => agrees.vtabUpdate_iff answers run⟩

/-- A table of two columns, the first one indexed: two rows are inserted, the second one gets another
key and another place, and the first one is deleted. -/
theorem run_agrees_iff_moved : ∃ t : VirtualTable 2 ℕ, Run [0] DistinctKey t ∧
    t.heap ⟨0, 0⟩ = none ∧ t.heap ⟨0, 1⟩ = none ∧ t.heap ⟨1, 0⟩ = some ![7, 2] ∧ Agrees t := by
  -- the heap behind the first insert
  let one : RID → Option (Fin 2 → ℕ) := Function.update (fun _ => none) ⟨0, 0⟩ (some ![5, 1])
  have only {r : RID} {row : Fin 2 → ℕ} (hr : one r = some row) : row = ![5, 1] := by
    by_cases e : r = ⟨0, 0⟩
    · subst e
      exact (Option.some.inj hr).symm
    · rw [show one r = none from Function.update_of_ne e _ _] at hr
      cases hr
  have first := @Run.call 2 ℕ _ [0] DistinctKey _ _ (.insert ![5, 1] ⟨0, 0⟩) .new
    (fun r row hr => by simp at hr) rfl rfl
  have second := @Run.call 2 ℕ _ [0] DistinctKey _ _ (.insert ![6, 2] ⟨0, 1⟩) first
    (fun r row hr => by rw [only hr]; decide) rfl rfl
  have third := @Run.call 2 ℕ _ [0] DistinctKey _ _ (.update ⟨0, 1⟩ ![7, 2] (some ⟨1, 0⟩)) second
    (fun r row moved hr => by rw [only ((Function.update_of_ne moved _ _).symm.trans hr)]; decide)
    (fun placed e => by cases e; rfl) rfl
  have fourth := @Run.call 2 ℕ _ [0] DistinctKey _ _ (.delete ⟨0, 0⟩) third trivial trivial rfl
  exact ⟨_, fourth, rfl, rfl, rfl, (run_agrees_iff fourth).1⟩

/-- Two rows with the same key: the index has the first one only. -/
theorem not_agrees_of_equal_keys :
    ¬ ∀ t : VirtualTable 1 ℕ, Run [0] (fun _ _ => True) t → Agrees t := by
  intro agrees
  have first := @Run.call 1 ℕ _ [0] (fun _ _ => True) _ _ (.insert (fun _ => 5) ⟨0, 0⟩) .new
    trivial rfl rfl
  have second := Run.call (u := .insert (fun _ => 5) ⟨0, 1⟩) first trivial rfl rfl
  obtain ⟨index, hi, agree⟩ := agrees _ second
  have bound := (agree [5] ⟨0, 1⟩).2 ⟨fun _ => 5, rfl, rfl⟩
  cases hi
  exact absurd bound (by decide)

end VirtualTable

end ScuDb
