import ScuDb.Page.HeaderRecords

/-!
# When the header page overruns

No call on a header page compares a record with the size of the page.  The calls stay inside the
page, and return what a map of at most `maxRecords` names returns, exactly if no new name is ever
inserted into a full page.
-/

namespace ScuDb.HeaderPage

open ByteMem

/-- A new name for a page that has no room for another record. -/
def Call.Overruns (m : RootMap) : Call → Prop
  | .insertRecord name _ => name ∉ m ∧ maxRecords ≤ m.keys.card
  | _ => False

instance (m : RootMap) (c : Call) : Decidable (c.Overruns m) := by
  cases c <;> unfold Call.Overruns <;> infer_instance

/-- What the call means for a map that refuses a new name when it has `maxRecords`. -/
def Call.onBounded (m : RootMap) (c : Call) : Reply × RootMap :=
  if c.Overruns m then (.flag false, m) else c.onMap m

/-- Legal calls, in the bounded map. -/
def LegalCalls (m : RootMap) : List Call → Prop
  | [] => True
  | c :: calls => c.Legal m ∧ LegalCalls (c.onBounded m).2 calls

/-- Every call stays inside the page and replies as the bounded map does; a refused name leaves the
page unchanged. -/
def Contained (p : PageData) (m : RootMap) : List Call → Prop
  | [] => True
  | c :: calls => ∃ q, c.run p = .ok ((c.onBounded m).1, q) ∧ (c.Overruns m → q = p) ∧
      Contained q (c.onBounded m).2 calls

/-- No call inserts a new name into a full page. -/
def NeverOverruns (m : RootMap) : List Call → Prop
  | [] => True
  | c :: calls => ¬ c.Overruns m ∧ NeverOverruns (c.onMap m).2 calls

variable {p : PageData} {m : RootMap} {c : Call}

theorem keys_insert (m : RootMap) (name : Name) (rootId : PageId) :
    (m.insert name rootId).keys = insert name m.keys := by
  ext other
  rw [Finmap.mem_keys, Finmap.mem_insert, Finset.mem_insert, Finmap.mem_keys]

/-- A call that does not overrun leaves at most `maxRecords` names. -/
theorem Represents.room (h : Represents p m) (fits : ¬ c.Overruns m) :
    (c.onMap m).2.keys.card ≤ maxRecords := by
  obtain ⟨records, holds, agrees⟩ := h
  have card : m.keys.card ≤ maxRecords := (agrees.card_keys holds.nodup).trans_le holds.fits
  cases c with
  | insertRecord name rootId =>
    simp only [Call.onMap]
    split_ifs with bound
    · exact card
    · have small : m.keys.card < maxRecords := not_le.1 fun many => fits ⟨bound, many⟩
      rw [keys_insert]
      exact (Finset.card_insert_le _ _).trans small
  | updateRecord name rootId =>
    simp only [Call.onMap]
    split_ifs with bound
    · rw [keys_insert, Finset.insert_eq_of_mem (Finmap.mem_keys.2 bound)]
      exact card
    · exact card
  | deleteRecord name =>
    simp only [Call.onMap]
    split_ifs with bound
    · rw [Finmap.keys_erase]
      exact (Finset.card_erase_le).trans card
    · exact card
  | getRootId name => exact card

/-- The record behind a full page ends outside. -/
theorem Represents.overrun (h : Represents p m) (legal : c.Legal m) (full : c.Overruns m) :
    c.run p = .error .outOfBounds := by
  obtain ⟨records, holds, agrees⟩ := h
  cases c with
  | insertRecord name rootId =>
    obtain ⟨(valid : rootId > invalidPageId), -⟩ := legal
    obtain ⟨unbound, many⟩ := full
    rcases agrees.cases name with ⟨-, absent⟩ | ⟨i, id, bound, -⟩
    · have count : records.length = 14 := by
        rw [agrees.card_keys holds.nodup] at many
        exact le_antisymm holds.fits many
      have find : findRecord p name = .ok none := by rw [holds.findRecord_eq, absent]
      have recordNum : getRecordCount p = 14 := by rw [holds.count, count]; rfl
      -- a name of up to three bytes still fits, the root id behind it does not
      have second (q : PageData) : copyIn q (4 + 14 * 36 + 32) (Mem.encodeInt32 rootId) =
          .error .outOfBounds := by
        unfold copyIn
        rw [if_neg]
        rw [Mem.length_encodeInt32]
        decide
      have inserted : HeaderPage.insertRecord p name rootId = .error .outOfBounds := by
        unfold HeaderPage.insertRecord
        rw [assert_pos name.2.1, assert_pos valid]
        simp only [find, recordNum, bind, Except.bind, pure, Except.pure, ne_eq, not_true_eq_false,
          if_false]
        cases first : copyIn p (4 + 14 * 36) (name.1 ++ [0]) with
        | error e =>
          unfold copyIn at first
          split_ifs at first
          cases first
          rfl
        | ok q =>
          simp only [second]
      simp only [Call.run, inserted, bind, Except.bind]
    · exact absurd bound unbound
  | updateRecord => exact full.elim
  | deleteRecord => exact full.elim
  | getRootId => exact full.elim

/-- The calls stay inside the page exactly if none inserts a new name into a full page. -/
theorem Represents.contained_iff (calls : List Call) : ∀ {p : PageData} {m : RootMap},
    Represents p m → LegalCalls m calls → (Contained p m calls ↔ NeverOverruns m calls) := by
  induction calls with
  | nil => exact fun _ _ => Iff.rfl
  | cons c calls ih =>
    intro p m h legal
    by_cases full : c.Overruns m
    · apply iff_of_false
      · rintro ⟨q, hq, -⟩
        rw [h.overrun legal.1 full] at hq
        cases hq
      · exact fun never => never.1 full
    · have step : c.onBounded m = c.onMap m := if_neg full
      obtain ⟨q, hq, h'⟩ := h.call c legal.1 (h.room full)
      have rest : LegalCalls (c.onMap m).2 calls := step ▸ legal.2
      simp only [Contained, NeverOverruns, step]
      constructor
      · rintro ⟨q', hq', -, contained⟩
        obtain rfl : q = q' := congrArg Prod.snd (Except.ok.inj (hq.symm.trans hq'))
        exact ⟨full, (ih h' rest).1 contained⟩
      · rintro ⟨-, never⟩
        exact ⟨q, hq, fun e => absurd e full, (ih h' rest).2 never⟩

/-- From the zeroed page on, every legal sequence of calls stays inside the page and returns what
the map of at most `maxRecords` names returns, exactly if it never inserts a new name into a full
page. -/
theorem run_contained_iff (calls : List Call) (legal : LegalCalls ∅ calls) :
    Contained Mem.zero ∅ calls ↔ NeverOverruns ∅ calls :=
  represents_zero.contained_iff calls legal

theorem run_contained_iff_reused : Contained Mem.zero ∅
    [.insertRecord ⟨[97], by decide⟩ 3, .deleteRecord ⟨[97], by decide⟩,
      .getRootId ⟨[97], by decide⟩] ↔ NeverOverruns ∅
    [.insertRecord ⟨[97], by decide⟩ 3, .deleteRecord ⟨[97], by decide⟩,
      .getRootId ⟨[97], by decide⟩] :=
  run_contained_iff _ ⟨⟨by decide, by decide, by decide⟩, Nat.zero_lt_one, trivial, trivial⟩

/-! ## Too many names -/

/-- Insertions of more distinct names than the page has room for. -/
theorem not_neverOverruns (names : List Name) : ∀ {m : RootMap}, names.Nodup →
    (∀ name ∈ names, name ∉ m) → m.keys.card ≤ maxRecords → maxRecords < m.keys.card + names.length →
    ¬ NeverOverruns m (names.map fun name => .insertRecord name 0) := by
  induction names with
  | nil =>
    intro m _ _ le lt
    exact absurd lt (not_lt.2 le)
  | cons name names ih =>
    rintro m nodup fresh le lt ⟨fits, never⟩
    obtain ⟨apart, nodup⟩ := List.nodup_cons.1 nodup
    have unbound : name ∉ m := fresh name List.mem_cons_self
    have small : m.keys.card < maxRecords := not_le.1 fun many => fits ⟨unbound, many⟩
    have card : (m.insert name 0).keys.card = m.keys.card + 1 := by
      rw [keys_insert, Finset.card_insert_of_notMem fun bound => unbound (Finmap.mem_keys.1 bound)]
    simp only [Call.onMap, if_neg unbound] at never
    refine ih nodup (fun other hm bound => ?_) (by omega) ?_ never
    · rcases Finmap.mem_insert.1 bound with rfl | bound
      · exact apart hm
      · exact fresh other (List.mem_cons_of_mem _ hm) bound
    · rw [List.length_cons] at lt
      omega

/-- The names `a`, `aa`, … of up to 15 letters. -/
theorem not_run_contained :
    ¬ ∀ calls : List Call, LegalCalls ∅ calls → Contained Mem.zero ∅ calls := by
  intro claim
  let letters (i : Fin 15) : Name := ⟨List.replicate (i + 1) 97, by simp; omega, by simp⟩
  have injective : Function.Injective letters := by
    intro i j same
    have lengths := congrArg (fun name : Name => name.1.length) same
    simp only [letters, List.length_replicate] at lengths
    omega
  have legal (names : List Name) : ∀ m : RootMap,
      LegalCalls m (names.map fun name => .insertRecord name 0) := by
    induction names with
    | nil => exact fun _ => trivial
    | cons name names ih => exact fun m => ⟨⟨le_rfl, by decide, by decide⟩, ih _⟩
  have contained := claim _ (legal (List.ofFn letters) ∅)
  rw [represents_zero.contained_iff _ (legal _ _)] at contained
  refine not_neverOverruns _ (List.nodup_ofFn.2 injective) ?_ (Nat.zero_le _) ?_ contained
  · exact fun name _ => Finmap.notMem_empty
  · rw [List.length_ofFn]
    decide

end ScuDb.HeaderPage
