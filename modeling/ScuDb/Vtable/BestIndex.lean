import ScuDb.Vtable.ConstructTuple

/-!
# The choice of an index scan

`VtabBestIndex` gives every usable equality on a key column its position among the constraints as
`argvIndex`, and asks for an index scan when there are as many of them as key columns.  It never
compares the order of the constraints with the order of the columns.
-/

namespace ScuDb

open ByteMem TupleData

/-- `sqlite3_index_constraint`. -/
structure IndexConstraint where
  iColumn : ℤ
  op : UInt8
  usable : UInt8

/-- The outputs of `sqlite3_index_info` that the planner sets; SQLite passes them zeroed. -/
structure IndexInfo where
  argvIndex : List ℕ
  idxNum : ℕ

/-- `SQLITE_INDEX_CONSTRAINT_EQ`. -/
def sqliteIndexConstraintEq : UInt8 := 2

/-- The constraint can be used and its column is in the key. -/
def onKey (keyAttrs : List ℤ) (c : IndexConstraint) : Bool :=
  c.usable ≠ 0 ∧ c.iColumn ∈ keyAttrs

/-- The loop of `VtabBestIndex` from constraint `i` on: the `argvIndex` values, `counter` and
`is_index_scan`. -/
def assignArgv (keyAttrs : List ℤ) : ℕ → List IndexConstraint → List ℕ × ℕ × Bool
  | _, [] => ([], 0, true)
  | i, c :: constraints =>
    if onKey keyAttrs c then
      if c.op ≠ sqliteIndexConstraintEq then (List.replicate (constraints.length + 1) 0, 0, false)
      else
        let (argvIndex, counter, isIndexScan) := assignArgv keyAttrs (i + 1) constraints
        ((i + 1) :: argvIndex, counter + 1, isIndexScan)
    else
      let (argvIndex, counter, isIndexScan) := assignArgv keyAttrs (i + 1) constraints
      (0 :: argvIndex, counter, isIndexScan)

/-- `VtabBestIndex`; `index` is the list of key columns, if the table has an index. -/
def vtabBestIndex (index : Option (List ℤ)) (constraints : List IndexConstraint) : IndexInfo :=
  let unused := List.replicate constraints.length 0
  match index with
  | none => ⟨unused, 0⟩
  | some keyAttrs =>
    if constraints.length ≠ keyAttrs.length then ⟨unused, 0⟩
    else
      let (argvIndex, counter, isIndexScan) := assignArgv keyAttrs 0 constraints
      ⟨argvIndex, if counter = keyAttrs.length ∧ isIndexScan then 1 else 0⟩

/-- The key `VtabFilter` scans for, if it scans the index. -/
def vtabFilter (keySchema : Schema) (idxNum : ℕ) (argv : List SqliteValue) (old : ℕ → Mem 8)
    (fresh : (n : ℕ) → Mem n) : Option (Except Failure TupleData) :=
  if idxNum = 1 then some (constructTuple keySchema argv old fresh) else none

/-! ## Sound plans -/

/-- The `argvIndex` values that are set. -/
def assigned (argvIndex : List ℕ) : List ℕ := argvIndex.filter (· ≠ 0)

/-- The `argv` of SQLite: the values of the constraints that have an `argvIndex`, ordered by it. -/
def passedArgv {α : Type} (argvIndex : List ℕ) (rhs : List α) : List α :=
  (((argvIndex.zip rhs).filter fun p => p.1 ≠ 0).mergeSort fun p q => p.1 ≤ q.1).map Prod.snd

/-- The values that usable equalities ask of a column. -/
def equalities (column : ℤ) (terms : List (IndexConstraint × SqliteValue)) : List SqliteValue :=
  (terms.filter fun t =>
    t.1.usable ≠ 0 ∧ t.1.op = sqliteIndexConstraintEq ∧ t.1.iColumn = column).map Prod.snd

/-- Whatever the values of the constraints are, the scan is for the key they ask for. -/
structure SoundPlan (keyAttrs : List ℤ) (constraints : List IndexConstraint) (info : IndexInfo) :
    Prop where
  argvIndex : ∃ n, (assigned info.argvIndex).Perm (List.range' 1 n)
  scanKey : info.idxNum = 1 → ∀ rhs : List SqliteValue, rhs.length = constraints.length →
    ∃ asked, List.Forall₂ (fun k v => equalities k (constraints.zip rhs) = [v]) keyAttrs asked ∧
      passedArgv info.argvIndex rhs = asked ∧
        ∀ keySchema old fresh, vtabFilter keySchema info.idxNum (passedArgv info.argvIndex rhs) old
          fresh = some (constructTuple keySchema asked old fresh)

/-- The constraints the loop reaches: it stops at a usable constraint on a key column that is not
an equality. -/
def reached (keyAttrs : List ℤ) (constraints : List IndexConstraint) : List IndexConstraint :=
  constraints.takeWhile fun c => !(onKey keyAttrs c && c.op ≠ sqliteIndexConstraintEq)

/-- The usable equalities on key columns come first, and if there is nothing else they are in key
order. -/
structure InKeyOrder (keyAttrs : List ℤ) (constraints : List IndexConstraint) : Prop where
  first : ∀ c ∈ (reached keyAttrs constraints).dropWhile (onKey keyAttrs), onKey keyAttrs c = false
  order : (∀ c ∈ constraints, onKey keyAttrs c = true ∧ c.op = sqliteIndexConstraintEq) →
    constraints.map IndexConstraint.iColumn = keyAttrs ∧ keyAttrs.Nodup

/-! ## The loop -/

variable {keyAttrs : List ℤ} {constraints : List IndexConstraint} {c : IndexConstraint}

@[simp] theorem assigned_zero (l : List ℕ) : assigned (0 :: l) = assigned l := rfl

@[simp] theorem assigned_succ (i : ℕ) (l : List ℕ) :
    assigned ((i + 1) :: l) = (i + 1) :: assigned l := rfl

@[simp] theorem assigned_replicate (n : ℕ) : assigned (List.replicate n 0) = [] := by
  simp [assigned]

/-- One step of the loop: nothing, the end, or the position of the constraint. -/
theorem assignArgv_cons (keyAttrs : List ℤ) (c : IndexConstraint)
    (constraints : List IndexConstraint) (i : ℕ) :
    (onKey keyAttrs c = false ∧ reached keyAttrs (c :: constraints) =
        c :: reached keyAttrs constraints ∧
      assignArgv keyAttrs i (c :: constraints) =
        (0 :: (assignArgv keyAttrs (i + 1) constraints).1,
          (assignArgv keyAttrs (i + 1) constraints).2)) ∨
    (onKey keyAttrs c = true ∧ c.op ≠ sqliteIndexConstraintEq ∧
      reached keyAttrs (c :: constraints) = [] ∧
      assignArgv keyAttrs i (c :: constraints) =
        (List.replicate (constraints.length + 1) 0, 0, false)) ∨
    (onKey keyAttrs c = true ∧ c.op = sqliteIndexConstraintEq ∧
      reached keyAttrs (c :: constraints) = c :: reached keyAttrs constraints ∧
      assignArgv keyAttrs i (c :: constraints) =
        ((i + 1) :: (assignArgv keyAttrs (i + 1) constraints).1,
          (assignArgv keyAttrs (i + 1) constraints).2.1 + 1,
          (assignArgv keyAttrs (i + 1) constraints).2.2)) := by
  cases h : onKey keyAttrs c with
  | false => exact .inl ⟨rfl, by simp [reached, h], by simp [assignArgv, h]⟩
  | true =>
    by_cases op : c.op = sqliteIndexConstraintEq
    · exact .inr (.inr ⟨rfl, op, by simp [reached, h, op], by simp [assignArgv, h, op]⟩)
    · exact .inr (.inl ⟨rfl, op, by simp [reached, h, op], by simp [assignArgv, h, op]⟩)

theorem lt_of_mem_assigned (constraints : List IndexConstraint) : ∀ {i n : ℕ},
    n ∈ assigned (assignArgv keyAttrs i constraints).1 → i < n := by
  induction constraints with
  | nil => exact nofun
  | cons c constraints ih =>
    intro i n hn
    obtain ⟨-, -, run⟩ | ⟨-, -, -, run⟩ | ⟨-, -, -, run⟩ :=
      assignArgv_cons keyAttrs c constraints i
    · rw [run, assigned_zero] at hn
      exact Nat.lt_of_succ_lt (ih hn)
    · rw [run, assigned_replicate] at hn
      cases hn
    · rw [run, assigned_succ] at hn
      rcases List.mem_cons.1 hn with rfl | hn
      · exact Nat.lt_succ_self i
      · exact Nat.lt_of_succ_lt (ih hn)

theorem pairwise_assigned (constraints : List IndexConstraint) : ∀ i,
    (assigned (assignArgv keyAttrs i constraints).1).Pairwise (· < ·) := by
  induction constraints with
  | nil => exact fun i => .nil
  | cons c constraints ih =>
    intro i
    obtain ⟨-, -, run⟩ | ⟨-, -, -, run⟩ | ⟨-, -, -, run⟩ :=
      assignArgv_cons keyAttrs c constraints i
    · rw [run, assigned_zero]
      exact ih (i + 1)
    · rw [run, assigned_replicate]
      exact .nil
    · rw [run, assigned_succ]
      exact List.pairwise_cons.2 ⟨fun n hn => lt_of_mem_assigned constraints hn, ih (i + 1)⟩

theorem assigned_eq_nil_iff (constraints : List IndexConstraint) : ∀ i,
    assigned (assignArgv keyAttrs i constraints).1 = [] ↔
      ∀ c ∈ reached keyAttrs constraints, onKey keyAttrs c = false := by
  induction constraints with
  | nil => exact fun i => iff_of_true rfl nofun
  | cons c constraints ih =>
    intro i
    obtain ⟨off, reach, run⟩ | ⟨-, -, reach, run⟩ | ⟨on, -, reach, run⟩ :=
      assignArgv_cons keyAttrs c constraints i
    · rw [run, reach, assigned_zero, List.forall_mem_cons, ih (i + 1)]
      exact (and_iff_right off).symm
    · rw [run, reach, assigned_replicate]
      exact iff_of_true rfl nofun
    · rw [run, reach, assigned_succ, List.forall_mem_cons, on]
      simp

/-- There is no gap exactly if the constraints that get a position come first. -/
theorem assigned_eq_range_iff (constraints : List IndexConstraint) : ∀ i,
    (∃ n, assigned (assignArgv keyAttrs i constraints).1 = List.range' (i + 1) n) ↔
      ∀ c ∈ (reached keyAttrs constraints).dropWhile (onKey keyAttrs),
        onKey keyAttrs c = false := by
  induction constraints with
  | nil => exact fun i => iff_of_true ⟨0, rfl⟩ nofun
  | cons c constraints ih =>
    intro i
    obtain ⟨off, reach, run⟩ | ⟨-, -, reach, run⟩ | ⟨on, -, reach, run⟩ :=
      assignArgv_cons keyAttrs c constraints i
    · rw [run, reach, assigned_zero, List.dropWhile_cons_of_neg (by simp [off]),
        List.forall_mem_cons, and_iff_right off, ← assigned_eq_nil_iff constraints (i + 1)]
      constructor
      · rintro ⟨n, range⟩
        cases n with
        | zero => exact range
        | succ n =>
          -- the position of `c` is skipped, so the range cannot begin with it
          have first : i + 1 ∈ assigned (assignArgv keyAttrs (i + 1) constraints).1 := by
            rw [range]
            exact List.mem_range'_1.2 ⟨le_rfl, by omega⟩
          exact absurd (lt_of_mem_assigned constraints first) (lt_irrefl _)
      · exact fun none => ⟨0, none⟩
    · rw [run, reach, assigned_replicate]
      exact iff_of_true ⟨0, rfl⟩ nofun
    · rw [run, reach, assigned_succ, List.dropWhile_cons_of_pos on, ← ih (i + 1)]
      constructor
      · rintro ⟨n, range⟩
        cases n with
        | zero => cases range
        | succ n =>
          rw [List.range'_succ] at range
          exact ⟨n, (List.cons.inj range).2⟩
      · rintro ⟨n, range⟩
        exact ⟨n + 1, by rw [range, List.range'_succ]⟩

theorem counter_le (constraints : List IndexConstraint) : ∀ i,
    (assignArgv keyAttrs i constraints).2.1 ≤ constraints.length := by
  induction constraints with
  | nil => exact fun i => le_rfl
  | cons c constraints ih =>
    intro i
    have rest := ih (i + 1)
    obtain ⟨-, -, run⟩ | ⟨-, -, -, run⟩ | ⟨-, -, -, run⟩ :=
      assignArgv_cons keyAttrs c constraints i
    all_goals
      rw [run, List.length_cons]
      dsimp only
      omega

/-- The loop counts every constraint exactly if each is a usable equality on a key column. -/
theorem counter_eq_length_iff (constraints : List IndexConstraint) : ∀ i,
    (assignArgv keyAttrs i constraints).2 = (constraints.length, true) ↔
      ∀ c ∈ constraints, onKey keyAttrs c = true ∧ c.op = sqliteIndexConstraintEq := by
  induction constraints with
  | nil => exact fun i => iff_of_true rfl nofun
  | cons c constraints ih =>
    intro i
    have rest := @counter_le keyAttrs constraints (i + 1)
    rw [List.forall_mem_cons, ← ih (i + 1)]
    obtain ⟨off, -, run⟩ | ⟨-, op, -, run⟩ | ⟨on, op, -, run⟩ :=
      assignArgv_cons keyAttrs c constraints i
    · rw [run, List.length_cons]
      refine iff_of_false (fun all => ?_) (by simp [off])
      have count := congrArg Prod.fst all
      dsimp only at count
      omega
    · rw [run]
      exact iff_of_false (by simp) (by simp [op])
    · rw [run, and_iff_right ⟨on, op⟩, Prod.ext_iff, Prod.ext_iff, List.length_cons]
      dsimp only
      rw [Nat.add_right_cancel_iff]

theorem argvIndex_eq_range (constraints : List IndexConstraint)
    (all : ∀ c ∈ constraints, onKey keyAttrs c = true ∧ c.op = sqliteIndexConstraintEq) :
    ∀ i, (assignArgv keyAttrs i constraints).1 = List.range' (i + 1) constraints.length := by
  induction constraints with
  | nil => exact fun i => rfl
  | cons c constraints ih =>
    intro i
    obtain ⟨⟨on, op⟩, rest⟩ := List.forall_mem_cons.1 all
    obtain ⟨off, -, -⟩ | ⟨-, op', -, -⟩ | ⟨-, -, -, run⟩ :=
      assignArgv_cons keyAttrs c constraints i
    · rw [on] at off
      cases off
    · exact absurd op op'
    · rw [run, ih rest, List.length_cons, List.range'_succ]

/-! ## The arguments of the scan -/

theorem passedArgv_range {α : Type} (rhs : List α) :
    passedArgv (List.range' 1 rhs.length) rhs = rhs := by
  have firsts : ((List.range' 1 rhs.length).zip rhs).map Prod.fst = List.range' 1 rhs.length :=
    List.map_fst_zip (by rw [List.length_range'])
  have sorted : ((List.range' 1 rhs.length).zip rhs).Pairwise fun p q => p.1 ≤ q.1 := by
    rw [← List.pairwise_map (R := (· ≤ ·)), firsts]
    exact (List.pairwise_lt_range' 1).imp Nat.le_of_lt
  unfold passedArgv
  rw [List.filter_eq_self.2, List.mergeSort_of_pairwise]
  · exact List.map_snd_zip (by rw [List.length_range'])
  · exact sorted.imp fun h => decide_eq_true h
  · intro p hp
    have := (List.mem_range'_1.1 (firsts ▸ List.mem_map_of_mem hp)).1
    exact decide_eq_true (by omega)

theorem filter_eq_singleton {α β : Type} [DecidableEq β] {f : α → β} {l : List α}
    (nodup : (l.map f).Nodup) : ∀ a ∈ l, l.filter (fun b => f b = f a) = [a] := by
  induction l with
  | nil => exact nofun
  | cons b l ih =>
    obtain ⟨fresh, rest⟩ := List.nodup_cons.1 nodup
    intro a ha
    rcases List.mem_cons.1 ha with rfl | ha
    · rw [List.filter_cons_of_pos (by simp), List.filter_eq_nil_iff.2]
      intro c hc
      simp only [decide_eq_true_eq]
      exact fun same => fresh (same ▸ List.mem_map_of_mem hc)
    · have other : f b ≠ f a := fun same => fresh (same ▸ List.mem_map_of_mem ha)
      rw [List.filter_cons_of_neg (by simpa using other)]
      exact ih rest a ha

section Asked

variable (all : ∀ c ∈ constraints, onKey keyAttrs c = true ∧ c.op = sqliteIndexConstraintEq)
  {rhs : List SqliteValue}

include all

theorem equalities_eq (column : ℤ) : equalities column (constraints.zip rhs) =
    ((constraints.zip rhs).filter fun t => t.1.iColumn = column).map Prod.snd := by
  unfold equalities
  congr 1
  apply List.filter_congr
  intro t ht
  obtain ⟨on, op⟩ := all t.1 (List.of_mem_zip ht).1
  have usable : t.1.usable ≠ 0 := (of_decide_eq_true on).1
  simp [usable, op]

/-- In key order, every column is asked for the value in its place. -/
theorem asked_of_order (order : constraints.map IndexConstraint.iColumn = keyAttrs)
    (nodup : keyAttrs.Nodup) (length : rhs.length = constraints.length) :
    List.Forall₂ (fun k v => equalities k (constraints.zip rhs) = [v]) keyAttrs rhs := by
  have columns : keyAttrs = (constraints.zip rhs).map fun t => t.1.iColumn := by
    rw [← order, ← List.map_fst_zip length.ge, List.map_map, List.map_fst_zip length.ge]
    rfl
  have each : ∀ t ∈ constraints.zip rhs,
      equalities t.1.iColumn (constraints.zip rhs) = [t.2] := by
    intro t ht
    rw [equalities_eq all, filter_eq_singleton (columns ▸ nodup) t ht]
    rfl
  have zipped : List.Forall₂ (fun k v => equalities k (constraints.zip rhs) = [v])
      ((constraints.zip rhs).map fun t => t.1.iColumn) ((constraints.zip rhs).map Prod.snd) := by
    rw [List.forall₂_map_left_iff, List.forall₂_map_right_iff, List.forall₂_same]
    exact each
  rwa [← columns, List.map_snd_zip length.le] at zipped

/-- If every column is asked for the value in its place, whatever the values are, the constraints
are in key order: a value that only constraint `j` has tells where it is passed. -/
theorem order_of_asked (length : constraints.length = keyAttrs.length)
    (asked : ∀ rhs : List SqliteValue, rhs.length = constraints.length →
      List.Forall₂ (fun k v => equalities k (constraints.zip rhs) = [v]) keyAttrs rhs) :
    constraints.map IndexConstraint.iColumn = keyAttrs ∧ keyAttrs.Nodup := by
  have differ : textValue 0 ≠ textValue 1 := by
    intro same
    cases congrArg SqliteValue.text same
  have place (j m : ℕ) (hj : j < constraints.length) (hm : m < keyAttrs.length)
      (column : keyAttrs[m] = constraints[j].iColumn) : m = j := by
    by_contra ne
    set rhs := (List.range constraints.length).map fun i =>
      if i = j then textValue 1 else textValue 0 with hrhs
    have size : rhs.length = constraints.length := by rw [hrhs, List.length_map, List.length_range]
    have at_m := (asked rhs size).get hm (by omega)
    simp only [List.get_eq_getElem] at at_m
    have mem : textValue 1 ∈ equalities keyAttrs[m] (constraints.zip rhs) := by
      rw [equalities_eq all, column]
      refine List.mem_map.2 ⟨(constraints[j], rhs[j]), List.mem_filter.2 ⟨?_, by simp⟩, ?_⟩
      · exact List.mem_iff_getElem.2 ⟨j, by simp; omega, List.getElem_zip⟩
      · simp [hrhs]
    have other : rhs[m] = textValue 0 := by simp [hrhs, ne]
    rw [at_m, List.mem_singleton, other] at mem
    exact differ mem.symm
  have order : constraints.map IndexConstraint.iColumn = keyAttrs := by
    apply List.ext_getElem (by rw [List.length_map, length])
    intro j hj hj'
    rw [List.getElem_map]
    rw [List.length_map] at hj
    have member : constraints[j].iColumn ∈ keyAttrs :=
      (of_decide_eq_true (all _ (List.getElem_mem hj)).1).2
    obtain ⟨m, hm, column⟩ := List.getElem_of_mem member
    cases place j m hj hm column
    exact column.symm
  refine ⟨order, List.nodup_iff_injective_getElem.2 fun a b same => ?_⟩
  change keyAttrs[a.1] = keyAttrs[b.1] at same
  have ha : a.1 < constraints.length := a.2.trans_eq length.symm
  have column : keyAttrs[b.1] = constraints[a.1].iColumn := by
    rw [← same, ← List.getElem_map IndexConstraint.iColumn]
    exact List.getElem_of_eq order.symm _
  exact Fin.ext (place a.1 b.1 ha b.2 column).symm

end Asked

theorem argvIndex_iff (keyAttrs : List ℤ) (constraints : List IndexConstraint) :
    (∃ n, (assigned (assignArgv keyAttrs 0 constraints).1).Perm (List.range' 1 n)) ↔
      ∀ c ∈ (reached keyAttrs constraints).dropWhile (onKey keyAttrs),
        onKey keyAttrs c = false := by
  rw [← assigned_eq_range_iff constraints 0]
  apply exists_congr
  intro n
  refine ⟨fun perm => ?_, fun same => same ▸ .refl _⟩
  exact perm.eq_of_pairwise (fun a b _ _ h h' => absurd (h.trans h') (lt_irrefl a))
    (pairwise_assigned constraints 0) (List.pairwise_lt_range' 1)

theorem soundPlan_unused (keyAttrs : List ℤ) (constraints : List IndexConstraint) :
    SoundPlan keyAttrs constraints ⟨List.replicate constraints.length 0, 0⟩ where
  argvIndex := ⟨0, by rw [assigned_replicate]; rfl⟩
  scanKey := nofun

theorem soundPlan_assigned (length : constraints.length = keyAttrs.length) :
    SoundPlan keyAttrs constraints ⟨(assignArgv keyAttrs 0 constraints).1,
        if (assignArgv keyAttrs 0 constraints).2.1 = keyAttrs.length ∧
          (assignArgv keyAttrs 0 constraints).2.2 then 1 else 0⟩ ↔
      InKeyOrder keyAttrs constraints := by
  have counted := @counter_eq_length_iff keyAttrs constraints 0
  rw [length, Prod.ext_iff] at counted
  by_cases all : ∀ c ∈ constraints, onKey keyAttrs c = true ∧ c.op = sqliteIndexConstraintEq
  · have range := argvIndex_eq_range constraints all 0
    have passed (rhs : List SqliteValue) (size : rhs.length = constraints.length) :
        passedArgv (assignArgv keyAttrs 0 constraints).1 rhs = rhs := by
      rw [range, ← size]
      exact passedArgv_range rhs
    rw [if_pos (counted.2 all)]
    constructor
    · rintro ⟨gapless, scanKey⟩
      refine ⟨(argvIndex_iff _ _).1 gapless, fun _ => order_of_asked all length ?_⟩
      intro rhs size
      obtain ⟨asked, each, rfl, -⟩ := scanKey rfl rhs size
      rwa [passed rhs size] at each
    · rintro ⟨first, order⟩
      refine ⟨(argvIndex_iff _ _).2 first, fun _ rhs size => ⟨rhs, ?_, passed rhs size, ?_⟩⟩
      · exact asked_of_order all (order all).1 (order all).2 size
      · intro keySchema old fresh
        rw [passed rhs size]
        rfl
  · rw [if_neg (mt counted.1 all)]
    constructor
    · exact fun sound => ⟨(argvIndex_iff _ _).1 sound.argvIndex, fun h => absurd h all⟩
    · exact fun order => ⟨(argvIndex_iff _ _).2 order.first, nofun⟩

/-- The plan is sound exactly if there are fewer or more constraints than key columns, or they come
in key order. -/
theorem soundPlan_iff (index : Option (List ℤ)) (constraints : List IndexConstraint) :
    SoundPlan (index.getD []) constraints (vtabBestIndex index constraints) ↔
      ∀ keyAttrs ∈ index, constraints.length = keyAttrs.length →
        InKeyOrder keyAttrs constraints := by
  cases index with
  | none => exact iff_of_true (soundPlan_unused _ _) nofun
  | some keyAttrs =>
    unfold vtabBestIndex
    dsimp only
    by_cases length : constraints.length = keyAttrs.length
    · rw [if_neg (not_not.2 length)]
      change SoundPlan keyAttrs constraints ⟨(assignArgv keyAttrs 0 constraints).1, _⟩ ↔ _
      rw [soundPlan_assigned length]
      exact ⟨fun h _ same _ => Option.some.inj same ▸ h, fun h => h keyAttrs rfl length⟩
    · rw [if_pos length]
      refine iff_of_true (soundPlan_unused _ _) ?_
      rintro _ ⟨⟩ same
      exact absurd same length

/-- With an index on columns 0 and 1, `b = 2 AND a = 1` scans for `(2, 1)`. -/
theorem not_soundPlan : ¬ ∀ (index : Option (List ℤ)) (constraints : List IndexConstraint),
    SoundPlan (index.getD []) constraints (vtabBestIndex index constraints) := by
  intro claim
  have sound := claim (some [0, 1]) [⟨1, 2, 1⟩, ⟨0, 2, 1⟩]
  have order := ((soundPlan_assigned rfl).1 sound).order (by decide)
  exact absurd order.1 (by decide)

end ScuDb
