import ScuDb.Index.InsertStored
import ScuDb.Index.SearchLoops

/-!
# The integrity checker

`isPageCorr` reports the first and last key of a page to the page above.  For an internal page
these are keys of the page itself, not of the leaves below it, so that the order of the leaves is
checked below the lowest internal pages only; and a leaf may repeat a key.
-/

namespace ScuDb

open Program SlotArray

variable {K V : Type}

namespace BPlusTree

variable (tree : BPlusTree K)

/-! ## The checker -/

/-- The loop of `isBalanced` over the children from `rest` on. -/
def balancedChildren (isBalanced : PageId → TreeM K V ℤ) (page : InternalPage K) :
    List ℕ → ℤ → ℤ → TreeM K V ℤ
  | [], _, ret => return ret
  | i :: rest, last, ret => do
    let cur ← isBalanced (← page.valueAt tree.keySize i)
    if cur ≥ 0 ∧ last = -2 then balancedChildren isBalanced page rest cur (cur + 1)
    else if last ≠ cur then return -1
    else balancedChildren isBalanced page rest last ret

/-- `isBalanced`. -/
def isBalanced : ℕ → PageId → TreeM K V ℤ
  | 0, _ => throw .diverges
  | fuel + 1, pid => do
    if (← read).rootPageId = invalidPageId then return 1
    fetchPage pid
    let ret ← match ← getPage pid with
      | .raw _ => throw .wrongPageType
      | .leaf _ => pure 0
      | .internal page =>
        tree.balancedChildren (isBalanced fuel) page (List.range page.size) (-2) 0
    unpinPage pid false
    return ret

/-- The check of the first child, in the first round of the loop of `isPageCorr`. -/
def corrFirst (isPageCorr : PageId → K × K → TreeM K V (Bool × (K × K)))
    (page : InternalPage K) (i : ℕ) (left : K × K) : TreeM K V (Bool × (K × K)) :=
  if i = 1 then do isPageCorr (← page.valueAt tree.keySize 0) left else return (true, left)

/-- The loop of `isPageCorr` over the children from `rest` on; `left` is the range of the child
before. -/
def corrChildren (isPageCorr : PageId → K × K → TreeM K V (Bool × (K × K)))
    (page : InternalPage K) : List ℕ → K × K → K × K → TreeM K V Bool
  | [], _, _ => return true
  | i :: rest, left, right => do
    let (ret, left) ← tree.corrFirst isPageCorr page i left
    if !ret then return false
    let (ret, right) ← isPageCorr (← page.valueAt tree.keySize i) right
    if !ret then return false
    let key ← page.keyAt tree.keySize i
    if ¬ (tree.comparator key left.2 > 0 ∧ tree.comparator key right.1 ≤ 0) then return false
    if ¬ (i = 1 ∨ tree.comparator (← page.keyAt tree.keySize (i - 1)) key < 0) then return false
    corrChildren isPageCorr page rest right right

/-- The keys of a leaf do not descend. -/
def corrLeaf (page : LeafPage K V) : List ℕ → Except Fault Bool
  | [] => .ok true
  | i :: rest => do
    if tree.comparator (← page.keyAt (i - 1)) (← page.keyAt i) > 0 then return false
    corrLeaf page rest

/-- The loop of `isPageCorr` over all children, if the size of the page is right. -/
def corrInternal [Inhabited K] (isPageCorr : PageId → K × K → TreeM K V (Bool × (K × K)))
    (page : InternalPage K) : TreeM K V Bool :=
  if page.getMinSize false ≤ page.size ∧ page.size ≤ page.maxSize then
    tree.corrChildren isPageCorr page ((List.range page.size).drop 1) default default
  else return false

/-- The two cases of `isPageCorr`, with what they leave in `out`. -/
def corrPage [Inhabited K] (isPageCorr : PageId → K × K → TreeM K V (Bool × (K × K))) :
    IndexPage K V → TreeM K V (Bool × (K × K))
  | .raw _ => throw .wrongPageType
  | .leaf page => do
    let ret := page.getMinSize true ≤ page.size ∧ page.size ≤ page.maxSize
    let sorted ← tree.corrLeaf page ((List.range page.size).drop 1)
    return (decide ret && sorted, (← page.keyAt 0, ← page.keyAt (page.size - 1)))
  | .internal page => do
    let ret ← tree.corrInternal isPageCorr page
    return (ret, (← page.keyAt tree.keySize 0, ← page.keyAt tree.keySize (page.size - 1)))

/-- `isPageCorr`, with what it leaves in `out`. -/
def isPageCorr [Inhabited K] : ℕ → PageId → K × K → TreeM K V (Bool × (K × K))
  | 0, _, _ => throw .diverges
  | fuel + 1, pid, out => do
    if (← read).rootPageId = invalidPageId then return (true, out)
    fetchPage pid .exception
    let ret ← tree.corrPage (isPageCorr fuel) (← getPage pid)
    unpinPage pid false
    return ret

/-! ## Leaves and paths -/

/-- The keys of a leaf page. -/
def leafKeys (page : LeafPage K V) : List K := (entries page.array page.size).map Prod.fst

section Pages

variable (content : PageId → IndexPage K V) (comparator : K → K → ℤ)

/-- The leaves below a page, from left to right. -/
def leavesBelow : ℕ → PageId → List (PageId × LeafPage K V)
  | 0, _ => []
  | fuel + 1, p =>
    match content p with
    | .raw _ => []
    | .leaf page => [(p, page)]
    | .internal page => (entries page.array page.size).flatMap fun e => leavesBelow fuel e.2

/-- The keys of these leaves. -/
def keysBelow (fuel : ℕ) (p : PageId) : List K :=
  (leavesBelow content fuel p).flatMap fun l => leafKeys l.2

/-- The loop of `FindLeafPage` on the pages alone. -/
def leafFor (key : K) : ℕ → PageId → Except Fault PageId
  | 0, _ => .error .diverges
  | fuel + 1, p =>
    match content p with
    | .raw _ => .error .wrongPageType
    | .leaf _ => .ok p
    | .internal page => do leafFor key fuel (← page.lookup comparator key)

/-- The leaf keys ascend strictly and every key leads to its leaf. -/
structure SoundBelow [LinearOrder K] (fuel : ℕ) (p : PageId) : Prop where
  sorted : (keysBelow content fuel p).Pairwise (· < ·)
  reached : ∀ l ∈ leavesBelow content fuel p, ∀ k ∈ leafKeys l.2,
    leafFor content comparator k fuel p = .ok l.1

/-- The separators of an internal page bound the leaf keys below it. -/
def BoundsLeaves [LinearOrder K] (fuel : ℕ) (page : InternalPage K) : Prop :=
  ∀ i, i + 1 < page.size →
    (∀ k ∈ keysBelow content fuel (page.array i).2, k < (page.array (i + 1)).1) ∧
      ∀ k ∈ keysBelow content fuel (page.array (i + 1)).2, (page.array (i + 1)).1 ≤ k

/-- The separators of every page that has an internal page as a child bound the leaf keys. -/
def SeparatedBelow [LinearOrder K] : ℕ → PageId → Prop
  | 0, _ => True
  | fuel + 1, p =>
    match content p with
    | .internal page => (∀ i < page.size, SeparatedBelow fuel (page.array i).2) ∧
        ((∃ i < page.size, (content (page.array i).2).isLeafPage = false) →
          BoundsLeaves content fuel page)
    | _ => True

/-- No leaf repeats a key next to itself. -/
def NoRepeat (fuel : ℕ) (p : PageId) : Prop :=
  ∀ l ∈ leavesBelow content fuel p, ∀ i, i + 1 < l.2.size → (l.2.array i).1 ≠ (l.2.array (i + 1)).1

/-- What `isPageCorr` has seen when it returns `true` and `out`. -/
def Checked [LinearOrder K] : ℕ → PageId → K × K → Prop
  | 0, _, _ => False
  | fuel + 1, p, out =>
    match content p with
    | .raw _ => False
    | .leaf page => (∀ i, i + 1 < page.size → (page.array i).1 ≤ (page.array (i + 1)).1) ∧
        0 < page.size ∧ out = ((page.array 0).1, (page.array (page.size - 1)).1)
    | .internal page => 2 ≤ page.size ∧
        (∀ i, 1 ≤ i → i + 1 < page.size → (page.array i).1 < (page.array (i + 1)).1) ∧
        ∃ range : ℕ → K × K, (∀ i < page.size, Checked fuel (page.array i).2 (range i)) ∧
          ∀ i, i + 1 < page.size →
            (range i).2 < (page.array (i + 1)).1 ∧ (page.array (i + 1)).1 ≤ (range (i + 1)).1

end Pages

section Soundness

variable {content : PageId → IndexPage K V} {comparator : K → K → ℤ} {fuel : ℕ} {p : PageId}
  {out : K × K}

theorem keysBelow_leaf {page : LeafPage K V} (hp : content p = .leaf page) :
    keysBelow content (fuel + 1) p = leafKeys page := by
  simp [keysBelow, leavesBelow, hp]

theorem keysBelow_internal {page : InternalPage K} (hp : content p = .internal page) :
    keysBelow content (fuel + 1) p =
      (entries page.array page.size).flatMap fun e => keysBelow content fuel e.2 := by
  simp only [keysBelow, leavesBelow, hp, List.flatMap_assoc]

theorem mem_leavesBelow_internal {page : InternalPage K} (hp : content p = .internal page)
    {l : PageId × LeafPage K V} : l ∈ leavesBelow content (fuel + 1) p ↔
      ∃ i < page.size, l ∈ leavesBelow content fuel (page.array i).2 := by
  simp only [leavesBelow, hp, List.mem_flatMap, mem_entries]
  constructor
  · rintro ⟨e, ⟨i, hi, rfl⟩, mem⟩
    exact ⟨i, hi, mem⟩
  · rintro ⟨i, hi, mem⟩
    exact ⟨_, ⟨i, hi, rfl⟩, mem⟩

theorem mem_keysBelow {k : K} : k ∈ keysBelow content fuel p ↔
    ∃ l ∈ leavesBelow content fuel p, k ∈ leafKeys l.2 := List.mem_flatMap

theorem mem_leafKeys {page : LeafPage K V} {k : K} :
    k ∈ leafKeys page ↔ ∃ i < page.size, (page.array i).1 = k := by
  unfold leafKeys
  simp only [List.mem_map, mem_entries]
  constructor
  · rintro ⟨e, ⟨i, hi, rfl⟩, rfl⟩
    exact ⟨i, hi, rfl⟩
  · rintro ⟨i, hi, rfl⟩
    exact ⟨_, ⟨i, hi, rfl⟩, rfl⟩

theorem leafFor_internal {page : InternalPage K} (hp : content p = .internal page) {k : K}
    {q : PageId} (next : page.lookup comparator k = .ok q) :
    leafFor content comparator k (fuel + 1) p = leafFor content comparator k fuel q := by
  rw [leafFor, hp]
  dsimp only
  rw [next]
  rfl

theorem lookup_mem {page : InternalPage K} {k : K} {q : PageId}
    (run : page.lookup comparator k = .ok q) : ∃ i < page.size, (page.array i).2 = q := by
  by_cases size : page.size > 1
  · unfold InternalPage.lookup at run
    rw [assert_pos size] at run
    have le := (BinarySearch.search_le (fun i => decide (comparator (page.array i).1 k ≤ 0))
      page.size (show 1 ≤ page.size by omega))
    exact ⟨_, by omega, Except.ok.inj run⟩
  · unfold InternalPage.lookup at run
    rw [assert_neg size] at run
    cases run

/-- A search ends at a leaf below. -/
theorem mem_of_leafFor {k : K} {q : PageId} : ∀ {fuel : ℕ} {p : PageId},
    leafFor content comparator k fuel p = .ok q →
      ∃ page, (q, page) ∈ leavesBelow content fuel p := by
  intro fuel
  induction fuel with
  | zero => exact nofun
  | succ fuel ih =>
    intro p run
    cases hp : content p with
    | raw data => simp [leafFor, hp] at run
    | leaf page =>
      obtain rfl : p = q := by simpa [leafFor, hp] using run
      exact ⟨page, by simp [leavesBelow, hp]⟩
    | internal page =>
      cases next : page.lookup comparator k with
      | error e =>
        rw [leafFor, hp] at run
        dsimp only at run
        rw [next] at run
        cases run
      | ok r =>
        rw [leafFor_internal hp next] at run
        obtain ⟨i, hi, rfl⟩ := lookup_mem next
        obtain ⟨leaf, mem⟩ := ih run
        exact ⟨leaf, (mem_leavesBelow_internal hp).2 ⟨i, hi, mem⟩⟩

theorem content_of_mem : ∀ {fuel : ℕ} {p : PageId} {l : PageId × LeafPage K V},
    l ∈ leavesBelow content fuel p → content l.1 = .leaf l.2 := by
  intro fuel
  induction fuel with
  | zero => exact nofun
  | succ fuel ih =>
    intro p l hl
    cases hp : content p with
    | raw data => simp [leavesBelow, hp] at hl
    | leaf page =>
      obtain rfl : l = (p, page) := by simpa [leavesBelow, hp] using hl
      exact hp
    | internal page =>
      obtain ⟨i, -, hl⟩ := (mem_leavesBelow_internal hp).1 hl
      exact ih hl

variable [LinearOrder K]

/-- The keys below an internal page ascend if they do below each child and across them. -/
theorem pairwise_keysBelow {page : InternalPage K} (hp : content p = .internal page) :
    (keysBelow content (fuel + 1) p).Pairwise (· < ·) ↔
      (∀ i < page.size, (keysBelow content fuel (page.array i).2).Pairwise (· < ·)) ∧
      ∀ i j, i < j → j < page.size → ∀ k ∈ keysBelow content fuel (page.array i).2,
        ∀ k' ∈ keysBelow content fuel (page.array j).2, k < k' := by
  rw [keysBelow_internal hp, List.pairwise_flatMap, pairwise_entries]
  simp only [mem_entries]
  refine and_congr_left fun _ => ⟨fun h i hi => h _ ⟨i, hi, rfl⟩, ?_⟩
  rintro h e ⟨i, hi, rfl⟩
  exact h i hi

theorem Checked.internal {page : InternalPage K} (h : Checked content (fuel + 1) p out)
    (hp : content p = .internal page) : 2 ≤ page.size ∧
      (∀ i j, 1 ≤ i → i < j → j < page.size → (page.array i).1 < (page.array j).1) ∧
      ∃ range : ℕ → K × K, (∀ i < page.size, Checked content fuel (page.array i).2 (range i)) ∧
        ∀ i, i + 1 < page.size →
          (range i).2 < (page.array (i + 1)).1 ∧ (page.array (i + 1)).1 ≤ (range (i + 1)).1 := by
  unfold Checked at h
  rw [hp] at h
  obtain ⟨size, next, rest⟩ := h
  exact ⟨size, fun i j hi => rel_of_neighbours (fun i => (page.array i).1) page.size next hi, rest⟩

/-- The range of a leaf that passed. -/
theorem Checked.leaf_range (h : Checked content fuel p out)
    (leaf : (content p).isLeafPage = true) :
    ∀ k ∈ keysBelow content fuel p, out.1 ≤ k ∧ k ≤ out.2 := by
  cases fuel with
  | zero => exact h.elim
  | succ fuel =>
    unfold Checked at h
    cases hp : content p with
    | raw data => simp [hp, IndexPage.isLeafPage] at leaf
    | internal page => simp [hp, IndexPage.isLeafPage] at leaf
    | leaf page =>
      rw [hp] at h
      obtain ⟨next, pos, rfl⟩ := h
      intro k hk
      rw [keysBelow_leaf hp, mem_leafKeys] at hk
      obtain ⟨i, hi, rfl⟩ := hk
      have ordered {i j : ℕ} (le : i ≤ j) (hj : j < page.size) :
          (page.array i).1 ≤ (page.array j).1 := by
        rcases le.eq_or_lt with rfl | lt
        · exact le_rfl
        · exact rel_of_neighbours (fun i => (page.array i).1) page.size (fun i _ => next i)
            (Nat.zero_le i) lt hj
      exact ⟨ordered (Nat.zero_le i) hi, ordered (by omega) (by omega)⟩

theorem boundsLeaves_of_checked {page : InternalPage K} (h : Checked content (fuel + 1) p out)
    (hp : content p = .internal page) (separated : SeparatedBelow content (fuel + 1) p) :
    BoundsLeaves content fuel page := by
  unfold SeparatedBelow at separated
  rw [hp] at separated
  by_cases inner : ∃ i < page.size, (content (page.array i).2).isLeafPage = false
  · exact separated.2 inner
  · -- all children are leaves, whose first and last keys were compared
    obtain ⟨-, -, range, checked, bounds⟩ := h.internal hp
    have leaf (i : ℕ) (hi : i < page.size) : (content (page.array i).2).isLeafPage = true := by
      rw [← Bool.not_eq_false]
      exact fun internal => inner ⟨i, hi, internal⟩
    intro i hi
    constructor
    · intro k hk
      have le := ((checked i (by omega)).leaf_range (leaf i (by omega)) k hk).2
      exact le.trans_lt (bounds i hi).1
    · intro k hk
      have le := ((checked (i + 1) hi).leaf_range (leaf (i + 1) hi) k hk).1
      exact (bounds i hi).2.trans le

/-- The separators bound the keys, so a key is looked for in the child it is in. -/
theorem lookup_child (orders : Orders comparator) {page : InternalPage K} (size : 2 ≤ page.size)
    (sorted : ∀ i j, 1 ≤ i → i < j → j < page.size → (page.array i).1 < (page.array j).1)
    (bounds : BoundsLeaves content fuel page) {i : ℕ} (hi : i < page.size) {k : K}
    (hk : k ∈ keysBelow content fuel (page.array i).2) :
    page.lookup comparator k = .ok (page.array i).2 := by
  obtain ⟨j, hj, run, below, above⟩ := InternalPage.lookup_spec orders size sorted k
  rcases lt_trichotomy i j with lt | rfl | lt
  · have right := (bounds i (by omega)).1 k hk
    exact absurd (below (i + 1) (by omega) lt) (not_le.2 right)
  · exact run
  · obtain ⟨i, rfl⟩ : ∃ i', i = i' + 1 := ⟨i - 1, by omega⟩
    exact absurd ((bounds i hi).2 k hk) (not_le.2 (above (i + 1) lt hi))

theorem soundBelow_of_separated (orders : Orders comparator) : ∀ {fuel : ℕ} {p : PageId}
    {out : K × K}, Checked content fuel p out → SeparatedBelow content fuel p →
    NoRepeat content fuel p → SoundBelow content comparator fuel p := by
  intro fuel
  induction fuel with
  | zero => exact fun h _ _ => h.elim
  | succ fuel ih =>
    intro p out h separated noRepeat
    cases hp : content p with
    | raw data =>
      unfold Checked at h
      rw [hp] at h
      exact h.elim
    | leaf page =>
      unfold Checked at h
      rw [hp] at h
      refine ⟨?_, fun l hl k _ => ?_⟩
      · rw [keysBelow_leaf hp, leafKeys, map_entries, pairwise_entries]
        intro i j lt hj
        refine rel_of_neighbours (fun i => (page.array i).1) page.size (fun i _ hi => ?_)
          (Nat.zero_le i) lt hj
        exact (h.1 i hi).lt_of_ne (noRepeat (p, page) (by simp [leavesBelow, hp]) i hi)
      · obtain rfl : l = (p, page) := by simpa [leavesBelow, hp] using hl
        simp [leafFor, hp]
    | internal page =>
      obtain ⟨size, sorted, range, checked, -⟩ := h.internal hp
      have bounds := boundsLeaves_of_checked h hp separated
      unfold SeparatedBelow at separated
      rw [hp] at separated
      have below (i : ℕ) (hi : i < page.size) :
          SoundBelow content comparator fuel (page.array i).2 :=
        ih (checked i hi) (separated.1 i hi) fun l hl =>
          noRepeat l ((mem_leavesBelow_internal hp).2 ⟨i, hi, hl⟩)
      refine ⟨(pairwise_keysBelow hp).2 ⟨fun i hi => (below i hi).sorted, ?_⟩, ?_⟩
      · intro i j lt hj k hk k' hk'
        have left := (bounds i (by omega)).1 k hk
        obtain ⟨j, rfl⟩ : ∃ j', j = j' + 1 := ⟨j - 1, by omega⟩
        have right := (bounds j hj).2 k' hk'
        rcases (Nat.le_of_lt_succ lt).eq_or_lt with rfl | lt
        · exact left.trans_le right
        · exact (left.trans (sorted (i + 1) (j + 1) (by omega) (by omega) hj)).trans_le right
      · intro l hl k hk
        obtain ⟨i, hi, hl⟩ := (mem_leavesBelow_internal hp).1 hl
        rw [leafFor_internal hp (lookup_child orders size sorted bounds hi
          (mem_keysBelow.2 ⟨l, hl, hk⟩))]
        exact (below i hi).reached l hl k hk

/-- A search that finds the leaf of `k` goes to the child the key is in. -/
theorem child_of_leafFor {page : InternalPage K}
    (across : ∀ i j, i < j → j < page.size → ∀ k ∈ keysBelow content fuel (page.array i).2,
      ∀ k' ∈ keysBelow content fuel (page.array j).2, k < k')
    {i j : ℕ} (hi : i < page.size) (hj : j < page.size) {k : K} {l : PageId × LeafPage K V}
    (hl : l ∈ leavesBelow content fuel (page.array i).2) (hk : k ∈ leafKeys l.2)
    (run : leafFor content comparator k fuel (page.array j).2 = .ok l.1) : i = j := by
  obtain ⟨leaf, mem⟩ := mem_of_leafFor run
  have same : leaf = l.2 := by
    have here : content l.1 = .leaf leaf := content_of_mem mem
    rw [content_of_mem hl] at here
    exact (IndexPage.leaf.inj here).symm
  have left := mem_keysBelow.2 ⟨l, hl, hk⟩
  have right : k ∈ keysBelow content fuel (page.array j).2 :=
    mem_keysBelow.2 ⟨_, mem, same ▸ hk⟩
  rcases lt_trichotomy i j with lt | rfl | lt
  · exact absurd (across i j lt hj k left k right) (lt_irrefl k)
  · rfl
  · exact absurd (across j i lt hi k right k left) (lt_irrefl k)

theorem noRepeat_of_sorted : ∀ {fuel : ℕ} {p : PageId},
    (keysBelow content fuel p).Pairwise (· < ·) → NoRepeat content fuel p := by
  intro fuel
  induction fuel with
  | zero => exact fun _ => nofun
  | succ fuel ih =>
    intro p sorted l hl i hi
    cases hp : content p with
    | raw data => simp [leavesBelow, hp] at hl
    | leaf page =>
      obtain rfl : l = (p, page) := by simpa [leavesBelow, hp] using hl
      rw [keysBelow_leaf hp, leafKeys, map_entries, pairwise_entries] at sorted
      exact (sorted i (i + 1) (Nat.lt_succ_self i) hi).ne
    | internal page =>
      obtain ⟨j, hj, hl⟩ := (mem_leavesBelow_internal hp).1 hl
      exact ih (((pairwise_keysBelow hp).1 sorted).1 j hj) l hl i hi

theorem separated_of_soundBelow (orders : Orders comparator) : ∀ {fuel : ℕ} {p : PageId}
    {out : K × K}, Checked content fuel p out → SoundBelow content comparator fuel p →
    SeparatedBelow content fuel p := by
  intro fuel
  induction fuel with
  | zero => exact fun h _ => h.elim
  | succ fuel ih =>
    intro p out h sound
    unfold SeparatedBelow
    cases hp : content p with
    | raw data => trivial
    | leaf page => trivial
    | internal page =>
      obtain ⟨size, sorted, range, checked, -⟩ := h.internal hp
      obtain ⟨inside, across⟩ := (pairwise_keysBelow hp).1 sound.sorted
      -- where `Lookup` sends a key that is below child `i`
      have routed (i : ℕ) (hi : i < page.size) (l) (hl : l ∈ leavesBelow content fuel
          (page.array i).2) (k : K) (hk : k ∈ leafKeys l.2) :
          leafFor content comparator k fuel (page.array i).2 = .ok l.1 ∧
            (∀ j, 1 ≤ j → j ≤ i → (page.array j).1 ≤ k) ∧
              ∀ j, i < j → j < page.size → k < (page.array j).1 := by
        obtain ⟨j, hj, run, bounds⟩ := InternalPage.lookup_spec orders size sorted k
        have reached := sound.reached l ((mem_leavesBelow_internal hp).2 ⟨i, hi, hl⟩) k hk
        rw [leafFor_internal hp run] at reached
        obtain rfl := child_of_leafFor across hi hj hl hk reached
        exact ⟨reached, bounds⟩
      refine ⟨fun i hi => ih (checked i hi) ⟨inside i hi, fun l hl k hk => ?_⟩, fun _ i hi => ?_⟩
      · exact (routed i hi l hl k hk).1
      · constructor
        · intro k hk
          obtain ⟨l, hl, hk⟩ := mem_keysBelow.1 hk
          exact (routed i (by omega) l hl k hk).2.2 (i + 1) (Nat.lt_succ_self i) hi
        · intro k hk
          obtain ⟨l, hl, hk⟩ := mem_keysBelow.1 hk
          exact (routed (i + 1) hi l hl k hk).2.1 (i + 1) (by omega) le_rfl

/-- A checked tree is sound exactly if no leaf repeats a key and the separators above internal
pages bound the leaf keys. -/
theorem soundBelow_iff (orders : Orders comparator) (h : Checked content fuel p out) :
    SoundBelow content comparator fuel p ↔
      NoRepeat content fuel p ∧ SeparatedBelow content fuel p :=
  ⟨fun sound => ⟨noRepeat_of_sorted sound.sorted, separated_of_soundBelow orders h sound⟩,
    fun ⟨noRepeat, separated⟩ => soundBelow_of_separated orders h separated noRepeat⟩

end Soundness

/-! ## What the checker has seen -/

section Runs

variable {tree} {content : PageId → IndexPage K V} {s : TreeState K V}

/-- The pages of a tree that is not empty. -/
def Shows (content : PageId → IndexPage K V) (s : TreeState K V) : Prop :=
  s.pool.content = content ∧ s.rootPageId ≠ invalidPageId

theorem shows_fetchPage (h : Shows content s) (p : PageId) (e : Fault) :
    Spec (fetchPage p e) s (fun _ => Shows content) fun _ _ => True := by
  unfold fetchPage
  refine Spec.bind (P := fun _ => Shows content) ?_ fun found s' h' => ?_
  · unfold onPool PagePool.fetchPage Spec
    dsimp only
    split_ifs <;> exact h
  · cases found
    · exact spec_throw trivial
    · exact spec_pure h'

theorem shows_unpinPage (h : Shows content s) (p : PageId) (isDirty : Bool) :
    Spec (unpinPage p isDirty) s (fun _ => Shows content) fun _ _ => True := by
  unfold unpinPage onPool PagePool.unpinPage Spec
  dsimp only
  split_ifs <;> first | exact h | trivial

theorem slot_ok {n : KeySize} {index : ℤ} {i : ℕ} (h : InternalPage.slot n index = .ok i) :
    i = index.toNat := by
  unfold InternalPage.slot at h
  split_ifs at h
  exact (Except.ok.inj h).symm

theorem valueAt_ok {n : KeySize} {page : InternalPage K} {index : ℤ} {q : PageId}
    (h : page.valueAt n index = .ok q) : q = (page.array index.toNat).2 := by
  unfold InternalPage.valueAt at h
  cases run : InternalPage.slot n index with
  | error e =>
    rw [run] at h
    cases h
  | ok i =>
    rw [run] at h
    rw [← slot_ok run]
    exact (Except.ok.inj h).symm

theorem keyAt_ok {n : KeySize} {page : InternalPage K} {index : ℤ} {k : K}
    (h : page.keyAt n index = .ok k) : k = (page.array index.toNat).1 := by
  unfold InternalPage.keyAt at h
  cases run : InternalPage.slot n index with
  | error e =>
    rw [run] at h
    cases h
  | ok i =>
    rw [run] at h
    rw [← slot_ok run]
    exact (Except.ok.inj h).symm

theorem leafKeyAt_ok {page : LeafPage K V} {i : ℕ} {k : K} (h : page.keyAt i = .ok k) :
    i < page.size ∧ k = (page.array i).1 := by
  unfold LeafPage.keyAt at h
  by_cases inside : i < page.size
  · rw [assert_pos inside] at h
    exact ⟨inside, (Except.ok.inj h).symm⟩
  · rw [assert_neg inside] at h
    cases h

variable [LinearOrder K]

theorem corrLeaf_true (orders : Orders tree.comparator) {page : LeafPage K V} {l : List ℕ}
    (h : tree.corrLeaf page l = .ok true) :
    ∀ i ∈ l, (page.array (i - 1)).1 ≤ (page.array i).1 ∧ i < page.size := by
  induction l with
  | nil => exact nofun
  | cons i l ih =>
    unfold corrLeaf LeafPage.keyAt at h
    by_cases before : i - 1 < page.size
    · by_cases here : i < page.size
      · simp only [assert_pos before, assert_pos here, bind, Except.bind, pure, Except.pure] at h
        by_cases descends : tree.comparator (page.array (i - 1)).1 (page.array i).1 > 0
        · rw [if_pos descends] at h
          cases h
        · rw [if_neg descends] at h
          have le := (orders.nonpos_iff _ _).1 (not_lt.1 descends)
          exact List.forall_mem_cons.2 ⟨⟨le, here⟩, ih h⟩
      · simp [assert_pos before, assert_neg here, bind, Except.bind, pure, Except.pure] at h
    · simp [assert_neg before, bind, Except.bind] at h

/-- The children from `i` on passed, each with its range. -/
def ChildrenFrom (content : PageId → IndexPage K V) (fuel : ℕ) (page : InternalPage K) (i : ℕ)
    (range : ℕ → K × K) : Prop :=
  ∀ j, i ≤ j → j < page.size → Checked content fuel (page.array j).2 (range j) ∧
    (range (j - 1)).2 < (page.array j).1 ∧ (page.array j).1 ≤ (range j).1 ∧
      (j ≠ 1 → (page.array (j - 1)).1 < (page.array j).1)

/-- The loop over the children, once the child before `i` passed with range `left`, or from the
first one on. -/
theorem corrChildren_spec (orders : Orders tree.comparator) {fuel : ℕ}
    {check : PageId → K × K → TreeM K V (Bool × (K × K))} {page : InternalPage K}
    (checks : ∀ q out s, Shows content s → Spec (check q out) s
      (fun r s' => Shows content s' ∧ (r.1 = true → Checked content fuel q r.2)) fun _ _ => True)
    (m : ℕ) : ∀ {i : ℕ} {left right : K × K} {s : TreeState K V}, Shows content s → 1 ≤ i →
      i + m = page.size → (i = 1 → 0 < m) →
      (i ≠ 1 → Checked content fuel (page.array (i - 1)).2 left) →
      Spec (tree.corrChildren check page (List.range' i m) left right) s
        (fun r s' => Shows content s' ∧ (r = true → ∃ range, ChildrenFrom content fuel page i range ∧
          Checked content fuel (page.array (i - 1)).2 (range (i - 1)) ∧
            (i ≠ 1 → range (i - 1) = left))) fun _ _ => True := by
  induction m with
  | zero =>
    intro i left right s h pos size first before
    refine spec_pure ⟨h, fun _ => ⟨fun _ => left, fun j hj hj' => by omega, ?_,
      fun _ => rfl⟩⟩
    exact before fun one => absurd (first one) (lt_irrefl 0)
  | succ m ih =>
    intro i left right s h pos size first before
    rw [List.range'_succ]
    unfold corrChildren
    refine Spec.bind (P := fun (r : Bool × (K × K)) s' => Shows content s' ∧
      (r.1 = true → Checked content fuel (page.array (i - 1)).2 r.2 ∧
        (i ≠ 1 → r.2 = left))) ?_ ?_
    · unfold corrFirst
      by_cases one : i = 1
      · rw [if_pos one]
        refine spec_bind_lift (fun _ _ => trivial) fun q hq => ?_
        rw [valueAt_ok hq, one]
        refine (checks _ _ _ h).post fun r s' ⟨h', hr⟩ => ⟨h', fun ret => ⟨hr ret, ?_⟩⟩
        exact fun ne => absurd rfl ne
      · rw [if_neg one]
        exact spec_pure ⟨h, fun _ => ⟨before one, fun _ => rfl⟩⟩
    rintro ⟨ret, left'⟩ s₁ ⟨h₁, hleft⟩
    cases ret with
    | false => exact spec_pure ⟨h₁, nofun⟩
    | true =>
      obtain ⟨hleft, kept⟩ := hleft rfl
      dsimp only at hleft kept
      refine spec_bind_lift (fun _ _ => trivial) fun q hq => ?_
      rw [valueAt_ok hq]
      refine Spec.bind (checks _ _ _ h₁) ?_
      rintro ⟨ret, right'⟩ s₂ ⟨h₂, hright⟩
      cases ret with
      | false => exact spec_pure ⟨h₂, nofun⟩
      | true =>
        specialize hright rfl
        rw [Int.toNat_natCast] at hright
        refine spec_bind_lift (fun _ _ => trivial) fun k hk => ?_
        rw [keyAt_ok hk, Int.toNat_natCast]
        by_cases bounds : tree.comparator (page.array i).1 left'.2 > 0 ∧
            tree.comparator (page.array i).1 right'.1 ≤ 0
        · rw [if_neg (not_not.2 bounds)]
          refine spec_bind_lift (fun _ _ => trivial) fun k' hk' => ?_
          rw [keyAt_ok hk', show ((i : ℤ) - 1).toNat = i - 1 by omega]
          by_cases sorted : i = 1 ∨
              tree.comparator (page.array (i - 1)).1 (page.array i).1 < 0
          · rw [if_neg (not_not.2 sorted)]
            refine (@ih (i + 1) right' right' s₂ h₂ (by omega) (by omega) (by omega)
              fun _ => hright).post ?_
            rintro r s₃ ⟨h₃, passed⟩
            refine ⟨h₃, fun ret => ?_⟩
            obtain ⟨range, rest, -, same⟩ := passed ret
            specialize same (by omega)
            rw [Nat.add_sub_cancel] at same
            have here : Function.update range (i - 1) left' (i - 1) = left' :=
              Function.update_self _ _ _
            have off (j : ℕ) (hj : i ≤ j) : Function.update range (i - 1) left' j = range j :=
              Function.update_of_ne (by omega) _ _
            refine ⟨Function.update range (i - 1) left', fun j hj hj' => ?_, by rwa [here],
              fun ne => here.trans (kept ne)⟩
            rcases hj.eq_or_lt with rfl | lt
            · rw [here, off i le_rfl, same]
              exact ⟨hright, (orders.pos_iff _ _).1 bounds.1, (orders.nonpos_iff _ _).1 bounds.2,
                fun ne => (orders.neg_iff _ _).1 (sorted.resolve_left ne)⟩
            · rw [off j hj, off (j - 1) (by omega)]
              exact rest j lt hj'
          · rw [if_pos sorted]
            exact spec_pure ⟨h₂, nofun⟩
        · rw [if_pos bounds]
          exact spec_pure ⟨h₂, nofun⟩

theorem range_drop_one (n : ℕ) : (List.range n).drop 1 = List.range' 1 (n - 1) := by
  rw [List.range_eq_range', List.drop_range']

variable [Inhabited K]
  (initialised : ∀ q page, content q = .internal page → page.maxSize = tree.keySize.internalMax)

include initialised

theorem corrPage_spec (orders : Orders tree.comparator) {fuel : ℕ}
    {check : PageId → K × K → TreeM K V (Bool × (K × K))}
    (checks : ∀ q out s, Shows content s → Spec (check q out) s
      (fun r s' => Shows content s' ∧ (r.1 = true → Checked content fuel q r.2)) fun _ _ => True)
    {p : PageId} {page : IndexPage K V} (h : Shows content s) (hp : content p = page) :
    Spec (tree.corrPage check page) s (fun r s' => Shows content s' ∧
      (r.1 = true → Checked content (fuel + 1) p r.2)) fun _ _ => True := by
  unfold Checked
  rw [hp]
  cases page with
  | raw data => exact spec_throw trivial
  | leaf page =>
    refine spec_bind_lift (fun _ _ => trivial) fun sorted hsorted => ?_
    refine spec_bind_lift (fun _ _ => trivial) fun first hfirst => ?_
    refine spec_bind_lift (fun _ _ => trivial) fun last hlast => ?_
    refine spec_pure ⟨h, fun passed => ?_⟩
    obtain ⟨-, rfl⟩ := Bool.and_eq_true_iff.1 passed
    obtain ⟨pos, rfl⟩ := leafKeyAt_ok hfirst
    obtain ⟨-, rfl⟩ := leafKeyAt_ok hlast
    rw [range_drop_one] at hsorted
    refine ⟨fun i hi => ?_, pos, rfl⟩
    exact (corrLeaf_true orders hsorted (i + 1) (List.mem_range'_1.2 ⟨by omega, by omega⟩)).1
  | internal page =>
    have large : 2 ≤ page.getMinSize false := by
      have := tree.keySize.six_le_internalMax
      unfold BPlusTreePage.getMinSize
      rw [initialised p page hp]
      simp only [Bool.false_eq_true, if_false]
      split_ifs
      · exact le_rfl
      · omega
    refine Spec.bind (P := fun ret s' => Shows content s' ∧ (ret = true → 2 ≤ page.size ∧
      ∃ range, ChildrenFrom content fuel page 1 range ∧
        Checked content fuel (page.array 0).2 (range 0))) ?_ ?_
    · unfold corrInternal
      by_cases sizes : page.getMinSize false ≤ page.size ∧ page.size ≤ page.maxSize
      · have size := large.trans sizes.1
        rw [if_pos sizes, range_drop_one]
        refine (corrChildren_spec orders checks (page.size - 1) h le_rfl (by omega) (by omega)
          fun ne => absurd rfl ne).post fun ret s' ⟨h', passed⟩ => ⟨h', fun hret => ?_⟩
        obtain ⟨range, rest, first, -⟩ := passed hret
        exact ⟨size, range, rest, first⟩
      · rw [if_neg sizes]
        exact spec_pure ⟨h, nofun⟩
    · rintro ret s₁ ⟨h₁, passed⟩
      refine spec_bind_lift (fun _ _ => trivial) fun first _ => ?_
      refine spec_bind_lift (fun _ _ => trivial) fun last _ => ?_
      refine spec_pure ⟨h₁, fun hret => ?_⟩
      obtain ⟨size, range, rest, first⟩ := passed hret
      refine ⟨size, fun i hi hi' => (rest (i + 1) (by omega) hi').2.2.2 (by omega), range, ?_, ?_⟩
      · intro i hi
        rcases i.eq_zero_or_pos with rfl | pos
        · exact first
        · exact (rest i pos hi).1
      · intro i hi
        obtain ⟨-, left, right, -⟩ := rest (i + 1) (by omega) hi
        exact ⟨left, right⟩

theorem isPageCorr_spec (orders : Orders tree.comparator)
    (fuel : ℕ) : ∀ {p : PageId} {out : K × K} {s : TreeState K V}, Shows content s →
      Spec (tree.isPageCorr fuel p out) s
        (fun r s' => Shows content s' ∧ (r.1 = true → Checked content fuel p r.2))
        fun _ _ => True := by
  induction fuel with
  | zero => exact fun _ => trivial
  | succ fuel ih =>
    intro p out s h
    unfold isPageCorr
    refine Spec.bind_eq (a := s) (t := s) rfl ?_
    rw [if_neg h.2]
    refine Spec.bind (shows_fetchPage h p .exception) fun _ s₁ h₁ => ?_
    refine Spec.bind_eq (a := content p) (t := s₁) (by rw [← h₁.1]; rfl) ?_
    refine Spec.bind (P := fun (r : Bool × (K × K)) s' => Shows content s' ∧
      (r.1 = true → Checked content (fuel + 1) p r.2)) ?_ ?_
    · exact corrPage_spec initialised orders (fun q out s h => ih h) h₁ rfl
    · rintro r s₂ ⟨h₂, checked⟩
      refine Spec.bind (shows_unpinPage h₂ p false) fun _ s₃ h₃ => spec_pure ⟨h₃, checked⟩

omit initialised [LinearOrder K] [Inhabited K] in
/-- `FindLeafPage` takes the path of `leafFor`. -/
theorem descend_leafFor {key : K} {q : PageId} (fuel : ℕ) : ∀ {rounds : ℕ} {cur : PageId}
    {s : TreeState K V}, s.deletedPageSet = ∅ →
      leafFor s.pool.content tree.comparator key rounds cur = .ok q →
      Spec (tree.descend key false .read false fuel cur) s (fun r _ => r = q) fun _ _ => True := by
  induction fuel with
  | zero => exact fun _ _ => trivial
  | succ fuel ih =>
    intro rounds cur s empty path
    cases rounds with
    | zero => cases path
    | succ rounds =>
      refine Spec.bind_eq (a := s.pool.content cur) (t := s) rfl ?_
      cases hp : s.pool.content cur with
      | raw data => exact spec_throw trivial
      | leaf page =>
        rw [leafFor, hp] at path
        exact spec_pure (Except.ok.inj path)
      | internal page =>
        dsimp only
        rw [if_neg Bool.false_ne_true]
        refine spec_bind_lift (fun _ _ => trivial) fun next hnext => ?_
        rw [leafFor_internal hp hnext] at path
        refine Spec.bind ((samePages.crabingProtocalFetchPage next .read cur false).spec s |>.mono
          (fun _ s' same => same empty) fun _ _ _ => trivial) ?_
        rintro _ s₁ ⟨empty', same⟩
        exact ih empty' (same ▸ path)

omit initialised [LinearOrder K] [Inhabited K] in
theorem findLeafPage_leafFor {key : K} {q : PageId} {rounds : ℕ} (empty : s.deletedPageSet = ∅)
    (nonempty : s.rootPageId ≠ invalidPageId)
    (path : leafFor s.pool.content tree.comparator key rounds s.rootPageId = .ok q) :
    Spec (tree.findLeafPage key false .read false) s (fun r _ => r = some q)
      fun _ _ => True := by
  refine Spec.bind (P := fun _ s₁ => s₁.deletedPageSet = ∅ ∧ s₁.pool.content = s.pool.content ∧
    s₁.rootPageId = s.rootPageId) ?_ ?_
  · refine Spec.bind_eq (a := s) (t := s) rfl ?_
    exact spec_bind_lift (fun _ _ => trivial) fun mutex _ => spec_modify ⟨empty, rfl, rfl⟩
  rintro _ s₁ ⟨empty₁, same, root⟩
  refine Spec.bind_eq (a := s₁) (t := s₁) rfl ?_
  rw [root, if_neg nonempty]
  refine Spec.bind ((samePages.crabingProtocalFetchPage s.rootPageId .read (-1) false).spec s₁ |>.mono
    (fun _ s' same => same empty₁) fun _ _ _ => trivial) ?_
  rintro _ s₂ ⟨empty₂, same₂⟩
  have path₂ : leafFor s₂.pool.content tree.comparator key rounds s.rootPageId = .ok q := by
    rwa [same₂, same]
  exact Spec.bind (descend_leafFor _ empty₂ path₂) fun leaf s₃ h => spec_pure (congrArg some h)

end Runs

/-- `isPageCorr` returns `true` and `isBalanced` no negative number. -/
structure Accepts [Inhabited K] (s : TreeState K V) (fuel : ℕ) : Prop where
  corr : ∃ start out s', tree.isPageCorr fuel s.rootPageId start s = (.ok (true, out), s')
  balanced : ∃ height s', tree.isBalanced fuel s.rootPageId s = (.ok height, s') ∧ 0 ≤ height

/-- An accepted tree is sound exactly if no leaf repeats a key and the separators above internal
pages bound the leaf keys. -/
theorem accepts_sound_iff [LinearOrder K] [Inhabited K] (orders : Orders tree.comparator)
    {s : TreeState K V} (nonempty : s.rootPageId ≠ invalidPageId)
    (initialised : ∀ q page, s.pool.content q = .internal page →
      page.maxSize = tree.keySize.internalMax) {fuel : ℕ} (accepts : tree.Accepts s fuel) :
    SoundBelow s.pool.content tree.comparator fuel s.rootPageId ↔
      NoRepeat s.pool.content fuel s.rootPageId ∧
        SeparatedBelow s.pool.content fuel s.rootPageId := by
  obtain ⟨start, out, s', run⟩ := accepts.corr
  have checked := (isPageCorr_spec initialised orders fuel ⟨rfl, nonempty⟩).of_ok run
  exact soundBelow_iff orders (checked.2 rfl)

/-- A tree for keys of four bytes. -/
def natTree : BPlusTree ℕ := ⟨.four, fun a b => a - b, []⟩

theorem orders_natTree : Orders natTree.comparator where
  neg_iff a b := by
    simp only [natTree]
    omega
  zero_iff a b := by
    simp only [natTree]
    omega

/-- A tree of one leaf with the keys 0 and `k`. -/
def twoKeys (k : ℕ) : TreeState ℕ ℕ where
  pool := { content := fun _ => .leaf ⟨⟨2, KeySize.four.leafMax, -1, 1⟩, -1, fun i => (i * k, 0)⟩ }
  rootPageId := 1

theorem initialised_twoKeys (k : ℕ) : ∀ q page, (twoKeys k).pool.content q = .internal page →
    page.maxSize = natTree.keySize.internalMax := nofun

/-- The leaf of two equal keys passes. -/
theorem not_accepts_sound : ¬ ∀ (tree : BPlusTree ℕ) (s : TreeState ℕ ℕ) (fuel : ℕ),
    Orders tree.comparator → s.rootPageId ≠ invalidPageId →
    (∀ q page, s.pool.content q = .internal page → page.maxSize = tree.keySize.internalMax) →
    tree.Accepts s fuel →
      SoundBelow s.pool.content tree.comparator fuel s.rootPageId := by
  intro claim
  have accepts : natTree.Accepts (twoKeys 0) 1 :=
    ⟨⟨(0, 0), _, _, rfl⟩, ⟨0, _, rfl, le_rfl⟩⟩
  have sound := claim natTree (twoKeys 0) 1 orders_natTree (by decide) (initialised_twoKeys 0)
    accepts
  have distinct := noRepeat_of_sorted sound.sorted _ (List.mem_singleton_self _) 0 (by decide)
  exact distinct rfl

theorem accepts_sound_twoKeys :
    SoundBelow (twoKeys 1).pool.content natTree.comparator 1 (twoKeys 1).rootPageId := by
  have accepts : natTree.Accepts (twoKeys 1) 1 :=
    ⟨⟨(0, 0), _, _, rfl⟩, ⟨0, _, rfl, le_rfl⟩⟩
  apply (accepts_sound_iff natTree orders_natTree (by decide) (initialised_twoKeys 1) accepts).2
  refine ⟨fun l hl i hi => ?_, trivial⟩
  rw [List.mem_singleton.1 hl]
  simp

end BPlusTree

end ScuDb
