import ScuDb.Lib.LinkedList
import ScuDb.Buffer.LRUReplacer

/-!
# The nodes of the LRU replacer

`LRUNodes` is the replacer as it is stored: a doubly linked list of `sNode`s between the sentinels
`mHead` and `mTail`, and the map `mDataMap` from values to their nodes.  `Represents` says that the
two chains and the map agree; every call keeps it and does to the list of values what the list
model `LRUReplacer` does.
-/

namespace ScuDb

open LinkedList

/-- `sNode`.  A `shared_ptr` is an address, or `none` for `nullptr`. -/
structure SNode (T : Type) where
  data : T
  ptrPrev : Option ℕ := none
  ptrNext : Option ℕ := none

/-- The members of `LRUReplacer`, with the store of nodes and the next unused address. -/
structure LRUNodes (T : Type) where
  heap : ℕ → SNode T
  nextAddr : ℕ
  mHead : ℕ
  mTail : ℕ
  mDataMap : AList fun _ : T => ℕ

namespace LRUNodes

variable {T : Type}

/-- The address a member of a node is read or written through. -/
def deref : Option ℕ → Except Fault ℕ
  | none => .error .nullDeref
  | some a => .ok a

def setPrev (s : LRUNodes T) (a : ℕ) (p : Option ℕ) : LRUNodes T :=
  { s with heap := Function.update s.heap a { s.heap a with ptrPrev := p } }

def setNext (s : LRUNodes T) (a : ℕ) (p : Option ℕ) : LRUNodes T :=
  { s with heap := Function.update s.heap a { s.heap a with ptrNext := p } }

/-- `make_shared<sNode>(value)`. -/
def makeShared (s : LRUNodes T) (value : T) : ℕ × LRUNodes T :=
  (s.nextAddr, { s with
    heap := Function.update s.heap s.nextAddr { data := value }
    nextAddr := s.nextAddr + 1 })

/-- The constructor: two sentinels that point at each other. -/
def new [Zero T] : LRUNodes T :=
  let s : LRUNodes T :=
    { heap := fun _ => { data := 0 }, nextAddr := 2, mHead := 0, mTail := 1, mDataMap := ∅ }
  (s.setNext s.mHead (some s.mTail)).setPrev s.mTail (some s.mHead)

/-- The links of the store. -/
def links (s : LRUNodes T) : Links ℕ where
  next a := (s.heap a).ptrNext
  prev a := (s.heap a).ptrPrev

@[simp] theorem setPrev_data (s : LRUNodes T) (a x : ℕ) (p : Option ℕ) :
    ((s.setPrev a p).heap x).data = (s.heap x).data := by
  simp only [setPrev, Function.update_apply]
  split_ifs with h
  · rw [h]
  · rfl

@[simp] theorem setNext_data (s : LRUNodes T) (a x : ℕ) (p : Option ℕ) :
    ((s.setNext a p).heap x).data = (s.heap x).data := by
  simp only [setNext, Function.update_apply]
  split_ifs with h
  · rw [h]
  · rfl

theorem setPrev_links (s : LRUNodes T) (a : ℕ) (p : Option ℕ) :
    (s.setPrev a p).links = { s.links with prev := Function.update s.links.prev a p } := by
  ext x : 2 <;> simp only [links, setPrev, Function.update_apply] <;> split_ifs with h <;>
    first | rfl | rw [h]

theorem setNext_links (s : LRUNodes T) (a : ℕ) (p : Option ℕ) :
    (s.setNext a p).links = { s.links with next := Function.update s.links.next a p } := by
  ext x : 2 <;> simp only [links, setNext, Function.update_apply] <;> split_ifs with h <;>
    first | rfl | rw [h]

variable [DecidableEq T]

/-- The node of `value`, taken out of the list if it is there and new otherwise. -/
def detach (s : LRUNodes T) (value : T) : Except Fault (ℕ × LRUNodes T) :=
  match s.mDataMap.lookup value with
  | some cur => do
    let ptrPrev ← deref (s.heap cur).ptrPrev
    let succ ← deref (s.heap cur).ptrNext
    let s := s.setNext ptrPrev (some succ)
    return (cur, s.setPrev succ (some ptrPrev))
  | none => return s.makeShared value

/-- `Insert`. -/
def insert (s : LRUNodes T) (value : T) : Except Fault (LRUNodes T) := do
  let (cur, s) ← s.detach value
  let fir ← deref (s.heap s.mHead).ptrNext
  let s := s.setNext cur (some fir)
  let s := s.setPrev fir (some cur)
  let s := s.setPrev cur (some s.mHead)
  let s := s.setNext s.mHead (some cur)
  return { s with mDataMap := s.mDataMap.insert value cur }

/-- `Victim`: the value, or `none` for `false`. -/
def victim (s : LRUNodes T) : Except Fault (Option T × LRUNodes T) :=
  if s.mDataMap.keys = [] then return (none, s)
  else do
    let last ← deref (s.heap s.mTail).ptrPrev
    let s := s.setPrev s.mTail (s.heap last).ptrPrev
    let prev ← deref (s.heap last).ptrPrev
    let s := s.setNext prev (some s.mTail)
    let value := (s.heap last).data
    return (some value, { s with mDataMap := s.mDataMap.erase value })

/-- `Erase`. -/
def erase (s : LRUNodes T) (value : T) : Except Fault (Bool × LRUNodes T) :=
  match s.mDataMap.lookup value with
  | some cur => do
    let prev ← deref (s.heap cur).ptrPrev
    let s := s.setNext prev (s.heap cur).ptrNext
    let succ ← deref (s.heap cur).ptrNext
    let s := s.setPrev succ (s.heap cur).ptrPrev
    return (true, { s with mDataMap := s.mDataMap.erase value })
  | none => return (false, s)

/-! ## What the nodes represent -/

/-- The nodes between the sentinels are linked in both directions, all nodes are different and
allocated, and `mDataMap` maps exactly the values stored in them to their nodes. -/
structure Represents (s : LRUNodes T) (nodes : List ℕ) : Prop where
  linked : s.links.Linked (s.mHead :: (nodes ++ [s.mTail]))
  nodup : (s.mHead :: (nodes ++ [s.mTail])).Nodup
  allocated : ∀ a ∈ s.mHead :: (nodes ++ [s.mTail]), a < s.nextAddr
  mapped : ∀ v a, s.mDataMap.lookup v = some a ↔ a ∈ nodes ∧ (s.heap a).data = v

/-- The values from `mHead` to `mTail`. -/
def values (s : LRUNodes T) (nodes : List ℕ) : List T := nodes.map fun a => (s.heap a).data

variable {s s' : LRUNodes T} {nodes : List ℕ}

theorem Represents.data_inj (h : Represents s nodes) {a b : ℕ} (ha : a ∈ nodes) (hb : b ∈ nodes)
    (e : (s.heap a).data = (s.heap b).data) : a = b := by
  have la := (h.mapped _ a).2 ⟨ha, rfl⟩
  have lb := (h.mapped _ b).2 ⟨hb, e.symm⟩
  rw [la] at lb
  exact Option.some.inj lb

theorem Represents.nodup_nodes (h : Represents s nodes) : nodes.Nodup :=
  ((List.nodup_cons.1 h.nodup).2).of_append_left

theorem Represents.nodup_values (h : Represents s nodes) : (s.values nodes).Nodup :=
  h.nodup_nodes.map_on fun _ ha _ hb e => h.data_inj ha hb e

theorem Represents.mem_values (h : Represents s nodes) (v : T) :
    v ∈ s.values nodes ↔ v ∈ s.mDataMap := by
  rw [← AList.lookup_isSome, Option.isSome_iff_exists]
  simp only [values, List.mem_map, h.mapped]

/-- The neighbours of a node. -/
theorem Represents.split (h : Represents s nodes) {cur : ℕ} {A B : List ℕ}
    (hn : nodes = A ++ cur :: B) :
    ∃ A' p q B', s.mHead :: A = A' ++ [p] ∧ B ++ [s.mTail] = q :: B' ∧
      (s.heap cur).ptrPrev = some p ∧ (s.heap cur).ptrNext = some q ∧
      s.links.Linked (A' ++ p :: cur :: q :: B') ∧ (A' ++ p :: cur :: q :: B').Nodup := by
  obtain ⟨A', p, hA⟩ : ∃ A' p, s.mHead :: A = A' ++ [p] :=
    ⟨_, _, (List.dropLast_append_getLast (List.cons_ne_nil s.mHead A)).symm⟩
  obtain ⟨q, B', hB⟩ := List.exists_cons_of_ne_nil (List.append_ne_nil_of_right_ne_nil B
    (List.cons_ne_nil s.mTail []))
  have whole : s.mHead :: (nodes ++ [s.mTail]) = A' ++ p :: cur :: q :: B' := by
    rw [hn, ← hB, List.append_cons A' p, ← hA]
    simp
  have linked := h.linked
  have nodup := h.nodup
  rw [whole] at linked nodup
  refine ⟨A', p, q, B', hA, hB, linked.prev_eq, ?_, linked, nodup⟩
  rw [List.append_cons] at linked
  exact linked.next_eq

/-- A node is taken out of the chains and its value out of the map. -/
theorem Represents.remove (h : Represents s nodes) {cur p q : ℕ} {A B A' B' : List ℕ}
    (hn : nodes = A ++ cur :: B) (hA : s.mHead :: A = A' ++ [p]) (hB : B ++ [s.mTail] = q :: B')
    (joined : s'.links = s.links.join p q) (data : ∀ x, (s'.heap x).data = (s.heap x).data)
    (head : s'.mHead = s.mHead) (tail : s'.mTail = s.mTail) (addr : s.nextAddr ≤ s'.nextAddr)
    (map : s'.mDataMap = s.mDataMap.erase (s.heap cur).data) :
    Represents s' (A ++ B) ∧ s'.values (A ++ B) = (s.values nodes).erase (s.heap cur).data := by
  obtain ⟨A₁, p₁, q₁, B₁, hA₁, hB₁, -, -, linked, nodup⟩ := h.split hn
  obtain ⟨rfl, rfl⟩ : A₁ = A' ∧ p₁ = p := by simpa using hA₁.symm.trans hA
  obtain ⟨rfl, rfl⟩ : q₁ = q ∧ B₁ = B' := by simpa using hB₁.symm.trans hB
  have whole : s.mHead :: (A ++ B ++ [s.mTail]) = A₁ ++ p₁ :: q₁ :: B₁ := by
    rw [List.append_assoc, hB, ← List.cons_append, hA]
    simp
  have sub : (s.mHead :: (A ++ B ++ [s.mTail])).Sublist (s.mHead :: (nodes ++ [s.mTail])) := by
    rw [hn]
    simp
  have apart : cur ∉ A ∧ cur ∉ B := by
    have := h.nodup_nodes
    rw [hn, List.nodup_middle, List.nodup_cons, List.mem_append] at this
    tauto
  have other : ∀ a ∈ A ++ B, (s.heap a).data ≠ (s.heap cur).data := by
    intro a ha e
    have hmem : a ∈ nodes := by
      rw [hn]
      simp only [List.mem_append, List.mem_cons] at ha ⊢
      tauto
    have := h.data_inj hmem (by simp [hn]) e
    subst this
    exact (List.mem_append.1 ha).elim apart.1 apart.2
  refine ⟨⟨?_, ?_, ?_, ?_⟩, ?_⟩
  · rw [joined, head, tail, whole]
    exact linked.unlink nodup
  · rw [head, tail]
    exact h.nodup.sublist sub
  · intro a ha
    rw [head, tail] at ha
    exact (h.allocated a (sub.subset ha)).trans_le addr
  · intro v a
    rw [map, data]
    by_cases hv : v = (s.heap cur).data
    · subst hv
      rw [AList.lookup_erase]
      simp only [reduceCtorEq, false_iff, not_and]
      exact fun ha e => other a ha e
    · rw [AList.lookup_erase_ne hv, h.mapped, hn]
      simp only [List.mem_append, List.mem_cons]
      constructor
      · rintro ⟨ha | rfl | ha, e⟩
        · exact ⟨.inl ha, e⟩
        · exact absurd e.symm hv
        · exact ⟨.inr ha, e⟩
      · rintro ⟨ha | ha, e⟩
        · exact ⟨.inl ha, e⟩
        · exact ⟨.inr (.inr ha), e⟩
  · have same : s'.values (A ++ B) = s.values (A ++ B) := List.map_congr_left fun a _ => data a
    have absent : (s.heap cur).data ∉ s.values A := by
      simp only [values, List.mem_map, not_exists, not_and]
      exact fun a ha => other a (List.mem_append_left B ha)
    have split : s.values (A ++ cur :: B) = s.values A ++ (s.heap cur).data :: s.values B := by
      simp [values]
    rw [same, hn, split, List.erase_append_right _ absent, List.erase_cons_head]
    simp [values]

/-- A node that is not in the chains becomes the first, and its value enters the map. -/
theorem Represents.push (h : Represents s nodes) {cur fir : ℕ} {B : List ℕ} {v : T}
    (hf : nodes ++ [s.mTail] = fir :: B) (new : cur ∉ s.mHead :: (nodes ++ [s.mTail]))
    (hcur : (s.heap cur).data = v) (absent : v ∉ s.mDataMap)
    (joined : s'.links = (s.links.join cur fir).join s.mHead cur)
    (data : ∀ x, (s'.heap x).data = (s.heap x).data)
    (head : s'.mHead = s.mHead) (tail : s'.mTail = s.mTail) (addr : s.nextAddr ≤ s'.nextAddr)
    (hc : cur < s'.nextAddr)
    (map : ∀ w, s'.mDataMap.lookup w = if w = v then some cur else s.mDataMap.lookup w) :
    Represents s' (cur :: nodes) ∧ s'.values (cur :: nodes) = v :: s.values nodes := by
  have linked := h.linked
  have nodup := h.nodup
  rw [hf] at linked nodup new
  refine ⟨⟨?_, ?_, ?_, ?_⟩, ?_⟩
  · rw [joined, head, tail, List.cons_append, hf]
    exact linked.push nodup new
  · rw [head, tail, List.cons_append, hf]
    refine (List.Perm.swap _ _ _).nodup (List.nodup_cons.2 ⟨new, nodup⟩)
  · intro a ha
    rw [head, tail, List.cons_append] at ha
    rcases List.mem_cons.1 ((List.Perm.swap _ _ _).mem_iff.1 ha) with rfl | ha
    · exact hc
    · exact (h.allocated a ha).trans_le addr
  · intro w a
    rw [map, data]
    split_ifs with hw
    · subst hw
      simp only [Option.some.injEq, List.mem_cons]
      constructor
      · rintro rfl
        exact ⟨.inl rfl, hcur⟩
      · rintro ⟨rfl | ha, e⟩
        · rfl
        · refine absurd ((h.mem_values w).1 ?_) absent
          exact List.mem_map.2 ⟨a, ha, e⟩
    · rw [h.mapped, List.mem_cons]
      constructor
      · rintro ⟨ha, e⟩
        exact ⟨.inr ha, e⟩
      · rintro ⟨rfl | ha, e⟩
        · exact absurd (e.symm.trans hcur) hw
        · exact ⟨ha, e⟩
  · simp [values, data, hcur]

/-! ## The calls -/

theorem represents_new [Zero T] : Represents (new : LRUNodes T) [] where
  linked := List.isChain_cons_cons.2 ⟨⟨rfl, rfl⟩, List.isChain_singleton _⟩
  nodup := by
    change [0, 1].Nodup
    decide
  allocated := by
    change ∀ a ∈ [0, 1], a < 2
    decide
  mapped v a := by
    have none : (new : LRUNodes T).mDataMap.lookup v = none := AList.lookup_empty v
    simp [none]

/-- The store after a node between `p` and `q` was taken out, and its value out of the map. -/
def unlinked (s : LRUNodes T) (p q : ℕ) (v : T) : LRUNodes T :=
  { (s.setNext p (some q)).setPrev q (some p) with mDataMap := s.mDataMap.erase v }

theorem unlinked_links (s : LRUNodes T) (p q : ℕ) (v : T) :
    (s.unlinked p q v).links = s.links.join p q := by
  change ((s.setNext p (some q)).setPrev q (some p)).links = _
  rw [setPrev_links, setNext_links]
  rfl

theorem Represents.unlinked (h : Represents s nodes) {cur p q : ℕ} {A B A' B' : List ℕ}
    (hn : nodes = A ++ cur :: B) (hA : s.mHead :: A = A' ++ [p]) (hB : B ++ [s.mTail] = q :: B') :
    Represents (s.unlinked p q (s.heap cur).data) (A ++ B) ∧
    (s.unlinked p q (s.heap cur).data).values (A ++ B) =
      (s.values nodes).erase (s.heap cur).data := by
  refine h.remove hn hA hB (unlinked_links s p q _) (fun x => ?_) rfl rfl le_rfl rfl
  exact (setPrev_data _ _ _ _).trans (setNext_data _ _ _ _)

/-- `Erase`: a present value leaves the list. -/
theorem Represents.erase (h : Represents s nodes) (v : T) :
    ∃ s' nodes', s.erase v = .ok (decide (v ∈ s.values nodes), s') ∧ Represents s' nodes' ∧
      s'.values nodes' = (s.values nodes).erase v := by
  cases hv : s.mDataMap.lookup v with
  | none =>
    have absent : v ∉ s.values nodes := by
      rw [h.mem_values, ← AList.lookup_isSome, hv]
      exact Bool.false_ne_true
    refine ⟨s, nodes, ?_, h, (List.erase_of_not_mem absent).symm⟩
    simp only [LRUNodes.erase, hv, absent, decide_false]
    rfl
  | some cur =>
    obtain ⟨hmem, rfl⟩ := (h.mapped v cur).1 hv
    obtain ⟨A, B, hn⟩ := List.append_of_mem hmem
    obtain ⟨A', p, q, B', hA, hB, hp, hq, -, nodup⟩ := h.split hn
    have present : (s.heap cur).data ∈ s.values nodes := List.mem_map.2 ⟨cur, hmem, rfl⟩
    have ne : cur ≠ p := by
      rintro rfl
      simp [List.nodup_append] at nodup
    have frame : (s.setNext p (some q)).heap cur = s.heap cur := Function.update_of_ne ne _ _
    have run : s.erase (s.heap cur).data = .ok (true, s.unlinked p q (s.heap cur).data) := by
      simp only [LRUNodes.erase, hv, hp, deref]
      change (do
        let succ ← deref ((s.setNext p (s.heap cur).ptrNext).heap cur).ptrNext
        return (true, { (s.setNext p (s.heap cur).ptrNext).setPrev succ
          ((s.setNext p (s.heap cur).ptrNext).heap cur).ptrPrev with
            mDataMap := s.mDataMap.erase (s.heap cur).data })) = _
      rw [hq, frame, hq, hp]
      rfl
    exact ⟨_, _, by rw [run, decide_eq_true present], h.unlinked hn hA hB⟩

/-- `Victim`: the last value leaves the list. -/
theorem Represents.victim (h : Represents s nodes) :
    (nodes = [] ∧ s.victim = .ok (none, s)) ∨
    ∃ s' nodes' v, s.victim = .ok (some v, s') ∧ Represents s' nodes' ∧
      s.values nodes = s'.values nodes' ++ [v] := by
  rcases nodes.eq_nil_or_concat with rfl | ⟨A, cur, hn⟩
  · refine .inl ⟨rfl, ?_⟩
    have empty : s.mDataMap.keys = [] := by
      rw [List.eq_nil_iff_forall_not_mem]
      intro v hv
      exact absurd ((h.mem_values v).2 hv) List.not_mem_nil
    simp only [LRUNodes.victim, empty, if_true]
    rfl
  · right
    have hn' : nodes = A ++ cur :: [] := by simpa using hn
    obtain ⟨A', p, q, B', hA, hB, hp, hq, linked, nodup⟩ := h.split hn'
    obtain ⟨rfl, rfl⟩ : s.mTail = q ∧ B' = [] := by simpa [eq_comm] using hB
    have last : (s.heap s.mTail).ptrPrev = some cur := by
      rw [List.append_cons] at linked
      exact linked.prev_eq
    have ne : cur ≠ s.mTail := by
      intro e
      simp [List.nodup_append, e] at nodup
    have present : s.mDataMap.keys ≠ [] := by
      intro e
      have := (h.mem_values (s.heap cur).data).1 (List.mem_map.2 ⟨cur, by simp [hn'], rfl⟩)
      change _ ∈ s.mDataMap.keys at this
      rw [e] at this
      exact List.not_mem_nil this
    have frame : (s.setPrev s.mTail (some p)).heap cur = s.heap cur := Function.update_of_ne ne _ _
    have data : (((s.setPrev s.mTail (some p)).setNext p (some s.mTail)).heap cur).data =
        (s.heap cur).data := (setNext_data _ _ _ _).trans (setPrev_data _ _ _ _)
    have run : s.victim = .ok (some (s.heap cur).data,
        { (s.setPrev s.mTail (some p)).setNext p (some s.mTail) with
            mDataMap := s.mDataMap.erase (s.heap cur).data }) := by
      simp only [LRUNodes.victim, if_neg present, last]
      change (do
        let prev ← deref ((s.setPrev s.mTail (s.heap cur).ptrPrev).heap cur).ptrPrev
        let s' := (s.setPrev s.mTail (s.heap cur).ptrPrev).setNext prev (some s.mTail)
        return (some (s'.heap cur).data,
          { s' with mDataMap := s'.mDataMap.erase (s'.heap cur).data })) = _
      rw [hp, frame, hp]
      change Except.ok (some (((s.setPrev s.mTail (some p)).setNext p (some s.mTail)).heap cur).data,
        { (s.setPrev s.mTail (some p)).setNext p (some s.mTail) with
            mDataMap := s.mDataMap.erase
              (((s.setPrev s.mTail (some p)).setNext p (some s.mTail)).heap cur).data }) = _
      rw [data]
    set s' : LRUNodes T := { (s.setPrev s.mTail (some p)).setNext p (some s.mTail) with
      mDataMap := s.mDataMap.erase (s.heap cur).data }
    have joined : s'.links = s.links.join p s.mTail := by
      change ((s.setPrev s.mTail (some p)).setNext p (some s.mTail)).links = _
      rw [setNext_links, setPrev_links]
      rfl
    have same : ∀ x, (s'.heap x).data = (s.heap x).data := fun x =>
      (setNext_data _ _ _ _).trans (setPrev_data _ _ _ _)
    have removed := (h.remove hn' hA hB joined same rfl rfl le_rfl rfl).1
    refine ⟨s', A ++ [], _, run, removed, ?_⟩
    simp [values, same, hn']

/-- `detach` takes the node of the value out of the list, or allocates a new one. -/
theorem Represents.detach (h : Represents s nodes) (v : T) :
    ∃ cur s₁ nodes₁, s.detach v = .ok (cur, s₁) ∧
      Represents { s₁ with mDataMap := s₁.mDataMap.erase v } nodes₁ ∧
      s₁.values nodes₁ = (s.values nodes).erase v ∧
      cur ∉ s₁.mHead :: (nodes₁ ++ [s₁.mTail]) ∧ (s₁.heap cur).data = v ∧ cur < s₁.nextAddr := by
  cases hv : s.mDataMap.lookup v with
  | none =>
    have absent : v ∉ s.values nodes := by
      rw [h.mem_values, ← AList.lookup_isSome, hv]
      exact Bool.false_ne_true
    have new : s.nextAddr ∉ s.mHead :: (nodes ++ [s.mTail]) := fun hm =>
      (h.allocated _ hm).false
    have keep : ∀ a ∈ s.mHead :: (nodes ++ [s.mTail]),
        (s.makeShared v).2.heap a = s.heap a := by
      intro a ha
      exact Function.update_of_ne (fun e => new (by rwa [← e])) _ _
    have inside : ∀ a ∈ nodes, a ∈ s.mHead :: (nodes ++ [s.mTail]) := by
      intro a ha
      simp [ha]
    refine ⟨s.nextAddr, (s.makeShared v).2, nodes, ?_, ⟨?_, h.nodup, ?_, ?_⟩, ?_, new, ?_, ?_⟩
    · simp only [LRUNodes.detach, hv]
      rfl
    · refine h.linked.congr (fun a ha => ?_) (fun a ha => ?_)
      · exact congrArg SNode.ptrNext (keep a (List.mem_of_mem_dropLast ha))
      · exact congrArg SNode.ptrPrev (keep a (List.mem_of_mem_tail ha))
    · intro a ha
      exact (h.allocated a ha).trans (Nat.lt_succ_self _)
    · intro w a
      change (s.mDataMap.erase v).lookup w = some a ↔
        a ∈ nodes ∧ ((s.makeShared v).2.heap a).data = w
      have lookup : (s.mDataMap.erase v).lookup w = s.mDataMap.lookup w := by
        by_cases hw : w = v
        · rw [hw, AList.lookup_erase, hv]
        · exact AList.lookup_erase_ne hw
      rw [lookup, h.mapped]
      refine and_congr_right fun ha => ?_
      rw [keep a (inside a ha)]
    · rw [List.erase_of_not_mem absent]
      refine List.map_congr_left fun a ha => ?_
      rw [keep a (inside a ha)]
    · simp [makeShared]
    · exact Nat.lt_succ_self _
  | some cur =>
    obtain ⟨hmem, rfl⟩ := (h.mapped v cur).1 hv
    obtain ⟨A, B, hn⟩ := List.append_of_mem hmem
    obtain ⟨A', p, q, B', hA, hB, hp, hq, -, -⟩ := h.split hn
    obtain ⟨rep, vals⟩ := h.unlinked hn hA hB
    refine ⟨cur, (s.setNext p (some q)).setPrev q (some p), A ++ B, ?_, rep, vals, ?_, ?_, ?_⟩
    · simp only [LRUNodes.detach, hv, hp, hq]
      rfl
    · have nodup := h.nodup
      rw [hn] at nodup
      change cur ∉ s.mHead :: (A ++ B ++ [s.mTail])
      have moved : (s.mHead :: (A ++ cur :: B ++ [s.mTail])).Perm
          (cur :: s.mHead :: (A ++ B ++ [s.mTail])) := by
        simp only [List.append_assoc, List.cons_append]
        exact ((List.perm_middle).cons _).trans (List.Perm.swap _ _ _)
      exact (List.nodup_cons.1 (moved.nodup_iff.1 nodup)).1
    · exact (setPrev_data _ _ _ _).trans (setNext_data _ _ _ _)
    · exact h.allocated cur (by simp [hn])

/-- `Insert`: the value becomes the first. -/
theorem Represents.insert (h : Represents s nodes) (v : T) :
    ∃ s' nodes', s.insert v = .ok s' ∧ Represents s' nodes' ∧
      s'.values nodes' = v :: (s.values nodes).erase v := by
  obtain ⟨cur, s₁, nodes₁, run, rep, vals, new, hcur, hc⟩ := h.detach v
  obtain ⟨fir, B, hf⟩ := List.exists_cons_of_ne_nil (List.append_ne_nil_of_right_ne_nil nodes₁
    (List.cons_ne_nil s₁.mTail []))
  have first : (s₁.heap s₁.mHead).ptrNext = some fir := by
    have linked := rep.linked
    rw [show nodes₁ ++ [s₁.mTail] = fir :: B from hf] at linked
    exact Links.Linked.next_eq (A := []) linked
  set s₂ : LRUNodes T := ((s₁.setNext cur (some fir)).setPrev fir (some cur)).setPrev cur
    (some s₁.mHead)
  set s' : LRUNodes T := { s₂.setNext s₁.mHead (some cur) with
    mDataMap := s₁.mDataMap.insert v cur }
  have joined : s'.links = (s₁.links.join cur fir).join s₁.mHead cur := by
    change (s₂.setNext s₁.mHead (some cur)).links = _
    rw [setNext_links, setPrev_links, setPrev_links, setNext_links]
    rfl
  have same : ∀ x, (s'.heap x).data = (s₁.heap x).data := by
    intro x
    change ((s₂.setNext s₁.mHead (some cur)).heap x).data = _
    simp [s₂]
  have absent : v ∉ AList.erase v s₁.mDataMap := fun hm => (AList.mem_erase.1 hm).1 rfl
  have map : ∀ w, s'.mDataMap.lookup w =
      if w = v then some cur else (s₁.mDataMap.erase v).lookup w := by
    intro w
    split_ifs with hw
    · rw [hw]
      exact AList.lookup_insert _
    · rw [AList.lookup_erase_ne hw]
      exact AList.lookup_insert_ne hw
  obtain ⟨done, pushed⟩ := rep.push hf new hcur absent joined same rfl rfl le_rfl hc map
  refine ⟨s', cur :: nodes₁, ?_, done, ?_⟩
  · simp only [LRUNodes.insert, run]
    change (do
      let fir ← deref (s₁.heap s₁.mHead).ptrNext
      _) = _
    rw [first]
    rfl
  · rw [pushed, ← vals]
    rfl

/-! ## The list model -/

/-- The nodes carry the values of the list model, in its order. -/
def Refines (s : LRUNodes T) (r : LRUReplacer T) : Prop :=
  ∃ nodes, Represents s nodes ∧ s.values nodes = r.order

variable {r : LRUReplacer T}

theorem refines_new [Zero T] : Refines (new : LRUNodes T) .new := ⟨[], represents_new, rfl⟩

theorem Refines.insert (h : Refines s r) (v : T) :
    ∃ s', s.insert v = .ok s' ∧ Refines s' (r.insert v) := by
  obtain ⟨nodes, rep, vals⟩ := h
  obtain ⟨s', nodes', hs, rep', vals'⟩ := rep.insert v
  refine ⟨s', hs, nodes', rep', ?_⟩
  rw [vals', vals]
  rfl

theorem Refines.erase (h : Refines s r) (v : T) :
    ∃ s', s.erase v = .ok ((r.erase v).1, s') ∧ Refines s' (r.erase v).2 := by
  obtain ⟨nodes, rep, vals⟩ := h
  obtain ⟨s', nodes', hs, rep', vals'⟩ := rep.erase v
  rw [vals] at hs vals'
  exact ⟨s', hs, nodes', rep', vals'⟩

theorem Refines.victim (h : Refines s r) :
    (r.victim = none ∧ s.victim = .ok (none, s)) ∨
    ∃ v s' r', r.victim = some (v, r') ∧ s.victim = .ok (some v, s') ∧ Refines s' r' := by
  obtain ⟨nodes, rep, vals⟩ := h
  rcases rep.victim with ⟨rfl, hs⟩ | ⟨s', nodes', v, hs, rep', vals'⟩
  · exact .inl ⟨(r.victim_eq_none_iff).2 vals.symm, hs⟩
  · rw [vals] at vals'
    have last : r.order.getLast? = some v := by simp [vals']
    refine .inr ⟨v, s', ⟨r.order.dropLast, r.nodup.sublist (List.dropLast_sublist _)⟩, ?_, hs,
      nodes', rep', ?_⟩
    · simp only [LRUReplacer.victim, last]
    · simp [vals']

/-! ## Runs -/

inductive Op (T : Type)
  | insert (value : T)
  | victim
  | erase (value : T)
deriving DecidableEq

def step (s : LRUNodes T) : Op T → Except Fault (LRUNodes T)
  | .insert value => s.insert value
  | .victim => Prod.snd <$> s.victim
  | .erase value => Prod.snd <$> s.erase value

/-- The replacer after a history of calls, the latest first. -/
def run [Zero T] : List (Op T) → Except Fault (LRUNodes T)
  | [] => .ok new
  | op :: before => do
    let s ← run before
    s.step op

/-- When the latest `Insert` of `value` was made: the number of calls up to it, zero if none. -/
def latestInsert : List (Op T) → T → ℕ
  | [], _ => 0
  | op :: before, value =>
    if op = .insert value then before.length + 1 else latestInsert before value

theorem latestInsert_le (history : List (Op T)) (v : T) :
    latestInsert history v ≤ history.length := by
  induction history with
  | nil => exact le_rfl
  | cons op before ih =>
    simp only [latestInsert, List.length_cons]
    split_ifs
    · exact le_rfl
    · exact ih.trans (Nat.le_succ _)

/-- The values stand in the order of their latest insertion, the most recent first. -/
def Ordered (history : List (Op T)) (l : List T) : Prop :=
  l.Pairwise fun v w => latestInsert history w < latestInsert history v

theorem Ordered.insert {history : List (Op T)} {l : List T} (h : Ordered history l)
    (nodup : l.Nodup) (v : T) : Ordered (.insert v :: history) (v :: l.erase v) := by
  have other : ∀ w ∈ l.erase v, latestInsert (.insert v :: history) w = latestInsert history w := by
    intro w hw
    have ne : w ≠ v := (nodup.mem_erase_iff.1 hw).1
    simp [latestInsert, ne.symm]
  refine List.pairwise_cons.2 ⟨fun w hw => ?_, ?_⟩
  · rw [other w hw]
    simp only [latestInsert, if_true]
    exact Nat.lt_succ_of_le (latestInsert_le history w)
  · refine ((h.sublist (List.erase_sublist)).imp_of_mem ?_)
    intro a b ha hb hab
    rw [other a ha, other b hb]
    exact hab

/-- A call that inserts nothing and only removes values. -/
theorem Ordered.remove {history : List (Op T)} {l l' : List T} (h : Ordered history l)
    (sub : l'.Sublist l) {op : Op T} (quiet : ∀ v, op ≠ .insert v) :
    Ordered (op :: history) l' := by
  refine (h.sublist sub).imp fun {a b} hab => ?_
  simpa only [latestInsert, quiet, if_false] using hab

/-- A call on the list. -/
def listStep (r : LRUReplacer T) : Op T → LRUReplacer T
  | .insert value => r.insert value
  | .victim => (r.victim.map Prod.snd).getD r
  | .erase value => (r.erase value).2

/-- The list after the same history. -/
def listRun : List (Op T) → LRUReplacer T
  | [] => .new
  | op :: before => listStep (listRun before) op

/-- One call does to the nodes what it does to the list. -/
theorem Refines.step (h : Refines s r) (op : Op T) :
    ∃ s', s.step op = .ok s' ∧ Refines s' (listStep r op) := by
  cases op with
  | insert v => exact h.insert v
  | victim =>
    rcases h.victim with ⟨none, hs⟩ | ⟨v, s', r', some, hs, h'⟩
    · refine ⟨s, by simp [LRUNodes.step, hs], ?_⟩
      rw [listStep, none]
      exact h
    · refine ⟨s', by simp [LRUNodes.step, hs], ?_⟩
      rw [listStep, some]
      exact h'
  | erase v =>
    obtain ⟨s', hs, h'⟩ := h.erase v
    exact ⟨s', by simp [LRUNodes.step, hs], h'⟩

/-- Every run returns, and leaves in the nodes what it leaves in the list. -/
theorem run_refines [Zero T] (history : List (Op T)) :
    ∃ s, run history = .ok s ∧ Refines s (listRun history) := by
  induction history with
  | nil => exact ⟨new, rfl, refines_new⟩
  | cons op before ih =>
    obtain ⟨s, hr, h⟩ := ih
    obtain ⟨s', hs, h'⟩ := h.step op
    refine ⟨s', ?_, h'⟩
    simp only [run, hr]
    exact hs

/-- The list is in the order of the latest insertions. -/
theorem listRun_ordered (history : List (Op T)) : Ordered history (listRun history).order := by
  induction history with
  | nil => exact List.Pairwise.nil
  | cons op before ih =>
    cases op with
    | insert v => exact ih.insert (listRun before).nodup v
    | victim =>
      apply ih.remove _ (by simp)
      simp only [listRun, listStep, LRUReplacer.victim]
      cases (listRun before).order.getLast? with
      | none => exact List.Sublist.refl _
      | some v => exact List.dropLast_sublist _
    | erase v => exact ih.remove List.erase_sublist (by simp)

/-- `Victim` fails exactly on the empty list, and otherwise removes and returns the value whose
latest insertion is oldest. -/
def VictimSpec (history : List (Op T)) (s : LRUNodes T) (nodes : List ℕ) : Prop :=
  (s.values nodes = [] ∧ s.victim = .ok (none, s)) ∨
  ∃ s' nodes' v, s.victim = .ok (some v, s') ∧ Represents s' nodes' ∧
    v ∈ s.values nodes ∧ s'.values nodes' = (s.values nodes).erase v ∧
    ∀ w ∈ s.values nodes, w ≠ v → latestInsert history v < latestInsert history w

/-- `Erase` returns whether the value was present and removes only it. -/
def EraseSpec (s : LRUNodes T) (nodes : List ℕ) : Prop :=
  ∀ v, ∃ s' nodes', s.erase v = .ok (decide (v ∈ s.values nodes), s') ∧ Represents s' nodes' ∧
    s'.values nodes' = (s.values nodes).erase v

theorem Represents.victimSpec {history : List (Op T)} (rep : Represents s nodes)
    (ordered : Ordered history (s.values nodes)) : VictimSpec history s nodes := by
  rcases rep.victim with ⟨rfl, hs⟩ | ⟨s', nodes', v, hs, rep', vals⟩
  · exact .inl ⟨rfl, hs⟩
  · have nodup := rep.nodup_values
    rw [vals] at nodup ordered
    have absent : v ∉ s'.values nodes' := by
      intro hv
      exact (List.nodup_append.1 nodup).2.2 v hv v (by simp) rfl
    refine .inr ⟨s', nodes', v, hs, rep', by simp [vals], ?_, ?_⟩
    · rw [vals, List.erase_append_right _ absent, List.erase_cons_head, List.append_nil]
    · intro w hw ne
      rw [vals, List.mem_append, List.mem_singleton] at hw
      have inside := hw.resolve_right ne
      exact (List.pairwise_append.1 ordered).2.2 w inside v (by simp)

/-- `Insert` puts the value first, and leaves the order of the others. -/
def InsertSpec (s : LRUNodes T) (nodes : List ℕ) : Prop :=
  ∀ v, ∃ s' nodes', s.insert v = .ok s' ∧ Represents s' nodes' ∧
    s'.values nodes' = v :: (s.values nodes).erase v

/-- After every history of calls the chain of `ptrNext` from `mHead` to `mTail` and the chain of
`ptrPrev` back visit the same nodes in opposite orders, each once; their values are those that the
same calls leave in a list, which are the keys of `mDataMap`, each once and in the order of the
latest insertions; and `Insert`, `Victim` and `Erase` do what they do to a list. -/
theorem run_refines_list [Zero T] (history : List (Op T)) :
    ∃ s nodes, run history = .ok s ∧
      (s.mHead :: nodes ++ [s.mTail]).Nodup ∧
      (s.mHead :: nodes ++ [s.mTail]).IsChain (fun a b => (s.heap a).ptrNext = some b) ∧
      (s.mTail :: nodes.reverse ++ [s.mHead]).IsChain (fun a b => (s.heap a).ptrPrev = some b) ∧
      s.values nodes = (listRun history).order ∧
      (s.values nodes).Nodup ∧ (∀ v, v ∈ s.values nodes ↔ v ∈ s.mDataMap) ∧
      Ordered history (s.values nodes) ∧
      InsertSpec s nodes ∧ VictimSpec history s nodes ∧ EraseSpec s nodes := by
  obtain ⟨s, hr, nodes, rep, vals⟩ := run_refines history
  have ordered : Ordered history (s.values nodes) := by
    rw [vals]
    exact listRun_ordered history
  refine ⟨s, nodes, hr, rep.nodup, ?_, ?_, vals, rep.nodup_values, rep.mem_values, ordered,
    rep.insert, rep.victimSpec ordered, rep.erase⟩
  · exact List.IsChain.imp (fun _ _ h => h.1) rep.linked
  · have back := rep.linked.reverse
    simp only [List.reverse_cons, List.reverse_append, List.reverse_nil, List.nil_append] at back
    exact back

/-- Three values are inserted, the oldest one again; one is erased, and a victim is taken. -/
theorem run_refines_list_three :
    ∃ (s s' : LRUNodes ℕ) (nodes nodes' : List ℕ),
      run [.insert 1, .insert 3, .insert 2, .insert 1] = .ok s ∧ s.values nodes = [1, 3, 2] ∧
      run [.victim, .erase 3, .insert 1, .insert 3, .insert 2, .insert 1] = .ok s' ∧
        s'.values nodes' = [1] := by
  obtain ⟨s, nodes, hr, -, -, -, vals, -⟩ :=
    run_refines_list (T := ℕ) [.insert 1, .insert 3, .insert 2, .insert 1]
  obtain ⟨s', nodes', hr', -, -, -, vals', -⟩ :=
    run_refines_list (T := ℕ) [.victim, .erase 3, .insert 1, .insert 3, .insert 2, .insert 1]
  refine ⟨s, s', nodes, nodes', hr, ?_, hr', ?_⟩
  · rw [vals]
    decide
  · rw [vals']
    decide

end LRUNodes

end ScuDb
