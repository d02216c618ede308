import Mathlib

/-!
# Linked lists in a store

The nodes reached from a start by following `next` until `stop`, as a list, and nodes that are
linked in both directions.
-/

namespace LinkedList

variable {α : Type*} {next next' : α → α} {stop p q new : α} {l : List α}

/-- Following `next` from `p` visits exactly the nodes `l` and then reaches `stop`. -/
def Follows (next : α → α) (stop : α) : α → List α → Prop
  | p, [] => p = stop
  | p, q :: rest => p = q ∧ p ≠ stop ∧ Follows next stop (next p) rest

/-- A list only depends on the links of its nodes. -/
theorem Follows.congr : ∀ {p : α} {l : List α}, Follows next stop p l →
    (∀ q ∈ l, next' q = next q) → Follows next' stop p l
  | _, [], h, _ => h
  | _, q :: rest, ⟨rfl, ne, h⟩, same => by
    refine ⟨rfl, ne, ?_⟩
    rw [same q List.mem_cons_self]
    exact h.congr fun r hr => same r (List.mem_cons_of_mem _ hr)

theorem Follows.unique : ∀ {p : α} {l l' : List α}, Follows next stop p l →
    Follows next stop p l' → l = l'
  | _, [], [], _, _ => rfl
  | _, [], _ :: _, h, ⟨_, ne, _⟩ => absurd h ne
  | _, _ :: _, [], ⟨_, ne, _⟩, h => absurd h ne
  | _, _ :: _, _ :: _, ⟨rfl, _, h⟩, ⟨rfl, _, h'⟩ => by rw [h.unique h']

/-- A new last node. -/
theorem Follows.append : ∀ {p : α} {l : List α}, Follows next stop p (l ++ [q]) →
    (∀ r ∈ l, next' r = next r) → next' q = new → new ≠ stop → next' new = stop →
    Follows next' stop p (l ++ [q, new])
  | _, [], ⟨rfl, ne, _⟩, _, hq, hne, hnew => ⟨rfl, ne, hq, hq ▸ hne, by rw [hq]; exact hnew⟩
  | _, r :: rest, ⟨rfl, ne, h⟩, same, hq, hne, hnew => by
    refine ⟨rfl, ne, ?_⟩
    rw [same r List.mem_cons_self]
    exact h.append (fun t ht => same t (List.mem_cons_of_mem _ ht)) hq hne hnew

/-- Follow at most `fuel` links. -/
def follow [DecidableEq α] (next : α → α) (stop : α) : ℕ → α → Option (List α)
  | 0, p => if p = stop then some [] else none
  | fuel + 1, p => if p = stop then some [] else (follow next stop fuel (next p)).map (p :: ·)

theorem follows_of_follow [DecidableEq α] : ∀ (fuel : ℕ) {p : α} {l : List α},
    follow next stop fuel p = some l → Follows next stop p l
  | 0, p, l, h => by
    simp only [follow, Option.ite_none_right_eq_some, Option.some.injEq] at h
    obtain ⟨hp, rfl⟩ := h
    exact hp
  | fuel + 1, p, l, h => by
    simp only [follow] at h
    split_ifs at h with hp
    · cases h
      exact hp
    · obtain ⟨rest, hr, rfl⟩ := Option.map_eq_some_iff.1 h
      exact ⟨rfl, hp, follows_of_follow fuel hr⟩

/-- The part of a list from one of its nodes on. -/
theorem Follows.drop : ∀ {p : α} {pre l : List α}, Follows next stop p (pre ++ q :: l) →
    Follows next stop q (q :: l)
  | _, [], _, ⟨rfl, ne, h⟩ => ⟨rfl, ne, h⟩
  | _, _ :: _, _, ⟨_, _, h⟩ => h.drop

/-- A list that ends visits no node twice. -/
theorem Follows.nodup : ∀ {p : α} {l : List α}, Follows next stop p l → l.Nodup
  | _, [], _ => List.nodup_nil
  | _, q :: rest, ⟨rfl, ne, h⟩ => by
    refine List.nodup_cons.2 ⟨fun mem => ?_, h.nodup⟩
    obtain ⟨pre, l, rfl⟩ := List.append_of_mem mem
    have same : q :: (pre ++ q :: l) = q :: l := Follows.unique ⟨rfl, ne, h⟩ h.drop
    have := congrArg List.length same
    simp only [List.length_cons, List.length_append] at this
    omega

/-! ## Doubly linked lists -/

/-- The forward and backward links of a store of nodes. -/
@[ext]
structure Links (α : Type*) where
  next : α → Option α
  prev : α → Option α

namespace Links

variable {k k' : Links α} {a b : α} {l A B : List α}

/-- Each node of `l` is linked to the one after it, in both directions. -/
def Linked (k : Links α) (l : List α) : Prop :=
  l.IsChain fun a b => k.next a = some b ∧ k.prev b = some a

/-- `b` becomes the node after `a`. -/
def join [DecidableEq α] (k : Links α) (a b : α) : Links α where
  next := Function.update k.next a (some b)
  prev := Function.update k.prev b (some a)

theorem Linked.next_eq (h : k.Linked (A ++ a :: b :: B)) : k.next a = some b :=
  (List.isChain_append_cons_cons.1 h).2.1.1

theorem Linked.prev_eq (h : k.Linked (A ++ a :: b :: B)) : k.prev b = some a :=
  (List.isChain_append_cons_cons.1 h).2.1.2

/-- The backward links list the nodes in reverse. -/
theorem Linked.reverse (h : k.Linked l) : l.reverse.IsChain fun a b => k.prev a = some b := by
  rw [List.isChain_reverse]
  exact List.IsChain.imp (fun _ _ h => h.2) h

/-- A list does not depend on the forward link of its last node nor on the backward link of its
first. -/
theorem Linked.congr (h : k.Linked l) (next : ∀ a ∈ l.dropLast, k'.next a = k.next a)
    (prev : ∀ a ∈ l.tail, k'.prev a = k.prev a) : k'.Linked l := by
  induction l with
  | nil => exact List.isChain_nil
  | cons a l ih =>
    cases l with
    | nil => exact List.isChain_singleton a
    | cons b l =>
      obtain ⟨⟨hn, hp⟩, h⟩ := List.isChain_cons_cons.1 h
      refine List.isChain_cons_cons.2 ⟨⟨?_, ?_⟩, ih h ?_ ?_⟩
      · rw [next a (by simp), hn]
      · rw [prev b (by simp), hp]
      · exact fun c hc => next c (by simp [hc])
      · exact fun c hc => prev c (by simpa using .inr hc)

theorem Linked.join [DecidableEq α] (left : k.Linked (A ++ [a])) (right : k.Linked (b :: B))
    (nodup : (A ++ a :: b :: B).Nodup) : (k.join a b).Linked (A ++ a :: b :: B) := by
  rw [List.nodup_append, List.nodup_cons, List.nodup_cons] at nodup
  obtain ⟨-, ⟨ha, hb, -⟩, apart⟩ := nodup
  refine List.isChain_append_cons_cons.2 ⟨left.congr ?_ ?_, ?_, right.congr ?_ ?_⟩
  · intro c hc
    have ne : c ≠ a := apart c (by simpa using hc) a (by simp)
    simp [Links.join, ne]
  · intro c hc
    have ne : c ≠ b := by
      rintro rfl
      rcases List.mem_append.1 (List.mem_of_mem_tail hc) with h | h
      · exact apart c h c (by simp) rfl
      · exact ha (by simp [List.mem_singleton.1 h])
    simp [Links.join, ne]
  · simp [Links.join]
  · intro c hc
    have ne : c ≠ a := fun e => ha (e ▸ List.mem_of_mem_dropLast hc)
    simp [Links.join, ne]
  · intro c hc
    have ne : c ≠ b := fun e => hb (e ▸ hc)
    simp [Links.join, ne]

/-- A node is taken out. -/
theorem Linked.unlink [DecidableEq α] {c : α} (h : k.Linked (A ++ a :: c :: b :: B))
    (nodup : (A ++ a :: c :: b :: B).Nodup) : (k.join a b).Linked (A ++ a :: b :: B) := by
  obtain ⟨left, -, rest⟩ := List.isChain_append_cons_cons.1 h
  refine Linked.join left (List.isChain_cons_cons.1 rest).2 (nodup.sublist ?_)
  exact ((List.sublist_cons_self c (b :: B)).cons_cons a).append_left A

/-- A new first node after the head of the list. -/
theorem Linked.push [DecidableEq α] {c : α} (h : k.Linked (a :: b :: B))
    (nodup : (a :: b :: B).Nodup) (new : c ∉ a :: b :: B) :
    ((k.join c b).join a c).Linked (a :: c :: b :: B) := by
  have fresh : (c :: b :: B).Nodup := List.nodup_cons.2
    ⟨fun hc => new (List.mem_cons_of_mem a hc), (List.nodup_cons.1 nodup).2⟩
  have back : (k.join c b).Linked (c :: b :: B) :=
    Linked.join (A := []) (List.isChain_singleton c) (List.isChain_cons_cons.1 h).2 fresh
  refine Linked.join (A := []) (List.isChain_singleton a) back ?_
  refine List.nodup_cons.2 ⟨fun ha => ?_, fresh⟩
  rcases List.mem_cons.1 ha with e | ha
  · exact new (e ▸ List.mem_cons_self)
  · exact (List.nodup_cons.1 nodup).1 ha

end Links

end LinkedList
