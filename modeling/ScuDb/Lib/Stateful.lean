import Mathlib

/-!
# Stateful computations that can fail

Computations in `StateT σ (Except ε)`: how a sequence runs when its first part succeeds, what a
successful sequence says about its parts, and how a computation in `Except` runs inside.
-/

namespace Stateful

variable {σ ε α β : Type} {x : StateT σ (Except ε) α} {f : α → StateT σ (Except ε) β}
  {s s' s'' : σ} {a : α} {b : β}

theorem bind_ok (h : x s = .ok (a, s')) : (x >>= f) s = f a s' := by
  change (x s >>= fun r => f r.1 r.2) = _
  rw [h]
  rfl

theorem bind_error {e : ε} (h : x s = .error e) : (x >>= f) s = .error e := by
  change (x s >>= fun r => f r.1 r.2) = _
  rw [h]
  rfl

theorem of_bind_ok (h : (x >>= f) s = .ok (b, s'')) :
    ∃ a s', x s = .ok (a, s') ∧ f a s' = .ok (b, s'') := by
  cases hx : x s with
  | error e =>
    rw [bind_error hx] at h
    cases h
  | ok r => exact ⟨r.1, r.2, rfl, by rwa [bind_ok hx] at h⟩

@[simp] theorem pure_run : (pure a : StateT σ (Except ε) α) s = .ok (a, s) := rfl

theorem lift_ok {y : Except ε α} (h : y = .ok a) : (liftM y : StateT σ (Except ε) α) s =
    .ok (a, s) := by
  rw [h]
  rfl

theorem lift_error {y : Except ε α} {e : ε} (h : y = .error e) :
    (liftM y : StateT σ (Except ε) α) s = .error e := by
  rw [h]
  rfl

/-- An invariant of every round of a loop over a list is one of the loop. -/
theorem forM_inv {l : List α} {g : α → StateT σ (Except ε) PUnit} {P : σ → Prop}
    (round : ∀ a ∈ l, ∀ s s', P s → g a s = .ok (⟨⟩, s') → P s') :
    ∀ {s s' : σ}, P s → l.forM g s = .ok (⟨⟩, s') → P s' := by
  induction l with
  | nil =>
    intro s s' hs h
    cases h
    exact hs
  | cons a l ih =>
    intro s s' hs h
    change (g a >>= fun _ => l.forM g) s = _ at h
    obtain ⟨⟨⟩, s₁, h₁, h₂⟩ := of_bind_ok h
    exact ih (fun b hb => round b (List.mem_cons_of_mem _ hb))
      (round a List.mem_cons_self s s₁ hs h₁) h₂

/-- A loop returns if, whatever is left of the list, the next round does. -/
theorem forM_ok {g : α → StateT σ (Except ε) PUnit} {P : List α → σ → Prop}
    (round : ∀ a l s, P (a :: l) s → ∃ s', g a s = .ok (⟨⟩, s') ∧ P l s') (l : List α) :
    ∀ {s : σ}, P l s → ∃ s', l.forM g s = .ok (⟨⟩, s') ∧ P [] s' := by
  induction l with
  | nil => exact fun {s} hs => ⟨s, rfl, hs⟩
  | cons a l ih =>
    intro s hs
    obtain ⟨s₁, h₁, hs₁⟩ := round a l s hs
    obtain ⟨s₂, h₂, hs₂⟩ := ih hs₁
    refine ⟨s₂, ?_, hs₂⟩
    change (g a >>= fun _ => l.forM g) s = _
    rw [bind_ok h₁, h₂]

end Stateful
