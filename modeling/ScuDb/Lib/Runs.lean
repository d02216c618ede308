import Mathlib.Logic.Relation

/-!
# Runs of given actions

`exec s a` is the state behind the action `a`, if `a` can be done in `s`.
-/

namespace Runs

variable {σ α : Type} (exec : σ → α → Option σ) (ok : σ → α → Prop)

/-- The state behind some actions, one after the other, if all of them can be done. -/
def execAll : List α → σ → Option σ
  | [], s => some s
  | a :: rest, s => (exec s a).bind (execAll rest)

/-- Every action is allowed in the state in which it is done. -/
def AllAllowed : List α → σ → Prop
  | [], _ => True
  | a :: rest, s => ok s a ∧ ∀ s' ∈ exec s a, AllAllowed rest s'

instance decidableAllAllowed [∀ s a, Decidable (ok s a)] :
    (actions : List α) → (s : σ) → Decidable (AllAllowed exec ok actions s)
  | [], _ => isTrue trivial
  | a :: rest, s =>
    have := decidableAllAllowed rest
    inferInstanceAs (Decidable (_ ∧ ∀ s' ∈ exec s a, _))

variable {exec ok} {R : σ → σ → Prop}

/-- Actions that are allowed and can be done make a run. -/
theorem reaches_of_execAll (step : ∀ {s a s'}, exec s a = some s' → ok s a → R s s')
    {actions : List α} : ∀ {s s' : σ}, execAll exec actions s = some s' →
      AllAllowed exec ok actions s → Relation.ReflTransGen R s s' := by
  induction actions with
  | nil =>
    intro s s' run _
    cases run
    exact .refl
  | cons a rest ih =>
    intro s s' run allowed
    obtain ⟨s₁, first, run⟩ := Option.bind_eq_some_iff.1 run
    exact .head (step first allowed.1) (ih run (allowed.2 s₁ first))

theorem allAllowed_of_forall (all : ∀ s a, ok s a) {actions : List α} :
    ∀ s, AllAllowed exec ok actions s := by
  induction actions with
  | nil => exact fun _ => trivial
  | cons a rest ih => exact fun s => ⟨all s a, fun s' _ => ih s'⟩

end Runs
