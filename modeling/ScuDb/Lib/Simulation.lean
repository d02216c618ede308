import Mathlib

/-!
# Clients of an interface

A `Script` is a program that calls an interface and goes on with what the calls return.  If every
allowed call of one implementation is matched by another one, then so is every script whose calls are
allowed.  `Agree` relates two computations that return related results or stop in the same way.
-/

/-- Both return, with related results, or both stop with the same error. -/
inductive Agree {ε α β : Type} (R : α → β → Prop) : Except ε α → Except ε β → Prop
  | ok {a : α} {b : β} : R a b → Agree R (.ok a) (.ok b)
  | error (e : ε) : Agree R (.error e) (.error e)

section Agree

variable {ε α β γ δ : Type} {R : α → β → Prop} {S : γ → δ → Prop} {x : Except ε α} {y : Except ε β}

theorem Agree.bind {f : α → Except ε γ} {g : β → Except ε δ} (h : Agree R x y)
    (rest : ∀ a b, R a b → Agree S (f a) (g b)) : Agree S (x >>= f) (y >>= g) := by
  cases h with
  | ok related => exact rest _ _ related
  | error e => exact .error e

theorem agree_refl (x : Except ε α) : Agree Eq x x := by
  cases x with
  | error e => exact .error e
  | ok a => exact .ok rfl

theorem Agree.of_ok {a : α} (h : Agree R x y) (hx : x = .ok a) : ∃ b, y = .ok b ∧ R a b := by
  subst hx
  cases h with
  | ok related => exact ⟨_, rfl, related⟩

/-- A relation between results may use that they are results. -/
theorem Agree.imp {S : α → β → Prop} (h : Agree R x y)
    (more : ∀ a b, x = .ok a → R a b → S a b) : Agree S x y := by
  cases h with
  | ok related => exact .ok (more _ _ rfl related)
  | error e => exact .error e

end Agree

/-- A program that calls an interface. -/
inductive Script {Call : Type} (Reply : Call → Type) (ε α : Type)
  | done (a : α)
  | fail (e : ε)
  | call (c : Call) (next : Reply c → Script Reply ε α)

namespace Script

variable {Call : Type} {Reply : Call → Type} {σ τ ε α : Type}

/-- An implementation of the interface. -/
abbrev Handler (Reply : Call → Type) (σ ε : Type) :=
  (c : Call) → StateT σ (Except ε) (Reply c)

def run (h : Handler Reply σ ε) : Script Reply ε α → StateT σ (Except ε) α
  | done a => pure a
  | fail e => throw e
  | call c next => do run h (next (← h c))

/-- Every call of the run is allowed. -/
def Allowed (h : Handler Reply σ ε) (ok : σ → Call → Prop) : Script Reply ε α → σ → Prop
  | done _, _ => True
  | fail _, _ => True
  | call c next, s => ok s c ∧ ∀ r s', h c s = .ok (r, s') → Allowed h ok (next r) s'

/-- A call that is allowed and returns is matched by one that returns the same. -/
def Simulates (h : Handler Reply σ ε) (h' : Handler Reply τ ε) (ok : σ → Call → Prop)
    (R : σ → τ → Prop) : Prop :=
  ∀ s t c r s', R s t → ok s c → h c s = .ok (r, s') → ∃ t', h' c t = .ok (r, t') ∧ R s' t'

/-- The same reply, and related states. -/
def SameReply (R : σ → τ → Prop) {ρ : Type} (x : ρ × σ) (y : ρ × τ) : Prop := x.1 = y.1 ∧ R x.2 y.2

theorem exists_of_reply {ρ : Type} {x : Except ε (ρ × σ)} {r : ρ}
    (reply : x.toOption.map Prod.fst = some r) : ∃ s, x = .ok (r, s) := by
  cases x with
  | error e => cases reply
  | ok x =>
    obtain rfl := Option.some.inj reply
    exact ⟨x.2, rfl⟩

theorem SameReply.of_reply {R : σ → τ → Prop} {ρ : Type} {x : Except ε (ρ × σ)}
    {y : Except ε (ρ × τ)} (h : Agree (SameReply R) x y) {r : ρ}
    (reply : x.toOption.map Prod.fst = some r) : ∃ t, y = .ok (r, t) := by
  obtain ⟨s, hx⟩ := exists_of_reply reply
  obtain ⟨⟨r', t⟩, hy, same, -⟩ := h.of_ok hx
  obtain rfl : r = r' := same
  exact ⟨t, hy⟩

/-- An allowed call does the same in both, also when it fails. -/
def Agrees (h : Handler Reply σ ε) (h' : Handler Reply τ ε) (ok : σ → Call → Prop)
    (R : σ → τ → Prop) : Prop :=
  ∀ s t c, R s t → ok s c → Agree (SameReply R) (h c s) (h' c t)

variable {h : Handler Reply σ ε} {h' : Handler Reply τ ε} {ok : σ → Call → Prop} {R : σ → τ → Prop}

theorem allowed_call {c : Call} {next : Reply c → Script Reply ε α} {s : σ} :
    (call c next).Allowed h ok s ↔
      ok s c ∧ ∀ x ∈ (h c s).toOption, (next x.1).Allowed h ok x.2 := by
  refine and_congr_right fun _ => ?_
  cases h c s with
  | error e => simp [Except.toOption]
  | ok x =>
    obtain ⟨r, s'⟩ := x
    simp [Except.toOption]

instance decidableAllowed [∀ s c, Decidable (ok s c)] :
    (script : Script Reply ε α) → (s : σ) → Decidable (script.Allowed h ok s)
  | done _, _ => isTrue trivial
  | fail _, _ => isTrue trivial
  | call c next, _ =>
    have : ∀ x : Reply c × σ, Decidable ((next x.1).Allowed h ok x.2) := fun x =>
      decidableAllowed (next x.1) x.2
    decidable_of_iff' _ allowed_call

/-- A script whose calls are allowed does the same in both. -/
theorem Agrees.run (agrees : Agrees h h' ok R) (script : Script Reply ε α) :
    ∀ {s : σ} {t : τ}, R s t → script.Allowed h ok s →
      Agree (SameReply R) (script.run h s) (script.run h' t) := by
  induction script with
  | done a => exact fun related _ => .ok ⟨rfl, related⟩
  | fail e => exact fun _ _ => .error e
  | call c next ih =>
    intro s t related allowed
    obtain ⟨now, later⟩ := allowed
    have step := agrees s t c related now
    change Agree _ (h c s >>= fun x => (next x.1).run h x.2) (h' c t >>= fun x => (next x.1).run h' x.2)
    generalize h c s = first, h' c t = second at step later
    cases step with
    | error e => exact .error e
    | @ok x y same =>
      change Agree _ ((next x.1).run h x.2) ((next y.1).run h' y.2)
      rw [← same.1]
      exact ih x.1 same.2 (later x.1 x.2 rfl)

theorem run_call {c : Call} {next : Reply c → Script Reply ε α} {s s' : σ} {r : Reply c}
    (first : h c s = .ok (r, s')) : (call c next).run h s = (next r).run h s' := by
  change (h c s >>= fun x => (next x.1).run h x.2) = _
  rw [first]
  rfl

/-- A script whose calls are allowed is matched as a whole. -/
theorem Simulates.run (sim : Simulates h h' ok R) (script : Script Reply ε α) :
    ∀ {s s' : σ} {t : τ} {a : α}, R s t → script.Allowed h ok s → script.run h s = .ok (a, s') →
      ∃ t', script.run h' t = .ok (a, t') ∧ R s' t' := by
  induction script with
  | done a =>
    intro s s' t b related _ run
    cases run
    exact ⟨t, rfl, related⟩
  | fail e =>
    intro s s' t b related _ run
    cases run
  | call c next ih =>
    intro s s' t a related allowed run
    cases first : h c s with
    | error e =>
      change (h c s >>= fun x => (next x.1).run h x.2) = _ at run
      rw [first] at run
      cases run
    | ok x =>
      obtain ⟨r, s₁⟩ := x
      rw [run_call first] at run
      obtain ⟨t₁, matched, related₁⟩ := sim s t c r s₁ related allowed.1 first
      obtain ⟨t', rest, related'⟩ := ih r related₁ (allowed.2 r s₁ first) run
      exact ⟨t', (run_call matched).trans rest, related'⟩

end Script
