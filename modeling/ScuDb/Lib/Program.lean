import Mathlib

/-!
# Programs that keep their state when they fail

A program over a state `σ` returns a value or stops with an error, and in both cases leaves a
state.  `Spec x s Q E` says of a run from `s` that `Q` holds if it returns, and `E` if it stops.
-/

/-- Programs over `σ` that can stop with an `ε`. -/
def Program (σ ε α : Type) := σ → Except ε α × σ

namespace Program

variable {σ ε α β : Type}

instance : Monad (Program σ ε) where
  pure a := fun s => (.ok a, s)
  bind x f := fun s =>
    match x s with
    | (.ok a, s') => f a s'
    | (.error e, s') => (.error e, s')

instance : MonadExceptOf ε (Program σ ε) where
  throw e := fun s => (.error e, s)
  tryCatch x f := fun s =>
    match x s with
    | (.ok a, s') => (.ok a, s')
    | (.error e, s') => f e s'

instance : MonadLift (Except ε) (Program σ ε) where
  monadLift x := fun s => (x, s)

instance : LawfulMonad (Program σ ε) := by
  refine LawfulMonad.mk' _ ?_ ?_ ?_
  · intro α x
    funext s
    change (match x s with
      | (.ok a, s') => (.ok a, s')
      | (.error e, s') => (.error e, s')) = x s
    rcases x s with ⟨r, s'⟩
    cases r <;> rfl
  · exact fun a f => rfl
  · intro α β γ x f g
    funext s
    change (match (match x s with
        | (.ok a, s') => f a s'
        | (.error e, s') => (.error e, s')) with
      | (.ok b, s') => g b s'
      | (.error e, s') => (.error e, s')) = match x s with
      | (.ok a, s') => (f a >>= g) s'
      | (.error e, s') => (.error e, s')
    rcases x s with ⟨r, s'⟩
    cases r <;> rfl

/-- The current state. -/
def read : Program σ ε σ := fun s => (.ok s, s)

/-- A change of the state. -/
def modify (f : σ → σ) : Program σ ε Unit := fun s => (.ok (), f s)

/-- A run from `s` returns with `Q` or stops with `E`. -/
def Spec (x : Program σ ε α) (s : σ) (Q : α → σ → Prop) (E : ε → σ → Prop) : Prop :=
  match x s with
  | (.ok a, s') => Q a s'
  | (.error e, s') => E e s'

section Rules

variable {x : Program σ ε α} {f : α → Program σ ε β} {s s' : σ} {a : α} {e : ε}
  {P Q : α → σ → Prop} {R : β → σ → Prop} {E E' : ε → σ → Prop}

theorem bind_returns (h : x s = (.ok a, s')) : (x >>= f) s = f a s' := by
  change (match x s with
    | (.ok a, s') => f a s'
    | (.error e, s') => (.error e, s')) = _
  rw [h]

theorem bind_stops (h : x s = (.error e, s')) : (x >>= f) s = (.error e, s') := by
  change (match x s with
    | (.ok a, s') => f a s'
    | (.error e, s') => (.error e, s')) = _
  rw [h]

theorem Spec.bind (first : Spec x s P E) (rest : ∀ a s', P a s' → Spec (f a) s' R E) :
    Spec (x >>= f) s R E := by
  unfold Spec at first
  change match (match x s with
    | (.ok a, s') => f a s'
    | (.error e, s') => (.error e, s')) with
    | (.ok a, s') => R a s'
    | (.error e, s') => E e s'
  rcases h : x s with ⟨r, s'⟩
  rw [h] at first
  cases r with
  | error e => exact first
  | ok a => exact rest a s' first

theorem Spec.bind_eq {t : σ} (first : x s = (.ok a, t)) (rest : Spec (f a) t R E) :
    Spec (x >>= f) s R E := by
  have : Spec x s (fun b u => b = a ∧ u = t) E := by
    unfold Spec
    rw [first]
    exact ⟨rfl, rfl⟩
  refine Spec.bind this ?_
  rintro _ _ ⟨rfl, rfl⟩
  exact rest

theorem Spec.mono (h : Spec x s P E) (hQ : ∀ a s', P a s' → Q a s')
    (hE : ∀ e s', E e s' → E' e s') : Spec x s Q E' := by
  unfold Spec at h ⊢
  rcases hx : x s with ⟨r, s'⟩
  rw [hx] at h
  cases r with
  | error e => exact hE e s' h
  | ok a => exact hQ a s' h

theorem Spec.post (h : Spec x s P E) (hQ : ∀ a s', P a s' → Q a s') : Spec x s Q E :=
  h.mono hQ fun _ _ => id

theorem Spec.and (h : Spec x s P E) (h' : Spec x s Q E') :
    Spec x s (fun a s' => P a s' ∧ Q a s') fun e s' => E e s' ∧ E' e s' := by
  unfold Spec at h h' ⊢
  rcases hx : x s with ⟨r, s'⟩
  rw [hx] at h h'
  cases r with
  | error e => exact ⟨h, h'⟩
  | ok a => exact ⟨h, h'⟩

theorem spec_any (x : Program σ ε α) (s : σ) : Spec x s (fun _ _ => True) fun _ _ => True := by
  unfold Spec
  split <;> trivial

theorem spec_pure (h : Q a s) : Spec (pure a : Program σ ε α) s Q E := h

theorem spec_throw (h : E e s) : Spec (throw e : Program σ ε α) s Q E := h

theorem spec_lift {y : Except ε α} (hy : y = .ok a) (h : Q a s) :
    Spec (liftM y : Program σ ε α) s Q E := by
  subst hy
  exact h

/-- A pure step that may stop. -/
theorem spec_bind_lift {y : Except ε α} (stops : ∀ e, y = .error e → E e s)
    (returns : ∀ a, y = .ok a → Spec (f a) s R E) : Spec (liftM y >>= f) s R E := by
  cases y with
  | error e => exact stops e rfl
  | ok a => exact returns a rfl

theorem spec_modify {Q : Unit → σ → Prop} {g : σ → σ} (h : Q () (g s)) :
    Spec (modify g : Program σ ε Unit) s Q E := h

/-- A program with a specification that excludes errors returns. -/
theorem Spec.returns (h : Spec x s Q fun _ _ => False) : ∃ a s', x s = (.ok a, s') ∧ Q a s' := by
  unfold Spec at h
  rcases hx : x s with ⟨r, s'⟩
  rw [hx] at h
  cases r with
  | error e => exact h.elim
  | ok a => exact ⟨a, s', rfl, h⟩

theorem Spec.of_ok (h : Spec x s Q E) (hx : x s = (.ok a, s')) : Q a s' := by
  unfold Spec at h
  rwa [hx] at h

/-- A loop over a list, with what holds before the rounds that are left. -/
theorem spec_forM {g : α → Program σ ε PUnit} {P : List α → σ → Prop}
    (round : ∀ a l s, P (a :: l) s → Spec (g a) s (fun _ => P l) E) (l : List α) :
    ∀ {s : σ}, P l s → Spec (l.forM g) s (fun _ => P []) E := by
  induction l with
  | nil => exact fun hs => hs
  | cons a l ih =>
    intro s hs
    change Spec (g a >>= fun _ => l.forM g) s _ E
    exact Spec.bind (round a l s hs) fun _ s' h => ih h

end Rules

/-! ## Relations between the states -/

/-- Every run, also one that stops, leaves a state that is related to the one before it. -/
def Keeps (R : σ → σ → Prop) (x : Program σ ε α) : Prop := ∀ s, R s (x s).2

section Keeps

variable {R : σ → σ → Prop} {x : Program σ ε α} {f : α → Program σ ε β}

theorem Keeps.spec (h : Keeps R x) (s : σ) :
    Spec x s (fun _ s' => R s s') (fun _ s' => R s s') := by
  have := h s
  unfold Spec
  rcases hx : x s with ⟨r, s'⟩
  rw [hx] at this
  cases r with
  | error e => exact this
  | ok a => exact this

theorem Keeps.bind [IsTrans σ R] (hx : Keeps R x) (hf : ∀ a, Keeps R (f a)) :
    Keeps R (x >>= f) := by
  intro s
  have first := hx s
  change R s (match x s with
    | (.ok a, s') => f a s'
    | (.error e, s') => (.error e, s')).2
  rcases h : x s with ⟨r, s'⟩
  rw [h] at first
  cases r with
  | error e => exact first
  | ok a => exact IsTrans.trans _ _ _ first (hf a s')

variable [Std.Refl R]

theorem keeps_pure (a : α) : Keeps R (pure a : Program σ ε α) := fun s => refl s

theorem keeps_throw (e : ε) : Keeps R (throw e : Program σ ε α) := fun s => refl s

theorem keeps_lift (y : Except ε α) : Keeps R (liftM y : Program σ ε α) := fun s => refl s

theorem keeps_read : Keeps R (read : Program σ ε σ) := fun s => refl s

theorem keeps_forM [IsTrans σ R] {g : α → Program σ ε PUnit} (h : ∀ a, Keeps R (g a)) (l : List α) :
    Keeps R (l.forM g) := by
  induction l with
  | nil => exact keeps_pure _
  | cons a l ih => exact (h a).bind fun _ => ih

end Keeps

/-! ## Runs in an image of the state -/

/-- From an image of the state, a run returns the same and leaves the image of what it leaves, unless
it stops with `Stop`. -/
def Tracks (g : σ → σ) (Stop : ε → σ → Prop) (x : Program σ ε α) : Prop :=
  ∀ s, (∃ e s', x s = (.error e, s') ∧ Stop e s') ∨ x (g s) = ((x s).1, g (x s).2)

section Tracks

variable {g : σ → σ} {Stop : ε → σ → Prop} {x : Program σ ε α} {f : α → Program σ ε β}

theorem Tracks.bind (hx : Tracks g Stop x) (hf : ∀ a, Tracks g Stop (f a)) :
    Tracks g Stop (x >>= f) := by
  intro s
  change (∃ e s', (match x s with
    | (.ok a, s') => f a s'
    | (.error e, s') => (.error e, s')) = (.error e, s') ∧ Stop e s') ∨
    (match x (g s) with
    | (.ok a, s') => f a s'
    | (.error e, s') => (.error e, s')) = _
  obtain ⟨e, s', run, stop⟩ | run := hx s
  · rw [run]
    exact .inl ⟨e, s', rfl, stop⟩
  · rw [run]
    change _ ∨ _ = ((match x s with
      | (.ok a, s') => f a s'
      | (.error e, s') => (.error e, s')).1, g (match x s with
      | (.ok a, s') => f a s'
      | (.error e, s') => (.error e, s')).2)
    rcases x s with ⟨r, s'⟩
    cases r with
    | error e => exact .inr rfl
    | ok a => exact hf a s'

theorem tracks_pure (a : α) : Tracks g Stop (pure a : Program σ ε α) := fun _ => .inr rfl

theorem tracks_throw (e : ε) : Tracks g Stop (throw e : Program σ ε α) := fun _ => .inr rfl

theorem tracks_lift (y : Except ε α) : Tracks g Stop (liftM y : Program σ ε α) := fun _ => .inr rfl

theorem tracks_modify {h : σ → σ} (comm : ∀ s, h (g s) = g (h s)) :
    Tracks g Stop (modify h : Program σ ε Unit) := fun s => .inr (by
  change (Except.ok (), h (g s)) = (Except.ok (), g (h s))
  rw [comm])

/-- What is read may differ in the image, but not what is done with it. -/
theorem tracks_read_bind {f : σ → Program σ ε α} (same : ∀ s, f (g s) = f s)
    (h : ∀ s, Tracks g Stop (f s)) : Tracks g Stop (read >>= f) := by
  intro s
  change _ ∨ f (g s) (g s) = _
  rw [same]
  exact h s s

theorem tracks_forM {h : α → Program σ ε PUnit} (each : ∀ a, Tracks g Stop (h a)) (l : List α) :
    Tracks g Stop (l.forM h) := by
  induction l with
  | nil => exact tracks_pure _
  | cons a l ih => exact (each a).bind fun _ => ih

end Tracks

/-! ## Invariants -/

/-- From a state with `I`, a run that returns leaves such a state, and its result has `Q`. -/
def Maintains (I : σ → Prop) (x : Program σ ε α) (Q : α → Prop) : Prop :=
  ∀ s, I s → Spec x s (fun a s' => I s' ∧ Q a) fun _ _ => True

section Maintains

variable {I : σ → Prop} {x : Program σ ε α} {f : α → Program σ ε β} {Q Q' : α → Prop}
  {R : β → Prop}

theorem Maintains.bind (hx : Maintains I x Q) (hf : ∀ a, Q a → Maintains I (f a) R) :
    Maintains I (x >>= f) R :=
  fun s hs => Spec.bind (hx s hs) fun a s' h => hf a h.2 s' h.1

theorem Maintains.mono (hx : Maintains I x Q) (h : ∀ a, Q a → Q' a) : Maintains I x Q' :=
  fun s hs => (hx s hs).post fun a _ r => ⟨r.1, h a r.2⟩

theorem Maintains.any (hx : Maintains I x Q) : Maintains I x fun _ => True :=
  hx.mono fun _ _ => trivial

theorem maintains_pure {a : α} (h : Q a) : Maintains I (pure a : Program σ ε α) Q :=
  fun _ hs => spec_pure ⟨hs, h⟩

theorem maintains_throw (e : ε) : Maintains I (throw e : Program σ ε α) Q :=
  fun _ _ => spec_throw trivial

theorem maintains_lift {y : Except ε α} (h : ∀ a, y = .ok a → Q a) :
    Maintains I (liftM y : Program σ ε α) Q := by
  intro s hs
  cases y with
  | error e => exact trivial
  | ok a => exact ⟨hs, h a rfl⟩

theorem maintains_read : Maintains I (read : Program σ ε σ) I := fun _ hs => ⟨hs, hs⟩

theorem maintains_modify {g : σ → σ} (h : ∀ s, I s → I (g s)) :
    Maintains I (modify g : Program σ ε Unit) fun _ => True :=
  fun s hs => ⟨h s hs, trivial⟩

theorem maintains_forM {g : α → Program σ ε PUnit} (each : ∀ a, Maintains I (g a) fun _ => True)
    (l : List α) : Maintains I (l.forM g) fun _ => True := by
  induction l with
  | nil => exact maintains_pure trivial
  | cons a l ih => exact (each a).bind fun _ _ => ih

end Maintains

end Program
