import Mathlib.Order.Defs.Unbundled

/-!
# Programs with state and exceptions

Rules for `EStateM`, whose exceptions keep the state they were thrown in: what it means
that a composed program returned, and that a program changes the state only along a
given relation, however it ends.
-/
namespace Exec

variable {ε σ α β : Type}

/-! ### Programs that return -/

variable {m n : EStateM ε σ α} {f : α → EStateM ε σ β} {s s' : σ} {b : β} {a : α} {e : ε} {p : Prop}

theorem bind_ok_iff {s'' : σ} :
    (m >>= f) s = .ok b s'' ↔ ∃ a s', m s = .ok a s' ∧ f a s' = .ok b s'' := by
  change EStateM.bind m f s = _ ↔ _
  simp only [EStateM.bind]
  cases h : m s with
  | ok a s' =>
    constructor
    · intro later
      exact ⟨a, s', rfl, later⟩
    · rintro ⟨_, _, same, later⟩
      cases same
      exact later
  | error e s' => simp

theorem bind_of_ok (fst : m s = .ok a s') : (m >>= f) s = f a s' := by
  change EStateM.bind m f s = _
  simp only [EStateM.bind, fst]

theorem get_bind {f : σ → EStateM ε σ β} : (get >>= f) s = f s s := rfl

theorem bind_of_error (fst : m s = .error e s') : (m >>= f) s = .error e s' := by
  change EStateM.bind m f s = _
  simp only [EStateM.bind, fst]

theorem map_ok (f : α → β) (fst : m s = .ok a s') :
    (f <$> m) s = .ok (f a) s' := by
  change EStateM.map f m s = _
  simp only [EStateM.map, fst]

theorem map_ok_iff {f : α → β} :
    (f <$> m) s = .ok b s' ↔ ∃ a, m s = .ok a s' ∧ f a = b := by
  change EStateM.map f m s = _ ↔ _
  simp only [EStateM.map]
  cases m s with
  | ok a s'' =>
    constructor
    · intro mapped
      cases mapped
      exact ⟨a, rfl, rfl⟩
    · rintro ⟨_, eq, rfl⟩
      cases eq
      rfl
  | error e s'' => simp

theorem map_error (f : α → β) (fst : m s = .error e s') :
    (f <$> m) s = .error e s' := by
  change EStateM.map f m s = _
  simp only [EStateM.map, fst]

theorem pure_ok_iff {b : α} :
    (pure a : EStateM ε σ α) s = .ok b s' ↔ a = b ∧ s = s' := by
  change EStateM.Result.ok a s = _ ↔ _
  simp

theorem ite_run_pos [Decidable p] (holds : p) :
    (if p then m else n) s = m s := by
  rw [if_pos holds]

theorem ite_run_neg [Decidable p] (fails : ¬ p) :
    (if p then m else n) s = n s := by
  rw [if_neg fails]

def catching (answer : ε → Option α) (m : EStateM ε σ α) : EStateM ε σ α := fun s =>
  match m s with
  | .ok a s' => .ok a s'
  | .error e s' =>
    match answer e with
    | some a => .ok a s'
    | none => .error e s'

section Catching

variable {answer : ε → Option α} {m : EStateM ε σ α} {s s' : σ} {a : α} {e : ε}

theorem catching_ok (ran : m s = .ok a s') : catching answer m s = .ok a s' := by
  simp only [catching, ran]

theorem catching_caught (failed : m s = .error e s') (answered : answer e = some a) :
    catching answer m s = .ok a s' := by
  simp only [catching, failed, answered]

theorem catching_error (failed : m s = .error e s') (unanswered : answer e = none) :
    catching answer m s = .error e s' := by
  simp only [catching, failed, unanswered]

theorem returned_of_catching (ran : catching answer m s = .ok a s')
    (ne : ∀ e, answer e ≠ some a) :
    m s = .ok a s' := by
  unfold catching at ran
  split at ran
  next returned => exact returned.trans ran
  next e _ failed =>
    split at ran
    next answered =>
      cases ran
      exact absurd answered (ne e)
    next => cases ran

end Catching

def finalState : EStateM.Result ε σ α → σ
  | .ok _ s => s
  | .error _ s => s

def IsError : EStateM.Result ε σ α → Prop
  | .ok _ _ => False
  | .error _ _ => True

instance : (r : EStateM.Result ε σ α) → Decidable (IsError r)
  | .ok _ _ => isFalse id
  | .error _ _ => isTrue trivial

def Preserves (R : σ → σ → Prop) (m : EStateM ε σ α) : Prop := ∀ s, R s (finalState (m s))

theorem Preserves.of_ok {R : σ → σ → Prop} {m : EStateM ε σ α} (keeps : Preserves R m)
    {s s' : σ} {a : α} (ret : m s = .ok a s') : R s s' := by
  have related := keeps s
  rwa [ret] at related

section Rules

variable {R : σ → σ → Prop}

theorem Preserves.pure (refl : ∀ s, R s s) (a : α) : Preserves R (pure a : EStateM ε σ α) :=
  refl

theorem Preserves.bind (trans : ∀ a b c, R a b → R b c → R a c) {m : EStateM ε σ α}
    {f : α → EStateM ε σ β} (first : Preserves R m) (rest : ∀ a, Preserves R (f a)) :
    Preserves R (m >>= f) := by
  intro s
  have begun := first s
  change R s (finalState (EStateM.bind m f s))
  simp only [EStateM.bind]
  cases h : m s with
  | ok a s' =>
    rw [h] at begun
    exact trans _ _ _ begun (rest a s')
  | error e s' => rwa [h] at begun

theorem Preserves.ite {p : Prop} [Decidable p] {m n : EStateM ε σ α} (yes : Preserves R m)
    (no : Preserves R n) : Preserves R (if p then m else n) := by
  split
  · exact yes
  · exact no

end Rules

/-! ### Programs that ignore a part of the state -/

def mapState (f : σ → σ) : EStateM.Result ε σ α → EStateM.Result ε σ α
  | .ok a s => .ok a (f s)
  | .error e s => .error e (f s)

theorem finalState_mapState (f : σ → σ) (r : EStateM.Result ε σ α) :
    finalState (mapState f r) = f (finalState r) := by
  cases r <;> rfl

def Commutes (f : σ → σ) (m : EStateM ε σ α) : Prop := ∀ s, m (f s) = mapState f (m s)

section Commuting

variable {f : σ → σ}

theorem Commutes.pure (a : α) : Commutes f (pure a : EStateM ε σ α) := fun _ => rfl

theorem Commutes.bind {m : EStateM ε σ α} {rest : α → EStateM ε σ β} (first : Commutes f m)
    (later : ∀ a, Commutes f (rest a)) : Commutes f (m >>= rest) := by
  intro s
  change EStateM.bind m rest (f s) = mapState f (EStateM.bind m rest s)
  simp only [EStateM.bind, first s]
  cases m s with
  | ok a s' => exact later a s'
  | error e s' => rfl

theorem Commutes.ite {p : Prop} [Decidable p] {m n : EStateM ε σ α} (yes : Commutes f m)
    (no : Commutes f n) : Commutes f (if p then m else n) := by
  split
  · exact yes
  · exact no

end Commuting

end Exec
