import Mathlib.Data.List.Basic

/-!
# Programs in step with a specification

A program performs operations on a state and may stop with an error. Beside it a specification
answers the same operations on states of its own and never stops. The two are in lockstep along
a list of operations if after every one of them the program has returned the specified answer
and the states are related.
-/
namespace Lockstep

variable {ε σ τ ι ο : Type}

/-- A property of the specification's state and the operation, at each operation of a list. -/
def Along (spec : τ → ι → ο × τ) (P : τ → ι → Prop) : τ → List ι → Prop
  | _, [] => True
  | t, i :: is => P t i ∧ Along spec P (spec t i).2 is

/-- Each step gives the answer of the specification, and the states stay related. -/
def InStep (step : ι → EStateM ε σ ο) (spec : τ → ι → ο × τ) (R : σ → τ → Prop) :
    σ → τ → List ι → Prop
  | s, t, [] => R s t
  | s, t, i :: is =>
    R s t ∧ ∃ s', step i s = .ok (spec t i).1 s' ∧ InStep step spec R s' (spec t i).2 is

variable {step : ι → EStateM ε σ ο} {spec : τ → ι → ο × τ} {R : σ → τ → Prop}

def Follows (step : ι → EStateM ε σ ο) (spec : τ → ι → ο × τ) (R : σ → τ → Prop) (s : σ) (t : τ)
    (i : ι) : Prop :=
  ∃ s', step i s = .ok (spec t i).1 s' ∧ R s' (spec t i).2

variable {s : σ} {t : τ} {P Sound : τ → ι → Prop}

theorem follows_of {s' : σ} {t' : τ} {i : ι} {o : ο} (specified : spec t i = (o, t'))
    (answered : step i s = .ok o s') (related : R s' t') : Follows step spec R s t i := by
  unfold Follows
  rw [specified]
  exact ⟨s', answered, related⟩

theorem InStep.related {is : List ι} (run : InStep step spec R s t is) : R s t := by
  cases is with
  | nil => exact run
  | cons i is => exact run.1

theorem along_of_forall (holds : ∀ t i, P t i) (t : τ) (is : List ι) :
    Along spec P t is := by
  induction is generalizing t with
  | nil => trivial
  | cons i is ih => exact ⟨holds t i, ih _⟩

theorem inStep_observed_iff {C : σ → τ → Prop} (observed : ∀ s t, R s t → C s t)
    (sound : ∀ s t i, R s t → P t i → Sound t i → Follows step spec R s t i)
    (necessary : ∀ s t i, R s t → P t i → Follows step spec C s t i → Sound t i) (s : σ) (t : τ)
    (start : R s t) (is : List ι) (within : Along spec P t is) :
    InStep step spec C s t is ↔ Along spec Sound t is := by
  induction is generalizing s t with
  | nil => exact iff_of_true (observed s t start) trivial
  | cons i is ih =>
    constructor
    · rintro ⟨_, s', answered, later⟩
      have here := necessary s t i start within.1 ⟨s', answered, later.related⟩
      -- the run is at the state for which the invariant is known
      obtain ⟨s'', eq, kept⟩ := sound s t i start within.1 here
      rw [answered] at eq
      cases eq
      exact ⟨here, (ih s' _ kept within.2).mp later⟩
    · rintro ⟨here, rest⟩
      obtain ⟨s', answered, kept⟩ := sound s t i start within.1 here
      exact ⟨observed s t start, s', answered, (ih s' _ kept within.2).mpr rest⟩

theorem inStep_iff {Pre : τ → ι → Prop}
    (each : ∀ s t i, R s t → Pre t i → (Follows step spec R s t i ↔ Sound t i)) (s : σ) (t : τ)
    (start : R s t) (is : List ι) (within : Along spec Pre t is) :
    InStep step spec R s t is ↔ Along spec Sound t is :=
  inStep_observed_iff (fun _ _ related => related)
    (fun s t i related bounded => (each s t i related bounded).mpr)
    (fun s t i related bounded => (each s t i related bounded).mp) s t start is within

/-- The program returns the specified answers, whatever its states are. -/
def Answers (step : ι → EStateM ε σ ο) (spec : τ → ι → ο × τ) : σ → τ → List ι → Prop :=
  InStep step spec fun _ _ => True

theorem answers_cons (s : σ) (t : τ) (i : ι) (is : List ι) :
    Answers step spec s t (i :: is) ↔
      ∃ s', step i s = .ok (spec t i).1 s' ∧ Answers step spec s' (spec t i).2 is := by
  exact and_iff_right trivial

/-! ### At every point of a run -/

/-- A property of the state before the first step and after every one. -/
def Throughout (next : σ → ι → σ) (I : σ → Prop) (s : σ) (is : List ι) : Prop :=
  ∀ done later, is = done ++ later → I (done.foldl next s)

section Throughout

variable {next : σ → ι → σ} {I : σ → Prop}

theorem throughout_nil (s : σ) : Throughout next I s [] ↔ I s := by
  constructor
  · intro always
    exact always [] [] rfl
  · intro holds done later split
    obtain ⟨rfl, -⟩ := List.append_eq_nil_iff.mp split.symm
    exact holds

theorem throughout_cons (s : σ) (i : ι) (is : List ι) :
    Throughout next I s (i :: is) ↔ I s ∧ Throughout next I (next s i) is := by
  constructor
  · intro always
    refine ⟨always [] (i :: is) rfl, ?_⟩
    intro done later split
    exact always (i :: done) later (by rw [split]; rfl)
  · rintro ⟨fst, always⟩ done later split
    cases done with
    | nil => exact fst
    | cons head done =>
      obtain ⟨rfl, rest⟩ := List.cons_eq_cons.mp split
      exact always done later rest

theorem Throughout.start {s : σ} {is : List ι} (always : Throughout next I s is) : I s :=
  always [] is rfl

theorem throughout_iff {Sound : σ → ι → Prop} (each : ∀ s i, I s → (I (next s i) ↔ Sound s i))
    (s : σ) (start : I s) (is : List ι) :
    Throughout next I s is ↔ Along (fun s i => ((), next s i)) Sound s is := by
  induction is generalizing s with
  | nil => exact iff_of_true ((throughout_nil s).mpr start) trivial
  | cons i is ih =>
    rw [throughout_cons, and_iff_right start, Along]
    constructor
    · intro always
      exact ⟨(each s i start).mp always.start, (ih _ always.start).mp always⟩
    · rintro ⟨sound, rest⟩
      exact (ih _ ((each s i start).mpr sound)).mpr rest

end Throughout

end Lockstep
