import Mathlib.Data.List.Basic

/-!
# Machines with answers

A deterministic machine takes a request and gives an answer and its next state. Two
machines whose steps agree on related states agree on whole runs.
-/
namespace Machine

variable {σ τ ι ο : Type}

def run (step : σ → ι → ο × σ) (s : σ) : List ι → List ο × σ
  | [] => ([], s)
  | i :: is => ((step s i).1 :: (run step (step s i).2 is).1, (run step (step s i).2 is).2)

variable {step : σ → ι → ο × σ} {P : σ → Prop}

theorem run_invariant (keeps : ∀ s i, P s → P (step s i).2) (s : σ) (initial : P s) (is : List ι) :
    P (run step s is).2 := by
  induction is generalizing s with
  | nil => exact initial
  | cons i is ih => exact ih _ (keeps s i initial)

theorem run_answers {good : ο → Prop} (keeps : ∀ s i, P s → good (step s i).1 ∧ P (step s i).2)
    (s : σ) (initial : P s) (is : List ι) : ∀ o ∈ (run step s is).1, good o := by
  induction is generalizing s with
  | nil => simp [run]
  | cons i is ih =>
    obtain ⟨first, next⟩ := keeps s i initial
    exact List.forall_mem_cons.mpr ⟨first, ih _ next⟩

theorem run_simulates {step' : τ → ι → ο × τ} {R : σ → τ → Prop}
    (simulates : ∀ s t i, R s t → (step s i).1 = (step' t i).1 ∧ R (step s i).2 (step' t i).2)
    (s : σ) (t : τ) (initial : R s t) (is : List ι) :
    (run step s is).1 = (run step' t is).1 ∧ R (run step s is).2 (run step' t is).2 := by
  induction is generalizing s t with
  | nil => exact ⟨rfl, initial⟩
  | cons i is ih =>
    obtain ⟨answer, related⟩ := simulates s t i initial
    obtain ⟨answers, last⟩ := ih _ _ related
    exact ⟨by rw [run, run, answer, answers], last⟩

/-! ### Conditions on the steps of a run -/

/-- Every step of a run meets a condition. -/
def Along (next : σ → ι → σ) (good : σ → ι → Prop) : σ → List ι → Prop
  | _, [] => True
  | s, i :: is => good s i ∧ Along next good (next s i) is

theorem along_invariant {next : σ → ι → σ} {good : σ → ι → Prop}
    (keeps : ∀ s i, P s → good s i → P (next s i)) (s : σ) (initial : P s) (is : List ι)
    (along : Along next good s is) : P (is.foldl next s) := by
  induction is generalizing s with
  | nil => exact initial
  | cons i is ih => exact ih _ (keeps s i initial along.1) along.2

end Machine
