import Mathlib.Tactic.Cases
import Engine3.Library.Machine

/-!
# Reference counts

An object and the block of its two counters, shared by any number of threads. A
`Reference` holds a strong count, a `WeakReference` a weak one, and the object itself one
weak count until its destructor runs. A run begins when the first `Reference` to a new
object has been made, and no two threads use one `WeakReference` at once. Where
`notifyDestroy` refuses, the thread that took the last reference goes no further.
-/
namespace Engine3

structure ReferenceCounter where
  references : UInt32
  deriving DecidableEq, Repr

namespace ReferenceCounter

def increaseCount (r : ReferenceCounter) : ReferenceCounter := ⟨r.references + 2⟩

def decrementAndTestAndSet (r : ReferenceCounter) : Bool × ReferenceCounter :=
  let newVal := r.references - 2
  let newVal := if newVal = 0 then 1 else newVal
  ((r.references - newVal) &&& 1 != 0, ⟨newVal⟩)

def tryFinalDecrement (r : ReferenceCounter) : Bool × ReferenceCounter :=
  if r.references ≠ 2 then (false, r) else (true, ⟨1⟩)

def Counts (r : ReferenceCounter) (held ended : Nat) : Prop :=
  (0 < held ∧ ended = 0 ∧ r.references.toNat = 2 * held) ∨
  (held = 0 ∧ ended = 1 ∧ r.references.toNat % 2 = 1)

variable {r : ReferenceCounter} {held held' ended ended' : Nat}

theorem toNat_increaseCount (r : ReferenceCounter) :
    r.increaseCount.references.toNat = (r.references.toNat + 2) % 4294967296 :=
  UInt32.toNat_add r.references 2

theorem odd_iff (x : UInt32) : x &&& 1 ≠ 0 ↔ x.toNat % 2 = 1 := by
  have h1 : (x &&& 1).toNat = x.toNat % 2 := by
    rw [UInt32.toNat_and]
    exact Nat.and_one_is_mod x.toNat
  rw [ne_eq, ← UInt32.toNat_inj, h1]
  change ¬ x.toNat % 2 = 0 ↔ _
  omega

theorem Counts.of_eq (h : Counts r held ended) (h1 : held' = held) (h2 : ended' = ended) :
    Counts r held' ended' := by
  rwa [h1, h2]

theorem Counts.increase (h : Counts r held ended) (h0 : 0 < held) (h1 : held' = held + 1)
    (fits : held < 2147483647) : Counts r.increaseCount held' ended := by
  rcases h with ⟨-, h2, h3⟩ | ⟨h2, -⟩
  · exact Or.inl ⟨by omega, h2, by rw [toNat_increaseCount]; omega⟩
  · omega

theorem Counts.increase_ended (h : Counts r 0 ended) : Counts r.increaseCount 0 ended := by
  rcases h with ⟨h1, -⟩ | ⟨-, h2, h3⟩
  · omega
  · exact Or.inr ⟨rfl, h2, by rw [toNat_increaseCount]; omega⟩

theorem Counts.decrement (h : Counts r held ended) (h1 : held = held' + 1)
    (h2 : ended' = ended + r.decrementAndTestAndSet.1.toNat) :
    Counts r.decrementAndTestAndSet.2 held' ended' := by
  rcases h with ⟨-, h3, h4⟩ | ⟨h3, -⟩
  · rcases Nat.eq_zero_or_pos held' with rfl | hpos
    · -- from two to one, and the lowest bit tells
      have h5 : r.references = 2 := UInt32.toNat_inj.mp (by rw [h4, h1]; rfl)
      obtain rfl : r = ⟨2⟩ := by rw [← h5]
      subst h2 h3
      exact Or.inr ⟨rfl, rfl, rfl⟩
    · have h5 : (r.references - 2).toNat = 2 * held' := by
        have h6 : (2 : UInt32).toNat = 2 := rfl
        have h7 := r.references.toNat_lt
        rw [UInt32.toNat_sub]
        omega
      have h6 : r.references - 2 ≠ 0 := by
        intro h7
        rw [h7] at h5
        exact absurd h5 (by simp; omega)
      have h7 : r.references - (r.references - 2) = 2 := by grind
      simp only [decrementAndTestAndSet, if_neg h6, h7] at h2 ⊢
      exact Or.inl ⟨hpos, by rw [h2, h3]; rfl, h5⟩
  · omega

end ReferenceCounter

structure CountedObject where
  strong : ReferenceCounter
  weak : ReferenceCounter
  /-- The pointer of the counters to the object is not null. -/
  object : Bool
  references : Nat
  weakReferences : Nat
  /-- Threads with a weak count from `safeRead`, and those of them in `get` that passed
  the test of the lowest bit. -/
  readers : Nat
  getters : Nat
  /-- Threads that took the last reference: before the pointer is cleared, and before
  `notifyDestroy`. -/
  lastReleases : Nat
  notifiers : Nat
  /-- How often the destructor ran, and how often the counters were deleted. -/
  destructions : Nat
  deletions : Nat
  deriving DecidableEq, Repr

inductive CountedStep
  | acquire | release | tryFinalRelease | clearObject | destroy
  | requestWeak | safeRead | increaseStrongCount | getObjectReference | copyWeak
  | releaseCounters | releaseWeak
  deriving DecidableEq, Repr

namespace CountedObject

open ReferenceCounter Machine

def start : CountedObject :=
  { strong := ⟨2⟩, weak := ⟨2⟩, object := true, references := 1, weakReferences := 0,
    readers := 0, getters := 0, lastReleases := 0, notifiers := 0, destructions := 0,
    deletions := 0 }

def waiting (s : CountedObject) : CountedStep → Nat
  | .acquire | .release | .tryFinalRelease | .requestWeak => s.references
  | .clearObject => s.lastReleases
  | .destroy => s.notifiers
  | .safeRead | .releaseWeak => s.weakReferences
  | .increaseStrongCount | .copyWeak | .releaseCounters => s.readers
  | .getObjectReference => s.getters

def decrementStrong (s : CountedObject) : CountedObject := { s with
  strong := s.strong.decrementAndTestAndSet.2
  lastReleases := s.lastReleases + s.strong.decrementAndTestAndSet.1.toNat }

def decrementWeak (s : CountedObject) : CountedObject := { s with
  weak := s.weak.decrementAndTestAndSet.2
  deletions := s.deletions + s.weak.decrementAndTestAndSet.1.toNat }

def fire (s : CountedObject) : CountedStep → CountedObject
  | .acquire => { s with strong := s.strong.increaseCount, references := s.references + 1 }
  | .release => { s.decrementStrong with references := s.references - 1 }
  | .tryFinalRelease =>
    match s.strong.tryFinalDecrement with
    | (false, _) => s
    | (true, strong) => { s with
        strong := strong, references := s.references - 1, lastReleases := s.lastReleases + 1 }
  | .clearObject => { s with
      object := false, lastReleases := s.lastReleases - 1, notifiers := s.notifiers + 1 }
  | .destroy => { s.decrementWeak with
      notifiers := s.notifiers - 1, destructions := s.destructions + 1 }
  | .requestWeak => { s with
      weak := s.weak.increaseCount, weakReferences := s.weakReferences + 1 }
  | .safeRead => { s with weak := s.weak.increaseCount, readers := s.readers + 1 }
  | .increaseStrongCount =>
    -- when the last reference is gone the count stays increased
    if s.strong.increaseCount.references &&& 1 ≠ 0 then
      { s with strong := s.strong.increaseCount }
    else { s with
      strong := s.strong.increaseCount, readers := s.readers - 1, getters := s.getters + 1 }
  | .getObjectReference => { s with
      getters := s.getters - 1, references := s.references + 1, readers := s.readers + 1 }
  | .copyWeak => { s with
      weak := s.weak.increaseCount, weakReferences := s.weakReferences + 1 }
  | .releaseCounters => { s.decrementWeak with readers := s.readers - 1 }
  | .releaseWeak => { s.decrementWeak with weakReferences := s.weakReferences - 1 }

def step (s : CountedObject) (i : CountedStep) : CountedObject :=
  if s.waiting i = 0 then s else s.fire i

def gone (s : CountedObject) : CountedStep → Bool
  | .acquire | .release | .tryFinalRelease | .requestWeak | .destroy =>
    s.destructions != 0 || s.deletions != 0
  | .getObjectReference => s.destructions != 0 || s.deletions != 0 || !s.object
  | _ => s.deletions != 0

/-! ### What the counters say -/

def strongHeld (s : CountedObject) : Nat := s.references + s.getters

def weakHeld (s : CountedObject) : Nat :=
  1 - s.destructions + s.weakReferences + s.readers + s.getters

def ended (s : CountedObject) : Nat :=
  s.lastReleases + s.notifiers + s.destructions

/-- The counts of the two counters fit into 31 bits, with one to spare. -/
def Fits (s : CountedObject) : Prop := s.strongHeld < 2147483647 ∧ s.weakHeld < 2147483647

instance (s : CountedObject) : Decidable s.Fits := inferInstanceAs (Decidable (_ ∧ _))

structure Counted (s : CountedObject) : Prop where
  strong : s.strong.Counts s.strongHeld s.ended
  weak : s.weak.Counts s.weakHeld s.deletions
  present : s.ended = 0 → s.object = true

theorem counted_start : Counted start :=
  ⟨Or.inl ⟨by decide, rfl, rfl⟩, Or.inl ⟨by decide, rfl, rfl⟩, fun _ => rfl⟩

variable {s : CountedObject}

theorem Counted.alive (h : Counted s) (h1 : 0 < s.strongHeld) : s.ended = 0 := by
  rcases h.strong with ⟨-, h2, -⟩ | ⟨h2, -⟩
  · exact h2
  · omega

theorem Counted.ended_le (h : Counted s) : s.ended ≤ 1 := by
  rcases h.strong with ⟨-, h1, -⟩ | ⟨-, h1, -⟩ <;> omega

theorem Counted.counters (h : Counted s) (h1 : 0 < s.weakHeld) : s.deletions = 0 := by
  rcases h.weak with ⟨-, h2, -⟩ | ⟨h2, -⟩
  · exact h2
  · omega

theorem Counted.not_gone (h : Counted s) (i : CountedStep) (h0 : s.waiting i ≠ 0) :
    s.gone i = false := by
  have sound : s.strongHeld = s.references + s.getters := rfl
  have hw : s.weakHeld = 1 - s.destructions + s.weakReferences + s.readers + s.getters := rfl
  have he : s.ended = s.lastReleases + s.notifiers + s.destructions := rfl
  have h1 := h.ended_le
  have h2 := h.alive
  -- until its destructor runs, the object holds a weak count
  have h3 : s.deletions = 0 := by
    apply h.counters
    cases i <;> rw [waiting] at h0 <;> omega
  cases i <;> rw [waiting] at h0
  case getObjectReference => simp [gone, h3, h.present (by omega), show s.destructions = 0 by omega]
  case acquire | release | tryFinalRelease | requestWeak | destroy =>
    simp [gone, h3, show s.destructions = 0 by omega]
  all_goals simp [gone, h3]

theorem Counted.fire (h : Counted s) (fits : s.Fits) (i : CountedStep) (h0 : s.waiting i ≠ 0) :
    Counted (s.fire i) := by
  have sound : s.strongHeld = s.references + s.getters := rfl
  have hw : s.weakHeld = 1 - s.destructions + s.weakReferences + s.readers + s.getters := rfl
  have he : s.ended = s.lastReleases + s.notifiers + s.destructions := rfl
  have h1 := h.ended_le
  have h2 := h.alive
  cases i <;> rw [waiting] at h0
  case acquire =>
    refine ⟨h.strong.increase (by omega) ?_ fits.1, h.weak, h.present⟩
    simp only [CountedObject.fire, strongHeld]
    omega
  case release =>
    refine ⟨h.strong.decrement ?_ ?_, h.weak, fun _ => h.present (by omega)⟩
    · simp only [CountedObject.fire, decrementStrong, strongHeld]
      omega
    · simp only [CountedObject.fire, decrementStrong, ended]
      omega
  case tryFinalRelease =>
    by_cases h3 : s.strong.references = 2
    · have h4 : s.strong.references.toNat = 2 := by
        rw [h3]
        rfl
      have h5 : s.strongHeld = 1 := by
        rcases h.strong with ⟨-, -, h6⟩ | ⟨h6, -⟩ <;> omega
      simp only [CountedObject.fire, tryFinalDecrement, ne_eq, h3, not_true_eq_false, if_false]
      refine ⟨Or.inr ⟨?_, ?_, rfl⟩, h.weak, fun _ => h.present (by omega)⟩
      · simp only [strongHeld]
        omega
      · simp only [ended]
        omega
    · simp only [CountedObject.fire, tryFinalDecrement, ne_eq, h3, not_false_eq_true, if_true]
      exact h
  case clearObject =>
    refine ⟨h.strong.of_eq rfl ?_, h.weak, ?_⟩ <;>
    · simp only [CountedObject.fire, ended]
      omega
  case destroy =>
    refine ⟨h.strong.of_eq rfl ?_, h.weak.decrement ?_ rfl, ?_⟩ <;>
    · simp only [CountedObject.fire, decrementWeak, ended, weakHeld]
      omega
  case requestWeak | safeRead | copyWeak =>
    refine ⟨h.strong, h.weak.increase (by omega) ?_ fits.2, h.present⟩
    simp only [CountedObject.fire, weakHeld]
    omega
  case increaseStrongCount =>
    have h3 : s.strong.increaseCount.references &&& 1 ≠ 0 ↔ s.strongHeld = 0 := by
      rw [odd_iff, toNat_increaseCount]
      rcases h.strong with ⟨h5, -, h6⟩ | ⟨h5, -, h6⟩ <;> omega
    rw [CountedObject.fire]
    split <;> rename_i h4 <;> rw [h3] at h4
    · have h5 := h.strong
      rw [h4] at h5
      exact ⟨h5.increase_ended.of_eq h4 rfl, h.weak, h.present⟩
    · refine ⟨h.strong.increase (by omega) ?_ fits.1, h.weak.of_eq ?_ rfl, h.present⟩
      · simp only [strongHeld]
        omega
      · simp only [weakHeld]
        omega
  case getObjectReference =>
    refine ⟨h.strong.of_eq ?_ rfl, h.weak.of_eq ?_ rfl, h.present⟩
    · simp only [CountedObject.fire, strongHeld]
      omega
    · simp only [CountedObject.fire, weakHeld]
      omega
  case releaseCounters | releaseWeak =>
    refine ⟨h.strong, h.weak.decrement ?_ rfl, h.present⟩
    simp only [CountedObject.fire, decrementWeak, weakHeld]
    omega

theorem Counted.step (s : CountedObject) (i : CountedStep) (h : Counted s) (fits : s.Fits) :
    Counted (s.step i) := by
  rw [CountedObject.step]
  split <;> rename_i h0
  · exact h
  · exact h.fire fits i h0

/-- In every interleaving no thread uses what is gone, and each part goes once. -/
theorem memory_safe (steps : List CountedStep) (s : CountedObject)
    (ran : s = steps.foldl step start) (fits : Along step (fun s _ => s.Fits) start steps) :
    (∀ i, s.waiting i ≠ 0 → s.gone i = false) ∧
      s.ended = (if s.strongHeld = 0 then 1 else 0) ∧
      s.deletions = if s.weakHeld = 0 then 1 else 0 := by
  have h := along_invariant Counted.step start counted_start steps fits
  rw [← ran] at h
  refine ⟨h.not_gone, ?_, ?_⟩
  · rcases h.strong with ⟨h1, h2, -⟩ | ⟨h1, h2, -⟩
    · rw [h2, if_neg (by omega)]
    · rw [h2, if_pos h1]
  · rcases h.weak with ⟨h1, h2, -⟩ | ⟨h1, h2, -⟩
    · rw [h2, if_neg (by omega)]
    · rw [h2, if_pos h1]

def lateSteps : List CountedStep :=
  [.requestWeak, .safeRead, .release, .increaseStrongCount, .clearObject, .destroy,
    .releaseWeak, .releaseCounters]

theorem memory_safe_late : (lateSteps.foldl step start).ended = 1 ∧
    (lateSteps.foldl step start).deletions = 1 :=
  (memory_safe lateSteps _ rfl ⟨by decide, by decide, by decide, by decide, by decide,
    by decide, by decide, by decide, trivial⟩).2

end CountedObject

end Engine3
