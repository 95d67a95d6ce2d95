import Mathlib.Data.List.Induction
import Mathlib.Data.List.Pairwise
import Mathlib.Data.List.TakeWhile

/-!
# Queues released from the front

A queue of keyed elements that grows at its end and is released from its front: everything up
to the first element with a key above some bound goes. Whether that takes out exactly the keys
up to the bound depends on the order in which the elements came in.
-/
namespace ReleaseQueue

open List

variable {α : Type}

theorem dropWhile_eq_filter_iff (p : α → Bool) (l : List α) :
    l.dropWhile p = l.filter (fun a => !p a) ↔ l.Pairwise fun a b => p b = true → p a = true := by
  induction l with
  | nil => simp
  | cons a rest ih =>
    cases fst : p a with
    | true =>
      rw [dropWhile_cons_of_pos fst, filter_cons_of_neg (by simp [fst]), ih,
        pairwise_cons]
      simp [fst]
    -- the release stops here, so nothing behind may be released either
    | false =>
      rw [dropWhile_cons_of_neg (by simp [fst]), filter_cons_of_pos (by simp [fst]),
        pairwise_cons]
      simp only [cons.injEq, true_and, eq_comm (a := rest), filter_eq_self, fst,
        Bool.not_eq_true', Bool.false_eq_true, imp_false, Bool.not_eq_true]
      constructor
      · intro none
        refine ⟨none, pairwise_of_forall_mem_list fun a _ b mem holds => ?_⟩
        simp [none b mem] at holds
      · exact And.left

theorem mem_dropWhile_of_not (p : α → Bool) {l : List α} {a : α} (mem : a ∈ l)
    (stays : p a = false) : a ∈ l.dropWhile p := by
  rw [← takeWhile_append_dropWhile (p := p) (l := l)] at mem
  rcases mem_append.mp mem with early | late
  · rw [mem_takeWhile_imp early] at stays
    cases stays
  · exact late

theorem dropWhile_of_increasing (key : α → Nat) (bound : Nat) {l : List α}
    (increasing : l.Pairwise fun a b => key a < key b) :
    l.dropWhile (fun a => !decide (key a > bound)) = l.filter fun a => decide (key a > bound) := by
  have exact := (dropWhile_eq_filter_iff (fun a => !decide (key a > bound)) l).mpr
    (increasing.imp fun less => by simp; omega)
  simpa using exact

/-! ### Elements in their place -/

def Placed (key : α → Nat) (low : Int) (front : List α) (x : α) : Prop :=
  low < key x ∧ ∀ y ∈ front, key y < key x

theorem ordered_iff_placed (key : α → Nat) (low : Int) (l : List α) :
    ((l.Pairwise fun a b => key a < key b) ∧ ∀ x ∈ l, low < key x) ↔
      ∀ front x back, l = front ++ x :: back → Placed key low front x := by
  constructor
  · rintro ⟨increasing, above⟩ front x back rfl
    obtain ⟨-, -, across⟩ := pairwise_append.mp increasing
    exact ⟨above x (by simp), fun y mem => across y mem x mem_cons_self⟩
  · intro placed
    -- the last element is above all others, and the rest is in order as well
    induction l using reverseRecOn with
    | nil => simp
    | append_singleton rest last ih =>
      obtain ⟨increasing, above⟩ := ih fun front x back split =>
        placed front x (back ++ [last]) (by rw [split]; simp)
      obtain ⟨low, greatest⟩ := placed rest last [] rfl
      constructor
      · refine pairwise_append.mpr ⟨increasing, pairwise_singleton _ _, ?_⟩
        intro y mem x single
        rw [mem_singleton.mp single]
        exact greatest y mem
      · intro x mem
        rcases mem_append.mp mem with old | new
        · exact above x old
        · rw [mem_singleton.mp new]
          exact low

theorem placed_dropWhile (key : α → Nat) {low : Int} {bound : Nat} {p : α → Bool}
    (releases : ∀ x, p x = true ↔ key x ≤ bound) (rises : low ≤ bound) {l : List α}
    (front back : List α)
    (x : α) (left : l.dropWhile p = front ++ x :: back) :
    l = (l.takeWhile p ++ front) ++ x :: back ∧
      (Placed key bound front x ↔ Placed key low (l.takeWhile p ++ front) x) := by
  have whole : l = (l.takeWhile p ++ front) ++ x :: back := by
    rw [append_assoc, ← left, takeWhile_append_dropWhile]
  -- the first element left over is above the bound, and so is all that is in place behind it
  have stays : ∀ y, (front ++ x :: back).head? = some y → bound < key y := by
    intro y fst
    rw [← left] at fst
    have kept := head?_dropWhile_not p l
    rw [fst] at kept
    have not : p y ≠ true := by simpa using kept
    rw [Ne, releases] at not
    omega
  refine ⟨whole, ?_⟩
  constructor
  · rintro ⟨above, greatest⟩
    refine ⟨Int.lt_of_le_of_lt rises above, fun y mem => ?_⟩
    rcases mem_append.mp mem with gone | kept
    · have := (releases y).mp (mem_takeWhile_imp gone)
      omega
    · exact greatest y kept
  · rintro ⟨-, greatest⟩
    have kept : ∀ y ∈ front, key y < key x :=
      fun y mem => greatest y (mem_append_right _ mem)
    refine ⟨?_, kept⟩
    cases front with
    | nil =>
      have := stays x rfl
      omega
    | cons y rest =>
      have := stays y rfl
      have := kept y mem_cons_self
      omega

end ReleaseQueue
