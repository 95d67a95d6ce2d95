import Mathlib.Data.List.Basic

/-!
# Bisection of an ordered list

The loop compares the middle element of the remaining interval with a key and keeps
one half. `cmp x` is positive when `x` lies before the key, zero when it matches and
negative when it lies behind, so along an ordered list its sign never increases.
-/
namespace BinarySearch

variable {α β : Type}

inductive Outcome
  | found (index : Nat)
  | stopped (hi mid : Nat)
  deriving DecidableEq, Repr

def bisect (cmp : α → Int) (xs : List α) : Nat → Nat → Nat → Nat → Outcome
  | 0, _, hi, mid => .stopped hi mid
  | fuel + 1, lo, hi, mid =>
    if lo < hi then
      let m := (lo + (hi - 1)) / 2
      match xs[m]? with
      | none => .stopped hi mid
      | some x =>
        if cmp x = 0 then .found m
        else if cmp x > 0 then bisect cmp xs fuel (m + 1) hi m
        else bisect cmp xs fuel lo m m
    else .stopped hi mid

def insertionPoint (hi mid : Nat) : Nat := if hi = mid + 1 then mid + 1 else mid

def SignOrdered (cmp : α → Int) (xs : List α) : Prop :=
  xs.Pairwise fun a b => (0 < cmp b → 0 < cmp a) ∧ (cmp a < 0 → cmp b < 0)

def Before (cmp : α → Int) (xs : List α) (p : Nat) : Prop :=
  ∀ i (inside : i < xs.length), i < p → 0 < cmp xs[i]

def Behind (cmp : α → Int) (xs : List α) (p : Nat) : Prop :=
  ∀ i (inside : i < xs.length), p ≤ i → cmp xs[i] < 0

private theorem before_of_pos (cmp : α → Int) (xs : List α) (ord : SignOrdered cmp xs)
    (m : Nat) (hin : m < xs.length) (pos : 0 < cmp xs[m]) : Before cmp xs (m + 1) := by
  intro i hi below
  rcases Nat.lt_or_eq_of_le (Nat.le_of_lt_succ below) with earlier | rfl
  · exact (List.pairwise_iff_getElem.mp ord i m hi hin earlier).1 pos
  · exact pos

private theorem behind_of_neg (cmp : α → Int) (xs : List α) (ord : SignOrdered cmp xs)
    (m : Nat) (hin : m < xs.length) (neg : cmp xs[m] < 0) : Behind cmp xs m := by
  intro i hi above
  rcases Nat.lt_or_eq_of_le above with later | rfl
  · exact (List.pairwise_iff_getElem.mp ord m i hin hi later).2 neg
  · exact neg

theorem bisect_found {cmp : α → Int} {xs : List α} {fuel lo hi mid m : Nat}
    (res : bisect cmp xs fuel lo hi mid = .found m) :
    ∃ hin : m < xs.length, cmp xs[m] = 0 := by
  fun_induction bisect cmp xs fuel lo hi mid <;> grind

theorem bisect_stopped (cmp : α → Int) (xs : List α) (ord : SignOrdered cmp xs)
    (fuel lo hi mid : Nat) (le : hi - lo ≤ fuel) (interval : lo ≤ hi) (bound : hi ≤ xs.length)
    (before : Before cmp xs lo) (behind : Behind cmp xs hi)
    (last : mid + 1 = lo ∨ mid = hi ∨ (mid = 0 ∧ lo = 0)) {h m : Nat}
    (res : bisect cmp xs fuel lo hi mid = .stopped h m) :
    insertionPoint h m ≤ xs.length ∧ Before cmp xs (insertionPoint h m) ∧
      Behind cmp xs (insertionPoint h m) := by
  -- everything before `lo` and from `hi` on is decided, and each round halves what is between
  fun_induction bisect cmp xs fuel lo hi mid with
  | case1 | case6 =>
    cases res
    have place : insertionPoint h m = h := by unfold insertionPoint; split <;> omega
    rw [place]
    exact ⟨bound, fun i inside below => before i inside (by omega), behind⟩
  | case2 lo hi mid fuel room middle out =>
    have := List.getElem?_eq_none_iff.mp out
    omega
  | case3 => cases res
  | case4 lo hi mid fuel room middle x here zero pos ih =>
    obtain ⟨inside, rfl⟩ := List.getElem?_eq_some_iff.mp here
    exact ih (by omega) (by omega) bound (before_of_pos cmp xs ord _ inside pos) behind
      (Or.inl rfl) res
  | case5 lo hi mid fuel room middle x here zero pos ih =>
    obtain ⟨inside, rfl⟩ := List.getElem?_eq_some_iff.mp here
    exact ih (by omega) (by omega) (by omega) before
      (behind_of_neg cmp xs ord _ inside (by omega)) (Or.inr (Or.inl rfl)) res

def search (cmp : α → Int) (xs : List α) : Outcome := bisect cmp xs xs.length 0 xs.length 0

variable {cmp : α → Int} {xs : List α} {m : Nat}

theorem search_found (res : search cmp xs = .found m) :
    ∃ hin : m < xs.length, cmp xs[m] = 0 := bisect_found res

theorem search_stopped (ordered : SignOrdered cmp xs) {h : Nat}
    (res : search cmp xs = .stopped h m) :
    insertionPoint h m ≤ xs.length ∧ (∀ x ∈ xs.take (insertionPoint h m), 0 < cmp x) ∧
      ∀ x ∈ xs.drop (insertionPoint h m), cmp x < 0 := by
  obtain ⟨hin, before, behind⟩ := bisect_stopped cmp xs ordered _ _ _ _ (Nat.sub_le _ _)
    (Nat.zero_le _) (Nat.le_refl _) (fun i _ below => by omega) (fun i hin above => by omega)
    (Or.inr (Or.inr ⟨rfl, rfl⟩)) res
  refine ⟨hin, ?_, ?_⟩
  · intro x mem
    obtain ⟨i, hin, rfl⟩ := List.mem_take_iff_getElem.mp mem
    exact before i (by omega) (by omega)
  · intro x mem
    obtain ⟨i, hin, rfl⟩ := List.mem_drop_iff_getElem.mp mem
    exact behind _ (by omega) (by omega)

theorem bisect_congr {cmp' : β → Int} {ys : List β} (eq : xs.map cmp = ys.map cmp')
    (fuel lo hi mid : Nat) :
    bisect cmp xs fuel lo hi mid = bisect cmp' ys fuel lo hi mid := by
  induction fuel generalizing lo hi mid with
  | zero => rfl
  | succ fuel ih =>
    have here := congrArg (fun l => l[(lo + (hi - 1)) / 2]?) eq
    simp only [List.getElem?_map] at here
    unfold bisect
    simp only [ih]
    cases inXs : xs[(lo + (hi - 1)) / 2]? with
    | none =>
      rw [inXs, Option.map_none, eq_comm, Option.map_eq_none_iff] at here
      rw [here]
    | some x =>
      rw [inXs, Option.map_some, eq_comm, Option.map_eq_some_iff] at here
      obtain ⟨y, inYs, equal⟩ := here
      rw [inYs]
      simp only [equal]

theorem search_congr (cmp : α → Int) (cmp' : β → Int) (xs : List α) (ys : List β)
    (eq : xs.map cmp = ys.map cmp') : search cmp xs = search cmp' ys := by
  have len : xs.length = ys.length := by simpa using congrArg List.length eq
  rw [search, search, len]
  exact bisect_congr eq _ _ _ _

end BinarySearch
