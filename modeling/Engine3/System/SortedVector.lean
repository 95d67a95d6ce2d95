import Mathlib.Data.List.Perm.Basic
import Mathlib.Order.Lattice
import Engine3.Library.BinarySearch

/-!
# Sorted vectors

`system/util/SortedVector` and the key search of `system/util/VectorMap`. The elements
are kept in order by `compare a b`, which is positive when `a` belongs before `b`;
`OrderedBy` relates it to a linear order in which the results below are stated.
-/
namespace Engine3

open BinarySearch List

inductive InsertPlan
  | allowDuplicate
  | allowOverwrite
  | noDuplicate
  deriving DecidableEq, Repr

namespace SortedVector

variable {α κ : Type}

def insertElementAt (index : Nat) (o : α) (xs : List α) : List α :=
  xs.take index ++ o :: xs.drop index

def put (compare : α → α → Int) (insertPlan : InsertPlan) (o : α) (xs : List α) :
    List α × Option Nat :=
  match search (fun obj => compare obj o) xs with
  | .found m =>
    match insertPlan with
    | .allowDuplicate => (insertElementAt (m + 1) o xs, some (m + 1))
    | .allowOverwrite => (xs.set m o, some m)
    | .noDuplicate => (xs, none)
  | .stopped hi m => (insertElementAt (insertionPoint hi m) o xs, some (insertionPoint hi m))

def find (compare : α → α → Int) (o : α) (xs : List α) : Option Nat :=
  match search (fun obj => compare obj o) xs with
  | .found m => some m
  | .stopped _ _ => none

def findKey {β : Type} (compare : κ → κ → Int) (key : κ) (xs : List (κ × β)) : Option Nat :=
  match search (fun entry => compare entry.1 key) xs with
  | .found m => some m
  | .stopped _ _ => none

def drop (compare : α → α → Int) (o : α) (xs : List α) : Bool × List α :=
  match find compare o xs with
  | none => (false, xs)
  | some index => (true, xs.eraseIdx index)

def boundLoop (right : α → Bool) (xs : List α) : Nat → Nat → Nat → Option Nat
  | 0, _, _ => none
  | fuel + 1, lo, hi =>
    if lo < hi then
      let m := (lo + (hi - 1)) / 2
      match xs[m]? with
      | none => none
      | some obj =>
        if right obj then
          if hi ≤ m + 1 then if m < xs.length - 1 then some (m + 1) else none
          else boundLoop right xs fuel (m + 1) hi
        else if m ≤ lo then some m
        else boundLoop right xs fuel lo m
    else none

def lowerBound (compare : α → α → Int) (o : α) (xs : List α) : Option Nat :=
  boundLoop (fun obj => compare obj o > 0) xs xs.length 0 xs.length

def upperBound (compare : α → α → Int) (o : α) (xs : List α) : Option Nat :=
  boundLoop (fun obj => compare obj o = 0 ∨ compare obj o > 0) xs xs.length 0 xs.length

/-- `compare` orders elements as `rank` does. -/
structure OrderedBy [LinearOrder κ] (compare : α → α → Int) (rank : α → κ) : Prop where
  pos : ∀ a b, 0 < compare a b ↔ rank a < rank b
  zero : ∀ a b, compare a b = 0 ↔ rank a = rank b

/-- Strictly increasing, so without two equal elements. -/
def StrictlySorted [LinearOrder κ] (rank : α → κ) (xs : List α) : Prop :=
  xs.Pairwise fun a b => rank a < rank b

/-- In order, equal elements next to each other. -/
def Sorted [LinearOrder κ] (rank : α → κ) (xs : List α) : Prop :=
  xs.Pairwise fun a b => rank a ≤ rank b

section Ordered

variable [LinearOrder κ] {compare : α → α → Int} {rank : α → κ} (order : OrderedBy compare rank)

theorem OrderedBy.neg (order : OrderedBy compare rank) (a b : α) :
    compare a b < 0 ↔ rank b < rank a := by
  have p := order.pos a b
  have z := order.zero a b
  constructor
  · intro negative
    rcases lt_trichotomy (rank a) (rank b) with less | eq | more
    · have := p.mpr less; omega
    · have := z.mpr eq; omega
    · exact more
  · intro more
    have notPos : ¬ 0 < compare a b := fun h => lt_asymm (p.mp h) more
    have notZero : compare a b ≠ 0 := fun h => (ne_of_gt more) (z.mp h)
    omega

variable {xs : List α} {plan : InsertPlan} {o : α} {result : List α × Option Nat}

theorem StrictlySorted.sorted (sorted : StrictlySorted rank xs) : Sorted rank xs :=
  sorted.imp le_of_lt

variable {xs : List α} {o x : α}

theorem signOrdered_of_sorted (order : OrderedBy compare rank) (o : α) (sorted : Sorted rank xs) :
    SignOrdered (fun obj => compare obj o) xs := by
  apply Pairwise.imp _ sorted
  intro a b le
  constructor
  · exact fun h => (order.pos a o).mpr (lt_of_le_of_lt le ((order.pos b o).mp h))
  · exact fun h => (order.neg b o).mpr (lt_of_lt_of_le ((order.neg a o).mp h) le)

theorem signOrdered_of_strictlySorted (order : OrderedBy compare rank) (o : α)
    (sorted : StrictlySorted rank xs) : SignOrdered (fun obj => compare obj o) xs :=
  signOrdered_of_sorted order o sorted.sorted

omit [LinearOrder κ] in
private theorem pairwise_insertElementAt {R : κ → κ → Prop} (p : Nat) (o : α) (xs : List α)
    (sorted : xs.Pairwise fun a b => R (rank a) (rank b))
    (before : ∀ x ∈ xs.take p, R (rank x) (rank o))
    (behind : ∀ x ∈ xs.drop p, R (rank o) (rank x)) :
    (insertElementAt p o xs).Pairwise fun a b => R (rank a) (rank b) := by
  have halves : (xs.take p ++ xs.drop p).Pairwise fun a b => R (rank a) (rank b) := by
    rwa [take_append_drop]
  obtain ⟨left, right, across⟩ := pairwise_append.mp halves
  apply pairwise_append.mpr
  refine ⟨left, pairwise_cons.mpr ⟨behind, right⟩, ?_⟩
  intro a inLeft b inRight
  rcases mem_cons.mp inRight with rfl | inRight
  · exact before a inLeft
  · exact across a inLeft b inRight

theorem mem_insertElementAt (p : Nat) (o y : α) (xs : List α) :
    y ∈ insertElementAt p o xs ↔ y = o ∨ y ∈ xs := by
  have parts : y ∈ xs ↔ y ∈ xs.take p ∨ y ∈ xs.drop p := by
    rw [← mem_append, take_append_drop]
  unfold insertElementAt
  rw [mem_append, mem_cons, parts]
  tauto

private theorem rank_ne_of_stopped (order : OrderedBy compare rank) (o : α) (xs : List α)
    (sorted : Sorted rank xs) (h m : Nat)
    (result : search (fun obj => compare obj o) xs = .stopped h m) (x : α) (mem : x ∈ xs) :
    rank x ≠ rank o := by
  obtain ⟨-, before, behind⟩ := search_stopped (signOrdered_of_sorted order o sorted) result
  intro eq
  have zero : compare x o = 0 := (order.zero x o).mpr eq
  rw [← take_append_drop (insertionPoint h m) xs, mem_append] at mem
  rcases mem with inLeft | inRight
  · have := before x inLeft; omega
  · have := behind x inRight; omega

omit [LinearOrder κ] in
theorem mem_of_mem_put {y : α} (mem : y ∈ (put compare .noDuplicate o xs).1) :
    y = o ∨ y ∈ xs := by
  rw [put] at mem
  split at mem
  · exact Or.inr mem
  · exact (mem_insertElementAt _ o y xs).mp mem

variable (order : OrderedBy compare rank)
include order

theorem put_noDuplicate_present (sorted : StrictlySorted rank xs) (mem : x ∈ xs)
    (eq : rank x = rank o) :
    put compare .noDuplicate o xs = (xs, none) := by
  unfold put
  cases result : search (fun obj => compare obj o) xs with
  | found m => rfl
  | stopped h m =>
    exact absurd eq (rank_ne_of_stopped order o xs sorted.sorted h m result x mem)

theorem put_noDuplicate_absent (o : α) (sorted : StrictlySorted rank xs)
    (absent : ∀ x ∈ xs, rank x ≠ rank o) :
    StrictlySorted rank (put compare .noDuplicate o xs).1 ∧
    ∀ y, y ∈ (put compare .noDuplicate o xs).1 ↔ y = o ∨ y ∈ xs := by
  have signs := signOrdered_of_strictlySorted order o sorted
  unfold put
  cases result : search (fun obj => compare obj o) xs with
  | found m =>
    obtain ⟨hin, zero⟩ := search_found result
    exact absurd ((order.zero _ o).mp zero) (absent _ (getElem_mem hin))
  | stopped h m =>
    obtain ⟨-, before, behind⟩ := search_stopped signs result
    refine ⟨pairwise_insertElementAt _ o xs sorted ?_ ?_,
      fun y => mem_insertElementAt _ o y xs⟩
    · exact fun x inLeft => (order.pos x o).mp (before x inLeft)
    · exact fun x inRight => (order.neg x o).mp (behind x inRight)

theorem put_noDuplicate_perm (absent : ∀ x ∈ xs, rank x ≠ rank o) :
    (put compare .noDuplicate o xs).1.Perm (o :: xs) := by
  unfold put
  cases result : search (fun obj => compare obj o) xs with
  | found m =>
    obtain ⟨hin, zero⟩ := search_found result
    exact absurd ((order.zero _ o).mp zero) (absent _ (getElem_mem hin))
  | stopped h m =>
    refine perm_middle.trans (Perm.cons o ?_)
    rw [take_append_drop]

theorem find_some (o : α) (i : Nat) (found : find compare o xs = some i) :
    ∃ x, xs[i]? = some x ∧ rank x = rank o := by
  rw [find] at found
  split at found
  next m result =>
    cases found
    obtain ⟨hin, zero⟩ := search_found result
    exact ⟨xs[i], getElem?_eq_getElem hin, (order.zero _ o).mp zero⟩
  next => cases found

theorem find_none (o : α) (xs : List α) (sorted : Sorted rank xs)
    (missing : find compare o xs = none) (x : α) (mem : x ∈ xs) : rank x ≠ rank o := by
  rw [find] at missing
  split at missing
  next => cases missing
  next h m result => exact rank_ne_of_stopped order o xs sorted h m result x mem

/-! ### Every insert plan -/

inductive Put (rank : α → κ) (o : α) (xs : List α) : InsertPlan → List α × Option Nat → Prop
  | duplicate (m : Nat) (x : α) (here : xs[m]? = some x) (equal : rank x = rank o) :
    Put rank o xs .allowDuplicate (insertElementAt (m + 1) o xs, some (m + 1))
  | overwrite (m : Nat) (x : α) (here : xs[m]? = some x) (equal : rank x = rank o) :
    Put rank o xs .allowOverwrite (xs.set m o, some m)
  | refuse (x : α) (member : x ∈ xs) (equal : rank x = rank o) :
    Put rank o xs .noDuplicate (xs, none)
  | insert (plan : InsertPlan) (p : Nat) (inside : p ≤ xs.length)
    (before : ∀ x ∈ xs.take p, rank x < rank o) (behind : ∀ x ∈ xs.drop p, rank o < rank x) :
    Put rank o xs plan (insertElementAt p o xs, some p)

theorem put_spec (plan : InsertPlan) (o : α) (sorted : Sorted rank xs) :
    Put rank o xs plan (put compare plan o xs) := by
  have signs := signOrdered_of_sorted order o sorted
  unfold put
  cases result : search (fun obj => compare obj o) xs with
  | found m =>
    obtain ⟨hin, zero⟩ := search_found result
    have here : xs[m]? = some xs[m] := getElem?_eq_getElem hin
    have eq : rank xs[m] = rank o := (order.zero _ o).mp zero
    cases plan with
    | allowDuplicate => exact .duplicate m xs[m] here eq
    | allowOverwrite => exact .overwrite m xs[m] here eq
    | noDuplicate => exact .refuse xs[m] (getElem_mem hin) eq
  | stopped h m =>
    obtain ⟨hin, before, behind⟩ := search_stopped signs result
    apply Put.insert _ _ hin
    · exact fun x mem => (order.pos x o).mp (before x mem)
    · exact fun x mem => (order.neg x o).mp (behind x mem)

omit order

theorem Sorted.around (sorted : Sorted rank xs) (m : Nat) (x : α) (here : xs[m]? = some x) :
    (∀ y ∈ xs.take (m + 1), rank y ≤ rank x) ∧ ∀ y ∈ xs.drop (m + 1), rank x ≤ rank y := by
  obtain ⟨hin, rfl⟩ := List.getElem?_eq_some_iff.mp here
  have pairs := pairwise_iff_getElem.mp sorted
  constructor
  · intro y mem
    obtain ⟨i, lt, rfl⟩ := mem_take_iff_getElem.mp mem
    rcases Nat.lt_or_ge i m with earlier | last
    · exact pairs i m (by omega) hin earlier
    · have eq : i = m := by omega
      simp [eq]
  · intro y mem
    obtain ⟨i, lt, rfl⟩ := mem_drop_iff_getElem.mp mem
    exact pairs m _ hin (by omega) (by omega)

omit [LinearOrder κ] in
theorem map_rank_set {m : Nat} (here : xs[m]? = some x) (eq : rank x = rank o) :
    (xs.set m o).map rank = xs.map rank := by
  obtain ⟨hin, rfl⟩ := List.getElem?_eq_some_iff.mp here
  apply ext_getElem
  · simp
  · intro i lt _
    simp only [getElem_map, getElem_set]
    split
    next same => simp only [← same, eq]
    next => rfl

theorem Put.sorted (did : Put rank o xs plan result) (sorted : Sorted rank xs) :
    Sorted rank result.1 := by
  cases did with
  | duplicate m x here eq =>
    obtain ⟨before, behind⟩ := sorted.around m x here
    exact pairwise_insertElementAt (R := (· ≤ ·)) (m + 1) o xs sorted
      (fun y mem => eq ▸ before y mem) (fun y mem => eq ▸ behind y mem)
  | overwrite m x here eq =>
    have ranks : (xs.map rank).Pairwise (· ≤ ·) := pairwise_map.mpr sorted
    rw [← map_rank_set here eq] at ranks
    exact pairwise_map.mp ranks
  | refuse => exact sorted
  | insert _ p _ before behind =>
    exact pairwise_insertElementAt (R := (· ≤ ·)) p o xs sorted
      (fun y mem => le_of_lt (before y mem)) (fun y mem => le_of_lt (behind y mem))

theorem Put.strictlySorted (did : Put rank o xs plan result) (unique : plan ≠ .allowDuplicate)
    (sorted : StrictlySorted rank xs) :
    StrictlySorted rank result.1 := by
  cases did with
  | duplicate => contradiction
  | overwrite m x here eq =>
    have ranks : (xs.map rank).Pairwise (· < ·) := pairwise_map.mpr sorted
    rw [← map_rank_set here eq] at ranks
    exact pairwise_map.mp ranks
  | refuse => exact sorted
  | insert _ p _ before behind =>
    exact pairwise_insertElementAt (R := (· < ·)) p o xs sorted before behind

theorem Put.strictlySorted_of_new (did : Put rank o xs plan result)
    (new : ∀ x ∈ xs, rank x ≠ rank o) (sorted : StrictlySorted rank xs) :
    StrictlySorted rank result.1 := by
  cases did with
  | duplicate m x here eq => exact absurd eq (new x (mem_of_getElem? here))
  | overwrite m x here eq => exact absurd eq (new x (mem_of_getElem? here))
  | refuse x mem eq => exact absurd eq (new x mem)
  | insert _ p _ before behind =>
    exact pairwise_insertElementAt (R := (· < ·)) p o xs sorted before behind

omit [LinearOrder κ] in
theorem insertElementAt_perm (p : Nat) (o : α) (xs : List α) :
    (insertElementAt p o xs).Perm (o :: xs) := by
  refine perm_middle.trans (Perm.cons o ?_)
  rw [take_append_drop]

theorem Put.perm (did : Put rank o xs plan result)
    (new : plan = .allowDuplicate ∨ ∀ x ∈ xs, rank x ≠ rank o) : result.1.Perm (o :: xs) := by
  cases did with
  | duplicate m => exact insertElementAt_perm (m + 1) o xs
  | overwrite m x here eq =>
    rcases new with plan | absent
    · contradiction
    · exact absurd eq (absent x (mem_of_getElem? here))
  | refuse x mem eq =>
    rcases new with plan | absent
    · contradiction
    · exact absurd eq (absent x mem)
  | insert _ p => exact insertElementAt_perm p o xs

/-! ### Bounds -/

omit [LinearOrder κ] in
theorem boundLoop_spec (right : α → Bool) (xs : List α)
    (ord : xs.Pairwise fun a b => right b = true → right a = true) (fuel lo hi : Nat)
    (le : hi - lo ≤ fuel) (interval : lo < hi) (bound : hi ≤ xs.length)
    (before : ∀ i (hin : i < xs.length), i < lo → right xs[i] = true)
    (behind : ∀ i (hin : i < xs.length), hi ≤ i → right xs[i] = false) :
    boundLoop right xs fuel lo hi = xs.findIdx? fun x => !right x := by
  have pairs := pairwise_iff_getElem.mp ord
  induction fuel generalizing lo hi with
  | zero => omega
  | succ fuel ih =>
    unfold boundLoop
    generalize middle : (lo + (hi - 1)) / 2 = m
    have hin : m < xs.length := by omega
    simp only [if_pos interval, getElem?_eq_getElem hin]
    cases goes : right xs[m] with
    | true =>
      -- everything up to the middle sends the loop to the right as well
      have before' : ∀ i (hin : i < xs.length), i < m + 1 → right xs[i] = true := by
        intro i lt below
        rcases Nat.lt_or_eq_of_le (Nat.le_of_lt_succ below) with earlier | rfl
        · exact pairs i m lt hin earlier goes
        · exact goes
      simp only [if_true]
      by_cases closed : hi ≤ m + 1
      · rw [if_pos closed]
        by_cases last : m < xs.length - 1
        · rw [if_pos last, eq_comm, findIdx?_eq_some_iff_getElem]
          refine ⟨by omega, ?_, ?_⟩
          · simp [behind (m + 1) (by omega) (by omega)]
          · intro j earlier
            simp [before' j (by omega) (by omega)]
        · rw [if_neg last, eq_comm, findIdx?_eq_none_iff]
          intro x mem
          obtain ⟨i, lt, rfl⟩ := getElem_of_mem mem
          simp [before' i lt (by omega)]
      · rw [if_neg closed]
        exact ih (m + 1) hi (by omega) (by omega) bound before' behind
    | false =>
      have behind' : ∀ i (hin : i < xs.length), m ≤ i → right xs[i] = false := by
        intro i lt above
        rcases Nat.lt_or_eq_of_le above with later | rfl
        · cases goes' : right xs[i] with
          | false => rfl
          | true => rw [pairs m i hin lt later goes'] at goes; contradiction
        · exact goes
      simp only [Bool.false_eq_true, if_false]
      by_cases closed : m ≤ lo
      · rw [if_pos closed, eq_comm, findIdx?_eq_some_iff_getElem]
        refine ⟨hin, by simp [goes], ?_⟩
        intro j earlier
        simp [before j (by omega) (by omega)]
      · rw [if_neg closed]
        exact ih lo m (by omega) (by omega) (by omega) before behind'

omit [LinearOrder κ] in
theorem boundLoop_all (right : α → Bool) (xs : List α)
    (ord : xs.Pairwise fun a b => right b = true → right a = true) :
    boundLoop right xs xs.length 0 xs.length = xs.findIdx? fun x => !right x := by
  rcases Nat.eq_zero_or_pos xs.length with empty | filled
  · rw [length_eq_zero_iff.mp empty]
    rfl
  · apply boundLoop_spec right xs ord _ _ _ (by omega) filled (Nat.le_refl _)
    · intro i _ below
      omega
    · intro i hin above
      omega

theorem lowerBound_eq (order : OrderedBy compare rank) (o : α) (xs : List α)
    (sorted : Sorted rank xs) :
    lowerBound compare o xs = xs.findIdx? fun x => decide (rank o ≤ rank x) := by
  unfold lowerBound
  rw [boundLoop_all]
  · congr 1
    funext x
    have less := order.pos x o
    by_cases le : rank o ≤ rank x
    · simp [le, mt less.mp (not_lt.mpr le)]
    · simp [le, less.mpr (not_le.mp le)]
  · apply Pairwise.imp _ sorted
    intro a b le right
    simp only [decide_eq_true_eq] at right ⊢
    exact (order.pos a o).mpr (lt_of_le_of_lt le ((order.pos b o).mp right))

theorem upperBound_eq (order : OrderedBy compare rank) (o : α) (sorted : Sorted rank xs) :
    upperBound compare o xs = xs.findIdx? fun x => decide (rank o < rank x) := by
  have right (x : α) : (compare x o = 0 ∨ compare x o > 0) ↔ rank x ≤ rank o := by
    have greater := order.neg x o
    rw [← not_lt, ← greater]
    omega
  unfold upperBound
  rw [boundLoop_all]
  · congr 1
    funext x
    simp only [right]
    by_cases less : rank o < rank x
    · simp [less]
    · simp [less, not_lt.mp less]
  · apply Pairwise.imp _ sorted
    intro a b le
    simp only [right, decide_eq_true_eq]
    exact le_trans le

/-! ### Removing -/

theorem drop_spec (order : OrderedBy compare rank) (o : α) (sorted : Sorted rank xs) :
    (drop compare o xs = (false, xs) ∧ ∀ x ∈ xs, rank x ≠ rank o) ∨
      ∃ i x, xs[i]? = some x ∧ rank x = rank o ∧ drop compare o xs = (true, xs.eraseIdx i) := by
  unfold drop
  cases search : find compare o xs with
  | none => exact .inl ⟨rfl, find_none order o xs sorted search⟩
  | some i =>
    obtain ⟨x, here, eq⟩ := find_some order o i search
    exact .inr ⟨i, x, here, eq, rfl⟩

omit [LinearOrder κ] in
theorem drop_sublist (o : α) (xs : List α) : (drop compare o xs).2.Sublist xs := by
  unfold drop
  split
  · exact Sublist.refl xs
  · exact eraseIdx_sublist xs _

theorem nodup_of_strictlySorted (sorted : StrictlySorted rank xs) : xs.Nodup := by
  apply Pairwise.imp _ sorted
  rintro a _ less rfl
  exact lt_irrefl _ less

theorem mem_drop_iff (order : OrderedBy compare rank) (inj : Function.Injective rank)
    (sorted : StrictlySorted rank xs) (x : α) : x ∈ (drop compare o xs).2 ↔ x ∈ xs ∧ x ≠ o := by
  rcases drop_spec order o sorted.sorted with ⟨kept, absent⟩ | ⟨i, y, here, equal, dropped⟩
  · rw [kept]
    exact (and_iff_left_of_imp fun mem eq => absent x mem (congrArg rank eq)).symm
  · obtain rfl := inj equal
    obtain ⟨hin, rfl⟩ := List.getElem?_eq_some_iff.mp here
    have perm := getElem_cons_eraseIdx_perm hin
    have gone := (nodup_cons.mp (perm.nodup_iff.mpr (nodup_of_strictlySorted sorted))).1
    rw [dropped, ← perm.mem_iff (a := x), mem_cons]
    constructor
    · intro left
      exact ⟨.inr left, ne_of_mem_of_not_mem left gone⟩
    · rintro ⟨eq | left, ne⟩
      · contradiction
      · exact left

end Ordered

theorem findKey_eq {β : Type} (compare : κ → κ → Int) (key : κ) (xs : List (κ × β)) :
    findKey compare key xs = find compare key (xs.map Prod.fst) := by
  rw [findKey, find, search_congr (fun entry : κ × β => compare entry.1 key)
    (fun obj => compare obj key) xs (xs.map Prod.fst) (by rw [map_map]; rfl)]

end SortedVector

end Engine3
