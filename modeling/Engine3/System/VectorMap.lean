import Mathlib.Data.Int.Order.Basic
import Engine3.Library.Keyed
import Engine3.Library.Machine
import Engine3.System.SortedVector

/-!
# Runs of sorted vectors, and vector maps

Whole runs of `system/util/SortedVector` under each insert plan, and `system/util/VectorMap`: a
sorted vector of entries compared by their keys, whose constructors choose the overwrite plan.
-/
namespace Engine3

open Keyed Machine

namespace SortedVector

variable {α κ : Type}

inductive Op (α : Type)
  | put (o : α)
  | drop (o : α)

def perform (compare : α → α → Int) (plan : InsertPlan) (xs : List α) :
    Op α → (Option Nat ⊕ Bool) × List α
  | .put o => (.inl (put compare plan o xs).2, (put compare plan o xs).1)
  | .drop o => (.inr (drop compare o xs).1, (drop compare o xs).2)

variable [LinearOrder κ] {compare : α → α → Int} {rank : α → κ}

theorem run_sorted (order : OrderedBy compare rank) (plan : InsertPlan) (ops : List (Op α)) :
    Sorted rank (run (perform compare plan) [] ops).2 := by
  apply run_invariant _ [] List.Pairwise.nil
  intro xs op sorted
  cases op with
  | put o => exact (put_spec order plan o sorted).sorted sorted
  | drop o => exact sorted.sublist (drop_sublist o xs)

theorem run_strictlySorted (order : OrderedBy compare rank) {plan : InsertPlan}
    (unique : plan ≠ .allowDuplicate) (ops : List (Op α)) :
    StrictlySorted rank (run (perform compare plan) [] ops).2 := by
  apply run_invariant _ [] List.Pairwise.nil
  intro xs op (sorted : StrictlySorted rank xs)
  cases op with
  | put o => exact (put_spec order plan o sorted.sorted).strictlySorted unique sorted
  | drop o => exact sorted.sublist (drop_sublist o xs)

end SortedVector

structure VectorMap (K V : Type) where
  entries : List (K × V)
  nullValue : V
  deriving DecidableEq, Repr

namespace VectorMap

open SortedVector

variable {K V κ : Type}

def compareEntries (compare : K → K → Int) (e1 e2 : K × V) : Int := compare e1.1 e2.1

def put (compare : K → K → Int) (key : K) (value : V) (m : VectorMap K V) :
    Option Nat × VectorMap K V :=
  let res := SortedVector.put (compareEntries compare) .allowOverwrite (key, value) m.entries
  (res.2, { m with entries := res.1 })

def putWith (compare : K → K → Int) (plan : InsertPlan) (key : K) (value : V) (m : VectorMap K V) :
    Option Nat × VectorMap K V :=
  let res := SortedVector.put (compareEntries compare) plan (key, value) m.entries
  (res.2, { m with entries := res.1 })

def find (compare : K → K → Int) (key : K) (m : VectorMap K V) : Option Nat :=
  findKey compare key m.entries

def get (compare : K → K → Int) (key : K) (m : VectorMap K V) : V :=
  match m.find compare key with
  | none => m.nullValue
  | some pos => ((m.entries[pos]?).map Prod.snd).getD m.nullValue

def contains (compare : K → K → Int) (key : K) (m : VectorMap K V) : Bool :=
  (m.find compare key).isSome

def drop (compare : K → K → Int) (key : K) (m : VectorMap K V) : Bool × VectorMap K V :=
  match m.find compare key with
  | none => (false, m)
  | some pos => (true, { m with entries := m.entries.eraseIdx pos })

/-! ### The map it stands for -/

section Ordered

variable [LinearOrder κ] {compare : K → K → Int} {rank : K → κ}

def toMap (rank : K → κ) (m : VectorMap K V) : κ → Option V := fun k =>
  (lookup (fun e => rank e.1) m.entries k).map Prod.snd

theorem compareEntries_orderedBy (order : OrderedBy compare rank) :
    OrderedBy (compareEntries compare) fun e : K × V => rank e.1 where
  pos a b := order.pos a.1 b.1
  zero a b := order.zero a.1 b.1

theorem distinct_of_strictlySorted {rank : K → κ} {entries : List (K × V)}
    (sorted : StrictlySorted (fun e => rank e.1) entries) :
    Distinct (fun e => rank e.1) entries := by
  apply sorted.imp
  intro a b less
  simpa using ne_of_lt less

variable {m : VectorMap K V} {key : K} {e : K × V}

variable (order : OrderedBy compare rank)
include order

theorem find_cases (key : K) (sorted : StrictlySorted (fun e => rank e.1) m.entries) :
    (m.find compare key = none ∧ lookup (fun e => rank e.1) m.entries (rank key) = none) ∨
      ∃ pos e, m.find compare key = some pos ∧ m.entries[pos]? = some e ∧ rank e.1 = rank key ∧
        lookup (fun e => rank e.1) m.entries (rank key) = some e := by
  have keys : Sorted rank (m.entries.map Prod.fst) :=
    List.pairwise_map.mpr sorted.sorted
  have nodup := distinct_of_strictlySorted sorted
  unfold find
  rw [findKey_eq]
  cases search : SortedVector.find compare key (m.entries.map Prod.fst) with
  | none =>
    left
    refine ⟨rfl, (lookup_eq_none_iff _ _ _).mpr fun e mem => ?_⟩
    simpa using find_none order key _ keys search e.1 (List.mem_map_of_mem mem)
  | some pos =>
    right
    obtain ⟨k, here, eq⟩ := find_some order key pos search
    rw [List.getElem?_map, Option.map_eq_some_iff] at here
    obtain ⟨e, here, rfl⟩ := here
    refine ⟨pos, e, rfl, here, eq, ?_⟩
    rw [lookup_eq_some_iff _ nodup]
    exact ⟨List.mem_of_getElem? here, by simpa using eq⟩

theorem get_eq (key : K) (sorted : StrictlySorted (fun e => rank e.1) m.entries) :
    m.get compare key = (m.toMap rank (rank key)).getD m.nullValue := by
  unfold get toMap
  rcases find_cases order key sorted with ⟨search, absent⟩ | ⟨pos, e, search, here, -, found⟩
  · simp [search, absent]
  · simp [search, here, found]

theorem contains_eq (key : K) (sorted : StrictlySorted (fun e => rank e.1) m.entries) :
    m.contains compare key = (m.toMap rank (rank key)).isSome := by
  unfold contains toMap
  rcases find_cases order key sorted with ⟨search, absent⟩ | ⟨pos, e, search, -, -, found⟩
  · simp [search, absent]
  · simp [search, found]

theorem toMap_put (key : K) (value : V) (sorted : StrictlySorted (fun e => rank e.1) m.entries) :
    (m.put compare key value).2.toMap rank = store (m.toMap rank) (rank key) value := by
  have nodup := distinct_of_strictlySorted sorted
  have did := put_spec (compareEntries_orderedBy order) .allowOverwrite (key, value)
    sorted.sorted
  have kept := distinct_of_strictlySorted (did.strictlySorted (by decide) sorted)
  have added (new : ∀ e ∈ m.entries, rank e.1 ≠ rank key) := did.perm (.inr new)
  funext k
  simp only [toMap, put, store]
  generalize SortedVector.put _ _ _ _ = result at did kept added
  -- a key that is there is overwritten in place, and a new one is inserted
  cases did with
  | overwrite pos e here eq =>
    obtain ⟨hin, rfl⟩ := List.getElem?_eq_some_iff.mp here
    have whole : m.entries = m.entries.take pos ++ m.entries[pos] :: m.entries.drop (pos + 1) := by
      rw [List.getElem_cons_drop, List.take_append_drop]
    have replaced := lookup_replace (fun e : K × V => rank e.1) (whole ▸ nodup) (key, value)
      eq.symm k
    rw [List.set_eq_take_append_cons_drop, if_pos hin, replaced, ← whole, ← eq]
    split <;> rfl
  | insert _ p hin before behind =>
    have new : ∀ e ∈ m.entries, rank e.1 ≠ rank key := by
      intro e mem
      rw [← List.take_append_drop p m.entries, List.mem_append] at mem
      rcases mem with inLeft | inRight
      · exact ne_of_lt (before e inLeft)
      · exact ne_of_gt (behind e inRight)
    rw [lookup_perm _ kept (added new) k, lookup_cons]
    split <;> rfl

theorem drop_eq (key : K) (sorted : StrictlySorted (fun e => rank e.1) m.entries) :
    (m.drop compare key).1 = (m.toMap rank (rank key)).isSome ∧
      (m.drop compare key).2.toMap rank = forget (m.toMap rank) (rank key) := by
  have nodup := distinct_of_strictlySorted sorted
  rcases find_cases order key sorted with ⟨search, absent⟩ | ⟨pos, e, search, here, eq, found⟩
  · simp only [drop, search, toMap, absent]
    refine ⟨rfl, ?_⟩
    funext k
    simp only [forget, toMap, beq_iff_eq]
    split
    next same => rw [← same, absent, Option.map_none]
    next => rfl
  · simp only [drop, search, toMap, found]
    refine ⟨rfl, ?_⟩
    funext k
    obtain ⟨hin, rfl⟩ := List.getElem?_eq_some_iff.mp here
    have whole : m.entries = m.entries.take pos ++ m.entries[pos] :: m.entries.drop (pos + 1) := by
      rw [List.getElem_cons_drop, List.take_append_drop]
    have removed := lookup_remove (fun e : K × V => rank e.1) (whole ▸ nodup) k
    simp only [forget, toMap]
    rw [List.eraseIdx_eq_take_drop_succ, removed, ← whole, ← eq]
    split <;> rfl

/-! ### Its entries, up to their order -/

theorem get_of_mem (sorted : StrictlySorted (fun e => rank e.1) m.entries) (mem : e ∈ m.entries)
    (eq : rank e.1 = rank key) : m.get compare key = e.2 := by
  have found : lookup (fun e => rank e.1) m.entries (rank key) = some e := by
    rw [lookup_eq_some_iff _ (distinct_of_strictlySorted sorted)]
    exact ⟨mem, by simpa using eq⟩
  rw [get_eq order key sorted, toMap, found]
  rfl

theorem get_of_absent (sorted : StrictlySorted (fun e => rank e.1) m.entries)
    (absent : ∀ e ∈ m.entries, rank e.1 ≠ rank key) : m.get compare key = m.nullValue := by
  have missing : lookup (fun e => rank e.1) m.entries (rank key) = none := by
    rw [lookup_eq_none_iff]
    simpa using absent
  rw [get_eq order key sorted, toMap, missing]
  rfl

theorem contains_iff (key : K) (m : VectorMap K V)
    (sorted : StrictlySorted (fun e => rank e.1) m.entries) :
    m.contains compare key = true ↔ ∃ e ∈ m.entries, rank e.1 = rank key := by
  unfold contains
  rcases find_cases order key sorted with ⟨search, absent⟩ | ⟨pos, e, search, here, eq, -⟩
  · rw [lookup_eq_none_iff] at absent
    simpa [search] using absent
  · simpa [search] using ⟨e.1, ⟨e.2, List.mem_of_getElem? here⟩, eq⟩

theorem putWith_new (plan : InsertPlan) (value : V)
    (sorted : StrictlySorted (fun e => rank e.1) m.entries)
    (absent : ∀ e ∈ m.entries, rank e.1 ≠ rank key) :
    StrictlySorted (fun e => rank e.1) (m.putWith compare plan key value).2.entries ∧
      (m.putWith compare plan key value).2.entries.Perm ((key, value) :: m.entries) := by
  have did := put_spec (compareEntries_orderedBy order) plan (key, value) sorted.sorted
  exact ⟨did.strictlySorted_of_new absent sorted, did.perm (.inr absent)⟩

theorem drop_of_mem (sorted : StrictlySorted (fun e => rank e.1) m.entries) (mem : e ∈ m.entries)
    (eq : rank e.1 = rank key) :
    StrictlySorted (fun e => rank e.1) (m.drop compare key).2.entries ∧
      m.entries.Perm (e :: (m.drop compare key).2.entries) ∧
      (m.drop compare key).2.nullValue = m.nullValue := by
  have found : lookup (fun e => rank e.1) m.entries (rank key) = some e := by
    rw [lookup_eq_some_iff _ (distinct_of_strictlySorted sorted)]
    exact ⟨mem, by simpa using eq⟩
  rcases find_cases order key sorted with ⟨-, absent⟩ | ⟨pos, e', search, here, -, found'⟩
  · rw [absent] at found
    cases found
  · obtain rfl : e' = e := Option.some.inj (found'.symm.trans found)
    obtain ⟨hin, rfl⟩ := List.getElem?_eq_some_iff.mp here
    simp only [drop, search]
    exact ⟨sorted.sublist (List.eraseIdx_sublist _ _),
      (List.getElem_cons_eraseIdx_perm hin).symm, trivial⟩

end Ordered

/-! ### Whole runs -/

inductive Op (K V : Type)
  | put (key : K) (value : V)
  | drop (key : K)
  | get (key : K)
  | contains (key : K)

inductive Answer (V : Type)
  | value (v : V)
  | flag (b : Bool)
  | nothing
  deriving DecidableEq

def perform (compare : K → K → Int) (m : VectorMap K V) : Op K V → Answer V × VectorMap K V
  | .put key value => (.nothing, (m.put compare key value).2)
  | .drop key => (.flag (m.drop compare key).1, (m.drop compare key).2)
  | .get key => (.value (m.get compare key), m)
  | .contains key => (.flag (m.contains compare key), m)

def performMap [LinearOrder κ] (rank : K → κ) (nullValue : V) (m : κ → Option V) :
    Op K V → Answer V × (κ → Option V)
  | .put key value => (.nothing, store m (rank key) value)
  | .drop key => (.flag (m (rank key)).isSome, forget m (rank key))
  | .get key => (.value ((m (rank key)).getD nullValue), m)
  | .contains key => (.flag (m (rank key)).isSome, m)

section Ordered

variable [LinearOrder κ] {compare : K → K → Int} {rank : K → κ}

structure Represents (rank : K → κ) (nullValue : V) (m : VectorMap K V) (f : κ → Option V) :
    Prop where
  sorted : StrictlySorted (fun e => rank e.1) m.entries
  map : m.toMap rank = f
  nullValue : m.nullValue = nullValue

theorem perform_represents (order : OrderedBy compare rank) (nullValue : V) (m : VectorMap K V)
    (f : κ → Option V) (op : Op K V) (related : Represents rank nullValue m f) :
    (m.perform compare op).1 = (performMap rank nullValue f op).1 ∧
      Represents rank nullValue (m.perform compare op).2 (performMap rank nullValue f op).2 := by
  obtain ⟨sorted, rfl, rfl⟩ := related
  cases op with
  | put key value =>
    have did := put_spec (compareEntries_orderedBy order) .allowOverwrite (key, value)
      sorted.sorted
    exact ⟨rfl, did.strictlySorted (by decide) sorted, toMap_put order key value sorted, rfl⟩
  | drop key =>
    obtain ⟨answer, map⟩ := drop_eq order key sorted
    refine ⟨congrArg Answer.flag answer, ?_, map, ?_⟩
    · simp only [perform, drop]
      split
      · exact sorted
      · exact List.Pairwise.sublist (List.eraseIdx_sublist _ _) sorted
    · simp only [perform, drop]
      split <;> rfl
  | get key => exact ⟨congrArg Answer.value (get_eq order key sorted), sorted, rfl, rfl⟩
  | contains key => exact ⟨congrArg Answer.flag (contains_eq order key sorted), sorted, rfl, rfl⟩

theorem run_represents (order : OrderedBy compare rank) (nullValue : V) (ops : List (Op K V)) :
    (run (perform compare) ⟨[], nullValue⟩ ops).1 =
      (run (performMap rank nullValue) (fun _ => none) ops).1 :=
  (run_simulates (perform_represents order nullValue) ⟨[], nullValue⟩ (fun _ => none)
    ⟨List.Pairwise.nil, rfl, rfl⟩ ops).1

end Ordered

/-- After every run a sorted vector is in order and the searches find what there is to find. -/
theorem runs_spec {α κ₁ κ₂ : Type} [LinearOrder κ₁] [LinearOrder κ₂] (compare : α → α → Int)
    (rank : α → κ₁) (order : OrderedBy compare rank) (plan : InsertPlan)
    (ops : List (SortedVector.Op α)) (compareKeys : K → K → Int) (rankKeys : K → κ₂)
    (orderKeys : OrderedBy compareKeys rankKeys) (nullValue : V) (mapOps : List (Op K V)) :
    let xs := (run (SortedVector.perform compare plan) [] ops).2
    Sorted rank xs ∧
      (plan ≠ .allowDuplicate → StrictlySorted rank xs) ∧
      (∀ o, (∃ x ∈ xs, rank x = rank o) →
        (plan = .noDuplicate → SortedVector.put compare plan o xs = (xs, none)) ∧
        (plan = .allowOverwrite → ∃ i x, xs[i]? = some x ∧ rank x = rank o ∧
          SortedVector.put compare plan o xs = (xs.set i o, some i))) ∧
      (∀ o, (plan = .allowDuplicate ∨ ∀ x ∈ xs, rank x ≠ rank o) →
        (SortedVector.put compare plan o xs).1.Perm (o :: xs)) ∧
      (∀ o i, SortedVector.find compare o xs = some i → ∃ x, xs[i]? = some x ∧ rank x = rank o) ∧
      (∀ o, SortedVector.find compare o xs = none → ∀ x ∈ xs, rank x ≠ rank o) ∧
      (∀ o, (SortedVector.drop compare o xs = (false, xs) ∧ ∀ x ∈ xs, rank x ≠ rank o) ∨
        ∃ i x, xs[i]? = some x ∧ rank x = rank o ∧
          SortedVector.drop compare o xs = (true, xs.eraseIdx i)) ∧
      (∀ o, lowerBound compare o xs = xs.findIdx? fun x => decide (rank o ≤ rank x)) ∧
      (∀ o, upperBound compare o xs = xs.findIdx? fun x => decide (rank o < rank x)) ∧
      (run (perform compareKeys) ⟨[], nullValue⟩ mapOps).1 =
        (run (performMap rankKeys nullValue) (fun _ => none) mapOps).1 := by
  intro xs
  have sorted : Sorted rank xs := run_sorted order plan ops
  refine ⟨sorted, fun unique => run_strictlySorted order unique ops, ?_, ?_,
    fun o i => find_some order o i, fun o => find_none order o xs sorted,
    fun o => drop_spec order o sorted, fun o => lowerBound_eq order o xs sorted,
    fun o => upperBound_eq order o sorted, run_represents orderKeys nullValue mapOps⟩
  · rintro o ⟨x, mem, equal⟩
    have did := put_spec order plan o sorted
    generalize SortedVector.put compare plan o xs = result at did ⊢
    cases did with
    | duplicate => simp
    | overwrite i y here eq => exact ⟨by simp, fun _ => ⟨i, y, here, eq, rfl⟩⟩
    | refuse => simp
    | insert _ p hin before behind =>
      -- the equal element would be on one of the two sides
      rw [← List.take_append_drop p xs, List.mem_append] at mem
      rcases mem with inLeft | inRight
      · exact absurd equal (ne_of_lt (before x inLeft))
      · exact absurd equal (ne_of_gt (behind x inRight))
  · exact fun o new => (put_spec order plan o sorted).perm new

theorem runs_spec_numbers :
    let compare : Int → Int → Int := fun a b => b - a
    let xs := (run (SortedVector.perform compare .allowDuplicate) []
      [.put 3, .put 1, .put 3, .put 7, .drop 1]).2
    xs = [3, 3, 7] ∧ lowerBound compare 3 xs = some 0 ∧ upperBound compare 3 xs = some 2 ∧
      upperBound compare 7 xs = none ∧
      (run (perform compare) ⟨[], 0⟩ [.put 3 30, .put 1 10, .put 3 31, .drop 1, .get 3, .get 1]).1 =
        [.nothing, .nothing, .nothing, .flag true, .value 31, .value (0 : Nat)] := by
  intro compare xs
  have order : OrderedBy compare fun n => n :=
    ⟨fun a b => by simp only [compare]; omega, fun a b => by simp only [compare]; omega⟩
  obtain ⟨-, -, -, -, -, -, -, lower, upper, map⟩ :=
    runs_spec compare (fun n => n) order .allowDuplicate
      [.put 3, .put 1, .put 3, .put 7, .drop 1] compare (fun n => n) order 0
      [.put 3 30, .put 1 10, .put 3 31, .drop 1, .get 3, .get 1]
  have contents : xs = [3, 3, 7] := by decide +kernel
  refine ⟨contents, (lower 3).trans ?_, (upper 3).trans ?_, (upper 7).trans ?_, map.trans ?_⟩ <;>
    decide +kernel

end VectorMap

end Engine3
