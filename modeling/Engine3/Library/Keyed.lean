import Mathlib.Data.List.Basic

/-!
# Lists of keyed entries as finite maps

A list of entries whose keys are pairwise different is a finite map. The keys are compared
by a Boolean equality that need not be the identity.
-/
namespace Keyed

variable {α K V : Type} [BEq K]

def store (m : K → Option V) (k : K) (v : V) : K → Option V := fun k' =>
  if k == k' then some v else m k'

def forget (m : K → Option V) (k : K) : K → Option V := fun k' => if k == k' then none else m k'

/-! ### Maps as lists -/

/-- No two entries have equal keys. -/
def Distinct (key : α → K) (l : List α) : Prop := l.Pairwise fun a b => (key a == key b) = false

def lookup (key : α → K) (l : List α) (k : K) : Option α := l.find? fun a => key a == k

variable (key : α → K)

@[simp] theorem lookup_nil (k : K) : lookup key [] k = none := rfl

theorem lookup_cons (a : α) (l : List α) (k : K) :
    lookup key (a :: l) k = if key a == k then some a else lookup key l k := by
  simp only [lookup, List.find?_cons]
  cases key a == k <;> rfl

theorem lookup_append (l₁ l₂ : List α) (k : K) :
    lookup key (l₁ ++ l₂) k = (lookup key l₁ k).or (lookup key l₂ k) :=
  List.find?_append

theorem lookup_eq_none_iff (l : List α) (k : K) :
    lookup key l k = none ↔ ∀ a ∈ l, (key a == k) = false := by
  simp [lookup]

theorem find?_eq_lookup (l : List α) (k : K) (p : α → Bool) (eq : ∀ a ∈ l, p a = (key a == k)) :
    l.find? p = lookup key l k := by
  induction l with
  | nil => rfl
  | cons a l ih =>
    obtain ⟨first, rest⟩ := List.forall_mem_cons.mp eq
    rw [lookup_cons, List.find?_cons, first, ih rest]
    cases key a == k <;> rfl

variable [EquivBEq K]

theorem lookup_congr (l : List α) {k k' : K} (eq : (k == k') = true) :
    lookup key l k = lookup key l k' := by
  apply find?_eq_lookup
  intro a _
  exact BEq.congr_right eq

theorem Distinct.perm {key : α → K} {l l' : List α} (nodup : Distinct key l)
    (perm : l.Perm l') : Distinct key l' := by
  apply (perm.pairwise_iff ?_).mp nodup
  intro a b ne
  rw [BEq.comm]
  exact ne

omit [EquivBEq K] in
theorem Distinct.replace {key : α → K} {front back : List α} {a a' : α}
    (distinct : Distinct key (front ++ a :: back)) (sameKey : key a' = key a) :
    Distinct key (front ++ a' :: back) := by
  simp only [Distinct, List.pairwise_append, List.pairwise_cons, List.mem_cons, forall_eq_or_imp,
    sameKey] at distinct ⊢
  exact distinct

theorem Distinct.cons {key : α → K} {l : List α} (distinct : Distinct key l) {a : α}
    (absent : lookup key l (key a) = none) : Distinct key (a :: l) := by
  rw [lookup_eq_none_iff] at absent
  apply List.Pairwise.cons _ distinct
  intro b member
  rw [BEq.comm]
  exact absent b member

theorem lookup_eq_some_iff {l : List α} (distinct : Distinct key l) (k : K) (a : α) :
    lookup key l k = some a ↔ a ∈ l ∧ (key a == k) = true := by
  induction l with
  | nil => simp
  | cons b l ih =>
    obtain ⟨different, distinct⟩ := List.pairwise_cons.mp distinct
    rw [lookup_cons]
    cases found : key b == k with
    | true =>
      simp only [if_true, Option.some.injEq, List.mem_cons]
      constructor
      · rintro rfl
        exact ⟨.inl rfl, found⟩
      · rintro ⟨rfl | later, same⟩
        · rfl
        · have clash : (key b == key a) = true := PartialEquivBEq.trans found (BEq.symm same)
          rw [different a later] at clash
          contradiction
    | false =>
      simp only [Bool.false_eq_true, if_false, ih distinct, List.mem_cons]
      constructor
      · rintro ⟨later, same⟩
        exact ⟨.inr later, same⟩
      · rintro ⟨rfl | later, same⟩
        · rw [found] at same
          contradiction
        · exact ⟨later, same⟩

theorem lookup_perm {l l' : List α} (nodup : Distinct key l) (perm : l.Perm l') (k : K) :
    lookup key l k = lookup key l' k := by
  apply Option.ext
  intro a
  rw [lookup_eq_some_iff key nodup, lookup_eq_some_iff key (nodup.perm perm), perm.mem_iff]

section Middle

variable {front back : List α} {a : α} (distinct : Distinct key (front ++ a :: back))

include distinct

theorem lookup_front_of_middle {k : K} (eq : (key a == k) = true) : lookup key front k = none := by
  rw [lookup_eq_none_iff]
  intro b member
  have different := (List.pairwise_append.mp distinct).2.2 b member a (by simp)
  cases clash : key b == k with
  | false => rfl
  | true => rw [PartialEquivBEq.trans clash (BEq.symm eq)] at different; contradiction

theorem lookup_back_of_middle {k : K} (eq : (key a == k) = true) : lookup key back k = none := by
  rw [lookup_eq_none_iff]
  intro b member
  have different := (List.pairwise_cons.mp (List.pairwise_append.mp distinct).2.1).1 b member
  cases clash : key b == k with
  | false => rfl
  | true => rw [PartialEquivBEq.trans eq (BEq.symm clash)] at different; contradiction

theorem lookup_middle {k : K} (eq : (key a == k) = true) :
    lookup key (front ++ a :: back) k = some a := by
  rw [lookup_eq_some_iff key distinct]
  exact ⟨by simp, eq⟩

theorem lookup_replace (a' : α) (sameKey : key a' = key a) (k : K) :
    lookup key (front ++ a' :: back) k =
      if key a == k then some a' else lookup key (front ++ a :: back) k := by
  simp only [lookup_append, lookup_cons, sameKey]
  cases same : key a == k with
  | true => simp [lookup_front_of_middle key distinct same]
  | false => simp

theorem lookup_remove (k : K) :
    lookup key (front ++ back) k =
      if key a == k then none else lookup key (front ++ a :: back) k := by
  simp only [lookup_append, lookup_cons]
  cases eq : key a == k with
  | true =>
    simp [lookup_front_of_middle key distinct eq, lookup_back_of_middle key distinct eq]
  | false => simp

end Middle

end Keyed
