import Engine3.Library.Exec
import Mathlib.Data.List.Basic

/-!
# Blocks of memory and their owners

A heap of blocks of cells, where a cell may not have been initialised. Addresses are not used
twice, so a pointer to a freed block is known for one. An access through a null pointer, to a
freed block or outside a block stops the run.

Objects that hold a pointer own the block behind it. A family of objects represents a family of
values as long as no two of them own the same block, and an operation that touches only the
block of one object, and new blocks, leaves the others alone.
-/
namespace OwnedBlocks

open Exec List Function

inductive Fault
  | null
  | freed (block : Nat)
  | outside
  | uninitialised
  | outOfFuel
  deriving DecidableEq, Repr

structure Heap (β : Type) where
  blocks : Nat → Option (List (Option β))
  next : Nat
  fresh : ∀ p, next ≤ p → blocks p = none

abbrev HeapM (β : Type) := EStateM Fault (Heap β)

variable {β : Type}

namespace Heap

def empty : Heap β := ⟨fun _ => none, 0, fun _ _ => rfl⟩

def push (h : Heap β) (cells : List (Option β)) : Heap β where
  blocks q := if q = h.next then some cells else h.blocks q
  next := h.next + 1
  fresh p beyond := by
    rw [if_neg (by omega)]
    exact h.fresh p (by omega)

def set (h : Heap β) (p : Nat) (cells : Option (List (Option β))) : Heap β where
  blocks q := if q = p ∧ p < h.next then cells else h.blocks q
  next := h.next
  fresh q beyond := by
    rw [if_neg (by omega)]
    exact h.fresh q beyond

theorem lt_next {h : Heap β} {p : Nat} (live : h.blocks p ≠ none) : p < h.next := by
  rcases Nat.lt_or_ge p h.next with below | beyond
  · exact below
  · exact absurd (h.fresh p beyond) live

@[simp] theorem push_self (h : Heap β) (cells : List (Option β)) :
    (h.push cells).blocks h.next = some cells := if_pos rfl

theorem push_ne {h : Heap β} (cells : List (Option β)) {q : Nat} (ne : q ≠ h.next) :
    (h.push cells).blocks q = h.blocks q := if_neg ne

theorem push_live (h : Heap β) (cells : List (Option β)) {q : Nat} (live : h.blocks q ≠ none) :
    (h.push cells).blocks q = h.blocks q :=
  push_ne cells (Nat.ne_of_lt (lt_next live))

theorem set_self (h : Heap β) {p : Nat} (cells : Option (List (Option β)))
    (live : h.blocks p ≠ none) : (h.set p cells).blocks p = cells :=
  if_pos ⟨rfl, lt_next live⟩

theorem set_ne (h : Heap β) {p q : Nat} (cells : Option (List (Option β))) (ne : q ≠ p) :
    (h.set p cells).blocks q = h.blocks q :=
  if_neg fun eq => ne eq.1

end Heap

/-! ### Operations -/

def blit (cells : List (Option β)) (start : Nat) (part : List (Option β)) : List (Option β) :=
  cells.take start ++ part ++ cells.drop (start + part.length)

def alloc (n : Nat) : HeapM β Nat := fun h => .ok h.next (h.push (replicate n none))

def free (p : Option Nat) : HeapM β Unit := fun h =>
  match p with
  | none => .ok () h
  | some p =>
    match h.blocks p with
    | none => .error (.freed p) h
    | some _ => .ok () (h.set p none)

def load (p : Option Nat) : HeapM β (List (Option β)) := fun h =>
  match p with
  | none => .error .null h
  | some p =>
    match h.blocks p with
    | none => .error (.freed p) h
    | some cells => .ok cells h

def store (p start : Nat) (part : List (Option β)) : HeapM β Unit := fun h =>
  match h.blocks p with
  | none => .error (.freed p) h
  | some cells =>
    if start + part.length ≤ cells.length then .ok () (h.set p (some (blit cells start part)))
    else .error .outside h

def realloc (p : Option Nat) (n : Nat) : HeapM β Nat :=
  match p with
  | none => alloc n
  | some p => do
    let cells ← load (some p)
    let q ← alloc n
    store q 0 (cells.take n)
    free (some p)
    return q

section Rules

variable {h : Heap β} {p : Nat} {cells : List (Option β)} (live : h.blocks p = some cells)
include live

theorem load_live : load (some p) h = .ok cells h := by
  simp only [load, live]

theorem free_live : free (some p) h = .ok () (h.set p none) := by
  simp only [free, live]

theorem store_live (start : Nat) {part : List (Option β)}
    (fits : start + part.length ≤ cells.length) :
    store p start part h = .ok () (h.set p (some (blit cells start part))) := by
  simp only [store, live, if_pos fits]

end Rules

theorem free_dead {h h' : Heap β} {p : Nat} (freed : free (some p) h = .ok () h') :
    h'.blocks p = none := by
  cases live : h.blocks p with
  | none => simp [free, live] at freed
  | some cells =>
    rw [free_live live] at freed
    cases freed
    exact Heap.set_self h none (by simp [live])

theorem load_dead {h : Heap β} {p : Nat} (dead : h.blocks p = none) :
    load (some p) h = .error (.freed p) h := by
  simp only [load, dead]

theorem length_blit {cells : List (Option β)} {start : Nat} {part : List (Option β)}
    (fits : start + part.length ≤ cells.length) :
    (blit cells start part).length = cells.length := by
  simp only [blit, length_append, length_take, length_drop]
  omega

theorem blit_append (front old back part : List (Option β)) (eq : old.length = part.length) :
    blit (front ++ old ++ back) front.length part = front ++ part ++ back := by
  have kept : (front ++ old ++ back).take front.length = front := by
    rw [append_assoc, take_left]
  have behind : (front ++ old ++ back).drop (front.length + part.length) = back := by
    rw [← eq, ← length_append, drop_left]
  rw [blit, kept, behind]

theorem blit_fresh (front back part : List (Option β)) (n : Nat) (fits : part.length ≤ n) :
    blit (front ++ replicate n none ++ back) front.length part =
      front ++ (part ++ replicate (n - part.length) none) ++ back := by
  have cut : replicate n (none : Option β) =
      replicate part.length none ++ replicate (n - part.length) none := by
    rw [replicate_append_replicate]
    congr 1
    omega
  have written := blit_append front (replicate part.length none)
    (replicate (n - part.length) none ++ back) part (by simp)
  rw [cut]
  simpa only [append_assoc] using written

/-! ### What an operation leaves alone -/

structure Extends (base : Heap β) (p : Option Nat) (h : Heap β) : Prop where
  kept : ∀ q, p ≠ some q → base.blocks q ≠ none → h.blocks q = base.blocks q
  next : base.next ≤ h.next

namespace Extends

variable {base h : Heap β} {p : Option Nat}

theorem refl (base : Heap β) (p : Option Nat) : Extends base p base :=
  ⟨fun _ _ _ => rfl, Nat.le_refl _⟩

theorem push (ext : Extends base p h) (cells : List (Option β)) : Extends base p (h.push cells) :=
  ⟨fun q ne live => by
    rw [Heap.push_ne _ (Nat.ne_of_lt (Nat.lt_of_lt_of_le (Heap.lt_next live) ext.next))]
    exact ext.kept q ne live, Nat.le_succ_of_le ext.next⟩

theorem set (ext : Extends base p h) {q : Nat} (allowed : p = some q ∨ base.blocks q = none)
    (cells : Option (List (Option β))) : Extends base p (h.set q cells) where
  kept r ne live := by
    have apart : r ≠ q := by
      rintro rfl
      rcases allowed with eq | new
      · exact ne eq
      · exact live new
    rw [Heap.set_ne _ _ apart]
    exact ext.kept r ne live
  next := ext.next

theorem dead (ext : Extends base p h) {q : Nat} (gone : h.blocks q = none) :
    base.blocks q = none ∨ p = some q := by
  by_contra ne
  rw [not_or] at ne
  exact ne.1 ((ext.kept q ne.2 ne.1).symm.trans gone)

theorem mono (ext : Extends base none h) (p : Option Nat) : Extends base p h :=
  ⟨fun q _ live => ext.kept q (by simp) live, ext.next⟩

theorem trans {h' : Heap β} (fst : Extends base p h) (snd : Extends h p h') :
    Extends base p h' where
  kept q ne live := by
    have eq := fst.kept q ne live
    rw [snd.kept q ne (eq ▸ live), eq]
  next := Nat.le_trans fst.next snd.next

theorem trans_fresh {h' : Heap β} {e : Option Nat} (fst : Extends base p h)
    (snd : Extends h e h') (new : ∀ q, e = some q → base.blocks q = none) :
    Extends base p h' where
  kept r ne live := by
    have eq := fst.kept r ne live
    have apart : e ≠ some r := fun equal => live (new r equal)
    rw [snd.kept r apart (eq ▸ live), eq]
  next := Nat.le_trans fst.next snd.next

end Extends

structure Only (p : Nat) (h h' : Heap β) : Prop where
  others : ∀ q, q ≠ p → h'.blocks q = h.blocks q
  next : h'.next = h.next

namespace Only

variable {p : Nat} {h h' h'' : Heap β}

theorem refl (p : Nat) (h : Heap β) : Only p h h := ⟨fun _ _ => rfl, rfl⟩

theorem trans (fst : Only p h h') (snd : Only p h' h'') : Only p h h'' :=
  ⟨fun q ne => (snd.others q ne).trans (fst.others q ne),
    snd.next.trans fst.next⟩

theorem set (h : Heap β) (p : Nat) (cells : Option (List (Option β))) : Only p h (h.set p cells) :=
  ⟨fun _ ne => Heap.set_ne h cells ne, rfl⟩

end Only

theorem store_exact {h : Heap β} {p : Nat} {front old back : List (Option β)}
    (live : h.blocks p = some (front ++ old ++ back)) (start : Nat) (part : List (Option β))
    (begins : start = front.length) (eq : old.length = part.length) :
    ∃ h', store p start part h = .ok () h' ∧ h'.blocks p = some (front ++ part ++ back) ∧
      Only p h h' := by
  subst begins
  have fits : front.length + part.length ≤ (front ++ old ++ back).length := by
    simp only [length_append]
    omega
  refine ⟨_, store_live live _ fits, ?_, Only.set h p _⟩
  rw [Heap.set_self h _ (by simp [live]), blit_append front old back part eq]

theorem Extends.only {base h h' : Heap β} {e : Option Nat} {p : Nat} (ext : Extends base e h)
    (changed : Only p h h') (new : base.blocks p = none) : Extends base e h' where
  kept q ne live := by
    have apart : q ≠ p := by
      rintro rfl
      exact live new
    rw [changed.others q apart, ext.kept q ne live]
  next := changed.next ▸ ext.next

theorem realloc_spec {h : Heap β} {p : Nat} {cells : List (Option β)}
    (live : h.blocks p = some cells) (n : Nat) (grows : cells.length ≤ n) :
    ∃ h', realloc (some p) n h = .ok h.next h' ∧ Extends h (some p) h' ∧
      h'.blocks h.next = some (cells ++ replicate (n - cells.length) none) := by
  have dead : h.blocks h.next = none := h.fresh _ (Nat.le_refl _)
  have apart : h.next ≠ p := by
    rintro rfl
    rw [live] at dead
    cases dead
  have new : (h.push (replicate n none)).blocks h.next =
      some ([] ++ replicate cells.length none ++ replicate (n - cells.length) none) := by
    rw [Heap.push_self, nil_append, replicate_append_replicate]
    congr 2
    omega
  -- the old block is freed after its cells were copied
  obtain ⟨h₁, written, block, only⟩ := store_exact new 0 cells rfl (by simp)
  have kept : h₁.blocks p = some cells := by
    rw [only.others p apart.symm, Heap.push_ne _ apart.symm, live]
  refine ⟨h₁.set p none, ?_, ?_, ?_⟩
  · rw [realloc, bind_of_ok (load_live live), bind_of_ok (m := alloc n) rfl,
      take_of_length_le grows, bind_of_ok written,
      bind_of_ok (free_live kept)]
    rfl
  · exact (((Extends.refl h _).push _).only only dead).set (.inl rfl) none
  · rw [Heap.set_ne _ _ apart, block, nil_append]

/-! ### Families of objects -/

structure Owner (β S A : Type) where
  pointer : S → Option Nat
  Holds : Heap β → S → A → Prop
  live : ∀ {h s a p}, Holds h s a → pointer s = some p → h.blocks p ≠ none
  frame : ∀ {h h' s a}, Holds h s a → (∀ p, pointer s = some p → h'.blocks p = h.blocks p) →
    Holds h' s a

variable {S A ι : Type}

structure Represents (own : Owner β S A) (h : Heap β) (objects : ι → Option S)
    (values : ι → Option A) : Prop where
  absent : ∀ x, objects x = none ↔ values x = none
  holds : ∀ x s a, objects x = some s → values x = some a → own.Holds h s a
  separate : ∀ x y s t p, objects x = some s → objects y = some t →
    own.pointer s = some p → own.pointer t = some p → x = y

def Owner.block (own : Owner β S A) (objects : ι → Option S) (x : ι) : Option Nat :=
  (objects x).bind own.pointer

@[simp] theorem Owner.block_some (own : Owner β S A) {objects : ι → Option S} {x : ι} {s : S}
    (obj : objects x = some s) : own.block objects x = own.pointer s := by
  rw [block, obj, Option.bind_some]

@[simp] theorem Owner.block_none (own : Owner β S A) {objects : ι → Option S} {x : ι}
    (absent : objects x = none) : own.block objects x = none := by
  rw [block, absent, Option.bind_none]

namespace Represents

variable {own : Owner β S A} {h h' : Heap β} {objects : ι → Option S} {values : ι → Option A}

theorem nothing (h : Heap β) : Represents own h (fun _ : ι => none) fun _ => none where
  absent _ := by simp
  holds _ _ _ none := nomatch none
  separate _ _ _ _ _ none := nomatch none

variable (rep : Represents own h objects values)
include rep

theorem value {x : ι} {s : S} (obj : objects x = some s) :
    ∃ a, values x = some a ∧ own.Holds h s a := by
  cases val : values x with
  | none => rw [(rep.absent x).mpr val] at obj; cases obj
  | some a => exact ⟨a, rfl, rep.holds x s a obj val⟩

theorem lookup (x : ι) : objects x = none ∧ values x = none ∨
    ∃ s a, objects x = some s ∧ values x = some a ∧ own.Holds h s a := by
  cases obj : objects x with
  | none => exact .inl ⟨rfl, (rep.absent x).mp obj⟩
  | some s =>
    obtain ⟨a, val, held⟩ := rep.value obj
    exact .inr ⟨s, a, rfl, val, held⟩

theorem other {x y : ι} {s : S} {a : A} (apart : y ≠ x)
    (ext : Extends h (own.block objects x) h') (obj : objects y = some s)
    (val : values y = some a) : own.Holds h' s a := by
  have held := rep.holds y s a obj val
  refine own.frame held fun p ptr => ext.kept p ?_ (own.live held ptr)
  intro eq
  obtain ⟨t, target, points⟩ := Option.bind_eq_some_iff.mp eq
  exact apart (rep.separate y x s t p obj target ptr points)

theorem unowned_of_dead {p : Nat} (dead : h.blocks p = none) (x : ι) :
    ∀ y t, y ≠ x → objects y = some t → own.pointer t ≠ some p := by
  intro y t _ obj points
  obtain ⟨a, _, held⟩ := rep.value obj
  exact own.live held points dead

theorem unowned_of_own {p : Nat} {x : ι} (mine : own.block objects x = some p) :
    ∀ y t, y ≠ x → objects y = some t → own.pointer t ≠ some p := by
  intro y t apart obj points
  obtain ⟨s, target, ptr⟩ := Option.bind_eq_some_iff.mp mine
  exact apart (rep.separate y x t s p obj target points ptr)

variable [DecidableEq ι]

theorem replace {x : ι} {o : Option S} {v : Option A} (ext : Extends h (own.block objects x) h')
    (both : o = none ↔ v = none) (held : ∀ s a, o = some s → v = some a → own.Holds h' s a)
    (unowned : ∀ s p, o = some s → own.pointer s = some p → ∀ y t, y ≠ x → objects y = some t →
      own.pointer t ≠ some p) :
    Represents own h' (update objects x o) (update values x v) where
  absent y := by
    by_cases here : y = x
    · subst here
      simpa using both
    · simpa [here] using rep.absent y
  holds y s a obj value := by
    by_cases here : y = x
    · subst here
      rw [update_self] at obj value
      exact held s a obj value
    · rw [update_of_ne here] at obj value
      exact rep.other here ext obj value
  separate y z s t p fst snd firstPoints secondPoints := by
    -- at most one of the two is the new object, and then the other has another block
    by_cases here : y = x
    · subst here
      by_cases there : z = y
      · exact there.symm
      · rw [update_self] at fst
        rw [update_of_ne there] at snd
        exact absurd secondPoints (unowned s p fst firstPoints z t there snd)
    · rw [update_of_ne here] at fst
      by_cases there : z = x
      · subst there
        rw [update_self] at snd
        exact absurd firstPoints (unowned t p snd secondPoints y s here fst)
      · rw [update_of_ne there] at snd
        exact rep.separate y z s t p fst snd firstPoints secondPoints

theorem update {x : ι} {s' : S} {a' : A} (ext : Extends h (own.block objects x) h')
    (held : own.Holds h' s' a')
    (unowned : ∀ p, own.pointer s' = some p → ∀ y t, y ≠ x → objects y = some t →
      own.pointer t ≠ some p) :
    Represents own h' (update objects x (some s'))
      (update values x (some a')) := by
  apply rep.replace ext (by simp)
  · rintro s a ⟨⟩ ⟨⟩
    exact held
  · rintro s p ⟨⟩ points
    exact unowned p points

theorem erase {x : ι} (ext : Extends h (own.block objects x) h') :
    Represents own h' (Function.update objects x none) (Function.update values x none) :=
  rep.replace ext (by simp) (fun _ _ obj => nomatch obj) fun _ _ obj => nomatch obj

end Represents

end OwnedBlocks
