import Mathlib.Data.List.Perm.Basic

/-!
# Leftist heaps

Binary trees that are melded along their right spines. Which of two roots becomes the parent is
decided by a Boolean comparison that need not be an order: the entries are kept whatever it
answers, and the heap order follows where it is one.
-/
namespace LeftistHeap

open List

variable {α : Type}

inductive Heap (α : Type)
  | leaf
  | node (npl : Int) (left : Heap α) (entry : α) (right : Heap α)
  deriving DecidableEq, Repr

namespace Heap

def root? : Heap α → Option α
  | leaf => none
  | node _ _ x _ => some x

def npl : Heap α → Int
  | leaf => 0
  | node n _ _ _ => n

def toList : Heap α → List α
  | leaf => []
  | node _ l x r => x :: (l.toList ++ r.toList)

def size (t : Heap α) : Nat := t.toList.length

@[simp] theorem root?_leaf : (leaf : Heap α).root? = none := rfl

@[simp] theorem root?_node (n : Int) (l r : Heap α) (x : α) : (node n l x r).root? = some x := rfl

@[simp] theorem toList_leaf : (leaf : Heap α).toList = [] := rfl

@[simp] theorem toList_node (n : Int) (l r : Heap α) (x : α) :
    (node n l x r).toList = x :: (l.toList ++ r.toList) := rfl

@[simp] theorem size_leaf : (leaf : Heap α).size = 0 := rfl

@[simp] theorem size_node (n : Int) (l r : Heap α) (x : α) :
    (node n l x r).size = l.size + r.size + 1 := by
  simp [size]

theorem mem_of_root? {t : Heap α} {x : α} (root : t.root? = some x) : x ∈ t.toList := by
  cases t with
  | leaf => cases root
  | node n l y r =>
    cases root
    exact mem_cons_self

theorem root?_eq_none_iff (t : Heap α) : t.root? = none ↔ t = leaf := by
  cases t <;> simp

/-! ### Melding -/

def attach (meldRight : Heap α → Heap α → Heap α) (n : Int) (l : Heap α) (x : α) (r t : Heap α) :
    Heap α :=
  match l with
  | leaf => node n t x r
  | node .. =>
    let r' := meldRight r t
    if l.npl < r'.npl then node (l.npl + 1) r' x l else node (r'.npl + 1) l x r'

def meld (before : α → α → Bool) : Nat → Heap α → Heap α → Heap α
  | _, leaf, t => t
  | _, t, leaf => t
  | 0, node .., node .. => leaf
  | fuel + 1, node n₁ l₁ x₁ r₁, node n₂ l₂ x₂ r₂ =>
    if before x₁ x₂ then attach (meld before fuel) n₁ l₁ x₁ r₁ (node n₂ l₂ x₂ r₂)
    else attach (meld before fuel) n₂ l₂ x₂ r₂ (node n₁ l₁ x₁ r₁)

def merge (before : α → α → Bool) (t₁ t₂ : Heap α) : Heap α :=
  meld before (t₁.size + t₂.size) t₁ t₂

@[simp] theorem meld_leaf_left (before : α → α → Bool) (fuel : Nat) (t : Heap α) :
    meld before fuel leaf t = t := by
  cases fuel <;> rfl

@[simp] theorem meld_leaf_right (before : α → α → Bool) (fuel : Nat) (t : Heap α) :
    meld before fuel t leaf = t := by
  cases t <;> cases fuel <;> rfl

theorem meld_node (before : α → α → Bool) (fuel : Nat) (n₁ n₂ : Int) (l₁ r₁ l₂ r₂ : Heap α)
    (x₁ x₂ : α) :
    meld before (fuel + 1) (node n₁ l₁ x₁ r₁) (node n₂ l₂ x₂ r₂) =
      if before x₁ x₂ then attach (meld before fuel) n₁ l₁ x₁ r₁ (node n₂ l₂ x₂ r₂)
      else attach (meld before fuel) n₂ l₂ x₂ r₂ (node n₁ l₁ x₁ r₁) := rfl

variable (meldRight : Heap α → Heap α → Heap α)
include meldRight

theorem attach_leaf (n : Int) (x : α) (r t : Heap α) :
    attach meldRight n leaf x r t = node n t x r := rfl

theorem attach_node (n : Int) {l : Heap α} (x : α) (r t : Heap α) (left : l ≠ leaf) :
    attach meldRight n l x r t =
      if l.npl < (meldRight r t).npl then node (l.npl + 1) (meldRight r t) x l
      else node ((meldRight r t).npl + 1) l x (meldRight r t) := by
  cases l with
  | leaf => contradiction
  | node => rfl

theorem root?_attach (n : Int) (l : Heap α) (x : α) (r t : Heap α) :
    (attach meldRight n l x r t).root? = some x := by
  by_cases left : l = leaf
  · rw [left, attach_leaf, root?_node]
  · rw [attach_node _ _ _ _ _ left]
    split <;> rfl

theorem attach_perm (n : Int) (l : Heap α) (x : α) (r t : Heap α)
    (keeps : (meldRight r t).toList.Perm (r.toList ++ t.toList)) :
    (attach meldRight n l x r t).toList.Perm (x :: (l.toList ++ r.toList) ++ t.toList) := by
  by_cases left : l = leaf
  · subst left
    simpa [attach_leaf] using perm_append_comm
  · have all : (l.toList ++ (meldRight r t).toList).Perm (l.toList ++ r.toList ++ t.toList) := by
      rw [append_assoc]
      exact keeps.append_left _
    rw [attach_node _ _ _ _ _ left, cons_append]
    split
    · exact (perm_append_comm.trans all).cons x
    · exact all.cons x

omit meldRight

theorem attach_congr (f g : Heap α → Heap α → Heap α) (n : Int) (l : Heap α) (x : α) (r t : Heap α)
    (eq : f r t = g r t) : attach f n l x r t = attach g n l x r t := by
  unfold attach
  simp only [eq]

variable (before : α → α → Bool)
include before

variable (fuel : Nat)

theorem meld_fuel (fuel' : Nat) (t₁ t₂ : Heap α) (le : t₁.size + t₂.size ≤ fuel)
    (le' : t₁.size + t₂.size ≤ fuel') : meld before fuel t₁ t₂ = meld before fuel' t₁ t₂ := by
  induction fuel generalizing fuel' t₁ t₂ with
  | zero =>
    cases t₁ with
    | leaf => simp
    | node => simp at le
  | succ fuel ih =>
    cases t₁ with
    | leaf => simp
    | node n₁ l₁ x₁ r₁ =>
      cases t₂ with
      | leaf => simp
      | node n₂ l₂ x₂ r₂ =>
        simp only [size_node] at le le'
        obtain ⟨fuel', rfl⟩ : ∃ k, fuel' = k + 1 := ⟨fuel' - 1, by omega⟩
        rw [meld_node, meld_node]
        split <;>
          exact attach_congr _ _ _ _ _ _ _
            (ih _ _ _ (by simp only [size_node]; omega) (by simp only [size_node]; omega))

theorem meld_eq_merge (t₁ t₂ : Heap α) (le : t₁.size + t₂.size ≤ fuel) :
    meld before fuel t₁ t₂ = merge before t₁ t₂ :=
  meld_fuel before fuel _ t₁ t₂ le (Nat.le_refl _)

theorem meld_perm (t₁ t₂ : Heap α) (le : t₁.size + t₂.size ≤ fuel) :
    (meld before fuel t₁ t₂).toList.Perm (t₁.toList ++ t₂.toList) := by
  induction fuel generalizing t₁ t₂ with
  | zero =>
    cases t₁ with
    | leaf => simp
    | node => simp at le
  | succ fuel ih =>
    cases t₁ with
    | leaf => simp
    | node n₁ l₁ x₁ r₁ =>
      cases t₂ with
      | leaf => simp
      | node n₂ l₂ x₂ r₂ =>
        simp only [size_node] at le
        rw [meld_node]
        split
        · exact attach_perm _ _ _ _ _ _ (ih _ _ (by simp only [size_node]; omega))
        · exact (attach_perm _ _ _ _ _ _ (ih _ _ (by simp only [size_node]; omega))).trans
            perm_append_comm

variable (t₁ t₂ : Heap α)

theorem merge_perm : (merge before t₁ t₂).toList.Perm (t₁.toList ++ t₂.toList) :=
  meld_perm before _ t₁ t₂ (Nat.le_refl _)

theorem mem_merge (x : α) : x ∈ (merge before t₁ t₂).toList ↔ x ∈ t₁.toList ∨ x ∈ t₂.toList := by
  rw [(merge_perm before t₁ t₂).mem_iff, mem_append]

theorem size_merge : (merge before t₁ t₂).size = t₁.size + t₂.size := by
  rw [size, (merge_perm before t₁ t₂).length_eq, length_append]
  rfl

theorem root?_meld {fuel : Nat} {t₁ t₂ : Heap α} (le : t₁.size + t₂.size ≤ fuel) :
    (meld before fuel t₁ t₂).root? = t₁.root? ∨ (meld before fuel t₁ t₂).root? = t₂.root? := by
  cases t₁ with
  | leaf => simp
  | node n₁ l₁ x₁ r₁ =>
    cases t₂ with
    | leaf => simp
    | node n₂ l₂ x₂ r₂ =>
      simp only [size_node] at le
      obtain ⟨fuel, rfl⟩ : ∃ k, fuel = k + 1 := ⟨fuel - 1, by omega⟩
      rw [meld_node]
      split
      · exact .inl (root?_attach ..)
      · exact .inr (root?_attach ..)

theorem root?_merge :
    (merge before t₁ t₂).root? = t₁.root? ∨ (merge before t₁ t₂).root? = t₂.root? :=
  root?_meld before (Nat.le_refl _)

def insert (before : α → α → Bool) (n : Int) (e : α) (t : Heap α) : Heap α :=
  merge before (node n leaf e leaf) t

def poll (before : α → α → Bool) : Heap α → Option (α × Heap α)
  | leaf => none
  | node _ l x r => some (x, merge before l r)

theorem insert_perm (n : Int) (e : α) (t : Heap α) :
    (insert before n e t).toList.Perm (e :: t.toList) := by
  simpa [insert] using merge_perm before (node n leaf e leaf) t

omit before

theorem mem_rest_iff {xs rest : List α} {e : α} (perm : xs.Perm (e :: rest)) (nodup : xs.Nodup)
    (x : α) : x ∈ rest ↔ x ≠ e ∧ x ∈ xs := by
  have gone := (nodup_cons.mp (perm.nodup_iff.mp nodup)).1
  rw [perm.mem_iff, mem_cons]
  constructor
  · intro left
    exact ⟨ne_of_mem_of_not_mem left gone, .inr left⟩
  · rintro ⟨ne, eq | left⟩
    · contradiction
    · exact left

theorem poll_perm (before : α → α → Bool) (t rest : Heap α) (e : α)
    (polled : poll before t = some (e, rest)) : t.toList.Perm (e :: rest.toList) := by
  cases t with
  | leaf => cases polled
  | node n l x r =>
    cases polled
    exact ((merge_perm before l r).symm).cons e

/-! ### Heap order -/

def HeapOrdered (R : α → α → Prop) : Heap α → Prop
  | leaf => True
  | node _ l x r => (∀ y ∈ l.toList ++ r.toList, R x y) ∧ HeapOrdered R l ∧ HeapOrdered R r

section Order

variable {R : α → α → Prop}

theorem HeapOrdered.root_le {t : Heap α} (ord : HeapOrdered R t) (refl : ∀ x, R x x) {x : α}
    (root : t.root? = some x) : ∀ y ∈ t.toList, R x y := by
  cases t with
  | leaf => cases root
  | node n l x' r =>
    cases root
    intro y mem
    rcases mem_cons.mp mem with rfl | below
    · exact refl _
    · exact ord.1 y below

theorem HeapOrdered.imp {R' : α → α → Prop} {t : Heap α} (ord : HeapOrdered R t)
    (weaker : ∀ x ∈ t.toList, ∀ y ∈ t.toList, R x y → R' x y) : HeapOrdered R' t := by
  induction t with
  | leaf => trivial
  | node n l x r ihLeft ihRight =>
    obtain ⟨top, left, right⟩ := ord
    refine ⟨fun y below => ?_, ihLeft left fun y inY z inZ => ?_,
      ihRight right fun y inY z inZ => ?_⟩
    · exact weaker x mem_cons_self y (mem_cons_of_mem _ below) (top y below)
    · exact weaker y (by simp [inY]) z (by simp [inZ])
    · exact weaker y (by simp [inY]) z (by simp [inZ])

theorem heapOrdered_attach (meldRight : Heap α → Heap α → Heap α) (n : Int) (l : Heap α) (x : α)
    (r t : Heap α) (keeps : (meldRight r t).toList.Perm (r.toList ++ t.toList))
    (ord : HeapOrdered R (node n l x r)) (orderedRight : HeapOrdered R (meldRight r t))
    (orderedTree : HeapOrdered R t) (above : ∀ y ∈ t.toList, R x y) :
    HeapOrdered R (attach meldRight n l x r t) := by
  obtain ⟨top, orderedLeft, orderedOld⟩ := ord
  have mem (y : α) (member : y ∈ (meldRight r t).toList) : R x y := by
    rcases mem_append.mp (keeps.mem_iff.mp member) with inRight | inTree
    · exact top y (mem_append_right _ inRight)
    · exact above y inTree
  by_cases left : l = leaf
  · subst left
    refine ⟨fun y member => ?_, orderedTree, orderedOld⟩
    rcases mem_append.mp member with inTree | inRight
    · exact above y inTree
    · exact top y (by simpa using inRight)
  · rw [attach_node _ _ _ _ _ left]
    have children (y : α) (member : y ∈ l.toList ∨ y ∈ (meldRight r t).toList) : R x y := by
      rcases member with inLeft | inRight
      · exact top y (mem_append_left _ inLeft)
      · exact mem y inRight
    split
    · exact ⟨fun y member => children y (mem_append.mp member).symm, orderedRight, orderedLeft⟩
    · exact ⟨fun y member => children y (mem_append.mp member), orderedLeft, orderedRight⟩

theorem heapOrdered_meld (before : α → α → Bool) (refl : ∀ x, R x x)
    (trans : ∀ x y z, R x y → R y z → R x z) (fst : ∀ x y, before x y = true → R x y)
    (snd : ∀ x y, before x y = false → R y x) (fuel : Nat) (t₁ t₂ : Heap α)
    (le : t₁.size + t₂.size ≤ fuel) (ord₁ : HeapOrdered R t₁)
    (ord₂ : HeapOrdered R t₂) : HeapOrdered R (meld before fuel t₁ t₂) := by
  -- each call descends one right child of the two, so their sizes bound the depth
  induction fuel generalizing t₁ t₂ with
  | zero =>
    cases t₁ with
    | leaf => simpa using ord₂
    | node => simp at le
  | succ fuel ih =>
    cases t₁ with
    | leaf => simpa using ord₂
    | node n₁ l₁ x₁ r₁ =>
      cases t₂ with
      | leaf => simpa using ord₁
      | node n₂ l₂ x₂ r₂ =>
        simp only [size_node] at le
        have le₁ : r₁.size + (node n₂ l₂ x₂ r₂).size ≤ fuel := by simp only [size_node]; omega
        have le₂ : r₂.size + (node n₁ l₁ x₁ r₁).size ≤ fuel := by simp only [size_node]; omega
        rw [meld_node]
        split
        next yes =>
          apply heapOrdered_attach _ _ _ _ _ _ (meld_perm before fuel _ _ le₁) ord₁
            (ih _ _ le₁ ord₁.2.2 ord₂) ord₂
          exact fun y mem => trans _ _ _ (fst _ _ yes) (ord₂.root_le refl rfl y mem)
        next no =>
          apply heapOrdered_attach _ _ _ _ _ _ (meld_perm before fuel _ _ le₂) ord₂
            (ih _ _ le₂ ord₂.2.2 ord₁) ord₁
          exact fun y mem => trans _ _ _ (snd _ _ (by simpa using no))
            (ord₁.root_le refl rfl y mem)

end Order

/-! ### Removing an entry -/

section Remove

variable [DecidableEq α]

def children (e : α) : Heap α → Heap α × Heap α
  | leaf => (leaf, leaf)
  | node _ l x r =>
    if x = e then (l, r) else if e ∈ l.toList then children e l else children e r

def graft (e : α) (s : Heap α) : Heap α → Heap α
  | leaf => leaf
  | node n l x r =>
    if x = e then s
    else if e ∈ l.toList then node n (graft e s l) x r else node n l x (graft e s r)

def erase (before : α → α → Bool) (e : α) (t : Heap α) : Heap α :=
  graft e (merge before (t.children e).1 (t.children e).2) t

structure Turn (α : Type) where
  npl : Int
  entry : α
  left : Bool
  other : Heap α

def Turn.fill (turn : Turn α) (t : Heap α) : Heap α :=
  if turn.left then node turn.npl t turn.entry turn.other
  else node turn.npl turn.other turn.entry t

def Turn.toList (turn : Turn α) : List α := turn.entry :: turn.other.toList

def plug : List (Turn α) → Heap α → Heap α
  | [], t => t
  | turn :: way, t => plug way (turn.fill t)

omit [DecidableEq α] in
theorem mem_right {e x : α} {n : Int} {l r : Heap α} (mem : e ∈ (node n l x r).toList)
    (here : x ≠ e) (left : e ∉ l.toList) : e ∈ r.toList := by
  simp only [toList_node, mem_cons, mem_append] at mem
  rcases mem with eq | inLeft | inRight
  · exact absurd eq.symm here
  · contradiction
  · exact inRight

variable (turn : Turn α) (t : Heap α)

omit [DecidableEq α] in
theorem Turn.fill_perm : (turn.fill t).toList.Perm (t.toList ++ turn.toList) := by
  unfold fill toList
  split
  · exact perm_middle.symm
  · exact (perm_append_comm.cons _).trans perm_middle.symm

omit [DecidableEq α] in
theorem Turn.root?_fill : (turn.fill t).root? = some turn.entry := by
  unfold fill
  split <;> rfl

variable (way : List (Turn α))

omit [DecidableEq α] in
theorem plug_perm (t : Heap α) :
    (plug way t).toList.Perm (t.toList ++ way.flatMap Turn.toList) := by
  induction way generalizing t with
  | nil => simp [plug]
  | cons turn way ih =>
    rw [plug, flatMap_cons, ← append_assoc]
    exact (ih _).trans ((turn.fill_perm t).append_right _)

omit [DecidableEq α] in
theorem plug_concat (turn : Turn α) (t : Heap α) :
    plug (way ++ [turn]) t = turn.fill (plug way t) := by
  induction way generalizing t with
  | nil => rfl
  | cons first way ih => exact ih _

omit [DecidableEq α] in
theorem root?_plug : ∃ k, (k = turn.entry ∨ k ∈ way.flatMap Turn.toList) ∧
      ∀ t, (plug (turn :: way) t).root? = some k := by
  induction way generalizing turn with
  | nil => exact ⟨turn.entry, .inl rfl, turn.root?_fill⟩
  | cons next way ih =>
    obtain ⟨k, mem, root⟩ := ih next
    refine ⟨k, .inr ?_, fun t => root (turn.fill t)⟩
    rcases mem with rfl | later
    · exact mem_append_left _ mem_cons_self
    · exact mem_append_right _ later

theorem exists_plug {e : α} {t : Heap α} (mem : e ∈ t.toList) :
    ∃ way n, t = plug way (node n (t.children e).1 e (t.children e).2) ∧
      ∀ s, graft e s t = plug way s := by
  induction t with
  | leaf => cases mem
  | node n l x r ihLeft ihRight =>
    by_cases here : x = e
    · subst here
      exact ⟨[], n, by simp [plug, children], by simp [plug, graft]⟩
    · by_cases left : e ∈ l.toList
      · obtain ⟨way, n', eq, grafted⟩ := ihLeft left
        refine ⟨way ++ [⟨n, x, true, r⟩], n', ?_, fun s => ?_⟩
        · simp only [children, here, left, if_true, if_false, plug_concat, ← eq]
          rfl
        · simp only [graft, here, left, if_true, if_false, plug_concat, grafted]
          rfl
      · obtain ⟨way, n', eq, grafted⟩ := ihRight (mem_right mem here left)
        refine ⟨way ++ [⟨n, x, false, l⟩], n', ?_, fun s => ?_⟩
        · simp only [children, here, left, if_false, plug_concat, ← eq]
          rfl
        · simp only [graft, here, left, if_false, plug_concat, grafted]
          rfl

theorem erase_perm (before : α → α → Bool) {e : α} {t : Heap α} (mem : e ∈ t.toList) :
    t.toList.Perm (e :: (erase before e t).toList) := by
  obtain ⟨way, n, whole, grafted⟩ := exists_plug mem
  have merged := merge_perm before (t.children e).1 (t.children e).2
  have left := (plug_perm way _).trans (merged.append_right _)
  rw [← grafted] at left
  have all := plug_perm way (node n (t.children e).1 e (t.children e).2)
  rw [← whole] at all
  exact all.trans (left.symm.cons e)

theorem root?_graft (e : α) (s t : Heap α) (ne : t.root? ≠ some e) :
    (graft e s t).root? = t.root? := by
  cases t with
  | leaf => rfl
  | node n l x r =>
    have notHere : x ≠ e := fun eq => ne (by rw [root?_node, eq])
    simp only [graft, notHere, if_false]
    split <;> rfl

section Order

variable {R : α → α → Prop} {way : List (Turn α)} {s t : Heap α}

omit [DecidableEq α] in
theorem HeapOrdered.of_plug (ord : HeapOrdered R (plug way t)) : HeapOrdered R t := by
  induction way generalizing t with
  | nil => exact ord
  | cons turn way ih =>
    have filled := ih ord
    unfold Turn.fill at filled
    split at filled
    · exact filled.2.1
    · exact filled.2.2

omit [DecidableEq α] in
theorem HeapOrdered.replug (ord : HeapOrdered R (plug way t)) (orderedTree : HeapOrdered R s)
    (hin : ∀ y ∈ s.toList, y ∈ t.toList) : HeapOrdered R (plug way s) := by
  induction way generalizing s t with
  | nil => exact orderedTree
  | cons turn way ih =>
    have whole : HeapOrdered R (plug way (turn.fill t)) := ord
    have filled := whole.of_plug
    refine ih whole ?_ fun y mem => ?_
    · unfold Turn.fill at filled ⊢
      split
      next left =>
        rw [if_pos left] at filled
        refine ⟨fun y below => filled.1 y ?_, orderedTree, filled.2.2⟩
        exact mem_append.mpr ((mem_append.mp below).imp_left (hin y))
      next right =>
        rw [if_neg right] at filled
        refine ⟨fun y below => filled.1 y ?_, filled.2.1, orderedTree⟩
        exact mem_append.mpr ((mem_append.mp below).imp_right (hin y))
    · rw [(turn.fill_perm _).mem_iff, mem_append] at mem ⊢
      exact mem.imp_left (hin y)

theorem heapOrdered_erase (before : α → α → Bool) (e : α) (ord : HeapOrdered R t)
    (mem : e ∈ t.toList)
    (merged : ∀ l r, HeapOrdered R l → HeapOrdered R r → HeapOrdered R (merge before l r)) :
    HeapOrdered R (erase before e t) := by
  obtain ⟨way, n, whole, grafted⟩ := exists_plug mem
  rw [erase, grafted]
  rw [whole] at ord
  obtain ⟨-, left, right⟩ := ord.of_plug
  refine ord.replug (merged _ _ left right) fun y below => ?_
  exact mem_cons_of_mem _ ((merge_perm before _ _).mem_iff.mp below)

end Order

end Remove

end Heap

end LeftistHeap
