import Mathlib.Data.List.Induction
import Engine3.Util.QuadTree

/-!
# What insertion and removal keep in a quad tree

The invariant of a subtree: its addresses are distinct and in use, a node with objects has no
nodes below, objects lie in the area of their node and point to it. An insertion adds one object
to a subtree and makes nodes at new addresses, so the subtrees beside it are not affected; the
objects that it moves down were in the subtree before.

An object is in at most one node, because it can point to one address only. So nothing has to be
said about the lists of objects of different nodes.
-/
namespace Engine3

open Exec SortedVector List Function

namespace BasicQuadTreeNode

variable {ι : Type}

def Has (a : Nat) : BasicQuadTreeNode ι → Prop
  | .null => False
  | .node address _ _ child => a = address ∨ ∃ q, Has a (child q)

/-- A node of the subtree is at the address and holds the object. -/
def Holds (a : Nat) (x : ι) : BasicQuadTreeNode ι → Prop
  | .null => False
  | .node address _ objects child => (a = address ∧ x ∈ objects) ∨ ∃ q, Holds a x (child q)

def Covers (area : Area) : BasicQuadTreeNode ι → Prop
  | .null => True
  | .node _ area' _ _ => area' = area

theorem Holds.has {a : Nat} {x : ι} {t : BasicQuadTreeNode ι} (holds : Holds a x t) : Has a t := by
  induction t with
  | null => exact holds
  | node address area objects child ih =>
    rcases holds with ⟨eq, -⟩ | ⟨q, below⟩
    · exact .inl eq
    · exact .inr ⟨q, ih q below⟩

variable (child : Quadrant → BasicQuadTreeNode ι)

theorem hasSubNodes_iff : hasSubNodes child = true ↔ ∃ q, child q ≠ .null := by
  have null (t : BasicQuadTreeNode ι) : t.isNull = true ↔ t = .null := by
    cases t <;> simp [isNull]
  simp only [hasSubNodes, any_eq_true, Bool.not_eq_true', ← Bool.not_eq_true, null]
  exact ⟨fun ⟨q, _, filled⟩ => ⟨q, filled⟩, fun ⟨q, filled⟩ => ⟨q, q.mem_all, filled⟩⟩

theorem hasSubNodes_eq_false_iff : hasSubNodes child = false ↔ ∀ q, child q = .null := by
  rw [← Bool.not_eq_true, hasSubNodes_iff]
  simp

theorem has_iff (a : Nat) (t : BasicQuadTreeNode ι) : t.has a = true ↔ Has a t := by
  induction t with
  | null => simp [has, Has]
  | node address area objects child ih =>
    simp only [has, Has, Bool.or_eq_true, beq_iff_eq, any_eq_true, ih]
    constructor
    · rintro (eq | ⟨q, -, below⟩)
      · exact .inl eq.symm
      · exact .inr ⟨q, below⟩
    · rintro (eq | ⟨q, below⟩)
      · exact .inl eq.symm
      · exact .inr ⟨q, q.mem_all, below⟩

/-! ### The invariant -/

section Invariant

variable {κ : Type} [LinearOrder κ] (rank : ι → κ) (inside : Area → ι → Prop) (minSquareSize : Int)

structure Own (e : QuadTreeEntries ι) (address : Nat) (area : Area) (objects : List ι) : Prop where
  sorted : StrictlySorted rank objects
  inside : ∀ x ∈ objects, inside area x
  pointers : ∀ x ∈ objects, e.node x = some address
  used : address < e.nextAddress

def Good (e : QuadTreeEntries ι) : BasicQuadTreeNode ι → Prop
  | .null => True
  | .node address area objects child =>
    Own rank inside e address area objects ∧ (objects = [] ∨ ∀ q, child q = .null) ∧
      ((∃ q, child q ≠ .null) → area.isSmall minSquareSize = false) ∧
      (∀ q, ¬ Has address (child q)) ∧
      (∀ q r, q ≠ r → ∀ a, Has a (child q) → ¬ Has a (child r)) ∧
      ∀ q, Covers (area.quadrant q) (child q) ∧ Good e (child q)

def Sends (position : ι → Point) (inside : Area → ι → Prop) : Prop :=
  ∀ area x, inside area x → inside (area.quadrant (area.locate (position x))) x

structure Below (e : QuadTreeEntries ι) (address : Nat) (area : Area)
    (child : Quadrant → BasicQuadTreeNode ι) : Prop where
  above : ∀ q, ¬ Has address (child q)
  apart : ∀ q r, q ≠ r → ∀ a, Has a (child q) → ¬ Has a (child r)
  covers : ∀ q, Covers (area.quadrant q) (child q)
  good : ∀ q, Good rank inside minSquareSize e (child q)

variable {rank inside minSquareSize} {e e' : QuadTreeEntries ι}

theorem good_node_iff (address : Nat) (area : Area) (objects : List ι)
    (child : Quadrant → BasicQuadTreeNode ι) :
    Good rank inside minSquareSize e (.node address area objects child) ↔
      Own rank inside e address area objects ∧ (objects = [] ∨ ∀ q, child q = .null) ∧
      ((∃ q, child q ≠ .null) → area.isSmall minSquareSize = false) ∧
      Below rank inside minSquareSize e address area child := by
  constructor
  · rintro ⟨own, leaf, large, above, apart, below⟩
    exact ⟨own, leaf, large, above, apart, fun q => (below q).1, fun q => (below q).2⟩
  · rintro ⟨own, leaf, large, above, apart, covers, good⟩
    exact ⟨own, leaf, large, above, apart, fun q => ⟨covers q, good q⟩⟩

variable {t t' : BasicQuadTreeNode ι} {a address n : Nat} {x obj : ι} {area : Area}
  {child child' : Quadrant → BasicQuadTreeNode ι} {new : ι → Prop} {e₁ : QuadTreeEntries ι}
  {q : Quadrant} {objects : List ι}

variable (good : Good rank inside minSquareSize e t)
include good

theorem Good.used (has : Has a t) :
    a < e.nextAddress := by
  induction t with
  | null => exact has.elim
  | node address area objects child ih =>
    obtain ⟨own, -, -, below⟩ := (good_node_iff ..).mp good
    rcases has with rfl | ⟨q, has⟩
    · exact own.used
    · exact ih q (below.good q) has

theorem Good.pointers (holds : Holds a x t) :
    e.node x = some a := by
  induction t with
  | null => exact holds.elim
  | node address area objects child ih =>
    obtain ⟨own, -, -, below⟩ := (good_node_iff ..).mp good
    rcases holds with ⟨rfl, mem⟩ | ⟨q, holds⟩
    · exact own.pointers x mem
    · exact ih q (below.good q) holds

theorem Good.contained (wider : ∀ area q x, inside (area.quadrant q) x → inside area x)
    (covers : Covers area t) (holds : Holds a x t) : inside area x := by
  induction t generalizing area with
  | null => exact holds.elim
  | node address area' objects child ih =>
    cases (show area' = area from covers)
    obtain ⟨own, -, -, below⟩ := (good_node_iff ..).mp good
    rcases holds with ⟨-, mem⟩ | ⟨q, holds⟩
    · exact own.inside x mem
    · exact wider _ q x (ih q (below.good q) (below.covers q) holds)

theorem Good.frame (next : e.nextAddress ≤ e'.nextAddress)
    (eq : ∀ a x, Holds a x t → e'.node x = e.node x) :
    Good rank inside minSquareSize e' t := by
  induction t with
  | null => trivial
  | node address area objects child ih =>
    obtain ⟨own, leaf, large, below⟩ := (good_node_iff ..).mp good
    apply (good_node_iff ..).mpr
    refine ⟨⟨own.sorted, own.inside, ?_, own.used.trans_le next⟩, leaf, large,
      ⟨below.above, below.apart, below.covers, ?_⟩⟩
    · intro x mem
      rw [eq address x (.inl ⟨rfl, mem⟩), own.pointers x mem]
    · intro q
      exact ih q (below.good q) fun a x holds => eq a x (.inr ⟨q, holds⟩)

theorem Good.moved {inside' : Area → ι → Prop}
    (eq : ∀ a x, Holds a x t → ∀ area, inside area x → inside' area x) :
    Good rank inside' minSquareSize e t := by
  induction t with
  | null => trivial
  | node address area objects child ih =>
    obtain ⟨own, leaf, large, below⟩ := (good_node_iff ..).mp good
    apply (good_node_iff ..).mpr
    refine ⟨⟨own.sorted, ?_, own.pointers, own.used⟩, leaf, large,
      ⟨below.above, below.apart, below.covers, ?_⟩⟩
    · intro x mem
      exact eq address x (.inl ⟨rfl, mem⟩) area (own.inside x mem)
    · intro q
      exact ih q (below.good q) fun a x holds => eq a x (.inr ⟨q, holds⟩)

omit good

/-! ### Insertion -/

structure Inserted (rank : ι → κ) (inside : Area → ι → Prop) (minSquareSize : Int)
    (e e' : QuadTreeEntries ι) (t t' : BasicQuadTreeNode ι) (obj : ι) : Prop where
  good : Good rank inside minSquareSize e' t'
  some : t' ≠ .null
  covers : ∀ area, Covers area t → Covers area t'
  fresh : ∀ a, Has a t' → Has a t ∨ e.nextAddress ≤ a
  next : e.nextAddress ≤ e'.nextAddress
  objects : ∀ x, (∃ a, Holds a x t') ↔ (∃ a, Holds a x t) ∨ x = obj
  frame : ∀ x, (∀ a, ¬ Holds a x t) → x ≠ obj → e'.node x = e.node x
  bounding : ∀ x, e'.bounding x = false

structure Descended (rank : ι → κ) (inside : Area → ι → Prop) (minSquareSize : Int)
    (e e' : QuadTreeEntries ι) (address : Nat) (area : Area)
    (child child' : Quadrant → BasicQuadTreeNode ι) (new : ι → Prop) : Prop where
  below : Below rank inside minSquareSize e' address area child'
  fresh : ∀ a q, Has a (child' q) → (∃ q, Has a (child q)) ∨ e.nextAddress ≤ a
  next : e.nextAddress ≤ e'.nextAddress
  objects : ∀ x, (∃ q a, Holds a x (child' q)) ↔ (∃ q a, Holds a x (child q)) ∨ new x
  frame : ∀ x, (∀ q a, ¬ Holds a x (child q)) → ¬ new x → e'.node x = e.node x
  bounding : ∀ x, e'.bounding x = false

theorem Descended.trans {e₂ e₃ : QuadTreeEntries ι} {c₁ c₂ c₃ : Quadrant → BasicQuadTreeNode ι}
    {new' : ι → Prop} (fst : Descended rank inside minSquareSize e₁ e₂ address area c₁ c₂ new)
    (snd : Descended rank inside minSquareSize e₂ e₃ address area c₂ c₃ new') :
    Descended rank inside minSquareSize e₁ e₃ address area c₁ c₃ fun x => new x ∨ new' x where
  below := snd.below
  fresh a q has := by
    rcases snd.fresh a q has with ⟨r, has'⟩ | later
    · exact fst.fresh a r has'
    · exact .inr (fst.next.trans later)
  next := fst.next.trans snd.next
  objects x := by
    rw [snd.objects x, fst.objects x, or_assoc]
  frame x out notNew := by
    rw [not_or] at notNew
    rw [snd.frame x _ notNew.2, fst.frame x out notNew.1]
    intro q a holds
    rcases (fst.objects x).mp ⟨q, a, holds⟩ with ⟨q', a', old⟩ | isNew
    · exact out q' a' old
    · exact notNew.1 isNew
  bounding := snd.bounding

def Inserts (rank : ι → κ) (inside : Area → ι → Prop) (minSquareSize : Int) (n : Nat)
    (insertInto : BasicQuadTreeNode ι → ι → NodeM ι (BasicQuadTreeNode ι)) : Prop :=
  ∀ (e : QuadTreeEntries ι) (t : BasicQuadTreeNode ι) (area : Area) (obj : ι),
    Good rank inside minSquareSize e t → t ≠ .null → Covers area t → area.Fits minSquareSize n →
    inside area obj → e.node obj = none → (∀ x, e.bounding x = false) →
    ∃ t' e', insertInto t obj e = .ok t' e' ∧
      Inserted rank inside minSquareSize e e' t t' obj

theorem Below.replace (below : Below rank inside minSquareSize e address area child)
    (used : address < e.nextAddress) (q : Quadrant) (good : Good rank inside minSquareSize e' t')
    (covers : Covers (area.quadrant q) t')
    (fresh : ∀ a, Has a t' → Has a (child q) ∨ e.nextAddress ≤ a)
    (next : e.nextAddress ≤ e'.nextAddress)
    (kept : ∀ r, r ≠ q → ∀ a x, Holds a x (child r) → e'.node x = e.node x) :
    Below rank inside minSquareSize e' address area (update child q t') := by
  have here : update child q t' q = t' := update_self ..
  have elsewhere (r : Quadrant) (ne : r ≠ q) : update child q t' r = child r :=
    update_of_ne ne ..
  -- the addresses of the new subtree are its old ones or were in use nowhere
  have newApart (r : Quadrant) (ne : r ≠ q) (a : Nat) (has : Has a t') : ¬ Has a (child r) := by
    intro also
    rcases fresh a has with old | new
    · exact below.apart q r ne.symm a old also
    · have := (below.good r).used also
      omega
  constructor
  · apply (forall_update_iff child fun _ t => ¬ Has address t).mpr
    refine ⟨fun has => ?_, fun r _ => below.above r⟩
    rcases fresh address has with old | new
    · exact below.above q old
    · omega
  · intro r r' different a has
    by_cases eq : r = q
    · have ne : r' ≠ q := fun equal => different (eq.trans equal.symm)
      rw [eq, here] at has
      rw [elsewhere r' ne]
      exact newApart r' ne a has
    · rw [elsewhere r eq] at has
      by_cases eq' : r' = q
      · rw [eq', here]
        exact fun also => newApart r eq a also has
      · rw [elsewhere r' eq']
        exact below.apart r r' different a has
  · apply (forall_update_iff child fun r t => Covers (area.quadrant r) t).mpr
    exact ⟨covers, fun r _ => below.covers r⟩
  · apply (forall_update_iff child fun _ t => Good rank inside minSquareSize e' t).mpr
    exact ⟨good, fun r ne => (below.good r).frame next (kept r ne)⟩

theorem Inserted.descended (inserted : Inserted rank inside minSquareSize e e' (child q) t' obj)
    (below : Below rank inside minSquareSize e address area child)
    (used : address < e.nextAddress) (absent : e.node obj = none) :
    Descended rank inside minSquareSize e e' address area child (update child q t')
      (· = obj) := by
  constructor
  · apply below.replace used q inserted.good (inserted.covers _ (below.covers q)) inserted.fresh
      inserted.next
    -- an object below another square points elsewhere
    intro r ne a x holds
    have ptr := (below.good r).pointers holds
    apply inserted.frame x
    · intro b also
      have eq : a = b := Option.some.inj (ptr.symm.trans ((below.good q).pointers also))
      exact below.apart r q ne a holds.has (eq ▸ also.has)
    · rintro rfl
      rw [absent] at ptr
      cases ptr
  · intro a
    apply (forall_update_iff child fun _ t =>
      Has a t → (∃ q, Has a (child q)) ∨ e.nextAddress ≤ a).mpr
    exact ⟨fun has => (inserted.fresh a has).imp (fun old => ⟨q, old⟩) id,
      fun r _ has => .inl ⟨r, has⟩⟩
  · exact inserted.next
  · intro x
    rw [exists_update_iff child fun _ t => ∃ a, Holds a x t, inserted.objects x]
    constructor
    · rintro ((old | new) | ⟨r, -, old⟩)
      · exact .inl ⟨q, old⟩
      · exact .inr new
      · exact .inl ⟨r, old⟩
    · rintro (⟨r, old⟩ | new)
      · by_cases eq : r = q
        · exact .inl (.inl (eq ▸ old))
        · exact .inr ⟨r, eq, old⟩
      · exact .inl (.inr new)
  · intro x out ne
    exact inserted.frame x (out q) ne
  · exact inserted.bounding

theorem good_newNode (area : Area) :
    Good rank inside minSquareSize { e with nextAddress := e.nextAddress + 1 }
      (.node e.nextAddress area [] fun _ => .null) := by
  apply (good_node_iff ..).mpr
  refine ⟨⟨Pairwise.nil, by simp, by simp, Nat.lt_succ_self _⟩, .inl rfl, by simp, ?_⟩
  exact ⟨by simp [Has], by simp [Has], fun _ => trivial, fun _ => trivial⟩

theorem Below.newNode (below : Below rank inside minSquareSize e address area child)
    (used : address < e.nextAddress) (unbounded : ∀ x, e.bounding x = false)
    (free : child q = .null) :
    Descended rank inside minSquareSize e { e with nextAddress := e.nextAddress + 1 } address area
      child (update child q (.node e.nextAddress (area.quadrant q) [] fun _ => .null))
      fun _ => False := by
  -- the new node has the next address and no child
  have only (a : Nat)
      (has : Has a (.node e.nextAddress (area.quadrant q) ([] : List ι) fun _ => .null)) :
      e.nextAddress ≤ a := by
    obtain rfl : a = e.nextAddress := by simpa [Has] using has
    exact Nat.le_refl _
  constructor
  · exact below.replace used q (good_newNode _) rfl (fun a has => .inr (only a has)) (Nat.le_succ _)
      fun _ _ _ _ _ => rfl
  · intro a
    apply (forall_update_iff child fun _ t =>
      Has a t → (∃ q, Has a (child q)) ∨ e.nextAddress ≤ a).mpr
    exact ⟨fun has => .inr (only a has), fun r _ has => .inl ⟨r, has⟩⟩
  · exact Nat.le_succ _
  · intro x
    rw [exists_update_iff child fun _ t => ∃ a, Holds a x t, or_false]
    constructor
    · rintro (⟨a, holds⟩ | ⟨r, -, old⟩)
      · simp [Holds] at holds
      · exact ⟨r, old⟩
    · rintro ⟨r, a, holds⟩
      refine .inr ⟨r, ?_, a, holds⟩
      rintro rfl
      rw [free] at holds
      exact holds
  · exact fun _ _ _ => rfl
  · exact unbounded

variable {position : ι → Point}
  {into : BasicQuadTreeNode ι → ι → NodeM ι (BasicQuadTreeNode ι)}

theorem descend_spec (inserts : Inserts rank inside minSquareSize n into)
    (objects : List ι) (below : Below rank inside minSquareSize e address area child)
    (used : address < e.nextAddress) (fits : area.Fits minSquareSize (n + 1))
    (sends : Sends position inside) (here : inside area obj) (absent : e.node obj = none)
    (unbounded : ∀ x, e.bounding x = false) :
    ∃ child' e', descend position into obj (.node address area objects child) e =
        .ok (.node address area objects child') e' ∧
      Descended rank inside minSquareSize e e' address area child child' (· = obj) := by
  have inSquare := sends area obj here
  generalize located : area.locate (position obj) = q at inSquare
  have fitsSquare := fits.quadrant q
  cases sub : child q with
  | node a area' objects' child'' =>
    have filled : child q ≠ .null := by simp [sub]
    obtain ⟨t', e', ran, inserted⟩ := inserts e (child q) (area.quadrant q) obj
      (below.good q) filled
      (below.covers q) fitsSquare inSquare absent unbounded
    refine ⟨update child q t', e', ?_, inserted.descended below used absent⟩
    have taken : (child q).isNull = false := by simp [sub, isNull]
    simp only [descend, located, taken]
    refine (bind_of_ok rfl).trans ?_
    exact (bind_of_ok ran).trans rfl
  | null =>
    -- the node is made first, and is one of the nodes below when the object comes
    have made := below.newNode used unbounded sub
    generalize after : ({ e with nextAddress := e.nextAddress + 1 } : QuadTreeEntries ι) =
      e₁ at made
    have fresh : Good rank inside minSquareSize e₁
        (.node e.nextAddress (area.quadrant q) [] fun _ => .null) := after ▸ good_newNode _
    have absent₁ : e₁.node obj = none := by rw [← after]; exact absent
    obtain ⟨t', e', ran, inserted⟩ := inserts e₁ _ (area.quadrant q) obj fresh (by simp) rfl
      fitsSquare inSquare absent₁ made.bounding
    generalize new : (.node e.nextAddress (area.quadrant q) [] fun _ => .null :
      BasicQuadTreeNode ι) = t at *
    have descended : Descended rank inside minSquareSize e₁ e' address area
        (update child q t) (update (update child q t) q t') (· = obj) :=
      Inserted.descended (by rw [update_self]; exact inserted) made.below
        (used.trans_le made.next) absent₁
    rw [update_idem] at descended
    refine ⟨update child q t', e', ?_, by
      simpa only [false_or] using made.trans descended⟩
    have free : (child q).isNull = true := by simp [sub, isNull]
    simp only [descend, located, free]
    refine (bind_of_ok ?_).trans ((bind_of_ok ran).trans rfl)
    simp only [newNode, new, after]

variable [DecidableEq ι] {compareTo : ι → ι → Int}

theorem addObject_spec (order : OrderedBy compareTo rank) (inj : Injective rank)
    (good : Good rank inside minSquareSize e (.node address area objects child))
    (leaf : ∀ q, child q = .null) (here : inside area obj)
    (absent : e.node obj = none) (unbounded : ∀ x, e.bounding x = false) :
    ∃ t' e', addObject compareTo obj (.node address area objects child) e = .ok t' e' ∧
      Inserted rank inside minSquareSize e e' (.node address area objects child) t' obj := by
  obtain ⟨own, -, -, below⟩ := (good_node_iff ..).mp good
  -- an object in the list points to this node
  have new : obj ∉ objects := by
    intro mem
    have ptr := own.pointers obj mem
    rw [absent] at ptr
    cases ptr
  obtain ⟨sorted, members⟩ := put_noDuplicate_absent order obj own.sorted
    fun x mem eq => new (inj eq ▸ mem)
  generalize vector : (put compareTo .noDuplicate obj objects).1 = objects' at *
  have noneBelow (a : Nat) (x : ι) (q : Quadrant) : ¬ Holds a x (child q) := by
    rw [leaf q]
    exact id
  have pointers (x : ι) (ne : x ≠ obj) : (setNode obj (some address) e).node x = e.node x :=
    update_of_ne ne ..
  refine ⟨.node address area objects' child, setNode obj (some address) e, ?_, ?_⟩
  · simp only [addObject, vector]
    refine get_bind.trans ?_
    rw [if_neg (by simp [absent])]
    rfl
  constructor
  · apply (good_node_iff ..).mpr
    refine ⟨⟨sorted, ?_, ?_, own.used⟩, .inr leaf, ?_, ⟨below.above, below.apart, below.covers, ?_⟩⟩
    · intro x mem
      rcases (members x).mp mem with rfl | old
      · exact here
      · exact own.inside x old
    · intro x mem
      rcases (members x).mp mem with rfl | old
      · exact update_self ..
      · rw [pointers x (ne_of_mem_of_not_mem old new), own.pointers x old]
    · rintro ⟨q, filled⟩
      exact absurd (leaf q) filled
    · intro q
      rw [leaf q]
      trivial
  · simp
  · exact fun _ covers => covers
  · exact fun a has => .inl has
  · exact Nat.le_refl _
  · intro x
    simp only [Holds, noneBelow, exists_false, or_false, exists_eq_left, members x]
    exact or_comm
  · exact fun x _ ne => pointers x ne
  · exact unbounded

omit [DecidableEq ι] in
theorem Own.not_below (own : Own rank inside e address area objects)
    (below : Below rank inside minSquareSize e address area child) (mem : x ∈ objects)
    (q : Quadrant) (a : Nat) : ¬ Holds a x (child q) := by
  intro holds
  have eq : a = address :=
    Option.some.inj (((below.good q).pointers holds).symm.trans (own.pointers x mem))
  exact below.above q (eq ▸ holds.has)

theorem Below.released (below : Below rank inside minSquareSize e address area child)
    (out : ∀ q a, ¬ Holds a obj (child q)) :
    Below rank inside minSquareSize (setNode obj none e) address area child := by
  refine ⟨below.above, below.apart, below.covers, fun q => ?_⟩
  refine (below.good q).frame (Nat.le_refl _) fun a x holds => update_of_ne ?_ ..
  rintro rfl
  exact out q a holds

theorem split_concat (objects : List ι) (existing : ι) (child : Quadrant → BasicQuadTreeNode ι)
    (free : e.bounding existing = false) :
    split position into (objects ++ [existing]).length
        (.node address area (objects ++ [existing]) child) e =
      (descend position into existing (.node address area objects child) >>=
        split position into objects.length) (setNode existing none e) := by
  rw [length_append, length_singleton]
  simp only [split, getElem?_concat_length]
  refine get_bind.trans ?_
  rw [if_neg (by simp [free])]
  refine (bind_of_ok rfl).trans ?_
  have erased : (objects ++ [existing]).eraseIdx objects.length = objects := by
    rw [eraseIdx_append_of_length_le (Nat.le_refl _)]
    simp
  rw [erased]

theorem split_spec (inserts : Inserts rank inside minSquareSize n into)
    (fits : area.Fits minSquareSize (n + 1))
    (sends : Sends position inside) (objects : List ι)
    (child : Quadrant → BasicQuadTreeNode ι) (e : QuadTreeEntries ι)
    (own : Own rank inside e address area objects)
    (below : Below rank inside minSquareSize e address area child)
    (unbounded : ∀ x, e.bounding x = false) :
    ∃ child' e', split position into objects.length (.node address area objects child) e =
        .ok (.node address area [] child') e' ∧
      Descended rank inside minSquareSize e e' address area child child' (· ∈ objects) := by
  -- the loop counts down, so the last object of the list goes first
  induction objects using reverseRecOn generalizing child e with
  | nil =>
    exact ⟨child, e, rfl, below, fun a q has => .inl ⟨q, has⟩, Nat.le_refl _, by simp,
      fun _ _ _ => rfl, unbounded⟩
  | append_singleton objects existing ih =>
    obtain ⟨sorted, -, across⟩ := pairwise_append.mp own.sorted
    have last : existing ∈ objects ++ [existing] := mem_append_right _ (mem_singleton_self _)
    have others (x : ι) (mem : x ∈ objects) : x ≠ existing := by
      rintro rfl
      exact lt_irrefl _ (across x mem x (mem_singleton_self _))
    have below₁ := below.released (own.not_below below last)
    have ptr (x : ι) (ne : x ≠ existing) :
        (setNode existing none e).node x = e.node x := update_of_ne ne ..
    obtain ⟨child₂, e₂, moved, descended⟩ := descend_spec inserts objects below₁ own.used fits sends
      (own.inside existing last) (update_self ..) unbounded
    -- the objects that are still in the node have kept their pointers
    have own₂ : Own rank inside e₂ address area objects := by
      refine ⟨sorted, fun x mem => own.inside x (mem_append_left _ mem), ?_,
        lt_of_lt_of_le own.used descended.next⟩
      intro x mem
      have old : x ∈ objects ++ [existing] := mem_append_left _ mem
      rw [descended.frame x (own.not_below below old) (others x mem),
        ptr x (others x mem), own.pointers x old]
    obtain ⟨child₃, e₃, ran, rest⟩ := ih child₂ e₂ own₂ descended.below descended.bounding
    have whole := descended.trans rest
    refine ⟨child₃, e₃, ?_, whole.below, whole.fresh, whole.next, ?_, ?_, whole.bounding⟩
    · rw [split_concat objects existing child (unbounded existing)]
      exact (bind_of_ok moved).trans ran
    · intro x
      rw [whole.objects x, mem_append, mem_singleton, or_comm (a := x = existing)]
    · intro x out notNew
      rw [mem_append, mem_singleton, not_or] at notNew
      rw [whole.frame x out (by tauto), ptr x notNew.2]

theorem place_spec (order : OrderedBy compareTo rank) (inj : Injective rank)
    (good : Good rank inside minSquareSize e (.node address area objects child))
    (fits : area.Fits minSquareSize n) (sends : Sends position inside)
    (deeper : (∃ q, child q ≠ .null) →
      ∃ m, n = m + 1 ∧ Inserts rank inside minSquareSize m into)
    (here : inside area obj) (absent : e.node obj = none)
    (unbounded : ∀ x, e.bounding x = false) :
    ∃ t' e', place compareTo position into obj (.node address area objects child) e =
        .ok t' e' ∧
      Inserted rank inside minSquareSize e e' (.node address area objects child) t' obj := by
  obtain ⟨own, leaf, large, below⟩ := (good_node_iff ..).mp good
  simp only [place, Area.not_isInArea, Bool.false_eq_true, if_false]
  by_cases divided : hasSubNodes child = true
  · have filled := (hasSubNodes_iff child).mp divided
    obtain ⟨m, rfl, inserts⟩ := deeper filled
    -- a node with children holds no objects itself
    obtain rfl : objects = [] := by
      rcases leaf with empty | null
      · exact empty
      · obtain ⟨q, some⟩ := filled
        exact absurd (null q) some
    obtain ⟨child', e', ran, descended⟩ := descend_spec inserts [] below own.used fits
      sends here absent unbounded
    refine ⟨.node address area [] child', e', by rw [if_pos divided]; exact ran, ?_, by simp,
      fun _ covers => covers, ?_, descended.next, ?_, ?_, descended.bounding⟩
    · apply (good_node_iff ..).mpr
      exact ⟨⟨Pairwise.nil, by simp, by simp, own.used.trans_le descended.next⟩, .inl rfl,
        fun _ => large filled, descended.below⟩
    · rintro a (rfl | ⟨q, has⟩)
      · exact .inl (.inl rfl)
      · exact (descended.fresh a q has).imp .inr id
    · intro x
      have objects := descended.objects x
      simp only [Holds, not_mem_nil, and_false, false_or]
      rw [exists_comm, objects, exists_comm]
    · intro x out ne
      exact descended.frame x (fun q a holds => out a (.inr ⟨q, holds⟩)) ne
  · obtain ⟨t', e', ran, inserted⟩ := addObject_spec order inj good
      ((hasSubNodes_eq_false_iff child).mp (by simpa using divided)) here absent unbounded
    exact ⟨t', e', by rw [if_neg divided]; exact ran, inserted⟩

omit [DecidableEq ι] in
theorem Inserted.after_split {child₁ : Quadrant → BasicQuadTreeNode ι}
    (inserted : Inserted rank inside minSquareSize e₁ e' (.node address area [] child₁) t' obj)
    (moved : Descended rank inside minSquareSize e e₁ address area child child₁ (· ∈ objects))
    (null : ∀ q, child q = .null) :
    Inserted rank inside minSquareSize e e' (.node address area objects child) t' obj := by
  have noneBelow (a : Nat) (x : ι) (q : Quadrant) : ¬ Holds a x (child q) := by
    rw [null q]
    exact id
  -- the objects of the divided node are those it had
  have eq (x : ι) : (∃ a, Holds a x (.node address area [] child₁)) ↔
      ∃ a, Holds a x (.node address area objects child) := by
    have objects := moved.objects x
    simp only [noneBelow, exists_false, false_or] at objects
    simp only [Holds, not_mem_nil, and_false, false_or, noneBelow, exists_false, or_false,
      exists_eq_left]
    rw [exists_comm, objects]
  refine ⟨inserted.good, inserted.some, inserted.covers, ?_, moved.next.trans inserted.next, ?_, ?_,
    inserted.bounding⟩
  · intro a has
    rcases inserted.fresh a has with (rfl | ⟨q, old⟩) | new
    · exact .inl (.inl rfl)
    · rcases moved.fresh a q old with ⟨r, older⟩ | new
      · rw [null r] at older
        exact older.elim
      · exact .inr new
    · exact .inr (moved.next.trans new)
  · intro x
    rw [inserted.objects x, eq x]
  · intro x out ne
    have out₁ : ∀ a, ¬ Holds a x (.node address area [] child₁) := by
      rw [← not_exists, eq x, not_exists]
      exact out
    rw [inserted.frame x out₁ ne, moved.frame x (fun q a => noneBelow a x q)]
    exact fun mem => out address (.inl ⟨rfl, mem⟩)

theorem insertInto_step (order : OrderedBy compareTo rank) (inj : Injective rank)
    (sends : Sends position inside) (n fuel : Nat)
    (deeper : ∀ area : Area, area.isSmall minSquareSize = false → area.Fits minSquareSize n →
      ∃ m, n = m + 1 ∧
        Inserts rank inside minSquareSize m (insertInto compareTo position minSquareSize fuel)) :
    Inserts rank inside minSquareSize n
      (insertInto compareTo position minSquareSize (fuel + 1)) := by
  intro e t area obj good filled covers fits here absent unbounded
  cases t with
  | null => exact absurd rfl filled
  | node address area' objects child =>
    cases (show area' = area from covers)
    obtain ⟨own, leaf, large, below⟩ := (good_node_iff ..).mp good
    have cleared : setBounding obj false e = e := by
      simp only [setBounding, ← unbounded obj, update_eq_self]
    have start (rest : NodeM ι (BasicQuadTreeNode ι)) :
        (do modify (setBounding obj false); rest) e = rest e :=
      bind_of_ok (congrArg (EStateM.Result.ok ()) cleared)
    simp only [insertInto, start]
    by_cases occupied : (!objects.isEmpty && !hasSubNodes child) = true
    · rw [if_pos occupied]
      simp only [Bool.and_eq_true, Bool.not_eq_true', isEmpty_eq_false_iff,
        hasSubNodes_eq_false_iff] at occupied
      obtain ⟨some, null⟩ := occupied
      by_cases lt : area.isSmall minSquareSize = true
      · -- the square is too small to be divided, and holds several objects
        rw [if_pos lt]
        exact addObject_spec order inj good null here absent unbounded
      · -- the objects go down, then the new one
        rw [if_neg lt]
        obtain ⟨m, rfl, inserts⟩ := deeper area (by simpa using lt) fits
        obtain ⟨child₁, e₁, ran₁, moved⟩ := split_spec inserts fits sends objects child e own below
          unbounded
        have good₁ : Good rank inside minSquareSize e₁ (.node address area [] child₁) := by
          apply (good_node_iff ..).mpr
          exact ⟨⟨Pairwise.nil, by simp, by simp, own.used.trans_le moved.next⟩, .inl rfl,
            fun _ => by simpa using lt, moved.below⟩
        have absent₁ : e₁.node obj = none := by
          rw [moved.frame obj (fun q a => by rw [null q]; exact id), absent]
          intro mem
          rw [own.pointers obj mem] at absent
          cases absent
        obtain ⟨t', e', ran, inserted⟩ := place_spec order inj good₁ fits sends
          (fun _ => ⟨m, rfl, inserts⟩) here absent₁ moved.bounding
        exact ⟨t', e', (bind_of_ok ran₁).trans ran, inserted.after_split moved null⟩
    · rw [if_neg occupied]
      exact place_spec order inj good fits sends (fun some => deeper area (large some) fits)
        here absent unbounded

theorem insertInto_spec (order : OrderedBy compareTo rank) (inj : Injective rank)
    (sends : Sends position inside) (n : Nat) : Inserts rank inside minSquareSize n
      (insertInto compareTo position minSquareSize (n + 1)) := by
  induction n with
  | zero =>
    apply insertInto_step order inj sends 0 0
    intro area large fits
    rw [fits.isSmall] at large
    cases large
  | succ n ih => exact insertInto_step order inj sends (n + 1) (n + 1) fun _ _ _ => ⟨n, rfl, ih⟩

/-! ### Removal -/

omit [DecidableEq ι] in
theorem alter_of_not_has (f : BasicQuadTreeNode ι → BasicQuadTreeNode ι) (missing : ¬ Has a t) :
    t.alter a f = t := by
  induction t with
  | null => rfl
  | node address area objects child ih =>
    simp only [Has, not_or, not_exists] at missing
    simp only [alter, if_neg (Ne.symm missing.1)]
    congr
    funext q
    exact ih q (missing.2 q)

structure Removed (rank : ι → κ) (inside : Area → ι → Prop) (minSquareSize : Int)
    (e e' : QuadTreeEntries ι) (t t' : BasicQuadTreeNode ι) (obj : ι) : Prop where
  good : Good rank inside minSquareSize e' t'
  covers : ∀ area, Covers area t → Covers area t'
  has : ∀ a, Has a t' → Has a t
  holds : ∀ a x, Holds a x t' ↔ Holds a x t ∧ x ≠ obj
  null : t = .null → t' = .null

theorem dropObject_spec (order : OrderedBy compareTo rank) (inj : Injective rank)
    (isRoot : Bool) (good : Good rank inside minSquareSize e (.node address area objects child))
    (mem : obj ∈ objects) :
    Removed rank inside minSquareSize e (setNode obj none e) (.node address area objects child)
      (dropObject compareTo obj isRoot (.node address area objects child)) obj := by
  obtain ⟨own, leaf, large, below⟩ := (good_node_iff ..).mp good
  have members := mem_drop_iff (o := obj) order inj own.sorted
  have sorted : StrictlySorted rank (drop compareTo obj objects).2 :=
    own.sorted.sublist (drop_sublist obj objects)
  have null : ∀ q, child q = .null := by
    rcases leaf with empty | null
    · rw [empty] at mem
      cases mem
    · exact null
  simp only [dropObject]
  generalize (drop compareTo obj objects).2 = objects' at *
  have noneBelow (a : Nat) (x : ι) (q : Quadrant) : ¬ Holds a x (child q) := by
    rw [null q]
    exact id
  split
  next useless =>
    -- the object was the only one
    have empty : objects' = [] := by
      simp only [Bool.and_eq_true, List.isEmpty_iff] at useless
      exact useless.1.1
    refine ⟨trivial, fun _ _ => trivial, fun _ has => has.elim, fun a x => ?_, fun _ => rfl⟩
    have nobody := members x
    rw [empty] at nobody
    simp only [not_mem_nil, false_iff] at nobody
    simp only [Holds, noneBelow, exists_false, or_false, false_iff, and_assoc, not_and]
    intro _ mem ne
    exact nobody ⟨mem, ne⟩
  next =>
    refine ⟨?_, fun _ covers => covers, fun _ has => has, fun a x => ?_, by simp⟩
    · apply (good_node_iff ..).mpr
      refine ⟨⟨sorted, ?_, ?_, own.used⟩, .inr null, large,
        ⟨below.above, below.apart, below.covers, fun q => by rw [null q]; trivial⟩⟩
      · intro x left
        exact own.inside x ((members x).mp left).1
      · intro x left
        obtain ⟨old, ne⟩ := (members x).mp left
        exact (update_of_ne ne ..).trans (own.pointers x old)
    · simp only [Holds, noneBelow, exists_false, or_false, members x, and_assoc]

theorem Good.removed (good : Good rank inside minSquareSize e t)
    (missing : ∀ a, ¬ Holds a obj t) :
    Removed rank inside minSquareSize e (setNode obj none e) t t obj := by
  have ne (a : Nat) (x : ι) (holds : Holds a x t) : x ≠ obj := by
    rintro rfl
    exact missing a holds
  refine ⟨good.frame (Nat.le_refl _) fun a x holds => ?_, fun _ covers => covers, fun _ has => has,
    fun a x => ⟨fun holds => ⟨holds, ne a x holds⟩, And.left⟩, id⟩
  exact update_of_ne (ne a x holds) ..

theorem Removed.node (good : Good rank inside minSquareSize e (.node address area objects child))
    (notOwn : obj ∉ objects)
    (all : ∀ q, Removed rank inside minSquareSize e (setNode obj none e) (child q) (child' q) obj) :
    Removed rank inside minSquareSize e (setNode obj none e) (.node address area objects child)
      (.node address area objects child') obj := by
  obtain ⟨own, leaf, large, below⟩ := (good_node_iff ..).mp good
  have others (x : ι) (mem : x ∈ objects) : x ≠ obj := ne_of_mem_of_not_mem mem notOwn
  constructor
  · apply (good_node_iff ..).mpr
    refine ⟨⟨own.sorted, own.inside, ?_, own.used⟩, ?_, ?_, ?_⟩
    · intro x mem
      exact (update_of_ne (others x mem) ..).trans (own.pointers x mem)
    · exact leaf.imp id fun null q => (all q).null (null q)
    · rintro ⟨q, filled⟩
      exact large ⟨q, mt (all q).null filled⟩
    · refine ⟨fun q has => below.above q ((all q).has _ has), ?_,
        fun q => (all q).covers _ (below.covers q), fun q => (all q).good⟩
      intro q r ne a has also
      exact below.apart q r ne a ((all q).has a has) ((all r).has a also)
  · exact fun _ covers => covers
  · exact fun a has => has.imp id fun ⟨q, has⟩ => ⟨q, (all q).has a has⟩
  · intro a x
    simp only [Holds, (all _).holds]
    constructor
    · rintro (⟨rfl, mem⟩ | ⟨q, holds, ne⟩)
      · exact ⟨.inl ⟨rfl, mem⟩, others x mem⟩
      · exact ⟨.inr ⟨q, holds⟩, ne⟩
    · rintro ⟨⟨rfl, mem⟩ | ⟨q, holds⟩, ne⟩
      · exact .inl ⟨rfl, mem⟩
      · exact .inr ⟨q, holds, ne⟩
  · simp

theorem alter_spec (order : OrderedBy compareTo rank) (injective : Injective rank)
    (isRoot : Bool) (good : Good rank inside minSquareSize e t) (holds : Holds a obj t) :
    Removed rank inside minSquareSize e (setNode obj none e) t
      (t.alter a (dropObject compareTo obj isRoot)) obj := by
  induction t with
  | null => exact holds.elim
  | node address area objects child ih =>
    obtain ⟨own, leaf, large, below⟩ := (good_node_iff ..).mp good
    rcases holds with ⟨rfl, mem⟩ | ⟨q, holds⟩
    · simp only [alter, if_pos]
      exact dropObject_spec order injective isRoot good mem
    · have ne : address ≠ a := by
        rintro rfl
        exact below.above q holds.has
      simp only [alter, if_neg ne]
      apply Removed.node good
      · exact fun mem => own.not_below below mem q a holds
      · intro r
        by_cases eq : r = q
        · rw [eq]
          exact ih q (below.good q) holds
        · -- the other subtrees know neither the address nor the object
          have ptr := (below.good q).pointers holds
          have apart := below.apart q r (Ne.symm eq) a holds.has
          rw [alter_of_not_has _ apart]
          apply (below.good r).removed
          intro b also
          have equal : a = b := Option.some.inj (ptr.symm.trans ((below.good r).pointers also))
          exact apart (equal ▸ also.has)

theorem remove_spec (order : OrderedBy compareTo rank) (inj : Injective rank)
    {root : BasicQuadTreeNode ι} (good : Good rank inside minSquareSize e root)
    (holds : Holds a obj root) :
    ∃ t', remove compareTo obj root e = .ok t' (setNode obj none e) ∧ t' ≠ .null ∧
      Removed rank inside minSquareSize e (setNode obj none e) root t' obj := by
  refine ⟨_, ?_, ?_, alter_spec order inj (root.isAt a) good holds⟩
  · have known : root.has a = true := (has_iff a root).mpr holds.has
    refine get_bind.trans ?_
    simp only [good.pointers holds, known]
    rfl
  · cases root with
    | null => exact holds.elim
    | node address area objects child =>
      simp only [alter, isAt]
      split
      next same => simp [dropObject, same]
      next => simp

end Invariant

end BasicQuadTreeNode

end Engine3
