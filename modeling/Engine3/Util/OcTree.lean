import Mathlib.Data.List.Pairwise
import Mathlib.Data.List.Perm.Subperm
import Mathlib.Data.Rat.Floor
import Engine3.System.SortedVector
import Engine3.Util.Triangle

/-!
# Oct trees

`engine/util/u3d/BasicOcTree`: objects by their positions in space. A node holds objects until a
second one comes; then they move down into the eight parts of its box, unless the box is too small.

The constructor of the nodes below and the test of a node against a query are declared without a
definition: any two functions stand for them. `isInArea` wants a coordinate on both sides of a
divider, so no object stays in a divided node. `none` stands for a null pointer that is followed
and for a stack that is used up.
-/
namespace Engine3

open List Function

inductive Octant
  | nw
  | ne
  | sw
  | se
  | nw2
  | ne2
  | sw2
  | se2
  deriving DecidableEq

namespace Octant

def all : List Octant := [.nw, .ne, .sw, .se, .nw2, .ne2, .sw2, .se2]

theorem mem_all (q : Octant) : q ∈ all := by cases q <;> decide

def east : Octant → Bool
  | ne | se | ne2 | se2 => true
  | _ => false

def north : Octant → Bool
  | nw | ne | nw2 | ne2 => true
  | _ => false

def upper : Octant → Bool
  | nw2 | ne2 | sw2 | se2 => true
  | _ => false

def searched : Octant → Octant
  | nw2 | ne2 | se2 => nw2
  | _ => nw

@[simp]
theorem searched_searched (q : Octant) : q.searched.searched = q.searched := by cases q <;> rfl

end Octant

structure OcTreeBox where
  minX : ℚ
  minY : ℚ
  minZ : ℚ
  maxX : ℚ
  maxY : ℚ
  maxZ : ℚ
  dividerX : ℚ
  dividerY : ℚ
  dividerZ : ℚ

namespace OcTreeBox

def root (minx miny minz maxx maxy maxz : ℚ) : OcTreeBox :=
  ⟨minx, miny, minz, maxx, maxy, maxz, (minx + maxx) / 2, (miny + maxy) / 2, (minz + maxz) / 2⟩

def part (upper : Bool) (min divider max : ℚ) : ℚ × ℚ :=
  if upper then (divider, max) else (min, divider)

def within (bounds : ℚ × ℚ) (c : ℚ) : Bool := c ≥ bounds.1 && c < bounds.2

def isIn (box : OcTreeBox) (p : Vector3 ℚ) (q : Octant) : Bool :=
  within (part q.east box.minX box.dividerX box.maxX) p.x &&
  within (part q.north box.minY box.dividerY box.maxY) p.y &&
  if box.dividerZ ≠ -1 then within (part q.upper box.minZ box.dividerZ box.maxZ) p.z else !q.upper

def locate (box : OcTreeBox) (p : Vector3 ℚ) : Octant :=
  ([.sw, .se, .nw, .ne, .sw2, .se2, .nw2].find? (box.isIn p)).getD .ne2

def isSmall (minSquareSize : Int) (box : OcTreeBox) : Bool :=
  box.maxX - box.minX ≤ minSquareSize && box.maxY - box.minY ≤ minSquareSize &&
  box.maxZ - box.minZ ≤ minSquareSize

end OcTreeBox

def Vector3.isInRange (position p : Vector3 ℚ) (range : ℚ) : Bool :=
  (p.x - position.x) * (p.x - position.x) + (p.y - position.y) * (p.y - position.y) +
    (p.z - position.z) * (p.z - position.z) ≤ range * range

inductive BasicOcTreeNode (ι : Type)
  | null
  | node (box : OcTreeBox) (objects : List ι) (child : Octant → BasicOcTreeNode ι)

namespace BasicOcTreeNode

variable {ι : Type}

def new (box : OcTreeBox) : BasicOcTreeNode ι := .node box [] fun _ => .null

def isNull : BasicOcTreeNode ι → Bool
  | .null => true
  | .node .. => false

def hasSubNodes (child : Octant → BasicOcTreeNode ι) : Bool :=
  Octant.all.any fun q => !(child q).isNull

section Operations

variable (create : ℚ → ℚ → ℚ → ℚ → OcTreeBox) (testInRange : OcTreeBox → ℚ → ℚ → ℚ → Bool)
  (compareTo : ι → ι → Int) (position : ι → Vector3 ℚ) (minSquareSize : Int)

def newPart (box : OcTreeBox) (q : Octant) : BasicOcTreeNode ι :=
  let (minx, maxx) := OcTreeBox.part q.east box.minX box.dividerX box.maxX
  let (miny, maxy) := OcTreeBox.part q.north box.minY box.dividerY box.maxY
  new (create minx miny maxx maxy)

def descend (insert : BasicOcTreeNode ι → ι → Option (BasicOcTreeNode ι)) (box : OcTreeBox)
    (child : Octant → BasicOcTreeNode ι) (obj : ι) : Option (Octant → BasicOcTreeNode ι) := do
  let q := box.locate (position obj)
  let sub ← insert (if (child q).isNull then newPart create box q else child q) obj
  return update child q sub

def addObject (box : OcTreeBox) (objects : List ι) (child : Octant → BasicOcTreeNode ι) (obj : ι) :
    BasicOcTreeNode ι :=
  .node box (SortedVector.put compareTo .noDuplicate obj objects).1 child

def place (insert : BasicOcTreeNode ι → ι → Option (BasicOcTreeNode ι)) (box : OcTreeBox)
    (objects : List ι) (child : Octant → BasicOcTreeNode ι) (obj : ι) :
    Option (BasicOcTreeNode ι) :=
  if hasSubNodes child then do
    let child ← descend create position insert box child obj
    return .node box objects child
  else return addObject compareTo box objects child obj

def insert : Nat → BasicOcTreeNode ι → ι → Option (BasicOcTreeNode ι)
  | 0, _, _ => none
  | _ + 1, .null, _ => none
  | fuel + 1, .node box objects child, obj =>
    if !objects.isEmpty && !hasSubNodes child then
      if box.isSmall minSquareSize then return addObject compareTo box objects child obj
      else do
        -- from the last object to the first
        let child ← objects.reverse.foldlM (descend create position (insert fuel) box) child
        place create compareTo position (insert fuel) box [] child obj
    else place create compareTo position (insert fuel) box objects child obj

variable (p : Vector3 ℚ) (range : ℚ)

def passes : BasicOcTreeNode ι → Bool
  | .null => false
  | .node box .. => testInRange box p.x p.y range

def inRange : BasicOcTreeNode ι → Option (List ι)
  | .null => none
  | .node _ objects child =>
    Octant.all.foldlM
      (fun found q =>
        (if passes testInRange p range (child q) then inRange (child q.searched) else some []).map
          (found ++ ·))
      (objects.filter fun o => (position o).isInRange p range)

end Operations

/-! ### Insertion -/

def held : BasicOcTreeNode ι → List ι
  | .null => []
  | .node _ objects child => objects ++ Octant.all.flatMap fun q => held (child q)

def heldBelow (child : Octant → BasicOcTreeNode ι) : List ι :=
  Octant.all.flatMap fun q => held (child q)

theorem heldBelow_update (child : Octant → BasicOcTreeNode ι) (q : Octant)
    (sub : BasicOcTreeNode ι) :
    ∃ rest, (heldBelow child).Perm (held (child q) ++ rest) ∧
      (heldBelow (update child q sub)).Perm (held sub ++ rest) := by
  have parts := perm_cons_erase q.mem_all
  refine ⟨(Octant.all.erase q).flatMap fun r => held (child r), parts.flatMap_right _, ?_⟩
  refine (parts.flatMap_right _).trans (.of_eq ?_)
  rw [flatMap_cons, update_self]
  congr 1
  apply flatMap_congr
  intro r ne
  rw [update_of_ne]
  rintro rfl
  exact (nodup_cons.mp (parts.nodup (by decide))).1 ne

def Adds {σ : Type} (content : σ → List ι) (step : σ → ι → Option σ) : Prop :=
  ∀ s obj s', (obj :: content s).Nodup → step s obj = some s' → (content s').Perm (obj :: content s)

theorem Adds.foldlM {σ : Type} {content : σ → List ι} {step : σ → ι → Option σ}
    (adds : Adds content step) {s s' : σ} (objs : List ι) (nodup : (objs ++ content s).Nodup)
    (ran : objs.foldlM step s = some s') : (content s').Perm (objs ++ content s) := by
  induction objs generalizing s with
  | nil =>
    cases ran
    exact .refl _
  | cons obj objs ih =>
    obtain ⟨s₁, ranFirst, ran⟩ := Option.bind_eq_some_iff.mp ran
    have split : ((obj :: content s) ++ objs).Perm (obj :: objs ++ content s) :=
      perm_append_comm.cons obj
    have added := adds s obj s₁ (split.nodup_iff.mpr nodup).of_append_left ranFirst
    have front := (added.append_left objs).trans perm_append_comm |>.trans split
    exact (ih (front.nodup_iff.mpr nodup) ran).trans front

section Insertion

variable {create : ℚ → ℚ → ℚ → ℚ → OcTreeBox} {compareTo : ι → ι → Int} {position : ι → Vector3 ℚ}
  {insertInto : BasicOcTreeNode ι → ι → Option (BasicOcTreeNode ι)}
  {box : OcTreeBox} {objects : List ι} {child : Octant → BasicOcTreeNode ι} {obj : ι}
  {t' : BasicOcTreeNode ι} (adds : Adds held insertInto)
include adds

theorem descend_adds : Adds heldBelow (descend create position insertInto box) := by
  intro child obj child' nodup ran
  obtain ⟨sub, ranBelow, eq⟩ := Option.bind_eq_some_iff.mp ran
  cases eq
  obtain ⟨rest, before, after⟩ := heldBelow_update child (box.locate (position obj)) sub
  generalize box.locate (position obj) = q at ranBelow before after
  have eq : held (if (child q).isNull then newPart create box q else child q) =
      held (child q) := by
    cases child q <;> rfl
  have nodup : (obj :: held (child q) ++ rest).Nodup := (before.cons obj).nodup_iff.mp nodup
  have added := adds _ _ _ (eq ▸ nodup.of_append_left) ranBelow
  rw [eq] at added
  exact after.trans ((added.append_right rest).trans (before.symm.cons obj))

variable {κ : Type} [LinearOrder κ] {rank : ι → κ} (order : SortedVector.OrderedBy compareTo rank)
  (injective : Injective rank)
include order injective

omit adds in
theorem addObject_adds (nodup : (obj :: held (.node box objects child)).Nodup) :
    (held (addObject compareTo box objects child obj)).Perm
      (obj :: held (.node box objects child)) := by
  refine Perm.append_right (heldBelow child)
    (SortedVector.put_noDuplicate_perm order fun x mem eq => ?_)
  exact (nodup_cons.mp nodup).1 (mem_append_left _ (injective eq ▸ mem))

theorem place_adds (nodup : (obj :: held (.node box objects child)).Nodup)
    (ran : place create compareTo position insertInto box objects child obj = some t') :
    (held t').Perm (obj :: held (.node box objects child)) := by
  unfold place at ran
  split at ran
  · obtain ⟨child', ranBelow, eq⟩ := Option.bind_eq_some_iff.mp ran
    cases eq
    have new : (objects ++ obj :: heldBelow child).Nodup := perm_middle.nodup_iff.mpr nodup
    have added := descend_adds adds child obj child' new.of_append_right ranBelow
    exact (added.append_left objects).trans perm_middle
  · cases ran
    exact addObject_adds order injective nodup

omit adds in
theorem insert_adds (minSquareSize : Int) (fuel : Nat) :
    Adds held (insert create compareTo position minSquareSize fuel) := by
  induction fuel with
  | zero => exact fun _ _ _ _ ran => nomatch ran
  | succ fuel ih =>
    intro t obj t' nodup ran
    cases t with
    | null => cases ran
    | node box objects child =>
      rw [insert] at ran
      split at ran
      · split at ran
        · cases ran
          exact addObject_adds order injective nodup
        · obtain ⟨moved, ranMoved, ran⟩ := Option.bind_eq_some_iff.mp ran
          have turned : (objects.reverse ++ heldBelow child).Perm (objects ++ heldBelow child) :=
            (reverse_perm objects).append_right _
          have all := ((descend_adds ih).foldlM _ (turned.nodup_iff.mpr nodup.of_cons)
            ranMoved).trans turned
          have placed := place_adds ih order injective ((all.cons obj).nodup_iff.mpr nodup) ran
          exact placed.trans (all.cons obj)
      · exact place_adds ih order injective nodup ran

end Insertion

/-! ### Queries -/

section Queries

variable (testInRange : OcTreeBox → ℚ → ℚ → ℚ → Bool) (position : ι → Vector3 ℚ) (p : Vector3 ℚ)
  (range : ℚ)

def near (t : BasicOcTreeNode ι) : List ι := (held t).filter fun o => (position o).isInRange p range

/-- No test keeps a query from an object in range. -/
def Unpruned : BasicOcTreeNode ι → Prop
  | .null => True
  | .node _ _ child => ∀ q, Unpruned (child q) ∧
      (near position p range (child q) ≠ [] → passes testInRange p range (child q))

/-- The two nodes a query goes to hold all objects in range that are below, and one that is searched
for another node is there and holds none of them. -/
def Answerable : BasicOcTreeNode ι → Prop
  | .null => False
  | .node _ _ child => ∀ q,
      (q.searched ≠ q → near position p range (child q) = []) ∧
      (passes testInRange p range (child q) → Answerable (child q.searched) ∧
        (q.searched ≠ q → near position p range (child q.searched) = []))

variable {testInRange position p range} {t : BasicOcTreeNode ι} {found : List ι}

theorem foldlM_append {visit : Octant → Option (List ι)} (qs : List Octant) (own : List ι) :
    qs.foldlM (fun found q => (visit q).map (found ++ ·)) own = some found ↔
      (∀ q ∈ qs, (visit q).isSome) ∧ found = own ++ qs.flatMap fun q => (visit q).getD [] := by
  induction qs generalizing own with
  | nil => simpa using eq_comm
  | cons q qs ih => cases visited : visit q <;> simp [visited, ih]

theorem near_node (box : OcTreeBox) (objects : List ι) (child : Octant → BasicOcTreeNode ι) :
    near position p range (.node box objects child) =
      (objects.filter fun o => (position o).isInRange p range) ++
        Octant.all.flatMap fun q => near position p range (child q) := by
  simp only [near, held, filter_append, filter_flatMap]

theorem inRange_subset (ran : inRange testInRange position p range t = some found) :
    found ⊆ near position p range t := by
  induction t generalizing found with
  | null => cases ran
  | node box objects child ih =>
    obtain ⟨done, rfl⟩ := (foldlM_append _ _).mp ran
    rw [near_node]
    apply append_subset.mpr ⟨subset_append_left _ _, subset_append_of_subset_right _ ?_⟩
    intro o mem
    obtain ⟨q, -, mem⟩ := mem_flatMap.mp mem
    split at mem
    next passed =>
      obtain ⟨result, ran⟩ := Option.isSome_iff_exists.mp (if_pos passed ▸ done q q.mem_all)
      rw [ran] at mem
      exact mem_flatMap.mpr ⟨_, Octant.mem_all _, ih _ ran mem⟩
    next => cases mem

theorem eq_of_mem_flatMap {content : Octant → List ι}
    (nodup : (Octant.all.flatMap content).Nodup) {q r : Octant} {o : ι} (one : o ∈ content q)
    (ne : o ∈ content r) : q = r := by
  have : Std.Symm (Disjoint on content) := ⟨fun _ _ apart _ one ne => apart ne one⟩
  by_contra different
  exact (nodup_flatMap.mp nodup).2.forall q.mem_all r.mem_all different one ne

theorem inRange_perm_iff (once : (held t).Nodup)
    (unpruned : Unpruned testInRange position p range t) :
    (∃ found, inRange testInRange position p range t = some found ∧
      found.Perm (near position p range t)) ↔ Answerable testInRange position p range t := by
  induction t with
  | null => simp [inRange, Answerable]
  | node box objects child ih =>
    have exact (q : Octant) := ih q
      ((nodup_flatMap.mp once.of_append_right).1 q q.mem_all) (unpruned q).1
    simp only [inRange, foldlM_append, near_node]
    constructor
    · rintro ⟨_, ⟨done, rfl⟩, perm⟩
      have perm := (perm_append_left_iff _).mp perm
      have distinct : (Octant.all.flatMap fun q => near position p range (child q)).Nodup := by
        simp only [near, ← filter_flatMap]
        exact once.of_append_right.filter _
      have searched {q : Octant} (passed : passes testInRange p range (child q)) :
          ∃ found, inRange testInRange position p range (child q.searched) = some found := by
        have ran := done q q.mem_all
        rw [if_pos passed] at ran
        exact Option.isSome_iff_exists.mp ran
      -- an object in range was found by way of a test that led to its node
      have reported {q : Octant} {o : ι} (mem : o ∈ near position p range (child q)) :
          ∃ r found, r.searched = q ∧ passes testInRange p range (child r) ∧
            inRange testInRange position p range (child q) = some found ∧ o ∈ found := by
        obtain ⟨r, -, found⟩ := mem_flatMap.mp
          (perm.mem_iff.mpr (mem_flatMap.mpr ⟨q, q.mem_all, mem⟩))
        split at found
        next passed =>
          obtain ⟨list, ran⟩ := searched passed
          rw [ran] at found
          obtain rfl : r.searched = q := eq_of_mem_flatMap distinct (inRange_subset ran found) mem
          exact ⟨r, list, rfl, passed, ran, found⟩
        next => cases found
      intro q
      refine ⟨fun ne => eq_nil_iff_forall_not_mem.mpr fun o mem => ?_, fun passed =>
        ⟨(exact _).mp ?_, fun ne => eq_nil_iff_forall_not_mem.mpr fun o mem => ?_⟩⟩
      · obtain ⟨r, _, rfl, _⟩ := reported mem
        exact ne r.searched_searched
      · obtain ⟨found, ran⟩ := searched passed
        refine ⟨found, ran, (perm_ext_iff_of_nodup ?_ ?_).mpr fun o => ⟨?_, ?_⟩⟩
        · have part := (nodup_flatMap.mp (perm.nodup_iff.mpr distinct)).1 q q.mem_all
          rwa [if_pos passed, ran] at part
        · exact (nodup_flatMap.mp distinct).1 _ (Octant.mem_all _)
        · exact @inRange_subset _ _ _ _ _ _ _ ran o
        · intro mem
          obtain ⟨_, list, _, _, ran', hin⟩ := reported mem
          cases ran.symm.trans ran'
          exact hin
      · -- it is found by its own test as well, so twice
        obtain ⟨_, list, _, _, ran, hin⟩ := reported mem
        have passed' := (unpruned q.searched).2 (ne_nil_of_mem mem)
        refine ne (eq_of_mem_flatMap (perm.nodup_iff.mpr distinct) (o := o) ?_ ?_)
        · rw [if_pos passed', Octant.searched_searched, ran]
          exact hin
        · rw [if_pos passed, ran]
          exact hin
    · intro answerable
      refine ⟨_, ⟨fun q _ => ?_, rfl⟩, (perm_append_left_iff _).mpr (Perm.flatMap_left _ ?_)⟩
      · split
        next passed =>
          obtain ⟨found, ran, -⟩ := (exact _).mpr ((answerable q).2 passed).1
          rw [ran]
          rfl
        next => rfl
      · intro q _
        split
        next passed =>
          obtain ⟨answers, misses⟩ := (answerable q).2 passed
          obtain ⟨found, ran, all⟩ := (exact _).mpr answers
          rw [ran]
          by_cases eq : q.searched = q
          · rwa [eq] at all
          · rw [(answerable q).1 eq, ← misses eq]
            exact all
        next failed =>
          have none : near position p range (child q) = [] := by
            by_contra some
            exact failed ((unpruned q).2 some)
          rw [none]
          exact .refl _

variable {create : ℚ → ℚ → ℚ → ℚ → OcTreeBox} {compareTo : ι → ι → Int} {κ : Type} [LinearOrder κ]

/-- Without pruning, exactly if the nodes a query goes to can answer it. -/
theorem inRange_exact_iff (rank : ι → κ) (order : SortedVector.OrderedBy compareTo rank)
    (injective : Injective rank) (box : OcTreeBox) (minSquareSize : Int) (fuel : Nat)
    (objs : List ι) (distinct : objs.Nodup)
    (ran : objs.foldlM (insert create compareTo position minSquareSize fuel) (new box) = some t)
    (unpruned : Unpruned testInRange position p range t) :
    (∃ found, inRange testInRange position p range t = some found ∧
      found.Perm (objs.filter fun o => (position o).isInRange p range)) ↔
      Answerable testInRange position p range t := by
  have empty : objs ++ held (new box) = objs := append_nil objs
  have inserted := (insert_adds order injective minSquareSize fuel).foldlM objs
    (empty.symm ▸ distinct) ran
  rw [empty] at inserted
  rw [← inRange_perm_iff (inserted.nodup_iff.mpr distinct) unpruned]
  have eq := inserted.filter fun o => (position o).isInRange p range
  exact exists_congr fun found => and_congr_right fun _ => ⟨(·.trans eq.symm), (·.trans eq)⟩

theorem unpruned_true (t : BasicOcTreeNode ι) :
    Unpruned (fun _ _ _ _ => true) position p range t := by
  induction t with
  | null => trivial
  | node box objects child ih =>
    refine fun q => ⟨ih q, fun filled => ?_⟩
    cases here : child q with
    | null => simp [here, near, held] at filled
    | node => rfl

def twoInserted (position : Fin 2 → Vector3 ℚ) : Option (BasicOcTreeNode (Fin 2)) :=
  [0, 1].foldlM (insert (fun minx miny maxx maxy => .root minx miny 0 maxx maxy 100)
    (fun a b => (b : Int) - a) position 8 5) (new (.root 0 0 0 100 100 100))

theorem inRange_exact_iff_two_north_west :
    ∃ t, twoInserted (fun o => ⟨10, 90, if o = 0 then 10 else 90⟩) = some t ∧
      Answerable (fun _ _ _ _ => true) (fun o : Fin 2 => ⟨10, 90, if o = 0 then 10 else 90⟩)
        ⟨10, 90, 10⟩ 5 t := by
  refine ⟨_, (Option.some_get (by decide +kernel)).symm, ?_⟩
  refine (inRange_exact_iff id ⟨?_, ?_⟩ injective_id _ 8 5 [0, 1] (by decide)
    (Option.some_get (by decide +kernel)).symm (unpruned_true _)).mp ⟨[0], ?_, ?_⟩
  · decide
  · decide
  · decide +kernel
  · decide +kernel

theorem inRange_follows_null :
    ∃ t, twoInserted (fun o => ⟨if o = 0 then 10 else 90, 10, 10⟩) = some t ∧
      Unpruned (fun _ _ _ _ => true) (fun o : Fin 2 => ⟨if o = 0 then 10 else 90, 10, 10⟩)
        ⟨10, 10, 10⟩ 5 t ∧
      inRange (fun _ _ _ _ => true) (fun o : Fin 2 => ⟨if o = 0 then 10 else 90, 10, 10⟩)
        ⟨10, 10, 10⟩ 5 t = none := by
  refine ⟨_, (Option.some_get (by decide +kernel)).symm, unpruned_true _, ?_⟩
  decide +kernel

end Queries

end BasicOcTreeNode

end Engine3
