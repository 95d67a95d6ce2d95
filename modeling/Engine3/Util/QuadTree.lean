import Mathlib.Data.Nat.Log
import Mathlib.Data.Rat.Floor
import Engine3.Library.Exec
import Engine3.System.SortedVector
import Engine3.System.Stream

/-!
# Quad trees

`engine/util/u3d/BasicQuadTree`: objects by their positions. A node holds objects until a second
one comes; then its area is divided into four and the objects move down, unless the area is too
small to divide. A node that has lost its last object goes, unless it has nodes below.

Coordinates are rational numbers, so the arithmetic is exact. Nodes have addresses that are never
used again, and an object points to the address of its node; following a pointer to a node that
is not in the tree is an error. Messages to the log are left out.
-/
namespace Engine3

open Exec SortedVector

structure Point where
  x : ℚ
  y : ℚ
  deriving DecidableEq

structure Area where
  minX : ℚ
  minY : ℚ
  maxX : ℚ
  maxY : ℚ
  deriving DecidableEq

inductive Quadrant
  | nw
  | ne
  | sw
  | se
  deriving DecidableEq, Repr

def Quadrant.all : List Quadrant := [.nw, .ne, .sw, .se]

theorem Quadrant.mem_all (q : Quadrant) : q ∈ Quadrant.all := by cases q <;> decide

theorem Quadrant.nodup_all : Quadrant.all.Nodup := by decide

namespace Area

def dividerX (area : Area) : ℚ := (area.minX + area.maxX) / 2

def dividerY (area : Area) : ℚ := (area.minY + area.maxY) / 2

/-- The sides to the west and south belong to the area. -/
def testInside (area : Area) (p : Point) : Prop :=
  p.x ≥ area.minX ∧ p.x < area.maxX ∧ p.y ≥ area.minY ∧ p.y < area.maxY

def isInSWArea (p : Point) (area : Area) : Bool :=
  p.x ≥ area.minX && p.x < area.dividerX && p.y ≥ area.minY && p.y < area.dividerY

def isInSEArea (p : Point) (area : Area) : Bool :=
  p.x ≥ area.dividerX && p.x < area.maxX && p.y ≥ area.minY && p.y < area.dividerY

def isInNWArea (p : Point) (area : Area) : Bool :=
  p.x ≥ area.minX && p.x < area.dividerX && p.y ≥ area.dividerY && p.y < area.maxY

def isInArea (p : Point) (area : Area) : Bool :=
  (p.x > area.dividerX && p.x < area.dividerX) || (p.y > area.dividerY && p.y < area.dividerY)

def locate (area : Area) (p : Point) : Quadrant :=
  if isInSWArea p area then .sw
  else if isInSEArea p area then .se
  else if isInNWArea p area then .nw
  else .ne

def quadrant (area : Area) : Quadrant → Area
  | .sw => ⟨area.minX, area.minY, area.dividerX, area.dividerY⟩
  | .se => ⟨area.dividerX, area.minY, area.maxX, area.dividerY⟩
  | .nw => ⟨area.minX, area.dividerY, area.dividerX, area.maxY⟩
  | .ne => ⟨area.dividerX, area.dividerY, area.maxX, area.maxY⟩

def testInRange (area : Area) (p : Point) (range : ℚ) : Bool :=
  let insideX := area.minX ≤ p.x && p.x < area.maxX
  let insideY := area.minY ≤ p.y && p.y < area.maxY
  if insideX && insideY then true
  else
    let closeenoughX := |area.minX - p.x| ≤ range || |area.maxX - p.x| ≤ range
    let closeenoughY := |area.minY - p.y| ≤ range || |area.maxY - p.y| ≤ range
    (insideX || closeenoughX) && (insideY || closeenoughY)

def isSmall (minSquareSize : Int) (area : Area) : Bool :=
  area.maxX - area.minX ≤ minSquareSize && area.maxY - area.minY ≤ minSquareSize

end Area

def Point.isInRange (position p : Point) (range : ℚ) : Bool :=
  (p.x - position.x) * (p.x - position.x) + (p.y - position.y) * (p.y - position.y) ≤ range * range

inductive BasicQuadTreeNode (ι : Type)
  | null
  | node (address : Nat) (area : Area) (objects : List ι) (child : Quadrant → BasicQuadTreeNode ι)

structure QuadTreeEntries (ι : Type) where
  node : ι → Option Nat
  bounding : ι → Bool
  nextAddress : Nat

namespace BasicQuadTreeNode

abbrev NodeM (ι : Type) := EStateM Exception (QuadTreeEntries ι)

variable {ι : Type}

def isNull : BasicQuadTreeNode ι → Bool
  | .null => true
  | .node .. => false

def hasSubNodes (child : Quadrant → BasicQuadTreeNode ι) : Bool :=
  Quadrant.all.any fun q => !(child q).isNull

def newNode (area : Area) : NodeM ι (BasicQuadTreeNode ι) := fun e =>
  .ok (.node e.nextAddress area [] fun _ => .null) { e with nextAddress := e.nextAddress + 1 }

section Operations

variable [DecidableEq ι] (compareTo : ι → ι → Int) (position : ι → Point) (minSquareSize : Int)

def setNode (obj : ι) (node : Option Nat) (e : QuadTreeEntries ι) : QuadTreeEntries ι :=
  { e with node := Function.update e.node obj node }

def setBounding (obj : ι) (bounding : Bool) (e : QuadTreeEntries ι) : QuadTreeEntries ι :=
  { e with bounding := Function.update e.bounding obj bounding }

def addObject (obj : ι) : BasicQuadTreeNode ι → NodeM ι (BasicQuadTreeNode ι)
  | .null => throw (.abort "null pointer")
  | .node address area objects child => do
    let objects := (put compareTo .noDuplicate obj objects).1
    if (← get).node obj ≠ none then throw (.abort "obj->getNode() == nullptr")
    modify (setNode obj (some address))
    return .node address area objects child

def descend (insertInto : BasicQuadTreeNode ι → ι → NodeM ι (BasicQuadTreeNode ι)) (obj : ι) :
    BasicQuadTreeNode ι → NodeM ι (BasicQuadTreeNode ι)
  | .null => throw (.abort "null pointer")
  | .node address area objects child => do
    let q := area.locate (position obj)
    let sub ← if (child q).isNull then newNode (area.quadrant q) else pure (child q)
    let sub ← insertInto sub obj
    return .node address area objects (Function.update child q sub)

def split (insertInto : BasicQuadTreeNode ι → ι → NodeM ι (BasicQuadTreeNode ι)) :
    Nat → BasicQuadTreeNode ι → NodeM ι (BasicQuadTreeNode ι)
  | 0, divided => pure divided
  | _ + 1, .null => throw (.abort "null pointer")
  | i + 1, .node address area objects child => do
    match objects[i]? with
    | none => throw (.arrayIndexOutOfBounds i)
    | some existing =>
      if (← get).bounding existing then split insertInto i (.node address area objects child)
      else
        modify (setNode existing none)
        let divided ← descend position insertInto existing
          (.node address area (objects.eraseIdx i) child)
        split insertInto i divided

def place (insertInto : BasicQuadTreeNode ι → ι → NodeM ι (BasicQuadTreeNode ι)) (obj : ι) :
    BasicQuadTreeNode ι → NodeM ι (BasicQuadTreeNode ι)
  | .null => throw (.abort "null pointer")
  | .node address area objects child =>
    if area.isInArea (position obj) then do
      modify (setBounding obj true)
      addObject compareTo obj (.node address area objects child)
    else if hasSubNodes child then
      descend position insertInto obj (.node address area objects child)
    else addObject compareTo obj (.node address area objects child)

def insertInto : Nat → BasicQuadTreeNode ι → ι → NodeM ι (BasicQuadTreeNode ι)
  | 0, _, _ => throw (.abort "out of stack")
  | _ + 1, .null, _ => throw (.abort "null pointer")
  | fuel + 1, .node address area objects child, obj => do
    modify (setBounding obj false)
    if !objects.isEmpty && !hasSubNodes child then
      if area.isSmall minSquareSize then
        addObject compareTo obj (.node address area objects child)
      else
        let divided ← split position (insertInto fuel) objects.length
          (.node address area objects child)
        place compareTo position (insertInto fuel) obj divided
    else place compareTo position (insertInto fuel) obj (.node address area objects child)

def alter (address : Nat) (f : BasicQuadTreeNode ι → BasicQuadTreeNode ι) :
    BasicQuadTreeNode ι → BasicQuadTreeNode ι
  | .null => .null
  | .node a area objects child =>
    if a = address then f (.node a area objects child)
    else .node a area objects fun q => alter address f (child q)

def has (address : Nat) : BasicQuadTreeNode ι → Bool
  | .null => false
  | .node a _ _ child => a == address || Quadrant.all.any fun q => has address (child q)

def dropObject (obj : ι) (isRoot : Bool) : BasicQuadTreeNode ι → BasicQuadTreeNode ι
  | .null => .null
  | .node address area objects child =>
    let objects := (drop compareTo obj objects).2
    if objects.isEmpty && !hasSubNodes child && !isRoot then .null
    else .node address area objects child

def isAt (address : Nat) : BasicQuadTreeNode ι → Bool
  | .null => false
  | .node a _ _ _ => a == address

def remove (obj : ι) (root : BasicQuadTreeNode ι) : NodeM ι (BasicQuadTreeNode ι) := do
  match (← get).node obj with
  | none => return root
  | some address =>
    if !root.has address then throw (.abort "node is not in the tree")
    modify (setNode obj none)
    return root.alter address (dropObject compareTo obj (root.isAt address))

def testInRange (p : Point) (range : ℚ) : BasicQuadTreeNode ι → Bool
  | .null => false
  | .node _ area _ _ => area.testInRange p range

def inRange (p : Point) (range : ℚ) : BasicQuadTreeNode ι → List ι → Nat × List ι
  | .null, found => (0, found)
  | .node _ _ objects child, found =>
    let here := objects.filter fun o => (position o).isInRange p range
    Quadrant.all.foldl
      (fun (count, found) q =>
        if (child q).testInRange p range then
          let (below, found) := inRange p range (child q) found
          (count + below, found)
        else (count, found))
      (here.length, found ++ here)

end Operations

end BasicQuadTreeNode

/-! ### Areas -/

namespace Area

theorem not_isInArea (p : Point) (area : Area) : isInArea p area = false := by
  simp only [isInArea, Bool.or_eq_false_iff, Bool.and_eq_false_imp, decide_eq_true_eq,
    decide_eq_false_iff_not]
  exact ⟨fun after before => lt_asymm after before, fun after before => lt_asymm after before⟩

variable {area : Area} {p : Point} {range : ℚ} {minSquareSize : Int}

theorem testInside_locate (hin : area.testInside p) :
    (area.quadrant (area.locate p)).testInside p := by
  obtain ⟨left, right, low, high⟩ := hin
  unfold locate
  split_ifs with sw se nw
  · simpa [isInSWArea, testInside, quadrant, and_assoc] using sw
  · simpa [isInSEArea, testInside, quadrant, and_assoc] using se
  · simpa [isInNWArea, testInside, quadrant, and_assoc] using nw
  · -- in none of the other three, so on the upper side of both dividers
    simp only [isInSWArea, isInSEArea, isInNWArea, Bool.and_eq_true, decide_eq_true_eq] at sw se nw
    by_cases west : p.x < area.dividerX
    · by_cases south : p.y < area.dividerY
      · exact absurd ⟨⟨⟨left, west⟩, low⟩, south⟩ sw
      · exact absurd ⟨⟨⟨left, west⟩, not_lt.mp south⟩, high⟩ nw
    · by_cases south : p.y < area.dividerY
      · exact absurd ⟨⟨⟨not_lt.mp west, right⟩, low⟩, south⟩ se
      · exact ⟨not_lt.mp west, right, not_lt.mp south, high⟩

theorem testInside_of_quadrant {q : Quadrant} (hin : (area.quadrant q).testInside p) :
    area.testInside p := by
  cases q <;> simp only [quadrant, testInside, dividerX, dividerY] at hin ⊢ <;>
    obtain ⟨left, right, low, high⟩ := hin <;>
    refine ⟨?_, ?_, ?_, ?_⟩ <;> linarith

theorem close_of_near {low high a b : ℚ} (hin : low ≤ b ∧ b < high) (near : |a - b| ≤ range) :
    (low ≤ a ∧ a < high) ∨ |low - a| ≤ range ∨ |high - a| ≤ range := by
  obtain ⟨above, below⟩ := abs_le.mp near
  by_cases left : low ≤ a
  · by_cases right : a < high
    · exact .inl ⟨left, right⟩
    · right; right
      rw [abs_le]
      constructor <;> linarith [hin.2]
  · right; left
    rw [abs_le]
    constructor <;> linarith [hin.1]

theorem testInRange_of_isInRange {position : Point} (hin : area.testInside position)
    (nonneg : 0 ≤ range) (near : position.isInRange p range = true) :
    area.testInRange p range = true := by
  simp only [Point.isInRange, decide_eq_true_eq] at near
  have nearX : |p.x - position.x| ≤ range := by
    apply abs_le_of_sq_le_sq _ nonneg
    nlinarith [mul_self_nonneg (p.y - position.y)]
  have nearY : |p.y - position.y| ≤ range := by
    apply abs_le_of_sq_le_sq _ nonneg
    nlinarith [mul_self_nonneg (p.x - position.x)]
  obtain ⟨left, right, low, high⟩ := hin
  have x := close_of_near ⟨left, right⟩ nearX
  have y := close_of_near ⟨low, high⟩ nearY
  unfold testInRange
  simp only [Bool.and_eq_true, decide_eq_true_eq]
  split
  · rfl
  · simp only [Bool.and_eq_true, Bool.or_eq_true, decide_eq_true_eq]
    exact ⟨x, y⟩

def Fits (minSquareSize : Int) (n : Nat) (area : Area) : Prop :=
  area.maxX - area.minX ≤ 2 ^ n * minSquareSize ∧ area.maxY - area.minY ≤ 2 ^ n * minSquareSize

theorem Fits.quadrant {n : Nat} (fits : Fits minSquareSize (n + 1) area) (q : Quadrant) :
    Fits minSquareSize n (area.quadrant q) := by
  obtain ⟨width, height⟩ := fits
  rw [pow_succ] at width height
  cases q <;> simp only [Fits, Area.quadrant, dividerX, dividerY] <;> constructor <;> linarith

theorem Fits.isSmall (fits : Fits minSquareSize 0 area) :
    area.isSmall minSquareSize = true := by
  simpa [Fits, Area.isSmall] using fits

def depth (area : Area) : Nat :=
  ⌈max (area.maxX - area.minX) (area.maxY - area.minY)⌉₊

theorem fits_depth (area : Area) (pos : 1 ≤ minSquareSize) :
    Fits minSquareSize area.depth area := by
  have bound : max (area.maxX - area.minX) (area.maxY - area.minY) ≤ area.depth := Nat.le_ceil _
  have power : (area.depth : ℚ) ≤ 2 ^ area.depth := by
    exact_mod_cast (Nat.lt_two_pow_self).le
  have one : (1 : ℚ) ≤ minSquareSize := by exact_mod_cast pos
  have hle : (2 : ℚ) ^ area.depth ≤ 2 ^ area.depth * minSquareSize :=
    le_mul_of_one_le_right (by positivity) one
  have whole := bound.trans (power.trans hle)
  exact ⟨(le_max_left _ _).trans whole, (le_max_right _ _).trans whole⟩

def halvings (minSquareSize : Int) (area : Area) : Nat :=
  Nat.clog 2 ⌈max (area.maxX - area.minX) (area.maxY - area.minY) / minSquareSize⌉₊

theorem fits_iff_halvings_le (pos : 1 ≤ minSquareSize) (n : Nat) :
    Fits minSquareSize n area ↔ area.halvings minSquareSize ≤ n := by
  have side : (0 : ℚ) < minSquareSize := by exact_mod_cast pos
  rw [halvings, Nat.clog_le_iff_le_pow one_lt_two, Nat.ceil_le, div_le_iff₀ side, max_le_iff]
  push_cast
  rfl

end Area

end Engine3
