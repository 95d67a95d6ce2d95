import Engine3.System.Stream
import Mathlib.Data.List.FinRange
import Mathlib.Order.Lattice

/-!
# Triangles

`engine/util/u3d/Vector3` and `engine/util/u3d/Triangle`, with exact arithmetic in any ordered
ring.
-/
namespace Engine3

structure Vector3 (K : Type) where
  x : K
  y : K
  z : K
  deriving DecidableEq

structure Triangle (K : Type) where
  verts : Fin 3 → Vector3 K

namespace Triangle

instance vertices_ne_zero : NeZero 3 := ⟨by decide⟩

variable {K : Type} [LinearOrder K] {t tri : Triangle K}

def common (t tri : Triangle K) : List (Fin 3) :=
  (List.finRange 3).flatMap fun i =>
    ((List.finRange 3).filter fun j => t.verts i = tri.verts j).map fun _ => i

/-- Two corners are common. -/
def Shares (t tri : Triangle K) : Prop := 2 ≤ (t.common tri).length

instance (t tri : Triangle K) : Decidable (t.Shares tri) := inferInstanceAs (Decidable (2 ≤ _))

omit [LinearOrder K] in
def IsShared (t tri : Triangle K) (v : Vector3 K) : Prop :=
  v ∈ Set.range t.verts ∧ v ∈ Set.range tri.verts

theorem isShared_of_mem_common {i : Fin 3} (mem : i ∈ t.common tri) :
    t.IsShared tri (t.verts i) := by
  obtain ⟨i', -, mem⟩ := List.mem_flatMap.mp mem
  obtain ⟨j, eq, rfl⟩ := List.mem_map.mp mem
  exact ⟨⟨_, rfl⟩, j, (of_decide_eq_true (List.mem_filter.mp eq).2).symm⟩

/-! ### The shared edge -/

def area2D {K : Type} [CommRing K] (a b c : Vector3 K) : K :=
  let ax := b.x - a.x
  let ay := b.z - a.z
  let bx := c.x - a.x
  let by' := c.z - a.z
  bx * ay - ax * by'

theorem area2D_self {K : Type} [CommRing K] (a c : Vector3 K) : area2D a a c = 0 := by
  simp [area2D]

variable [CommRing K]

def sharedEdge (t tri : Triangle K) : Except Exception (Vector3 K × Vector3 K × Vector3 K) :=
  match t.common tri with
  | firstCommon :: secondCommon :: _ =>
    let apexID : Fin 3 := if secondCommon = 1 then 2 else if firstCommon = 1 then 0 else 1
    return (t.verts apexID, t.verts firstCommon, t.verts secondCommon)
  | _ => throw (.plain "Couldnt find shared vertex!")

def getLeftSharedVertex (t tri : Triangle K) : Except Exception (Vector3 K) := do
  let (apex, pointA, pointB) ← t.sharedEdge tri
  return if area2D apex pointA pointB ≤ 0 then pointB else pointA

def getRightSharedVertex (t tri : Triangle K) : Except Exception (Vector3 K) := do
  let (apex, pointA, pointB) ← t.sharedEdge tri
  return if area2D apex pointA pointB ≤ 0 then pointA else pointB

theorem Shares.vertices (shares : t.Shares tri) :
    ∃ left right, t.getLeftSharedVertex tri = .ok left ∧ t.getRightSharedVertex tri = .ok right ∧
      t.IsShared tri left ∧ t.IsShared tri right := by
  have hin (i : Fin 3) (mem : i ∈ t.common tri) := isShared_of_mem_common mem
  rw [Shares] at shares
  simp only [getLeftSharedVertex, getRightSharedVertex, sharedEdge]
  match found : t.common tri with
  | [] | [_] =>
    rw [found] at shares
    simp at shares
  | first :: second :: rest =>
    rw [found] at hin
    have sharedA := hin first (by simp)
    have sharedB := hin second (by simp)
    refine ⟨_, _, rfl, rfl, ?_⟩
    generalize area2D _ (t.verts first) (t.verts second) = area
    split
    · exact ⟨sharedB, sharedA⟩
    · exact ⟨sharedA, sharedB⟩

end Triangle

end Engine3
