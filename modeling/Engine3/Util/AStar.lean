import Engine3.Library.GraphSearch
import Engine3.System.PriorityQueue
import Engine3.System.VectorMap

/-!
# Path searches

`engine/util/u3d/AStarAlgorithm` and `engine/util/u3d/TriangulationAStarAlgorithm`. Both keep
their nodes in a priority queue whose order changes under it: the first rewrites the cost of a
node that is queued. The proofs therefore use nothing about which node a poll returns.
-/
namespace Engine3

open Exec GraphSearch LeftistHeap SortedVector

variable {ν D : Type}

structure Distances (D : Type) where
  zero : D
  add : D → D → D
  sub : D → D → D
  less : D → D → Bool

def Distances.max (dist : Distances D) (val1 val2 : D) : D :=
  if dist.less val2 val1 then val1 else val2

/-! ### Nodes of a search -/

structure AStarNode (ν D : Type) where
  g : D
  heuristic : D
  node : ν
  cameFrom : Option Nat

def AStarNode.getF (dist : Distances D) (star : AStarNode ν D) : D :=
  dist.add star.g star.heuristic

def AStarNode.compareTo (dist : Distances D) (star cmp : AStarNode ν D) : Int :=
  if dist.less (star.getF dist) (cmp.getF dist) then 1
  else if dist.less (cmp.getF dist) (star.getF dist) then -1
  else 0

structure AStarMemory (ν D : Type) where
  nodes : Nat → AStarNode ν D
  next : Nat
  links : EntryMemory Nat
  priorityQueue : PriorityQueue Nat

abbrev AStarM (ν D : Type) := EStateM Exception (AStarMemory ν D)

namespace AStarMemory

def create (node : ν) (g heuristic : D) : AStarM ν D Nat := fun s =>
  .ok s.next { s with
    nodes := Function.update s.nodes s.next { g, heuristic, node, cameFrom := none }
    next := s.next + 1
    links := Function.update s.links s.next .unlinked }

def assign (n : Nat) (f : AStarNode ν D → AStarNode ν D) : AStarM ν D Unit := fun s =>
  .ok () { s with nodes := Function.update s.nodes n (f (s.nodes n)) }

def compareNodes (dist : Distances D) (s : AStarMemory ν D) (a b : Nat) : Int :=
  (s.nodes a).compareTo dist (s.nodes b)

def enqueue (dist : Distances D) (n : Nat) : AStarM ν D Unit := fun s =>
  match PriorityQueue.add (s.compareNodes dist) n s.priorityQueue s.links with
  | .ok priorityQueue links => .ok () { s with priorityQueue, links }
  | .error e links => .error e { s with links }

def poll (dist : Distances D) : AStarM ν D (Option Nat) := fun s =>
  match PriorityQueue.poll (s.compareNodes dist) s.priorityQueue s.links with
  | .ok (x, priorityQueue) links => .ok x { s with priorityQueue, links }
  | .error e links => .error e { s with links }

def discover (dist : Distances D) (x : Nat) (neighbor : ν) (g heuristic : D) : AStarM ν D Nat := do
  let n ← create neighbor g heuristic
  assign n fun star => { star with cameFrom := some x }
  enqueue dist n
  return n

def empty (dist : Distances D) (source : ν) : AStarMemory ν D where
  nodes := fun _ => { g := dist.zero, heuristic := dist.zero, node := source, cameFrom := none }
  next := 0
  links := fun _ => .unlinked
  priorityQueue := { root := none, count := 0 }

def buildPath : Nat → Option Nat → List ν → AStarM ν D (List ν)
  | _, none, path => pure path
  | 0, some _, _ => throw (.abort "out of fuel")
  | fuel + 1, some parent, path => fun s =>
    buildPath fuel (s.nodes parent).cameFrom ((s.nodes parent).node :: path) s

def pathTo (fuel : Nat) : Option Nat → AStarM ν D (Option (List ν))
  | none => pure none
  | some goal => do
    let s ← get
    let path ← buildPath fuel (s.nodes goal).cameFrom [(s.nodes goal).node]
    return some path

end AStarMemory

/-! ### The searches -/

structure SearchGraph (ν ID D : Type) where
  getID : ν → ID
  getNeighbors : ν → List ν
  calculateManhattanDistance : ν → ν → D

namespace AStarAlgorithm

open AStarMemory

variable {ID : Type} (graph : SearchGraph ν ID D) (dist : Distances D) (compare : ID → ID → Int)

structure Sets (ID : Type) where
  openSet : VectorMap ID (Option Nat)
  closeSet : VectorMap ID (Option Nat)

def visitNeighbor (target : ν) (x : Nat) (sets : Sets ID) (neighbor : ν) :
    AStarM ν D (Sets ID) := do
  let id := graph.getID neighbor
  match sets.closeSet.get compare id with
  | some _ => return sets
  | none =>
    let s ← get
    let g := dist.add (s.nodes x).g (graph.calculateManhattanDistance (s.nodes x).node neighbor)
    match sets.openSet.get compare id with
    | none =>
      let n ← discover dist x neighbor g (graph.calculateManhattanDistance neighbor target)
      return { sets with openSet := (sets.openSet.putWith compare .allowDuplicate id (some n)).2 }
    | some n =>
      if dist.less g (s.nodes n).g then
        assign n fun star => { star with
          cameFrom := some x, g, heuristic := graph.calculateManhattanDistance neighbor target }
        return sets
      else return sets

def searchLoop (target : ν) : Nat → Sets ID → AStarM ν D (Option Nat)
  | 0, _ => throw (.abort "out of fuel")
  | fuel + 1, sets =>
    if 0 < sets.openSet.entries.length then do
      match ← poll dist with
      | none => throw (.abort "null pointer")
      | some x =>
        let s ← get
        let id := graph.getID (s.nodes x).node
        let openSet := (sets.openSet.drop compare id).2
        if compare id (graph.getID target) = 0 then return some x
        else
          let closeSet := (sets.closeSet.putWith compare .allowDuplicate id (some x)).2
          let sets ← (graph.getNeighbors (s.nodes x).node).foldlM
            (visitNeighbor graph dist compare target x) ⟨openSet, closeSet⟩
          searchLoop target fuel sets
    else return none

def searchPath (fuel : Nat) (source target : ν) : AStarM ν D (Option (List ν)) := do
  let start ← create source dist.zero (graph.calculateManhattanDistance source target)
  let empty : VectorMap ID (Option Nat) := { entries := [], nullValue := none }
  let openSet := (empty.putWith compare .allowDuplicate (graph.getID source) (some start)).2
  enqueue dist start
  let goal ← searchLoop graph dist compare target fuel ⟨openSet, empty⟩
  pathTo fuel goal

def search (fuel : Nat) (source target : ν) : Except Exception (Option (List ν)) :=
  match searchPath graph dist compare fuel source target (.empty dist source) with
  | .ok path _ => .ok path
  | .error e _ => .error e

end AStarAlgorithm

structure Triangulation (ν P D : Type) where
  getID : ν → UInt32
  getNeighbors : ν → List (Option ν)
  getSharedVertices : ν → ν → P × P
  getClosestPoint : P → P → P → P
  distanceTo : P → P → D

namespace TriangulationAStarAlgorithm

open AStarMemory

def compare (val1 val2 : UInt32) : Int :=
  if val1 < val2 then 1 else if val1 > val2 then -1 else 0

variable {P : Type} (mesh : Triangulation ν P D) (dist : Distances D) (startPoint goalPoint : P)

def visitNeighbor (x : Nat) (visited : VectorMap UInt32 (Option Nat)) :
    Option ν → AStarM ν D (VectorMap UInt32 (Option Nat))
  | none => return visited
  | some neighbor =>
    if visited.contains compare (mesh.getID neighbor) then return visited
    else do
      let s ← get
      let points := mesh.getSharedVertices (s.nodes x).node neighbor
      let h := mesh.distanceTo (mesh.getClosestPoint points.1 points.2 goalPoint) goalPoint
      let distEA := mesh.distanceTo (mesh.getClosestPoint points.1 points.2 startPoint) startPoint
      let g := dist.max (dist.max (s.nodes x).g distEA)
        (dist.add (s.nodes x).g (dist.sub (s.nodes x).heuristic h))
      let n ← discover dist x neighbor g h
      return (visited.putWith compare .noDuplicate (mesh.getID neighbor) (some n)).2

def searchLoop [DecidableEq ν] (target : ν) :
    Nat → VectorMap UInt32 (Option Nat) → AStarM ν D (Option Nat)
  | 0, _ => throw (.abort "out of fuel")
  | fuel + 1, visited => do
    let s ← get
    if s.priorityQueue.root = none then return none
    else
      match ← poll dist with
      | none => throw (.abort "null pointer")
      | some x =>
        let s ← get
        if target = (s.nodes x).node then return some x
        else
          let visited ← (mesh.getNeighbors (s.nodes x).node).foldlM
            (visitNeighbor mesh dist startPoint goalPoint x) visited
          searchLoop target fuel visited

def searchPath [DecidableEq ν] (fuel : Nat) (source target : ν) :
    AStarM ν D (Option (List ν)) := do
  let start ← create source dist.zero (mesh.distanceTo startPoint goalPoint)
  let empty : VectorMap UInt32 (Option Nat) := { entries := [], nullValue := none }
  let visited := (empty.putWith compare .noDuplicate (mesh.getID source) (some start)).2
  enqueue dist start
  let goal ← searchLoop mesh dist startPoint goalPoint target fuel visited
  pathTo fuel goal

def search [DecidableEq ν] (fuel : Nat) (source target : ν) :
    Except Exception (Option (List ν)) :=
  match searchPath mesh dist startPoint goalPoint fuel source target (.empty dist source) with
  | .ok path _ => .ok path
  | .error (.abort message) _ => .error (.abort message)
  | .error _ _ => .ok none

end TriangulationAStarAlgorithm

end Engine3
