import Engine3.System.SortedVector
import Engine3.Util.Triangle
import Mathlib.Algebra.Order.Field.Basic
import Mathlib.Tactic.FieldSimp
import Mathlib.Tactic.Linarith
import Mathlib.Tactic.LinearCombination

/-!
# Rays through a tree of boxes

`engine/util/u3d/AABBTree`, `AABB`, `Ray` and `Triangle::intersects`, with exact arithmetic in
any ordered field. The box of a node encloses the triangles below it, so a ray that hits one of
them passes through the boxes on the way to it.
-/
namespace Engine3

open List

variable {K ι : Type} [LinearOrder K]

def Vector3.getMin (a b : Vector3 K) : Vector3 K := ⟨min a.x b.x, min a.y b.y, min a.z b.z⟩

def Vector3.getMax (a b : Vector3 K) : Vector3 K := ⟨max a.x b.x, max a.y b.y, max a.z b.z⟩

structure AABB (K : Type) where
  mBounds : Bool → Vector3 K

namespace AABB

omit [LinearOrder K] in
def new (boxmin boxmax : Vector3 K) : AABB K := ⟨fun upper => if upper then boxmax else boxmin⟩

def encompass (box encbox : AABB K) : AABB K :=
  new ((box.mBounds false).getMin (encbox.mBounds false))
    ((box.mBounds true).getMax (encbox.mBounds true))

def Encloses (box : AABB K) (p : Vector3 K) : Prop :=
  ((box.mBounds false).x ≤ p.x ∧ p.x ≤ (box.mBounds true).x) ∧
    ((box.mBounds false).y ≤ p.y ∧ p.y ≤ (box.mBounds true).y) ∧
    ((box.mBounds false).z ≤ p.z ∧ p.z ≤ (box.mBounds true).z)

theorem encloses_encompass {box encbox : AABB K} {p : Vector3 K}
    (encloses : box.Encloses p ∨ encbox.Encloses p) : (box.encompass encbox).Encloses p := by
  rcases encloses with ⟨⟨x, x'⟩, ⟨y, y'⟩, z, z'⟩ | ⟨⟨x, x'⟩, ⟨y, y'⟩, z, z'⟩
  · exact ⟨⟨min_le_of_left_le x, le_max_of_le_left x'⟩,
      ⟨min_le_of_left_le y, le_max_of_le_left y'⟩, min_le_of_left_le z, le_max_of_le_left z'⟩
  · exact ⟨⟨min_le_of_right_le x, le_max_of_le_right x'⟩,
      ⟨min_le_of_right_le y, le_max_of_le_right y'⟩, min_le_of_right_le z, le_max_of_le_right z'⟩

end AABB

variable [Field K]

/-! ### Rays and triangles -/

namespace Vector3

instance : Add (Vector3 K) := ⟨fun a b => ⟨a.x + b.x, a.y + b.y, a.z + b.z⟩⟩

instance : Sub (Vector3 K) := ⟨fun a b => ⟨a.x - b.x, a.y - b.y, a.z - b.z⟩⟩

def scale (v : Vector3 K) (scalar : K) : Vector3 K :=
  ⟨v.x * scalar, v.y * scalar, v.z * scalar⟩

def dotProduct (a b : Vector3 K) : K := a.x * b.x + a.y * b.y + a.z * b.z

def crossProduct (a b : Vector3 K) : Vector3 K :=
  ⟨a.y * b.z - a.z * b.y, a.z * b.x - a.x * b.z, a.x * b.y - a.y * b.x⟩

def get (v : Vector3 K) : Fin 3 → K
  | 0 => v.x
  | 1 => v.y
  | 2 => v.z

end Vector3

structure Ray (K : Type) where
  origin : Vector3 K
  direction : Vector3 K
  invDirection : Vector3 K
  sign : Vector3 Bool

def Ray.point (r : Ray K) (s : K) : Vector3 K := r.origin + r.direction.scale s

def Ray.new (o d : Vector3 K) : Ray K where
  origin := o
  direction := d
  invDirection := ⟨1 / d.x, 1 / d.y, 1 / d.z⟩
  sign := ⟨1 / d.x < 0, 1 / d.y < 0, 1 / d.z < 0⟩

namespace AABB

def errorMetric (box : AABB K) : K :=
  let v := (⟨1, 1, 1⟩ : Vector3 K) + (box.mBounds true - box.mBounds false)
  v.dotProduct v

def longestAxis (box : AABB K) : Fin 3 :=
  let boxdim := box.mBounds true - box.mBounds false
  ((finRange 3).foldl (fun (best : Fin 3 × K) ii =>
    if boxdim.get ii > best.2 then (ii, boxdim.get ii) else best) (0, 0)).1

def overlap (tmin tmax tymin tymax tzmin tzmax t0 t1 : K) : Bool :=
  if tmin > tymax then false
  else if tymin > tmax then false
  else
    let tmin := if tymin > tmin then tymin else tmin
    let tmax := if tymax < tmax then tymax else tmax
    if tmin > tzmax ∨ tzmin > tmax then false
    else
      let tmin := if tzmin > tmin then tzmin else tmin
      let tmax := if tzmax < tmax then tzmax else tmax
      tmin < t1 && tmax > t0

def intersects (box : AABB K) (r : Ray K) (t0 t1 : K) : Bool :=
  overlap (((box.mBounds r.sign.x).x - r.origin.x) * r.invDirection.x)
    (((box.mBounds !r.sign.x).x - r.origin.x) * r.invDirection.x)
    (((box.mBounds r.sign.y).y - r.origin.y) * r.invDirection.y)
    (((box.mBounds !r.sign.y).y - r.origin.y) * r.invDirection.y)
    (((box.mBounds r.sign.z).z - r.origin.z) * r.invDirection.z)
    (((box.mBounds !r.sign.z).z - r.origin.z) * r.invDirection.z) t0 t1

end AABB

namespace Triangle

def midPoint (t : Triangle K) : Vector3 K :=
  (t.verts 0 + t.verts 2 + t.verts 1).scale (1 / 3)

def triAABB (t : Triangle K) : AABB K :=
  .new (((t.verts 0).getMin (t.verts 2)).getMin (t.verts 1))
    (((t.verts 0).getMax (t.verts 2)).getMax (t.verts 1))

def localEpsilon : K := 1 / 8388608

def intersects (t : Triangle K) (ray : Ray K) (maxDistance : K) : Option K :=
  let vert0 := t.verts 0
  let edge1 := t.verts 2 - vert0
  let edge2 := t.verts 1 - vert0
  let pvec := ray.direction.crossProduct edge2
  let det := edge1.dotProduct pvec
  if det > -localEpsilon ∧ det < localEpsilon then none
  else
    let oneOverDet := 1 / det
    let tvec := ray.origin - vert0
    let mU := tvec.dotProduct pvec * oneOverDet
    if mU < 0 ∨ mU > 1 then none
    else
      let qvec := tvec.crossProduct edge1
      let mV := ray.direction.dotProduct qvec * oneOverDet
      if mV < 0 ∨ mU + mV > 1 then none
      else
        let mDistance := edge2.dotProduct qvec * oneOverDet
        if mDistance < 0 then none
        else if mDistance ≤ maxDistance then some mDistance
        else none

end Triangle

/-! ### The tree -/

def AABB.ofTriangles (mesh : ι → Triangle K) (triangles : List ι) : AABB K :=
  match triangles with
  | [] => .new ⟨0, 0, 0⟩ ⟨0, 0, 0⟩
  | first :: _ =>
    triangles.foldl (fun box t => box.encompass (mesh t).triAABB) (mesh first).triAABB

structure AABBTreeHeuristic (K : Type) where
  maxdepth : UInt8
  mintricnt : UInt32
  tartricnt : UInt32
  minerror : K
  storePrimitives : Bool

inductive AABBNode (K ι : Type)
  | leaf (mBox : AABB K) (mTriangles : List ι)
  | inner (mBox : AABB K) (first second : AABBNode K ι)

namespace AABBNode

def build (mesh : ι → Triangle K) (heurdata : AABBTreeHeuristic K) :
    Nat → List ι → AABBNode K ι
  | levels, trilist =>
    let mBox := AABB.ofTriangles mesh trilist
    let stored := leaf mBox (if heurdata.storePrimitives then trilist else [])
    match levels with
    | 0 => stored
    | levels + 1 =>
      if heurdata.mintricnt.toInt32.toInt < trilist.length ∧
          (heurdata.tartricnt.toInt32.toInt < trilist.length ∨
            heurdata.minerror < mBox.errorMetric) then
        let longaxis := mBox.longestAxis
        let geoavg := trilist.foldl (fun geoavg t =>
          geoavg + (mesh t).midPoint.scale (1 / (trilist.length : K))) ⟨0, 0, 0⟩
        let low := fun t => decide (geoavg.get longaxis > (mesh t).midPoint.get longaxis)
        inner mBox (build mesh heurdata levels (trilist.filter fun t => !low t))
          (build mesh heurdata levels (trilist.filter low))
      else stored

def new (mesh : ι → Triangle K) (trilist : List ι) (depth : Int)
    (heurdata : AABBTreeHeuristic K) : AABBNode K ι :=
  build mesh heurdata (heurdata.maxdepth.toNat - depth).toNat trilist

end AABBNode

def IntersectionResult.compareTo (a b : K × ι) : Int :=
  if a.1 < b.1 then 1 else if a.1 > b.1 then -1 else 0

def AABBNode.intersects (mesh : ι → Triangle K) (ray : Ray K) (maxDistance : K) :
    AABBNode K ι → List (K × ι) → List (K × ι)
  | leaf mBox mTriangles, result =>
    if mBox.intersects ray 0 maxDistance then
      mTriangles.foldl (fun result t =>
        match (mesh t).intersects ray maxDistance with
        | some distance =>
          (SortedVector.put IntersectionResult.compareTo .allowDuplicate (distance, t) result).1
        | none => result) result
    else result
  | inner mBox first second, result =>
    if mBox.intersects ray 0 maxDistance then
      second.intersects mesh ray maxDistance (first.intersects mesh ray maxDistance result)
    else result

/-! ### A triangle that is hit is passed by its boxes -/

theorem AABB.encloses_ofTriangles {mesh : ι → Triangle K} {triangles : List ι} {t : ι}
    {p : Vector3 K} (mem : t ∈ triangles) (encloses : (mesh t).triAABB.Encloses p) :
    (ofTriangles mesh triangles).Encloses p := by
  have grows (rest : List ι) (box : AABB K) (hin : box.Encloses p ∨ t ∈ rest) :
      (rest.foldl (fun box t => box.encompass (mesh t).triAABB) box).Encloses p := by
    induction rest generalizing box with
    | nil => exact hin.resolve_right (by simp)
    | cons u rest ih =>
      apply ih
      rcases hin with hin | hin
      · exact .inl (encloses_encompass (.inl hin))
      · rcases mem_cons.mp hin with rfl | later
        · exact .inl (encloses_encompass (.inr encloses))
        · exact .inr later
  cases triangles with
  | nil => cases mem
  | cons first rest => exact grows _ _ (.inr mem)

variable [IsStrictOrderedRing K]

theorem AABB.overlap_of_between {tmin tmax tymin tymax tzmin tzmax t0 t1 s : K} (x : tmin ≤ s)
    (x' : s ≤ tmax) (y : tymin ≤ s) (y' : s ≤ tymax) (z : tzmin ≤ s) (z' : s ≤ tzmax)
    (after : t0 < s) (before : s < t1) :
    overlap tmin tmax tymin tymax tzmin tzmax t0 t1 = true := by
  unfold overlap
  grind

theorem AABB.slab (bound : Bool → K) {o d s : K} (moves : d ≠ 0) (low : bound false ≤ o + d * s)
    (high : o + d * s ≤ bound true) :
    (bound (decide (1 / d < 0)) - o) * (1 / d) ≤ s ∧
      s ≤ (bound (!decide (1 / d < 0)) - o) * (1 / d) := by
  rw [mul_one_div, mul_one_div]
  rcases lt_or_gt_of_ne moves with neg | pos
  · rw [decide_eq_true (one_div_neg.mpr neg), div_le_iff_of_neg neg,
      le_div_iff_of_neg neg, Bool.not_true]
    constructor <;> linarith
  · rw [decide_eq_false (not_lt.mpr (one_div_nonneg.mpr pos.le)), div_le_iff₀ pos,
      le_div_iff₀ pos, Bool.not_false]
    constructor <;> linarith

theorem AABB.intersects_of_encloses {box : AABB K} {o d : Vector3 K} {s t0 t1 : K}
    (dx : d.x ≠ 0) (dy : d.y ≠ 0) (dz : d.z ≠ 0) (encloses : box.Encloses ((Ray.new o d).point s))
    (after : t0 < s) (before : s < t1) : box.intersects (Ray.new o d) t0 t1 = true := by
  obtain ⟨⟨x, x'⟩, ⟨y, y'⟩, z, z'⟩ := encloses
  obtain ⟨x, x'⟩ := slab (fun upper => (box.mBounds upper).x) (o := o.x) dx x x'
  obtain ⟨y, y'⟩ := slab (fun upper => (box.mBounds upper).y) (o := o.y) dy y y'
  obtain ⟨z, z'⟩ := slab (fun upper => (box.mBounds upper).z) (o := o.z) dz z z'
  exact overlap_of_between x x' y y' z z' after before

theorem convex_bounds {p a b c u v : K} (hu : 0 ≤ u) (hv : 0 ≤ v) (huv : u + v ≤ 1)
    (point : p = a + u * (b - a) + v * (c - a)) :
    min (min a b) c ≤ p ∧ p ≤ max (max a b) c := by
  have lower (m : K) (ha : m ≤ a) (hb : m ≤ b) (hc : m ≤ c) : m ≤ p := by
    linarith [mul_nonneg (sub_nonneg.mpr huv) (sub_nonneg.mpr ha),
      mul_nonneg hu (sub_nonneg.mpr hb), mul_nonneg hv (sub_nonneg.mpr hc)]
  have upper (m : K) (ha : a ≤ m) (hb : b ≤ m) (hc : c ≤ m) : p ≤ m := by
    linarith [mul_nonneg (sub_nonneg.mpr huv) (sub_nonneg.mpr ha),
      mul_nonneg hu (sub_nonneg.mpr hb), mul_nonneg hv (sub_nonneg.mpr hc)]
  exact ⟨lower _ (by simp) (by simp) (by simp), upper _ (by simp) (by simp) (by simp)⟩

theorem Triangle.meets (o d a b c : Vector3 K)
    (det : (b - a).dotProduct (d.crossProduct (c - a)) ≠ 0) :
    let p := d.crossProduct (c - a)
    let q := (o - a).crossProduct (b - a)
    let r := 1 / (b - a).dotProduct p
    let u := (o - a).dotProduct p * r
    let v := d.dotProduct q * r
    let s := (c - a).dotProduct q * r
    o.x + d.x * s = a.x + u * (b.x - a.x) + v * (c.x - a.x) ∧
      o.y + d.y * s = a.y + u * (b.y - a.y) + v * (c.y - a.y) ∧
      o.z + d.z * s = a.z + u * (b.z - a.z) + v * (c.z - a.z) := by
  have sub (u v : Vector3 K) : u - v = ⟨u.x - v.x, u.y - v.y, u.z - v.z⟩ := rfl
  have divide {D o d S a U V e f : K} (nonzero : D ≠ 0)
      (scaled : o * D + d * S = a * D + U * e + V * f) :
      o + d * (S * (1 / D)) = a + U * (1 / D) * e + V * (1 / D) * f := by
    field_simp
    linear_combination scaled
  refine ⟨divide det ?_, divide det ?_, divide det ?_⟩ <;>
    simp only [sub, Vector3.dotProduct, Vector3.crossProduct] <;> ring

theorem Triangle.encloses_of_intersects {t : Triangle K} {ray : Ray K} {maxDistance s : K}
    (hit : t.intersects ray maxDistance = some s) : t.triAABB.Encloses (ray.point s) := by
  simp only [intersects] at hit
  split at hit
  · cases hit
  split at hit
  · cases hit
  split at hit
  · cases hit
  split at hit
  · cases hit
  split at hit
  next steep uInside vInside _ _ =>
    obtain rfl := Option.some.inj hit
    rw [not_or, not_lt, not_lt] at uInside vInside
    have lt : (0 : K) < localEpsilon := by norm_num [localEpsilon]
    have det : (t.verts 2 - t.verts 0).dotProduct
        (ray.direction.crossProduct (t.verts 1 - t.verts 0)) ≠ 0 := by
      intro zero
      rw [zero] at steep
      exact steep ⟨neg_lt_zero.mpr lt, lt⟩
    obtain ⟨x, y, z⟩ := meets ray.origin ray.direction (t.verts 0) (t.verts 2) (t.verts 1) det
    exact ⟨convex_bounds uInside.1 vInside.1 vInside.2 x,
      convex_bounds uInside.1 vInside.1 vInside.2 y, convex_bounds uInside.1 vInside.1 vInside.2 z⟩
  · cases hit

/-! ### The tree and the list -/

omit [IsStrictOrderedRing K] in
def hits (mesh : ι → Triangle K) (ray : Ray K) (maxDistance : K) (trilist : List ι) :
    List (K × ι) :=
  trilist.filterMap fun t => ((mesh t).intersects ray maxDistance).map (·, t)

def between (maxDistance : K) (result : K × ι) : Bool := 0 < result.1 && result.1 < maxDistance

variable {mesh : ι → Triangle K} {maxDistance : K} {trilist : List ι} {result : List (K × ι)}

def Collects (mesh : ι → Triangle K) (ray : Ray K) (maxDistance : K) (trilist : List ι)
    (result result' : List (K × ι)) : Prop :=
  ∃ found, result'.Perm (found ++ result) ∧ found ⊆ hits mesh ray maxDistance trilist ∧
    (found.filter (between maxDistance)).Perm
      ((hits mesh ray maxDistance trilist).filter (between maxDistance))

omit [IsStrictOrderedRing K] in
theorem Collects.append {ray : Ray K} {first second : List ι} {result₁ result₂ : List (K × ι)}
    (collects₁ : Collects mesh ray maxDistance first result result₁)
    (collects₂ : Collects mesh ray maxDistance second result₁ result₂)
    (split : (first ++ second).Perm trilist) :
    Collects mesh ray maxDistance trilist result result₂ := by
  obtain ⟨found₁, added₁, hin₁, all₁⟩ := collects₁
  obtain ⟨found₂, added₂, hin₂, all₂⟩ := collects₂
  have both : (hits mesh ray maxDistance first ++ hits mesh ray maxDistance second).Perm
      (hits mesh ray maxDistance trilist) := by
    rw [hits, hits, ← filterMap_append]
    exact split.filterMap _
  refine ⟨found₁ ++ found₂, ?_, ?_, ?_⟩
  · refine added₂.trans ((added₁.append_left found₂).trans ?_)
    rw [← append_assoc]
    exact perm_append_comm.append_right result
  · exact Subset.trans (append_subset.mpr ⟨subset_append_of_subset_left _ hin₁,
      subset_append_of_subset_right _ hin₂⟩) both.subset
  · rw [filter_append]
    refine (all₁.append all₂).trans ?_
    rw [← filter_append]
    exact both.filter _

omit [IsStrictOrderedRing K] in
theorem foldl_put_perm (ray : Ray K) (result : List (K × ι)) :
    (trilist.foldl (fun result t =>
      match (mesh t).intersects ray maxDistance with
      | some distance =>
        (SortedVector.put IntersectionResult.compareTo .allowDuplicate (distance, t) result).1
      | none => result) result).Perm (hits mesh ray maxDistance trilist ++ result) := by
  induction trilist generalizing result with
  | nil => exact .refl _
  | cons t trilist ih =>
    rw [foldl_cons, hits, filterMap_cons]
    refine (ih _).trans ?_
    cases (mesh t).intersects ray maxDistance with
    | none => exact .refl _
    | some distance =>
      have added : (SortedVector.put IntersectionResult.compareTo .allowDuplicate (distance, t)
          result).1.Perm ((distance, t) :: result) := by
        unfold SortedVector.put
        split <;> exact SortedVector.insertElementAt_perm ..
      exact (added.append_left _).trans perm_middle

namespace AABBNode

variable {o d : Vector3 K} (dx : d.x ≠ 0) (dy : d.y ≠ 0) (dz : d.z ≠ 0)
include dx dy dz

theorem collects_missed
    (missed : ¬ (AABB.ofTriangles mesh trilist).intersects (Ray.new o d) 0 maxDistance = true) :
    Collects mesh (Ray.new o d) maxDistance trilist result result := by
  refine ⟨[], .refl _, nil_subset _, ?_⟩
  rw [filter_nil, nil_perm, filter_eq_nil_iff]
  intro r mem hin
  obtain ⟨t, listed, hit⟩ := mem_filterMap.mp mem
  obtain ⟨distance, met, rfl⟩ := Option.map_eq_some_iff.mp hit
  rw [between, Bool.and_eq_true, decide_eq_true_eq, decide_eq_true_eq] at hin
  exact missed (AABB.intersects_of_encloses dx dy dz
    (AABB.encloses_ofTriangles listed (Triangle.encloses_of_intersects met)) hin.1 hin.2)

theorem leaf_collects :
    Collects mesh (Ray.new o d) maxDistance trilist result
      ((leaf (AABB.ofTriangles mesh trilist) trilist).intersects mesh (Ray.new o d) maxDistance
        result) := by
  rw [intersects]
  split
  · exact ⟨_, foldl_put_perm _ result, Subset.refl _, .refl _⟩
  next missed => exact collects_missed dx dy dz missed

theorem build_collects (mesh : ι → Triangle K) (maxDistance : K) (o : Vector3 K)
    {heurdata : AABBTreeHeuristic K} (stores : heurdata.storePrimitives = true) (levels : Nat)
    (trilist : List ι) (result : List (K × ι)) :
    Collects mesh (Ray.new o d) maxDistance trilist result
      ((build mesh heurdata levels trilist).intersects mesh (Ray.new o d) maxDistance result) := by
  induction levels generalizing trilist result with
  | zero =>
    rw [build, if_pos stores]
    exact leaf_collects dx dy dz
  | succ levels ih =>
    rw [build, if_pos stores]
    split
    · rw [intersects]
      split
      · refine (ih _ result).append (ih _ _) ?_
        exact perm_append_comm.trans (filter_append_perm _ trilist)
      next missed => exact collects_missed dx dy dz missed
    · exact leaf_collects dx dy dz

/-- A ray that moves along every axis finds through the tree what it finds in the list. -/
theorem intersects_brute_force (mesh : ι → Triangle K) (heurdata : AABBTreeHeuristic K)
    (stores : heurdata.storePrimitives = true) (trilist : List ι) (depth : Int) (maxDistance : K) :
    let found := (new mesh trilist depth heurdata).intersects mesh (Ray.new o d) maxDistance []
    (found.filter (between maxDistance)).Perm
        ((hits mesh (Ray.new o d) maxDistance trilist).filter (between maxDistance)) ∧
      found ⊆ hits mesh (Ray.new o d) maxDistance trilist := by
  obtain ⟨found, added, hin, all⟩ := build_collects dx dy dz mesh maxDistance o
    stores (heurdata.maxdepth.toNat - depth).toNat trilist []
  rw [append_nil] at added
  exact ⟨(added.filter _).trans all, fun r mem => hin (added.subset mem)⟩

omit dx dy dz

def tilted : Triangle ℚ := ⟨fun | 0 => ⟨3, 0, 0⟩ | 1 => ⟨0, 3, 0⟩ | 2 => ⟨0, 0, 3⟩⟩

theorem intersects_brute_force_twice :
    (((new (fun _ => tilted) [(), ()] 0 ⟨1, 0, 0, 0, true⟩).intersects (fun _ => tilted)
      (Ray.new ⟨0, 0, 0⟩ ⟨1, 1, 1⟩) 2 []).filter (between 2)).Perm [(1, ()), (1, ())] := by
  obtain ⟨eq, -⟩ := intersects_brute_force (o := ⟨0, 0, 0⟩) (d := ⟨1, 1, 1⟩) (by decide)
    (by decide) (by decide) (fun _ : Unit => tilted) ⟨1, 0, 0, 0, true⟩ rfl [(), ()] 0 2
  have listed : (hits (fun _ => tilted) (Ray.new ⟨0, 0, 0⟩ ⟨1, 1, 1⟩) 2 [(), ()]).filter
      (between 2) = [(1, ()), (1, ())] := by decide +kernel
  rwa [listed] at eq

end AABBNode

end Engine3
