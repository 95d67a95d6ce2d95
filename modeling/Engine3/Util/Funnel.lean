import Engine3.Util.Triangle
import Mathlib.Data.List.Chain

/-!
# The funnel of a channel of triangles

`engine/util/u3d/Funnel`. When a corner is added the scan goes back to the portal the corner
belongs to. Every scan begins behind the portal of the last corner and first moves both sides of
the funnel, so the next corner belongs to a later portal.
-/
namespace Engine3

open List

variable {K : Type} [CommRing K] [LinearOrder K]

namespace Funnel

open Triangle

structure Scan (K : Type) where
  path : List (Vector3 K)
  apexIndex : Nat
  leftIndex : Nat
  rightIndex : Nat
  portalApex : Vector3 K
  portalLeft : Vector3 K
  portalRight : Vector3 K
  i : Nat

def Scan.restart (corner : Vector3 K) (index : Nat) (s : Scan K) : Scan K where
  path := s.path ++ [corner]
  apexIndex := index
  leftIndex := index
  rightIndex := index
  portalApex := corner
  portalLeft := corner
  portalRight := corner
  i := index + 1

def Scan.updateLeft (left : Vector3 K) (s : Scan K) : Scan K :=
  if 0 ≤ area2D s.portalApex s.portalLeft left then
    if s.portalApex = s.portalLeft ∨ area2D s.portalApex s.portalRight left < 0 then
      { s with portalLeft := left, leftIndex := s.i, i := s.i + 1 }
    else s.restart s.portalRight s.rightIndex
  else { s with i := s.i + 1 }

def Scan.update (left right : Vector3 K) (s : Scan K) : Scan K :=
  if area2D s.portalApex s.portalRight right ≤ 0 then
    if s.portalApex = s.portalRight ∨ 0 < area2D s.portalApex s.portalLeft right then
      { s with portalRight := right, rightIndex := s.i }.updateLeft left
    else s.restart s.portalLeft s.leftIndex
  else s.updateLeft left

def portal (triangleChannel : List (Triangle K)) (goalPoint : Vector3 K) (i : Nat) :
    Except Exception (Vector3 K × Vector3 K) :=
  if i = triangleChannel.length - 1 then return (goalPoint, goalPoint)
  else
    match triangleChannel[i]?, triangleChannel[i + 1]? with
    | some t, some next => do
      return (← t.getLeftSharedVertex next, ← t.getRightSharedVertex next)
    | _, _ => throw (.arrayIndexOutOfBounds i)

def loop (triangleChannel : List (Triangle K)) (goalPoint : Vector3 K) :
    Nat → Scan K → Except Exception (List (Vector3 K))
  | 0, _ => throw (.abort "out of fuel")
  | fuel + 1, s =>
    if s.i < triangleChannel.length then do
      let (left, right) ← portal triangleChannel goalPoint s.i
      loop triangleChannel goalPoint fuel (s.update left right)
    else return s.path ++ [goalPoint]

def funnel (fuel : Nat) (startPoint goalPoint : Vector3 K) (triangleChannel : List (Triangle K)) :
    Except Exception (List (Vector3 K)) :=
  loop triangleChannel goalPoint fuel
    { path := [startPoint], apexIndex := 0, leftIndex := 0, rightIndex := 0
      portalApex := startPoint, portalLeft := startPoint, portalRight := startPoint, i := 0 }

/-! ### What a round does -/

section Rounds

variable (IsEnd : Nat → Vector3 K → Prop) (startPoint : Vector3 K)

structure Moved (base round index : Nat) (v : Vector3 K) : Prop where
  low : base ≤ index
  high : index < round
  isEnd : IsEnd index v

def Sides (base : Nat) (s : Scan K) : Prop :=
  (s.i = base ∧ s.portalLeft = s.portalApex ∧ s.portalRight = s.portalApex) ∨
    (Moved IsEnd base s.i s.leftIndex s.portalLeft ∧
      Moved IsEnd base s.i s.rightIndex s.portalRight)

structure Cornered (base : Nat) (corners : List (Nat × Vector3 K)) (path : List (Vector3 K)) :
    Prop where
  path : path = startPoint :: corners.map Prod.snd
  isEnd : ∀ c ∈ corners, IsEnd c.1 c.2
  sorted : (corners.map Prod.fst).Pairwise (· < ·)
  below : ∀ c ∈ corners, c.1 < base

def Goes (base round : Nat) (s : Scan K) : Prop :=
  ∃ base' corners, Cornered IsEnd startPoint base' corners s.path ∧ Sides IsEnd base' s ∧
    base' ≤ s.i ∧ (base' = base ∧ s.i = round + 1 ∨ base < base')

end Rounds

variable {IsEnd : Nat → Vector3 K → Prop} {startPoint : Vector3 K} {base round index : Nat}
  {corners : List (Nat × Vector3 K)} {s : Scan K} {left right v : Vector3 K}

omit [CommRing K] [LinearOrder K] in
theorem Cornered.restart (cornered : Cornered IsEnd startPoint base corners s.path)
    (moved : Moved IsEnd base (round + 1) index v) :
    Goes IsEnd startPoint base round (s.restart v index) := by
  obtain ⟨path, isEnd, sorted, below⟩ := cornered
  obtain ⟨low, high, ends⟩ := moved
  refine ⟨index + 1, corners ++ [(index, v)], ⟨?_, ?_, ?_, ?_⟩, .inl ⟨rfl, rfl, rfl⟩, Nat.le_refl _,
    .inr (Nat.lt_succ_of_le low)⟩
  · rw [Scan.restart, path, map_append]
    rfl
  · rw [forall_mem_append, forall_mem_singleton]
    exact ⟨isEnd, ends⟩
  · rw [map_append, pairwise_append]
    refine ⟨sorted, pairwise_singleton _ _, ?_⟩
    simp only [mem_map, map_cons, map_nil, mem_singleton, forall_eq]
    rintro _ ⟨c, mem, rfl⟩
    exact Nat.lt_of_lt_of_le (below c mem) low
  · intro c mem
    rcases mem_append.mp mem with earlier | new
    · exact Nat.lt_succ_of_lt (Nat.lt_of_lt_of_le (below c earlier) low)
    · rw [mem_singleton.mp new]
      exact Nat.lt_succ_self index

theorem Cornered.updateLeft (cornered : Cornered IsEnd startPoint base corners s.path)
    (hin : base ≤ s.i) (isLeft : IsEnd s.i left)
    (atLeft : s.portalLeft = s.portalApex ∨ Moved IsEnd base s.i s.leftIndex s.portalLeft)
    (atRight : Moved IsEnd base (s.i + 1) s.rightIndex s.portalRight) :
    Goes IsEnd startPoint base s.i (s.updateLeft left) := by
  rw [Scan.updateLeft]
  split
  · split
    · have moved : Moved IsEnd base (s.i + 1) s.i left := ⟨hin, Nat.lt_succ_self _, isLeft⟩
      exact ⟨base, corners, cornered, .inr ⟨moved, atRight⟩, Nat.le_succ_of_le hin,
        .inl ⟨rfl, rfl⟩⟩
    · exact cornered.restart atRight
  next out =>
    -- a funnel that is closed on the left is opened in any case
    rcases atLeft with closed | ⟨low, high, isEnd⟩
    · rw [closed, area2D_self] at out
      exact absurd (le_refl 0) out
    · exact ⟨base, corners, cornered, .inr ⟨⟨low, Nat.lt_succ_of_lt high, isEnd⟩, atRight⟩,
        Nat.le_succ_of_le hin, .inl ⟨rfl, rfl⟩⟩

theorem Cornered.update (cornered : Cornered IsEnd startPoint base corners s.path)
    (sides : Sides IsEnd base s) (hin : base ≤ s.i) (isLeft : IsEnd s.i left)
    (isRight : IsEnd s.i right) : Goes IsEnd startPoint base s.i (s.update left right) := by
  have moved : Moved IsEnd base (s.i + 1) s.i right := ⟨hin, Nat.lt_succ_self _, isRight⟩
  have tighten (atLeft : s.portalLeft = s.portalApex ∨
      Moved IsEnd base s.i s.leftIndex s.portalLeft) :
      Goes IsEnd startPoint base s.i
        ({ s with portalRight := right, rightIndex := s.i }.updateLeft left) :=
    Cornered.updateLeft (s := { s with portalRight := right, rightIndex := s.i }) cornered hin
      isLeft atLeft moved
  rw [Scan.update]
  rcases sides with ⟨-, closedLeft, closedRight⟩ | ⟨atLeft, low, high, isEnd⟩
  · rw [closedRight, area2D_self, if_pos (le_refl 0), if_pos (.inl rfl)]
    exact tighten (.inl closedLeft)
  · split
    · split
      · exact tighten (.inr atLeft)
      · exact cornered.restart ⟨atLeft.low, Nat.lt_succ_of_lt atLeft.high, atLeft.isEnd⟩
    · exact cornered.updateLeft hin isLeft (.inr atLeft) ⟨low, Nat.lt_succ_of_lt high, isEnd⟩

/-! ### Whole runs -/

def IsEndpoint (triangleChannel : List (Triangle K)) (goalPoint : Vector3 K) (k : Nat)
    (v : Vector3 K) : Prop :=
  (k + 1 = triangleChannel.length ∧ v = goalPoint) ∨
    ∃ t next, triangleChannel[k]? = some t ∧ triangleChannel[k + 1]? = some next ∧
      t.IsShared next v ∧ (t.getLeftSharedVertex next = .ok v ∨ t.getRightSharedVertex next = .ok v)

/-- A path over ends of portals, each behind that of the corner before. -/
def IsFunnelPath (triangleChannel : List (Triangle K)) (startPoint goalPoint : Vector3 K)
    (path : List (Vector3 K)) : Prop :=
  ∃ corners : List (Nat × Vector3 K), path = startPoint :: corners.map Prod.snd ++ [goalPoint] ∧
    (∀ c ∈ corners, IsEndpoint triangleChannel goalPoint c.1 c.2) ∧
    (corners.map Prod.fst).Pairwise (· < ·)

variable {triangleChannel : List (Triangle K)} (shares : triangleChannel.IsChain Shares)
include shares

theorem portal_spec (goalPoint : Vector3 K) {i : Nat} (hin : i < triangleChannel.length) :
    ∃ left right, portal triangleChannel goalPoint i = .ok (left, right) ∧
      IsEndpoint triangleChannel goalPoint i left ∧
      IsEndpoint triangleChannel goalPoint i right := by
  rw [portal]
  split
  next last => exact ⟨_, _, rfl, .inl ⟨by omega, rfl⟩, .inl ⟨by omega, rfl⟩⟩
  next =>
    have next : i + 1 < triangleChannel.length := by omega
    obtain ⟨left, right, isLeft, isRight, sharedLeft, sharedRight⟩ :=
      (isChain_iff_getElem.mp shares i next).vertices
    have here := getElem?_eq_getElem hin
    have there := getElem?_eq_getElem next
    refine ⟨left, right, ?_, .inr ⟨_, _, here, there, sharedLeft, .inl isLeft⟩,
      .inr ⟨_, _, here, there, sharedRight, .inr isRight⟩⟩
    simp only [here, there, isLeft, isRight]
    rfl

theorem loop_spec (goalPoint : Vector3 K) (fuel : Nat) (s : Scan K) (base : Nat)
    (corners : List (Nat × Vector3 K))
    (cornered : Cornered (IsEndpoint triangleChannel goalPoint) startPoint base corners s.path)
    (sides : Sides (IsEndpoint triangleChannel goalPoint) base s) (hin : base ≤ s.i)
    (le : (triangleChannel.length - base) * (triangleChannel.length + 1) +
      (triangleChannel.length - s.i) < fuel) :
    ∃ path, loop triangleChannel goalPoint fuel s = .ok path ∧
      IsFunnelPath triangleChannel startPoint goalPoint path := by
  induction fuel generalizing s base corners with
  | zero => omega
  | succ fuel ih =>
    rw [loop]
    split
    next more =>
      obtain ⟨left, right, got, isLeft, isRight⟩ := portal_spec shares goalPoint more
      obtain ⟨base', corners', cornered', sides', hin', going⟩ :=
        cornered.update sides hin isLeft isRight
      simp only [got]
      refine ih (s.update left right) base' corners' cornered' sides' hin' ?_
      rcases going with ⟨rfl, next⟩ | later
      · omega
      · have fewer : (triangleChannel.length - base') * (triangleChannel.length + 1) +
            (triangleChannel.length + 1) ≤
              (triangleChannel.length - base) * (triangleChannel.length + 1) := by
          rw [← Nat.succ_mul]
          exact Nat.mul_le_mul_right _ (by omega)
        omega
    next => exact ⟨_, rfl, corners, by rw [cornered.path], cornered.isEnd, cornered.sorted⟩

omit shares

/-- The funnel ends with a path from the start over ends of portals to the goal. -/
theorem funnel_spec (triangleChannel : List (Triangle K))
    (shares : triangleChannel.IsChain Shares) (startPoint goalPoint : Vector3 K) (fuel : Nat)
    (enough : (triangleChannel.length + 1) * (triangleChannel.length + 1) ≤ fuel) :
    ∃ path, funnel fuel startPoint goalPoint triangleChannel = .ok path ∧
      IsFunnelPath triangleChannel startPoint goalPoint path := by
  apply loop_spec shares goalPoint fuel _ 0 []
  · exact ⟨rfl, by simp, Pairwise.nil, by simp⟩
  · exact .inl ⟨rfl, rfl, rfl⟩
  · exact Nat.le_refl 0
  · rw [Nat.succ_mul] at enough
    exact Nat.lt_of_lt_of_le (Nat.add_lt_add_left (Nat.lt_succ_self _) _) enough

def bend : List (Triangle Int) :=
  [⟨fun | 0 => ⟨0, 0, 0⟩ | 1 => ⟨4, 0, 0⟩ | 2 => ⟨4, 0, 4⟩⟩,
    ⟨fun | 0 => ⟨4, 0, 0⟩ | 1 => ⟨4, 0, 4⟩ | 2 => ⟨8, 0, 4⟩⟩]

theorem funnel_spec_bend :
    funnel 9 ⟨1, 0, 0⟩ ⟨5, 0, 9⟩ bend = .ok [⟨1, 0, 0⟩, ⟨4, 0, 4⟩, ⟨5, 0, 9⟩] ∧
      IsFunnelPath bend ⟨1, 0, 0⟩ ⟨5, 0, 9⟩ [⟨1, 0, 0⟩, ⟨4, 0, 4⟩, ⟨5, 0, 9⟩] := by
  have ran : funnel 9 ⟨1, 0, 0⟩ ⟨5, 0, 9⟩ bend = .ok [⟨1, 0, 0⟩, ⟨4, 0, 4⟩, ⟨5, 0, 9⟩] := by
    decide +kernel
  obtain ⟨path, ran', isPath⟩ := funnel_spec bend (by decide +kernel) ⟨1, 0, 0⟩ ⟨5, 0, 9⟩ 9
    (by decide)
  obtain rfl := Except.ok.inj (ran.symm.trans ran')
  exact ⟨ran, isPath⟩

end Funnel

end Engine3
