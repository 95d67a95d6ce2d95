import Mathlib.Data.Finset.Basic
import Engine3.Util.QuadTreeNodes

/-!
# Runs of a quad tree

Every sequence of insertions and removals, with queries in between. Objects may move while they
are not inserted. A query visits a subtree only if its box test passes; the objects it finds are
those of the tree that are in range.
-/
namespace Engine3

open Exec SortedVector BasicQuadTreeNode List

structure BasicQuadTree (ι : Type) where
  root : BasicQuadTreeNode ι
  entries : QuadTreeEntries ι
  position : ι → Point

namespace BasicQuadTree

variable {ι : Type} [DecidableEq ι]

def start (area : Area) (position : ι → Point) : BasicQuadTree ι :=
  { root := .node 0 area [] fun _ => .null
    entries := { node := fun _ => none, bounding := fun _ => false, nextAddress := 1 }
    position }

def onNodes (s : BasicQuadTree ι) (m : NodeM ι (BasicQuadTreeNode ι)) :
    Except Exception (BasicQuadTree ι) :=
  match m s.entries with
  | .error ex _ => .error ex
  | .ok root entries => .ok { s with root, entries }

def remove (compareTo : ι → ι → Int) (obj : ι) (s : BasicQuadTree ι) :
    Except Exception (BasicQuadTree ι) :=
  s.onNodes (BasicQuadTreeNode.remove compareTo obj s.root)

def removeIfInserted (compareTo : ι → ι → Int) (obj : ι) (s : BasicQuadTree ι) :
    Except Exception (BasicQuadTree ι) :=
  if s.entries.node obj ≠ none then s.remove compareTo obj else .ok s

def insert (compareTo : ι → ι → Int) (minSquareSize : Int) (obj : ι) (s : BasicQuadTree ι) :
    Except Exception (BasicQuadTree ι) := do
  let s ← s.removeIfInserted compareTo obj
  match s.root with
  | .null => .error (.abort "null pointer")
  | .node address area objects child =>
    s.onNodes (insertInto compareTo s.position minSquareSize (area.depth + 1)
      (.node address area objects child) obj)

def inRange (p : Point) (range : ℚ) (objects : List ι) (s : BasicQuadTree ι) : Nat × List ι :=
  s.root.inRange s.position p range objects

/-! ### Queries -/

section Queries

variable {κ : Type} [LinearOrder κ] {rank : ι → κ} {position : ι → Point} {minSquareSize : Int}
  {e : QuadTreeEntries ι}

def Inside (position : ι → Point) (area : Area) (x : ι) : Prop := area.testInside (position x)

def found (position : ι → Point) (p : Point) (range : ℚ) : BasicQuadTreeNode ι → List ι
  | .null => []
  | .node _ _ objects child =>
    objects.filter (fun o => (position o).isInRange p range) ++
      Quadrant.all.flatMap fun q =>
        if (child q).testInRange p range then found position p range (child q) else []

omit [DecidableEq ι] in
theorem inRange_eq (p : Point) (range : ℚ) (t : BasicQuadTreeNode ι) (objects : List ι) :
    t.inRange position p range objects =
      ((found position p range t).length, objects ++ found position p range t) := by
  induction t generalizing objects with
  | null => simp [BasicQuadTreeNode.inRange, found]
  | node address area own child ih =>
    -- the loop over the squares, from any count and vector
    have loop (qs : List Quadrant) (count : Nat) (objects : List ι) :
        qs.foldl (fun (state : Nat × List ι) q =>
          if (child q).testInRange p range then
            (state.1 + ((child q).inRange position p range state.2).1,
              ((child q).inRange position p range state.2).2)
          else state) (count, objects) =
        (count + (qs.flatMap fun q =>
            if (child q).testInRange p range then found position p range (child q) else []).length,
          objects ++ qs.flatMap fun q =>
            if (child q).testInRange p range then found position p range (child q) else []) := by
      induction qs generalizing count objects with
      | nil => simp
      | cons q qs step =>
        rw [foldl_cons, flatMap_cons]
        split
        next tested =>
          rw [ih q, step, length_append, append_assoc, Nat.add_assoc]
        next => rw [step, nil_append]
    simp only [BasicQuadTreeNode.inRange, found]
    rw [loop, length_append, append_assoc]

variable {t : BasicQuadTreeNode ι} {range : ℚ}

omit [DecidableEq ι] in
theorem testInRange_of_holds (good : Good rank (Inside position) minSquareSize e t) {p : Point}
    (nonneg : 0 ≤ range) {a : Nat} {x : ι} (holds : Holds a x t)
    (near : (position x).isInRange p range = true) :
    t.testInRange p range = true := by
  cases t with
  | null => exact holds.elim
  | node address area objects child =>
    have hin := good.contained (fun _ _ _ => Area.testInside_of_quadrant) rfl holds
    exact Area.testInRange_of_isInRange hin nonneg near

omit [DecidableEq ι] in
theorem mem_found_iff (good : Good rank (Inside position) minSquareSize e t) (p : Point)
    (nonneg : 0 ≤ range)
    (x : ι) :
    x ∈ found position p range t ↔
      (∃ a, Holds a x t) ∧ (position x).isInRange p range = true := by
  induction t with
  | null => simp [found, Holds]
  | node address area objects child ih =>
    obtain ⟨own, -, -, below⟩ := (good_node_iff ..).mp good
    simp only [found, mem_append, mem_filter, mem_flatMap, Holds]
    constructor
    · rintro (⟨mem, near⟩ | ⟨q, -, mem⟩)
      · exact ⟨⟨address, .inl ⟨rfl, mem⟩⟩, near⟩
      · split at mem
        · obtain ⟨⟨a, holds⟩, near⟩ := (ih q (below.good q)).mp mem
          exact ⟨⟨a, .inr ⟨q, holds⟩⟩, near⟩
        · cases mem
    · rintro ⟨⟨a, ⟨-, mem⟩ | ⟨q, holds⟩⟩, near⟩
      · exact .inl ⟨mem, near⟩
      · right
        refine ⟨q, q.mem_all, ?_⟩
        rw [if_pos (testInRange_of_holds (below.good q) nonneg holds near)]
        exact (ih q (below.good q)).mpr ⟨⟨a, holds⟩, near⟩

omit [DecidableEq ι] in
theorem nodup_found (good : Good rank (Inside position) minSquareSize e t) (p : Point)
    (nonneg : 0 ≤ range) :
    (found position p range t).Nodup := by
  induction t with
  | null => exact nodup_nil
  | node address area objects child ih =>
    obtain ⟨own, -, -, below⟩ := (good_node_iff ..).mp good
    have holder (q : Quadrant) (x : ι) (mem : x ∈ if (child q).testInRange p range then
        found position p range (child q) else []) : ∃ a, Holds a x (child q) := by
      split at mem
      · exact ((mem_found_iff (below.good q) p nonneg x).mp mem).1
      · cases mem
    apply nodup_append.mpr
    refine ⟨(nodup_of_strictlySorted own.sorted).filter _, nodup_flatMap.mpr ⟨?_, ?_⟩, ?_⟩
    · intro q _
      split
      · exact ih q (below.good q)
      · exact nodup_nil
    · apply Quadrant.nodup_all.imp
      intro q r ne x inQ inR
      obtain ⟨a, holdsQ⟩ := holder q x inQ
      obtain ⟨b, holdsR⟩ := holder r x inR
      -- an object points to one node, and the quadrants share none
      have eq : a = b := Option.some.inj
        (((below.good q).pointers holdsQ).symm.trans ((below.good r).pointers holdsR))
      exact below.apart q r ne a holdsQ.has (eq ▸ holdsR.has)
    · rintro x here _ hin rfl
      obtain ⟨q, -, mem⟩ := mem_flatMap.mp hin
      obtain ⟨a, holds⟩ := holder q x mem
      have eq : a = address := Option.some.inj
        (((below.good q).pointers holds).symm.trans (own.pointers x (mem_filter.mp here).1))
      exact below.above q (eq ▸ holds.has)

end Queries

/-! ### Every run -/

inductive Op (ι : Type)
  | insert (obj : ι)
  | remove (obj : ι)
  | move (obj : ι) (p : Point)

def perform (compareTo : ι → ι → Int) (minSquareSize : Int) (s : BasicQuadTree ι) :
    Op ι → Except Exception (BasicQuadTree ι)
  | .insert obj => s.insert compareTo minSquareSize obj
  | .remove obj => s.remove compareTo obj
  | .move obj p => .ok { s with position := Function.update s.position obj p }

/-- Objects are inserted at positions in the root's area and move only while not inserted. -/
def Allowed (area : Area) (s : BasicQuadTree ι) (inserted : Finset ι) : Op ι → Prop
  | .insert obj => area.testInside (s.position obj)
  | .remove _ => True
  | .move obj _ => obj ∉ inserted

def after (inserted : Finset ι) : Op ι → Finset ι
  | .insert obj => Insert.insert obj inserted
  | .remove obj => inserted.erase obj
  | .move _ _ => inserted

def moved (position : ι → Point) : Op ι → ι → Point
  | .move obj p => Function.update position obj p
  | _ => position

/-- The states that the allowed calls lead to, with the objects that are inserted. -/
inductive Runs (compareTo : ι → ι → Int) (minSquareSize : Int) (area : Area) :
    BasicQuadTree ι → Finset ι → Prop
  | start (position : ι → Point) : Runs compareTo minSquareSize area (start area position) ∅
  | step (s s' : BasicQuadTree ι) (inserted : Finset ι) (op : Op ι)
    (before : Runs compareTo minSquareSize area s inserted) (allowed : Allowed area s inserted op)
    (performed : perform compareTo minSquareSize s op = .ok s') :
    Runs compareTo minSquareSize area s' (after inserted op)

def Admitted (within : Area → Point → Prop) (area : Area) (s : BasicQuadTree ι)
    (inserted : Finset ι) : Op ι → Prop
  | .insert obj => within area (s.position obj)
  | .remove _ => True
  | .move obj p => obj ∈ inserted → ∀ area, within area (s.position obj) → within area p

omit [DecidableEq ι] in
theorem Allowed.admitted {area : Area} {s : BasicQuadTree ι} {inserted : Finset ι} {op : Op ι}
    (allowed : Allowed area s inserted op) :
    Admitted Area.testInside area s inserted op := by
  cases op with
  | insert obj => exact allowed
  | remove obj => trivial
  | move obj p => exact fun mem => absurd mem allowed

section Invariant

variable {κ : Type} [LinearOrder κ] {rank : ι → κ} {compareTo : ι → ι → Int} {minSquareSize : Int}
  {area : Area}

structure Sound (rank : ι → κ) (within : Area → Point → Prop) (minSquareSize : Int) (area : Area)
    (s : BasicQuadTree ι) (inserted : Finset ι) : Prop where
  good : Good rank (fun area x => within area (s.position x)) minSquareSize s.entries s.root
  root : s.root ≠ .null
  covers : Covers area s.root
  objects : ∀ x, (∃ a, Holds a x s.root) ↔ x ∈ inserted
  free : ∀ x, x ∉ inserted → s.entries.node x = none
  bounding : ∀ x, s.entries.bounding x = false

variable {s : BasicQuadTree ι} {inserted : Finset ι} {within : Area → Point → Prop}

omit [DecidableEq ι] in
theorem Sound.node_iff (sound : Sound rank within minSquareSize area s inserted) (x : ι) (a : Nat) :
    s.entries.node x = some a ↔ Holds a x s.root := by
  constructor
  · intro ptr
    have hin : x ∈ inserted := by
      by_contra out
      rw [sound.free x out] at ptr
      cases ptr
    obtain ⟨b, holds⟩ := (sound.objects x).mpr hin
    rw [sound.good.pointers holds] at ptr
    cases ptr
    exact holds
  · exact fun holds => sound.good.pointers holds

omit [DecidableEq ι] in
theorem sound_start (position : ι → Point) :
    Sound rank within minSquareSize area (start area position) ∅ where
  good := by
    apply (good_node_iff ..).mpr
    refine ⟨⟨Pairwise.nil, by simp, by simp, Nat.lt_succ_self _⟩, .inl rfl, by simp, ?_⟩
    exact ⟨by simp [Has], by simp [Has], fun _ => trivial, fun _ => trivial⟩
  root := by simp [start]
  covers := rfl
  objects x := by simp [start, Holds]
  free _ _ := rfl
  bounding _ := rfl

variable (order : OrderedBy compareTo rank) (injective : Function.Injective rank)
include order injective

theorem remove_spec (sound : Sound rank within minSquareSize area s inserted) (obj : ι) :
    ∃ s', s.remove compareTo obj = .ok s' ∧
      Sound rank within minSquareSize area s' (inserted.erase obj) ∧
      s'.position = s.position := by
  by_cases hin : obj ∈ inserted
  · obtain ⟨a, holds⟩ := (sound.objects obj).mpr hin
    obtain ⟨root, ran, some, removed⟩ :=
      BasicQuadTreeNode.remove_spec order injective sound.good holds
    refine ⟨⟨root, setNode obj none s.entries, s.position⟩, ?_, ?_, rfl⟩
    · simp only [remove, onNodes, ran]
    refine ⟨removed.good, some, removed.covers area sound.covers, ?_, ?_, sound.bounding⟩
    · intro x
      simp only [removed.holds, exists_and_right, sound.objects x, Finset.mem_erase]
      exact and_comm
    · intro x out
      by_cases eq : x = obj
      · rw [eq]
        exact Function.update_self ..
      · refine (Function.update_of_ne eq ..).trans (sound.free x fun also => ?_)
        exact out (Finset.mem_erase.mpr ⟨eq, also⟩)
  -- an object outside the tree points to no node, and nothing happens
  · have ptr : s.entries.node obj = none := sound.free obj hin
    refine ⟨s, ?_, by rwa [Finset.erase_eq_of_notMem hin], rfl⟩
    have unchanged : BasicQuadTreeNode.remove compareTo obj s.root s.entries =
        .ok s.root s.entries := by
      refine get_bind.trans ?_
      simp only [ptr]
      rfl
    simp only [remove, onNodes, unchanged]

theorem removeIfInserted_spec
    (sound : Sound rank within minSquareSize area s inserted) (obj : ι) :
    ∃ s', s.removeIfInserted compareTo obj = .ok s' ∧
      Sound rank within minSquareSize area s' (inserted.erase obj) ∧
      s'.position = s.position := by
  unfold removeIfInserted
  split
  · exact remove_spec order injective sound obj
  next free =>
    rw [not_not] at free
    have out : obj ∉ inserted := by
      intro mem
      obtain ⟨a, holds⟩ := (sound.objects obj).mpr mem
      cases free.symm.trans (sound.good.pointers holds)
    exact ⟨s, rfl, by rwa [Finset.erase_eq_of_notMem out], rfl⟩

variable (positive : 1 ≤ minSquareSize)
  (sends : ∀ area p, within area p → within (area.quadrant (area.locate p)) p)
include sends

theorem insertInto_sound (sound : Sound rank within minSquareSize area s inserted) {obj : ι}
    (absent : obj ∉ inserted) {n : Nat} (fits : area.Fits minSquareSize n)
    (here : within area (s.position obj)) :
    ∃ root entries, insertInto compareTo s.position minSquareSize (n + 1) s.root obj s.entries =
      .ok root entries ∧
      Sound rank within minSquareSize area ⟨root, entries, s.position⟩
        (Insert.insert obj inserted) := by
  obtain ⟨root, entries, ran, new⟩ := insertInto_spec order injective
    (fun area x => sends area (s.position x)) n s.entries s.root area obj sound.good sound.root
    sound.covers fits here (sound.free obj absent) sound.bounding
  refine ⟨root, entries, ran, new.good, new.some, new.covers area sound.covers, ?_, ?_,
    new.bounding⟩
  · intro x
    rw [Finset.mem_insert, ← sound.objects x, or_comm]
    exact new.objects x
  · intro x out
    rw [Finset.mem_insert, not_or] at out
    have nowhere (a : Nat) (holds : Holds a x s.root) : False :=
      out.2 ((sound.objects x).mp ⟨a, holds⟩)
    exact (new.frame x nowhere out.1).trans (sound.free x out.2)

include positive

theorem insert_spec (sound : Sound rank within minSquareSize area s inserted) {obj : ι}
    (here : within area (s.position obj)) :
    ∃ s', s.insert compareTo minSquareSize obj = .ok s' ∧
      Sound rank within minSquareSize area s' (Insert.insert obj inserted) ∧
      s'.position = s.position := by
  -- an object that is in the tree is taken out first
  obtain ⟨s₁, fst, sound₁, pos⟩ := removeIfInserted_spec order injective sound obj
  obtain ⟨root, entries, ran, sound₂⟩ := insertInto_sound order injective sends sound₁
    (Finset.notMem_erase obj inserted) (area.fits_depth positive) (pos ▸ here)
  refine ⟨⟨root, entries, s₁.position⟩, ?_, ?_, pos⟩
  · unfold insert
    rw [fst]
    cases tree : s₁.root with
    | null => exact absurd tree sound₁.root
    | node address area' objects child =>
      have covers : Covers area s₁.root := sound₁.covers
      rw [tree] at covers ran
      cases (show area' = area from covers)
      simp only [bind, Except.bind, tree, onNodes, ran]
  · convert sound₂ using 1
    ext x
    by_cases eq : x = obj <;> simp [eq]

theorem perform_spec (sound : Sound rank within minSquareSize area s inserted)
    {op : Op ι} (admitted : Admitted within area s inserted op) :
    ∃ s', perform compareTo minSquareSize s op = .ok s' ∧
      Sound rank within minSquareSize area s' (after inserted op) ∧
      s'.position = moved s.position op := by
  cases op with
  | insert obj => exact insert_spec order injective positive sends sound admitted
  | remove obj => exact remove_spec order injective sound obj
  | move obj p =>
    refine ⟨_, rfl, ⟨?_, sound.root, sound.covers, sound.objects, sound.free, sound.bounding⟩, rfl⟩
    apply sound.good.moved
    intro a x holds area hin
    by_cases eq : x = obj
    · rw [eq] at holds hin ⊢
      simpa using admitted ((sound.objects obj).mp ⟨a, holds⟩) area hin
    · simpa [eq] using hin

omit sends

theorem Runs.sound (runs : Runs compareTo minSquareSize area s inserted) :
    Sound rank Area.testInside minSquareSize area s inserted := by
  induction runs with
  | start position => exact sound_start position
  | step s s' inserted op _ allowed performed ih =>
    obtain ⟨s'', performed', sound, -⟩ := perform_spec order injective positive
      (fun _ _ => Area.testInside_locate) ih allowed.admitted
    rw [performed] at performed'
    cases performed'
    exact sound

omit order injective positive

/-- In every run a query adds the inserted objects that are in range, each once. -/
theorem runs_inRange (order : OrderedBy compareTo rank) (injective : Function.Injective rank)
    (positive : 1 ≤ minSquareSize) {s : BasicQuadTree ι} {inserted : Finset ι}
    (runs : Runs compareTo minSquareSize area s inserted) :
    (∀ op, Allowed area s inserted op → ∃ s', perform compareTo minSquareSize s op = .ok s' ∧
        s'.position = moved s.position op) ∧
      (∀ x, (∃ a, s.entries.node x = some a) ↔ x ∈ inserted) ∧
      (∀ x a, s.entries.node x = some a ↔ Holds a x s.root) ∧
      ∀ (p : Point) (range : ℚ) (objects : List ι), 0 ≤ range → ∃ result : List ι,
        s.inRange p range objects = (result.length, objects ++ result) ∧ result.Nodup ∧
        ∀ x, x ∈ result ↔ x ∈ inserted ∧ (position s x).isInRange p range = true := by
  have sound := runs.sound order injective positive
  refine ⟨?_, ?_, sound.node_iff, ?_⟩
  · intro op allowed
    obtain ⟨s', performed, -, kept⟩ := perform_spec order injective positive
      (fun _ _ => Area.testInside_locate) sound allowed.admitted
    exact ⟨s', performed, kept⟩
  · intro x
    simp only [sound.node_iff, sound.objects]
  · intro p range objects nonneg
    refine ⟨found s.position p range s.root, inRange_eq p range s.root objects,
      nodup_found sound.good p nonneg, fun x => ?_⟩
    rw [mem_found_iff sound.good p nonneg x, sound.objects x]

theorem runs_inRange_corner :
    let compareTo : Fin 3 → Fin 3 → Int := fun a b => b.val - a.val
    let position : Fin 3 → Point := fun i => ⟨1, 1 + i.val⟩
    ∃ s : BasicQuadTree (Fin 3), Runs compareTo 1 ⟨0, 0, 8, 8⟩ s {1, 0} ∧ s.position = position ∧
      ∃ result, s.inRange ⟨1, 0⟩ 2 [] = (result.length, result) ∧ result.Nodup ∧
        0 ∈ result ∧ 1 ∈ result ∧ 2 ∉ result := by
  intro compareTo position
  have order : OrderedBy compareTo Fin.val := by
    constructor <;> intro a b <;> simp only [compareTo] <;> omega
  have injective : Function.Injective (Fin.val : Fin 3 → Nat) := fun _ _ => Fin.ext
  have hin (i : Fin 3) : (⟨0, 0, 8, 8⟩ : Area).testInside (position i) := by
    have low : (0 : ℚ) ≤ i.val := Nat.cast_nonneg _
    have high : (i.val : ℚ) < 3 := by exact_mod_cast i.isLt
    refine ⟨?_, ?_, ?_, ?_⟩ <;> simp only [position] <;> linarith
  have empty : Runs compareTo 1 ⟨0, 0, 8, 8⟩ _ _ := Runs.start position
  obtain ⟨s₁, ran₁, at₁⟩ := (runs_inRange order injective (by decide) empty).1 (.insert 0)
    (hin 0)
  have fst := Runs.step _ s₁ _ (.insert 0) empty (hin 0) ran₁
  have hin₁ : (⟨0, 0, 8, 8⟩ : Area).testInside (s₁.position 1) := at₁ ▸ hin 1
  obtain ⟨s₂, ran₂, at₂⟩ := (runs_inRange order injective (by decide) fst).1 (.insert 1)
    hin₁
  have snd := Runs.step _ s₂ _ (.insert 1) fst hin₁ ran₂
  have places : s₂.position = position := at₂.trans at₁
  obtain ⟨-, -, -, query⟩ := runs_inRange order injective (by decide) snd
  obtain ⟨result, found, nodup, members⟩ := query ⟨1, 0⟩ 2 [] (by norm_num)
  refine ⟨s₂, snd, places, result, found, nodup, ?_, ?_, ?_⟩
  · rw [members, places]
    exact ⟨by decide, by norm_num [position, Point.isInRange]⟩
  · rw [members, places]
    exact ⟨by decide, by norm_num [position, Point.isInRange]⟩
  · rw [members]
    exact fun both => absurd both.1 (by decide)

end Invariant

end BasicQuadTree

end Engine3
