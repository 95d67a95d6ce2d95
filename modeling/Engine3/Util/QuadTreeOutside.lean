import Engine3.Util.QuadTreeRuns

/-!
# Quad trees with objects outside of the root's area

An object that is in no area goes to the north east, at every division. The invariant of the tree
does not need objects to be inside: it only says of those inside the root's area that they are
inside the area of their node. Queries do not know of this: they pass over a square that is not in
range of where the object really is.
-/
namespace Engine3

open Exec SortedVector

/-! ### The box test -/

namespace Area

/-- An area that has points in it. -/
def Proper (area : Area) : Prop := area.minX < area.maxX ∧ area.minY < area.maxY

def Close (low high a range : ℚ) : Prop :=
  (low ≤ a ∧ a < high) ∨ |low - a| ≤ range ∨ |high - a| ≤ range

theorem testInRange_iff (area : Area) (p : Point) (range : ℚ) :
    area.testInRange p range = true ↔
      Close area.minX area.maxX p.x range ∧ Close area.minY area.maxY p.y range := by
  simp only [testInRange, Close]
  split
  next hin =>
    simp only [Bool.and_eq_true, decide_eq_true_eq] at hin
    exact ⟨fun _ => ⟨.inl hin.1, .inl hin.2⟩, fun _ => rfl⟩
  next => simp only [Bool.and_eq_true, Bool.or_eq_true, decide_eq_true_eq]

theorem Close.wider {low high low' high' a range : ℚ} (close : Close low' high' a range)
    (left : low ≤ low') (order : low' ≤ high') (right : high' ≤ high) : Close low high a range := by
  by_cases above : low ≤ a
  · by_cases below : a < high
    · exact .inl ⟨above, below⟩
    · -- behind the upper end, which is the nearest
      right; right
      rw [abs_le]
      rcases close with hin | near | near
      · exact absurd (hin.2.trans_le right) below
      · have bound := abs_le.mp near
        constructor <;> linarith
      · have bound := abs_le.mp near
        constructor <;> linarith
  · right; left
    rw [abs_le]
    rcases close with hin | near | near
    · exact absurd (left.trans hin.1) above
    · have bound := abs_le.mp near
      constructor <;> linarith
    · have bound := abs_le.mp near
      constructor <;> linarith

def Ordered (area : Area) : Prop := area.minX ≤ area.maxX ∧ area.minY ≤ area.maxY

theorem Ordered.quadrant {area : Area} (ord : area.Ordered) (q : Quadrant) :
    (area.quadrant q).Ordered := by
  obtain ⟨x, y⟩ := ord
  cases q <;> simp only [Ordered, Area.quadrant, dividerX, dividerY] <;> constructor <;> linarith

theorem testInRange_of_quadrant {area : Area} (ord : area.Ordered) {q : Quadrant} {p : Point}
    {range : ℚ} (near : (area.quadrant q).testInRange p range = true) :
    area.testInRange p range = true := by
  obtain ⟨orderX, orderY⟩ := ord.quadrant q
  obtain ⟨x, y⟩ := ord
  rw [testInRange_iff] at near ⊢
  constructor
  · apply near.1.wider _ orderX
    · cases q <;> simp only [quadrant, dividerX] <;> linarith
    · cases q <;> simp only [quadrant, dividerX] <;> linarith
  · apply near.2.wider _ orderY
    · cases q <;> simp only [quadrant, dividerY] <;> linarith
    · cases q <;> simp only [quadrant, dividerY] <;> linarith

end Area

/-! ### Runs with objects anywhere -/

namespace BasicQuadTree

open BasicQuadTreeNode

variable {ι : Type} [DecidableEq ι]

/-- Objects are inserted anywhere and move only while not inserted. -/
def Unmoved (inserted : Finset ι) : Op ι → Prop
  | .insert _ => True
  | .remove _ => True
  | .move obj _ => obj ∉ inserted

/-- The states that calls lead to, with objects at any positions. -/
inductive RunsAnywhere (compareTo : ι → ι → Int) (minSquareSize : Int) (area : Area) :
    BasicQuadTree ι → Finset ι → Prop
  | start (position : ι → Point) : RunsAnywhere compareTo minSquareSize area (start area position) ∅
  | step (s s' : BasicQuadTree ι) (inserted : Finset ι) (op : Op ι)
    (before : RunsAnywhere compareTo minSquareSize area s inserted) (allowed : Unmoved inserted op)
    (performed : perform compareTo minSquareSize s op = .ok s') :
    RunsAnywhere compareTo minSquareSize area s' (after inserted op)

variable {area : Area} {inserted : Finset ι}

def InsideIfInside (root area : Area) (p : Point) : Prop := root.testInside p → area.testInside p

theorem InsideIfInside.locate (root area : Area) (p : Point) (hin : InsideIfInside root area p) :
    InsideIfInside root (area.quadrant (area.locate p)) p :=
  fun here => Area.testInside_locate (hin here)

omit [DecidableEq ι] in
theorem Unmoved.admitted {s : BasicQuadTree ι} {op : Op ι} (unmoved : Unmoved inserted op) :
    Admitted (InsideIfInside area) area s inserted op := by
  cases op with
  | insert obj => exact id
  | remove obj => trivial
  | move obj p => exact fun mem => absurd mem unmoved

theorem RunsAnywhere.sound {κ : Type} [LinearOrder κ] {rank : ι → κ} {compareTo : ι → ι → Int}
    {minSquareSize : Int} (order : OrderedBy compareTo rank) (inj : Function.Injective rank)
    (pos : 1 ≤ minSquareSize) {s : BasicQuadTree ι}
    (runs : RunsAnywhere compareTo minSquareSize area s inserted) :
    Sound rank (InsideIfInside area) minSquareSize area s inserted := by
  induction runs with
  | start position => exact sound_start _
  | step s s' inserted op _ unmoved performed ih =>
    obtain ⟨s'', performed', sound, -⟩ := perform_spec order inj pos
      (InsideIfInside.locate area) ih unmoved.admitted
    rw [performed] at performed'
    cases performed'
    exact sound

/-! ### How deep insertions go -/

/-- The states that calls lead to. Objects may be anywhere, and move while they are inserted. -/
inductive Reached (compareTo : ι → ι → Int) (minSquareSize : Int) (area : Area) :
    BasicQuadTree ι → Finset ι → Prop
  | start (position : ι → Point) : Reached compareTo minSquareSize area (start area position) ∅
  | step (s s' : BasicQuadTree ι) (inserted : Finset ι) (op : Op ι)
    (before : Reached compareTo minSquareSize area s inserted)
    (performed : perform compareTo minSquareSize s op = .ok s') :
    Reached compareTo minSquareSize area s' (after inserted op)

theorem Reached.sound {κ : Type} [LinearOrder κ] {rank : ι → κ} {compareTo : ι → ι → Int}
    {minSquareSize : Int} (order : OrderedBy compareTo rank) (inj : Function.Injective rank)
    (pos : 1 ≤ minSquareSize) {s : BasicQuadTree ι}
    (reached : Reached compareTo minSquareSize area s inserted) :
    Sound rank (fun _ _ => True) minSquareSize area s inserted := by
  induction reached with
  | start position => exact sound_start _
  | step s s' inserted op _ performed ih =>
    have admitted : Admitted (fun _ _ => True) area s inserted op := by
      cases op <;> simp [Admitted]
    obtain ⟨s'', performed', sound, -⟩ := perform_spec order inj pos
      (fun _ _ => id) ih admitted
    rw [performed] at performed'
    cases performed'
    exact sound

/-- An insertion returns within as many nested calls as the area can be halved. -/
theorem insertion_terminates {κ : Type} [LinearOrder κ] {rank : ι → κ} {compareTo : ι → ι → Int}
    {minSquareSize : Int} {area : Area} (order : OrderedBy compareTo rank)
    (injective : Function.Injective rank) (positive : 1 ≤ minSquareSize) {s : BasicQuadTree ι}
    {inserted : Finset ι} (reached : Reached compareTo minSquareSize area s inserted) (obj : ι) :
    (∃ s', s.insert compareTo minSquareSize obj = .ok s') ∧
      ∃ s₁, s.removeIfInserted compareTo obj = .ok s₁ ∧
        ∀ calls, area.halvings minSquareSize < calls → ∃ root entries,
          insertInto compareTo s.position minSquareSize calls s₁.root obj s₁.entries =
            .ok root entries := by
  have sound := reached.sound order injective positive
  constructor
  · obtain ⟨s', inserts, -⟩ := insert_spec order injective positive (fun _ _ => id) sound trivial
    exact ⟨s', inserts⟩
  obtain ⟨s₁, removes, sound₁, position⟩ := removeIfInserted_spec order injective sound obj
  refine ⟨s₁, removes, fun calls le => ?_⟩
  obtain ⟨n, rfl⟩ := Nat.exists_eq_add_one_of_ne_zero (Nat.ne_zero_of_lt le)
  have fits := (Area.fits_iff_halvings_le positive n).mpr (Nat.le_of_lt_succ le)
  obtain ⟨root, entries, ran, -⟩ := insertInto_sound order injective (fun _ _ => id) sound₁
    (Finset.notMem_erase obj inserted) fits trivial
  exact ⟨root, entries, position ▸ ran⟩

theorem insertion_terminates_twice :
    let compareTo : Fin 2 → Fin 2 → Int := fun a b => b.val - a.val
    ∃ s : BasicQuadTree (Fin 2), Reached compareTo 8 ⟨0, 0, 100, 100⟩ s {0} ∧
      s.removeIfInserted compareTo 1 = .ok s ∧ ∃ root entries,
        insertInto compareTo s.position 8 5 s.root 1 s.entries = .ok root entries := by
  intro compareTo
  have order : OrderedBy compareTo Fin.val := by
    constructor <;> intro a b <;> simp only [compareTo] <;> omega
  have inj : Function.Injective (Fin.val : Fin 2 → Nat) := fun _ _ => Fin.ext
  have empty : Reached compareTo 8 ⟨0, 0, 100, 100⟩ _ _ := Reached.start fun _ => ⟨10, 10⟩
  obtain ⟨⟨s, ran⟩, -⟩ := insertion_terminates order inj (by decide) empty 0
  have fst := Reached.step _ s _ (.insert 0) empty ran
  obtain ⟨-, s₁, removes, returns⟩ := insertion_terminates order inj (by decide) fst 1
  have free : s.entries.node 1 = none :=
    (fst.sound order inj (by decide)).free 1 (by decide)
  have eq : s.removeIfInserted compareTo 1 = .ok s := by simp [removeIfInserted, free]
  rw [eq] at removes
  cases removes
  exact ⟨s, fst, eq, returns 5 (by decide +kernel)⟩

/-! ### Queries -/

/-- A node that covers this area holds the object. -/
def HoldsIn (area : Area) (x : ι) : BasicQuadTreeNode ι → Prop
  | .null => False
  | .node _ area' objects child => (area' = area ∧ x ∈ objects) ∨ ∃ q, HoldsIn area x (child q)

def rootObjects : BasicQuadTreeNode ι → List ι
  | .null => []
  | .node _ _ objects _ => objects

variable {κ : Type} [LinearOrder κ] {rank : ι → κ} {minSquareSize : Int} {position : ι → Point}
  {inside : Area → ι → Prop} {area : Area} {x : ι} {e : QuadTreeEntries ι} {t : BasicQuadTreeNode ι}

omit [DecidableEq ι] in
theorem mem_found_node {p : Point} {range : ℚ} {address : Nat} {objects : List ι}
    {child : Quadrant → BasicQuadTreeNode ι} :
    x ∈ found position p range (.node address area objects child) ↔
      (x ∈ objects ∧ (position x).isInRange p range = true) ∨
        ∃ q, (child q).testInRange p range = true ∧ x ∈ found position p range (child q) := by
  simp only [found, List.mem_append, List.mem_filter, List.mem_flatMap]
  apply or_congr_right
  constructor
  · rintro ⟨q, -, mem⟩
    split at mem
    next tested => exact ⟨q, tested, mem⟩
    next => cases mem
  · rintro ⟨q, tested, mem⟩
    exact ⟨q, q.mem_all, by rwa [if_pos tested]⟩

omit [DecidableEq ι] in
theorem mem_found_below (position : ι → Point) (good : Good rank inside minSquareSize e t)
    (covers : Covers area t) (ord : area.Ordered) (p : Point) (range : ℚ) (x : ι) :
    t.testInRange p range = true ∧ x ∈ found position p range t ↔
      (position x).isInRange p range = true ∧
        ∃ square, HoldsIn square x t ∧ square.testInRange p range = true := by
  induction t generalizing area with
  | null => simp [found, HoldsIn]
  | node address area' objects child ih =>
    cases (show area' = area from covers)
    obtain ⟨-, -, -, below⟩ := (good_node_iff ..).mp good
    have squares (q : Quadrant) := ih q (below.good q) (below.covers q) (ord.quadrant q)
    rw [mem_found_node]
    constructor
    · rintro ⟨tested, ⟨mem, near⟩ | ⟨q, found⟩⟩
      · exact ⟨near, area', .inl ⟨rfl, mem⟩, tested⟩
      · obtain ⟨near, square, holds, inRange⟩ := (squares q).mp found
        exact ⟨near, square, .inr ⟨q, holds⟩, inRange⟩
    · rintro ⟨near, square, ⟨rfl, mem⟩ | ⟨q, holds⟩, inRange⟩
      · exact ⟨inRange, .inl ⟨mem, near⟩⟩
      · have passed := (squares q).mpr ⟨near, square, holds, inRange⟩
        refine ⟨?_, .inr ⟨q, passed⟩⟩
        -- the square that lets the query through is one of this area
        have tested := passed.1
        cases sub : child q with
        | null => rw [sub] at tested; cases tested
        | node _ area₁ _ _ =>
          have square := below.covers q
          rw [sub] at tested square
          cases (show area₁ = area'.quadrant q from square)
          exact Area.testInRange_of_quadrant ord tested

omit [DecidableEq ι] in
theorem mem_found_root (position : ι → Point) (good : Good rank inside minSquareSize e t)
    (covers : Covers area t) (ord : area.Ordered) (p : Point) (range : ℚ) (x : ι) :
    x ∈ found position p range t ↔ (position x).isInRange p range = true ∧
      (x ∈ rootObjects t ∨ ∃ square, HoldsIn square x t ∧ square.testInRange p range = true) := by
  cases t with
  | null => simp [found, HoldsIn, rootObjects]
  | node address area' objects child =>
    cases (show area' = area from covers)
    obtain ⟨-, -, -, below⟩ := (good_node_iff ..).mp good
    have squares (q : Quadrant) := mem_found_below position (below.good q) (below.covers q)
      (ord.quadrant q) p range x
    rw [mem_found_node]
    simp only [squares, HoldsIn, rootObjects]
    constructor
    · rintro (⟨mem, near⟩ | ⟨q, near, square, holds, inRange⟩)
      · exact ⟨near, .inl mem⟩
      · exact ⟨near, .inr ⟨square, .inr ⟨q, holds⟩, inRange⟩⟩
    · rintro ⟨near, mem | ⟨square, ⟨rfl, mem⟩ | ⟨q, holds⟩, inRange⟩⟩
      · exact .inl ⟨mem, near⟩
      · exact .inl ⟨mem, near⟩
      · exact .inr ⟨q, near, square, holds, inRange⟩

omit [DecidableEq ι] in
theorem holdsIn_inside (good : Good rank inside minSquareSize e t) {a : Nat}
    (holds : Holds a x t) :
    ∃ square, HoldsIn square x t ∧ inside square x := by
  induction t with
  | null => exact holds.elim
  | node address area objects child ih =>
    obtain ⟨own, -, -, below⟩ := (good_node_iff ..).mp good
    rcases holds with ⟨-, mem⟩ | ⟨q, holds⟩
    · exact ⟨area, .inl ⟨rfl, mem⟩, own.inside x mem⟩
    · obtain ⟨square, held, there⟩ := ih q (below.good q) holds
      exact ⟨square, .inr ⟨q, held⟩, there⟩

/-! ### Objects that look for themselves -/

theorem isInRange_self (p : Point) (range : ℚ) : p.isInRange p range = true := by
  simp [Point.isInRange, mul_self_nonneg]

/-- Found exactly if the root holds it or the square of its node is in range. -/
theorem runs_query_self {κ : Type} [LinearOrder κ] {rank : ι → κ} {compareTo : ι → ι → Int}
    {minSquareSize : Int} {area : Area} (order : OrderedBy compareTo rank)
    (injective : Function.Injective rank) (positive : 1 ≤ minSquareSize) (proper : area.Proper)
    {s : BasicQuadTree ι} {inserted : Finset ι}
    (runs : RunsAnywhere compareTo minSquareSize area s inserted) :
    (∀ op, Unmoved inserted op → ∃ s', perform compareTo minSquareSize s op = .ok s' ∧
        s'.position = moved s.position op) ∧
      ∀ x ∈ inserted, ∀ range : ℚ, 0 ≤ range →
        (x ∈ (s.inRange (s.position x) range []).2 ↔
          x ∈ rootObjects s.root ∨
            ∃ square, HoldsIn square x s.root ∧ square.testInRange (s.position x) range = true) ∧
        (area.testInside (s.position x) → x ∈ (s.inRange (s.position x) range []).2) := by
  have sound := runs.sound order injective positive
  constructor
  · intro op allowed
    obtain ⟨s', performed, -, kept⟩ := perform_spec order injective positive
      (InsideIfInside.locate area) sound allowed.admitted
    exact ⟨s', performed, kept⟩
  intro x mem range nonneg
  have query : x ∈ found s.position (s.position x) range s.root ↔ _ := mem_found_root s.position
    sound.good sound.covers ⟨proper.1.le, proper.2.le⟩ (s.position x) range x
  rw [inRange, inRange_eq, List.nil_append, query]
  refine ⟨and_iff_right (isInRange_self _ _), fun inside => ⟨isInRange_self _ _, .inr ?_⟩⟩
  obtain ⟨a, holds⟩ := (sound.objects x).mpr mem
  obtain ⟨square, held, there⟩ := holdsIn_inside sound.good holds
  exact ⟨square, held, Area.testInRange_of_isInRange (there inside) nonneg (isInRange_self _ _)⟩

theorem runs_query_self_first :
    let compareTo : Fin 2 → Fin 2 → Int := fun a b => b.val - a.val
    (∃ s : BasicQuadTree (Fin 2), RunsAnywhere compareTo 8 ⟨0, 0, 100, 100⟩ s {0} ∧
      0 ∈ (s.inRange (s.position 0) 1 []).2) ∧
    ∃ s : BasicQuadTree (Fin 2), RunsAnywhere compareTo 8 ⟨0, 0, 100, 100⟩ s {0} ∧
      s.position 0 = ⟨200, 200⟩ ∧ 0 ∈ (s.inRange (s.position 0) 1 []).2 := by
  intro compareTo
  have order : OrderedBy compareTo Fin.val := by
    constructor <;> intro a b <;> simp only [compareTo] <;> omega
  have inj : Function.Injective (Fin.val : Fin 2 → Nat) := fun _ _ => Fin.ext
  have proper : (⟨0, 0, 100, 100⟩ : Area).Proper := by constructor <;> norm_num
  have empty (position : Point) : RunsAnywhere compareTo 8 ⟨0, 0, 100, 100⟩ _ _ :=
    RunsAnywhere.start fun _ => position
  constructor
  · obtain ⟨s, ran, kept⟩ :=
      (runs_query_self order inj (by decide) proper (empty ⟨10, 10⟩)).1 (.insert 0) trivial
    have first := (empty ⟨10, 10⟩).step _ s _ (.insert 0) trivial ran
    have inside : (⟨0, 0, 100, 100⟩ : Area).testInside (s.position 0) := by
      rw [kept]
      refine ⟨?_, ?_, ?_, ?_⟩ <;> norm_num [moved, start]
    exact ⟨s, first, ((runs_query_self order inj (by decide) proper first).2 0 (by decide) 1
      (by norm_num)).2 inside⟩
  · have ran : ((start ⟨0, 0, 100, 100⟩ fun _ => ⟨200, 200⟩).insert compareTo 8 0).toOption.map
        (fun s => (s.position 0, rootObjects s.root)) = some (⟨200, 200⟩, [0]) := by
      decide +kernel
    cases done : (start ⟨0, 0, 100, 100⟩ fun _ => ⟨200, 200⟩).insert compareTo 8 0 with
    | error ex => rw [done] at ran; cases ran
    | ok s =>
      simp only [done, Except.toOption, Option.map_some, Option.some.injEq, Prod.mk.injEq] at ran
      obtain ⟨place, held⟩ := ran
      have first := (empty ⟨200, 200⟩).step _ s _ (.insert 0) trivial done
      refine ⟨s, first, place, ?_⟩
      apply ((runs_query_self order inj (by decide) proper first).2 0 (by decide) 1
        (by norm_num)).1.mpr
      rw [held]
      exact .inl (List.mem_singleton_self 0)

theorem runs_query_misses :
    let compareTo : Fin 2 → Fin 2 → Int := fun a b => b.val - a.val
    ∃ s : BasicQuadTree (Fin 2), RunsAnywhere compareTo 8 ⟨0, 0, 100, 100⟩ s {1, 0} ∧
      s.position 1 = ⟨200, 200⟩ ∧ 1 ∉ (s.inRange (s.position 1) 1 []).2 := by
  intro compareTo
  let position : Fin 2 → Point := fun i => if i = 0 then ⟨10, 10⟩ else ⟨200, 200⟩
  have ran : (match (start ⟨0, 0, 100, 100⟩ position).insert compareTo 8 0 with
      | .error _ => none
      | .ok s₁ =>
        match s₁.insert compareTo 8 1 with
        | .error _ => none
        | .ok s₂ => some (s₂.position 1, (s₂.inRange (s₂.position 1) 1 []).2)) =
      some (⟨200, 200⟩, []) := by decide +kernel
  have empty : RunsAnywhere compareTo 8 ⟨0, 0, 100, 100⟩ _ _ := RunsAnywhere.start position
  cases fst : (start ⟨0, 0, 100, 100⟩ position).insert compareTo 8 0 with
  | error ex => rw [fst] at ran; cases ran
  | ok s₁ =>
    cases snd : s₁.insert compareTo 8 1 with
    | error ex => simp only [fst, snd] at ran; cases ran
    | ok s₂ =>
      simp only [fst, snd, Option.some.injEq, Prod.mk.injEq] at ran
      obtain ⟨place, missed⟩ := ran
      have both := (empty.step _ s₁ _ (.insert 0) trivial fst).step _ s₂ _ (.insert 1) trivial
        snd
      refine ⟨s₂, both, place, ?_⟩
      rw [missed]
      exact List.not_mem_nil

end BasicQuadTree

end Engine3
