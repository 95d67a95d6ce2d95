import Mathlib.Data.Fintype.Card
import Mathlib.Data.List.Chain

/-!
# Searches of a graph

A search keeps a record for every node it has come across. A record waits until it is taken and
expanded: the neighbours of its node that have no record get one, which remembers where it came
from. Which waiting record is taken next is left open, and so is whether a waiting record is
later said to come from another expanded one.
-/
namespace GraphSearch

open List

variable {α ν : Type}

structure Records (α ν : Type) where
  node : α → ν
  cameFrom : α → Option α
  led : Option α → α → Prop

structure IsPath (edge : ν → ν → Prop) (source target : ν) (path : List ν) : Prop where
  first : path.head? = some source
  last : path.getLast? = some target
  steps : path.IsChain edge

section Paths

variable {edge : ν → ν → Prop} {source x y : ν} {path : List ν}

theorem isPath_source : IsPath edge source source [source] :=
  ⟨rfl, rfl, isChain_singleton source⟩

theorem IsPath.snoc (walk : IsPath edge source x path) (step : edge x y) :
    IsPath edge source y (path ++ [y]) where
  first := by rw [head?_append, walk.first, Option.some_or]
  last := getLast?_concat
  steps := by
    rw [isChain_append]
    refine ⟨walk.steps, isChain_singleton y, ?_⟩
    intro a isLast b isFirst
    rw [walk.last, Option.mem_some_iff] at isLast
    rw [head?_cons, Option.mem_some_iff] at isFirst
    rwa [← isLast, ← isFirst]

theorem IsPath.rec_on {P : ν → List ν → Prop} (walk : IsPath edge source y path)
    (start : P source [source])
    (step : ∀ x y path, IsPath edge source x path → P x path → edge x y → P y (path ++ [y])) :
    P y path := by
  induction path using reverseRecOn generalizing y with
  | nil => cases walk.first
  | append_singleton front z ih =>
    obtain rfl : z = y := by
      have last := walk.last
      rwa [List.getLast?_concat, Option.some.injEq] at last
    rcases List.eq_nil_or_concat front with rfl | ⟨before, x, rfl⟩
    · obtain rfl : z = source := Option.some.inj walk.first
      exact start
    · rw [List.concat_eq_append] at walk ih ⊢
      obtain ⟨front, -, joined⟩ := isChain_append.mp walk.steps
      have earlier : IsPath edge source x (before ++ [x]) := by
        refine ⟨?_, List.getLast?_concat, front⟩
        have fst := walk.first
        rwa [head?_append_of_ne_nil _ (by simp)] at fst
      exact step x z _ earlier (ih earlier) (joined x (by simp) z (by simp))

theorem IsPath.reachable (walk : IsPath edge source x path) :
    Relation.ReflTransGen edge source x :=
  walk.rec_on (P := fun x _ => Relation.ReflTransGen edge source x) .refl
    fun _ _ _ _ reached step => reached.tail step

end Paths

/-! ### Where a record comes from -/

inductive Lineage (r : Records α ν) : α → List α → Prop
  | first {a : α} (nowhere : r.cameFrom a = none) (led : r.led none a) : Lineage r a []
  | next {a b : α} {trail : List α} (parent : r.cameFrom a = some b) (led : r.led (some b) a)
    (before : Lineage r b trail) : Lineage r a (b :: trail)

section Search

variable (edge : ν → ν → Prop) (source : ν) (r : Records α ν)

def Origin (expanded : List α) (a : α) : Prop :=
  (∀ b, r.cameFrom a = some b → b ∈ expanded) ∧ r.led (r.cameFrom a) a

def Grown : List α → Prop
  | [] => True
  | a :: earlier => Origin r earlier a ∧ Grown earlier

def Covered (records : List α) (a : α) : Prop :=
  ∀ y, edge (r.node a) y → y ∈ records.map r.node

structure Searching (waiting expanded : List α) : Prop where
  distinct : ((expanded ++ waiting).map r.node).Nodup
  start : source ∈ (expanded ++ waiting).map r.node
  waiting : ∀ a ∈ waiting, Origin r expanded a
  grown : Grown r expanded

end Search

variable {edge : ν → ν → Prop} {source : ν} {r r' : Records α ν}
  {expanded waiting : List α} {a x : α}

theorem Grown.lineage (grown : Grown r expanded) (a : α) (origin : Origin r expanded a) :
    ∃ trail, Lineage r a trail ∧ trail.length ≤ expanded.length := by
  obtain ⟨known, led⟩ := origin
  induction expanded generalizing a with
  | nil =>
    cases parent : r.cameFrom a with
    | none => exact ⟨[], .first parent (parent ▸ led), Nat.le_refl _⟩
    | some b => cases known b parent
  | cons c earlier ih =>
    cases parent : r.cameFrom a with
    | none => exact ⟨[], .first parent (parent ▸ led), Nat.zero_le _⟩
    | some b =>
      -- either the newest record led to `a`, or `a` was known before it was expanded
      rcases mem_cons.mp (known b parent) with rfl | mem
      · obtain ⟨trail, before, short⟩ := ih grown.2 b grown.1.1 grown.1.2
        exact ⟨b :: trail, .next parent (parent ▸ led) before, Nat.succ_le_succ short⟩
      · obtain ⟨trail, lineage, short⟩ := ih grown.2 a
          (fun b' parent' => Option.some.inj (parent.symm.trans parent') ▸ mem) led
        exact ⟨trail, lineage, Nat.le_succ_of_le short⟩

theorem Lineage.isPath {trail : List α} (lineage : Lineage r a trail)
    (first : ∀ a, r.led none a → r.node a = source)
    (step : ∀ b a, r.led (some b) a → edge (r.node b) (r.node a)) :
    IsPath edge source (r.node a) ((trail.map r.node).reverse ++ [r.node a]) := by
  induction lineage with
  | first nowhere led =>
    rw [first _ led]
    exact isPath_source
  | next parent led before ih =>
    rw [map_cons, reverse_cons]
    exact ih.snoc (step _ _ led)

/-! ### Steps of a search -/

structure Agree (r r' : Records α ν) (expanded : List α) (a : α) : Prop where
  node : r'.node a = r.node a
  cameFrom : r'.cameFrom a = r.cameFrom a
  led : ∀ p, (∀ b, p = some b → b ∈ expanded) → r.led p a → r'.led p a

theorem Origin.congr {earlier : List α} (origin : Origin r earlier a)
    (hin : earlier ⊆ expanded) (agree : Agree r r' expanded a) : Origin r' earlier a := by
  rw [Origin, agree.cameFrom]
  exact ⟨origin.1, agree.led _ (fun b parent => hin (origin.1 b parent)) origin.2⟩

theorem Grown.congr {earlier : List α} (grown : Grown r earlier) (hin : earlier ⊆ expanded)
    (agree : ∀ a ∈ expanded, Agree r r' expanded a) : Grown r' earlier := by
  induction earlier with
  | nil => trivial
  | cons a earlier ih =>
    obtain ⟨isExpanded, hin⟩ := cons_subset.mp hin
    exact ⟨grown.1.congr hin (agree a isExpanded), ih grown.2 hin⟩

theorem searching_source (a : α) (fst : r.cameFrom a = none) (led : r.led none a) :
    Searching (r.node a) r [a] [] where
  distinct := nodup_singleton _
  start := mem_singleton_self _
  waiting b member := by
    rw [mem_singleton] at member
    rw [member, Origin, fst]
    exact ⟨by simp, led⟩
  grown := trivial

variable (search : Searching source r waiting expanded)
include search

theorem Searching.take {rest : List α} (split : waiting.Perm (x :: rest)) :
    Searching source r rest (x :: expanded) := by
  have moved : (expanded ++ waiting).Perm (x :: expanded ++ rest) :=
    (split.append_left expanded).trans perm_middle
  have origin (a : α) (mem : a ∈ x :: rest) := search.waiting a (split.mem_iff.mpr mem)
  constructor
  · exact (moved.map r.node).nodup_iff.mp search.distinct
  · exact (moved.map r.node).mem_iff.mp search.start
  · intro a mem
    obtain ⟨known, led⟩ := origin a (mem_cons_of_mem x mem)
    exact ⟨fun b parent => mem_cons_of_mem x (known b parent), led⟩
  · exact ⟨origin x mem_cons_self, search.grown⟩

variable (origin : Origin r' expanded a) (agree : ∀ b, b ≠ a → Agree r r' expanded b)
include origin agree

theorem Searching.write {waiting' : List α} (fresh : a ∉ expanded)
    (others : ∀ b ∈ waiting', b = a ∨ b ∈ waiting)
    (nodup : ((expanded ++ waiting').map r'.node).Nodup)
    (start : source ∈ (expanded ++ waiting').map r'.node) :
    Searching source r' waiting' expanded := by
  refine ⟨nodup, start, ?_, ?_⟩
  · intro b mem
    by_cases isA : b = a
    · exact isA ▸ origin
    · exact (search.waiting b ((others b mem).resolve_left isA)).congr (Subset.refl _)
        (agree b isA)
  · exact search.grown.congr (Subset.refl _) fun b known =>
      agree b (ne_of_mem_of_not_mem known fresh)

theorem Searching.find (fresh : a ∉ expanded ++ waiting)
    (new : r'.node a ∉ (expanded ++ waiting).map r.node) :
    Searching source r' (a :: waiting) expanded := by
  have nodes : (expanded ++ waiting).map r'.node = (expanded ++ waiting).map r.node :=
    map_congr_left fun b known => (agree b (ne_of_mem_of_not_mem known fresh)).node
  have moved : ((expanded ++ a :: waiting).map r'.node).Perm
      (r'.node a :: (expanded ++ waiting).map r.node) := by
    rw [← nodes, ← map_cons]
    exact perm_middle.map _
  refine search.write origin agree (fun mem => fresh (mem_append_left _ mem))
    (fun b => mem_cons.mp) ?_ ?_
  · exact moved.nodup_iff.mpr (nodup_cons.mpr ⟨new, search.distinct⟩)
  · exact moved.mem_iff.mpr (mem_cons_of_mem _ search.start)

theorem Searching.redirect (isWaiting : a ∈ waiting) (eq : r'.node a = r.node a) :
    Searching source r' waiting expanded := by
  have nodes : r'.node = r.node := by
    funext b
    by_cases isA : b = a
    · rw [isA, eq]
    · exact (agree b isA).node
  have apart : a ∉ expanded := by
    have nodup := Nodup.of_map r.node search.distinct
    exact fun mem => (nodup_append.mp nodup).2.2 a mem a isWaiting rfl
  refine search.write origin agree apart (fun b => .inr) ?_ ?_ <;> rw [nodes]
  · exact search.distinct
  · exact search.start

omit origin agree

theorem Searching.length_expanded_le [Fintype ν] : expanded.length ≤ Fintype.card ν := by
  have nodup := search.distinct
  rw [map_append] at nodup
  have few := (nodup_append.mp nodup).1.length_le_card
  rwa [length_map] at few

omit search

theorem Searching.complete (search : Searching source r [] expanded)
    (covered : ∀ a ∈ expanded, Covered edge r expanded a) (y : ν)
    (reached : Relation.ReflTransGen edge source y) : y ∈ expanded.map r.node := by
  induction reached with
  | refl =>
    have start := search.start
    rwa [append_nil] at start
  | tail _ step ih =>
    obtain ⟨a, mem, isIt⟩ := mem_map.mp ih
    apply covered a mem
    rwa [isIt]

end GraphSearch
